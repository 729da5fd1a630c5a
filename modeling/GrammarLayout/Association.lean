/-!
# Associations

A finite map as a list of pairs. Looking up a key gives its first value, and assigning one puts the
value in place of that, or at the end of the list.
-/

namespace GrammarLayout

variable {α β : Type} [DecidableEq α]

/-- Puts a value under a key, in place of the one there. -/
def assign (key : α) (value : β) : List (α × β) → List (α × β)
  | [] => [(key, value)]
  | (k, v) :: rest => if k = key then (key, value) :: rest else (k, v) :: assign key value rest

/-- An assignment changes its key and no other. -/
theorem lookup_assign [BEq α] [LawfulBEq α] (key k : α) (value : β) (l : List (α × β)) :
    (assign key value l).lookup k = if k = key then some value else l.lookup k := by
  induction l with
  | nil =>
    by_cases h : k = key
    · simp [assign, h]
    · simp [assign, List.lookup_cons, beq_eq_false_iff_ne.2 h, h]
  | cons e rest ih =>
    obtain ⟨k', v⟩ := e
    by_cases hk : k' = key
    · by_cases h : k = key
      · simp [assign, hk, h]
      · simp [assign, List.lookup_cons, hk, beq_eq_false_iff_ne.2 h, h]
    · by_cases h : k = k'
      · simp [assign, h, hk]
      · simp [assign, List.lookup_cons, hk, beq_eq_false_iff_ne.2 h, ih]

end GrammarLayout
