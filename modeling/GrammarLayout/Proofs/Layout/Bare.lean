import GrammarLayout.Proofs.Grammar.Renumbering
import GrammarLayout.Proofs.Layout.Walk
import GrammarLayout.Proofs.Token.Tiling

/-!
# Bare streams

A stream without its whitespace (`Stream.bare`): the visible segments, numbered anew, with no place
in a source. A token that is kept has a new position, the number of tokens kept before it
(`Stream.rank`). Ranks keep the order of the tokens that are kept, and that is all the layout ever
asks of positions.

What the layout finds around a position of the stream, it finds around its rank in the bare stream:
the token there (`get?_bare`), and the hidden runs before and after it (`hiddenBefore_bare`,
`hiddenAfter_bare`), these without their whitespace.

The bare stream of a source is a function of its visible segments, and that is its use: sources with
the same visible segments have the same bare stream, and each of them is compared with it. So no
statement has to speak of two sources and a correspondence between their positions.

Ranks are defined by counting, so they are monotone without further ado. That they are strictly so
where it matters needs a token that counts at the smaller position (`rank_lt_rank_iff`).
-/

namespace GrammarLayout

/-! ### Ranks -/

namespace Stream

/-- How many tokens of a sort come before a position. -/
def rank (s : Stream) (keep : Token → Bool) (i : Nat) : Nat :=
  ((s.toList.take i).filter keep).length

variable {s : Stream} {keep : Token → Bool} {A B : List Token} {t : Token}

/-- Ranks do not decrease. -/
theorem rank_mono (s : Stream) (keep : Token → Bool) {i j : Nat} (h : i ≤ j) :
    s.rank keep i ≤ s.rank keep j :=
  ((List.take_sublist_take_left h).filter keep).length_le

/-- The rank of a place in the stream. -/
theorem rank_length (h : s.toList = A ++ B) : s.rank keep A.length = (A.filter keep).length := by
  rw [rank, h, List.take_left]

theorem rank_index (h : s.toList = A ++ t :: B) :
    s.rank keep t.index = (A.filter keep).length := by
  rw [index_eq_length h, rank_length h]

/-- **Ranks keep the order** in which a token that counts comes before a position. -/
theorem rank_lt_rank_iff (ht : t ∈ s.toList) (hk : keep t = true) (i : Nat) :
    s.rank keep t.index < s.rank keep i ↔ t.index < i := by
  obtain ⟨A, B, h⟩ := List.append_of_mem ht
  constructor
  · intro hlt
    by_contra hle
    exact absurd (s.rank_mono keep (Nat.le_of_not_lt hle)) (by omega)
  · intro hlt
    have h' : s.toList = (A ++ [t]) ++ B := by rw [h, List.append_cons]
    have hnext : s.rank keep (A.length + 1) = (A.filter keep).length + 1 := by
      rw [← List.length_singleton (a := t), ← List.length_append, rank_length h',
        List.filter_append,
        List.filter_cons_of_pos hk, List.filter_nil, List.length_append]
    have hle := s.rank_mono keep (show A.length + 1 ≤ i by rw [← index_eq_length h]; omega)
    rw [rank_index h]
    omega

/-- Tokens that are kept have their ranks for positions, if they are numbered anew. -/
theorem numberedFrom_filter (h : s.toList = A ++ B) (φ : Token → Token) :
    numberedFrom (A.filter keep).length ((B.filter keep).map φ) =
      (B.filter keep).map fun t ↦ { φ t with index := s.rank keep t.index } := by
  induction B generalizing A with
  | nil => rfl
  | cons t B ih =>
    have h' : s.toList = (A ++ [t]) ++ B := by rw [h, List.append_cons]
    have ih := ih h'
    rw [List.filter_append] at ih
    by_cases hk : keep t = true
    · rw [List.filter_cons_of_pos hk, List.filter_nil, List.length_append,
        List.length_singleton] at ih
      rw [List.filter_cons_of_pos hk, List.map_cons, List.map_cons, numberedFrom, ih, rank_index h]
    · rw [List.filter_cons_of_neg hk, List.filter_nil, List.append_nil] at ih
      rw [List.filter_cons_of_neg hk, ih]

theorem toList_ofTokens (ts : List Token) : (ofTokens ts.toArray).toList = numberedFrom 0 ts := by
  rw [toList, ofTokens, Array.toList_mapIdx, ← mapIdx_eq_numberedFrom]
  rfl

end Stream

/-! ### The stream without its whitespace -/

/-- Whether a token is more than whitespace. -/
def Token.isVisible (t : Token) : Bool := t.segment.isVisible

/-- Main tokens are more than whitespace. -/
theorem Token.isVisible_of_main {t : Token} (h : t.isHidden = false) : t.isVisible = true := by
  show (t.kind != .whitespace) = true
  rw [bne_iff_ne]
  intro hk
  rw [Token.isHidden, hk] at h
  exact absurd h (by decide)

/-- A segment as a token that has no place in a source. -/
def Segment.token (c : Segment) : Token := Token.synthetic c.kind (String.ofList c.text) 0

namespace Stream

/-- The stream of segments that have no place in a source. -/
def ofSegments (cs : List Segment) : Stream := ofTokens (cs.map Segment.token).toArray

/-- A stream without its whitespace, and without the places of its tokens. -/
def bare (s : Stream) : Stream := ofSegments (Segment.visible (s.toList.map Token.segment))

/-- The rank of a position among the tokens that are more than whitespace. -/
def bareIndex (s : Stream) (i : Nat) : Nat := s.rank Token.isVisible i

/-- What is left of a token in the bare stream. -/
def bareToken (s : Stream) (t : Token) : Token :=
  { t.segment.trimmed.token with index := s.bareIndex t.index }

variable {s : Stream} {A B : List Token} {t : Token}

theorem renumbers_bareToken (s : Stream) : Renumbers s.bareIndex s.bareToken where
  kind t := Segment.kind_trimmed t.segment
  index _ := rfl

@[simp] theorem kind_bareToken (s : Stream) (t : Token) : (s.bareToken t).kind = t.kind :=
  Segment.kind_trimmed t.segment

@[simp] theorem isHidden_bareToken (s : Stream) (t : Token) :
    (s.bareToken t).isHidden = t.isHidden := by
  rw [Token.isHidden, kind_bareToken, Token.isHidden]

theorem text_bareToken_of_main (s : Stream) (h : t.isHidden = false) :
    (s.bareToken t).text = t.text := by
  show String.ofList t.segment.trimmed.text = t.text
  rw [Segment.trimmed_of_main (show t.segment.kind.isHidden = false from h)]
  exact String.ofList_toList

theorem text_bareToken_of_hidden (s : Stream) (h : t.isHidden = true) :
    (s.bareToken t).text = trimStringEnd t.text := by
  show String.ofList t.segment.trimmed.text = _
  rw [Segment.trimmed, if_pos (show t.segment.kind.isHidden = true from h)]
  rfl

/-- The bare stream has the visible tokens, numbered anew. -/
theorem toList_bare (s : Stream) :
    s.bare.toList = (s.toList.filter Token.isVisible).map s.bareToken := by
  have hn : numberedFrom 0 ((s.toList.filter Token.isVisible).map fun t ↦ t.segment.trimmed.token) =
      (s.toList.filter Token.isVisible).map s.bareToken :=
    numberedFrom_filter (List.nil_append _).symm fun t ↦ t.segment.trimmed.token
  have hv : (Segment.visible (s.toList.map Token.segment)).map Segment.token =
      (s.toList.filter Token.isVisible).map fun t ↦ t.segment.trimmed.token := by
    rw [Segment.visible, List.filter_map, List.map_map, List.map_map]
    rfl
  rw [bare, ofSegments, hv, toList_ofTokens, hn]

/-- The main tokens are all kept. -/
theorem mainTokens_bare (s : Stream) : s.bare.mainTokens = s.mainTokens.map s.bareToken := by
  rw [mainTokens, toList_bare, List.filter_map, List.filter_filter, mainTokens]
  congr 1
  refine List.filter_congr fun t _ ↦ ?_
  cases hh : t.isHidden with
  | true => simp [hh]
  | false => simp [hh, Token.isVisible_of_main hh]

/-- What stands before and after a position stands before and after its rank. -/
theorem split_bare (h : s.toList = A ++ B) :
    s.bare.toList = (A.filter Token.isVisible).map s.bareToken ++
      (B.filter Token.isVisible).map s.bareToken ∧
    ((A.filter Token.isVisible).map s.bareToken).length = s.bareIndex A.length := by
  rw [toList_bare, h, List.filter_append, List.map_append, List.length_map, bareIndex,
    rank_length h]
  exact ⟨rfl, rfl⟩

/-- The token at a position is found at its rank. -/
theorem get?_bare (ht : t ∈ s.toList) (hv : t.isVisible = true) :
    s.bare.get? (s.bareIndex t.index) = some (s.bareToken t) := by
  obtain ⟨A, B, h⟩ := List.append_of_mem ht
  obtain ⟨hs, hl⟩ := split_bare h
  rw [List.filter_cons_of_pos hv, List.map_cons] at hs
  rw [index_eq_length h, ← hl, get?_length hs]

/-! ### Hidden runs -/

/-- The tokens at the end of a list that are hidden. -/
def hiddenEnd (ts : List Token) : List Token := (ts.reverse.takeWhile (·.isHidden)).reverse

/-- The hidden run before a position is found by going back. -/
theorem hiddenBack_eq (h : s.toList = A ++ B) (run : List Token) :
    s.hiddenBack A.length run = hiddenEnd A ++ run := by
  induction A using List.reverseRecOn generalizing B run with
  | nil => rfl
  | append_singleton A t ih =>
    have h' : s.toList = A ++ t :: B := by rw [h, List.append_assoc]; rfl
    rw [List.length_append, List.length_singleton, hiddenBack, get?_length h', hiddenEnd,
      List.reverse_append, List.reverse_singleton, List.singleton_append]
    simp only
    split
    · rename_i hh
      rw [ih h', List.takeWhile_cons_of_pos hh, List.reverse_cons, List.append_assoc]
      rfl
    · rename_i hh
      rw [List.takeWhile_cons_of_neg hh]
      rfl

theorem hiddenBefore_eq (h : s.toList = A ++ B) : s.hiddenBefore A.length = hiddenEnd A := by
  have hle : A.length ≤ s.size := by
    rw [size_eq_length, h, List.length_append]
    omega
  rw [hiddenBefore, Nat.min_eq_left hle, hiddenBack_eq h, List.append_nil]

/-- Whitespace is hidden, so it does not end a hidden run. -/
theorem takeWhile_bare (s : Stream) (ts : List Token) :
    ((ts.filter Token.isVisible).map s.bareToken).takeWhile (·.isHidden) =
      ((ts.takeWhile (·.isHidden)).filter Token.isVisible).map s.bareToken := by
  induction ts with
  | nil => rfl
  | cons t ts ih =>
    by_cases hv : t.isVisible = true
    · rw [List.filter_cons_of_pos hv, List.map_cons]
      by_cases hh : t.isHidden = true
      · rw [List.takeWhile_cons_of_pos (by rw [isHidden_bareToken, hh]),
          List.takeWhile_cons_of_pos hh,
          List.filter_cons_of_pos hv, List.map_cons, ih]
      · rw [List.takeWhile_cons_of_neg (by rw [isHidden_bareToken]; exact hh),
          List.takeWhile_cons_of_neg hh]
        rfl
    · have hh : t.isHidden = true := by
        by_contra hh
        exact hv (Token.isVisible_of_main (by simpa using hh))
      rw [List.filter_cons_of_neg hv, ih, List.takeWhile_cons_of_pos hh, List.filter_cons_of_neg hv]

theorem hiddenEnd_bare (s : Stream) (ts : List Token) :
    hiddenEnd ((ts.filter Token.isVisible).map s.bareToken) =
      ((hiddenEnd ts).filter Token.isVisible).map s.bareToken := by
  rw [hiddenEnd, ← List.map_reverse, ← List.filter_reverse, takeWhile_bare, hiddenEnd,
    List.filter_reverse, List.map_reverse]

/-- The hidden run before a position. -/
theorem hiddenBefore_bare (h : s.toList = A ++ B) :
    s.bare.hiddenBefore (s.bareIndex A.length) =
      ((s.hiddenBefore A.length).filter Token.isVisible).map s.bareToken := by
  obtain ⟨hs, hl⟩ := split_bare h
  rw [← hl, hiddenBefore_eq hs, hiddenBefore_eq h, hiddenEnd_bare]

/-- The hidden run after a token that is more than whitespace. -/
theorem hiddenAfter_bare (ht : t ∈ s.toList) (hv : t.isVisible = true) :
    s.bare.hiddenAfter (s.bareIndex t.index) =
      ((s.hiddenAfter t.index).filter Token.isVisible).map s.bareToken := by
  obtain ⟨A, B, h⟩ := List.append_of_mem ht
  have h' : s.toList = (A ++ [t]) ++ B := by rw [h, List.append_cons]
  obtain ⟨hs, hl⟩ := split_bare h
  obtain ⟨hs', hl'⟩ := split_bare h'
  have hone : s.bareIndex A.length + 1 = ((A ++ [t]).filter Token.isVisible).length := by
    rw [← hl, List.length_map, List.filter_append, List.filter_cons_of_pos hv, List.length_append]
    rfl
  rw [index_eq_length h, hiddenAfter_eq, hiddenAfter_eq, hs', hone, List.drop_left' (by simp),
    takeWhile_bare, h', List.drop_left' (by simp)]

end Stream

end GrammarLayout
