import GrammarLayout.Proofs.Grammar.Alike

/-!
# Bounds are never met

The reader counts its rounds and its levels of parentheses. Neither count matters, as long as both
are at least the number of tokens: every round of a repetition takes a token (`Pattern.advances`),
and every level takes a parenthesis. So what a pattern makes of tokens is one reading
(`Pattern.read_eq_parse`), wherever in a longer list of tokens, and with whatever bounds, it is
read.

Where a repetition makes one tree a round, its trees from some place on are those of the repetition
read off the tokens from that place on (`Pattern.exists_round_of_many`).

Readers are compared on short lists of tokens only (`SameUpTo k`), since on longer ones a bound may
be met. With each part of a pattern the tokens get fewer or stay as many, so a bound on the length
goes through all of them. For sub-rules the induction is on the length itself: behind the
parenthesis of a sub-rule there are fewer tokens, and one level less is needed for them.

This is what makes `Pattern.parse` a notion of its own. It takes the length of its tokens for a
bound, and by `read_eq_parse` any larger bound gives the same, so that parts of a grammar, which are
read with the bounds of the whole, are readings of their own tokens.
-/

namespace GrammarLayout

namespace Pattern

/-- Two readers that read the same off at most `k` tokens. Nothing is said of longer lists, on which
a bound may be met. -/
def SameUpTo (k : Nat) (r r' : Reader) : Prop := ∀ us, us.length ≤ k → r us = r' us

/-- Whether every round of a repetition takes a token. -/
def advances : Pattern → Bool
  | token _ | stray | strayEnd | nested _ => true
  | seq p q | alt p q => p.advances && q.advances
  | opt p | node _ p => p.advances
  | many p => p.takesToken && p.advances

/-- Repetitions of the same rounds are the same, whatever bounds they have that suit the tokens. -/
theorem Finds.readMany_congr {p : Pattern} {r r' : Reader} (hr : Finds p r)
    (hp : p.takesToken = true) {k : Nat} (h : SameUpTo k r r') {limit limit' : Nat}
    {us : List Token} (hk : us.length ≤ k) (hl : us.length ≤ limit) (hl' : us.length ≤ limit') :
    GrammarLayout.readMany r limit us = GrammarLayout.readMany r' limit' us := by
  have hr' : r' [] = none := by
    rw [← h [] (Nat.zero_le k)]
    cases hn : r [] with
    | none => rfl
    | some x => exact absurd (hr.length_lt hp hn) (by simp)
  have hnil : ∀ n, GrammarLayout.readMany r' n [] = ([], []) := by
    intro n
    cases n with
    | zero => rfl
    | succ n => rw [GrammarLayout.readMany, hr']
  induction limit generalizing limit' us with
  -- a bound is met only where no token is left, and there neither repetition takes a round
  | zero =>
    obtain rfl := List.length_eq_zero_iff.1 (Nat.le_zero.1 hl)
    rw [hnil, hr.readMany_nil hp]
  | succ n ih =>
    cases limit' with
    | zero =>
      obtain rfl := List.length_eq_zero_iff.1 (Nat.le_zero.1 hl')
      rw [hnil, hr.readMany_nil hp]
    | succ m =>
      rw [GrammarLayout.readMany, GrammarLayout.readMany, ← h us hk]
      cases hx : r us with
      | none => rfl
      | some x =>
        have hlt := hr.length_lt hp hx
        have hmore : GrammarLayout.readMany r n x.2 = GrammarLayout.readMany r' m x.2 :=
          ih (by omega) (by omega) (by omega)
        simp only [hmore]

/-- **Patterns are read the same** with any bounds that suit the tokens, if the sub-rules are. -/
theorem read_congr {limit limit' k : Nat} {sub sub' : Nest → Reader}
    (hf : ∀ n, Finds (.nested n) (sub n)) (hk : k ≤ limit) (hk' : k ≤ limit')
    (hs : ∀ n, SameUpTo k (sub n) (sub' n)) (p : Pattern) (hp : p.advances = true) :
    SameUpTo k (p.read limit sub) (p.read limit' sub') := by
  induction p with
  | token kinds =>
    intro us _
    cases us <;> rfl
  | stray =>
    intro us _
    cases us <;> rfl
  | strayEnd =>
    intro us _
    cases us <;> rfl
  | seq p q ihp ihq =>
    obtain ⟨hp, hq⟩ := Bool.and_eq_true_iff.1 hp
    intro us hl
    simp only [read]
    rw [← ihp hp us hl]
    cases hx : p.read limit sub us with
    | none => rfl
    | some x =>
      -- the second part is read off no more tokens than the first
      have hle := Finds.length_le (finds_read hf p) hx
      simp only [ihq hq x.2 (by omega)]
  | alt p q ihp ihq =>
    obtain ⟨hp, hq⟩ := Bool.and_eq_true_iff.1 hp
    intro us hl
    simp only [read]
    rw [ihp hp us hl, ihq hq us hl]
  | opt p ih =>
    intro us hl
    simp only [read]
    rw [ih hp us hl]
  | many p ih =>
    obtain ⟨ht, hp⟩ := Bool.and_eq_true_iff.1 hp
    intro us hl
    simp only [read]
    rw [Finds.readMany_congr (finds_read hf p) ht (ih hp) hl (Nat.le_trans hl hk)
      (Nat.le_trans hl hk')]
  | node kind p ih =>
    intro us hl
    rw [read_node, read_node, ih hp us hl]
  | nested nest => exact hs nest

/-- A sub-rule starts with a parenthesis, and its repetitions advance. -/
theorem exists_advances_ofNest (nest : Nest) :
    ∃ kind p, Production.ofNest nest = node kind (seq (tok .lparen) p) ∧ p.advances = true := by
  cases nest
  · exact ⟨_, _, rfl, by decide +kernel⟩
  · exact ⟨_, _, rfl, by decide +kernel⟩

/-- **Sub-rules are read the same** to any depth that suits the tokens: each level takes a
parenthesis. -/
theorem readNest_congr {limit limit' depth depth' k : Nat} (hl : k ≤ limit) (hl' : k ≤ limit')
    (hd : k ≤ depth) (hd' : k ≤ depth') (nest : Nest) :
    SameUpTo k (Nest.read limit depth nest) (Nest.read limit' depth' nest) := by
  induction k generalizing depth depth' nest with
  | zero =>
    intro us hu
    obtain rfl := List.length_eq_zero_iff.1 (Nat.le_zero.1 hu)
    rw [readNest_nil, readNest_nil]
  | succ k ih =>
    obtain ⟨d, rfl⟩ := Nat.exists_eq_succ_of_ne_zero (show depth ≠ 0 by omega)
    obtain ⟨d', rfl⟩ := Nat.exists_eq_succ_of_ne_zero (show depth' ≠ 0 by omega)
    obtain ⟨kind, p, hn, hp⟩ := exists_advances_ofNest nest
    intro us hu
    rw [Nest.read, Nest.read, hn, read_node, read_node]
    have hparen : read limit (Nest.read limit d) (tok .lparen) us =
        read limit' (Nest.read limit' d') (tok .lparen) us := by
      cases us <;> rfl
    cases hx : read limit (Nest.read limit d) (tok .lparen) us with
    | none => rw [read_seq_of_none hx, read_seq_of_none (hparen ▸ hx)]
    | some x =>
      -- the parenthesis leaves fewer tokens, so the next level suits them
      have hlt := Finds.length_lt (finds_read (finds_readNest limit d) _) rfl hx
      have hin := read_congr (finds_readNest limit d) (Nat.le_of_succ_le hl)
        (Nat.le_of_succ_le hl')
        (fun n ↦ ih (Nat.le_of_succ_le hl) (Nat.le_of_succ_le hl') (Nat.le_of_succ_le_succ hd)
          (Nat.le_of_succ_le_succ hd') n) p hp x.2 (by omega)
      rw [read_seq_of_some hx, read_seq_of_some (hparen ▸ hx), hin]

/-- **Bounds are never met**: a pattern is read the same with all bounds that suit the tokens. -/
theorem read_eq_parse {limit depth : Nat} {p : Pattern} (hp : p.advances = true) {us : List Token}
    (hl : us.length ≤ limit) (hd : us.length ≤ depth) :
    p.read limit (Nest.read limit depth) us = p.parse us :=
  read_congr (finds_readNest limit depth) hl (Nat.le_refl _)
    (fun n ↦ readNest_congr hl (Nat.le_refl _) hd (Nat.le_refl _) n) p hp us (Nat.le_refl _)

/-- Bounds of repetitions are never met either. -/
theorem readMany_eq_parse {limit depth n : Nat} {p : Pattern} (ht : p.takesToken = true)
    (hp : p.advances = true) {us : List Token} (hl : us.length ≤ limit) (hd : us.length ≤ depth)
    (hn : us.length ≤ n) :
    some (readMany (p.read limit (Nest.read limit depth)) n us) = (many p).parse us := by
  have hsame := read_congr (finds_readNest limit depth) hl (Nat.le_refl us.length)
    (fun n ↦ readNest_congr hl (Nat.le_refl _) hd (Nat.le_refl _) n) p hp
  rw [parse, read, Finds.readMany_congr (finds_read (finds_readNest limit depth) p) ht hsame
    (Nat.le_refl _) hn (Nat.le_refl _)]

/-! ### Readings of parts -/

theorem finds_parse (p : Pattern) : Finds p p.parse := fun h ↦ finds_read (finds_readNest _ _) p h

/-- What is read first, and what is read off the tokens that are left, each with bounds of its own.
-/
theorem of_parse_seq {p q : Pattern} (hq : q.advances = true) {us rest : List Token}
    {ts : List Tree} (h : (seq p q).parse us = some (ts, rest)) :
    ∃ ts₁ ws ts₂, p.parse us = some (ts₁, ws) ∧ q.parse ws = some (ts₂, rest) ∧
      ts = ts₁ ++ ts₂ := by
  obtain ⟨ts₁, ws, ts₂, hp, hread, rfl⟩ := of_read_seq h
  have hle := Finds.length_le (finds_parse p) hp
  rw [read_eq_parse hq hle hle] at hread
  exact ⟨ts₁, ws, ts₂, hp, hread, rfl⟩

/-- The first tree of a repetition is that of its first round, if each round makes one tree. -/
theorem of_parse_many_cons {p : Pattern} (ht : p.takesToken = true) (hp : p.advances = true)
    (hone : ∀ {limit sub us ts rest}, p.read limit sub us = some (ts, rest) → ∃ t, ts = [t])
    {us rest : List Token} {t : Tree} {ts : List Tree}
    (h : (many p).parse us = some (t :: ts, rest)) :
    ∃ ws, p.parse us = some ([t], ws) ∧ (many p).parse ws = some (ts, rest) := by
  obtain ⟨n, hn⟩ : ∃ n, us.length = n := ⟨_, rfl⟩
  rw [parse, read, hn, Option.some.injEq] at h
  cases n with
  | zero => exact absurd (Prod.mk.inj h).1 (by simp)
  | succ n =>
    rw [readMany] at h
    split at h
    · exact absurd (Prod.mk.inj h).1 (by simp)
    · rename_i trees ws hround
      obtain ⟨t', rfl⟩ := hone hround
      obtain ⟨hts, hrest⟩ := Prod.mk.inj h
      obtain ⟨rfl, hmore⟩ := List.cons.inj hts
      have hlt := Finds.length_lt (finds_read (finds_readNest _ _) p) ht hround
      have hparse : some (readMany (p.read (n + 1) (Nest.read (n + 1) (n + 1))) n ws) =
          (many p).parse ws :=
        readMany_eq_parse ht hp (by omega) (by omega) (by omega)
      rw [← hn] at hround
      exact ⟨ws, hround, hparse.symm.trans (congrArg some (Prod.ext hmore hrest))⟩

/-- **The trees of a repetition from some place on** are those of the repetition read off the tokens
from that place on, and the first of them is what is derived there, if each round makes one tree. -/
theorem exists_round_of_many {p : Pattern} (ht : p.takesToken = true) (hp : p.advances = true)
    (hone : ∀ {limit sub us ts rest}, p.read limit sub us = some (ts, rest) → ∃ t, ts = [t])
    {us rest : List Token} {pre post : List Tree} {t : Tree}
    (h : (many p).parse us = some (pre ++ t :: post, rest)) :
    ∃ vs ws ws', us = vs ++ (ws ++ ws') ∧ Derives (many p) vs pre ∧ Derives p ws [t] ∧
      (many p).parse (ws ++ ws') = some (t :: post, rest) := by
  induction pre generalizing us with
  | nil =>
    obtain ⟨ws', hround, -⟩ := of_parse_many_cons ht hp hone h
    obtain ⟨ws, rfl, hd⟩ := finds_parse p hround
    exact ⟨[], ws, ws', rfl, .manyNil, hd, h⟩
  | cons t' pre ih =>
    obtain ⟨us', hround, hmore⟩ := of_parse_many_cons ht hp hone h
    obtain ⟨vs, rfl, hd⟩ := finds_parse p hround
    obtain ⟨vs', ws, ws', rfl, hd', hw⟩ := ih hmore
    exact ⟨vs ++ vs', ws, ws', (List.append_assoc ..).symm, .manyCons hd hd', hw⟩

/-- A round covers a token, so the trees of a repetition have a span. -/
theorem isSome_spanOf?_of_many {p : Pattern} (ht : p.takesToken = true) (hp : p.advances = true)
    (hone : ∀ {limit sub us ts rest}, p.read limit sub us = some (ts, rest) → ∃ t, ts = [t])
    {us rest : List Token} {t : Tree} {ts : List Tree}
    (h : (many p).parse us = some (t :: ts, rest)) : (Tree.spanOf? (t :: ts)).isSome = true := by
  obtain ⟨us', hround, hmore⟩ := of_parse_many_cons ht hp hone h
  have hlt := Finds.length_lt (finds_parse p) ht hround
  obtain ⟨vs, rfl, hd⟩ := finds_parse p hround
  obtain ⟨vs', rfl, hd'⟩ := finds_parse _ hmore
  rw [show t :: ts = [t] ++ ts from rfl, (hd.over.append hd'.over).isSome_spanOf?]
  cases vs with
  | nil => exact absurd hlt (by simp)
  | cons => rfl

end Pattern

end GrammarLayout
