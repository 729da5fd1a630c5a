import GrammarLayout.Proofs.Grammar.Bounds

/-!
# Reading ends

What the reader does, without any count of rounds or levels: `Pattern.Runs p ts r` says that reading
`p` off the tokens `ts` comes to an end, and that it ends with `r`. A repetition runs once more
whenever its round succeeds, even if the round has taken nothing, and a sub-rule in parentheses runs
by its production, wherever it is tried. So a repetition of something that can be empty would have
no run, nor would a sub-rule that tries itself before its parenthesis.

That every reading has a run rests on two facts about the productions. Every round takes a token
(`Runs.length_lt`, by the check `Pattern.advances` on all repetitions at once), and whatever
sub-rule is tried while another one is read, is tried behind the parenthesis of that one
(`Enters.of_ofNest`). The counted reader runs on both (`runs_read_of_le`), so it gives the only
result there is as soon as both counts are at least the number of tokens.

The relation is a big-step semantics of patterns, with failure as one of the results: an alternative
is tried after the first one has failed, so it takes a run to say that something cannot be read. It
is a function where it is defined (`Runs.unique`), by induction on the first run, and what succeeds
is a derivation (`Runs.exists_derives`).

`Enters` is the call relation of the sub-rules. It is not about results: a sub-rule that is tried
and fails has been tried. Its being well-founded is the property that a recursive descent parser
needs, and it follows from one fact about all productions of sub-rules, that the parenthesis comes
first.
-/

namespace GrammarLayout

namespace Pattern

/-- **Reading a pattern ends with a result**: trees and the tokens left, or nothing. -/
inductive Runs : Pattern → List Token → Reading → Prop
  /-- A token of one of the kinds. -/
  | token {kinds : List Kind} {t : Token} {ts : List Token} (h : t.kind ∈ kinds) :
      Runs (.token kinds) (t :: ts) (some ([.leaf t.index], ts))
  /-- No token of the kinds. -/
  | tokenFails {kinds : List Kind} {ts : List Token} (h : ∀ t ∈ ts.head?, t.kind ∉ kinds) :
      Runs (.token kinds) ts none
  /-- A token that a recovered region may hold. -/
  | stray {t : Token} {ts : List Token} (h : isStray (t :: ts) = true) :
      Runs .stray (t :: ts) (some ([.stray t.index], ts))
  /-- No token that a recovered region may hold. -/
  | strayFails {ts : List Token} (h : isStray ts = false) : Runs .stray ts none
  /-- The semicolon of a recovered region. -/
  | strayEnd {t : Token} {ts : List Token} (h : t.kind = .semi) :
      Runs .strayEnd (t :: ts) (some ([.stray t.index], ts))
  /-- No semicolon. -/
  | strayEndFails {ts : List Token} (h : ∀ t ∈ ts.head?, t.kind ≠ .semi) : Runs .strayEnd ts none
  /-- The first pattern fails. -/
  | seqFails {p q : Pattern} {ts : List Token} (hp : Runs p ts none) : Runs (.seq p q) ts none
  /-- The first pattern fits, and the second is read after it. -/
  | seq {p q : Pattern} {ts rest : List Token} {trees : List Tree} {r : Reading}
      (hp : Runs p ts (some (trees, rest))) (hq : Runs q rest r) :
      Runs (.seq p q) ts (r.map fun x => (trees ++ x.1, x.2))
  /-- The first alternative fits. -/
  | altFirst {p q : Pattern} {ts : List Token} {x : List Tree × List Token}
      (hp : Runs p ts (some x)) : Runs (.alt p q) ts (some x)
  /-- The first alternative fails, and the second is read. -/
  | altSecond {p q : Pattern} {ts : List Token} {r : Reading} (hp : Runs p ts none)
      (hq : Runs q ts r) : Runs (.alt p q) ts r
  /-- An option, taken or left out. -/
  | opt {p : Pattern} {ts : List Token} {r : Reading} (hp : Runs p ts r) :
      Runs (.opt p) ts (some (r.getD ([], ts)))
  /-- A repetition ends where a round fails. -/
  | manyEnds {p : Pattern} {ts : List Token} (hp : Runs p ts none) :
      Runs (.many p) ts (some ([], ts))
  /-- A repetition goes on after every round that succeeds. -/
  | manyNext {p : Pattern} {ts rest rest' : List Token} {trees more : List Tree}
      (hp : Runs p ts (some (trees, rest))) (hm : Runs (.many p) rest (some (more, rest'))) :
      Runs (.many p) ts (some (trees ++ more, rest'))
  /-- What is read, folded into one node. -/
  | node {kind : NodeKind} {p : Pattern} {ts : List Token} {r : Reading} (hp : Runs p ts r) :
      Runs (.node kind p) ts (r.map fun x => ([Tree.ofChildren kind x.1], x.2))
  /-- A sub-rule in parentheses, by its production. -/
  | nested {nest : Nest} {ts : List Token} {r : Reading} (h : Runs (Production.ofNest nest) ts r) :
      Runs (.nested nest) ts r

namespace Runs

variable {p : Pattern} {ts rest : List Token} {trees : List Tree} {r r' : Reading}

/-- **A reading has one result at most.** -/
theorem unique (h : Runs p ts r) (h' : Runs p ts r') : r = r' := by
  induction h generalizing r' with
  | token h =>
    cases h' with
    | token => rfl
    | tokenFails hf => exact absurd h (hf _ rfl)
  | tokenFails h =>
    cases h' with
    | token ht => exact absurd ht (h _ rfl)
    | tokenFails => rfl
  | stray h =>
    cases h' with
    | stray => rfl
    | strayFails hf => simp [h] at hf
  | strayFails h =>
    cases h' with
    | stray hs => simp [h] at hs
    | strayFails => rfl
  | strayEnd h =>
    cases h' with
    | strayEnd => rfl
    | strayEndFails hf => exact absurd h (hf _ rfl)
  | strayEndFails h =>
    cases h' with
    | strayEnd hs => exact absurd hs (h _ rfl)
    | strayEndFails => rfl
  | seqFails _ ihp =>
    cases h' with
    | seqFails => rfl
    | seq hp' => cases ihp hp'
  | seq _ _ ihp ihq =>
    cases h' with
    | seqFails hp' => cases ihp hp'
    | seq hp' hq' =>
      cases ihp hp'
      rw [ihq hq']
  | altFirst _ ihp =>
    cases h' with
    | altFirst hp' => exact ihp hp'
    | altSecond hp' => cases ihp hp'
  | altSecond _ _ ihp ihq =>
    cases h' with
    | altFirst hp' => cases ihp hp'
    | altSecond _ hq' => exact ihq hq'
  | opt _ ihp =>
    cases h' with
    | opt hp' => rw [ihp hp']
  | manyEnds _ ihp =>
    cases h' with
    | manyEnds => rfl
    | manyNext hp' => cases ihp hp'
  | manyNext _ _ ihp ihm =>
    cases h' with
    | manyEnds hp' => cases ihp hp'
    | manyNext hp' hm' =>
      cases ihp hp'
      cases ihm hm'
      rfl
  | node _ ihp =>
    cases h' with
    | node hp' => rw [ihp hp']
  | nested _ ih =>
    cases h' with
    | nested h' => exact ih h'

/-- A run that succeeds takes derivable tokens off the front. -/
theorem exists_derives (h : Runs p ts r) (hr : r = some (trees, rest)) :
    ∃ us, ts = us ++ rest ∧ Derives p us trees := by
  induction h generalizing trees rest with
  | @token kinds t ts h =>
    cases hr
    exact ⟨[t], rfl, .token h⟩
  | @stray t ts h =>
    cases hr
    simp only [isStray, Bool.and_eq_true, bne_iff_ne] at h
    exact ⟨[t], rfl, .stray h.1.1 h.1.2⟩
  | @strayEnd t ts h =>
    cases hr
    exact ⟨[t], rfl, .strayEnd h⟩
  | tokenFails | strayFails | strayEndFails | seqFails => cases hr
  | seq _ _ ihp ihq =>
    obtain ⟨⟨trees', rest'⟩, hq, he⟩ := Option.map_eq_some_iff.1 hr
    cases he
    obtain ⟨us, rfl, hp⟩ := ihp rfl
    obtain ⟨vs, rfl, hq⟩ := ihq hq
    exact ⟨us ++ vs, (List.append_assoc ..).symm, .seq hp hq⟩
  | altFirst _ ihp =>
    obtain ⟨us, hu, hp⟩ := ihp hr
    exact ⟨us, hu, .altLeft hp⟩
  | altSecond _ _ _ ihq =>
    obtain ⟨us, hu, hq⟩ := ihq hr
    exact ⟨us, hu, .altRight hq⟩
  | @opt p ts r _ ihp =>
    cases r with
    | none =>
      cases hr
      exact ⟨[], rfl, .optNone⟩
    | some x =>
      obtain ⟨us, hu, hp⟩ := ihp hr
      exact ⟨us, hu, .optSome hp⟩
  | manyEnds =>
    cases hr
    exact ⟨[], rfl, .manyNil⟩
  | manyNext _ _ ihp ihm =>
    cases hr
    obtain ⟨us, rfl, hp⟩ := ihp rfl
    obtain ⟨vs, rfl, hm⟩ := ihm rfl
    exact ⟨us ++ vs, (List.append_assoc ..).symm, .manyCons hp hm⟩
  | node _ ihp =>
    obtain ⟨⟨trees', rest'⟩, hp, he⟩ := Option.map_eq_some_iff.1 hr
    cases he
    obtain ⟨us, hu, hp⟩ := ihp hp
    exact ⟨us, hu, .node hp⟩
  | nested _ ih =>
    obtain ⟨us, hu, h⟩ := ih hr
    exact ⟨us, hu, .nested h⟩

/-- What is left are the last of the tokens. -/
theorem isSuffix (h : Runs p ts (some (trees, rest))) : rest <:+ ts := by
  obtain ⟨us, rfl, -⟩ := h.exists_derives rfl
  exact List.suffix_append us rest

/-- **A round takes a token**: a pattern that is sure to take one leaves fewer tokens. -/
theorem length_lt (h : Runs p ts (some (trees, rest))) (hp : p.takesToken = true) :
    rest.length < ts.length := by
  obtain ⟨us, rfl, hd⟩ := h.exists_derives rfl
  obtain ⟨t, ht, -⟩ := hd.exists_ne_eof hp
  have hpos := List.length_pos_of_mem ht
  rw [List.length_append]
  omega

end Runs

/-! ### Repetitions -/

/-- What a pattern repeats: the rounds of all repetitions in it. -/
def rounds : Pattern → List Pattern
  | token _ | stray | strayEnd | nested _ => []
  | seq p q | alt p q => p.rounds ++ q.rounds
  | opt p | node _ p => p.rounds
  | many p => p :: p.rounds

/-- The check looks at all of them. -/
theorem takesToken_of_mem_rounds {p body : Pattern} (hp : p.advances = true)
    (h : body ∈ p.rounds) : body.takesToken = true := by
  induction p with
  | token | stray | strayEnd | nested => cases h
  | seq p q ihp ihq | alt p q ihp ihq =>
    obtain ⟨hp, hq⟩ := Bool.and_eq_true_iff.1 hp
    exact (List.mem_append.1 h).elim (ihp hp) (ihq hq)
  | opt p ih | node _ p ih => exact ih hp h
  | many p ih =>
    obtain ⟨ht, hp⟩ := Bool.and_eq_true_iff.1 hp
    obtain rfl | h := List.mem_cons.1 h
    · exact ht
    · exact ih hp h

/-! ### Sub-rules -/

/-- Reading a pattern off tokens tries a sub-rule in parentheses, and these are the tokens left
where it does. What the sub-rule itself tries is not meant. -/
inductive Enters : Pattern → List Token → Nest → List Token → Prop
  /-- The sub-rule itself. -/
  | nested {nest : Nest} {ts : List Token} : Enters (.nested nest) ts nest ts
  /-- While the first pattern is read. -/
  | seqFirst {p q : Pattern} {ts us : List Token} {nest : Nest} (h : Enters p ts nest us) :
      Enters (.seq p q) ts nest us
  /-- While the second pattern is read. -/
  | seqSecond {p q : Pattern} {ts rest us : List Token} {trees : List Tree} {nest : Nest}
      (hp : Runs p ts (some (trees, rest))) (h : Enters q rest nest us) :
      Enters (.seq p q) ts nest us
  /-- While the first alternative is read. -/
  | altFirst {p q : Pattern} {ts us : List Token} {nest : Nest} (h : Enters p ts nest us) :
      Enters (.alt p q) ts nest us
  /-- While the second alternative is read. -/
  | altSecond {p q : Pattern} {ts us : List Token} {nest : Nest} (hp : Runs p ts none)
      (h : Enters q ts nest us) : Enters (.alt p q) ts nest us
  /-- While an option is tried. -/
  | opt {p : Pattern} {ts us : List Token} {nest : Nest} (h : Enters p ts nest us) :
      Enters (.opt p) ts nest us
  /-- While the first round is read. -/
  | manyFirst {p : Pattern} {ts us : List Token} {nest : Nest} (h : Enters p ts nest us) :
      Enters (.many p) ts nest us
  /-- While a later round is read. -/
  | manyNext {p : Pattern} {ts rest us : List Token} {trees : List Tree} {nest : Nest}
      (hp : Runs p ts (some (trees, rest))) (h : Enters (.many p) rest nest us) :
      Enters (.many p) ts nest us
  /-- While the children of a node are read. -/
  | node {kind : NodeKind} {p : Pattern} {ts us : List Token} {nest : Nest}
      (h : Enters p ts nest us) : Enters (.node kind p) ts nest us

namespace Enters

variable {p : Pattern} {ts us : List Token} {nest nest' : Nest}

theorem isSuffix (h : Enters p ts nest us) : us <:+ ts := by
  induction h with
  | nested => exact List.suffix_refl _
  | seqFirst _ ih | altFirst _ ih | altSecond _ _ ih | opt _ ih | manyFirst _ ih | node _ ih =>
    exact ih
  | seqSecond hp _ ih | manyNext hp _ ih => exact ih.trans hp.isSuffix

/-- **A sub-rule is tried by another one behind the parenthesis of that one.** -/
theorem of_ofNest (h : Enters (Production.ofNest nest) ts nest' us) :
    ∃ t rest, ts = t :: rest ∧ t.kind = .lparen ∧ us <:+ rest := by
  obtain ⟨kind, p, hn, -⟩ := exists_advances_ofNest nest
  rw [hn] at h
  cases h with
  | node h =>
    cases h with
    | seqFirst h => cases h
    | seqSecond hp h =>
      cases hp with
      | token hk => exact ⟨_, _, rfl, by simpa using hk, h.isSuffix⟩

end Enters

/-- Sub-rules do not try each other without end. -/
theorem wellFounded_enters : WellFounded fun b a : Nest × List Token =>
    Enters (Production.ofNest a.1) a.2 b.1 b.2 := by
  refine Subrelation.wf (fun {b a} h => ?_)
    (InvImage.wf (fun x : Nest × List Token => x.2.length) Nat.lt_wfRel.wf)
  obtain ⟨t, rest, ha, -, hb⟩ := h.of_ofNest
  have hle := hb.length_le
  show b.2.length < a.2.length
  rw [ha, List.length_cons]
  omega

/-! ### The counted reader -/

/-- A reader that runs on all tokens up to some number. -/
def RunsUpTo (k : Nat) (p : Pattern) (read : Reader) : Prop :=
  ∀ ts, ts.length ≤ k → Runs p ts (read ts)

/-- Counted rounds are a run, as each takes a token. -/
theorem RunsUpTo.readMany {k : Nat} {p : Pattern} {read : Reader} (h : RunsUpTo k p read)
    (hp : p.takesToken = true) {n : Nat} {ts : List Token} (hk : ts.length ≤ k)
    (hn : ts.length ≤ n) : Runs (many p) ts (some (GrammarLayout.readMany read n ts)) := by
  induction n generalizing ts with
  | zero =>
    obtain rfl := List.length_eq_zero_iff.1 (Nat.le_zero.1 hn)
    have hround := h [] hk
    cases hread : read [] with
    | none => exact .manyEnds (hread ▸ hround)
    | some x => exact absurd ((hread ▸ hround).length_lt hp) (by simp)
  | succ n ih =>
    have hround := h ts hk
    rw [GrammarLayout.readMany]
    cases hread : read ts with
    | none => exact .manyEnds (hread ▸ hround)
    | some x =>
      have hround : Runs p ts (some (x.1, x.2)) := hread ▸ hround
      have hlt := hround.length_lt hp
      exact .manyNext hround (ih (by omega) (by omega))

/-- **Counted reading is a run**, if the rounds suffice and reading the sub-rules is a run. -/
theorem runs_read {limit k : Nat} {sub : Nest → Reader} (hk : k ≤ limit)
    (hsub : ∀ n, RunsUpTo k (nested n) (sub n)) (p : Pattern) (hp : p.advances = true) :
    RunsUpTo k p (p.read limit sub) := by
  induction p with
  | token kinds =>
    rintro (_ | ⟨t, ts⟩) -
    · exact .tokenFails (by simp)
    · simp only [read]
      split
      case isTrue h => exact .token (by simpa using h)
      case isFalse h => exact .tokenFails (by simpa using h)
  | stray =>
    rintro (_ | ⟨t, ts⟩) -
    · exact .strayFails rfl
    · simp only [read]
      split
      case isTrue h => exact .stray h
      case isFalse h => exact .strayFails (by simpa using h)
  | strayEnd =>
    rintro (_ | ⟨t, ts⟩) -
    · exact .strayEndFails (by simp)
    · simp only [read]
      split
      case isTrue h => exact .strayEnd (by simpa using h)
      case isFalse h => exact .strayEndFails (by simpa using h)
  | seq p q ihp ihq =>
    obtain ⟨hp, hq⟩ := Bool.and_eq_true_iff.1 hp
    intro ts hl
    have hfirst := ihp hp ts hl
    cases hread : p.read limit sub ts with
    | none =>
      rw [read_seq_of_none hread]
      exact .seqFails (hread ▸ hfirst)
    | some x =>
      rw [read_seq_of_some hread]
      have hfirst : Runs p ts (some (x.1, x.2)) := hread ▸ hfirst
      -- the first part leaves no more tokens than there were, so the counts still suit
      exact .seq hfirst (ihq hq x.2 (Nat.le_trans hfirst.isSuffix.length_le hl))
  | alt p q ihp ihq =>
    obtain ⟨hp, hq⟩ := Bool.and_eq_true_iff.1 hp
    intro ts hl
    have hfirst := ihp hp ts hl
    cases hread : p.read limit sub ts with
    | none =>
      rw [read_alt_of_none hread]
      exact .altSecond (hread ▸ hfirst) (ihq hq ts hl)
    | some x =>
      rw [read_alt_of_some hread]
      exact .altFirst (hread ▸ hfirst)
  | opt p ih => exact fun ts hl => .opt (ih hp ts hl)
  | many p ih =>
    obtain ⟨ht, hp⟩ := Bool.and_eq_true_iff.1 hp
    -- each round takes a token, so there are as many rounds as tokens at most
    exact fun ts hl => (ih hp).readMany ht hl (Nat.le_trans hl hk)
  | node kind p ih => exact fun ts hl => .node (ih hp ts hl)
  | nested nest => exact hsub nest

/-- **Counted reading of a sub-rule is a run**, if rounds and levels suffice. The parenthesis leaves
fewer tokens for the levels below. -/
theorem runs_readNest {limit depth k : Nat} (hl : k ≤ limit) (hd : k ≤ depth) (nest : Nest) :
    RunsUpTo k (nested nest) (Nest.read limit depth nest) := by
  obtain ⟨kind, p, hn, hp⟩ := exists_advances_ofNest nest
  induction k generalizing depth nest kind p with
  | zero =>
    intro ts hts
    obtain rfl := List.length_eq_zero_iff.1 (Nat.le_zero.1 hts)
    rw [readNest_nil]
    exact .nested (hn ▸ .node (.seqFails (.tokenFails (by simp))))
  | succ k ih =>
    obtain ⟨depth, rfl⟩ := Nat.exists_eq_succ_of_ne_zero (show depth ≠ 0 by omega)
    intro ts hts
    refine .nested ?_
    rw [Nest.read, hn, read_node]
    refine .node ?_
    cases ts with
    | nil => exact .seqFails (.tokenFails (by simp))
    | cons t ts =>
      by_cases ht : t.kind ∈ [Kind.lparen]
      case pos =>
        have hbelow : ∀ nest', RunsUpTo k (nested nest') (Nest.read limit depth nest') := by
          intro nest'
          obtain ⟨kind', p', hn', hp'⟩ := exists_advances_ofNest nest'
          exact ih (by omega) (by omega) nest' kind' p' hn' hp'
        rw [read_seq_of_some (read_token_of_mem ht ts)]
        exact .seq (.token ht) (runs_read (by omega) hbelow p hp ts (Nat.le_of_succ_le_succ hts))
      case neg =>
        rw [read_seq_of_none (read_token_of_not_mem ht ts)]
        exact .seqFails (.tokenFails (by simpa using ht))

/-- **Reading ends**, and the counted reader gives its result whenever both counts are at least the
number of tokens. -/
theorem runs_read_of_le {p : Pattern} (hp : p.advances = true) {ts : List Token}
    {limit depth : Nat} (hl : ts.length ≤ limit) (hd : ts.length ≤ depth) :
    Runs p ts (p.read limit (Nest.read limit depth) ts) :=
  runs_read hl (runs_readNest hl hd) p hp ts (Nat.le_refl _)

theorem runs_iff_parse {p : Pattern} (hp : p.advances = true) {ts : List Token} {r : Reading} :
    Runs p ts r ↔ p.parse ts = r := by
  have hparse : Runs p ts (p.parse ts) := runs_read_of_le hp (Nat.le_refl _) (Nat.le_refl _)
  constructor
  · exact hparse.unique
  · rintro rfl
    exact hparse

end Pattern

end GrammarLayout
