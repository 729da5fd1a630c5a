import GrammarLayout.Proofs.Grammar.Termination

/-!
# Reading a grammar is total

Reading ends on all lists of tokens, with one result, which the counted reader gives whenever its
counts are at least the number of tokens (`Production.grammar_total`).

The result of a reading that fails is the place of its furthest failure. This place is counted like
the reading is, and its counts matter as little (`readGrammarWithin_eq`). They can be told from each
other at one place only: a repetition that has used up its rounds does not try once more at the end
of the tokens. But then it has taken every token there is, and whatever is read after it fails there
as well, and no failure is further (`Failure.further_nil`). So counts that suffice give the same
failure unless the reading takes all tokens (`Pattern.SameFailures`), and in that case the end is
reported, whatever else has failed.

Nothing here speaks of `Nest.read` in particular until the end. Two counted readers are compared
through what they have in common with the uncounted run (`Suits`), and the reader of the whole
grammar is one of them (`suits_nest`). The induction over patterns (`furthest_congr`) has one lemma
for each construct at which failures are joined, and the one over levels (`furthestNest_congr`)
gives the sub-rules.
-/

namespace GrammarLayout

/-! ### The end is the furthest place -/

namespace Failure

@[simp] theorem further_nil (a : Failure) : a.further (some []) = some [] := by
  cases a with
  | none => rfl
  | some a => cases a <;> simp [further]

@[simp] theorem nil_further (a : Failure) : further (some []) a = some [] := by
  cases a <;> simp [further]

end Failure

namespace Pattern

section Furthest

variable {limit limit' k : Nat} {sub sub' : Nest → Reader} {far far' : Nest → List Token → Failure}

/-- Counts that suit up to `k` tokens. What is asked of the readers of sub-rules is what the counted
reader of sub-rules gives (`suits_nest`), so that patterns can be treated by induction, with the
sub-rules as they are. -/
structure Suits (k limit : Nat) (sub : Nest → Reader) (far : Nest → List Token → Failure) :
    Prop where
  /-- There are enough rounds for repetitions. -/
  le : k ≤ limit
  /-- Sub-rules are read off the front of the tokens. -/
  finds : ∀ n, Finds (nested n) (sub n)
  /-- What is read as a sub-rule is what a run gives. -/
  runs : ∀ n, RunsUpTo k (nested n) (sub n)
  /-- Without tokens, a sub-rule fails at the end. -/
  farNil : ∀ n, far n [] = some []

/-- Two ways to find the furthest failure of a pattern that give the same off at most `k` tokens,
unless the pattern takes all of them. -/
def SameFailures (k : Nat) (p : Pattern) (f f' : List Token → Failure) : Prop :=
  ∀ ts, ts.length ≤ k → f ts = f' ts ∨ ∃ trees, Runs p ts (some (trees, []))

/-- A pattern that fails has not taken all tokens, so it fails at the same place. -/
theorem SameFailures.eq_of_fails {p : Pattern} {f f' : List Token → Failure}
    (h : SameFailures k p f f') {ts : List Token} (hl : ts.length ≤ k) (hrun : Runs p ts none) :
    f ts = f' ts := by
  refine (h ts hl).resolve_right fun ⟨trees, hall⟩ => ?_
  cases hrun.unique hall

namespace Suits

variable {p q : Pattern} {ts : List Token}

theorem runs_read (h : Suits k limit sub far) (hp : p.advances = true) :
    RunsUpTo k p (p.read limit sub) :=
  Pattern.runs_read h.le h.runs p hp

/-- Counts that suit the tokens give the same reading, as there is only one run. -/
theorem read_eq (h : Suits k limit sub far) (h' : Suits k limit' sub' far')
    (hp : p.advances = true) (hl : ts.length ≤ k) :
    p.read limit' sub' ts = p.read limit sub ts :=
  (h'.runs_read hp ts hl).unique (h.runs_read hp ts hl)

/-- What cannot be read at the end fails at the end. -/
theorem furthest_nil (h : Suits k limit sub far) (hp : p.read limit sub [] = none) :
    p.furthest limit sub far [] = some [] := by
  induction p with
  | token | stray | strayEnd => simp [furthest, hp]
  | seq p q ihp ihq =>
    cases hx : p.read limit sub [] with
    | none => simpa only [furthest, hx] using ihp hx
    | some x =>
      have hle := Finds.length_le (finds_read h.finds p) hx
      have hrest : x.2 = [] := List.length_eq_zero_iff.1 (Nat.le_zero.1 hle)
      rw [read_seq_of_some hx, Option.map_eq_none_iff, hrest] at hp
      simp only [furthest, hx, hrest, ihq hp, Failure.further_nil]
  | alt p q ihp ihq =>
    cases hx : p.read limit sub [] with
    | none => simp only [furthest, hx, ihp hx, Failure.nil_further]
    | some x =>
      rw [read_alt_of_some hx] at hp
      cases hp
  | opt | many => cases hp
  | node kind p ih =>
    rw [read_node, Option.map_eq_none_iff] at hp
    exact ih hp
  | nested nest => exact h.farNil nest

/-- Once all tokens are taken, a pattern fails at the end with either counts, or it takes
nothing. -/
theorem fails_or_takes_nil (h : Suits k limit sub far) (h' : Suits k limit' sub' far')
    (hp : p.advances = true) :
    (p.furthest limit sub far [] = some [] ∧ p.furthest limit' sub' far' [] = some []) ∨
      ∃ trees, Runs p [] (some (trees, [])) := by
  have hl : ([] : List Token).length ≤ k := Nat.zero_le k
  have hrun := h.runs_read hp [] hl
  cases hx : p.read limit sub [] with
  | none => exact .inl ⟨h.furthest_nil hx, h'.furthest_nil ((h.read_eq h' hp hl).trans hx)⟩
  | some x =>
    obtain ⟨trees, rest⟩ := x
    rw [hx] at hrun
    obtain rfl := List.suffix_nil.1 hrun.isSuffix
    exact .inr ⟨trees, hrun⟩

/-- **A sequence has the same failures** if its parts do. If the first part takes all tokens, its
own failures may differ; but then the second part fails at the end, which hides them, or the
sequence has taken all tokens too. -/
theorem sameFailures_seq (h : Suits k limit sub far) (h' : Suits k limit' sub' far')
    (hp : p.advances = true) (hq : q.advances = true)
    (ihp : SameFailures k p (p.furthest limit sub far) (p.furthest limit' sub' far'))
    (ihq : SameFailures k q (q.furthest limit sub far) (q.furthest limit' sub' far')) :
    SameFailures k (seq p q) ((seq p q).furthest limit sub far)
      ((seq p q).furthest limit' sub' far') := by
  intro ts hl
  have hrun := h.runs_read hp ts hl
  simp only [furthest, h.read_eq h' hp hl]
  cases hx : p.read limit sub ts with
  | none => exact .inl (ihp.eq_of_fails hl (hx ▸ hrun))
  | some x =>
    obtain ⟨trees, rest⟩ := x
    rw [hx] at hrun
    have hle : rest.length ≤ k := Nat.le_trans hrun.isSuffix.length_le hl
    obtain hsecond | ⟨more, hsecond⟩ := ihq rest hle
    case inr => exact .inr ⟨_, .seq hrun hsecond⟩
    obtain hfirst | ⟨trees', hfirst⟩ := ihp ts hl
    case inl => exact .inl (by simp only [hfirst, hsecond])
    cases hrun.unique hfirst
    obtain ⟨hend, hend'⟩ | ⟨more, hnil⟩ := h.fails_or_takes_nil h' hq
    case inl => exact .inl (by simp only [hend, hend', Failure.further_nil])
    case inr => exact .inr ⟨_, .seq hrun hnil⟩

/-- **A choice has the same failures** if both sides do. -/
theorem sameFailures_alt (h : Suits k limit sub far) (h' : Suits k limit' sub' far')
    (hp : p.advances = true)
    (ihp : SameFailures k p (p.furthest limit sub far) (p.furthest limit' sub' far'))
    (ihq : SameFailures k q (q.furthest limit sub far) (q.furthest limit' sub' far')) :
    SameFailures k (alt p q) ((alt p q).furthest limit sub far)
      ((alt p q).furthest limit' sub' far') := by
  intro ts hl
  have hrun := h.runs_read hp ts hl
  simp only [furthest, h.read_eq h' hp hl]
  cases hx : p.read limit sub ts with
  | none =>
    rw [hx] at hrun
    have hfirst := ihp.eq_of_fails hl hrun
    obtain hsecond | ⟨trees, hsecond⟩ := ihq ts hl
    · exact .inl (by simp only [hfirst, hsecond])
    · exact .inr ⟨_, .altSecond hrun hsecond⟩
  | some x =>
    obtain hfirst | ⟨trees, hfirst⟩ := ihp ts hl
    · exact .inl hfirst
    · exact .inr ⟨_, .altFirst hfirst⟩

end Suits

/-- **Repetitions have the same failures** if their rounds do. The counts of rounds may differ, and
with them the last round, which is tried only if there is a count left. -/
theorem SameFailures.furthestMany {p : Pattern} {read read' : Reader}
    {f f' : List Token → Failure} (h : SameFailures k p f f') (hread : RunsUpTo k p read)
    (hread' : RunsUpTo k p read') (hp : p.takesToken = true) {n n' : Nat} {ts : List Token}
    (hk : ts.length ≤ k) (hn : ts.length ≤ n) (hn' : ts.length ≤ n') :
    furthestMany read f n ts = furthestMany read' f' n' ts ∨
      ∃ trees, Runs (many p) ts (some (trees, [])) := by
  -- at the end of the tokens there is no round left to read, so they are all taken
  have hnil : Runs (many p) [] (some ([], [])) :=
    have hempty : ([] : List Token).length ≤ 0 := Nat.le_refl 0
    hread.readMany hp (Nat.le_trans hempty (Nat.zero_le k)) hempty
  induction n generalizing n' ts with
  | zero =>
    obtain rfl := List.length_eq_zero_iff.1 (Nat.le_zero.1 hn)
    exact .inr ⟨_, hnil⟩
  | succ n ih =>
    cases n' with
    | zero =>
      obtain rfl := List.length_eq_zero_iff.1 (Nat.le_zero.1 hn')
      exact .inr ⟨_, hnil⟩
    | succ n' =>
      have hround := hread ts hk
      have hsame : read' ts = read ts := (hread' ts hk).unique hround
      rw [GrammarLayout.furthestMany, GrammarLayout.furthestMany, hsame]
      cases hx : read ts with
      | none => exact .inl (h.eq_of_fails hk (hx ▸ hround))
      | some x =>
        obtain ⟨trees, rest⟩ := x
        rw [hx] at hround
        have hlt := hround.length_lt hp
        have hrest : rest.length ≤ k ∧ rest.length ≤ n ∧ rest.length ≤ n' := by omega
        obtain hmore | ⟨more, hmore⟩ := ih hrest.1 hrest.2.1 hrest.2.2
        case inr => exact .inr ⟨_, .manyNext hround hmore⟩
        obtain hfirst | ⟨trees', hfirst⟩ := h ts hk
        case inl => exact .inl (by simp only [hfirst, hmore])
        -- this round takes all that is left, so there are no more
        cases hround.unique hfirst
        exact .inr ⟨_, .manyNext hround hnil⟩

/-- **Patterns have the same failures** with any counts that suit the tokens, if sub-rules do. -/
theorem furthest_congr (h : Suits k limit sub far) (h' : Suits k limit' sub' far')
    (hfar : ∀ n, SameFailures k (nested n) (far n) (far' n)) (p : Pattern)
    (hp : p.advances = true) :
    SameFailures k p (p.furthest limit sub far) (p.furthest limit' sub' far') := by
  induction p with
  | token kinds => exact fun ts hl => .inl (by simp only [furthest, h.read_eq h' hp hl])
  | stray => exact fun ts hl => .inl (by simp only [furthest, h.read_eq h' hp hl])
  | strayEnd => exact fun ts hl => .inl (by simp only [furthest, h.read_eq h' hp hl])
  | seq p q ihp ihq =>
    obtain ⟨hp, hq⟩ := Bool.and_eq_true_iff.1 hp
    exact h.sameFailures_seq h' hp hq (ihp hp) (ihq hq)
  | alt p q ihp ihq =>
    obtain ⟨hp, hq⟩ := Bool.and_eq_true_iff.1 hp
    exact h.sameFailures_alt h' hp (ihp hp) (ihq hq)
  | opt p ih =>
    exact fun ts hl => (ih hp ts hl).imp_right fun ⟨trees, hall⟩ => ⟨trees, .opt hall⟩
  | many p ih =>
    obtain ⟨ht, hp⟩ := Bool.and_eq_true_iff.1 hp
    exact fun ts hl => (ih hp).furthestMany (h.runs_read hp) (h'.runs_read hp) ht hl
      (Nat.le_trans hl h.le) (Nat.le_trans hl h'.le)
  | node kind p ih =>
    exact fun ts hl => (ih hp ts hl).imp_right fun ⟨trees, hall⟩ => ⟨_, .node hall⟩
  | nested nest => exact hfar nest

end Furthest

/-! ### Sub-rules -/

theorem furthestNest_nil (limit depth : Nat) (nest : Nest) :
    Nest.furthest limit depth nest [] = some [] := by
  cases depth with
  | zero => rfl
  | succ depth => cases nest <;> rfl

/-- As many rounds and levels as there are tokens suit them. -/
theorem suits_nest {limit depth k : Nat} (hl : k ≤ limit) (hd : k ≤ depth) :
    Suits k limit (Nest.read limit depth) (Nest.furthest limit depth) where
  le := hl
  finds := finds_readNest limit depth
  runs := runs_readNest hl hd
  farNil := furthestNest_nil limit depth

/-- **Sub-rules have the same failures** to any depth that suits the tokens. -/
theorem furthestNest_congr {limit limit' depth depth' k : Nat} (hl : k ≤ limit) (hl' : k ≤ limit')
    (hd : k ≤ depth) (hd' : k ≤ depth') (nest : Nest) :
    SameFailures k (nested nest) (Nest.furthest limit depth nest)
      (Nest.furthest limit' depth' nest) := by
  induction k generalizing depth depth' nest with
  | zero =>
    intro ts hts
    obtain rfl := List.length_eq_zero_iff.1 (Nat.le_zero.1 hts)
    exact .inl (by rw [furthestNest_nil, furthestNest_nil])
  | succ k ih =>
    obtain ⟨d, rfl⟩ := Nat.exists_eq_succ_of_ne_zero (show depth ≠ 0 by omega)
    obtain ⟨d', rfl⟩ := Nat.exists_eq_succ_of_ne_zero (show depth' ≠ 0 by omega)
    obtain ⟨kind, p, hn, hp⟩ := exists_advances_ofNest nest
    rintro (_ | ⟨t, ts⟩) hts
    · exact .inl (by rw [furthestNest_nil, furthestNest_nil])
    rw [Nest.furthest, Nest.furthest, hn]
    by_cases ht : t.kind ∈ [Kind.lparen]
    case neg =>
      refine .inl ?_
      simp only [furthest, read_token_of_not_mem ht]
    case pos =>
      have hk : k ≤ limit ∧ k ≤ limit' ∧ k ≤ d ∧ k ≤ d' := by omega
      have hbelow := furthest_congr (suits_nest hk.1 hk.2.2.1) (suits_nest hk.2.1 hk.2.2.2)
        (ih hk.1 hk.2.1 hk.2.2.1 hk.2.2.2) p hp ts (Nat.le_of_succ_le_succ hts)
      simp only [furthest, read_token_of_mem ht]
      obtain hsame | ⟨trees, hall⟩ := hbelow
      · exact .inl (by simp only [hsame])
      -- if the tokens inside are all taken, so are those of the sub-rule
      · have hrun : Runs (Production.ofNest nest) (t :: ts) (some (_, [])) :=
          hn ▸ Runs.node (.seq (.token ht) hall)
        exact .inr ⟨_, .nested hrun⟩

/-- **Bounds do not move the furthest failure**, unless all tokens are taken. -/
theorem furthest_eq_or_runs {p : Pattern} (hp : p.advances = true) {ts : List Token}
    {limit depth : Nat} (hl : ts.length ≤ limit) (hd : ts.length ≤ depth) :
    p.furthest limit (Nest.read limit depth) (Nest.furthest limit depth) ts = p.furthestFailure ts ∨
      ∃ trees, Runs p ts (some (trees, [])) :=
  furthest_congr (suits_nest hl hd) (suits_nest (Nat.le_refl _) (Nat.le_refl _))
    (furthestNest_congr hl (Nat.le_refl _) hd (Nat.le_refl _)) p hp ts (Nat.le_refl _)

end Pattern

/-! ### The whole grammar -/

/-- Reads all of the given tokens as a grammar, with at most `limit` rounds of every repetition and
`depth` levels of parentheses. -/
def readGrammarWithin (limit depth : Nat) (ts : List Token) : Except Failure Tree :=
  let failure := Production.grammarSpec.furthest limit (Nest.read limit depth)
    (Nest.furthest limit depth) ts
  match Production.grammarSpec.read limit (Nest.read limit depth) ts with
  | some ([tree], []) => .ok tree
  | some (_, rest) => .error (failure.further (some rest))
  | none => .error failure

theorem readGrammar_eq (ts : List Token) :
    readGrammar ts = readGrammarWithin ts.length ts.length ts := rfl

theorem advances_grammarSpec : Production.grammarSpec.advances = true := by decide +kernel

/-- **Bounds do not matter to what a grammar is read as**, nor to where it fails, once they are at
least the number of tokens. -/
theorem readGrammarWithin_eq {limit depth : Nat} {ts : List Token} (hl : ts.length ≤ limit)
    (hd : ts.length ≤ depth) : readGrammarWithin limit depth ts = readGrammar ts := by
  have hread : Production.grammarSpec.read limit (Nest.read limit depth) ts =
      Production.grammarSpec.read ts.length (Nest.read ts.length ts.length) ts :=
    Pattern.read_eq_parse advances_grammarSpec hl hd
  rw [readGrammar_eq]
  unfold readGrammarWithin
  rw [hread]
  obtain hfar | ⟨trees, hall⟩ := Pattern.furthest_eq_or_runs advances_grammarSpec hl hd
  case inl =>
    rw [hfar]
    rfl
  case inr =>
    have hparse : Production.grammarSpec.read ts.length (Nest.read ts.length ts.length) ts =
        some (trees, []) := (Pattern.runs_iff_parse advances_grammarSpec).1 hall
    -- a grammar that takes all tokens without being one tree fails at the end
    rcases trees with _ | ⟨tree, _ | ⟨tree', trees⟩⟩ <;> simp [hparse]

namespace Production

open Pattern

/-- What the grammar and its sub-rules in parentheses repeat. -/
def allRounds : List Pattern := grammarSpec.rounds ++ block.rounds ++ lexerBlock.rounds

/-- **What makes reading a grammar total**, and that it is. -/
structure Total : Prop where
  /-- Every round of every repetition takes a token from the front. -/
  rounds : ∀ body ∈ allRounds, ∀ {ts rest : List Token} {trees : List Tree},
    Runs body ts (some (trees, rest)) → rest <:+ ts ∧ rest.length < ts.length
  /-- So does every round of the counted reader, whatever its counts are. -/
  countedRounds : ∀ body ∈ allRounds, ∀ {limit depth : Nat} {ts rest : List Token}
    {trees : List Tree}, body.read limit (Nest.read limit depth) ts = some (trees, rest) →
    rest <:+ ts ∧ rest.length < ts.length
  /-- A sub-rule in parentheses tries another one, or itself, only when its own parenthesis has been
  taken, and off tokens behind that. -/
  entries : ∀ nest nest' {ts us : List Token}, Enters (ofNest nest) ts nest' us →
    ∃ t rest, ts = t :: rest ∧ t.kind = .lparen ∧ us <:+ rest
  /-- So sub-rules do not try each other without end. -/
  descent : WellFounded fun b a : Nest × List Token => Enters (ofNest a.1) a.2 b.1 b.2
  /-- Reading a grammar ends on all tokens, with one result. -/
  ends : ∀ ts, ∃! r, Runs grammarSpec ts r
  /-- Counts of at least the number of tokens give this result. -/
  counted : ∀ {ts : List Token} {limit depth : Nat}, ts.length ≤ limit → ts.length ≤ depth →
    Runs grammarSpec ts (grammarSpec.read limit (Nest.read limit depth) ts)
  /-- They give the same tree, or the same place of the failure. -/
  outcome : ∀ {ts : List Token} {limit depth : Nat}, ts.length ≤ limit → ts.length ≤ depth →
    readGrammarWithin limit depth ts = readGrammar ts

theorem takesToken_of_mem_allRounds {body : Pattern} (h : body ∈ allRounds) :
    body.takesToken = true := by
  simp only [allRounds, List.mem_append] at h
  obtain (h | h) | h := h
  · exact takesToken_of_mem_rounds advances_grammarSpec h
  · exact takesToken_of_mem_rounds (show block.advances = true by decide +kernel) h
  · exact takesToken_of_mem_rounds (show lexerBlock.advances = true by decide +kernel) h

/-- **Reading a grammar is total.** -/
theorem grammar_total : Total where
  rounds body hbody ts rest trees hrun :=
    ⟨hrun.isSuffix, hrun.length_lt (takesToken_of_mem_allRounds hbody)⟩
  countedRounds body hbody limit depth ts rest trees hread := by
    have hfinds : Finds body (body.read limit (Nest.read limit depth)) :=
      finds_read (finds_readNest limit depth) body
    obtain ⟨us, rfl, -⟩ := hfinds hread
    exact ⟨List.suffix_append us rest,
      hfinds.length_lt (takesToken_of_mem_allRounds hbody) hread⟩
  entries nest nest' ts us h := h.of_ofNest
  descent := wellFounded_enters
  ends ts := ⟨_, (runs_iff_parse advances_grammarSpec).2 rfl,
    fun r hr => ((runs_iff_parse advances_grammarSpec).1 hr).symm⟩
  counted hl hd := runs_read_of_le advances_grammarSpec hl hd
  outcome := readGrammarWithin_eq

/-- What may be read off no tokens at all is not repeated. -/
example : [alternative, labeledAlt, exceptionGroup, rules].all (fun p =>
    (p.parse []).isSome && !allRounds.contains p) = true := by decide +kernel

end Production

end GrammarLayout
