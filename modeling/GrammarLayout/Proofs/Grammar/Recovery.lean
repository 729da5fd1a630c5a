import GrammarLayout.Proofs.Grammar.Alike
import GrammarLayout.Proofs.Token.Tokens

/-!
# What comes after a header is read

Nothing that comes after a header stops the reader (`read_body`), because a recovered region takes
whatever is neither the end of the input nor a complete mode header (`endsRules_of_recovered`): the
rules in front of the modes end at one of the two, and so do those of every mode, so that a mode is
read wherever the rules before it end. The end of the input is left to the last token of the
grammar, as no other production takes it (`Pattern.leavesEnd`).

That a grammar with a proper header always gives a tree is a property of the productions as a whole,
and it needs the order in which they are tried. The argument runs backwards from the end:

* a repetition ends where its next round would fail (`Finds.read_readMany`); for the rules this
  means that neither a rule nor a recovered region starts there (`reachesEnd_many`);

* a recovered region fails only at the end of the input or at a mode, and it does fail there
  (`endsRules_of_recovered`, `read_recovered_of_endsRules`);

* a mode is read wherever its header stands (`read_modeSpec_of_opensMode`), and its rules end like
  those before it, so the repetition of modes stops at the end of the input only
  (`readMany_modeSpec`);

* what is left there is one token, because the input ends once (`Terminated.eq_singleton`).

The bounds on repetitions play no part as long as they are no smaller than the number of tokens.
Only `leavesEnd` is checked by evaluation, a closed test of three productions.
-/

namespace GrammarLayout

/-! ### The end of the input -/

/-- Tokens that end with the end of the input, which is nowhere else. Every source gives such tokens
(`terminated_tokenize`), and a reader that leaves the end alone keeps them so. -/
def Terminated (us : List Token) : Prop :=
  ∃ front last, us = front ++ [last] ∧ (∀ t ∈ front, t.kind ≠ .eof) ∧ last.kind = .eof

/-- What follows tokens other than the end of the input. -/
theorem Terminated.of_append {us vs : List Token} (h : Terminated (us ++ vs))
    (hu : ∀ t ∈ us, t.kind ≠ .eof) : Terminated vs := by
  obtain ⟨front, last, he, hf, hl⟩ := h
  rcases List.append_eq_append_iff.1 he with ⟨as, rfl, rfl⟩ | ⟨as, rfl, hB⟩
  · exact ⟨as, last, rfl, fun t ht ↦ hf t (by simp [ht]), hl⟩
  · cases as with
    | nil => exact ⟨[], last, by simpa using hB.symm, by simp, hl⟩
    | cons a as =>
      obtain ⟨rfl, -⟩ := List.cons.inj hB
      exact absurd hl (hu _ (by simp))

theorem Terminated.ne_nil {us : List Token} (h : Terminated us) : us ≠ [] := by
  obtain ⟨front, last, rfl, -⟩ := h
  simp

/-- The tokens after the first one, if that is not the end. -/
theorem Terminated.tail {t : Token} {us : List Token} (h : Terminated (t :: us))
    (ht : t.kind ≠ .eof) : Terminated us := by
  have h : Terminated ([t] ++ us) := h
  exact h.of_append (List.forall_mem_singleton.2 ht)

/-- At the end of the input nothing else is left. -/
theorem Terminated.eq_singleton {t : Token} {us : List Token} (h : Terminated (t :: us))
    (ht : t.kind = .eof) : us = [] := by
  obtain ⟨front, last, he, hf, -⟩ := h
  cases front with
  | nil => exact (List.cons.inj he).2
  | cons a front =>
    obtain ⟨rfl, -⟩ := List.cons.inj he
    exact absurd ht (hf _ (by simp))

/-- The main tokens of a source end with the end of the input. -/
theorem terminated_tokenize (source : String) : Terminated (tokenize source).mainTokens := by
  have hseg := segments_tokenize source
  obtain ⟨front, last, hl, hfront, hlast⟩ := List.map_eq_append_iff.1 hseg
  obtain ⟨last, rfl, hend⟩ := List.map_eq_singleton_iff.1 hlast
  have hk : last.kind = .eof := show last.segment.kind = .eof by rw [hend]; rfl
  refine ⟨front.filter (!·.isHidden), last, ?_, fun t ht he ↦ ?_, hk⟩
  · rw [Stream.mainTokens, hl, List.filter_append,
      List.filter_cons_of_pos (by rw [Token.isHidden, hk]; rfl), List.filter_nil]
  · have hm : t.segment ∈ Segment.ofChars none source.toList := by
      rw [← hfront]
      exact List.mem_map_of_mem (List.mem_of_mem_filter ht)
    exact (Segment.formed_ofChars none source.toList _ hm).ne_eof he

namespace Pattern

variable {limit : Nat} {sub : Nest → Reader}

/-! ### Where rules end -/

theorem readMany_of_none {r : Reader} {us : List Token} (h : r us = none) (n : Nat) :
    readMany r n us = ([], us) := by
  cases n with
  | zero => rfl
  | succ n => rw [readMany, h]

/-- A repetition ends where its next round would fail, if its bound suits the tokens. Each round
takes a token, so the bound is not used up before the tokens are. -/
theorem Finds.read_readMany {p : Pattern} {r : Reader} (hr : Finds p r) (hp : p.takesToken = true)
    {n : Nat} {us : List Token} (hn : us.length ≤ n) :
    r (GrammarLayout.readMany r n us).2 = none := by
  induction n generalizing us with
  | zero =>
    obtain rfl := List.length_eq_zero_iff.1 (Nat.le_zero.1 hn)
    refine Option.eq_none_iff_forall_ne_some.2 fun x hx ↦ ?_
    exact absurd (hr.length_lt hp hx) (by simp [GrammarLayout.readMany])
  | succ n ih =>
    rw [GrammarLayout.readMany]
    split
    · assumption
    · rename_i ts rest h
      have hlt := hr.length_lt hp h
      exact ih (by omega)

/-- Tokens at which the rules of a grammar or of a mode end: nothing, the end of the input, or a
complete mode header. An incomplete header does not end them; its keyword is stray. -/
def EndsRules (us : List Token) : Prop :=
  us = [] ∨ (∃ t ∈ us.head?, t.kind = .eof) ∨ opensMode us = true

/-- **A recovered region takes everything** at which the rules do not end. -/
theorem endsRules_of_recovered {us : List Token}
    (h : Production.recovered.read limit sub us = none) :
    EndsRules us := by
  cases us with
  | nil => exact .inl rfl
  | cons t us =>
    by_contra hn
    simp only [EndsRules, reduceCtorEq, List.head?_cons, Option.mem_some_iff, exists_eq_left',
      false_or, not_or, Bool.not_eq_true] at hn
    rw [Production.recovered, read_node, Option.map_eq_none_iff] at h
    by_cases hs : t.kind = .semi
    · -- a semicolon is a region by itself
      have hpiece : Production.strayPiece.read limit sub (t :: us) = none := by
        rw [Production.strayPiece, read_alt_of_none (read_actionBlock_of_ne (by simp [hs]) us)]
        simp [read, isStray, hs]
      have hmany : read limit sub (many Production.strayPiece) (t :: us) = some ([], t :: us) :=
        congrArg some (readMany_of_none hpiece limit)
      have hend : read limit sub strayEnd (t :: us) = some ([.stray t.index], us) := by
        simp [read, hs]
      rw [read_alt_of_some (by rw [read_seq_of_some hmany, hend]; rfl)] at h
      exact absurd h (by simp)
    · -- any other token is at least a piece of one
      have hstray : isStray (t :: us) = true := by
        simp [isStray, hs, hn.1, hn.2]
      have hpiece : ∃ r, Production.strayPiece.read limit sub (t :: us) = some r := by
        cases ha : Production.actionBlock.read limit sub (t :: us) with
        | none =>
          rw [Production.strayPiece, read_alt_of_none ha]
          simp only [read, hstray]
          exact ⟨_, rfl⟩
        | some r => exact ⟨r, read_alt_of_some ha _⟩
      obtain ⟨⟨ts, rest⟩, hpiece⟩ := hpiece
      cases hfirst : read limit sub (seq (many Production.strayPiece) strayEnd) (t :: us) with
      | none =>
        rw [read_alt_of_none hfirst, read_seq_of_some hpiece] at h
        exact absurd h (by simp [read])
      | some r =>
        rw [read_alt_of_some hfirst] at h
        exact absurd h (by simp)

/-- A recovered region needs a stray piece or a semicolon to start with. -/
theorem read_recovered_of_none {us : List Token}
    (hp : Production.strayPiece.read limit sub us = none)
    (he : read limit sub strayEnd us = none) : Production.recovered.read limit sub us = none := by
  have hmany : read limit sub (many Production.strayPiece) us = some ([], us) :=
    congrArg some (readMany_of_none hp limit)
  have hfirst : read limit sub (seq (many Production.strayPiece) strayEnd) us = none := by
    rw [read_seq_of_some hmany, he]
    rfl
  rw [Production.recovered, read_node, read_alt_of_none hfirst, read_seq_of_none hp]
  rfl

/-- No recovered region starts where rules end. -/
theorem read_recovered_of_endsRules {us : List Token} (h : EndsRules us) :
    Production.recovered.read limit sub us = none := by
  cases us with
  | nil => exact read_recovered_of_none rfl rfl
  | cons t us =>
    -- such a token opens no action, is no semicolon and is not stray
    obtain ⟨hb, hs, hstray⟩ :
        t.kind ≠ .beginAction ∧ t.kind ≠ .semi ∧ isStray (t :: us) = false := by
      rcases h with h | h | h
      · exact absurd h (by simp)
      · have ht : t.kind = .eof := by simpa using h
        simp [isStray, ht]
      · have ht : t.kind = .kwMode := by
          rcases us with _ | ⟨_, _ | ⟨_, _⟩⟩
          · exact absurd h (by simp [opensMode])
          · exact absurd h (by simp [opensMode])
          · simp only [opensMode, Bool.and_eq_true, beq_iff_eq] at h
            exact h.1.1
        simp [isStray, ht, h]
    refine read_recovered_of_none ?_ (by simp [read, hs])
    rw [Production.strayPiece, read_alt_of_none (read_actionBlock_of_ne hb us)]
    simp [read, hstray]

/-! ### Reaching the end -/

/-- A pattern that ends where rules end, however it starts. Nothing is said of where it starts to
fail, since the repetitions this is used for never do. -/
def ReachesEnd (limit : Nat) (sub : Nest → Reader) (p : Pattern) : Prop :=
  ∀ (us rest : List Token) (ts : List Tree), us.length ≤ limit →
    p.read limit sub us = some (ts, rest) → EndsRules rest

/-- An identifier is a reference of either kind. -/
theorem read_identifier {n : Token} (hn : n.kind ∈ [Kind.ruleRef, .tokenRef]) (us : List Token) :
    Production.identifier.read limit sub (n :: us) =
      some ([Tree.ofChildren .identifier [.leaf n.index]], us) := by
  rw [Production.identifier, read_node, read_token_of_mem hn]
  rfl

theorem read_identifier_of_not_mem {n : Token} (hn : n.kind ∉ [Kind.ruleRef, .tokenRef])
    (us : List Token) : Production.identifier.read limit sub (n :: us) = none := by
  rw [Production.identifier, read_node, read_token_of_not_mem hn]
  rfl

section Rules

variable (hsub : ∀ n, Finds (.nested n) (sub n))
include hsub

/-- Rules, with recovered regions between them, end where rules end. -/
theorem reachesEnd_many {p : Pattern} (hp : p.takesToken = true) :
    ReachesEnd limit sub (many (alt p Production.recovered)) := by
  intro us rest ts hl h
  have htakes : (alt p Production.recovered).takesToken = true := by
    rw [takesToken, hp]
    rfl
  have hfinds : Finds (alt p Production.recovered)
      ((alt p Production.recovered).read limit sub) := finds_read hsub _
  have hnone := hfinds.read_readMany htakes hl
  rw [read, Option.some.injEq] at h
  rw [h] at hnone
  -- where the next round fails, both a rule and a region fail
  cases hr : p.read limit sub rest with
  | none =>
    rw [read_alt_of_none hr] at hnone
    exact endsRules_of_recovered hnone
  | some r =>
    rw [read_alt_of_some hr] at hnone
    exact absurd hnone (by simp)

/-- A sequence ends where its second part does. -/
theorem ReachesEnd.seq {q : Pattern} (h : ReachesEnd limit sub q) (p : Pattern) :
    ReachesEnd limit sub (seq p q) := by
  intro us rest ts hl hr
  cases hp : p.read limit sub us with
  | none =>
    rw [read_seq_of_none hp] at hr
    exact absurd hr (by simp)
  | some r =>
    obtain ⟨ts', rest'⟩ := r
    rw [read_seq_of_some hp] at hr
    obtain ⟨⟨ts'', rest''⟩, hq, he⟩ := Option.map_eq_some_iff.1 hr
    obtain rfl := (Prod.mk.inj he).2
    exact h _ _ _ ((Finds.length_le (finds_read hsub p) hp).trans hl) hq

omit hsub in
theorem ReachesEnd.node {p : Pattern} (h : ReachesEnd limit sub p) (kind : NodeKind) :
    ReachesEnd limit sub (node kind p) := by
  intro us rest ts hl hr
  rw [read_node] at hr
  obtain ⟨⟨ts', rest'⟩, hp, he⟩ := Option.map_eq_some_iff.1 hr
  obtain rfl := (Prod.mk.inj he).2
  exact h _ _ _ hl hp

theorem reachesEnd_rules : ReachesEnd limit sub Production.rules :=
  (reachesEnd_many hsub (p := Production.ruleSpec) rfl).node _

/-- So do the rules of a mode, which are the last part of it. -/
theorem reachesEnd_modeSpec : ReachesEnd limit sub Production.modeSpec :=
  ((((reachesEnd_many hsub (p := Production.lexerRuleSpec) rfl).seq hsub _).seq hsub _).seq
    hsub _).node _

omit hsub in
/-- A complete mode header starts a mode, whatever its rules are. -/
theorem read_modeSpec_of_opensMode (limit : Nat) (sub : Nest → Reader) {us : List Token}
    (h : opensMode us = true) :
    ∃ r, Production.modeSpec.read limit sub us = some r := by
  match us with
  | [] | [_] | [_, _] => exact absurd h (by simp [opensMode])
  | a :: b :: c :: us =>
    simp only [opensMode, Bool.and_eq_true, Bool.or_eq_true, beq_iff_eq] at h
    obtain ⟨⟨ha, hb⟩, hc⟩ := h
    rw [Production.modeSpec, read_node, seqs, seqs, seqs, seqs,
      read_seq_of_some (read_token_of_mem (by simp [ha]) _),
      read_seq_of_some (read_identifier (by simpa using hb) _),
      read_seq_of_some (read_token_of_mem (by simp [hc]) _), read]
    exact ⟨_, rfl⟩

/-- The modes of a grammar take everything up to the end of the input. -/
theorem readMany_modeSpec {us : List Token} (h : EndsRules us) {n : Nat} (hn : us.length ≤ n)
    (hl : us.length ≤ limit) :
    (readMany (Production.modeSpec.read limit sub) n us).2 = [] ∨
      ∃ t ∈ (readMany (Production.modeSpec.read limit sub) n us).2.head?, t.kind = .eof := by
  have hfinds : Finds Production.modeSpec (Production.modeSpec.read limit sub) := finds_read hsub _
  have hends : EndsRules (readMany (Production.modeSpec.read limit sub) n us).2 := by
    clear hn
    induction n generalizing us with
    | zero => exact h
    | succ n ih =>
      rw [readMany]
      split
      · exact h
      · rename_i ts rest hr
        exact ih (reachesEnd_modeSpec hsub _ _ _ hl hr) ((hfinds.length_le hr).trans hl)
  have hnone := hfinds.read_readMany rfl hn
  -- the third case is a mode, which would be read as a further round
  rcases hends with h | h | h
  · exact .inl h
  · exact .inr h
  · obtain ⟨r, hr⟩ := read_modeSpec_of_opensMode limit sub h
    rw [hr] at hnone
    exact absurd hnone (by simp)

end Rules

/-! ### Leaving the end of the input -/

/-- Whether a pattern never takes the end of the input. -/
def leavesEnd : Pattern → Bool
  | token kinds => !kinds.contains .eof
  | stray | strayEnd | nested _ => true
  | seq p q | alt p q => p.leavesEnd && q.leavesEnd
  | opt p | many p | node _ p => p.leavesEnd

/-- The sub-rules leave the end of the input. -/
theorem leavesEnd_ofNest (nest : Nest) : (Production.ofNest nest).leavesEnd = true := by
  cases nest <;> decide +kernel

/-- What is derived by such a pattern holds no end of the input, by induction on the derivation. -/
theorem Derives.forall_ne_eof {p : Pattern} {us : List Token} {ts : List Tree} (h : Derives p us ts)
    (hp : p.leavesEnd = true) : ∀ t ∈ us, t.kind ≠ .eof := by
  induction h with
  | @token kinds t hk =>
    refine List.forall_mem_singleton.2 fun he ↦ ?_
    rw [he] at hk
    simp [leavesEnd, hk] at hp
  | stray _ he => exact List.forall_mem_singleton.2 he
  | strayEnd hs => exact List.forall_mem_singleton.2 (by simp [hs])
  | seq _ _ ihp ihq =>
    obtain ⟨hp, hq⟩ := Bool.and_eq_true_iff.1 hp
    exact List.forall_mem_append.2 ⟨ihp hp, ihq hq⟩
  | altLeft _ ih => exact ih (Bool.and_eq_true_iff.1 hp).1
  | altRight _ ih => exact ih (Bool.and_eq_true_iff.1 hp).2
  | optNone | manyNil => simp
  | optSome _ ih | node _ ih => exact ih hp
  | manyCons _ _ ihp ihq => exact List.forall_mem_append.2 ⟨ihp hp, ihq hp⟩
  | nested _ ih => exact ih (leavesEnd_ofNest _)

/-- The end of the input is still to come after such a pattern. -/
theorem terminated_of_read (hsub : ∀ n, Finds (.nested n) (sub n)) {p : Pattern}
    (hp : p.leavesEnd = true)
    {us rest : List Token} {ts : List Tree} (h : p.read limit sub us = some (ts, rest))
    (he : Terminated us) : Terminated rest := by
  obtain ⟨vs, rfl, hd⟩ := finds_read hsub _ h
  exact he.of_append (hd.forall_ne_eof hp)

/-- **Everything after a header is read**, whatever it is, through the end of the input. -/
theorem read_body (hsub : ∀ n, Finds (.nested n) (sub n)) {us : List Token} (hl : us.length ≤ limit)
    (he : Terminated us) :
    ∃ ts, read limit sub (seqs (many Production.prequelConstruct)
      [Production.rules, many Production.modeSpec, tok .eof]) us = some (ts, []) := by
  -- the three repetitions never fail; the end of the input passes through them
  obtain ⟨⟨ts₁, us₁⟩, h₁⟩ :
      ∃ r, read limit sub (many Production.prequelConstruct) us = some r := ⟨_, rfl⟩
  have hl₁ := (Finds.length_le (finds_read hsub _) h₁).trans hl
  have he₁ := terminated_of_read hsub (by decide +kernel) h₁ he
  obtain ⟨⟨ts₂, us₂⟩, h₂⟩ : ∃ r, Production.rules.read limit sub us₁ = some r := ⟨_, rfl⟩
  have hl₂ := (Finds.length_le (finds_read hsub _) h₂).trans hl₁
  have he₂ := terminated_of_read hsub (by decide +kernel) h₂ he₁
  have hmodes := readMany_modeSpec hsub (reachesEnd_rules hsub _ _ _ hl₁ h₂) hl₂ hl₂
  obtain ⟨⟨ts₃, us₃⟩, h₃⟩ : ∃ r, readMany (Production.modeSpec.read limit sub) limit us₂ = r :=
    ⟨_, rfl⟩
  have h₃' : read limit sub (many Production.modeSpec) us₂ = some (ts₃, us₃) := congrArg some h₃
  have he₃ := terminated_of_read hsub (by decide +kernel) h₃' he₂
  rw [h₃] at hmodes
  rw [seqs, seqs, seqs, seqs, read_seq_of_some h₁, read_seq_of_some h₂, read_seq_of_some h₃']
  -- what the modes leave is the end of the input, and it is read as the last token
  cases us₃ with
  | nil => exact absurd rfl he₃.ne_nil
  | cons t us₃ =>
    have ht : t.kind = .eof := by simpa using hmodes
    rw [read_token_of_mem (by simp [ht]), he₃.eq_singleton ht]
    exact ⟨_, rfl⟩

end Pattern

end GrammarLayout
