import GrammarLayout.Proofs.Grammar.Derivation

/-!
# Reading alike

Two lists of tokens are read alike if they have the same kinds in the same order, where the pieces
of an action may differ in number. What is read off them are the same nodes over corresponding
tokens (`Matched`), and what is left is alike again.

The reader looks at pieces of actions only where it reads an action, or a recovered region, in which
actions are tried first. A check of the productions says so (`Pattern.readsAlike`). It also says
that every round of a repetition takes a token, so that repetitions are cut short by none of the two
bounds, although these depend on the number of tokens.

A layout may drop blanks in actions, so an action can have fewer pieces than before. That is why the
relation is not one between single tokens, and why positions shift by an amount that depends on the
action. `R` relates tokens and `C` the pieces of actions; nothing is assumed of either, so what is
known of the tokens is found again at the leaves of the trees.

* `Alike` is the relation of lists of tokens, and `Matched` that of lists of trees.

* `Agree` relates two readings: both fail, or the trees match and the rests are alike.

* `Pattern.agree_read` is the induction over patterns, with the readers of sub-rules as a
  hypothesis; `Pattern.agree_readNest` is the one over the depth, which discharges it. Both depths
  may differ, as each is at least the number of tokens on its side.

* `Alike.readGrammar` is the result for whole grammars.

The equations of readers under "Actions" say what each kind of pattern does in each of its outcomes.
They are used by other modules as well, in place of the definition.
-/

namespace GrammarLayout

/-! ### Alike tokens and matching trees -/

/-- The tokens of an action: its braces and its pieces. -/
structure IsAction (b : Token) (cs : List Token) (e : Token) : Prop where
  /-- The opening brace. -/
  opening : b.kind = .beginAction
  /-- The pieces. -/
  content : ∀ c ∈ cs, c.kind = .actionContent
  /-- The closing brace. -/
  closing : e.kind = .endAction

section Relations

variable (R : Token → Token → Prop) (C : List Token → List Token → Prop)

/-- Tokens that are read alike: those of actions, whose pieces are related by `C`, and others of the
same kind. All but the pieces are related by `R`, one to one. -/
inductive Alike : List Token → List Token → Prop
  /-- No tokens. -/
  | nil : Alike [] []
  /-- Tokens outside actions. -/
  | cons {t t' : Token} {us us' : List Token} (hp : t.kind.isActionPiece = false)
      (hk : t'.kind = t.kind) (ht : R t t') (h : Alike us us') : Alike (t :: us) (t' :: us')
  /-- Actions. -/
  | action {b b' e e' : Token} {cs cs' us us' : List Token} (ha : IsAction b cs e)
      (ha' : IsAction b' cs' e') (hb : R b b') (hc : C cs cs') (he : R e e') (h : Alike us us') :
      Alike (b :: (cs ++ [e]) ++ us) (b' :: (cs' ++ [e']) ++ us')

/-- Trees with the same nodes over tokens that are related. -/
inductive Matched : List Tree → List Tree → Prop
  /-- No trees. -/
  | nil : Matched [] []
  /-- Leaves. -/
  | leaf {t t' : Token} {ts ts' : List Tree} (ht : R t t') (h : Matched ts ts') :
      Matched (.leaf t.index :: ts) (.leaf t'.index :: ts')
  /-- Leaves of recovered regions. -/
  | stray {t t' : Token} {ts ts' : List Tree} (ht : R t t') (h : Matched ts ts') :
      Matched (.stray t.index :: ts) (.stray t'.index :: ts')
  /-- Actions. -/
  | action {b b' e e' : Token} {cs cs' : List Token} {ts ts' : List Tree} (ha : IsAction b cs e)
      (ha' : IsAction b' cs' e') (hb : R b b') (hc : C cs cs') (he : R e e') (h : Matched ts ts') :
      Matched (actionTree b cs e :: ts) (actionTree b' cs' e' :: ts')
  /-- Nodes. -/
  | node {kind : NodeKind} {ts ts' us us' : List Tree} (h : Matched ts ts') (h' : Matched us us') :
      Matched (Tree.ofChildren kind ts :: us) (Tree.ofChildren kind ts' :: us')

end Relations

variable {R : Token → Token → Prop} {C : List Token → List Token → Prop}

theorem Matched.append {ts ts' us us' : List Tree} (h : Matched R C ts ts')
    (h' : Matched R C us us') : Matched R C (ts ++ us) (ts' ++ us') := by
  induction h with
  | nil => exact h'
  | leaf ht _ ih => exact .leaf ht ih
  | stray ht _ ih => exact .stray ht ih
  | action ha ha' hb hc he _ ih => exact .action ha ha' hb hc he ih
  | node hn _ _ ih => exact .node hn ih

/-- Trees are matched one to one. -/
theorem Matched.length_eq {ts ts' : List Tree} (h : Matched R C ts ts') :
    ts'.length = ts.length := by
  induction h with
  | nil => rfl
  | leaf _ _ ih | stray _ _ ih | action _ _ _ _ _ _ ih | node _ _ _ ih =>
    rw [List.length_cons, List.length_cons, ih]

/-- An action is not empty, so no tokens are alike to no tokens only. -/
theorem Alike.nil_iff {us us' : List Token} (h : Alike R C us us') : us = [] ↔ us' = [] := by
  cases h <;> simp

/-- An action is no part of a mode header. Three tokens are looked at, so it is ruled out at each of
the three. -/
theorem opensMode_of_action {b : Token} (hb : b.kind = .beginAction) (us : List Token) :
    opensMode (b :: us) = false ∧ (∀ t, opensMode (t :: b :: us) = false) ∧
      ∀ t u, opensMode (t :: u :: b :: us) = false := by
  refine ⟨?_, fun t ↦ ?_, fun t u ↦ ?_⟩
  · match us with
    | [] | [_] => rfl
    | _ :: _ :: _ => simp [opensMode, hb]
  · cases us <;> simp [opensMode, hb]
  · simp [opensMode, hb]

/-- Mode headers open alike, since an action stands for itself on both sides. -/
theorem Alike.opensMode_eq {us us' : List Token} (h : Alike R C us us') :
    opensMode us' = opensMode us := by
  cases h with
  | nil => rfl
  | action ha ha' =>
    rw [List.cons_append, List.cons_append, (opensMode_of_action ha.opening _).1,
      (opensMode_of_action ha'.opening _).1]
  | cons _ hk _ h =>
    cases h with
    | nil => rfl
    | action ha ha' =>
      rw [List.cons_append, List.cons_append, (opensMode_of_action ha.opening _).2.1,
        (opensMode_of_action ha'.opening _).2.1]
    | cons _ hk₂ _ h =>
      cases h with
      | nil => rfl
      | action ha ha' =>
        rw [List.cons_append, List.cons_append, (opensMode_of_action ha.opening _).2.2,
          (opensMode_of_action ha'.opening _).2.2]
      | cons _ hk₃ _ _ => simp only [opensMode, hk, hk₂, hk₃]

/-! ### Readings that agree -/

/-- Two readings that fail both, or give matching trees and leave tokens that are alike. -/
inductive Agree (R : Token → Token → Prop) (C : List Token → List Token → Prop) :
    Reading → Reading → Prop
  /-- Both fail. -/
  | none : Agree R C none none
  /-- Both succeed. -/
  | some {ts ts' : List Tree} {rest rest' : List Token} (hm : Matched R C ts ts')
      (ha : Alike R C rest rest') : Agree R C (some (ts, rest)) (some (ts', rest'))

/-- Two readers that agree on alike tokens, at most `k` and `k'` of them. -/
def AgreeUpTo (R : Token → Token → Prop) (C : List Token → List Token → Prop) (k k' : Nat)
    (r r' : Reader) : Prop :=
  ∀ {us us' : List Token}, Alike R C us us' → us.length ≤ k → us'.length ≤ k' →
    Agree R C (r us) (r' us')

namespace Pattern

/-- What is left over is no longer than what was there. -/
theorem Finds.length_le {p : Pattern} {r : Reader} (hr : Finds p r) {us rest : List Token}
    {ts : List Tree} (h : r us = some (ts, rest)) : rest.length ≤ us.length := by
  obtain ⟨vs, rfl, -⟩ := hr h
  rw [List.length_append]
  omega

/-- A reader of a pattern that takes a token leaves fewer tokens. -/
theorem Finds.length_lt {p : Pattern} {r : Reader} (hr : Finds p r) (hp : p.takesToken = true)
    {us rest : List Token} {ts : List Tree} (h : r us = some (ts, rest)) :
    rest.length < us.length := by
  obtain ⟨vs, rfl, hd⟩ := hr h
  obtain ⟨t, ht, -⟩ := hd.exists_ne_eof hp
  have hv := List.length_pos_of_mem ht
  rw [List.length_append]
  omega

theorem Finds.readMany_nil {p : Pattern} {r : Reader} (hr : Finds p r) (hp : p.takesToken = true)
    (limit : Nat) : GrammarLayout.readMany r limit [] = ([], []) := by
  cases limit with
  | zero => rfl
  | succ n =>
    cases h : r [] with
    | none => rw [GrammarLayout.readMany, h]
    | some p => exact absurd (hr.length_lt hp h) (by simp)

/-- Repetitions agree if their rounds do, whatever bounds they have that suit the tokens. -/
theorem Finds.agree_readMany {p : Pattern} {r r' : Reader} (hr : Finds p r) (hr' : Finds p r')
    (hp : p.takesToken = true) {k k' : Nat} (h : AgreeUpTo R C k k' r r') {limit limit' : Nat}
    {us us' : List Token} (hu : Alike R C us us') (hl : us.length ≤ limit)
    (hl' : us'.length ≤ limit') (hk : us.length ≤ k) (hk' : us'.length ≤ k') :
    Matched R C (GrammarLayout.readMany r limit us).1 (GrammarLayout.readMany r' limit' us').1 ∧
      Alike R C (GrammarLayout.readMany r limit us).2 (GrammarLayout.readMany r' limit' us').2 := by
  induction limit generalizing limit' us us' with
  | zero =>
    obtain rfl := List.length_eq_zero_iff.1 (Nat.le_zero.1 hl)
    obtain rfl := hu.nil_iff.1 rfl
    rw [hr'.readMany_nil hp]
    exact ⟨.nil, .nil⟩
  | succ n ih =>
    cases limit' with
    | zero =>
      obtain rfl := List.length_eq_zero_iff.1 (Nat.le_zero.1 hl')
      obtain rfl := hu.nil_iff.2 rfl
      rw [hr.readMany_nil hp]
      exact ⟨.nil, .nil⟩
    | succ m =>
      rw [GrammarLayout.readMany, GrammarLayout.readMany]
      have hround := h hu hk hk'
      generalize hx : r us = x at hround
      generalize hx' : r' us' = x' at hround
      cases hround with
      | none => exact ⟨.nil, hu⟩
      | some hm ha =>
        have hlt := hr.length_lt hp hx
        have hlt' := hr'.length_lt hp hx'
        obtain ⟨hm', ha'⟩ := ih ha (by omega) (Nat.le_of_lt_succ (Nat.lt_of_lt_of_le hlt' hl'))
          (by omega) (by omega)
        exact ⟨hm.append hm', ha'⟩

/-! ### Actions -/

theorem read_token_of_mem {limit : Nat} {sub : Nest → Reader} {kinds : List Kind} {t : Token}
    (h : t.kind ∈ kinds) (ts : List Token) :
    read limit sub (token kinds) (t :: ts) = some ([.leaf t.index], ts) := by
  simp [read, h]

theorem read_token_of_not_mem {limit : Nat} {sub : Nest → Reader} {kinds : List Kind} {t : Token}
    (h : t.kind ∉ kinds) (ts : List Token) : read limit sub (token kinds) (t :: ts) = none := by
  simp [read, h]

theorem read_seq_of_some {limit : Nat} {sub : Nest → Reader} {p : Pattern} {us rest : List Token}
    {ts : List Tree} (h : p.read limit sub us = some (ts, rest)) (q : Pattern) :
    read limit sub (seq p q) us = (q.read limit sub rest).map fun r ↦ (ts ++ r.1, r.2) := by
  simp only [read, h]

theorem read_seq_of_none {limit : Nat} {sub : Nest → Reader} {p : Pattern} {us : List Token}
    (h : p.read limit sub us = none) (q : Pattern) : read limit sub (seq p q) us = none := by
  simp only [read, h]

/-- The first alternative that can be read is taken for good. -/
theorem read_alt_of_some {limit : Nat} {sub : Nest → Reader} {p : Pattern} {us rest : List Token}
    {ts : List Tree} (h : p.read limit sub us = some (ts, rest)) (q : Pattern) :
    read limit sub (alt p q) us = some (ts, rest) := by
  simp only [read, h]

/-- The second alternative is tried where the first cannot be read. -/
theorem read_alt_of_none {limit : Nat} {sub : Nest → Reader} {p : Pattern} {us : List Token}
    (h : p.read limit sub us = none) (q : Pattern) :
    read limit sub (alt p q) us = q.read limit sub us := by
  simp only [read, h]

theorem read_node (limit : Nat) (sub : Nest → Reader) (kind : NodeKind) (p : Pattern)
    (us : List Token) : read limit sub (node kind p) us =
      (p.read limit sub us).map fun r ↦ ([Tree.ofChildren kind r.1], r.2) := rfl

theorem of_read_token {limit : Nat} {sub : Nest → Reader} {kinds : List Kind} {us rest : List Token}
    {ts : List Tree} (h : read limit sub (token kinds) us = some (ts, rest)) :
    ∃ t, t.kind ∈ kinds ∧ us = t :: rest ∧ ts = [.leaf t.index] := by
  match us with
  | [] => simp [read] at h
  | t :: us =>
    simp only [read, Option.ite_none_right_eq_some, Option.some.injEq, Prod.mk.injEq] at h
    obtain ⟨hk, rfl, rfl⟩ := h
    exact ⟨t, by simpa using hk, rfl, rfl⟩

theorem of_read_seq {limit : Nat} {sub : Nest → Reader} {p q : Pattern} {us rest : List Token}
    {ts : List Tree} (h : read limit sub (seq p q) us = some (ts, rest)) :
    ∃ ts₁ rest₁ ts₂, p.read limit sub us = some (ts₁, rest₁) ∧
      q.read limit sub rest₁ = some (ts₂, rest) ∧ ts = ts₁ ++ ts₂ := by
  cases hp : p.read limit sub us with
  | none =>
    rw [read_seq_of_none hp] at h
    exact absurd h (by simp)
  | some r =>
    rw [read_seq_of_some hp] at h
    obtain ⟨⟨ts₂, rest₂⟩, hq, he⟩ := Option.map_eq_some_iff.1 h
    obtain ⟨rfl, rfl⟩ := Prod.mk.inj he
    exact ⟨_, _, _, rfl, hq, rfl⟩

theorem of_read_node {limit : Nat} {sub : Nest → Reader} {kind : NodeKind} {p : Pattern}
    {us rest : List Token} {ts : List Tree}
    (h : read limit sub (node kind p) us = some (ts, rest)) :
    ∃ ts', p.read limit sub us = some (ts', rest) ∧ ts = [Tree.ofChildren kind ts'] := by
  rw [read_node] at h
  obtain ⟨⟨ts', rest'⟩, hp, he⟩ := Option.map_eq_some_iff.1 h
  obtain ⟨rfl, rfl⟩ := Prod.mk.inj he
  exact ⟨_, hp, rfl⟩

/-- A grammar is read in one piece, and nothing is left over. -/
theorem parse_of_readGrammar {us : List Token} {tree : Tree} (h : readGrammar us = .ok tree) :
    Production.grammarSpec.parse us = some ([tree], []) := by
  unfold readGrammar at h
  split at h
  · rename_i tree' hread
    rw [hread, Except.ok.inj h]
  · exact absurd h (by simp)
  · exact absurd h (by simp)

/-- Tokens of one kind are read as far as they go. -/
theorem readMany_tok {limit : Nat} {sub : Nest → Reader} {kind : Kind} {cs rest : List Token}
    (hc : ∀ c ∈ cs, c.kind = kind) (hr : ∀ t ∈ rest.head?, t.kind ≠ kind)
    {n : Nat} (hn : cs.length ≤ n) :
    readMany (read limit sub (tok kind)) n (cs ++ rest) = (cs.map (.leaf ·.index), rest) := by
  induction cs generalizing n with
  | nil =>
    cases n with
    | zero => rfl
    | succ n =>
      cases rest with
      | nil => rfl
      | cons t rest =>
        rw [List.nil_append, readMany, read_token_of_not_mem (by simpa using hr t rfl)]
        rfl
  | cons c cs ih =>
    rw [List.forall_mem_cons] at hc
    cases n with
    | zero => exact absurd hn (by simp)
    | succ n =>
      rw [List.cons_append, readMany, read_token_of_mem (by simp [hc.1])]
      simp only [ih hc.2 (Nat.le_of_succ_le_succ hn), List.map_cons, List.singleton_append]

/-- A whole action is read as one node. -/
theorem read_actionBlock {limit : Nat} {sub : Nest → Reader} {b e : Token} {cs : List Token}
    (h : IsAction b cs e) (hl : cs.length ≤ limit) (rest : List Token) :
    Production.actionBlock.read limit sub (b :: (cs ++ [e]) ++ rest) =
      some ([actionTree b cs e], rest) := by
  have hb : read limit sub (tok .beginAction) (b :: (cs ++ e :: rest)) =
      some ([.leaf b.index], cs ++ e :: rest) := read_token_of_mem (by simp [h.opening]) _
  have hc : read limit sub (many (tok .actionContent)) (cs ++ e :: rest) =
      some (cs.map (.leaf ·.index), e :: rest) :=
    congrArg some (readMany_tok h.content (by simp [h.closing]) hl)
  have he : read limit sub (tok .endAction) (e :: rest) = some ([.leaf e.index], rest) :=
    read_token_of_mem (by simp [h.closing]) _
  rw [List.cons_append, List.append_assoc, List.singleton_append, Production.actionBlock, seqs,
    seqs,
    seqs, read_node, read_seq_of_some hb, read_seq_of_some hc, he, actionTree, List.map_cons,
    List.map_append]
  rfl

/-- No action starts with another token. -/
theorem read_actionBlock_of_ne {limit : Nat} {sub : Nest → Reader} {t : Token}
    (ht : t.kind ≠ .beginAction) (ts : List Token) :
    Production.actionBlock.read limit sub (t :: ts) = none := by
  have hb : read limit sub (tok .beginAction) (t :: ts) = none :=
    read_token_of_not_mem (by simpa using ht) _
  rw [Production.actionBlock, seqs, read_node, read_seq_of_none hb]
  rfl

/-- Actions are read alike. -/
theorem agree_actionBlock {limit limit' : Nat} {sub sub' : Nest → Reader} :
    AgreeUpTo R C limit limit' (Production.actionBlock.read limit sub)
      (Production.actionBlock.read limit' sub') := by
  intro us us' h hl hl'
  cases h with
  | nil => exact .none
  | @cons t t' us us' hp hk ht h =>
    have hne : t.kind ≠ .beginAction := by
      intro hb
      rw [hb] at hp
      exact absurd hp (by decide)
    rw [read_actionBlock_of_ne hne, read_actionBlock_of_ne (by rw [hk]; exact hne)]
    exact .none
  | @action b b' e e' cs cs' us us' ha ha' hb hc he h =>
    simp only [List.length_append, List.length_cons, List.length_nil] at hl hl'
    rw [read_actionBlock ha (by omega), read_actionBlock ha' (by omega)]
    exact .some (.action ha ha' hb hc he .nil) h

/-! ### Patterns that are read alike -/

/-- Whether a pattern is read alike: pieces of actions are read in actions only, and every round of
a repetition takes a token. Two productions are exempt by name, as their own lemmas say that they
are read alike (`agree_actionBlock`, `agree_strayPiece`). -/
def readsAlike : Pattern → Bool
  | token kinds => kinds.all (!·.isActionPiece)
  | stray => false
  | strayEnd | nested _ => true
  | seq p q => p.readsAlike && q.readsAlike
  | alt p q => alt p q == Production.strayPiece || (p.readsAlike && q.readsAlike)
  | opt p => p.readsAlike
  | many p => p.takesToken && p.readsAlike
  | node kind p => node kind p == Production.actionBlock || p.readsAlike

theorem readsAlike_grammarSpec : Production.grammarSpec.readsAlike = true := by decide +kernel

/-- Tokens of some kinds are read alike, pieces of actions not being among them. -/
theorem agree_token {limit limit' : Nat} {sub sub' : Nest → Reader} {kinds : List Kind}
    (hp : kinds.all (!·.isActionPiece) = true) (k k' : Nat) :
    AgreeUpTo R C k k' (read limit sub (token kinds)) (read limit' sub' (token kinds)) := by
  intro us us' h _ _
  have hnot : ∀ {t : Token}, t.kind.isActionPiece = true → t.kind ∉ kinds := by
    intro t ht hm
    have hn := List.all_eq_true.1 hp _ hm
    simp [ht] at hn
  cases h with
  | nil => exact .none
  | @cons t t' us us' _ hk ht h =>
    by_cases hm : t.kind ∈ kinds
    · rw [read_token_of_mem hm, read_token_of_mem (by rw [hk]; exact hm)]
      exact .some (.leaf ht .nil) h
    · rw [read_token_of_not_mem hm, read_token_of_not_mem (by rw [hk]; exact hm)]
      exact .none
  | action ha ha' =>
    rw [List.cons_append, List.cons_append, read_token_of_not_mem (hnot (by rw [ha.opening]; rfl)),
      read_token_of_not_mem (hnot (by rw [ha'.opening]; rfl))]
    exact .none

/-- The pieces of a recovered region are read alike. At an action the whole action is taken, so its
pieces are never taken one by one. -/
theorem agree_strayPiece {limit limit' : Nat} {sub sub' : Nest → Reader} :
    AgreeUpTo R C limit limit' (Production.strayPiece.read limit sub)
      (Production.strayPiece.read limit' sub') := by
  intro us us' h hl hl'
  rw [Production.strayPiece]
  cases h with
  | nil => exact .none
  | @cons t t' us us' hp hk ht h =>
    have hne : t.kind ≠ .beginAction := by
      intro hb
      rw [hb] at hp
      exact absurd hp (by decide)
    have hs : isStray (t' :: us') = isStray (t :: us) := by
      rw [isStray, isStray, hk, (Alike.cons hp hk ht h).opensMode_eq]
    rw [read_alt_of_none (read_actionBlock_of_ne hne us),
      read_alt_of_none (read_actionBlock_of_ne (by rw [hk]; exact hne) us')]
    simp only [read, hs]
    split
    · exact .some (.stray ht .nil) h
    · exact .none
  | @action b b' e e' cs cs' us us' ha ha' hb hc he h =>
    simp only [List.length_append, List.length_cons, List.length_nil] at hl hl'
    rw [read_alt_of_some (read_actionBlock ha (by omega) us),
      read_alt_of_some (read_actionBlock ha' (by omega) us')]
    exact .some (.action ha ha' hb hc he .nil) h

theorem agree_strayEnd {limit limit' : Nat} {sub sub' : Nest → Reader} (k k' : Nat) :
    AgreeUpTo R C k k' (read limit sub strayEnd) (read limit' sub' strayEnd) := by
  intro us us' h _ _
  cases h with
  | nil => exact .none
  | cons _ hk ht h =>
    simp only [read, hk]
    split
    · exact .some (.stray ht .nil) h
    · exact .none
  | action ha ha' =>
    simp only [List.cons_append, read, ha.opening, ha'.opening]
    exact .none

/-- **Patterns are read alike** off tokens that are alike, if the sub-rules are. -/
theorem agree_read {limit limit' : Nat} {sub sub' : Nest → Reader}
    (hf : ∀ n, Finds (.nested n) (sub n)) (hf' : ∀ n, Finds (.nested n) (sub' n)) {k k' : Nat}
    (hk : k ≤ limit) (hk' : k' ≤ limit') (hs : ∀ n, AgreeUpTo R C k k' (sub n) (sub' n))
    (p : Pattern) (hp : p.readsAlike = true) :
    AgreeUpTo R C k k' (p.read limit sub) (p.read limit' sub') := by
  induction p with
  | token kinds => exact agree_token hp k k'
  | stray => exact absurd hp (by decide)
  | strayEnd => exact agree_strayEnd k k'
  | seq p q ihp ihq =>
    obtain ⟨hp, hq⟩ := Bool.and_eq_true_iff.1 hp
    intro us us' h hl hl'
    have hfirst := ihp hp h hl hl'
    generalize hx : p.read limit sub us = x at hfirst
    generalize hx' : p.read limit' sub' us' = x' at hfirst
    cases hfirst with
    | none =>
      rw [read_seq_of_none hx, read_seq_of_none hx']
      exact .none
    | @some ts ts' rest rest' hm ha =>
      -- the bounds still suit what the first part leaves
      have hle := Finds.length_le (finds_read hf p) hx
      have hle' := Finds.length_le (finds_read hf' p) hx'
      rw [read_seq_of_some hx, read_seq_of_some hx']
      have hsecond := ihq hq ha (by omega) (by omega)
      generalize q.read limit sub rest = y at hsecond
      generalize q.read limit' sub' rest' = y' at hsecond
      cases hsecond with
      | none => exact .none
      | some hm' ha' => exact .some (hm.append hm') ha'
  | alt p q ihp ihq =>
    rcases Bool.or_eq_true_iff.1 hp with hst | hp
    · rw [beq_iff_eq.1 hst]
      exact fun h hl hl' ↦ agree_strayPiece h (by omega) (by omega)
    · obtain ⟨hp, hq⟩ := Bool.and_eq_true_iff.1 hp
      intro us us' h hl hl'
      have hfirst := ihp hp h hl hl'
      generalize hx : p.read limit sub us = x at hfirst
      generalize hx' : p.read limit' sub' us' = x' at hfirst
      cases hfirst with
      | none =>
        rw [read_alt_of_none hx, read_alt_of_none hx']
        exact ihq hq h hl hl'
      | some hm ha =>
        rw [read_alt_of_some hx, read_alt_of_some hx']
        exact .some hm ha
  | opt p ih =>
    intro us us' h hl hl'
    have hin := ih hp h hl hl'
    simp only [read]
    generalize p.read limit sub us = x at hin
    generalize p.read limit' sub' us' = x' at hin
    cases hin with
    | none => exact .some .nil h
    | some hm ha => exact .some hm ha
  | many p ih =>
    obtain ⟨ht, hp⟩ := Bool.and_eq_true_iff.1 hp
    intro us us' h hl hl'
    obtain ⟨hm, ha⟩ := Finds.agree_readMany (finds_read hf p) (finds_read hf' p) ht (ih hp) h
      (show us.length ≤ limit by omega) (show us'.length ≤ limit' by omega) hl hl'
    exact .some hm ha
  | node kind p ih =>
    rcases Bool.or_eq_true_iff.1 hp with hact | hp
    · rw [beq_iff_eq.1 hact]
      exact fun h hl hl' ↦ agree_actionBlock h (by omega) (by omega)
    · intro us us' h hl hl'
      have hin := ih hp h hl hl'
      rw [read_node, read_node]
      generalize p.read limit sub us = x at hin
      generalize p.read limit' sub' us' = x' at hin
      cases hin with
      | none => exact .none
      | some hm ha => exact .some (.node hm .nil) ha
  | nested nest => exact hs nest

/-- A sub-rule starts with a parenthesis. -/
theorem exists_ofNest (nest : Nest) :
    ∃ kind p, Production.ofNest nest = node kind (seq (tok .lparen) p) ∧ p.readsAlike = true := by
  cases nest
  · exact ⟨_, _, rfl, by decide +kernel⟩
  · exact ⟨_, _, rfl, by decide +kernel⟩

theorem readNest_nil (limit depth : Nat) (nest : Nest) : Nest.read limit depth nest [] = none := by
  cases depth with
  | zero => rfl
  | succ depth =>
    obtain ⟨kind, p, hn, -⟩ := exists_ofNest nest
    have hp : read limit (Nest.read limit depth) (tok .lparen) [] = none := rfl
    rw [Nest.read, hn, read_node, read_seq_of_none hp]
    rfl

/-- **Sub-rules are read alike**, to whatever depth that suits the tokens: each level takes a
parenthesis. -/
theorem agree_readNest {limit limit' k k' : Nat} (hk : k ≤ limit) (hk' : k' ≤ limit')
    (nest : Nest) : AgreeUpTo R C k k' (Nest.read limit k nest) (Nest.read limit' k' nest) := by
  induction k generalizing k' nest with
  | zero =>
    intro us us' h hl _
    obtain rfl := List.length_eq_zero_iff.1 (Nat.le_zero.1 hl)
    obtain rfl := h.nil_iff.1 rfl
    rw [readNest_nil, readNest_nil]
    exact .none
  | succ k ih =>
    cases k' with
    | zero =>
      intro us us' h _ hl'
      obtain rfl := List.length_eq_zero_iff.1 (Nat.le_zero.1 hl')
      obtain rfl := h.nil_iff.2 rfl
      rw [readNest_nil, readNest_nil]
      exact .none
    | succ k' =>
      intro us us' h hl hl'
      obtain ⟨kind, p, hn, hp⟩ := exists_ofNest nest
      have hparen : Agree R C (read limit (Nest.read limit k) (tok .lparen) us)
          (read limit' (Nest.read limit' k') (tok .lparen) us') :=
        agree_token (by decide) _ _ h hl hl'
      rw [Nest.read, Nest.read, hn, read_node, read_node]
      generalize hx : read limit (Nest.read limit k) (tok .lparen) us = x at hparen
      generalize hx' : read limit' (Nest.read limit' k') (tok .lparen) us' = x' at hparen
      cases hparen with
      | none =>
        rw [read_seq_of_none hx, read_seq_of_none hx']
        exact .none
      | @some ts ts' rest rest' hm ha =>
        -- the parenthesis leaves fewer tokens, so the next level suits them
        have hlt := Finds.length_lt (finds_read (finds_readNest limit k) _) rfl hx
        have hlt' := Finds.length_lt (finds_read (finds_readNest limit' k') _) rfl hx'
        rw [read_seq_of_some hx, read_seq_of_some hx']
        have hin := agree_read (finds_readNest limit k) (finds_readNest limit' k')
          (Nat.le_of_succ_le hk) (Nat.le_of_succ_le hk')
          (fun n ↦ ih (Nat.le_of_succ_le hk) (Nat.le_of_succ_le hk') n) p hp ha (by omega)
          (by omega)
        generalize p.read limit (Nest.read limit k) rest = y at hin
        generalize p.read limit' (Nest.read limit' k') rest' = y' at hin
        cases hin with
        | none => exact .none
        | some hm' ha' => exact .some (.node (hm.append hm') .nil) ha'

end Pattern

/-- **A grammar is read again** off tokens that are alike, with matching nodes. -/
theorem Alike.readGrammar {us us' : List Token} (h : Alike R C us us') {tree : Tree}
    (hr : readGrammar us = .ok tree) :
    ∃ tree', readGrammar us' = .ok tree' ∧ Matched R C [tree] [tree'] := by
  have hparse : Production.grammarSpec.parse us = some ([tree], []) := by
    unfold GrammarLayout.readGrammar at hr
    split at hr
    · rename_i t ht
      rw [ht, Except.ok.inj hr]
    · exact absurd hr (by simp)
    · exact absurd hr (by simp)
  have hag := Pattern.agree_read (Pattern.finds_readNest us.length us.length)
    (Pattern.finds_readNest us'.length us'.length) (Nat.le_refl _) (Nat.le_refl _)
    (fun n ↦ Pattern.agree_readNest (Nat.le_refl _) (Nat.le_refl _) n) Production.grammarSpec
    Pattern.readsAlike_grammarSpec h (Nat.le_refl _) (Nat.le_refl _)
  rw [Pattern.parse] at hparse
  rw [hparse] at hag
  generalize hx : Production.grammarSpec.read us'.length _ us' = x at hag
  cases hag with
  | @some _ ts' _ rest' hm ha =>
    obtain rfl := ha.nil_iff.1 rfl
    obtain ⟨tree', rfl⟩ := List.length_eq_one_iff.1 hm.length_eq
    have hparse' : Production.grammarSpec.parse us' = some ([tree'], []) := hx
    exact ⟨tree', by rw [GrammarLayout.readGrammar, hparse'], hm⟩

end GrammarLayout
