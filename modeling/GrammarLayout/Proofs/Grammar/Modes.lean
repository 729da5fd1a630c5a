import GrammarLayout.Proofs.Grammar.Acceptance
import GrammarLayout.Proofs.Grammar.Coverage

/-!
# Where modes start

A grammar has a mode wherever its main tokens hold a complete mode header, and nowhere else
(`parse_finds_modes`), however broken the rules in between are.

Most productions are `modeless`: none of their nodes is a mode, and the keyword `mode`, which a
lexer command may be, is neither followed by a name nor the last token. So they take no header, nor
the start of one. The rest of the grammar is put together from such parts by the reader itself, and
`FindsModes` says of a reader that it steps over headers only to make modes of them. It is stated of
readers and not of derivations on purpose: whether a token may be taken into a recovered region
depends on the tokens after it, which a derivation does not see.

`FindsModes` is an equation between three lists: the headers in the tokens before the reader, the
modes in the trees that it makes, and the headers in the tokens that it leaves. So it composes like
the readers do (`findsModes_seq`, `findsModes_alt`, `findsModes_many`), and for a whole grammar,
which leaves nothing, it is the result.

Headers are three tokens, and could lie across the border between what is read and what is left. Two
things exclude that. Productions without modes never end with the keyword, and it never meets a name
in them (`modeStarts_append`); and a stray token is asked whether it opens a mode with the tokens
after it, wherever these belong.
-/

namespace GrammarLayout

/-- The positions at which complete mode headers start. -/
def modeStarts : List Token → List Nat
  | [] => []
  | t :: ts => if opensMode (t :: ts) then t.index :: modeStarts ts else modeStarts ts

/-- The first positions of the modes among trees, in order. -/
def modeHeads (ts : List Tree) : List (Option Nat) :=
  ((Tree.nodesAll ts).filter (·.kind == .modeSpec)).map fun n ↦ n.span.map Span.start

theorem modeStarts_cons_of_not_opens {t : Token} {ts : List Token}
    (h : opensMode (t :: ts) = false) : modeStarts (t :: ts) = modeStarts ts := by
  rw [modeStarts, h, if_neg (by simp)]

/-- Only the keyword `mode` opens a mode. -/
theorem opensMode_of_kind_ne {t : Token} (ht : t.kind ≠ .kwMode) (ts : List Token) :
    opensMode (t :: ts) = false := by
  match ts with
  | [] | [_] => rfl
  | b :: c :: ts => simp [opensMode, ht]

/-- Modes among trees side by side. -/
theorem modeHeads_append (ts ts' : List Tree) :
    modeHeads (ts ++ ts') = modeHeads ts ++ modeHeads ts' := by
  rw [modeHeads, Tree.nodesAll_append, List.filter_append, List.map_append]
  rfl

/-- A node that is no mode adds none. -/
theorem modeHeads_node {kind : NodeKind} (hk : kind ≠ .modeSpec) (ts : List Tree) :
    modeHeads [Tree.ofChildren kind ts] = modeHeads ts := by
  rw [modeHeads, Tree.nodesAll, Tree.nodesAll, List.append_nil, Tree.ofChildren, Tree.nodes,
    List.filter_cons_of_neg (by simpa using hk)]
  rfl

/-- A mode starts with its first leaf. -/
theorem modeHeads_mode (i : Nat) (ts : List Tree) :
    modeHeads [Tree.ofChildren .modeSpec (.leaf i :: ts)] = some i :: modeHeads ts := by
  have hspan : (Tree.spanOf? (.leaf i :: ts)).map Span.start = some i := by
    rw [Tree.spanOf?, List.reverse_cons, List.findSome?_append]
    cases ts.reverse.findSome? Tree.lastIndex? <;> rfl
  rw [modeHeads, Tree.nodesAll, Tree.nodesAll, List.append_nil, Tree.ofChildren, Tree.nodes,
    List.filter_cons_of_pos rfl, List.map_cons, hspan]
  rfl

/-! ### Productions without modes -/

namespace Pattern

/-- Whether a pattern forms no node of a kind. Sub-rules form only nodes of what stands in rules. -/
def formsNo (kind : NodeKind) : Pattern → Bool
  | token _ | stray | strayEnd | nested _ => true
  | seq p q | alt p q => p.formsNo kind && q.formsNo kind
  | opt p | many p => p.formsNo kind
  | node k p => k != kind && p.formsNo kind

/-- What is derived has no node of that kind. -/
theorem Derives.kind_ne_of_formsNo {kind : NodeKind}
    (hn : ∀ n, (Production.ofNest n).formsNo kind = true) {p : Pattern} {us : List Token}
    {ts : List Tree} (h : Derives p us ts) (hp : p.formsNo kind = true) :
    ∀ n ∈ Tree.nodesAll ts, n.kind ≠ kind := by
  induction h with
  | token | stray | strayEnd => simp [Tree.nodesAll, Tree.nodes]
  | seq _ _ ihp ihq =>
    obtain ⟨hp, hq⟩ := Bool.and_eq_true_iff.1 hp
    rw [Tree.nodesAll_append, List.forall_mem_append]
    exact ⟨ihp hp, ihq hq⟩
  | altLeft _ ih => exact ih (Bool.and_eq_true_iff.1 hp).1
  | altRight _ ih => exact ih (Bool.and_eq_true_iff.1 hp).2
  | optNone | manyNil => simp [Tree.nodesAll]
  | optSome _ ih => exact ih hp
  | manyCons _ _ ihp ihq =>
    rw [Tree.nodesAll_append, List.forall_mem_append]
    exact ⟨ihp hp, ihq hp⟩
  | node _ ih =>
    obtain ⟨hk, hp⟩ := Bool.and_eq_true_iff.1 hp
    rw [Tree.nodesAll_ofChildren, List.forall_mem_cons]
    exact ⟨bne_iff_ne.1 hk, ih hp⟩
  | nested _ ih => exact ih (hn _)

/-- Whether a pattern takes neither a mode header nor a part of one that starts with its keyword. -/
def modeless (p : Pattern) : Bool :=
  p.neverRecovers && p.formsNo .modeSpec && p.neverMeets .kwMode .ruleRef &&
    p.neverMeets .kwMode .tokenRef && !p.mayEnd .kwMode

end Pattern

/-- Headers are not opened by tokens of which no `mode` is followed by a name or comes last. -/
theorem modeStarts_append {us rest : List Token}
    (hr : us.IsChain fun t u ↦ t.kind = .kwMode → u.kind ≠ .ruleRef)
    (ht : us.IsChain fun t u ↦ t.kind = .kwMode → u.kind ≠ .tokenRef)
    (hl : ∀ t ∈ us.getLast?, t.kind ≠ .kwMode) : modeStarts (us ++ rest) = modeStarts rest := by
  induction us with
  | nil => rfl
  | cons t us ih =>
    cases us with
    | nil => exact modeStarts_cons_of_not_opens (opensMode_of_kind_ne (hl t rfl) rest)
    | cons u us =>
      obtain ⟨hru, hr⟩ := List.isChain_cons_cons.1 hr
      obtain ⟨htu, ht⟩ := List.isChain_cons_cons.1 ht
      have hno : opensMode (t :: (u :: us ++ rest)) = false := by
        by_cases hk : t.kind = .kwMode
        · rw [List.cons_append]
          generalize us ++ rest = vs
          match vs with
          | [] => rfl
          | c :: vs => simp [opensMode, hru hk, htu hk]
        · exact opensMode_of_kind_ne hk _
      rw [List.cons_append, modeStarts_cons_of_not_opens hno]
      exact ih hr ht fun v hv ↦ hl v (by simpa using hv)

/-! ### Readers that find modes -/

/-- A reader takes complete mode headers only as those of the modes it reads. -/
def FindsModes (r : Reader) : Prop :=
  ∀ ⦃us : List Token⦄ ⦃ts : List Tree⦄ ⦃rest : List Token⦄, r us = some (ts, rest) →
    (modeStarts us).map some = modeHeads ts ++ (modeStarts rest).map some

theorem FindsModes.readMany {r : Reader} (hr : FindsModes r) (n : Nat) (us : List Token) :
    (modeStarts us).map some =
      modeHeads (readMany r n us).1 ++ (modeStarts (readMany r n us).2).map some := by
  induction n generalizing us with
  | zero => rfl
  | succ n ih =>
    rw [GrammarLayout.readMany]
    split
    · rfl
    · rename_i ts rest h
      rw [modeHeads_append, List.append_assoc, ← ih rest]
      exact hr h

namespace Pattern

/-- In parentheses stand no modes, no rules and no recovered regions. -/
theorem formsNo_ofNest {kind : NodeKind}
    (hk : kind ∈ [NodeKind.modeSpec, .ruleSpec, .lexerRuleSpec, .recovered]) (nest : Nest) :
    (Production.ofNest nest).formsNo kind = true := by
  revert kind
  cases nest <;> decide +kernel

/-- The parts of a grammar other than its modes are without modes. This is one evaluation of the
checks. -/
theorem modeless_parts :
    (many (tok .docComment)).modeless = true ∧ Production.grammarDecl.modeless = true ∧
      (many Production.prequelConstruct).modeless = true ∧ Production.ruleSpec.modeless = true ∧
        Production.lexerRuleSpec.modeless = true ∧ Production.actionBlock.modeless = true ∧
          (tok .eof).modeless = true := by
  decide +kernel

section FindsModes

variable {limit depth : Nat} {p q : Pattern}

/-- **Productions without modes** take no header. This is where derivations come in: what they take
is a matter of the productions alone. -/
theorem findsModes_of_modeless (hp : p.modeless = true) :
    FindsModes (p.read limit (Nest.read limit depth)) := by
  intro us ts rest h
  simp only [modeless, Bool.and_eq_true, Bool.not_eq_true'] at hp
  obtain ⟨⟨⟨⟨hclean, hforms⟩, href⟩, htok⟩, hend⟩ := hp
  obtain ⟨vs, rfl, hd⟩ := finds_read (finds_readNest _ _) p h
  have hc := hd.clean hclean
  have hkind := hd.kind_ne_of_formsNo (formsNo_ofNest (by decide)) hforms
  have hnone : modeHeads ts = [] := by
    rw [modeHeads, List.map_eq_nil_iff, List.filter_eq_nil_iff]
    exact fun n hn ↦ by simpa using hkind n hn
  rw [hnone, List.nil_append, modeStarts_append]
  · exact hd.isChain_of_neverMeets (neverMeets_ofNest (by decide)) href hc
  · exact hd.isChain_of_neverMeets (neverMeets_ofNest (by decide)) htok hc
  · intro t ht hk
    have hm := hd.mayEnd_getLast hc t ht
    rw [hk, hend] at hm
    exact absurd hm (by simp)

variable {sub : Nest → Reader}

/-- A token of a recovered region does not open a mode: that is what it is asked for. -/
theorem findsModes_stray : FindsModes (stray.read limit sub) := by
  intro us ts rest h
  match us with
  | [] => simp [read] at h
  | t :: us =>
    simp only [read, Option.ite_none_right_eq_some, Option.some.injEq, Prod.mk.injEq] at h
    obtain ⟨hs, rfl, rfl⟩ := h
    simp only [isStray, Bool.and_eq_true, Bool.not_eq_true'] at hs
    rw [modeStarts_cons_of_not_opens hs.2]
    rfl

theorem findsModes_strayEnd : FindsModes (strayEnd.read limit sub) := by
  intro us ts rest h
  match us with
  | [] => simp [read] at h
  | t :: us =>
    simp only [read, Option.ite_none_right_eq_some, Option.some.injEq, Prod.mk.injEq,
      beq_iff_eq] at h
    obtain ⟨hs, rfl, rfl⟩ := h
    rw [modeStarts_cons_of_not_opens (opensMode_of_kind_ne (by simp [hs]) us)]
    rfl

theorem findsModes_seq (hp : FindsModes (p.read limit sub)) (hq : FindsModes (q.read limit sub)) :
    FindsModes ((seq p q).read limit sub) := by
  intro us ts rest h
  obtain ⟨ts₁, rest₁, ts₂, hp', hq', rfl⟩ := of_read_seq h
  rw [modeHeads_append, List.append_assoc, ← hq hq']
  exact hp hp'

theorem findsModes_alt (hp : FindsModes (p.read limit sub)) (hq : FindsModes (q.read limit sub)) :
    FindsModes ((alt p q).read limit sub) := by
  intro us ts rest h
  simp only [read] at h
  split at h
  · exact hq h
  · rename_i r hp'
    exact hp (hp'.trans h)

theorem findsModes_many (hp : FindsModes (p.read limit sub)) :
    FindsModes ((many p).read limit sub) := by
  intro us ts rest h
  have hm := FindsModes.readMany hp limit us
  simp only [read, Option.some.injEq] at h
  rwa [h] at hm

theorem findsModes_node {kind : NodeKind} (hk : kind ≠ .modeSpec)
    (hp : FindsModes (p.read limit sub)) : FindsModes ((node kind p).read limit sub) := by
  intro us ts rest h
  obtain ⟨ts', hp', rfl⟩ := of_read_node h
  rw [modeHeads_node hk]
  exact hp hp'

end FindsModes

/-! ### The whole grammar -/

section Grammar

variable {limit depth : Nat}

/-- A recovered region stops at a complete mode header. -/
theorem findsModes_recovered :
    FindsModes (Production.recovered.read limit (Nest.read limit depth)) := by
  obtain ⟨-, -, -, -, -, haction, -⟩ := modeless_parts
  have hpiece : FindsModes (Production.strayPiece.read limit (Nest.read limit depth)) :=
    findsModes_alt (findsModes_of_modeless haction) findsModes_stray
  have hpieces := findsModes_many hpiece
  exact findsModes_node (by decide) (findsModes_alt (findsModes_seq hpieces findsModes_strayEnd)
    (findsModes_seq hpiece hpieces))

/-- Rules take no header, whether they can be read or not. -/
theorem findsModes_rules {p : Pattern} (hp : p.modeless = true) :
    FindsModes ((many (alt p Production.recovered)).read limit (Nest.read limit depth)) :=
  findsModes_many (findsModes_alt (findsModes_of_modeless hp) findsModes_recovered)

/-- **A mode is read where its header is complete**, and no other header comes with it. -/
theorem findsModes_modeSpec :
    FindsModes (Production.modeSpec.read limit (Nest.read limit depth)) := by
  intro us ts rest h
  obtain ⟨-, -, -, -, hrule, -⟩ := modeless_parts
  obtain ⟨_, hbody, rfl⟩ := of_read_node h
  obtain ⟨_, _, _, hm, hnext, rfl⟩ := of_read_seq hbody
  obtain ⟨_, _, _, hid, hrest, rfl⟩ := of_read_seq hnext
  obtain ⟨_, _, ts, hs, hrules, rfl⟩ := of_read_seq hrest
  obtain ⟨_, hname, rfl⟩ := of_read_node hid
  obtain ⟨m, hmk, rfl, rfl⟩ := of_read_token hm
  obtain ⟨n, hnk, rfl, rfl⟩ := of_read_token hname
  obtain ⟨s, hsk, rfl, rfl⟩ := of_read_token hs
  simp only [List.mem_cons, List.not_mem_nil, or_false] at hmk hnk hsk
  have hopen : ∀ vs, opensMode (m :: n :: s :: vs) = true := by
    intro vs
    simpa [opensMode, hmk, hsk] using hnk
  have hn : n.kind ≠ .kwMode := by rcases hnk with hnk | hnk <;> simp [hnk]
  show _ = modeHeads [Tree.ofChildren .modeSpec (.leaf m.index ::
    Tree.ofChildren .identifier [.leaf n.index] :: .leaf s.index :: ts)] ++ _
  rw [modeHeads_mode, modeStarts, if_pos (hopen _),
    modeStarts_cons_of_not_opens (opensMode_of_kind_ne hn _),
    modeStarts_cons_of_not_opens (opensMode_of_kind_ne (by simp [hsk]) _), List.map_cons,
    findsModes_rules hrule hrules]
  rfl

/-- **A grammar takes headers only for its modes.** -/
theorem findsModes_grammarSpec :
    FindsModes (Production.grammarSpec.read limit (Nest.read limit depth)) := by
  obtain ⟨hdocs, hdecl, hprequel, hrule, -, -, heof⟩ := modeless_parts
  have hrules : FindsModes (Production.rules.read limit (Nest.read limit depth)) :=
    findsModes_node (by decide) (findsModes_rules hrule)
  exact findsModes_node (by decide) (findsModes_seq (findsModes_of_modeless hdocs)
    (findsModes_seq (findsModes_of_modeless hdecl) (findsModes_seq (findsModes_of_modeless hprequel)
      (findsModes_seq hrules (findsModes_seq (findsModes_many findsModes_modeSpec)
        (findsModes_of_modeless heof))))))

end Grammar

end Pattern

open Pattern in
/-- **Modes start exactly at the complete mode headers**: the modes of a tree, in order, have as
first positions those of the main tokens at which the keyword `mode`, a name and a semicolon follow
each other. -/
theorem parse_finds_modes {s : Stream} {tree : Tree} (h : parse s = .ok tree) :
    (tree.findAll .modeSpec).map (fun n ↦ n.span.map Span.start) =
      (modeStarts s.mainTokens).map some := by
  have hmodes := findsModes_grammarSpec (parse_of_readGrammar (parse_eq_ok_iff.1 h))
  rw [modeHeads, Tree.nodesAll, Tree.nodesAll, List.append_nil, modeStarts, List.map_nil,
    List.append_nil] at hmodes
  exact hmodes.symm

/-- A lexer command, a header without its semicolon in a broken rule, and two modes, one of them
right after an unclosed block. -/
theorem modes_among_broken_rules :
    ∃ tree, parse (tokenize
        "lexer grammar T; A : 'a' -> mode(B) ; mode B x ; mode B; C : ( mode D;") = .ok tree ∧
      (tree.findAll .modeSpec).map (fun n ↦ n.span.map Span.start) = [some 30, some 41] := by
  obtain ⟨tree, hp⟩ := exists_tree_of_isSome (s := tokenize
    "lexer grammar T; A : 'a' -> mode(B) ; mode B x ; mode B; C : ( mode D;") (by decide +kernel)
  have hstarts : modeStarts (tokenize
      "lexer grammar T; A : 'a' -> mode(B) ; mode B x ; mode B; C : ( mode D;").mainTokens =
      [30, 41] := by decide +kernel
  refine ⟨tree, hp, ?_⟩
  rw [parse_finds_modes hp, hstarts]
  rfl

end GrammarLayout
