import GrammarLayout.Proofs.Grammar.Lookahead

/-!
# What is accepted

The productions without recovery describe a grammar in the usual sense, in which a choice is a union
(`Pattern.strict`, `Pattern.Derives`). What the reader makes of a list of tokens without recovering
anything is exactly what this grammar derives, with the tree of the derivation
(`readGrammar_eq_ok_iff`). So no derivable rule is ever rejected or recovered, and no list of tokens
has two trees.

Most of it is an instance of `read_of_derives`. The rules themselves are not, because a recovered
region is tried beside each of them: where the rules end, the tokens left have to start with a
complete mode header, or with the end of the input, for the region not to be taken.

One direction is short: a tree without recovered nodes comes from a derivation in which no region
was recovered, and such a derivation is one of the productions without recovery (`Derives.strict`).
The other direction is the substance. The reader takes the first alternative that can be read and
repeats as long as it can, so it could miss a derivation; that it does not follows from what each
production may be followed by.

`strict` is computed from the productions by leaving out the recovered regions, and
`strict_grammarSpec` writes the result out for grammars, so that what is accepted can be read off.
-/

namespace GrammarLayout

open Views

namespace Pattern

/-! ### Productions without recovery -/

/-- A pattern without its recovered regions: where one is an alternative, only the other is left. -/
def strict : Pattern → Pattern
  | token kinds => token kinds
  | stray => stray
  | strayEnd => strayEnd
  | seq p q => seq p.strict q.strict
  | alt p q => if q = Production.recovered then p.strict else alt p.strict q.strict
  | opt p => opt p.strict
  | many p => many p.strict
  | node kind p => node kind p.strict
  | nested nest => nested nest

/-- A derivation that recovers nothing is one without recovery. -/
theorem Derives.strict {p : Pattern} {us : List Token} {ts : List Tree} (h : Derives p us ts)
    (hc : Clean ts) : Derives p.strict us ts := by
  induction h with
  | token hk => exact .token hk
  | stray hs he => exact .stray hs he
  | strayEnd hs => exact .strayEnd hs
  | seq _ _ ihp ihq =>
    obtain ⟨hc, hc'⟩ := clean_append.1 hc
    exact .seq (ihp hc) (ihq hc')
  | altLeft _ ih =>
    rw [Pattern.strict]
    split
    · exact ih hc
    · exact .altLeft (ih hc)
  -- the branch that recovery takes is the one a clean tree cannot have
  | altRight h ih =>
    rw [Pattern.strict]
    split
    · rename_i hq
      rw [hq, Production.recovered] at h
      cases h with
      | node => exact absurd rfl (clean_node.1 hc).1
    · exact .altRight (ih hc)
  | optNone => exact .optNone
  | optSome _ ih => exact .optSome (ih hc)
  | manyNil => exact .manyNil
  | manyCons _ _ ihp ihq =>
    obtain ⟨hc, hc'⟩ := clean_append.1 hc
    exact .manyCons (ihp hc) (ihq hc')
  | node _ ih => exact .node (ih (clean_node.1 hc).2)
  | nested h _ => exact .nested h

/-- Whether a pattern has no node for recovered regions. -/
def neverRecovers : Pattern → Bool
  | token _ | stray | strayEnd | nested _ => true
  | seq p q | alt p q => p.neverRecovers && q.neverRecovers
  | opt p | many p => p.neverRecovers
  | node kind p => kind != .recovered && p.neverRecovers

/-- Sub-rules have no node for recovered regions. -/
theorem neverRecovers_ofNest (nest : Nest) : (Production.ofNest nest).neverRecovers = true := by
  cases nest <;> decide +kernel

theorem clean_leaf (i : Nat) : Clean [.leaf i] := by simp [Clean, Tree.nodesAll, Tree.nodes]

theorem clean_stray (i : Nat) : Clean [.stray i] := by simp [Clean, Tree.nodesAll, Tree.nodes]

theorem clean_nil : Clean [] := by simp [Clean, Tree.nodesAll]

/-- Without such nodes the trees are clean. -/
theorem Derives.clean {p : Pattern} {us : List Token} {ts : List Tree} (h : Derives p us ts)
    (hp : p.neverRecovers = true) : Clean ts := by
  induction h with
  | token => exact clean_leaf _
  | stray | strayEnd => exact clean_stray _
  | seq _ _ ihp ihq =>
    obtain ⟨hp, hq⟩ := Bool.and_eq_true_iff.1 hp
    exact clean_append.2 ⟨ihp hp, ihq hq⟩
  | altLeft _ ih => exact ih (Bool.and_eq_true_iff.1 hp).1
  | altRight _ ih => exact ih (Bool.and_eq_true_iff.1 hp).2
  | optNone | manyNil => exact clean_nil
  | optSome _ ih => exact ih hp
  | manyCons _ _ ihp ihq => exact clean_append.2 ⟨ihp hp, ihq hp⟩
  | node _ ih =>
    obtain ⟨hk, hp⟩ := Bool.and_eq_true_iff.1 hp
    exact clean_node.2 ⟨by simpa using hk, ih hp⟩
  | nested _ ih => exact ih (neverRecovers_ofNest _)

/-- A mode in which nothing is recovered. -/
def strictMode : Pattern :=
  node .modeSpec
    (seqs (tok .kwMode) [Production.identifier, tok .semi, many Production.lexerRuleSpec])

/-- The production of grammars without recovery, written out. -/
theorem strict_grammarSpec : Production.grammarSpec.strict =
    node .grammarSpec
      (seqs (many (tok .docComment))
        [Production.grammarDecl, many Production.prequelConstruct,
         node .rules (many Production.ruleSpec), many strictMode, tok .eof]) := by
  decide +kernel

/-! ### Rules with recovery beside them -/

/-- What can come after the rules of a grammar or of a mode. -/
def modeViews : Views := (many strictMode).views (after [.eof] any)

/-- The name of a mode with its keyword and its semicolon, and then its rules. -/
theorem Derives.of_strictMode {us : List Token} {ts : List Tree} (h : Derives strictMode us ts) :
    ∃ m n s vs ts', us = m :: n :: s :: vs ∧ opensMode us = true ∧
      Derives (.many Production.lexerRuleSpec) vs ts' ∧
      ts = [Tree.ofChildren .modeSpec
        (.leaf m.index :: Tree.ofChildren .identifier [.leaf n.index] :: .leaf s.index ::
          ts')] := by
  obtain ⟨_, rfl, hbody⟩ := Derives.of_node h
  obtain ⟨_, _, _, _, rfl, rfl, hm, hnext⟩ := hbody.of_seq
  obtain ⟨_, _, _, _, rfl, rfl, hid, hrest⟩ := hnext.of_seq
  obtain ⟨_, vs, _, ts', rfl, rfl, hs, hrules⟩ := hrest.of_seq
  obtain ⟨_, rfl, hn⟩ := Derives.of_node hid
  obtain ⟨m, hmk, rfl, rfl⟩ := hm.of_tok
  obtain ⟨s, hsk, rfl, rfl⟩ := hs.of_tok
  cases hn with
  | @token _ n hnk =>
    have hopen : opensMode (m :: n :: s :: vs) = true := by
      simpa [opensMode, hmk, hsk] using hnk
    exact ⟨m, n, s, vs, ts', rfl, hopen, hrules, rfl⟩

section Reading

variable {limit N : Nat} {sub : Nest → Reader} (hs : ReadsNests limit N sub)
include hs

/-- **Rules are read as they are derived**, and nothing is recovered beside them or after them. -/
theorem read_many_of_endsRules {p : Pattern} {v : Views} (hc : (many p).clear v = true)
    {us rest : List Token} {ts : List Tree} (h : Derives (.many p) us ts) (hN : us.length ≤ N)
    (hv : v.Sees rest) (he : EndsRules rest) :
    read limit sub (many (alt p Production.recovered)) (us ++ rest) = some (ts, rest) := by
  obtain ⟨hcp, hd⟩ := Bool.and_eq_true_iff.1 hc
  obtain ⟨ht, hcp⟩ := Bool.and_eq_true_iff.1 hcp
  have hround : ∀ {us : List Token} {ts : List Tree} {rest : List Token}, Derives p us ts →
      us.length ≤ N → (v.union (p.views any)).Sees rest →
      read limit sub (alt p Production.recovered) (us ++ rest) = some (ts, rest) :=
    fun h hN hv ↦ read_alt_of_some (read_of_derives hs hcp h hN hv) _
  have hend : read limit sub (alt p Production.recovered) rest = none := by
    rw [read_alt_of_none (read_eq_none_of_disjoint hs.finds hd hv)]
    exact read_recovered_of_endsRules he
  exact congrArg some (readMany_of_derives ht hround (fun h ↦ h.sees hv) hend h hN
    (hN.trans hs.le_limit))

/-- A mode is read as it is derived, if another mode or the end of the input comes after it. -/
theorem read_modeSpec_of_derives {us rest : List Token} {ts : List Tree}
    (h : Derives strictMode us ts) (hN : us.length ≤ N) (hv : modeViews.Sees rest)
    (he : EndsRules rest) : Production.modeSpec.read limit sub (us ++ rest) = some (ts, rest) := by
  obtain ⟨m, n, s, vs, ts', rfl, hopen, hrules, rfl⟩ := h.of_strictMode
  simp only [opensMode, Bool.and_eq_true, Bool.or_eq_true, beq_iff_eq] at hopen
  obtain ⟨⟨hm, hn⟩, hsemi⟩ := hopen
  have hc : (many Production.lexerRuleSpec).clear modeViews = true := by decide +kernel
  have hr :=
    read_many_of_endsRules hs hc hrules (by simp only [List.length_cons] at hN; omega) hv he
  rw [Production.modeSpec, read_node, List.cons_append, List.cons_append, List.cons_append, seqs,
    seqs,
    seqs, seqs, read_seq_of_some (read_token_of_mem (by simp [hm]) _),
    read_seq_of_some (read_identifier (by simpa using hn) _),
    read_seq_of_some (read_token_of_mem (by simp [hsemi]) _), hr]
  rfl

end Reading

/-- The rules in front of modes end there. -/
theorem Derives.endsRules_of_modes {us : List Token} {ts : List Tree}
    (h : Derives (.many strictMode) us ts) {e : Token} (he : e.kind = .eof) :
    EndsRules (us ++ [e]) := by
  cases h with
  | manyNil => exact .inr (.inl ⟨e, rfl, he⟩)
  | manyCons h _ =>
    obtain ⟨m, n, s, vs, -, rfl, hopen, -⟩ := h.of_strictMode
    exact .inr (.inr hopen)

/-- **A grammar is read as it is derived** without recovery. -/
theorem readGrammar_of_derives {us : List Token} {tree : Tree}
    (h : Derives Production.grammarSpec.strict us [tree]) : readGrammar us = .ok tree := by
  rw [strict_grammarSpec] at h
  obtain ⟨_, htree, hbody⟩ := h.of_node
  obtain rfl := (List.cons.inj htree).1
  -- the parts of the grammar, in order
  obtain ⟨docs, _, _, _, rfl, rfl, hdocs, h₁⟩ := hbody.of_seq
  obtain ⟨decl, _, _, _, rfl, rfl, hdecl, h₂⟩ := h₁.of_seq
  obtain ⟨preq, _, _, _, rfl, rfl, hpreq, h₃⟩ := h₂.of_seq
  obtain ⟨rules, _, _, _, rfl, rfl, hnode, h₄⟩ := h₃.of_seq
  obtain ⟨modes, _, tsm, _, rfl, rfl, hmodes, h₅⟩ := h₄.of_seq
  obtain ⟨e, he, rfl, rfl⟩ := Derives.of_tok h₅
  obtain ⟨tsr, rfl, hrules⟩ := hnode.of_node
  rw [readGrammar, Pattern.parse]
  generalize hlen : (docs ++ (decl ++ (preq ++ (rules ++ (modes ++ [e]))))).length = n
  simp only [List.length_append] at hlen
  have hs := readsNests_read (Nat.le_refl n)
  -- what is seen after each part
  have hend : (after [.eof] any).Sees [e] := (sees_any []).after (by simp [he])
  have hmodeViews : modeViews.Sees (modes ++ [e]) := hmodes.sees hend
  have hruleViews := hrules.sees hmodeViews
  have hdeclViews := hdecl.sees (sees_any (preq ++ (rules ++ (modes ++ [e]))))
  have hstop : Production.modeSpec.read n (Nest.read n n) [e] = none := by
    rw [Production.modeSpec, read_node, seqs,
      read_seq_of_none (read_token_of_not_mem (by simp [he]) [])]
    rfl
  -- how each part is read
  have hread₁ := read_of_derives hs (by decide +kernel) hdocs (by omega) hdeclViews
  have hread₂ := read_of_derives hs (by decide +kernel) hdecl (by omega)
    (sees_any (preq ++ (rules ++ (modes ++ [e]))))
  have hread₃ := read_of_derives hs (by decide +kernel) hpreq (by omega) hruleViews
  have hread₄ : Production.rules.read n (Nest.read n n) (rules ++ (modes ++ [e])) =
      some ([Tree.ofChildren .rules tsr], modes ++ [e]) := by
    rw [Production.rules, read_node, read_many_of_endsRules hs (by decide +kernel) hrules (by omega)
      hmodeViews (hmodes.endsRules_of_modes he)]
    rfl
  have hread₅ : read n (Nest.read n n) (many Production.modeSpec) (modes ++ [e]) =
      some (tsm, [e]) :=
    congrArg some (readMany_of_derives (P := fun rest ↦ modeViews.Sees rest ∧ EndsRules rest) rfl
      (fun h hN hP ↦ read_modeSpec_of_derives hs h hN hP.1 hP.2)
      (fun h ↦ ⟨h.sees hend, h.endsRules_of_modes he⟩) hstop hmodes (by omega) (by omega))
  rw [Production.grammarSpec, read_node, seqs, seqs, seqs, seqs, seqs, seqs,
    read_seq_of_some hread₁,
    read_seq_of_some hread₂, read_seq_of_some hread₃, read_seq_of_some hread₄,
    read_seq_of_some hread₅, read_token_of_mem (by simp [he])]
  rfl

end Pattern

open Pattern

/-- **The reader accepts exactly its grammar**: a list of tokens is read, with nothing recovered, if
and only if the productions without recovery derive it, and the tree is that of the derivation. -/
theorem readGrammar_eq_ok_iff (us : List Token) (tree : Tree) :
    (readGrammar us = .ok tree ∧ Clean [tree]) ↔
      Derives Production.grammarSpec.strict us [tree] := by
  constructor
  · rintro ⟨h, hc⟩
    exact (derives_of_readGrammar h).strict hc
  · intro h
    have hn : Production.grammarSpec.strict.neverRecovers = true := by decide +kernel
    exact ⟨readGrammar_of_derives h, h.clean hn⟩

end GrammarLayout
