import GrammarLayout.Proofs.Grammar.Alike
import Mathlib.Data.List.Chain

/-!
# Grammars without recovered regions

A recovered region may hold any tokens, so little can be said of a tree with one. Where there is
none (`Clean`), the productions say which tokens stand where: actions are whole, nothing is unknown,
an options, tokens or channels block holds calm tokens between its braces, and a doc comment has
something to document.

Each of these is read off the productions by a check, as in `Derivation`. What can stand next to
each other is computed from what a pattern may start and end with (`Pattern.mayStart`,
`Pattern.mayEnd`, `Pattern.neverMeets`).

All checks have the same form. A function on patterns computes a property, by recursion over the
pattern, and takes recovered regions as given, since they do not occur. A theorem by induction over
derivations shows that the property holds of what is derived; for sub-rules it is assumed, being
checked for both of them. Then the check is evaluated on the productions, which are a closed
term (`blocksFit_grammarSpec`, `Pattern.neverMeets_ofNest`).

Three patterns are told by their shape: an action, a block between its braces (`isBlock`), and a
sub-rule between its parentheses (`exists_parens`). The last one keeps the checks for first and last
tokens from going around in circles, as sub-rules hold alternatives and these hold sub-rules.
-/

namespace GrammarLayout

/-- No recovered region is among the trees, at any depth. -/
def Clean (ts : List Tree) : Prop := ∀ n ∈ Tree.nodesAll ts, n.kind ≠ .recovered

theorem Tree.nodesAll_append (ts ts' : List Tree) :
    nodesAll (ts ++ ts') = nodesAll ts ++ nodesAll ts' := by
  induction ts with
  | nil => rfl
  | cons t ts ih => rw [List.cons_append, nodesAll, nodesAll, ih, List.append_assoc]

theorem Tree.nodesAll_singleton (t : Tree) : nodesAll [t] = t.nodes := by
  rw [nodesAll, nodesAll, List.append_nil]

/-- A node and the nodes below it. -/
theorem Tree.nodesAll_ofChildren (kind : NodeKind) (ts : List Tree) :
    nodesAll [ofChildren kind ts] = ⟨kind, spanOf? ts, ts⟩ :: nodesAll ts := by
  rw [nodesAll_singleton, ofChildren, nodes]

theorem clean_append {ts ts' : List Tree} : Clean (ts ++ ts') ↔ Clean ts ∧ Clean ts' := by
  rw [Clean, Tree.nodesAll_append, List.forall_mem_append]
  rfl

/-- A node is clean if what is below it is, and it is no recovered region itself. -/
theorem clean_node {kind : NodeKind} {ts : List Tree} :
    Clean [Tree.ofChildren kind ts] ↔ kind ≠ .recovered ∧ Clean ts := by
  rw [Clean, Tree.nodesAll_ofChildren, List.forall_mem_cons]
  rfl

namespace Pattern

/-! ### Which tokens stand by themselves -/

/-- Whether a pattern places tokens of some kinds only, apart from actions and recovered regions. -/
def places (lone : Kind → Bool) : Pattern → Bool
  | token kinds => kinds.all lone
  | stray | strayEnd => false
  | nested _ => true
  | seq p q | alt p q => p.places lone && q.places lone
  | opt p | many p => p.places lone
  | node kind p => kind == .recovered || node kind p == Production.actionBlock || p.places lone

/-- **What is derived without recovered regions** is a forest in which only tokens of those kinds
stand outside actions. -/
theorem Derives.forest_of_clean {lone : Kind → Bool}
    (hn : ∀ n, (Production.ofNest n).places lone = true) {p : Pattern} {us : List Token}
    {ts : List Tree} (h : Derives p us ts) (hp : p.nodesFit = true) (hl : p.places lone = true)
    (hc : Clean ts) : Forest StartsWithToken (fun t ↦ lone t.kind = true) us ts := by
  induction h with
  | token hk => exact .leaf (List.all_eq_true.1 hl _ hk) .nil
  | stray | strayEnd => exact absurd hl (by simp [places])
  | seq _ _ ihp ihq =>
    obtain ⟨hp, hq⟩ := Bool.and_eq_true_iff.1 hp
    obtain ⟨hl, hl'⟩ := Bool.and_eq_true_iff.1 hl
    obtain ⟨hc, hc'⟩ := clean_append.1 hc
    exact (ihp hp hl hc).append (ihq hq hl' hc')
  | altLeft _ ih => exact ih (Bool.and_eq_true_iff.1 hp).1 (Bool.and_eq_true_iff.1 hl).1 hc
  | altRight _ ih => exact ih (Bool.and_eq_true_iff.1 hp).2 (Bool.and_eq_true_iff.1 hl).2 hc
  | optNone | manyNil => exact .nil
  | optSome _ ih => exact ih hp hl hc
  | manyCons _ _ ihp ihq =>
    obtain ⟨hc, hc'⟩ := clean_append.1 hc
    exact (ihp hp hl hc).append (ihq hp hl hc')
  | @node kind p us ts hd ih =>
    obtain ⟨hr, hc⟩ := clean_node.1 hc
    rw [places, beq_eq_false_iff_ne.2 hr, Bool.false_or] at hl
    by_cases hk : kind = .actionBlock
    · rw [nodesFit, if_pos hk] at hp
      have hact : Derives (.node kind p) us [Tree.ofChildren kind ts] := .node hd
      rw [of_decide_eq_true hp] at hact
      obtain ⟨b, cs, e, hb, hcs, he, hus, hts⟩ := hact.of_actionBlock
      rw [hus, hts]
      exact .singleton_action hb hcs he
    · rw [nodesFit, if_neg hk, Bool.and_eq_true_iff] at hp
      have hne : (Pattern.node kind p == Production.actionBlock) = false := by
        refine beq_eq_false_iff_ne.2 fun he ↦ hk ?_
        rw [Production.actionBlock] at he
        exact (Pattern.node.inj he).1
      rw [hne, Bool.false_or] at hl
      refine .singleton_node hk (fun hb ↦ hd.exists_ne_eof ?_) (ih hp.2 hl hc)
      simpa [hb] using hp.1
  | nested _ ih => exact ih (nodesFit_ofNest _) (hn _) hc

end Pattern

/-! ### Blocks -/

/-- Whether tokens of this kind are calm whatever their text: they do not move the end of a block.
-/
def Kind.isCalm : Kind → Bool
  | charSet | unknown | lbrace | rbrace | eof => false
  | _ => true

/-- Every block holds calm tokens up to its closing brace. In particular no block stands inside
another. -/
def BlocksClose (us : List Token) : Prop :=
  ∀ A t B, us = A ++ t :: B → t.kind = .lbrace →
    ∃ P e B', B = P ++ e :: B' ∧ (∀ u ∈ P, u.kind.isCalm = true) ∧ e.kind = .rbrace

theorem BlocksClose.append {us vs : List Token} (hu : BlocksClose us) (hv : BlocksClose vs) :
    BlocksClose (us ++ vs) := by
  intro A t B h ht
  rcases List.append_eq_append_iff.1 h with ⟨as, rfl, hB⟩ | ⟨as, rfl, hB⟩
  · exact hv as t B hB ht
  · cases as with
    | nil => exact hv [] t B (by simpa using hB.symm) ht
    | cons a as =>
      obtain ⟨rfl, rfl⟩ := List.cons.inj hB
      obtain ⟨P, e, B', rfl, hP, he⟩ := hu A t as rfl ht
      exact ⟨P, e, B' ++ vs, by simp, hP, he⟩

/-- Tokens without a block. -/
theorem BlocksClose.of_forall {us : List Token} (h : ∀ t ∈ us, t.kind ≠ .lbrace) :
    BlocksClose us := by
  rintro A t B rfl ht
  exact absurd ht (h t (by simp))

namespace Pattern

/-- Whether a pattern holds tokens of some kinds only, and no sub-rules. -/
def holds (ok : Kind → Bool) : Pattern → Bool
  | token kinds => kinds.all ok
  | stray | strayEnd | nested _ => false
  | seq p q | alt p q => p.holds ok && q.holds ok
  | opt p | many p | node _ p => p.holds ok

theorem Derives.forall_kind {ok : Kind → Bool} {p : Pattern} {us : List Token} {ts : List Tree}
    (h : Derives p us ts) (hp : p.holds ok = true) : ∀ t ∈ us, ok t.kind = true := by
  induction h with
  | token hk =>
    rw [List.forall_mem_singleton]
    exact List.all_eq_true.1 hp _ hk
  | stray | strayEnd | nested => exact absurd hp (by simp [holds])
  | seq _ _ ihp ihq =>
    obtain ⟨hp, hq⟩ := Bool.and_eq_true_iff.1 hp
    exact List.forall_mem_append.2 ⟨ihp hp, ihq hq⟩
  | altLeft _ ih => exact ih (Bool.and_eq_true_iff.1 hp).1
  | altRight _ ih => exact ih (Bool.and_eq_true_iff.1 hp).2
  | optNone | manyNil => simp
  | optSome _ ih | node _ ih => exact ih hp
  | manyCons _ _ ihp ihq => exact List.forall_mem_append.2 ⟨ihp hp, ihq hp⟩

/-- Whether a pattern is an opening brace, and the next one calm tokens with a closing brace. -/
def isBlock : Pattern → Pattern → Bool
  | token [.lbrace], seq body (token [.rbrace]) => body.holds Kind.isCalm
  | _, _ => false

/-- Whether blocks are made of calm tokens between braces, apart from recovered regions. -/
def blocksFit : Pattern → Bool
  | token kinds => !kinds.contains .lbrace
  | stray | strayEnd => false
  | nested _ => true
  | seq p q => isBlock p q || (p.blocksFit && q.blocksFit)
  | alt p q => p.blocksFit && q.blocksFit
  | opt p | many p => p.blocksFit
  | node kind p => kind == .recovered || p.blocksFit

/-- Sub-rules hold no blocks but those that fit. -/
theorem blocksFit_ofNest (nest : Nest) : (Production.ofNest nest).blocksFit = true := by
  cases nest <;> decide +kernel

theorem blocksFit_grammarSpec : Production.grammarSpec.blocksFit = true := by decide +kernel

/-- A block between its braces. -/
theorem Derives.blocksClose_of_isBlock {p q : Pattern} (hb : isBlock p q = true)
    {us vs : List Token} {ts ts' : List Tree} (hp : Derives p us ts) (hq : Derives q vs ts') :
    BlocksClose (us ++ vs) := by
  unfold isBlock at hb
  split at hb
  · obtain ⟨b, -, rfl, -⟩ := Derives.of_tok hp
    cases hq with
    | @seq _ _ us vs _ _ hbody hr =>
      have hr : Derives (.tok .rbrace) _ _ := hr
      obtain ⟨e, he, rfl, -⟩ := hr.of_tok
      have hcalm := hbody.forall_kind hb
      -- only the first token is an opening brace
      rintro A t B h ht
      cases A with
      | nil =>
        obtain ⟨rfl, rfl⟩ := List.cons.inj h
        exact ⟨us, e, [], rfl, hcalm, he⟩
      | cons a A =>
        have htail : us ++ [e] = A ++ t :: B := (List.cons.inj h).2
        have hm : t ∈ us ++ [e] := by rw [htail]; simp
        rcases List.mem_append.1 hm with hm | hm
        · have hk := hcalm t hm
          rw [ht] at hk
          exact absurd hk (by decide)
        · rw [List.mem_singleton.1 hm, he] at ht
          exact absurd ht (by decide)
  · exact absurd hb (by simp)

/-- **Blocks close** in what is derived without recovered regions. -/
theorem Derives.blocksClose {p : Pattern} {us : List Token} {ts : List Tree} (h : Derives p us ts)
    (hp : p.blocksFit = true) (hc : Clean ts) : BlocksClose us := by
  induction h with
  | @token kinds t hk =>
    refine .of_forall (List.forall_mem_singleton.2 fun he ↦ ?_)
    rw [he] at hk
    simp [blocksFit, hk] at hp
  | stray | strayEnd => exact absurd hp (by simp [blocksFit])
  | seq h₁ h₂ ihp ihq =>
    rcases Bool.or_eq_true_iff.1 hp with hb | hp
    · exact Derives.blocksClose_of_isBlock hb h₁ h₂
    · obtain ⟨hp, hq⟩ := Bool.and_eq_true_iff.1 hp
      obtain ⟨hc, hc'⟩ := clean_append.1 hc
      exact (ihp hp hc).append (ihq hq hc')
  | altLeft _ ih => exact ih (Bool.and_eq_true_iff.1 hp).1 hc
  | altRight _ ih => exact ih (Bool.and_eq_true_iff.1 hp).2 hc
  | optNone | manyNil => exact .of_forall (by simp)
  | optSome _ ih => exact ih hp hc
  | manyCons _ _ ihp ihq =>
    obtain ⟨hc, hc'⟩ := clean_append.1 hc
    exact (ihp hp hc).append (ihq hp hc')
  | node _ ih =>
    obtain ⟨hr, hc⟩ := clean_node.1 hc
    rw [blocksFit, beq_eq_false_iff_ne.2 hr, Bool.false_or] at hp
    exact ih hp hc
  | nested _ ih => exact ih (blocksFit_ofNest _) hc

/-! ### Neighbours -/

/-- Whether a pattern may derive tokens of which the first is of a kind. A sub-rule starts with its
parenthesis. A recovered region is left out, so the answer is right for clean trees only. -/
def mayStart (k : Kind) : Pattern → Bool
  | token kinds => kinds.contains k
  | stray => true
  | strayEnd => k == .semi
  | seq p q => p.mayStart k || (!p.takesToken && q.mayStart k)
  | alt p q => p.mayStart k || q.mayStart k
  | opt p | many p => p.mayStart k
  | node kind p => kind != .recovered && p.mayStart k
  | nested _ => k == .lparen

/-- Whether a pattern may derive tokens of which the last is of a kind, in the same way. -/
def mayEnd (k : Kind) : Pattern → Bool
  | token kinds => kinds.contains k
  | stray => true
  | strayEnd => k == .semi
  | seq p q => q.mayEnd k || (!q.takesToken && p.mayEnd k)
  | alt p q => p.mayEnd k || q.mayEnd k
  | opt p | many p => p.mayEnd k
  | node kind p => kind != .recovered && p.mayEnd k
  | nested _ => k == .rparen

/-- Whether a token of the kind `a` never comes right before one of the kind `b`, apart from
recovered regions. Neighbours come from one part of a pattern, or from the end of one part and the
start of the next, where parts that may be empty are looked through. -/
def neverMeets (a b : Kind) : Pattern → Bool
  | token _ | stray | strayEnd | nested _ => true
  | seq p q => p.neverMeets a b && q.neverMeets a b && !(p.mayEnd a && q.mayStart b)
  | alt p q => p.neverMeets a b && q.neverMeets a b
  | opt p => p.neverMeets a b
  | many p => p.neverMeets a b && !(p.mayEnd a && p.mayStart b)
  | node kind p => kind == .recovered || p.neverMeets a b

/-- A sub-rule stands between parentheses. -/
theorem exists_parens (nest : Nest) :
    ∃ kind p q, Production.ofNest nest =
      node kind (seq (tok .lparen) (seq p (seq q (tok .rparen)))) := by
  cases nest <;> exact ⟨_, _, _, rfl⟩

/-- A pattern that takes a token derives no empty list. -/
theorem Derives.ne_nil {p : Pattern} {us : List Token} {ts : List Tree} (h : Derives p us ts)
    (hp : p.takesToken = true) : us ≠ [] := by
  obtain ⟨t, ht, -⟩ := h.exists_ne_eof hp
  exact List.ne_nil_of_mem ht

/-- The first token of what is derived is one that the pattern may start with. -/
theorem Derives.mayStart_head {p : Pattern} {us : List Token} {ts : List Tree} (h : Derives p us ts)
    (hc : Clean ts) : ∀ t ∈ us.head?, p.mayStart t.kind = true := by
  induction h with
  | @token kinds t hk =>
    intro u hu
    obtain rfl := Option.some.inj hu
    simpa [mayStart] using hk
  | stray => exact fun _ _ ↦ rfl
  | strayEnd hk =>
    intro u hu
    obtain rfl := Option.some.inj hu
    simp [mayStart, hk]
  | @seq p q us vs ts ts' hp hq ihp ihq =>
    obtain ⟨hc, hc'⟩ := clean_append.1 hc
    intro t ht
    rw [mayStart, Bool.or_eq_true]
    cases us with
    | nil =>
      have hn : p.takesToken = false := by
        by_contra hp'
        exact hp.ne_nil (by simpa using hp') rfl
      exact .inr (by rw [hn, ihq hc' t ht]; rfl)
    | cons u us => exact .inl (ihp hc t ht)
  | altLeft _ ih =>
    intro t ht
    rw [mayStart, ih hc t ht, Bool.true_or]
  | altRight _ ih =>
    intro t ht
    rw [mayStart, ih hc t ht, Bool.or_true]
  | optNone | manyNil => simp
  | optSome _ ih => exact ih hc
  | @manyCons p us vs ts ts' hp hq ihp ihq =>
    obtain ⟨hc, hc'⟩ := clean_append.1 hc
    intro t ht
    cases us with
    | nil => exact ihq hc' t ht
    | cons u us => exact ihp hc t ht
  | node _ ih =>
    obtain ⟨hr, hc⟩ := clean_node.1 hc
    intro t ht
    rw [mayStart, ih hc t ht, Bool.and_true, bne_iff_ne]
    exact hr
  | @nested nest us ts h ih =>
    intro t ht
    obtain ⟨kind, p, q, hn⟩ := exists_parens nest
    have hs := ih hc t ht
    rw [hn] at hs
    simpa [mayStart, takesToken] using (Bool.and_eq_true_iff.1 hs).2

/-- The last token of what is derived is one that the pattern may end with. -/
theorem Derives.mayEnd_getLast {p : Pattern} {us : List Token} {ts : List Tree}
    (h : Derives p us ts) (hc : Clean ts) : ∀ t ∈ us.getLast?, p.mayEnd t.kind = true := by
  induction h with
  | @token kinds t hk =>
    intro u hu
    obtain rfl := Option.some.inj hu
    simpa [mayEnd] using hk
  | stray => exact fun _ _ ↦ rfl
  | strayEnd hk =>
    intro u hu
    obtain rfl := Option.some.inj hu
    simp [mayEnd, hk]
  | @seq p q us vs ts ts' hp hq ihp ihq =>
    obtain ⟨hc, hc'⟩ := clean_append.1 hc
    intro t ht
    rw [mayEnd, Bool.or_eq_true]
    -- the last token is that of the second part, unless that part is empty
    rcases List.eq_nil_or_concat vs with rfl | ⟨vs', v, rfl⟩
    · have hn : q.takesToken = false := by
        by_contra hq'
        exact hq.ne_nil (by simpa using hq') rfl
      rw [List.append_nil] at ht
      exact .inr (by rw [hn, ihp hc t ht]; rfl)
    · refine .inl (ihq hc' t ?_)
      simpa [List.getLast?_append] using ht
  | altLeft _ ih =>
    intro t ht
    rw [mayEnd, ih hc t ht, Bool.true_or]
  | altRight _ ih =>
    intro t ht
    rw [mayEnd, ih hc t ht, Bool.or_true]
  | optNone | manyNil => simp
  | optSome _ ih => exact ih hc
  | @manyCons p us vs ts ts' hp hq ihp ihq =>
    obtain ⟨hc, hc'⟩ := clean_append.1 hc
    intro t ht
    -- the last round is the first one only if no further round took a token
    rcases List.eq_nil_or_concat vs with rfl | ⟨vs', v, rfl⟩
    · rw [List.append_nil] at ht
      exact ihp hc t ht
    · exact ihq hc' t (by simpa [List.getLast?_append] using ht)
  | node _ ih =>
    obtain ⟨hr, hc⟩ := clean_node.1 hc
    intro t ht
    rw [mayEnd, ih hc t ht, Bool.and_true, bne_iff_ne]
    exact hr
  | @nested nest us ts h ih =>
    intro t ht
    obtain ⟨kind, p, q, hn⟩ := exists_parens nest
    have hs := ih hc t ht
    rw [hn] at hs
    simpa [mayEnd, takesToken] using (Bool.and_eq_true_iff.1 hs).2

/-- **Tokens that never meet** are not neighbours in what is derived without recovered regions. -/
theorem Derives.isChain_of_neverMeets {a b : Kind}
    (hn : ∀ n, (Production.ofNest n).neverMeets a b = true) {p : Pattern} {us : List Token}
    {ts : List Tree} (h : Derives p us ts) (hp : p.neverMeets a b = true) (hc : Clean ts) :
    us.IsChain fun t u ↦ t.kind = a → u.kind ≠ b := by
  -- what two patterns derive meets where one ends and the other starts
  have hjoin : ∀ {p q : Pattern} {us vs : List Token} {ts ts' : List Tree}, Derives p us ts →
      Derives q vs ts' → Clean (ts ++ ts') → (!(p.mayEnd a && q.mayStart b)) = true →
      ∀ t ∈ us.getLast?, ∀ u ∈ vs.head?, t.kind = a → u.kind ≠ b := by
    intro p q us vs ts ts' hp hq hc hm t ht u hu hta hub
    obtain ⟨hc, hc'⟩ := clean_append.1 hc
    have he := hp.mayEnd_getLast hc t ht
    have hs := hq.mayStart_head hc' u hu
    rw [hta] at he
    rw [hub] at hs
    rw [he, hs] at hm
    exact absurd hm (by decide)
  induction h with
  | token | stray | strayEnd => exact List.isChain_singleton _
  | seq h₁ h₂ ihp ihq =>
    obtain ⟨hpq, hm⟩ := Bool.and_eq_true_iff.1 hp
    obtain ⟨hp, hq⟩ := Bool.and_eq_true_iff.1 hpq
    have hcs := clean_append.1 hc
    exact List.isChain_append.2 ⟨ihp hp hcs.1, ihq hq hcs.2, hjoin h₁ h₂ hc hm⟩
  | altLeft _ ih => exact ih (Bool.and_eq_true_iff.1 hp).1 hc
  | altRight _ ih => exact ih (Bool.and_eq_true_iff.1 hp).2 hc
  | optNone | manyNil => exact List.isChain_nil
  | optSome _ ih => exact ih hp hc
  | manyCons h₁ h₂ ihp ihq =>
    have hcs := clean_append.1 hc
    obtain ⟨hp', hm⟩ := Bool.and_eq_true_iff.1 hp
    exact List.isChain_append.2 ⟨ihp hp' hcs.1, ihq hp hcs.2, hjoin h₁ h₂ hc hm⟩
  | node _ ih =>
    obtain ⟨hr, hc⟩ := clean_node.1 hc
    rw [neverMeets, beq_eq_false_iff_ne.2 hr, Bool.false_or] at hp
    exact ih hp hc
  | nested _ ih => exact ih (hn _) hc

end Pattern

/-! ### Grammars -/

/-- Whether productions place tokens of this kind by themselves. -/
def Kind.isPlaced (k : Kind) : Bool := !k.isActionPiece && k != .unknown

theorem Forest.of_node {fits : NodeKind → List Token → Prop} {lone : Token → Prop} {kind : NodeKind}
    (hk : kind ≠ .actionBlock) {us : List Token} {ts : List Tree}
    (h : Forest fits lone us [Tree.ofChildren kind ts]) : Forest fits lone us ts := by
  generalize hl : [Tree.ofChildren kind ts] = l at h
  cases h with
  | nil => exact absurd hl (by simp)
  | leaf | stray => exact absurd (List.cons.inj hl).1 (by simp [Tree.ofChildren])
  | action =>
    have he := (List.cons.inj hl).1
    rw [actionTree, Tree.ofChildren, Tree.ofChildren] at he
    exact absurd (Tree.node.inj he).1 hk
  | node _ _ hu hv =>
    obtain ⟨he, rfl⟩ := List.cons.inj hl
    obtain ⟨-, -, rfl⟩ := Tree.node.inj he
    cases hv with
    | nil => rwa [List.append_nil]

/-- In parentheses no doc comment comes last in a block or in the input, and the keyword of a mode
stands before no name. -/
theorem Pattern.neverMeets_ofNest {a b : Kind}
    (h : (a, b) ∈ [(Kind.docComment, Kind.eof), (.docComment, .rbrace), (.kwMode, .ruleRef),
      (.kwMode, .tokenRef)]) (nest : Nest) : (Production.ofNest nest).neverMeets a b = true := by
  have hall : ∀ p ∈ [(Kind.docComment, Kind.eof), (.docComment, .rbrace), (.kwMode, .ruleRef),
      (.kwMode, .tokenRef)], (Production.ofNest nest).neverMeets p.1 p.2 = true := by
    cases nest <;> decide +kernel
  exact hall (a, b) h

/-- What is known of the tokens of a grammar in which everything could be read. -/
structure CleanTokens (us : List Token) (ts : List Tree) : Prop where
  /-- Actions are whole, and nothing is unknown. -/
  forest : Forest Pattern.StartsWithToken (fun t ↦ t.kind.isPlaced = true) us ts
  /-- Blocks hold calm tokens. -/
  blocks : BlocksClose us
  /-- A doc comment is not the last token. -/
  doc_eof : us.IsChain fun t u ↦ t.kind = .docComment → u.kind ≠ .eof
  /-- A doc comment is not the last token of a block. -/
  doc_rbrace : us.IsChain fun t u ↦ t.kind = .docComment → u.kind ≠ .rbrace

/-- **The tokens of a grammar in which everything could be read.** -/
theorem cleanTokens_of_parse {s : Stream} {ts : List Tree}
    (h : parse s = .ok (Tree.ofChildren .grammarSpec ts))
    (hc : Clean [Tree.ofChildren .grammarSpec ts]) : CleanTokens s.mainTokens ts := by
  have hd := derives_of_parse h
  refine ⟨.of_node (show NodeKind.grammarSpec ≠ .actionBlock by decide) ?_, ?_, ?_, ?_⟩
  · refine hd.forest_of_clean (fun n ↦ ?_) Pattern.nodesFit_grammarSpec (by decide +kernel) hc
    cases n <;> decide +kernel
  · exact hd.blocksClose Pattern.blocksFit_grammarSpec hc
  · exact hd.isChain_of_neverMeets (Pattern.neverMeets_ofNest (by decide)) (by decide +kernel) hc
  · exact hd.isChain_of_neverMeets (Pattern.neverMeets_ofNest (by decide)) (by decide +kernel) hc

end GrammarLayout
