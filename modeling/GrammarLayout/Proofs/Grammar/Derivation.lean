import GrammarLayout.Grammar.Parse
import Mathlib.Data.List.Basic

/-!
# Derivations

What a pattern describes, apart from how it is read: `Pattern.Derives p us ts` says that the tokens
`us` are derivable from `p`, and that the derivation folds them into the trees `ts`. Choice is a
union here, an option may stay out although it would fit, and a repetition may stop early. Reading
is ordered and greedy, so it finds one derivation among these and nothing else
(`derives_of_read`); whatever is shown of every derivation holds of every tree that is read.

The trees stand over their tokens one to one (`Over`), so the span of a node is that of its tokens.
What else holds of every node is collected in `Forest`: an action is a node over its pieces, and of
every other node a property of the tokens below it is known. A production contributes it by a check
of the pattern alone (`Pattern.nodesFit`), so that nothing has to be proved for each of them.

Derivations of recovered regions admit more than reading does: a stray token may be anything but a
semicolon or the end of the input, while the reader also asks whether a mode begins there. What
depends on that is not shown of derivations but of readings, in modules of its own.
-/

namespace GrammarLayout

namespace Pattern

/-- The tokens that a pattern describes, with the trees it folds them into. -/
inductive Derives : Pattern → List Token → List Tree → Prop
  /-- One token of one of the kinds. -/
  | token {kinds : List Kind} {t : Token} (h : t.kind ∈ kinds) :
      Derives (.token kinds) [t] [.leaf t.index]
  /-- One token that does not end a recovered region. -/
  | stray {t : Token} (hs : t.kind ≠ .semi) (he : t.kind ≠ .eof) :
      Derives .stray [t] [.stray t.index]
  /-- The semicolon that ends a recovered region. -/
  | strayEnd {t : Token} (h : t.kind = .semi) : Derives .strayEnd [t] [.stray t.index]
  /-- What the first pattern describes, then what the second does. -/
  | seq {p q : Pattern} {us vs : List Token} {ts ts' : List Tree} (hp : Derives p us ts)
      (hq : Derives q vs ts') : Derives (.seq p q) (us ++ vs) (ts ++ ts')
  /-- What the first alternative describes. -/
  | altLeft {p q : Pattern} {us : List Token} {ts : List Tree} (h : Derives p us ts) :
      Derives (.alt p q) us ts
  /-- What the second alternative describes. -/
  | altRight {p q : Pattern} {us : List Token} {ts : List Tree} (h : Derives q us ts) :
      Derives (.alt p q) us ts
  /-- An option that stays out. -/
  | optNone {p : Pattern} : Derives (.opt p) [] []
  /-- An option that is taken. -/
  | optSome {p : Pattern} {us : List Token} {ts : List Tree} (h : Derives p us ts) :
      Derives (.opt p) us ts
  /-- A repetition that ends. -/
  | manyNil {p : Pattern} : Derives (.many p) [] []
  /-- A repetition that goes on. -/
  | manyCons {p : Pattern} {us vs : List Token} {ts ts' : List Tree} (hp : Derives p us ts)
      (hq : Derives (.many p) vs ts') : Derives (.many p) (us ++ vs) (ts ++ ts')
  /-- What is described, folded into one node. -/
  | node {kind : NodeKind} {p : Pattern} {us : List Token} {ts : List Tree} (h : Derives p us ts) :
      Derives (.node kind p) us [Tree.ofChildren kind ts]
  /-- A sub-rule in parentheses, by its production. -/
  | nested {nest : Nest} {us : List Token} {ts : List Tree}
      (h : Derives (Production.ofNest nest) us ts) : Derives (.nested nest) us ts

/-! ### Reading finds derivations -/

/-- A reader of `p` finds derivations of `p`: it takes derivable tokens off the front. -/
def Finds (p : Pattern) (r : Reader) : Prop :=
  ∀ {ts : List Token} {trees : List Tree} {rest : List Token}, r ts = some (trees, rest) →
    ∃ us, ts = us ++ rest ∧ Derives p us trees

/-- Reading as often as it succeeds finds derivations of the repetition. -/
theorem Finds.readMany {p : Pattern} {r : Reader} (hr : Finds p r) (limit : Nat) (ts : List Token) :
    ∃ us, ts = us ++ (readMany r limit ts).2 ∧ Derives (.many p) us (readMany r limit ts).1 := by
  induction limit generalizing ts with
  | zero => exact ⟨[], rfl, .manyNil⟩
  | succ n ih =>
    rw [GrammarLayout.readMany]
    split
    · exact ⟨[], rfl, .manyNil⟩
    · rename_i trees rest h
      obtain ⟨us, rfl, hd⟩ := hr h
      obtain ⟨vs, hv, hm⟩ := ih rest
      refine ⟨us ++ vs, ?_, .manyCons hd hm⟩
      rw [List.append_assoc, ← hv]

/-- **Reading a pattern finds derivations of it**, if reading the sub-rules does. The sub-rules are
a hypothesis because the reader is given theirs; by induction on the depth it is discharged. -/
theorem finds_read {limit : Nat} {sub : Nest → Reader} (hsub : ∀ n, Finds (.nested n) (sub n))
    (p : Pattern) : Finds p (p.read limit sub) := by
  induction p with
  | token kinds =>
    intro ts trees rest h
    match ts with
    | [] => simp [read] at h
    | t :: ts =>
      simp only [read, Option.ite_none_right_eq_some, Option.some.injEq, Prod.mk.injEq] at h
      obtain ⟨hk, rfl, rfl⟩ := h
      exact ⟨[t], rfl, .token (by simpa using hk)⟩
  | stray =>
    intro ts trees rest h
    match ts with
    | [] => simp [read] at h
    | t :: ts =>
      simp only [read, Option.ite_none_right_eq_some, Option.some.injEq, Prod.mk.injEq] at h
      obtain ⟨hk, rfl, rfl⟩ := h
      simp only [isStray, Bool.and_eq_true, bne_iff_ne] at hk
      exact ⟨[t], rfl, .stray hk.1.1 hk.1.2⟩
  | strayEnd =>
    intro ts trees rest h
    match ts with
    | [] => simp [read] at h
    | t :: ts =>
      simp only [read, Option.ite_none_right_eq_some, Option.some.injEq, Prod.mk.injEq] at h
      obtain ⟨hk, rfl, rfl⟩ := h
      exact ⟨[t], rfl, .strayEnd (by simpa using hk)⟩
  | seq p q ihp ihq =>
    intro ts trees rest h
    simp only [read] at h
    split at h
    · exact absurd h (by simp)
    · rename_i ts₁ rest₁ hp
      obtain ⟨⟨ts₂, rest₂⟩, hq, he⟩ := Option.map_eq_some_iff.1 h
      simp only [Prod.mk.injEq] at he
      obtain ⟨rfl, rfl⟩ := he
      obtain ⟨us, rfl, hd⟩ := ihp hp
      obtain ⟨vs, rfl, hd'⟩ := ihq hq
      exact ⟨us ++ vs, (List.append_assoc ..).symm, .seq hd hd'⟩
  | alt p q ihp ihq =>
    intro ts trees rest h
    simp only [read] at h
    split at h
    · obtain ⟨us, hu, hd⟩ := ihq h
      exact ⟨us, hu, .altRight hd⟩
    · rename_i r hp
      obtain ⟨us, hu, hd⟩ := ihp (hp.trans h)
      exact ⟨us, hu, .altLeft hd⟩
  | opt p ih =>
    intro ts trees rest h
    simp only [read, Option.some.injEq] at h
    cases hp : p.read limit sub ts with
    | none =>
      rw [hp] at h
      simp only [Option.getD_none, Prod.mk.injEq] at h
      obtain ⟨rfl, rfl⟩ := h
      exact ⟨[], rfl, .optNone⟩
    | some r =>
      rw [hp, Option.getD_some] at h
      subst h
      obtain ⟨us, hu, hd⟩ := ih hp
      exact ⟨us, hu, .optSome hd⟩
  -- the rounds are a recursion of their own, on the bound
  | many p ih =>
    intro ts trees rest h
    simp only [read, Option.some.injEq] at h
    obtain ⟨us, hu, hd⟩ := Finds.readMany ih limit ts
    rw [h] at hu hd
    exact ⟨us, hu, hd⟩
  | node kind p ih =>
    intro ts trees rest h
    simp only [read] at h
    obtain ⟨⟨ts₁, rest₁⟩, hp, he⟩ := Option.map_eq_some_iff.1 h
    simp only [Prod.mk.injEq] at he
    obtain ⟨rfl, rfl⟩ := he
    obtain ⟨us, hu, hd⟩ := ih hp
    exact ⟨us, hu, .node hd⟩
  | nested nest => exact hsub nest

/-- Reading a sub-rule in parentheses finds derivations of it, to whatever depth it is read. -/
theorem finds_readNest (limit depth : Nat) (nest : Nest) :
    Finds (.nested nest) (Nest.read limit depth nest) := by
  induction depth generalizing nest with
  | zero =>
    intro ts trees rest h
    exact absurd h (by simp [Nest.read])
  | succ depth ih =>
    intro ts trees rest h
    obtain ⟨us, hu, hd⟩ := finds_read ih _ h
    exact ⟨us, hu, .nested hd⟩

end Pattern

/-! ### Trees over tokens -/

/-- Trees that stand over tokens one to one, each node with the span of its children. -/
inductive Over : List Token → List Tree → Prop
  /-- No tree over no token. -/
  | nil : Over [] []
  /-- A token by itself. -/
  | leaf {t : Token} {vs : List Token} {ts : List Tree} (h : Over vs ts) :
      Over (t :: vs) (.leaf t.index :: ts)
  /-- A token of a recovered region by itself. -/
  | stray {t : Token} {vs : List Token} {ts : List Tree} (h : Over vs ts) :
      Over (t :: vs) (.stray t.index :: ts)
  /-- A node over the tokens of its children. -/
  | node {kind : NodeKind} {us vs : List Token} {ts ts' : List Tree} (hu : Over us ts)
      (hv : Over vs ts') : Over (us ++ vs) (Tree.ofChildren kind ts :: ts')

namespace Over

variable {us vs : List Token} {ts ts' : List Tree}

/-- Trees side by side. -/
theorem append (hu : Over us ts) (hv : Over vs ts') : Over (us ++ vs) (ts ++ ts') := by
  induction hu with
  | nil => exact hv
  | leaf _ ih => exact .leaf ih
  | stray _ ih => exact .stray ih
  | node h₁ _ _ ih₂ =>
    rw [List.append_assoc]
    exact .node h₁ ih₂

/-- A node by itself stands over the tokens of its children. -/
theorem singleton_node {kind : NodeKind} (h : Over us ts) : Over us [Tree.ofChildren kind ts] := by
  have hn : Over (us ++ []) [Tree.ofChildren kind ts] := .node h .nil
  rwa [List.append_nil] at hn

/-- Tokens by themselves. -/
theorem leaves (us : List Token) : Over us (us.map (.leaf ·.index)) := by
  induction us with
  | nil => exact .nil
  | cons t us ih => exact .leaf ih

/-- A span is that of the first and the last position. -/
theorem spanOf?_of_ends (hf : ts.findSome? Tree.firstIndex? = us.head?.map (·.index))
    (hl : ts.reverse.findSome? Tree.lastIndex? = us.getLast?.map (·.index)) :
    Tree.spanOf? ts = us.head?.bind fun a ↦ us.getLast?.map fun z ↦ ⟨a.index, z.index⟩ := by
  rw [Tree.spanOf?, hf, hl]
  cases us.head? <;> cases us.getLast? <;> rfl

/-- The positions that trees cover start and end with those of their tokens. -/
theorem ends (h : Over us ts) :
    ts.findSome? Tree.firstIndex? = us.head?.map (·.index) ∧
      ts.reverse.findSome? Tree.lastIndex? = us.getLast?.map (·.index) := by
  induction h with
  | nil => exact ⟨rfl, rfl⟩
  | @leaf t vs ts _ ih | @stray t vs ts _ ih =>
    refine ⟨rfl, ?_⟩
    rw [List.reverse_cons, List.findSome?_append, ih.2, List.getLast?_cons]
    cases vs.getLast? <;> rfl
  | @node kind us vs ts ts' _ _ ih₁ ih₂ =>
    have hs := spanOf?_of_ends ih₁.1 ih₁.2
    refine ⟨?_, ?_⟩
    · rw [List.findSome?_cons, Tree.ofChildren, Tree.firstIndex?, hs, ih₂.1, List.head?_append]
      match us with
      | [] => rfl
      | a :: us => rw [List.getLast?_cons]; rfl
    · rw [List.reverse_cons, List.findSome?_append, ih₂.2, List.getLast?_append,
        List.findSome?_cons, Tree.ofChildren, Tree.lastIndex?, hs]
      match us with
      | [] => cases vs.getLast? <;> rfl
      | a :: us =>
        rw [List.getLast?_cons]
        cases vs.getLast? <;> rfl

/-- **The span of trees** runs from their first token to their last one, if there is any. -/
theorem spanOf?_eq (h : Over us ts) :
    Tree.spanOf? ts = us.head?.bind fun a ↦ us.getLast?.map fun z ↦ ⟨a.index, z.index⟩ :=
  spanOf?_of_ends h.ends.1 h.ends.2

/-- Trees have a span if they stand over any token. -/
theorem isSome_spanOf? (h : Over us ts) : (Tree.spanOf? ts).isSome = !us.isEmpty := by
  rw [h.spanOf?_eq]
  match us with
  | [] => rfl
  | a :: us => rw [List.getLast?_cons]; rfl

/-- Over tokens in order, a span starts no later than it stops. -/
theorem start_le_stop (h : Over us ts) (hus : us.Pairwise fun t u ↦ t.index < u.index) :
    ∀ sp ∈ Tree.spanOf? ts, sp.start ≤ sp.stop := by
  intro sp hsp
  rw [h.spanOf?_eq] at hsp
  obtain ⟨a, ha, hsp⟩ := Option.bind_eq_some_iff.1 hsp
  obtain ⟨z, hz, rfl⟩ := Option.map_eq_some_iff.1 hsp
  obtain ⟨us, rfl⟩ := List.head?_eq_some_iff.1 ha
  rcases List.mem_cons.1 (List.mem_of_getLast? hz) with rfl | hm
  · exact Nat.le_refl _
  · exact Nat.le_of_lt (List.rel_of_pairwise_cons hus hm)

end Over

/-- What a pattern derives stands over its tokens. -/
theorem Pattern.Derives.over {p : Pattern} {us : List Token} {ts : List Tree}
    (h : Derives p us ts) : Over us ts := by
  induction h with
  | token => exact .leaf .nil
  | stray | strayEnd => exact .stray .nil
  | seq _ _ ihp ihq | manyCons _ _ ihp ihq => exact ihp.append ihq
  | altLeft _ ih | altRight _ ih | optSome _ ih | nested _ ih => exact ih
  | optNone | manyNil => exact .nil
  | node _ ih => exact ih.singleton_node

/-! ### Forests -/

/-- The node of an action over its braces and its pieces. -/
def actionTree (b : Token) (cs : List Token) (e : Token) : Tree :=
  Tree.ofChildren .actionBlock ((b :: (cs ++ [e])).map (.leaf ·.index))

/-- Trees that stand over tokens: an action is a node over its pieces, every other node stands over
tokens that `fits` admits under its kind, and every other token is one that `lone` admits. -/
inductive Forest (fits : NodeKind → List Token → Prop) (lone : Token → Prop) :
    List Token → List Tree → Prop
  /-- No tree over no token. -/
  | nil : Forest fits lone [] []
  /-- A token by itself. -/
  | leaf {t : Token} {vs : List Token} {ts : List Tree} (ht : lone t)
      (h : Forest fits lone vs ts) : Forest fits lone (t :: vs) (.leaf t.index :: ts)
  /-- A token of a recovered region by itself. -/
  | stray {t : Token} {vs : List Token} {ts : List Tree} (ht : lone t)
      (h : Forest fits lone vs ts) : Forest fits lone (t :: vs) (.stray t.index :: ts)
  /-- An action. -/
  | action {b e : Token} {cs vs : List Token} {ts : List Tree} (hb : b.kind = .beginAction)
      (hc : ∀ c ∈ cs, c.kind = .actionContent) (he : e.kind = .endAction)
      (h : Forest fits lone vs ts) :
      Forest fits lone (b :: (cs ++ [e]) ++ vs) (actionTree b cs e :: ts)
  /-- Any other node. -/
  | node {kind : NodeKind} {us vs : List Token} {ts ts' : List Tree} (hk : kind ≠ .actionBlock)
      (hf : fits kind us) (hu : Forest fits lone us ts) (hv : Forest fits lone vs ts') :
      Forest fits lone (us ++ vs) (Tree.ofChildren kind ts :: ts')

namespace Forest

variable {fits : NodeKind → List Token → Prop} {lone : Token → Prop} {us vs : List Token}
  {ts ts' : List Tree}

/-- Forests side by side. -/
theorem append (hu : Forest fits lone us ts) (hv : Forest fits lone vs ts') :
    Forest fits lone (us ++ vs) (ts ++ ts') := by
  induction hu with
  | nil => exact hv
  | leaf ht _ ih => exact .leaf ht ih
  | stray ht _ ih => exact .stray ht ih
  | action hb hc he _ ih =>
    rw [List.append_assoc]
    exact .action hb hc he ih
  | node hk hf h₁ _ _ ih₂ =>
    rw [List.append_assoc]
    exact .node hk hf h₁ ih₂

/-- A node by itself stands over the tokens of its children. -/
theorem singleton_node {kind : NodeKind} (hk : kind ≠ .actionBlock) (hf : fits kind us)
    (h : Forest fits lone us ts) : Forest fits lone us [Tree.ofChildren kind ts] := by
  have hn : Forest fits lone (us ++ []) [Tree.ofChildren kind ts] := .node hk hf h .nil
  rwa [List.append_nil] at hn

/-- An action by itself. -/
theorem singleton_action {b e : Token} {cs : List Token} (hb : b.kind = .beginAction)
    (hc : ∀ c ∈ cs, c.kind = .actionContent) (he : e.kind = .endAction) :
    Forest fits lone (b :: (cs ++ [e])) [actionTree b cs e] := by
  have ha : Forest fits lone (b :: (cs ++ [e]) ++ []) [actionTree b cs e] := .action hb hc he .nil
  rwa [List.append_nil] at ha

/-- What a forest demands of single tokens may be weakened. -/
theorem mono {lone' : Token → Prop} (hl : ∀ t ∈ us, lone t → lone' t) (h : Forest fits lone us ts) :
    Forest fits lone' us ts := by
  induction h with
  | nil => exact .nil
  | leaf ht _ ih => exact .leaf (hl _ (by simp) ht) (ih fun t hm ↦ hl t (by simp [hm]))
  | stray ht _ ih => exact .stray (hl _ (by simp) ht) (ih fun t hm ↦ hl t (by simp [hm]))
  | action hb hc he _ ih => exact .action hb hc he (ih fun t hm ↦ hl t (by simp [hm]))
  | node hk hf _ _ ihu ihv =>
    exact .node hk hf (ihu fun t hm ↦ hl t (by simp [hm])) (ihv fun t hm ↦ hl t (by simp [hm]))

end Forest

/-- The trees of a forest stand over its tokens. -/
theorem Forest.over {fits : NodeKind → List Token → Prop} {lone : Token → Prop} {us : List Token}
    {ts : List Tree} (h : Forest fits lone us ts) : Over us ts := by
  induction h with
  | nil => exact .nil
  | leaf _ _ ih => exact .leaf ih
  | stray _ _ ih => exact .stray ih
  | action _ _ _ _ ih => exact .node (.leaves _) ih
  | node _ _ _ _ ih₁ ih₂ => exact .node ih₁ ih₂

/-! ### What the productions say of every node -/

namespace Pattern

/-- Whether a pattern is sure to take a token other than the end of the input. -/
def takesToken : Pattern → Bool
  | token kinds => !kinds.contains .eof
  | stray | strayEnd => true
  | seq p q => p.takesToken || q.takesToken
  | alt p q => p.takesToken && q.takesToken
  | opt _ | many _ => false
  | node _ p => p.takesToken
  | nested _ => true

/-- Sub-rules take their parentheses. -/
theorem takesToken_ofNest (nest : Nest) : (Production.ofNest nest).takesToken = true := by
  cases nest <;> rfl

/-- A token other than the end of the input is among those that such a pattern derives. -/
theorem Derives.exists_ne_eof {p : Pattern} {us : List Token} {ts : List Tree}
    (h : Derives p us ts) (hp : p.takesToken = true) : ∃ t ∈ us, t.kind ≠ .eof := by
  induction h with
  | @token kinds t hk =>
    refine ⟨t, List.mem_singleton_self t, fun he ↦ ?_⟩
    rw [he] at hk
    simp [takesToken, hk] at hp
  | @stray t _ he => exact ⟨t, List.mem_singleton_self t, he⟩
  | @strayEnd t hs => exact ⟨t, List.mem_singleton_self t, by simp [hs]⟩
  | seq _ _ ihp ihq =>
    rcases Bool.or_eq_true_iff.1 hp with hp | hp
    · obtain ⟨t, ht, hk⟩ := ihp hp
      exact ⟨t, List.mem_append_left _ ht, hk⟩
    · obtain ⟨t, ht, hk⟩ := ihq hp
      exact ⟨t, List.mem_append_right _ ht, hk⟩
  | altLeft _ ih => exact ih (Bool.and_eq_true_iff.1 hp).1
  | altRight _ ih => exact ih (Bool.and_eq_true_iff.1 hp).2
  | optNone | optSome | manyNil | manyCons => exact absurd hp (by simp [takesToken])
  | node _ ih => exact ih hp
  | nested _ ih => exact ih (takesToken_ofNest _)

/-- Whether every node of a pattern fits: the node of an action is made by the production of
actions, and a construct that starts a line has a token to start it with. -/
def nodesFit : Pattern → Bool
  | token _ | stray | strayEnd | nested _ => true
  | seq p q | alt p q => p.nodesFit && q.nodesFit
  | opt p | many p => p.nodesFit
  | node kind p =>
    if kind = .actionBlock then node kind p = Production.actionBlock
    else (kind.category.entry != .block || p.takesToken) && p.nodesFit

/-- The nodes of sub-rules fit. -/
theorem nodesFit_ofNest (nest : Nest) : (Production.ofNest nest).nodesFit = true := by
  cases nest <;> decide +kernel

theorem nodesFit_grammarSpec : Production.grammarSpec.nodesFit = true := by decide +kernel

/-- A construct that starts a line has a token other than the end of the input in it. -/
def StartsWithToken (kind : NodeKind) (us : List Token) : Prop :=
  kind.category.entry = .block → ∃ t ∈ us, t.kind ≠ .eof

/-- A repetition of one kind of token derives tokens of that kind, each as a leaf. -/
theorem Derives.of_many_tok {kind : Kind} {us : List Token} {ts : List Tree}
    (h : Derives (.many (.tok kind)) us ts) :
    (∀ t ∈ us, t.kind = kind) ∧ ts = us.map (.leaf ·.index) := by
  generalize hp : Pattern.many (.tok kind) = p at h
  induction h with
  | manyNil => exact ⟨fun t ht ↦ absurd ht List.not_mem_nil, rfl⟩
  | manyCons hp' _ _ ih =>
    obtain rfl := Pattern.many.inj hp
    obtain ⟨hk, rfl⟩ := ih rfl
    cases hp' with
    | token ht =>
      refine ⟨fun t hm ↦ ?_, rfl⟩
      rcases List.mem_append.1 hm with hm | hm
      · rw [List.mem_singleton.1 hm]
        exact List.mem_singleton.1 ht
      · exact hk t hm
  | _ => exact absurd hp (by simp)

/-- One kind of token derives one token of that kind. -/
theorem Derives.of_tok {kind : Kind} {us : List Token} {ts : List Tree}
    (h : Derives (.tok kind) us ts) : ∃ t, t.kind = kind ∧ us = [t] ∧ ts = [.leaf t.index] := by
  cases h with
  | token ht => exact ⟨_, List.mem_singleton.1 ht, rfl, rfl⟩

theorem Derives.of_seq {p q : Pattern} {us : List Token} {ts : List Tree}
    (h : Derives (.seq p q) us ts) :
    ∃ vs ws ts₁ ts₂, us = vs ++ ws ∧ ts = ts₁ ++ ts₂ ∧ Derives p vs ts₁ ∧ Derives q ws ts₂ := by
  cases h with
  | seq hp hq => exact ⟨_, _, _, _, rfl, rfl, hp, hq⟩

theorem Derives.of_node {kind : NodeKind} {p : Pattern} {us : List Token} {ts : List Tree}
    (h : Derives (.node kind p) us ts) :
    ∃ ts', ts = [Tree.ofChildren kind ts'] ∧ Derives p us ts' := by
  cases h with
  | node h => exact ⟨_, rfl, h⟩

/-- An action is an opening brace, pieces and a closing brace. -/
theorem Derives.of_actionBlock {us : List Token} {ts : List Tree}
    (h : Derives Production.actionBlock us ts) :
    ∃ b cs e, b.kind = .beginAction ∧ (∀ c ∈ cs, c.kind = .actionContent) ∧ e.kind = .endAction ∧
      us = b :: (cs ++ [e]) ∧ ts = [actionTree b cs e] := by
  obtain ⟨_, rfl, hbody⟩ := Derives.of_node h
  obtain ⟨_, _, _, _, rfl, rfl, hb, hrest⟩ := hbody.of_seq
  obtain ⟨_, _, _, _, rfl, rfl, hc, he⟩ := hrest.of_seq
  obtain ⟨b, hbk, rfl, rfl⟩ := hb.of_tok
  obtain ⟨hck, rfl⟩ := hc.of_many_tok
  obtain ⟨e, hek, rfl, rfl⟩ := Derives.of_tok he
  refine ⟨b, _, e, hbk, hck, hek, rfl, ?_⟩
  rw [actionTree, List.map_cons, List.map_append]
  rfl

/-- **What is derived is a forest** in which every construct that starts a line has a token. -/
theorem Derives.forest {p : Pattern} {us : List Token} {ts : List Tree} (h : Derives p us ts)
    (hp : p.nodesFit = true) : Forest StartsWithToken (fun _ ↦ True) us ts := by
  induction h with
  | token => exact .leaf trivial .nil
  | stray | strayEnd => exact .stray trivial .nil
  | seq _ _ ihp ihq =>
    obtain ⟨hp, hq⟩ := Bool.and_eq_true_iff.1 hp
    exact (ihp hp).append (ihq hq)
  | altLeft _ ih => exact ih (Bool.and_eq_true_iff.1 hp).1
  | altRight _ ih => exact ih (Bool.and_eq_true_iff.1 hp).2
  | optNone | manyNil => exact .nil
  | optSome _ ih => exact ih hp
  | manyCons _ _ ihp ihq => exact (ihp hp).append (ihq hp)
  | @node kind p us ts hd ih =>
    by_cases hk : kind = .actionBlock
    · rw [nodesFit, if_pos hk] at hp
      have hn : Derives (.node kind p) us [Tree.ofChildren kind ts] := .node hd
      rw [of_decide_eq_true hp] at hn
      obtain ⟨b, cs, e, hb, hc, he, hus, hts⟩ := hn.of_actionBlock
      rw [hus, hts]
      exact .singleton_action hb hc he
    · rw [nodesFit, if_neg hk, Bool.and_eq_true_iff] at hp
      refine .singleton_node hk (fun hb ↦ hd.exists_ne_eof ?_) (ih hp.2)
      simpa [hb] using hp.1
  | nested _ ih => exact ih (nodesFit_ofNest _)

end Pattern

open Pattern

/-- **A grammar that is read is derived**: its tree is that of a derivation of all its tokens. -/
theorem derives_of_readGrammar {us : List Token} {tree : Tree} (h : readGrammar us = .ok tree) :
    Derives Production.grammarSpec us [tree] := by
  unfold readGrammar at h
  split at h
  · rename_i tree' hr
    obtain rfl := Except.ok.inj h
    obtain ⟨vs, hv, hd⟩ := finds_read (finds_readNest _ _) _ hr
    rwa [hv, List.append_nil]
  · exact absurd h (by simp)
  · exact absurd h (by simp)

/-- The tree of a stream is the one that is read off its main tokens. -/
theorem parse_eq_ok_iff {s : Stream} {tree : Tree} :
    parse s = .ok tree ↔ readGrammar s.mainTokens = .ok tree := by
  unfold parse
  cases readGrammar s.mainTokens <;> simp

theorem derives_of_parse {s : Stream} {tree : Tree} (h : parse s = .ok tree) :
    Derives Production.grammarSpec s.mainTokens [tree] :=
  derives_of_readGrammar (parse_eq_ok_iff.1 h)

/-- **The tree of a grammar**: one node over a forest of all main tokens, with some token in it. -/
theorem forest_of_parse {s : Stream} {tree : Tree} (h : parse s = .ok tree) :
    ∃ ts, tree = Tree.ofChildren .grammarSpec ts ∧
      Forest StartsWithToken (fun _ ↦ True) s.mainTokens ts ∧
        ∃ t ∈ s.mainTokens, t.kind ≠ .eof := by
  have hd := derives_of_parse h
  have ht := hd.exists_ne_eof (by decide +kernel)
  have hn := nodesFit_grammarSpec
  rw [Production.grammarSpec] at hd hn
  generalize seqs _ _ = p at hd hn
  rw [nodesFit, if_neg (by decide), Bool.and_eq_true_iff] at hn
  generalize htree : [tree] = trees at hd
  cases hd with
  | node hd =>
    obtain rfl := (List.cons.inj htree).1
    exact ⟨_, rfl, hd.forest hn.2, ht⟩

end GrammarLayout
