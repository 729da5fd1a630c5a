import GrammarLayout.Proofs.Grammar.Clean
import GrammarLayout.Proofs.Layout.Walk

/-!
# What a tree covers

The tree of a grammar is a tree over exactly its main tokens (`parse_covers_main`). Alternatives
that were tried and given up leave nothing behind, because reading finds derivations and a
derivation places every token it takes once; what is left to say is read off the trees that stand
over tokens (`Over`), which know nothing of how they were read.

Stray tokens are a matter of the productions, not of the tokens. A pattern may place them outside
the nodes it forms (`Pattern.placesStray`), and a check of the productions says that only the node
of a recovered region is formed around such a pattern (`Pattern.straysFit`).
-/

namespace GrammarLayout

/-! ### Leaves and spans -/

namespace Over

variable {us : List Token} {ts : List Tree}

/-- The leaves of trees are the positions of their tokens. -/
theorem leavesAll_eq (h : Over us ts) : Tree.leavesAll ts = us.map Token.index := by
  induction h with
  | nil => rfl
  | leaf _ ih | stray _ ih => rw [Tree.leavesAll, ih]; rfl
  | node _ _ ih₁ ih₂ =>
    rw [Tree.leavesAll, Tree.ofChildren, Tree.leaves, ih₁, ih₂, List.map_append]

/-- Every node below has the span of its children, which stand over tokens of their own. -/
theorem of_mem_nodesAll (h : Over us ts) :
    ∀ n ∈ Tree.nodesAll ts, n.span = Tree.spanOf? n.children ∧ ∃ vs, Over vs n.children := by
  induction h with
  | nil => simp [Tree.nodesAll]
  | leaf _ ih | stray _ ih => exact ih
  | @node kind us vs ts ts' hu _ ih₁ ih₂ =>
    rw [Tree.nodesAll, Tree.ofChildren, Tree.nodes, List.cons_append, List.forall_mem_cons,
      List.forall_mem_append]
    exact ⟨⟨rfl, us, hu⟩, ih₁, ih₂⟩

/-- A span is absent exactly over no leaf, and otherwise runs from the first leaf to the last. -/
theorem spanOf?_leaves (h : Over us ts) :
    (Tree.spanOf? ts = none ↔ Tree.leavesAll ts = []) ∧
      ∀ sp ∈ Tree.spanOf? ts, (Tree.leavesAll ts).head? = some sp.start ∧
        (Tree.leavesAll ts).getLast? = some sp.stop := by
  rw [h.spanOf?_eq, h.leavesAll_eq]
  match us with
  | [] => simp
  | a :: us =>
    obtain ⟨z, hz⟩ : ∃ z, (a :: us).getLast? = some z :=
      ⟨_, List.getLast?_eq_some_getLast (List.cons_ne_nil _ _)⟩
    rw [List.getLast?_map, hz]
    simp

end Over

/-! ### Stray tokens -/

namespace Pattern

/-- Whether a pattern may place stray tokens outside the nodes it forms. -/
def placesStray : Pattern → Bool
  | stray | strayEnd => true
  | token _ | node _ _ | nested _ => false
  | seq p q | alt p q => p.placesStray || q.placesStray
  | opt p | many p => p.placesStray

/-- Whether stray tokens are placed under nodes of recovered regions only. -/
def straysFit : Pattern → Bool
  | token _ | stray | strayEnd | nested _ => true
  | seq p q | alt p q => p.straysFit && q.straysFit
  | opt p | many p => p.straysFit
  | node kind p => (kind == .recovered || !p.placesStray) && p.straysFit

theorem straysFit_ofNest (nest : Nest) :
    (Production.ofNest nest).straysFit = true ∧ (Production.ofNest nest).placesStray = false := by
  cases nest <;> decide +kernel

theorem straysFit_grammarSpec : Production.grammarSpec.straysFit = true := by decide +kernel

/-- A pattern that places no stray tokens has none among its trees. -/
theorem Derives.not_mem_stray {p : Pattern} {us : List Token} {ts : List Tree} (h : Derives p us ts)
    (hp : p.placesStray = false) (i : Nat) : Tree.stray i ∉ ts := by
  induction h with
  | token => simp
  | stray | strayEnd => exact absurd hp (by simp [placesStray])
  | seq _ _ ihp ihq =>
    obtain ⟨hp, hq⟩ := Bool.or_eq_false_iff.1 hp
    exact List.not_mem_append (ihp hp) (ihq hq)
  | altLeft _ ih => exact ih (Bool.or_eq_false_iff.1 hp).1
  | altRight _ ih => exact ih (Bool.or_eq_false_iff.1 hp).2
  | optNone | manyNil => exact List.not_mem_nil
  | optSome _ ih => exact ih hp
  | manyCons _ _ ihp ihq => exact List.not_mem_append (ihp hp) (ihq hp)
  | node => simp [Tree.ofChildren]
  | nested _ ih => exact ih (straysFit_ofNest _).2

/-- **Only recovered regions hold stray tokens**, by themselves and not deeper down. -/
theorem Derives.kind_of_stray {p : Pattern} {us : List Token} {ts : List Tree} (h : Derives p us ts)
    (hp : p.straysFit = true) :
    ∀ n ∈ Tree.nodesAll ts, ∀ i, Tree.stray i ∈ n.children → n.kind = .recovered := by
  induction h with
  | token | stray | strayEnd => simp [Tree.nodesAll, Tree.nodes]
  | seq _ _ ihp ihq =>
    obtain ⟨hp, hq⟩ := Bool.and_eq_true_iff.1 hp
    rw [Tree.nodesAll_append, List.forall_mem_append]
    exact ⟨ihp hp, ihq hq⟩
  | altLeft _ ih => exact ih (Bool.and_eq_true_iff.1 hp).1
  | altRight _ ih => exact ih (Bool.and_eq_true_iff.1 hp).2
  | optNone | manyNil => simp [Tree.nodesAll]
  | optSome _ ih => exact ih hp
  | manyCons _ _ ihp ihq =>
    rw [Tree.nodesAll_append, List.forall_mem_append]
    exact ⟨ihp hp, ihq hp⟩
  | node hd ih =>
    obtain ⟨hk, hp⟩ := Bool.and_eq_true_iff.1 hp
    rw [Tree.nodesAll_ofChildren, List.forall_mem_cons]
    refine ⟨fun i hi ↦ ?_, ih hp⟩
    rcases Bool.or_eq_true_iff.1 hk with hk | hk
    · exact beq_iff_eq.1 hk
    · exact absurd hi (hd.not_mem_stray (by simpa using hk) i)
  | nested _ ih => exact ih (straysFit_ofNest _).1

end Pattern

/-! ### Trees of streams -/

/-- The positions of main tokens increase along a stream. -/
theorem Stream.pairwise_mainTokens (s : Stream) : (s.mainTokens.map Token.index).Pairwise (· < ·) :=
  List.pairwise_map.2 (s.pairwise_index.sublist List.filter_sublist)

/-- A stream that can be read has a tree. -/
theorem exists_tree_of_isSome {s : Stream} (h : (parse s).toOption.isSome = true) :
    ∃ tree, parse s = .ok tree := by
  cases hp : parse s with
  | ok tree => exact ⟨tree, rfl⟩
  | error d =>
    rw [hp] at h
    exact absurd h (by simp [Except.toOption])

/-- **A tree covers the main tokens**: its leaves, stray ones included, are the positions of the
main tokens, each once and in order; the span of a node runs from the first leaf below it to the
last one, and is absent exactly if there is none; and only recovered regions hold stray leaves. -/
theorem parse_covers_main {s : Stream} {tree : Tree} (h : parse s = .ok tree) :
    tree.leaves = s.mainTokens.map Token.index ∧ tree.leaves.Pairwise (· < ·) ∧
      (∀ n ∈ tree.nodes, (n.span = none ↔ Tree.leavesAll n.children = []) ∧
        ∀ sp ∈ n.span, (Tree.leavesAll n.children).head? = some sp.start ∧
          (Tree.leavesAll n.children).getLast? = some sp.stop) ∧
      (∀ i, tree ≠ .stray i) ∧
      ∀ n ∈ tree.nodes, ∀ i, Tree.stray i ∈ n.children → n.kind = .recovered := by
  have hd := derives_of_parse h
  have hleaves : tree.leaves = s.mainTokens.map Token.index := by
    rw [← hd.over.leavesAll_eq, Tree.leavesAll, Tree.leavesAll, List.append_nil]
  have hnodes : Tree.nodesAll [tree] = tree.nodes := by
    rw [Tree.nodesAll, Tree.nodesAll, List.append_nil]
  refine ⟨hleaves, hleaves ▸ s.pairwise_mainTokens, fun n hn ↦ ?_, fun i ht ↦ ?_, ?_⟩
  · obtain ⟨hspan, vs, ho⟩ := hd.over.of_mem_nodesAll n (hnodes ▸ hn)
    rw [hspan]
    exact ho.spanOf?_leaves
  · exact hd.not_mem_stray (by decide +kernel) i (List.mem_singleton.2 ht.symm)
  · rw [← hnodes]
    exact hd.kind_of_stray Pattern.straysFit_grammarSpec

/-- A rule with an empty alternative, and tokens that no rule can place, with comments between. -/
theorem empty_alternative_and_strays_covered :
    ∃ tree, parse (tokenize "grammar T; a : | b ; // c\n% /* d */ x") = .ok tree ∧
      tree.leaves = [0, 2, 3, 5, 7, 9, 11, 13, 17, 21, 22] ∧
      (∀ n ∈ tree.nodes, n.span = none ↔ Tree.leavesAll n.children = []) ∧
      ∀ n ∈ tree.nodes, ∀ i, Tree.stray i ∈ n.children → n.kind = .recovered := by
  obtain ⟨tree, hp⟩ := exists_tree_of_isSome
    (s := tokenize "grammar T; a : | b ; // c\n% /* d */ x") (by decide +kernel)
  obtain ⟨hleaves, -, hspan, -, hstray⟩ := parse_covers_main hp
  have hmain : (tokenize "grammar T; a : | b ; // c\n% /* d */ x").mainTokens.map Token.index =
      [0, 2, 3, 5, 7, 9, 11, 13, 17, 21, 22] := by decide +kernel
  exact ⟨tree, hp, hleaves.trans hmain, fun n hn ↦ (hspan n hn).1, hstray⟩

end GrammarLayout
