import GrammarLayout.Proofs.Grammar.Regions
import GrammarLayout.Proofs.Layout.Diagnostics
import GrammarLayout.Proofs.Token.Tiling

/-!
# Reports of a source

A layout reports the regions of its source and nothing else (`format_reports_regions`). What a
region is comes from the reader (`Region`), and that each is reported once, in the order of the
tree, comes from the walk (`diagnostics_ofTree`). Lines join the two: a node starts with its first
token (`Over.lineAt_eq`), nodes that come later start no earlier (`Over.pairwise_lineAt`), and lines
only grow along a source (`pairwise_line_tokenize`).

The lines are those of the bytes of a source, not only those that tokens carry: a token knows the
line of its first byte (`line_eq_of_mem_tokenize`), so what is reported can be checked against the
text. That the lines only grow is not a property of the walk but of the tree, whose nodes stand over
neighbouring tokens: a node comes before those below it, which start no earlier, and before those
after it.
-/

namespace GrammarLayout

/-! ### Lines of tokens -/

/-- Lines only grow along tokens that are placed one after the other. -/
theorem pairwise_line_placeSegments (offset line : Nat) (ss : List Segment) :
    (placeSegments offset line ss).Pairwise (fun t u ↦ t.line ≤ u.line) ∧
      ∀ t ∈ placeSegments offset line ss, line ≤ t.line := by
  induction ss generalizing offset line with
  | nil => simp [placeSegments]
  | cons s ss ih =>
    obtain ⟨hpairs, hle⟩ := ih (offset + byteLength s.text) (line + s.text.count '\n')
    have hle' : ∀ t ∈ placeSegments (offset + byteLength s.text) (line + s.text.count '\n') ss,
        line ≤ t.line := fun t ht ↦ (Nat.le_add_right _ _).trans (hle t ht)
    rw [placeSegments]
    exact ⟨.cons hle' hpairs, List.forall_mem_cons.2 ⟨Nat.le_refl _, hle'⟩⟩

theorem map_line_numberedFrom (k : Nat) (ts : List Token) :
    (numberedFrom k ts).map Token.line = ts.map Token.line := by
  induction ts generalizing k with
  | nil => rfl
  | cons t ts ih => rw [numberedFrom, List.map_cons, ih, List.map_cons]

/-- **Lines only grow** along the tokens of a source. -/
theorem pairwise_line_tokenize (source : String) :
    (tokenize source).mainTokens.Pairwise fun t u ↦ t.line ≤ u.line := by
  refine List.Pairwise.sublist List.filter_sublist (List.pairwise_map.1 ?_)
  rw [toList_tokenize, map_line_numberedFrom]
  exact List.pairwise_map.2 (pairwise_line_placeSegments 0 1 _).1

/-- Every token of a source knows the line of its first byte. -/
theorem line_eq_of_mem_tokenize {source : String} {t : Token} (ht : t ∈ (tokenize source).toList) :
    t.line = lineAtByte source t.start := by
  have hs : ∀ s ∈ Segment.ofChars none source.toList, s.text ≠ [] ∧ s.kind ≠ .eof := fun s hm ↦
    have hf := Segment.formed_ofChars none source.toList s hm
    ⟨hf.text_ne, hf.ne_eof⟩
  obtain ⟨front, last, hl, htiles, -⟩ := tiling_placeSegments [] 0 hs
  rw [Segment.flatMap_text_ofChars, List.nil_append, String.ofList_toList] at htiles
  exact htiles.line_eq t (hl ▸ toList_tokenize source ▸ ht)

/-! ### Lines of nodes -/

/-- A node starts on the line of its first token. -/
theorem Over.lineAt_eq {s : Stream} {t : Token} {us : List Token} {ts : List Tree}
    (h : Over (t :: us) ts) (ht : t ∈ s.toList) : s.lineAt (Tree.spanOf? ts) = t.line := by
  rw [h.spanOf?_eq, List.getLast?_cons, Stream.lineAt]
  simp [Stream.get?_of_mem ht]

/-- A node that is not empty starts on the line of one of the tokens. -/
theorem Over.exists_lineAt_eq {s : Stream} {us : List Token} {ts : List Tree} (h : Over us ts)
    (hus : ∀ t ∈ us, t ∈ s.toList) :
    ∀ n ∈ Tree.nodesAll ts, n.span.isSome = true → ∃ t ∈ us, s.lineAt n.span = t.line := by
  induction h with
  | nil => simp [Tree.nodesAll]
  | leaf _ ih | stray _ ih =>
    intro n hn hspan
    obtain ⟨t, ht, hline⟩ := ih (List.forall_mem_cons.1 hus).2 n hn hspan
    exact ⟨t, List.mem_cons_of_mem _ ht, hline⟩
  | @node kind us vs ts ts' hu _ ih₁ ih₂ =>
    obtain ⟨hus, hvs⟩ := List.forall_mem_append.1 hus
    intro n hn hspan
    rw [Tree.nodesAll, Tree.ofChildren, Tree.nodes, List.cons_append, List.mem_cons,
      List.mem_append] at hn
    rcases hn with rfl | hn | hn
    · rw [hu.isSome_spanOf?] at hspan
      cases us with
      | nil => exact absurd hspan (by simp)
      | cons t us => exact ⟨t, by simp, hu.lineAt_eq (hus t (by simp))⟩
    · obtain ⟨t, ht, hline⟩ := ih₁ hus n hn hspan
      exact ⟨t, List.mem_append_left _ ht, hline⟩
    · obtain ⟨t, ht, hline⟩ := ih₂ hvs n hn hspan
      exact ⟨t, List.mem_append_right _ ht, hline⟩

/-- **Nodes that come later start no earlier**, if they are not empty. An empty node has no line of
its own, so it is left out. -/
theorem Over.pairwise_lineAt {s : Stream} {us : List Token} {ts : List Tree} (h : Over us ts)
    (hus : ∀ t ∈ us, t ∈ s.toList) (hlines : us.Pairwise fun t u ↦ t.line ≤ u.line) :
    (Tree.nodesAll ts).Pairwise fun n m ↦ n.span.isSome = true → m.span.isSome = true →
      s.lineAt n.span ≤ s.lineAt m.span := by
  induction h with
  | nil => exact .nil
  | leaf _ ih | stray _ ih => exact ih (List.forall_mem_cons.1 hus).2 hlines.of_cons
  | @node kind us vs ts ts' hu hv ih₁ ih₂ =>
    have hall := (hu.append hv).exists_lineAt_eq hus
    obtain ⟨hus₁, hus₂⟩ := List.forall_mem_append.1 hus
    obtain ⟨hlines₁, hlines₂, hcross⟩ := List.pairwise_append.1 hlines
    rw [Tree.nodesAll_append] at hall
    rw [Tree.nodesAll, Tree.ofChildren, Tree.nodes, List.cons_append]
    refine .cons (fun m hm hn hm' ↦ ?_) (List.pairwise_append.2 ⟨ih₁ hus₁ hlines₁, ih₂ hus₂ hlines₂,
      fun n hn m hm hn' hm' ↦ ?_⟩)
    · -- the node itself starts with the first of all tokens
      rw [hu.isSome_spanOf?] at hn
      cases us with
      | nil => exact absurd hn (by simp)
      | cons t us =>
        obtain ⟨u, hu', hline⟩ := hall m hm hm'
        rw [hu.lineAt_eq (hus₁ t (by simp)), hline]
        rcases List.mem_cons.1 hu' with rfl | hu'
        · exact Nat.le_refl _
        · exact List.rel_of_pairwise_cons hlines hu'
    · obtain ⟨t, ht, hline⟩ := hu.exists_lineAt_eq hus₁ n hn hn'
      obtain ⟨u, hu', hline'⟩ := hv.exists_lineAt_eq hus₂ m hm hm'
      rw [hline, hline']
      exact hcross t ht u hu'

/-! ### Reports -/

/-- The line on which a region is reported is that of its first token. -/
theorem exists_first_of_region {source : String} {tree : Tree}
    (h : parse (tokenize source) = .ok tree) {n : Node} (hn : n ∈ tree.findAll .recovered) :
    n.span.isSome = true ∧ ∃ t ∈ (tokenize source).mainTokens,
      (Tree.leavesAll n.children).head? = some t.index ∧
        (tokenize source).lineAt n.span = lineAtByte source t.start := by
  obtain ⟨before, vs, after, hus, hr, -⟩ := exists_region_of_parse h hn
  have hspan := ((derives_of_parse h).over.of_mem_nodesAll n (by
    rw [Tree.nodesAll_singleton]
    exact List.mem_of_mem_filter hn)).1
  obtain ⟨t, vs, rfl⟩ := List.exists_cons_of_ne_nil hr.ne_nil
  have ht : t ∈ (tokenize source).mainTokens := by rw [hus]; simp
  have ht' : t ∈ (tokenize source).toList := List.mem_of_mem_filter ht
  rw [hspan]
  refine ⟨by rw [hr.over.isSome_spanOf?]; rfl, t, ht, ?_, ?_⟩
  · rw [hr.over.leavesAll_eq]
    rfl
  · rw [hr.over.lineAt_eq ht', line_eq_of_mem_tokenize ht']

/-- **A layout reports its regions.** Every recovered node of the tree of a source is a region of
its main tokens. There is one report for each of them, in the order of the tree, with the line of
its first token, counted from one; so the lines only grow. -/
theorem format_reports_regions {r : Rules} {source : String} {out : Formatted}
    (h : format r source = .ok out) :
    ∃ tree, parse (tokenize source) = .ok tree ∧
      (∀ n ∈ tree.findAll .recovered, ∃ before vs after,
        (tokenize source).mainTokens = before ++ (vs ++ after) ∧ n.IsRegion vs after) ∧
      List.Forall₂ (fun n d ↦ ∃ t ∈ (tokenize source).mainTokens,
          (Tree.leavesAll n.children).head? = some t.index ∧
            d = ⟨lineAtByte source t.start, .keptVerbatim⟩)
        (tree.findAll .recovered) out.diagnostics ∧
      (out.diagnostics.map Diagnostic.line).Pairwise (· ≤ ·) ∧
      ∀ d ∈ out.diagnostics, d.line ≠ 0 := by
  obtain ⟨tree, hp, rfl⟩ := format_eq_ok_iff.1 h
  have hreports : (Formatter.ofTree r (tokenize source) tree).formatted.diagnostics =
      (tree.findAll .recovered).map fun n ↦ ⟨(tokenize source).lineAt n.span, .keptVerbatim⟩ :=
    diagnostics_ofTree r (tokenize source) tree
  rw [hreports]
  refine ⟨tree, hp, fun n hn ↦ ?_, ?_, ?_, fun d hd ↦ ?_⟩
  · obtain ⟨before, vs, after, hus, hr, hne⟩ := exists_region_of_parse hp hn
    exact ⟨before, vs, after, hus, hr.isRegion hne⟩
  · refine List.forall₂_map_right_iff.2 (List.forall₂_same.2 fun n hn ↦ ?_)
    obtain ⟨-, t, ht, hfirst, hline⟩ := exists_first_of_region hp hn
    exact ⟨t, ht, hfirst, by rw [hline]⟩
  · have hnodes := (derives_of_parse hp).over.pairwise_lineAt
      (fun t ht ↦ List.mem_of_mem_filter ht) (pairwise_line_tokenize source)
    rw [Tree.nodesAll_singleton] at hnodes
    rw [List.map_map, List.pairwise_map]
    refine (hnodes.sublist List.filter_sublist).imp_of_mem fun hn hm hle ↦ ?_
    exact hle (exists_first_of_region hp hn).1 (exists_first_of_region hp hm).1
  · obtain ⟨n, hn, rfl⟩ := List.mem_map.1 hd
    obtain ⟨-, t, -, -, hline⟩ := exists_first_of_region hp hn
    exact hline ▸ Nat.ne_of_gt (Nat.lt_of_lt_of_le Nat.one_pos (Nat.le_add_right _ _))

/-- A region with an action in it that ends with a semicolon, one before a complete mode header, and
one at the end of the input. -/
theorem three_regions_reported :
    ∃ out tree, format Rules.standard
        "grammar T;\n% \x7b a; \x7d x\n;\nb : ;\n= mode x\nmode M;\n+" = .ok out ∧
      out.diagnostics = [⟨2, .keptVerbatim⟩, ⟨5, .keptVerbatim⟩, ⟨7, .keptVerbatim⟩] ∧
      parse (tokenize "grammar T;\n% \x7b a; \x7d x\n;\nb : ;\n= mode x\nmode M;\n+") = .ok tree ∧
      (tree.findAll .recovered).length = 3 ∧
      ∀ n ∈ tree.findAll .recovered, ∃ before vs after,
        (tokenize "grammar T;\n% \x7b a; \x7d x\n;\nb : ;\n= mode x\nmode M;\n+").mainTokens =
          before ++ (vs ++ after) ∧ n.IsRegion vs after := by
  have ht : formatsTo Rules.standard
      "grammar T;\n% \x7b a; \x7d x\n;\nb : ;\n= mode x\nmode M;\n+"
      (fun out ↦ out.diagnostics = [⟨2, .keptVerbatim⟩, ⟨5, .keptVerbatim⟩, ⟨7, .keptVerbatim⟩]) =
        true := by
    decide +kernel
  obtain ⟨out, hf, hd⟩ := exists_of_formatsTo ht
  have hd := of_decide_eq_true hd
  obtain ⟨tree, hp, hregions, hreports, -⟩ := format_reports_regions hf
  exact ⟨out, tree, hf, hd, hp, by rw [hreports.length_eq, hd]; rfl, hregions⟩

end GrammarLayout
