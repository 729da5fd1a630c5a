import GrammarLayout.Proofs.Layout.Insensitivity
import GrammarLayout.Proofs.Layout.Regular

/-!
# A source and its layout

What is read again of a layout resembles the source (`Resembles`): the segments are the same, but
for the blanks between the pieces of an action. These do not matter to the layout of the action,
because the blanks that a layout puts there stand at the start of a line, where it drops them
(`pieceStrokes_again`).

So without actions the layout has the segments of the source, and the same tree is read off both, up
to the positions of its tokens (`format_preserves_parse`).

Reading a layout again gives the separators inside actions as further pieces. Of these only line
ends and the indentation after them occur, since no space is put between pieces, and they come right
after a piece behind which the line was broken. So when the action is laid out once more, the gap is
at the start of a line when the blanks come, and they are dropped. The lemma holds at any depth, as
the second layout may find the action at another one.

The resemblance is then a matter of lists: segments outside actions are the same, and an action is
exchanged for one with the same layout.
-/

namespace GrammarLayout

/-! ### Actions laid out again -/

/-- Blanks at the start of a line leave no trace in the layout of an action. The gap stays as it is,
so the next piece is at the start of the line as well. -/
theorem pieceStrokes_blanks (depth : Nat) {gap : Separator} (hg : gap.isLines = true)
    {blanks : List Char} (hb : ∀ c ∈ blanks, Lexeme.isSpace c = true) (cs : List Segment) :
    pieceStrokes depth gap (contents (gapPieces blanks) ++ cs) = pieceStrokes depth gap cs := by
  induction blanks with
  | nil => rfl
  | cons c blanks ih =>
    rw [List.forall_mem_cons] at hb
    have hc : allBlank [c] = true := by simp [allBlank, isBlank_of_isSpace hb.1]
    show pieceStrokes depth gap (⟨.actionContent, [c]⟩ ::
      (contents (gapPieces blanks) ++ cs)) = pieceStrokes depth gap cs
    rw [pieceStrokes, hg, hc, Bool.and_self, if_pos rfl, ih hb.2]

/-- Blanks that a separator puts between pieces leave no trace where it has begun. -/
theorem pieceStrokes_gapPieces (width depth : Nat) {gap gap' : Separator} (hn : gap ≠ .space)
    (hg : gap'.isLines = gap.isLines) (cs : List Segment) :
    pieceStrokes depth gap' (contents (gapPieces (gap.text width)) ++ cs) =
      pieceStrokes depth gap' cs := by
  cases gap with
  | nothing => rfl
  | space => exact absurd rfl hn
  | lines more d => exact pieceStrokes_blanks depth hg (isSpace_separator width _) cs

/-- The separator that is begun after a piece of an action. -/
def gapAfter (depth : Nat) (text : List Char) : Separator :=
  if breaksAfter text then .lines 0 depth else .nothing

/-- It is never a space. -/
theorem gapAfter_ne_space (depth : Nat) (text : List Char) : gapAfter depth text ≠ .space := by
  unfold gapAfter
  split <;> simp

/-- Whether it ends a line does not depend on the depth. -/
theorem isLines_gapAfter (depth depth' : Nat) (text : List Char) :
    (gapAfter depth' text).isLines = (gapAfter depth text).isLines := by
  unfold gapAfter
  split <;> rfl

/-- A piece that is dropped. -/
theorem pieceStrokes_of_dropped (depth : Nat) {gap : Separator} {c : Segment}
    (h : (gap.isLines && allBlank c.text) = true) (cs : List Segment) :
    pieceStrokes depth gap (c :: cs) = pieceStrokes depth gap cs := by
  rw [pieceStrokes, h, if_pos rfl]

/-- A piece that is written. -/
theorem pieceStrokes_of_written (depth : Nat) {gap : Separator} {c : Segment}
    (h : (gap.isLines && allBlank c.text) = false) (cs : List Segment) :
    pieceStrokes depth gap (c :: cs) =
      (⟨gap, c⟩ :: (pieceStrokes depth (gapAfter depth c.text) cs).1,
        (pieceStrokes depth (gapAfter depth c.text) cs).2) := by
  rw [pieceStrokes, h, if_neg (by simp)]
  rfl

/-- **An action that is read again** is laid out as it was, at whatever depth. -/
theorem pieceStrokes_again (width depth depth' : Nat) {gap gap' : Separator} (hn : gap ≠ .space)
    (hg : gap'.isLines = gap.isLines) {ps : List Segment}
    (hp : ∀ p ∈ ps, p.kind = .actionContent) :
    pieceStrokes depth' gap' (contents (spacedPieces width (pieceStrokes depth gap ps).1 ++
      gapPieces ((pieceStrokes depth gap ps).2.text width))) = pieceStrokes depth' gap' ps := by
  induction ps generalizing gap gap' with
  | nil =>
    have hgap := pieceStrokes_gapPieces width depth' hn hg []
    rw [List.append_nil] at hgap
    exact hgap
  | cons p ps ih =>
    rw [List.forall_mem_cons] at hp
    cases hd : gap.isLines && allBlank p.text with
    | true =>
      rw [pieceStrokes_of_dropped depth hd, pieceStrokes_of_dropped depth' (hg ▸ hd), ih hn hg hp.2]
    | false =>
      -- the blanks before the piece are dropped, and the piece is not
      have hsplit : ∀ qs : List (List Char), contents (gapPieces (gap.text width) ++
          ([p.text] ++ qs)) = contents (gapPieces (gap.text width)) ++ p :: contents qs := by
        intro qs
        have hs : (⟨.actionContent, p.text⟩ : Segment) = p := by rw [← hp.1]
        rw [contents, contents, contents, List.map_append, List.singleton_append, List.map_cons, hs]
      rw [pieceStrokes_of_written depth hd, pieceStrokes_of_written depth' (hg ▸ hd),
        spacedPieces_cons, List.append_assoc, List.append_assoc, hsplit,
        pieceStrokes_gapPieces width depth' hn hg, pieceStrokes_of_written depth' (hg ▸ hd),
        ih (gapAfter_ne_space depth p.text) (isLines_gapAfter depth depth' p.text) hp.2]

/-! ### Segments that resemble each other -/

/-- Segments that are laid out in the same way: the same ones, but for the pieces of actions, which
only have the same layout. -/
inductive Resembles : List Segment → List Segment → Prop
  /-- Nothing. -/
  | nil : Resembles [] []
  /-- A segment outside actions. -/
  | cons {c : Segment} {cs cs' : List Segment} (hc : c.kind.isActionPiece = false)
      (h : Resembles cs cs') : Resembles (c :: cs) (c :: cs')
  /-- An action. -/
  | action {b e : Segment} {ps ps' cs cs' : List Segment} (hb : b.kind = .beginAction)
      (hp : ∀ p ∈ ps, p.kind = .actionContent) (hp' : ∀ p ∈ ps', p.kind = .actionContent)
      (he : e.kind = .endAction)
      (hq : ∀ depth, pieceStrokes depth .nothing ps' = pieceStrokes depth .nothing ps)
      (h : Resembles cs cs') :
      Resembles (b :: (ps ++ e :: cs)) (b :: (ps' ++ e :: cs'))

/-- Segments without actions resemble themselves only. -/
theorem Resembles.eq_of_forall {cs cs' : List Segment} (h : Resembles cs cs')
    (hb : ∀ c ∈ cs, c.kind ≠ .beginAction) : cs' = cs := by
  induction h with
  | nil => rfl
  | cons _ _ ih => rw [ih (List.forall_mem_cons.1 hb).2]
  | action hk => exact absurd hk (List.forall_mem_cons.1 hb).1

/-- More of the same at the end. -/
theorem Resembles.append_singleton {cs cs' : List Segment} (h : Resembles cs cs') {c : Segment}
    (hc : c.kind.isActionPiece = false) : Resembles (cs ++ [c]) (cs' ++ [c]) := by
  induction h with
  | nil => exact .cons hc .nil
  | cons hk _ ih => exact .cons hk ih
  | action hb hp hp' he hq _ ih =>
    simp only [List.cons_append, List.append_assoc]
    exact .action hb hp hp' he hq ih

/-- **What is read again of strokes resembles what they were laid out of.** The induction is on how
the segments were laid out, with one step for a whole action. -/
theorem resembles_of_laid {cs : List Segment} {ss : List Stroke} (h : Laid Segment.IsPlaced cs ss)
    (he : ∀ c ∈ cs, c.kind ≠ .eof) (width : Nat) (rest : List Char) :
    Resembles cs (rereads width false ss rest) := by
  induction h with
  | nil => exact .nil
  | eof hk => exact absurd hk (List.forall_mem_cons.1 he).1
  | @stroke c cs ss gap hc _ ih =>
    have hpiece : c.kind.isActionPiece = false := by
      simpa using (Bool.and_eq_true_iff.1 hc.1).1
    have hopens : c.kind.opensPieces = false := by
      cases hk : c.kind <;> rw [hk] at hpiece <;> first | rfl | exact absurd hpiece (by decide)
    rw [rereads, hopens]
    exact .cons hpiece (ih (List.forall_mem_cons.1 he).2)
  | @action b e ps cs ss gap depth hb hp hk _ ih =>
    subst hb hk
    have hkinds : ∀ q ∈ (pieceStrokes depth .nothing ps).1, q.segment.kind = .actionContent :=
      (thinned_pieceStrokes depth .nothing hp).kind
    have htail := ih fun c hc ↦ he c (List.mem_append_right _ hc)
    simp only [List.cons_append, List.append_assoc, List.nil_append, rereads, rereads_append]
    rw [show Kind.opensPieces .beginAction = true from rfl,
      show Kind.opensPieces .endAction = false from rfl, rereads_contents width hkinds]
    refine .action rfl hp kind_of_mem_contents rfl (fun d ↦ ?_) htail
    exact pieceStrokes_again width depth d (by simp) rfl hp

/-- **A layout resembles its source**, if nothing is reported about the source and its actions hold
no quote without a partner. -/
theorem resembles_of_format {width : Nat} {source : String} {out : Formatted}
    (h : format (Rules.indented width) source = .ok out) (hd : out.diagnostics = [])
    (hq : ∀ t ∈ (tokenize source).toList, t.segment.isLoneQuote = false) :
    Resembles (Segment.visible ((tokenize source).toList.map Token.segment))
      (Segment.visible ((tokenize out.rendered).toList.map Token.segment)) := by
  obtain ⟨tree, p, -, -, -, hlaid, hread⟩ := exists_reread_of_format h hd hq
  have he : ∀ c ∈ Segment.visible (Segment.ofChars none source.toList), c.kind ≠ .eof := by
    intro c hc
    obtain ⟨d, hm, rfl⟩ := List.mem_map.1 hc
    rw [Segment.kind_trimmed]
    exact (Segment.formed_ofChars none _ d (List.mem_of_mem_filter hm)).ne_eof
  rw [segments_tokenize, segments_tokenize, Segment.visible_append, Segment.visible_append, hread]
  exact (resembles_of_laid hlaid he width ['\n']).append_singleton rfl

/-! ### Grammars without actions -/

/-- Where no action starts, nothing is a piece of one. -/
theorem Forest.lone_of_forall {fits : NodeKind → List Token → Prop} {lone : Token → Prop}
    {us : List Token} {ts : List Tree} (h : Forest fits lone us ts)
    (hb : ∀ t ∈ us, t.kind ≠ .beginAction) : ∀ t ∈ us, lone t := by
  induction h with
  | nil => simp
  | leaf ht _ ih | stray ht _ ih =>
    exact List.forall_mem_cons.2 ⟨ht, ih (List.forall_mem_cons.1 hb).2⟩
  | action hk => exact absurd hk (hb _ (by simp))
  | node _ _ _ _ ihu ihv =>
    rw [List.forall_mem_append] at hb
    exact List.forall_mem_append.2 ⟨ihu hb.1, ihv hb.2⟩

/-- A main token is among the main tokens. -/
theorem Stream.mem_mainTokens {s : Stream} {t : Token} (ht : t ∈ s.toList)
    (hh : t.isHidden = false) : t ∈ s.mainTokens := List.mem_filter.2 ⟨ht, by simp [hh]⟩

/-- The rank of a position among the main tokens. -/
def Stream.mainIndex (s : Stream) (i : Nat) : Nat := s.rank (!·.isHidden) i

/-- A main token with its rank for a position, and no place in a source. -/
def Stream.mainToken (s : Stream) (t : Token) : Token :=
  { t.segment.token with index := s.mainIndex t.index }

theorem Stream.renumbers_mainToken (s : Stream) : Renumbers s.mainIndex s.mainToken where
  kind _ := rfl
  index _ := rfl

/-- Main tokens are numbered by their ranks. -/
theorem Stream.mainTokens_map (s : Stream) :
    s.mainTokens.map s.mainToken =
      numberedFrom 0 ((s.mainTokens.map Token.segment).map Segment.token) := by
  have hn : numberedFrom 0 (s.mainTokens.map fun t ↦ t.segment.token) =
      s.mainTokens.map s.mainToken :=
    numberedFrom_filter (List.nil_append s.toList).symm fun t ↦ t.segment.token
  rw [List.map_map]
  exact hn.symm

/-- **The tree depends on the main segments alone**, up to the ranks of the tokens. -/
theorem parse_of_mainSegments {s s' : Stream}
    (h : s'.mainTokens.map Token.segment = s.mainTokens.map Token.segment) {tree : Tree}
    (hp : parse s = .ok tree) :
    ∃ tree', parse s' = .ok tree' ∧
      tree'.renumber s'.mainIndex = tree.renumber s.mainIndex := by
  have hread := toOption_readGrammar_map s.renumbers_mainToken s.mainTokens
  have hread' := toOption_readGrammar_map s'.renumbers_mainToken s'.mainTokens
  rw [Stream.mainTokens_map, ← toOption_parse] at hread hread'
  rw [h, hread, hp] at hread'
  cases hp' : parse s' with
  | error d =>
    rw [hp'] at hread'
    exact absurd hread' (by simp [Except.toOption])
  | ok tree' =>
    rw [hp'] at hread'
    exact ⟨tree', rfl, (Option.some.inj hread').symm⟩

/-- **A layout is read as its source** if nothing is reported about the source and it holds no
actions: it has the same visible segments, and the same tree up to the ranks of the tokens. -/
theorem format_preserves_parse {width : Nat} {source : String} {out : Formatted}
    (h : format (Rules.indented width) source = .ok out) (hd : out.diagnostics = [])
    (hb : ∀ t ∈ (tokenize source).toList, t.kind ≠ .beginAction) :
    Segment.visible ((tokenize out.rendered).toList.map Token.segment) =
        Segment.visible ((tokenize source).toList.map Token.segment) ∧
      ∃ tree tree', parse (tokenize source) = .ok tree ∧
        parse (tokenize out.rendered) = .ok tree' ∧
        tree'.renumber (tokenize out.rendered).mainIndex =
          tree.renumber (tokenize source).mainIndex := by
  obtain ⟨ts, hp, hclean⟩ := exists_clean_of_format h hd
  have hlone := hclean.forest.lone_of_forall fun t ht ↦ hb t (List.mem_of_mem_filter ht)
  have hq : ∀ t ∈ (tokenize source).toList, t.segment.isLoneQuote = false := by
    intro t ht
    rw [Segment.isLoneQuote, Bool.and_eq_false_iff, beq_eq_false_iff_ne]
    refine .inl fun hk ↦ ?_
    have hplaced := hlone t (Stream.mem_mainTokens ht (by
      rw [Token.isHidden, show t.kind = _ from hk]
      rfl))
    rw [show t.kind = _ from hk] at hplaced
    exact absurd hplaced (by decide)
  have hsame := (resembles_of_format h hd hq).eq_of_forall fun c hc ↦ by
    obtain ⟨d, hm, rfl⟩ := List.mem_map.1 hc
    obtain ⟨t, ht, rfl⟩ := List.mem_map.1 (List.mem_of_mem_filter hm)
    rw [Segment.kind_trimmed]
    exact hb t ht
  have hmain : (tokenize out.rendered).mainTokens.map Token.segment =
      (tokenize source).mainTokens.map Token.segment := by
    rw [Stream.mainTokens, ← mainSegments_visible, hsame, mainSegments_visible]
    rfl
  obtain ⟨tree', hp', ht⟩ := parse_of_mainSegments hmain hp
  exact ⟨hsame, _, tree', hp, hp', ht⟩

/-- A grammar with a block and comments, and what is read again of its layout. -/
theorem options_block_is_read_again :
    ∃ out tree tree', format (Rules.indented 2)
        "grammar T; options \x7ba = b;\x7d /** d */ a : 'x' // c \n ;" = .ok out ∧
      Segment.visible ((tokenize out.rendered).toList.map Token.segment) =
        Segment.visible ((tokenize
          "grammar T; options \x7ba = b;\x7d /** d */ a : 'x' // c \n ;").toList.map Token.segment) ∧
      parse (tokenize "grammar T; options \x7ba = b;\x7d /** d */ a : 'x' // c \n ;") =
        .ok tree ∧
      parse (tokenize out.rendered) = .ok tree' ∧
      tree'.renumber (tokenize out.rendered).mainIndex =
        tree.renumber (tokenize
          "grammar T; options \x7ba = b;\x7d /** d */ a : 'x' // c \n ;").mainIndex := by
  have ht : formatsTo (Rules.indented 2)
      "grammar T; options \x7ba = b;\x7d /** d */ a : 'x' // c \n ;"
      (·.diagnostics.isEmpty) = true := by
    decide +kernel
  have hb : ∀ t ∈ (tokenize
      "grammar T; options \x7ba = b;\x7d /** d */ a : 'x' // c \n ;").toList,
      t.kind ≠ .beginAction := by
    decide +kernel
  obtain ⟨out, hf, he⟩ := exists_of_formatsTo ht
  obtain ⟨hv, tree, tree', hp, hp', hr⟩ := format_preserves_parse hf (List.isEmpty_iff.1 he) hb
  exact ⟨out, tree, tree', hf, hv, hp, hp', hr⟩

end GrammarLayout
