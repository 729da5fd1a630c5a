import GrammarLayout.Proofs.Layout.Resemblance
import GrammarLayout.Proofs.Layout.TokenTexts

/-!
# The layout of an action

An action is laid out in the same way wherever it stands: its text is that of its pieces at the
depth of indentation there (`inked_withAction`), with nothing taken from the rules but the width of
a level. So the layout of an action may be studied on an action by itself (`laidBody`), and it is
stable (`laidBody_stable`). What stands between the braces afterwards is closed by the next brace,
whatever comes after it. It has the same pieces, except that blanks may have come or gone. And it is
laid out as the body it was made from, so that laying it out again changes nothing.

Quotes without a partner are left out, because what pairs with them is decided by the rest of their
line, and the layout may move text on and off that line.
-/

namespace GrammarLayout

/-! ### An action by itself -/

/-- The tokens of a closed action with this body, and the end marker. -/
def actionStream (body : List Char) : Stream :=
  Stream.ofTokens (placeSegments 0 1 (Segment.ofAction body true)).toArray

/-- The formatter after an action by itself, laid out from this depth of indentation on. -/
def Formatter.ofAction (r : Rules) (depth : Nat) (body : List Char) : Formatter :=
  let s := actionStream body
  let leaves := s.toList.dropLast.map fun t ↦ Tree.leaf t.index
  run { rules := r, stream := s, indent := { width := r.indentWidth, depth } }
    ((Tree.ofChildren .actionBlock leaves).events s)

/-- What is written of an action by itself. -/
def laidAction (r : Rules) (depth : Nat) (body : List Char) : List Char :=
  (Formatter.ofAction r depth body).chunks.toList.flatMap String.toList

/-- What is written between its braces. -/
def laidBody (r : Rules) (depth : Nat) (body : List Char) : List Char :=
  (laidAction r depth body).tail.dropLast

/-- The tokens of an action by itself: its braces and its pieces, and the end marker. -/
theorem exists_actionStream (body : List Char) :
    ∃ b cs e m, (actionStream body).toList = b :: (cs ++ [e]) ++ [m] ∧
      b.segment = ⟨.beginAction, ['\x7b']⟩ ∧ cs.map Token.segment = contents (Action.pieces body) ∧
      e.segment = ⟨.endAction, ['\x7d']⟩ ∧ m.segment = Segment.endMarker := by
  have hs := segments_ofTokens (Segment.ofAction body true)
  rw [Segment.ofAction, Segment.closing, if_pos rfl, ← contents, List.cons_append] at hs
  obtain ⟨b, B, hB, hb, hrest⟩ := List.map_eq_cons_iff.1 hs
  obtain ⟨X, M, rfl, hX, hM⟩ := List.map_eq_append_iff.1 hrest
  obtain ⟨cs, E, rfl, hcs, hE⟩ := List.map_eq_append_iff.1 hX
  obtain ⟨e, rfl, he⟩ := List.map_eq_singleton_iff.1 hE
  obtain ⟨m, rfl, hm⟩ := List.map_eq_singleton_iff.1 hM
  exact ⟨b, cs, e, m, hB, hb, hcs, he, hm⟩

theorem segment_mem_actionStream {body : List Char} {t : Token}
    (ht : t ∈ (actionStream body).toList) :
    t.segment ∈ Segment.ofAction body true ∨ t.segment = Segment.endMarker := by
  have hm : t.segment ∈ Segment.ofAction body true ++ [Segment.endMarker] :=
    segments_ofTokens (Segment.ofAction body true) ▸ List.mem_map_of_mem ht
  exact (List.mem_append.1 hm).imp_right List.mem_singleton.1

/-- Nothing is hidden in an action. -/
theorem isHidden_actionStream {body : List Char} {t : Token}
    (ht : t ∈ (actionStream body).toList) : t.isHidden = false ∧ t.isPlainComment = false := by
  have hk : t.kind.isActionPiece = true ∨ t.kind = .eof :=
    (segment_mem_actionStream ht).imp Segment.isActionPiece_ofAction (congrArg Segment.kind ·)
  rw [Token.isHidden, Token.isPlainComment]
  cases hkind : t.kind <;> rw [hkind] at hk <;>
    first | exact ⟨rfl, rfl⟩ | exact absurd hk (by decide)

/-- Without hidden tokens, any rules know the comments of a stream. -/
theorem readable_actionStream (r : Rules) (body : List Char) : Readable r (actionStream body) where
  text_ne_nil t ht := by
    rcases segment_mem_actionStream ht with hm | hm
    · exact (Segment.formed_ofAction body true _ hm).text_ne
    · rw [hm]
      decide
  comment_ne_nil t ht hp := by
    rw [(isHidden_actionStream ht).2] at hp
    exact absurd hp (by decide)
  isComment_eq t ht hh := by
    rw [(isHidden_actionStream ht).1] at hh
    exact absurd hh (by decide)

theorem commentsOf_actionStream (body : List Char) (i : Nat) :
    commentsOf ((actionStream body).hiddenAfter i) = [] := by
  have hnone : ((actionStream body).hiddenAfter i).filter (·.isPlainComment) = [] := by
    rw [Stream.hiddenAfter_eq]
    refine List.filter_eq_nil_iff.2 fun u hu ↦ ?_
    have hmem := List.mem_of_mem_drop ((List.takeWhile_sublist _).subset hu)
    simp [(isHidden_actionStream hmem).2]
  rw [commentsOf, hnone, List.map_nil]

theorem legible_actionStream (body : List Char) : Legible (actionStream body) where
  comment t ht hp := by
    rw [(isHidden_actionStream ht).2] at hp
    exact absurd hp (by decide)
  beginAction t ht hk := by
    rcases segment_mem_actionStream ht with hm | hm
    · rw [← hk, ← (Segment.formed_ofAction body true _ hm).opening hk]
      rfl
    · exact absurd (hk.symm.trans (congrArg Segment.kind hm)) (by decide)
  endAction t ht hk := by
    rcases segment_mem_actionStream ht with hm | hm
    · rw [← hk, ← (Segment.formed_ofAction body true _ hm).closing hk]
      rfl
    · exact absurd (hk.symm.trans (congrArg Segment.kind hm)) (by decide)
  quiet t _ _ := commentsOf_actionStream body t.index

/-! ### The text of an action -/

/-- What stands between the braces of an action with this body at a depth, `width` being the spaces
per level. -/
def bodyText (width depth : Nat) (body : List Char) : List Char :=
  let laid := pieceStrokes depth .nothing (contents (Action.pieces body))
  inked width laid.1 ++ laid.2.text width

/-- **Wherever an action stands**, it is written with the same text at the same depth. -/
theorem inked_withAction (width : Nat) (p : Page) (body : List Char) (following : List Segment) :
    inked width (p.withAction ⟨.beginAction, ['\x7b']⟩ (contents (Action.pieces body))
        ⟨.endAction, ['\x7d']⟩ following).strokes =
      inked width (p.flush .actionBlock).settle.strokes ++
        ((p.flush .actionBlock).settle.gap.text width ++
          '\x7b' :: (bodyText width p.depth body ++ ['\x7d'])) := by
  have hd : (p.flush .actionBlock).settle.depth = p.depth :=
    (frames_settle _).2.2.1.trans (frames_flush .actionBlock p).2
  rw [Page.withAction, bodyText, hd]
  simp

/-- Before an action by itself, the formatter and an empty page of that depth stand together. -/
theorem follows_actionStream (r : Rules) (depth : Nat) (body : List Char) :
    Follows r (actionStream body) [] [] (actionStream body).toList
      { rules := r, stream := actionStream body, indent := { width := r.indentWidth, depth } }
      { depth } := by
  have hplace : Place (actionStream body) [] [] (actionStream body).toList :=
    ⟨rfl, by simp, by simp, fun t ht ↦ (isHidden_actionStream (List.mem_of_mem_head? ht)).1⟩
  refine ⟨hplace, {}, true, ?_, .start _, rfl⟩
  constructor <;> first | rfl | simp

/-- The text of an action by itself. -/
theorem laidAction_eq (r : Rules) (depth : Nat) (body : List Char) :
    laidAction r depth body = '\x7b' :: (bodyText r.indentWidth depth body ++ ['\x7d']) := by
  obtain ⟨b, cs, e, m, htoks, hb, hcs, he, -⟩ := exists_actionStream body
  have hmem : ∀ t ∈ b :: (cs ++ [e]), t ∈ (actionStream body).toList := fun t ht ↦ by
    rw [htoks]
    exact List.mem_append_left _ ht
  have hkinds : ∀ c ∈ cs, c.kind = .actionContent := fun c hc ↦
    kind_of_mem_contents c.segment (hcs ▸ List.mem_map_of_mem hc)
  have hmain : (actionStream body).toList.filter (!·.isHidden) = b :: (cs ++ [e]) ++ [m] := by
    rw [List.filter_eq_self.2 fun t ht ↦ by simp [(isHidden_actionStream ht).1], htoks]
  have hover : Over (b :: (cs ++ [e])) [actionTree b cs e] := (Over.leaves _).singleton_node
  -- what the formatter has written is the text of the page with this action
  obtain ⟨_, _, _, ⟨-, _, -, hshows, -, -⟩, -, -⟩ :=
    Follows.run (readable_actionStream r body) hover (follows_actionStream r depth body) hmain
  have hchunks := hshows.chunks
  rw [Tree.beatsAll, Tree.beatsAll, List.append_nil,
    (legible_actionStream body).beats_actionTree hmem (congrArg Segment.kind hb) hkinds, hb, hcs,
    he, commentsOf_actionStream, Page.play_action r _ rfl kind_of_mem_contents rfl,
    Page.flush_of_nil _ rfl, inked_withAction] at hchunks
  have hdrop : (actionStream body).toList.dropLast = b :: (cs ++ [e]) := by
    rw [htoks, List.dropLast_concat]
  rw [Tree.eventsAll, Tree.eventsAll, List.append_nil, actionTree, ← hdrop] at hchunks
  rw [laidAction, Formatter.ofAction]
  simpa [Page.withAction, Page.flush, Page.settle, Separator.text, Separator.lineEnds] using hchunks

/-- The text between the braces of an action by itself. -/
theorem laidBody_eq (r : Rules) (depth : Nat) (body : List Char) :
    laidBody r depth body = bodyText r.indentWidth depth body := by
  rw [laidBody, laidAction_eq, List.tail_cons, List.dropLast_concat]

/-! ### Reading it again -/

section Reread

variable {body rest : List Char}

theorem map_text_contents (ps : List (List Char)) : (contents ps).map Segment.text = ps := by
  rw [contents, List.map_map]
  exact List.map_id _

/-- **The layout of a body is read as it is meant**: up to the next brace, and as its pieces with
blanks between them. -/
theorem reads_bodyText (h : Action.block (body ++ '\x7d' :: rest) = ⟨body, true, rest⟩)
    (hq : ∀ p ∈ Action.pieces body, p ≠ ['\''] ∧ p ≠ ['"']) (width depth : Nat)
    (more : List Char) :
    let laid := pieceStrokes depth .nothing (contents (Action.pieces body))
    Action.block (bodyText width depth body ++ '\x7d' :: more) =
        ⟨bodyText width depth body, true, more⟩ ∧
      Action.pieces (bodyText width depth body) =
        spacedPieces width laid.1 ++ gapPieces (laid.2.text width) := by
  intro laid
  obtain ⟨-, hread, hdepth⟩ := Action.of_closed h
  have hkind : ∀ c ∈ contents (Action.pieces body), c.kind = .actionContent := kind_of_mem_contents
  have htexts := map_text_contents (Action.pieces body)
  have hthin : Thinned (Action.pieces body) laid.1 := by
    have ht := thinned_pieceStrokes depth .nothing hkind
    rwa [htexts] at ht
  have hlone : ∀ c ∈ contents (Action.pieces body), c.isLoneQuote = false := by
    intro c hc
    obtain ⟨p, hp, rfl⟩ := List.mem_map.1 hc
    simp [Segment.isLoneQuote, hq p hp]
  have hkeeps : KeepsAll width laid.1 (laid.2.text width ++ '\x7d' :: more) := by
    rw [← htexts] at hread
    exact keepsAll_pieceStrokes width depth .nothing hread hkind hlone more
  obtain ⟨hnext, hpieces⟩ :=
    next_action hthin (isSpace_separator width laid.2) hkeeps hdepth
  exact ⟨(Lexeme.of_braced hnext).2, hpieces⟩

/-- Laying a body out neither adds nor drops a piece that is more than blanks. -/
theorem filter_bodyText (h : Action.block (body ++ '\x7d' :: rest) = ⟨body, true, rest⟩)
    (hq : ∀ p ∈ Action.pieces body, p ≠ ['\''] ∧ p ≠ ['"']) (width depth : Nat) :
    (Action.pieces (bodyText width depth body)).filter (!allBlank ·) =
      (Action.pieces body).filter (!allBlank ·) := by
  let laid := pieceStrokes depth .nothing (contents (Action.pieces body))
  let solid : Segment → Bool := fun c ↦ c.kind != .eof && !allBlank c.text
  have hsolid : Solid solid :=
    ⟨fun c _ hb ↦ by simp [solid, hb], fun c hk ↦ by simp [solid, hk]⟩
  have htexts : ∀ ps : List (List Char),
      ((contents ps).filter solid).map Segment.text = ps.filter (!allBlank ·) := by
    intro ps
    rw [contents, List.filter_map, List.map_map]
    exact List.map_id _
  obtain ⟨-, hpieces⟩ := reads_bodyText h hq width depth []
  have hkind : ∀ q ∈ laid.1, q.segment.kind = .actionContent :=
    (thinned_pieceStrokes depth .nothing kind_of_mem_contents).kind
  rw [← htexts, ← htexts, hpieces, ← rereads_contents width hkind,
    hsolid.filter_rereads width true laid.1 (isSpace_separator width laid.2),
    hsolid.filter_pieceStrokes depth .nothing kind_of_mem_contents]

/-- The layout of a body is laid out as the body itself. -/
theorem bodyText_bodyText (h : Action.block (body ++ '\x7d' :: rest) = ⟨body, true, rest⟩)
    (hq : ∀ p ∈ Action.pieces body, p ≠ ['\''] ∧ p ≠ ['"']) (width depth width' depth' : Nat) :
    bodyText width' depth' (bodyText width depth body) = bodyText width' depth' body := by
  obtain ⟨-, hpieces⟩ := reads_bodyText h hq width depth []
  rw [bodyText, hpieces, pieceStrokes_again width depth depth' (by simp) rfl kind_of_mem_contents]
  rfl

end Reread

/-- **The layout of an action is stable.** Let a body be closed by a brace, at least before some
text, and let no piece of it be a quote without a partner. At whatever depth it is laid out, the
result is closed by a brace before any text, has the same pieces but for blanks, and is laid out as
the body is. -/
theorem laidBody_stable {body rest : List Char}
    (h : Action.block (body ++ '\x7d' :: rest) = ⟨body, true, rest⟩)
    (hq : ∀ p ∈ Action.pieces body, p ≠ ['\''] ∧ p ≠ ['"']) (r : Rules) (depth : Nat) :
    laidAction r depth body = '\x7b' :: (laidBody r depth body ++ ['\x7d']) ∧
    (∀ more, Action.block (laidBody r depth body ++ '\x7d' :: more) =
      ⟨laidBody r depth body, true, more⟩) ∧
    (Action.pieces (laidBody r depth body)).filter (!allBlank ·) =
      (Action.pieces body).filter (!allBlank ·) ∧
    laidBody r depth (laidBody r depth body) = laidBody r depth body := by
  refine ⟨?_, fun more ↦ ?_, ?_, ?_⟩
  · rw [laidAction_eq, laidBody_eq]
  · rw [laidBody_eq]
    exact (reads_bodyText h hq r.indentWidth depth more).1
  · rw [laidBody_eq]
    exact filter_bodyText h hq r.indentWidth depth
  · rw [laidBody_eq, laidBody_eq]
    exact bodyText_bodyText h hq r.indentWidth depth r.indentWidth depth

/-- An action with two statements, a quoted brace and a comment: the blanks after the statements
become line ends, the quoted ones stay. -/
theorem two_statements_are_laid_out :
    let body := " s = \"\x7d;\"; // it's\n t;".toList
    let laid := " s = \"\x7d;\";\n   // it's\n t;\n   ".toList
    laidBody .standard 1 body = laid ∧ laidBody .standard 1 laid = laid ∧
    ∀ more, Action.block (laid ++ '\x7d' :: more) = ⟨laid, true, more⟩ := by
  intro body laid
  have hlaid : laidBody .standard 1 body = laid := by decide +kernel
  have hclosed : Action.block (body ++ ['\x7d']) = ⟨body, true, []⟩ := by decide +kernel
  have hquotes : ∀ p ∈ Action.pieces body, p ≠ ['\''] ∧ p ≠ ['"'] := by decide +kernel
  obtain ⟨-, hread, -, hagain⟩ := laidBody_stable hclosed hquotes .standard 1
  rw [hlaid] at hread hagain
  exact ⟨hlaid, hagain, hread⟩

end GrammarLayout
