import GrammarLayout.Proofs.Layout.Growth

/-!
# Actions on a page

Inside an action nothing but the pieces themselves decides where lines end: the formatter writes
them one after the other, starts a line after a semicolon and after an at sign, and drops blanks at
the start of a line. So the page with a whole action on it can be told at once (`play_action`).

The layout of an action needs less than the layout of other code. No comments are attached to its
pieces, since everything between the braces is a piece; the frame of an action neither indents nor
counts parentheses; and two pieces are never separated by a space. What is left of the state of the
page is the gap before the next stroke and whether a line was just begun, so the strokes of an
action are a fold over its pieces alone (`pieceStrokes`).

* `leaf_piece` is the step: one piece, written or dropped.

* `play_pieces` is the run over the pieces, by induction, with the comments empty, no line end
  pending and something written before. All three hold right after the opening brace.

* `play_action` adds the braces and the frame. It says that the page behind an action is
  `Page.withAction` of the page before it.

So later proofs about actions compare two lists of strokes, and run the formatter no more.
-/

namespace GrammarLayout

namespace Page

/-- No comments, nothing to write before the next token. -/
theorem flush_of_nil (category : Category) {p : Page} (h : p.comments = []) :
    p.flush category = p := by
  rw [flush, h, List.foldl_nil, ← h]

/-- The line end that was asked for is part of the gap once the page is settled. -/
theorem breakPending_settle (p : Page) : p.settle.breakPending = false := by
  rw [settle]
  split
  · rfl
  · rename_i h
    simpa using h

/-- The plan of a piece of an action: a line ends after a semicolon and after an at sign. The plan
is stated over strings and the strokes over characters, so the test is carried over first. -/
theorem plan_piece {f : Frame} (hf : f.category = .actionBlock) {c : Segment}
    (hk : c.kind.isActionPiece = true) (fs : Frames) :
    Frames.plan (f :: fs) c.kind (String.ofList c.text) =
      if breaksAfter c.text then [.emit, .newLine] else [.emit] := by
  -- pieces are neither the end marker nor doc comments, which have plans of their own
  have he : c.kind ≠ .eof := by rintro h; rw [h] at hk; exact absurd hk (by decide)
  have hd : c.kind ≠ .docComment := by rintro h; rw [h] at hk; exact absurd hk (by decide)
  have htext : ∀ ch : Char, (String.ofList c.text == String.singleton ch) = (c.text == [ch]) := by
    intro ch
    rw [Bool.eq_iff_iff, beq_iff_eq, beq_iff_eq, ← String.toList_inj, String.toList_ofList,
      String.toList_singleton]
  have hb : breaksAfter c.text =
      (String.ofList c.text == ";" || String.ofList c.text == "@") := by
    rw [breaksAfter, ← htext ';', ← htext '@']
    rfl
  rw [Frames.plan, hb]
  unfold Frame.plan
  rw [if_neg he, hf]
  simp only [hd, decide_false, Bool.false_or]

/-- A piece of an action is written right after what was begun, unless it is dropped. Only blanks at
the start of a line are dropped. -/
theorem leaf_piece (r : Rules) {p : Page} {f : Frame} {fs : Frames} (hp : p.frames = f :: fs)
    (hf : f.category = .actionBlock) (hn : p.comments = []) {c : Segment}
    (hk : c.kind.isActionPiece = true) (following : List Segment) :
    p.leaf r c following =
      if p.settle.atLineStart && allBlank c.text then { p.settle with comments := following }
      else
        { p.settle with
          strokes := p.settle.strokes ++ [⟨p.settle.gap, c⟩]
          gap := if breaksAfter c.text then .lines 0 p.settle.depth else .nothing
          comments := following } := by
  have hact : p.frames.active = .actionBlock := by rw [hp]; exact hf
  -- the frame of an action does not change with what is written in it
  have hafter : p.frames.after c.kind = p.frames := by
    rw [hp]
    cases f
    cases hf
    simp [Frames.after, Frame.after, Frame.parenDepthAfter]
  have hst := frames_settle p
  -- no space is put before a piece, whatever the rules say
  have hemit : p.emit r c =
      if p.settle.atLineStart && allBlank c.text then p.settle
      else p.settle.write p.settle.gap c := by
    have hactive : p.settle.frames.active = .actionBlock := by rw [hst.2.1]; exact hact
    rw [emit, drops, gapBefore, Rules.needsSpace, hactive]
    simp
  have hlf : p.leaf r c following =
      { (p.frames.plan c.kind (String.ofList c.text)).foldl (runOp r c) p with
        comments := following } := by
    rw [leaf, flush_of_nil _ hn, hafter]
  rw [hlf, hp, plan_piece hf hk]
  cases hb : breaksAfter c.text with
  | true =>
    -- what ends a line is not blank, so it is not dropped
    have hblank : allBlank c.text = false := by
      rcases Bool.or_eq_true_iff.1 hb with h | h <;> rw [beq_iff_eq.1 h] <;> decide
    rw [if_pos rfl, List.foldl_cons, List.foldl_cons, List.foldl_nil, runOp, runOp, hemit, hblank,
      Bool.and_false, if_neg (by simp), if_neg (by simp), newLine]
    simp [write, Separator.broken, breakPending_settle]
  | false =>
    rw [if_neg (by simp), List.foldl_cons, List.foldl_nil, runOp, hemit]
    split <;> rfl

/-- A page with a whole action laid out on it, before what follows the action is written. The
opening brace stands behind the gap that the action was found with, and the closing brace behind the
one that its last piece leaves. -/
def withAction (p : Page) (b : Segment) (ps : List Segment) (e : Segment)
    (following : List Segment) : Page :=
  let q := (p.flush .actionBlock).settle
  let laid := pieceStrokes q.depth .nothing ps
  { q with
    strokes := q.strokes ++ (⟨q.gap, b⟩ :: (laid.1 ++ [⟨laid.2, e⟩]))
    gap := .nothing
    comments := following }

/-- Pieces of an action are laid out one after the other. The depth does not change on the way, so
the indentation after a line end is the same for all of them. -/
theorem play_pieces (r : Rules) {p : Page} {f : Frame} {fs : Frames} (hp : p.frames = f :: fs)
    (hf : f.category = .actionBlock) (hn : p.comments = []) (hb : p.breakPending = false)
    (hs : p.strokes ≠ []) {ps : List Segment} (hk : ∀ c ∈ ps, c.kind.isActionPiece = true) :
    p.play r (ps.map (.leaf · [])) =
      { p with
        strokes := p.strokes ++ (pieceStrokes p.depth p.gap ps).1
        gap := (pieceStrokes p.depth p.gap ps).2 } := by
  induction ps generalizing p with
  | nil => simp [pieceStrokes]
  | cons c ps ih =>
    rw [List.forall_mem_cons] at hk
    -- since no line end is pending, settling does nothing, and only the gap tells a start of a line
    have hst : p.settle = p := by rw [settle, if_neg (by simp [hb])]
    have hat : p.atLineStart = p.gap.isLines := by
      rw [atLineStart, List.isEmpty_eq_false_iff.2 hs, Bool.false_or]
    rw [List.map_cons, play_cons, step, leaf_piece r hp hf hn hk.1, hst, hat, pieceStrokes]
    split
    -- a dropped piece leaves the page as it was
    · have hpe : { p with comments := [] } = p := by rw [← hn]
      rw [hpe]
      exact ih hp hn hb hs hk.2
    · have hq := ih (p := { p with
        strokes := p.strokes ++ [⟨p.gap, c⟩]
        gap := if breaksAfter c.text then .lines 0 p.depth else .nothing
        comments := [] }) hp rfl hb (by simp) hk.2
      rw [hq]
      simp [hn]

/-- The last piece of an action, its closing brace. A brace is not blank, so it is never dropped. -/
theorem play_close (r : Rules) {p : Page} {f : Frame} {fs : Frames} (hp : p.frames = f :: fs)
    (hf : f.category = .actionBlock) (hn : p.comments = []) (hb : p.breakPending = false)
    {e : Segment} (he : e = ⟨.endAction, ['\x7d']⟩) (following : List Segment) :
    p.step r (.leaf e following) =
      { p with
        strokes := p.strokes ++ [⟨p.gap, e⟩], gap := .nothing, comments := following } := by
  have hst : p.settle = p := by rw [settle, if_neg (by simp [hb])]
  subst he
  have hblank : allBlank ['\x7d'] = false := by decide
  rw [step, leaf_piece r hp hf hn rfl, hst, hblank, Bool.and_false, if_neg (by simp)]
  rfl

/-- Comments are written in the same way inside all constructs. What the frames would change, the
separators of tokens, is not asked for between comments. -/
theorem flush_withFrames (category : Category) (p : Page) (fs : Frames) :
    flush category { p with frames := fs } = { p.flush category with frames := fs } := by
  have hw : ∀ (q : Page) (c : Segment), writeComment category { q with frames := fs } c =
      { q.writeComment category c with frames := fs } := by
    intro q c
    unfold writeComment afterComment beforeComment
    dsimp only
    split <;> split <;> (try split) <;> rfl
  have h : ∀ (cs : List Segment) (q : Page),
      cs.foldl (writeComment category) { q with frames := fs } =
        { cs.foldl (writeComment category) q with frames := fs } := by
    intro cs
    induction cs with
    | nil => exact fun _ ↦ rfl
    | cons c cs ih =>
      intro q
      rw [List.foldl_cons, hw, ih, List.foldl_cons]
  exact h p.comments { p with comments := [] }

/-- The page inside an action, after its closing brace. The frame of the action is still there; it
is taken off by the step that leaves the node. -/
theorem play_pieces_action (r : Rules) (p : Page) {b e : Segment} {ps following : List Segment}
    (hb : b = ⟨.beginAction, ['\x7b']⟩) (hk : ∀ c ∈ ps, c.kind = .actionContent)
    (he : e = ⟨.endAction, ['\x7d']⟩) :
    p.play r (.enter .actionBlock true :: ((b :: ps).map (.leaf · []) ++ [.leaf e following])) =
      { p.withAction b ps e following with
        frames := { category := .actionBlock, savedIndent := p.depth } :: p.frames } := by
  have hkp : ∀ c ∈ ps, c.kind.isActionPiece = true := fun c hc ↦ by rw [hk c hc]; rfl
  have hq : (p.flush .actionBlock).comments = [] := Follows.comments_flush ..
  obtain ⟨hfr, hd⟩ := frames_flush .actionBlock p
  have henter : p.step r (.enter .actionBlock true) =
      { p.flush .actionBlock with
        frames := { category := .actionBlock, savedIndent := p.depth } :: p.frames } := by
    rw [step, enter, pushFrame, flushAt, if_pos rfl]
    simp [NodeKind.category, Category.entry, Frames.push, hfr, hd]
  rw [withAction]
  generalize p.flush .actionBlock = P at hq henter ⊢
  generalize hF : ({ category := .actionBlock, savedIndent := p.depth } : Frame) = F at henter ⊢
  have hFc : F.category = .actionBlock := by rw [← hF]
  -- the page after the opening brace, and after the pieces
  let Q : Page := { P.settle with
    strokes := P.settle.strokes ++ [⟨P.settle.gap, b⟩], gap := .nothing
    frames := F :: p.frames, comments := [] }
  have hopen : step r { P with frames := F :: p.frames } (.leaf b []) = Q := by
    -- settling and pushing a frame do not get in each other's way
    have hset : settle { P with frames := F :: p.frames } =
        { P.settle with frames := F :: p.frames } := by
      unfold settle
      dsimp only
      split <;> rfl
    have hblank : allBlank b.text = false := by rw [hb]; decide
    have hbreak : breaksAfter b.text = false := by rw [hb]; decide
    rw [step, leaf_piece r (p := { P with frames := F :: p.frames }) rfl hFc hq (by rw [hb]; rfl),
      hset, hblank, Bool.and_false, if_neg (by simp), hbreak]
    rfl
  have hbp : Q.breakPending = false := breakPending_settle P
  have hpieces := play_pieces r (p := Q) rfl hFc rfl hbp (by simp [Q]) hkp
  let R : Page := { Q with
    strokes := Q.strokes ++ (pieceStrokes Q.depth Q.gap ps).1
    gap := (pieceStrokes Q.depth Q.gap ps).2 }
  have hclose := play_close r (p := R) rfl hFc rfl hbp he following
  rw [play_cons, henter, List.map_cons, List.cons_append, play_cons, hopen, play_append, hpieces,
    play_cons, hclose, play_nil]
  simp [R, Q]

/-- **An action is laid out** on one line with what precedes it, piece by piece. -/
theorem play_action (r : Rules) (p : Page) {b e : Segment} {ps following : List Segment}
    (hb : b = ⟨.beginAction, ['\x7b']⟩) (hk : ∀ c ∈ ps, c.kind = .actionContent)
    (he : e = ⟨.endAction, ['\x7d']⟩) :
    p.play r (.enter .actionBlock true ::
      (((b :: ps).map (.leaf · []) ++ [.leaf e following]) ++ [.leave .actionBlock true])) =
      (p.withAction b ps e following).flush .actionBlock := by
  rw [← List.cons_append, play_append, play_pieces_action r p hb hk he]
  have hf : (p.withAction b ps e following).frames = p.frames := by
    rw [withAction]
    exact (frames_settle _).2.1.trans (frames_flush .actionBlock p).1
  have hd : (p.withAction b ps e following).depth = p.depth := by
    rw [withAction]
    exact (frames_settle _).2.2.1.trans (frames_flush .actionBlock p).2
  generalize p.withAction b ps e following = S at hf hd ⊢
  obtain ⟨hf', hd'⟩ := frames_flush .actionBlock S
  have hcat : NodeKind.actionBlock.category = .actionBlock := rfl
  rw [play_cons, play_nil, step, leave, flushAt, if_pos rfl, popFrame, if_pos (by decide), hcat,
    flush_withFrames]
  dsimp only
  rw [← hf, ← hd, ← hf', ← hd']

end Page

end GrammarLayout
