import GrammarLayout.Proofs.Layout.Walk

/-!
# Pages side by side

Two pages on which different things have been written, and the same since: `Page.Beside b b' p p'`
says that what stands on `p` is `b` and something more, and that on `p'` the same stands after `b'`.
Of everything before, a page remembers only the text written last and whether a line is open. So
pages that are equally deep inside the same constructs and wait for the same comments are beside
each other as soon as both start a line (`Page.beside_newLine`), and stay so along any beats
(`Beside.play`).

That both pages hold a stroke is part of it: an empty page drops line ends, and a page with strokes
does not.

The text in common is measured on what has been put out so far (`Page.sofar`), that is, with the
line ends of the gap but without its indentation. A line end is put out at once, and the indentation
only with the next token. So two pages may have begun different gaps and still be beside each other,
if the same is owed on both.

A gap is never a space between two beats, because a space is only begun together with the token
after it. That is why `Page.Beside` excludes it on both pages, and it has to be shown again for each
operation, along with the rest.
-/

namespace GrammarLayout

/-- A gap owes an indentation if it ends a line. -/
theorem Separator.isLines_eq_isSome (width : Nat) (g : Separator) :
    g.isLines = (g.owed width).isSome := by
  cases g <;> rfl

namespace Page

variable {width : Nat} {b b' : List Char} {p p' : Page}

/-- What has been put out for a page: its strokes, and the line ends after them. -/
def sofar (width : Nat) (p : Page) : List Char := inked width p.strokes ++ p.gap.lineEnds

/-- The text of a page is what has been put out, with the last line end. -/
theorem text_eq_sofar (width : Nat) (p : Page) :
    p.text width = p.sofar width ++ if p.atLineStart then [] else ['\n'] := by
  rw [text, sofar, List.append_assoc]

/-- A new line is put out at once. -/
theorem sofar_newLine (width : Nat) (h : p.strokes ≠ []) :
    p.newLine.sofar width = p.sofar width ++ ['\n'] := by
  have hn : p.strokes.isEmpty = false := List.isEmpty_eq_false_iff.2 h
  rw [newLine, hn, if_neg (by simp), sofar, Separator.lineEnds_broken, sofar, List.append_assoc]

/-- What is written after the separator that was begun comes after its indentation. -/
theorem sofar_write (width : Nat) (h : p.gap ≠ .space) (c : Segment) :
    (p.write p.gap c).sofar width = p.sofar width ++ ((p.gap.owed width).getD [] ++ c.text) := by
  rw [write, sofar, inked_append, inked_cons, inked_nil, Separator.text_eq_lineEnds width h, sofar]
  simp [Separator.lineEnds]

theorem sofar_write_space (width : Nat) (h : p.gap = .nothing) (c : Segment) :
    (p.write .space c).sofar width = p.sofar width ++ ' ' :: c.text := by
  rw [write, sofar, inked_append, inked_cons, inked_nil, sofar, h]
  simp [Separator.lineEnds, Separator.text]

/-- Pages on which the same stands, after `b` on the one and after `b'` on the other, and on which
the same will be written. -/
structure Beside (width : Nat) (b b' : List Char) (p p' : Page) : Prop where
  /-- What stands on the pages. -/
  text : ∃ x, p.sofar width = b ++ x ∧ p'.sofar width = b' ++ x
  /-- Something stands on the one. -/
  strokes : p.strokes ≠ []
  /-- Something stands on the other. -/
  strokes' : p'.strokes ≠ []
  /-- The separator begun on the one is made of line ends. -/
  gap : p.gap ≠ .space
  /-- The separator begun on the other is made of line ends. -/
  gap' : p'.gap ≠ .space
  /-- Both owe the same indentation. -/
  owed : p'.gap.owed width = p.gap.owed width
  /-- Both end with the same text, unless they start a line. -/
  previous : p.gap.isLines = false → p'.previous = p.previous
  /-- Both are equally deep. -/
  depth : p'.depth = p.depth
  /-- Both are inside the same constructs. -/
  frames : p'.frames = p.frames
  /-- Both wait for the same break. -/
  breakPending : p'.breakPending = p.breakPending
  /-- Both wait for the same comments. -/
  comments : p'.comments = p.comments

namespace Beside

theorem isLines (h : Beside width b b' p p') : p'.gap.isLines = p.gap.isLines := by
  rw [Separator.isLines_eq_isSome width, h.owed, ← Separator.isLines_eq_isSome]

theorem atLineStart (h : Beside width b b' p p') :
    p.atLineStart = p.gap.isLines ∧ p'.atLineStart = p.gap.isLines := by
  have hn : p.strokes.isEmpty = false := List.isEmpty_eq_false_iff.2 h.strokes
  have hn' : p'.strokes.isEmpty = false := List.isEmpty_eq_false_iff.2 h.strokes'
  rw [Page.atLineStart, Page.atLineStart, hn, hn', Bool.false_or, Bool.false_or, h.isLines]
  exact ⟨rfl, rfl⟩

/-- A page in the middle of a line has begun no separator. -/
theorem gap_eq_nothing (h : p.gap ≠ .space) (hl : p.gap.isLines = false) : p.gap = .nothing := by
  cases hg : p.gap with
  | nothing => rfl
  | space => exact absurd hg h
  | lines => rw [hg] at hl; exact absurd hl (by simp [Separator.isLines])

/-- Line ends are put out on both pages. Whether one is dropped depends on the gap, which is the
same in that respect. -/
theorem newLine (h : Beside width b b' p p') : Beside width b b' p.newLine p'.newLine := by
  obtain ⟨x, hx, hx'⟩ := h.text
  have hg : p.newLine.gap = p.gap.broken p.depth := by
    rw [Page.newLine, List.isEmpty_eq_false_iff.2 h.strokes]
    rfl
  have hg' : p'.newLine.gap = p'.gap.broken p.depth := by
    rw [Page.newLine, List.isEmpty_eq_false_iff.2 h.strokes', h.depth]
    rfl
  exact { h with
    text := ⟨x ++ ['\n'], by rw [sofar_newLine width h.strokes, hx, List.append_assoc],
      by rw [sofar_newLine width h.strokes', hx', List.append_assoc]⟩
    gap := hg ▸ Separator.broken_ne_space _ _
    gap' := hg' ▸ Separator.broken_ne_space _ _
    owed := by rw [hg, hg', Separator.owed_broken, Separator.owed_broken]
    previous := by simp [hg]
    breakPending := rfl }

theorem settle (h : Beside width b b' p p') : Beside width b b' p.settle p'.settle := by
  rw [Page.settle, Page.settle, h.breakPending]
  split
  · exact h.newLine
  · exact h

/-- The same is written on both pages, after separators that add the same to what stands there. -/
theorem write_of_text (h : Beside width b b' p p') {gap gap' : Separator} {c : Segment}
    {y : List Char} (hy : (p.write gap c).sofar width = p.sofar width ++ y)
    (hy' : (p'.write gap' c).sofar width = p'.sofar width ++ y) :
    Beside width b b' (p.write gap c) (p'.write gap' c) := by
  obtain ⟨x, hx, hx'⟩ := h.text
  exact { h with
    text := ⟨x ++ y, by rw [hy, hx, List.append_assoc], by rw [hy', hx', List.append_assoc]⟩
    strokes := by simp [write]
    strokes' := by simp [write]
    gap := Separator.noConfusion
    gap' := Separator.noConfusion
    owed := rfl
    previous := fun _ ↦ by rw [Shows.previous_write, Shows.previous_write] }

theorem write (h : Beside width b b' p p') (c : Segment) :
    Beside width b b' (p.write p.gap c) (p'.write p'.gap c) :=
  h.write_of_text (sofar_write width h.gap c) (h.owed ▸ sofar_write width h.gap' c)

/-- A token is put out in the same way: the previous text is asked only in the middle of a line, and
there it is the same. -/
theorem emit (h : Beside width b b' p p') (r : Rules) (c : Segment) :
    Beside width b b' (p.emit r c) (p'.emit r c) := by
  have hs := h.settle
  obtain ⟨hl, hl'⟩ := hs.atLineStart
  have hdrops : p'.settle.drops c = p.settle.drops c := by
    rw [drops, drops, hs.frames, hl, hl']
  rw [Page.emit, Page.emit, hdrops]
  generalize p.settle = q at hs hl hl' ⊢
  generalize p'.settle = q' at hs hl' ⊢
  split
  · exact hs
  · cases hlines : q.gap.isLines with
    | true =>
      -- at the start of a line the text before does not matter
      rw [gapBefore, gapBefore, Rules.needsSpace, Rules.needsSpace, hl, hl', hlines]
      exact hs.write c
    | false =>
      rw [gapBefore, gapBefore, hl, hl', hs.previous hlines, hs.frames]
      split
      · exact hs.write_of_text (sofar_write_space width (gap_eq_nothing hs.gap hlines) c)
          (sofar_write_space width (gap_eq_nothing hs.gap' (hs.isLines.trans hlines)) c)
      · exact hs.write c

theorem writeComment (h : Beside width b b' p p') (category : Category) (c : Segment) :
    Beside width b b' (p.writeComment category c) (p'.writeComment category c) := by
  have hbefore : Beside width b b' (p.beforeComment category) (p'.beforeComment category) := by
    rw [beforeComment, beforeComment, h.breakPending]
    split
    · exact h.newLine
    · exact h
  have hwrite := hbefore.write c
  rw [Page.writeComment, Page.writeComment, afterComment, afterComment]
  split
  · exact hwrite.newLine
  · split
    · exact { hwrite with breakPending := rfl }
    · exact hwrite

theorem flush (h : Beside width b b' p p') (category : Category) :
    Beside width b b' (p.flush category) (p'.flush category) := by
  have hfold : ∀ (cs : List Segment) {q q' : Page}, Beside width b b' q q' →
      Beside width b b' (cs.foldl (Page.writeComment category) q)
        (cs.foldl (Page.writeComment category) q') := by
    intro cs
    induction cs with
    | nil => exact fun h ↦ h
    | cons c cs ih => exact fun h ↦ ih (h.writeComment category c)
  have hnone : Beside width b b' { p with comments := [] } { p' with comments := [] } :=
    { h with comments := rfl }
  rw [Page.flush, Page.flush, h.comments]
  exact hfold _ hnone

theorem runOp (h : Beside width b b' p p') (r : Rules) (c : Segment) (op : LayoutOp) :
    Beside width b b' (p.runOp r c op) (p'.runOp r c op) := by
  cases op with
  | newLine => exact h.newLine
  | indent => exact { h with depth := congrArg (· + 1) h.depth }
  | dedent => exact { h with depth := congrArg (· - 1) h.depth }
  | emit => exact h.emit r c

theorem leaf (h : Beside width b b' p p') (r : Rules) (c : Segment) (following : List Segment) :
    Beside width b b' (p.leaf r c following) (p'.leaf r c following) := by
  have hf := h.flush p.frames.active
  have hfold : ∀ (ops : List LayoutOp) {q q' : Page}, Beside width b b' q q' →
      Beside width b b' (ops.foldl (Page.runOp r c) q) (ops.foldl (Page.runOp r c) q') := by
    intro ops
    induction ops with
    | nil => exact fun h ↦ h
    | cons op ops ih => exact fun h ↦ ih (h.runOp r c op)
  rw [Page.leaf, Page.leaf, h.frames]
  generalize p.flush p.frames.active = q at hf
  generalize p'.flush p.frames.active = q' at hf
  rw [hf.frames]
  have hafter : Beside width b b' { q with frames := q.frames.after c.kind }
      { q' with frames := q.frames.after c.kind } := { hf with frames := rfl }
  exact { hfold (q.frames.plan c.kind (String.ofList c.text)) hafter with comments := rfl }

theorem pushFrame (h : Beside width b b' p p') (category : Category) :
    Beside width b b' (p.pushFrame category) (p'.pushFrame category) := by
  have hpush : Beside width b b' { p with frames := p.frames.push category p.depth }
      { p' with frames := p'.frames.push category p'.depth } :=
    { h with frames := by rw [h.frames, h.depth] }
  rw [Page.pushFrame, Page.pushFrame]
  cases category.entry with
  | block => exact hpush.newLine
  | inline => exact hpush
  | inherit => exact h

theorem popFrame (h : Beside width b b' p p') (category : Category) :
    Beside width b b' (p.popFrame category) (p'.popFrame category) := by
  rw [Page.popFrame, Page.popFrame, h.frames]
  split
  · cases p.frames with
    | nil => exact h
    | cons frame rest => exact { h with depth := rfl, frames := rfl }
  · exact h

theorem flushAt (h : Beside width b b' p p') (category : Category) (covers : Bool) :
    Beside width b b' (p.flushAt category covers) (p'.flushAt category covers) := by
  cases covers with
  | true => exact h.flush category
  | false => exact h

/-- **One beat** keeps pages beside each other. -/
theorem step (h : Beside width b b' p p') (r : Rules) (beat : Beat) :
    Beside width b b' (p.step r beat) (p'.step r beat) := by
  cases beat with
  | enter kind covers => exact (h.flushAt kind.category covers).pushFrame kind.category
  | leave kind covers => exact (h.flushAt kind.category covers).popFrame kind.category
  | leaf c following => exact h.leaf r c following

/-- **Beats keep pages beside each other.** -/
theorem play (h : Beside width b b' p p') (r : Rules) (beats : List Beat) :
    Beside width b b' (p.play r beats) (p'.play r beats) := by
  induction beats generalizing p p' with
  | nil => exact h
  | cons beat beats ih => exact ih (h.step r beat)

/-- The texts of the pages end in the same way. -/
theorem exists_text (h : Beside width b b' p p') :
    ∃ y, p.text width = b ++ y ∧ p'.text width = b' ++ y := by
  obtain ⟨x, hx, hx'⟩ := h.text
  obtain ⟨hl, hl'⟩ := h.atLineStart
  refine ⟨x ++ if p.gap.isLines then [] else ['\n'], ?_, ?_⟩
  · rw [text_eq_sofar, hx, hl, List.append_assoc]
  · rw [text_eq_sofar, hx', hl', List.append_assoc]

end Beside

/-- **Pages that start a line are beside each other**, whatever stands on them, if they are equally
deep inside the same constructs and wait for the same comments. -/
theorem beside_newLine (width : Nat) (q q' : Page) (hs : q.strokes ≠ []) (hs' : q'.strokes ≠ [])
    (hdepth : q'.depth = q.depth) (hframes : q'.frames = q.frames)
    (hcomments : q'.comments = q.comments) :
    Beside width (q.sofar width) (q'.sofar width) q.newLine q'.newLine := by
  have hline : ∀ {q : Page}, q.strokes ≠ [] →
      q.newLine = { q with gap := q.gap.broken q.depth, breakPending := false } := by
    intro q hq
    rw [newLine, List.isEmpty_eq_false_iff.2 hq]
    rfl
  have hsofar := sofar_newLine width hs
  have hsofar' := sofar_newLine width hs'
  rw [hline hs] at hsofar ⊢
  rw [hline hs'] at hsofar' ⊢
  exact {
    text := ⟨['\n'], hsofar, hsofar'⟩
    strokes := hs
    strokes' := hs'
    gap := Separator.broken_ne_space _ _
    gap' := Separator.broken_ne_space _ _
    owed := by simp only [Separator.owed_broken, hdepth]
    previous := by simp
    depth := hdepth
    frames := hframes
    breakPending := rfl
    comments := hcomments }

/-- Constructs that start a line are entered there. -/
theorem beside_pushFrame (width : Nat) {category : Category} (hentry : category.entry = .block)
    (hs : p.strokes ≠ []) (hs' : p'.strokes ≠ []) (hdepth : p'.depth = p.depth)
    (hframes : p'.frames = p.frames) (hcomments : p'.comments = p.comments) :
    Beside width (p.sofar width) (p'.sofar width) (p.pushFrame category)
      (p'.pushFrame category) := by
  have hpush : p'.frames.push category p'.depth = p.frames.push category p.depth := by
    rw [hframes, hdepth]
  have hin : Beside width (p.sofar width) (p'.sofar width)
      (newLine { p with frames := p.frames.push category p.depth })
      (newLine { p' with frames := p'.frames.push category p'.depth }) :=
    beside_newLine width { p with frames := p.frames.push category p.depth }
      { p' with frames := p'.frames.push category p'.depth } hs hs' hdepth hpush hcomments
  rw [pushFrame, pushFrame, hentry]
  exact hin

end Page

end GrammarLayout
