import GrammarLayout.Layout.Format
import GrammarLayout.Proofs.Token.Tokens

/-!
# Pages

A layout seen without its mechanism. The formatter hands chunks to a writer that owes indentation,
and finds comments by comparing positions with marks; a **page** has neither. It is a list of
strokes, each a segment with the separator in front of it, together with the separator that has been
begun after the last stroke and the comments that are still to be written.

Every operation of the formatter has one of a page beside it. `Shows f p` says that the formatter
`f` has written what stands on the page `p`, and there is one lemma for each operation, which says
that the pair stays so. The text of a page is a function of its strokes (`inked`), so whatever is
shown of strokes is shown of the text.
-/

namespace GrammarLayout

/-! ### Separators and strokes -/

/-- What stands between two texts of a layout. -/
inductive Separator
  /-- Nothing at all. -/
  | nothing
  /-- A single space. -/
  | space
  /-- A line end and `more` further ones, then the indentation of a depth. -/
  | lines (more depth : Nat)
  deriving DecidableEq, Repr

namespace Separator

/-- The characters of a separator, `width` being the spaces per level. -/
def text (width : Nat) : Separator → List Char
  | nothing => []
  | space => [' ']
  | lines more depth => List.replicate (more + 1) '\n' ++ List.replicate (depth * width) ' '

/-- Whether a separator ends a line. -/
def isLines : Separator → Bool
  | lines .. => true
  | _ => false

/-- The line ends of a separator, without the indentation after them. -/
def lineEnds : Separator → List Char
  | lines more _ => List.replicate (more + 1) '\n'
  | _ => []

/-- The indentation after the line ends of a separator, if there are any. -/
def owed (width : Nat) : Separator → Option (List Char)
  | lines _ depth => some (List.replicate (depth * width) ' ')
  | _ => none

/-- The separator with one more line end, after which text is indented to `depth`. -/
def broken (depth : Nat) : Separator → Separator
  | lines more _ => lines (more + 1) depth
  | _ => lines 0 depth

@[simp] theorem isLines_broken (depth : Nat) (g : Separator) : (g.broken depth).isLines = true := by
  cases g <;> rfl

@[simp] theorem owed_broken (width depth : Nat) (g : Separator) :
    (g.broken depth).owed width = some (List.replicate (depth * width) ' ') := by
  cases g <;> rfl

theorem broken_ne_space (depth : Nat) (g : Separator) : g.broken depth ≠ .space := by
  cases g <;> simp [broken]

theorem lineEnds_broken (depth : Nat) (g : Separator) :
    (g.broken depth).lineEnds = g.lineEnds ++ ['\n'] := by
  cases g with
  | nothing | space => rfl
  | lines more d => exact List.replicate_succ'

/-- A separator is its line ends and the indentation after them, unless it is a space. -/
theorem text_eq_lineEnds (width : Nat) {g : Separator} (h : g ≠ .space) :
    g.text width = g.lineEnds ++ (g.owed width).getD [] := by
  cases g with
  | nothing => rfl
  | space => exact absurd rfl h
  | lines more depth => rfl

end Separator

/-- A segment with the separator in front of it. -/
structure Stroke where
  /-- What stands in front. -/
  gap : Separator
  /-- What is written. -/
  segment : Segment
  deriving DecidableEq, Repr

/-- The text of strokes one after the other. -/
def inked (width : Nat) (strokes : List Stroke) : List Char :=
  strokes.flatMap fun s ↦ s.gap.text width ++ s.segment.text

@[simp] theorem inked_nil (width : Nat) : inked width [] = [] := rfl

@[simp] theorem inked_cons (width : Nat) (s : Stroke) (ss : List Stroke) :
    inked width (s :: ss) = s.gap.text width ++ s.segment.text ++ inked width ss := by
  simp [inked]

@[simp] theorem inked_append (width : Nat) (ss ss' : List Stroke) :
    inked width (ss ++ ss') = inked width ss ++ inked width ss' := by
  simp [inked]

/-! ### Pages -/

/-- A layout in progress, as the strokes written so far. -/
structure Page where
  /-- What has been written, in order. -/
  strokes : List Stroke := []
  /-- The separator begun after the last stroke. -/
  gap : Separator := .nothing
  /-- The current depth of indentation. -/
  depth : Nat := 0
  /-- The constructs entered and not left. -/
  frames : Frames := []
  /-- Whether the next text has to start a new line. -/
  breakPending : Bool := false
  /-- The comments after the last leaf that were not written yet. -/
  comments : List Segment := []

namespace Page

/-- Whether the next text starts a line. -/
def atLineStart (p : Page) : Bool := p.strokes.isEmpty || p.gap.isLines

/-- The text written last. -/
def previous (p : Page) : String :=
  (p.strokes.getLast?.map fun s ↦ String.ofList s.segment.text).getD ""

/-- Ends the line, if there is one. -/
def newLine (p : Page) : Page :=
  { p with
    gap := if p.strokes.isEmpty then p.gap else p.gap.broken p.depth
    breakPending := false }

/-- Ends the line if that is pending. -/
def settle (p : Page) : Page := if p.breakPending then p.newLine else p

/-- Writes a segment after a separator. -/
def write (p : Page) (gap : Separator) (s : Segment) : Page :=
  { p with strokes := p.strokes ++ [⟨gap, s⟩], gap := .nothing }

/-- The separator in front of the text of a leaf. -/
def gapBefore (r : Rules) (p : Page) (s : Segment) : Separator :=
  if r.needsSpace p.previous (String.ofList s.text) p.frames.active p.atLineStart then .space
  else p.gap

/-- Whether a text is dropped: blanks of an action at the start of a line are. -/
def drops (p : Page) (s : Segment) : Bool :=
  p.frames.active == .actionBlock && p.atLineStart && allBlank s.text

/-- Writes the segment of a leaf. -/
def emit (r : Rules) (p : Page) (s : Segment) : Page :=
  if p.settle.drops s then p.settle else p.settle.write (p.settle.gapBefore r s) s

/-- The page on which a comment of a construct is written: on a new line where comments start
one. -/
def beforeComment (category : Category) (p : Page) : Page :=
  if category != .grammarSpec || p.breakPending then p.newLine else p

/-- The page after a comment of a construct: on a new line in the header, and with a break pending
after a line comment elsewhere. -/
def afterComment (category : Category) (s : Segment) (p : Page) : Page :=
  if category == .grammarSpec || category == .grammarType then p.newLine
  else if Rules.startsWith "//" s.text then { p with breakPending := true }
  else p

/-- Writes a comment of a construct. -/
def writeComment (category : Category) (p : Page) (s : Segment) : Page :=
  ((p.beforeComment category).write (p.beforeComment category).gap s).afterComment category s

/-- Writes the comments that were not written yet, as comments of a construct. -/
def flush (category : Category) (p : Page) : Page :=
  p.comments.foldl (writeComment category) { p with comments := [] }

/-- Runs one step of a plan for a leaf. -/
def runOp (r : Rules) (s : Segment) (p : Page) : LayoutOp → Page
  | .newLine => p.newLine
  | .indent => { p with depth := p.depth + 1 }
  | .dedent => { p with depth := p.depth - 1 }
  | .emit => p.emit r s

/-- Lays out a leaf that `following` comes after. -/
def leaf (r : Rules) (p : Page) (s : Segment) (following : List Segment) : Page :=
  let p := p.flush p.frames.active
  let ops := p.frames.plan s.kind (String.ofList s.text)
  { ops.foldl (runOp r s) { p with frames := p.frames.after s.kind } with comments := following }

/-- Pushes the frame of a construct, if it has one. -/
def pushFrame (category : Category) (p : Page) : Page :=
  match category.entry with
  | .block => newLine { p with frames := p.frames.push category p.depth }
  | .inline => { p with frames := p.frames.push category p.depth }
  | .inherit => p

/-- Pops the frame of a construct, if it has one, and goes back to its depth. -/
def popFrame (category : Category) (p : Page) : Page :=
  if category.ownsFrame then
    match p.frames with
    | [] => p
    | frame :: rest => { p with frames := rest, depth := frame.savedIndent }
  else p

/-- Writes the comments next to a node, if it covers any token. -/
def flushAt (category : Category) (covers : Bool) (p : Page) : Page :=
  if covers then p.flush category else p

/-- Enters a node. -/
def enter (p : Page) (kind : NodeKind) (covers : Bool) : Page :=
  (p.flushAt kind.category covers).pushFrame kind.category

/-- Leaves a node. -/
def leave (p : Page) (kind : NodeKind) (covers : Bool) : Page :=
  (p.flushAt kind.category covers).popFrame kind.category

/-- The text of a page, with the line end that closes it. -/
def text (width : Nat) (p : Page) : List Char :=
  inked width p.strokes ++
    (p.gap.lineEnds ++ if p.atLineStart then [] else ['\n'])

end Page

/-- What is done at a node before its frame is pushed: the comments before it are written, and it is
reported if it could not be read. -/
def Formatter.approach (f : Formatter) (kind : NodeKind) (span : Option Span) : Formatter :=
  ((f.note (.entered kind)).commentsBefore kind.category span).reportRecovered kind span

theorem Formatter.enter_eq_pushFrame (f : Formatter) (kind : NodeKind) (span : Option Span) :
    f.enter kind span = (f.approach kind span).pushFrame kind.category := rfl

/-- What is put out above a node that is entered after some events: all that is written before its
frame is pushed. -/
def Formatter.above (r : Rules) (s : Stream) (es : List Event) (kind : NodeKind)
    (span : Option Span) : String :=
  String.join ((Formatter.run { rules := r, stream := s } es).approach kind span).chunks.toList

/-! ### What a formatter shows -/

/-- The segment of a comment as it is written, without the blanks at its end. -/
def Token.comment (t : Token) : Segment := ⟨t.kind, trimEnd t.text.toList⟩

/-- The formatter has written what stands on the page, and stands where the page says; its rules,
its stream and its marks are the given ones. -/
structure Shows (r : Rules) (s : Stream) (m : Marks) (f : Formatter) (p : Page) : Prop where
  /-- The rules of the layout. -/
  rules : f.rules = r
  /-- The stream that is laid out. -/
  stream : f.stream = s
  /-- What has been given out. -/
  marks : f.marks = m
  /-- The width of a level is that of the rules. -/
  width : f.indent.width = r.indentWidth
  /-- Both are equally deep. -/
  depth : f.indent.depth = p.depth
  /-- Both are inside the same constructs. -/
  frames : f.frames = p.frames
  /-- Both end with the same text. -/
  previous : f.previous = p.previous
  /-- Both wait for the same break. -/
  breakPending : f.breakPending = p.breakPending
  /-- The writer has started if anything is written. -/
  started : f.writer.started = !p.strokes.isEmpty
  /-- Both are at the start of a line. -/
  atLineStart : f.writer.atLineStart = p.atLineStart
  /-- The writer owes the indentation of the separator that was begun. -/
  pending : f.writer.pending = (p.gap.owed r.indentWidth).map String.ofList
  /-- The separator that was begun is made of line ends. -/
  gap_ne_space : p.gap ≠ .space
  /-- The chunks are the strokes, and the line ends after them. -/
  chunks : f.chunks.toList.flatMap String.toList =
    inked r.indentWidth p.strokes ++ p.gap.lineEnds

namespace Shows

variable {r : Rules} {s : Stream} {m : Marks} {f : Formatter} {p : Page}

theorem toList_text (i : Indent) : i.text.toList = List.replicate (i.depth * i.width) ' ' := by
  rw [Indent.text, String.pushn_eq_repeat_push]
  induction i.depth * i.width with
  | zero => rfl
  | succ n ih => rw [Nat.repeat, String.toList_push, ih, List.replicate_succ']

theorem text_eq_ofList (i : Indent) :
    i.text = String.ofList (List.replicate (i.depth * i.width) ' ') := by
  rw [← toList_text, String.ofList_toList]

/-- Notices leave no trace on the page. -/
theorem note (h : Shows r s m f p) (n : Notice) : Shows r s m (f.note n) p := { h with }

theorem noteAll (h : Shows r s m f p) (ns : List Notice) : Shows r s m (f.noteAll ns) p :=
  { h with }

/-- Marks leave no trace on the page. -/
theorem withMarks (h : Shows r s m f p) (m' : Marks) : Shows r s m' { f with marks := m' } p :=
  { h with marks := rfl }

/-- What is still to be written is no part of what is shown. -/
theorem comments (h : Shows r s m f p) (cs : List Segment) :
    Shows r s m f { p with comments := cs } :=
  { h with }

theorem chunks_perform (f : Formatter) (e : Writer.Effect) :
    (f.perform e).chunks.toList.flatMap String.toList =
      f.chunks.toList.flatMap String.toList ++ e.chunks.flatMap String.toList := by
  simp [Formatter.perform]

theorem newLine (h : Shows r s m f p) : Shows r s m f.lineBreak p.newLine := by
  have hs := h.started
  cases he : p.strokes.isEmpty with
  -- an empty page drops the line break, and so does the writer, which has written nothing
  | true =>
    rw [he] at hs
    have hg : p.newLine = { p with breakPending := false } := by
      rw [Page.newLine, he]
      rfl
    have ha : p.atLineStart = true := by rw [Page.atLineStart, he, Bool.true_or]
    have hw : f.writer.lineBreak f.indent.text =
        ⟨[], { f.writer with atLineStart := true }, { f.writer with atLineStart := true }⟩ := by
      rw [Writer.lineBreak, if_neg (by simp [hs])]
    rw [hg, Formatter.lineBreak, hw]
    exact { h with
      breakPending := rfl
      atLineStart := ha.symm
      chunks := by simpa [Formatter.perform] using h.chunks }
  -- any other page widens its gap; the writer puts the line feed out at once and keeps the
  -- indentation for the next text
  | false =>
    rw [he] at hs
    have hg : p.newLine = { p with gap := p.gap.broken p.depth, breakPending := false } := by
      rw [Page.newLine, he]
      rfl
    have hw : f.writer.lineBreak f.indent.text =
        ⟨["\n"], { f.writer with pending := some f.indent.text, atLineStart := true },
          { f.writer with atLineStart := true }⟩ := by
      rw [Writer.lineBreak, if_pos (by simp [hs])]
    rw [hg, Formatter.lineBreak, hw]
    exact { h with
      breakPending := rfl
      atLineStart := by simp [Page.atLineStart, Formatter.perform]
      pending := by simp [Formatter.perform, text_eq_ofList, h.depth, h.width]
      gap_ne_space := Separator.broken_ne_space _ _
      chunks := by
        rw [chunks_perform, h.chunks, Separator.lineEnds_broken, List.append_assoc]
        rfl }

theorem settle (h : Shows r s m f p) : Shows r s m f.settleBreak p.settle := by
  rw [Formatter.settleBreak, Page.settle, h.breakPending]
  split
  · exact h.newLine
  · exact h

theorem previous_write (p : Page) (gap : Separator) (c : Segment) :
    (p.write gap c).previous = String.ofList c.text := by
  simp [Page.previous, Page.write]

theorem atLineStart_write (p : Page) (gap : Separator) (c : Segment) :
    (p.write gap c).atLineStart = false := by
  simp [Page.atLineStart, Page.write, Separator.isLines]

/-- A text is written after the separator that was begun. -/
theorem writeText (h : Shows r s m f p) {c : Segment} (hc : c.text ≠ []) :
    Shows r s m (f.writeText (String.ofList c.text)) (p.write p.gap c) := by
  have hw : f.writer.write (String.ofList c.text) =
      ⟨f.writer.pending.toList ++ [String.ofList c.text], ⟨none, false, true⟩,
        { f.writer with pending := none }⟩ := by
    rw [Writer.write, if_neg (by simpa using hc)]
  rw [Formatter.writeText, hw]
  exact { h with
    previous := (previous_write ..).symm
    started := by simp [Page.write, Formatter.perform]
    atLineStart := (atLineStart_write ..).symm
    pending := rfl
    gap_ne_space := Separator.noConfusion
    chunks := by
      rw [chunks_perform, h.chunks, h.pending, Page.write, inked_append, List.append_assoc,
        inked_cons, Separator.text_eq_lineEnds _ h.gap_ne_space]
      cases p.gap.owed r.indentWidth <;> simp [Separator.lineEnds] }

/-- A text is written after a space. -/
theorem writeSpace_writeText (h : Shows r s m f p) {c : Segment} (hc : c.text ≠ [])
    (ha : p.atLineStart = false) :
    Shows r s m ((f.perform (f.writer.write " ")).writeText (String.ofList c.text))
      (p.write .space c) := by
  have hg : p.gap = .nothing := by
    have hl := (Bool.or_eq_false_iff.1 ha).2
    match hp : p.gap with
    | .nothing => rfl
    | .space => exact absurd hp h.gap_ne_space
    | .lines .. => rw [hp] at hl; exact absurd hl (by simp [Separator.isLines])
  have hn : f.writer.pending = none := by rw [h.pending, hg]; rfl
  have hsp : f.writer.write " " =
      ⟨[" "], ⟨none, false, true⟩, { f.writer with pending := none }⟩ := by
    rw [Writer.write, if_neg (by decide), hn]
    rfl
  have hw : (⟨none, false, true⟩ : Writer).write (String.ofList c.text) =
      ⟨[String.ofList c.text], ⟨none, false, true⟩, ⟨none, false, true⟩⟩ := by
    rw [Writer.write, if_neg (by simpa using hc)]
    rfl
  rw [hsp, Formatter.writeText, Formatter.perform.eq_1 f]
  dsimp only
  rw [hw]
  exact { h with
    previous := (previous_write ..).symm
    started := by simp [Page.write, Formatter.perform]
    atLineStart := (atLineStart_write ..).symm
    pending := rfl
    gap_ne_space := Separator.noConfusion
    chunks := by
      simp only [Formatter.perform, Array.toList_appendList, List.flatMap_append, h.chunks, hg,
        Page.write, inked_append, inked_cons]
      simp [Separator.text, Separator.lineEnds] }

theorem emit (h : Shows r s m f p) {c : Segment} (hc : c.text ≠ []) :
    Shows r s m (f.emit (String.ofList c.text)) (p.emit r c) := by
  have hb := h.settle
  have hd : f.settleBreak.drops (String.ofList c.text) = p.settle.drops c := by
    rw [Formatter.drops, Page.drops, hb.frames, hb.atLineStart, String.toList_ofList]
  rw [Formatter.emit, Page.emit, hd]
  split
  · exact hb
  · rw [Formatter.writeSpace, Page.gapBefore, hb.rules, hb.previous, hb.frames, hb.atLineStart]
    split
    · rename_i hn
      refine hb.writeSpace_writeText hc ?_
      by_contra ha
      simp [Rules.needsSpace, ha] at hn
    · exact hb.writeText hc

/-! ### Comments -/

theorem beforeComment (h : Shows r s m f p) (category : Category) :
    Shows r s m (if f.breaksBeforeComment category then f.lineBreak else f)
      (p.beforeComment category) := by
  rw [Formatter.breaksBeforeComment, Page.beforeComment, h.breakPending]
  split
  · exact h.newLine
  · exact h

theorem afterComment (h : Shows r s m f p) (category : Category) (c : Segment) :
    Shows r s m (f.endComment category (String.ofList c.text)) (p.afterComment category c) := by
  rw [Formatter.endComment, Page.afterComment, String.toList_ofList]
  split
  · exact h.newLine
  · split
    · exact { h with breakPending := rfl }
    · exact h

theorem writeComment (h : Shows r s m f p) (category : Category) {t : Token}
    (ht : t.comment.text ≠ []) :
    Shows r s m (f.writeComment category t) (p.writeComment category t.comment) := by
  have hb := (h.note (.comment t.index category)).beforeComment category
  exact (hb.writeText ht).afterComment category t.comment

theorem writeComments (h : Shows r s m f p) (category : Category) {given : List Token × Marks}
    (hc : p.comments = given.1.map Token.comment) (hn : ∀ c ∈ p.comments, c.text ≠ []) :
    Shows r s given.2 (f.writeComments category given) (p.flush category) := by
  rw [Formatter.writeComments, Page.flush]
  rw [hc] at hn ⊢
  have hm := (h.withMarks given.2).comments []
  generalize hq : { p with comments := ([] : List Segment) } = q at hm ⊢
  generalize hg : { f with marks := given.2 } = g at hm ⊢
  generalize given.1 = ts at hn ⊢
  generalize given.2 = m' at hm ⊢
  clear hq hg hc h
  induction ts generalizing g q with
  | nil => exact hm
  | cons t ts ih =>
    simp only [List.map_cons, List.forall_mem_cons] at hn
    exact ih _ _ hn.2 (hm.writeComment category hn.1)

/-! ### Events -/

theorem runOp (h : Shows r s m f p) {c : Segment} (hc : c.text ≠ []) (op : LayoutOp) :
    Shows r s m (f.runOp (String.ofList c.text) op) (p.runOp r c op) := by
  cases op with
  | newLine => exact h.newLine
  | indent => exact { h with depth := congrArg (· + 1) h.depth }
  | dedent =>
    exact { h.noteAll f.indent.decrementNotices with depth := congrArg (· - 1) h.depth }
  | emit => exact h.emit hc

theorem runOps (h : Shows r s m f p) {c : Segment} (hc : c.text ≠ []) (ops : List LayoutOp) :
    Shows r s m (ops.foldl (Formatter.runOp (String.ofList c.text)) f)
      (ops.foldl (Page.runOp r c) p) := by
  induction ops generalizing f p with
  | nil => exact h
  | cons op ops ih => exact ih (h.runOp hc op)

/-- A leaf is laid out on the page as the formatter lays it out, if the comments of the page are
those that are given out before it. -/
theorem leaf (h : Shows r s m f p) {t : Token} (ht : t.segment.text ≠ [])
    (hc : p.comments = (m.flushBefore r s t.index).1.map Token.comment)
    (hn : ∀ c ∈ p.comments, c.text ≠ []) (following : List Segment) :
    Shows r s (m.flushBefore r s t.index).2 (f.leaf t) (p.leaf r t.segment following) := by
  have hw := h.writeComments f.frames.active hc hn
  have htext : String.ofList t.segment.text = t.text := String.ofList_toList
  have hf : Shows r s (m.flushBefore r s t.index).2
      { f.writeComments f.frames.active (m.flushBefore r s t.index) with
        frames := (f.writeComments f.frames.active (m.flushBefore r s t.index)).frames.after
          t.kind }
      { p.flush f.frames.active with frames := (p.flush f.frames.active).frames.after t.kind } :=
    { hw with frames := congrArg (Frames.after · t.kind) hw.frames }
  have ho := (hf.runOps ht ((p.flush f.frames.active).frames.plan t.kind t.text)).note
    (.laidOut f.frames.active t.text)
  rw [htext] at ho
  rw [Formatter.leaf, Page.leaf, ← h.frames, htext, h.marks, h.rules, h.stream, hw.frames]
  rw [hw.frames] at ho
  exact ho.comments following

theorem commentsBefore (h : Shows r s m f p) (category : Category) {span : Option Span}
    (hc : ∀ sp ∈ span, p.comments = (m.flushLeft r s sp).1.map Token.comment)
    (hn : ∀ c ∈ p.comments, c.text ≠ []) :
    Shows r s (span.elim m fun sp ↦ (m.flushLeft r s sp).2) (f.commentsBefore category span)
      (p.flushAt category span.isSome) := by
  cases span with
  | none => exact h
  | some sp =>
    have hw := h.writeComments category (hc sp rfl) hn
    rwa [← h.marks, ← h.rules, ← h.stream] at hw ⊢

theorem commentsAfter (h : Shows r s m f p) (category : Category) {span : Option Span}
    (hc : ∀ sp ∈ span, p.comments = (m.flushRight r s sp).1.map Token.comment)
    (hn : ∀ c ∈ p.comments, c.text ≠ []) :
    Shows r s (span.elim m fun sp ↦ (m.flushRight r s sp).2) (f.commentsAfter category span)
      (p.flushAt category span.isSome) := by
  cases span with
  | none => exact h
  | some sp =>
    have hw := h.writeComments category (hc sp rfl) hn
    rwa [← h.marks, ← h.rules, ← h.stream] at hw ⊢

theorem reportRecovered (h : Shows r s m f p) (kind : NodeKind) (span : Option Span) :
    Shows r s m (f.reportRecovered kind span) p := by
  rw [Formatter.reportRecovered]
  split
  · exact { h with }
  · exact h

theorem pushFrame (h : Shows r s m f p) (category : Category) :
    Shows r s m (f.pushFrame category) (p.pushFrame category) := by
  have hp : Shows r s m { f with frames := f.frames.push category f.indent.depth }
      { p with frames := p.frames.push category p.depth } :=
    { h with frames := by rw [h.frames, h.depth] }
  rw [Formatter.pushFrame, Page.pushFrame]
  cases category.entry with
  | block => exact hp.newLine
  | inline => exact hp
  | inherit => exact h

theorem popFrame (h : Shows r s m f p) (category : Category) :
    Shows r s m (f.popFrame category) (p.popFrame category) := by
  rw [Formatter.popFrame, Page.popFrame, h.frames]
  split
  · cases hp : p.frames with
    | nil => exact h
    | cons frame rest =>
      exact { h.noteAll (f.indent.restoreNotices frame.savedIndent) with
        depth := rfl, frames := rfl }
  · exact h

/-- The comments before a node are written on the page as the formatter writes them, if they are
those that are given out before it. -/
theorem approach (h : Shows r s m f p) (kind : NodeKind) {span : Option Span}
    (hc : ∀ sp ∈ span, p.comments = (m.flushLeft r s sp).1.map Token.comment)
    (hn : ∀ c ∈ p.comments, c.text ≠ []) :
    Shows r s (span.elim m fun sp ↦ (m.flushLeft r s sp).2) (f.approach kind span)
      (p.flushAt kind.category span.isSome) :=
  ((h.note _).commentsBefore kind.category hc hn).reportRecovered kind span

/-- A node is left on the page as the formatter leaves it, if the comments of the page are those
that are given out after it. -/
theorem leave (h : Shows r s m f p) (kind : NodeKind) {span : Option Span}
    (hc : ∀ sp ∈ span, p.comments = (m.flushRight r s sp).1.map Token.comment)
    (hn : ∀ c ∈ p.comments, c.text ≠ []) :
    Shows r s (span.elim m fun sp ↦ (m.flushRight r s sp).2) (f.leave kind span)
      (p.leave kind span.isSome) :=
  ((h.commentsAfter kind.category hc hn).popFrame _).note _

/-- **The text that is put out** is the text of the page. -/
theorem toList_rendered (h : Shows r s m f p) :
    f.formatted.rendered.toList = p.text r.indentWidth := by
  have hf : f.writer.finish.flatMap String.toList = if p.atLineStart then [] else ['\n'] := by
    rw [Writer.finish, h.started, h.atLineStart, Page.atLineStart]
    cases p.strokes.isEmpty <;> cases p.gap.isLines <;> rfl
  rw [Formatter.formatted, String.toList_join, Formatter.output, List.flatMap_append, h.chunks, hf,
    Page.text, List.append_assoc]

end Shows

end GrammarLayout
