import GrammarLayout.Diagnostic
import GrammarLayout.Layout.Comments
import GrammarLayout.Layout.Frame
import GrammarLayout.Layout.Indent
import GrammarLayout.Layout.Writer
import GrammarLayout.Tree.Event

/-!
# The formatter

Laying a tree out is a fold over the events of its walk. For every event the comments that belong
before it are written first. Then entering a node pushes a frame for a construct with layout rules
of its own, on a new line if it is a block; a leaf runs the plan of the frame on top; and leaving a
node writes the comments after it and pops its frame, with the indentation the frame started at.

A line comment would swallow whatever followed it on its line. Where no break is written right after
it, one is left pending, and the next text or break settles it.
-/

namespace GrammarLayout

/-- A layout in progress. -/
structure Formatter where
  /-- The rules in force. -/
  rules : Rules
  /-- The tokens laid out. -/
  stream : Stream
  /-- Where the writer stands. -/
  writer : Writer := {}
  /-- The current indentation. -/
  indent : Indent := { width := rules.indentWidth }
  /-- The constructs entered and not left. -/
  frames : Frames := []
  /-- Which comments have been written. -/
  marks : Marks := {}
  /-- The text written last. -/
  previous : String := ""
  /-- Whether the next text has to start a new line. -/
  breakPending : Bool := false
  /-- The chunks written so far. -/
  chunks : Array String := #[]
  /-- What was reported so far. -/
  diagnostics : Array Diagnostic := #[]
  /-- What was told so far. -/
  notices : Array Notice := #[]

namespace Formatter

/-! ### Writing -/

/-- Carries out a call of the writer. -/
def perform (f : Formatter) (e : Writer.Effect) : Formatter :=
  { f with writer := e.taken, chunks := f.chunks ++ e.chunks }

/-- Tells a step. -/
def note (f : Formatter) (n : Notice) : Formatter := { f with notices := f.notices.push n }

/-- Tells some steps. -/
def noteAll (f : Formatter) (ns : List Notice) : Formatter :=
  { f with notices := f.notices ++ ns }

/-- A new line at the current depth, which settles a pending break. -/
def lineBreak (f : Formatter) : Formatter :=
  { f.perform (f.writer.lineBreak f.indent.text) with breakPending := false }

/-- A new line if one is pending. -/
def settleBreak (f : Formatter) : Formatter := if f.breakPending then f.lineBreak else f

/-- Writes a text as it is. -/
def writeText (f : Formatter) (text : String) : Formatter :=
  { f.perform (f.writer.write text) with previous := text }

/-- Writes a space if one is due before a text. -/
def writeSpace (f : Formatter) (text : String) : Formatter :=
  if f.rules.needsSpace f.previous text f.frames.active f.writer.atLineStart then
    f.perform (f.writer.write " ")
  else f

/-- Whether a text is dropped: blanks of an action at the start of a line are. -/
def drops (f : Formatter) (text : String) : Bool :=
  f.frames.active == .actionBlock && f.writer.atLineStart && allBlank text.toList

/-- Writes the text of a leaf. -/
def emit (f : Formatter) (text : String) : Formatter :=
  let f := f.settleBreak
  if f.drops text then f else (f.writeSpace text).writeText text

/-! ### Comments -/

/-- Whether a comment starts a new line: it does inside every construct, and before the first rule
only after a line comment. -/
def breaksBeforeComment (f : Formatter) (category : Category) : Bool :=
  category != .grammarSpec || f.breakPending

/-- Settles the line after a comment: in the header a break is written at once, and elsewhere one
is left pending after a line comment. -/
def endComment (f : Formatter) (category : Category) (text : String) : Formatter :=
  if category == .grammarSpec || category == .grammarType then f.lineBreak
  else if Rules.startsWith "//" text.toList then { f with breakPending := true }
  else f

/-- Writes a comment that belongs to a construct of the given category, without the blanks at its
end. -/
def writeComment (category : Category) (f : Formatter) (comment : Token) : Formatter :=
  let text := trimStringEnd comment.text
  let f := f.note (.comment comment.index category)
  let f := if f.breaksBeforeComment category then f.lineBreak else f
  (f.writeText text).endComment category text

/-- Writes the comments that were given out, and remembers that they were. -/
def writeComments (f : Formatter) (category : Category) (given : List Token × Marks) : Formatter :=
  given.1.foldl (writeComment category) { f with marks := given.2 }

/-! ### Events -/

/-- Runs one step of a plan for a leaf with the given text. -/
def runOp (text : String) (f : Formatter) : LayoutOp → Formatter
  | .newLine => f.lineBreak
  | .indent => { f with indent := f.indent.increment }
  | .dedent => { f.noteAll f.indent.decrementNotices with indent := f.indent.decrement }
  | .emit => f.emit text

/-- Lays out a leaf. -/
def leaf (f : Formatter) (t : Token) : Formatter :=
  let category := f.frames.active
  let f := f.writeComments category (f.marks.flushBefore f.rules f.stream t.index)
  let ops := f.frames.plan t.kind t.text
  let f := { f with frames := f.frames.after t.kind }
  (ops.foldl (runOp t.text) f).note (.laidOut category t.text)

/-- Reports a recovered region. -/
def reportRecovered (f : Formatter) (kind : NodeKind) (span : Option Span) : Formatter :=
  if kind = .recovered then
    let line := ((span.bind fun s => f.stream.get? s.start).map (·.line)).getD 0
    { f.note (.unreadable line) with diagnostics := f.diagnostics.push ⟨line, .keptVerbatim⟩ }
  else f

/-- Pushes the frame of a construct, if it has one. -/
def pushFrame (f : Formatter) (category : Category) : Formatter :=
  let pushed := { f with frames := f.frames.push category f.indent.depth }
  match category.entry with
  | .block => pushed.lineBreak
  | .inline => pushed
  | .inherit => f

/-- Pops the frame of a construct, if it has one, and goes back to the depth it started at. -/
def popFrame (f : Formatter) (category : Category) : Formatter :=
  if category.ownsFrame then
    match f.frames with
    | [] => f
    | frame :: rest =>
      { f.noteAll (f.indent.restoreNotices frame.savedIndent) with
        frames := rest, indent := f.indent.restore frame.savedIndent }
  else f

/-- Writes the comments before a node. -/
def commentsBefore (f : Formatter) (category : Category) (span : Option Span) : Formatter :=
  match span with
  | none => f
  | some span => f.writeComments category (f.marks.flushLeft f.rules f.stream span)

/-- Writes the comments after a node. -/
def commentsAfter (f : Formatter) (category : Category) (span : Option Span) : Formatter :=
  match span with
  | none => f
  | some span => f.writeComments category (f.marks.flushRight f.rules f.stream span)

/-- Enters a node. -/
def enter (f : Formatter) (kind : NodeKind) (span : Option Span) : Formatter :=
  let f := (f.note (.entered kind)).commentsBefore kind.category span
  (f.reportRecovered kind span).pushFrame kind.category

/-- Leaves a node. -/
def leave (f : Formatter) (kind : NodeKind) (span : Option Span) : Formatter :=
  ((f.commentsAfter kind.category span).popFrame kind.category).note (.left kind)

/-- Lays out one event of a walk. -/
def step (f : Formatter) : Event → Formatter
  | .enter kind span => f.enter kind span
  | .leave kind span => f.leave kind span
  | .token t => f.leaf t
  | .stray t => (f.note (.strayToken t.text)).leaf t

/-- Lays out events one after the other. -/
def run (f : Formatter) (events : List Event) : Formatter := events.foldl step f

/-! ### Results -/

/-- Lays out a tree over a stream. -/
def ofTree (rules : Rules) (stream : Stream) (tree : Tree) : Formatter :=
  run { rules, stream } (tree.events stream)

/-- All chunks, with the one that ends the last line. -/
def output (f : Formatter) : List String := f.chunks.toList ++ f.writer.finish

/-- All notices, with the warning if the layout did not end at depth zero. -/
def allNotices (f : Formatter) : List Notice :=
  f.notices.toList ++ if f.indent.depth = 0 then [] else [.endedAt f.indent.depth]

end Formatter

end GrammarLayout
