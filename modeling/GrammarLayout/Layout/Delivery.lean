import GrammarLayout.Layout.Formatter
import GrammarLayout.Layout.Sink

/-!
# Laying out into a sink

The formatter at work on a sink. It does what `Formatter` says, but every chunk goes to the sink at
once, and the sink may refuse: then nothing more is written, the rest of the walk is not taken, and
the fault is what the whole run ends with. What the sink took before that stays in it.
-/

namespace GrammarLayout

/-- Work on a sink, which stops at the first fault. -/
abbrev Delivery (α : Type) := ExceptT Fault (StateM Sink) α

namespace Formatter

/-! ### Writing -/

/-- Carries out a call of the writer on the sink. -/
def performTo (f : Formatter) (e : Writer.Effect) : Delivery Formatter := fun sink =>
  match sink.perform e with
  | (writer, sink, none) => (.ok { f with writer, chunks := f.chunks ++ e.chunks }, sink)
  | (_, sink, some fault) => (.error fault, sink)

/-- A new line at the current depth, which settles a pending break. -/
def lineBreakTo (f : Formatter) : Delivery Formatter :=
  performTo { f with breakPending := false } (f.writer.lineBreak f.indent.text)

/-- A new line if one is pending. -/
def settleBreakTo (f : Formatter) : Delivery Formatter :=
  if f.breakPending then f.lineBreakTo else pure f

/-- Writes a text as it is. -/
def writeTextTo (f : Formatter) (text : String) : Delivery Formatter := do
  let f ← f.performTo (f.writer.write text)
  return { f with previous := text }

/-- Writes a space if one is due before a text. -/
def writeSpaceTo (f : Formatter) (text : String) : Delivery Formatter :=
  if f.rules.needsSpace f.previous text f.frames.active f.writer.atLineStart then
    f.performTo (f.writer.write " ")
  else pure f

/-- Writes the text of a leaf. -/
def emitTo (f : Formatter) (text : String) : Delivery Formatter := do
  let f ← f.settleBreakTo
  if f.drops text then return f
  let f ← f.writeSpaceTo text
  f.writeTextTo text

/-! ### Comments -/

/-- Settles the line after a comment. -/
def endCommentTo (f : Formatter) (category : Category) (text : String) : Delivery Formatter :=
  if category == .grammarSpec || category == .grammarType then f.lineBreakTo
  else if Rules.startsWith "//" text.toList then pure { f with breakPending := true }
  else pure f

/-- Writes a comment that belongs to a construct of the given category. -/
def writeCommentTo (category : Category) (f : Formatter) (comment : Token) :
    Delivery Formatter := do
  let text := trimStringEnd comment.text
  let f := f.note (.comment comment.index category)
  let f ← (if f.breaksBeforeComment category then f.lineBreakTo else pure f)
  let f ← f.writeTextTo text
  f.endCommentTo category text

/-- Writes the comments that were given out, and remembers that they were. -/
def writeCommentsTo (f : Formatter) (category : Category) (given : List Token × Marks) :
    Delivery Formatter :=
  given.1.foldlM (writeCommentTo category) { f with marks := given.2 }

/-! ### Events -/

/-- Runs one step of a plan for a leaf with the given text. -/
def runOpTo (text : String) (f : Formatter) : LayoutOp → Delivery Formatter
  | .newLine => f.lineBreakTo
  | .indent => pure (f.runOp text .indent)
  | .dedent => pure (f.runOp text .dedent)
  | .emit => f.emitTo text

/-- Lays out a leaf. -/
def leafTo (f : Formatter) (t : Token) : Delivery Formatter := do
  let category := f.frames.active
  let f ← f.writeCommentsTo category (f.marks.flushBefore f.rules f.stream t.index)
  let ops := f.frames.plan t.kind t.text
  let f ← ops.foldlM (runOpTo t.text) { f with frames := f.frames.after t.kind }
  return f.note (.laidOut category t.text)

/-- Pushes the frame of a construct, if it has one. -/
def pushFrameTo (f : Formatter) (category : Category) : Delivery Formatter :=
  let pushed := { f with frames := f.frames.push category f.indent.depth }
  match category.entry with
  | .block => pushed.lineBreakTo
  | .inline => pure pushed
  | .inherit => pure f

/-- Writes the comments before a node. -/
def commentsBeforeTo (f : Formatter) (category : Category) (span : Option Span) :
    Delivery Formatter :=
  match span with
  | none => pure f
  | some span => f.writeCommentsTo category (f.marks.flushLeft f.rules f.stream span)

/-- Writes the comments after a node. -/
def commentsAfterTo (f : Formatter) (category : Category) (span : Option Span) :
    Delivery Formatter :=
  match span with
  | none => pure f
  | some span => f.writeCommentsTo category (f.marks.flushRight f.rules f.stream span)

/-- Enters a node. -/
def enterTo (f : Formatter) (kind : NodeKind) (span : Option Span) : Delivery Formatter := do
  let f ← (f.note (.entered kind)).commentsBeforeTo kind.category span
  (f.reportRecovered kind span).pushFrameTo kind.category

/-- Leaves a node. -/
def leaveTo (f : Formatter) (kind : NodeKind) (span : Option Span) : Delivery Formatter := do
  let f ← f.commentsAfterTo kind.category span
  return (f.popFrame kind.category).note (.left kind)

/-- Lays out one event of a walk. -/
def stepTo (f : Formatter) : Event → Delivery Formatter
  | .enter kind span => f.enterTo kind span
  | .leave kind span => f.leaveTo kind span
  | .token t => f.leafTo t
  | .stray t => (f.note (.strayToken t.text)).leafTo t

/-- Lays out events one after the other. -/
def runTo (f : Formatter) (events : List Event) : Delivery Formatter := events.foldlM stepTo f

/-! ### Results -/

/-- Ends the last line and flushes the sink. -/
def finishTo (f : Formatter) : Delivery Formatter := fun sink =>
  match sink.deliver f.writer.finish with
  | (sink, none) => (.ok f, sink)
  | (sink, some fault) => (.error fault, sink)

/-- Lays out a tree over a stream. -/
def ofTreeTo (rules : Rules) (stream : Stream) (tree : Tree) : Delivery Formatter := do
  let f ← runTo { rules, stream } (tree.events stream)
  f.finishTo

end Formatter

end GrammarLayout
