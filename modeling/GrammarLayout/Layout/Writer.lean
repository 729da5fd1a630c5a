/-!
# The writer

Turns texts and line breaks into chunks for a sink. The indentation owed after a line break is
written only before the next text, so lines that stay empty carry no spaces, and a break before the
first text is dropped, so no output starts with an empty line.

What a call does is a value: the chunks it hands over, and the writer afterwards, which depends on
whether the sink takes them all. The layout itself assumes that it does; delivering the chunks to a
sink that may refuse is a separate matter.
-/

namespace GrammarLayout

/-- Where the writer stands. -/
structure Writer where
  /-- The indentation owed before the next text. -/
  pending : Option String := none
  /-- Whether nothing was written since the last break. -/
  atLineStart : Bool := true
  /-- Whether any text was written at all. -/
  started : Bool := false
  deriving DecidableEq, Repr

namespace Writer

/-- What one call does. -/
structure Effect where
  /-- The chunks handed over, in order. -/
  chunks : List String
  /-- The writer once all of them are taken. -/
  taken : Writer
  /-- The writer if one of them is refused. -/
  refused : Writer
  deriving DecidableEq, Repr

/-- Writes a text, after the indentation owed. The empty text does nothing. A refusal forfeits the
indentation owed. -/
def write (w : Writer) (text : String) : Effect :=
  if text.isEmpty then { chunks := [], taken := w, refused := w }
  else
    { chunks := w.pending.toList ++ [text]
      taken := { pending := none, atLineStart := false, started := true }
      refused := { w with pending := none } }

/-- Ends the line; `indent` is owed before the next text. -/
def lineBreak (w : Writer) (indent : String) : Effect :=
  if w.started then
    { chunks := ["\n"]
      taken := { w with pending := some indent, atLineStart := true }
      refused := { w with atLineStart := true } }
  else
    let w := { w with atLineStart := true }
    { chunks := [], taken := w, refused := w }

/-- The chunk that ends the last line, if it was not ended yet. -/
def finish (w : Writer) : List String :=
  if w.started && !w.atLineStart then ["\n"] else []

end Writer

end GrammarLayout
