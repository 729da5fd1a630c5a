/-!
# Diagnostics

What is reported about a grammar, with the line it concerns. A part that cannot be read does not
stop the layout: it is kept and reported. Only a broken header does, and is reported by the token at
which reading could not go on.
-/

namespace GrammarLayout

/-- Why something is reported. -/
inductive Cause
  /-- Reading stopped at a token with this text. -/
  | unexpectedToken (text : String)
  /-- Reading stopped at the end of the input. -/
  | unexpectedEnd
  /-- A part of the grammar could not be read and was kept as it is. -/
  | keptVerbatim
  deriving DecidableEq, Repr

/-- The wording of a cause. -/
def Cause.message : Cause → String
  | unexpectedToken text => s!"unexpected `{text}`"
  | unexpectedEnd => "unexpected end of input"
  | keptVerbatim => "could not parse this part of the grammar; kept verbatim"

/-- A report about a line of a grammar. -/
structure Diagnostic where
  /-- The line, counted from one; zero where no line is known. -/
  line : Nat
  /-- What is reported. -/
  cause : Cause
  deriving DecidableEq, Repr

namespace Diagnostic

/-- The wording of a diagnostic without its line. -/
def message (d : Diagnostic) : String := d.cause.message

/-- A diagnostic as one line of text. -/
def text (d : Diagnostic) : String := s!"line {d.line}: {d.message}"

end Diagnostic

end GrammarLayout
