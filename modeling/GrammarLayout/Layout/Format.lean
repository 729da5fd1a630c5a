import GrammarLayout.Grammar.Parse
import GrammarLayout.Layout.Delivery
import GrammarLayout.Token.Tokenize

/-!
# Formatting a source

From a source to its layout: tokens, tree, chunks. The chunks are joined into a text, or go to a
sink one by one; in both cases a source whose header cannot be read yields no output at all.
-/

namespace GrammarLayout

/-- Why a source could not be formatted. -/
inductive FormatError
  /-- The sink failed, or the source could not be had. -/
  | outside (fault : Fault)
  /-- The header of the grammar could not be read. -/
  | unreadable (diagnostic : Diagnostic)
  deriving DecidableEq, Repr

namespace FormatError

/-- The wording of an error. -/
def message : FormatError → String
  | outside fault => s!"Failed to write output: {fault.message}"
  | unreadable d => s!"Failed to parse grammar\n  {d.text}"

/-- What is reported with an error. -/
def diagnostics : FormatError → List Diagnostic
  | outside _ => []
  | unreadable d => [d]

end FormatError

/-- The layout of a source. -/
structure Formatted where
  /-- The text of the layout. -/
  rendered : String
  /-- What is reported about the source. -/
  diagnostics : List Diagnostic
  /-- What the layout tells about its work. -/
  notices : List Notice
  deriving DecidableEq, Repr

/-- The finished layout of a source, or why its header cannot be read. -/
def layoutSource (rules : Rules) (source : String) : Except Diagnostic Formatter :=
  let stream := tokenize source
  match parse stream with
  | .ok tree => .ok (Formatter.ofTree rules stream tree)
  | .error d => .error d

/-- What a finished layout amounts to. -/
def Formatter.formatted (f : Formatter) : Formatted where
  rendered := String.join f.output
  diagnostics := f.diagnostics.toList
  notices := f.allNotices

/-- Formats a source. -/
def format (rules : Rules) (source : String) : Except FormatError Formatted :=
  match layoutSource rules source with
  | .ok f => .ok f.formatted
  | .error d => .error (.unreadable d)

/-- Formats a source into a sink: gives the sink afterwards, and what was reported or why the
formatting failed. -/
def formatTo (rules : Rules) (source : String) (sink : Sink) :
    Sink × Except FormatError (List Diagnostic) :=
  let stream := tokenize source
  match parse stream with
  | .error d => (sink, .error (.unreadable d))
  | .ok tree =>
    match Formatter.ofTreeTo rules stream tree sink with
    | (.ok f, sink) => (sink, .ok f.diagnostics.toList)
    | (.error fault, sink) => (sink, .error (.outside fault))

end GrammarLayout
