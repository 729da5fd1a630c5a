import GrammarLayout.Text.Blank
import GrammarLayout.Text.Utf8
import GrammarLayout.Token.Segment
import GrammarLayout.Token.Stream

/-!
# Tokens of a source

`tokenize` gives every segment of a source its place: the bytes before it and the line feeds before
it, read off the segments themselves. The stream ends with a marker that covers no bytes.

Two reductions of a source say what its layout may not change: the texts of the main tokens, where
blanks inside actions do not count, and the texts of the comments, where blanks at the end do not
count.
-/

namespace GrammarLayout

/-- The text of the end marker. -/
def eofText : String := "<EOF>"

/-- Tokens for segments that start at byte `offset` on line `line`, with the end marker. Positions
in the stream are left to the stream. -/
def placeSegments (offset line : Nat) : List Segment → List Token
  | [] => [{ kind := .eof, text := eofText, index := 0, start := offset, stop := offset, line }]
  | s :: ss =>
    let stop := offset + byteLength s.text
    { kind := s.kind, text := String.ofList s.text, index := 0, start := offset, stop, line } ::
      placeSegments stop (line + s.text.count '\n') ss

/-- The token stream of a source. -/
def tokenize (source : String) : Stream :=
  Stream.ofTokens (placeSegments 0 1 (Segment.ofChars none source.toList)).toArray

/-- Whether a token is a piece of an action made of blanks only. -/
def Token.isActionBlank (t : Token) : Bool := t.kind == .actionContent && allBlank t.text.toList

/-- Whether a token is a comment of any kind. -/
def Token.isAnyComment (t : Token) : Bool :=
  t.kind == .blockComment || t.kind == .lineComment || t.kind == .docComment

/-- The texts of the main tokens of a source, without the end marker and without blanks inside
actions. -/
def significantTexts (source : String) : List String :=
  ((tokenize source).mainTokens.filter fun t => !t.isEof && !t.isActionBlank).map (·.text)

/-- The texts of all comments of a source, without blanks at their end. -/
def commentTexts (source : String) : List String :=
  ((tokenize source).toList.filter (·.isAnyComment)).map fun t => trimStringEnd t.text

end GrammarLayout
