/-!
# Lines of a text

A line ends after a line feed, a carriage return, or the two together, and keeps what ended it. Only
the last line of a text may lack an end.
-/

namespace GrammarLayout.Diff

/-- Puts a character in front of the first line. -/
def pushFront (c : Char) : List (List Char) → List (List Char)
  | [] => [[c]]
  | line :: lines => (c :: line) :: lines

/-- The lines of a text, each with what ended it. -/
def splitLines : List Char → List (List Char)
  | [] => []
  | '\r' :: '\n' :: cs => ['\r', '\n'] :: splitLines cs
  | '\r' :: cs => ['\r'] :: splitLines cs
  | '\n' :: cs => ['\n'] :: splitLines cs
  | c :: cs => pushFront c (splitLines cs)

/-- The lines of a string. -/
def lines (s : String) : Array String := ((splitLines s.toList).map String.ofList).toArray

/-- Whether a line lacks an end. -/
def lacksEnd (line : String) : Bool :=
  match line.toList.getLast? with
  | some c => c != '\n' && c != '\r'
  | none => true

end GrammarLayout.Diff
