import GrammarLayout.Settings.Value
import GrammarLayout.Text.Decimal

/-!
# Written paths

The address of a setting as it is written: names between dots, with positions in brackets after
them. A name is made of letters, digits, spaces, underscores and hyphens.
-/

namespace GrammarLayout.Setting.Path

/-- What is wrong with a written path. -/
inductive Fault
  /-- It does not start with a name. -/
  | noName
  /-- A dot with a name or a bracket was expected. -/
  | noStep
  /-- A position has no digits. -/
  | noDigits
  /-- A position is too large. -/
  | tooLarge
  deriving DecidableEq, Repr

/-- The wording of a fault. -/
def Fault.message : Fault → String
  | noName => "IsA"
  | noStep => "Char"
  | noDigits => "Digit"
  | tooLarge => "Map on Result"

/-- The characters of names. -/
def isNameChar (c : Char) : Bool := c.isAlphanum || c == ' ' || c == '_' || c == '-'

/-- The blanks allowed around a position. -/
def isGap (c : Char) : Bool := c == ' ' || c == '\t'

/-- The position after an opening bracket, and what follows its closing bracket. -/
def position (cs : List Char) : Except Fault (Int × List Char) :=
  let cs := cs.dropWhile isGap
  let (negative, cs) := match cs with
    | '-' :: rest => (true, rest)
    | _ => (false, cs)
  let digits := cs.takeWhile Char.isDigit
  let n := decimalValue digits
  if digits.isEmpty then .error .noDigits
  else if (if negative then 9223372036854775808 else 9223372036854775807) < n then .error .tooLarge
  else
    match (cs.dropWhile Char.isDigit).dropWhile isGap with
    | ']' :: rest => .ok (if negative then -(n : Int) else n, rest)
    | _ => .error .noStep

/-- The steps of a path after its first name, at most `limit` of them. -/
def readSteps : (limit : Nat) → List Char → Except Fault (List Step)
  | _, [] => .ok []
  | 0, _ => .error .noStep
  | limit + 1, '[' :: cs =>
    match position cs with
    | .error e => .error e
    | .ok (i, rest) => (readSteps limit rest).map (.item i :: ·)
  | limit + 1, '.' :: cs =>
    let name := cs.takeWhile isNameChar
    if name.isEmpty then .error .noStep
    else (readSteps limit (cs.dropWhile isNameChar)).map (.child (String.ofList name) :: ·)
  | _ + 1, _ => .error .noStep

/-- The path that a text writes. -/
def ofString (s : String) : Except Fault Path :=
  let cs := s.toList
  let name := cs.takeWhile isNameChar
  if name.isEmpty then .error .noName
  else (readSteps cs.length (cs.dropWhile isNameChar)).map fun steps =>
    { top := String.ofList name, steps }

end GrammarLayout.Setting.Path
