/-!
# JSON texts

Values written as JSON over several lines: two spaces for each level, one member or item a line, and
nothing between the brackets of an empty list.
-/

namespace GrammarLayout

/-- A value that is written as JSON. -/
inductive JsonValue
  | number (n : Nat)
  | bool (b : Bool)
  | text (s : String)
  | list (items : List JsonValue)
  | object (members : List (String × JsonValue))

namespace JsonValue

/-- A character inside a JSON string: quotes and backslashes are escaped, the common controls have
names, and the others are written by their code points. -/
def escapedChar (c : Char) : List Char :=
  if c = '"' then ['\\', '"']
  else if c = '\\' then ['\\', '\\']
  else if c = '\n' then ['\\', 'n']
  else if c = '\r' then ['\\', 'r']
  else if c = '\t' then ['\\', 't']
  else if c = '\x08' then ['\\', 'b']
  else if c = '\x0c' then ['\\', 'f']
  else if c.toNat < 0x20 then
    ['\\', 'u', '0', '0', if c.toNat < 0x10 then '0' else '1', Nat.digitChar (c.toNat % 16)]
  else [c]

/-- A text as a JSON string. -/
def stringText (s : String) : String :=
  String.ofList ('"' :: (s.toList.flatMap escapedChar ++ ['"']))

/-- The start of a line at a level. -/
def lineStart (level : Nat) : String := "\n" ++ String.ofList (List.replicate (2 * level) ' ')

/-- Written parts between brackets, each on a line at a level. -/
def bracketed (opening closing : String) (level : Nat) (parts : List String) : String :=
  if parts.isEmpty then opening ++ closing
  else
    let lines := parts.map (lineStart (level + 1) ++ ·)
    opening ++ String.intercalate "," lines ++ lineStart level ++ closing

mutual

/-- A value as text at a level. -/
def textAt (level : Nat) : JsonValue → String
  | number n => toString n
  | bool b => toString b
  | text s => stringText s
  | list items => bracketed "[" "]" level (itemTexts (level + 1) items)
  | object members => bracketed "\x7b" "\x7d" level (memberTexts (level + 1) members)

/-- The items of a list as texts. -/
def itemTexts (level : Nat) : List JsonValue → List String
  | [] => []
  | v :: vs => textAt level v :: itemTexts level vs

/-- The members of an object as texts. -/
def memberTexts (level : Nat) : List (String × JsonValue) → List String
  | [] => []
  | (name, v) :: ms => (stringText name ++ ": " ++ textAt level v) :: memberTexts level ms

end

/-- A value as text. -/
def pretty (v : JsonValue) : String := v.textAt 0

end JsonValue

end GrammarLayout
