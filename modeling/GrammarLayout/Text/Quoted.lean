import GrammarLayout.Text.SpelledOut

/-!
# Quoted texts

The written form of a text inside double quotes, as outlines and log lines show it: a quote and a
backslash are escaped, tab, line feed, carriage return and NUL have names, and a character that
could not be seen standing alone is written by its code point in braces.
-/

namespace GrammarLayout

/-- The written form of one character: escaped, named, spelled out by its code point in lower-case
hexadecimal, or itself. -/
def quotedChar (c : Char) : List Char :=
  if c = '"' then ['\\', '"']
  else if c = '\\' then ['\\', '\\']
  else if c = '\t' then ['\\', 't']
  else if c = '\n' then ['\\', 'n']
  else if c = '\r' then ['\\', 'r']
  else if c = '\x00' then ['\\', '0']
  else if isSpelledOut c then ['\\', 'u', '\x7b'] ++ Nat.toDigits 16 c.toNat ++ ['\x7d']
  else [c]

/-- A text in double quotes. -/
def quoted (s : String) : String :=
  String.ofList ('"' :: (s.toList.flatMap quotedChar ++ ['"']))

end GrammarLayout
