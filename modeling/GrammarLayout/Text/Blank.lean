/-!
# Blank characters and trimming

A character is *blank* when it has the Unicode property `White_Space`. Comments are trimmed at
their end before they are written, and an action piece made of blanks only may be dropped after a
line break, so both operations are stated here once, over lists of characters.
-/

namespace GrammarLayout

/-- The twenty-five characters with the Unicode property `White_Space`. -/
def isBlank (c : Char) : Bool :=
  let n := c.toNat
  (0x09 ≤ n && n ≤ 0x0D) || n == 0x20 || n == 0x85 || n == 0xA0 || n == 0x1680 ||
    (0x2000 ≤ n && n ≤ 0x200A) || n == 0x2028 || n == 0x2029 || n == 0x202F || n == 0x205F ||
    n == 0x3000

/-- A text made of blanks only, the empty text included. -/
def allBlank (cs : List Char) : Bool := cs.all isBlank

/-- A text without the blanks at its start. -/
def trimStart (cs : List Char) : List Char := cs.dropWhile isBlank

/-- A text without the blanks at its end. -/
def trimEnd (cs : List Char) : List Char := (cs.reverse.dropWhile isBlank).reverse

/-- A text without the blanks at either end. -/
def trim (cs : List Char) : List Char := trimEnd (trimStart cs)

/-- Trimming the end of a string. -/
def trimStringEnd (s : String) : String := String.ofList (trimEnd s.toList)

end GrammarLayout
