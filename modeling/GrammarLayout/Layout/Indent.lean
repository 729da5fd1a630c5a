import GrammarLayout.Layout.Notice

/-!
# Indentation

A single depth, written as that many levels of spaces. The depth never drops below zero, and a depth
saved earlier can be put back; both tell when they had to correct something.
-/

namespace GrammarLayout

/-- The current depth of indentation. -/
structure Indent where
  /-- Spaces per level. -/
  width : Nat
  /-- The number of levels. -/
  depth : Nat := 0
  deriving DecidableEq, Repr

namespace Indent

/-- One level deeper. -/
def increment (i : Indent) : Indent := { i with depth := i.depth + 1 }

/-- One level less deep, or as deep as before at depth zero. -/
def decrement (i : Indent) : Indent := { i with depth := i.depth - 1 }

/-- What going one level less deep has to tell. -/
def decrementNotices (i : Indent) : List Notice := if i.depth = 0 then [.belowZero] else []

/-- Back to a depth saved earlier. -/
def restore (i : Indent) (saved : Nat) : Indent := { i with depth := saved }

/-- What going back to a saved depth has to tell. -/
def restoreNotices (i : Indent) (saved : Nat) : List Notice :=
  if i.depth = saved then [] else [.drifted saved i.depth]

/-- The indentation as text. -/
def text (i : Indent) : String := "".pushn ' ' (i.depth * i.width)

end Indent

end GrammarLayout
