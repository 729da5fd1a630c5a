import GrammarLayout.Layout.Rules
import GrammarLayout.Token.Stream
import GrammarLayout.Tree.Basic

/-!
# Comments around nodes and leaves

Finds the comments that have to be written around a node or before a leaf. Runs of hidden tokens are
asked for more than once: the run after one node is mostly also the run before the next, and nodes
that start together ask for the same run. Three marks see to it that no comment is given out twice:
the last node start and node end that were served, and the last comment that was given out.
-/

namespace GrammarLayout

/-- What has been given out so far. -/
structure Marks where
  /-- The largest node start whose run before it was served. -/
  left : Option Nat := none
  /-- The largest node end whose run after it was served. -/
  right : Option Nat := none
  /-- The last comment given out. -/
  emitted : Option Nat := none
  deriving DecidableEq, Repr

namespace Marks

/-- Whether a position lies past a mark. -/
def isPast (i : Nat) : Option Nat → Bool
  | none => true
  | some mark => mark < i

/-- The comments of a run that were not given out yet. -/
def select (r : Rules) (m : Marks) (run : List Token) : List Token :=
  run.filter fun t => isPast t.index m.emitted && r.isComment t.text

/-- Gives out the comments of a run. -/
def take (r : Rules) (m : Marks) (run : List Token) : List Token × Marks :=
  let comments := m.select r run
  (comments, { m with emitted := (comments.getLast?.map (·.index)).or m.emitted })

/-- The comments before a node, unless a node that starts there or later was served. -/
def flushLeft (r : Rules) (s : Stream) (span : Span) (m : Marks) : List Token × Marks :=
  if isPast span.first m.left then
    take r { m with left := some span.first } (s.hiddenBefore span.first)
  else ([], m)

/-- The comments after a node, unless a node that ends there or later was served. -/
def flushRight (r : Rules) (s : Stream) (span : Span) (m : Marks) : List Token × Marks :=
  if isPast span.last m.right then
    take r { m with right := some span.last } (s.hiddenAfter span.last)
  else ([], m)

/-- The comments just before a position. -/
def flushBefore (r : Rules) (s : Stream) (i : Nat) (m : Marks) : List Token × Marks :=
  take r m (s.hiddenBefore i)

end Marks

end GrammarLayout
