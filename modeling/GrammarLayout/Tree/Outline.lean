import GrammarLayout.Text.Quoted
import GrammarLayout.Token.Stream
import GrammarLayout.Tree.Basic

/-!
# Outlines

A tree as an indented outline, one node or leaf a line. Leaves show the text of their token in
quotes, or a question mark where the stream has no such token, and stray ones are marked.
-/

namespace GrammarLayout

/-- A line of an outline at some depth. -/
def outlineLine (depth : Nat) (content : String) : String :=
  "".pushn ' ' (2 * depth) ++ content ++ "\n"

/-- The text of a leaf in an outline. -/
def outlineText (s : Stream) (i : Nat) : String :=
  quoted (((s.get? i).map (·.text)).getD "?")

mutual

/-- The outline of a tree that stands at some depth. -/
def Tree.outlineFrom (s : Stream) (depth : Nat) : Tree → List String
  | .leaf i => [outlineLine depth (outlineText s i)]
  | .stray i => [outlineLine depth ("!" ++ outlineText s i)]
  | .node kind _ children =>
    outlineLine depth kind.name :: Tree.outlineAll s (depth + 1) children

/-- The outlines of trees that stand at the same depth. -/
def Tree.outlineAll (s : Stream) (depth : Nat) : List Tree → List String
  | [] => []
  | t :: ts => t.outlineFrom s depth ++ Tree.outlineAll s depth ts

end

/-- The outline of a tree. -/
def Tree.outline (s : Stream) (t : Tree) : String := String.join (t.outlineFrom s 0)

end GrammarLayout
