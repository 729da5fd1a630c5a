import GrammarLayout.Tree.Kind

/-!
# Trees

The tree of a grammar refers to tokens by their position in the stream and never copies their text.
A node remembers the first and the last position it covers. The span is part of the node, not a
function of its leaves, because a tree may also be put together by hand; `Tree.ofChildren` is how
the reader of grammars builds nodes, and reads the span off the children.
-/

namespace GrammarLayout

/-- The first and the last position a node covers. -/
structure Span where
  /-- The first position. -/
  start : Nat
  /-- The last position. -/
  stop : Nat
  deriving DecidableEq, Repr

namespace Span

/-- The smaller of the two positions. -/
def first (s : Span) : Nat := min s.start s.stop

/-- The larger of the two positions. -/
def last (s : Span) : Nat := max s.start s.stop

end Span

/-- The tree of a grammar over the positions of its tokens. -/
inductive Tree
  /-- A token a production placed. -/
  | leaf (index : Nat)
  /-- A token inside a recovered region. -/
  | stray (index : Nat)
  /-- A node with its span, which is absent if it covers no token. -/
  | node (kind : NodeKind) (span : Option Span) (children : List Tree)
  deriving Repr

/-- A node by itself. -/
structure Node where
  /-- The production it was read by. -/
  kind : NodeKind
  /-- What it covers. -/
  span : Option Span
  /-- Its children, in source order. -/
  children : List Tree
  deriving Repr

namespace Node

/-- The category whose layout rules apply inside the node. -/
def category (n : Node) : Category := n.kind.category

end Node

namespace Tree

/-- The first position a tree covers, by its span if it is a node. -/
def firstIndex? : Tree → Option Nat
  | leaf i | stray i => some i
  | node _ span _ => span.map (·.start)

/-- The last position a tree covers, by its span if it is a node. -/
def lastIndex? : Tree → Option Nat
  | leaf i | stray i => some i
  | node _ span _ => span.map (·.stop)

/-- The span of a list of trees: from the first position any of them covers to the last one. -/
def spanOf? (children : List Tree) : Option Span :=
  match children.findSome? firstIndex?, children.reverse.findSome? lastIndex? with
  | some start, some stop => some ⟨start, stop⟩
  | _, _ => none

/-- The node of the given kind over the given children. -/
def ofChildren (kind : NodeKind) (children : List Tree) : Tree :=
  node kind (spanOf? children) children

/-- The kind of a tree, unless it is a leaf. -/
def kind? : Tree → Option NodeKind
  | node kind _ _ => some kind
  | _ => none

mutual

/-- The leaves of a tree from left to right, stray ones included. -/
def leaves : Tree → List Nat
  | leaf i => [i]
  | stray i => [i]
  | node _ _ children => leavesAll children

/-- The leaves of a list of trees from left to right. -/
def leavesAll : List Tree → List Nat
  | [] => []
  | t :: ts => t.leaves ++ leavesAll ts

end

mutual

/-- The nodes of a tree, each before the nodes below it. -/
def nodes : Tree → List Node
  | leaf _ => []
  | stray _ => []
  | node kind span children => ⟨kind, span, children⟩ :: nodesAll children

/-- The nodes of a list of trees, from left to right. -/
def nodesAll : List Tree → List Node
  | [] => []
  | t :: ts => t.nodes ++ nodesAll ts

end

/-- The nodes of one kind, each before those below it. -/
def findAll (kind : NodeKind) (t : Tree) : List Node := t.nodes.filter (·.kind == kind)

end Tree

end GrammarLayout
