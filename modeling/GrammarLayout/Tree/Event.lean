import GrammarLayout.Token.Stream
import GrammarLayout.Tree.Basic

/-!
# Events of a walk

Walking a tree in source order reports a node before and after its children and every leaf in
between. A leaf whose position is not in the stream is passed over. The walk is a list of events, so
whatever is done along it is a fold over that list.
-/

namespace GrammarLayout

/-- One event of a walk. -/
inductive Event
  /-- A node is entered. -/
  | enter (kind : NodeKind) (span : Option Span)
  /-- A node is left. -/
  | leave (kind : NodeKind) (span : Option Span)
  /-- A token a production placed. -/
  | token (token : Token)
  /-- A token inside a recovered region. -/
  | stray (token : Token)
  deriving DecidableEq, Repr

mutual

/-- The events of walking a tree over a stream. -/
def Tree.events (s : Stream) : Tree → List Event
  | .leaf i => (s.get? i).toList.map .token
  | .stray i => (s.get? i).toList.map .stray
  | .node kind span children =>
    .enter kind span :: (Tree.eventsAll s children ++ [.leave kind span])

/-- The events of walking trees one after the other. -/
def Tree.eventsAll (s : Stream) : List Tree → List Event
  | [] => []
  | t :: ts => t.events s ++ Tree.eventsAll s ts

end

end GrammarLayout
