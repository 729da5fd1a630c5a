import GrammarLayout.Token.Kind

/-!
# Tokens

A token is a piece of a source with its place: its position in the stream, the bytes it covers and
the line it starts on.
-/

namespace GrammarLayout

/-- One token of a grammar source. -/
structure Token where
  /-- What the token is. -/
  kind : Kind
  /-- The characters of the source it covers. -/
  text : String
  /-- Its position in the stream, hidden tokens counted. -/
  index : Nat
  /-- The byte at which it starts. -/
  start : Nat
  /-- The byte just after it. -/
  stop : Nat
  /-- The line of its first character, counted from one. -/
  line : Nat
  deriving DecidableEq, Repr

namespace Token

/-- The channel of a token is that of its kind. -/
def channel (t : Token) : Channel := t.kind.channel

/-- Whether the token is hidden from the reader of the grammar. -/
def isHidden (t : Token) : Bool := t.kind.isHidden

/-- Whether the token marks the end of the input. -/
def isEof (t : Token) : Bool := t.kind == .eof

/-- A token made outside a source: it covers no bytes, and its stream will number it. -/
def synthetic (kind : Kind) (text : String) (line : Nat) : Token :=
  { kind, text, index := 0, start := 0, stop := 0, line }

end Token

end GrammarLayout
