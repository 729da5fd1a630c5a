import GrammarLayout.Token.Basic

/-!
# Token streams

A stream keeps every token, hidden ones included, in source order. A token's index is its position,
which `Stream.ofTokens` establishes and the type remembers: comments are compared by index all
through the layout, so the order of the stream must be readable off the tokens themselves.

The reader of the grammar takes the main channel. The layout goes back to the stream to find the
run of hidden tokens next to a position.
-/

namespace GrammarLayout

/-- Tokens in source order, each numbered with its position. -/
structure Stream where
  /-- The tokens. -/
  tokens : Array Token
  /-- Every token carries its own position. -/
  index_eq : ∀ (i : Nat) (h : i < tokens.size), tokens[i].index = i

namespace Stream

/-- The stream of the given tokens, renumbered by position. -/
def ofTokens (tokens : Array Token) : Stream where
  tokens := tokens.mapIdx fun i t => { t with index := i }
  index_eq := by intro i h; simp

/-- The number of tokens. -/
def size (s : Stream) : Nat := s.tokens.size

/-- Whether there is no token. -/
def isEmpty (s : Stream) : Bool := s.tokens.isEmpty

/-- The token at a position, if there is one. -/
def get? (s : Stream) (i : Nat) : Option Token := s.tokens[i]?

/-- The tokens as a list. -/
def toList (s : Stream) : List Token := s.tokens.toList

/-- The tokens the reader of the grammar sees, in order. -/
def mainTokens (s : Stream) : List Token := s.toList.filter (!·.isHidden)

/-- The line of the last token, or the first line if there is no token. -/
def lastLine (s : Stream) : Nat := (s.tokens.back?.map (·.line)).getD 1

/-- The hidden tokens that end just before position `n`, put in front of `run`. -/
def hiddenBack (s : Stream) : (n : Nat) → (run : List Token) → List Token
  | 0, run => run
  | n + 1, run =>
    match s.get? n with
    | some t => if t.isHidden then hiddenBack s n (t :: run) else run
    | none => run

/-- The contiguous run of hidden tokens that ends just before position `i`. A position past the end
stands for the end. -/
def hiddenBefore (s : Stream) (i : Nat) : List Token := s.hiddenBack (min i s.size) []

/-- The contiguous run of hidden tokens that starts at position `i`, looking at `n` tokens. -/
def hiddenOn (s : Stream) : (n : Nat) → (i : Nat) → List Token
  | 0, _ => []
  | n + 1, i =>
    match s.get? i with
    | some t => if t.isHidden then t :: hiddenOn s n (i + 1) else []
    | none => []

/-- The contiguous run of hidden tokens that starts just after position `i`. -/
def hiddenAfter (s : Stream) (i : Nat) : List Token := s.hiddenOn (s.size - (i + 1)) (i + 1)

end Stream

end GrammarLayout
