import GrammarLayout.Token.Basic
import GrammarLayout.Tree.Basic

/-!
# Patterns over tokens

The productions of grammars are written down as patterns: data that says which tokens come in which
order and which of them form a node. A pattern is read with ordered choice. The first alternative
that fits is taken, repetition takes as much as it can, and neither gives anything back later.

Sub-rules in parentheses nest without bound. A pattern does not contain itself, so such a sub-rule
is only named in it (`Pattern.nested`), and whoever reads the pattern supplies the reader for it.

Reading and finding the furthest failure are two functions on purpose: what a pattern accepts does
not depend on where it failed on the way, and only a failed reading asks for the latter.
-/

namespace GrammarLayout

/-- The two sub-rules in parentheses that productions refer to by name. -/
inductive Nest
  /-- Alternatives of a parser rule. -/
  | parserBlock
  /-- Alternatives of a lexer rule. -/
  | lexerBlock
  deriving DecidableEq, Repr

/-- What a production says about tokens. -/
inductive Pattern
  /-- One token of one of these kinds. -/
  | token (kinds : List Kind)
  /-- One token that a recovered region may hold. -/
  | stray
  /-- The semicolon that ends a recovered region. -/
  | strayEnd
  /-- One pattern after the other. -/
  | seq (p q : Pattern)
  /-- The first pattern if it fits, else the second. -/
  | alt (p q : Pattern)
  /-- The pattern if it fits, else nothing. -/
  | opt (p : Pattern)
  /-- The pattern as often as it fits. -/
  | many (p : Pattern)
  /-- The pattern, with what it matched folded into a node. -/
  | node (kind : NodeKind) (p : Pattern)
  /-- A sub-rule in parentheses. -/
  | nested (nest : Nest)
  deriving DecidableEq, Repr

namespace Pattern

/-- One token of this kind. -/
abbrev tok (kind : Kind) : Pattern := token [kind]

/-- The pattern once, and then as often as it fits. -/
abbrev many1 (p : Pattern) : Pattern := seq p (many p)

/-- Patterns one after the other. -/
def seqs (p : Pattern) : List Pattern → Pattern
  | [] => p
  | q :: qs => seq p (seqs q qs)

/-- The first of the patterns that fits. -/
def alts (p : Pattern) : List Pattern → Pattern
  | [] => p
  | q :: qs => alt p (alts q qs)

end Pattern

/-! ### Reading -/

/-- What reading gives: the trees matched and the tokens left, or nothing. -/
abbrev Reading := Option (List Tree × List Token)

/-- Reads trees off the front of a list of tokens. -/
abbrev Reader := List Token → Reading

/-- Whether the tokens start with a complete mode header. -/
def opensMode : List Token → Bool
  | a :: b :: c :: _ =>
    a.kind == .kwMode && (b.kind == .ruleRef || b.kind == .tokenRef) && c.kind == .semi
  | _ => false

/-- Whether the first token may be taken into a recovered region: semicolons and the end of the
input end the region, and a complete mode header starts a mode. -/
def isStray : List Token → Bool
  | [] => false
  | t :: ts => t.kind != .semi && t.kind != .eof && !opensMode (t :: ts)

/-- Reads as often as it succeeds, at most `limit` times. -/
def readMany (read : Reader) : (limit : Nat) → List Token → List Tree × List Token
  | 0, ts => ([], ts)
  | n + 1, ts =>
    match read ts with
    | none => ([], ts)
    | some (trees, rest) =>
      let more := readMany read n rest
      (trees ++ more.1, more.2)

namespace Pattern

/-- Reads a pattern. Repetitions stop after `limit` rounds, and `sub` reads the sub-rules in
parentheses. -/
def read (limit : Nat) (sub : Nest → Reader) : Pattern → Reader
  | token kinds => fun
    | [] => none
    | t :: ts => if kinds.contains t.kind then some ([.leaf t.index], ts) else none
  | stray => fun
    | [] => none
    | t :: ts => if isStray (t :: ts) then some ([.stray t.index], ts) else none
  | strayEnd => fun
    | [] => none
    | t :: ts => if t.kind == .semi then some ([.stray t.index], ts) else none
  | seq p q => fun ts =>
    match read limit sub p ts with
    | none => none
    | some (trees, rest) => (read limit sub q rest).map fun r => (trees ++ r.1, r.2)
  | alt p q => fun ts =>
    match read limit sub p ts with
    | none => read limit sub q ts
    | some r => some r
  | opt p => fun ts => some ((read limit sub p ts).getD ([], ts))
  | many p => fun ts => some (readMany (read limit sub p) limit ts)
  | node kind p => fun ts =>
    (read limit sub p ts).map fun r => ([Tree.ofChildren kind r.1], r.2)
  | nested nest => sub nest

end Pattern

/-! ### The furthest failure -/

/-- The place of a failure: the tokens that were left there, if anything failed. -/
abbrev Failure := Option (List Token)

/-- The failure with fewer tokens left. -/
def Failure.further (a b : Failure) : Failure :=
  match a, b with
  | none, b => b
  | a, none => a
  | some a, some b => if b.length < a.length then some b else some a

/-- The furthest failure of reading as often as it succeeds. -/
def furthestMany (read : Reader) (far : List Token → Failure) : (limit : Nat) → List Token → Failure
  | 0, _ => none
  | n + 1, ts =>
    match read ts with
    | none => far ts
    | some (_, rest) => Failure.further (far ts) (furthestMany read far n rest)

namespace Pattern

/-- The furthest failure of any attempt made while a pattern is read. Arguments are as for
`Pattern.read`, and `far` gives the furthest failure of the sub-rules in parentheses. -/
def furthest (limit : Nat) (sub : Nest → Reader) (far : Nest → List Token → Failure) :
    Pattern → List Token → Failure
  | token kinds => fun ts => if (read limit sub (token kinds) ts).isSome then none else some ts
  | stray => fun ts => if (read limit sub stray ts).isSome then none else some ts
  | strayEnd => fun ts => if (read limit sub strayEnd ts).isSome then none else some ts
  | seq p q => fun ts =>
    match read limit sub p ts with
    | none => furthest limit sub far p ts
    | some (_, rest) =>
      Failure.further (furthest limit sub far p ts) (furthest limit sub far q rest)
  | alt p q => fun ts =>
    match read limit sub p ts with
    | none => Failure.further (furthest limit sub far p ts) (furthest limit sub far q ts)
    | some _ => furthest limit sub far p ts
  | opt p => furthest limit sub far p
  | many p => furthestMany (read limit sub p) (furthest limit sub far p) limit
  | node _ p => furthest limit sub far p
  | nested nest => far nest

end Pattern

end GrammarLayout
