import GrammarLayout.Diagnostic
import GrammarLayout.Grammar.Production
import GrammarLayout.Token.Stream

/-!
# Reading a grammar

The main tokens of a stream are read as a grammar. Sub-rules in parentheses are read to a depth of
as many levels as there are tokens, and repetitions for as many rounds: every level takes a
parenthesis and every round takes a token, so neither bound is ever met.

Reading fails only where the header is broken or the end of the input is missing, and is then
reported once, at the furthest place any attempt came to.
-/

namespace GrammarLayout

namespace Nest

/-- Reads a sub-rule in parentheses that nests to at most `depth` levels. -/
def read (limit : Nat) : (depth : Nat) → Nest → Reader
  | 0, _ => fun _ => none
  | depth + 1, nest => (Production.ofNest nest).read limit (read limit depth)

/-- The furthest failure of reading a sub-rule in parentheses. -/
def furthest (limit : Nat) : (depth : Nat) → Nest → List Token → Failure
  | 0, _ => some
  | depth + 1, nest =>
    (Production.ofNest nest).furthest limit (read limit depth) (furthest limit depth)

end Nest

/-- Reads a pattern, with bounds that suit the number of tokens. -/
def Pattern.parse (p : Pattern) (ts : List Token) : Reading :=
  p.read ts.length (Nest.read ts.length ts.length) ts

/-- The furthest failure of reading a pattern. -/
def Pattern.furthestFailure (p : Pattern) (ts : List Token) : Failure :=
  p.furthest ts.length (Nest.read ts.length ts.length) (Nest.furthest ts.length ts.length) ts

/-- Reads all of the given tokens as a grammar. -/
def readGrammar (ts : List Token) : Except Failure Tree :=
  match Production.grammarSpec.parse ts with
  | some ([tree], []) => .ok tree
  | some (_, rest) => .error ((Production.grammarSpec.furthestFailure ts).further (some rest))
  | none => .error (Production.grammarSpec.furthestFailure ts)

/-- The report about a failure: the token it happened at, or the end of the input on the line of the
stream's last token. -/
def Stream.diagnose (s : Stream) : Failure → Diagnostic
  | some (t :: _) => ⟨t.line, if t.isEof then .unexpectedEnd else .unexpectedToken t.text⟩
  | _ => ⟨s.lastLine, .unexpectedEnd⟩

/-- Reads the main tokens of a stream as a grammar. -/
def parse (s : Stream) : Except Diagnostic Tree :=
  match readGrammar s.mainTokens with
  | .ok tree => .ok tree
  | .error failure => .error (s.diagnose failure)

end GrammarLayout
