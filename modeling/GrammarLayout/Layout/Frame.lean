import GrammarLayout.Token.Kind
import GrammarLayout.Tree.Kind

/-!
# Frames and plans

Layout depends on the innermost construct with rules of its own. Each such construct has a frame on
a stack, and for every leaf the frame on top plans what is done around it. A plan is a table look-up
on the category of the frame and the kind of the leaf; the only thing a frame counts is the
parentheses open in it, because a bar inside parentheses separates no alternatives of the rule.
-/

namespace GrammarLayout

/-- One step of laying out a leaf. -/
inductive LayoutOp
  /-- A new line at the current depth. -/
  | newLine
  /-- One level deeper. -/
  | indent
  /-- One level less deep. -/
  | dedent
  /-- The token itself, with a space before it where one is due. -/
  | emit
  deriving DecidableEq, Repr

/-- The name of a step. -/
def LayoutOp.name : LayoutOp → String
  | newLine => "Break"
  | indent => "Indent"
  | dedent => "Dedent"
  | emit => "Emit"

/-- A construct with layout rules of its own that has been entered and not left. -/
structure Frame where
  /-- The category of the construct. -/
  category : Category
  /-- The depth of indentation when it was entered. -/
  savedIndent : Nat
  /-- Parentheses opened and not closed in it. -/
  parenDepth : Nat := 0
  deriving DecidableEq, Repr

namespace Frame

open LayoutOp

/-- The parentheses open after a leaf. Alternatives count them, and a rule forgets them at each of
its own leaves. -/
def parenDepthAfter (f : Frame) (kind : Kind) : Nat :=
  if kind = .eof then f.parenDepth
  else
    match f.category with
    | .labeledAlternative =>
      if kind = .lparen then f.parenDepth + 1
      else if kind = .rparen then f.parenDepth - 1
      else f.parenDepth
    | .ruleSpec | .lexerRuleSpec => 0
    | _ => f.parenDepth

/-- The frame after a leaf. -/
def after (f : Frame) (kind : Kind) : Frame := { f with parenDepth := f.parenDepthAfter kind }

/-- What is done around a leaf. The end marker is not written at all. -/
def plan (f : Frame) (kind : Kind) (text : String) : List LayoutOp :=
  if kind = .eof then []
  else
    match f.category with
    | .optionsSpec | .modeSpec | .tokensSpec | .channelsSpec =>
      match kind with
      | .lbrace => [indent, newLine, emit]
      | .rbrace => [emit, dedent, newLine]
      | _ => [emit]
    | .labeledAlternative =>
      match kind with
      | .semi => [newLine, emit, dedent, newLine]
      | .bar => if f.parenDepth = 0 then [newLine, emit] else [emit]
      | _ => [emit]
    | .ruleSpec | .lexerRuleSpec =>
      match kind with
      | .colon => [indent, newLine, emit]
      | .semi => [newLine, emit, dedent, newLine]
      | .docComment => [emit, newLine]
      | .bar => if f.category = .ruleSpec then [newLine, emit] else [emit]
      | _ => [emit]
    | .grammarSpec =>
      match kind with
      | .semi | .docComment => [emit, newLine]
      | _ => [emit]
    | .actionBlock =>
      if kind = .docComment || text == ";" || text == "@" then [emit, newLine] else [emit]
    | .grammarType | .other => [emit]

end Frame

/-- The frames of the constructs that have been entered and not left, innermost first. -/
abbrev Frames := List Frame

namespace Frames

/-- The category whose rules apply. -/
def active (fs : Frames) : Category := (fs.head?.map (·.category)).getD .other

/-- Enters a construct. -/
def push (fs : Frames) (category : Category) (indent : Nat) : Frames :=
  { category, savedIndent := indent } :: fs

/-- What is done around a leaf. Outside all constructs it is just written. -/
def plan (fs : Frames) (kind : Kind) (text : String) : List LayoutOp :=
  match fs with
  | [] => [.emit]
  | f :: _ => f.plan kind text

/-- The frames after a leaf. -/
def after (fs : Frames) (kind : Kind) : Frames :=
  match fs with
  | [] => []
  | f :: rest => f.after kind :: rest

end Frames

end GrammarLayout
