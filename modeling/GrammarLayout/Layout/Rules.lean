import GrammarLayout.Text.Blank
import GrammarLayout.Tree.Kind

/-!
# Layout rules

The rules a layout is made by: how wide a level of indentation is, which texts stand without a
space before or after them, and how a hidden token is known to be a comment.

Only comments are written; whitespace is not. So rules are usable only if every comment of a source
is recognised as one and no whitespace is, which `Rules.check` decides from the openers alone.
-/

namespace GrammarLayout

/-- The rules of a layout. -/
structure Rules where
  /-- Spaces per level of indentation. -/
  indentWidth : Nat
  /-- Texts that no space precedes. -/
  noSpaceBefore : List String
  /-- Texts that no space follows. -/
  noSpaceAfter : List String
  /-- How the text of a comment may start. -/
  commentOpeners : List String
  deriving DecidableEq, Repr

namespace Rules

/-- The rules used unless others are given. -/
def standard : Rules where
  indentWidth := 3
  noSpaceBefore := ["?", "*", ";", ")"]
  noSpaceAfter := ["("]
  commentOpeners := ["/*", "//"]

instance : Inhabited Rules := ⟨standard⟩

/-- Whether a text starts with an opener. -/
def startsWith (opener : String) (text : List Char) : Bool := opener.toList.isPrefixOf text

/-- Whether the text of a hidden token is that of a comment: without the blanks around it, it is
not empty and starts with one of the openers. -/
def isComment (r : Rules) (text : String) : Bool :=
  let text := trim text.toList
  !text.isEmpty && r.commentOpeners.any (startsWith · text)

/-- Whether a space goes between the text written last and the next one. There is none at the start
of a line and none inside actions. -/
def needsSpace (r : Rules) (previous next : String) (category : Category) (atLineStart : Bool) :
    Bool :=
  if atLineStart || category == .actionBlock then false
  else !(r.noSpaceAfter.contains previous || r.noSpaceBefore.contains next)

/-! ### Usable rules -/

/-- Why rules are not usable. -/
inductive Fault
  /-- An empty opener would take whitespace for a comment. -/
  | emptyOpener
  /-- Comments that start like this would be dropped. -/
  | uncovered (start : String)
  deriving DecidableEq, Repr

/-- The wording of a fault. -/
def Fault.message : Fault → String
  | emptyOpener => "formatting.comment_openers must not contain an empty opener"
  | uncovered start => s!"formatting.comment_openers must cover `{start}` comments"

/-- How hidden comments start in a source. -/
def commentStarts : List String := ["//", "/*"]

/-- Whether some opener recognises every comment that starts like this. -/
def covers (r : Rules) (start : String) : Bool :=
  r.commentOpeners.any (startsWith · start.toList)

/-- The first thing that keeps the rules from being usable, if any. -/
def check (r : Rules) : Option Fault :=
  if r.commentOpeners.contains "" then some .emptyOpener
  else (commentStarts.find? (!r.covers ·)).map .uncovered

end Rules

end GrammarLayout
