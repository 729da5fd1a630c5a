import GrammarLayout.Fault
import GrammarLayout.Layout.Rules
import GrammarLayout.Settings.Path
import GrammarLayout.Text.Decimal
import GrammarLayout.Text.Quoted

/-!
# Rules from settings

The rules of a layout as the table of settings they are kept in, both ways. Settings are read
generously: a width may be given as a truth value, as a number with a fraction or as a text, and
the items of a list of texts may be numbers or truth values.

A fault names what was found and what was expected. Where the value itself could not be read, it
also names the key and the file the value came from.
-/

namespace GrammarLayout

/-- What a setting is, as far as faults tell it. -/
inductive Shape
  | unit
  | boolean (b : Bool)
  | integer (n : Int)
  /-- A number with a fraction, by its text. -/
  | number (digits : String)
  | text (s : String)
  | sequence
  | map
  deriving DecidableEq, Repr

/-- The wording of a shape. -/
def Shape.describe : Shape → String
  | unit => "unit value"
  | boolean b => s!"boolean `{b}`"
  | integer n => s!"integer `{n}`"
  | number digits => s!"floating point `{digits}`"
  | text s => s!"string {quoted s}"
  | sequence => "sequence"
  | map => "map"

/-- A number with a fraction as faults tell it: a finite one always has a point. -/
def pointedText (x : Float) : String :=
  let text := floatText x
  if x.isNaN || x.isInf || text.contains '.' then text else text ++ ".0"

/-- The shape of a setting. -/
def Setting.shape : Setting → Shape
  | .scalar _ .null => .unit
  | .scalar _ (.bool b) => .boolean b
  | .scalar _ (.int n) => .integer n
  | .scalar _ (.float x) => .number (pointedText x)
  | .scalar _ (.text s) => .text s
  | .list .. => .sequence
  | .table .. => .map

/-- What a setting was expected to be. -/
inductive Expected
  | integer
  | text
  | sequence
  | rules
  deriving DecidableEq, Repr

/-- The wording of what was expected. -/
def Expected.describe : Expected → String
  | integer => "an integer"
  | text => "a string"
  | sequence => "a sequence"
  | rules => "struct FormattingRules"

/-- Why settings give no rules. -/
inductive SettingsFault
  /-- A path to a setting is malformed. -/
  | malformedPath (fault : Setting.Path.Fault)
  /-- A file is missing. -/
  | missingFile (path : String)
  /-- A file is there, but no text can be read from it. -/
  | unreadableFile (fault : Fault)
  /-- The text of a file is malformed. -/
  | malformedFile (origin : String)
  /-- A width is negative. -/
  | negative (n : Int) (key : String) (origin : Option String)
  /-- A value cannot be read as what was expected. -/
  | unreadable (found : Shape) (expected : Expected) (key : String) (origin : Option String)
  /-- A setting is of the wrong kind. -/
  | unfit (found : Shape) (expected : Expected)
  /-- A rule is not set. -/
  | missing (name : String)
  /-- A list has too few items to be read as rules. -/
  | tooShort (length : Nat)
  /-- The rules are not usable. -/
  | unusable (fault : Rules.Fault)
  deriving DecidableEq, Repr

namespace SettingsFault

/-- Where a value was found. -/
def place (key : String) : Option String → String
  | none => s!"for key `{key}`"
  | some origin => s!"for key `{key}` in {origin}"

/-- The wording of a fault. -/
def message : SettingsFault → String
  | malformedPath fault => fault.message
  | missingFile path => s!"configuration file \"{path}\" not found"
  | unreadableFile fault => fault.message
  | malformedFile origin => s!"TOML parse error in {origin}"
  | negative n key origin =>
    s!"invalid type: 64-bit integer `{n}`, expected an unsigned 64 bit or less integer " ++
      place key origin
  | unreadable found expected key origin =>
    s!"invalid type: {found.describe}, expected {expected.describe} " ++ place key origin
  | unfit found expected => s!"invalid type: {found.describe}, expected {expected.describe}"
  | missing name => s!"missing field `{name}`"
  | tooShort length =>
    s!"invalid length {length}, expected struct FormattingRules with 4 elements"
  | unusable fault => fault.message

end SettingsFault

/-! ### Reading -/

/-- The number that digits after an optional plus sign stand for, up to 64 bits. -/
def wordOfText? (s : String) : Option Nat :=
  let digits := match s.toList with
    | '+' :: cs => cs
    | cs => cs
  (decimalValue? digits).filter (· ≤ 18446744073709551615)

/-- The width that a text stands for: a word for yes or no, or a number. -/
def widthOfText? (s : String) : Option Nat :=
  let word := s.toLower
  if ["true", "on", "yes"].contains word then some 1
  else if ["false", "off", "no"].contains word then some 0
  else wordOfText? s

/-- Reads a width. A number with a fraction is rounded, halves away from zero, and is zero if it is
negative. -/
def readWidth (key : String) (s : Setting) : Except SettingsFault Nat :=
  let fault := SettingsFault.unreadable s.shape .integer key s.origin
  match s with
  | .scalar origin (.int n) => if n < 0 then .error (.negative n key origin) else .ok n.toNat
  | .scalar _ (.bool b) => .ok b.toNat
  | .scalar _ (.float x) => .ok x.round.toUInt64.toNat
  | .scalar _ (.text t) =>
    match widthOfText? t with
    | some n => .ok n
    | none => .error fault
  | _ => .error fault

/-- Reads a text. -/
def readText (key : String) (s : Setting) : Except SettingsFault String :=
  match s with
  | .scalar _ (.text t) => .ok t
  | .scalar _ (.int n) => .ok (toString n)
  | .scalar _ (.bool b) => .ok (toString b)
  | .scalar _ (.float x) => .ok (floatText x)
  | _ => .error (.unreadable s.shape .text key s.origin)

/-- Reads the items of a list of texts, the first of them at a position. -/
def readItems (key : String) : Nat → List Setting → Except SettingsFault (List String)
  | _, [] => .ok []
  | i, s :: rest => do
    let text ← readText s!"{key}[{i}]" s
    let texts ← readItems key (i + 1) rest
    return text :: texts

/-- Reads a list of texts. -/
def readTexts (key : String) (s : Setting) : Except SettingsFault (List String) :=
  match s with
  | .list _ items => readItems key 0 items
  | _ => .error (.unfit s.shape .sequence)

/-- Reads the setting under a name, if there is one. -/
def readEntry {α : Type} (reader : String → Setting → Except SettingsFault α) (s : Setting)
    (name : String) : Except SettingsFault (Option α) :=
  (s.get? name).mapM (reader s!"formatting.{name}")

/-- A rule that has to be set. -/
def require {α : Type} (name : String) : Option α → Except SettingsFault α
  | some a => .ok a
  | none => .error (.missing name)

/-- Reads rules from a table, which has them by name. A rule that cannot be read is told before one
that is not set. -/
def readTable (s : Setting) : Except SettingsFault Rules := do
  let width ← readEntry readWidth s "indent_width"
  let before ← readEntry readTexts s "no_space_before"
  let after ← readEntry readTexts s "no_space_after"
  let openers ← readEntry readTexts s "comment_openers"
  return {
    indentWidth := ← require "indent_width" width
    noSpaceBefore := ← require "no_space_before" before
    noSpaceAfter := ← require "no_space_after" after
    commentOpeners := ← require "comment_openers" openers }

/-- Reads an item of a list that has the rules in their order. -/
def readPosition {α : Type} (reader : String → Setting → Except SettingsFault α)
    (items : List Setting) (i : Nat) : Except SettingsFault α :=
  match items[i]? with
  | some s => reader s!"formatting[{i}]" s
  | none => .error (.tooShort i)

/-- Reads rules from a list, which has them in their order. -/
def readList (items : List Setting) : Except SettingsFault Rules := do
  return {
    indentWidth := ← readPosition readWidth items 0
    noSpaceBefore := ← readPosition readTexts items 1
    noSpaceAfter := ← readPosition readTexts items 2
    commentOpeners := ← readPosition readTexts items 3 }

/-- Reads rules from a setting. -/
def readRules (s : Setting) : Except SettingsFault Rules :=
  match s with
  | .table .. => readTable s
  | .list _ items => readList items
  | .scalar .. => .error (.unfit s.shape .rules)

/-! ### Writing -/

namespace Setting

/-- Texts as a list. -/
def ofTexts (texts : List String) : Setting := .list none (texts.map (.scalar none <| .text ·))

/-- Rules as the table that has them by name. -/
def ofRules (r : Rules) : Setting :=
  .table none [("indent_width", .scalar none (.int r.indentWidth)),
    ("no_space_before", ofTexts r.noSpaceBefore),
    ("no_space_after", ofTexts r.noSpaceAfter),
    ("comment_openers", ofTexts r.commentOpeners)]

end Setting

end GrammarLayout
