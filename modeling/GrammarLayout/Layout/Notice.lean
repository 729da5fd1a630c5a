import GrammarLayout.Text.Quoted
import GrammarLayout.Tree.Kind

/-!
# Notices

What a layout tells about its own work, step by step. Warnings are the notices that point at
something unexpected; all others only trace what was done.
-/

namespace GrammarLayout

/-- How much a notice matters. -/
inductive Level
  | trace
  | debug
  | info
  | warn
  deriving DecidableEq, Repr

/-- The name of a level. -/
def Level.name : Level → String
  | trace => "TRACE"
  | debug => "DEBUG"
  | info => "INFO"
  | warn => "WARN"

/-- One step of a layout, as told by it. -/
inductive Notice
  /-- A node was entered. -/
  | entered (kind : NodeKind)
  /-- A node was left. -/
  | left (kind : NodeKind)
  /-- A comment is about to be written. -/
  | comment (index : Nat) (category : Category)
  /-- A leaf was laid out. -/
  | laidOut (category : Category) (text : String)
  /-- A leaf of a recovered region is about to be laid out. -/
  | strayToken (text : String)
  /-- A recovered region starts on this line. -/
  | unreadable (line : Nat)
  /-- Indentation would have dropped below zero. -/
  | belowZero
  /-- A frame was left at another depth than it was entered at. -/
  | drifted (saved current : Nat)
  /-- The layout ended at a depth other than zero. -/
  | endedAt (depth : Nat)
  deriving DecidableEq, Repr

namespace Notice

/-- How much a notice matters. -/
def level : Notice → Level
  | entered _ | left _ | comment .. => .trace
  | laidOut .. | strayToken _ => .debug
  | unreadable _ | belowZero | drifted .. | endedAt _ => .warn

/-- The wording of a notice. -/
def message : Notice → String
  | entered kind => s!"enter {kind.name}"
  | left kind => s!"leave {kind.name}"
  | comment index category => s!"comment {index} in {category.name}"
  | laidOut category text => s!"{category.name} : {text}"
  | strayToken text => s!"recovered token {quoted text}"
  | unreadable line => s!"line {line}: could not parse this part of the grammar; keeping it as is"
  | belowZero => "indentation would drop below zero; keeping it at zero"
  | drifted saved current =>
    s!"indentation drifted from {saved} to {current}; restoring {saved}"
  | endedAt depth => s!"formatting ended at indentation depth {depth}"

/-- Whether the notice is a warning. -/
def isWarning (n : Notice) : Bool := n.level == .warn

end Notice

end GrammarLayout
