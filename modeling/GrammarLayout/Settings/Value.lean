import GrammarLayout.Association

/-!
# Settings

A setting is a scalar, a list or a table, and remembers the file it came from, if it came from one.
Settings are layered: a table is merged into the table it meets, key by key, and anything else
replaces what was there. Keys do not depend on case.

A single setting deep inside can be addressed by a path of names and list positions. Setting it
makes whatever lies on the way a table or a list, as the path needs.
-/

namespace GrammarLayout

/-- A setting without parts. -/
inductive Scalar
  | null
  | bool (b : Bool)
  | int (n : Int)
  | float (x : Float)
  | text (s : String)

/-- A setting with the file it came from. -/
inductive Setting
  | scalar (origin : Option String) (value : Scalar)
  | list (origin : Option String) (items : List Setting)
  | table (origin : Option String) (entries : List (String × Setting))

instance : Inhabited Setting := ⟨.scalar none .null⟩

namespace Setting

/-- A setting that is there but has no value. -/
def null : Setting := .scalar none .null

/-- The file a setting came from. -/
def origin : Setting → Option String
  | scalar o _ | list o _ | table o _ => o

/-- The entries of a table; none for any other setting. -/
def entries : Setting → List (String × Setting)
  | table _ es => es
  | _ => []

/-- The items of a list; none for any other setting. -/
def items : Setting → List Setting
  | list _ l => l
  | _ => []

/-- The setting under a key of a table. -/
def get? (s : Setting) (key : String) : Option Setting := s.entries.lookup key.toLower

/-- The file a setting came from if it is a table; a table made in place of another setting came
from none. -/
def tableOrigin : Setting → Option String
  | table o _ => o
  | _ => none

/-- Sets one key of a table, which the setting becomes if it is none. -/
def setKey (s : Setting) (key : String) (value : Setting) : Setting :=
  .table s.tableOrigin (assign key.toLower value s.entries)

mutual

/-- Layers a setting over the one under a key: a table is merged into the one there, and anything
else replaces it. -/
def layer (s : Setting) (key : String) : Setting → Setting
  | .table _ es => s.setKey key (layerAll ((s.get? key).getD (.table none [])) es)
  | .list o l => s.setKey key (.list o l)
  | .scalar o v => s.setKey key (.scalar o v)

/-- Layers the entries of a table over a setting. -/
def layerAll (s : Setting) : List (String × Setting) → Setting
  | [] => s
  | (key, value) :: rest => layerAll (layer s key value) rest

end

/-! ### Addressed settings -/

/-- One step of a path. -/
inductive Step
  /-- To the setting under a name. -/
  | child (name : String)
  /-- To an item; negative positions count from the end. -/
  | item (position : Int)
  deriving DecidableEq, Repr

/-- The address of a setting: a name at the top, and steps from there. -/
structure Path where
  /-- The name at the top. -/
  top : String
  /-- The steps from there. -/
  steps : List Step
  deriving DecidableEq, Repr

/-- Where an item is in a list of some length. -/
def positionIn (length : Nat) (i : Int) : Nat :=
  if 0 ≤ i then i.toNat else length - i.natAbs

/-- The items of a list that is long enough to hold a position, with nulls at its end. -/
def padded (items : List Setting) (i : Nat) : List Setting :=
  items ++ List.replicate (i + 1 - items.length) null

/-- Sets what the steps lead to from a setting. -/
def setSteps (value : Setting) : List Step → Setting → Setting
  | [], _ => value
  | [.child name], s => s.layer name value
  | .child name :: steps, s =>
    s.setKey name (setSteps value steps ((s.get? name).getD null))
  | .item i :: steps, s =>
    let place := positionIn s.items.length i
    let items := padded s.items place
    let o := match s with
      | .list o _ => o
      | _ => none
    .list o (items.set place (setSteps value steps (items[place]?.getD null)))

/-- Sets what a path leads to. -/
def set (s : Setting) (path : Path) (value : Setting) : Setting :=
  setSteps value (.child path.top :: path.steps) s

end Setting

end GrammarLayout
