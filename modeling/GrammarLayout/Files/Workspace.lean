import GrammarLayout.Association
import GrammarLayout.Fault

/-!
# Workspaces

The files that a run sees: directories, files with their bytes, and the directory that paths start
from. A path is followed name by name, so `sub/../A` needs `sub` to be a directory, and a path that
ends in a slash leads to a directory or nowhere.
-/

namespace GrammarLayout

/-- Where something is: the names that lead to it from the top. -/
abbrev Location := List String

/-- Directories and files. -/
structure Workspace where
  /-- The directory that relative paths start from. -/
  here : Location := []
  /-- The directories other than the top. -/
  directories : List Location := []
  /-- The files and their bytes. -/
  files : List (Location × ByteArray) := []

/-- The names in a written path, with empty ones where slashes meet or end it. -/
def pathNames (path : String) : List String := (path.toList.splitOn '/').map String.ofList

/-- A written path with slashes between its names. -/
def joinNames (names : List String) : String := String.intercalate "/" names

namespace Workspace

/-- Whether there is a directory at a location. -/
def hasDirectory (w : Workspace) (l : Location) : Bool := l.isEmpty || w.directories.contains l

/-- The bytes of the file at a location. -/
def file? (w : Workspace) (l : Location) : Option ByteArray := w.files.lookup l

/-- Whether there is anything at a location. -/
def has (w : Workspace) (l : Location) : Bool := w.hasDirectory l || (w.file? l).isSome

/-- Follows names from a location. Nothing can be followed from what is not a directory. -/
def follow (w : Workspace) : Location → List String → Except Fault Location
  | l, [] => .ok l
  | l, name :: names =>
    if !w.hasDirectory l then .error (if (w.file? l).isSome then .notDirectory else .notFound)
    else if name = "" ∨ name = "." then follow w l names
    else if name = ".." then follow w l.dropLast names
    else follow w (l ++ [name]) names

/-- Where a path leads. -/
def locate (w : Workspace) (path : String) : Except Fault Location :=
  match pathNames path with
  | [""] => .error .notFound
  | "" :: names => w.follow [] names
  | names => w.follow w.here names

/-- Whether a path leads to a directory. -/
def isDirectory (w : Workspace) (path : String) : Bool :=
  match w.locate path with
  | .ok l => w.hasDirectory l
  | .error _ => false

/-- Whether a path leads to a file. -/
def isFile (w : Workspace) (path : String) : Bool :=
  match w.locate path with
  | .ok l => (w.file? l).isSome
  | .error _ => false

/-- The bytes of the file that a path leads to. -/
def read (w : Workspace) (path : String) : Except Fault ByteArray :=
  match w.locate path with
  | .error fault => .error fault
  | .ok l =>
    match w.file? l with
    | some bytes => .ok bytes
    | none => .error (if w.hasDirectory l then .isDirectory else .notFound)

/-- The text that bytes encode. -/
def textOf (bytes : ByteArray) : Except Fault String :=
  match String.fromUTF8? bytes with
  | some text => .ok text
  | none => .error .notText

/-- The text of the file that a path leads to. -/
def readText (w : Workspace) (path : String) : Except Fault String := (w.read path).bind textOf

/-- Puts bytes into the file at a location. -/
def put (w : Workspace) (l : Location) (bytes : ByteArray) : Workspace :=
  { w with files := assign l bytes w.files }

/-- Writes a text to the file that a path leads to. -/
def write (w : Workspace) (path text : String) : Workspace :=
  match w.locate path with
  | .ok l => w.put l text.toUTF8
  | .error _ => w

@[simp] theorem file?_put (w : Workspace) (l k : Location) (bytes : ByteArray) :
    (w.put l bytes).file? k = if k = l then some bytes else w.file? k :=
  lookup_assign l k bytes w.files

/-! ### Filling a workspace -/

/-- Makes a directory and those it lies in. -/
def makeDirectory (w : Workspace) (l : Location) : Workspace :=
  let onTheWay := (List.range l.length).map fun n => l.take (n + 1)
  let missing := onTheWay.filter (!w.directories.contains ·)
  { w with directories := w.directories ++ missing }

/-- Adds what a path names, seen from `here`: a directory if it ends in a slash, else a file. The
directories on the way are made. -/
def add (w : Workspace) (path : String) (bytes : ByteArray) : Workspace :=
  let l := w.here ++ (pathNames path).filter fun name => name != "" && name != "."
  if path.endsWith "/" then w.makeDirectory l else (w.makeDirectory l.dropLast).put l bytes

/-- The workspace with some entries in a directory that paths start from. -/
def ofEntries (here : Location) (entries : List (String × ByteArray)) : Workspace :=
  entries.foldl (fun w e => w.add e.1 e.2) (Workspace.makeDirectory { here } here)

/-- The locations that names lead through, whatever is there. -/
def wayPoints : Location → List String → List Location
  | l, [] => [l]
  | l, name :: names =>
    if name = "" ∨ name = "." then wayPoints l names
    else if name = ".." then l :: wayPoints l.dropLast names
    else l :: wayPoints (l ++ [name]) names

/-- The locations that a path leads through, whatever is there. -/
def way (w : Workspace) (path : String) : List Location :=
  match pathNames path with
  | "" :: names => wayPoints [] names
  | names => wayPoints w.here names

/-- The files whose bytes are others in a later workspace. -/
def changes (w later : Workspace) : List (Location × ByteArray) :=
  later.files.filter fun f => w.file? f.1 != some f.2

end Workspace

end GrammarLayout
