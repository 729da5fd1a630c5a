import GrammarLayout.Command.Perform

/-!
# The program

Reads what a command line is about from the disk into a workspace, carries the command line out
there, and puts the files that have changed back. Of a directory only grammars and ignore lists are
read.
-/

namespace GrammarLayout.Program

/-- The absolute path of a location. -/
def absolutePath (l : Location) : String := "/" ++ joinNames l

/-- Whether there is a directory at a location of the disk. -/
def isDirectory (l : Location) : IO Bool := do
  try (← IO.FS.realPath (absolutePath l)).isDir catch _ => return false

/-- Adds the file at a location, if it can be read. -/
def loadFile (w : Workspace) (l : Location) : IO Workspace := do
  try return w.put l (← IO.FS.readBinFile (absolutePath l)) catch _ => return w

/-- Adds what is at a location: a file with its bytes, or a directory without what is in it. -/
def loadPlace (w : Workspace) (l : Location) : IO Workspace := do
  if ← isDirectory l then return w.makeDirectory l else loadFile w l

/-- Adds the ignore lists of a directory. -/
def loadLists (w : Workspace) (l : Location) : IO Workspace :=
  [[".ignore"], [".gitignore"], [".git"], [".git", "info", "exclude"]].foldlM
    (fun w list => loadPlace w (l ++ list)) w

/-- Adds a directory with the grammars and the ignore lists below it. Links are not followed. -/
partial def loadTree (w : Workspace) (l : Location) : IO Workspace := do
  let w ← loadLists (w.makeDirectory l) l
  let entries ← try (← IO.FS.realPath (absolutePath l)).readDir catch _ => pure #[]
  entries.foldlM (fun w e => do
    let below := l ++ [e.fileName]
    match (← e.path.symlinkMetadata).type with
    | .dir => if e.fileName = ".git" then return w else loadTree w below
    | .file => if isGrammarName e.fileName then loadFile w below else return w
    | _ => return w) w

/-- Adds what a path leads to, with what is on the way. -/
def loadPath (w : Workspace) (path : String) : IO Workspace := do
  let way := w.way path
  let w ← way.foldlM loadPlace w
  match way.getLast? with
  | none => return w
  | some l =>
    if ← isDirectory l then loadTree (← (ancestors l).foldlM loadLists w) l else return w

/-- The workspace that a request is about. -/
def loadWorkspace (r : Request) : IO Workspace := do
  let here := (pathNames (← IO.currentDir).toString).filter (!·.isEmpty)
  let w := Workspace.makeDirectory { here } here
  let settings := Command.localSettings :: r.namedPaths
  let w ← settings.foldlM (fun w path => loadPath w (path ++ ".toml")) w
  settings.foldlM loadPath w

/-- The standard input, if it is needed. -/
def loadInput (r : Request) : IO ByteArray := do
  if r.needsInput then (← IO.getStdin).readBinToEnd else return .empty

/-- Puts the files that have changed back. -/
def storeChanges (before after : Workspace) : IO Unit :=
  (before.changes after).forM fun f => IO.FS.writeBinFile (absolutePath f.1) f.2

/-- Carries out a command line and gives its exit code. -/
def carryOut (arguments : List String) : IO UInt32 := do
  let request := Arguments.read arguments
  let w ← loadWorkspace request
  let outcome := Command.run arguments (← loadInput request) w
  storeChanges w outcome.workspace
  IO.print outcome.output
  IO.eprint outcome.problems
  return UInt32.ofNat outcome.code

end GrammarLayout.Program

/-- The program. -/
def main (arguments : List String) : IO UInt32 := GrammarLayout.Program.carryOut arguments
