import GrammarLayout.Files.Workspace
import GrammarLayout.Settings.Decode
import GrammarLayout.Settings.Toml

/-!
# Loading rules

Rules are loaded from several sources. The standard rules are at the bottom; files are layered over
them in the order they are given, key by key; and single settings are layered over all files,
wherever they are given. What results is read as rules and checked.
-/

namespace GrammarLayout

/-- Where settings come from, besides the standard rules. -/
inductive Source
  /-- A file that has to be there. -/
  | file (path : String)
  /-- A file that may be missing or hold no text. -/
  | optionalFile (path : String)
  /-- A single setting, by its written path. -/
  | override (path : String) (value : Setting)

namespace Source

/-- The names in a path that lead anywhere. -/
def plainNames (path : String) : List String :=
  (pathNames path).filter fun name => name != "" && name != "."

/-- The path a settings file is found under: the path itself, or the path with `.toml` added. -/
def filePath? (w : Workspace) (path : String) : Option String :=
  if w.isFile path then some (if path.startsWith "/" then path else joinNames (plainNames path))
  else
    let names := plainNames path
    let extended := (if path.startsWith "/" then "/" else "") ++ joinNames names ++ ".toml"
    if names.isEmpty || names.getLast? == some ".." || !w.isFile extended then none
    else some extended

/-- The path that a settings file is found under, and its text. -/
def fileText (w : Workspace) (path : String) : Except SettingsFault (String × String) :=
  match filePath? w path with
  | none => .error (.missingFile path)
  | some origin =>
    match w.readText origin with
    | .error fault => .error (.unreadableFile fault)
    | .ok text => .ok (origin, text)

/-- Layers one entry at the top of a file. Its key is a path if it can be read as one. -/
def layerEntry (root : Setting) (entry : String × Setting) : Setting :=
  match Setting.Path.ofString entry.1 with
  | .ok path => root.set path entry.2
  | .error _ => root.layer entry.1 entry.2

/-- Layers a file over the settings. One that gives no text is passed over unless it is required;
one with a malformed text never is. -/
def layerFile (w : Workspace) (root : Setting) (path : String) (required : Bool) :
    Except SettingsFault Setting :=
  match fileText w path with
  | .error fault => if required then .error fault else .ok root
  | .ok (origin, text) =>
    match Toml.parse (some origin) text with
    | none => .error (.malformedFile origin)
    | some entries => .ok (entries.foldl layerEntry root)

/-- Layers the files among the sources over the settings. -/
def layerFiles (w : Workspace) : Setting → List Source → Except SettingsFault Setting
  | root, [] => .ok root
  | root, .file path :: sources => do layerFiles w (← layerFile w root path true) sources
  | root, .optionalFile path :: sources => do
    layerFiles w (← layerFile w root path false) sources
  | root, .override .. :: sources => layerFiles w root sources

/-- The single settings among the sources. -/
def overrides : List Source → Except SettingsFault (List (Setting.Path × Setting))
  | [] => .ok []
  | .override path value :: sources =>
    match Setting.Path.ofString path with
    | .error fault => .error (.malformedPath fault)
    | .ok path => (overrides sources).map ((path, value) :: ·)
  | _ :: sources => overrides sources

end Source

/-- The settings at the bottom. -/
def standardSettings : Setting := .table none [("formatting", Setting.ofRules Rules.standard)]

/-- Checks that rules are usable. -/
def Rules.checked (r : Rules) : Except SettingsFault Rules :=
  match r.check with
  | none => .ok r
  | some fault => .error (.unusable fault)

/-- Loads rules from sources. A malformed path of a single setting is told before anything else. -/
def loadRules (w : Workspace) (sources : List Source) : Except SettingsFault Rules := do
  let overrides ← Source.overrides sources
  let root ← Source.layerFiles w standardSettings sources
  let root := overrides.foldl (fun root o => root.set o.1 o.2) root
  let formatting ← require "formatting" (root.get? "formatting")
  (← readRules formatting).checked

end GrammarLayout
