import GrammarLayout.Files.Ignore

/-!
# Finding grammars

Paths to files stand for themselves, whatever they are. A path to a directory stands for the
grammars below it: the files with the extension `g4` that are not ignored and not in an ignored
directory, in the order of their names.
-/

namespace GrammarLayout

/-- Whether a file of this name holds a grammar: something stands before the extension `g4`. -/
def isGrammarName (name : String) : Bool :=
  match name.toList.reverse with
  | '4' :: 'g' :: '.' :: _ :: _ => true
  | _ => false

/-- Whether a name comes before another one, by the code points of their characters. -/
def nameBefore (a b : String) : Bool := a.toList.lex b.toList fun c d => c.toNat.blt d.toNat

/-- Whether a location comes before another one, name by name. -/
def locationBefore (a b : Location) : Bool := a.lex b nameBefore

namespace Workspace

/-- Whether nothing on the way from a directory down to a file is ignored. -/
def isShown (w : Workspace) (directory below : Location) : Bool :=
  (List.range below.length).all fun n =>
    !w.isIgnored (directory ++ below.take (n + 1)) (n + 1 < below.length)

/-- The grammars below a directory, as seen from there, in the order of their names. -/
def grammarsBelow (w : Workspace) (directory : Location) : List Location :=
  let below := w.files.filterMap fun f =>
    if directory.isPrefixOf f.1 then some (f.1.drop directory.length) else none
  let grammars := below.filter fun l => l.getLast?.any isGrammarName && w.isShown directory l
  grammars.mergeSort fun a b => !locationBefore b a

/-- The path to something below a directory, by the path to the directory. -/
def pathBelow (directory : String) (below : Location) : String :=
  directory ++ (if directory.endsWith "/" then "" else "/") ++ joinNames below

/-- The files that paths stand for. -/
def collect (w : Workspace) (paths : List String) : List String :=
  paths.flatMap fun path =>
    match w.locate path with
    | .ok l => if w.hasDirectory l then (w.grammarsBelow l).map (pathBelow path) else [path]
    | .error _ => [path]

end Workspace

end GrammarLayout
