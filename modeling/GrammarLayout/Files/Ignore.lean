import GrammarLayout.Files.Glob
import GrammarLayout.Files.Workspace
import GrammarLayout.Text.Blank

/-!
# Ignored files

Directories may list patterns for files that are not to be looked at, in files named `.ignore` and,
where there is a repository, in `.gitignore` and `.git/info/exclude`. A list speaks for everything
below its directory. The last pattern of a list that applies decides; lists nearer to a file come
before those further up; and lists of one name come before all those of the next. Names that start
with a dot are ignored unless a pattern keeps them.
-/

namespace GrammarLayout

/-- One pattern of an ignore list. -/
structure IgnorePattern where
  /-- What it is about. -/
  glob : List Glob.Piece
  /-- Whether it keeps what it is about. -/
  keeps : Bool
  /-- Whether it is about directories only. -/
  onlyDirectories : Bool

/-- What a pattern says about a file. -/
inductive Verdict
  | ignored
  | kept
  deriving DecidableEq, Repr

namespace IgnorePattern

/-- Takes a character off the start of a text, if it is there. -/
def stripStart (c : Char) : List Char → Bool × List Char
  | [] => (false, [])
  | d :: cs => if d = c then (true, cs) else (false, d :: cs)

/-- Takes a character off the end of a text, if it is there. -/
def stripEnd (c : Char) (cs : List Char) : Bool × List Char :=
  if cs.getLast? = some c then (true, cs.dropLast) else (false, cs)

/-- A line without the blanks at its end, unless the last one is escaped. -/
def trimLine (line : List Char) : List Char :=
  if ['\\', ' '].isSuffixOf line then line else trimEnd line

/-- The sign, the anchor and the rest of a line. An exclamation mark keeps, and a slash ties the
pattern to the directory of its list. -/
def marks : List Char → Bool × Bool × List Char
  | '\\' :: '!' :: cs => (false, false, '!' :: cs)
  | '\\' :: '#' :: cs => (false, false, '#' :: cs)
  | line =>
    let (keeps, line) := stripStart '!' line
    let (anchored, line) := stripStart '/' line
    (keeps, anchored, line)

/-- The glob a pattern stands for. A pattern without slashes is about names at any depth, and one
that ends in a doubled star is about what is inside a directory. -/
def spread (anchored : Bool) (cs : List Char) : List Char :=
  let cs :=
    if anchored || cs.contains '/' || cs == ['*', '*'] then cs else '*' :: '*' :: '/' :: cs
  if ['/', '*', '*'].isSuffixOf cs then cs ++ ['/', '*'] else cs

/-- The pattern on a line; none if the line is empty, a comment or malformed. -/
def ofLine? (line : List Char) : Option IgnorePattern :=
  let trimmed := trimLine line
  if line.head? = some '#' ∨ trimmed = [] then none
  else
    let (keeps, anchored, cs) := marks trimmed
    let (onlyDirectories, cs) := stripEnd '/' cs
    let cs := if onlyDirectories then (stripEnd '\\' cs).2 else cs
    (Glob.ofChars? (spread anchored cs)).map fun glob => { glob, keeps, onlyDirectories }

/-- The bytes of the lines of an ignore list. A line ends in a line feed, and a carriage return
before that belongs to its end. -/
def byteLines (bytes : List UInt8) : List (List UInt8) :=
  let lines := bytes.splitOn 0x0A
  let ended := lines.dropLast.map fun l => if l.getLast? = some 0x0D then l.dropLast else l
  ended ++ lines.getLast?.toList

/-- The lines of an ignore list, up to the first one that is no text. -/
def textLines : List (List UInt8) → List (List Char)
  | [] => []
  | line :: lines =>
    match String.fromUTF8? line.toByteArray with
    | some text => text.toList :: textLines lines
    | none => []

/-- The patterns of an ignore list. Byte order marks at its start are passed over. -/
def ofBytes (bytes : ByteArray) : List IgnorePattern :=
  match textLines (byteLines bytes.data.toList) with
  | [] => []
  | first :: lines => (first.dropWhile (· == '\ufeff') :: lines).filterMap ofLine?

/-- Whether a pattern is about a path below the directory of its list. -/
def applies (p : IgnorePattern) (path : String) (isDirectory : Bool) : Bool :=
  (isDirectory || !p.onlyDirectories) && Glob.accepts p.glob path

/-- What a list says about a path below its directory. -/
def judge (ps : List IgnorePattern) (path : String) (isDirectory : Bool) : Option Verdict :=
  (ps.reverse.find? (·.applies path isDirectory)).map fun p => if p.keeps then .kept else .ignored

end IgnorePattern

/-- The directories that a location lies in, nearest first. -/
def ancestors (l : Location) : List Location := (List.range l.length).reverse.map l.take

/-- The elements of a list through the first one with a property; none if none has it. -/
def throughFirst {α : Type} (p : α → Bool) (l : List α) : List α :=
  if l.any p then l.takeWhile (!p ·) ++ (l.find? p).toList else []

/-- Whether a name starts with a dot. -/
def isHidden (name : String) : Bool := name.toList.head? == some '.'

namespace Workspace

/-- The patterns in the file at a location. -/
def patternsAt (w : Workspace) (l : Location) : List IgnorePattern :=
  match w.file? l with
  | some bytes => IgnorePattern.ofBytes bytes
  | none => []

/-- What the lists of one name in some directories say about a location below them. -/
def judge (w : Workspace) (list : Location) (l : Location) (isDirectory : Bool)
    (directories : List Location) : Option Verdict :=
  directories.findSome? fun d =>
    IgnorePattern.judge (w.patternsAt (d ++ list)) (joinNames (l.drop d.length)) isDirectory

/-- Whether a directory is the top of a repository. -/
def isRepository (w : Workspace) (d : Location) : Bool :=
  w.has (d ++ [".git"]) || w.has (d ++ [".jj"])

/-- What the ignore lists say about a location. Those of a repository count up to its top. -/
def verdict (w : Workspace) (l : Location) (isDirectory : Bool) : Option Verdict :=
  let inRepository := throughFirst w.isRepository (ancestors l)
  ((w.judge [".ignore"] l isDirectory (ancestors l)).or
    (w.judge [".gitignore"] l isDirectory inRepository)).or
      (w.judge [".git", "info", "exclude"] l isDirectory inRepository)

/-- Whether a location is not to be looked at. -/
def isIgnored (w : Workspace) (l : Location) (isDirectory : Bool) : Bool :=
  match w.verdict l isDirectory with
  | some .ignored => true
  | some .kept => false
  | none => l.getLast?.any isHidden

end Workspace

end GrammarLayout
