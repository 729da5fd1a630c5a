import GrammarLayout.Layout.Format

/-!
# Reports

What is told about a run over files: a report for each file, and a summary that counts over them.
-/

namespace GrammarLayout

/-- Why a file has no layout. -/
inductive Obstacle
  /-- The file could not be read. -/
  | unreadable (fault : Fault)
  /-- What was read could not be formatted. -/
  | unformattable (error : FormatError)
  deriving DecidableEq, Repr

/-- The wording of an obstacle. -/
def Obstacle.message : Obstacle → String
  | unreadable fault => fault.message
  | unformattable error => error.message

/-- The report about one file. -/
structure FileReport where
  /-- The path to the file. -/
  path : String
  /-- Whether the layout is not what the file had. -/
  changed : Bool := false
  /-- What is reported about the source. -/
  diagnostics : List Diagnostic := []
  /-- Why there is no layout, if there is none. -/
  obstacle : Option Obstacle := none
  /-- The changes that the layout makes, where they are asked for. -/
  diff : Option String := none
  /-- The layout, where it is asked for. -/
  rendered : Option String := none
  deriving DecidableEq, Repr

/-- The counts over the files of a run. -/
structure Summary where
  /-- The files in all. -/
  seen : Nat := 0
  /-- The files whose layout is not what they had. -/
  changed : Nat := 0
  /-- The files without a layout. -/
  failed : Nat := 0
  /-- The diagnostics of all files. -/
  warnings : Nat := 0
  /-- The files with diagnostics. -/
  withWarnings : Nat := 0
  deriving DecidableEq, Repr

/-- Counts a further file. -/
def Summary.add (s : Summary) (r : FileReport) : Summary where
  seen := s.seen + 1
  changed := s.changed + r.changed.toNat
  failed := s.failed + r.obstacle.isSome.toNat
  warnings := s.warnings + r.diagnostics.length
  withWarnings := s.withWarnings + (!r.diagnostics.isEmpty).toNat

/-- The report about a run. -/
structure Report where
  /-- The counts. -/
  summary : Summary := {}
  /-- The reports about the files, in their order. -/
  files : List FileReport := []
  deriving DecidableEq, Repr

namespace Report

/-- The report made of reports about files. -/
def ofFiles (files : List FileReport) : Report where
  summary := files.foldl Summary.add {}
  files := files

/-- Whether a file has no layout. -/
def hasFailures (r : Report) : Bool := 0 < r.summary.failed

end Report

end GrammarLayout
