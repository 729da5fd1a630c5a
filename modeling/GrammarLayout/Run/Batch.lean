import GrammarLayout.Diff.Unified
import GrammarLayout.Files.Walk
import GrammarLayout.Run.Report

/-!
# Runs over files

A run formats files one after the other, each as it finds it, so a file that comes twice is read
after it was written. A file without a layout is reported and left alone, and the run goes on.
-/

namespace GrammarLayout

/-- What a run does with the layouts. -/
inductive Mode
  /-- Keep them in the report. -/
  | render
  /-- Tell which files they would change, and how. -/
  | check
  /-- Put them into the files. -/
  | write
  deriving DecidableEq, Repr

/-- What a run tells about its work. -/
inductive RunNotice
  /-- A file could not be read. -/
  | unreadable (path : String) (fault : Fault)
  /-- A file could not be formatted. -/
  | unformattable (path : String) (error : FormatError)
  /-- A layout is about to be put into its file. -/
  | saving (path : String)
  /-- Something a layout told about its work. -/
  | layout (notice : Notice)
  deriving DecidableEq, Repr

namespace RunNotice

/-- How much a notice matters. -/
def level : RunNotice → Level
  | unreadable .. | unformattable .. => .warn
  | saving _ => .info
  | layout notice => notice.level

/-- The wording of a notice. -/
def message : RunNotice → String
  | unreadable path fault => s!"cannot read {path}: {fault.message}"
  | unformattable path error => s!"cannot format {path}: {error.message}"
  | saving path => s!"rewriting {path}"
  | layout notice => notice.message

end RunNotice

/-- The layout of the file that a path leads to. -/
def formatFile (rules : Rules) (w : Workspace) (path : String) : Except FormatError Formatted :=
  match w.readText path with
  | .error fault => .error (.outside fault)
  | .ok source => format rules source

/-- What became of one file. -/
structure FileRun where
  /-- The report about it. -/
  report : FileReport
  /-- What was told. -/
  notices : List RunNotice
  /-- The files afterwards. -/
  workspace : Workspace

/-- Does with a layout what the mode says. -/
def conclude (mode : Mode) (w : Workspace) (path source : String) (f : Formatted) : FileRun :=
  let changed := f.rendered != source
  let report : FileReport := { path, changed, diagnostics := f.diagnostics }
  let notices := f.notices.map RunNotice.layout
  match mode, changed with
  | .render, _ => ⟨{ report with rendered := some f.rendered }, notices, w⟩
  | .check, true =>
    ⟨{ report with diff := some (Diff.ofLayout path source f.rendered) }, notices, w⟩
  | .write, true => ⟨report, notices ++ [.saving path], w.write path f.rendered⟩
  | .check, false | .write, false => ⟨report, notices, w⟩

/-- Runs over one file. -/
def runFile (rules : Rules) (mode : Mode) (w : Workspace) (path : String) : FileRun :=
  match w.readText path with
  | .error fault =>
    ⟨{ path, obstacle := some (.unreadable fault) }, [.unreadable path fault], w⟩
  | .ok source =>
    match format rules source with
    | .error error =>
      ⟨{ path, obstacle := some (.unformattable error) }, [.unformattable path error], w⟩
    | .ok f => conclude mode w path source f

/-- What became of a run. -/
structure Run where
  /-- The reports about the files, in their order. -/
  reports : List FileReport
  /-- What was told. -/
  notices : List RunNotice
  /-- The files afterwards. -/
  workspace : Workspace

/-- The report about a run. -/
def Run.report (r : Run) : Report := .ofFiles r.reports

/-- Runs over files, one after the other. -/
def runFiles (rules : Rules) (mode : Mode) : Workspace → List String → Run
  | w, [] => ⟨[], [], w⟩
  | w, path :: paths =>
    let first := runFile rules mode w path
    let others := runFiles rules mode first.workspace paths
    ⟨first.report :: others.reports, first.notices ++ others.notices, others.workspace⟩

/-- Runs over the files that paths stand for. -/
def runPaths (rules : Rules) (mode : Mode) (w : Workspace) (paths : List String) : Run :=
  runFiles rules mode w (w.collect paths)

end GrammarLayout
