import GrammarLayout.Command.Arguments
import GrammarLayout.Run.Batch
import GrammarLayout.Run.Json
import GrammarLayout.Settings.Load
import GrammarLayout.Tree.Outline

/-!
# Commands

What a command line does to the files it finds, and what it prints. The exit code is zero if all
went well, one if a check found something to change, and two if anything failed.
-/

namespace GrammarLayout

/-- What a command did. -/
structure Outcome where
  /-- The exit code. -/
  code : Nat := 0
  /-- What it printed. -/
  output : String := ""
  /-- What it told about problems. -/
  problems : String := ""
  /-- The files afterwards. -/
  workspace : Workspace

namespace Command

/-- The exit code of a check that found something to change. -/
def unformatted : Nat := 1

/-- The exit code of a command that failed. -/
def failed : Nat := 2

/-- The name that stands for the standard input. -/
def inputLabel : String := "<stdin>"

/-- The settings file of a directory. -/
def localSettings : String := ".g4fmt.toml"

/-- A text as a line. -/
def line (s : String) : String := s ++ "\n"

/-- Texts as lines. -/
def lines (l : List String) : String := String.join (l.map line)

/-! ### Rules -/

/-- The sources of the rules: the local settings file if there is one, the one that was asked for,
and the width that was asked for. -/
def sources (a : Arguments) : List Source :=
  .optionalFile localSettings :: (a.config.map Source.file).toList ++
    (a.indentWidth.map fun n =>
      Source.override "formatting.indent_width" (.scalar none (.int n))).toList

/-! ### The standard input -/

/-- The warnings about a source. -/
def warnings (label : String) (ds : List Diagnostic) : List String :=
  ds.map fun d => s!"{label}: warning: {d.text}"

/-- Formats the standard input, or tells how its layout differs from it. -/
def performInput (rules : Rules) (check : Bool) (input : ByteArray) (w : Workspace) : Outcome :=
  match Workspace.textOf input with
  | .error fault =>
    { code := failed, problems := line s!"Error reading stdin: {fault.message}", workspace := w }
  | .ok source =>
    match format rules source with
    | .error e =>
      { code := failed, problems := line s!"{inputLabel}: {e.message}", workspace := w }
    | .ok f =>
      let problems := lines (warnings inputLabel f.diagnostics)
      if !check then { output := f.rendered, problems, workspace := w }
      else if f.rendered = source then { problems, workspace := w }
      else
        let output := Diff.ofLayout inputLabel source f.rendered
        { code := unformatted, output, problems, workspace := w }

/-! ### Files -/

/-- The mode that was asked for. -/
def mode (a : Arguments) : Mode :=
  if a.check then .check else if a.write then .write else .render

/-- What is printed about a changed file. -/
def changeText (mode : Mode) (r : FileReport) : String :=
  if mode = .check then line s!"Would reformat {r.path}" ++ r.diff.getD ""
  else line s!"Reformatted {r.path}"

/-- The summary of a run as a line. -/
def summaryText (mode : Mode) (s : Summary) : String :=
  let change := if mode = .check then "would change" else "changed"
  line (s!"{s.seen} file(s) checked, {s.changed} {change}, " ++
    s!"{s.failed} failed, {s.warnings} warning(s)")

/-- A report as text. -/
def reportText (mode : Mode) (r : Report) : String :=
  String.join ((r.files.filter (·.changed)).map (changeText mode)) ++ summaryText mode r.summary

/-- What is printed about a run. -/
def runOutput (mode : Mode) (format : ReportFormat) (r : Report) : String :=
  match mode, format with
  | .render, _ => String.join (r.files.filterMap (·.rendered))
  | _, .json => line r.toJson.pretty
  | mode, .text => reportText mode r

/-- What is told about a file. -/
def fileProblems (r : FileReport) : List String :=
  warnings r.path r.diagnostics ++ (r.obstacle.map fun o => s!"{r.path}: {o.message}").toList

/-- The exit code of a run. -/
def runCode (mode : Mode) (r : Report) : Nat :=
  if r.hasFailures then failed
  else if mode = .check ∧ 0 < r.summary.changed then unformatted
  else 0

/-- Runs over files. -/
def performPaths (rules : Rules) (a : Arguments) (w : Workspace) : Outcome :=
  let run := runPaths rules (mode a) w a.paths
  { code := runCode (mode a) run.report
    output := runOutput (mode a) (a.report.getD .text) run.report
    problems := lines (run.reports.flatMap fileProblems)
    workspace := run.workspace }

/-! ### Trees -/

/-- A source by its name, or why it could not be had. -/
abbrev NamedSource := String × Except Fault String

/-- The sources whose trees are printed. -/
def treeSources (a : Arguments) (input : ByteArray) (w : Workspace) : List NamedSource :=
  if a.paths.isEmpty then [(inputLabel, Workspace.textOf input)]
  else a.paths.map fun path => (path, w.readText path)

/-- The tree of a source, or what keeps it from being printed. -/
def treeText : NamedSource → Except String String
  | (label, .error fault) => .error s!"{label}: {fault.message}"
  | (label, .ok source) =>
    let stream := tokenize source
    match parse stream with
    | .ok tree => .ok (tree.outline stream)
    | .error d => .error s!"{label}: {d.text}"

/-- What a tree adds to an outcome. -/
def addTree (o : Outcome) : Except String String → Outcome
  | .ok text => { o with output := o.output ++ text }
  | .error problem => { o with code := failed, problems := o.problems ++ line problem }

/-- Prints trees. -/
def performTrees (a : Arguments) (input : ByteArray) (w : Workspace) : Outcome :=
  ((treeSources a input w).map treeText).foldl addTree { workspace := w }

/-! ### Command lines -/

/-- Carries out what was asked for. -/
def perform (a : Arguments) (input : ByteArray) (w : Workspace) : Outcome :=
  match loadRules w (sources a) with
  | .error fault =>
    { code := failed, problems := line s!"Configuration error: {fault.message}", workspace := w }
  | .ok rules =>
    if a.dumpTree then performTrees a input w
    else if a.paths.isEmpty then performInput rules a.check input w
    else performPaths rules a w

/-- What is printed when the version is asked for. -/
def versionText : String := line "g4fmt 0.1.0"

/-- How the command is used. -/
def usage : String := "Usage: g4fmt [OPTIONS] [paths]..."

/-- What is printed when help is asked for. -/
def helpText : String := lines [
  "Formats ANTLR v4 grammar files",
  "",
  usage,
  "",
  "Arguments:",
  "  [paths]...  Grammar files or directories; reads stdin when omitted",
  "",
  "Options:",
  "      --check                        Exit with status 1 if any input is not formatted",
  "  -w, --write                        Rewrite files in place",
  "  -c, --config <config>              Configuration file layered over the defaults",
  "      --indent-width <indent-width>  Spaces per indentation level",
  "      --report <report>              Summary format for --check and --write [default: text] " ++
    "[possible values: text, json]",
  "      --dump-tree                    Print the parse tree instead of formatting",
  "  -h, --help                         Print help",
  "  -V, --version                      Print version"]

/-- What is told about a command line that is not usable. -/
def usageText : String :=
  lines ["error: unusable arguments", "", usage, "", "For more information, try '--help'."]

/-- Carries out a command line. -/
def run (arguments : List String) (input : ByteArray) (w : Workspace) : Outcome :=
  match Arguments.read arguments with
  | .perform a => perform a input w
  | .version => { output := versionText, workspace := w }
  | .help => { output := helpText, workspace := w }
  | .unusable => { code := failed, problems := usageText, workspace := w }

end Command

end GrammarLayout
