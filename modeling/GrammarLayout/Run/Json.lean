import GrammarLayout.Run.Report
import GrammarLayout.Text.Json

/-!
# Reports as JSON

A report as the value that is written for other programs. An obstacle or a diff is left out where
there is none, and layouts are not part of it.
-/

namespace GrammarLayout

/-- A diagnostic as a value. -/
def Diagnostic.toJson (d : Diagnostic) : JsonValue :=
  .object [("line", .number d.line), ("message", .text d.message)]

/-- A member that is left out if it has no value. -/
def optionalMember (name : String) (value : Option String) : List (String × JsonValue) :=
  value.toList.map fun v => (name, .text v)

/-- A report about a file as a value. -/
def FileReport.toJson (r : FileReport) : JsonValue :=
  .object ([("path", .text r.path), ("changed", .bool r.changed),
    ("diagnostics", .list (r.diagnostics.map Diagnostic.toJson))] ++
    optionalMember "error" (r.obstacle.map Obstacle.message) ++ optionalMember "diff" r.diff)

/-- A summary as a value. -/
def Summary.toJson (s : Summary) : JsonValue :=
  .object [("files_seen", .number s.seen), ("files_changed", .number s.changed),
    ("files_failed", .number s.failed), ("warnings", .number s.warnings),
    ("files_with_warnings", .number s.withWarnings)]

/-- A report as a value. -/
def Report.toJson (r : Report) : JsonValue :=
  .object [("summary", r.summary.toJson), ("files", .list (r.files.map FileReport.toJson))]

end GrammarLayout
