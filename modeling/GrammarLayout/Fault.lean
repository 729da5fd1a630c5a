/-!
# Faults of the outside

What can go wrong outside the layout itself: a sink may refuse, and a file may be missing or hold
something other than text.
-/

namespace GrammarLayout

/-- Something that went wrong outside. -/
inductive Fault
  /-- The sink takes no more. -/
  | closed
  /-- The sink could not be flushed. -/
  | flushFailed
  /-- There is no such file. -/
  | notFound
  /-- A directory stands where a file was asked for. -/
  | isDirectory
  /-- A file stands where a directory was asked for. -/
  | notDirectory
  /-- The bytes of a file are not a text. -/
  | notText
  deriving DecidableEq, Repr

/-- The wording of a fault. -/
def Fault.message : Fault → String
  | closed => "closed"
  | flushFailed => "flush failed"
  | notFound => "No such file or directory (os error 2)"
  | isDirectory => "Is a directory (os error 21)"
  | notDirectory => "Not a directory (os error 20)"
  | notText => "stream did not contain valid UTF-8"

end GrammarLayout
