import GrammarLayout.Text.Decimal

/-!
# Arguments

What a command line asks for. Arguments are read from left to right, and the first one that cannot
be taken makes the command line unusable. Asking for the version or for help ends the reading at
once; whether the arguments fit together is decided when all have been read.
-/

namespace GrammarLayout

/-- How a run over files is summarised. -/
inductive ReportFormat
  | text
  | json
  deriving DecidableEq, Repr

/-- What a command line asks for. -/
structure Arguments where
  /-- The files and directories to format; the standard input if there are none. -/
  paths : List String := []
  /-- Whether to tell what would change. -/
  check : Bool := false
  /-- Whether to change the files. -/
  write : Bool := false
  /-- Whether to print trees in place of layouts. -/
  dumpTree : Bool := false
  /-- The settings file to use. -/
  config : Option String := none
  /-- The width of a level of indentation. -/
  indentWidth : Option Nat := none
  /-- How a run is summarised. -/
  report : Option ReportFormat := none
  deriving DecidableEq, Repr

/-- What becomes of a command line. -/
inductive Request
  /-- It is to be carried out. -/
  | perform (arguments : Arguments)
  /-- It asks for the version. -/
  | version
  /-- It asks for help. -/
  | help
  /-- It is not usable. -/
  | unusable
  deriving DecidableEq, Repr

/-- Whether a request needs the standard input. -/
def Request.needsInput : Request → Bool
  | perform a => a.paths.isEmpty
  | _ => false

/-- The paths that a request names, those of settings files included. -/
def Request.namedPaths : Request → List String
  | perform a => a.paths ++ a.config.toList
  | _ => []

/-- An option of the command line. -/
inductive CommandOption
  | check
  | write
  | dumpTree
  | config
  | indentWidth
  | report
  | version
  | help
  deriving DecidableEq, Repr

namespace CommandOption

/-- The option with a long name. -/
def ofLongName? (name : String) : Option CommandOption :=
  match name with
  | "check" => some check
  | "write" => some write
  | "dump-tree" => some dumpTree
  | "config" => some config
  | "indent-width" => some indentWidth
  | "report" => some report
  | "version" => some version
  | "help" => some help
  | _ => none

/-- The option with a short name. -/
def ofShortName? (c : Char) : Option CommandOption :=
  match c with
  | 'w' => some write
  | 'c' => some config
  | 'V' => some version
  | 'h' => some help
  | _ => none

/-- Whether an option has a value. -/
def hasValue : CommandOption → Bool
  | config | indentWidth | report => true
  | _ => false

end CommandOption

/-- The width that a text gives: a whole number up to 65535, which may have a sign. -/
def widthOfArgument? (s : String) : Option Nat :=
  let (negative, digits) := match s.toList with
    | '-' :: cs => (true, cs)
    | '+' :: cs => (false, cs)
    | cs => (false, cs)
  (decimalValue? digits).filter fun n => n ≤ if negative then 0 else 65535

/-- The report format of a name. -/
def ReportFormat.ofName? (name : String) : Option ReportFormat :=
  match name with
  | "text" => some .text
  | "json" => some .json
  | _ => none

namespace Arguments

/-- Takes an option without a value. It may not come twice. -/
def setFlag (a : Arguments) : CommandOption → Option Arguments
  | .check => if a.check then none else some { a with check := true }
  | .write => if a.write then none else some { a with write := true }
  | .dumpTree => if a.dumpTree then none else some { a with dumpTree := true }
  | _ => none

/-- Takes an option with its value. It may not come twice. -/
def setValue (a : Arguments) (value : String) : CommandOption → Option Arguments
  | .config =>
    if a.config.isSome || value.isEmpty then none else some { a with config := some value }
  | .indentWidth =>
    if a.indentWidth.isSome then none
    else (widthOfArgument? value).map fun n => { a with indentWidth := some n }
  | .report =>
    if a.report.isSome then none
    else (ReportFormat.ofName? value).map fun f => { a with report := some f }
  | _ => none

/-- Takes a path. -/
def addPath (a : Arguments) (path : String) : Option Arguments :=
  if path.isEmpty then none else some { a with paths := a.paths ++ [path] }

/-- Whether what is asked for fits together: at most one of checking, writing and printing
trees. -/
def isConsistent (a : Arguments) : Bool :=
  !(a.check && a.write) && !(a.dumpTree && a.check) && !(a.dumpTree && a.write)

/-- What an argument does to what was read before. -/
inductive Effect
  /-- Reading goes on. -/
  | proceed (a : Arguments)
  /-- Reading goes on with the value of an option. -/
  | await (a : Arguments) (option : CommandOption)
  /-- Reading ends. -/
  | stop (r : Request)

/-- Reading goes on unless the argument could not be taken. -/
def Effect.ofTaken : Option Arguments → Effect
  | some a => .proceed a
  | none => .stop .unusable

/-- What a long option does, without its hyphens. -/
def takeLong (a : Arguments) (cs : List Char) : Effect :=
  let name := String.ofList (cs.takeWhile (· != '='))
  let value? := match cs.dropWhile (· != '=') with
    | [] => none
    | _ :: value => some (String.ofList value)
  match CommandOption.ofLongName? name, value? with
  | none, _ => .stop .unusable
  | some option, some value =>
    if option.hasValue then .ofTaken (a.setValue value option) else .stop .unusable
  | some .version, none => .stop .version
  | some .help, none => .stop .help
  | some option, none => if option.hasValue then .await a option else .ofTaken (a.setFlag option)

/-- What a cluster of short options does, without its hyphen. An option with a value takes the rest
of the cluster. -/
def takeShorts (a : Arguments) : List Char → Effect
  | [] => .proceed a
  | c :: cs =>
    match CommandOption.ofShortName? c with
    | none => .stop .unusable
    | some .version => .stop .version
    | some .help => .stop .help
    | some option =>
      if option.hasValue then
        match cs with
        | [] => .await a option
        | '=' :: value => .ofTaken (a.setValue (String.ofList value) option)
        | value => .ofTaken (a.setValue (String.ofList value) option)
      else
        match a.setFlag option with
        | some a => takeShorts a cs
        | none => .stop .unusable

/-- What an argument does. -/
def take (a : Arguments) (argument : String) : Effect :=
  match argument.toList with
  | '-' :: '-' :: cs => a.takeLong cs
  | '-' :: c :: cs => a.takeShorts (c :: cs)
  | _ => .ofTaken (a.addPath argument)

/-- Whether an argument may be the value of the option before it. -/
def isValue (argument : String) : Bool :=
  argument.toList.head? != some '-' || argument == "-"

/-- Ends the reading. -/
def finish (a : Arguments) : Request := if a.isConsistent then .perform a else .unusable

/-- Takes paths only, as after two hyphens. -/
def readPaths (a : Arguments) : List String → Request
  | [] => a.finish
  | argument :: rest =>
    match a.addPath argument with
    | some a => a.readPaths rest
    | none => .unusable

/-- Reads arguments; the option in `awaiting` awaits its value. -/
def readFrom (a : Arguments) (awaiting : Option CommandOption) : List String → Request
  | [] => if awaiting.isSome then .unusable else a.finish
  | argument :: rest =>
    match awaiting with
    | some option =>
      if isValue argument then
        match a.setValue argument option with
        | some a => a.readFrom none rest
        | none => .unusable
      else .unusable
    | none =>
      if argument = "--" then a.readPaths rest
      else
        match a.take argument with
        | .proceed a => a.readFrom none rest
        | .await a option => a.readFrom (some option) rest
        | .stop r => r

/-- What a command line asks for. -/
def read (arguments : List String) : Request := Arguments.readFrom {} none arguments

end Arguments

end GrammarLayout
