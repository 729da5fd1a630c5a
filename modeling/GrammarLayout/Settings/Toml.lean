import GrammarLayout.Settings.Value

/-!
# Settings files

The TOML texts that settings are kept in. A text is read into statements first: assignments of a
value to a dotted key, and headers that open a table or a further element of an array of tables.
The statements then build the table. A key may be assigned only once, a table may be opened by only
one header, and a table written inline takes nothing more.
-/

namespace GrammarLayout.Toml

/-- How a table came to be, which decides what may be added to it. -/
inductive Making
  /-- On the way to a table that was opened. -/
  | implicit
  /-- By its own header. -/
  | header
  /-- By a dotted key. -/
  | dotted
  /-- Inline. -/
  | inline
  deriving DecidableEq, Repr

/-- A value in a settings file. -/
inductive Value
  | scalar (value : Scalar)
  | list (items : List Value)
  | table (making : Making) (entries : List (String × Value))
  /-- An array of tables, latest first. -/
  | tables (elements : List (List (String × Value)))

/-- The entries of a table. -/
abbrev Entries := List (String × Value)

/-- One statement of a settings file. -/
inductive Statement
  /-- A value for a dotted key. -/
  | assign (key : List String) (value : Value)
  /-- A header that opens a table. -/
  | openTable (key : List String)
  /-- A header that opens a further element of an array of tables. -/
  | openElement (key : List String)

/-- Reads something off the front of a text. -/
abbrev Reads (α : Type) := List Char → Option (α × List Char)

/-! ### Blanks, comments and ends of lines -/

/-- Control characters other than the tab may stand nowhere in a line. -/
def isControl (c : Char) : Bool := (c.toNat < 0x20 && c != '\t') || c == '\x7f'

/-- Space and tab. -/
def isGap (c : Char) : Bool := c == ' ' || c == '\t'

/-- The text after blanks on a line. -/
def skipGap (cs : List Char) : List Char := cs.dropWhile isGap

/-- The text after blanks, ends of lines and comments. -/
def skipAll (inComment : Bool) : List Char → Option (List Char)
  | [] => some []
  | '\n' :: cs => skipAll false cs
  | '\r' :: '\n' :: cs => skipAll false cs
  | c :: cs =>
    if inComment then if isControl c then none else skipAll true cs
    else if isGap c then skipAll false cs
    else if c = '#' then skipAll true cs
    else some (c :: cs)

/-- The text after the end of a line that has nothing more than a comment. -/
def endLine (inComment : Bool) : List Char → Option (List Char)
  | [] => some []
  | '\n' :: cs => some cs
  | '\r' :: '\n' :: cs => some cs
  | c :: cs =>
    if inComment then if isControl c then none else endLine true cs
    else if isGap c then endLine false cs
    else if c = '#' then endLine true cs
    else none

/-! ### Strings -/

/-- The value of a hexadecimal digit. -/
def hexDigit? (c : Char) : Option Nat :=
  if c.isDigit then some (c.toNat - '0'.toNat)
  else if 'a' ≤ c ∧ c ≤ 'f' then some (c.toNat - 'a'.toNat + 10)
  else if 'A' ≤ c ∧ c ≤ 'F' then some (c.toNat - 'A'.toNat + 10)
  else none

/-- The character with the code point that digits give. -/
def codePoint? (digits : List Char) : Option Char := do
  let ds ← digits.mapM hexDigit?
  let n := ds.foldl (fun n d => 16 * n + d) 0
  if n < 0xD800 ∨ (0xDFFF < n ∧ n < 0x110000) then some (Char.ofNat n) else none

/-- The character after a backslash. -/
def escape : Reads Char
  | 'b' :: cs => some ('\x08', cs)
  | 't' :: cs => some ('\t', cs)
  | 'n' :: cs => some ('\n', cs)
  | 'f' :: cs => some ('\x0c', cs)
  | 'r' :: cs => some ('\r', cs)
  | '"' :: cs => some ('"', cs)
  | '\\' :: cs => some ('\\', cs)
  | 'u' :: cs =>
    if cs.length < 4 then none else (codePoint? (cs.take 4)).map fun c => (c, cs.drop 4)
  | 'U' :: cs =>
    if cs.length < 8 then none else (codePoint? (cs.take 8)).map fun c => (c, cs.drop 8)
  | _ => none

/-- Puts a character in front of what was read. -/
def push (c : Char) (r : Option (List Char × List Char)) : Option (List Char × List Char) :=
  r.map fun p => (c :: p.1, p.2)

/-- A string in double quotes, after its opening quote. -/
def basic : (limit : Nat) → Reads (List Char)
  | 0, _ => none
  | _ + 1, [] => none
  | limit + 1, c :: cs =>
    if c = '"' then some ([], cs)
    else if c = '\\' then
      match escape cs with
      | some (d, rest) => push d (basic limit rest)
      | none => none
    else if isControl c then none
    else push c (basic limit cs)

/-- A string in single quotes, after its opening quote. -/
def literal : Reads (List Char)
  | [] => none
  | c :: cs =>
    if c = '\'' then some ([], cs) else if isControl c then none else push c (literal cs)

/-- What follows the line end right after the opening quotes of a string over several lines. -/
def skipFirstEnd : List Char → List Char
  | '\n' :: cs => cs
  | '\r' :: '\n' :: cs => cs
  | cs => cs

/-- The quotes at the end of a string over several lines, if these are its end: up to two of the
run of quotes belong to the string. -/
def closingQuotes? (quote : Char) (cs : List Char) : Option (List Char × List Char) :=
  let run := (cs.takeWhile (· == quote)).length
  if run < 3 then none
  else
    let inside := min run 5 - 3
    some (List.replicate inside quote, cs.drop (inside + 3))

/-- A string over several lines, after its opening quotes. Every line end is read as a line feed. In
double quotes a backslash escapes, and at the end of a line it takes the blanks up to the next text
away. -/
def multiline (quote : Char) : (limit : Nat) → Reads (List Char)
  | 0, _ => none
  | _ + 1, [] => none
  | limit + 1, c :: cs =>
    match closingQuotes? quote (c :: cs) with
    | some r => some r
    | none =>
      if c = '\\' && quote == '"' then
        match skipGap cs with
        | '\n' :: rest => multiline quote limit (rest.dropWhile Char.isWhitespace)
        | '\r' :: '\n' :: rest => multiline quote limit (rest.dropWhile Char.isWhitespace)
        | _ =>
          match escape cs with
          | some (d, rest) => push d (multiline quote limit rest)
          | none => none
      else if c = '\n' then push c (multiline quote limit cs)
      else if c = '\r' then
        match cs with
        | '\n' :: rest => push '\n' (multiline quote limit rest)
        | _ => none
      else if isControl c then none
      else push c (multiline quote limit cs)

/-- A string of any sort, after its first quote. -/
def string (quote : Char) (cs : List Char) : Option (String × List Char) :=
  let limit := cs.length + 1
  let read := match cs with
    | c :: d :: rest =>
      if c = quote && d = quote then multiline quote limit (skipFirstEnd rest)
      else if quote == '"' then basic limit cs else literal cs
    | _ => if quote == '"' then basic limit cs else literal cs
  read.map fun p => (String.ofList p.1, p.2)

/-! ### Keys -/

/-- The characters of keys without quotes. -/
def isKeyChar (c : Char) : Bool := c.isAlphanum || c == '_' || c == '-'

/-- One part of a key. -/
def keyPart (cs : List Char) : Option (String × List Char) :=
  match cs with
  | '"' :: rest => (basic (rest.length + 1) rest).map fun p => (String.ofList p.1, p.2)
  | '\'' :: rest => (literal rest).map fun p => (String.ofList p.1, p.2)
  | _ =>
    let name := cs.takeWhile isKeyChar
    if name.isEmpty then none else some (String.ofList name, cs.dropWhile isKeyChar)

/-- A key with dots between its parts, and the blanks after it. -/
def key : (limit : Nat) → Reads (List String)
  | 0, _ => none
  | limit + 1, cs =>
    match keyPart cs with
    | none => none
    | some (part, rest) =>
      match skipGap rest with
      | '.' :: more => (key limit (skipGap more)).map fun p => (part :: p.1, p.2)
      | rest => some ([part], rest)

/-! ### Numbers -/

/-- Digits with underscores between them, without the underscores. -/
def digitsOf (isDigit : Char → Bool) (cs : List Char) : Option (List Char) :=
  let parts := cs.splitOn '_'
  if parts.all fun p => !p.isEmpty && p.all isDigit then some parts.flatten else none

/-- The number that digits of a base stand for. -/
def digitsValue (base : Nat) (ds : List Char) : Nat :=
  ds.foldl (fun n c => base * n + (hexDigit? c).getD 0) 0

/-- A whole number that fits into 64 bits. -/
def inRange (n : Int) : Option Scalar :=
  if -9223372036854775808 ≤ n ∧ n ≤ 9223372036854775807 then some (.int n) else none

/-- Whether digits start with a zero that does not stand alone. -/
def hasLeadingZero : List Char → Bool
  | '0' :: _ :: _ => true
  | _ => false

/-- The sign of a number, and the rest of it. -/
def sign : List Char → Bool × List Char
  | '-' :: cs => (true, cs)
  | '+' :: cs => (false, cs)
  | cs => (false, cs)

/-- A whole number in another base. -/
def based? : List Char → Option Scalar
  | '0' :: 'x' :: cs => do inRange (digitsValue 16 (← digitsOf (fun c => (hexDigit? c).isSome) cs))
  | '0' :: 'o' :: cs => do inRange (digitsValue 8 (← digitsOf (fun c => '0' ≤ c && c ≤ '7') cs))
  | '0' :: 'b' :: cs => do inRange (digitsValue 2 (← digitsOf (fun c => c == '0' || c == '1') cs))
  | _ => none

/-- A whole decimal number. -/
def decimal? (cs : List Char) : Option Scalar := do
  let (negative, body) := sign cs
  let ds ← digitsOf Char.isDigit body
  if hasLeadingZero ds then none
  else
    let n := digitsValue 10 ds
    inRange (if negative then -(n : Int) else n)

/-- The floating-point number nearest to `digits * 10 ^ e`. -/
def nearestFloat (negative : Bool) (digits : Nat) (e : Int) : Float :=
  let x := Float.ofScientific digits (e < 0) e.natAbs
  if negative then -x else x

/-- A number with a fraction or an exponent, or one that is not finite. -/
def float? (cs : List Char) : Option Scalar := do
  let (negative, body) := sign cs
  if body = "inf".toList then
    some (.float (if negative then -(1.0 / 0.0) else 1.0 / 0.0))
  else if body = "nan".toList then some (.float (0.0 / 0.0))
  else
    let mantissa := body.takeWhile fun c => c != 'e' && c != 'E'
    let exponent ← match body.drop mantissa.length with
      | [] => some 0
      | _ :: cs => do
        let (negative, ds) := sign cs
        let n := digitsValue 10 (← digitsOf Char.isDigit ds)
        some (if negative then -(n : Int) else n)
    let whole ← digitsOf Char.isDigit (mantissa.takeWhile (· != '.'))
    let part ← match mantissa.dropWhile (· != '.') with
      | [] => some []
      | _ :: cs => digitsOf Char.isDigit cs
    if hasLeadingZero whole then none
    else if part.isEmpty && mantissa.length = body.length then none
    else
      some (.float (nearestFloat negative (digitsValue 10 (whole ++ part))
        (exponent - part.length)))

/-- The characters of numbers and of the words for truth values. -/
def isBareChar (c : Char) : Bool := isKeyChar c || c == '+' || c == '.'

/-- A value without quotes or brackets. -/
def bare? (cs : List Char) : Option Scalar :=
  if cs = "true".toList then some (.bool true)
  else if cs = "false".toList then some (.bool false)
  else ((based? cs).or (decimal? cs)).or (float? cs)

/-! ### Building tables -/

/-- Adds a value under a dotted key. -/
def addKey (value : Value) : List String → Entries → Option Entries
  | [], _ => none
  | [k], es => if (es.lookup k).isSome then none else some (es ++ [(k, value)])
  | k :: ks, es =>
    match es.lookup k with
    | none => (addKey value ks []).map fun inner => es ++ [(k, .table .dotted inner)]
    | some (.table .dotted inner) =>
      (addKey value ks inner).map fun inner =>
        es.map fun e => if e.1 = k then (k, .table .dotted inner) else e
    | some _ => none

/-- Puts a value in place of the one under a key. -/
def replaceKey (k : String) (value : Value) (es : Entries) : Entries :=
  es.map fun e => if e.1 = k then (k, value) else e

/-- Changes the table that a header's key leads to; `last` changes what is under its last part. -/
def atHeader (last : String → Entries → Option Entries) : List String → Entries → Option Entries
  | [], es => some es
  | [k], es => last k es
  | k :: ks, es =>
    match es.lookup k with
    | none => (atHeader last ks []).map fun inner => es ++ [(k, .table .implicit inner)]
    | some (.table .inline _) => none
    | some (.table making inner) =>
      (atHeader last ks inner).map fun inner => replaceKey k (.table making inner) es
    | some (.tables (inner :: others)) =>
      (atHeader last ks inner).map fun inner => replaceKey k (.tables (inner :: others)) es
    | some _ => none

/-- Opens a table. -/
def openTable (k : String) (es : Entries) : Option Entries :=
  match es.lookup k with
  | none => some (es ++ [(k, .table .header [])])
  | some (.table .implicit inner) => some (replaceKey k (.table .header inner) es)
  | some _ => none

/-- Opens a further element of an array of tables. -/
def openElement (k : String) (es : Entries) : Option Entries :=
  match es.lookup k with
  | none => some (es ++ [(k, .tables [[]])])
  | some (.tables elements) => some (replaceKey k (.tables ([] :: elements)) es)
  | some _ => none

/-- Changes the entries of an opened table. -/
def insideTable (change : Entries → Option Entries) (k : String) (es : Entries) : Option Entries :=
  match es.lookup k with
  | some (.table making inner) =>
    (change inner).map fun inner => replaceKey k (.table making inner) es
  | some (.tables (inner :: others)) =>
    (change inner).map fun inner => replaceKey k (.tables (inner :: others)) es
  | _ => none

/-- Carries statements out, `current` being the key of the table opened last. -/
def build (current : List String) (es : Entries) : List Statement → Option Entries
  | [] => some es
  | .assign k v :: rest =>
    let changed :=
      if current.isEmpty then addKey v k es else atHeader (insideTable (addKey v k)) current es
    changed.bind fun es => build current es rest
  | .openTable k :: rest => (atHeader openTable k es).bind fun es => build k es rest
  | .openElement k :: rest => (atHeader openElement k es).bind fun es => build k es rest

/-! ### Values -/

mutual

/-- A value. -/
def value : (limit : Nat) → Reads Value
  | 0, _ => none
  | limit + 1, cs =>
    match cs with
    | '"' :: rest => (string '"' rest).map fun p => (.scalar (.text p.1), p.2)
    | '\'' :: rest => (string '\'' rest).map fun p => (.scalar (.text p.1), p.2)
    | '[' :: rest => (elements limit rest).map fun p => (.list p.1, p.2)
    | '\x7b' :: rest =>
      match skipGap rest with
      | '\x7d' :: rest => some (.table .inline [], rest)
      | rest => (members limit [] rest).map fun p => (.table .inline p.1, p.2)
    | _ =>
      (bare? (cs.takeWhile isBareChar)).map fun s => (.scalar s, cs.dropWhile isBareChar)

/-- The elements of a list, through its closing bracket. -/
def elements : (limit : Nat) → Reads (List Value)
  | 0, _ => none
  | limit + 1, cs =>
    match skipAll false cs with
    | none => none
    | some (']' :: rest) => some ([], rest)
    | some cs =>
      match value limit cs with
      | none => none
      | some (v, rest) =>
        match skipAll false rest with
        | some (']' :: rest) => some ([v], rest)
        | some (',' :: rest) => (elements limit rest).map fun p => (v :: p.1, p.2)
        | _ => none

/-- The members of an inline table, through its closing brace. -/
def members : (limit : Nat) → Entries → Reads Entries
  | 0, _, _ => none
  | limit + 1, es, cs =>
    match key limit cs with
    | some (k, '=' :: rest) =>
      match value limit (skipGap rest) with
      | none => none
      | some (v, rest) =>
        match addKey v k es, skipGap rest with
        | some es, '\x7d' :: rest => some (es, rest)
        | some es, ',' :: rest => members limit es (skipGap rest)
        | _, _ => none
    | _ => none

end

/-! ### Statements -/

/-- One statement, without the end of its line. -/
def statement (limit : Nat) : Reads Statement
  | '[' :: '[' :: cs =>
    match key limit (skipGap cs) with
    | some (k, ']' :: ']' :: rest) => some (.openElement k, rest)
    | _ => none
  | '[' :: cs =>
    match key limit (skipGap cs) with
    | some (k, ']' :: rest) => some (.openTable k, rest)
    | _ => none
  | cs =>
    match key limit cs with
    | some (k, '=' :: rest) =>
      (value limit (skipGap rest)).map fun p => (.assign k p.1, p.2)
    | _ => none

/-- All statements of a text. -/
def statements : (limit : Nat) → List Char → Option (List Statement)
  | 0, _ => none
  | limit + 1, cs =>
    match skipAll false cs with
    | none => none
    | some [] => some []
    | some cs =>
      match statement limit cs with
      | none => none
      | some (s, rest) =>
        match endLine false rest with
        | none => none
        | some rest => (statements limit rest).map (s :: ·)

mutual

/-- A value as a setting of a file. -/
def Value.toSetting (origin : Option String) : Value → Setting
  | .scalar s => .scalar origin s
  | .list items => .list origin (itemsToSettings origin items)
  | .table _ es => .table origin (entriesToSettings origin es)
  | .tables elements => .list origin (elementsToSettings origin elements).reverse

/-- Values as settings of a file. -/
def itemsToSettings (origin : Option String) : List Value → List Setting
  | [] => []
  | v :: vs => v.toSetting origin :: itemsToSettings origin vs

/-- Entries as settings of a file. -/
def entriesToSettings (origin : Option String) : List (String × Value) → List (String × Setting)
  | [] => []
  | (k, v) :: es => (k, v.toSetting origin) :: entriesToSettings origin es

/-- The elements of an array of tables as settings of a file. -/
def elementsToSettings (origin : Option String) : List (List (String × Value)) → List Setting
  | [] => []
  | es :: ess => .table origin (entriesToSettings origin es) :: elementsToSettings origin ess

end

/-- A text without the byte order mark it may start with. -/
def skipMark : List Char → List Char
  | '\ufeff' :: cs => cs
  | cs => cs

/-- The entries of a settings file, unless its text is malformed. -/
def parse (origin : Option String) (text : String) : Option (List (String × Setting)) := do
  let cs := skipMark text.toList
  let ss ← statements (cs.length + 1) cs
  let es ← build [] [] ss
  return entriesToSettings origin es

end GrammarLayout.Toml
