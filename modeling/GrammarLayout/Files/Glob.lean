import GrammarLayout.Text.Utf8

/-!
# Globs

Patterns for paths. Wildcards stay within one name; only a doubled star that stands for whole names
crosses slashes. Patterns are about the bytes of a path, so a wildcard for one of them takes no more
than a part of a character beyond ASCII. What a pattern accepts is told by the rests it can leave of
a path: a path is matched if nothing of it may be left.
-/

namespace GrammarLayout.Glob

/-- One piece of a pattern. -/
inductive Piece
  /-- This character. -/
  | literal (c : Char)
  /-- Any byte but a slash. -/
  | any
  /-- Any number of bytes other than slashes. -/
  | run
  /-- Nothing, or names with a slash after each. -/
  | leading
  /-- A slash, or names between slashes. -/
  | between
  /-- A slash and all that follows it. -/
  | trailing
  /-- A byte in one of the ranges, or in none of them. -/
  | oneOf (negated : Bool) (ranges : List (UInt8 × UInt8))
  /-- Any of these patterns; nothing if there are none. -/
  | choice (alternatives : List (List Piece))

/-! ### Matching -/

/-- The byte that stands between the names of a path. -/
def slash : UInt8 := 0x2F

/-- The rests of a path after any number of bytes other than slashes. -/
def afterRun : List UInt8 → List (List UInt8)
  | [] => [[]]
  | b :: bs => (b :: bs) :: if b = slash then [] else afterRun bs

/-- The rests of a path after each of its slashes. -/
def afterSlash : List UInt8 → List (List UInt8)
  | [] => []
  | b :: bs => if b = slash then bs :: afterSlash bs else afterSlash bs

/-- All ends of a path, the path itself included. -/
def ends : List UInt8 → List (List UInt8)
  | [] => [[]]
  | b :: bs => (b :: bs) :: ends bs

/-- The rest of a path after one byte of a sort. -/
def afterByte (sort : UInt8 → Bool) : List UInt8 → List (List UInt8)
  | [] => []
  | b :: bs => if sort b then [bs] else []

/-- The rest of a path after some bytes. -/
def afterBytes (start path : List UInt8) : List (List UInt8) :=
  if start.isPrefixOf path then [path.drop start.length] else []

/-- Whether a byte is in one of the ranges. -/
def inRanges (ranges : List (UInt8 × UInt8)) (b : UInt8) : Bool :=
  ranges.any fun r => r.1 ≤ b && b ≤ r.2

mutual

/-- The rests that a piece can leave of a path. -/
def rests : Piece → List UInt8 → List (List UInt8)
  | .literal c, bs => afterBytes (String.utf8EncodeChar c) bs
  | .any, bs => afterByte (· != slash) bs
  | .run, bs => afterRun bs
  | .leading, bs => bs :: afterSlash bs
  | .between, bs => if bs.head? = some slash then afterSlash bs else []
  | .trailing, bs => if bs.head? = some slash then ends bs.tail else []
  | .oneOf negated ranges, bs => afterByte (inRanges ranges · != negated) bs
  | .choice [], bs => [bs]
  | .choice (alternative :: others), bs => restsOfAll alternative bs ++ restsOfAny others bs

/-- The rests that pieces in a row can leave of a path. -/
def restsOfAll : List Piece → List UInt8 → List (List UInt8)
  | [], bs => [bs]
  | p :: ps, bs => (rests p bs).flatMap (restsOfAll ps)

/-- The rests that any of some patterns can leave of a path. -/
def restsOfAny : List (List Piece) → List UInt8 → List (List UInt8)
  | [], _ => []
  | alternative :: others, bs => restsOfAll alternative bs ++ restsOfAny others bs

end

/-- Whether a pattern matches a whole path. A doubled star that is the whole pattern matches
everything. -/
def accepts (pattern : List Piece) (path : String) : Bool :=
  match pattern with
  | [.leading] => true
  | _ => (restsOfAll pattern (utf8Bytes path.toList)).any List.isEmpty

/-! ### Reading -/

/-- What is read of a set of characters after its opening bracket. -/
inductive SetReading
  /-- The set and what follows its closing bracket. -/
  | closed (ranges : List (Char × Char)) (rest : List Char)
  /-- No bracket closes it. -/
  | unclosed
  /-- A range ends before it starts. -/
  | reversed

/-- Reads the ranges of a set. A hyphen makes a range of the characters around it, unless it is the
first or the last one; a closing bracket that comes first is in the set. `ranges` has those read so
far, last first, and `awaiting` tells whether the last one awaits its end. -/
def setRanges (ranges : List (Char × Char)) (awaiting : Bool) : List Char → SetReading
  | [] => .unclosed
  | c :: cs =>
    if c = ']' && !ranges.isEmpty then
      .closed (if awaiting then ('-', '-') :: ranges else ranges).reverse cs
    else if c = '-' && !awaiting && !ranges.isEmpty then setRanges ranges true cs
    else
      match awaiting, ranges with
      | true, (low, _) :: others =>
        if c < low then .reversed else setRanges ((low, c) :: others) false cs
      | _, _ => setRanges ((c, c) :: ranges) false cs

/-- The ranges of bytes for a range of characters. Where characters take more than one byte, only
the last byte of the lower end and the first byte of the upper end make a range; each of the others
stands for itself. -/
def byteRanges (range : Char × Char) : List (UInt8 × UInt8) :=
  let low := String.utf8EncodeChar range.1
  let high := String.utf8EncodeChar range.2
  if range.1 = range.2 then low.map fun b => (b, b)
  else
    low.dropLast.map (fun b => (b, b)) ++ low.getLast?.toList.zip high.head?.toList ++
      high.tail.map fun b => (b, b)

/-- Whether a set begins with the mark for all that is not in it, and what follows the mark. -/
def setSign : List Char → Bool × List Char
  | '!' :: cs | '^' :: cs => (true, cs)
  | cs => (false, cs)

/-- The choice between alternatives. Those that are empty do not count. -/
def choiceOf (alternatives : List (List Piece)) : Piece :=
  let isNothing : Piece → Bool
    | .choice [] => true
    | _ => false
  .choice (alternatives.filter (!·.all isNothing))

/-- Puts a piece in place of the slash read last, unless whole names are passed over there
already. -/
def overSlash (piece : Piece) : List Piece → List Piece
  | [] => [piece]
  | .leading :: taken => .leading :: taken
  | .trailing :: taken => .trailing :: taken
  | _ :: taken => piece :: taken

/-- Whether a doubled star after this character may stand for whole names. -/
def startsNames (inside : Bool) (previous : Option Char) : Bool :=
  previous == some '/' || inside && (previous == some ',' || previous == some '\x7b')

/-- The pieces read, last first, after a doubled star, with the character before what follows and
what follows. The doubled star stands for whole names if slashes or the ends of the pattern are
around it. -/
def doubledStar (inside : Bool) (previous : Option Char) (taken : List Piece) (cs : List Char) :
    List Piece × Option Char × List Char :=
  let plain := (.run :: .run :: taken, some '*', cs)
  match cs with
  | [] =>
    if taken.isEmpty then ([.leading], some '*', [])
    else if startsNames inside previous then (overSlash .trailing taken, some '*', [])
    else plain
  | c :: rest =>
    if c = '/' then
      if taken.isEmpty then ([.leading], some '/', rest)
      else if startsNames inside previous then (overSlash .between taken, some '/', rest)
      else plain
    else if inside && (c == ',' || c == '\x7d') && !taken.isEmpty &&
        startsNames inside previous then
      (overSlash .trailing taken, some '*', cs)
    else plain

/-- How far a pattern is read. -/
structure Reading (α : Type) where
  /-- What has been read. -/
  value : α
  /-- Whether sets are read. After one that no bracket closes, none is: its opening bracket and all
  later ones stand for themselves. -/
  sets : Bool
  /-- What follows. -/
  rest : List Char

mutual

/-- Reads the pieces of a pattern, or of one of the alternatives between braces, up to the comma or
the brace after it. `taken` has the pieces read so far, last first. -/
def pieces (inside : Bool) : (limit : Nat) → (sets : Bool) → Option Char → (taken : List Piece) →
    List Char → Option (Reading (List Piece))
  | 0, _, _, _, _ => none
  | limit + 1, sets, previous, taken, cs =>
    match cs with
    | [] => if inside then none else some ⟨taken.reverse, sets, []⟩
    | '\\' :: cs =>
      match cs with
      | [] => none
      | c :: cs => pieces inside limit sets (some c) (.literal c :: taken) cs
    | '?' :: cs => pieces inside limit sets (some '?') (.any :: taken) cs
    | '*' :: '*' :: cs =>
      let (taken, previous, cs) := doubledStar inside previous taken cs
      pieces inside limit sets previous taken cs
    | '*' :: cs => pieces inside limit sets (some '*') (.run :: taken) cs
    | '[' :: cs =>
      let (negated, inSet) := setSign cs
      match if sets then setRanges [] false inSet else .unclosed with
      | .closed ranges rest =>
        pieces inside limit sets (some ']') (.oneOf negated (ranges.flatMap byteRanges) :: taken)
          rest
      | .unclosed => pieces inside limit false (some '[') (.literal '[' :: taken) cs
      | .reversed => none
    | '\x7b' :: cs =>
      match alternatives limit sets cs with
      | none => none
      | some ⟨as, sets, cs⟩ => pieces inside limit sets (some '\x7d') (choiceOf as :: taken) cs
    | c :: cs =>
      if inside && (c == ',' || c == '\x7d') then some ⟨taken.reverse, sets, c :: cs⟩
      else if c = '\x7d' then none
      else pieces inside limit sets (some c) (.literal c :: taken) cs

/-- Reads the alternatives after an opening brace, through the closing one. -/
def alternatives : (limit : Nat) → (sets : Bool) → List Char →
    Option (Reading (List (List Piece)))
  | 0, _, _ => none
  | limit + 1, sets, cs =>
    match pieces true limit sets none [] cs with
    | some ⟨alternative, sets, ',' :: cs⟩ =>
      (alternatives limit sets cs).map fun r => { r with value := alternative :: r.value }
    | some ⟨alternative, sets, '\x7d' :: cs⟩ => some ⟨[alternative], sets, cs⟩
    | _ => none

end

/-- The pattern that a text writes, unless it is malformed. -/
def ofChars? (cs : List Char) : Option (List Piece) :=
  (pieces false (2 * cs.length + 1) true none [] cs).map (·.value)

end GrammarLayout.Glob
