import GrammarLayout.Diff.Compact

/-!
# Unified diffs

The changes between two texts as hunks: each change with a few kept lines around it, changes that
are near each other in one hunk. A diff starts with the names of both texts, and two equal texts
have an empty diff.
-/

namespace GrammarLayout.Diff

namespace Change

/-- The last `n` lines of a kept run. -/
def keepLast (n : Nat) (c : Change) : Change :=
  let drop := c.oldLen - n
  { c with old := c.old + drop, new := c.new + drop, oldLen := c.oldLen - drop,
           newLen := c.newLen - drop }

/-- The first `n` lines of a kept run. -/
def keepFirst (n : Nat) (c : Change) : Change :=
  { c with oldLen := min c.oldLen n, newLen := min c.newLen n }

end Change

/-- Shortens a kept run that starts the list. -/
def shortenStart (n : Nat) : List Change → List Change
  | [] => []
  | c :: cs => (if c.isKept then c.keepLast n else c) :: cs

/-- Shortens a kept run that ends the list. -/
def shortenEnd (n : Nat) : List Change → List Change
  | [] => []
  | [c] => [if c.isKept then c.keepFirst n else c]
  | c :: cs => c :: shortenEnd n cs

/-- Whether a group has nothing but a kept run. -/
def isIdle : List Change → Bool
  | [] => true
  | [c] => c.isKept
  | _ => false

/-- Cuts the changes into groups where a kept run is longer than twice `n` lines; `group` has the
changes of the current group, last first. -/
def cutGroups (n : Nat) (group : List Change) : List Change → List (List Change)
  | [] => if isIdle group then [] else [group.reverse]
  | c :: cs =>
    if c.isKept && 2 * n < c.oldLen then
      (c.keepFirst n :: group).reverse :: cutGroups n [c.keepLast n] cs
    else cutGroups n (c :: group) cs

/-- The hunks of changes with `n` kept lines around each change. -/
def hunks (n : Nat) (cs : List Change) : List (List Change) :=
  match cs with
  | [] => []
  | cs => cutGroups n [] (shortenEnd n (shortenStart n cs))

/-! ### Writing -/

/-- A range of lines in the header of a hunk: the first line and the number of lines, which is left
out if it is one. An empty range starts at the line before it. -/
def rangeText (start stop : Nat) : String :=
  let len := stop - start
  if len = 1 then s!"{start + 1}"
  else if len = 0 then s!"{start},0"
  else s!"{start + 1},{len}"

/-- The header of a hunk. -/
def hunkHeader (first last : Change) : String :=
  let old := rangeText first.old (last.old + last.oldLen)
  let new := rangeText first.new (last.new + last.newLen)
  s!"@@ -{old} +{new} @@\n"

/-- A line of a hunk after its mark. -/
def hunkLine (mark line : String) : String :=
  mark ++ line ++ if lacksEnd line then "\n\\ No newline at end of file\n" else ""

/-- Some lines of a text after their mark. -/
def hunkLines (mark : String) (text : Array String) (start len : Nat) : List String :=
  (text.extract start (start + len)).toList.map (hunkLine mark)

/-- The lines of a change. -/
def changeLines (s : Sides) (c : Change) : List String :=
  if c.isKept then hunkLines " " s.old c.old c.oldLen
  else hunkLines "-" s.old c.old c.oldLen ++ hunkLines "+" s.new c.new c.newLen

/-- A hunk as text. -/
def hunkText (s : Sides) (hunk : List Change) : String :=
  match hunk, hunk.getLast? with
  | first :: _, some last =>
    hunkHeader first last ++ String.join (hunk.flatMap (changeLines s))
  | _, _ => ""

/-- The diff between two texts with `n` kept lines around each change, under the given names. -/
def unified (n : Nat) (oldName newName old new : String) : String :=
  let s : Sides := { old := lines old, new := lines new }
  match hunks n s.changes with
  | [] => ""
  | hs => s!"--- {oldName}\n+++ {newName}\n" ++ String.join (hs.map (hunkText s))

/-- The diff between a source and its layout. -/
def ofLayout (label source rendered : String) : String :=
  unified 2 s!"{label} (original)" s!"{label} (formatted)" source rendered

/-- What is told when an actual text is not the expected one; nothing if it is. -/
def mismatch? (expected actual : String) : Option String :=
  if expected = actual then none
  else
    let diff := unified 3 "expected" "actual" expected actual
    some s!"\n\nText comparison failed:\n{diff}\nActual:\n{actual}\n"

end GrammarLayout.Diff
