import GrammarLayout.Diff.Line

/-!
# Edits

A script of edits turns the lines of an old text into those of a new one. The script is found by
divide and conquer: what both sides share at their start and at their end is kept, and the rest is
split at the middle of a shortest path through the grid of old and new lines. The middle is found by
two searches that advance a front of furthest-reaching paths from either end until they meet.

The fronts are shared by all the splits of one script and are not cleared between them, so they are
passed along.
-/

namespace GrammarLayout.Diff

/-- What an edit does with its lines. -/
inductive Tag
  | equal
  | delete
  | insert
  deriving DecidableEq, Repr

/-- An edit of `len` lines, at line `old` of the old text and line `new` of the new one. -/
structure Edit where
  /-- What is done. -/
  tag : Tag
  /-- The first line in the old text. -/
  old : Nat
  /-- The first line in the new text. -/
  new : Nat
  /-- How many lines are kept, deleted or inserted. -/
  len : Nat
  deriving DecidableEq, Repr

/-- Two texts as lines. -/
structure Sides where
  /-- The lines of the old text. -/
  old : Array String
  /-- The lines of the new text. -/
  new : Array String

namespace Sides

/-- How many lines from `i` and `j` on are the same, looking at `room` lines. -/
def sharedStart (s : Sides) : (room i j : Nat) → Nat
  | 0, _, _ => 0
  | room + 1, i, j =>
    if s.old[i]? == s.new[j]? then sharedStart s room (i + 1) (j + 1) + 1 else 0

/-- How many lines before `i` and `j` are the same, looking at `room` lines. -/
def sharedEnd (s : Sides) : (room i j : Nat) → Nat
  | 0, _, _ => 0
  | room + 1, i, j =>
    if s.old[i - 1]? == s.new[j - 1]? then sharedEnd s room (i - 1) (j - 1) + 1 else 0

end Sides

/-! ### The fronts of the search -/

/-- The furthest line of the old text reached on each diagonal; diagonals count from `-origin`. -/
structure Front where
  /-- The lines reached. -/
  cells : Array Nat
  /-- Where diagonal zero is kept. -/
  origin : Nat

namespace Front

/-- A front that has reached nothing. -/
def empty (origin : Nat) : Front := { cells := Array.replicate (2 * origin + 2) 0, origin }

/-- The line reached on a diagonal. -/
def get (f : Front) (k : Int) : Nat := (f.cells[(k + f.origin).toNat]?).getD 0

/-- Sets the line reached on a diagonal. -/
def set (f : Front) (k : Int) (x : Nat) : Front :=
  { f with cells := f.cells.setIfInBounds (k + f.origin).toNat x }

/-- The line from which a path of `d` edits goes on along a diagonal: from the neighbour that has
come further. -/
def entry (f : Front) (d : Nat) (k : Int) : Nat :=
  if k = -(d : Int) || (k ≠ d && f.get (k - 1) < f.get (k + 1)) then f.get (k + 1)
  else f.get (k - 1) + 1

end Front

/-- The fronts of the searches from the start and from the end. -/
structure Fronts where
  /-- From the start. -/
  forward : Front
  /-- From the end. -/
  backward : Front

/-- The part of the grid between two corners. -/
structure Region where
  /-- The first old line. -/
  old : Nat
  /-- The number of old lines. -/
  oldLen : Nat
  /-- The first new line. -/
  new : Nat
  /-- The number of new lines. -/
  newLen : Nat

namespace Region

/-- One more than half the edits of the longest path, rounded up. -/
def reach (r : Region) : Nat := (r.oldLen + r.newLen + 1) / 2 + 1

/-- The diagonal of the far corner. -/
def delta (r : Region) : Int := (r.oldLen : Int) - r.newLen

/-- Whether a path from either side has to have an odd number of edits in all. -/
def isOdd (r : Region) : Bool := r.delta % 2 != 0

/-- Whether a point `x`, `y` away from a corner is inside. -/
def holds (r : Region) (x : Nat) (y : Int) : Bool := x < r.oldLen && 0 ≤ y && y < r.newLen

/-- Advances the forward front on a diagonal; gives the middle if the fronts meet there. -/
def stepForward (s : Sides) (r : Region) (d : Nat) (k : Int) (f : Fronts) :
    Fronts × Option (Nat × Nat) :=
  let x0 := f.forward.entry d k
  let y0 : Int := x0 - k
  let run :=
    if r.holds x0 y0 then
      s.sharedStart (min (r.oldLen - x0) (r.newLen - y0.toNat)) (r.old + x0) (r.new + y0.toNat)
    else 0
  let x := x0 + run
  let f := { f with forward := f.forward.set k x }
  let meets := r.isOdd && (k - r.delta).natAbs + 1 ≤ d &&
    r.oldLen ≤ x + f.backward.get (-(k - r.delta))
  (f, if meets then some (r.old + x0, r.new + y0.toNat) else none)

/-- Advances the backward front on a diagonal; gives the middle if the fronts meet there. -/
def stepBackward (s : Sides) (r : Region) (d : Nat) (k : Int) (f : Fronts) :
    Fronts × Option (Nat × Nat) :=
  let x0 := f.backward.entry d k
  let y0 : Int := x0 - k
  let run :=
    if r.holds x0 y0 then
      s.sharedEnd (min (r.oldLen - x0) (r.newLen - y0.toNat)) (r.old + (r.oldLen - x0))
        (r.new + (r.newLen - y0.toNat))
    else 0
  let x := x0 + run
  let y := y0 + run
  let f := { f with backward := f.backward.set k x }
  let meets := !r.isOdd && (k - r.delta).natAbs ≤ d &&
    r.oldLen ≤ x + f.forward.get (-(k - r.delta))
  (f, if meets then some (r.old + (r.oldLen - x), r.new + (r.newLen - y.toNat)) else none)

/-- Runs steps until one gives the middle. -/
def firstMeeting (step : Int → Fronts → Fronts × Option (Nat × Nat)) :
    List Int → Fronts → Fronts × Option (Nat × Nat)
  | [], f => (f, none)
  | k :: ks, f =>
    match step k f with
    | (f, none) => firstMeeting step ks f
    | (f, some p) => (f, some p)

/-- The diagonals that paths of `d` edits can end on, from the largest. -/
def diagonals (d : Nat) : List Int := (List.range (d + 1)).map fun (i : Nat) => (d : Int) - 2 * i

/-- Advances both fronts by one edit after the other until they meet. -/
def search (s : Sides) (r : Region) : List Nat → Fronts → Fronts × Option (Nat × Nat)
  | [], f => (f, none)
  | d :: ds, f =>
    match firstMeeting (stepForward s r d) (diagonals d) f with
    | (f, some p) => (f, some p)
    | (f, none) =>
      match firstMeeting (stepBackward s r d) (diagonals d) f with
      | (f, some p) => (f, some p)
      | (f, none) => search s r ds f

/-- The middle of a shortest path through a region. -/
def middle (s : Sides) (r : Region) (f : Fronts) : Fronts × Option (Nat × Nat) :=
  search s r (List.range r.reach)
    { forward := f.forward.set 1 0, backward := f.backward.set 1 0 }

/-- An edit that keeps lines, unless there are none. -/
def kept (old new len : Nat) : List Edit := if len = 0 then [] else [⟨.equal, old, new, len⟩]

/-- Deletes the old lines and inserts the new ones. -/
def replaced (r : Region) : List Edit :=
  [⟨.delete, r.old, r.new, r.oldLen⟩, ⟨.insert, r.old, r.new, r.newLen⟩]

/-- The edits of a region. Regions are split at most `depth` times in a row; a split leaves fewer
lines on either side, so the number of lines suffices. -/
def edits (s : Sides) : (depth : Nat) → Region → Fronts → List Edit × Fronts
  | 0, r, f => (r.replaced, f)
  | depth + 1, r, f =>
    let start := s.sharedStart (min r.oldLen r.newLen) r.old r.new
    let left := min r.oldLen r.newLen - start
    let tail := s.sharedEnd left (r.old + r.oldLen) (r.new + r.newLen)
    let core : Region :=
      ⟨r.old + start, r.oldLen - start - tail, r.new + start, r.newLen - start - tail⟩
    let before := kept r.old r.new start
    let after := kept (core.old + core.oldLen) (core.new + core.newLen) tail
    let (inner, f) :=
      if core.oldLen = 0 && core.newLen = 0 then ([], f)
      else if core.newLen = 0 then ([⟨.delete, core.old, core.new, core.oldLen⟩], f)
      else if core.oldLen = 0 then ([⟨.insert, core.old, core.new, core.newLen⟩], f)
      else
        match middle s core f with
        | (f, none) => (core.replaced, f)
        | (f, some (x, y)) =>
          let upper : Region := ⟨core.old, x - core.old, core.new, y - core.new⟩
          let lower : Region :=
            ⟨x, core.old + core.oldLen - x, y, core.new + core.newLen - y⟩
          let (first, f) := edits s depth upper f
          let (second, f) := edits s depth lower f
          (first ++ second, f)
    (before ++ inner ++ after, f)

end Region

namespace Sides

/-- A script of edits from the old lines to the new ones, as the search finds it. -/
def script (s : Sides) : List Edit :=
  let whole : Region := ⟨0, s.old.size, 0, s.new.size⟩
  let front := Front.empty whole.reach
  (whole.edits s (s.old.size + s.new.size + 1) ⟨front, front⟩).1

end Sides

end GrammarLayout.Diff
