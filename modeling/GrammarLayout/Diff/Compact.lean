import GrammarLayout.Diff.Edit

/-!
# Compact scripts

A script can often be read in several ways: inserted lines that are also found just above or below
could as well have been inserted there. Each deletion, and then each insertion, is moved up as far
as it goes and then down as far as it goes, and meets others of its sort on the way. What is left of
deletions and insertions between two kept runs then becomes one change.

An edit that moves does so between the edits already passed, nearest first, and those to come.
-/

namespace GrammarLayout.Diff

/-- An edit among those before it, nearest first, and those after it. -/
structure Cursor where
  /-- The edits before, nearest first. -/
  before : List Edit
  /-- The edit that moves. -/
  edit : Edit
  /-- The edits after, in order. -/
  after : List Edit

/-- How many lines the edit has in the old text. -/
def Edit.oldLen (e : Edit) : Nat := if e.tag = .insert then 0 else e.len

/-- How many lines the edit has in the new text. -/
def Edit.newLen (e : Edit) : Nat := if e.tag = .delete then 0 else e.len

/-- A bound on the steps that edits allow another one to take past them. -/
def stepsPast : List Edit → Nat
  | [] => 0
  | e :: es => e.len + 1 + stepsPast es

/-- Kept lines in front of `after`, joined to a kept run there. -/
def keepBefore (old new len : Nat) : List Edit → List Edit
  | [] => [⟨.equal, old, new, len⟩]
  | e :: es =>
    if e.tag = .equal then ⟨.equal, e.old - len, e.new - len, e.len + len⟩ :: es
    else ⟨.equal, old, new, len⟩ :: e :: es

/-- Kept lines just after the edits passed, joined to a kept run there. -/
def keepAfter (old new len : Nat) : List Edit → List Edit
  | [] => [⟨.equal, old, new, len⟩]
  | e :: es =>
    if e.tag = .equal then { e with len := e.len + len } :: es
    else ⟨.equal, old, new, len⟩ :: e :: es

namespace Cursor

/-- Moves the edit up as far as it goes, in at most `steps` steps. -/
def up (s : Sides) : (steps : Nat) → Cursor → Cursor
  | 0, c => c
  | steps + 1, c =>
    match c.before with
    | [] => c
    | p :: ps =>
      if p.tag = .equal then
        let e := c.edit
        let n := s.sharedEnd (min p.len e.newLen) (p.old + p.len) (e.new + e.newLen)
        if n = 0 then if p.len = 0 then up s steps { c with before := ps } else c
        else
          let before := if p.len - n = 0 then ps else { p with len := p.len - n } :: ps
          let after := keepBefore (p.old + p.len - n) (e.new + e.newLen - n) n c.after
          up s steps ⟨before, { e with old := e.old - n, new := e.new - n }, after⟩
      else if p.tag = c.edit.tag then
        up s steps ⟨ps, { p with len := p.len + c.edit.len }, c.after⟩
      else up s steps ⟨ps, c.edit, p :: c.after⟩

/-- Moves the edit down as far as it goes, in at most `steps` steps. -/
def down (s : Sides) : (steps : Nat) → Cursor → Cursor
  | 0, c => c
  | steps + 1, c =>
    match c.after with
    | [] => c
    | q :: qs =>
      if q.tag = .equal then
        let e := c.edit
        let n := s.sharedStart (min q.len e.newLen) q.old e.new
        if n = 0 then if q.len = 0 then down s steps { c with after := qs } else c
        else
          let rest : Edit := ⟨.equal, q.old + n, q.new + n, q.len - n⟩
          let after := if rest.len = 0 then qs else rest :: qs
          let before := keepAfter q.old e.new n c.before
          down s steps ⟨before, { e with old := e.old + n, new := e.new + n }, after⟩
      else if q.tag = c.edit.tag then
        down s steps ⟨c.before, { c.edit with len := c.edit.len + q.len }, qs⟩
      else down s steps ⟨q :: c.before, c.edit, qs⟩

/-- Moves the edit up and then down as far as it goes. -/
def settle (s : Sides) (c : Cursor) : Cursor :=
  let c := c.up s (stepsPast c.before)
  c.down s (stepsPast c.after)

end Cursor

/-- Settles every edit of one sort, from the first to the last, passing at most `steps` edits. -/
def settleAll (s : Sides) (tag : Tag) :
    (steps : Nat) → (passed : List Edit) → List Edit → List Edit
  | 0, passed, es => passed.reverse ++ es
  | _ + 1, passed, [] => passed.reverse
  | steps + 1, passed, e :: es =>
    if e.tag = tag then
      let c := Cursor.settle s ⟨passed, e, es⟩
      settleAll s tag steps (c.edit :: c.before) c.after
    else settleAll s tag steps (e :: passed) es

/-! ### Changes -/

/-- A stretch of both texts: kept lines, or old lines that give way to new ones. -/
structure Change where
  /-- Whether the lines are kept. -/
  isKept : Bool
  /-- The first line in the old text. -/
  old : Nat
  /-- How many lines of the old text. -/
  oldLen : Nat
  /-- The first line in the new text. -/
  new : Nat
  /-- How many lines of the new text. -/
  newLen : Nat
  deriving DecidableEq, Repr

/-- Deletions and insertions between two kept runs that have been read so far. -/
structure Open where
  /-- The deletions, joined. -/
  deleted : Option Edit := none
  /-- The insertions, joined. -/
  inserted : Option Edit := none

/-- The change that deletions and insertions amount to. -/
def Open.change? (o : Open) : Option Change :=
  match o.deleted, o.inserted with
  | some d, some i => some ⟨false, d.old, d.len, i.new, i.len⟩
  | some d, none => some ⟨false, d.old, d.len, d.new, 0⟩
  | none, some i => some ⟨false, i.old, 0, i.new, i.len⟩
  | none, none => none

/-- Joins an edit to those of its sort. -/
def joinEdit (e : Edit) : Option Edit → Option Edit
  | none => some e
  | some d => some { d with len := d.len + e.len }

/-- Joins kept runs, and deletions and insertions between them, into changes. -/
def joinChanges (kept : Option Change) (o : Open) : List Edit → List Change
  | [] => kept.toList ++ o.change?.toList
  | e :: es =>
    match e.tag with
    | .equal =>
      match o.change? with
      | some c => kept.toList ++ c :: joinChanges (some ⟨true, e.old, e.len, e.new, e.len⟩) {} es
      | none =>
        let run : Change := match kept with
          | some k => { k with oldLen := k.oldLen + e.len, newLen := k.newLen + e.len }
          | none => ⟨true, e.old, e.len, e.new, e.len⟩
        joinChanges (some run) {} es
    | .delete =>
      kept.toList ++ joinChanges none { o with deleted := joinEdit e o.deleted } es
    | .insert =>
      kept.toList ++ joinChanges none { o with inserted := joinEdit e o.inserted } es

/-- The changes between two texts. -/
def Sides.changes (s : Sides) : List Change :=
  let steps := 4 * (s.old.size + s.new.size + 1)
  let edits := settleAll s .delete steps [] s.script
  joinChanges none {} (settleAll s .insert steps [] edits)

end GrammarLayout.Diff
