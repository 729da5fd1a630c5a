/-!
# Extents of comments

Comments look the same in the grammar and inside its actions. A line comment runs up to the end of
its line, which it leaves alone. A block comment runs through the first terminator after its
opener, or to the end of the text. Each function splits the text after the characters already read
into the rest of the comment and what follows it.
-/

namespace GrammarLayout

/-- Line feed and carriage return end a line. -/
def endsLine (c : Char) : Bool := c == '\n' || c == '\r'

/-- The rest of a line comment, and what follows it. -/
def lineComment (cs : List Char) : List Char × List Char :=
  (cs.takeWhile (!endsLine ·), cs.dropWhile (!endsLine ·))

/-- The rest of a block comment after its opener, terminator included, and what follows it. -/
def blockComment : List Char → List Char × List Char
  | [] => ([], [])
  | '*' :: '/' :: cs => (['*', '/'], cs)
  | c :: cs => (c :: (blockComment cs).1, (blockComment cs).2)

/-- The rest of a comment after its first slash, and what follows it; nothing if the slash does not
open a comment. -/
def comment? : List Char → Option (List Char × List Char)
  | '/' :: cs => some ('/' :: (lineComment cs).1, (lineComment cs).2)
  | '*' :: cs => some ('*' :: (blockComment cs).1, (blockComment cs).2)
  | _ => none

theorem lineComment_append (cs : List Char) : (lineComment cs).1 ++ (lineComment cs).2 = cs :=
  List.takeWhile_append_dropWhile

theorem blockComment_append (cs : List Char) : (blockComment cs).1 ++ (blockComment cs).2 = cs := by
  fun_induction blockComment cs with
  | case1 => rfl
  | case2 cs => rfl
  | case3 c cs _ ih => simp [ih]

/-- A comment and what follows it make up the text. -/
theorem comment?_append {cs l r : List Char} (h : comment? cs = some (l, r)) : l ++ r = cs := by
  unfold comment? at h
  split at h
  · simp only [Option.some.injEq, Prod.mk.injEq] at h
    rw [← h.1, ← h.2, List.cons_append, lineComment_append]
  · simp only [Option.some.injEq, Prod.mk.injEq] at h
    rw [← h.1, ← h.2, List.cons_append, blockComment_append]
  · exact absurd h (by simp)

end GrammarLayout
