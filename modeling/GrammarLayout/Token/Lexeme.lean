import GrammarLayout.Action.Basic
import GrammarLayout.Token.Kind

/-!
# Lexemes

The flat scan of a source. The longest lexeme wins, and a whole word that is a keyword is that
keyword. A braced block is one lexeme here, because only what precedes it tells whether its body is
structure or an action.

Where no lexeme starts, an unknown one is made, so that the scan never loses a character
(`Lexeme.next_append`). An unclosed string literal or character set is unknown from its opener
through its last complete item; any other unplaced character is unknown by itself.
-/

namespace GrammarLayout

/-- One lexeme of the flat scan. -/
inductive Lexeme
  /-- A lexeme whose kind the scan already knows. -/
  | plain (kind : Kind) (text : List Char)
  /-- A braced block with its body, and whether its closing brace is there. -/
  | braced (body : List Char) (closed : Bool)
  /-- Characters that start no lexeme. -/
  | unknown (text : List Char)
  deriving DecidableEq, Repr

namespace Lexeme

/-- The closing brace of a block, as far as it is there. -/
def closingBrace (closed : Bool) : List Char := if closed then ['\x7d'] else []

/-- The characters of a lexeme. -/
def text : Lexeme → List Char
  | plain _ cs => cs
  | braced body closed => '\x7b' :: (body ++ closingBrace closed)
  | unknown cs => cs

/-! ### Character classes -/

/-- The characters that separate lexemes. -/
def isSpace (c : Char) : Bool := c == ' ' || c == '\t' || c == '\r' || c == '\n' || c == '\x0c'

/-- The characters of a word after its first letter. -/
def isWordChar (c : Char) : Bool := c.isAlphanum || c == '_'

/-! ### String literals and character sets -/

/-- The longest run of complete items, and what follows it. An item is a character that does not
stop the run, or a backslash with the character after it, which may not be a line feed. -/
def items (stops : Char → Bool) : List Char → List Char × List Char
  | [] => ([], [])
  | c :: cs =>
    if c = '\\' then
      match cs with
      | [] => ([], [c])
      | d :: ds =>
        if d = '\n' then ([], c :: d :: ds)
        else (c :: d :: (items stops ds).1, (items stops ds).2)
    else if stops c then ([], c :: cs)
    else (c :: (items stops cs).1, (items stops cs).2)

theorem items_append (stops : Char → Bool) (cs : List Char) :
    (items stops cs).1 ++ (items stops cs).2 = cs := by
  fun_induction items stops cs <;> simp_all

/-- A lexeme that starts with `opener` and runs through its items to `closer`. -/
def delimited (kind : Kind) (stops : Char → Bool) (closer opener : Char) (cs : List Char) :
    Lexeme × List Char :=
  match items stops cs with
  | (body, []) => (unknown (opener :: body), [])
  | (body, c :: rest) =>
    if c = closer then (plain kind (opener :: (body ++ [c])), rest)
    else (unknown (opener :: body), c :: rest)

/-- A single quote and the ends of lines stop the items of a string literal. -/
def stopsLiteral (c : Char) : Bool := c == '\'' || endsLine c

/-- A closing bracket stops the items of a character set. -/
def stopsSet (c : Char) : Bool := c == ']'

/-! ### The scan -/

/-- The lexeme of the characters that stand for themselves, alone or in pairs. -/
def punctuation (c : Char) (cs : List Char) : Lexeme × List Char :=
  match cs with
  | [] => (single c, [])
  | d :: ds =>
    match Kind.ofPair? c d with
    | some kind => (plain kind [c, d], ds)
    | none => (single c, d :: ds)
where
  /-- The lexeme of one character. -/
  single (c : Char) : Lexeme :=
    match Kind.ofPunctuation? c with
    | some kind => plain kind [c]
    | none => unknown [c]

/-- The kind of the comment whose opening slash is followed by `cs`. -/
def commentKind : List Char → Kind
  | '*' :: _ => .blockComment
  | _ => .lineComment

/-- The lexeme that starts with `c`, and what follows it. -/
def next (c : Char) (cs : List Char) : Lexeme × List Char :=
  if isSpace c then (plain .whitespace (c :: cs.takeWhile isSpace), cs.dropWhile isSpace)
  else if c.isDigit then
    (plain .int (c :: cs.takeWhile Char.isDigit), cs.dropWhile Char.isDigit)
  else if c.isUpper then
    (plain .tokenRef (c :: cs.takeWhile isWordChar), cs.dropWhile isWordChar)
  else if c.isLower then
    let word := c :: cs.takeWhile isWordChar
    (plain (Kind.ofWord word) word, cs.dropWhile isWordChar)
  else if c = '\'' then delimited .stringLiteral stopsLiteral '\'' c cs
  else if c = '[' then delimited .charSet stopsSet ']' c cs
  else if c = '\x7b' then
    let b := Action.block cs
    (braced b.body b.closed, b.rest)
  else if c = '/' then
    match comment? cs with
    | some (l, r) => (plain (commentKind cs) (c :: l), r)
    | none => (unknown [c], cs)
  else punctuation c cs

theorem delimited_append (kind : Kind) (stops : Char → Bool) (closer opener : Char)
    (cs : List Char) :
    (delimited kind stops closer opener cs).1.text ++ (delimited kind stops closer opener cs).2 =
      opener :: cs := by
  have h := items_append stops cs
  unfold delimited
  split
  · rename_i heq
    simp_all [text]
  · rename_i heq
    rw [heq] at h
    split <;> simp_all [text]

theorem punctuation_append (c : Char) (cs : List Char) :
    (punctuation c cs).1.text ++ (punctuation c cs).2 = c :: cs := by
  have hs : (punctuation.single c).text = [c] := by
    unfold punctuation.single
    split <;> rfl
  unfold punctuation
  split
  · simp [hs]
  · split
    · rfl
    · simp [hs]

/-- A lexeme and what follows it make up the text. -/
theorem next_append (c : Char) (cs : List Char) :
    (next c cs).1.text ++ (next c cs).2 = c :: cs := by
  unfold next
  split
  · simp [text, List.takeWhile_append_dropWhile]
  split
  · simp [text, List.takeWhile_append_dropWhile]
  split
  · simp [text, List.takeWhile_append_dropWhile]
  split
  · simp [text, List.takeWhile_append_dropWhile]
  split
  · exact delimited_append ..
  split
  · exact delimited_append ..
  split
  · rename_i hc
    have h := Action.block_append cs
    simp only [Action.Block.text, Action.Block.brace] at h
    simp [text, closingBrace, hc, -List.append_assoc, h]
  split
  · split
    · rename_i heq
      simpa [text] using comment?_append heq
    · rfl
  · exact punctuation_append c cs

/-- A lexeme has at least one character. -/
theorem text_next_ne_nil (c : Char) (cs : List Char) : (next c cs).1.text ≠ [] := by
  have hp : (punctuation c cs).1.text ≠ [] := by
    have hs : (punctuation.single c).text = [c] := by
      unfold punctuation.single
      split <;> rfl
    unfold punctuation
    split
    · simp [hs]
    · split <;> simp_all [text]
  have hd : ∀ kind stops closer, (delimited kind stops closer c cs).1.text ≠ [] := by
    intro kind stops closer
    unfold delimited
    split
    · simp [text]
    · split <;> simp [text]
  unfold next
  repeat' split
  all_goals first | exact hp | exact hd _ _ _ | simp [text]

theorem length_next_lt (c : Char) (cs : List Char) : (next c cs).2.length < cs.length + 1 := by
  have h := congrArg List.length (next_append c cs)
  have hn := List.length_pos_iff.2 (text_next_ne_nil c cs)
  simp only [List.length_append, List.length_cons] at h
  omega

/-- The lexemes of a text. -/
def scan : List Char → List Lexeme
  | [] => []
  | c :: cs => (next c cs).1 :: scan (next c cs).2
termination_by cs => cs.length
decreasing_by
  have := length_next_lt c cs
  simpa using this

/-- The lexemes make up the text. -/
theorem flatMap_text_scan (cs : List Char) : (scan cs).flatMap text = cs := by
  fun_induction scan cs with
  | case1 => rfl
  | case2 c cs ih => simp [ih, next_append]

end Lexeme

end GrammarLayout
