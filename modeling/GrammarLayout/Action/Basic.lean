import GrammarLayout.Text.Comment

/-!
# Embedded actions

Actions are code of some other language between braces. Nothing is known of that code except what
is needed to find its end and to break its lines safely: quoted literals and comments are kept in
one piece, and a backslash takes the character after it along. Everything else is one piece per
character.

Two scanners share these extents. `pieces` splits a body, and `block` finds the brace that closes
it. The first is used to lay an action out, the second to delimit it.
-/

namespace GrammarLayout.Action

/-- Quotes of either kind open a literal. -/
def isQuote (c : Char) : Bool := c == '\'' || c == '"'

/-! ### Literals -/

/-- The rest of a literal after its opening quote, closing quote included, and what follows it. A
literal has to be closed on its line; a backslash takes any character after it along. -/
def literal? (quote : Char) : List Char → Option (List Char × List Char)
  | [] => none
  | c :: cs =>
    if c = '\\' then
      match cs with
      | [] => none
      | d :: ds => (literal? quote ds).map fun p => (c :: d :: p.1, p.2)
    else if endsLine c then none
    else if c = quote then some ([c], cs)
    else (literal? quote cs).map fun p => (c :: p.1, p.2)

/-- A literal and what follows it make up the text. -/
theorem literal?_append {q : Char} {cs l r : List Char} (h : literal? q cs = some (l, r)) :
    l ++ r = cs := by
  fun_induction literal? q cs generalizing l r with
  | case1 => simp at h
  | case2 => simp at h
  | case3 d ds ih =>
    obtain ⟨⟨l', r'⟩, hp, he⟩ := Option.map_eq_some_iff.1 h
    simp only [Prod.mk.injEq] at he
    rw [← he.1, ← he.2]
    simp [ih hp]
  | case4 => simp at h
  | case5 c cs =>
    simp only [Option.some.injEq, Prod.mk.injEq] at h
    rw [← h.1, ← h.2]
    rfl
  | case6 c cs _ _ _ ih =>
    obtain ⟨⟨l', r'⟩, hp, he⟩ := Option.map_eq_some_iff.1 h
    simp only [Prod.mk.injEq] at he
    rw [← he.1, ← he.2]
    simp [ih hp]

/-! ### Pieces -/

/-- The rest of the piece that starts with `c`, and what follows it. -/
def piece (c : Char) (cs : List Char) : List Char × List Char :=
  if c = '\\' then (cs.take 1, cs.drop 1)
  else if isQuote c then (literal? c cs).getD ([], cs)
  else if c = '/' then (comment? cs).getD ([], cs)
  else ([], cs)

/-- A piece and what follows it make up the text. -/
theorem piece_append (c : Char) (cs : List Char) : (piece c cs).1 ++ (piece c cs).2 = cs := by
  unfold piece
  split
  · exact List.take_append_drop 1 cs
  · split
    · cases h : literal? c cs with
      | none => rfl
      | some p => exact literal?_append h
    · split
      · cases h : comment? cs with
        | none => rfl
        | some p => exact comment?_append h
      · rfl

theorem length_piece_le (c : Char) (cs : List Char) : (piece c cs).2.length ≤ cs.length := by
  have h := congrArg List.length (piece_append c cs)
  simp only [List.length_append] at h
  omega

/-- The pieces of an action body. -/
def pieces : List Char → List (List Char)
  | [] => []
  | c :: cs => (c :: (piece c cs).1) :: pieces (piece c cs).2
termination_by cs => cs.length
decreasing_by
  have := length_piece_le c cs
  simp only [List.length_cons]
  omega

/-- The pieces make up the body. -/
theorem flatten_pieces (cs : List Char) : (pieces cs).flatten = cs := by
  fun_induction pieces cs with
  | case1 => rfl
  | case2 c cs ih => simp [ih, piece_append]

/-! ### Blocks -/

/-- A braced block after its opening brace: the text before the brace that closes it, whether there
is such a brace, and what follows it. An unclosed block takes the whole text. -/
structure Block where
  /-- The text before the closing brace. -/
  body : List Char
  /-- Whether the closing brace was found. -/
  closed : Bool
  /-- What follows the closing brace. -/
  rest : List Char
  deriving DecidableEq, Repr

namespace Block

/-- The closing brace as far as it is there. -/
def brace (b : Block) : List Char := if b.closed then ['\x7d'] else []

/-- The text after the opening brace, closing brace included. -/
def text (b : Block) : List Char := b.body ++ b.brace

/-- The block with more text at the start of its body. -/
def push (cs : List Char) (b : Block) : Block := { b with body := cs ++ b.body }

@[simp] theorem brace_push (cs : List Char) (b : Block) : (b.push cs).brace = b.brace := rfl

@[simp] theorem rest_push (cs : List Char) (b : Block) : (b.push cs).rest = b.rest := rfl

@[simp] theorem body_push (cs : List Char) (b : Block) : (b.push cs).body = cs ++ b.body := rfl

@[simp] theorem closed_push (cs : List Char) (b : Block) : (b.push cs).closed = b.closed := rfl

end Block

/-- Finds the end of a block, `depth` braces having been opened inside it so far. -/
def blockFrom (depth : Nat) : List Char → Block
  | [] => ⟨[], false, []⟩
  | c :: cs =>
    if c = '\\' then
      match cs with
      | [] => ⟨[c], false, []⟩
      | d :: ds => (blockFrom depth ds).push [c, d]
    else if isQuote c then
      match _h : literal? c cs with
      | some (l, r) => (blockFrom depth r).push (c :: l)
      | none => (blockFrom depth cs).push [c]
    else if c = '/' then
      match _h : comment? cs with
      | some (l, r) => (blockFrom depth r).push (c :: l)
      | none => (blockFrom depth cs).push [c]
    else if c = '\x7b' then (blockFrom (depth + 1) cs).push [c]
    else if c = '\x7d' then
      match depth with
      | 0 => ⟨[], true, cs⟩
      | n + 1 => (blockFrom n cs).push [c]
    else (blockFrom depth cs).push [c]
termination_by cs => cs.length
decreasing_by
  all_goals simp only [List.length_cons]
  all_goals try omega
  · have := congrArg List.length (literal?_append _h)
    simp only [List.length_append] at this
    omega
  · have := congrArg List.length (comment?_append _h)
    simp only [List.length_append] at this
    omega

/-- The block whose opening brace was just read. -/
def block (cs : List Char) : Block := blockFrom 0 cs

/-- A block and what follows it make up the text. -/
theorem blockFrom_append (depth : Nat) (cs : List Char) :
    (blockFrom depth cs).text ++ (blockFrom depth cs).rest = cs := by
  fun_induction blockFrom depth cs with
  | case1 => rfl
  | case2 => rfl
  | case3 depth d ds ih => simpa [Block.text] using ih
  | case4 depth c cs _ _ l r h ih =>
    rw [← literal?_append h]
    simpa [Block.text] using ih
  | case5 depth c cs _ _ h ih => simpa [Block.text] using ih
  | case6 depth cs l r h _ _ ih =>
    rw [← comment?_append h]
    simpa [Block.text] using ih
  | case7 depth cs h _ _ ih => simpa [Block.text] using ih
  | case8 depth cs _ _ _ ih => simpa [Block.text] using ih
  | case9 cs _ _ _ _ => simp [Block.text, Block.brace]
  | case10 cs _ _ _ _ n ih => simpa [Block.text] using ih
  | case11 depth c cs _ _ _ _ _ ih => simpa [Block.text] using ih

theorem block_append (cs : List Char) : (block cs).text ++ (block cs).rest = cs :=
  blockFrom_append 0 cs

end GrammarLayout.Action
