import GrammarLayout.Proofs.Token.Scanning
import GrammarLayout.Text.Blank

/-!
# Pieces and blocks

The scanner that splits the body of an action and the one that finds its end are two recursions over
characters. Here the second is told by the first: a block is scanned piece by piece
(`blockFrom_of_piece`), and only the pieces that are a brace by themselves count. So a block is
known by its pieces and by the braces open after them (`depthThrough`).

A piece is *read* before a text if the scanner takes just that piece (`Reads`). Most pieces are read
before any text at all. The others are open at their end (`isOpen`): a quote without its partner, a
slash that starts no comment, a backslash with nothing to take along, a line comment, and a block
comment without its terminator.

What a piece needs of the text after it is the subject of the first half. A piece that is not open
at its end needs nothing (`Reads.again`). For an open one, the start of the text decides:

* after a line comment it has to be a line end, or nothing (`Reads.line_again`);

* after a slash it must not go on to a comment, which its first character tells
  (`Reads.again_of_head`), and a backslash has to be the last character;

* a block comment without its terminator has to be the last piece (`Reads.closed`);

* a quote looks at the whole line, for its partner. No property of the first character is enough for
  it, so the lemma about first characters leaves quotes out.

The second half counts braces. `depthAfter` is the step and `depthThrough` the run; a block that is
closed is a body whose braces are balanced in front of a brace (`of_closed`), and one that is open
is a text in which no piece closes it (`of_not_closed`).
-/

namespace GrammarLayout.Action

/-! ### Literals and comments before another text -/

/-- A literal is read again before any text, since it ends with its own quote. -/
theorem literal?_again {q : Char} {cs l r : List Char} (h : literal? q cs = some (l, r))
    (r' : List Char) : literal? q (l ++ r') = some (l, r') := by
  fun_induction literal? q cs generalizing l r with
  | case1 => simp at h
  | case2 => simp at h
  | case3 d ds ih =>
    obtain ⟨⟨l', r₀⟩, hp, he⟩ := Option.map_eq_some_iff.1 h
    obtain ⟨rfl, -⟩ := Prod.mk.inj he
    simp [literal?, ih hp]
  | case4 => simp at h
  | case5 cs hb he =>
    simp only [Option.some.injEq, Prod.mk.injEq] at h
    rw [← h.1, List.singleton_append, literal?.eq_def]
    simp only [if_neg hb, if_neg he, if_true]
  | case6 c cs hb he hq ih =>
    obtain ⟨⟨l', r₀⟩, hp, hl⟩ := Option.map_eq_some_iff.1 h
    obtain ⟨rfl, -⟩ := Prod.mk.inj hl
    rw [List.cons_append, literal?.eq_def]
    simp [hb, he, hq, ih hp]

/-- A quote without a partner has none in a part of the text either. -/
theorem literal?_cut {q : Char} {cs more : List Char} (h : literal? q (cs ++ more) = none) :
    literal? q cs = none := by
  cases hc : literal? q cs with
  | none => rfl
  | some p =>
    have ha := literal?_again (l := p.1) (r := p.2) hc (p.2 ++ more)
    rw [← List.append_assoc, literal?_append hc, h] at ha
    exact absurd ha (by simp)

/-- A block comment is closed, or takes the whole text. There is no third way to end one. -/
theorem blockComment_closed (cs : List Char) :
    ['*', '/'] <:+ (blockComment cs).1 ∨ (blockComment cs).2 = [] := by
  fun_induction blockComment cs with
  | case1 => exact .inr rfl
  | case2 cs => exact .inl (List.suffix_refl _)
  | case3 c cs _ ih => exact ih.imp (fun h ↦ h.trans (List.suffix_cons _ _)) id

/-- What follows a comment: a line comment leaves the line end, and a block comment without its
terminator leaves nothing. -/
theorem follows_comment {cs l r : List Char} (h : comment? cs = some (l, r)) :
    (Lexeme.commentKind cs = .lineComment ∧ ∀ c ∈ r.head?, endsLine c = true) ∨
      (Lexeme.commentKind cs = .blockComment ∧ (['*', '/'] <:+ l.drop 1 ∨ r = [])) := by
  unfold comment? at h
  split at h
  · rename_i cs
    simp only [Option.some.injEq, Prod.mk.injEq] at h
    refine .inl ⟨by simp [Lexeme.commentKind], fun c hc ↦ ?_⟩
    have hd := List.head?_dropWhile_not (!endsLine ·) cs
    rw [← h.2, lineComment, Option.mem_def] at hc
    rw [hc] at hd
    simpa using hd
  · rename_i cs
    simp only [Option.some.injEq, Prod.mk.injEq] at h
    rw [← h.1, ← h.2]
    exact .inr ⟨by simp [Lexeme.commentKind], blockComment_closed cs⟩
  · exact absurd h (by simp)

/-! ### Reading a piece -/

@[simp] theorem pieces_nil : pieces [] = [] := by rw [pieces]

/-- The scanner takes just this piece off the text. -/
def Reads (p rest : List Char) : Prop := ∃ c l, p = c :: l ∧ piece c (l ++ rest) = (l, rest)

/-- Whether a piece is open at its end, so that what follows decides how it is read. -/
def isOpen : List Char → Bool
  | [c] => isQuote c || c == '/' || c == '\\'
  | '/' :: '/' :: _ => true
  | '/' :: '*' :: cs => !(['*', '/'].isSuffixOf cs)
  | _ => false

/-- What the scanner takes is read before what it leaves. -/
theorem reads_piece (c : Char) (cs : List Char) :
    Reads (c :: (piece c cs).1) (piece c cs).2 :=
  ⟨c, (piece c cs).1, rfl, by rw [piece_append]⟩

/-- A character that means nothing to the scanner is a piece before any text. Braces are among these
characters: the scanner for pieces does not match them. -/
theorem reads_singleton {c : Char} (h : isOpen [c] = false) (rest : List Char) :
    Reads [c] rest := by
  simp only [isOpen, Bool.or_eq_false_iff, beq_eq_false_iff_ne] at h
  refine ⟨c, [], rfl, ?_⟩
  rw [piece, if_neg h.2, if_neg (by simp [h.1.1]), if_neg h.1.2, List.nil_append]

/-- What starts a piece that is open at its end is not blank. -/
theorem isBlank_of_isOpen {c : Char} {cs : List Char} (h : isOpen (c :: cs) = true) :
    isBlank c = false := by
  unfold isOpen at h
  split at h
  · rename_i he
    obtain ⟨rfl, -⟩ := List.cons.inj he
    simp only [isQuote, Bool.or_eq_true, beq_iff_eq] at h
    rcases h with ((rfl | rfl) | rfl) | rfl <;> decide
  · rename_i he
    obtain ⟨rfl, -⟩ := List.cons.inj he
    decide
  · rename_i he
    obtain ⟨rfl, -⟩ := List.cons.inj he
    decide
  · exact absurd h (by decide)

namespace Reads

variable {p rest : List Char}

/-- What is read is known by its text, since the piece and the rest make up the whole. -/
theorem of_piece {c : Char} {l : List Char} (h : (piece c (l ++ rest)).1 = l) :
    Reads (c :: l) rest := by
  have happ := piece_append c (l ++ rest)
  rw [h] at happ
  exact ⟨c, l, rfl, Prod.ext h (List.append_cancel_left happ)⟩

theorem ne_nil (h : Reads p rest) : p ≠ [] := by
  obtain ⟨c, l, rfl, -⟩ := h
  exact List.cons_ne_nil c l

/-- The pieces of a text start with the piece that is read. -/
theorem pieces_append (h : Reads p rest) : pieces (p ++ rest) = p :: pieces rest := by
  obtain ⟨c, l, rfl, hp⟩ := h
  rw [List.cons_append, pieces, hp]

/-- How a piece that starts with a quote is read. -/
theorem quote_cases {q : Char} {l : List Char} (hq : isQuote q = true)
    (h : piece q (l ++ rest) = (l, rest)) :
    literal? q (l ++ rest) = some (l, rest) ∨ (l = [] ∧ literal? q rest = none) := by
  have hb : q ≠ '\\' := by rintro rfl; exact absurd hq (by decide)
  rw [piece, if_neg hb, if_pos hq] at h
  cases hl : literal? q (l ++ rest) with
  | some r => rw [hl] at h; exact .inl (congrArg some h)
  | none =>
    rw [hl] at h
    obtain ⟨rfl, -⟩ := Prod.mk.inj h
    exact .inr ⟨rfl, hl⟩

/-- How a piece that starts with a slash is read. -/
theorem slash_cases {l : List Char} (h : piece '/' (l ++ rest) = (l, rest)) :
    comment? (l ++ rest) = some (l, rest) ∨ (l = [] ∧ comment? rest = none) := by
  rw [piece, if_neg (by decide), if_neg (by decide), if_pos rfl] at h
  cases hl : comment? (l ++ rest) with
  | some r => rw [hl] at h; exact .inl (congrArg some h)
  | none =>
    rw [hl] at h
    obtain ⟨rfl, -⟩ := Prod.mk.inj h
    exact .inr ⟨rfl, hl⟩

/-- How a piece that starts with a backslash is read. -/
theorem backslash_cases {l : List Char} (h : piece '\\' (l ++ rest) = (l, rest)) :
    (∃ d, l = [d]) ∨ (l = [] ∧ rest = []) := by
  rw [piece, if_pos rfl] at h
  obtain ⟨ht, hd⟩ := Prod.mk.inj h
  cases l with
  | nil =>
    cases rest with
    | nil => exact .inr ⟨rfl, rfl⟩
    | cons d ds => exact absurd ht (by simp)
  | cons d ds =>
    rw [List.cons_append, List.take_succ_cons, List.take_zero, List.cons.injEq] at ht
    exact .inl ⟨d, by rw [ht.2]⟩

/-- A comment is read as a piece. -/
theorem of_comment {l : List Char} (h : comment? (l ++ rest) = some (l, rest)) :
    Reads ('/' :: l) rest := by
  refine ⟨'/', l, rfl, ?_⟩
  rw [piece, if_neg (by decide), if_neg (by decide), if_pos rfl, h]
  rfl

/-- A quote without a partner is read as a piece. -/
theorem of_quote {q : Char} (hq : isQuote q = true) (h : literal? q rest = none) :
    Reads [q] rest := by
  have hb : q ≠ '\\' := by rintro rfl; exact absurd hq (by decide)
  refine ⟨q, [], rfl, ?_⟩
  rw [List.nil_append, piece, if_neg hb, if_pos hq, h]
  rfl

/-- A slash that starts no comment is read as a piece. -/
theorem of_slash (h : comment? rest = none) : Reads ['/'] rest := by
  refine ⟨'/', [], rfl, ?_⟩
  rw [List.nil_append, piece, if_neg (by decide), if_neg (by decide), if_pos rfl, h]
  rfl

/-- **A piece that is not open at its end is read before any text.** The first character tells which
of the scanners took the piece, and each of them stops where it stopped. -/
theorem again (h : Reads p rest) (ho : isOpen p = false) (rest' : List Char) : Reads p rest' := by
  obtain ⟨c, l, rfl, hp⟩ := h
  by_cases hb : c = '\\'
  · subst hb
    rcases backslash_cases hp with ⟨d, rfl⟩ | ⟨rfl, -⟩
    · exact ⟨'\\', [d], rfl, rfl⟩
    · exact absurd ho (by decide)
  by_cases hq : isQuote c = true
  · rcases quote_cases hq hp with hl | ⟨rfl, -⟩
    · refine ⟨c, l, rfl, ?_⟩
      rw [piece, if_neg hb, if_pos hq, literal?_again hl rest']
      rfl
    · exact absurd ho (by simp [isOpen, hq])
  by_cases hs : c = '/'
  · subst hs
    rcases slash_cases hp with hl | ⟨rfl, -⟩
    · -- of the comments only block comments with their terminator are not open
      have hclosed : Lexeme.commentKind (l ++ rest) = .blockComment ∧ ['*', '/'] <:+ l.drop 1 := by
        unfold comment? at hl
        split at hl
        · simp only [Option.some.injEq, Prod.mk.injEq] at hl
          rw [← hl.1] at ho
          exact absurd ho (by simp [isOpen])
        · simp only [Option.some.injEq, Prod.mk.injEq] at hl
          obtain ⟨rfl, -⟩ := hl
          refine ⟨by simp [Lexeme.commentKind], ?_⟩
          simpa [isOpen] using ho
        · exact absurd hl (by simp)
      exact of_comment (Lexeme.comment?_again hl
        (fun hk ↦ absurd (hclosed.1.symm.trans hk) (by decide)) fun _ ↦ hclosed.2).1
    · exact absurd ho (by decide)
  · have hl : l = [] := by
      rw [piece, if_neg hb, if_neg hq, if_neg hs] at hp
      exact (Prod.mk.inj hp).1.symm
    rw [hl] at ho ⊢
    exact reads_singleton ho rest'

/-- A line comment is read before any line end. -/
theorem line_again {cs : List Char} (h : Reads ('/' :: '/' :: cs) rest) {rest' : List Char}
    (hr : ∀ c ∈ rest'.head?, endsLine c = true) : Reads ('/' :: '/' :: cs) rest' := by
  obtain ⟨c, l, he, hp⟩ := h
  obtain ⟨rfl, rfl⟩ := List.cons.inj he
  rcases slash_cases hp with hl | ⟨hn, -⟩
  · exact of_comment (Lexeme.comment?_again hl (fun _ ↦ hr)
      fun hk ↦ absurd hk (by simp [Lexeme.commentKind])).1
  · exact absurd hn (by simp)

/-- A block comment before some text is closed. -/
theorem closed {cs : List Char} (h : Reads ('/' :: '*' :: cs) rest) (hr : rest ≠ []) :
    ['*', '/'] <:+ cs := by
  obtain ⟨c, l, he, hp⟩ := h
  obtain ⟨rfl, rfl⟩ := List.cons.inj he
  rcases slash_cases hp with hl | ⟨hn, -⟩
  · rw [List.cons_append, comment?, Option.some.injEq, Prod.mk.injEq, List.cons.injEq] at hl
    obtain ⟨⟨-, hb⟩, hrest⟩ := hl
    have hc := blockComment_closed (cs ++ rest)
    rw [hb, hrest] at hc
    exact hc.resolve_right hr
  · exact absurd hn (by simp)

/-- What follows a line comment is a line end. -/
theorem endsLine_head {cs : List Char} (h : Reads ('/' :: '/' :: cs) rest) :
    ∀ c ∈ rest.head?, endsLine c = true := by
  obtain ⟨c, l, he, hp⟩ := h
  obtain ⟨rfl, rfl⟩ := List.cons.inj he
  rcases slash_cases hp with hl | ⟨hn, -⟩
  · rcases follows_comment hl with ⟨-, hr⟩ | ⟨hk, -⟩
    · exact hr
    · exact absurd hk (by simp [Lexeme.commentKind])
  · exact absurd hn (by simp)

/-- A piece that is open at its end and no quote is read again before a text that starts as the one
before which it was read. -/
theorem again_of_head (h : Reads p rest) (ho : isOpen p = true)
    (hq : ∀ c, isQuote c = true → p ≠ [c]) {d : Char} (hd : rest.head? = some d)
    {rest' : List Char} (hd' : rest'.head? = some d) : Reads p rest' := by
  have hne : rest ≠ [] := by
    rintro rfl
    exact absurd hd (by simp)
  unfold isOpen at ho
  split at ho
  · rename_i c
    simp only [Bool.or_eq_true, beq_iff_eq] at ho
    obtain ⟨c', l, he, hp⟩ := h
    obtain ⟨rfl, rfl⟩ := List.cons.inj he
    rcases ho with (hquote | rfl) | rfl
    · exact absurd rfl (hq c hquote)
    · rcases slash_cases hp with hl | ⟨-, hn⟩
      · unfold comment? at hl
        split at hl <;> simp at hl
      · -- whether a slash starts a comment is decided by the next character
        obtain ⟨more, rfl⟩ := List.head?_eq_some_iff.1 hd
        obtain ⟨more', rfl⟩ := List.head?_eq_some_iff.1 hd'
        refine of_slash ?_
        unfold comment? at hn ⊢
        split at hn <;> simp_all
    · rcases backslash_cases hp with ⟨e, he⟩ | ⟨-, hn⟩
      · exact absurd he (by simp)
      · exact absurd hn hne
  · refine h.line_again fun c hc ↦ h.endsLine_head c ?_
    rw [hd', ← hd] at hc
    exact hc
  · have hcl := h.closed hne
    rw [← List.isSuffixOf_iff_suffix] at hcl
    rw [hcl] at ho
    exact absurd ho (by decide)
  · exact absurd ho (by decide)

/-- A piece that is read before a closing brace is read before a part of that text that ends at the
brace. -/
theorem cut {cs more : List Char} (h : Reads p (cs ++ '\x7d' :: more)) : Reads p cs := by
  cases ho : isOpen p with
  | false => exact h.again ho cs
  | true =>
    obtain ⟨c, l, rfl, hp⟩ := h
    by_cases hb : c = '\\'
    · subst hb
      rcases backslash_cases hp with ⟨d, rfl⟩ | ⟨-, hn⟩
      · exact absurd ho (by simp [isOpen])
      · exact absurd hn (by simp)
    by_cases hq : isQuote c = true
    · rcases quote_cases hq hp with hl | ⟨rfl, hl⟩
      · refine ⟨c, l, rfl, ?_⟩
        rw [piece, if_neg hb, if_pos hq, literal?_again hl cs]
        rfl
      · exact of_quote hq (literal?_cut hl)
    by_cases hs : c = '/'
    · subst hs
      rcases slash_cases hp with hl | ⟨rfl, hl⟩
      · refine of_comment (Lexeme.comment?_again hl (fun hk ↦ ?_) fun hk ↦ ?_).1
        · -- the brace is not on the line of the comment
          rcases follows_comment hl with ⟨-, hr⟩ | ⟨hk', -⟩
          · cases cs with
            | nil => exact absurd (hr '\x7d' rfl) (by decide)
            | cons d ds => exact fun e he ↦ hr e he
          · exact absurd (hk.symm.trans hk') (by decide)
        · rcases follows_comment hl with ⟨hk', -⟩ | ⟨-, hr | hr⟩
          · exact absurd (hk'.symm.trans hk) (by decide)
          · exact hr
          · exact absurd hr (by simp)
      · refine of_slash ?_
        cases cs with
        | nil => rfl
        | cons d ds =>
          unfold comment? at hl ⊢
          split at hl <;> simp_all
    · have hl : l = [] := by
        rw [piece, if_neg hb, if_neg hq, if_neg hs] at hp
        exact (Prod.mk.inj hp).1.symm
      rw [hl] at ho
      exact absurd ho (by simp [isOpen, hb, hq, hs])

end Reads

/-! ### Braces open after pieces -/

/-- The braces open after a piece, `depth` of them having been open before it; nothing if the piece
closes the block. -/
def depthAfter (depth : Nat) (p : List Char) : Option Nat :=
  if p = ['\x7b'] then some (depth + 1)
  else if p = ['\x7d'] then
    match depth with
    | 0 => none
    | n + 1 => some n
  else some depth

/-- The braces open after pieces, if none of them closes the block. -/
def depthThrough (depth : Nat) : List (List Char) → Option Nat
  | [] => some depth
  | p :: ps => (depthAfter depth p).bind fun d ↦ depthThrough d ps

/-- At the end of the text a block is open. -/
@[simp] theorem blockFrom_nil (depth : Nat) : blockFrom depth [] = ⟨[], false, []⟩ := by
  rw [blockFrom.eq_def]

/-- **A block is scanned piece by piece.** A brace by itself changes the depth; a brace inside a
longer piece does not. -/
theorem Reads.blockFrom_append {p rest : List Char} (h : Reads p rest) (depth : Nat) :
    blockFrom depth (p ++ rest) =
      match depthAfter depth p with
      | some d => (blockFrom d rest).push p
      | none => ⟨[], true, rest⟩ := by
  obtain ⟨c, l, rfl, hp⟩ := h
  rw [List.cons_append]
  by_cases hb : c = '\\'
  · subst hb
    -- both scanners take the next character along
    rcases Reads.backslash_cases hp with ⟨d, rfl⟩ | ⟨rfl, rfl⟩
    · rw [blockFrom.eq_def]
      simp [depthAfter]
    · rw [blockFrom.eq_def]
      simp [depthAfter, Block.push]
  by_cases hq : isQuote c = true
  · have hd : depthAfter depth (c :: l) = some depth := by
      have hne : c ≠ '\x7b' ∧ c ≠ '\x7d' := by
        constructor <;> rintro rfl <;> exact absurd hq (by decide)
      simp [depthAfter, hne]
    rw [hd, blockFrom.eq_def]
    dsimp only
    rw [if_neg hb, if_pos hq]
    -- a literal, or a quote by itself
    rcases Reads.quote_cases hq hp with hl | ⟨rfl, hl⟩
    · split
      · rename_i heq; rw [hl] at heq; obtain ⟨rfl, rfl⟩ := Prod.mk.inj (Option.some.inj heq); rfl
      · rename_i heq; rw [hl] at heq; exact absurd heq (by simp)
    · rw [List.nil_append]
      split
      · rename_i heq; rw [hl] at heq; exact absurd heq (by simp)
      · rfl
  by_cases hs : c = '/'
  · subst hs
    have hd : depthAfter depth ('/' :: l) = some depth := by simp [depthAfter]
    rw [hd, blockFrom.eq_def]
    dsimp only
    rw [if_neg hb, if_neg hq, if_pos rfl]
    -- a comment, or a slash by itself
    rcases Reads.slash_cases hp with hl | ⟨rfl, hl⟩
    · split
      · rename_i heq; rw [hl] at heq; obtain ⟨rfl, rfl⟩ := Prod.mk.inj (Option.some.inj heq); rfl
      · rename_i heq; rw [hl] at heq; exact absurd heq (by simp)
    · rw [List.nil_append]
      split
      · rename_i heq; rw [hl] at heq; exact absurd heq (by simp)
      · rfl
  · have hl : l = [] := by
      rw [piece, if_neg hb, if_neg hq, if_neg hs] at hp
      exact (Prod.mk.inj hp).1.symm
    subst hl
    rw [List.nil_append, blockFrom.eq_def]
    dsimp only
    rw [if_neg hb, if_neg hq, if_neg hs]
    -- only a brace that is a piece by itself is counted
    by_cases ho : c = '\x7b'
    · subst ho
      simp [depthAfter]
    by_cases hc : c = '\x7d'
    · subst hc
      cases depth <;> simp [depthAfter]
    · simp [depthAfter, ho, hc]

/-- The brace that closes a block. What follows it is left to the scan. -/
theorem blockFrom_closing (rest : List Char) : blockFrom 0 ('\x7d' :: rest) = ⟨[], true, rest⟩ :=
  (reads_singleton (by decide) rest).blockFrom_append 0

/-! ### Reading pieces one after the other -/

/-- The scanner takes these pieces off the text, one after the other. -/
def ReadAll : List (List Char) → List Char → Prop
  | [], _ => True
  | p :: ps, rest => Reads p (ps.flatten ++ rest) ∧ ReadAll ps rest

/-- Pieces in two parts. -/
theorem readAll_append {ps ps' : List (List Char)} {rest : List Char} :
    ReadAll (ps ++ ps') rest ↔ ReadAll ps (ps'.flatten ++ rest) ∧ ReadAll ps' rest := by
  induction ps with
  | nil => simp [ReadAll]
  | cons p ps ih =>
    rw [List.cons_append, ReadAll, ReadAll, ih, List.flatten_append, List.append_assoc, and_assoc]

namespace ReadAll

variable {ps ps' : List (List Char)} {rest : List Char}

theorem append (h : ReadAll ps (ps'.flatten ++ rest)) (h' : ReadAll ps' rest) :
    ReadAll (ps ++ ps') rest :=
  readAll_append.2 ⟨h, h'⟩

/-- Pieces that are read are the pieces of the text. -/
theorem pieces_append (h : ReadAll ps rest) : pieces (ps.flatten ++ rest) = ps ++ pieces rest := by
  induction ps with
  | nil => rfl
  | cons p ps ih =>
    rw [List.flatten_cons, List.append_assoc, h.1.pieces_append, ih h.2]
    rfl

/-- Pieces that do not close a block are passed through. -/
theorem blockFrom_append (h : ReadAll ps rest) {depth d : Nat}
    (hd : depthThrough depth ps = some d) :
    blockFrom depth (ps.flatten ++ rest) = (blockFrom d rest).push ps.flatten := by
  induction ps generalizing depth with
  | nil =>
    obtain rfl : depth = d := Option.some.inj hd
    rfl
  | cons p ps ih =>
    obtain ⟨d', hp, hps⟩ := Option.bind_eq_some_iff.1 hd
    rw [List.flatten_cons, List.append_assoc, h.1.blockFrom_append, hp]
    show (blockFrom d' (ps.flatten ++ rest)).push p = _
    rw [ih h.2 hps]
    simp [Block.push]

/-- Pieces that are read before a closing brace are read up to it. -/
theorem cut {cs more : List Char} (h : ReadAll ps (cs ++ '\x7d' :: more)) : ReadAll ps cs := by
  induction ps with
  | nil => trivial
  | cons p ps ih =>
    have hp := h.1
    rw [← List.append_assoc] at hp
    exact ⟨hp.cut, ih h.2⟩

end ReadAll

/-- The pieces of a text are read. -/
theorem readAll_pieces (cs : List Char) : ReadAll (pieces cs) [] := by
  fun_induction pieces cs with
  | case1 => trivial
  | case2 c cs ih =>
    refine ⟨?_, ih⟩
    rw [List.append_nil, flatten_pieces]
    exact reads_piece c cs

/-- Every piece of a text is read somewhere. -/
theorem ReadAll.exists_reads {ps : List (List Char)} {rest p : List Char} (h : ReadAll ps rest)
    (hp : p ∈ ps) : ∃ rest', Reads p rest' := by
  induction ps with
  | nil => exact absurd hp (by simp)
  | cons q ps ih =>
    rcases List.mem_cons.1 hp with rfl | hp
    · exact ⟨_, h.1⟩
    · exact ih h.2 hp

/-- **A closed block, by its pieces**: they are read up to the closing brace, and leave no brace
open. So the body can be split on its own, which is how the tokens of an action are found. -/
theorem of_closed {depth : Nat} {cs body rest : List Char}
    (h : blockFrom depth cs = ⟨body, true, rest⟩) :
    cs = body ++ '\x7d' :: rest ∧ ReadAll (pieces body) ('\x7d' :: rest) ∧
      depthThrough depth (pieces body) = some 0 := by
  fun_induction pieces cs generalizing depth body with
  | case1 => exact absurd h (by simp)
  | case2 c cs ih =>
    have hr := reads_piece c cs
    have happ := piece_append c cs
    have hb := hr.blockFrom_append depth
    rw [List.cons_append, happ, h] at hb
    generalize (piece c cs).1 = l at hr happ hb ih
    generalize (piece c cs).2 = r at hr happ hb ih
    cases hd : depthAfter depth (c :: l) with
    | none =>
      rw [hd] at hb
      obtain ⟨rfl, -, rfl⟩ := Block.mk.inj hb
      -- only a closing brace at depth zero closes the block
      have hcl : depth = 0 ∧ c = '\x7d' ∧ l = [] := by
        unfold depthAfter at hd
        split at hd
        · exact absurd hd (by simp)
        · split at hd
          · rename_i hcl
            rw [List.cons.injEq] at hcl
            cases depth with
            | zero => exact ⟨rfl, hcl⟩
            | succ n => exact absurd hd (by simp)
          · exact absurd hd (by simp)
      obtain ⟨rfl, rfl, rfl⟩ := hcl
      rw [← happ]
      refine ⟨rfl, ?_, ?_⟩ <;> rw [pieces]
      · trivial
      · rfl
    | some d =>
      rw [hd] at hb
      have hbr : blockFrom d r = ⟨(blockFrom d r).body, true, rest⟩ := by
        obtain ⟨-, hcl, hrest⟩ := Block.mk.inj hb
        rw [hcl, hrest]
      have hbody : body = c :: l ++ (blockFrom d r).body := (Block.mk.inj hb).1
      obtain ⟨he, hall, hdepth⟩ := ih hbr
      generalize (blockFrom d r).body = body' at hbody he hall hdepth
      subst he
      have hp : pieces body = (c :: l) :: pieces body' := by rw [hbody, hr.cut.pieces_append]
      rw [hp, hbody, ← happ]
      refine ⟨by simp, ⟨?_, hall⟩, ?_⟩
      · rw [flatten_pieces]
        exact hr
      · rw [depthThrough, hd]
        exact hdepth

/-- **A block without its closing brace, by its pieces**: none of them closes it. -/
theorem of_not_closed {depth : Nat} {cs : List Char} (h : (blockFrom depth cs).closed = false) :
    (blockFrom depth cs).body = cs ∧ ∃ d, depthThrough depth (pieces cs) = some d := by
  fun_induction pieces cs generalizing depth with
  | case1 => exact ⟨by simp, depth, rfl⟩
  | case2 c cs ih =>
    have hr := reads_piece c cs
    have happ := piece_append c cs
    have hb := hr.blockFrom_append depth
    rw [List.cons_append, happ] at hb
    cases hd : depthAfter depth (c :: (piece c cs).1) with
    | none => rw [hb, hd] at h; exact absurd h (by simp)
    | some d =>
      rw [hd] at hb
      rw [hb, Block.closed_push] at h
      obtain ⟨hbody, d', hdepth⟩ := ih h
      refine ⟨?_, d', ?_⟩
      · rw [hb, Block.body_push, hbody, List.cons_append, happ]
      · rw [depthThrough, hd]
        exact hdepth

end GrammarLayout.Action
