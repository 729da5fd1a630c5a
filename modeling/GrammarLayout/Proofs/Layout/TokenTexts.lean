import GrammarLayout.Proofs.Layout.Places

/-!
# The tokens of a layout

The tokens of a layout are those of its source, as long as each token that is open at its end is
read at its place as it was in the source (`format_keeps_texts`). Such tokens are rare: an opener
without its closer, a quote without a partner inside an action, a comment in a broken action, a doc
comment without its terminator. Everything else is read as before, recovered regions included. Only
an options, tokens or channels block has to be tame, because its end is looked for by the scanner
for actions: it may hold further blocks and may lack its closing brace, but nothing that this
scanner would take for the start of a literal, a comment or an escape.

That the condition is needed is shown by a slash before a star: the layout joins the two to the
start of a comment (`slash_star_loses_tokens`).

The condition is a test of each token at its place, which can be computed from the source and its
layout. It has two parts. A token that is open at its end is read off the layout behind its first
character, and has to come out the same (`Token.keepsAt`); this says nothing about the tokens after
it, and all other tokens are exempt. A block has to be calm through its end (`closesCalmly`), which
is told from the source alone.

The conclusion compares texts of main tokens and of comments, blanks of actions left out. Both are
filters of what is visible that no blank of an action passes (`Solid`), and such a filter gives the
same for the segments of a source, for its strokes, and for what is read of the strokes: what is
dropped or put in on the way are blanks of actions.
-/

namespace GrammarLayout

/-! ### Tokens that are open at their end -/

/-- Whether what follows a token decides how it is read. -/
def Token.isOpenEnded (t : Token) : Bool :=
  match t.kind with
  | .actionContent => Action.isOpen t.text.toList
  | .unknown => t.text.toList.head?.any Lexeme.isOpener
  | .docComment => !(['*', '/'].isSuffixOf (t.text.toList.drop 2))
  | _ => false

/-- Whether a token of which the first character has been read is read as it was, off `rest`. -/
def Token.keepsAt (t : Token) (rest : List Char) : Bool :=
  match t.text.toList with
  | [] => true
  | c :: cs =>
    match t.kind with
    | .actionContent => (Action.piece c rest).1 == cs
    | .unknown => (Lexeme.next c rest).1 == .unknown (c :: cs)
    | _ => (Lexeme.next c rest).1 == .plain .blockComment (c :: cs)

/-- Whether the tokens after an opening brace, `depth` further blocks being open, are calm through
the brace that closes the block. Blocks inside it are counted, and a block without its closing brace
goes through the end of the text. -/
def closesCalmly (depth : Nat) : List Token → Bool
  | [] => true
  | t :: ts =>
    if t.kind = .eof then true
    else if t.kind = .lbrace then closesCalmly (depth + 1) ts
    else if t.kind = .rbrace then depth == 0 || closesCalmly (depth - 1) ts
    else t.segment.isCalm && closesCalmly depth ts

/-- Whether a layout reads a token as its source does: blocks hold calm tokens and further blocks
through their end, and tokens that are open at their end are read as they were. -/
def Token.staysReadable (t : Token) (after : List Token) (rest : List Char) : Bool :=
  (t.kind != .lbrace || closesCalmly 0 after) && (!t.isOpenEnded || t.keepsAt rest)

/-! ### Filters that blanks of actions do not pass -/

/-- A test that blanks of actions and the end marker do not pass. These are what layouts drop and
put in. -/
structure Solid (test : Segment → Bool) : Prop where
  /-- Blanks of actions. -/
  blank : ∀ c : Segment, c.kind = .actionContent → allBlank c.text = true → test c = false
  /-- The end marker. -/
  eof : ∀ c : Segment, c.kind = .eof → test c = false

namespace Solid

variable {test : Segment → Bool}

/-- Of the pieces of an action only blanks are dropped, so the filter gives the same. -/
theorem filter_pieceStrokes (ht : Solid test) (depth : Nat) (gap : Separator) {ps : List Segment}
    (hp : ∀ p ∈ ps, p.kind = .actionContent) :
    ((pieceStrokes depth gap ps).1.map Stroke.segment).filter test = ps.filter test := by
  induction ps generalizing gap with
  | nil => rfl
  | cons p ps ih =>
    rw [List.forall_mem_cons] at hp
    rw [pieceStrokes]
    split
    · rename_i hd
      rw [Bool.and_eq_true_iff] at hd
      rw [ih gap hp.2, List.filter_cons_of_neg (by simp [ht.blank p hp.1 hd.2])]
    · rw [List.map_cons, List.filter_cons, ih _ hp.2, List.filter_cons]

/-- Laying out keeps what passes the test. -/
theorem filter_laid (ht : Solid test) {lone : Segment → Prop} {cs : List Segment} {ss : List Stroke}
    (h : Laid lone cs ss) : (ss.map Stroke.segment).filter test = cs.filter test := by
  induction h with
  | nil => rfl
  | eof hk _ ih => rw [ih, List.filter_cons_of_neg (by simp [ht.eof _ hk])]
  | stroke gap hc _ ih => rw [List.map_cons, List.filter_cons, ih, List.filter_cons]
  | action gap depth hb hp he _ ih =>
    simp only [List.map_cons, List.map_append, List.map_nil, List.filter_append, List.filter_cons,
      ih, ht.filter_pieceStrokes depth .nothing hp, List.cons_append]

/-- What is read of a separator in an action are blanks. -/
theorem filter_gapPieces (ht : Solid test) {gap : List Char}
    (hg : ∀ c ∈ gap, Lexeme.isSpace c = true) : (contents (gapPieces gap)).filter test = [] := by
  refine List.filter_eq_nil_iff.2 fun c hc ↦ ?_
  obtain ⟨p, hp, rfl⟩ := List.mem_map.1 hc
  obtain ⟨d, hd, rfl⟩ := List.mem_map.1 hp
  simp [ht.blank ⟨.actionContent, [d]⟩ rfl (by simp [allBlank, isBlank_of_isSpace (hg d hd)])]

/-- Reading strokes again keeps what passes the test. -/
theorem filter_rereads (ht : Solid test) (width : Nat) (inside : Bool) (ss : List Stroke)
    {rest : List Char} (hs : ∀ c ∈ rest, Lexeme.isSpace c = true) :
    (rereads width inside ss rest).filter test = (ss.map Stroke.segment).filter test := by
  induction ss generalizing inside with
  | nil =>
    rw [rereads]
    split
    · exact ht.filter_gapPieces hs
    · rfl
  | cons s ss ih =>
    have hgap :
        (if inside then contents (gapPieces (s.gap.text width)) else []).filter test = [] := by
      split
      · exact ht.filter_gapPieces (isSpace_separator width s.gap)
      · rfl
    rw [rereads, List.filter_append, hgap, List.nil_append, List.filter_cons, ih, List.map_cons,
      List.filter_cons]

end Solid

/-! ### Texts by segments -/

/-- Whether a segment counts among the main ones. -/
def Segment.isSignificant (s : Segment) : Bool :=
  !s.kind.isHidden && s.kind != .eof && !(s.kind == .actionContent && allBlank s.text)

/-- Whether a segment is a comment of any kind. -/
def Segment.isAnyComment (s : Segment) : Bool :=
  s.kind == .blockComment || s.kind == .lineComment || s.kind == .docComment

/-- Main tokens that count are no blanks. -/
theorem solid_isSignificant : Solid Segment.isSignificant where
  blank := by
    intro c hk hb
    simp [Segment.isSignificant, hk, hb]
  eof := by
    intro c hk
    simp [Segment.isSignificant, hk]

/-- Comments do not stand in actions. -/
theorem solid_isAnyComment : Solid Segment.isAnyComment where
  blank := by
    intro c hk _
    simp [Segment.isAnyComment, hk]
  eof := by
    intro c hk
    simp [Segment.isAnyComment, hk]

/-- The texts of the main tokens, by what is visible of a source. -/
theorem significantTexts_eq (source : String) :
    significantTexts source =
      ((Segment.visible ((tokenize source).toList.map Token.segment)).filter
        Segment.isSignificant).map fun s ↦ String.ofList s.text := by
  rw [significantTexts, Stream.mainTokens]
  generalize (tokenize source).toList = ts
  induction ts with
  | nil => rfl
  | cons t ts ih =>
    rw [List.map_cons, Segment.visible_cons, List.filter_append, List.map_append, ← ih,
      visible_segment]
    cases hh : t.isHidden with
    | true =>
      rw [List.filter_cons_of_neg (by simp [hh]), if_pos rfl]
      split
      · have hn : t.comment.isSignificant = false := by
          rw [Segment.isSignificant, show t.comment.kind.isHidden = true from hh]
          rfl
        rw [List.filter_cons_of_neg (by simp [hn])]
        rfl
      · rfl
    | false =>
      have hs : t.segment.isSignificant = (!t.isEof && !t.isActionBlank) := by
        rw [Segment.isSignificant, show t.segment.kind.isHidden = false from hh]
        rfl
      rw [List.filter_cons_of_pos (by simp [hh]), if_neg Bool.false_ne_true, List.filter_cons,
        List.filter_cons, hs]
      split
      · simp [Token.segment]
      · rfl

/-- The texts of the comments, by what is visible of a source. -/
theorem commentTexts_eq (source : String) :
    commentTexts source =
      ((Segment.visible ((tokenize source).toList.map Token.segment)).filter
        Segment.isAnyComment).map fun s ↦ String.ofList (trimEnd s.text) := by
  rw [commentTexts]
  generalize (tokenize source).toList = ts
  induction ts with
  | nil => rfl
  | cons t ts ih =>
    rw [List.map_cons, Segment.visible_cons, List.filter_append, List.map_append, ← ih,
      Segment.visible_singleton]
    have hk : t.segment.trimmed.isAnyComment = t.isAnyComment := by
      rw [Segment.isAnyComment, Segment.kind_trimmed]
      rfl
    have htext : trimEnd t.segment.trimmed.text = trimEnd t.text.toList := by
      rw [text_trimmed, Token.layoutText]
      split
      · exact trimEnd_trimEnd _
      · rfl
    split
    · rename_i hw
      have hn : t.isAnyComment = false := by
        rw [Token.isAnyComment, show t.kind = .whitespace from hw]
        rfl
      rw [List.filter_cons_of_neg (by simp [hn])]
      rfl
    · rw [List.filter_cons, List.filter_cons, hk]
      split
      · rw [List.map_cons, List.map_cons, htext]
        rfl
      · rfl

/-! ### What the tests at the places say -/

section Tests

variable {source : String} {ss : List Stroke} {width : Nat}

/-- At the place of a stroke stands a main token of the source that passes its test. Hence what the
test says of the token holds of the stroke. -/
theorem exists_readable
    (h : Laid (·.kind ≠ .eof) (Segment.visible ((tokenize source).toList.map Token.segment)) ss)
    (hp : everyPlace (inked width ss ++ ['\n']) Token.staysReadable 0
      (tokenize source).toList = true)
    {ss₁ ss₂ : List Stroke} {s : Stroke} (hs : ss = ss₁ ++ s :: ss₂)
    (hm : s.segment.kind.isHidden = false) {a : Char} {t : List Char}
    (ht : s.segment.text = a :: t) (ha : isBlank a = false) :
    ∃ u : Token, u.kind = s.segment.kind ∧ u.text.toList = a :: t ∧
      (u.isOpenEnded = true → u.keepsAt (t ++ (inked width ss₂ ++ ['\n'])) = true) := by
  obtain ⟨A, u, B, htoks, hu, hd⟩ := exists_token_at width h hs ht ha ['\n']
  rw [htoks] at hp
  have htest := everyPlace_append hp
  rw [Nat.zero_add, hd, Token.staysReadable, Bool.and_eq_true_iff] at htest
  have hseg := Segment.eq_of_trimmed hu hm
  refine ⟨u, by rw [← hseg]; rfl, by rw [← ht, ← hseg]; rfl, fun ho ↦ ?_⟩
  simpa [ho] using htest.2

/-- A stroke that is a main segment has the form of one. -/
theorem formed_of_laid
    (h : Laid (·.kind ≠ .eof) (Segment.visible ((tokenize source).toList.map Token.segment)) ss)
    {ss₁ ss₂ : List Stroke} {s : Stroke} (hs : ss = ss₁ ++ s :: ss₂)
    (hm : s.segment.kind.isHidden = false) (he : s.segment.kind ≠ .eof) : s.segment.Formed := by
  obtain ⟨cs₁, cs₂, hcs, -⟩ := h.exists_place hs 0
  obtain ⟨A, u, B, htoks, hu, -, -⟩ := exists_token_of_visible hcs
  rw [← Segment.eq_of_trimmed hu hm] at he ⊢
  exact forall_mem_tokenize (P := fun s ↦ s.kind ≠ .eof → s.Formed) (fun he ↦ absurd rfl he)
    (fun s hs _ ↦ Segment.formed_ofChars none _ s hs) u (by rw [htoks]; simp) he

/-- A doc comment that is read as it was has its terminator. -/
theorem closed_of_readable {s : Segment} {u : Token} {more rest : List Char}
    (hk : s.kind = .docComment) (ht : s.text = '/' :: '*' :: more) (huk : u.kind = s.kind)
    (hut : u.text.toList = '/' :: '*' :: more)
    (hkeep : u.isOpenEnded = true → u.keepsAt ('*' :: more ++ (rest ++ ['\n'])) = true) :
    Lexeme.ClosedComment s.text := by
  by_contra hcl
  have hopen : u.isOpenEnded = true := by
    rw [Token.isOpenEnded, huk, hk, hut, ← ht]
    show (!(['*', '/'].isSuffixOf (s.text.drop 2))) = true
    rw [Bool.not_eq_true', Bool.eq_false_iff, Ne, List.isSuffixOf_iff_suffix]
    exact hcl
  have hkeep := hkeep hopen
  rw [Token.keepsAt, hut, huk, hk] at hkeep
  have hn := Lexeme.next_eq_of_text (beq_iff_eq.1 hkeep) rfl
  rcases (follows_next hn).2 rfl with hc | hnil
  · exact hcl (by rw [ht]; exact hc)
  · exact absurd hnil (by simp)

/-- Strokes are kept where every token is read as it was at its place. The three kinds of tokens
that are open at their end are the three that `Keeps` asks about. -/
theorem keepsAll_of_places
    (h : Laid (·.kind ≠ .eof) (Segment.visible ((tokenize source).toList.map Token.segment)) ss)
    (hp : everyPlace (inked width ss ++ ['\n']) Token.staysReadable 0
      (tokenize source).toList = true) :
    KeepsAll width ss ['\n'] := by
  -- the three goals are the pieces of actions, the characters that start no token and the doc
  -- comments
  refine keepsAll_of_forall fun ss₁ s ss₂ hs ↦ ⟨fun hk ho ↦ ?_, fun hk a t ht ha ↦ ?_, fun hk ↦ ?_⟩
  · obtain ⟨a, t, ht⟩ : ∃ a t, s.segment.text = a :: t := by
      cases hst : s.segment.text with
      | nil => rw [hst] at ho; exact absurd ho (by decide)
      | cons a t => exact ⟨a, t, rfl⟩
    have hab : isBlank a = false := Action.isBlank_of_isOpen (by rw [← ht]; exact ho)
    obtain ⟨u, huk, hut, hkeep⟩ := exists_readable h hp hs (by rw [hk]; rfl) ht hab
    have hopen : u.isOpenEnded = true := by
      rw [Token.isOpenEnded, huk, hk, hut, ← ht]
      exact ho
    have hkeep := hkeep hopen
    rw [Token.keepsAt, hut, huk, hk] at hkeep
    rw [ht]
    exact Action.Reads.of_piece (beq_iff_eq.1 hkeep)
  · have hab : isBlank a = false := by
      simp only [Lexeme.isOpener, Bool.or_eq_true, beq_iff_eq] at ha
      rcases ha with (rfl | rfl) | rfl <;> decide
    obtain ⟨u, huk, hut, hkeep⟩ := exists_readable h hp hs (by rw [hk]; rfl) ht hab
    have hopen : u.isOpenEnded = true := by
      rw [Token.isOpenEnded, huk, hk, hut]
      simpa using ha
    have hkeep := hkeep hopen
    rw [Token.keepsAt, hut, huk, hk] at hkeep
    rw [ht]
    exact Lexeme.next_eq_of_text (beq_iff_eq.1 hkeep) rfl
  · have hm : s.segment.kind.isHidden = false := by rw [hk]; rfl
    have hf := formed_of_laid h hs hm (by rw [hk]; decide)
    obtain ⟨more, ht⟩ := hf.doc hk
    have ht' : s.segment.text = '/' :: '*' :: more := ht.symm
    obtain ⟨u, huk, hut, hkeep⟩ := exists_readable h hp hs hm ht' (by decide)
    exact closed_of_readable hk ht' huk hut hkeep

/-- What passes the test is tame through the end of the block. -/
theorem tameThrough_of_closesCalmly {depth : Nat} {ts : List Token}
    (h : closesCalmly depth ts = true) : TameThrough depth ts := by
  induction ts generalizing depth with
  | nil => exact ⟨[], [], rfl, by simp, .inl (by simp)⟩
  | cons t ts ih =>
    have hbrace : t.kind = .lbrace ∨ t.kind = .rbrace → t.segment.isTame = true := by
      rintro (hk | hk) <;> simp [Segment.isTame, Token.segment, hk]
    rw [closesCalmly] at h
    by_cases he : t.kind = .eof
    · exact ⟨[], t :: ts, rfl, by simp, .inl (by simpa using he)⟩
    rw [if_neg he] at h
    by_cases hl : t.kind = .lbrace
    · rw [if_pos hl] at h
      exact (ih h).cons (hbrace (.inl hl)) (by simp [(blocks_lbrace (s := t.segment) hl []).1])
    rw [if_neg hl] at h
    by_cases hr : t.kind = .rbrace
    · rw [if_pos hr, Bool.or_eq_true, beq_iff_eq] at h
      obtain ⟨hopened, hclosed⟩ := blocks_rbrace (s := t.segment) hr []
      rcases Nat.eq_zero_or_pos depth with rfl | hd
      · -- this brace closes the block
        refine ⟨[t], ts, rfl, by simpa using hbrace (.inr hr), .inr ?_⟩
        simp [hopened, hclosed]
      · refine (ih (h.resolve_left (by omega))).cons (hbrace (.inr hr)) ?_
        rw [hopened, hclosed, blocksOpened_nil]
        omega
    rw [if_neg hr, Bool.and_eq_true_iff] at h
    refine (ih h.2).cons (Segment.isTame_of_isCalm h.1) ?_
    simp [blocks_other (s := t.segment) hl hr []]

/-- Blocks are tame where each of their opening braces passes the test. -/
theorem blocksTame_of_places {layout : List Char}
    (hp : everyPlace layout Token.staysReadable 0 (tokenize source).toList = true) :
    BlocksTame (Segment.visible (Segment.ofChars none source.toList)) := by
  refine blocksTame_of_tokens fun A t B htoks hk ↦ ?_
  rw [htoks] at hp
  have htest := everyPlace_append hp
  rw [Token.staysReadable, hk, Bool.and_eq_true_iff] at htest
  exact tameThrough_of_closesCalmly htest.1

end Tests

/-- **A layout has the tokens of its source**: main tokens and comments have the same texts in the
same order, if blocks hold calm tokens and further blocks through their end, and tokens that are
open at their end are read as they were. -/
theorem format_keeps_texts {source : String} {out : Formatted} (width : Nat)
    (h : format (Rules.indented width) source = .ok out)
    (hp : everyPlace out.rendered.toList Token.staysReadable 0 (tokenize source).toList = true) :
    significantTexts out.rendered = significantTexts source ∧
      commentTexts out.rendered = commentTexts source := by
  obtain ⟨p, hc, hout⟩ := exists_complete_of_format (Rules.check_indented width) h
  have hout : out.rendered.toList = inked width p.strokes ++ ['\n'] := hout
  have hK : KeepsAll width p.strokes ['\n'] := keepsAll_of_places hc.laid (by rw [← hout]; exact hp)
  have hread := hc.reread (Rules.plain_indented width) (blocksTame_of_places hp) hK
  have hsame : ∀ {test : Segment → Bool}, Solid test →
      (Segment.visible ((tokenize out.rendered).toList.map Token.segment)).filter test =
        (Segment.visible ((tokenize source).toList.map Token.segment)).filter test := by
    intro test ht
    have hend : (Segment.visible [Segment.endMarker]).filter test = [] := by
      show [Segment.endMarker].filter test = []
      simp [ht.eof Segment.endMarker rfl]
    rw [segments_tokenize out.rendered, Segment.visible_append, List.filter_append, hend, hout,
      hread,
      ht.filter_rereads width false p.strokes (List.forall_mem_singleton.2 rfl),
      ht.filter_laid hc.laid, List.append_nil]
  constructor
  · rw [significantTexts_eq, significantTexts_eq, hsame solid_isSignificant]
  · rw [commentTexts_eq, commentTexts_eq, hsame solid_isAnyComment]

/-- A region in which no rule can be read keeps its tokens, down to an action without its closing
brace. -/
theorem recovered_region_keeps_texts :
    ∃ out, format (Rules.indented 3) "grammar T; / b % options \x7ba = [b] #;\x7d /* c */ \x7b x" =
        .ok out ∧
      everyPlace out.rendered.toList Token.staysReadable 0
        (tokenize "grammar T; / b % options \x7ba = [b] #;\x7d /* c */ \x7b x").toList = true ∧
      significantTexts out.rendered =
        significantTexts "grammar T; / b % options \x7ba = [b] #;\x7d /* c */ \x7b x" ∧
      commentTexts out.rendered =
        commentTexts "grammar T; / b % options \x7ba = [b] #;\x7d /* c */ \x7b x" := by
  have ht : formatsTo (Rules.indented 3) "grammar T; / b % options \x7ba = [b] #;\x7d /* c */ \x7b x"
      (fun out ↦ everyPlace out.rendered.toList Token.staysReadable 0
        (tokenize "grammar T; / b % options \x7ba = [b] #;\x7d /* c */ \x7b x").toList) = true := by
    decide +kernel
  obtain ⟨out, hf, hp⟩ := exists_of_formatsTo ht
  exact ⟨out, hf, hp, format_keeps_texts 3 hf hp⟩

/-- A slash and a star that stand apart are joined, and start a comment in the layout. -/
theorem slash_star_loses_tokens :
    ∃ out, format Rules.standard "grammar T;\n/ * x;" = .ok out ∧
      significantTexts "grammar T;\n/ * x;" = ["grammar", "T", ";", "/", "*", "x", ";"] ∧
      significantTexts out.rendered = ["grammar", "T", ";"] := by
  have ht : formatsTo Rules.standard "grammar T;\n/ * x;"
      (fun out ↦ significantTexts out.rendered == ["grammar", "T", ";"]) = true := by
    decide +kernel
  obtain ⟨out, hf, he⟩ := exists_of_formatsTo ht
  exact ⟨out, hf, by decide +kernel, beq_iff_eq.1 he⟩

end GrammarLayout
