import GrammarLayout.Proofs.Action.Passing
import GrammarLayout.Proofs.Layout.Source
import Mathlib.Data.List.DropRight

/-!
# Lexemes without the blanks at their end

A layout writes comments without the blanks at their end, and puts spaces where it likes. A trimmed
lexeme is read again as it was (`next_trimmed`), except for a block comment without its terminator:
that one takes the spaces after it along, and they are trimmed off again (`next_unclosed`).

Only two kinds of lexemes can have blanks at their end (`trimmed_ofPlain`). A line comment ends
before the line end, so only blanks of that line are trimmed off, and the rest is a line comment
again, up to the same line end (`next_trimmed_line`). A block comment ends with its terminator; if
it has none it is the last lexeme of its text, and reading it again takes in whatever blanks the
layout puts behind it, be it the final line end.

For that last case one has to know that the kind stays the same. A comment that is neither closed
nor a doc comment has no star behind its opener (`ne_star_of_open`), and without one it is no doc
comment, whatever blanks it loses or takes in (`isDocComment_of_ne_star`).
-/

namespace GrammarLayout

/-! ### Spaces -/

/-- Spaces before a text are not visible. They are read as whitespace, or with the whitespace that
the text starts with. -/
theorem Segment.visible_ofChars_spaces {before : Option Kind} {gap : List Char}
    (hg : ∀ c ∈ gap, Lexeme.isSpace c = true) (cs : List Char) :
    visible (ofChars before (gap ++ cs)) = visible (ofChars before cs) := by
  have hdrop : ∀ cs : List Char,
      visible (ofChars before cs) = visible (ofChars before (cs.dropWhile Lexeme.isSpace)) := by
    intro cs
    cases cs with
    | nil => rfl
    | cons c cs =>
      cases hc : Lexeme.isSpace c with
      | false => rw [List.dropWhile_cons_of_neg (by simp [hc])]
      | true =>
        have hn : Lexeme.next c cs = (.plain .whitespace (c :: cs.takeWhile Lexeme.isSpace),
            cs.dropWhile Lexeme.isSpace) := by
          rw [Lexeme.next, if_pos hc]
        rw [ofChars_of_plain hn, List.dropWhile_cons_of_pos hc]
        rfl
  rw [hdrop (gap ++ cs), hdrop cs, List.dropWhile_append_of_pos hg]

/-- Separators are made of spaces. -/
theorem isSpace_separator (width : Nat) (g : Separator) :
    ∀ c ∈ g.text width, Lexeme.isSpace c = true := by
  intro c hc
  cases g with
  | nothing => exact absurd hc (by simp [Separator.text])
  | space => rw [List.mem_singleton.1 hc]; rfl
  | lines more depth =>
    rcases List.mem_append.1 hc with hc | hc <;> rw [List.eq_of_mem_replicate hc] <;> rfl

/-! ### Trimmed segments -/

@[simp] theorem trimmed_trimmed (s : Segment) : s.trimmed.trimmed = s.trimmed := by
  by_cases hs : s.kind.isHidden = true
  · simp [Segment.trimmed, hs]
  · have hs : s.kind.isHidden = false := by simpa using hs
    rw [Segment.trimmed_of_main hs, Segment.trimmed_of_main hs]

theorem isPrefix_trimEnd (cs : List Char) : trimEnd cs <+: cs := by
  rw [trimEnd, ← List.reverse_suffix, List.reverse_reverse]
  exact List.dropWhile_suffix _

/-- Trimming leaves a text that ends with a character that is not blank. -/
theorem trimEnd_of_suffix {cs : List Char} {c : Char} (hc : isBlank c = false)
    (h : [c] <:+ cs) : trimEnd cs = cs := by
  obtain ⟨ds, rfl⟩ := h
  exact trimEnd_append ds hc []

/-- Spaces at the end are trimmed off. -/
theorem trimEnd_append_spaces {cs gap : List Char} (hg : ∀ c ∈ gap, Lexeme.isSpace c = true) :
    trimEnd (cs ++ gap) = trimEnd cs :=
  trimEnd_append_blank cs fun c hc ↦ isBlank_of_isSpace (hg c hc)

/-- Spaces do not close a block comment: the terminator has no blank in it, and what is before the
spaces does not hold one. -/
theorem blockComment_append_spaces {cs gap : List Char} (h : ¬['*', '/'] <:+ (blockComment cs).1)
    (hg : ∀ c ∈ gap, Lexeme.isSpace c = true) : blockComment (cs ++ gap) = (cs ++ gap, []) := by
  have hgap : ∀ gap : List Char, (∀ c ∈ gap, Lexeme.isSpace c = true) →
      blockComment gap = (gap, []) := by
    intro gap hg
    induction gap with
    | nil => rfl
    | cons c gap ih =>
      rw [List.forall_mem_cons] at hg
      have hc : c ≠ '*' := by rintro rfl; exact absurd hg.1 (by decide)
      rw [blockComment.eq_def]
      simp [hc, ih hg.2]
  fun_induction blockComment cs with
  | case1 => exact hgap gap hg
  | case2 cs => exact absurd (List.suffix_refl _) h
  | case3 c cs hc ih =>
    have hi := ih fun hs ↦ h (hs.trans (List.suffix_cons _ _))
    -- the star that is last before the spaces is not followed by a slash in them
    have hnot : ∀ ds, c = '*' → cs ++ gap = '/' :: ds → False := by
      intro ds hc' hds
      cases cs with
      | nil =>
        rw [List.nil_append] at hds
        rw [hds, List.forall_mem_cons] at hg
        exact absurd hg.1 (by decide)
      | cons d cs =>
        obtain ⟨rfl, -⟩ := List.cons.inj hds
        exact hc cs hc' rfl
    rw [List.cons_append, blockComment, hi]
    exact hnot

/-- A block comment that is not closed, trimmed. -/
theorem blockComment_trimEnd {cs : List Char} (h : ¬['*', '/'] <:+ (blockComment cs).1) :
    ¬['*', '/'] <:+ (blockComment (trimEnd cs)).1 := by
  intro hs
  obtain ⟨more, hm⟩ := isPrefix_trimEnd cs
  have ha := Lexeme.blockComment_again hs ((blockComment (trimEnd cs)).2 ++ more)
  rw [← List.append_assoc, blockComment_append, hm] at ha
  rw [ha] at h
  exact h hs

/-- The first character of what the scan takes. -/
theorem exists_cons_of_next {c : Char} {cs rest : List Char} {l : Lexeme}
    (h : Lexeme.next c cs = (l, rest)) : ∃ t, l.text = c :: t := by
  have happ := Lexeme.next_append c cs
  have hne := Lexeme.text_next_ne_nil c cs
  rw [h] at happ hne
  obtain ⟨d, t, ht⟩ := List.exists_cons_of_ne_nil hne
  rw [ht] at happ
  exact ⟨t, by rw [ht, (List.cons.inj happ).1]⟩

/-- Two slashes and characters on the line are a line comment, up to the end of the line. -/
theorem next_line {u rest : List Char} (hu : ∀ d ∈ u, endsLine d = false)
    (hr : ∀ d ∈ rest.head?, endsLine d = true) :
    Lexeme.next '/' ('/' :: u ++ rest) = (.plain .lineComment ('/' :: '/' :: u), rest) := by
  have htw : u.takeWhile (!endsLine ·) = u :=
    List.takeWhile_eq_self_iff.2 fun d hd ↦ by simp [hu d hd]
  obtain ⟨h₁, h₂⟩ := Lexeme.takeWhile_again (p := (!endsLine ·)) u fun d hd ↦ by simp [hr d hd]
  rw [htw] at h₁ h₂
  have hcom : comment? ('/' :: u ++ rest) = some ('/' :: u, rest) := by
    rw [List.cons_append, comment?, lineComment, h₁, h₂]
  have hkind : Lexeme.commentKind ('/' :: u ++ rest) = .lineComment := by
    simp [Lexeme.commentKind]
  rw [Lexeme.next_eq, show Lexeme.charClass '/' = .slash from by decide, Lexeme.nextOf, hcom, hkind]

/-- A comment with its terminator ends with a slash. -/
theorem Lexeme.ClosedComment.isSuffix {text : List Char} (h : Lexeme.ClosedComment text) :
    ['/'] <:+ text := by
  have hc : ['*', '/'] <:+ text.drop 2 := h
  exact ((List.suffix_cons '*' ['/']).trans hc).trans (List.drop_suffix _ _)

/-- Blanks at the end stand only in line comments, and in block comments without their terminator.
-/
theorem trimmed_ofPlain {kind : Kind} {text : List Char} (hk : kind ≠ .whitespace)
    (hl : kind ≠ .lineComment) (hb : kind = .blockComment → Lexeme.ClosedComment text) :
    (Segment.ofPlain kind text).trimmed = Segment.ofPlain kind text := by
  by_cases hblock : kind = .blockComment
  · have ht := trimEnd_of_suffix (by decide) (hb hblock).isSuffix
    exact Segment.trimmed_of_trimEnd (by rw [Segment.text_ofPlain, ht])
  · refine Segment.trimmed_of_main ?_
    rcases kind_ofPlain kind text with hkk | ⟨hkk, -⟩
    · rw [hkk]
      cases kind <;>
        first | rfl | exact absurd rfl hk | exact absurd rfl hl | exact absurd rfl hblock
    · exact absurd hkk hblock

/-- A line comment is read again without the blanks at its end, if its line ends after it. -/
theorem next_trimmed_line {c : Char} {cs text rest : List Char}
    (h : Lexeme.next c cs = (.plain .lineComment text, rest)) {rest' : List Char}
    (hl : ∀ d ∈ rest'.head?, endsLine d = true) :
    ∃ t, (Segment.ofPlain .lineComment text).trimmed = Segment.ofPlain .lineComment (c :: t) ∧
      Lexeme.next c (t ++ rest') = (.plain .lineComment (c :: t), rest') := by
  obtain ⟨l, rfl, rfl, hcom, hck⟩ := Lexeme.of_comment h (.inl rfl)
  -- the comment without its first slash is a slash and characters on the line
  unfold comment? at hcom
  split at hcom
  · rename_i cs
    obtain ⟨rfl, -⟩ := Prod.mk.inj (Option.some.inj hcom)
    have hall : ∀ d ∈ trimEnd (lineComment cs).1, endsLine d = false := fun d hd ↦ by
      simpa using (List.all_eq_true.1 List.all_takeWhile) d ((isPrefix_trimEnd _).subset hd)
    refine ⟨'/' :: trimEnd (lineComment cs).1, ?_, next_line hall hl⟩
    show (⟨.lineComment, trimEnd ('/' :: '/' :: (lineComment cs).1)⟩ : Segment) =
      ⟨.lineComment, '/' :: '/' :: trimEnd (lineComment cs).1⟩
    rw [show trimEnd ('/' :: '/' :: (lineComment cs).1) = '/' :: '/' :: trimEnd (lineComment cs).1
      from trimEnd_append ['/'] (by decide) _]
  · exact absurd hck (by simp [Lexeme.commentKind])
  · exact absurd hcom (by simp)

/-- **A trimmed lexeme is read again** as it was, where nothing goes on with it. -/
theorem next_trimmed {c : Char} {cs text rest : List Char} {kind : Kind}
    (h : Lexeme.next c cs = (.plain kind text, rest)) (hk : kind ≠ .whitespace) {rest' : List Char}
    (ha : Lexeme.Apart (Segment.ofPlain kind text).trimmed.text rest')
    (hl : kind = .lineComment → ∀ d ∈ rest'.head?, endsLine d = true)
    (hb : kind = .blockComment → Lexeme.ClosedComment text) :
    ∃ t, (Segment.ofPlain kind text).trimmed = Segment.ofPlain kind (c :: t) ∧
      Lexeme.next c (t ++ rest') = (.plain kind (c :: t), rest') := by
  by_cases hline : kind = .lineComment
  · subst hline
    exact next_trimmed_line h (hl rfl)
  · obtain ⟨t, rfl⟩ : ∃ t, text = c :: t := exists_cons_of_next h
    have htrim := trimmed_ofPlain hk hline hb
    rw [htrim, Segment.text_ofPlain] at ha
    exact ⟨t, htrim, Lexeme.next_again h hk ha hl hb⟩

/-- A comment with another character than a star after its opener is no doc comment. -/
theorem isDocComment_of_ne_star {cs : List Char} (h : ∀ d ∈ cs.head?, d ≠ '*') :
    Segment.isDocComment ('/' :: '*' :: cs) = false := by
  cases cs with
  | nil => rfl
  | cons d ds => simp [Segment.isDocComment, List.isPrefixOf, (h d rfl).symm]

/-- A comment that is neither closed nor a doc comment has no star after its opener. -/
theorem ne_star_of_open {cs : List Char} (hopen : ¬['*', '/'] <:+ cs)
    (hd : Segment.isDocComment ('/' :: '*' :: cs) = false) : ∀ d ∈ cs.head?, d ≠ '*' := by
  rintro d hd' rfl
  cases cs with
  | nil => exact absurd hd' (by simp)
  | cons e es =>
    obtain rfl : e = '*' := Option.some.inj hd'
    have hne : es ≠ ['/'] := by
      rintro rfl
      exact hopen (List.suffix_refl _)
    simp [Segment.isDocComment, hne] at hd

/-- A comment without its terminator is read again with the spaces after it, which are trimmed. So
the text that is written after the second time is that of the first. -/
theorem next_unclosed {c : Char} {cs text rest : List Char}
    (h : Lexeme.next c cs = (.plain .blockComment text, rest)) (hu : ¬Lexeme.ClosedComment text)
    (hd : Segment.isDocComment text = false) {gap : List Char}
    (hg : ∀ d ∈ gap, Lexeme.isSpace d = true) :
    ∃ t, trimEnd text = c :: t ∧
      Lexeme.next c (t ++ gap) = (.plain .blockComment (trimEnd text ++ gap), []) ∧
      Segment.isDocComment (trimEnd text ++ gap) = false := by
  obtain ⟨l, rfl, rfl, hcom, hck⟩ := Lexeme.of_comment h (.inr rfl)
  unfold comment? at hcom
  split at hcom
  · exact absurd hck (by simp [Lexeme.commentKind])
  · rename_i cs
    obtain ⟨rfl, -⟩ := Prod.mk.inj (Option.some.inj hcom)
    have hopen : ¬['*', '/'] <:+ (blockComment cs).1 := hu
    have hb : (blockComment cs).1 = cs := by
      have happ := blockComment_append cs
      rwa [(Action.blockComment_closed cs).resolve_left hopen, List.append_nil] at happ
    have hspaces := blockComment_append_spaces (blockComment_trimEnd hopen) hg
    rw [hb] at hd hopen ⊢
    have htrim : trimEnd ('/' :: '*' :: cs) = '/' :: '*' :: trimEnd cs :=
      trimEnd_append ['/'] (by decide) _
    -- neither the trimmed body nor a space starts with a star
    have hstar : ∀ d ∈ (trimEnd cs ++ gap).head?, d ≠ '*' := by
      intro d hd'
      rw [List.head?_append, Option.mem_def, Option.or_eq_some_iff] at hd'
      rcases hd' with hm | ⟨-, hm⟩
      · refine ne_star_of_open hopen hd d ?_
        obtain ⟨more, hmore⟩ := isPrefix_trimEnd cs
        rw [← hmore]
        exact List.mem_head?_append_of_mem_head? hm
      · rintro rfl
        exact absurd (hg _ (List.mem_of_mem_head? hm)) (by decide)
    refine ⟨'*' :: trimEnd cs, htrim, ?_, htrim ▸ isDocComment_of_ne_star hstar⟩
    have hcom' : comment? ('*' :: trimEnd cs ++ gap) = some ('*' :: (trimEnd cs ++ gap), []) := by
      rw [List.cons_append, comment?, hspaces]
    rw [Lexeme.next_eq, show Lexeme.charClass '/' = .slash from by decide, Lexeme.nextOf, hcom',
      htrim]
    rfl
  · exact absurd hcom (by simp)

end GrammarLayout
