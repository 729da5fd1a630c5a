import GrammarLayout.Proofs.Layout.Source

/-!
# Nothing but blanks is changed

A layout is its tokens in the order of the stream, each once, with separators between them and a
line end after them (`format_interleaves`). Nothing is left out but blanks of actions. So a source
and its layout differ in blanks only, which is said of their characters by `ink`: the characters
that are not blank.

The result has three parts, and each has its own lemma. Which tokens are written is told by
`Laid.exists_sublist`: a list of tokens in the order of the stream that misses blanks of actions
only. How they are written is told by `interleaved_of_strokes`, since neighbouring strokes fit
together. And that no character is lost follows from the first two, or directly from the strokes
(`Laid.ink_inked`, `inkOf_visible`), which is the shorter way.

Ink is also how later modules find a token of the source in its layout: the same number of
characters that are not blank stand before it in both.
-/

namespace GrammarLayout

/-! ### Ink -/

/-- The characters of a text that are not blank. -/
def ink (cs : List Char) : List Char := cs.filter (!isBlank ·)

@[simp] theorem ink_nil : ink [] = [] := rfl

@[simp] theorem ink_append (cs cs' : List Char) : ink (cs ++ cs') = ink cs ++ ink cs' :=
  List.filter_append ..

/-- Blanks have no ink. -/
theorem ink_of_allBlank {cs : List Char} (h : ∀ c ∈ cs, isBlank c = true) : ink cs = [] :=
  List.filter_eq_nil_iff.2 fun c hc ↦ by simp [h c hc]

/-- Trimming takes blanks only, so it takes no ink. -/
@[simp] theorem ink_trimEnd (cs : List Char) : ink (trimEnd cs) = ink cs := by
  have hd : ∀ ds : List Char, ink (ds.dropWhile isBlank) = ink ds := by
    intro ds
    induction ds with
    | nil => rfl
    | cons d ds ih =>
      cases hb : isBlank d with
      | true =>
        rw [List.dropWhile_cons_of_pos hb, ih, ink, ink, List.filter_cons_of_neg (by simp [hb])]
      | false => rw [List.dropWhile_cons_of_neg (by simp [hb])]
  have hr : ink (trimEnd cs) = (ink (cs.reverse.dropWhile isBlank)).reverse :=
    List.filter_reverse ..
  rw [hr, hd, ink, List.filter_reverse, List.reverse_reverse]
  rfl

/-- Separators are blank. -/
@[simp] theorem ink_separator (width : Nat) (g : Separator) : ink (g.text width) = [] := by
  refine ink_of_allBlank fun c hc ↦ ?_
  cases g with
  | nothing => exact absurd hc (by simp [Separator.text])
  | space => rw [List.mem_singleton.1 hc]; rfl
  | lines more depth =>
    rcases List.mem_append.1 hc with hc | hc <;> rw [List.eq_of_mem_replicate hc] <;> rfl

/-- The ink of segments. The end marker has none, since nothing of it stands in a text. -/
def inkOf (cs : List Segment) : List Char :=
  cs.flatMap fun c ↦ if c.kind = .eof then [] else ink c.text

@[simp] theorem inkOf_nil : inkOf [] = [] := rfl

@[simp] theorem inkOf_cons (c : Segment) (cs : List Segment) :
    inkOf (c :: cs) = (if c.kind = .eof then [] else ink c.text) ++ inkOf cs := by
  simp [inkOf]

@[simp] theorem inkOf_append (cs cs' : List Segment) :
    inkOf (cs ++ cs') = inkOf cs ++ inkOf cs' := by
  simp [inkOf]

/-- The pieces of an action lose no ink. What is dropped at the start of a line is blank. -/
theorem ink_pieceStrokes (width depth : Nat) (gap : Separator) {cs : List Segment}
    (hc : ∀ c ∈ cs, c.kind = .actionContent) :
    ink (inked width (pieceStrokes depth gap cs).1) = inkOf cs := by
  induction cs generalizing gap with
  | nil => rfl
  | cons c cs ih =>
    rw [List.forall_mem_cons] at hc
    have hk : c.kind ≠ .eof := by simp [hc.1]
    rw [pieceStrokes]
    split
    · -- a blank piece is dropped at the start of a line
      rename_i hd
      rw [Bool.and_eq_true_iff] at hd
      rw [ih gap hc.2, inkOf_cons, if_neg hk, ink_of_allBlank (List.all_eq_true.1 hd.2),
        List.nil_append]
    · simp [ih _ hc.2, hk]

/-- **Laying out loses no ink.** -/
theorem Laid.ink_inked {lone : Segment → Prop} (hl : ∀ c, lone c → c.kind ≠ .eof) {width : Nat}
    {cs : List Segment} {ss : List Stroke} (h : Laid lone cs ss) :
    ink (inked width ss) = inkOf cs := by
  induction h with
  | nil => rfl
  | eof hk _ ih => rw [inkOf_cons, if_pos hk, ih, List.nil_append]
  | stroke gap hc _ ih => simp [ih, hl _ hc]
  | action gap depth hb hp he _ ih =>
    subst hb he
    have hps := ink_pieceStrokes width depth .nothing hp
    simp only [inked_append, inked_cons, ink_append, ink_separator, inkOf_append, inkOf_cons, hps,
      ih]
    simp

/-- What is visible of the segments of a text has the ink of the text: hidden segments that are not
visible are blank, and comments are trimmed of blanks. -/
theorem inkOf_visible {cs : List Segment} (h : ∀ c ∈ cs, c.Formed) :
    inkOf (Segment.visible cs) = ink (cs.flatMap Segment.text) := by
  induction cs with
  | nil => rfl
  | cons c cs ih =>
    rw [List.forall_mem_cons] at h
    rw [Segment.visible_cons, inkOf_append, ih h.2, List.flatMap_cons, ink_append]
    congr 1
    cases hv : c.isVisible with
    | false =>
      have hw : c.kind = .whitespace := by simpa [Segment.isVisible] using hv
      rw [Segment.visible, List.filter_cons_of_neg (by simp [hv]),
        ink_of_allBlank fun d hd ↦ isBlank_of_isSpace (h.1.space hw d hd)]
      rfl
    | true =>
      have ht : ink c.trimmed.text = ink c.text := by
        rw [Segment.trimmed]
        split <;> simp
      rw [Segment.visible, List.filter_cons_of_pos hv]
      simp [ht, h.1.ne_eof]

/-! ### Tokens of a layout -/

/-- The text of a token in a layout: a hidden one is written without the blanks at its end. -/
def Token.layoutText (t : Token) : List Char :=
  if t.isHidden then trimEnd t.text.toList else t.text.toList

/-- Whether a token has a place in a layout: main tokens but the end marker have one, and so have
comments. -/
def Token.isWritten (t : Token) : Bool := (!t.isHidden && !t.isEof) || t.isPlainComment

/-- A text is made of tokens in this order, with separators between them and one line end after the
last. After a line comment the separator ends the line. -/
inductive Interleaved (width : Nat) : List Token → List Char → Prop
  /-- The last token, with the line end after it. -/
  | last (t : Token) : Interleaved width [t] (t.layoutText ++ ['\n'])
  /-- A token before others. -/
  | cons {t : Token} {ts : List Token} {text : List Char} (gap : Separator)
      (hg : t.kind = .lineComment → gap.isLines = true) (h : Interleaved width ts text) :
      Interleaved width (t :: ts) (t.layoutText ++ (gap.text width ++ text))

/-- The text of a token in a layout is that of its trimmed segment. -/
theorem text_trimmed (t : Token) : t.segment.trimmed.text = t.layoutText := by
  unfold Segment.trimmed Token.layoutText Token.isHidden Token.segment
  split <;> rfl

/-- Of the pieces of an action only blanks are dropped. The tokens that are left are found along the
pieces. -/
theorem exists_sublist_pieceStrokes (depth : Nat) (gap : Separator) {us : List Token}
    (hu : ∀ u ∈ us, u.kind = .actionContent) :
    ∃ ws : List Token, ws.Sublist us ∧ ws.filter (!·.isActionBlank) = us.filter (!·.isActionBlank) ∧
      ws.map (·.segment.trimmed) =
        (pieceStrokes depth gap (us.map (·.segment.trimmed))).1.map Stroke.segment := by
  induction us generalizing gap with
  | nil => exact ⟨[], .slnil, rfl, rfl⟩
  | cons u us ih =>
    rw [List.forall_mem_cons] at hu
    rw [List.map_cons, pieceStrokes]
    split
    · rename_i hd
      rw [Bool.and_eq_true_iff, text_trimmed, Token.layoutText, Token.isHidden, hu.1] at hd
      have hb : u.isActionBlank = true := by
        rw [Token.isActionBlank, hu.1]
        exact hd.2
      obtain ⟨ws, hsub, hf, hm⟩ := ih gap hu.2
      exact ⟨ws, hsub.cons u, by rw [hf, List.filter_cons_of_neg (by simp [hb])], hm⟩
    · obtain ⟨ws, hsub, hf, hm⟩ := ih _ hu.2
      exact ⟨u :: ws, hsub.cons_cons u, by rw [List.filter_cons, hf, List.filter_cons],
        by rw [List.map_cons, hm]; rfl⟩

/-- What is laid out of tokens: all of them in their order, but the end marker and some blanks of
actions. The induction is on how the segments are laid out, one by one or an action at once. -/
theorem Laid.exists_sublist {lone : Segment → Prop} (hl : ∀ c, lone c → c.kind ≠ .eof)
    {cs : List Segment} {ss : List Stroke} (h : Laid lone cs ss) {us : List Token}
    (hu : us.map (·.segment.trimmed) = cs) :
    ∃ ws : List Token, ws.Sublist (us.filter (!·.isEof)) ∧
      ws.filter (!·.isActionBlank) = (us.filter (!·.isEof)).filter (!·.isActionBlank) ∧
      ws.map (·.segment.trimmed) = ss.map Stroke.segment := by
  have hkind : ∀ u : Token, u.segment.trimmed.kind = u.kind := fun u ↦ Segment.kind_trimmed _
  induction h generalizing us with
  | nil =>
    rw [List.map_eq_nil_iff.1 hu]
    exact ⟨[], .slnil, rfl, rfl⟩
  | eof hk _ ih =>
    obtain ⟨u, us, rfl, rfl, hus⟩ := List.map_eq_cons_iff.1 hu
    -- the end marker is the one token that is not laid out
    have he : u.isEof = true := by rw [Token.isEof, ← hkind u, hk]; rfl
    rw [List.filter_cons_of_neg (by simp [he])]
    exact ih hus
  | stroke gap hc _ ih =>
    obtain ⟨u, us, rfl, rfl, hus⟩ := List.map_eq_cons_iff.1 hu
    have he : u.isEof = false := beq_eq_false_iff_ne.2 (hkind u ▸ hl _ hc)
    obtain ⟨ws, hsub, hf, hm⟩ := ih hus
    rw [List.filter_cons_of_pos (by simp [he])]
    exact ⟨u :: ws, hsub.cons_cons u, by rw [List.filter_cons, hf, List.filter_cons],
      by rw [List.map_cons, hm]; rfl⟩
  | @action b e ps cs ss gap depth hb hp he _ ih =>
    rw [List.cons_append, List.append_assoc] at hu
    -- an action at once: its braces are laid out, and its pieces but for some blanks
    obtain ⟨tb, us, rfl, htb, hus⟩ := List.map_eq_cons_iff.1 hu
    obtain ⟨pu, us, rfl, hpu, hus⟩ := List.map_eq_append_iff.1 hus
    obtain ⟨te, us, rfl, hte, hus⟩ := List.map_eq_cons_iff.1 hus
    have hpk : ∀ u ∈ pu, u.kind = .actionContent := fun u hm ↦ by
      rw [← hkind u]
      exact hp _ (hpu ▸ List.mem_map_of_mem (f := fun t : Token ↦ t.segment.trimmed) hm)
    have hbe : tb.isEof = false := by rw [Token.isEof, ← hkind tb, htb, hb]; rfl
    have hee : te.isEof = false := by rw [Token.isEof, ← hkind te, hte, he]; rfl
    have hpe : pu.filter (!·.isEof) = pu := by
      refine List.filter_eq_self.2 fun u hm ↦ ?_
      rw [Token.isEof, hpk u hm]
      rfl
    obtain ⟨wp, hwp, hwf, hwm⟩ := exists_sublist_pieceStrokes depth .nothing hpk
    obtain ⟨ws, hsub, hf, hm⟩ := ih hus
    rw [hpu] at hwm
    refine ⟨tb :: (wp ++ te :: ws), ?_, ?_, ?_⟩
    · rw [List.filter_cons_of_pos (by simp [hbe]), List.filter_append, hpe,
        List.filter_cons_of_pos (by simp [hee])]
      exact (hwp.append (hsub.cons_cons te)).cons_cons tb
    · simp only [List.filter_cons, List.filter_append, hwf, hf, hpe, hbe, hee, Bool.not_false,
        if_true]
    · simp only [List.map_cons, List.map_append, hwm, hm, htb, hte, List.cons_append,
        List.append_assoc, List.nil_append]

/-- The text of strokes that fit together is interleaved of their tokens. That strokes fit together
is used once, for line comments: the next stroke begins a new line. -/
theorem interleaved_of_strokes {r : Rules} {width : Nat} {ws : List Token} {ss : List Stroke}
    (hs : ss.IsChain (Joins r)) (hne : ss ≠ []) (hh : ∀ s ∈ ss.head?, s.gap = .nothing)
    (hm : ws.map (·.segment.trimmed) = ss.map Stroke.segment) :
    Interleaved width ws (inked width ss ++ ['\n']) := by
  have key : ∀ {ss : List Stroke} {s : Stroke} {w : Token} {ws : List Token},
      (s :: ss).IsChain (Joins r) →
        (w :: ws).map (·.segment.trimmed) = (s :: ss).map Stroke.segment →
      Interleaved width (w :: ws) (s.segment.text ++ (inked width ss ++ ['\n'])) := by
    intro ss
    induction ss with
    | nil =>
      intro s w ws _ hm
      simp only [List.map_cons, List.map_nil, List.cons.injEq, List.map_eq_nil_iff] at hm
      rw [hm.2, ← hm.1, text_trimmed]
      exact .last w
    | cons s' ss ih =>
      intro s w ws hs hm
      rw [List.map_cons, List.map_cons, List.cons.injEq] at hm
      obtain ⟨w', ws, rfl, -, -⟩ := List.map_eq_cons_iff.1 hm.2
      rw [List.isChain_cons] at hs
      have hj := hs.1 s' rfl
      have htail := ih hs.2 hm.2
      have hg : w.kind = .lineComment → s'.gap.isLines = true := fun hk ↦
        hj.ended (by rw [← hm.1, Segment.kind_trimmed]; exact hk)
      have hcons := Interleaved.cons s'.gap hg htail
      rw [← hm.1, text_trimmed]
      simpa only [inked_cons, List.append_assoc] using hcons
  cases ss with
  | nil => exact absurd rfl hne
  | cons s ss =>
    obtain ⟨w, ws, rfl, -, -⟩ := List.map_eq_cons_iff.1 hm
    rw [inked_cons, hh s rfl]
    simpa only [Separator.text, List.nil_append, List.append_assoc] using key hs hm

/-- **A layout is its tokens with separators between them.** The tokens stand in the order of the
stream, each once and as it is in the source, but for blanks at the end of comments. Of the tokens
that have a place in a layout only blanks of actions may be missing. So a source and its layout
differ in blanks only. -/
theorem format_interleaves {rules : Rules} {source : String} {out : Formatted}
    (hr : rules.check = none) (h : format rules source = .ok out) :
    ∃ written : List Token,
      written.Sublist ((tokenize source).toList.filter Token.isWritten) ∧
      written.filter (!·.isActionBlank) =
        ((tokenize source).toList.filter Token.isWritten).filter (!·.isActionBlank) ∧
      Interleaved rules.indentWidth written out.rendered.toList ∧
      ink out.rendered.toList = ink source.toList := by
  obtain ⟨p, hp, ht⟩ := exists_complete_of_format hr h
  have hl : ∀ c : Segment, c.kind ≠ .eof → c.kind ≠ .eof := fun _ h ↦ h
  have hvis : ((tokenize source).toList.filter (·.segment.isVisible)).map (·.segment.trimmed) =
      Segment.visible ((tokenize source).toList.map Token.segment) := by
    rw [Segment.visible, List.filter_map, List.map_map]
    rfl
  have hwritten : ((tokenize source).toList.filter (·.segment.isVisible)).filter (!·.isEof) =
      (tokenize source).toList.filter Token.isWritten := by
    rw [List.filter_filter]
    refine List.filter_congr fun t _ ↦ ?_
    unfold Token.isWritten Token.isHidden Token.isEof Token.isPlainComment Segment.isVisible
      Token.segment
    cases t.kind <;> rfl
  obtain ⟨ws, hsub, hf, hm⟩ := hp.laid.exists_sublist hl hvis
  rw [hwritten] at hsub hf
  refine ⟨ws, hsub, hf, ?_, ?_⟩
  · rw [ht]
    exact interleaved_of_strokes hp.sound.chain hp.strokes_ne hp.sound.head hm
  · rw [ht, ink_append, hp.laid.ink_inked hl, segments_tokenize, Segment.visible_append,
      inkOf_append,
      inkOf_visible (Segment.formed_ofChars none _), Segment.flatMap_text_ofChars]
    exact (List.append_assoc ..).trans (List.append_nil _)

/-- The layout of an action and a comment: the blank after the semicolon is dropped. -/
theorem interleaved_action_comment :
    Rules.standard.check = none ∧
      ∃ out written, format Rules.standard "grammar T; a : \x7bx; y\x7d ; // c " = .ok out ∧
        out.rendered = "grammar T;\n\na\n   :\x7bx;\n   y\x7d\n   ;\n\n// c\n" ∧
        Interleaved 3 written out.rendered.toList ∧
        written.filter (!·.isActionBlank) =
          ((tokenize "grammar T; a : \x7bx; y\x7d ; // c ").toList.filter Token.isWritten).filter
            (!·.isActionBlank) := by
  have hr : Rules.standard.check = none := by decide
  have ht : formatsTo Rules.standard "grammar T; a : \x7bx; y\x7d ; // c "
      (·.rendered == "grammar T;\n\na\n   :\x7bx;\n   y\x7d\n   ;\n\n// c\n") = true := by
    decide +kernel
  obtain ⟨out, hf, he⟩ := exists_of_formatsTo ht
  obtain ⟨written, -, hw, hi, -⟩ := format_interleaves hr hf
  exact ⟨hr, out, written, hf, beq_iff_eq.1 he, hi, hw⟩

end GrammarLayout
