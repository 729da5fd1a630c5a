import GrammarLayout.Proofs.Layout.Diagnostics
import GrammarLayout.Proofs.Layout.Places

/-!
# Layouts of readable grammars

In a grammar in which everything could be read, almost nothing depends on what follows it. Blocks
are tame, doc comments have their terminators (`closed_of_clean`), and nothing is unknown. In an
action, the character after a slash or a line comment is the same in the layout, because lines are
broken after other pieces only (`keepsAll_pieceStrokes`). What is left are quotes without a partner:
they end with their line, and the layout may put more on that line. Without such quotes a layout is
read again as it was laid out (`exists_reread_of_format`).

The module goes through the tokens that could depend on what follows them, and shows why they do not
in such a grammar:

* A doc comment without its terminator ends the text or a block (`Segment.after_open_doc`). After it
  the reader finds no rule for the comment to belong to, so there would be a recovered region.

* The pieces of an action are read one after the other up to its closing brace
  (`readsActions_ofChars`). What a piece needs of what follows it is one character, and that
  character is the same in the layout unless a line ends there (`head_pieceStrokes`).

* A block of an options, tokens or channels section holds tokens of the productions only, which are
  calm (`blocksTame_of_blocksClose`).

`Regular` puts these together with the one condition that does not follow from the grammar being
readable, that no quote in an action is without a partner.
-/

namespace GrammarLayout

/-! ### Doc comments -/

/-- What follows a doc comment without its terminator: nothing, or the end of a block. A comment
that is not terminated takes the whole text it stands in, and that text can only be a body. -/
theorem Segment.after_open_doc {before : Option Kind} {cs : List Char} {A B : List Segment}
    {s : Segment} (h : ofChars before cs = A ++ s :: B) (hk : s.kind = .docComment)
    (hu : ¬Lexeme.ClosedComment s.text) : ∀ e ∈ B.head?, e.kind = .rbrace := by
  fun_induction ofChars before cs generalizing A B with
  | case1 => exact absurd h (by simp)
  | case2 before c cs kind text rest hn s' =>
    rename_i ih
    cases A with
    | nil =>
      obtain ⟨rfl, rfl⟩ := List.cons.inj h
      have hkind : kind = .blockComment := by
        rcases kind_ofPlain kind text with hkk | ⟨hkk, -⟩
        · have hf := (Lexeme.formed_next hn).flat
          rw [← hkk, hk] at hf
          exact absurd hf (by decide)
        · exact hkk
      rw [text_ofPlain] at hu
      rw [((follows_next hn).2 hkind).resolve_left hu, ofChars]
      simp
    | cons a A =>
      obtain ⟨-, htail⟩ := List.cons.inj h
      exact ih htail
  | case3 before c cs text rest hn ih =>
    cases A with
    | nil =>
      obtain ⟨rfl, -⟩ := List.cons.inj h
      exact absurd hk (by simp)
    | cons a A =>
      obtain ⟨-, htail⟩ := List.cons.inj h
      exact ih htail
  | case4 before c cs body closed rest hn hb ihb ihr =>
    cases A with
    | nil =>
      obtain ⟨rfl, -⟩ := List.cons.inj h
      exact absurd hk (by simp)
    | cons a A =>
      obtain ⟨-, htail⟩ := List.cons.inj h
      rcases append_eq_append_cons htail with ⟨B₁, hbody, rfl⟩ | ⟨A₁, rfl, hrest⟩
      · -- in the body, so the block may end after it
        intro e he
        cases B₁ with
        | nil =>
          cases closed with
          | false =>
            rw [rest_of_braced hn, ofChars] at he
            exact absurd he (by simp [closing])
          | true =>
            obtain rfl := Option.some.inj he
            rfl
        | cons b B₁ => exact ihb hbody e he
      · rcases append_eq_append_cons hrest with ⟨B₁, hcl, -⟩ | ⟨A₂, rfl, hrest'⟩
        · have hm : s ∈ closing .rbrace closed := by rw [hcl]; simp
          rw [kind_of_closing hm] at hk
          exact absurd hk (by decide)
        · exact ihr hrest'
  | case5 before c cs body closed rest hn hb ih =>
    rcases append_eq_append_cons h with ⟨B₁, hact, -⟩ | ⟨A₁, rfl, hrest⟩
    · have hm : s ∈ ofAction body closed := by rw [hact]; simp
      have hp := isActionPiece_ofAction hm
      rw [hk] at hp
      exact absurd hp (by decide)
    · exact ih hrest

/-- In a grammar in which everything could be read, doc comments have their terminators. Doc
comments stand before rules, and behind an open one there is no rule. -/
theorem closed_of_clean {source : String} {ts : List Tree}
    (h : CleanTokens (tokenize source).mainTokens ts) {t : Token}
    (ht : t ∈ (tokenize source).toList) (hk : t.kind = .docComment) :
    Lexeme.ClosedComment t.segment.text := by
  by_contra hu
  obtain ⟨A, B, hAB⟩ := List.append_of_mem ht
  have hs := segments_tokenize source
  rw [hAB, List.map_append, List.map_cons] at hs
  -- the comment is not the end marker, so a token comes next
  obtain ⟨u, B, rfl⟩ : ∃ u B', B = u :: B' := by
    cases B with
    | nil =>
      have hlast := List.append_inj_right' hs rfl
      have heof := congrArg Segment.kind (List.cons.inj hlast).1
      exact absurd (hk.symm.trans heof) (by decide)
    | cons u B => exact ⟨u, B, rfl⟩
  -- it is the closing brace of a block or the end marker
  have hu' : u.kind = .rbrace ∨ u.kind = .eof := by
    cases hB : B.map Token.segment using List.reverseRecOn with
    | nil =>
      rw [List.map_cons, hB, List.append_cons] at hs
      have hlast := List.append_inj_right' hs rfl
      exact .inr (congrArg Segment.kind (List.cons.inj hlast).1)
    | append_singleton B' e _ =>
      rw [List.map_cons, hB, ← List.cons_append, ← List.cons_append, ← List.append_assoc] at hs
      have hinit := List.append_inj_left' hs rfl
      exact .inl (Segment.after_open_doc hinit.symm hk hu u.segment rfl)
  have hmain : (tokenize source).mainTokens =
      A.filter (!·.isHidden) ++ (t :: u :: B.filter (!·.isHidden)) := by
    have hth : t.isHidden = false := by rw [Token.isHidden, hk]; rfl
    have huh : u.isHidden = false := by rcases hu' with h | h <;> rw [Token.isHidden, h] <;> rfl
    rw [Stream.mainTokens, hAB, List.filter_append, List.filter_cons_of_pos (by simp [hth]),
      List.filter_cons_of_pos (by simp [huh])]
  rcases hu' with hr | he
  · have hc := h.doc_rbrace
    rw [hmain] at hc
    exact (List.isChain_cons.1 (List.isChain_append.1 hc).2.1).1 u rfl hk hr
  · have hc := h.doc_eof
    rw [hmain] at hc
    exact (List.isChain_cons.1 (List.isChain_append.1 hc).2.1).1 u rfl hk he

/-! ### Actions -/

/-- The pieces of every action are read one after the other, up to a closing brace. The brace need
not be that of the action, as long as the pieces before it are read the same. -/
def ReadsActions (cs : List Segment) : Prop :=
  ∀ A b ps e B, cs = A ++ b :: (ps ++ e :: B) → b.kind = .beginAction →
    (∀ p ∈ ps, p.kind = .actionContent) → e.kind = .endAction →
      ∃ rest, Action.ReadAll (ps.map Segment.text) ('\x7d' :: rest)

/-- Actions in the later part of a list. -/
theorem ReadsActions.of_append {cs cs' : List Segment} (h : ReadsActions (cs ++ cs')) :
    ReadsActions cs' := fun A b ps e B hB ↦
  h (cs ++ A) b ps e B (by rw [hB, List.append_assoc])

/-- No action starts with this segment. -/
theorem ReadsActions.cons {c : Segment} {cs : List Segment} (hc : c.kind ≠ .beginAction)
    (h : ReadsActions cs) : ReadsActions (c :: cs) := by
  intro A b ps e B hcs hb
  cases A with
  | nil =>
    obtain ⟨rfl, -⟩ := List.cons.inj hcs
    exact absurd hb hc
  | cons a A => exact h A b ps e B (List.cons.inj hcs).2 hb

/-- Actions do not reach over a segment that is no piece. -/
theorem ReadsActions.append_cons {cs cs' : List Segment} {c : Segment}
    (hc : c.kind.isActionPiece = false) (h : ReadsActions cs) (h' : ReadsActions cs') :
    ReadsActions (cs ++ c :: cs') := by
  intro A b ps e B hcs hb hp he
  rcases append_eq_append_cons hcs with ⟨B₁, rfl, hrest⟩ | ⟨A₁, -, hrest⟩
  · rcases append_eq_append_cons hrest.symm with ⟨B₂, rfl, -⟩ | ⟨A₂, hps, hrest'⟩
    · exact h A b ps e B₂ rfl hb hp he
    · -- the segment would be a piece, or the end of the action
      cases A₂ with
      | nil =>
        obtain ⟨rfl, -⟩ := List.cons.inj hrest'
        rw [he] at hc
        exact absurd hc (by decide)
      | cons a A₂ =>
        obtain ⟨rfl, -⟩ := List.cons.inj hrest'
        rw [hp c (by rw [hps]; simp)] at hc
        exact absurd hc (by decide)
  · have hnb : c.kind ≠ .beginAction := by
      intro hk
      rw [hk] at hc
      exact absurd hc (by decide)
    exact ReadsActions.cons hnb h' A₁ b ps e B hrest hb hp he

/-- An action is read piece by piece up to its closing brace, if it has one. -/
theorem readsActions_ofAction {c : Char} {cs body rest : List Char} {closed : Bool}
    {V : List Segment} (hn : Lexeme.next c cs = (.braced body closed, rest))
    (hV : closed = false → V = []) (h : ReadsActions V) :
    ReadsActions (Segment.ofAction body closed ++ V) := by
  have hsplit : Segment.ofAction body closed ++ V =
      ⟨.beginAction, ['\x7b']⟩ :: (contents (Action.pieces body) ++
        (Segment.closing .endAction closed ++ V)) := by
    simp [Segment.ofAction, contents]
  intro A b ps e B hcs hb hp he
  rw [hsplit] at hcs
  cases A with
  | nil =>
    obtain ⟨-, htail⟩ := List.cons.inj hcs
    cases closed with
    | true =>
      obtain ⟨rfl, -⟩ := contents_unique kind_of_mem_contents hp (by simp [Segment.closing])
        (by simp [he]) htail
      obtain ⟨-, hread, -⟩ := Action.of_closed (Lexeme.of_braced hn).2
      refine ⟨rest, ?_⟩
      rw [contents, List.map_map]
      exact (congrArg (Action.ReadAll · _) (List.map_id _)).mpr hread
    | false =>
      -- the action has no end
      have hall : contents (Action.pieces body) = ps ++ e :: B := by
        simpa [Segment.closing, hV rfl] using htail
      rw [kind_of_mem_contents e (by rw [hall]; simp)] at he
      exact absurd he (by decide)
  | cons a A =>
    -- the action starts after this one
    obtain ⟨-, htail⟩ := List.cons.inj hcs
    rcases append_eq_append_cons htail with ⟨B₁, hin, -⟩ | ⟨A₁, -, hrest⟩
    · rw [kind_of_mem_contents b (by rw [hin]; simp)] at hb
      exact absurd hb (by decide)
    · rcases append_eq_append_cons hrest with ⟨B₂, hcl, -⟩ | ⟨A₂, -, hrest'⟩
      · rw [Segment.kind_of_closing (show b ∈ _ by rw [hcl]; simp)] at hb
        exact absurd hb (by decide)
      · exact h A₂ b ps e B hrest' hb hp he

/-- **The actions of a text are read** piece by piece. -/
theorem readsActions_ofChars (before : Option Kind) (cs : List Char) :
    ReadsActions (Segment.visible (Segment.ofChars before cs)) := by
  fun_induction Segment.ofChars before cs with
  | case1 => exact fun A b ps e B h ↦ absurd h (by simp)
  | case2 before c cs kind text rest hn s =>
    rename_i ih
    rw [Segment.visible_cons, Segment.visible_singleton]
    split
    · exact ih
    · have hp := (isActionPiece_ofPlain (Lexeme.formed_next hn).flat text).1
      rw [← Segment.kind_trimmed] at hp
      exact .cons (by rintro hk; rw [hk] at hp; exact absurd hp (by decide)) ih
  | case3 before c cs text rest hn ih =>
    rw [Segment.visible_cons, Segment.visible_singleton, if_neg (by simp)]
    exact .cons (by simp) ih
  | case4 before c cs body closed rest hn hb ihb ihr =>
    rw [Segment.visible_cons, Segment.visible_singleton, if_neg (by simp), Segment.visible_append,
      Segment.visible_append]
    refine .cons (by simp) ?_
    cases closed with
    | true => exact ihb.append_cons rfl ihr
    | false =>
      rw [Segment.rest_of_braced hn, Segment.ofChars]
      simpa [Segment.closing] using ihb
  | case5 before c cs body closed rest hn hb ih =>
    rw [Segment.visible_append, visible_ofAction]
    refine readsActions_ofAction hn (fun hc ↦ ?_) ih
    -- an action without its closing brace runs to the end of the text, so nothing is left to read
    subst hc
    rw [Segment.rest_of_braced hn, Segment.ofChars]
    rfl

/-! ### Strokes that are kept -/

/-- Whether a segment is a quote without a partner in an action. -/
def Segment.isLoneQuote (c : Segment) : Bool :=
  c.kind == .actionContent && (c.text == ['\''] || c.text == ['"'])

/-- A piece that is no lone quote is none of the quotes by itself. -/
theorem ne_quote_of_isLoneQuote {c : Segment} (hk : c.kind = .actionContent)
    (h : c.isLoneQuote = false) : ∀ q, Action.isQuote q = true → c.text ≠ [q] := by
  intro q hq ht
  rw [Segment.isLoneQuote, hk, ht] at h
  simp only [Action.isQuote, Bool.or_eq_true, beq_iff_eq] at hq
  rcases hq with rfl | rfl <;> exact absurd h (by decide)

/-- No line is broken after a piece that is open at its end, which is neither a semicolon nor an at
sign. -/
theorem breaksAfter_of_isOpen {text : List Char} (h : Action.isOpen text = true) :
    breaksAfter text = false := by
  rw [breaksAfter, Bool.or_eq_false_iff, beq_eq_false_iff_ne, beq_eq_false_iff_ne]
  constructor <;> rintro rfl <;> exact absurd h (by decide)

/-- The pieces of an action start with the same character in a layout, where no line was broken.
Without a line break no blank is dropped either. -/
theorem head_pieceStrokes (width depth : Nat) {ps : List Segment} (hne : ∀ p ∈ ps, p.text ≠ [])
    (rest rest' : List Char) :
    ∃ d, (inked width (pieceStrokes depth .nothing ps).1 ++
        ((pieceStrokes depth .nothing ps).2.text width ++ '\x7d' :: rest)).head? = some d ∧
      ((ps.map Segment.text).flatten ++ '\x7d' :: rest').head? = some d := by
  cases ps with
  | nil => exact ⟨'\x7d', rfl, rfl⟩
  | cons p ps =>
    obtain ⟨d, t, ht⟩ := List.exists_cons_of_ne_nil (hne p List.mem_cons_self)
    refine ⟨d, ?_, ?_⟩
    · rw [pieceStrokes, if_neg (by simp [Separator.isLines])]
      simp [ht, Separator.text]
    · simp [ht]

/-- **The pieces of an action are kept** in its layout, unless they are quotes without a partner. -/
theorem keepsAll_pieceStrokes (width depth : Nat) (gap : Separator) {ps : List Segment}
    {src : List Char} (hr : Action.ReadAll (ps.map Segment.text) ('\x7d' :: src))
    (hp : ∀ p ∈ ps, p.kind = .actionContent) (hq : ∀ p ∈ ps, p.isLoneQuote = false)
    (rest : List Char) :
    KeepsAll width (pieceStrokes depth gap ps).1
      ((pieceStrokes depth gap ps).2.text width ++ '\x7d' :: rest) := by
  have hne : ∀ {qs : List (List Char)} {more : List Char}, Action.ReadAll qs more →
      ∀ q ∈ qs, q ≠ [] := by
    intro qs more h q hm
    obtain ⟨_, hread⟩ := h.exists_reads hm
    exact hread.ne_nil
  induction ps generalizing gap with
  | nil => trivial
  | cons p ps ih =>
    rw [List.forall_mem_cons] at hp hq
    have htexts : ∀ c ∈ ps, c.text ≠ [] := fun c hc ↦ hne hr.2 _ (List.mem_map_of_mem hc)
    rw [pieceStrokes]
    split
    · exact ih gap hr.2 hp.2 hq.2
    · refine ⟨⟨fun _ ho ↦ ?_, fun hk ↦ ?_, fun hk ↦ ?_⟩, ih _ hr.2 hp.2 hq.2⟩
      · -- the line goes on, with the character that followed the piece
        dsimp only
        rw [breaksAfter_of_isOpen ho, if_neg (by decide)]
        obtain ⟨d, hd', hd⟩ := head_pieceStrokes width depth htexts rest src
        exact Action.Reads.again_of_head hr.1 ho (ne_quote_of_isLoneQuote hp.1 hq.1) hd hd'
      · exact absurd (hp.1.symm.trans hk) (by decide)
      · exact absurd (hp.1.symm.trans hk) (by decide)

/-- What a grammar in which everything could be read writes by itself. -/
def Segment.IsPlaced (c : Segment) : Prop := c.kind.isPlaced = true ∧ c.kind ≠ .eof

/-- Segments that are read as before wherever they are laid out. -/
structure Regular (cs : List Segment) : Prop where
  /-- Doc comments have their terminators. -/
  doc : ∀ c ∈ cs, c.kind = .docComment → Lexeme.ClosedComment c.text
  /-- Actions are read piece by piece. -/
  actions : ReadsActions cs
  /-- No quote in an action is without a partner. -/
  quotes : ∀ c ∈ cs, c.isLoneQuote = false

/-- What follows regular segments is regular. -/
theorem Regular.of_append {cs cs' : List Segment} (h : Regular (cs ++ cs')) : Regular cs' where
  doc c hc := h.doc c (List.mem_append_right _ hc)
  actions := h.actions.of_append
  quotes c hc := h.quotes c (List.mem_append_right _ hc)

/-- And so is what follows one segment. -/
theorem Regular.of_cons {c : Segment} {cs : List Segment} (h : Regular (c :: cs)) : Regular cs :=
  of_append (show Regular ([c] ++ cs) from h)

/-- **The strokes of regular segments are kept.** -/
theorem keepsAll_of_laid {cs : List Segment} {ss : List Stroke} (h : Laid Segment.IsPlaced cs ss)
    (hr : Regular cs) (width : Nat) (rest : List Char) : KeepsAll width ss rest := by
  -- braces of actions are kept whatever follows
  have hbrace : ∀ (kind : Kind) (text rest : List Char), kind = .beginAction ∨ kind = .endAction →
      Keeps ⟨kind, text⟩ rest := by
    rintro kind text rest (rfl | rfl) <;>
      exact ⟨Kind.noConfusion, Kind.noConfusion, Kind.noConfusion⟩
  induction h with
  | nil => trivial
  | eof _ _ ih => exact ih hr.of_cons
  | @stroke c cs ss gap hc _ ih =>
    refine ⟨⟨fun hk ↦ ?_, fun hk ↦ ?_, hr.doc c List.mem_cons_self⟩, ih hr.of_cons⟩
    · exact absurd hc.1 (by rw [show c.kind = _ from hk]; decide)
    · exact absurd hc.1 (by rw [show c.kind = _ from hk]; decide)
  | @action b e ps cs ss gap depth hb hp he _ ih =>
    subst hb he
    have hrest := hr.of_append
    obtain ⟨src, hread⟩ := hr.actions [] ⟨.beginAction, ['\x7b']⟩ ps ⟨.endAction, ['\x7d']⟩ cs
      (by simp) rfl hp rfl
    have hquotes : ∀ p ∈ ps, p.isLoneQuote = false := fun p hm ↦ hr.quotes p (by simp [hm])
    have hpieces := keepsAll_pieceStrokes width depth .nothing hread hp hquotes
      (inked width ss ++ rest)
    rw [List.cons_append, List.append_assoc, List.singleton_append]
    refine ⟨hbrace _ _ _ (.inl rfl), keepsAll_append.2 ⟨?_, hbrace _ _ _ (.inr rfl), ih hrest⟩⟩
    simpa using hpieces

/-! ### Sources -/

/-- A kind that is calm makes a calm segment, and so does a hidden one. The kinds that are calm only
for some texts are not among these. -/
theorem isCalm_segment {t : Token} (h : t.isHidden = true ∨ t.kind.isCalm = true) :
    t.segment.isCalm = true := by
  rw [Segment.isCalm, Token.segment]
  rw [Token.isHidden] at h
  cases hk : t.kind <;> rw [hk] at h <;>
    first | rfl | exact absurd (h.resolve_left (by decide)) (by decide)

/-- Blocks that are calm among the main tokens are tame in the text. -/
theorem blocksTame_of_blocksClose {source : String}
    (h : BlocksClose (tokenize source).mainTokens) :
    BlocksTame (Segment.visible (Segment.ofChars none source.toList)) := by
  refine blocksTame_of_tokens fun A t B hAB hk ↦ ?_
  have hmain : (tokenize source).mainTokens =
      A.filter (!·.isHidden) ++ t :: B.filter (!·.isHidden) := by
    have hth : t.isHidden = false := by rw [Token.isHidden, hk]; rfl
    rw [Stream.mainTokens, hAB, List.filter_append, List.filter_cons_of_pos (by simp [hth])]
  obtain ⟨P, e, B', hB, hP, he⟩ := h _ t _ hmain hk
  -- between the main tokens of the block stand hidden ones
  obtain ⟨B₁, B₂, rfl, hB₁, hB₂⟩ := List.filter_eq_append_iff.1 hB
  obtain ⟨H, Q, rfl, hH, -, -⟩ := List.filter_eq_cons_iff.1 hB₂
  have hcalm : ∀ p ∈ B₁ ++ H, p.segment.isCalm = true := by
    intro p hp
    refine isCalm_segment ?_
    cases hh : p.isHidden with
    | true => exact .inl rfl
    | false =>
      rcases List.mem_append.1 hp with hm | hm
      · refine .inr (hP p ?_)
        rw [← hB₁]
        exact List.mem_filter.2 ⟨hm, by simp [hh]⟩
      · exact absurd (hH p hm) (by simp [hh])
  refine ⟨B₁ ++ H ++ [e], Q, by simp, fun p hp ↦ ?_, .inr ?_⟩
  · rcases List.mem_append.1 hp with hm | hm
    · exact Segment.isTame_of_isCalm (hcalm p hm)
    · rw [List.mem_singleton.1 hm, Segment.isTame, Token.segment, he]
      rfl
  · rw [List.map_append, Nat.zero_add]
    exact blocks_calm_rbrace (List.forall_mem_map.2 hcalm) he

/-- **The segments of a grammar in which everything could be read are regular**, if its actions hold
no quote without a partner. -/
theorem regular_of_clean {source : String} {ts : List Tree}
    (h : CleanTokens (tokenize source).mainTokens ts)
    (hq : ∀ t ∈ (tokenize source).toList, t.segment.isLoneQuote = false) :
    Regular (Segment.visible (Segment.ofChars none source.toList)) := by
  -- a visible segment of a main token is that of the token
  have hmain : ∀ c ∈ Segment.visible (Segment.ofChars none source.toList),
      c.kind.isHidden = false → ∃ t ∈ (tokenize source).toList, t.segment = c := by
    intro c hc hh
    obtain ⟨d, hd, rfl⟩ := List.mem_map.1 hc
    have hin : d ∈ (tokenize source).toList.map Token.segment := by
      rw [segments_tokenize]
      exact List.mem_append_left _ (List.mem_of_mem_filter hd)
    obtain ⟨t, ht, rfl⟩ := List.mem_map.1 hin
    rw [Segment.kind_trimmed] at hh
    exact ⟨t, ht, (Segment.trimmed_of_main hh).symm⟩
  refine ⟨fun c hc hk ↦ ?_, readsActions_ofChars none _, fun c hc ↦ ?_⟩
  · obtain ⟨t, ht, rfl⟩ := hmain c hc (by rw [hk]; rfl)
    exact closed_of_clean h ht hk
  · by_cases hk : c.kind = .actionContent
    · obtain ⟨t, ht, rfl⟩ := hmain c hc (by rw [hk]; rfl)
      exact hq t ht
    · rw [Segment.isLoneQuote, beq_eq_false_iff_ne.2 hk, Bool.false_and]

/-- A complete page may admit more than it holds. -/
theorem Complete.mono {r : Rules} {lone lone' : Segment → Prop} {s : Stream} {p : Page}
    (h : Complete r lone s p) (hl : ∀ c, lone c → lone' c) : Complete r lone' s p :=
  { h with laid := h.laid.mono hl }

/-- **A source about which nothing is reported is laid out so that it is read again**: its layout is
the text of a page, and gives the strokes of that page back. -/
theorem exists_reread_of_format {width : Nat} {source : String} {out : Formatted}
    (h : format (Rules.indented width) source = .ok out) (hd : out.diagnostics = [])
    (hq : ∀ t ∈ (tokenize source).toList, t.segment.isLoneQuote = false) :
    ∃ tree p, parse (tokenize source) = .ok tree ∧
      Page.ofTree (Rules.indented width) (tokenize source) tree = p ∧
      out.rendered.toList = p.text width ∧
      Laid Segment.IsPlaced (Segment.visible (Segment.ofChars none source.toList)) p.strokes ∧
      Segment.visible (Segment.ofChars none out.rendered.toList) =
        rereads width false p.strokes ['\n'] := by
  obtain ⟨ts, hp, hclean⟩ := exists_clean_of_format h hd
  obtain ⟨tree, hp', rfl⟩ := format_eq_ok_iff.1 h
  obtain rfl : Tree.ofChildren .grammarSpec ts = tree := Except.ok.inj (hp.symm.trans hp')
  have hl : ∀ c, IsCommentText c → Segment.IsPlaced c := fun c hc ↦ by
    have hh := hc.hidden
    rw [Segment.IsPlaced]
    cases hk : c.kind <;> rw [hk] at hh <;> first | decide | exact absurd hh (by decide)
  obtain ⟨-, -, -, hne⟩ := forest_of_parse hp
  have hc : Complete (Rules.indented width) Segment.IsPlaced (tokenize source)
      (Page.ofTree (Rules.indented width) (tokenize source) (Tree.ofChildren .grammarSpec ts)) :=
    complete_ofTree (legible_tokenize source) hl
      (hclean.forest.mono fun t _ ht he ↦ ⟨ht, he⟩) hne
  have htext := rendered_ofTree (Rules.check_indented width) (derives_of_parse hp).over
  have hlaid := hc.laid
  rw [segments_tokenize, Segment.visible_append] at hlaid
  have hlaid := Laid.of_endMarker (fun _ h ↦ h.2) hlaid
  have hK := keepsAll_of_laid hlaid (regular_of_clean hclean hq) width ['\n']
  refine ⟨_, _, hp, rfl, htext, hlaid, ?_⟩
  rw [htext, show (Rules.indented width).indentWidth = width from rfl, hc.text_eq]
  exact (hc.mono fun _ h ↦ h.2).reread (Rules.plain_indented width)
    (blocksTame_of_blocksClose hclean.blocks) hK

end GrammarLayout
