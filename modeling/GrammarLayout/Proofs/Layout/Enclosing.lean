import GrammarLayout.Proofs.Action.Passing
import GrammarLayout.Proofs.Layout.Strokes
import Mathlib.Data.List.Count

/-!
# Where a block ends

An options, tokens or channels block is read twice: its end is found by the scanner for actions,
and what is inside is read as lexemes. The two see the same blocks only as long as the scanner for
actions takes nothing inside for the start of a literal, a comment or an escape. Segments for which
that holds are calm; together with the braces of further blocks they are tame.

Among tame segments a block ends where one counts it to end: at the first closing brace by which
more blocks are closed than opened (`endsByCount_visible`), and if there is none, not at all. So it
can be said of the segments after an opening brace alone that the body is tame (`Encloses`), without
knowing where the body ends (`isTame_body`).

`EndsByCount V cs` joins a list of segments with the text they are read from, and is proved along
the scan, with one lemma for each thing that the scan finds: tame lexemes are passed, a closing
brace closes the innermost block, a whole block or action inside is passed, and a block without its
closing brace takes the rest of the text, so that nothing is closed behind it. Blocks are nested in
the count as they are in the scan, but a count knows no nesting; that is why the depth is part of
the statement.

The converse is what is used. If a body does not close its own block, then counting cannot find an
end in it either (`EndsByCount.le_of_not_closed`), so the tame segments after the opening brace
reach at least through the body.
-/

namespace GrammarLayout

/-! ### Calm segments -/

/-- Only hidden segments are trimmed, and these are calm whatever their text. -/
@[simp] theorem isCalm_trimmed (s : Segment) : s.trimmed.isCalm = s.isCalm := by
  unfold Segment.trimmed
  split
  · rename_i hh
    unfold Segment.isCalm
    cases hk : s.kind <;> first | rfl | (rw [hk] at hh; exact absurd hh (by decide))
  · rfl

@[simp] theorem isCalm_ofPlain (kind : Kind) (text : List Char) :
    (Segment.ofPlain kind text).isCalm = (⟨kind, text⟩ : Segment).isCalm := by
  unfold Segment.ofPlain
  split
  · rename_i h
    rw [h.1]
    rfl
  · rfl

/-- Calm characters that start no lexeme are passed. -/
theorem passes_unknown {text : List Char} (h : (⟨.unknown, text⟩ : Segment).isCalm = true)
    (more : List Char) : Action.Passes text more := by
  refine .of_forall (fun c hc ↦ Action.quiet_of_isMute ?_) more
  have hm := List.all_eq_true.1 h c hc
  rw [Bool.and_eq_true_iff] at hm
  exact hm.1

theorem kind_ofPlain_eq_whitespace (kind : Kind) (text : List Char) :
    (Segment.ofPlain kind text).kind = .whitespace ↔ kind = .whitespace := by
  rcases kind_ofPlain kind text with h | ⟨rfl, h⟩
  · rw [h]
  · rw [h]
    exact ⟨fun hk ↦ absurd hk (by decide), fun hk ↦ absurd hk (by decide)⟩

/-- All of an action is visible. -/
theorem visible_ofAction (body : List Char) (closed : Bool) :
    Segment.visible (Segment.ofAction body closed) = Segment.ofAction body closed :=
  Segment.visible_of_main fun _ hs ↦
    Kind.isHidden_of_isActionPiece (Segment.isActionPiece_ofAction hs)

/-- What follows a comment in a text. -/
theorem follows_next {c : Char} {cs text rest : List Char} {kind : Kind}
    (h : Lexeme.next c cs = (.plain kind text, rest)) :
    (kind = .lineComment → ∀ d ∈ rest.head?, endsLine d = true) ∧
      (kind = .blockComment → Lexeme.ClosedComment text ∨ rest = []) := by
  refine ⟨fun hk ↦ ?_, fun hk ↦ ?_⟩
  · obtain ⟨l, -, -, hcom, hck⟩ := Lexeme.of_comment h (.inl hk)
    rcases Action.follows_comment hcom with ⟨-, hr⟩ | ⟨hb, -⟩
    · exact hr
    · exact absurd (hck.symm.trans hb) (by rw [hk]; decide)
  · obtain ⟨l, -, rfl, hcom, hck⟩ := Lexeme.of_comment h (.inr hk)
    rcases Action.follows_comment hcom with ⟨hl, -⟩ | ⟨-, hr⟩
    · exact absurd (hck.symm.trans hl) (by rw [hk]; decide)
    · exact hr

/-- A calm lexeme is passed by the scanner for actions where it stands. A comment without its
terminator is passed too: it is the last thing in the text for both scanners. -/
theorem passes_of_calm {c : Char} {cs text rest : List Char} {kind : Kind}
    (hn : Lexeme.next c cs = (.plain kind text, rest))
    (hc : (⟨kind, text⟩ : Segment).isCalm = true) : Action.Passes text rest := by
  by_cases hcom : kind = .lineComment ∨ kind = .blockComment
  · obtain ⟨l, -, rfl, hl, -⟩ := Lexeme.of_comment hn hcom
    rw [← comment?_append hl] at hl
    exact .of_reads (.of_comment hl) (by simp) (by simp)
  · rw [not_or] at hcom
    exact Action.passes_plain hn hc (fun hl ↦ absurd hl hcom.1) fun hb ↦ absurd hb hcom.2

/-- A text that is passed does not change whether a block is closed. -/
theorem closed_of_passes {text rest : List Char} (hp : Action.Passes text rest) (depth : Nat) :
    (Action.blockFrom depth (text ++ rest)).closed = (Action.blockFrom depth rest).closed := by
  rw [hp.blockFrom_append, Action.Block.closed_push]

/-- A whole block inside another does not change whether that one is closed. -/
theorem closed_of_braced {cs body rest : List Char} (h : Action.block cs = ⟨body, true, rest⟩)
    (depth : Nat) :
    (Action.blockFrom depth ('\x7b' :: cs)).closed = (Action.blockFrom depth rest).closed := by
  obtain ⟨rfl, hread, hdepth⟩ := Action.of_closed h
  have hp := Action.Passes.of_action hread hdepth
  rw [Action.flatten_pieces] at hp
  simpa using closed_of_passes hp depth

/-! ### Tame segments -/

/-- Whether a segment may stand in a block that is compared with its layout: it is calm, or a brace
of a block. -/
def Segment.isTame (s : Segment) : Bool := s.isCalm || s.kind == .lbrace || s.kind == .rbrace

theorem Segment.isTame_of_isCalm {s : Segment} (h : s.isCalm = true) : s.isTame = true := by
  simp [isTame, h]

@[simp] theorem isTame_trimmed (s : Segment) : s.trimmed.isTame = s.isTame := by
  rw [Segment.isTame, isCalm_trimmed, Segment.kind_trimmed, Segment.isTame]

/-- What is tame and no brace of a block is calm. -/
theorem Segment.isCalm_of_isTame {s : Segment} (h : s.isTame = true) (hl : s.kind ≠ .lbrace)
    (hr : s.kind ≠ .rbrace) : s.isCalm = true := by
  simpa [isTame, hl, hr] using h

/-- A lexeme of the flat scan other than a brace is calm if its segment is tame. -/
theorem isCalm_of_isTame_ofPlain {kind : Kind} {text : List Char} (hf : Lexeme.isFlat kind = true)
    (h : (Segment.ofPlain kind text).isTame = true) (hr : kind ≠ .rbrace) :
    (⟨kind, text⟩ : Segment).isCalm = true := by
  have hl : kind ≠ .lbrace := by rintro rfl; exact absurd hf (by decide)
  rw [← isCalm_ofPlain]
  rcases kind_ofPlain kind text with hk | ⟨-, hk⟩
  · exact Segment.isCalm_of_isTame h (by rwa [hk]) (by rwa [hk])
  · exact Segment.isCalm_of_isTame h (by rw [hk]; decide) (by rw [hk]; decide)

/-- How many blocks segments open. -/
def blocksOpened (ss : List Segment) : Nat := ss.countP (·.kind == .lbrace)

/-- How many blocks segments close. -/
def blocksClosed (ss : List Segment) : Nat := ss.countP (·.kind == .rbrace)

@[simp] theorem blocksOpened_nil : blocksOpened [] = 0 := rfl

@[simp] theorem blocksClosed_nil : blocksClosed [] = 0 := rfl

@[simp] theorem blocksOpened_append (ss ss' : List Segment) :
    blocksOpened (ss ++ ss') = blocksOpened ss + blocksOpened ss' := List.countP_append

@[simp] theorem blocksClosed_append (ss ss' : List Segment) :
    blocksClosed (ss ++ ss') = blocksClosed ss + blocksClosed ss' := List.countP_append

/-- An opening brace is counted once. -/
theorem blocks_lbrace {s : Segment} (h : s.kind = .lbrace) (ss : List Segment) :
    blocksOpened (s :: ss) = blocksOpened ss + 1 ∧ blocksClosed (s :: ss) = blocksClosed ss := by
  simp [blocksOpened, blocksClosed, h]

theorem blocks_rbrace {s : Segment} (h : s.kind = .rbrace) (ss : List Segment) :
    blocksOpened (s :: ss) = blocksOpened ss ∧ blocksClosed (s :: ss) = blocksClosed ss + 1 := by
  simp [blocksOpened, blocksClosed, h]

/-- Other segments are not counted. -/
theorem blocks_other {s : Segment} (hl : s.kind ≠ .lbrace) (hr : s.kind ≠ .rbrace)
    (ss : List Segment) :
    blocksOpened (s :: ss) = blocksOpened ss ∧ blocksClosed (s :: ss) = blocksClosed ss := by
  simp [blocksOpened, blocksClosed, hl, hr]

/-- Pieces of actions are no braces of blocks. -/
theorem blocks_of_pieces {ss : List Segment} (h : ∀ s ∈ ss, s.kind.isActionPiece = true) :
    blocksOpened ss = 0 ∧ blocksClosed ss = 0 := by
  refine ⟨List.countP_eq_zero.2 fun s hs hk ↦ ?_, List.countP_eq_zero.2 fun s hs hk ↦ ?_⟩ <;>
    exact absurd (h s hs) (by rw [beq_iff_eq.1 hk]; decide)

/-- Calm segments and a closing brace close one block more than they open. -/
theorem blocks_calm_rbrace {ss : List Segment} {e : Segment} (h : ∀ s ∈ ss, s.isCalm = true)
    (he : e.kind = .rbrace) : blocksOpened (ss ++ [e]) < blocksClosed (ss ++ [e]) := by
  have hopened : blocksOpened ss = 0 := by
    refine List.countP_eq_zero.2 fun s hs hk ↦ absurd (h s hs) ?_
    rw [Segment.isCalm, beq_iff_eq.1 hk]
    exact Bool.false_ne_true
  obtain ⟨ho, hc⟩ := blocks_rbrace he []
  rw [blocksOpened_append, blocksClosed_append, hopened, ho, hc, blocksOpened_nil]
  omega

/-! ### Closing a block -/

/-- Blocks end where one counts them to end: if tame segments at the start of a text close more
blocks than they open, by more than `depth`, then a block in which `depth` others are open is closed
by that text. -/
def EndsByCount (V : List Segment) (cs : List Char) : Prop :=
  ∀ P B depth, V = P ++ B → (∀ p ∈ P, p.isTame = true) → depth + blocksOpened P < blocksClosed P →
    (Action.blockFrom depth cs).closed = true

namespace EndsByCount

variable {V W : List Segment} {s : Segment} {cs body rest text : List Char}

/-- Segments that close no block. -/
theorem of_closed_eq_zero (h : blocksClosed V = 0) (cs : List Char) : EndsByCount V cs := by
  rintro P B depth rfl - hlt
  rw [blocksClosed_append] at h
  omega

/-- A lexeme that is no brace is passed if it is tame. -/
theorem cons (hl : s.kind ≠ .lbrace) (hr : s.kind ≠ .rbrace)
    (hp : s.isTame = true → Action.Passes text rest) (h : EndsByCount V rest) :
    EndsByCount (s :: V) (text ++ rest) := by
  intro P B depth hV hP hlt
  cases P with
  | nil => exact absurd hlt (by simp)
  | cons p P =>
    obtain ⟨rfl, rfl⟩ := List.cons.inj hV
    rw [List.forall_mem_cons] at hP
    obtain ⟨hopened, hclosed⟩ := blocks_other hl hr P
    rw [closed_of_passes (hp hP.1)]
    exact h P B depth rfl hP.2 (by omega)

/-- A closing brace closes the block or one that was opened in it. -/
theorem cons_rbrace (hr : s.kind = .rbrace) (h : EndsByCount V cs) :
    EndsByCount (s :: V) ('\x7d' :: cs) := by
  intro P B depth hV hP hlt
  have hread : Action.Reads ['\x7d'] cs := Action.reads_singleton (by decide) cs
  cases depth with
  | zero => rw [Action.blockFrom_closing]
  | succ n =>
    cases P with
    | nil => exact absurd hlt (by simp)
    | cons p P =>
      obtain ⟨rfl, rfl⟩ := List.cons.inj hV
      rw [List.forall_mem_cons] at hP
      obtain ⟨hopened, hclosed⟩ := blocks_rbrace hr P
      have hb := hread.blockFrom_append (n + 1)
      rw [List.singleton_append] at hb
      rw [hb]
      show ((Action.blockFrom n cs).push _).closed = true
      rw [Action.Block.closed_push]
      exact h P B n rfl hP.2 (by omega)

/-- What starts a body that does not close its own block opens at least as many blocks as it closes,
as long as it is tame. -/
theorem le_of_not_closed (h : EndsByCount V body) (hb : (Action.block body).closed = false)
    {P B : List Segment} (hV : V = P ++ B) (hP : ∀ p ∈ P, p.isTame = true) :
    blocksClosed P ≤ blocksOpened P := by
  by_contra hlt
  have hc := h P B 0 hV hP (by omega)
  exact absurd (hb.symm.trans hc) (by decide)

/-- A block without its closing brace closes nothing. -/
theorem openBlock {opening : Segment} (hbody : EndsByCount V body)
    (hb : (Action.block body).closed = false) (hl : opening.kind = .lbrace) (cs : List Char) :
    EndsByCount (opening :: V) cs := by
  intro P B depth hV hP hlt
  cases P with
  | nil => exact absurd hlt (by simp)
  | cons p P =>
    obtain ⟨rfl, rfl⟩ := List.cons.inj hV
    obtain ⟨hopened, hclosed⟩ := blocks_lbrace hl P
    have hle := hbody.le_of_not_closed hb rfl (List.forall_mem_cons.1 hP).2
    omega

/-- A whole block inside another one is passed. -/
theorem block {opening closing : Segment} (hbody : EndsByCount V body)
    (hblock : Action.block cs = ⟨body, true, rest⟩) (hb : (Action.block body).closed = false)
    (hl : opening.kind = .lbrace) (hr : closing.kind = .rbrace) (h : EndsByCount W rest) :
    EndsByCount (opening :: (V ++ closing :: W)) ('\x7b' :: cs) := by
  intro P B depth hV hP hlt
  rw [closed_of_braced hblock]
  cases P with
  | nil => exact absurd hlt (by simp)
  | cons p P =>
    obtain ⟨rfl, hrest⟩ := List.cons.inj hV
    obtain ⟨hopened, hclosed⟩ := blocks_lbrace hl P
    have hP := (List.forall_mem_cons.1 hP).2
    -- what is counted stops in the body or goes on behind it
    rcases List.append_eq_append_iff.1 hrest with ⟨as, rfl, has⟩ | ⟨as, rfl, -⟩
    · rw [List.forall_mem_append] at hP
      have hle := hbody.le_of_not_closed hb (List.append_nil V).symm hP.1
      rw [blocksOpened_append] at hopened
      rw [blocksClosed_append] at hclosed
      cases as with
      | nil =>
        rw [blocksOpened_nil] at hopened
        rw [blocksClosed_nil] at hclosed
        omega
      | cons a as =>
        obtain ⟨rfl, rfl⟩ := List.cons.inj has
        obtain ⟨hopened', hclosed'⟩ := blocks_rbrace hr as
        exact h as B depth rfl (List.forall_mem_cons.1 hP.2).2 (by omega)
    · have hle := hbody.le_of_not_closed hb rfl hP
      omega

/-- A whole action is passed. -/
theorem action {A : List Segment} (hA : ∀ a ∈ A, a.kind.isActionPiece = true)
    (hblock : Action.block cs = ⟨body, true, rest⟩) (h : EndsByCount W rest) :
    EndsByCount (A ++ W) ('\x7b' :: cs) := by
  intro P B depth hV hP hlt
  rw [closed_of_braced hblock]
  obtain ⟨hopened, hclosed⟩ := blocks_of_pieces hA
  rcases List.append_eq_append_iff.1 hV with ⟨as, rfl, hrest⟩ | ⟨as, rfl, -⟩
  · rw [blocksOpened_append, blocksClosed_append, hopened, hclosed] at hlt
    exact h as B depth hrest (List.forall_mem_append.1 hP).2 (by omega)
  · rw [blocksClosed_append] at hclosed
    omega

end EndsByCount

/-- The body of a braced lexeme does not close its own block. -/
theorem not_closed_body {cs body rest : List Char} {closed : Bool}
    (h : Action.block cs = ⟨body, closed, rest⟩) : (Action.block body).closed = false := by
  cases closed with
  | false =>
    have hopen : (Action.block cs).closed = false := congrArg Action.Block.closed h
    have hbody : body = cs :=
      (congrArg Action.Block.body h).symm.trans (Action.of_not_closed hopen).1
    rwa [hbody]
  | true =>
    obtain ⟨-, -, hd⟩ := Action.of_closed h
    have hb := (Action.readAll_pieces body).blockFrom_append hd
    rw [List.append_nil, Action.flatten_pieces] at hb
    rw [Action.block, hb, Action.Block.closed_push, Action.blockFrom_nil]

/-- A lexeme of the flat scan: closing braces are counted, and whatever else is tame is passed. -/
theorem EndsByCount.plain {c : Char} {cs text rest : List Char} {kind : Kind} {V : List Segment}
    (hn : Lexeme.next c cs = (.plain kind text, rest)) (h : EndsByCount V rest) :
    EndsByCount ((Segment.ofPlain kind text).trimmed :: V) (c :: cs) := by
  by_cases hr : kind = .rbrace
  · subst hr
    obtain ⟨rfl, rfl, rfl⟩ := Lexeme.of_rbrace hn
    exact h.cons_rbrace (Segment.kind_trimmed _)
  · have hf := (Lexeme.formed_next hn).flat
    have happ := Lexeme.next_append c cs
    rw [hn, Lexeme.text] at happ
    have hk : ∀ k : Kind, k = .lbrace ∨ k = .rbrace →
        (Segment.ofPlain kind text).trimmed.kind ≠ k := by
      rintro k hk rfl
      rw [Segment.kind_trimmed] at hk
      rcases kind_ofPlain kind text with hkk | ⟨-, hkk⟩
      · rw [hkk] at hk
        exact hk.elim (fun hl ↦ absurd hf (by rw [hl]; decide)) hr
      · rw [hkk] at hk
        exact absurd hk (by decide)
    rw [← happ]
    refine h.cons (hk _ (.inl rfl)) (hk _ (.inr rfl)) fun ht ↦ passes_of_calm hn ?_
    rw [isTame_trimmed] at ht
    exact isCalm_of_isTame_ofPlain hf ht hr

/-- **Tame segments close a block where one counts them to.** -/
theorem endsByCount_visible (before : Option Kind) (cs : List Char) :
    EndsByCount (Segment.visible (Segment.ofChars before cs)) cs := by
  fun_induction Segment.ofChars before cs with
  | case1 => exact .of_closed_eq_zero rfl []
  | case2 before c cs kind text rest hn s =>
    rename_i ih
    rw [Segment.visible_cons, Segment.visible_singleton]
    by_cases hw : (Segment.ofPlain kind text).kind = .whitespace
    · rw [if_pos hw, List.nil_append]
      obtain rfl := (kind_ofPlain_eq_whitespace kind text).1 hw
      have happ := Lexeme.next_append c cs
      rw [hn, Lexeme.text] at happ
      -- whitespace is passed, and is not among the visible segments
      intro P B depth hV hP hlt
      rw [← happ, closed_of_passes (passes_of_calm hn rfl)]
      exact ih P B depth hV hP hlt
    · rw [if_neg hw, List.singleton_append]
      exact ih.plain hn
  | case3 before c cs text rest hn ih =>
    have happ := Lexeme.next_append c cs
    rw [hn, Lexeme.text] at happ
    rw [Segment.visible_cons, Segment.visible_singleton, if_neg (by simp),
      Segment.trimmed_of_main rfl, List.singleton_append, ← happ]
    refine ih.cons (by simp) (by simp) fun ht ↦ passes_unknown ?_ rest
    exact Segment.isCalm_of_isTame ht (by simp) (by simp)
  | case4 before c cs body closed rest hn hb ihb ihr =>
    obtain ⟨rfl, hblock⟩ := Lexeme.of_braced hn
    have hbody := not_closed_body hblock
    rw [Segment.visible_cons, Segment.visible_singleton, if_neg (by simp), Segment.visible_append,
      Segment.visible_append, List.singleton_append, Segment.trimmed_of_main rfl]
    cases closed with
    | false =>
      rw [Segment.rest_of_braced hn, Segment.ofChars]
      show EndsByCount (_ :: (_ ++ [])) _
      rw [List.append_nil]
      -- an open block is the last thing in the text
      exact ihb.openBlock hbody rfl _
    | true => exact ihb.block hblock hbody rfl rfl ihr
  | case5 before c cs body closed rest hn hb ih =>
    obtain ⟨rfl, hblock⟩ := Lexeme.of_braced hn
    have hA : ∀ a ∈ Segment.ofAction body closed, a.kind.isActionPiece = true :=
      fun a ha ↦ Segment.isActionPiece_ofAction ha
    rw [Segment.visible_append, visible_ofAction]
    cases closed with
    | false =>
      rw [Segment.rest_of_braced hn, Segment.ofChars, Segment.visible_nil, List.append_nil]
      -- an open action takes the rest of the text, and its pieces close no block
      exact .of_closed_eq_zero (blocks_of_pieces hA).2 _
    | true => exact ih.action hA hblock

/-! ### Enclosed bodies -/

/-- The segments after an opening brace are tame through the brace by which more blocks are closed
than opened, or through the end of the text. -/
def Encloses (B : List Segment) : Prop :=
  (∀ b ∈ B, b.isTame = true) ∨
    ∃ P B', B = P ++ B' ∧ (∀ p ∈ P, p.isTame = true) ∧ blocksOpened P < blocksClosed P

/-- Every block is tame through its end. -/
def BlocksTame (cs : List Segment) : Prop :=
  ∀ A c B, cs = A ++ c :: B → c.kind = .lbrace → Encloses B

theorem BlocksTame.of_append {cs cs' : List Segment} (h : BlocksTame (cs ++ cs')) :
    BlocksTame cs' := fun A c B hB hc ↦
  h (cs ++ A) c B (by rw [hB, List.append_assoc]) hc

theorem BlocksTame.of_forall {cs : List Segment} (h : ∀ c ∈ cs, c.isTame = true) :
    BlocksTame cs := by
  rintro A c B rfl -
  exact .inl fun b hb ↦ h b (by simp [hb])

/-- **The body of a block is tame** if what comes after the opening brace is so up to where the
block ends by count: the count cannot end the block earlier than the scan did. -/
theorem isTame_body {before : Option Kind} {body : List Char} {W : List Segment}
    (hb : (Action.block body).closed = false)
    (h : Encloses (Segment.visible (Segment.ofChars before body) ++ W)) :
    ∀ c ∈ Segment.visible (Segment.ofChars before body), c.isTame = true := by
  rcases h with hall | ⟨P, B, hV, hP, hlt⟩
  · exact fun c hc ↦ hall c (List.mem_append_left _ hc)
  · rcases List.append_eq_append_iff.1 hV with ⟨as, rfl, -⟩ | ⟨as, hbody, -⟩
    · exact fun c hc ↦ hP c (List.mem_append_left _ hc)
    · have hc := endsByCount_visible before body P as 0 hbody hP (by omega)
      exact absurd (hb.symm.trans hc) (by decide)

end GrammarLayout
