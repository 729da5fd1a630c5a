import GrammarLayout.Proofs.Layout.Keeping

/-!
# The body of a block

The end of an options, tokens or channels block is found by the scanner for actions. In a tame body
that scanner passes every lexeme, every action and every further block, so it also passes the
strokes of the body, with the separators the layout puts between them (`Relaid.passes`): the block
is closed by the same brace again. A body without a closing brace after it runs through the end of
the text, and so do its strokes (`Relaid.not_closed`): nothing among them closes the block.

Both main results are inductions over how strokes relate to a text, so over the lexemes of the
source, and both carry two things along: what is left of the body in the source, which tells where
the scanner stands there, and what is left of the strokes, which tells what follows in the layout. A
step moves both on by one lexeme.

* A plain lexeme is passed in the source because it is calm (`block_of_plain`), and in the layout
  because it is calm and followed by what it needs (`passes_trimmed`).

* A whole action or an inner block is passed with its braces (`block_of_action`, `Thinned.passes`,
  and the induction hypothesis for the inner body).

* One that has no closing brace does not stand in a closed block (`not_block_of_open`), and in a
  block that is open it is the last thing (`not_closed_brace`).

Only an unterminated block comment at the end of an open body needs words of its own: it takes along
the blanks that the layout puts at the end (`not_closed_trimmed`).
-/

namespace GrammarLayout

/-- What a block has left after a text that was passed. The closing brace is still the same one. -/
theorem block_of_append {text rest more : List Char}
    (hp : Action.Passes text (rest ++ '\x7d' :: more))
    (h : Action.block (text ++ rest ++ '\x7d' :: more) = ⟨text ++ rest, true, more⟩) :
    Action.block (rest ++ '\x7d' :: more) = ⟨rest, true, more⟩ := by
  rw [Action.block, List.append_assoc, hp.blockFrom_append] at h
  obtain ⟨hbody, hclosed, hrest⟩ := Action.Block.mk.inj h
  have hb := List.append_cancel_left hbody
  rw [Action.block]
  generalize Action.blockFrom 0 (rest ++ '\x7d' :: more) = b at hb hclosed hrest
  cases b
  simp_all

/-- In the body of a closed block, a calm lexeme is passed, and comments are closed. -/
theorem block_of_plain {c : Char} {cs text rest more : List Char} {kind : Kind}
    (hn : Lexeme.next c cs = (.plain kind text, rest))
    (hk : (⟨kind, text⟩ : Segment).isCalm = true)
    (h : Action.block (c :: cs ++ '\x7d' :: more) = ⟨c :: cs, true, more⟩) :
    Action.block (rest ++ '\x7d' :: more) = ⟨rest, true, more⟩ ∧
      (kind = .blockComment → Lexeme.ClosedComment text) := by
  have happ := Lexeme.next_append c cs
  rw [hn, Lexeme.text] at happ
  by_cases hcom : kind = .lineComment ∨ kind = .blockComment
  · -- the comment is one piece for both scanners
    obtain ⟨l, rfl, rfl, hc, hck⟩ := Lexeme.of_comment hn hcom
    have hcs := comment?_append hc
    rw [← hcs] at hc
    have hp := (Action.Reads.of_comment hc).pieces_append
    obtain ⟨-, hread, -⟩ := Action.of_closed h
    rw [← happ, hp] at hread
    have hr : Action.Reads ('/' :: l) (rest ++ '\x7d' :: more) := by
      simpa [Action.flatten_pieces] using hread.1
    rw [← happ] at h
    refine ⟨block_of_append (.of_reads hr (by simp) (by simp)) h, fun hb ↦ ?_⟩
    obtain ⟨b, hl⟩ := (Lexeme.formed_next hn).block hb
    rw [← hl] at hr ⊢
    exact hr.closed (by simp)
  · rw [not_or] at hcom
    rw [← happ] at h
    exact ⟨block_of_append (Action.passes_plain hn hk (fun hl ↦ absurd hl hcom.1)
      fun hb ↦ absurd hb hcom.2) h, fun hb ↦ absurd hb hcom.2⟩

/-- In the body of a closed block, a whole action is passed. Both scans read the same pieces, since
the action is closed before the block is. -/
theorem block_of_action {cs body rest more : List Char}
    (hb : Action.block cs = ⟨body, true, rest⟩)
    (h : Action.block ('\x7b' :: cs ++ '\x7d' :: more) = ⟨'\x7b' :: cs, true, more⟩) :
    Action.block (rest ++ '\x7d' :: more) = ⟨rest, true, more⟩ := by
  obtain ⟨rfl, hread, hdepth⟩ := Action.of_closed hb
  -- the pieces of the whole text are those of the action and those of the rest
  have hall : Action.ReadAll ([['\x7b']] ++ (Action.pieces body ++ [['\x7d']])) rest := by
    refine .append ⟨Action.reads_singleton (by decide) _, trivial⟩ (.append ?_ ⟨?_, trivial⟩)
    · exact hread
    · exact Action.reads_singleton (by decide) _
  have htext : ([['\x7b']] ++ (Action.pieces body ++ [['\x7d']])).flatten =
      '\x7b' :: (body ++ ['\x7d']) := by
    simp [Action.flatten_pieces]
  have hp := hall.pieces_append
  rw [htext] at hp
  have he : '\x7b' :: (body ++ '\x7d' :: rest) = '\x7b' :: (body ++ ['\x7d']) ++ rest := by simp
  rw [he] at h
  obtain ⟨-, hread', -⟩ := Action.of_closed h
  rw [hp] at hread'
  have hin : Action.ReadAll (Action.pieces body) ('\x7d' :: (rest ++ '\x7d' :: more)) := by
    have hs := (Action.readAll_append.1 (Action.readAll_append.1 hread').1).2
    have ht := (Action.readAll_append.1 hs).1
    simpa [Action.flatten_pieces] using ht
  have hpass := Action.Passes.of_action hin hdepth
  rw [Action.flatten_pieces] at hpass
  exact block_of_append hpass h

/-- A block that is not closed leaves one more brace open around it, so that a closing brace after
it closes that one and not the block outside. -/
theorem depthThrough_brace {cs : List Char} (hb : (Action.block cs).closed = false) :
    ∃ d, Action.depthThrough 0 (Action.pieces ('\x7b' :: cs)) = some (d + 1) := by
  obtain ⟨-, d, hd⟩ := Action.of_not_closed hb
  have hp : Action.pieces ('\x7b' :: cs) = ['\x7b'] :: Action.pieces cs :=
    (Action.reads_singleton (by decide) cs).pieces_append
  have hin : Action.depthThrough 1 (Action.pieces cs) = some (d + 1) := by
    have ha := Action.depthThrough_add 1 hd
    rwa [Nat.zero_add] at ha
  exact ⟨d, by rw [hp, Action.depthThrough,
    show Action.depthAfter 0 ['\x7b'] = some 1 from rfl, Option.bind_some, hin]⟩

/-- What has no closing brace does not stand in a closed block. -/
theorem not_block_of_open {cs more : List Char} (hb : (Action.block cs).closed = false) :
    Action.block ('\x7b' :: cs ++ '\x7d' :: more) ≠ ⟨'\x7b' :: cs, true, more⟩ := by
  intro h
  obtain ⟨-, -, hd⟩ := Action.of_closed h
  obtain ⟨d, hd'⟩ := depthThrough_brace hb
  rw [hd'] at hd
  exact absurd hd (by simp)

/-- What has no closing brace closes no block around it. -/
theorem not_closed_brace {cs : List Char} (hb : (Action.block cs).closed = false) :
    (Action.block ('\x7b' :: cs)).closed = false := by
  obtain ⟨d, hd⟩ := depthThrough_brace hb
  have h := (Action.readAll_pieces ('\x7b' :: cs)).blockFrom_append hd
  rw [Action.flatten_pieces, List.append_nil] at h
  rw [Action.block, h, Action.Block.closed_push, Action.blockFrom_nil]

/-- Spaces mean nothing to the scanner for actions. -/
theorem passes_spaces {gap : List Char} (hg : ∀ c ∈ gap, Lexeme.isSpace c = true)
    (rest : List Char) : Action.Passes gap rest :=
  .of_forall (fun c hc ↦ Action.quiet_of_isSpace (hg c hc)) rest

/-- A calm lexeme is passed without the blanks at its end, too. Trimming gives a lexeme again, of
the same kind and as calm. -/
theorem passes_trimmed {c : Char} {cs text rest : List Char} {kind : Kind}
    (hn : Lexeme.next c cs = (.plain kind text, rest)) (hk : kind ≠ .whitespace)
    (hcalm : (⟨kind, text⟩ : Segment).isCalm = true)
    (hb : kind = .blockComment → Lexeme.ClosedComment text) {rest' : List Char}
    (hl : kind = .lineComment → ∀ d ∈ rest'.head?, endsLine d = true) :
    Action.Passes (Segment.ofPlain kind text).trimmed.text rest' := by
  obtain ⟨t, ht, hn'⟩ :=
    next_trimmed hn hk (show Lexeme.Apart _ [] from .inr (by simp)) (by simp) hb
  have hcalm' : (⟨kind, c :: t⟩ : Segment).isCalm = true := by
    rw [← isCalm_ofPlain, ← ht, isCalm_trimmed, isCalm_ofPlain, hcalm]
  rw [ht, Segment.text_ofPlain]
  refine Action.passes_plain hn' hcalm' hl ?_
  rintro rfl
  have htext := congrArg Segment.text ht
  rw [trimmed_ofPlain hk (by decide) hb, Segment.text_ofPlain, Segment.text_ofPlain] at htext
  rw [← htext]
  exact hb rfl

/-- The strokes of a whole action are passed with their braces. -/
theorem Thinned.passes {body rest : List Char} {qs : List Stroke} {width : Nat} {gap : List Char}
    (hq : Thinned (Action.pieces body) qs)
    (hd : Action.depthThrough 0 (Action.pieces body) = some 0)
    (hg : ∀ c ∈ gap, Lexeme.isSpace c = true) (hK : KeepsAll width qs (gap ++ '\x7d' :: rest)) :
    Action.Passes ('\x7b' :: (inked width qs ++ gap ++ ['\x7d'])) rest := by
  have hpass := Action.Passes.of_action (hq.readAll hg hK) ((hq.depthThrough hg).trans hd)
  rwa [List.flatten_append, flatten_spacedPieces, flatten_gapPieces] at hpass

/-- The strokes of an action without its closing brace close nothing. -/
theorem Thinned.not_closed {body rest : List Char} {qs : List Stroke} {width : Nat}
    (hq : Thinned (Action.pieces body) qs) (hb : (Action.block body).closed = false)
    (hs : ∀ c ∈ rest, Lexeme.isSpace c = true) (hK : KeepsAll width qs rest) :
    (Action.block (inked width qs ++ rest)).closed = false := by
  obtain ⟨-, d, hd⟩ := Action.of_not_closed hb
  have hread := hq.readAll hs ((List.append_nil rest).symm ▸ hK)
  have h := hread.blockFrom_append ((hq.depthThrough hs).trans hd)
  rw [List.flatten_append, flatten_spacedPieces, flatten_gapPieces, List.append_nil] at h
  rw [Action.block, h, Action.Block.closed_push, Action.blockFrom_nil]

/-- A closing brace by itself does not stand in the body of its block. -/
theorem ne_rbrace_of_block {c : Char} {cs text rest more : List Char} {kind : Kind}
    (hn : Lexeme.next c cs = (.plain kind text, rest))
    (h : Action.block (c :: cs ++ '\x7d' :: more) = ⟨c :: cs, true, more⟩) : kind ≠ .rbrace := by
  rintro rfl
  obtain ⟨rfl, -, -⟩ := Lexeme.of_rbrace hn
  rw [Action.block, List.cons_append, Action.blockFrom_closing] at h
  exact absurd (congrArg Action.Block.body h) (by simp)

/-- **The strokes of a tame body are passed** by the scanner for actions, as its text was. -/
theorem Relaid.passes {before : Option Kind} {cs : List Char} {ss : List Stroke}
    (h : Relaid before cs ss) (ht : ∀ s ∈ ss, s.segment.isTame = true) {more : List Char}
    (hb : Action.block (cs ++ '\x7d' :: more) = ⟨cs, true, more⟩) {r : Rules} {width : Nat}
    {gap rest : List Char} (hg : ∀ c ∈ gap, Lexeme.isSpace c = true)
    (hS : Settled r width ss (gap ++ '\x7d' :: rest)) :
    Action.Passes (inked width ss ++ gap) ('\x7d' :: rest) := by
  have hgap := fun g : Separator ↦ passes_spaces (isSpace_separator width g)
  induction h generalizing more gap rest with
  | nil => exact passes_spaces hg _
  | space hn h ih => exact ih ht (block_of_plain hn rfl hb).1 hg hS
  | @plain before c cs text rest' kind ss gap' hn hk h ih =>
    rw [List.forall_mem_cons, isTame_trimmed] at ht
    have hcalm := isCalm_of_isTame_ofPlain (Lexeme.formed_next hn).flat ht.1
      (ne_rbrace_of_block hn hb)
    obtain ⟨hb', hclosed⟩ := block_of_plain hn hcalm hb
    have hpass := passes_trimmed hn hk hcalm hclosed fun hl ↦
      hS.endsLine_head (by rw [Segment.kind_trimmed, hl]; rfl)
    rw [inked_cons, List.append_assoc, List.append_assoc]
    refine (hgap gap' _).append (.append ?_ (ih ht.2 hb' hg hS.tail))
    rwa [List.append_assoc]
  | @unknown before c cs text rest' ss gap' hn h ih =>
    rw [List.forall_mem_cons] at ht
    have hcalm := Segment.isCalm_of_isTame ht.1 (by simp) (by simp)
    have happ := Lexeme.next_append c cs
    rw [hn, Lexeme.text] at happ
    rw [← happ] at hb
    have htail := ih ht.2 (block_of_append (passes_unknown hcalm _) hb) hg hS.tail
    rw [inked_cons, List.append_assoc, List.append_assoc]
    exact (hgap gap' _).append ((passes_unknown hcalm _).append htail)
  | @block before c cs body rest' ss ss' gap' gap'' hn hb' hbt hbody h ihb ihr =>
    obtain ⟨rfl, hblock⟩ := Lexeme.of_braced hn
    obtain ⟨hcs, -, -⟩ := Action.of_closed hblock
    rw [List.forall_mem_cons, List.forall_mem_append, List.forall_mem_cons] at ht
    have htail := ihr ht.2.2.2 (block_of_action hblock hb) hg hS.tail.after
    -- the inner block is closed by its own brace, in the source and in the layout
    have hin : Action.Passes ('\x7b' :: (inked width ss ++ gap''.text width ++ ['\x7d']))
        (inked width ss' ++ gap ++ '\x7d' :: rest) := by
      have hp := (ihb hbt (hcs ▸ hblock) (isSpace_separator width gap'') hS.tail.upTo).braced
      simpa using hp
    simpa using (hgap gap' _).append (hin.append htail)
  | openBlock gap' hn hb' hbt hbody ihb =>
    obtain ⟨rfl, hblock⟩ := Lexeme.of_braced hn
    exact absurd hb (not_block_of_open (congrArg Action.Block.closed hblock))
  | @action before c cs body rest' qs ss gap' gap'' hn hb' hq h ih =>
    obtain ⟨rfl, hblock⟩ := Lexeme.of_braced hn
    rw [List.forall_mem_cons, List.forall_mem_append, List.forall_mem_cons] at ht
    have htail := ih ht.2.2.2 (block_of_action hblock hb) hg hS.tail.after
    have hact : Action.Passes ('\x7b' :: (inked width qs ++ gap''.text width ++ ['\x7d']))
        (inked width ss ++ gap ++ '\x7d' :: rest) := by
      refine hq.passes (Action.of_closed hblock).2.2 (isSpace_separator width gap'') ?_
      have hK := hS.tail.upTo.keeps
      simpa using hK
    simpa using (hgap gap' _).append (hact.append htail)
  | openAction gap' hn hb' hq =>
    obtain ⟨rfl, hblock⟩ := Lexeme.of_braced hn
    exact absurd hb (not_block_of_open (congrArg Action.Block.closed hblock))

/-! ### Bodies that run through the end of the text -/

/-- What follows a lexeme that was passed leaves a block as open as the lexeme and it did. In the
source this moves the induction on. -/
theorem not_closed_rest {c : Char} {cs rest : List Char} {l : Lexeme}
    (hn : Lexeme.next c cs = (l, rest)) (hp : Action.Passes l.text rest)
    (hb : (Action.block (c :: cs)).closed = false) : (Action.block rest).closed = false := by
  have happ := Lexeme.next_append c cs
  rw [hn] at happ
  rw [← happ] at hb
  exact (closed_of_passes hp 0).symm.trans hb

/-- A text that is passed after a separator leaves a block open if what follows does. In the layout
this is how the result is put together again. -/
theorem not_closed_append (width : Nat) (gap : Separator) {text rest : List Char}
    (hp : Action.Passes text rest) (hb : (Action.block rest).closed = false) :
    (Action.block (gap.text width ++ (text ++ rest))).closed = false :=
  (closed_of_passes (passes_spaces (isSpace_separator width gap) _) 0).trans
    ((closed_of_passes hp 0).trans hb)

/-- A lexeme without the blanks at its end leaves a block open as it did. -/
theorem not_closed_trimmed {c : Char} {cs text rest rest' : List Char} {kind : Kind}
    {before : Option Kind} {gap : Separator} {ss : List Stroke} {r : Rules} {width : Nat}
    (hn : Lexeme.next c cs = (.plain kind text, rest')) (hk : kind ≠ .whitespace)
    (hcalm : (⟨kind, text⟩ : Segment).isCalm = true) (h : Relaid before rest' ss)
    (hs : ∀ c ∈ rest, Lexeme.isSpace c = true)
    (hS : Settled r width (⟨gap, (Segment.ofPlain kind text).trimmed⟩ :: ss) rest)
    (hb : (Action.block (inked width ss ++ rest)).closed = false) :
    (Action.block (gap.text width ++
      ((Segment.ofPlain kind text).trimmed.text ++ (inked width ss ++ rest)))).closed = false := by
  by_cases hcl : kind = .blockComment → Lexeme.ClosedComment text
  · refine not_closed_append width gap (passes_trimmed hn hk hcalm hcl fun hl ↦ ?_) hb
    exact hS.endsLine_head (by rw [Segment.kind_trimmed, hl]; rfl)
  · rw [Classical.not_imp] at hcl
    obtain ⟨rfl, hopen⟩ := hcl
    -- the comment is the last thing in the text, and takes the blanks after it along
    have hdoc := hS.keeps.1.isDocComment_eq_false hopen
    obtain rfl : rest' = [] := ((follows_next hn).2 rfl).resolve_left hopen
    obtain rfl := h.nil_inv
    obtain ⟨t, ht, hn', -⟩ := next_unclosed hn hopen hdoc hs
    have htext : (Segment.ofPlain .blockComment text).trimmed.text = trimEnd text := by
      rw [Segment.ofPlain, if_neg (by simp [hdoc])]
      rfl
    have hp := passes_of_calm hn' rfl
    have hnil : (Action.block []).closed = false := by rw [Action.block, Action.blockFrom_nil]
    have hall := not_closed_append width gap hp hnil
    rw [List.append_nil] at hall
    rwa [inked_nil, List.nil_append, htext]

/-- **The strokes of a tame body close nothing** if its text does not. -/
theorem Relaid.not_closed {before : Option Kind} {cs : List Char} {ss : List Stroke}
    (h : Relaid before cs ss) (ht : ∀ s ∈ ss, s.segment.isTame = true)
    (hb : (Action.block cs).closed = false) {r : Rules} {width : Nat} {rest : List Char}
    (hs : ∀ c ∈ rest, Lexeme.isSpace c = true) (hS : Settled r width ss rest) :
    (Action.block (inked width ss ++ rest)).closed = false := by
  induction h with
  | nil =>
    have hp := closed_of_passes (passes_spaces hs []) 0
    rw [List.append_nil] at hp
    exact hp.trans (by rw [Action.blockFrom_nil])
  | space hn h ih => exact ih ht (not_closed_rest hn (passes_of_calm hn rfl) hb) hS
  | @plain before c cs text rest' kind ss gap hn hk h ih =>
    rw [List.forall_mem_cons, isTame_trimmed] at ht
    have hr : kind ≠ .rbrace := by
      rintro rfl
      obtain ⟨rfl, -, -⟩ := Lexeme.of_rbrace hn
      rw [Action.block, Action.blockFrom_closing] at hb
      exact Bool.noConfusion hb
    have hcalm := isCalm_of_isTame_ofPlain (Lexeme.formed_next hn).flat ht.1 hr
    have htail := ih ht.2 (not_closed_rest hn (passes_of_calm hn hcalm) hb) hS.tail
    rw [inked_cons, List.append_assoc, List.append_assoc]
    exact not_closed_trimmed hn hk hcalm h hs hS htail
  | @unknown before c cs text rest' ss gap hn h ih =>
    rw [List.forall_mem_cons] at ht
    have hp := passes_unknown (Segment.isCalm_of_isTame ht.1 (by simp) (by simp))
    rw [inked_cons, List.append_assoc, List.append_assoc]
    exact not_closed_append width gap (hp _) (ih ht.2 (not_closed_rest hn (hp _) hb) hS.tail)
  | @block before c cs body rest' ss ss' gap gap' hn hb' hbt hbody h ihb ihr =>
    obtain ⟨rfl, hblock⟩ := Lexeme.of_braced hn
    obtain ⟨hcs, -, -⟩ := Action.of_closed hblock
    rw [List.forall_mem_cons, List.forall_mem_append, List.forall_mem_cons] at ht
    have htail := ihr ht.2.2.2 ((closed_of_braced hblock 0).symm.trans hb) hS.tail.after
    have hin := (hbody.passes hbt (hcs ▸ hblock) (isSpace_separator width gap') hS.tail.upTo).braced
    have hall := not_closed_append width gap hin htail
    simpa using hall
  | @openBlock before c cs body rest' ss gap hn hb' hbt hbody ihb =>
    obtain ⟨rfl, hblock⟩ := Lexeme.of_braced hn
    have hin := not_closed_brace (ihb hbt (not_closed_body hblock) hS.tail)
    have hall := not_closed_append width gap (.nil _) hin
    simpa using hall
  | @action before c cs body rest' qs ss gap gap' hn hb' hq h ih =>
    obtain ⟨rfl, hblock⟩ := Lexeme.of_braced hn
    rw [List.forall_mem_cons, List.forall_mem_append, List.forall_mem_cons] at ht
    have htail := ih ht.2.2.2 ((closed_of_braced hblock 0).symm.trans hb) hS.tail.after
    have hact := hq.passes (Action.of_closed hblock).2.2 (isSpace_separator width gap')
      hS.tail.upTo.keeps
    have hall := not_closed_append width gap hact htail
    simpa using hall
  | @openAction before c cs body rest' qs gap hn hb' hq =>
    obtain ⟨rfl, hblock⟩ := Lexeme.of_braced hn
    have hin := not_closed_brace (hq.not_closed (not_closed_body hblock) hs hS.keeps.2)
    have hall := not_closed_append width gap (.nil _) hin
    simpa using hall

end GrammarLayout
