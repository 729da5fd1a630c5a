import GrammarLayout.Proofs.Layout.Enclosing

/-!
# A text and its strokes, side by side

A layout is read by the same scan as its source, so the two have to be compared lexeme by lexeme.
`Relaid` is that comparison: one case for each thing the scan can find in a text, with the strokes
it is laid out as. Everything shown later about reading a layout again is an induction over it.

Options, tokens and channels blocks are the delicate case, since their end is found by the scanner
for actions. They are compared only where their bodies are tame (`BlocksTame`). A body may hold
further blocks, and a block without its closing brace is the last thing in its text, as an action
without one is.

The cases follow the scan, not the strokes. A lexeme is a stroke or a blank; a block and an action
are several, from one brace to the other, since the scan takes them at once and their bodies are
scanned anew: the body of a block as lexemes, that of an action as pieces. That is also why a stroke
in an action is not compared by itself: some blanks of the action are dropped, and what is known of
the pieces that are left is that they are among those of the body and leave the same braces open
(`Thinned`).

The other half of the module shows that layouts are of this form (`relaid_of_laid`). A list of
strokes is split where the segments are split: at the braces of a block (`Laid.block_inv`), and
around the pieces of an action (`Laid.action_inv`), whose number is only known from the list.
-/

namespace GrammarLayout

namespace Laid

variable {lone : Segment → Prop} {cs : List Segment} {c : Segment} {ss : List Stroke}

theorem mono {lone' : Segment → Prop} (hl : ∀ c, lone c → lone' c) (h : Laid lone cs ss) :
    Laid lone' cs ss := by
  induction h with
  | nil => exact .nil
  | eof hk _ ih => exact .eof hk ih
  | stroke gap hc _ ih => exact .stroke gap (hl _ hc) ih
  | action gap depth hb hp he _ ih => exact .action gap depth hb hp he ih

theorem nil_inv (h : Laid lone [] ss) : ss = [] := by
  generalize hcs : ([] : List Segment) = l at h
  cases h <;> first | rfl | exact absurd hcs (by simp)

/-- What is neither the end marker nor the start of an action is a stroke by itself. -/
theorem cons_inv (h : Laid lone (c :: cs) ss) (he : c.kind ≠ .eof) (hb : c.kind ≠ .beginAction) :
    ∃ gap ss', ss = ⟨gap, c⟩ :: ss' ∧ Laid lone cs ss' := by
  generalize hcs : c :: cs = l at h
  cases h with
  | nil => exact absurd hcs (by simp)
  | eof hk h =>
    obtain ⟨rfl, rfl⟩ := List.cons.inj hcs
    exact absurd hk he
  | stroke gap hc h =>
    obtain ⟨rfl, rfl⟩ := List.cons.inj hcs
    exact ⟨gap, _, rfl, h⟩
  | action gap depth hb' hp hk h =>
    obtain ⟨rfl, -⟩ := List.cons.inj hcs
    rw [hb'] at hb
    exact absurd rfl hb

/-- A layout may be split before anything that does not stand inside an action. -/
theorem append_inv {A B : List Segment} (h : Laid lone (A ++ c :: B) ss)
    (hc : c.kind ≠ .actionContent) (he : c.kind ≠ .endAction) :
    ∃ ss₁ ss₂, ss = ss₁ ++ ss₂ ∧ Laid lone A ss₁ ∧ Laid lone (c :: B) ss₂ := by
  generalize hcs : A ++ c :: B = l at h
  induction h generalizing A with
  | nil => exact absurd hcs (by simp)
  | @eof a cs ss hk h ih =>
    cases A with
    | nil =>
      rw [List.nil_append] at hcs
      rw [hcs]
      exact ⟨[], ss, rfl, .nil, .eof hk h⟩
    | cons a' A =>
      obtain ⟨rfl, htail⟩ := List.cons.inj hcs
      obtain ⟨ss₁, ss₂, rfl, h₁, h₂⟩ := ih htail
      exact ⟨ss₁, ss₂, rfl, .eof hk h₁, h₂⟩
  | @stroke a cs ss gap ha h ih =>
    cases A with
    | nil =>
      rw [List.nil_append] at hcs
      rw [hcs]
      exact ⟨[], _, rfl, .nil, .stroke gap ha h⟩
    | cons a' A =>
      obtain ⟨rfl, htail⟩ := List.cons.inj hcs
      obtain ⟨ss₁, ss₂, rfl, h₁, h₂⟩ := ih htail
      exact ⟨_ :: ss₁, ss₂, rfl, .stroke gap ha h₁, h₂⟩
  | @action b e ps cs ss gap depth hb hp hk h ih =>
    cases A with
    | nil =>
      rw [List.nil_append] at hcs
      rw [hcs]
      exact ⟨[], _, rfl, .nil, .action gap depth hb hp hk h⟩
    | cons a' A =>
      rw [List.cons_append, List.cons_append, List.append_assoc, List.singleton_append] at hcs
      obtain ⟨rfl, htail⟩ := List.cons.inj hcs
      -- the action is not split, because `c` is neither a piece of it nor its end
      rcases List.append_eq_append_iff.1 htail with ⟨as, hps, hcB⟩ | ⟨as, hA, hcB⟩
      · cases as with
        | nil =>
          obtain ⟨rfl, -⟩ := List.cons.inj hcB
          exact absurd (congrArg Segment.kind hk) he
        | cons x as =>
          obtain ⟨rfl, -⟩ := List.cons.inj hcB
          exact absurd (hp c (by rw [hps]; simp)) hc
      · cases as with
        | nil =>
          obtain ⟨rfl, -⟩ := List.cons.inj hcB
          exact absurd (congrArg Segment.kind hk) he
        | cons x as =>
          obtain ⟨rfl, hrest⟩ := List.cons.inj hcB
          obtain ⟨ss₁, ss₂, rfl, h₁, h₂⟩ := ih hrest.symm
          refine ⟨_ ++ ss₁, ss₂, (List.append_assoc ..).symm, ?_, h₂⟩
          have ha := Laid.action gap depth hb hp hk h₁
          rw [hA]
          simpa using ha

/-- Only what came is laid out, so that a condition on segments is one on strokes. -/
theorem mem_of_mem (h : Laid lone cs ss) {s : Stroke} (hs : s ∈ ss) : s.segment ∈ cs := by
  have hpiece : ∀ (depth : Nat) (gap : Separator) (ps : List Segment),
      ∀ s ∈ (pieceStrokes depth gap ps).1, s.segment ∈ ps := by
    intro depth gap ps
    induction ps generalizing gap with
    | nil => simp [pieceStrokes]
    | cons p ps ih =>
      intro s hs
      rw [pieceStrokes] at hs
      split at hs
      · exact List.mem_cons_of_mem _ (ih gap s hs)
      · rcases List.mem_cons.1 hs with rfl | hs
        · exact List.mem_cons_self
        · exact List.mem_cons_of_mem _ (ih _ s hs)
  induction h with
  | nil => exact absurd hs (by simp)
  | eof _ _ ih => exact List.mem_cons_of_mem _ (ih hs)
  | stroke _ _ _ ih =>
    rcases List.mem_cons.1 hs with rfl | hs
    · exact List.mem_cons_self
    · exact List.mem_cons_of_mem _ (ih hs)
  | action gap depth _ _ _ _ ih =>
    rcases List.mem_append.1 hs with hs | hs
    · refine List.mem_append_left _ ?_
      rcases List.mem_cons.1 hs with rfl | hs
      · exact List.mem_cons_self
      · refine List.mem_cons_of_mem _ ?_
        rcases List.mem_append.1 hs with hs | hs
        · exact List.mem_append_left _ (hpiece _ _ _ s hs)
        · rw [List.mem_singleton.1 hs]
          exact List.mem_append_right _ List.mem_cons_self
    · exact List.mem_append_right _ (ih hs)

/-- The strokes of the pieces of an action, by themselves. -/
theorem contents_inv {ps V : List Segment} (hp : ∀ p ∈ ps, p.kind = .actionContent)
    (h : Laid lone (ps ++ V) ss) :
    ∃ qs ss', ss = qs ++ ss' ∧ qs.map Stroke.segment = ps ∧ Laid lone V ss' := by
  induction ps generalizing ss with
  | nil => exact ⟨[], ss, rfl, rfl, h⟩
  | cons p ps ih =>
    rw [List.forall_mem_cons] at hp
    obtain ⟨gap, ss', rfl, h'⟩ := cons_inv h (by simp [hp.1]) (by simp [hp.1])
    obtain ⟨qs, ss'', rfl, hm, h''⟩ := ih hp.2 h'
    exact ⟨⟨gap, p⟩ :: qs, ss'', rfl, by rw [List.map_cons, hm], h''⟩

end Laid

/-! ### Strokes of actions -/

/-- Strokes of the pieces of an action: some blanks may be missing, which leaves the braces as they
were. -/
structure Thinned (texts : List (List Char)) (qs : List Stroke) : Prop where
  /-- They are pieces of an action. -/
  kind : ∀ q ∈ qs, q.segment.kind = .actionContent
  /-- They are pieces of this action. -/
  mem : ∀ q ∈ qs, q.segment.text ∈ texts
  /-- They leave the same braces open. -/
  depth : ∀ depth, Action.depthThrough depth (qs.map (·.segment.text)) =
    Action.depthThrough depth texts

/-- The strokes of all pieces. -/
theorem thinned_map {ps : List Segment} {qs : List Stroke} (hm : qs.map Stroke.segment = ps)
    (hp : ∀ p ∈ ps, p.kind = .actionContent) : Thinned (ps.map Segment.text) qs := by
  subst hm
  refine ⟨fun q hq ↦ hp _ (List.mem_map_of_mem hq), fun q hq ↦ ?_, fun depth ↦ ?_⟩
  · exact List.mem_map_of_mem (List.mem_map_of_mem hq)
  · rw [List.map_map]
    rfl

/-- A blank is no brace, so it may be dropped. -/
theorem depthAfter_of_allBlank {text : List Char} (h : allBlank text = true) (depth : Nat) :
    Action.depthAfter depth text = some depth := by
  have ho : text ≠ ['\x7b'] := by rintro rfl; exact absurd h (by decide)
  have hc : text ≠ ['\x7d'] := by rintro rfl; exact absurd h (by decide)
  simp [Action.depthAfter, ho, hc]

/-- The strokes of an action as the formatter writes them. -/
theorem thinned_pieceStrokes (depth : Nat) (gap : Separator) {ps : List Segment}
    (hp : ∀ p ∈ ps, p.kind = .actionContent) :
    Thinned (ps.map Segment.text) (pieceStrokes depth gap ps).1 := by
  induction ps generalizing gap with
  | nil => exact ⟨by simp [pieceStrokes], by simp [pieceStrokes], fun _ ↦ rfl⟩
  | cons p ps ih =>
    rw [List.forall_mem_cons] at hp
    rw [pieceStrokes]
    split
    · rename_i hd
      rw [Bool.and_eq_true_iff] at hd
      have hi := ih gap hp.2
      refine ⟨hi.kind, fun q hq ↦ List.mem_cons_of_mem _ (hi.mem q hq), fun d ↦ ?_⟩
      rw [hi.depth, List.map_cons, Action.depthThrough, depthAfter_of_allBlank hd.2]
      rfl
    · have hi := ih (if breaksAfter p.text then .lines 0 depth else .nothing) hp.2
      refine ⟨List.forall_mem_cons.2 ⟨hp.1, hi.kind⟩, List.forall_mem_cons.2
        ⟨List.mem_cons_self, fun q hq ↦ List.mem_cons_of_mem _ (hi.mem q hq)⟩, fun d ↦ ?_⟩
      rw [List.map_cons, List.map_cons, Action.depthThrough, Action.depthThrough]
      simp only [hi.depth]

/-- Pieces of an action end where something else comes, so a list can be split behind them in one
way only. -/
theorem contents_unique {ps ps' V V' : List Segment} (hp : ∀ p ∈ ps, p.kind = .actionContent)
    (hp' : ∀ p ∈ ps', p.kind = .actionContent) (hV : ∀ v ∈ V.head?, v.kind ≠ .actionContent)
    (hV' : ∀ v ∈ V'.head?, v.kind ≠ .actionContent) (h : ps ++ V = ps' ++ V') :
    ps = ps' ∧ V = V' := by
  induction ps generalizing ps' with
  | nil =>
    cases ps' with
    | nil => exact ⟨rfl, h⟩
    | cons p ps' =>
      rw [List.nil_append] at h
      rw [h] at hV
      exact absurd (hp' p List.mem_cons_self) (hV p rfl)
  | cons p ps ih =>
    rw [List.forall_mem_cons] at hp
    cases ps' with
    | nil =>
      rw [List.nil_append] at h
      rw [← h] at hV'
      exact absurd hp.1 (hV' p rfl)
    | cons p' ps' =>
      rw [List.forall_mem_cons] at hp'
      obtain ⟨rfl, htail⟩ := List.cons.inj h
      obtain ⟨rfl, rfl⟩ := ih hp.2 hp'.2 htail
      exact ⟨rfl, rfl⟩

/-- **The strokes of an action**: its start, its pieces, and the strokes of what follows them. -/
theorem Laid.action_inv {b : Segment} {ps V : List Segment} {ss : List Stroke}
    (h : Laid (·.kind ≠ .eof) (b :: (ps ++ V)) ss) (hb : b.kind = .beginAction)
    (hp : ∀ p ∈ ps, p.kind = .actionContent) (hV : ∀ v ∈ V.head?, v.kind ≠ .actionContent) :
    ∃ gap qs ss', ss = ⟨gap, b⟩ :: (qs ++ ss') ∧ Thinned (ps.map Segment.text) qs ∧
      Laid (·.kind ≠ .eof) V ss' := by
  generalize hcs : b :: (ps ++ V) = l at h
  cases h with
  | nil => exact absurd hcs (by simp)
  | eof hk h =>
    obtain ⟨rfl, -⟩ := List.cons.inj hcs
    exact absurd (hb.symm.trans hk) (by decide)
  | stroke gap hc h =>
    obtain ⟨rfl, rfl⟩ := List.cons.inj hcs
    obtain ⟨qs, ss', rfl, hm, h'⟩ := contents_inv hp h
    exact ⟨gap, qs, ss', rfl, thinned_map hm hp, h'⟩
  | @action b' e ps' cs ss gap depth hb' hp' he h =>
    rw [List.cons_append, List.append_assoc, List.singleton_append] at hcs
    obtain ⟨rfl, htail⟩ := List.cons.inj hcs
    -- both are the pieces up to the first segment that is none
    obtain ⟨rfl, rfl⟩ := contents_unique hp hp' hV (by simp [he]) htail
    refine ⟨gap, (pieceStrokes depth .nothing ps).1, ⟨(pieceStrokes depth .nothing ps).2, e⟩ :: ss,
      by simp, thinned_pieceStrokes depth .nothing hp, .stroke _ ?_ h⟩
    rw [he]
    decide

/-- The strokes of an action with this body, as far as it is closed. -/
theorem Laid.ofAction_inv {body : List Char} {closed : Bool} {V : List Segment} {ss : List Stroke}
    (h : Laid (·.kind ≠ .eof) (Segment.ofAction body closed ++ V) ss)
    (hV : ∀ v ∈ (Segment.closing .endAction closed ++ V).head?, v.kind ≠ .actionContent) :
    ∃ gap qs ss', ss = ⟨gap, ⟨.beginAction, ['\x7b']⟩⟩ :: (qs ++ ss') ∧
      Thinned (Action.pieces body) qs ∧
      Laid (·.kind ≠ .eof) (Segment.closing .endAction closed ++ V) ss' := by
  rw [Segment.ofAction, List.cons_append, List.append_assoc] at h
  obtain ⟨gap, qs, ss', rfl, hq, h'⟩ := h.action_inv rfl (by simp) hV
  rw [List.map_map, show Segment.text ∘ (fun p ↦ (⟨.actionContent, p⟩ : Segment)) = id from rfl,
    List.map_id] at hq
  exact ⟨gap, qs, ss', rfl, hq, h'⟩

/-- The strokes of a closed block: its braces, and the strokes of its body between them. -/
theorem Laid.block_inv {lone : Segment → Prop} {V W : List Segment} {ss : List Stroke}
    (h : Laid lone (⟨.lbrace, ['\x7b']⟩ :: (V ++ ⟨.rbrace, ['\x7d']⟩ :: W)) ss) :
    ∃ gap gap' ss₁ ss₂,
      ss = ⟨gap, ⟨.lbrace, ['\x7b']⟩⟩ :: (ss₁ ++ ⟨gap', ⟨.rbrace, ['\x7d']⟩⟩ :: ss₂) ∧
      Laid lone V ss₁ ∧ Laid lone W ss₂ := by
  obtain ⟨gap, ss', rfl, h'⟩ := h.cons_inv (by simp) (by simp)
  obtain ⟨ss₁, ss₂, rfl, h₁, h₂⟩ := append_inv h' (by simp) (by simp)
  obtain ⟨gap', ss₃, rfl, h₃⟩ := h₂.cons_inv (by simp) (by simp)
  exact ⟨gap, gap', ss₁, ss₃, rfl, h₁, h₃⟩

/-! ### The comparison -/

/-- A text and the strokes it is laid out as, `before` being the kind of the nearest main segment
before the text. -/
inductive Relaid : Option Kind → List Char → List Stroke → Prop
  /-- Nothing. -/
  | nil {before : Option Kind} : Relaid before [] []
  /-- Whitespace is not laid out. -/
  | space {before : Option Kind} {c : Char} {cs text rest : List Char} {ss : List Stroke}
      (hn : Lexeme.next c cs = (.plain .whitespace text, rest)) (h : Relaid before rest ss) :
      Relaid before (c :: cs) ss
  /-- A lexeme whose kind the scan knows. -/
  | plain {before : Option Kind} {c : Char} {cs text rest : List Char} {kind : Kind}
      {ss : List Stroke} (gap : Separator) (hn : Lexeme.next c cs = (.plain kind text, rest))
      (hk : kind ≠ .whitespace)
      (h : Relaid (Segment.nearest before (Segment.ofPlain kind text)) rest ss) :
      Relaid before (c :: cs) (⟨gap, (Segment.ofPlain kind text).trimmed⟩ :: ss)
  /-- Characters that start no lexeme. -/
  | unknown {before : Option Kind} {c : Char} {cs text rest : List Char} {ss : List Stroke}
      (gap : Separator) (hn : Lexeme.next c cs = (.unknown text, rest))
      (h : Relaid (some .unknown) rest ss) :
      Relaid before (c :: cs) (⟨gap, ⟨.unknown, text⟩⟩ :: ss)
  /-- A block, between its braces. -/
  | block {before : Option Kind} {c : Char} {cs body rest : List Char} {ss ss' : List Stroke}
      (gap gap' : Separator) (hn : Lexeme.next c cs = (.braced body true, rest))
      (hb : before.any Kind.introducesBlock = true)
      (ht : ∀ s ∈ ss, s.segment.isTame = true) (hbody : Relaid (some .lbrace) body ss)
      (h : Relaid (some .rbrace) rest ss') :
      Relaid before (c :: cs)
        (⟨gap, ⟨.lbrace, ['\x7b']⟩⟩ :: (ss ++ ⟨gap', ⟨.rbrace, ['\x7d']⟩⟩ :: ss'))
  /-- A block without its closing brace. -/
  | openBlock {before : Option Kind} {c : Char} {cs body rest : List Char} {ss : List Stroke}
      (gap : Separator) (hn : Lexeme.next c cs = (.braced body false, rest))
      (hb : before.any Kind.introducesBlock = true)
      (ht : ∀ s ∈ ss, s.segment.isTame = true) (hbody : Relaid (some .lbrace) body ss) :
      Relaid before (c :: cs) (⟨gap, ⟨.lbrace, ['\x7b']⟩⟩ :: ss)
  /-- An action. -/
  | action {before : Option Kind} {c : Char} {cs body rest : List Char} {qs ss : List Stroke}
      (gap gap' : Separator) (hn : Lexeme.next c cs = (.braced body true, rest))
      (hb : before.any Kind.introducesBlock = false) (hq : Thinned (Action.pieces body) qs)
      (h : Relaid (some .endAction) rest ss) :
      Relaid before (c :: cs)
        (⟨gap, ⟨.beginAction, ['\x7b']⟩⟩ :: (qs ++ ⟨gap', ⟨.endAction, ['\x7d']⟩⟩ :: ss))
  /-- An action without its closing brace. -/
  | openAction {before : Option Kind} {c : Char} {cs body rest : List Char} {qs : List Stroke}
      (gap : Separator) (hn : Lexeme.next c cs = (.braced body false, rest))
      (hb : before.any Kind.introducesBlock = false) (hq : Thinned (Action.pieces body) qs) :
      Relaid before (c :: cs) (⟨gap, ⟨.beginAction, ['\x7b']⟩⟩ :: qs)

theorem Relaid.nil_inv {before : Option Kind} {ss : List Stroke} (h : Relaid before [] ss) :
    ss = [] := by
  generalize hcs : ([] : List Char) = l at h
  cases h <;> first | rfl | exact absurd hcs (by simp)

/-- **What is laid out of a text is the text, side by side with its strokes.** The induction is the
recursion of the scan: over the rest of the text, and over the bodies of blocks. Of blocks it is
used that they are tame, as the comparison holds that fact. -/
theorem relaid_of_laid {before : Option Kind} {cs : List Char} {ss : List Stroke}
    (h : Laid (·.kind ≠ .eof) (Segment.visible (Segment.ofChars before cs)) ss)
    (hB : BlocksTame (Segment.visible (Segment.ofChars before cs))) : Relaid before cs ss := by
  fun_induction Segment.ofChars before cs generalizing ss with
  | case1 =>
    obtain rfl := h.nil_inv
    exact .nil
  | case2 before c cs kind text rest hn s =>
    rename_i ih
    rw [Segment.visible_cons, Segment.visible_singleton] at h hB
    by_cases hw : (Segment.ofPlain kind text).kind = .whitespace
    · rw [if_pos hw] at h hB
      obtain rfl := (kind_ofPlain_eq_whitespace kind text).1 hw
      -- whitespace leaves no stroke
      exact .space hn (ih h hB)
    · rw [if_neg hw] at h hB
      -- neither the end marker nor a brace of an action, so a stroke by itself
      have hf : (Segment.ofPlain kind text).Formed := by
        have hne := Lexeme.text_next_ne_nil c cs
        rw [hn] at hne
        exact Segment.formed_ofPlain (Lexeme.formed_next hn) hne
      have hp := (isActionPiece_ofPlain (Lexeme.formed_next hn).flat text).1
      obtain ⟨gap, ss', rfl, h'⟩ := h.cons_inv (by rw [Segment.kind_trimmed]; exact hf.ne_eof)
        (by rw [Segment.kind_trimmed]; intro hk; rw [hk] at hp; exact absurd hp (by decide))
      exact .plain gap hn (fun hk ↦ hw ((kind_ofPlain_eq_whitespace kind text).2 hk))
        (ih h' hB.of_append)
  | case3 before c cs text rest hn ih =>
    rw [Segment.visible_cons, Segment.visible_singleton, if_neg (by simp)] at h hB
    rw [Segment.trimmed_of_main rfl] at h
    obtain ⟨gap, ss', rfl, h'⟩ := h.cons_inv (by simp) (by simp)
    exact .unknown gap hn (ih h' hB.of_append)
  | case4 before c cs body closed rest hn hb ihb ihr =>
    rw [Segment.visible_cons, Segment.visible_singleton, if_neg (by simp),
      Segment.trimmed_of_main rfl, Segment.visible_append, Segment.visible_append] at h hB
    -- the body is tame, whether the block is closed or not
    have htame := isTame_body (not_closed_body (Lexeme.of_braced hn).2) (hB [] _ _ rfl rfl)
    cases closed with
    | true =>
      obtain ⟨gap, gap', ss₁, ss₂, rfl, h₁, h₂⟩ := h.block_inv
      exact .block gap gap' hn hb (fun s hs ↦ htame _ (h₁.mem_of_mem hs))
        (ihb h₁ (.of_forall htame)) (ihr h₂ hB.of_append.of_append.of_append)
    | false =>
      -- nothing comes after an open block
      rw [Segment.rest_of_braced hn, Segment.ofChars] at h
      obtain ⟨gap, ss', rfl, h'⟩ := h.cons_inv (by simp) (by simp)
      have h₁ : Laid (·.kind ≠ .eof)
          (Segment.visible (Segment.ofChars (some .lbrace) body)) ss' := by
        simpa [Segment.closing] using h'
      exact .openBlock gap hn hb (fun s hs ↦ htame _ (h₁.mem_of_mem hs))
        (ihb h₁ (.of_forall htame))
  | case5 before c cs body closed rest hn hb ih =>
    rw [Segment.visible_append, visible_ofAction] at h hB
    have hb' : before.any Kind.introducesBlock = false := by simpa using hb
    cases closed with
    | false =>
      rw [Segment.rest_of_braced hn, Segment.ofChars] at h
      obtain ⟨gap, qs, ss', rfl, hq, h'⟩ := h.ofAction_inv (by simp [Segment.closing])
      obtain rfl : ss' = [] := h'.nil_inv
      rw [List.append_nil]
      exact .openAction gap hn hb' hq
    | true =>
      -- the strokes of the pieces end where the closing brace comes
      obtain ⟨gap, qs, ss', rfl, hq, h'⟩ := h.ofAction_inv (by simp [Segment.closing])
      obtain ⟨gap', ss₂, rfl, h₂⟩ := h'.cons_inv (by simp) (by simp)
      exact .action gap gap' hn hb' hq (ih h₂ hB.of_append)

end GrammarLayout
