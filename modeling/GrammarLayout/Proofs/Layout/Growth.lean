import GrammarLayout.Proofs.Layout.Strokes

/-!
# Growing pages

While segments come, a page grows (`Grows`): it stays inside the same constructs, what came is laid
out or still to be written, its strokes fit together, and once a token was written at most one line
end is open. Pages that grow twice grow; here they grow by the comments that were waiting, and by
one token with the comments after it (`Grows.leaf`).

The comments between two tokens are written by whichever construct asks first. So the segments that
came are compared with those that were written and those still to be written.

`Grows r lone p p' cs` is the invariant of the walk, stated between two moments so that it composes
(`Grows.trans`). Its four fields go together. What was laid out is only right if the constructs are
the same on both sides, as they decide how a comment is written; and that strokes fit together is
needed to know that a comment may follow. The last field is about the end of a page: `Calm` says
that no blank line is open, and any main token makes a page calm, whatever was open before.

A token is written by its plan, a list of operations of which exactly one writes
(`Frame.plan_writesOnce`). So the plan splits into what is done before the token, the token itself,
and what is done after it, and the latter ends at most one line (`WritesOnce.run`).
-/

namespace GrammarLayout

/-! ### Growing pages -/

/-- What a construct leaves of a frame: all but the parentheses counted in it. -/
def Frame.key (f : Frame) : Category × Nat := (f.category, f.savedIndent)

/-- How a page grows while segments come: the frames stay, what came is written or still to be
written, strokes fit together, and no two line ends are open once a token was written. -/
structure Grows (r : Rules) (lone : Segment → Prop) (p p' : Page) (cs : List Segment) : Prop where
  /-- Both are inside the same constructs. -/
  context : p'.frames.map Frame.key = p.frames.map Frame.key
  /-- What came and is not to be written still is laid out. -/
  laid : ∃ new came, p'.strokes = p.strokes ++ new ∧ p.comments ++ cs = came ++ p'.comments ∧
    Laid lone came new
  /-- The strokes fit together. -/
  sound : Sound r p'
  /-- At most one line end is open. -/
  calm : (Calm p ∨ ∃ c ∈ cs, c.kind.isHidden = false ∧ c.kind ≠ .eof) → Calm p'

namespace Grows

variable {r : Rules} {lone : Segment → Prop} {p q p' : Page} {cs cs' : List Segment}

theorem refl (h : Sound r p) : Grows r lone p p [] :=
  ⟨rfl, ⟨[], [], (List.append_nil _).symm, List.append_nil _, .nil⟩, h,
    fun ht ↦ ht.resolve_right (by simp)⟩

/-- A page that grows twice. -/
theorem trans (h : Grows r lone p q cs) (h' : Grows r lone q p' cs') :
    Grows r lone p p' (cs ++ cs') := by
  obtain ⟨new, came, hn, hc, hl⟩ := h.laid
  obtain ⟨new', came', hn', hc', hl'⟩ := h'.laid
  refine ⟨h'.context.trans h.context, ⟨new ++ new', came ++ came', ?_, ?_, hl.append hl'⟩,
    h'.sound, fun ht ↦ h'.calm ?_⟩
  · rw [hn', hn, List.append_assoc]
  · rw [← List.append_assoc, hc, List.append_assoc, hc', List.append_assoc]
  · rcases ht with hp | ⟨c, hm, hk⟩
    · exact .inl (h.calm (.inl hp))
    · rcases List.mem_append.1 hm with hm | hm
      · exact .inl (h.calm (.inr ⟨c, hm, hk⟩))
      · exact .inr ⟨c, hm, hk⟩

end Grows

/-- A comment leaves at most one line end open, its own. -/
theorem calm_writeComment (category : Category) (p : Page) (c : Segment) :
    Calm (p.writeComment category c) := by
  rw [Page.writeComment]
  generalize p.beforeComment category = q
  have hn : (q.write q.gap c).strokes.isEmpty = false := by simp [Page.write]
  rw [Page.afterComment]
  split
  · refine .inr ⟨q.depth, ?_⟩
    rw [Page.newLine, hn]
    rfl
  · split <;> exact .inl rfl

/-- What writing a comment does to the rest of a page. -/
theorem writeComment_eq (category : Category) (p : Page) (c : Segment) :
    ∃ gap, (p.writeComment category c).strokes = p.strokes ++ [⟨gap, c⟩] ∧
      (p.writeComment category c).frames = p.frames ∧
        (p.writeComment category c).depth = p.depth := by
  rw [Page.writeComment]
  have hq : (p.beforeComment category).strokes = p.strokes ∧
      (p.beforeComment category).frames = p.frames ∧
        (p.beforeComment category).depth = p.depth := by
    rw [Page.beforeComment]
    split <;> exact ⟨rfl, rfl, rfl⟩
  obtain ⟨hs, hf, hd⟩ := hq
  refine ⟨(p.beforeComment category).gap, ?_⟩
  rw [← hs, ← hf, ← hd, Page.afterComment]
  split
  · exact ⟨rfl, rfl, rfl⟩
  · split <;> exact ⟨rfl, rfl, rfl⟩

/-- Writing comments changes neither the constructs nor the depth. -/
theorem frames_flush (category : Category) (p : Page) :
    (p.flush category).frames = p.frames ∧ (p.flush category).depth = p.depth := by
  rw [Page.flush]
  have h : ∀ (cs : List Segment) (q : Page), (cs.foldl (Page.writeComment category) q).frames =
      q.frames ∧ (cs.foldl (Page.writeComment category) q).depth = q.depth := by
    intro cs
    induction cs with
    | nil => exact fun q ↦ ⟨rfl, rfl⟩
    | cons c cs ih =>
      intro q
      obtain ⟨_, -, hf, hd⟩ := writeComment_eq category q c
      exact ⟨(ih _).1.trans hf, (ih _).2.trans hd⟩
  exact h p.comments _

namespace Grows

variable {r : Rules} {lone : Segment → Prop} {p q p' : Page} {cs cs' : List Segment}

/-- Growing stays inside the constructs that a page is inside of. -/
theorem frames_ne (h : Grows r lone p p' cs) (hne : p.frames ≠ []) : p'.frames ≠ [] := by
  intro hn
  have hc := h.context
  rw [hn] at hc
  exact hne (List.map_eq_nil_iff.1 hc.symm)

/-- Growing leaves the layout rules in force. -/
theorem active_eq (h : Grows r lone p p' cs) : p'.frames.active = p.frames.active := by
  have hc := h.context
  match hp : p.frames, hp' : p'.frames with
  | [], [] => rfl
  | [], _ :: _ => rw [hp, hp'] at hc; exact absurd hc (by simp)
  | _ :: _, [] => rw [hp, hp'] at hc; exact absurd hc (by simp)
  | f :: _, f' :: _ =>
    rw [hp, hp', List.map_cons, List.map_cons] at hc
    exact congrArg Prod.fst (List.cons.inj hc).1

/-- Comments are written one after the other. Each is laid out as a stroke of its own. -/
theorem foldl_writeComment (category : Category) (hl : ∀ c, IsCommentText c → lone c)
    (hp : Sound r p) (hc : ∀ c ∈ cs, IsCommentText c) :
    ∃ new, (cs.foldl (Page.writeComment category) p).strokes = p.strokes ++ new ∧
      Laid lone cs new ∧ Sound r (cs.foldl (Page.writeComment category) p) ∧
        (Calm p → Calm (cs.foldl (Page.writeComment category) p)) := by
  induction cs generalizing p with
  | nil => exact ⟨[], (List.append_nil _).symm, .nil, hp, id⟩
  | cons c cs ih =>
    rw [List.forall_mem_cons] at hc
    obtain ⟨gap, hs, -, -⟩ := writeComment_eq category p c
    obtain ⟨new, hn, hd, hw, hcalm⟩ := ih (hp.writeComment category hc.1) hc.2
    refine ⟨⟨gap, c⟩ :: new, ?_, .stroke gap (hl c hc.1) hd, hw,
      fun _ ↦ hcalm (calm_writeComment category p c)⟩
    rw [List.foldl_cons, hn, hs, List.append_assoc]
    rfl

/-- The comments still to be written are written. -/
theorem flush (hl : ∀ c, IsCommentText c → lone c) (hp : Sound r p) (category : Category) :
    Grows r lone p (p.flush category) [] := by
  have hp' : Sound r { p with comments := [] } :=
    { hp with comments := fun c hc ↦ absurd hc (by simp) }
  obtain ⟨new, hn, hd, hw, hcalm⟩ := foldl_writeComment category hl hp' hp.comments
  refine ⟨by rw [(frames_flush category p).1], ⟨new, p.comments, hn, ?_, hd⟩, hw,
    fun ht ↦ hcalm (ht.resolve_right (by simp))⟩
  rw [Follows.comments_flush]

/-- The comments at a node are written, or there is nothing to write at it. -/
theorem flushAt (hl : ∀ c, IsCommentText c → lone c) (hp : Sound r p) (category : Category)
    (covers : Bool) : Grows r lone p (p.flushAt category covers) [] := by
  cases covers with
  | true => exact flush hl hp category
  | false => exact refl hp

end Grows

/-! ### Leaves -/

/-- What a plan does around the token: it writes it once, and ends at most one line after it. -/
structure WritesOnce (ops : List LayoutOp) : Prop where
  /-- The plan before and after the token. -/
  split : ∃ before after, ops = before ++ .emit :: after ∧ .emit ∉ before ∧ .emit ∉ after ∧
    after.count .newLine ≤ 1

/-- The plan for a main token writes it once. Only the plan for the end marker does not. -/
theorem Frame.plan_writesOnce (f : Frame) {kind : Kind} (text : String) (hk : kind ≠ .eof) :
    WritesOnce (f.plan kind text) := by
  have h₁ : WritesOnce [.emit] := ⟨[], [], by decide⟩
  have h₂ : WritesOnce [.emit, .newLine] := ⟨[], [.newLine], by decide⟩
  have h₃ : WritesOnce [.newLine, .emit] := ⟨[.newLine], [], by decide⟩
  have h₄ : WritesOnce [.indent, .newLine, .emit] := ⟨[.indent, .newLine], [], by decide⟩
  have h₅ : WritesOnce [.emit, .dedent, .newLine] := ⟨[], [.dedent, .newLine], by decide⟩
  have h₆ : WritesOnce [.newLine, .emit, .dedent, .newLine] :=
    ⟨[.newLine], [.dedent, .newLine], by decide⟩
  unfold Frame.plan
  rw [if_neg hk]
  repeat' split
  all_goals assumption

/-- Steps of a plan around the token change neither what is written nor where it is. -/
theorem foldl_runOp_eq {r : Rules} {c : Segment} {ops : List LayoutOp} (h : .emit ∉ ops)
    (p : Page) :
    (ops.foldl (Page.runOp r c) p).strokes = p.strokes ∧
      (ops.foldl (Page.runOp r c) p).frames = p.frames ∧
        (ops.foldl (Page.runOp r c) p).comments = p.comments ∧
          (Sound r p → Sound r (ops.foldl (Page.runOp r c) p)) := by
  induction ops generalizing p with
  | nil => exact ⟨rfl, rfl, rfl, id⟩
  | cons op ops ih =>
    rw [List.mem_cons, not_or] at h
    obtain ⟨hs, hf, hc, hw⟩ := ih h.2 (p.runOp r c op)
    cases op with
    | newLine => exact ⟨hs, hf, hc, fun hp ↦ hw hp.newLine⟩
    | indent => exact ⟨hs, hf, hc, fun hp ↦ hw { hp with }⟩
    | dedent => exact ⟨hs, hf, hc, fun hp ↦ hw { hp with }⟩
    | emit => exact absurd rfl h.1

/-- At most one new line leaves at most one line end open. Either the gap is still empty before it,
or no line is ended at all. -/
theorem calm_foldl_runOp {r : Rules} {c : Segment} {ops : List LayoutOp} {p : Page}
    (h : .emit ∉ ops) (hn : ops.count .newLine ≤ 1) (hs : p.strokes ≠ [])
    (hp : p.gap = .nothing ∨ (ops.count .newLine = 0 ∧ Calm p)) :
    Calm (ops.foldl (Page.runOp r c) p) := by
  induction ops generalizing p with
  | nil =>
    rcases hp with hp | hp
    · exact .inl hp
    · exact hp.2
  | cons op ops ih =>
    rw [List.mem_cons, not_or] at h
    cases op with
    | newLine =>
      rw [List.count_cons_self] at hn hp
      have hg : p.gap = .nothing := hp.resolve_right (by omega)
      refine ih h.2 (by omega) hs (.inr ⟨by omega, .inr ⟨p.depth, ?_⟩⟩)
      have he : p.strokes.isEmpty = false := by simpa using hs
      rw [Page.runOp, Page.newLine, he, hg]
      rfl
    | indent | dedent =>
      rw [List.count_cons_of_ne (by decide)] at hn hp
      exact ih h.2 hn hs hp
    | emit => exact absurd rfl h.1

theorem frames_settle (p : Page) : p.settle.strokes = p.strokes ∧ p.settle.frames = p.frames ∧
    p.settle.depth = p.depth ∧ p.settle.comments = p.comments := by
  rw [Page.settle]
  split <;> exact ⟨rfl, rfl, rfl, rfl⟩

/-- Outside actions nothing is dropped, so what is put out is written. -/
theorem emit_eq_write {p : Page} (r : Rules) (c : Segment) (ha : p.frames.active ≠ .actionBlock) :
    p.emit r c = p.settle.write (p.settle.gapBefore r c) c := by
  rw [Page.emit, if_neg]
  rw [Page.drops, (frames_settle p).2.1]
  simp [ha]

/-- Outside actions a plan that writes once writes the token and leaves at most one line end
open. -/
theorem WritesOnce.run {r : Rules} {c : Segment} {p : Page} {ops : List LayoutOp}
    (h : WritesOnce ops) (hp : Sound r p) (ha : p.frames.active ≠ .actionBlock)
    (hc : c.kind.isHidden = false) :
    ∃ gap, (ops.foldl (Page.runOp r c) p).strokes = p.strokes ++ [⟨gap, c⟩] ∧
      (ops.foldl (Page.runOp r c) p).frames = p.frames ∧
        (ops.foldl (Page.runOp r c) p).comments = p.comments ∧
          Sound r (ops.foldl (Page.runOp r c) p) ∧ Calm (ops.foldl (Page.runOp r c) p) := by
  obtain ⟨before, after, rfl, hb, hf, hn⟩ := h.split
  rw [List.foldl_append, List.foldl_cons]
  obtain ⟨hs₁, hf₁, hc₁, hw₁⟩ := foldl_runOp_eq (r := r) (c := c) hb p
  generalize before.foldl (Page.runOp r c) p = q at hs₁ hf₁ hc₁ hw₁ ⊢
  have hq : q.frames.active ≠ .actionBlock := by rw [hf₁]; exact ha
  have hem : q.runOp r c .emit = q.settle.write (q.settle.gapBefore r c) c := emit_eq_write r c hq
  have hsem : Sound r (q.runOp r c .emit) := (hw₁ hp).emit hc fun h ↦ absurd h hq
  obtain ⟨hs₂, hf₂, hc₂, hw₂⟩ := foldl_runOp_eq (r := r) (c := c) hf (q.runOp r c .emit)
  obtain ⟨hst, hft, -, hct⟩ := frames_settle q
  refine ⟨q.settle.gapBefore r c, ?_, ?_, ?_, hw₂ hsem, ?_⟩
  · rw [hs₂, hem, Page.write, hst, hs₁]
  · rw [hf₂, hem, Page.write, hft, hf₁]
  · rw [hc₂, hem, Page.write, hct, hc₁]
  · rw [hem]
    exact calm_foldl_runOp hf hn (by simp [Page.write]) (.inl rfl)

namespace Grows

variable {r : Rules} {lone : Segment → Prop} {p : Page}

/-- A token may be counted as a parenthesis, which the keys of frames do not hold. -/
theorem key_after (fs : Frames) (kind : Kind) :
    (fs.after kind).map Frame.key = fs.map Frame.key := by
  cases fs <;> rfl

theorem active_after (fs : Frames) (kind : Kind) : (fs.after kind).active = fs.active := by
  cases fs <;> rfl

/-- A leaf outside actions is written, unless it is the end marker. The comments before it are
written first, those after it are still to be written. -/
theorem leaf (hl : ∀ c, IsCommentText c → lone c) (hp : Sound r p) (hne : p.frames ≠ [])
    (ha : p.frames.active ≠ .actionBlock) {c : Segment} (hc : c.kind.isHidden = false)
    (hlc : c.kind ≠ .eof → lone c) {following : List Segment}
    (hf : ∀ d ∈ following, IsCommentText d) :
    Grows r lone p (p.leaf r c following) (c :: following) := by
  -- the comments before the token are written first
  have hfl := flush hl hp p.frames.active
  have hfr := (frames_flush p.frames.active p).1
  have hcm := Follows.comments_flush p.frames.active p
  obtain ⟨new, came, hn, hce, hla⟩ := hfl.laid
  have hsq := hfl.sound
  rw [Page.leaf]
  generalize p.flush p.frames.active = q at hfl hfr hcm hn hce hsq ⊢
  rw [hcm, List.append_nil, List.append_nil] at hce
  have hsq' : Sound r { q with frames := q.frames.after c.kind } := { hsq with }
  obtain ⟨fr, frs, hq⟩ : ∃ fr frs, q.frames = fr :: frs :=
    List.exists_cons_of_ne_nil (hfr ▸ hne)
  rw [hq]
  by_cases hk : c.kind = .eof
  -- the end marker is not written, but it counts among the segments that came
  · have hplan : Frames.plan (fr :: frs) c.kind (String.ofList c.text) = [] := by
      rw [Frames.plan]
      unfold Frame.plan
      rw [if_pos hk]
    rw [hplan]
    refine ⟨?_, ⟨new, came ++ [c], hn, ?_, ?_⟩, { hsq' with comments := hf }, fun ht ↦ ?_⟩
    · rw [← hq, ← hfr]
      exact key_after _ _
    · rw [hce, List.append_assoc]
      rfl
    · have he : Laid lone (came ++ [c]) (new ++ []) := hla.append (.eof hk .nil)
      rwa [List.append_nil] at he
    · refine hfl.calm (.inl (ht.resolve_right ?_))
      rintro ⟨d, hd, hdk⟩
      rcases List.mem_cons.1 hd with rfl | hd
      · exact hdk.2 hk
      · exact absurd (hf d hd).hidden (by simp [hdk.1])
  -- any other token is one more stroke, and whatever was open before it is closed
  · have hw : WritesOnce (Frames.plan (fr :: frs) c.kind (String.ofList c.text)) :=
      fr.plan_writesOnce _ hk
    have hact : ({ q with frames := q.frames.after c.kind } : Page).frames.active ≠
        .actionBlock := by
      rw [active_after, hfr]
      exact ha
    obtain ⟨gap, hs, hf', -, hso, hca⟩ := hw.run hsq' hact hc
    rw [hq] at hs hf' hso hca
    refine ⟨?_, ⟨new ++ [⟨gap, c⟩], came ++ [c], ?_, ?_, ?_⟩, { hso with comments := hf },
      fun _ ↦ hca⟩
    · rw [hf', key_after, ← hq, hfr]
    · rw [hs, hn, List.append_assoc]
    · rw [hce, List.append_assoc]
      rfl
    · exact hla.append (.stroke gap (hlc hk) .nil)

end Grows

end GrammarLayout
