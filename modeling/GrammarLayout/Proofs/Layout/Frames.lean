import GrammarLayout.Proofs.Layout.Completion
import GrammarLayout.Proofs.Layout.Writing

/-!
# What a walk leaves as it was

Where the formatter only writes (`Formatter.Writes`), it stays inside the same constructs and at the
same depth (`Formatter.Keeps`). Only leaves change more than that: a leaf may count a parenthesis in
the frame on top and may go deeper or less deep, but it reaches no other frame (`Formatter.Inside`).
A node with a frame of its own undoes both when it is left, for it takes its frame away and puts the
depth back. So walking such a node keeps frames and depth, whatever the tree below it is
(`Formatter.keeps_run_node`), and so does walking any trees right inside the node of the grammar,
where no leaf asks for another depth (`Formatter.keeps_runAll`).

Nothing here depends on where the trees come from: they need not fit the stream.

Of the two relations, `Keeps` is the stronger one and holds between the two ends of a whole node;
`Inside` holds along the way, where leaves have been counted and have asked for depths. Both
compose, and a node turns the weaker one into the stronger one (`Formatter.keeps_node`), which makes
the induction over trees go through.
-/

namespace GrammarLayout

namespace Formatter

variable {f f' f'' : Formatter}

/-- A formatter that is still inside the same constructs and at the same depth. What it has started
to write, it has started. -/
structure Keeps (f f' : Formatter) : Prop where
  /-- The rules are the same. -/
  rules : f'.rules = f.rules
  /-- The stream is the same. -/
  stream : f'.stream = f.stream
  /-- It is inside the same constructs. -/
  frames : f'.frames = f.frames
  /-- It is at the same depth. -/
  depth : f'.indent.depth = f.indent.depth
  /-- The output stays started. -/
  started : f.writer.started = true → f'.writer.started = true

namespace Keeps

theorem refl (f : Formatter) : Keeps f f := ⟨rfl, rfl, rfl, rfl, id⟩

theorem trans (h : Keeps f f') (h' : Keeps f' f'') : Keeps f f'' where
  rules := h'.rules.trans h.rules
  stream := h'.stream.trans h.stream
  frames := h'.frames.trans h.frames
  depth := h'.depth.trans h.depth
  started := h'.started ∘ h.started

end Keeps

theorem Writes.keeps (h : Writes f f') : Keeps f f' :=
  ⟨h.rules, h.stream, h.frames, congrArg Indent.depth h.indent, h.started⟩

/-! ### Coming to a node -/

theorem keeps_reportRecovered (f : Formatter) (kind : NodeKind) (span : Option Span) :
    Keeps f (f.reportRecovered kind span) := by
  rw [reportRecovered]
  split
  · exact ⟨rfl, rfl, rfl, rfl, id⟩
  · exact .refl f

/-- Coming to a node keeps everything. -/
theorem keeps_approach (f : Formatter) (kind : NodeKind) (span : Option Span) :
    Keeps f (f.approach kind span) := by
  have hnote := writes_note f (n := .entered kind) rfl
  exact (hnote.trans (writes_commentsBefore _ kind.category span)).keeps.trans
    (keeps_reportRecovered _ kind span)

/-! ### The frame on top -/

/-- A formatter that is still inside the same constructs, perhaps at another depth and with another
count of parentheses in the innermost one. -/
structure Inside (f f' : Formatter) : Prop where
  /-- The rules are the same. -/
  rules : f'.rules = f.rules
  /-- The stream is the same. -/
  stream : f'.stream = f.stream
  /-- The frames below the one on top are the same. -/
  below : f'.frames.tail = f.frames.tail
  /-- The frame on top is the same up to its parentheses. -/
  top : f'.frames.head?.map Frame.key = f.frames.head?.map Frame.key
  /-- The output stays started. -/
  started : f.writer.started = true → f'.writer.started = true

theorem Keeps.inside (h : Keeps f f') : Inside f f' :=
  ⟨h.rules, h.stream, congrArg _ h.frames, congrArg _ (congrArg _ h.frames), h.started⟩

theorem Inside.trans (h : Inside f f') (h' : Inside f' f'') : Inside f f'' where
  rules := h'.rules.trans h.rules
  stream := h'.stream.trans h.stream
  below := h'.below.trans h.below
  top := h'.top.trans h.top
  started := h'.started ∘ h.started

/-- A frame that was on top of others is so still. -/
theorem Inside.exists_top (h : Inside f f') {g : Frame} {gs : Frames} (hf : f.frames = g :: gs) :
    ∃ g', f'.frames = g' :: gs ∧ g'.key = g.key := by
  obtain ⟨-, -, hb, ht, -⟩ := h
  rw [hf] at hb ht
  cases hf' : f'.frames with
  | nil =>
    rw [hf'] at ht
    exact absurd ht (by simp)
  | cons g' gs' =>
    rw [hf'] at hb ht
    exact ⟨g', by rw [show gs' = gs from hb], Option.some.inj ht⟩

/-- A step of a plan may change the depth, and no frame. -/
theorem inside_runOp (text : String) (f : Formatter) (op : LayoutOp) :
    Inside f (f.runOp text op) := by
  cases op with
  | newLine => exact (writes_lineBreak f).keeps.inside
  | indent => exact ⟨rfl, rfl, rfl, rfl, id⟩
  | dedent => exact ⟨rfl, rfl, rfl, rfl, id⟩
  | emit => exact (writes_emit f text).keeps.inside

/-- A leaf reaches the frame on top and no other. -/
theorem inside_leaf (f : Formatter) (t : Token) : Inside f (f.leaf t) := by
  have hcomments := (writes_writeComments f f.frames.active
    (f.marks.flushBefore f.rules f.stream t.index)).keeps.inside
  have hafter : ∀ g : Formatter, Inside g { g with frames := g.frames.after t.kind } := by
    intro g
    cases hg : g.frames with
    | nil => exact ⟨rfl, rfl, by rw [hg]; rfl, by rw [hg]; rfl, id⟩
    | cons _ _ => exact ⟨rfl, rfl, by rw [hg]; rfl, by rw [hg]; rfl, id⟩
  have hops : ∀ (ops : List LayoutOp) (g : Formatter), Inside g (ops.foldl (runOp t.text) g) := by
    intro ops
    induction ops with
    | nil => exact fun g ↦ (Keeps.refl g).inside
    | cons op ops ih => exact fun g ↦ (inside_runOp t.text g op).trans (ih _)
  have hnote : ∀ g : Formatter, Inside g (g.note (.laidOut f.frames.active t.text)) :=
    fun g ↦ (writes_note g rfl).keeps.inside
  exact ((hcomments.trans (hafter _)).trans (hops _ _)).trans (hnote _)

/-! ### Nodes -/

/-- Entering a node without a frame of its own keeps everything. -/
theorem keeps_enter (f : Formatter) {kind : NodeKind} (h : kind.category.entry = .inherit)
    (span : Option Span) : Keeps f (f.enter kind span) := by
  rw [enter_eq_pushFrame, pushFrame, h]
  exact keeps_approach f kind span

/-- Leaving a node without a frame of its own keeps everything. -/
theorem keeps_leave (f : Formatter) {kind : NodeKind} (h : kind.category.entry = .inherit)
    (span : Option Span) : Keeps f (f.leave kind span) := by
  have hown : kind.category.ownsFrame = false := by rw [Category.ownsFrame, h]; rfl
  rw [leave, popFrame, hown]
  exact (writes_commentsAfter f _ span).keeps.trans (writes_note _ rfl).keeps

/-- Entering a node with a frame of its own puts the frame on top, with the depth it is entered
at. -/
theorem keeps_enter_of_ownsFrame (f : Formatter) {kind : NodeKind}
    (h : kind.category.ownsFrame = true) (span : Option Span) :
    Keeps { f with frames := f.frames.push kind.category f.indent.depth } (f.enter kind span) := by
  have hbefore := keeps_approach f kind span
  rw [enter_eq_pushFrame]
  generalize f.approach kind span = g at hbefore
  have hpush : Keeps { f with frames := f.frames.push kind.category f.indent.depth }
      { g with frames := g.frames.push kind.category g.indent.depth } :=
    { hbefore with frames := by rw [hbefore.frames, hbefore.depth] }
  rw [pushFrame]
  cases he : kind.category.entry with
  | block => exact hpush.trans (writes_lineBreak _).keeps
  | inline => exact hpush
  | inherit => exact absurd h (by rw [Category.ownsFrame, he]; decide)

/-- Leaving a node with a frame of its own takes the frame away and puts the depth back. -/
theorem keeps_leave_of_ownsFrame (f : Formatter) {kind : NodeKind}
    (h : kind.category.ownsFrame = true) (span : Option Span) {g : Frame} {gs : Frames}
    (hf : f.frames = g :: gs) :
    Keeps { f with frames := gs, indent := f.indent.restore g.savedIndent }
      (f.leave kind span) := by
  have hafter := (writes_commentsAfter f kind.category span).keeps
  rw [leave, popFrame, h, if_pos rfl, hafter.frames, hf]
  exact { hafter with frames := rfl, depth := rfl }

/-- **Walking a node with a frame of its own** keeps the frames and the depth, if walking its
children reaches the frame on top only. -/
theorem keeps_node {kind : NodeKind} (h : kind.category.ownsFrame = true) (span : Option Span)
    {walk : Formatter → Formatter} (hw : ∀ f, Inside f (walk f)) (f : Formatter) :
    Keeps f ((walk (f.enter kind span)).leave kind span) := by
  have henter := keeps_enter_of_ownsFrame f h span
  have hwalk := hw (f.enter kind span)
  obtain ⟨g, hg, hkey⟩ := hwalk.exists_top henter.frames
  have hleave := keeps_leave_of_ownsFrame (walk (f.enter kind span)) h span hg
  have hsaved : g.savedIndent = f.indent.depth := congrArg Prod.snd hkey
  refine ⟨hleave.rules.trans (hwalk.rules.trans henter.rules),
    hleave.stream.trans (hwalk.stream.trans henter.stream), hleave.frames,
    hleave.depth.trans hsaved, fun hs ↦ hleave.started (hwalk.started (henter.started hs))⟩

/-! ### Trees -/

/-- A node is entered, its children are walked, and it is left. -/
theorem run_node (s : Stream) (f : Formatter) (kind : NodeKind) (span : Option Span)
    (children : List Tree) :
    f.run (Tree.events s (.node kind span children)) =
      ((f.enter kind span).run (Tree.eventsAll s children)).leave kind span := by
  rw [Tree.events, Follows.run_cons, Follows.run_append]
  rfl

mutual

/-- **No tree reaches further than the frame on top.** -/
theorem inside_run (s : Stream) : ∀ (t : Tree) (f : Formatter), Inside f (f.run (t.events s))
  | .leaf i, f => by
    rw [Tree.events]
    cases s.get? i with
    | none => exact (Keeps.refl f).inside
    | some t => exact inside_leaf f t
  | .stray i, f => by
    rw [Tree.events]
    cases s.get? i with
    | none => exact (Keeps.refl f).inside
    | some t =>
      have hnote := (writes_note f (n := .strayToken t.text) rfl).keeps
      exact hnote.inside.trans (inside_leaf _ t)
  | .node kind span children, f => by
    rw [run_node]
    cases hown : kind.category.ownsFrame with
    | true => exact (keeps_node hown span (inside_runAll s children) f).inside
    | false =>
      have he : kind.category.entry = .inherit := by simpa [Category.ownsFrame] using hown
      exact ((keeps_enter f he span).inside.trans (inside_runAll s children _)).trans
        (keeps_leave _ he span).inside

/-- Neither do trees one after the other. -/
theorem inside_runAll (s : Stream) :
    ∀ (ts : List Tree) (f : Formatter), Inside f (f.run (Tree.eventsAll s ts))
  | [], f => (Keeps.refl f).inside
  | t :: ts, f => by
    rw [Tree.eventsAll, Follows.run_append]
    exact (inside_run s t f).trans (inside_runAll s ts _)

end

/-- **Walking a node with a frame of its own** keeps the frames and the depth, whatever the tree
below it is. -/
theorem keeps_run_node (s : Stream) (f : Formatter) {kind : NodeKind}
    (h : kind.category.ownsFrame = true) (span : Option Span) (children : List Tree) :
    Keeps f (f.run (Tree.events s (.node kind span children))) := by
  rw [run_node]
  exact keeps_node h span (inside_runAll s children) f

/-! ### Right inside the grammar -/

/-- Right inside the node of the grammar a leaf is written where it comes, perhaps with a line end
after it. -/
theorem plan_of_grammarSpec {fs : Frames} (h : fs.active = .grammarSpec) {kind : Kind}
    (hk : kind ≠ .eof) (text : String) :
    fs.plan kind text = [.emit] ∨ fs.plan kind text = [.emit, .newLine] := by
  cases fs with
  | nil => exact absurd h (by decide)
  | cons g gs =>
    have hg : g.category = .grammarSpec := h
    rw [Frames.plan]
    unfold Frame.plan
    rw [if_neg hk, hg]
    cases kind <;> first | exact .inl rfl | exact .inr rfl

/-- No parentheses are counted right inside the node of the grammar. -/
theorem after_of_grammarSpec {fs : Frames} (h : fs.active = .grammarSpec) (kind : Kind) :
    fs.after kind = fs := by
  cases fs with
  | nil => rfl
  | cons g gs =>
    obtain ⟨category, saved, parens⟩ := g
    obtain rfl : category = .grammarSpec := h
    rw [Frames.after, Frame.after, Frame.parenDepthAfter]
    split <;> rfl

/-- Outside actions, a text that is emitted is written. -/
theorem started_emit {f : Formatter} (h : f.frames.active ≠ .actionBlock) {text : String}
    (ht : text ≠ "") : (f.emit text).writer.started = true := by
  have hdrops : f.settleBreak.drops text = false := by
    rw [drops, (writes_settleBreak f).frames]
    simp [h]
  rw [emit, hdrops, if_neg (by simp), writeText, perform, Writer.write, if_neg (by simpa using ht)]

/-- The end marker leaves no trace. -/
theorem keeps_eof {f : Formatter} (h : f.frames.active = .grammarSpec) {t : Token}
    (hk : t.kind = .eof) : Keeps f (f.leaf t) := by
  have hcomments := (writes_writeComments f f.frames.active
    (f.marks.flushBefore f.rules f.stream t.index)).keeps
  have hplan : ∀ fs : Frames, fs.active = .grammarSpec → fs.plan t.kind t.text = [] := by
    intro fs hfs
    cases fs with
    | nil => exact absurd hfs (by decide)
    | cons g gs =>
      rw [Frames.plan]
      unfold Frame.plan
      rw [if_pos hk]
  rw [leaf]
  generalize f.writeComments _ _ = g at hcomments
  have hg : g.frames.active = .grammarSpec := by rw [hcomments.frames, h]
  rw [hplan _ hg, after_of_grammarSpec hg]
  exact hcomments.trans (writes_note _ rfl).keeps

/-- **A leaf right inside the node of the grammar** is written at the same depth, unless it is the
end marker. -/
theorem keeps_started_leaf {f : Formatter} (h : f.frames.active = .grammarSpec) {t : Token}
    (hk : t.kind ≠ .eof) :
    Keeps f (f.leaf t) ∧ (t.text ≠ "" → (f.leaf t).writer.started = true) := by
  have hcomments := (writes_writeComments f f.frames.active
    (f.marks.flushBefore f.rules f.stream t.index)).keeps
  rw [leaf]
  generalize f.writeComments _ _ = g at hcomments
  have hg : g.frames.active = .grammarSpec := by rw [hcomments.frames, h]
  have hstarted : t.text ≠ "" → (g.emit t.text).writer.started = true :=
    started_emit (by simp [hg])
  rw [after_of_grammarSpec hg]
  rcases plan_of_grammarSpec hg hk t.text with hp | hp
  · rw [hp]
    exact ⟨(hcomments.trans (writes_emit g t.text).keeps).trans (writes_note _ rfl).keeps, hstarted⟩
  · have hline := (writes_lineBreak (g.emit t.text)).keeps
    rw [hp]
    exact ⟨((hcomments.trans (writes_emit g t.text).keeps).trans hline).trans
      (writes_note _ rfl).keeps, fun ht ↦ hline.started (hstarted ht)⟩

theorem keeps_leaf_of_grammarSpec {f : Formatter} (h : f.frames.active = .grammarSpec) (t : Token) :
    Keeps f (f.leaf t) := by
  by_cases hk : t.kind = .eof
  · exact keeps_eof h hk
  · exact (keeps_started_leaf h hk).1

mutual

theorem keeps_run (s : Stream) :
    ∀ (t : Tree) {f : Formatter}, f.frames.active = .grammarSpec → Keeps f (f.run (t.events s))
  | .leaf i, f, h => by
    rw [Tree.events]
    cases s.get? i with
    | none => exact .refl f
    | some t => exact keeps_leaf_of_grammarSpec h t
  | .stray i, f, h => by
    rw [Tree.events]
    cases s.get? i with
    | none => exact .refl f
    | some t =>
      have hnote := (writes_note f (n := .strayToken t.text) rfl).keeps
      have hactive : (f.note (.strayToken t.text)).frames.active = .grammarSpec := h
      exact hnote.trans (keeps_leaf_of_grammarSpec hactive t)
  | .node kind span children, f, h => by
    cases hown : kind.category.ownsFrame with
    | true => exact keeps_run_node s f hown span children
    | false =>
      have he : kind.category.entry = .inherit := by simpa [Category.ownsFrame] using hown
      have henter := keeps_enter f he span
      rw [run_node]
      exact (henter.trans (keeps_runAll s children (henter.frames ▸ h))).trans
        (keeps_leave _ he span)

/-- **Trees right inside the node of the grammar** keep the frames and the depth. -/
theorem keeps_runAll (s : Stream) :
    ∀ (ts : List Tree) {f : Formatter}, f.frames.active = .grammarSpec →
      Keeps f (f.run (Tree.eventsAll s ts))
  | [], f, _ => .refl f
  | t :: ts, f, h => by
    have hfirst := keeps_run s t h
    rw [Tree.eventsAll, Follows.run_append]
    exact hfirst.trans (keeps_runAll s ts (hfirst.frames ▸ h))

end

end Formatter

end GrammarLayout
