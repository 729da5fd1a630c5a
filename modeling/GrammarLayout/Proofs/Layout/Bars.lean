import GrammarLayout.Proofs.Grammar.Parts
import GrammarLayout.Proofs.Layout.Stops

/-!
# Bars and parentheses

A bar starts a new line exactly if it separates alternatives of a parser rule, which is to say if
it is a child of the list of these alternatives (`bar_breaks_iff`). A formatter does not look at the
tree to find out. It knows the innermost construct, and in an alternative of a rule it counts the
parentheses that are open; that count is exact (`Visit.IsBalanced`).

What a formatter does along trees is put together from what it does at one leaf and at one node
(`Paced`). Which leaves come where is a matter of the productions: `Pattern.parens` follows the
parentheses that are open through a pattern, and fails where a bar is out of place or a closing
parenthesis closes none. One induction on derivations joins the two (`Pattern.Derives.paced`).

The invariant along a walk is `Counts`. From a place where a frame is on top, any walk leads to a
place where that frame is still there, below the constructs entered since, and its count has changed
by the parentheses met outside of embedded nodes. It composes (`Counts.append`), a leaf adds itself
to it (`Counts.leaf`), and a node with a frame of its own leaves it as it was, because its own frame
takes the counting over (`Counts.node`).

`Paced` adds to it what is claimed of leaves: that each bar fits its parent, and that no parenthesis
closes more than is open. The production side decides whether trees are paced, by `parens`, a
computation over the pattern that gives a number only if all choices agree on it. Regions are
compared with the worst token they may hold, a bar: where a bar passes outside alternatives,
everything does (`Category.passParen_of_bar`).
-/

namespace GrammarLayout

/-! ### Frames along a walk -/

namespace Formatter

/-- **A leaf is laid out** by the plan of the frames that the formatter comes to it with, once its
comments are written. -/
theorem exists_leaf_eq (f : Formatter) (t : Token) :
    ∃ g, Writes f g ∧ f.leaf t =
      ((f.frames.plan t.kind t.text).foldl (runOp t.text)
        { g with frames := f.frames.after t.kind }).note (.laidOut f.frames.active t.text) := by
  have hcomments := writes_writeComments f f.frames.active
    (f.marks.flushBefore f.rules f.stream t.index)
  refine ⟨_, hcomments, ?_⟩
  rw [leaf, hcomments.frames]

/-- The steps of a plan leave the frames alone. -/
theorem frames_foldl_runOp (text : String) (ops : List LayoutOp) (f : Formatter) :
    (ops.foldl (runOp text) f).frames = f.frames := by
  induction ops generalizing f with
  | nil => rfl
  | cons op ops ih =>
    rw [List.foldl_cons, ih]
    cases op with
    | newLine => exact (writes_lineBreak f).frames
    | emit => exact (writes_emit f text).frames
    | indent | dedent => rfl

/-- A leaf does to the frames what its kind says. -/
theorem frames_leaf (f : Formatter) (t : Token) : (f.leaf t).frames = f.frames.after t.kind := by
  obtain ⟨g, -, hg⟩ := exists_leaf_eq f t
  rw [hg]
  exact frames_foldl_runOp t.text _ _

/-- From a place where `g` is the frame on top of `gs`, a walk leads to a place inside the
constructs `inner` below it, and `n` parentheses are open in it there. An alternative counts them
outside actions and blocks of options. -/
structure Counts (f : Formatter) (g : Frame) (gs : Frames) (es : List Event) (inner : Frames)
    (n : Nat) : Prop where
  /-- The frames there. -/
  frames : (f.run es).frames = inner ++ { g with parenDepth := n } :: gs
  /-- Outside actions and blocks of options, an alternative is the innermost construct. -/
  top : g.category = .labeledAlternative → (inner = [] ↔ es.foldl Event.nest 0 = 0)
  /-- What an alternative counts. -/
  parens : g.category = .labeledAlternative →
    n + (outerKinds 0 es).count .rparen = g.parenDepth + (outerKinds 0 es).count .lparen

namespace Counts

variable {f : Formatter} {g : Frame} {gs inner : Frames} {es es' : List Event} {m n : Nat}

theorem nil (h : f.frames = g :: gs) : Counts f g gs [] [] g.parenDepth :=
  ⟨h, fun _ ↦ iff_of_true rfl rfl, fun _ ↦ rfl⟩

/-- Walks one after the other count together. -/
theorem append (h : Counts f g gs es [] m) (hes : es.foldl Event.nest 0 = 0)
    (h' : Counts (f.run es) { g with parenDepth := m } gs es' inner n) :
    Counts f g gs (es ++ es') inner n where
  frames := by
    rw [Follows.run_append]
    exact h'.frames
  top hc := by
    rw [List.foldl_append, hes]
    exact h'.top hc
  parens hc := by
    have hfirst := h.parens hc
    have hsecond : n + _ = m + _ := h'.parens hc
    rw [outerKinds_append, hes, List.count_append, List.count_append]
    omega

/-- A node without a frame of its own is not noticed where it is entered. -/
theorem enter {kind : NodeKind} (he : kind.category.entry = .inherit)
    (hemb : kind.isEmbedded = false) (hf : f.frames = g :: gs) (span : Option Span) :
    Counts f g gs [.enter kind span] [] g.parenDepth :=
  ⟨(keeps_enter f he span).frames.trans hf, fun _ ↦ iff_of_true rfl (by simp [Event.nest, hemb]),
    fun _ ↦ rfl⟩

/-- Nor is it where it is left. -/
theorem leave {kind : NodeKind} (he : kind.category.entry = .inherit)
    (hemb : kind.isEmbedded = false) (hf : f.frames = g :: gs) (span : Option Span) :
    Counts f g gs [.leave kind span] [] g.parenDepth :=
  ⟨(keeps_leave f he span).frames.trans hf, fun _ ↦ iff_of_true rfl (by simp [Event.nest, hemb]),
    fun _ ↦ rfl⟩

/-- Inside a node with a frame of its own, the frames of that node are on top. -/
theorem below {kind : NodeKind} (hemb : g.category = .labeledAlternative → kind.isEmbedded = true)
    {span : Option Span} {d : Nat} (hin : StaysInside es)
    (h : Counts (f.enter kind span) ⟨kind.category, d, 0⟩ (g :: gs) es inner n) :
    Counts f g gs (.enter kind span :: es) (inner ++ [⟨kind.category, d, n⟩]) g.parenDepth where
  frames := by
    rw [Follows.run_cons, List.append_assoc]
    exact h.frames
  top hc := by
    rw [List.foldl_cons, Event.nest, if_pos (hemb hc)]
    exact iff_of_false (by simp) (Nat.ne_of_gt (hin.nest 1))
  parens hc := by
    rw [outerKinds, Event.nest, if_pos (hemb hc), hin.outer]
    rfl

/-- Over a node with a frame of its own, nothing is counted. -/
theorem node {kind : NodeKind} (hown : kind.category.ownsFrame = true)
    (hemb : g.category = .labeledAlternative → kind.isEmbedded = true) (hf : f.frames = g :: gs)
    (s : Stream) (span : Option Span) (ts : List Tree) :
    Counts f g gs (Tree.events s (.node kind span ts)) [] g.parenDepth where
  frames := (keeps_run_node s f hown span ts).frames.trans hf
  top _ := iff_of_true rfl ((Tree.isPaired_events _).nest 0)
  parens hc := by
    rw [Tree.events, outerKinds, Event.nest, if_pos (hemb hc), outerKinds_append,
      (Tree.isPaired_eventsAll ts).outer, (Tree.isPaired_eventsAll ts).nest]
    simp [outerKinds, Event.outerKinds]

end Counts

end Formatter

/-! ### Trees -/

/-- What is counted in an alternative that a walk comes to. -/
structure Visit.IsBalanced (v : Visit) (r : Rules) (s : Stream) : Prop where
  /-- At every leaf in it the parentheses open are those opened since it was entered without those
  closed, and none closes more than is open. Its frame is the one on top wherever the leaf is in no
  action and no block of options. -/
  stops : ∀ w ∈ v.stops s, ∃ rel inner n,
    w.before = v.before ++ .enter v.node.kind v.node.span :: rel ∧
    (w.arrival r s).frames =
      inner ++ ⟨.labeledAlternative, (v.arrival r s).indent.depth, n⟩ :: (v.arrival r s).frames ∧
    (inner = [] ↔ rel.foldl Event.nest 0 = 0) ∧
    n + (outerKinds 0 rel).count .rparen = (outerKinds 0 rel).count .lparen ∧
    (inner = [] → w.token.kind = .rparen → 0 < n)
  /-- No parenthesis is open where it is left. -/
  settled : ((v.arrival r s).run (.enter v.node.kind v.node.span ::
      Tree.eventsAll s v.node.children)).frames =
    ⟨.labeledAlternative, (v.arrival r s).indent.depth, 0⟩ :: (v.arrival r s).frames

section Walks

variable (r : Rules) (s : Stream)

/-- What is shown of a leaf that a walk comes to after the events `es` and some more, where `g` was
the frame on top of `gs` after the former. -/
structure Stop.Fits (g : Frame) (gs : Frames) (es : List Event) (w : Stop) : Prop where
  /-- A bar starts a new line exactly if it separates alternatives of a rule. -/
  bar : w.token.kind = .bar → (.newLine ∈ w.plan r s ↔ w.parent = some .ruleAltList)
  /-- Parentheses are counted on the way there, and one that closes has one to close. -/
  counts : ∃ rel inner n, w.before = es ++ rel ∧
    Formatter.Counts (Formatter.run { rules := r, stream := s } es) g gs rel inner n ∧
    (g.category = .labeledAlternative → inner = [] → w.token.kind = .rparen → 0 < n)

/-- What is shown of trees that a walk comes to after the events `es`, where `g` is the frame on top
of `gs`. They are children of a node of the kind `parent`, and `n` parentheses are open after
them. -/
structure Paced (parent : Option NodeKind) (g : Frame) (gs : Frames) (es : List Event)
    (ts : List Tree) (n : Nat) : Prop where
  /-- Every leaf fits. -/
  stops : ∀ w ∈ Tree.stopsAll s es parent ts, w.Fits r s g gs es
  /-- What is counted over all of them. -/
  counts : Formatter.Counts (Formatter.run { rules := r, stream := s } es) g gs
    (Tree.eventsAll s ts) [] n
  /-- Every alternative is balanced. -/
  alternatives : ∀ v ∈ Tree.visitsAll s es g.category ts, v.node.kind = .labeledAlt →
    v.IsBalanced r s

end Walks

namespace Paced

variable {r : Rules} {s : Stream} {parent : Option NodeKind} {g : Frame} {gs : Frames}
  {es : List Event} {ts ts' : List Tree} {m n : Nat}

theorem nil (h : (Formatter.run { rules := r, stream := s } es).frames = g :: gs) :
    Paced r s parent g gs es [] g.parenDepth where
  stops _ hw := absurd hw List.not_mem_nil
  counts := .nil h
  alternatives _ hv := absurd hv List.not_mem_nil

/-- Trees one after the other. -/
theorem append (h : Paced r s parent g gs es ts m)
    (h' : Paced r s parent { g with parenDepth := m } gs (es ++ Tree.eventsAll s ts) ts' n) :
    Paced r s parent g gs es (ts ++ ts') n := by
  have hnest := (Tree.isPaired_eventsAll ts (s := s)).nest 0
  refine ⟨?_, ?_, ?_⟩
  · rw [Tree.stopsAll_append, List.forall_mem_append]
    refine ⟨h.stops, fun w hw ↦ ?_⟩
    obtain ⟨hbar, rel, inner, k, hrel, hcounts, hclose⟩ := h'.stops w hw
    rw [Follows.run_append] at hcounts
    exact ⟨hbar, _, inner, k, by rw [hrel, List.append_assoc], h.counts.append hnest hcounts,
      hclose⟩
  · have hcounts := h'.counts
    rw [Follows.run_append] at hcounts
    rw [Tree.eventsAll_append]
    exact h.counts.append hnest hcounts
  · rw [Tree.visitsAll_append, List.forall_mem_append]
    exact ⟨h.alternatives, h'.alternatives⟩

/-- A node without a frame of its own. -/
theorem inherit {kind : NodeKind} (he : kind.category.entry = .inherit) (span : Option Span)
    (hf : (Formatter.run { rules := r, stream := s } es).frames = g :: gs)
    (h : Paced r s (some kind) g gs (es ++ [.enter kind span]) ts n) :
    Paced r s parent g gs es [.node kind span ts] n := by
  have hown : kind.category.ownsFrame = false := by rw [Category.ownsFrame, he]; rfl
  have hemb : kind.isEmbedded = false := by
    cases hk : kind.isEmbedded with
    | false => rfl
    | true => exact absurd (NodeKind.ownsFrame_of_isEmbedded hk) (by simp [hown])
  have henter : Formatter.Counts _ g gs [.enter kind span] [] g.parenDepth :=
    .enter he hemb hf span
  have hnest : [Event.enter kind span].foldl Event.nest 0 = 0 := by simp [Event.nest, hemb]
  refine ⟨?_, ?_, ?_⟩
  · rw [Tree.stopsAll_singleton, Tree.stops]
    intro w hw
    -- a bar below the node has its counts taken from the entry of the node on, which counts
    -- nothing
    obtain ⟨hbar, rel, inner, k, hrel, hcounts, hclose⟩ := h.stops w hw
    rw [Follows.run_append] at hcounts
    exact ⟨hbar, _, inner, k, by rw [hrel, List.append_assoc], henter.append hnest hcounts, hclose⟩
  · have hcounts := h.counts
    rw [Follows.run_append] at hcounts
    have hchildren := henter.append hnest hcounts
    have hleave : Formatter.Counts _ { g with parenDepth := n } gs [.leave kind span] [] n :=
      .leave he hemb hchildren.frames span
    rw [Tree.eventsAll, Tree.eventsAll, List.append_nil, Tree.events]
    refine hchildren.append ?_ hleave
    rw [List.foldl_append, hnest, (Tree.isPaired_eventsAll ts).nest]
  · have hwithin : kind.category.within g.category = g.category := by
      rw [Category.within, hown]
      rfl
    rw [Tree.visitsAll, Tree.visitsAll, List.append_nil, Tree.visits, List.forall_mem_cons, hwithin]
    refine ⟨fun hk ↦ absurd he ?_, h.alternatives⟩
    obtain rfl : kind = .labeledAlt := hk
    decide

/-- An alternative is balanced if its children are paced and leave no parenthesis open. -/
theorem isBalanced {span : Option Span} {c : Category}
    (h : Paced r s (some .labeledAlt)
      ⟨.labeledAlternative, (Formatter.run { rules := r, stream := s } es).indent.depth, 0⟩
      (Formatter.run { rules := r, stream := s } es).frames (es ++ [.enter .labeledAlt span])
      ts 0) :
    Visit.IsBalanced ⟨es, c, ⟨.labeledAlt, span, ts⟩⟩ r s := by
  refine ⟨fun w hw ↦ ?_, ?_⟩
  · obtain ⟨-, rel, inner, k, hrel, hcounts, hclose⟩ := h.stops w hw
    have hframes := hcounts.frames
    rw [← Follows.run_append, ← hrel] at hframes
    exact ⟨rel, inner, k, by rw [hrel, List.append_assoc]; rfl, hframes, hcounts.top rfl,
      (hcounts.parens rfl).trans (Nat.zero_add _), hclose rfl⟩
  · have hframes := h.counts.frames
    rw [Follows.run_append] at hframes
    exact hframes

/-- **A node with a frame of its own** leaves the count as it was. What stands in an alternative and
has a frame of its own has to be an action or a block of options. -/
theorem own {kind : NodeKind} (hown : kind.category.ownsFrame = true) (span : Option Span)
    (hf : (Formatter.run { rules := r, stream := s } es).frames = g :: gs)
    (hemb : g.category = .labeledAlternative → kind.isEmbedded = true)
    (h : Paced r s (some kind)
      ⟨kind.category, (Formatter.run { rules := r, stream := s } es).indent.depth, 0⟩ (g :: gs)
      (es ++ [.enter kind span]) ts 0) :
    Paced r s parent g gs es [.node kind span ts] g.parenDepth := by
  refine ⟨?_, ?_, ?_⟩
  · rw [Tree.stopsAll_singleton, Tree.stops]
    intro w hw
    obtain ⟨hbar, rel, inner, k, hrel, hcounts, -⟩ := h.stops w hw
    obtain ⟨rel', hrel', hin⟩ := Tree.exists_of_stopAll ts w hw
    obtain rfl := List.append_cancel_left (hrel.symm.trans hrel')
    rw [Follows.run_append] at hcounts
    exact ⟨hbar, _, _, _, by rw [hrel, List.append_assoc]; rfl, hcounts.below hemb hin,
      fun _ hnil ↦ absurd hnil (by simp)⟩
  · rw [Tree.eventsAll, Tree.eventsAll, List.append_nil]
    exact .node hown hemb hf s span ts
  · rw [Tree.visitsAll, Tree.visitsAll, List.append_nil, Tree.visits, List.forall_mem_cons,
      Category.within_of_ownsFrame hown]
    refine ⟨fun hk ↦ ?_, h.alternatives⟩
    obtain rfl : kind = .labeledAlt := hk
    exact isBalanced (hf ▸ h)

end Paced

/-! ### Leaves -/

/-- Whether a bar may stand right inside a construct of the category `c` with `n` parentheses open
above some base, as a child of a node of the kind `parent`: it separates alternatives of a rule
exactly if it starts a new line. -/
def Category.placesBar (c : Category) (parent : NodeKind) (n : Nat) : Bool :=
  match c with
  | .labeledAlternative => n != 0 && parent != .ruleAltList
  | .ruleSpec => parent == .ruleAltList
  | .actionBlock => false
  | _ => parent != .ruleAltList

/-- The parentheses open above some base after a leaf; nothing if the leaf is a bar out of place or
closes more than is open. Only alternatives count them. -/
def Category.passParen (c : Category) (parent : NodeKind) (n : Nat) (kind : Kind) : Option Nat :=
  if kind = .bar ∧ c.placesBar parent n = false then none
  else if c = .labeledAlternative then
    if kind = .lparen then some (n + 1)
    else if kind = .rparen then if n = 0 then none else some (n - 1)
    else some n
  else if n = 0 then some 0 else none

/-- Where a bar passes outside alternatives, everything does. -/
theorem Category.passParen_of_bar {c : Category} {parent : NodeKind} {n m : Nat}
    (hc : c ≠ .labeledAlternative) (h : c.passParen parent n .bar = some m) (kind : Kind) :
    c.passParen parent n kind = some m := by
  rw [passParen, if_neg hc, Option.ite_none_left_eq_some] at h
  rw [passParen, if_neg hc, if_neg (fun hk ↦ h.1 ⟨rfl, hk.2⟩)]
  exact h.2

/-- Outside actions a bar starts a new line right inside a rule, and in an alternative outside
parentheses. -/
theorem Frame.newLine_mem_plan_bar {g : Frame} (hc : g.category ≠ .actionBlock) (text : String) :
    .newLine ∈ g.plan .bar text ↔
      g.category = .ruleSpec ∨ g.category = .labeledAlternative ∧ g.parenDepth = 0 := by
  obtain ⟨c, d, k⟩ := g
  cases c with
  | actionBlock => exact absurd rfl hc
  | labeledAlternative =>
    change .newLine ∈ (if k = 0 then [LayoutOp.newLine, .emit] else [.emit]) ↔ _
    by_cases hk : k = 0 <;> simp [hk]
  | ruleSpec =>
    change .newLine ∈ [LayoutOp.newLine, .emit] ↔ _
    simp
  | _ =>
    change .newLine ∈ [LayoutOp.emit] ↔ _
    simp

/-- **A bar that is in its place** starts a new line exactly if it separates alternatives of a
rule. -/
theorem Frame.newLine_mem_plan_iff {c : Category} {parent : NodeKind} {n : Nat}
    (h : c.placesBar parent n = true) (d b : Nat) (text : String) :
    .newLine ∈ Frame.plan ⟨c, d, b + n⟩ .bar text ↔ parent = .ruleAltList := by
  have hc : c ≠ .actionBlock := by
    rintro rfl
    exact absurd h (by simp [Category.placesBar])
  rw [newLine_mem_plan_bar (g := ⟨c, d, b + n⟩) hc]
  cases c <;> simp_all [Category.placesBar]

/-- An alternative counts a leaf that passes. -/
theorem Category.passParen_labeledAlternative {parent : NodeKind} {n m : Nat} {kind : Kind}
    (h : passParen .labeledAlternative parent n kind = some m) :
    kind = .lparen ∧ m = n + 1 ∨ kind = .rparen ∧ n = m + 1 ∨
      kind ≠ .lparen ∧ kind ≠ .rparen ∧ m = n := by
  rw [passParen, Option.ite_none_left_eq_some, if_pos rfl] at h
  by_cases hopen : kind = .lparen
  · rw [if_pos hopen, Option.some.injEq] at h
    exact .inl ⟨hopen, h.2.symm⟩
  rw [if_neg hopen] at h
  by_cases hclose : kind = .rparen
  · rw [if_pos hclose, Option.ite_none_left_eq_some, Option.some.injEq] at h
    exact .inr (.inl ⟨hclose, by omega⟩)
  · rw [if_neg hclose, Option.some.injEq] at h
    exact .inr (.inr ⟨hopen, hclose, h.2.symm⟩)

/-- A frame counts a leaf that passes. -/
theorem Frame.after_of_passParen {c : Category} {parent : NodeKind} {b n m : Nat} {kind : Kind}
    (hb : c ≠ .labeledAlternative → b = 0) (h : c.passParen parent n kind = some m) (d : Nat) :
    Frame.after ⟨c, d, b + n⟩ kind = ⟨c, d, b + m⟩ := by
  by_cases hc : c = .labeledAlternative
  · subst hc
    rcases Category.passParen_labeledAlternative h with ⟨rfl, rfl⟩ | ⟨rfl, rfl⟩ | ⟨ho, hr, rfl⟩
    · rfl
    · rfl
    · simp [after, parenDepthAfter, ho, hr]
  · -- nothing is open, and nothing is counted
    obtain rfl := hb hc
    rw [Category.passParen, if_neg hc, Option.ite_none_left_eq_some, Option.ite_none_right_eq_some,
      Option.some.injEq] at h
    obtain ⟨-, rfl, rfl⟩ := h
    cases c <;> simp_all [after, parenDepthAfter]

section Leaves

variable {r : Rules} {s : Stream} {parent : NodeKind} {c : Category} {d b n m : Nat} {gs : Frames}
  {es : List Event} {t : Token}

/-- A leaf that passes is counted. -/
theorem Formatter.Counts.leaf {f : Formatter} {e : Event} (he : e = .token t ∨ e = .stray t)
    (hf : f.frames = ⟨c, d, b + n⟩ :: gs) (hb : c ≠ .labeledAlternative → b = 0)
    (hp : c.passParen parent n t.kind = some m) :
    Counts f ⟨c, d, b + n⟩ gs [e] [] (b + m) where
  frames := by
    have hstep : (f.step e).frames = f.frames.after t.kind := by
      rcases he with rfl | rfl
      · exact f.frames_leaf t
      · exact frames_leaf _ t
    refine hstep.trans ?_
    rw [hf, Frames.after, Frame.after_of_passParen hb hp]
    rfl
  top _ := by rcases he with rfl | rfl <;> exact iff_of_true rfl rfl
  parens hc := by
    obtain rfl : c = .labeledAlternative := hc
    have hkinds : outerKinds 0 [e] = [t.kind] := by rcases he with rfl | rfl <;> rfl
    rw [hkinds]
    rcases Category.passParen_labeledAlternative hp with ⟨hk, rfl⟩ | ⟨hk, rfl⟩ | ⟨ho, hr, rfl⟩
    · rw [hk]
      rfl
    · rw [hk]
      rfl
    · simp [ho, hr]

/-- A leaf that passes fits. -/
theorem Stop.Fits.leaf
    (hf : (Formatter.run { rules := r, stream := s } es).frames = ⟨c, d, b + n⟩ :: gs)
    (hp : c.passParen parent n t.kind = some m) :
    Stop.Fits r s ⟨c, d, b + n⟩ gs es ⟨es, some parent, t⟩ where
  bar (hk : t.kind = .bar) := by
    have hplaces : c.placesBar parent n = true := by
      rw [hk, Category.passParen, Option.ite_none_left_eq_some] at hp
      simpa using hp.1
    have hplan : Stop.plan ⟨es, some parent, t⟩ r s = Frame.plan ⟨c, d, b + n⟩ .bar t.text := by
      rw [Stop.plan, Stop.arrival, hf, hk]
      rfl
    rw [hplan, Frame.newLine_mem_plan_iff hplaces, Option.some.injEq]
  counts := by
    refine ⟨[], [], b + n, (List.append_nil es).symm, .nil hf, fun hc _ hk ↦ ?_⟩
    obtain rfl : c = .labeledAlternative := hc
    rcases Category.passParen_labeledAlternative hp with ⟨ho, -⟩ | ⟨-, rfl⟩ | ⟨-, hr, -⟩
    · exact absurd (ho.symm.trans hk) (by decide)
    · omega
    · exact absurd hk hr

/-- A tree that is a leaf that passes. -/
theorem Paced.leaf {tree : Tree} (htree : tree = .leaf t.index ∨ tree = .stray t.index)
    (ht : s.get? t.index = some t)
    (hf : (Formatter.run { rules := r, stream := s } es).frames = ⟨c, d, b + n⟩ :: gs)
    (hb : c ≠ .labeledAlternative → b = 0) (hp : c.passParen parent n t.kind = some m) :
    Paced r s (some parent) ⟨c, d, b + n⟩ gs es [tree] (b + m) := by
  have hstops : tree.stops s es (some parent) = [⟨es, some parent, t⟩] := by
    rcases htree with rfl | rfl <;> simp [Tree.stops, ht]
  have hvisits : tree.visits s es c = [] := by
    rcases htree with rfl | rfl <;> rfl
  obtain ⟨e, hevents, he⟩ : ∃ e, tree.events s = [e] ∧ (e = .token t ∨ e = .stray t) := by
    rcases htree with rfl | rfl
    · exact ⟨.token t, by simp [Tree.events, ht], .inl rfl⟩
    · exact ⟨.stray t, by simp [Tree.events, ht], .inr rfl⟩
  refine ⟨?_, ?_, ?_⟩
  · rw [Tree.stopsAll_singleton, hstops, List.forall_mem_singleton]
    exact .leaf hf hp
  · rw [Tree.eventsAll, Tree.eventsAll, List.append_nil, hevents]
    exact .leaf he hf hb hp
  · rw [Tree.visitsAll, Tree.visitsAll, hvisits]
    exact fun _ hv ↦ absurd hv List.not_mem_nil

end Leaves

/-! ### Patterns -/

namespace Pattern

open Production

/-- The parentheses open above some base after what a pattern describes, if it is read with `n` open
right inside a construct of the category `c`, in a node of the kind `parent`. It is given only if it
is the same for everything that the pattern describes, every leaf passes, and only actions and
blocks of options have a frame of their own in an alternative. -/
def parens : Pattern → Category → NodeKind → Nat → Option Nat
  | token [], _, _, _ => none
  | token (k :: ks), c, parent, n =>
    if ks.all (c.passParen parent n · = c.passParen parent n k) then c.passParen parent n k
    else none
  | stray, c, parent, n | strayEnd, c, parent, n =>
    if c = .labeledAlternative then none else c.passParen parent n .bar
  | seq p q, c, parent, n => (p.parens c parent n).bind (q.parens c parent)
  | alt p q, c, parent, n =>
    if p.parens c parent n = q.parens c parent n then p.parens c parent n else none
  | opt p, c, parent, n | many p, c, parent, n =>
    if p.parens c parent n = some n then some n else none
  | node kind p, c, _, n =>
    if kind.category.ownsFrame then
      if p.parens kind.category kind 0 = some 0 ∧ (c = .labeledAlternative → kind.isEmbedded) then
        some n
      else none
    else p.parens c kind n
  | nested .parserBlock, c, _, n => if c = .labeledAlternative then some n else none
  | nested .lexerBlock, c, _, n => if c = .lexerRuleSpec ∧ n = 0 then some 0 else none

theorem passParen_of_mem {kinds : List Kind} {kind : Kind} (hk : kind ∈ kinds) {c : Category}
    {parent : NodeKind} {n m : Nat} (h : (token kinds).parens c parent n = some m) :
    c.passParen parent n kind = some m := by
  cases kinds with
  | nil => exact absurd hk List.not_mem_nil
  | cons k ks =>
    rw [parens, Option.ite_none_right_eq_some] at h
    rcases List.mem_cons.1 hk with rfl | hk
    · exact h.2
    · exact (of_decide_eq_true (List.all_eq_true.1 h.1 kind hk)).trans h.2

/-- **The parentheses of a sub-rule** pair up, in whatever node it is. The check starts at zero, and
counting is the same above any base. -/
theorem parens_ofNest {nest : Nest} {c : Category} {parent : NodeKind} {n m : Nat}
    (h : (nested nest).parens c parent n = some m) :
    m = n ∧ (ofNest nest).parens c parent 0 = some 0 ∧ (c ≠ .labeledAlternative → n = 0) := by
  cases nest with
  | parserBlock =>
    have hblock : block.parens .labeledAlternative .block 0 = some 0 := by decide +kernel
    rw [parens, Option.ite_none_right_eq_some, Option.some.injEq] at h
    obtain ⟨rfl, rfl⟩ := h
    exact ⟨rfl, hblock, fun hc ↦ absurd rfl hc⟩
  | lexerBlock =>
    have hblock : lexerBlock.parens .lexerRuleSpec .lexerBlock 0 = some 0 := by decide +kernel
    rw [parens, Option.ite_none_right_eq_some, Option.some.injEq] at h
    obtain ⟨⟨rfl, rfl⟩, rfl⟩ := h
    exact ⟨rfl, hblock, fun _ ↦ rfl⟩

/-- **Patterns that follow the parentheses** are paced, from whatever base. The induction is on
derivations, since the trees are put together as the derivation is; the base is the count with which
the walk comes to the pattern. -/
theorem Derives.paced {r : Rules} {s : Stream} {p : Pattern} {us : List Token} {ts : List Tree}
    (h : Derives p us ts) (hs : ∀ t ∈ us, s.get? t.index = some t) {c : Category}
    {parent : NodeKind} {d b n m : Nat} {gs : Frames} {es : List Event}
    (hb : c ≠ .labeledAlternative → b = 0) (hp : p.parens c parent n = some m)
    (hf : (Formatter.run { rules := r, stream := s } es).frames = ⟨c, d, b + n⟩ :: gs) :
    Paced r s (some parent) ⟨c, d, b + n⟩ gs es ts (b + m) := by
  induction h generalizing c parent d b n m gs es with
  | token hk => exact .leaf (.inl rfl) (hs _ (by simp)) hf hb (passParen_of_mem hk hp)
  | @stray t | @strayEnd t =>
    rw [parens, Option.ite_none_left_eq_some] at hp
    exact .leaf (.inr rfl) (hs _ (by simp)) hf hb (Category.passParen_of_bar hp.1 hp.2 t.kind)
  | seq _ _ ihp ihq =>
    obtain ⟨hus, hvs⟩ := List.forall_mem_append.1 hs
    obtain ⟨k, hp, hq⟩ := Option.bind_eq_some_iff.1 hp
    have hfirst := ihp hus hb hp hf
    have hframes := hfirst.counts.frames
    rw [← Follows.run_append] at hframes
    exact hfirst.append (ihq hvs hb hq hframes)
  | altLeft _ ih =>
    rw [parens, Option.ite_none_right_eq_some] at hp
    exact ih hs hb hp.2 hf
  | altRight _ ih =>
    rw [parens, Option.ite_none_right_eq_some] at hp
    exact ih hs hb (hp.1 ▸ hp.2) hf
  | optNone | manyNil =>
    rw [parens, Option.ite_none_right_eq_some, Option.some.injEq] at hp
    obtain ⟨-, rfl⟩ := hp
    exact .nil hf
  | optSome _ ih =>
    rw [parens, Option.ite_none_right_eq_some] at hp
    exact ih hs hb (hp.1.trans hp.2) hf
  | manyCons _ _ ihp ihq =>
    obtain ⟨hus, hvs⟩ := List.forall_mem_append.1 hs
    have hround := hp
    rw [parens, Option.ite_none_right_eq_some] at hround
    have hfirst := ihp hus hb hround.1 hf
    have hframes := hfirst.counts.frames
    rw [← Follows.run_append] at hframes
    exact hfirst.append (ihq hvs hb hp hframes)
  | @node kind _ _ _ _ ih =>
    rw [parens] at hp
    cases hown : kind.category.ownsFrame with
    | true =>
      rw [hown, if_pos rfl, Option.ite_none_right_eq_some, Option.some.injEq] at hp
      obtain ⟨⟨hin, hemb⟩, rfl⟩ := hp
      refine .own hown _ hf hemb (ih hs (b := 0) (fun _ ↦ rfl) hin ?_)
      rw [Follows.run_append]
      refine (Formatter.keeps_enter_of_ownsFrame _ hown _).frames.trans ?_
      rw [← hf]
      rfl
    | false =>
      have he : kind.category.entry = .inherit := by simpa [Category.ownsFrame] using hown
      rw [hown, if_neg (by simp)] at hp
      refine .inherit he _ hf (ih hs hb hp ?_)
      rw [Follows.run_append]
      exact (Formatter.keeps_enter _ he _).frames.trans hf
  | nested _ ih =>
    -- a sub-rule starts at the count of its place, and comes back to it
    obtain ⟨rfl, hnest, hn⟩ := parens_ofNest hp
    exact ih hs (b := b + m) (n := 0) (fun hc ↦ by rw [hb hc, hn hc]) hnest hf

end Pattern

/-! ### Whole grammars -/

/-- **A bar starts a new line exactly if it separates alternatives of a parser rule.** The plan that
a formatter runs for a bar of a source that can be read has a line break in it exactly if the bar is
a child of a list of such alternatives. For at every leaf in such an alternative, the parentheses
open in its frame are those opened since it was entered without those closed, outside actions and
blocks of options; none closes more than is open; and none is open where the alternative is left. -/
theorem bar_breaks_iff {source : String} {tree : Tree} (h : parse (tokenize source) = .ok tree)
    (r : Rules) :
    (∀ w ∈ tree.stops (tokenize source) [] none, w.token.kind = .bar →
      (.newLine ∈ w.plan r (tokenize source) ↔ w.parent = some .ruleAltList)) ∧
    ∀ v ∈ tree.visits (tokenize source) [] .other, v.node.kind = .labeledAlt →
      v.IsBalanced r (tokenize source) := by
  have hs : ∀ t ∈ (tokenize source).mainTokens, (tokenize source).get? t.index = some t :=
    fun t ht ↦ Stream.get?_of_mem (List.mem_of_mem_filter ht)
  have hbody : ∃ body, Production.grammarSpec = .node .grammarSpec body ∧
      body.parens .grammarSpec .grammarSpec 0 = some 0 := ⟨_, rfl, by decide +kernel⟩
  obtain ⟨body, hspec, hbody⟩ := hbody
  have hgrammar := derives_of_parse h
  rw [hspec] at hgrammar
  obtain ⟨ts, hts, hd⟩ := hgrammar.of_node
  obtain rfl := (List.cons.inj hts).1
  have hown : NodeKind.grammarSpec.category.ownsFrame = true := rfl
  have hframes : (Formatter.run { rules := r, stream := tokenize source }
      [.enter .grammarSpec (Tree.spanOf? ts)]).frames = [⟨.grammarSpec, 0, 0⟩] :=
    (Formatter.keeps_enter_of_ownsFrame _ hown _).frames
  obtain ⟨hstops, -, halts⟩ := hd.paced (b := 0) hs (fun _ ↦ rfl) hbody hframes
  refine ⟨fun w hw ↦ (hstops w hw).bar, fun v hv ↦ ?_⟩
  rw [Tree.ofChildren, Tree.visits, List.mem_cons] at hv
  rcases hv with rfl | hv
  · exact fun (hk : NodeKind.grammarSpec = .labeledAlt) ↦ absurd hk (by decide)
  · exact halts v hv

/-- One bar between alternatives, and four elsewhere: in a sub-rule with options, in a negated set,
in what cannot be read, and in a lexer rule of a mode. -/
theorem one_of_five_bars_breaks :
    ∃ s tree, s = tokenize ("grammar G;\nr : (options \x7b k = v; \x7d : b | ~(C | D)) " ++
        "\x7b (|) \x7d # l | c ;\n| x ( ;\nmode M;\nE : 'e' | 'f';") ∧
      parse s = .ok tree ∧
      (tree.stops s [] none).countP (fun w ↦ w.token.kind = .bar) = 5 ∧
      (tree.stops s [] none).countP (fun w ↦
        w.token.kind = .bar ∧ .newLine ∈ w.plan Rules.standard s) = 1 ∧
      ∃ v ∈ tree.visits s [] .other, v.node.kind = .labeledAlt ∧
        (v.stops s).countP (fun w ↦ w.token.kind = .rparen) = 2 ∧
        v.IsBalanced Rules.standard s := by
  have ht : parsesTo ("grammar G;\nr : (options \x7b k = v; \x7d : b | ~(C | D)) " ++
      "\x7b (|) \x7d # l | c ;\n| x ( ;\nmode M;\nE : 'e' | 'f';") (fun s tree ↦
        decide ((tree.stops s [] none).countP (fun w ↦ w.token.kind = .bar) = 5 ∧
          (tree.stops s [] none).countP (fun w ↦
            w.token.kind = .bar ∧ w.parent = some .ruleAltList) = 1) &&
        (tree.visits s [] .other).any fun v ↦ v.node.kind = .labeledAlt ∧
          (v.stops s).countP (fun w ↦ w.token.kind = .rparen) = 2) = true := by
    decide +kernel
  obtain ⟨tree, hp, hboth⟩ := exists_of_parsesTo ht
  obtain ⟨hcounts, hany⟩ := Bool.and_eq_true_iff.1 hboth
  obtain ⟨hbars, hbetween⟩ := of_decide_eq_true hcounts
  obtain ⟨v, hv, htest⟩ := List.any_eq_true.1 hany
  obtain ⟨hk, hclosed⟩ := of_decide_eq_true htest
  obtain ⟨hbreaks, hbalanced⟩ := bar_breaks_iff hp Rules.standard
  refine ⟨_, tree, rfl, hp, hbars, ?_, v, hv, hk, hclosed, hbalanced v hv hk⟩
  rw [← hbetween]
  refine List.countP_congr fun w hw ↦ ?_
  rw [decide_eq_true_iff, decide_eq_true_iff]
  exact and_congr_right (hbreaks w hw)

end GrammarLayout
