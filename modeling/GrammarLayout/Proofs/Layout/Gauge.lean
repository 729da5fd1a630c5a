import GrammarLayout.Proofs.Layout.Delivery
import GrammarLayout.Proofs.Layout.Diagnostics
import GrammarLayout.Proofs.Layout.Frames

/-!
# Depth and warnings of a walk

How deep a layout is and what it has warned of (`Gauge`) depends on very little of the formatter.
Leaves go deeper or less deep by their kind and by the construct they stand right inside
(`Category.opens`, `Category.closes`), and a construct that is left goes back to the depth at which
it was entered. The stack of frames is only how the formatter remembers these depths and categories:
over a tree, both are known from the tree itself. So the gauge of a run is computed by recursion on
the tree, without a stack (`Tree.settle`), and the two agree for every tree whatsoever
(`Formatter.gauge_run`). Everything about depths and warnings is proved of the former.

The first consequence needs no more than that: every walk ends where it began
(`walk_ends_where_it_began`). Nothing is asked of the tree, nor of the stream.

Three facts make the recursion agree with the run. A plan depends on the category of the construct
and the kind of the leaf, and what it does to the depth is one of three things (`Frame.foldl_plan`).
The construct that is active inside a node is the node itself, if it has a frame, and otherwise the
one around (`Category.within`). And a frame that is taken off holds the depth at which it was
pushed, which is the one the recursion carries (`Formatter.gauge_leave_of_ownsFrame`), because no
tree reaches below the frame on top.
-/

namespace GrammarLayout

/-! ### Gauges -/

/-- Whether a leaf goes one level deeper, right inside a construct of this category. -/
def Category.opens : Category → Kind → Bool
  | optionsSpec, k | tokensSpec, k | channelsSpec, k | modeSpec, k => k == .lbrace
  | ruleSpec, k | lexerRuleSpec, k => k == .colon
  | _, _ => false

/-- Whether a leaf goes one level less deep, right inside a construct of this category. -/
def Category.closes : Category → Kind → Bool
  | optionsSpec, k | tokensSpec, k | channelsSpec, k | modeSpec, k => k == .rbrace
  | ruleSpec, k | lexerRuleSpec, k | labeledAlternative, k => k == .semi
  | _, _ => false

/-- The category whose rules apply inside a node of the category `inner` that stands right inside a
construct of the category `outer`. -/
def Category.within (inner outer : Category) : Category := if inner.ownsFrame then inner else outer

/-- How deep a layout is, and what it has warned of. -/
@[ext] structure Gauge where
  /-- The depth. -/
  depth : Nat
  /-- The warnings, in order. -/
  warnings : List Notice

namespace Gauge

/-- Runs one step of a plan. -/
def runOp (g : Gauge) : LayoutOp → Gauge
  | .indent => { g with depth := g.depth + 1 }
  | .dedent => ⟨g.depth - 1, g.warnings ++ if g.depth = 0 then [.belowZero] else []⟩
  | .newLine | .emit => g

/-- Passes a leaf right inside a construct of the category `c`. -/
def turn (c : Category) (g : Gauge) (kind : Kind) : Gauge :=
  if c.opens kind then g.runOp .indent else if c.closes kind then g.runOp .dedent else g

/-- Goes back to the depth at which a construct was entered. -/
def restore (g : Gauge) (saved : Nat) : Gauge :=
  ⟨saved, g.warnings ++ if g.depth = saved then [] else [.drifted saved g.depth]⟩

/-- Comes to a node: a recovered region is warned of. -/
def approach (s : Stream) (kind : NodeKind) (span : Option Span) (g : Gauge) : Gauge :=
  if kind = .recovered then { g with warnings := g.warnings ++ [.unreadable (s.lineAt span)] }
  else g

@[simp] theorem depth_approach (s : Stream) (kind : NodeKind) (span : Option Span) (g : Gauge) :
    (g.approach s kind span).depth = g.depth := by
  unfold approach
  split <;> rfl

end Gauge

mutual

/-- The gauge after walking a tree that stands right inside a construct of the category `c`. -/
def Tree.settle (s : Stream) (c : Category) : Tree → Gauge → Gauge
  | .leaf i, g | .stray i, g => (s.get? i).elim g fun t ↦ g.turn c t.kind
  | .node kind span children, g =>
    let settled := Tree.settleAll s (kind.category.within c) children (g.approach s kind span)
    if kind.category.ownsFrame then settled.restore g.depth else settled

/-- The gauge after walking trees one after the other. -/
def Tree.settleAll (s : Stream) (c : Category) : List Tree → Gauge → Gauge
  | [], g => g
  | t :: ts, g => Tree.settleAll s c ts (t.settle s c g)

end

/-- Trees side by side. -/
theorem Tree.settleAll_append (s : Stream) (c : Category) (ts ts' : List Tree) (g : Gauge) :
    settleAll s c (ts ++ ts') g = settleAll s c ts' (settleAll s c ts g) := by
  induction ts generalizing g with
  | nil => rfl
  | cons t ts ih => rw [List.cons_append, settleAll, ih, settleAll]

theorem Tree.settleAll_singleton (s : Stream) (c : Category) (t : Tree) (g : Gauge) :
    settleAll s c [t] g = t.settle s c g := rfl

/-- A leaf at a token of the stream. -/
theorem Tree.settle_leaf {s : Stream} {t : Token} (h : s.get? t.index = some t) (c : Category)
    (g : Gauge) : settle s c (.leaf t.index) g = g.turn c t.kind := by
  rw [settle, h]
  rfl

/-- A node whose children come back to the depth at which it was entered is left without a
warning. -/
theorem Tree.settle_node_of_depth {s : Stream} {c : Category} {kind : NodeKind}
    (hk : kind ≠ .recovered) {ts : List Tree} {g g' : Gauge}
    (h : settleAll s (kind.category.within c) ts g = g') (hd : g'.depth = g.depth) :
    (ofChildren kind ts).settle s c g = g' := by
  rw [ofChildren, settle, Gauge.approach, if_neg hk, h]
  split
  · exact Gauge.ext hd.symm (by simp [Gauge.restore, hd])
  · rfl

/-- A node without a frame of its own is laid out as its children are. -/
theorem Tree.settle_node_of_inherit {s : Stream} {c : Category} {kind : NodeKind}
    (hown : kind.category.ownsFrame = false) (hk : kind ≠ .recovered) (ts : List Tree) (g : Gauge) :
    (ofChildren kind ts).settle s c g = settleAll s c ts g := by
  rw [ofChildren, settle, Gauge.approach, if_neg hk, Category.within, hown]
  rfl

/-- Recovered regions have no frame of their own. -/
theorem NodeKind.ne_recovered_of_ownsFrame {kind : NodeKind}
    (h : kind.category.ownsFrame = true) : kind ≠ .recovered := by
  rintro rfl
  exact absurd h (by decide)

theorem Category.within_of_ownsFrame {inner : Category} (h : inner.ownsFrame = true)
    (outer : Category) : inner.within outer = inner := if_pos h

/-! ### The gauge of a formatter -/

/-- A plan does to the gauge what its category and the kind of the leaf say. -/
theorem Frame.foldl_plan (fr : Frame) (kind : Kind) (text : String) (g : Gauge) :
    (fr.plan kind text).foldl Gauge.runOp g = g.turn fr.category kind := by
  obtain ⟨category, saved, parens⟩ := fr
  cases category with
  | optionsSpec | tokensSpec | channelsSpec | modeSpec => cases kind <;> rfl
  | ruleSpec | lexerRuleSpec | grammarSpec => cases kind <;> rfl
  | grammarType | other => cases kind <;> rfl
  | labeledAlternative =>
    cases kind with
    | bar => cases parens <;> rfl
    | _ => rfl
  | actionBlock =>
    unfold plan
    split
    · rfl
    · dsimp only
      split <;> rfl

/-- Outside all constructs a plan does nothing to the gauge. -/
theorem Frames.foldl_plan (fs : Frames) (kind : Kind) (text : String) (g : Gauge) :
    (fs.plan kind text).foldl Gauge.runOp g = g.turn fs.active kind := by
  cases fs with
  | nil => rfl
  | cons fr fs => exact fr.foldl_plan kind text g

namespace Formatter

variable {s : Stream}

/-- The gauge of a layout in progress. -/
def gauge (f : Formatter) : Gauge := ⟨f.indent.depth, f.warnings⟩

theorem Writes.gauge {f f' : Formatter} (h : Writes f f') : f'.gauge = f.gauge := by
  rw [Formatter.gauge, h.indent, h.warnings]
  rfl

/-- A step of a plan does to the gauge what it does to the formatter. -/
theorem gauge_runOp (text : String) (f : Formatter) (op : LayoutOp) :
    (f.runOp text op).gauge = f.gauge.runOp op := by
  cases op with
  | newLine => exact (writes_lineBreak f).gauge
  | emit => exact (writes_emit f text).gauge
  | indent => rfl
  | dedent =>
    refine Gauge.ext rfl (warnings_noteAll f fun n hn ↦ ?_)
    rw [Indent.decrementNotices] at hn
    split at hn
    · rw [List.mem_singleton.1 hn]
      rfl
    · exact absurd hn List.not_mem_nil

/-- **A leaf** turns the gauge by its kind and by the construct it stands right inside. -/
theorem gauge_leaf (f : Formatter) (t : Token) :
    (f.leaf t).gauge = f.gauge.turn f.frames.active t.kind := by
  have hcomments := writes_writeComments f f.frames.active
    (f.marks.flushBefore f.rules f.stream t.index)
  rw [leaf]
  generalize f.writeComments _ _ = g at hcomments
  have hops : ∀ (ops : List LayoutOp) (h : Formatter),
      (ops.foldl (runOp t.text) h).gauge = ops.foldl Gauge.runOp h.gauge := fun ops h ↦
    (List.foldl_hom gauge fun h op ↦ (gauge_runOp t.text h op).symm).symm
  rw [(writes_note _ rfl).gauge, hops, Frames.foldl_plan, ← hcomments.frames, ← hcomments.gauge]
  rfl

/-- Entering a node warns of it if it is a recovered region, and changes no depth. -/
theorem gauge_enter (f : Formatter) (kind : NodeKind) (span : Option Span) :
    (f.enter kind span).gauge = f.gauge.approach f.stream kind span := by
  have hin := (writes_note f (n := .entered kind) rfl).trans
    (writes_commentsBefore _ kind.category span)
  have hpush : ∀ g : Formatter, (g.pushFrame kind.category).gauge = g.gauge := by
    intro g
    rw [pushFrame]
    cases kind.category.entry with
    | block => exact (writes_lineBreak _).gauge
    | inline | inherit => rfl
  rw [enter, hpush]
  generalize (f.note (.entered kind)).commentsBefore kind.category span = g at hin
  rw [← hin.gauge, ← hin.stream, reportRecovered, Gauge.approach]
  split
  · refine Gauge.ext rfl ?_
    simp [gauge, warnings, note, Notice.isWarning, Notice.level, Stream.lineAt]
  · rfl

theorem gauge_leave (f : Formatter) {kind : NodeKind} (h : kind.category.ownsFrame = false)
    (span : Option Span) : (f.leave kind span).gauge = f.gauge := by
  rw [leave, (writes_note _ rfl).gauge, popFrame, h, if_neg (by simp)]
  exact (writes_commentsAfter f _ span).gauge

/-- Leaving a node with a frame of its own goes back to the depth it was entered at. -/
theorem gauge_leave_of_ownsFrame (f : Formatter) {kind : NodeKind}
    (h : kind.category.ownsFrame = true) (span : Option Span) {g : Frame} {gs : Frames}
    (hf : f.frames = g :: gs) : (f.leave kind span).gauge = f.gauge.restore g.savedIndent := by
  have hafter := writes_commentsAfter f kind.category span
  rw [leave, (writes_note _ rfl).gauge, popFrame, h, if_pos rfl, hafter.frames, hf, ← hafter.gauge]
  refine Gauge.ext rfl (warnings_noteAll _ fun n hn ↦ ?_)
  rw [Indent.restoreNotices] at hn
  split at hn
  · exact absurd hn List.not_mem_nil
  · rw [List.mem_singleton.1 hn]
    rfl

/-! ### Walks -/

theorem Inside.active {f f' : Formatter} (h : Inside f f') :
    f'.frames.active = f.frames.active := by
  have hfst := congrArg (Option.map Prod.fst) h.top
  rw [Option.map_map, Option.map_map] at hfst
  exact congrArg (Option.getD · .other) hfst

mutual

/-- **The gauge of a walk** is computed by recursion on the tree, from the category of the construct
that the tree stands right inside. -/
theorem gauge_run : ∀ (t : Tree) {f : Formatter}, f.stream = s →
    (f.run (t.events s)).gauge = t.settle s f.frames.active f.gauge
  | .leaf i, f, _ => by
    rw [Tree.events, Tree.settle]
    cases s.get? i with
    | none => rfl
    | some t => exact gauge_leaf f t
  | .stray i, f, _ => by
    rw [Tree.events, Tree.settle]
    cases s.get? i with
    | none => rfl
    | some t =>
      have hnote := writes_note f (n := .strayToken t.text) rfl
      have hleaf := gauge_leaf (f.note (.strayToken t.text)) t
      rw [hnote.frames, hnote.gauge] at hleaf
      exact hleaf
  | .node kind span children, f, hs => by
    have hin := inside_runAll s children (f.enter kind span)
    rw [run_node, Tree.settle]
    cases hown : kind.category.ownsFrame with
    | true =>
      have henter := keeps_enter_of_ownsFrame f hown span
      have hchildren := gauge_runAll children (henter.stream.trans hs)
      -- the frame on top at the end is the one pushed on entering, which holds the depth from
      -- before
      obtain ⟨g, hg, hkey⟩ := hin.exists_top henter.frames
      have hsaved : g.savedIndent = f.indent.depth := congrArg Prod.snd hkey
      rw [gauge_leave_of_ownsFrame _ hown span hg, hchildren, gauge_enter, hsaved, hs,
        henter.frames, Category.within, hown]
      rfl
    | false =>
      have he : kind.category.entry = .inherit := by simpa [Category.ownsFrame] using hown
      have henter := keeps_enter f he span
      rw [gauge_leave _ hown, gauge_runAll children (henter.stream.trans hs), gauge_enter, hs,
        henter.frames, Category.within, hown]
      rfl

/-- The gauge of walking trees one after the other. -/
theorem gauge_runAll : ∀ (ts : List Tree) {f : Formatter}, f.stream = s →
    (f.run (Tree.eventsAll s ts)).gauge = Tree.settleAll s f.frames.active ts f.gauge
  | [], f, _ => rfl
  | t :: ts, f, hs => by
    have hin := inside_run s t f
    rw [Tree.eventsAll, Follows.run_append, gauge_runAll ts (hin.stream.trans hs), gauge_run t hs,
      hin.active]
    rfl

end

end Formatter

/-! ### Where walks end -/

/-- Right inside a construct of such a category, no leaf goes deeper or less deep. -/
def Category.isLevel (c : Category) : Prop := ∀ kind, c.opens kind = false ∧ c.closes kind = false

theorem Gauge.turn_of_isLevel {c : Category} (hc : c.isLevel) (g : Gauge) (kind : Kind) :
    g.turn c kind = g := by
  rw [turn, (hc kind).1, (hc kind).2]
  rfl

mutual

/-- **Where no leaf goes deeper or less deep**, a walk ends at the depth at which it began. -/
theorem Tree.depth_settle {s : Stream} {c : Category} (hc : c.isLevel) :
    ∀ (t : Tree) (g : Gauge), (t.settle s c g).depth = g.depth
  | .leaf i, g | .stray i, g => by
    rw [settle]
    cases s.get? i with
    | none => rfl
    | some t => rw [Option.elim_some, Gauge.turn_of_isLevel hc]
  | .node kind span children, g => by
    rw [settle]
    cases hown : kind.category.ownsFrame with
    | true => rfl
    | false =>
      have hwithin : kind.category.within c = c := by rw [Category.within, hown]; rfl
      rw [hwithin]
      exact (depth_settleAll hc children _).trans (Gauge.depth_approach s kind span g)

theorem Tree.depth_settleAll {s : Stream} {c : Category} (hc : c.isLevel) :
    ∀ (ts : List Tree) (g : Gauge), (settleAll s c ts g).depth = g.depth
  | [], g => rfl
  | t :: ts, g => by
    rw [settleAll, depth_settleAll hc ts, depth_settle hc t]

end

namespace Formatter

/-- A walk over any tree leaves a formatter that is outside all constructs outside all of them, and
at its depth. -/
theorem keeps_run_of_outside {s : Stream} {f : Formatter} (hs : f.stream = s) (hf : f.frames = [])
    (t : Tree) : (f.run (t.events s)).frames = [] ∧
      (f.run (t.events s)).indent.depth = f.indent.depth := by
  have htop := (inside_run s t f).top
  rw [hf, List.head?_nil, Option.map_none, Option.map_eq_none_iff, List.head?_eq_none_iff] at htop
  refine ⟨htop, ?_⟩
  have hgauge := congrArg Gauge.depth (gauge_run t hs)
  rw [hf] at hgauge
  exact hgauge.trans (Tree.depth_settle (fun _ ↦ ⟨rfl, rfl⟩) t f.gauge)

end Formatter

open Formatter in
/-- **Every walk ends where it began.** A fresh formatter that is driven over any tree, on a sink
that takes what it is handed, ends at depth zero and outside all constructs; and from any state, a
node with a frame of its own is left inside the same constructs and at the same depth as it was
entered. A sink without a limit takes everything. -/
theorem walk_ends_where_it_began (sink : Sink) :
    (∀ (r : Rules) (s : Stream) (tree : Tree) (f : Formatter) (sink' : Sink),
      runTo { rules := r, stream := s } (tree.events s) sink = (.ok f, sink') →
        f.indent.depth = 0 ∧ f.frames = []) ∧
    (∀ (f : Formatter) (s : Stream) (kind : NodeKind) (span : Option Span) (children : List Tree)
      (f' : Formatter) (sink' : Sink), kind.category.ownsFrame = true →
        f.runTo (Tree.events s (.node kind span children)) sink = (.ok f', sink') →
          f'.indent.depth = f.indent.depth ∧ f'.frames = f.frames) ∧
    (sink.limit = none → ∀ (f : Formatter) (es : List Event), ∃ f' sink',
      f.runTo es sink = (.ok f', sink')) := by
  refine ⟨fun r s tree f sink' hrun ↦ ?_, fun f s kind span children f' sink' hown hrun ↦ ?_,
    fun hlimit f es ↦ exists_runTo f es hlimit⟩
  · obtain ⟨hframes, hdepth⟩ :=
      keeps_run_of_outside (f := { rules := r, stream := s }) rfl rfl tree
    rw [eq_run_of_runTo hrun]
    exact ⟨hdepth, hframes⟩
  · have hkeeps := keeps_run_node s f hown span children
    rw [eq_run_of_runTo hrun]
    exact ⟨hkeeps.depth, hkeeps.frames⟩

/-- A rule made by hand, with a brace, a colon, a position outside the stream and a span the wrong
way round, walked inside a tree and by itself. -/
theorem inverted_rule_is_left_as_entered :
    ∃ s, s = Stream.ofTokens #[.synthetic .lbrace "\x7b" 1, .synthetic .colon ":" 1] ∧
      (∃ f sink', Formatter.runTo { rules := Rules.standard, stream := s }
        (Tree.events s (.node .rules none
          [.node .ruleSpec (some ⟨7, 2⟩) [.leaf 1, .stray 0, .leaf 9]])) {} = (.ok f, sink') ∧
          f.indent.depth = 0 ∧ f.frames = []) ∧
      NodeKind.ruleSpec.category.ownsFrame = true ∧
      ∃ f' sink', Formatter.runTo { rules := Rules.standard, stream := s, indent := ⟨3, 4⟩ }
        (Tree.events s (.node .ruleSpec (some ⟨7, 2⟩) [.leaf 1, .stray 0, .leaf 9])) {} =
          (.ok f', sink') ∧ f'.indent.depth = 4 ∧ f'.frames = [] := by
  have hown : NodeKind.ruleSpec.category.ownsFrame = true := rfl
  obtain ⟨hfresh, hnode, hall⟩ := walk_ends_where_it_began {}
  refine ⟨_, rfl, ?_, hown, ?_⟩
  · obtain ⟨f, sink', hrun⟩ := hall rfl { rules := Rules.standard, stream := _ } (Tree.events _ _)
    exact ⟨f, sink', hrun, hfresh _ _ _ _ _ hrun⟩
  · obtain ⟨f, sink', hrun⟩ :=
      hall rfl { rules := Rules.standard, stream := _, indent := ⟨3, 4⟩ } (Tree.events _ _)
    exact ⟨f, sink', hrun, hnode _ _ _ _ _ _ _ hown hrun⟩

end GrammarLayout
