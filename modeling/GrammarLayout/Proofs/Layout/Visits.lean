import GrammarLayout.Proofs.Grammar.Regions
import GrammarLayout.Proofs.Layout.Gauge

/-!
# What a region does to the depth

A region is laid out by the rules of the construct it stands right inside, and that is the grammar
or a mode (`outer_of_region`). So it is asked at every node of a tree what the formatter has done
before it comes there, and inside which construct it is then (`Tree.visits`).

Right inside the grammar no leaf goes deeper or less deep, and a region leaves the depth as it was.
A mode shares its rules with the blocks of options, where braces do. There a region leaves the depth
as it was exactly if the braces that stand in it by themselves pair up (`bracesFrom`); if they do
not, what follows is laid out deeper or less deep, or the depth would drop below zero
(`region_keeps_depth_iff`).

The construct that a region stands right inside is a fact about the productions, found by following
a pattern down to the nodes for regions (`Pattern.regionsStand`). That it is also the construct
which is active in the formatter holds of every node of every tree (`Formatter.active_of_visit`),
because entering a node pushes a frame or leaves the construct around it in force, and leaving it
undoes that.

The rest is a computation. The gauge of the formatter, its depth and its warnings, is turned by each
token that stands in the region by itself (`gauge_departure`); actions in it are constructs of their
own and leave it alone. In a mode this is counting braces, one up and one down, with a warning at
the bottom (`Gauge.foldl_turn_modeSpec_iff`).
-/

namespace GrammarLayout

/-! ### Visits -/

/-- A node as a tree. -/
def Node.tree (n : Node) : Tree := .node n.kind n.span n.children

/-- A node that a walk comes to. -/
structure Visit where
  /-- The events before the node is entered. -/
  before : List Event
  /-- The category of the construct that the node stands right inside. -/
  outer : Category
  /-- The node. -/
  node : Node

/-- The formatter as it comes to a node. -/
def Visit.arrival (v : Visit) (r : Rules) (s : Stream) : Formatter :=
  Formatter.run { rules := r, stream := s } v.before

/-- The formatter as it has left a node. -/
def Visit.departure (v : Visit) (r : Rules) (s : Stream) : Formatter :=
  (v.arrival r s).run (v.node.tree.events s)

mutual

/-- The nodes of a tree, each before those below it, for a walk that comes to the tree after the
events `es`, right inside a construct of the category `c`. -/
def Tree.visits (s : Stream) (es : List Event) (c : Category) : Tree → List Visit
  | .leaf _ | .stray _ => []
  | .node kind span children =>
    ⟨es, c, ⟨kind, span, children⟩⟩ ::
      Tree.visitsAll s (es ++ [.enter kind span]) (kind.category.within c) children

/-- The nodes of trees one after the other. -/
def Tree.visitsAll (s : Stream) (es : List Event) (c : Category) : List Tree → List Visit
  | [] => []
  | t :: ts => t.visits s es c ++ Tree.visitsAll s (es ++ t.events s) c ts

end

namespace Tree

variable {s : Stream}

mutual

/-- Every node is visited, in the order of the tree. -/
theorem map_node_visits (es : List Event) (c : Category) :
    ∀ t : Tree, (t.visits s es c).map Visit.node = t.nodes
  | .leaf _ | .stray _ => by rw [visits, nodes, List.map_nil]
  | .node kind span children => by
    rw [visits, nodes, List.map_cons, map_node_visitsAll _ _ children]

theorem map_node_visitsAll (es : List Event) (c : Category) :
    ∀ ts : List Tree, (visitsAll s es c ts).map Visit.node = nodesAll ts
  | [] => by rw [visitsAll, nodesAll, List.map_nil]
  | t :: ts => by
    rw [visitsAll, nodesAll, List.map_append, map_node_visits _ _ t, map_node_visitsAll _ _ ts]

end

/-- Visits of trees side by side. The second part is visited after all events of the first. -/
theorem visitsAll_append (es : List Event) (c : Category) (ts ts' : List Tree) :
    visitsAll s es c (ts ++ ts') =
      visitsAll s es c ts ++ visitsAll s (es ++ eventsAll s ts) c ts' := by
  induction ts generalizing es with
  | nil => rw [eventsAll, List.append_nil]; rfl
  | cons t ts ih =>
    rw [List.cons_append, visitsAll, ih, visitsAll, eventsAll, List.append_assoc, List.append_assoc]

end Tree

namespace Formatter

/-- Entering a node makes its construct the active one, if it has a frame. -/
theorem active_enter (f : Formatter) (kind : NodeKind) (span : Option Span) :
    (f.enter kind span).frames.active = kind.category.within f.frames.active := by
  cases hown : kind.category.ownsFrame with
  | true =>
    rw [(keeps_enter_of_ownsFrame f hown span).frames, Category.within, if_pos hown]
    rfl
  | false =>
    have he : kind.category.entry = .inherit := by simpa [Category.ownsFrame] using hown
    rw [(keeps_enter f he span).frames, Category.within, hown]
    rfl

mutual

/-- **A formatter comes to a node** right inside the construct that the tree says. -/
theorem active_of_visit {f : Formatter} {s : Stream} :
    ∀ (t : Tree) {es : List Event} {c : Category}, (f.run es).frames.active = c →
      ∀ v ∈ t.visits s es c, (f.run v.before).frames.active = v.outer
  | .leaf _, _, _, _, _, hv | .stray _, _, _, _, _, hv => absurd hv List.not_mem_nil
  | .node kind span children, es, c, hc, v, hv => by
    rw [Tree.visits, List.mem_cons] at hv
    rcases hv with rfl | hv
    · exact hc
    · refine active_of_visitAll children ?_ v hv
      rw [Follows.run_append, ← hc]
      exact active_enter (f.run es) kind span

theorem active_of_visitAll {f : Formatter} {s : Stream} :
    ∀ (ts : List Tree) {es : List Event} {c : Category}, (f.run es).frames.active = c →
      ∀ v ∈ Tree.visitsAll s es c ts, (f.run v.before).frames.active = v.outer
  | [], _, _, _, _, hv => absurd hv List.not_mem_nil
  | t :: ts, es, c, hc, v, hv => by
    rw [Tree.visitsAll, List.mem_append] at hv
    rcases hv with hv | hv
    · exact active_of_visit t hc v hv
    · refine active_of_visitAll ts ?_ v hv
      rw [Follows.run_append, (inside_run s t (f.run es)).active, hc]

end

end Formatter

/-! ### Where regions stand -/

namespace Pattern

/-- Whether regions are formed only right inside the grammar or a mode, if the pattern is read right
inside a construct of the category `c`. -/
def regionsStand (c : Category) : Pattern → Bool
  | token _ | stray | strayEnd | nested _ => true
  | seq p q | alt p q => p.regionsStand c && q.regionsStand c
  | opt p | many p => p.regionsStand c
  | node kind p =>
    (kind != .recovered || c == .grammarSpec || c == .modeSpec) &&
      p.regionsStand (kind.category.within c)

/-- Regions stand where the pattern forms them. -/
theorem Derives.outer_of_visit {s : Stream} {p : Pattern} {us : List Token} {ts : List Tree}
    (h : Derives p us ts) {c : Category} (hp : p.regionsStand c = true) (es : List Event) :
    ∀ v ∈ Tree.visitsAll s es c ts, v.node.kind = .recovered →
      v.outer = .grammarSpec ∨ v.outer = .modeSpec := by
  induction h generalizing c es with
  | token | stray | strayEnd => simp [Tree.visitsAll, Tree.visits]
  | seq _ _ ihp ihq =>
    obtain ⟨hp, hq⟩ := Bool.and_eq_true_iff.1 hp
    rw [Tree.visitsAll_append, List.forall_mem_append]
    exact ⟨ihp hp es, ihq hq _⟩
  | altLeft _ ih => exact ih (Bool.and_eq_true_iff.1 hp).1 es
  | altRight _ ih => exact ih (Bool.and_eq_true_iff.1 hp).2 es
  | optNone | manyNil => simp [Tree.visitsAll]
  | optSome _ ih => exact ih hp es
  | manyCons _ _ ihp ihq =>
    rw [Tree.visitsAll_append, List.forall_mem_append]
    exact ⟨ihp hp es, ihq hp _⟩
  | @node kind _ _ _ _ ih =>
    obtain ⟨hk, hp⟩ := Bool.and_eq_true_iff.1 hp
    rw [Tree.visitsAll, Tree.visitsAll, List.append_nil, Tree.ofChildren, Tree.visits,
      List.forall_mem_cons]
    refine ⟨fun (hkind : kind = .recovered) ↦ ?_, ih hp _⟩
    subst hkind
    simpa using hk
  | nested hd _ =>
    -- sub-rules form no region at all
    intro v hv hkind
    have hmem : v.node ∈ Tree.nodesAll _ :=
      Tree.map_node_visitsAll (s := s) es c _ ▸ List.mem_map_of_mem hv
    exact absurd hkind
      (hd.kind_ne_of_formsNo (formsNo_ofNest (by decide)) (formsNo_ofNest (by decide) _) _ hmem)

end Pattern

/-- **A region stands right inside the grammar or right inside a mode.** -/
theorem outer_of_region {s : Stream} {tree : Tree} (h : parse s = .ok tree) {v : Visit}
    (hv : v ∈ tree.visits s [] .other) (hk : v.node.kind = .recovered) :
    v.outer = .grammarSpec ∨ v.outer = .modeSpec := by
  have hstand : Production.grammarSpec.regionsStand .other = true := by decide +kernel
  exact (derives_of_parse h).outer_of_visit hstand [] v
    (by rwa [Tree.visitsAll, Tree.visitsAll, List.append_nil]) hk

/-! ### Braces -/

/-- The depth after tokens, if every opening brace goes deeper and every closing one less deep;
nothing if there is a closing brace at depth zero. -/
def bracesFrom : (depth : Nat) → List Kind → Option Nat
  | d, [] => some d
  | d, k :: ks =>
    if k = .lbrace then bracesFrom (d + 1) ks
    else if k = .rbrace then if d = 0 then none else bracesFrom (d - 1) ks
    else bracesFrom d ks

namespace Gauge

/-- Warnings are only added. -/
theorem prefix_turn (c : Category) (g : Gauge) (kind : Kind) :
    g.warnings <+: (g.turn c kind).warnings := by
  unfold turn
  split
  · exact List.prefix_rfl
  · split
    · exact List.prefix_append _ _
    · exact List.prefix_rfl

theorem prefix_foldl_turn (c : Category) (kinds : List Kind) (g : Gauge) :
    g.warnings <+: (kinds.foldl (turn c) g).warnings := by
  induction kinds generalizing g with
  | nil => exact List.prefix_rfl
  | cons kind kinds ih => exact (prefix_turn c g kind).trans (ih (g.turn c kind))

/-- **Braces in a mode**: the depth afterwards is counted from them, and nothing is warned of,
exactly if no brace closes more than is open. -/
theorem foldl_turn_modeSpec_iff {kinds : List Kind} {g : Gauge} {d : Nat} :
    kinds.foldl (turn .modeSpec) g = ⟨d, g.warnings⟩ ↔ bracesFrom g.depth kinds = some d := by
  induction kinds generalizing g with
  | nil =>
    rw [List.foldl_nil, bracesFrom, Option.some.injEq]
    exact ⟨fun h ↦ congrArg depth h, fun h ↦ Gauge.ext h rfl⟩
  | cons kind kinds ih =>
    rw [List.foldl_cons, bracesFrom, turn]
    by_cases hopen : kind = .lbrace
    · rw [if_pos (by simp [Category.opens, hopen]), if_pos hopen]
      exact ih (g := g.runOp .indent)
    rw [if_neg (by simp [Category.opens, hopen]), if_neg hopen]
    by_cases hclose : kind = .rbrace
    · rw [if_pos (by simp [Category.closes, hclose]), if_pos hclose]
      by_cases hzero : g.depth = 0
      · -- the warning that is given here stays
        rw [if_pos hzero]
        refine ⟨fun h ↦ ?_, fun h ↦ absurd h (by simp)⟩
        have hlen := (prefix_foldl_turn .modeSpec kinds (g.runOp .dedent)).length_le
        rw [h, runOp, if_pos hzero, List.length_append] at hlen
        exact absurd hlen (by simp)
      · rw [if_neg hzero]
        have hdedent : g.runOp .dedent = ⟨g.depth - 1, g.warnings⟩ := by
          rw [runOp, if_neg hzero, List.append_nil]
        rw [hdedent]
        exact ih (g := ⟨g.depth - 1, g.warnings⟩)
    · rw [if_neg (by simp [Category.closes, hclose]), if_neg hclose]
      exact ih

/-- Where no token changes the depth, none of them warns. -/
theorem foldl_turn_of_isLevel {c : Category} (hc : c.isLevel) (kinds : List Kind) (g : Gauge) :
    kinds.foldl (turn c) g = g := by
  induction kinds with
  | nil => rfl
  | cons kind kinds ih => rw [List.foldl_cons, turn_of_isLevel hc, ih]

end Gauge

/-! ### The gauge of a region -/

/-- The kind of a token that stands in a region by itself. -/
def Tree.strayKind? (s : Stream) : Tree → Option Kind
  | .stray i => (s.get? i).map Token.kind
  | _ => none

/-- The kinds of the tokens that stand in a region by themselves. -/
def Node.strayKinds (s : Stream) (n : Node) : List Kind := n.children.filterMap (·.strayKind? s)

/-- Leaves in such a construct leave the gauge as it was. -/
theorem Tree.settleAll_leaves {s : Stream} {c : Category} (hc : c.isLevel) (us : List Token)
    (g : Gauge) : settleAll s c (us.map (.leaf ·.index)) g = g := by
  induction us with
  | nil => rfl
  | cons t us ih =>
    have hleaf : settle s c (.leaf t.index) g = g := by
      rw [settle]
      cases s.get? t.index with
      | none => rfl
      | some t => exact Gauge.turn_of_isLevel hc g t.kind
    rw [List.map_cons, settleAll, hleaf, ih]

/-- An action leaves the gauge as it was. -/
theorem settle_actionTree (s : Stream) (c : Category) (b : Token) (cs : List Token) (e : Token)
    (g : Gauge) : (actionTree b cs e).settle s c g = g := by
  have hlevel : Category.actionBlock.isLevel := fun _ ↦ ⟨rfl, rfl⟩
  exact Tree.settle_node_of_depth (by decide) (Tree.settleAll_leaves hlevel _ g) rfl

/-- The gauge is turned by the pieces that are no actions. -/
theorem Pieces.settleAll {after vs : List Token} {ts : List Tree} (h : Pieces after vs ts)
    (s : Stream) (c : Category) (g : Gauge) :
    Tree.settleAll s c ts g = (ts.filterMap (·.strayKind? s)).foldl (Gauge.turn c) g := by
  induction h generalizing g with
  | nil => rfl
  | @stray t vs ts _ _ ih =>
    rw [Tree.settleAll, ih, List.filterMap_cons, Tree.settle, Tree.strayKind?]
    cases s.get? t.index <;> rfl
  | action _ _ _ _ ih =>
    rw [Tree.settleAll, ih, settle_actionTree]
    rfl

/-- **The gauge of a region** is turned by the tokens that stand in it by themselves. -/
theorem Region.settleAll {after vs : List Token} {ts : List Tree} (h : Region after vs ts)
    (s : Stream) (c : Category) (g : Gauge) :
    Tree.settleAll s c ts g = (ts.filterMap (·.strayKind? s)).foldl (Gauge.turn c) g := by
  cases h with
  | @closed e vs ts hp _ =>
    rw [Tree.settleAll_append, hp.settleAll, List.filterMap_append, List.foldl_append,
      Tree.settleAll, Tree.settleAll, Tree.settle, List.filterMap_cons, Tree.strayKind?]
    cases s.get? e.index <;> rfl
  | cut hp _ _ => exact hp.settleAll s c g

/-- A node of a region is left at a gauge that is turned by the tokens in it. -/
theorem gauge_departure {source : String} {tree : Tree} (h : parse (tokenize source) = .ok tree)
    (r : Rules) {v : Visit} (hv : v ∈ tree.visits (tokenize source) [] .other)
    (hk : v.node.kind = .recovered) :
    (v.departure r (tokenize source)).gauge =
      (v.node.strayKinds (tokenize source)).foldl (Gauge.turn v.outer)
        ⟨(v.arrival r (tokenize source)).indent.depth,
          (v.arrival r (tokenize source)).warnings ++
            [.unreadable ((tokenize source).lineAt v.node.span)]⟩ := by
  have hactive : (v.arrival r (tokenize source)).frames.active = v.outer :=
    Formatter.active_of_visit tree rfl v hv
  have hstream : (v.arrival r (tokenize source)).stream = tokenize source :=
    Formatter.stream_run _ _
  have hmem : v.node ∈ tree.findAll .recovered := by
    refine List.mem_filter.2 ⟨?_, by simp [hk]⟩
    rw [← Tree.map_node_visits [] .other tree]
    exact List.mem_map_of_mem hv
  obtain ⟨_, _, _, -, hregion, -⟩ := exists_region_of_parse h hmem
  rw [Visit.departure, Formatter.gauge_run _ hstream, hactive, Node.tree, Tree.settle, hk,
    hregion.settleAll]
  rfl

/-- **What a region does to the depth.** Where a formatter comes to a region of a source, it is
right inside the grammar or right inside a mode. It leaves the region at the depth at which it came
to it, having warned of nothing but the region itself, exactly if the region does not stand in a
mode or the braces that stand in it by themselves pair up. -/
theorem region_keeps_depth_iff {source : String} {tree : Tree}
    (h : parse (tokenize source) = .ok tree) (r : Rules) {v : Visit}
    (hv : v ∈ tree.visits (tokenize source) [] .other) (hk : v.node.kind = .recovered) :
    (v.outer = .grammarSpec ∨ v.outer = .modeSpec) ∧
      ((v.departure r (tokenize source)).indent.depth =
          (v.arrival r (tokenize source)).indent.depth ∧
        (v.departure r (tokenize source)).warnings =
          (v.arrival r (tokenize source)).warnings ++
            [.unreadable ((tokenize source).lineAt v.node.span)] ↔
      (v.outer = .modeSpec →
        bracesFrom (v.arrival r (tokenize source)).indent.depth
          (v.node.strayKinds (tokenize source)) =
            some (v.arrival r (tokenize source)).indent.depth)) := by
  have hgauge := gauge_departure h r hv hk
  have houter := outer_of_region h hv hk
  generalize v.departure r (tokenize source) = f' at hgauge ⊢
  generalize v.arrival r (tokenize source) = f at hgauge ⊢
  refine ⟨houter, ?_⟩
  have hkept : (f'.indent.depth = f.indent.depth ∧ f'.warnings =
      f.warnings ++ [.unreadable ((tokenize source).lineAt v.node.span)]) ↔ f'.gauge =
        ⟨f.indent.depth, f.warnings ++ [.unreadable ((tokenize source).lineAt v.node.span)]⟩ := by
    rw [Gauge.ext_iff]
    rfl
  rw [hkept, hgauge]
  rcases houter with houter | houter
  · -- right inside the grammar every token leaves the gauge as it is
    have hlevel : Category.grammarSpec.isLevel := fun _ ↦ ⟨rfl, rfl⟩
    rw [houter, Gauge.foldl_turn_of_isLevel hlevel]
    simp
  · rw [houter]
    simpa using Gauge.foldl_turn_modeSpec_iff

/-- Whether a source can be read, with tokens and a tree that pass a test. -/
def parsesTo (source : String) (test : Stream → Tree → Bool) : Bool :=
  match parse (tokenize source) with
  | .ok tree => test (tokenize source) tree
  | .error _ => false

theorem exists_of_parsesTo {source : String} {test : Stream → Tree → Bool}
    (h : parsesTo source test = true) :
    ∃ tree, parse (tokenize source) = .ok tree ∧ test (tokenize source) tree = true := by
  unfold parsesTo at h
  split at h
  · rename_i tree hp
    exact ⟨tree, hp, h⟩
  · exact absurd h (by decide)

/-- A block of tokens where a mode has no place for it, with both its braces. -/
theorem paired_braces_keep_depth :
    ∃ s tree v, s = tokenize "lexer grammar L;\nmode M;\ntokens \x7b a \x7d\n;" ∧
      parse s = .ok tree ∧ v ∈ tree.visits s [] .other ∧ v.node.kind = .recovered ∧
      v.outer = .modeSpec ∧
      (v.departure Rules.standard s).indent.depth = (v.arrival Rules.standard s).indent.depth := by
  have ht : parsesTo "lexer grammar L;\nmode M;\ntokens \x7b a \x7d\n;" (fun s tree ↦
      (tree.visits s [] .other).any fun v ↦ v.node.kind = .recovered ∧ v.outer = .modeSpec ∧
        bracesFrom (v.arrival Rules.standard s).indent.depth (v.node.strayKinds s) =
          some (v.arrival Rules.standard s).indent.depth) = true := by
    decide +kernel
  obtain ⟨tree, hp, hany⟩ := exists_of_parsesTo ht
  obtain ⟨v, hv, htest⟩ := List.any_eq_true.1 hany
  obtain ⟨hk, houter, hbraces⟩ := of_decide_eq_true htest
  exact ⟨_, tree, v, rfl, hp, hv, hk, houter,
    ((region_keeps_depth_iff hp Rules.standard hv hk).2.2 fun _ ↦ hbraces).1⟩

/-- Right inside a mode, a region with an opening brace leaves the layout one level deeper, and in
one with more closing braces than are open it would drop below zero. -/
theorem lone_braces_disturb_depth :
    ∃ s tree, s = tokenize "lexer grammar L;\nmode M;\ntokens \x7b a ;\n\x7d \x7d ;" ∧
      parse s = .ok tree ∧
      (∃ v ∈ tree.visits s [] .other, v.node.kind = .recovered ∧
        (v.arrival Rules.standard s).indent.depth = 0 ∧
        (v.departure Rules.standard s).indent.depth = 1) ∧
      ∃ v ∈ tree.visits s [] .other, v.node.kind = .recovered ∧
        .belowZero ∉ (v.arrival Rules.standard s).warnings ∧
        .belowZero ∈ (v.departure Rules.standard s).warnings := by
  have ht : parsesTo "lexer grammar L;\nmode M;\ntokens \x7b a ;\n\x7d \x7d ;" (fun s tree ↦
      ((tree.visits s [] .other).any fun v ↦ v.node.kind = .recovered ∧
        (v.arrival Rules.standard s).indent.depth = 0 ∧
        (v.departure Rules.standard s).indent.depth = 1) &&
      (tree.visits s [] .other).any fun v ↦ v.node.kind = .recovered ∧
        .belowZero ∉ (v.arrival Rules.standard s).warnings ∧
        .belowZero ∈ (v.departure Rules.standard s).warnings) = true := by
    decide +kernel
  obtain ⟨tree, hp, hboth⟩ := exists_of_parsesTo ht
  obtain ⟨hdeeper, hbelow⟩ := Bool.and_eq_true_iff.1 hboth
  obtain ⟨v, hv, hdeeper⟩ := List.any_eq_true.1 hdeeper
  obtain ⟨w, hw, hbelow⟩ := List.any_eq_true.1 hbelow
  exact ⟨_, tree, rfl, hp, ⟨v, hv, of_decide_eq_true hdeeper⟩, w, hw, of_decide_eq_true hbelow⟩

end GrammarLayout
