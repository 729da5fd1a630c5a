import GrammarLayout.Proofs.Layout.Visits

/-!
# The leaves of a walk

What the formatter does with a leaf depends on what it has done before. So the leaves of a tree are
given with the events before them and with the kind of the node they are children of
(`Tree.stops`), just as its nodes are (`Tree.visits`).

Counting along a walk has to pass over what is embedded in an alternative: its actions and blocks of
options. A counter of the embedded nodes that are open tells which leaves are outside of them
(`outerKinds`). The events of trees leave it as they find it (`IsPaired`), and those before a leaf
never bring it below where it starts (`StaysInside`).
-/

namespace GrammarLayout

/-! ### Stops -/

/-- A leaf that a walk comes to. -/
structure Stop where
  /-- The events before the leaf. -/
  before : List Event
  /-- The kind of the node that the leaf is a child of. -/
  parent : Option NodeKind
  /-- The token of the leaf. -/
  token : Token

/-- The formatter as it comes to a leaf. -/
def Stop.arrival (w : Stop) (r : Rules) (s : Stream) : Formatter :=
  Formatter.run { rules := r, stream := s } w.before

/-- The plan that a formatter runs for a leaf. -/
def Stop.plan (w : Stop) (r : Rules) (s : Stream) : List LayoutOp :=
  (w.arrival r s).frames.plan w.token.kind w.token.text

mutual

/-- The leaves of a tree from left to right, for a walk that comes to the tree after the events
`es`. The tree is a child of a node of the kind `parent`. -/
def Tree.stops (s : Stream) (es : List Event) (parent : Option NodeKind) : Tree → List Stop
  | .leaf i | .stray i => (s.get? i).toList.map (⟨es, parent, ·⟩)
  | .node kind span children => Tree.stopsAll s (es ++ [.enter kind span]) (some kind) children

/-- The leaves of trees one after the other. -/
def Tree.stopsAll (s : Stream) (es : List Event) (parent : Option NodeKind) :
    List Tree → List Stop
  | [] => []
  | t :: ts => t.stops s es parent ++ Tree.stopsAll s (es ++ t.events s) parent ts

end

/-- The leaves below a node. -/
def Visit.stops (v : Visit) (s : Stream) : List Stop :=
  Tree.stopsAll s (v.before ++ [.enter v.node.kind v.node.span]) (some v.node.kind) v.node.children

namespace Tree

variable {s : Stream}

theorem stopsAll_singleton (es : List Event) (parent : Option NodeKind) (t : Tree) :
    stopsAll s es parent [t] = t.stops s es parent := by
  rw [stopsAll, stopsAll, List.append_nil]

theorem stopsAll_append (es : List Event) (parent : Option NodeKind) (ts ts' : List Tree) :
    stopsAll s es parent (ts ++ ts') =
      stopsAll s es parent ts ++ stopsAll s (es ++ eventsAll s ts) parent ts' := by
  induction ts generalizing es with
  | nil => rw [eventsAll, List.append_nil]; rfl
  | cons t ts ih =>
    rw [List.cons_append, stopsAll, ih, stopsAll, eventsAll, List.append_assoc, List.append_assoc]

mutual

/-- Every leaf that is in the stream is come to, in the order of the tree. -/
theorem map_token_stops (es : List Event) (parent : Option NodeKind) :
    ∀ t : Tree, (t.stops s es parent).map Stop.token = t.leaves.filterMap s.get?
  | .leaf i | .stray i => by
    rw [stops, leaves, List.map_map]
    cases hi : s.get? i <;> simp [hi]
  | .node kind span children => by
    rw [stops, leaves, map_token_stopsAll _ _ children]

theorem map_token_stopsAll (es : List Event) (parent : Option NodeKind) :
    ∀ ts : List Tree,
      (stopsAll s es parent ts).map Stop.token = (leavesAll ts).filterMap s.get?
  | [] => by rw [stopsAll, leavesAll, List.map_nil, List.filterMap_nil]
  | t :: ts => by
    rw [stopsAll, leavesAll, List.map_append, map_token_stops _ _ t, map_token_stopsAll _ _ ts,
      List.filterMap_append]

end

mutual

/-- A leaf is walked right after the events that are said to be before it. -/
theorem events_eq_of_stop : ∀ (t : Tree) {es : List Event} {parent : Option NodeKind},
    ∀ w ∈ t.stops s es parent, ∃ e rest, es ++ t.events s = w.before ++ e :: rest ∧
      (e = .token w.token ∨ e = .stray w.token)
  | .leaf i, es, parent, w, hw | .stray i, es, parent, w, hw => by
    rw [stops, List.mem_map] at hw
    obtain ⟨t, ht, rfl⟩ := hw
    rw [Option.mem_toList] at ht
    exact ⟨_, [], by rw [events, Option.mem_def.1 ht]; rfl, by simp⟩
  | .node kind span children, es, parent, w, hw => by
    rw [stops] at hw
    obtain ⟨e, rest, hevents, he⟩ := events_eq_of_stopAll children w hw
    refine ⟨e, rest ++ [.leave kind span], ?_, he⟩
    rw [List.append_assoc, List.singleton_append] at hevents
    rw [events, ← List.cons_append, ← List.append_assoc, hevents, List.append_assoc,
      List.cons_append]

theorem events_eq_of_stopAll : ∀ (ts : List Tree) {es : List Event} {parent : Option NodeKind},
    ∀ w ∈ stopsAll s es parent ts, ∃ e rest, es ++ eventsAll s ts = w.before ++ e :: rest ∧
      (e = .token w.token ∨ e = .stray w.token)
  | [], _, _, _, hw => absurd hw List.not_mem_nil
  | t :: ts, es, parent, w, hw => by
    rw [stopsAll, List.mem_append] at hw
    rcases hw with hw | hw
    · obtain ⟨e, rest, hevents, he⟩ := events_eq_of_stop t w hw
      exact ⟨e, rest ++ eventsAll s ts, by
        rw [eventsAll, ← List.append_assoc, hevents, List.append_assoc, List.cons_append], he⟩
    · obtain ⟨e, rest, hevents, he⟩ := events_eq_of_stopAll ts w hw
      exact ⟨e, rest, by rw [eventsAll, ← List.append_assoc, hevents], he⟩

end

end Tree

/-! ### Kinds outside actions and options -/

/-- Whether what is in such a node belongs to no alternative: actions and blocks of options. -/
def NodeKind.isEmbedded (kind : NodeKind) : Bool := kind == .actionBlock || kind == .optionsSpec

theorem NodeKind.ownsFrame_of_isEmbedded {kind : NodeKind} (h : kind.isEmbedded = true) :
    kind.category.ownsFrame = true := by
  rcases Bool.or_eq_true_iff.1 h with h | h <;> obtain rfl := beq_iff_eq.1 h <;> rfl

/-- In how many actions and blocks of options a walk is after an event. -/
def Event.nest (k : Nat) : Event → Nat
  | .enter kind _ => if kind.isEmbedded then k + 1 else k
  | .leave kind _ => if kind.isEmbedded then k - 1 else k
  | .token _ | .stray _ => k

/-- The kind of a leaf that is outside of all of them. -/
def Event.outerKinds (k : Nat) : Event → List Kind
  | .token t | .stray t => if k = 0 then [t.kind] else []
  | .enter _ _ | .leave _ _ => []

/-- The kinds of the leaves outside actions and blocks of options, for a walk that starts in `k` of
them. -/
def outerKinds : (k : Nat) → List Event → List Kind
  | _, [] => []
  | k, e :: es => e.outerKinds k ++ outerKinds (e.nest k) es

theorem outerKinds_append (k : Nat) (es es' : List Event) :
    outerKinds k (es ++ es') = outerKinds k es ++ outerKinds (es.foldl Event.nest k) es' := by
  induction es generalizing k with
  | nil => rfl
  | cons e es ih => rw [List.cons_append, outerKinds, ih, outerKinds, List.append_assoc]; rfl

/-- Events that leave no action and no block of options but those they enter. -/
structure StaysInside (es : List Event) : Prop where
  /-- They end in as many of them as they start in, or in more. -/
  nest (k : Nat) : k ≤ es.foldl Event.nest k
  /-- No leaf inside one of them comes to be outside. -/
  outer (k : Nat) : outerKinds (k + 1) es = []

namespace StaysInside

variable {es es' : List Event}

theorem nil : StaysInside [] := ⟨Nat.le_refl, fun _ ↦ rfl⟩

theorem append (h : StaysInside es) (h' : StaysInside es') : StaysInside (es ++ es') where
  nest k := by
    rw [List.foldl_append]
    exact (h.nest k).trans (h'.nest _)
  outer k := by
    obtain ⟨j, hj⟩ := Nat.exists_eq_add_of_le' (Nat.le_trans (Nat.le_add_left 1 k) (h.nest (k + 1)))
    rw [outerKinds_append, h.outer, hj, h'.outer, List.append_nil]

theorem enter (h : StaysInside es) (kind : NodeKind) (span : Option Span) :
    StaysInside (.enter kind span :: es) where
  nest k := by
    rw [List.foldl_cons, Event.nest]
    split
    · exact (Nat.le_succ k).trans (h.nest (k + 1))
    · exact h.nest k
  outer k := by
    rw [outerKinds, Event.nest]
    split
    · exact h.outer (k + 1)
    · exact h.outer k

end StaysInside

/-- Events that enter and leave actions and blocks of options in pairs. -/
structure IsPaired (es : List Event) : Prop where
  /-- They end in as many of them as they start in. -/
  nest (k : Nat) : es.foldl Event.nest k = k
  /-- No leaf inside one of them comes to be outside. -/
  outer (k : Nat) : outerKinds (k + 1) es = []

namespace IsPaired

variable {es es' : List Event}

theorem staysInside (h : IsPaired es) : StaysInside es := ⟨fun k ↦ (h.nest k).ge, h.outer⟩

theorem nil : IsPaired [] := ⟨fun _ ↦ rfl, fun _ ↦ rfl⟩

theorem append (h : IsPaired es) (h' : IsPaired es') : IsPaired (es ++ es') where
  nest k := by rw [List.foldl_append, h.nest, h'.nest]
  outer := (h.staysInside.append h'.staysInside).outer

theorem node (h : IsPaired es) (kind : NodeKind) (span : Option Span) :
    IsPaired (.enter kind span :: (es ++ [.leave kind span])) where
  nest k := by
    rw [List.foldl_cons, List.foldl_append, h.nest, List.foldl_cons, List.foldl_nil, Event.nest,
      Event.nest]
    split
    · exact Nat.add_sub_cancel k 1
    · rfl
  outer k := by
    have hin : ∀ j, outerKinds (j + 1) (es ++ [.leave kind span]) = [] := fun j ↦ by
      rw [outerKinds_append, h.outer]
      rfl
    rw [outerKinds, Event.nest]
    split
    · exact hin (k + 1)
    · exact hin k

end IsPaired

namespace Tree

variable {s : Stream}

mutual

theorem isPaired_events : ∀ t : Tree, IsPaired (t.events s)
  | .leaf i | .stray i => by
    rw [events]
    cases s.get? i with
    | none => exact .nil
    | some t => exact ⟨fun _ ↦ rfl, fun _ ↦ rfl⟩
  | .node kind span children => (isPaired_eventsAll children).node kind span

theorem isPaired_eventsAll : ∀ ts : List Tree, IsPaired (eventsAll s ts)
  | [] => .nil
  | t :: ts => (isPaired_events t).append (isPaired_eventsAll ts)

end

mutual

/-- **A leaf of a tree** comes after some of its events, and these leave no action and no block of
options but those they enter. -/
theorem exists_of_stop : ∀ (t : Tree) {es : List Event} {parent : Option NodeKind},
    ∀ w ∈ t.stops s es parent, ∃ rel, w.before = es ++ rel ∧ StaysInside rel
  | .leaf i, es, parent, w, hw | .stray i, es, parent, w, hw => by
    rw [stops, List.mem_map] at hw
    obtain ⟨_, -, rfl⟩ := hw
    exact ⟨[], (List.append_nil es).symm, .nil⟩
  | .node kind span children, es, parent, w, hw => by
    rw [stops] at hw
    obtain ⟨rel, hrel, hin⟩ := exists_of_stopAll children w hw
    exact ⟨.enter kind span :: rel, by rw [hrel, List.append_assoc]; rfl, hin.enter kind span⟩

theorem exists_of_stopAll : ∀ (ts : List Tree) {es : List Event} {parent : Option NodeKind},
    ∀ w ∈ stopsAll s es parent ts, ∃ rel, w.before = es ++ rel ∧ StaysInside rel
  | [], _, _, _, hw => absurd hw List.not_mem_nil
  | t :: ts, es, parent, w, hw => by
    rw [stopsAll, List.mem_append] at hw
    rcases hw with hw | hw
    · exact exists_of_stop t w hw
    · obtain ⟨rel, hrel, hin⟩ := exists_of_stopAll ts w hw
      exact ⟨t.events s ++ rel, by rw [hrel, List.append_assoc],
        (isPaired_events t).staysInside.append hin⟩

end

end Tree

end GrammarLayout
