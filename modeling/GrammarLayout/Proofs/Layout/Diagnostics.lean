import GrammarLayout.Proofs.Grammar.Clean
import GrammarLayout.Proofs.Layout.Source
import GrammarLayout.Proofs.Layout.Writing

/-!
# Diagnostics of a layout

A layout reports its recovered regions and nothing else, in the order of the tree
(`diagnostics_ofTree`). So a source about which nothing is reported has a clean tree, and all that
`Clean` says of its tokens holds (`exists_clean_of_format`).

Only entering a recovered node reports anything, and what it reports is a function of the event and
of the stream (`Event.report?`). So the report of a run is the list of events, filtered
(`Formatter.diagnostics_run`), and the events of a tree, filtered in this way, are its recovered
nodes (`Tree.filterMap_events`). All other steps report nothing, which they have in common with
leaving the stream alone; `SameReport` states the two together, so that it can be followed through
the steps once.
-/

namespace GrammarLayout

/-- The line on which a span starts: that of its first token. -/
def Stream.lineAt (s : Stream) (span : Option Span) : Nat :=
  ((span.bind fun sp ↦ s.get? sp.start).map (·.line)).getD 0

/-- What is reported about an event. -/
def Event.report? (s : Stream) : Event → Option Diagnostic
  | .enter .recovered span => some ⟨s.lineAt span, .keptVerbatim⟩
  | _ => none

namespace Formatter

/-- Two formatters that have reported the same about the same stream. -/
structure SameReport (f f' : Formatter) : Prop where
  /-- They have reported the same. -/
  diagnostics : f'.diagnostics = f.diagnostics
  /-- They lay out the same stream. -/
  stream : f'.stream = f.stream

namespace SameReport

variable {f f' f'' : Formatter}

theorem refl (f : Formatter) : SameReport f f := ⟨rfl, rfl⟩

theorem trans (h : SameReport f f') (h' : SameReport f' f'') : SameReport f f'' :=
  ⟨h'.diagnostics.trans h.diagnostics, h'.stream.trans h.stream⟩

theorem foldl {α : Type} {g : Formatter → α → Formatter} (hg : ∀ f a, SameReport f (g f a))
    (f : Formatter) (as : List α) : SameReport f (as.foldl g f) := by
  induction as generalizing f with
  | nil => exact .refl f
  | cons a as ih => exact (hg f a).trans (ih (g f a))

theorem of_writes (h : Writes f f') : SameReport f f' := ⟨h.diagnostics, h.stream⟩

theorem runOp (text : String) (f : Formatter) (op : LayoutOp) :
    SameReport f (Formatter.runOp text f op) := by
  cases op with
  | newLine | indent | dedent => exact ⟨rfl, rfl⟩
  | emit => exact .of_writes (writes_emit f text)

theorem leaf (f : Formatter) (t : Token) : SameReport f (f.leaf t) := by
  refine (of_writes (writes_writeComments f f.frames.active
    (f.marks.flushBefore f.rules f.stream t.index))).trans ?_
  unfold Formatter.leaf
  dsimp only
  generalize f.writeComments _ _ = g
  exact (show SameReport g { g with frames := g.frames.after t.kind } from ⟨rfl, rfl⟩).trans
    ((foldl (runOp t.text) _ _).trans ⟨rfl, rfl⟩)

theorem pushFrame (f : Formatter) (category : Category) : SameReport f (f.pushFrame category) := by
  unfold Formatter.pushFrame
  dsimp only
  split <;> exact ⟨rfl, rfl⟩

theorem popFrame (f : Formatter) (category : Category) : SameReport f (f.popFrame category) := by
  unfold Formatter.popFrame
  split
  · split <;> exact ⟨rfl, rfl⟩
  · exact .refl f

theorem leave (f : Formatter) (kind : NodeKind) (span : Option Span) :
    SameReport f (f.leave kind span) :=
  ((of_writes (writes_commentsAfter f kind.category span)).trans (popFrame _ _)).trans ⟨rfl, rfl⟩

end SameReport

/-- One event adds what is reported about it. The report is made after the comments before the node
are written, which does not change it. -/
theorem diagnostics_step (f : Formatter) (e : Event) :
    (f.step e).diagnostics.toList = f.diagnostics.toList ++ (e.report? f.stream).toList ∧
      (f.step e).stream = f.stream := by
  have hsame : ∀ {g : Formatter}, SameReport f g → e.report? f.stream = none →
      g.diagnostics.toList = f.diagnostics.toList ++ (e.report? f.stream).toList ∧
        g.stream = f.stream := by
    intro g hg hn
    rw [hg.diagnostics, hg.stream, hn]
    simp
  -- only entering a recovered region reports anything, so the other events are cases of `hsame`
  cases e with
  | leave kind span => exact hsame (.leave f kind span) rfl
  | token t => exact hsame (.leaf f t) rfl
  | stray t => exact hsame ((SameReport.of_writes (writes_note f rfl)).trans (.leaf _ t)) rfl
  | enter kind span =>
    have hin : SameReport f ((f.note (.entered kind)).commentsBefore kind.category span) :=
      .of_writes ((writes_note f rfl).trans (writes_commentsBefore _ _ _))
    show (f.enter kind span).diagnostics.toList = _ ∧ (f.enter kind span).stream = _
    unfold Formatter.enter
    dsimp only
    generalize (f.note (.entered kind)).commentsBefore kind.category span = g at hin
    have hpush := SameReport.pushFrame (g.reportRecovered kind span) kind.category
    rw [hpush.diagnostics, hpush.stream]
    unfold reportRecovered
    split
    · rename_i hk
      subst hk
      refine ⟨?_, hin.stream⟩
      rw [← hin.diagnostics, ← hin.stream]
      simp [Event.report?, Stream.lineAt]
    · rename_i hk
      have hn : (Event.enter kind span).report? f.stream = none := by
        cases kind <;> first | rfl | exact absurd rfl hk
      exact hsame hin hn

/-- Events leave the stream as it is. -/
theorem stream_run (f : Formatter) (es : List Event) : (f.run es).stream = f.stream := by
  induction es generalizing f with
  | nil => rfl
  | cons e es ih => rw [Follows.run_cons, ih, (diagnostics_step f e).2]

/-- Events add what is reported about them, in their order. -/
theorem diagnostics_run (f : Formatter) (es : List Event) :
    (f.run es).diagnostics.toList = f.diagnostics.toList ++ es.filterMap (·.report? f.stream) := by
  induction es generalizing f with
  | nil => simp [run]
  | cons e es ih =>
    obtain ⟨hd, hs⟩ := diagnostics_step f e
    show ((f.step e).run es).diagnostics.toList = _
    rw [ih, hd, hs, List.append_assoc]
    cases h : e.report? f.stream <;> simp [h]

end Formatter

mutual

/-- The events that are reported are the recovered nodes. -/
theorem Tree.filterMap_events (s : Stream) (t : Tree) :
    (t.events s).filterMap (·.report? s) =
      (t.findAll .recovered).map fun n ↦ ⟨s.lineAt n.span, .keptVerbatim⟩ := by
  cases t with
  | leaf i | stray i =>
    rw [Tree.events]
    cases s.get? i <;> rfl
  | node kind span children =>
    rw [Tree.events, List.filterMap_cons, List.filterMap_append,
      Tree.filterMap_eventsAll s children,
      Tree.findAll, Tree.nodes, List.filter_cons]
    by_cases hk : kind = .recovered
    · subst hk
      simp [Event.report?]
    · simp [hk, Event.report?]

/-- The events that are reported are the recovered nodes, for trees one after the other. -/
theorem Tree.filterMap_eventsAll (s : Stream) (ts : List Tree) :
    (Tree.eventsAll s ts).filterMap (·.report? s) =
      ((Tree.nodesAll ts).filter (·.kind == .recovered)).map
        fun n ↦ ⟨s.lineAt n.span, .keptVerbatim⟩ := by
  cases ts with
  | nil => rfl
  | cons t ts =>
    rw [Tree.eventsAll, List.filterMap_append, Tree.filterMap_events s t,
      Tree.filterMap_eventsAll s ts, Tree.nodesAll, List.filter_append, List.map_append]
    rfl

end

/-- **A layout reports its recovered regions**, each with the line it starts on, in the order of the
tree. -/
theorem diagnostics_ofTree (r : Rules) (s : Stream) (tree : Tree) :
    (Formatter.ofTree r s tree).diagnostics.toList =
      (tree.findAll .recovered).map fun n ↦ ⟨s.lineAt n.span, .keptVerbatim⟩ := by
  have hrun := Formatter.diagnostics_run { rules := r, stream := s } (tree.events s)
  rw [Tree.filterMap_events] at hrun
  exact hrun

/-- A tree about which nothing is reported is clean. -/
theorem clean_of_diagnostics {r : Rules} {s : Stream} {tree : Tree}
    (h : (Formatter.ofTree r s tree).diagnostics.toList = []) : Clean [tree] := by
  rw [diagnostics_ofTree, List.map_eq_nil_iff] at h
  intro n hn hk
  rw [Tree.nodesAll_singleton] at hn
  have hm : n ∈ tree.findAll .recovered := List.mem_filter.2 ⟨hn, by simp [hk]⟩
  rw [h] at hm
  exact absurd hm List.not_mem_nil

/-- **A source about which nothing is reported** has a clean tree. -/
theorem exists_clean_of_format {r : Rules} {source : String} {out : Formatted}
    (h : format r source = .ok out) (hd : out.diagnostics = []) :
    ∃ ts, parse (tokenize source) = .ok (Tree.ofChildren .grammarSpec ts) ∧
      CleanTokens (tokenize source).mainTokens ts := by
  obtain ⟨tree, hp, rfl⟩ := format_eq_ok_iff.1 h
  obtain ⟨ts, rfl, -, -⟩ := forest_of_parse hp
  exact ⟨ts, hp, cleanTokens_of_parse hp (clean_of_diagnostics hd)⟩

end GrammarLayout
