import GrammarLayout.Proofs.Grammar.Header
import GrammarLayout.Proofs.Layout.Bare
import GrammarLayout.Proofs.Layout.Diagnostics
import Mathlib.Order.MinMax

/-!
# Whitespace does not matter

The layout of a source depends on its visible segments alone (`format_eq_of_visible_eq`). Two
sources that differ in whitespace have tokens at different positions, and the positions are in the
tree, in the spans of its nodes and in the marks that say which comments have been written. So both
layouts are compared with that of the bare stream, which the two sources share: the formatter on the
stream and the one on the bare stream write the same all along the walk (`Mirrors.run`), the marks
of the second being the ranks of those of the first.

This holds for all rules, also for those that do not know every comment: a hidden token is taken for
a comment by its trimmed text, which is the same in both, and whitespace is never taken for one.

The parts of the proof:

* The tree of a source, renumbered by ranks, is the tree of the bare stream; that much is known of
  parsing. The renumbering of positions is monotone, though not injective on blanks.

* Marks are positions, and comments are selected by comparing positions with marks. On positions of
  tokens other than whitespace the ranks compare in the same way, so the same comments are selected
  (`select_bare`), and the new marks are again such positions (`Marks.StandIn`).

* Everything else the formatter holds does not mention positions, so the two formatters are equal in
  it (`Mirrors`). Each operation keeps that, which takes one lemma for each operation; the fields
  that are not written are the same by definition.

* Messages do not hold positions either. Those of a layout are one for each recovered region
  (`messages_ofTree`), and that of a failure names the token at which the header breaks off
  (`BreaksAt.segment_eq`).
-/

namespace GrammarLayout

/-! ### Marks -/

/-- A position at which a token stands that is more than whitespace. -/
def Stream.Keeps (s : Stream) (i : Nat) : Prop :=
  ∃ t ∈ s.toList, t.isVisible = true ∧ t.index = i

/-- Marks at other positions. A mark that is not set stays so. -/
def Marks.renumber (g : Nat → Nat) (m : Marks) : Marks where
  left := m.left.map g
  right := m.right.map g
  emitted := m.emitted.map g

/-- Marks that stand at tokens other than whitespace. -/
structure Marks.StandIn (s : Stream) (m : Marks) : Prop where
  /-- The nodes served before. -/
  left : ∀ i ∈ m.left, s.Keeps i
  /-- The nodes served after. -/
  right : ∀ i ∈ m.right, s.Keeps i
  /-- The comments given out. -/
  emitted : ∀ i ∈ m.emitted, s.Keeps i

/-- The rules never take whitespace for a comment. -/
def Rules.PassesOver (r : Rules) (s : Stream) : Prop :=
  ∀ t ∈ s.toList, t.isVisible = false → r.isComment t.text = false

/-- Whether a position is past a mark can be told from the ranks, as the mark is that of a token
that counts. -/
theorem isPast_bareIndex {s : Stream} {mark : Option Nat} (h : ∀ e ∈ mark, s.Keeps e) (i : Nat) :
    Marks.isPast (s.bareIndex i) (mark.map s.bareIndex) = Marks.isPast i mark := by
  cases mark with
  | none => rfl
  | some e =>
    obtain ⟨t, ht, hv, rfl⟩ := h e rfl
    exact decide_eq_decide.2 (Stream.rank_lt_rank_iff ht hv i)

/-- Ranks do not decrease. -/
theorem Stream.monotone_bareIndex (s : Stream) : Monotone s.bareIndex := fun _ _ h ↦ s.rank_mono _ h

/-- The first position of a span. -/
theorem first_renumber (s : Stream) (sp : Span) :
    (sp.renumber s.bareIndex).first = s.bareIndex sp.first := s.monotone_bareIndex.map_min.symm

theorem last_renumber (s : Stream) (sp : Span) :
    (sp.renumber s.bareIndex).last = s.bareIndex sp.last := s.monotone_bareIndex.map_max.symm

/-- What is given out on a stream, and what on the bare stream. -/
structure Given (s : Stream) (x x' : List Token × Marks) : Prop where
  /-- The same comments are given out. -/
  comments : x'.1 = x.1.map s.bareToken
  /-- They are hidden. -/
  hidden : ∀ t ∈ x.1, t.isHidden = true
  /-- The marks on the bare stream are the ranks of those on the stream. -/
  marks : x'.2 = x.2.renumber s.bareIndex
  /-- They stand at tokens other than whitespace. -/
  standIn : x.2.StandIn s

section Marks

variable {r : Rules} {s : Stream} (hr : r.PassesOver s) {m : Marks} (hm : m.StandIn s)
include hr hm

/-- The comments of a run are selected by order alone. What is dropped from the run is whitespace,
which the rules pass over. -/
theorem select_bare {run : List Token} (hrun : ∀ t ∈ run, t ∈ s.toList ∧ t.isHidden = true) :
    (m.renumber s.bareIndex).select r ((run.filter Token.isVisible).map s.bareToken) =
      (m.select r run).map s.bareToken := by
  rw [Marks.select, Marks.select, List.filter_map, List.filter_filter]
  congr 1
  refine List.filter_congr fun t ht ↦ ?_
  obtain ⟨hs, hh⟩ := hrun t ht
  cases hv : t.isVisible with
  | true =>
    rw [Bool.and_true]
    show (Marks.isPast (s.bareIndex t.index) (m.emitted.map s.bareIndex) &&
      r.isComment (s.bareToken t).text) = _
    rw [isPast_bareIndex hm.emitted, s.text_bareToken_of_hidden hh, isComment_trimStringEnd]
  | false => rw [hr t hs hv, Bool.and_false, Bool.and_false]

/-- A run gives out the same on both streams. -/
theorem given_take {run : List Token} (hrun : ∀ t ∈ run, t ∈ s.toList ∧ t.isHidden = true) :
    Given s (m.take r run)
      ((m.renumber s.bareIndex).take r ((run.filter Token.isVisible).map s.bareToken)) := by
  have hsel := select_bare hr hm hrun
  have hmem : ∀ t ∈ m.select r run, t ∈ run ∧ r.isComment t.text = true := fun t ht ↦ by
    obtain ⟨hin, hc⟩ := List.mem_filter.1 ht
    exact ⟨hin, (Bool.and_eq_true_iff.1 hc).2⟩
  refine ⟨hsel, fun t ht ↦ (hrun t (hmem t ht).1).2, ?_, { hm with emitted := ?_ }⟩
  · rw [Marks.take, Marks.take, hsel, List.getLast?_map]
    cases (m.select r run).getLast? <;> rfl
  · intro i hi
    simp only [Marks.take] at hi
    cases hl : (m.select r run).getLast? with
    | none =>
      rw [hl] at hi
      exact hm.emitted i hi
    | some t =>
      rw [hl] at hi
      obtain rfl : t.index = i := by simpa using hi
      obtain ⟨hin, hc⟩ := hmem t (List.mem_of_getLast? hl)
      refine ⟨t, (hrun t hin).1, ?_, rfl⟩
      by_contra hv
      rw [hr t (hrun t hin).1 (by simpa using hv)] at hc
      exact absurd hc (by simp)

/-- The hidden run before a position. -/
theorem given_before {i : Nat} (hi : s.Keeps i) :
    Given s (m.take r (s.hiddenBefore i))
      ((m.renumber s.bareIndex).take r (s.bare.hiddenBefore (s.bareIndex i))) := by
  obtain ⟨t, ht, hv, rfl⟩ := hi
  obtain ⟨A, B, h⟩ := List.append_of_mem ht
  rw [Stream.index_eq_length h, Stream.hiddenBefore_bare h]
  refine given_take hr hm fun u hu ↦ ?_
  rw [Stream.hiddenBefore_eq h, Stream.hiddenEnd, List.mem_reverse] at hu
  have hA : u ∈ A := List.mem_reverse.1 ((List.takeWhile_sublist _).subset hu)
  exact ⟨by rw [h]; exact List.mem_append_left _ hA,
    List.all_eq_true.1 List.all_takeWhile u hu⟩

/-- The hidden run after a position. -/
theorem given_after {i : Nat} (hi : s.Keeps i) :
    Given s (m.take r (s.hiddenAfter i))
      ((m.renumber s.bareIndex).take r (s.bare.hiddenAfter (s.bareIndex i))) := by
  obtain ⟨t, ht, hv, rfl⟩ := hi
  rw [Stream.hiddenAfter_bare ht hv]
  refine given_take hr hm fun u hu ↦ ?_
  rw [Stream.hiddenAfter_eq] at hu
  exact ⟨List.mem_of_mem_drop ((List.takeWhile_sublist _).subset hu),
    List.all_eq_true.1 List.all_takeWhile u hu⟩

/-- The comments before a node. -/
theorem given_flushLeft {sp : Span} (hsp : s.Keeps sp.first) :
    Given s (m.flushLeft r s sp)
      ((m.renumber s.bareIndex).flushLeft r s.bare (sp.renumber s.bareIndex)) := by
  have hpast := isPast_bareIndex hm.left sp.first
  rw [Marks.flushLeft, Marks.flushLeft, first_renumber]
  rw [show (m.renumber s.bareIndex).left = m.left.map s.bareIndex from rfl, hpast]
  split
  · have hm' : Marks.StandIn s { m with left := some sp.first } :=
      { hm with left := fun i hi ↦ Option.some.inj hi ▸ hsp }
    exact given_before hr hm' hsp
  · exact ⟨rfl, by simp, rfl, hm⟩

/-- The comments after a node. -/
theorem given_flushRight {sp : Span} (hsp : s.Keeps sp.last) :
    Given s (m.flushRight r s sp)
      ((m.renumber s.bareIndex).flushRight r s.bare (sp.renumber s.bareIndex)) := by
  have hpast := isPast_bareIndex hm.right sp.last
  rw [Marks.flushRight, Marks.flushRight, last_renumber]
  rw [show (m.renumber s.bareIndex).right = m.right.map s.bareIndex from rfl, hpast]
  split
  · have hm' : Marks.StandIn s { m with right := some sp.last } :=
      { hm with right := fun i hi ↦ Option.some.inj hi ▸ hsp }
    exact given_after hr hm' hsp
  · exact ⟨rfl, by simp, rfl, hm⟩

end Marks

/-! ### Formatters side by side -/

/-- Two formatters that have written the same, one on a stream with the marks `m` and the other on
the bare stream with the ranks of these. -/
structure Mirrors (r : Rules) (s : Stream) (m : Marks) (f f' : Formatter) : Prop where
  /-- The rules of the one. -/
  rules : f.rules = r
  /-- The rules of the other. -/
  rules' : f'.rules = r
  /-- The stream of the one. -/
  stream : f.stream = s
  /-- The stream of the other. -/
  stream' : f'.stream = s.bare
  /-- The marks of the one. -/
  marks : f.marks = m
  /-- The marks of the other. -/
  marks' : f'.marks = m.renumber s.bareIndex
  /-- Their writers stand alike. -/
  writer : f'.writer = f.writer
  /-- They are equally deep. -/
  indent : f'.indent = f.indent
  /-- They are inside the same constructs. -/
  frames : f'.frames = f.frames
  /-- They end with the same text. -/
  previous : f'.previous = f.previous
  /-- They wait for the same break. -/
  breakPending : f'.breakPending = f.breakPending
  /-- They have written the same. -/
  chunks : f'.chunks = f.chunks

namespace Mirrors

variable {r : Rules} {s : Stream} {m : Marks} {f f' : Formatter}

theorem perform (h : Mirrors r s m f f') (e : Writer.Effect) :
    Mirrors r s m (f.perform e) (f'.perform e) :=
  { h with
    writer := rfl
    chunks := by rw [Formatter.perform, Formatter.perform, h.chunks] }

theorem lineBreak (h : Mirrors r s m f f') : Mirrors r s m f.lineBreak f'.lineBreak := by
  have hp := h.perform (f.writer.lineBreak f.indent.text)
  rw [Formatter.lineBreak, Formatter.lineBreak, h.writer, h.indent]
  exact { hp with breakPending := rfl }

theorem settleBreak (h : Mirrors r s m f f') : Mirrors r s m f.settleBreak f'.settleBreak := by
  rw [Formatter.settleBreak, Formatter.settleBreak, h.breakPending]
  split
  · exact h.lineBreak
  · exact h

theorem writeText (h : Mirrors r s m f f') (text : String) :
    Mirrors r s m (f.writeText text) (f'.writeText text) := by
  have hp := h.perform (f.writer.write text)
  rw [Formatter.writeText, Formatter.writeText, h.writer]
  exact { hp with previous := rfl }

theorem writeSpace (h : Mirrors r s m f f') (text : String) :
    Mirrors r s m (f.writeSpace text) (f'.writeSpace text) := by
  rw [Formatter.writeSpace, Formatter.writeSpace, h.rules, h.rules', h.previous, h.frames, h.writer]
  split
  · exact h.perform _
  · exact h

/-- A token. -/
theorem emit (h : Mirrors r s m f f') (text : String) :
    Mirrors r s m (f.emit text) (f'.emit text) := by
  have hb := h.settleBreak
  have hd : f'.settleBreak.drops text = f.settleBreak.drops text := by
    rw [Formatter.drops, Formatter.drops, hb.frames, hb.writer]
  rw [Formatter.emit, Formatter.emit, hd]
  split
  · exact hb
  · exact (hb.writeSpace text).writeText text

/-- What is done behind a comment. -/
theorem endComment (h : Mirrors r s m f f') (category : Category) (text : String) :
    Mirrors r s m (f.endComment category text) (f'.endComment category text) := by
  rw [Formatter.endComment, Formatter.endComment]
  split
  · exact h.lineBreak
  · split
    · exact { h with breakPending := rfl }
    · exact h

/-- A comment: its text is trimmed on both sides. -/
theorem writeComment (h : Mirrors r s m f f') (category : Category) {t : Token}
    (ht : t.isHidden = true) :
    Mirrors r s m (f.writeComment category t) (f'.writeComment category (s.bareToken t)) := by
  have htext : trimStringEnd (s.bareToken t).text = trimStringEnd t.text := by
    rw [s.text_bareToken_of_hidden ht, trimStringEnd, trimStringEnd, String.toList_ofList,
      trimEnd_trimEnd]
  have hn : Mirrors r s m (f.note (.comment t.index category))
      (f'.note (.comment (s.bareToken t).index category)) := { h with }
  rw [Formatter.writeComment, Formatter.writeComment, htext]
  rw [show (f'.note (.comment (s.bareToken t).index category)).breaksBeforeComment category =
    (f.note (.comment t.index category)).breaksBeforeComment category by
      rw [Formatter.breaksBeforeComment, Formatter.breaksBeforeComment, hn.breakPending]]
  split
  · exact (hn.lineBreak.writeText _).endComment category _
  · exact (hn.writeText _).endComment category _

theorem foldl_writeComment (h : Mirrors r s m f f') (category : Category) {ts : List Token}
    (ht : ∀ t ∈ ts, t.isHidden = true) :
    Mirrors r s m (ts.foldl (Formatter.writeComment category) f)
      ((ts.map s.bareToken).foldl (Formatter.writeComment category) f') := by
  induction ts generalizing f f' with
  | nil => exact h
  | cons t ts ih =>
    rw [List.forall_mem_cons] at ht
    exact ih (h.writeComment category ht.1) ht.2

/-- Comments that were given out, with the marks they leave. -/
theorem writeComments (h : Mirrors r s m f f') (category : Category) {x x' : List Token × Marks}
    (hx : Given s x x') :
    Mirrors r s x.2 (f.writeComments category x) (f'.writeComments category x') := by
  have hm : Mirrors r s x.2 { f with marks := x.2 } { f' with marks := x'.2 } :=
    { h with
      marks := rfl
      marks' := hx.marks }
  rw [Formatter.writeComments, Formatter.writeComments, hx.comments]
  exact hm.foldl_writeComment category hx.hidden

theorem runOp (h : Mirrors r s m f f') (text : String) (op : LayoutOp) :
    Mirrors r s m (f.runOp text op) (f'.runOp text op) := by
  cases op with
  | newLine => exact h.lineBreak
  | indent => exact { h with indent := congrArg Indent.increment h.indent }
  | dedent => exact { h with indent := congrArg Indent.decrement h.indent }
  | emit => exact h.emit text

theorem foldl_runOp (h : Mirrors r s m f f') (text : String) (ops : List LayoutOp) :
    Mirrors r s m (ops.foldl (Formatter.runOp text) f) (ops.foldl (Formatter.runOp text) f') := by
  induction ops generalizing f f' with
  | nil => exact h
  | cons op ops ih => exact ih (h.runOp text op)

/-- The frame of a construct. -/
theorem pushFrame (h : Mirrors r s m f f') (category : Category) :
    Mirrors r s m (f.pushFrame category) (f'.pushFrame category) := by
  have hp : Mirrors r s m { f with frames := f.frames.push category f.indent.depth }
      { f' with frames := f'.frames.push category f'.indent.depth } :=
    { h with frames := by rw [h.frames, h.indent] }
  rw [Formatter.pushFrame, Formatter.pushFrame]
  split
  · exact hp.lineBreak
  · exact hp
  · exact h

/-- Leaving a construct. -/
theorem popFrame (h : Mirrors r s m f f') (category : Category) :
    Mirrors r s m (f.popFrame category) (f'.popFrame category) := by
  rw [Formatter.popFrame, Formatter.popFrame, h.frames]
  split
  · split
    · exact h
    · exact { h with
        frames := rfl
        indent := by rw [h.indent] }
  · exact h

/-- A report. The lines differ, but no text depends on them. -/
theorem reportRecovered (h : Mirrors r s m f f') (kind : NodeKind) (span span' : Option Span) :
    Mirrors r s m (f.reportRecovered kind span) (f'.reportRecovered kind span') := by
  rw [Formatter.reportRecovered, Formatter.reportRecovered]
  split
  · exact { h with }
  · exact h

/-- Carrying out the plan for a leaf. -/
theorem runPlan (h : Mirrors r s m f f') (kind : Kind) (text : String) (n : Notice) :
    Mirrors r s m
      (((f.frames.plan kind text).foldl (Formatter.runOp text)
        { f with frames := f.frames.after kind }).note n)
      (((f'.frames.plan kind text).foldl (Formatter.runOp text)
        { f' with frames := f'.frames.after kind }).note n) := by
  have hf : Mirrors r s m { f with frames := f.frames.after kind }
      { f' with frames := f'.frames.after kind } := { h with frames := by rw [h.frames] }
  rw [show f'.frames.plan kind text = f.frames.plan kind text by rw [h.frames]]
  exact { hf.foldl_runOp text (f.frames.plan kind text) with }

section Walk

variable (hr : r.PassesOver s)
include hr

/-- Laying out a main token. -/
theorem leaf (h : Mirrors r s m f f') (hm : m.StandIn s) {t : Token} (ht : t ∈ s.toList)
    (hh : t.isHidden = false) :
    ∃ m', m'.StandIn s ∧ Mirrors r s m' (f.leaf t) (f'.leaf (s.bareToken t)) := by
  have hg := given_before hr hm ⟨t, ht, Token.isVisible_of_main hh, rfl⟩
  have hc := h.writeComments f.frames.active hg
  refine ⟨_, hg.standIn, ?_⟩
  rw [Formatter.leaf, Formatter.leaf, h.frames, h.marks, h.marks', h.rules, h.rules', h.stream,
    h.stream', s.text_bareToken_of_main hh, Stream.kind_bareToken]
  exact hc.runPlan t.kind t.text _

theorem commentsBefore (h : Mirrors r s m f f') (hm : m.StandIn s) (category : Category)
    {span : Option Span} (hspan : ∀ sp ∈ span, s.Keeps sp.first) :
    ∃ m', m'.StandIn s ∧ Mirrors r s m' (f.commentsBefore category span)
      (f'.commentsBefore category (span.map (Span.renumber s.bareIndex))) := by
  cases span with
  | none => exact ⟨m, hm, h⟩
  | some sp =>
    have hg := given_flushLeft hr hm (hspan sp rfl)
    refine ⟨_, hg.standIn, ?_⟩
    show Mirrors r s _ (f.writeComments category (f.marks.flushLeft f.rules f.stream sp))
      (f'.writeComments category
        (f'.marks.flushLeft f'.rules f'.stream (sp.renumber s.bareIndex)))
    rw [h.marks, h.marks', h.rules, h.rules', h.stream, h.stream']
    exact h.writeComments category hg

theorem commentsAfter (h : Mirrors r s m f f') (hm : m.StandIn s) (category : Category)
    {span : Option Span} (hspan : ∀ sp ∈ span, s.Keeps sp.last) :
    ∃ m', m'.StandIn s ∧ Mirrors r s m' (f.commentsAfter category span)
      (f'.commentsAfter category (span.map (Span.renumber s.bareIndex))) := by
  cases span with
  | none => exact ⟨m, hm, h⟩
  | some sp =>
    have hg := given_flushRight hr hm (hspan sp rfl)
    refine ⟨_, hg.standIn, ?_⟩
    show Mirrors r s _ (f.writeComments category (f.marks.flushRight f.rules f.stream sp))
      (f'.writeComments category
        (f'.marks.flushRight f'.rules f'.stream (sp.renumber s.bareIndex)))
    rw [h.marks, h.marks', h.rules, h.rules', h.stream, h.stream']
    exact h.writeComments category hg

/-- Entering a node that starts at a main token, if it covers any. -/
theorem enter (h : Mirrors r s m f f') (hm : m.StandIn s) (kind : NodeKind) {span : Option Span}
    (hspan : ∀ sp ∈ span, s.Keeps sp.first) :
    ∃ m', m'.StandIn s ∧
      Mirrors r s m' (f.enter kind span)
        (f'.enter kind (span.map (Span.renumber s.bareIndex))) := by
  have hn : Mirrors r s m (f.note (.entered kind)) (f'.note (.entered kind)) := { h with }
  obtain ⟨m', hm', hc⟩ := hn.commentsBefore hr hm kind.category hspan
  exact ⟨m', hm', (hc.reportRecovered kind _ _).pushFrame _⟩

/-- Leaving a node that ends at a main token, if it covers any. -/
theorem leave (h : Mirrors r s m f f') (hm : m.StandIn s) (kind : NodeKind) {span : Option Span}
    (hspan : ∀ sp ∈ span, s.Keeps sp.last) :
    ∃ m', m'.StandIn s ∧
      Mirrors r s m' (f.leave kind span)
        (f'.leave kind (span.map (Span.renumber s.bareIndex))) := by
  obtain ⟨m', hm', hc⟩ := h.commentsAfter hr hm kind.category hspan
  exact ⟨m', hm', { hc.popFrame kind.category with }⟩

omit hr in
/-- The ends of a node are main tokens. -/
theorem keeps_spanOf? {us : List Token} {ts : List Tree} (ho : Over us ts)
    (hu : ∀ t ∈ us, t ∈ s.toList ∧ t.isHidden = false) :
    ∀ sp ∈ Tree.spanOf? ts, s.Keeps sp.first ∧ s.Keeps sp.last := by
  intro sp hsp
  rw [ho.spanOf?_eq] at hsp
  obtain ⟨a, ha, hsp⟩ := Option.bind_eq_some_iff.1 hsp
  obtain ⟨z, hz, rfl⟩ := Option.map_eq_some_iff.1 hsp
  have hkeep : ∀ t ∈ us, s.Keeps t.index := fun t ht ↦
    ⟨t, (hu t ht).1, Token.isVisible_of_main (hu t ht).2, rfl⟩
  have hka := hkeep a (List.mem_of_head? ha)
  have hkz := hkeep z (List.mem_of_getLast? hz)
  simp only [Span.first, Span.last]
  rcases Nat.le_total a.index z.index with hle | hle
  · rw [Nat.min_eq_left hle, Nat.max_eq_right hle]
    exact ⟨hka, hkz⟩
  · rw [Nat.min_eq_right hle, Nat.max_eq_left hle]
    exact ⟨hkz, hka⟩

/-- **The layouts stay the same along trees** over main tokens, the tree on the bare stream having
the ranks of the positions. The induction is over the trees with the tokens below them, so that the
ends of each node are known to be main tokens. -/
theorem run {us : List Token} {ts : List Tree} (ho : Over us ts)
    (hu : ∀ t ∈ us, t ∈ s.toList ∧ t.isHidden = false) (h : Mirrors r s m f f')
    (hm : m.StandIn s) :
    ∃ m', m'.StandIn s ∧ Mirrors r s m' (f.run (Tree.eventsAll s ts))
      (f'.run (Tree.eventsAll s.bare (ts.map (Tree.renumber s.bareIndex)))) := by
  have hleaf : ∀ {t : Token}, t ∈ s.toList → t.isHidden = false →
      s.get? t.index = some t ∧ s.bare.get? (s.bareIndex t.index) = some (s.bareToken t) :=
    fun ht hh ↦ ⟨Stream.get?_of_mem ht, Stream.get?_bare ht (Token.isVisible_of_main hh)⟩
  induction ho generalizing m f f' with
  | nil => exact ⟨m, hm, h⟩
  | @leaf t us ts _ ih =>
    rw [List.forall_mem_cons] at hu
    obtain ⟨hg, hg'⟩ := hleaf hu.1.1 hu.1.2
    obtain ⟨m₁, hm₁, h₁⟩ := h.leaf hr hm hu.1.1 hu.1.2
    obtain ⟨m₂, hm₂, h₂⟩ := ih hu.2 h₁ hm₁
    refine ⟨m₂, hm₂, ?_⟩
    simpa [Tree.eventsAll, Tree.events, Tree.renumber, hg, hg', Follows.run_cons, Formatter.step]
      using h₂
  | @stray t us ts _ ih =>
    rw [List.forall_mem_cons] at hu
    obtain ⟨hg, hg'⟩ := hleaf hu.1.1 hu.1.2
    have hn : Mirrors r s m (f.note (.strayToken t.text))
        (f'.note (.strayToken (s.bareToken t).text)) := { h with }
    obtain ⟨m₁, hm₁, h₁⟩ := hn.leaf hr hm hu.1.1 hu.1.2
    obtain ⟨m₂, hm₂, h₂⟩ := ih hu.2 h₁ hm₁
    refine ⟨m₂, hm₂, ?_⟩
    simpa [Tree.eventsAll, Tree.events, Tree.renumber, hg, hg', Follows.run_cons, Formatter.step]
      using h₂
  | @node kind us vs ts ts' hou hov ihu ihv =>
    rw [List.forall_mem_append] at hu
    have hspan := keeps_spanOf? hou hu.1
    obtain ⟨m₁, hm₁, h₁⟩ := h.enter hr hm kind fun sp hsp ↦ (hspan sp hsp).1
    obtain ⟨m₂, hm₂, h₂⟩ := ihu hu.1 h₁ hm₁
    obtain ⟨m₃, hm₃, h₃⟩ := h₂.leave hr hm₂ kind fun sp hsp ↦ (hspan sp hsp).2
    obtain ⟨m₄, hm₄, h₄⟩ := ihv hu.2 h₃ hm₃
    refine ⟨m₄, hm₄, ?_⟩
    simpa [Tree.eventsAll, Tree.ofChildren, Tree.events, Tree.renumber, Tree.renumberAll_eq_map,
      Follows.run_append, Follows.run_cons, Formatter.step] using h₄

end Walk

end Mirrors

/-- **The text of a layout** is that of the bare stream. -/
theorem output_bare {r : Rules} {s : Stream} (hr : r.PassesOver s) {tree : Tree}
    (ho : Over s.mainTokens [tree]) :
    (Formatter.ofTree r s.bare (tree.renumber s.bareIndex)).output =
      (Formatter.ofTree r s tree).output := by
  have hstart : Mirrors r s {} { rules := r, stream := s } { rules := r, stream := s.bare } := by
    constructor <;> rfl
  have hm : Marks.StandIn s {} := by
    constructor <;> exact fun i hi ↦ absurd hi (by simp)
  have hu : ∀ t ∈ s.mainTokens, t ∈ s.toList ∧ t.isHidden = false := fun t ht ↦ by
    obtain ⟨hin, hh⟩ := List.mem_filter.1 ht
    exact ⟨hin, by simpa using hh⟩
  obtain ⟨m, -, h⟩ := Mirrors.run hr ho hu hstart hm
  simp only [Tree.eventsAll, List.map_cons, List.map_nil, List.append_nil] at h
  rw [Formatter.output, Formatter.output, Formatter.ofTree, Formatter.ofTree, h.chunks, h.writer]

/-! ### Sources -/

/-- No rules take the whitespace of a source for a comment. -/
theorem passesOver_tokenize (r : Rules) (source : String) : r.PassesOver (tokenize source) := by
  intro t ht hv
  have hk : t.segment.kind = .whitespace := by simpa [Token.isVisible, Segment.isVisible] using hv
  have hspace : ∀ c ∈ t.text.toList, isBlank c = true := fun c hc ↦
    isBlank_of_isSpace (forall_mem_tokenize
      (P := fun s ↦ s.kind = .whitespace → ∀ c ∈ s.text, Lexeme.isSpace c = true)
      (fun h ↦ absurd h (by decide))
      (fun s hs ↦ (Segment.formed_ofChars none source.toList s hs).space) t ht hk c hc)
  have htrim : trim t.text.toList = [] := by
    rw [trim, trimStart, List.dropWhile_eq_nil_iff.2 hspace]
    rfl
  rw [Rules.isComment, htrim]
  rfl

mutual

/-- Renumbering keeps the kinds of nodes. -/
theorem Tree.kinds_renumber (g : Nat → Nat) (t : Tree) :
    (t.renumber g).nodes.map Node.kind = t.nodes.map Node.kind := by
  cases t with
  | leaf | stray => rfl
  | node kind span children =>
    rw [renumber, nodes, nodes, List.map_cons, List.map_cons, Tree.kinds_renumberAll g children]

theorem Tree.kinds_renumberAll (g : Nat → Nat) (ts : List Tree) :
    (nodesAll (renumberAll g ts)).map Node.kind = (nodesAll ts).map Node.kind := by
  cases ts with
  | nil => rfl
  | cons t ts =>
    rw [renumberAll, nodesAll, nodesAll, List.map_append, List.map_append, Tree.kinds_renumber g t,
      Tree.kinds_renumberAll g ts]

end

/-- What is reported about a tree depends on its kinds of nodes alone, but for the lines. -/
theorem messages_ofTree (r : Rules) (s : Stream) (tree : Tree) :
    (Formatter.ofTree r s tree).diagnostics.toList.map Diagnostic.message =
      ((tree.nodes.map Node.kind).filter (· == .recovered)).map
        fun _ ↦ Cause.keptVerbatim.message := by
  rw [diagnostics_ofTree, Tree.findAll, List.map_map, List.filter_map, List.map_map]
  rfl

/-- A header that goes on went on before. -/
theorem GoesOn.of_append {ks ks' : List Kind} {k k' : Kind} (h : GoesOn (ks ++ k :: ks') k') :
    GoesOn ks k := by
  obtain ⟨more, h⟩ := h
  rw [List.append_assoc] at h
  exact ⟨_, h⟩

/-- Headers of the same tokens break at the same token. -/
theorem BreaksAt.segment_eq {us us' B B' : List Token} {t t' : Token}
    (hs : us.map Token.segment = us'.map Token.segment) (h : BreaksAt us (t :: B))
    (h' : BreaksAt us' (t' :: B')) : t.segment = t'.segment := by
  obtain ⟨A, _, _, rfl, he, ⟨k, hk⟩, hn⟩ := h
  obtain ⟨rfl, rfl⟩ := List.cons.inj he
  obtain ⟨A', _, _, rfl, he', ⟨k', hk'⟩, hn'⟩ := h'
  obtain ⟨rfl, rfl⟩ := List.cons.inj he'
  have hkind : ∀ C : List Token, (C.map Token.segment).map Segment.kind = C.map Token.kind := by
    intro C
    rw [List.map_map]
    rfl
  rw [List.map_append, List.map_append, List.map_cons, List.map_cons] at hs
  rcases List.append_eq_append_iff.1 hs with ⟨C, hC, hB⟩ | ⟨C, hC, hB⟩
  · cases C with
    | nil => exact (List.cons.inj hB).1
    | cons c C =>
      -- the second header goes on past the place where the first one breaks
      rw [← hkind, hC, List.map_append, hkind, List.map_cons, ← (List.cons.inj hB).1] at hk'
      exact absurd hk'.of_append hn
  · cases C with
    | nil => exact (List.cons.inj hB).1.symm
    | cons c C =>
      rw [← hkind, hC, List.map_append, hkind, List.map_cons, ← (List.cons.inj hB).1] at hk
      exact absurd hk.of_append hn'

/-- The main segments are among the visible ones. -/
theorem mainSegments_visible (ts : List Token) :
    (Segment.visible (ts.map Token.segment)).filter (!·.kind.isHidden) =
      (ts.filter (!·.isHidden)).map Token.segment := by
  induction ts with
  | nil => rfl
  | cons t ts ih =>
    rw [List.map_cons, Segment.visible_cons, List.filter_append, ih]
    cases hh : t.isHidden with
    | true =>
      have hnone : (Segment.visible [t.segment]).filter (!·.kind.isHidden) = [] := by
        refine List.filter_eq_nil_iff.2 fun c hc ↦ ?_
        obtain ⟨u, hu, rfl⟩ := List.mem_map.1 hc
        obtain rfl := List.mem_singleton.1 (List.mem_filter.1 hu).1
        rw [Segment.kind_trimmed, show t.segment.kind.isHidden = true from hh]
        decide
      rw [hnone, List.filter_cons_of_neg (by simp [hh]), List.nil_append]
    | false =>
      have hk : t.segment.kind.isHidden = false := hh
      rw [visible_segment, hh, if_neg (by simp), List.filter_cons_of_pos (by simp [hk]),
        List.filter_cons_of_pos (by simp [hh])]
      rfl

/-- The text and the messages of the layout of a bare stream, if it can be read. -/
def Stream.bareLayout (r : Rules) (b : Stream) : Option (String × List String) :=
  (readGrammar b.mainTokens).toOption.map fun tree ↦
    (String.join (Formatter.ofTree r b tree).output,
      (Formatter.ofTree r b tree).diagnostics.toList.map Diagnostic.message)

/-- **The text and the messages of a layout** are those of the bare stream. -/
theorem toOption_format (r : Rules) (source : String) :
    (format r source).toOption.map (fun out ↦
      (out.rendered, out.diagnostics.map Diagnostic.message)) =
        (tokenize source).bare.bareLayout r := by
  have hread := toOption_readGrammar_map (tokenize source).renumbers_bareToken
    (tokenize source).mainTokens
  rw [Stream.bareLayout, Stream.mainTokens_bare, hread, ← toOption_parse]
  cases hp : parse (tokenize source) with
  | error d =>
    rw [format_eq_error_iff.2 ⟨d, hp, rfl⟩]
    rfl
  | ok tree =>
    have ho := output_bare (passesOver_tokenize r source) (derives_of_parse hp).over
    rw [format_eq_ok_iff.2 ⟨tree, hp, rfl⟩]
    simp only [Except.toOption, Option.map_some, ho, messages_ofTree, Tree.kinds_renumber]
    rw [← messages_ofTree r (tokenize source)]
    rfl

/-- A source that is not formatted breaks off in its header, and that is reported. -/
theorem breaksAt_of_format {r : Rules} {source : String} {e : FormatError}
    (h : format r source = .error e) :
    ∃ t B, BreaksAt (tokenize source).mainTokens (t :: B) ∧
      e.diagnostics.map Diagnostic.message =
        [Cause.message (if t.isEof then .unexpectedEnd else .unexpectedToken t.text)] := by
  obtain ⟨d, hd, rfl⟩ := format_eq_error_iff.1 h
  rw [parse] at hd
  rcases readGrammar_cases (terminated_tokenize source) with ⟨-, tree, hr⟩ | ⟨rest, hb, hr⟩
  · rw [hr] at hd
    exact absurd hd (by simp)
  · obtain ⟨A, t, B, he, rfl, hA⟩ := hb
    refine ⟨t, B, ⟨A, t, B, he, rfl, hA⟩, ?_⟩
    rw [hr] at hd
    obtain rfl := Except.error.inj hd
    rfl

/-- **Whitespace does not matter**: sources with the same visible segments either both fail, with
the same messages, or both have a layout, with the same text and the same messages. -/
theorem format_eq_of_visible_eq (r : Rules) {source source' : String}
    (h : Segment.visible ((tokenize source).toList.map Token.segment) =
      Segment.visible ((tokenize source').toList.map Token.segment)) :
    (∃ e e', format r source = .error e ∧ format r source' = .error e' ∧
      e'.diagnostics.map Diagnostic.message = e.diagnostics.map Diagnostic.message) ∨
    (∃ out out', format r source = .ok out ∧ format r source' = .ok out' ∧
      out'.rendered = out.rendered ∧
      out'.diagnostics.map Diagnostic.message = out.diagnostics.map Diagnostic.message) := by
  have hbare : (tokenize source).bare = (tokenize source').bare := by
    rw [Stream.bare, Stream.bare, h]
  have heq := (toOption_format r source).trans
    ((congrArg (Stream.bareLayout r) hbare).trans (toOption_format r source').symm)
  cases hf : format r source with
  | ok out =>
    cases hf' : format r source' with
    | ok out' =>
      rw [hf, hf'] at heq
      obtain ⟨ht, hm⟩ := Prod.mk.inj (Option.some.inj heq)
      exact .inr ⟨out, out', rfl, rfl, ht.symm, hm.symm⟩
    | error e' =>
      rw [hf, hf'] at heq
      exact absurd heq (Option.some_ne_none _)
  | error e =>
    cases hf' : format r source' with
    | ok out' =>
      rw [hf, hf'] at heq
      exact absurd heq.symm (Option.some_ne_none _)
    | error e' =>
      obtain ⟨t, B, hb, hm⟩ := breaksAt_of_format hf
      obtain ⟨t', B', hb', hm'⟩ := breaksAt_of_format hf'
      have hsegs : (tokenize source).mainTokens.map Token.segment =
          (tokenize source').mainTokens.map Token.segment := by
        rw [Stream.mainTokens, ← mainSegments_visible, h, mainSegments_visible]
        rfl
      -- the two headers break at tokens that look the same
      obtain ⟨hk, ht⟩ := Segment.mk.inj (hb.segment_eq hsegs hb')
      rw [String.toList_inj] at ht
      refine .inl ⟨e, e', rfl, rfl, ?_⟩
      rw [hm, hm', Token.isEof, Token.isEof, hk, ht]

/-- A comment and a part that cannot be read, on lines of their own or not. -/
theorem spread_out_layout :
    ∃ out out', format Rules.standard "grammar T; // c \na:b;/ ;" = .ok out ∧
      format Rules.standard "\ngrammar\tT ;// c\n\n  a : b\n;\n/\n;" = .ok out' ∧
      out'.rendered = out.rendered ∧
      out'.diagnostics.map Diagnostic.message = out.diagnostics.map Diagnostic.message := by
  have hv : Segment.visible ((tokenize "grammar T; // c \na:b;/ ;").toList.map Token.segment) =
      Segment.visible
        ((tokenize "\ngrammar\tT ;// c\n\n  a : b\n;\n/\n;").toList.map Token.segment) := by
    decide +kernel
  have hf : formatsTo Rules.standard "grammar T; // c \na:b;/ ;" (!·.diagnostics.isEmpty) = true := by
    decide +kernel
  obtain ⟨out, ho, -⟩ := exists_of_formatsTo hf
  rcases format_eq_of_visible_eq Rules.standard hv with ⟨e, e', he, -, -⟩ | h
  · rw [ho] at he
    exact absurd he (by simp)
  · exact h

end GrammarLayout
