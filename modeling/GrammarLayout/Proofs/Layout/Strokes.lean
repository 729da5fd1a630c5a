import GrammarLayout.Proofs.Layout.Walk
import Mathlib.Data.List.Chain

/-!
# Strokes of a page

What a page may look like while trees are laid out on it.

* *Nothing is lost.* Segments are laid out in their order (`Laid`). The end marker is not written,
  and of an action the blanks at the start of a line are dropped; how an action is laid out is told
  exactly, by `pieceStrokes`.
* *Neighbours are kept apart.* Strokes that touch are of a few sorts, and a line comment is followed
  by a line end (`Joins`). What is pending on the page is part of the invariant (`Sound`), which
  every step of writing preserves.
-/

namespace GrammarLayout

/-! ### Layout of actions -/

/-- Whether a line ends after a piece of an action. -/
def breaksAfter (text : List Char) : Bool := text == [';'] || text == ['@']

/-- The strokes of the pieces of an action at a depth, `gap` having been begun before them, and the
separator that is begun after them. Blanks at the start of a line are dropped. -/
def pieceStrokes (depth : Nat) (gap : Separator) : List Segment → List Stroke × Separator
  | [] => ([], gap)
  | c :: cs =>
    if gap.isLines && allBlank c.text then pieceStrokes depth gap cs
    else
      let more := pieceStrokes depth (if breaksAfter c.text then .lines 0 depth else .nothing) cs
      (⟨gap, c⟩ :: more.1, more.2)

/-- Segments with the strokes they are written as. Any segment that `lone` admits may stand by
itself; a whole action is laid out piece by piece. -/
inductive Laid (lone : Segment → Prop) : List Segment → List Stroke → Prop
  /-- Nothing. -/
  | nil : Laid lone [] []
  /-- The end marker is not written. -/
  | eof {c : Segment} {cs : List Segment} {ss : List Stroke} (hk : c.kind = .eof)
      (h : Laid lone cs ss) : Laid lone (c :: cs) ss
  /-- A segment is written after some separator. -/
  | stroke {c : Segment} {cs : List Segment} {ss : List Stroke} (gap : Separator) (hc : lone c)
      (h : Laid lone cs ss) : Laid lone (c :: cs) (⟨gap, c⟩ :: ss)
  /-- An action is written piece by piece. -/
  | action {b e : Segment} {ps cs : List Segment} {ss : List Stroke} (gap : Separator) (depth : Nat)
      (hb : b = ⟨.beginAction, ['\x7b']⟩) (hp : ∀ p ∈ ps, p.kind = .actionContent)
      (he : e = ⟨.endAction, ['\x7d']⟩) (h : Laid lone cs ss) :
      Laid lone (b :: (ps ++ [e]) ++ cs)
        (⟨gap, b⟩ :: ((pieceStrokes depth .nothing ps).1 ++
          [⟨(pieceStrokes depth .nothing ps).2, e⟩]) ++ ss)

namespace Laid

variable {lone : Segment → Prop} {cs cs' : List Segment} {ss ss' : List Stroke}

/-- Segments side by side. -/
theorem append (h : Laid lone cs ss) (h' : Laid lone cs' ss') :
    Laid lone (cs ++ cs') (ss ++ ss') := by
  induction h with
  | nil => exact h'
  | eof hk _ ih => exact .eof hk ih
  | stroke gap hc _ ih => exact .stroke gap hc ih
  | action gap depth hb hp he _ ih =>
    rw [List.append_assoc, List.append_assoc]
    exact .action gap depth hb hp he ih

/-- If nothing is written, nothing but the end marker came. -/
theorem kind_of_nil (h : Laid lone cs []) : ∀ c ∈ cs, c.kind = .eof := by
  generalize hs : ([] : List Stroke) = ss at h
  induction h with
  | nil => exact fun c hc ↦ absurd hc (by simp)
  | eof hk _ ih => exact List.forall_mem_cons.2 ⟨hk, ih hs⟩
  | stroke => exact absurd hs (by simp)
  | action => exact absurd hs (by simp)

end Laid

/-! ### Neighbours -/

/-- What is known of a stroke and the next one: they touch only where no space is due, and a line
comment ends its line. -/
structure Joins (r : Rules) (a b : Stroke) : Prop where
  /-- Strokes that touch. -/
  touch : b.gap = .nothing → String.ofList a.segment.text ∈ r.noSpaceAfter ∨
    String.ofList b.segment.text ∈ r.noSpaceBefore ∨ b.segment.kind.isHidden = true ∨
      b.segment.kind.isActionPiece = true
  /-- Strokes after a line comment. -/
  ended : a.segment.kind = .lineComment → b.gap.isLines = true

/-- A segment that is a comment as it is written: a line comment starts with two slashes. -/
structure IsCommentText (c : Segment) : Prop where
  /-- It is hidden. -/
  hidden : c.kind.isHidden = true
  /-- Line comments are known by their start. -/
  slashes : c.kind = .lineComment → Rules.startsWith "//" c.text = true

/-- The strokes of a page fit together. -/
structure Fitting (r : Rules) (p : Page) : Prop where
  /-- What is still to be written are comments. -/
  comments : ∀ c ∈ p.comments, IsCommentText c
  /-- The separator that was begun is made of line ends. -/
  gap_ne_space : p.gap ≠ .space
  /-- A page does not start with a line end. -/
  gap_nil : p.strokes = [] → p.gap = .nothing
  /-- Nothing stands before the first stroke. -/
  head : ∀ s ∈ p.strokes.head?, s.gap = .nothing
  /-- Each stroke fits the one before it. -/
  chain : p.strokes.IsChain (Joins r)

/-- The strokes of a page fit together, and so will the next one: after a line comment a line end is
there, or pending. -/
structure Sound (r : Rules) (p : Page) : Prop extends Fitting r p where
  /-- A line comment is not left open. -/
  ended : ∀ s ∈ p.strokes.getLast?, s.segment.kind = .lineComment →
    p.breakPending = true ∨ p.gap.isLines = true

/-- At most one line end has been begun. -/
def Calm (p : Page) : Prop := p.gap = .nothing ∨ ∃ depth, p.gap = .lines 0 depth

section Soundness

variable {r : Rules} {p : Page}

/-- A new line leaves no line comment open. -/
theorem Fitting.newLine (h : Fitting r p) : Sound r p.newLine := by
  cases he : p.strokes.isEmpty with
  | true =>
    have hn : p.strokes = [] := List.isEmpty_iff.1 he
    have hp : p.newLine = { p with breakPending := false } := by rw [Page.newLine, he]; rfl
    rw [hp]
    exact { h with ended := fun s hs ↦ absurd hs (by simp [hn]) }
  | false =>
    have hp : p.newLine = { p with gap := p.gap.broken p.depth, breakPending := false } := by
      rw [Page.newLine, he]; rfl
    rw [hp]
    exact { h with
      gap_ne_space := Separator.broken_ne_space _ _
      gap_nil := fun hn ↦ absurd hn (by simpa using he)
      ended := fun _ _ _ ↦ .inr (Separator.isLines_broken _ _) }

/-- Where no break is pending, a line comment has its line end. -/
theorem Sound.isLines (h : Sound r p) (hb : p.breakPending = false) :
    ∀ s ∈ p.strokes.getLast?, s.segment.kind = .lineComment → p.gap.isLines = true := by
  intro s hs hk
  rcases h.ended s hs hk with h' | h'
  · exact absurd h' (by simp [hb])
  · exact h'

theorem Sound.settle (h : Sound r p) : Sound r p.settle ∧ p.settle.breakPending = false := by
  rw [Page.settle]
  split
  · exact ⟨h.newLine, rfl⟩
  · rename_i hb
    exact ⟨h, by simpa using hb⟩

theorem previous_eq {s : Stroke} (hs : s ∈ p.strokes.getLast?) :
    p.previous = String.ofList s.segment.text := by
  rw [Page.previous, Option.mem_def.1 hs]
  rfl

/-- A stroke that fits the one before it may be written. -/
theorem Fitting.write (h : Fitting r p) {gap : Separator} {c : Segment}
    (hj : ∀ s ∈ p.strokes.getLast?, Joins r s ⟨gap, c⟩) (hf : p.strokes = [] → gap = .nothing) :
    Fitting r (p.write gap c) where
  comments := h.comments
  gap_ne_space := Separator.noConfusion
  gap_nil := fun _ ↦ rfl
  head := by
    intro s hs
    cases he : p.strokes with
    | nil =>
      simp only [Page.write, he, List.nil_append, List.head?_cons, Option.mem_def,
        Option.some.injEq] at hs
      rw [← hs]
      exact hf he
    | cons a as =>
      refine h.head s ?_
      simpa [Page.write, he] using hs
  chain := by
    rw [Page.write, List.isChain_append]
    refine ⟨h.chain, List.isChain_singleton _, fun a ha b hb ↦ ?_⟩
    obtain rfl : ⟨gap, c⟩ = b := by simpa using hb
    exact hj a ha

/-- A main segment leaves no line comment open. -/
theorem Fitting.sound_of_main {gap : Separator} {c : Segment} (h : Fitting r (p.write gap c))
    (hc : c.kind.isHidden = false) : Sound r (p.write gap c) := by
  refine { h with ended := fun s hs hl ↦ ?_ }
  obtain rfl : ⟨gap, c⟩ = s := by simpa [Page.write] using hs
  rw [show c.kind = .lineComment from hl] at hc
  exact absurd hc (by decide)

/-- The text of a leaf is written where it fits. Inside an action, only its pieces are. -/
theorem Sound.emit (h : Sound r p) {c : Segment} (hc : c.kind.isHidden = false)
    (ha : p.frames.active = .actionBlock → c.kind.isActionPiece = true) :
    Sound r (p.emit r c) := by
  obtain ⟨hs, hb⟩ := h.settle
  have hfr : p.settle.frames = p.frames := by
    rw [Page.settle]
    split <;> rfl
  rw [Page.emit]
  split
  · exact hs
  refine (hs.toFitting.write (fun s hm ↦ ⟨fun hn ↦ ?_, fun hk ↦ ?_⟩) fun hn ↦ ?_).sound_of_main hc
  · -- neither at the start of a line nor with a space: the rules or the action say so
    have hns : r.needsSpace p.settle.previous (String.ofList c.text) p.settle.frames.active
        p.settle.atLineStart = false := by
      by_contra hd
      rw [Page.gapBefore, if_pos (by simpa using hd)] at hn
      exact absurd hn (by simp)
    have hg : p.settle.gap = .nothing := by
      rw [Page.gapBefore, hns] at hn
      exact hn
    have hl : p.settle.atLineStart = false := by
      have he : p.settle.strokes.isEmpty = false := by
        cases hse : p.settle.strokes with
        | nil => rw [hse] at hm; exact absurd hm (by simp)
        | cons => rfl
      rw [Page.atLineStart, he, hg]
      rfl
    rw [Rules.needsSpace, hl, previous_eq hm] at hns
    by_cases hact : p.settle.frames.active = .actionBlock
    · exact .inr (.inr (.inr (ha (by rw [← hfr]; exact hact))))
    · simp only [Bool.false_or, beq_iff_eq, hact, if_false, Bool.not_eq_false', Bool.or_eq_true,
        List.contains_iff_mem] at hns
      rcases hns with hns | hns
      · exact .inl hns
      · exact .inr (.inl hns)
  · have hl := hs.isLines hb s hm hk
    have hat : p.settle.atLineStart = true := by rw [Page.atLineStart, hl, Bool.or_true]
    rw [Page.gapBefore, Rules.needsSpace, hat]
    exact hl
  · have hat : p.settle.atLineStart = true := by rw [Page.atLineStart, hn]; rfl
    rw [Page.gapBefore, Rules.needsSpace, hat]
    exact hs.gap_nil hn

/-- A comment is written where it fits. -/
theorem Sound.writeComment (h : Sound r p) (category : Category) {c : Segment}
    (hc : IsCommentText c) : Sound r (p.writeComment category c) := by
  have hq : Sound r (p.beforeComment category) ∧
      (p.beforeComment category).breakPending = false := by
    rw [Page.beforeComment]
    split
    · exact ⟨h.newLine, rfl⟩
    · rename_i hb
      simp only [Bool.or_eq_true, not_or] at hb
      exact ⟨h, by simpa using hb.2⟩
  obtain ⟨hs, hb⟩ := hq
  rw [Page.writeComment]
  generalize p.beforeComment category = q at hs hb
  have hw : Fitting r (q.write q.gap c) :=
    hs.toFitting.write (fun s hm ↦ ⟨fun _ ↦ .inr (.inr (.inl hc.hidden)), hs.isLines hb s hm⟩)
      hs.gap_nil
  rw [Page.afterComment]
  split
  · exact hw.newLine
  · split
    · exact { hw with ended := fun _ _ _ ↦ .inl rfl }
    · rename_i hsl
      refine { hw with ended := fun s hm hl ↦ ?_ }
      obtain rfl : ⟨q.gap, c⟩ = s := by simpa [Page.write] using hm
      exact absurd (hc.slashes hl) hsl

end Soundness

end GrammarLayout
