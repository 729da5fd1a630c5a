import GrammarLayout.Proofs.Layout.Relaid
import GrammarLayout.Proofs.Layout.Trimming

/-!
# Strokes that can be read again

Strokes are written one after another with their separators. Whether a scan of that text finds them
again depends on three things, which `Settled` bundles: neighbours are joined as the rules allow, a
line comment at the end has its line end, and the segments whose reading depends on more of what
follows are read as before (`KeepsAll`). All three are inherited by what comes after a stroke and by
what stands before one, so proofs by induction over strokes carry them along as one hypothesis.

What is read between the pieces of an action are more pieces, since blanks count there
(`spacedPieces`); they leave the braces as they were.
-/

namespace GrammarLayout

/-! ### Segments that depend on what follows -/

/-- A segment is read as before although `rest` follows it now. -/
structure Keeps (c : Segment) (rest : List Char) : Prop where
  /-- A piece of an action that is open at its end is read as that piece. -/
  content : c.kind = .actionContent → Action.isOpen c.text = true → Action.Reads c.text rest
  /-- An opener that starts no lexeme starts none now. -/
  unknown : c.kind = .unknown → ∀ a t, c.text = a :: t → Lexeme.isOpener a = true →
    Lexeme.next a (t ++ rest) = (.unknown c.text, rest)
  /-- A doc comment has its terminator. -/
  doc : c.kind = .docComment → Lexeme.ClosedComment c.text

/-- A comment that is kept without its terminator is no doc comment. -/
theorem Keeps.isDocComment_eq_false {text rest : List Char}
    (h : Keeps (Segment.ofPlain .blockComment text).trimmed rest)
    (hopen : ¬Lexeme.ClosedComment text) : Segment.isDocComment text = false := by
  by_contra hd
  have hk : (Segment.ofPlain .blockComment text).trimmed = ⟨.docComment, text⟩ := by
    rw [Segment.ofPlain, if_pos ⟨rfl, by simpa using hd⟩]
    exact Segment.trimmed_of_main rfl
  rw [hk] at h
  exact hopen (h.doc rfl)

/-- All strokes are read as before in the text they make, followed by `rest`. -/
def KeepsAll (width : Nat) : List Stroke → List Char → Prop
  | [], _ => True
  | s :: ss, rest => Keeps s.segment (inked width ss ++ rest) ∧ KeepsAll width ss rest

theorem keepsAll_append {width : Nat} {ss ss' : List Stroke} {rest : List Char} :
    KeepsAll width (ss ++ ss') rest ↔
      KeepsAll width ss (inked width ss' ++ rest) ∧ KeepsAll width ss' rest := by
  induction ss with
  | nil => simp [KeepsAll]
  | cons s ss ih =>
    rw [List.cons_append, KeepsAll, KeepsAll, ih, inked_append, List.append_assoc, and_assoc]

/-- What is kept before a closing brace is kept up to it. -/
theorem KeepsAll.cut {width : Nat} {ss : List Stroke} {gap more : List Char}
    (h : KeepsAll width ss (gap ++ '\x7d' :: more)) (ht : ∀ s ∈ ss, s.segment.isTame = true) :
    KeepsAll width ss gap := by
  induction ss with
  | nil => trivial
  | cons s ss ih =>
    rw [List.forall_mem_cons] at ht
    refine ⟨⟨fun hk ho ↦ ?_, fun hk a t hat ho ↦ ?_, h.1.doc⟩, ih h.2 ht.2⟩
    · have hr := h.1.content hk ho
      rw [← List.append_assoc] at hr
      exact hr.cut
    · -- calm characters open nothing
      have ha := Segment.isCalm_of_isTame ht.1 (by simp [hk]) (by simp [hk])
      rw [Segment.isCalm, hk] at ha
      have hm := List.all_eq_true.1 ha a (by rw [hat]; exact List.mem_cons_self)
      simp only [Lexeme.isOpener, Bool.or_eq_true, beq_iff_eq] at ho
      rcases ho with (rfl | rfl) | rfl <;> exact absurd hm (by decide)

/-! ### Pieces with separators between them -/

/-- A separator inside an action is read as one piece for each of its characters. -/
def gapPieces (gap : List Char) : List (List Char) := gap.map fun c ↦ [c]

@[simp] theorem flatten_gapPieces (gap : List Char) : (gapPieces gap).flatten = gap := by
  induction gap with
  | nil => rfl
  | cons c gap ih => rw [gapPieces, List.map_cons, List.flatten_cons, ← gapPieces, ih]; rfl

theorem readAll_gapPieces {gap : List Char} (hg : ∀ c ∈ gap, Lexeme.isSpace c = true)
    (rest : List Char) : Action.ReadAll (gapPieces gap) rest := by
  induction gap with
  | nil => trivial
  | cons c gap ih =>
    rw [List.forall_mem_cons] at hg
    exact ⟨Action.reads_singleton (Action.quiet_of_isSpace hg.1).1 _, ih hg.2⟩

theorem depthThrough_gapPieces {gap : List Char} (hg : ∀ c ∈ gap, Lexeme.isSpace c = true)
    (depth : Nat) : Action.depthThrough depth (gapPieces gap) = some depth := by
  induction gap with
  | nil => rfl
  | cons c gap ih =>
    rw [List.forall_mem_cons] at hg
    have hb : allBlank [c] = true := by simp [allBlank, isBlank_of_isSpace hg.1]
    rw [gapPieces, List.map_cons, ← gapPieces, Action.depthThrough, depthAfter_of_allBlank hb]
    exact ih hg.2

/-- The pieces that strokes inside an action are read as. -/
def spacedPieces (width : Nat) (qs : List Stroke) : List (List Char) :=
  qs.flatMap fun q ↦ gapPieces (q.gap.text width) ++ [q.segment.text]

theorem spacedPieces_cons (width : Nat) (q : Stroke) (qs : List Stroke) :
    spacedPieces width (q :: qs) =
      gapPieces (q.gap.text width) ++ ([q.segment.text] ++ spacedPieces width qs) := by
  simp [spacedPieces]

@[simp] theorem flatten_spacedPieces (width : Nat) (qs : List Stroke) :
    (spacedPieces width qs).flatten = inked width qs := by
  induction qs with
  | nil => rfl
  | cons q qs ih => rw [spacedPieces_cons]; simp [ih]

theorem depthThrough_spacedPieces (width : Nat) (qs : List Stroke) (depth : Nat) :
    Action.depthThrough depth (spacedPieces width qs) =
      Action.depthThrough depth (qs.map (·.segment.text)) := by
  induction qs generalizing depth with
  | nil => rfl
  | cons q qs ih =>
    rw [spacedPieces_cons, Action.depthThrough_append,
      depthThrough_gapPieces (isSpace_separator width q.gap), Option.bind_some,
      List.singleton_append, List.map_cons, Action.depthThrough, Action.depthThrough]
    simp only [ih]

namespace Thinned

variable {width : Nat} {texts : List (List Char)} {qs : List Stroke} {gap rest : List Char}

theorem readAll_spaced {rest' : List Char} (hq : Thinned texts qs)
    (hr : Action.ReadAll texts rest') (h : KeepsAll width qs rest) :
    Action.ReadAll (spacedPieces width qs) rest := by
  have hk := hq.kind
  have hm := hq.mem
  clear hq
  induction qs with
  | nil => trivial
  | cons q qs ih =>
    rw [List.forall_mem_cons] at hk hm
    rw [spacedPieces_cons]
    refine (readAll_gapPieces (isSpace_separator width q.gap) _).append
      (.append ⟨?_, trivial⟩ (ih h.2 hk.2 hm.2))
    show Action.Reads q.segment.text ((spacedPieces width qs).flatten ++ rest)
    rw [flatten_spacedPieces]
    cases ho : Action.isOpen q.segment.text with
    | true => exact h.1.content hk.1 ho
    | false =>
      obtain ⟨_, hread⟩ := hr.exists_reads hm.1
      exact hread.again ho _

/-- **The pieces of an action are read again**, with its separators as further pieces. -/
theorem readAll {body : List Char} (hq : Thinned (Action.pieces body) qs)
    (hg : ∀ c ∈ gap, Lexeme.isSpace c = true) (h : KeepsAll width qs (gap ++ rest)) :
    Action.ReadAll (spacedPieces width qs ++ gapPieces gap) rest := by
  refine .append (hq.readAll_spaced (Action.readAll_pieces body) ?_) (readAll_gapPieces hg _)
  rwa [flatten_gapPieces]

/-- Separators leave the braces of an action as they were. -/
theorem depthThrough (hq : Thinned texts qs) (hg : ∀ c ∈ gap, Lexeme.isSpace c = true) :
    Action.depthThrough 0 (spacedPieces width qs ++ gapPieces gap) =
      Action.depthThrough 0 texts := by
  rw [Action.depthThrough_append, depthThrough_spacedPieces, hq.depth]
  cases Action.depthThrough 0 texts with
  | none => rfl
  | some depth => exact depthThrough_gapPieces hg depth

end Thinned

/-! ### What follows strokes -/

/-- If the last stroke is a line comment, the text goes on with a line end. -/
def Ended (ss : List Stroke) (rest : List Char) : Prop :=
  ∀ s ∈ ss.getLast?, s.segment.kind = .lineComment → ∃ more, rest = '\n' :: more

theorem Ended.of_append {ss ss' : List Stroke} {rest : List Char} (h : Ended (ss ++ ss') rest) :
    Ended ss' rest := fun u hu ↦
  h u (by rw [List.getLast?_append, Option.mem_def.1 hu]; rfl)

theorem exists_of_isLines {g : Separator} (h : g.isLines = true) (width : Nat) :
    ∃ more, g.text width = '\n' :: more := by
  cases g with
  | nothing | space => exact absurd h (by decide)
  | lines more depth => exact ⟨_, by rw [Separator.text, List.replicate_succ, List.cons_append]⟩

/-- Strokes are written before `rest` in such a way that they can be read again. -/
structure Settled (r : Rules) (width : Nat) (ss : List Stroke) (rest : List Char) : Prop where
  /-- Neighbours are joined as the rules allow. -/
  chain : ss.IsChain (Joins r)
  /-- A line comment at the end has its line end. -/
  ended : Ended ss rest
  /-- Segments that depend on what follows are read as before. -/
  keeps : KeepsAll width ss rest

namespace Settled

variable {r : Rules} {width : Nat} {s : Stroke} {ss ss' : List Stroke} {rest : List Char}

theorem tail (h : Settled r width (s :: ss) rest) : Settled r width ss rest :=
  ⟨h.chain.tail, (show Ended ([s] ++ ss) rest from h.ended).of_append, h.keeps.2⟩

/-- Strokes after one of them. -/
theorem after (h : Settled r width (ss ++ s :: ss') rest) : Settled r width ss' rest :=
  tail (s := s) ⟨(List.isChain_append.1 h.chain).2.1, h.ended.of_append,
    (keepsAll_append.1 h.keeps).2⟩

/-- Strokes up to one of them. -/
theorem upTo (h : Settled r width (ss ++ s :: ss') rest) :
    Settled r width ss (s.gap.text width ++ (s.segment.text ++ (inked width ss' ++ rest))) := by
  refine ⟨(List.isChain_append.1 h.chain).1, fun u hu hk ↦ ?_, ?_⟩
  · obtain ⟨more, hm⟩ :=
      exists_of_isLines (((List.isChain_append.1 h.chain).2.2 u hu s rfl).ended hk) width
    exact ⟨_, by rw [hm, List.cons_append]⟩
  · have hk := (keepsAll_append.1 h.keeps).1
    rwa [inked_cons, List.append_assoc, List.append_assoc] at hk

/-- Tame strokes before a closing brace, up to it. -/
theorem cut {gap more : List Char} (h : Settled r width ss (gap ++ '\x7d' :: more))
    (ht : ∀ s ∈ ss, s.segment.isTame = true) : Settled r width ss gap := by
  refine ⟨h.chain, fun u hu hk ↦ ?_, h.keeps.cut ht⟩
  obtain ⟨m, hm⟩ := h.ended u hu hk
  cases gap with
  | nil => exact absurd (List.cons.inj hm).1 (by decide)
  | cons c gap => exact ⟨gap, by rw [(List.cons.inj hm).1]⟩

/-- A line comment is followed by a line end. -/
theorem endsLine_head (h : Settled r width (s :: ss) rest) (hk : s.segment.kind = .lineComment) :
    ∀ d ∈ (inked width ss ++ rest).head?, endsLine d = true := by
  have hnl : ∃ more, inked width ss ++ rest = '\n' :: more := by
    cases ss with
    | nil => exact h.ended s rfl hk
    | cons s' ss =>
      obtain ⟨more, hm⟩ :=
        exists_of_isLines ((List.isChain_cons.1 h.chain).1 s' rfl |>.ended hk) width
      exact ⟨more ++ (s'.segment.text ++ (inked width ss ++ rest)), by simp [hm]⟩
  obtain ⟨more, hm⟩ := hnl
  rw [hm]
  rintro d ⟨⟩
  rfl

end Settled

end GrammarLayout
