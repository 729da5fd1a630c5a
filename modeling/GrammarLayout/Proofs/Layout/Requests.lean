import GrammarLayout.Proofs.Layout.Bare

/-!
# Requests for comments

A walk of a tree asks for comments in an order of its own, which the three marks are made for. What
the marks promise does not depend on it: whatever is asked for, and however often, comments are
given out in the order of the stream and none of them twice (`comments_given_once`).

A mark remembers one position and stands for many. It is the largest of the positions it was set to
(`Marks.TopOf`), so a position lies past the mark exactly if it lies past all of them. With that the
marks are told by what was asked for and given out before (`Marks.Reflects`), and so is the next
answer (`Marks.Request.answer`): unless a node that starts, or ends, there or later was served, it
is the comments of the run next to the position that come after all that was given out.
-/

namespace GrammarLayout

/-! ### Hidden runs next to any position -/

namespace Stream

/-- The hidden run before a position, inside the stream or past its end. -/
theorem hiddenBefore_eq_hiddenEnd (s : Stream) (i : Nat) :
    s.hiddenBefore i = hiddenEnd (s.toList.take i) := by
  have hsplit : s.toList = s.toList.take i ++ s.toList.drop i := (List.take_append_drop i _).symm
  rw [hiddenBefore, size_eq_length, ← List.length_take, hiddenBack_eq hsplit, List.append_nil]

theorem hiddenEnd_sublist (ts : List Token) : (hiddenEnd ts).Sublist ts := by
  have h : (ts.reverse.takeWhile (·.isHidden)).reverse.Sublist ts.reverse.reverse :=
    (List.takeWhile_sublist _).reverse
  rwa [List.reverse_reverse] at h

theorem isHidden_of_mem_hiddenEnd {ts : List Token} {t : Token} (h : t ∈ hiddenEnd ts) :
    t.isHidden = true :=
  (List.all_eq_true.1 List.all_takeWhile) t (List.mem_reverse.1 h)

end Stream

namespace Marks

/-! ### Marks as largest positions -/

/-- A mark stands for positions: what lies past the mark lies past all of them. -/
def TopOf (mark : Option Nat) (positions : List Nat) : Prop :=
  ∀ i, isPast i mark = positions.all (· < i)

namespace TopOf

variable {mark : Option Nat} {positions : List Nat}

theorem none : TopOf none [] := fun _ ↦ rfl

/-- A mark moves along with positions that increase and lie past it. -/
theorem append (h : TopOf mark positions) {run : List Nat} (hr : run.Pairwise (· < ·))
    (hp : ∀ i ∈ run, isPast i mark = true) :
    TopOf (run.getLast?.or mark) (positions ++ run) := by
  rcases List.eq_nil_or_concat run with rfl | ⟨run, z, rfl⟩
  · simpa using h
  intro i
  rw [List.concat_eq_append] at hr hp ⊢
  rw [List.getLast?_concat, Option.some_or, isPast, Bool.eq_iff_iff]
  simp only [decide_eq_true_eq, List.all_append, Bool.and_eq_true, List.all_eq_true,
    List.mem_singleton, forall_eq]
  refine ⟨fun hz ↦ ⟨fun j hj ↦ ?_, fun j hj ↦ ?_, hz⟩, fun hall ↦ hall.2.2⟩
  · have hpast := hp z (by simp)
    rw [h z, List.all_eq_true] at hpast
    exact Nat.lt_trans (of_decide_eq_true (hpast j hj)) hz
  · exact Nat.lt_trans ((List.pairwise_append.1 hr).2.2 j hj z (List.mem_singleton_self z)) hz

/-- A mark stays where it is for a position that does not lie past it. -/
theorem append_of_not_isPast (h : TopOf mark positions) {j : Nat} (hj : isPast j mark = false) :
    TopOf mark (positions ++ [j]) := by
  intro i
  rw [h j, List.all_eq_false] at hj
  obtain ⟨k, hk, hjk⟩ := hj
  rw [h i, List.all_append, List.all_cons, List.all_nil, Bool.and_true, eq_comm,
    Bool.and_eq_left_iff_imp, List.all_eq_true]
  intro hall
  have hki := of_decide_eq_true (hall k hk)
  simp only [decide_eq_true_eq] at hjk ⊢
  omega

end TopOf

/-! ### Requests and their answers -/

/-- One request for comments. -/
inductive Request
  /-- The comments before a node. -/
  | left (span : Span)
  /-- The comments after a node. -/
  | right (span : Span)
  /-- The comments just before a position. -/
  | before (i : Nat)
  deriving DecidableEq, Repr

/-- Answers a request. -/
def serve (r : Rules) (s : Stream) (m : Marks) : Request → List Token × Marks
  | .left span => m.flushLeft r s span
  | .right span => m.flushRight r s span
  | .before i => m.flushBefore r s i

/-- Answers requests one after the other. -/
def answers (r : Rules) (s : Stream) : Marks → List Request → List (List Token)
  | _, [] => []
  | m, q :: qs => (m.serve r s q).1 :: answers r s (m.serve r s q).2 qs

/-- The marks after requests. -/
def after (r : Rules) (s : Stream) (m : Marks) (asked : List Request) : Marks :=
  asked.foldl (fun m q ↦ (m.serve r s q).2) m

theorem answers_append (r : Rules) (s : Stream) (m : Marks) (qs qs' : List Request) :
    answers r s m (qs ++ qs') = answers r s m qs ++ answers r s (m.after r s qs) qs' := by
  induction qs generalizing m with
  | nil => rfl
  | cons q qs ih => simp only [List.cons_append, answers, ih, after, List.foldl_cons]

namespace Request

/-- The node starts asked for. -/
def starts (asked : List Request) : List Nat :=
  asked.filterMap fun
    | left span => some span.first
    | _ => none

/-- The node ends asked for. -/
def stops (asked : List Request) : List Nat :=
  asked.filterMap fun
    | right span => some span.last
    | _ => none

/-- Whether a request has an answer after others: no node that starts there or later was served, or
none that ends there or later. -/
def isFresh (asked : List Request) : Request → Bool
  | left span => (starts asked).all (· < span.first)
  | right span => (stops asked).all (· < span.last)
  | before _ => true

/-- The hidden run a request is about. -/
def run (s : Stream) : Request → List Token
  | left span => s.hiddenBefore span.first
  | right span => s.hiddenAfter span.last
  | before i => s.hiddenBefore i

/-- The answer to a request, by what was asked for and given out before: the comments of its run
that come after all of those. -/
def answer (r : Rules) (s : Stream) (asked : List Request) (given : List Token) (q : Request) :
    List Token :=
  if q.isFresh asked then
    (q.run s).filter fun t ↦ given.all (·.index < t.index) && r.isComment t.text
  else []

theorem run_sublist (s : Stream) (q : Request) : (q.run s).Sublist s.toList := by
  cases q with
  | left span | before span =>
    rw [run, s.hiddenBefore_eq_hiddenEnd]
    exact (Stream.hiddenEnd_sublist _).trans (List.take_sublist _ _)
  | right span =>
    rw [run, s.hiddenAfter_eq]
    exact (List.takeWhile_sublist _).trans (List.drop_sublist _ _)

theorem isHidden_of_mem_run {s : Stream} {q : Request} {t : Token} (h : t ∈ q.run s) :
    t.isHidden = true := by
  cases q with
  | left span | before span =>
    rw [run, s.hiddenBefore_eq_hiddenEnd] at h
    exact Stream.isHidden_of_mem_hiddenEnd h
  | right span =>
    rw [run, s.hiddenAfter_eq] at h
    exact (List.all_eq_true.1 List.all_takeWhile) t h

end Request

/-! ### What the marks remember -/

/-- Marks that remember what was asked for and given out. -/
structure Reflects (m : Marks) (asked : List Request) (given : List Token) : Prop where
  /-- The largest node start asked for. -/
  left : TopOf m.left (Request.starts asked)
  /-- The largest node end asked for. -/
  right : TopOf m.right (Request.stops asked)
  /-- The last comment given out. -/
  emitted : TopOf m.emitted (given.map (·.index))

namespace Reflects

variable {r : Rules} {s : Stream} {m : Marks} {asked : List Request} {given : List Token}

theorem start : Reflects {} [] [] := ⟨.none, .none, .none⟩

/-- What is selected from a run is what comes after all that was given out. -/
theorem select_eq (h : Reflects m asked given) (r : Rules) (run : List Token) :
    m.select r run =
      run.filter fun t ↦ given.all (·.index < t.index) && r.isComment t.text := by
  rw [select]
  refine List.filter_congr fun t _ ↦ ?_
  rw [h.emitted, List.all_map]
  rfl

/-- Giving out the comments of a run moves the last mark only. -/
theorem take (h : Reflects m asked given) (r : Rules) {run : List Token}
    (hr : run.Pairwise fun t u ↦ t.index < u.index) :
    Reflects (m.take r run).2 asked (given ++ (m.take r run).1) where
  left := h.left
  right := h.right
  emitted := by
    have hs : ((m.select r run).map (·.index)).Pairwise (· < ·) :=
      List.pairwise_map.2 (hr.sublist List.filter_sublist)
    have htop := h.emitted.append hs fun i hi ↦ by
      obtain ⟨t, ht, rfl⟩ := List.mem_map.1 hi
      exact (Bool.and_eq_true_iff.1 (List.mem_filter.1 ht).2).1
    rwa [List.getLast?_map, ← List.map_append] at htop

/-- A request for the comments just before a position asks for no start and no end. -/
theorem askBefore (h : Reflects m asked given) (i : Nat) :
    Reflects m (asked ++ [.before i]) given where
  left := by simpa [Request.starts] using h.left
  right := by simpa [Request.stops] using h.right
  emitted := h.emitted

/-- A start that lies past the mark moves it. -/
theorem askLeft (h : Reflects m asked given) {span : Span} (hp : isPast span.first m.left = true) :
    Reflects { m with left := some span.first } (asked ++ [.left span]) given where
  left := by
    have htop := h.left.append (List.pairwise_singleton _ span.first) (by simpa using hp)
    simpa [Request.starts] using htop
  right := by simpa [Request.stops] using h.right
  emitted := h.emitted

/-- A start that does not lie past the mark leaves it. -/
theorem askLeft_of_stale (h : Reflects m asked given) {span : Span}
    (hp : isPast span.first m.left = false) : Reflects m (asked ++ [.left span]) given where
  left := by simpa [Request.starts] using h.left.append_of_not_isPast hp
  right := by simpa [Request.stops] using h.right
  emitted := h.emitted

/-- An end that lies past the mark moves it. -/
theorem askRight (h : Reflects m asked given) {span : Span} (hp : isPast span.last m.right = true) :
    Reflects { m with right := some span.last } (asked ++ [.right span]) given where
  left := by simpa [Request.starts] using h.left
  right := by
    have htop := h.right.append (List.pairwise_singleton _ span.last) (by simpa using hp)
    simpa [Request.stops] using htop
  emitted := h.emitted

/-- An end that does not lie past the mark leaves it. -/
theorem askRight_of_stale (h : Reflects m asked given) {span : Span}
    (hp : isPast span.last m.right = false) : Reflects m (asked ++ [.right span]) given where
  left := by simpa [Request.starts] using h.left
  right := by simpa [Request.stops] using h.right.append_of_not_isPast hp
  emitted := h.emitted

/-- **One request**: its answer is told by what was asked for and given out before, and the marks
remember both. -/
theorem serve (h : Reflects m asked given) (r : Rules) (s : Stream) (q : Request) :
    (m.serve r s q).1 = q.answer r s asked given ∧
      Reflects (m.serve r s q).2 (asked ++ [q]) (given ++ (m.serve r s q).1) := by
  have hrun : (q.run s).Pairwise fun t u ↦ t.index < u.index :=
    s.pairwise_index.sublist (q.run_sublist s)
  cases q with
  | before i => exact ⟨h.select_eq r _, (h.askBefore i).take r hrun⟩
  | left span =>
    rw [Marks.serve, flushLeft, Request.answer, Request.isFresh, ← h.left span.first]
    split
    · rename_i hp
      exact ⟨(h.askLeft hp).select_eq r _, (h.askLeft hp).take r hrun⟩
    · rename_i hp
      rw [Bool.not_eq_true] at hp
      exact ⟨rfl, by simpa using h.askLeft_of_stale hp⟩
  | right span =>
    rw [Marks.serve, flushRight, Request.answer, Request.isFresh, ← h.right span.last]
    split
    · rename_i hp
      exact ⟨(h.askRight hp).select_eq r _, (h.askRight hp).take r hrun⟩
    · rename_i hp
      rw [Bool.not_eq_true] at hp
      exact ⟨rfl, by simpa using h.askRight_of_stale hp⟩

/-- **All requests**: the marks remember what was asked for and given out. -/
theorem after (h : Reflects m asked given) (r : Rules) (s : Stream) (qs : List Request) :
    Reflects (m.after r s qs) (asked ++ qs) (given ++ (m.answers r s qs).flatten) := by
  induction qs generalizing m asked given with
  | nil => simpa [answers, Marks.after] using h
  | cons q qs ih => simpa [answers, Marks.after] using ih (h.serve r s q).2

end Reflects

/-! ### Answers in order -/

/-- Comments of a stream, in its order. -/
structure InOrder (r : Rules) (s : Stream) (given : List Token) : Prop where
  /-- They are in the order of their positions. -/
  pairwise : given.Pairwise fun t u ↦ t.index < u.index
  /-- They are hidden tokens of the stream that are taken for comments. -/
  comments : ∀ t ∈ given, t ∈ s.toList ∧ t.isHidden = true ∧ r.isComment t.text = true

/-- What is given out stays in order with the next answer. -/
theorem InOrder.append_answer {r : Rules} {s : Stream} {given : List Token}
    (h : InOrder r s given) (asked : List Request) (q : Request) :
    InOrder r s (given ++ q.answer r s asked given) := by
  rw [Request.answer]
  split
  · refine ⟨List.pairwise_append.2 ⟨h.pairwise, ?_, fun t ht u hu ↦ ?_⟩,
      List.forall_mem_append.2 ⟨h.comments, fun t ht ↦ ?_⟩⟩
    · exact s.pairwise_index.sublist (List.filter_sublist.trans (q.run_sublist s))
    · have hlater := (Bool.and_eq_true_iff.1 (List.mem_filter.1 hu).2).1
      exact of_decide_eq_true (List.all_eq_true.1 hlater t ht)
    · obtain ⟨hrun, hc⟩ := List.mem_filter.1 ht
      exact ⟨(q.run_sublist s).mem hrun, Request.isHidden_of_mem_run hrun,
        (Bool.and_eq_true_iff.1 hc).2⟩
  · simpa using h

theorem inOrder_answers (r : Rules) (s : Stream) (asked : List Request) :
    InOrder r s (answers r s {} asked).flatten := by
  induction asked using List.reverseRecOn with
  | nil => exact ⟨.nil, by simp [answers]⟩
  | append_singleton asked q ih =>
    have hm := Reflects.start.after r s asked
    simp only [List.nil_append] at hm
    rw [answers_append, List.flatten_append, answers, (hm.serve r s q).1]
    simpa [answers] using ih.append_answer asked q

/-- **Comments are given out once and in order**, whatever is asked for: all answers together are
hidden tokens of the stream that are taken for comments, in the order of their positions. What one
more request gets is told by what was asked for and given out before. -/
theorem comments_given_once (r : Rules) (s : Stream) (asked : List Request) :
    ((answers r s {} asked).flatten.Pairwise fun t u ↦ t.index < u.index) ∧
      (∀ t ∈ (answers r s {} asked).flatten,
        t ∈ s.toList ∧ t.isHidden = true ∧ r.isComment t.text = true) ∧
      ∀ q : Request, answers r s {} (asked ++ [q]) =
        answers r s {} asked ++ [q.answer r s asked (answers r s {} asked).flatten] := by
  obtain ⟨hord, hcomments⟩ := inOrder_answers r s asked
  refine ⟨hord, hcomments, fun q ↦ ?_⟩
  have hm := Reflects.start.after r s asked
  simp only [List.nil_append] at hm
  rw [answers_append, answers, (hm.serve r s q).1, answers]

/-- A span the wrong way round, a run that is asked for again, and positions past the end. -/
example : (answers .standard (tokenize "a /* x */ b // y\n/* z */ c") {}
    [.before 4, .right ⟨4, 0⟩, .before 10, .left ⟨18446744073709551615, 10⟩,
      .right ⟨0, 18446744073709551615⟩]).map (·.map (·.index)) = [[2], [6, 8], [], [], []] := by
  decide +kernel

end Marks

end GrammarLayout
