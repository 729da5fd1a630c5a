import GrammarLayout.Proofs.Grammar.Derivation
import GrammarLayout.Proofs.Layout.Page
import Mathlib.Data.List.Induction

/-!
# Walks

The walk of a tree as the page sees it. A **beat** is an event without positions: a node is entered
or left, which only says whether it covers any token, or a leaf comes with the comments between it
and the next one. The page writes those comments at the first beat after the leaf that asks for
comments at all; nothing else about where comments belong is left.

The formatter decides the same by three marks. What the marks have to satisfy depends on the place
of the walk in the stream: the tokens before, of which the last is a main token, the hidden run that
follows them, and the tokens from the next main one on. `Due` states it, and says with it whether
the comments of the hidden run are still to be given out. Then a node, a leaf, and by induction a
whole tree keep formatter and page together (`Follows.run`).

The two halves meet in `Follows`: formatter and page stand at one place of the stream, the page
shows what the formatter has written, and the comments that wait on the page are those that the
marks have left. Its steps are those of a walk:

* coming to a node gives out the comments before it, if it starts with the next main token
  (`Follows.approach`);

* leaving a node gives out the comments after it, if it ends with the last one (`Follows.leave`);

* a leaf gives out what is left and moves the place on, and a fresh hidden run begins
  (`Follows.leaf`).

A node that covers no token asks for no comments, on either side. That nodes start and end where
they have to is what standing over tokens means (`Follows.first_eq`, `Follows.last_eq`).
-/

namespace GrammarLayout

/-! ### Beats -/

/-- One event of a walk, without positions. -/
inductive Beat
  /-- A node is entered. -/
  | enter (kind : NodeKind) (covers : Bool)
  /-- A node is left. -/
  | leave (kind : NodeKind) (covers : Bool)
  /-- A leaf, with the comments between it and the next one. -/
  | leaf (segment : Segment) (following : List Segment)
  deriving DecidableEq, Repr

namespace Page

/-- Lays out one beat. -/
def step (r : Rules) (p : Page) : Beat → Page
  | .enter kind covers => p.enter kind covers
  | .leave kind covers => p.leave kind covers
  | .leaf s following => p.leaf r s following

/-- Lays out beats one after the other. -/
def play (r : Rules) (p : Page) (beats : List Beat) : Page := beats.foldl (step r) p

@[simp] theorem play_nil (r : Rules) (p : Page) : p.play r [] = p := rfl

@[simp] theorem play_cons (r : Rules) (p : Page) (b : Beat) (bs : List Beat) :
    p.play r (b :: bs) = (p.step r b).play r bs := rfl

@[simp] theorem play_append (r : Rules) (p : Page) (bs bs' : List Beat) :
    p.play r (bs ++ bs') = (p.play r bs).play r bs' := List.foldl_append ..

end Page

/-- Whether a token is a comment on the hidden channel. -/
def Token.isPlainComment (t : Token) : Bool := t.kind == .blockComment || t.kind == .lineComment

/-- The comments of a run of tokens, as they are written. -/
def commentsOf (run : List Token) : List Segment :=
  (run.filter (·.isPlainComment)).map Token.comment

/-- The comments of a run are hidden. -/
theorem isHidden_of_mem_commentsOf {run : List Token} :
    ∀ c ∈ commentsOf run, c.kind.isHidden = true := by
  intro c hc
  obtain ⟨t, ht, rfl⟩ := List.mem_map.1 hc
  have hp := (List.mem_filter.1 ht).2
  simp only [Token.isPlainComment, Bool.or_eq_true, beq_iff_eq] at hp
  rcases hp with hk | hk <;> rw [Token.comment, hk] <;> rfl

/-- The beat of the leaf at a position. -/
def Stream.beat (s : Stream) (t : Token) : Beat :=
  .leaf t.segment (commentsOf (s.hiddenAfter t.index))

mutual

/-- The beats of walking a tree over a stream. -/
def Tree.beats (s : Stream) : Tree → List Beat
  | .leaf i | .stray i => (s.get? i).toList.map s.beat
  | .node kind span children =>
    .enter kind span.isSome :: (Tree.beatsAll s children ++ [.leave kind span.isSome])

/-- The beats of walking trees one after the other. -/
def Tree.beatsAll (s : Stream) : List Tree → List Beat
  | [] => []
  | t :: ts => t.beats s ++ Tree.beatsAll s ts

end

/-! ### Places in a stream -/

namespace Stream

/-- The tokens of a stream are in the order of their positions. -/
theorem pairwise_index (s : Stream) : s.toList.Pairwise fun t u ↦ t.index < u.index := by
  rw [List.pairwise_iff_getElem]
  intro i j hi hj hij
  have hs : ∀ (k : Nat) (hk : k < s.toList.length), s.toList[k].index = k := by
    intro k hk
    simp only [toList, Array.getElem_toList]
    exact s.index_eq k (by simpa [toList] using hk)
  rw [hs i hi, hs j hj]
  exact hij

/-- The tokens of a stream, counted. -/
theorem size_eq_length (s : Stream) : s.size = s.toList.length := by simp [size, toList]

/-- The hidden run from a position on, looked for within a number of tokens. -/
theorem hiddenOn_eq (s : Stream) (n i : Nat) :
    s.hiddenOn n i = ((s.toList.drop i).take n).takeWhile (·.isHidden) := by
  induction n generalizing i with
  | zero => rfl
  | succ n ih =>
    have hg : s.get? i = (s.toList.drop i).head? := by simp [Stream.get?, Stream.toList]
    rw [hiddenOn, hg]
    cases hd : s.toList.drop i with
    | nil => rfl
    | cons t ts =>
      have ht : s.toList.drop (i + 1) = ts := by rw [← List.drop_drop, hd, List.drop_one]; rfl
      simp only [List.head?_cons, List.take_succ_cons, List.takeWhile_cons, ih, ht]

/-- The hidden run after a position is the start of what follows it. -/
theorem hiddenAfter_eq (s : Stream) (i : Nat) :
    s.hiddenAfter i = (s.toList.drop (i + 1)).takeWhile (·.isHidden) := by
  rw [hiddenAfter, hiddenOn_eq, size_eq_length, ← List.length_drop, List.take_length]

end Stream

/-- A place in a stream between two main tokens: the tokens `A` up to the last main one, the hidden
run `H` after them, and the tokens `B` from the next main one on. -/
structure Place (s : Stream) (A H B : List Token) : Prop where
  /-- The three parts make up the stream. -/
  split : s.toList = A ++ (H ++ B)
  /-- The tokens before end with a main one. -/
  last_main : ∀ t ∈ A.getLast?, t.isHidden = false
  /-- The run is hidden. -/
  hidden : ∀ t ∈ H, t.isHidden = true
  /-- The tokens after start with a main one. -/
  head_main : ∀ t ∈ B.head?, t.isHidden = false

namespace Place

variable {s : Stream} {A H B : List Token}

/-- The place before the first main token. -/
theorem start (s : Stream) :
    Place s [] (s.toList.takeWhile (·.isHidden)) (s.toList.dropWhile (·.isHidden)) where
  split := List.takeWhile_append_dropWhile.symm
  last_main := fun _ h ↦ absurd h (by simp)
  hidden := fun _ h ↦ (List.all_eq_true.1 List.all_takeWhile) _ h
  head_main := fun t h ↦ by
    have := List.head?_dropWhile_not (·.isHidden) s.toList
    rw [h] at this
    simpa using this

/-- The place after the next main token. -/
theorem advance {t : Token} (h : Place s A H (t :: B)) :
    Place s (A ++ H ++ [t]) (B.takeWhile (·.isHidden)) (B.dropWhile (·.isHidden)) where
  split := by
    rw [h.split, List.takeWhile_append_dropWhile]
    simp
  last_main := fun u hu ↦ by
    rw [List.getLast?_append] at hu
    obtain rfl : t = u := by simpa using hu
    exact h.head_main t rfl
  hidden := fun _ h ↦ (List.all_eq_true.1 List.all_takeWhile) _ h
  head_main := fun t h ↦ by
    have := List.head?_dropWhile_not (·.isHidden) B
    rw [h] at this
    simpa using this

/-- The hidden tokens found going back from the next main token are those of the run. -/
theorem hiddenBack_eq (h : Place s A H B) (run : List Token) :
    s.hiddenBack (A.length + H.length) run = H ++ run := by
  obtain ⟨hs, hl, hh, -⟩ := h
  induction H using List.reverseRecOn generalizing B run with
  | nil =>
    rw [List.length_nil, Nat.add_zero, List.nil_append]
    rcases List.eq_nil_or_concat A with rfl | ⟨A', t, rfl⟩
    · rfl
    · have hm : t.isHidden = false := hl t (by simp)
      rw [List.concat_eq_append, List.append_assoc] at hs
      rw [List.concat_eq_append, List.length_append, List.length_singleton, Stream.hiddenBack,
        Stream.get?_length hs]
      simp [hm]
  | append_singleton H' t ih =>
    have hs' : s.toList = A ++ H' ++ t :: B := by simpa using hs
    have hm : t.isHidden = true := hh t (by simp)
    have hg : s.get? (A.length + H'.length) = some t := by
      rw [← List.length_append]
      exact Stream.get?_length hs'
    rw [List.length_append, List.length_singleton, ← Nat.add_assoc, Stream.hiddenBack, hg]
    simp only [hm, if_true]
    rw [ih (t :: run) (B := t :: B) (by simpa using hs) (fun u hu ↦ hh u (by simp [hu]))]
    simp

/-- The hidden run before the next main token is that of the place. -/
theorem hiddenBefore_eq (h : Place s A H B) : s.hiddenBefore (A.length + H.length) = H := by
  have hle : A.length + H.length ≤ s.size := by
    rw [Stream.size_eq_length, h.split]
    simp only [List.length_append]
    omega
  rw [Stream.hiddenBefore, Nat.min_eq_left hle, h.hiddenBack_eq, List.append_nil]

theorem hiddenAfter_eq (h : Place s A H B) {i : Nat} (hi : i + 1 = A.length) :
    s.hiddenAfter i = H := by
  rw [Stream.hiddenAfter_eq, hi, h.split, List.drop_left,
    List.takeWhile_append_of_pos fun t ht ↦ h.hidden t ht]
  match B, h.head_main with
  | [], _ => simp
  | t :: B, hm => simp [hm t rfl]

/-- The position of the next main token. -/
theorem index_head {t : Token} (h : Place s A H (t :: B)) : t.index = A.length + H.length := by
  have hs : s.toList = A ++ H ++ t :: B := by rw [h.split, List.append_assoc]
  rw [Stream.index_eq_length hs, List.length_append]

theorem get?_head {t : Token} (h : Place s A H (t :: B)) : s.get? t.index = some t := by
  have hs : s.toList = A ++ H ++ t :: B := by rw [h.split, List.append_assoc]
  rw [Stream.index_eq_length hs, Stream.get?_length hs]

/-- The tokens of the run lie between the two main tokens. -/
theorem index_mem (h : Place s A H B) {t : Token} (ht : t ∈ H) :
    A.length ≤ t.index ∧ t.index < A.length + H.length := by
  obtain ⟨H₁, H₂, rfl⟩ := List.append_of_mem ht
  have hs : s.toList = A ++ H₁ ++ t :: (H₂ ++ B) := by rw [h.split]; simp
  rw [Stream.index_eq_length hs]
  simp only [List.length_append, List.length_cons]
  omega

/-- The tokens of the run are in the order of their positions. -/
theorem pairwise_index (h : Place s A H B) : H.Pairwise fun t u ↦ t.index < u.index := by
  refine s.pairwise_index.sublist ?_
  rw [h.split]
  exact (List.sublist_append_left H B).trans (List.sublist_append_right A _)

end Place

/-! ### Marks at a place -/

/-- The marks at a place; `fresh` says that the comments of the hidden run are still to be given
out. -/
structure Due (m : Marks) (A H : List Token) (fresh : Bool) : Prop where
  /-- Nothing past the run has been given out. -/
  emitted_lt : ∀ e ∈ m.emitted, e < A.length + H.length
  /-- Nothing of a fresh run has been given out. -/
  emitted_fresh : fresh = true → ∀ e ∈ m.emitted, e < A.length
  /-- All of a run that is not fresh has been given out. -/
  emitted_done : fresh = false →
    ∀ t ∈ H, t.isPlainComment = true → Marks.isPast t.index m.emitted = false
  /-- No node past the run has been served. -/
  left_le : ∀ l ∈ m.left, l ≤ A.length + H.length
  /-- No node at the end of a fresh run has been served. -/
  left_fresh : fresh = true → ∀ l ∈ m.left, l < A.length + H.length
  /-- Only nodes before the run have been served at their end. -/
  right_lt : ∀ x ∈ m.right, x < A.length
  /-- No node at the start of a fresh run has been served at its end. -/
  right_fresh : fresh = true → ∀ x ∈ m.right, x + 1 < A.length

namespace Due

variable {r : Rules} {s : Stream} {m : Marks} {A H B : List Token} {fresh : Bool}

/-- Marks that have given out nothing. -/
theorem start (H : List Token) : Due {} [] H true where
  emitted_lt := fun _ h ↦ absurd h (by simp)
  emitted_fresh := fun _ _ h ↦ absurd h (by simp)
  emitted_done := fun h ↦ absurd h (by simp)
  left_le := fun _ h ↦ absurd h (by simp)
  left_fresh := fun _ _ h ↦ absurd h (by simp)
  right_lt := fun _ h ↦ absurd h (by simp)
  right_fresh := fun _ _ h ↦ absurd h (by simp)

/-- After the next main token, the run that follows it is fresh. -/
theorem advance (h : Due m A H fresh) (t : Token) (H' : List Token) :
    Due m (A ++ H ++ [t]) H' true := by
  have hl : (A ++ H ++ [t]).length = A.length + H.length + 1 := by
    simp only [List.length_append, List.length_singleton]
  refine ⟨fun e he ↦ ?_, fun _ e he ↦ ?_, fun hf ↦ absurd hf (by simp), fun l hm ↦ ?_,
    fun _ l hm ↦ ?_, fun x hx ↦ ?_, fun _ x hx ↦ ?_⟩
  · have := h.emitted_lt e he
    omega
  · have := h.emitted_lt e he
    omega
  · have := h.left_le l hm
    omega
  · have := h.left_le l hm
    omega
  · have := h.right_lt x hx
    omega
  · have := h.right_lt x hx
    omega

/-- A position behind all marks is past them. -/
theorem isPast_eq_true {i : Nat} {mark : Option Nat} (h : ∀ e ∈ mark, e < i) :
    Marks.isPast i mark = true := by
  cases mark with
  | none => rfl
  | some e => exact decide_eq_true (h e rfl)

/-- What is selected from the run is all of its comments if it is fresh, and nothing otherwise.
There is no state in between, as a run is given out at once. -/
theorem select_eq (h : Due m A H fresh) (hp : Place s A H B)
    (hr : ∀ t ∈ H, r.isComment t.text = t.isPlainComment) :
    m.select r H = if fresh then H.filter (·.isPlainComment) else [] := by
  rw [Marks.select]
  cases fresh with
  | true =>
    refine List.filter_congr fun t ht ↦ ?_
    have hpast : Marks.isPast t.index m.emitted = true :=
      isPast_eq_true fun e he ↦ Nat.lt_of_lt_of_le (h.emitted_fresh rfl e he) (hp.index_mem ht).1
    rw [hpast, Bool.true_and, hr t ht]
  | false =>
    refine List.filter_eq_nil_iff.2 fun t ht hc ↦ ?_
    rw [Bool.and_eq_true, hr t ht] at hc
    rw [h.emitted_done rfl t ht hc.2] at hc
    exact absurd hc.1 (by simp)

/-- Once the run has been asked for, it is not fresh any more. -/
theorem take (h : Due m A H fresh) (hp : Place s A H B)
    (hr : ∀ t ∈ H, r.isComment t.text = t.isPlainComment) : Due (m.take r H).2 A H false := by
  have hs := h.select_eq hp hr
  refine ⟨?_, fun hf ↦ absurd hf (by simp), ?_, h.left_le, fun hf ↦ absurd hf (by simp),
    h.right_lt, fun hf ↦ absurd hf (by simp)⟩
  · intro e he
    simp only [Marks.take] at he
    cases hl : (m.select r H).getLast? with
    | none =>
      rw [hl] at he
      exact h.emitted_lt e he
    | some z =>
      rw [hl] at he
      obtain rfl : z.index = e := by simpa using he
      have hz : z ∈ H := List.mem_of_mem_filter (List.mem_of_getLast? hl)
      exact (hp.index_mem hz).2
  · intro _ t ht hc
    simp only [Marks.take]
    cases fresh with
    | true =>
      -- the last comment given out lies at or after every comment of the run
      have hmem : t ∈ m.select r H := by
        rw [hs, if_pos rfl]
        exact List.mem_filter.2 ⟨ht, hc⟩
      obtain ⟨z, hz⟩ : ∃ z, (m.select r H).getLast? = some z :=
        ⟨_, List.getLast?_eq_some_getLast (List.ne_nil_of_mem hmem)⟩
      rw [hz]
      have hle : t.index ≤ z.index := by
        have hpw : (m.select r H).Pairwise fun t u ↦ t.index < u.index :=
          hp.pairwise_index.sublist List.filter_sublist
        obtain ⟨ys, hy⟩ := List.getLast?_eq_some_iff.1 hz
        rw [hy] at hmem hpw
        rcases List.mem_append.1 hmem with hm | hm
        · exact Nat.le_of_lt ((List.pairwise_append.1 hpw).2.2 t hm z (by simp))
        · exact Nat.le_of_eq (congrArg _ (List.mem_singleton.1 hm))
      simpa [Marks.isPast] using hle
    | false =>
      have hn : m.select r H = [] := by simpa using hs
      rw [hn]
      exact h.emitted_done rfl t ht hc

/-- A run is not fresh if a mark stands where it would not stand in front of a fresh one. -/
theorem not_fresh {i : Nat} {mark : Option Nat} (hm : fresh = true → ∀ e ∈ mark, e < i)
    (hp : Marks.isPast i mark = false) : fresh = false := by
  cases fresh with
  | true => rw [isPast_eq_true (hm rfl)] at hp; exact absurd hp (by simp)
  | false => rfl

/-- Before a node that starts after the run, the comments of the run are given out. -/
theorem flushLeft (h : Due m A H fresh) (hp : Place s A H B)
    (hr : ∀ t ∈ H, r.isComment t.text = t.isPlainComment) {span : Span}
    (hf : span.first = A.length + H.length) :
    (m.flushLeft r s span).1 = m.select r H ∧ Due (m.flushLeft r s span).2 A H false := by
  rw [Marks.flushLeft, hf, hp.hiddenBefore_eq]
  split
  · refine ⟨rfl, ?_⟩
    have ht := h.take hp hr
    exact { ht with
      left_le := fun l hl ↦ Nat.le_of_eq (Option.some.inj hl).symm
      left_fresh := fun hf ↦ absurd hf (by simp) }
  · rename_i hpast
    obtain rfl := not_fresh h.left_fresh (by simpa using hpast)
    exact ⟨(h.select_eq hp hr).symm, h⟩

/-- After a node that ends before the run, the comments of the run are given out. -/
theorem flushRight (h : Due m A H fresh) (hp : Place s A H B)
    (hr : ∀ t ∈ H, r.isComment t.text = t.isPlainComment) {span : Span}
    (hl : span.last + 1 = A.length) :
    (m.flushRight r s span).1 = m.select r H ∧ Due (m.flushRight r s span).2 A H false := by
  rw [Marks.flushRight, hp.hiddenAfter_eq hl]
  split
  · refine ⟨rfl, ?_⟩
    have ht := h.take hp hr
    exact { ht with
      right_lt := fun x hx ↦ by
        have hx : span.last = x := Option.some.inj hx
        omega
      right_fresh := fun hf ↦ absurd hf (by simp) }
  · rename_i hpast
    have hm : fresh = true → ∀ e ∈ m.right, e < span.last := by
      intro hf e he
      have := h.right_fresh hf e he
      omega
    obtain rfl := not_fresh hm (by simpa using hpast)
    exact ⟨(h.select_eq hp hr).symm, h⟩

end Due

/-! ### Formatter and page side by side -/

/-- What the layout needs to know of a stream: no token is empty, and the rules know comments from
other hidden tokens. -/
structure Readable (r : Rules) (s : Stream) : Prop where
  /-- Every token has a text. -/
  text_ne_nil : ∀ t ∈ s.toList, t.segment.text ≠ []
  /-- Every comment has a text without the blanks at its end. -/
  comment_ne_nil : ∀ t ∈ s.toList, t.isPlainComment = true → t.comment.text ≠ []
  /-- The hidden tokens that the rules take for comments are the comments. -/
  isComment_eq : ∀ t ∈ s.toList, t.isHidden = true → r.isComment t.text = t.isPlainComment

/-- Formatter and page stand at the same place, with the same comments still to be written. -/
structure Follows (r : Rules) (s : Stream) (A H B : List Token) (f : Formatter) (p : Page) :
    Prop where
  /-- Where they stand. -/
  place : Place s A H B
  /-- The page has what was written, and waits for the comments that the marks have left. -/
  shows : ∃ m fresh, Shows r s m f p ∧ Due m A H fresh ∧
    p.comments = if fresh then commentsOf H else []

namespace Follows

variable {r : Rules} {s : Stream} {A H B : List Token} {f : Formatter} {p : Page}

theorem comments_flush (category : Category) (p : Page) : (p.flush category).comments = [] := by
  have hw : ∀ (q : Page) (c : Segment), (q.writeComment category c).comments = q.comments := by
    intro q c
    unfold Page.writeComment Page.afterComment Page.beforeComment
    split <;> split <;> (try split) <;> rfl
  rw [Page.flush]
  generalize hq : { p with comments := ([] : List Segment) } = q
  have h : q.comments = [] := by rw [← hq]
  clear hq
  induction p.comments generalizing q with
  | nil => exact h
  | cons c cs ih => exact ih _ ((hw q c).trans h)

theorem comments_pushFrame (category : Category) (p : Page) :
    (p.pushFrame category).comments = p.comments := by
  unfold Page.pushFrame
  split <;> rfl

theorem comments_popFrame (category : Category) (p : Page) :
    (p.popFrame category).comments = p.comments := by
  unfold Page.popFrame
  split
  · split <;> rfl
  · rfl

/-- The rules know the comments of a run. -/
theorem isComment_run (hs : Readable r s) (hp : Place s A H B) :
    ∀ t ∈ H, r.isComment t.text = t.isPlainComment := by
  intro t ht
  refine hs.isComment_eq t ?_ (hp.hidden t ht)
  rw [hp.split]
  simp [ht]

/-- The comments of the page are those that asking for the run gives out. -/
theorem comments_eq (hs : Readable r s) (hp : Place s A H B) {m : Marks} {fresh : Bool}
    (hd : Due m A H fresh) (hc : p.comments = if fresh then commentsOf H else []) :
    p.comments = (m.select r H).map Token.comment ∧ ∀ c ∈ p.comments, c.text ≠ [] := by
  have he : p.comments = (m.select r H).map Token.comment := by
    rw [hc, hd.select_eq hp (isComment_run hs hp)]
    cases fresh <;> rfl
  refine ⟨he, fun c hm ↦ ?_⟩
  rw [hc] at hm
  cases fresh with
  | true =>
    obtain ⟨t, ht, rfl⟩ := List.mem_map.1 hm
    obtain ⟨htH, htc⟩ := List.mem_filter.1 ht
    exact hs.comment_ne_nil t (by rw [hp.split]; simp [htH]) htc
  | false => exact absurd hm (by simp)

/-- Coming to a node that starts with the next main token, if it covers any: the comments before it
are written. -/
theorem approach (hs : Readable r s) (h : Follows r s A H B f p) (kind : NodeKind)
    {span : Option Span} (hspan : ∀ sp ∈ span, sp.first = A.length + H.length) :
    Follows r s A H B (f.approach kind span) (p.flushAt kind.category span.isSome) := by
  obtain ⟨hp, m, fresh, hsh, hd, hc⟩ := h
  obtain ⟨hce, hne⟩ := comments_eq hs hp hd hc
  have hr := isComment_run hs hp
  have hg : ∀ sp ∈ span, p.comments = (m.flushLeft r s sp).1.map Token.comment := by
    intro sp hm
    rw [hce, (hd.flushLeft hp hr (hspan sp hm)).1]
  have hsh' := hsh.approach kind hg hne
  refine ⟨hp, ?_⟩
  cases span with
  | none => exact ⟨m, fresh, hsh', hd, hc⟩
  | some sp =>
    exact ⟨_, false, hsh', (hd.flushLeft hp hr (hspan sp rfl)).2, comments_flush kind.category p⟩

theorem pushFrame (h : Follows r s A H B f p) (category : Category) :
    Follows r s A H B (f.pushFrame category) (p.pushFrame category) := by
  obtain ⟨hp, m, fresh, hsh, hd, hc⟩ := h
  exact ⟨hp, m, fresh, hsh.pushFrame category, hd, by rw [comments_pushFrame]; exact hc⟩

/-- Entering a node that starts with the next main token, if it covers any. -/
theorem enter (hs : Readable r s) (h : Follows r s A H B f p) (kind : NodeKind)
    {span : Option Span} (hspan : ∀ sp ∈ span, sp.first = A.length + H.length) :
    Follows r s A H B (f.enter kind span) (p.enter kind span.isSome) :=
  (h.approach hs kind hspan).pushFrame kind.category

/-- Leaving a node that ends with the last main token, if it covers any. -/
theorem leave (hs : Readable r s) (h : Follows r s A H B f p) (kind : NodeKind)
    {span : Option Span} (hspan : ∀ sp ∈ span, sp.last + 1 = A.length) :
    Follows r s A H B (f.leave kind span) (p.leave kind span.isSome) := by
  obtain ⟨hp, m, fresh, hsh, hd, hc⟩ := h
  obtain ⟨hce, hne⟩ := comments_eq hs hp hd hc
  have hr := isComment_run hs hp
  have hg : ∀ sp ∈ span, p.comments = (m.flushRight r s sp).1.map Token.comment := by
    intro sp hm
    rw [hce, (hd.flushRight hp hr (hspan sp hm)).1]
  have hsh' := hsh.leave kind hg hne
  refine ⟨hp, ?_⟩
  cases span with
  | none =>
    refine ⟨m, fresh, hsh', hd, ?_⟩
    rw [Page.leave, comments_popFrame]
    exact hc
  | some sp =>
    refine ⟨_, false, hsh', (hd.flushRight hp hr (hspan sp rfl)).2, ?_⟩
    rw [Page.leave, comments_popFrame]
    exact comments_flush kind.category p

/-- Laying out the next main token. -/
theorem leaf (hs : Readable r s) {t : Token} (h : Follows r s A H (t :: B) f p) :
    Follows r s (A ++ H ++ [t]) (B.takeWhile (·.isHidden)) (B.dropWhile (·.isHidden)) (f.leaf t)
      (p.step r (s.beat t)) := by
  obtain ⟨hp, m, fresh, hsh, hd, hc⟩ := h
  obtain ⟨hce, hne⟩ := comments_eq hs hp hd hc
  have hr := isComment_run hs hp
  have hb : m.flushBefore r s t.index = m.take r H := by
    rw [Marks.flushBefore, hp.index_head, hp.hiddenBefore_eq]
  have ht : t.segment.text ≠ [] := hs.text_ne_nil t (by rw [hp.split]; simp)
  have hsh' := hsh.leaf ht (by rw [hb]; exact hce) hne (commentsOf (s.hiddenAfter t.index))
  have hd' : Due (m.flushBefore r s t.index).2 (A ++ H ++ [t]) (B.takeWhile (·.isHidden)) true := by
    rw [hb]
    exact (hd.take hp hr).advance t _
  refine ⟨hp.advance, _, true, hsh', hd', ?_⟩
  have hl : t.index + 1 = (A ++ H ++ [t]).length := by
    rw [hp.index_head]
    simp only [List.length_append, List.length_singleton]
  rw [← hp.advance.hiddenAfter_eq hl]
  rfl

theorem run_cons (f : Formatter) (e : Event) (es : List Event) :
    f.run (e :: es) = (f.step e).run es := rfl

theorem run_append (f : Formatter) (es es' : List Event) :
    f.run (es ++ es') = (f.run es).run es' := List.foldl_append ..

/-- The next main token of a place is the first of those still to come. -/
theorem exists_cons {us : List Token} {t : Token} (hp : Place s A H B)
    (hb : B.filter (!·.isHidden) = t :: us) :
    ∃ B', B = t :: B' ∧ B'.filter (!·.isHidden) = us := by
  match B, hp.head_main with
  | [], _ => exact absurd hb (by simp)
  | u :: B', hm =>
    rw [List.filter_cons_of_pos (by simp [hm u rfl])] at hb
    obtain ⟨rfl, hb'⟩ := List.cons.inj hb
    exact ⟨B', rfl, hb'⟩

/-- A node over tokens still to come starts with the next main token. -/
theorem first_eq {us vs : List Token} {ts : List Tree} (ho : Over us ts) (hp : Place s A H B)
    (hb : B.filter (!·.isHidden) = us ++ vs) :
    ∀ sp ∈ Tree.spanOf? ts, sp.first = A.length + H.length := by
  intro sp hsp
  have hpw : (us ++ vs).Pairwise fun t u ↦ t.index < u.index := by
    rw [← hb]
    refine s.pairwise_index.sublist (List.filter_sublist.trans ?_)
    rw [hp.split, ← List.append_assoc]
    exact List.sublist_append_right _ _
  have hle := ho.start_le_stop (List.pairwise_append.1 hpw).1 sp hsp
  rw [ho.spanOf?_eq] at hsp
  obtain ⟨a, ha, hsp⟩ := Option.bind_eq_some_iff.1 hsp
  obtain ⟨z, -, rfl⟩ := Option.map_eq_some_iff.1 hsp
  obtain ⟨us, rfl⟩ := List.head?_eq_some_iff.1 ha
  obtain ⟨B', rfl, -⟩ := exists_cons hp hb
  rw [Span.first, Nat.min_eq_left hle, hp.index_head]

/-- A node over tokens just laid out ends with the last main token. -/
theorem last_eq {us vs : List Token} {ts : List Tree} (ho : Over us ts) (hp : Place s A H B)
    (ha : A.filter (!·.isHidden) = vs ++ us) :
    ∀ sp ∈ Tree.spanOf? ts, sp.last + 1 = A.length := by
  intro sp hsp
  have hpw : (vs ++ us).Pairwise fun t u ↦ t.index < u.index := by
    rw [← ha]
    refine s.pairwise_index.sublist (List.filter_sublist.trans ?_)
    rw [hp.split]
    exact List.sublist_append_left _ _
  have hle := ho.start_le_stop (List.pairwise_append.1 hpw).2.1 sp hsp
  rw [ho.spanOf?_eq] at hsp
  obtain ⟨a, hhead, hsp⟩ := Option.bind_eq_some_iff.1 hsp
  obtain ⟨us, rfl⟩ := List.head?_eq_some_iff.1 hhead
  rcases List.eq_nil_or_concat A with rfl | ⟨A', z, rfl⟩
  · exact absurd ha (by simp)
  rw [List.concat_eq_append] at ha hp ⊢
  have hz : [z].filter (!·.isHidden) = [z] := by simp [hp.last_main z (by simp)]
  rw [List.filter_append, hz] at ha
  have hg : (a :: us).getLast? = some z := by
    have := congrArg List.getLast? ha
    simpa using this.symm
  rw [hg] at hsp
  obtain rfl : (⟨a.index, z.index⟩ : Span) = sp := Option.some.inj hsp
  have hs : s.toList = A' ++ z :: (H ++ B) := by rw [hp.split]; simp
  have hzi := Stream.index_eq_length hs
  rw [Span.last, Nat.max_eq_right hle, hzi]
  simp

/-- The next main token leaves the tokens still to come and joins those laid out. -/
theorem advance_filter {t : Token} (hp : Place s A H (t :: B)) :
    (B.dropWhile (·.isHidden)).filter (!·.isHidden) = B.filter (!·.isHidden) ∧
      (A ++ H ++ [t]).filter (!·.isHidden) = A.filter (!·.isHidden) ++ [t] := by
  have hh : ∀ C : List Token, (∀ u ∈ C, u.isHidden = true) → C.filter (!·.isHidden) = [] :=
    fun C hC ↦ List.filter_eq_nil_iff.2 fun u hu ↦ by simp [hC u hu]
  have ht : [t].filter (!·.isHidden) = [t] := by simp [hp.head_main t rfl]
  refine ⟨?_, ?_⟩
  · conv_rhs => rw [← List.takeWhile_append_dropWhile (p := (·.isHidden)) (l := B)]
    rw [List.filter_append, hh _ fun u hu ↦ (List.all_eq_true.1 List.all_takeWhile) u hu,
      List.nil_append]
  · rw [List.filter_append, List.filter_append, hh H hp.hidden, List.append_nil, ht]

theorem note (h : Follows r s A H B f p) (n : Notice) : Follows r s A H B (f.note n) p := by
  obtain ⟨hp, m, fresh, hsh, hd, hc⟩ := h
  exact ⟨hp, m, fresh, hsh.note n, hd, hc⟩

/-- **Formatter and page stay together along trees**, from the place before their tokens to the
place after them. The induction is over trees with the tokens below them, so that each node knows
between which tokens it stands. -/
theorem run (hs : Readable r s) {us : List Token} {ts : List Tree} (ho : Over us ts)
    {vs : List Token} (h : Follows r s A H B f p) (hb : B.filter (!·.isHidden) = us ++ vs) :
    ∃ A' H' B', Follows r s A' H' B' (f.run (Tree.eventsAll s ts)) (p.play r (Tree.beatsAll s ts)) ∧
      B'.filter (!·.isHidden) = vs ∧ A'.filter (!·.isHidden) = A.filter (!·.isHidden) ++ us := by
  induction ho generalizing A H B f p vs with
  | nil => exact ⟨A, H, B, h, hb, (List.append_nil _).symm⟩
  | @leaf t us ts _ ih =>
    obtain ⟨B', rfl, hb'⟩ := exists_cons h.place hb
    obtain ⟨hf, hfa⟩ := advance_filter h.place
    obtain ⟨A₁, H₁, B₁, h₁, hb₁, ha₁⟩ := ih (h.leaf hs) (hf.trans hb')
    refine ⟨A₁, H₁, B₁, ?_, hb₁, by rw [ha₁, hfa, List.append_assoc]; rfl⟩
    simpa [Tree.eventsAll, Tree.beatsAll, Tree.events, Tree.beats, h.place.get?_head, run_cons,
      Formatter.step] using h₁
  | @stray t us ts _ ih =>
    obtain ⟨B', rfl, hb'⟩ := exists_cons h.place hb
    obtain ⟨hf, hfa⟩ := advance_filter h.place
    obtain ⟨A₁, H₁, B₁, h₁, hb₁, ha₁⟩ :=
      ih ((h.note (.strayToken t.text)).leaf hs) (hf.trans hb')
    refine ⟨A₁, H₁, B₁, ?_, hb₁, by rw [ha₁, hfa, List.append_assoc]; rfl⟩
    simpa [Tree.eventsAll, Tree.beatsAll, Tree.events, Tree.beats, h.place.get?_head, run_cons,
      Formatter.step] using h₁
  | @node kind us₁ us₂ ts ts' ho₁ ho₂ ih₁ ih₂ =>
    rw [List.append_assoc] at hb
    have he := h.enter hs kind (first_eq ho₁ h.place hb)
    obtain ⟨A₁, H₁, B₁, h₁, hb₁, ha₁⟩ := ih₁ he hb
    have hl := h₁.leave hs kind (last_eq ho₁ h₁.place ha₁)
    obtain ⟨A₂, H₂, B₂, h₂, hb₂, ha₂⟩ := ih₂ hl hb₁
    refine ⟨A₂, H₂, B₂, ?_, hb₂, ?_⟩
    · simpa [Tree.eventsAll, Tree.beatsAll, Tree.ofChildren, Tree.events, Tree.beats, run_append,
        run_cons, Formatter.step, Page.step] using h₂
    · rw [ha₂, ha₁, List.append_assoc]

end Follows

/-- The page of a tree over a stream. -/
def Page.ofTree (r : Rules) (s : Stream) (tree : Tree) : Page :=
  Page.play r { comments := commentsOf (s.toList.takeWhile (·.isHidden)) } (tree.beats s)

/-- Before the first event, formatter and page stand before the first main token. -/
theorem Follows.start (r : Rules) (s : Stream) :
    Follows r s [] (s.toList.takeWhile (·.isHidden)) (s.toList.dropWhile (·.isHidden))
        { rules := r, stream := s } { comments := commentsOf (s.toList.takeWhile (·.isHidden)) } ∧
      (s.toList.dropWhile (·.isHidden)).filter (!·.isHidden) = s.mainTokens := by
  refine ⟨⟨.start s, {}, true, ?_, .start _, rfl⟩, ?_⟩
  · constructor <;> first | rfl | simp
  · have hn : (s.toList.takeWhile (·.isHidden)).filter (!·.isHidden) = [] :=
      List.filter_eq_nil_iff.2 fun u hu ↦ by
        simp [(List.all_eq_true.1 List.all_takeWhile) u hu]
    conv_rhs =>
      rw [Stream.mainTokens, ← List.takeWhile_append_dropWhile (p := (·.isHidden)) (l := s.toList),
        List.filter_append, hn, List.nil_append]

/-- **The layout of a tree is its page**: whatever is read off the page of a tree that stands over
the main tokens is so of its layout. -/
theorem shows_ofTree {r : Rules} {s : Stream} {tree : Tree} (hs : Readable r s)
    (ho : Over s.mainTokens [tree]) :
    ∃ m, Shows r s m (Formatter.ofTree r s tree) (Page.ofTree r s tree) := by
  obtain ⟨hstart, hmain⟩ := Follows.start r s
  have hb : (s.toList.dropWhile (·.isHidden)).filter (!·.isHidden) = s.mainTokens ++ [] := by
    rw [hmain, List.append_nil]
  obtain ⟨A, H, B, ⟨-, m, -, hsh, -, -⟩, -, -⟩ := Follows.run hs ho hstart hb
  refine ⟨m, ?_⟩
  simpa [Tree.eventsAll, Tree.beatsAll, Formatter.ofTree, Page.ofTree] using hsh

end GrammarLayout
