import GrammarLayout.Layout.Format
import Mathlib.Data.List.Basic

/-!
# What a sink is left with

Formatting into a sink gives what formatting into a text gives, as far as the sink takes it
(`formatTo_agrees`). There are two halves to it, and neither knows of the other.

The first is about the formatter. What it does never depends on the sink, so every step of it at
work on a sink hands over exactly the chunks by which the layout grows in that step, and then stands
where the layout stands (`Delivers`). Faults come from a sink that is handed chunks, and from
nowhere else.

The second is about sinks. Of chunks handed over one by one, call by call, a sink takes a prefix of
their bytes joined together. How the bytes were split into chunks and calls does not matter.

In the first half every lemma has one form, `Delivers f f' d`: the work `d` that starts at the
formatter `f` hands over what `f'` has written beyond `f`, and gives `f'`. There are three ways to
put such work together, and the formatter uses no others: work that writes nothing
(`Delivers.pure`), one piece after the other (`Delivers.bind`), and work along a list
(`Delivers.foldlM`). So the lemma for each operation only follows its definition.

In the second half the sink is compared with one that is handed everything in one piece
(`Sink.accept`). A sink takes at most a chunk of its own size at a time, and it may run full in the
middle of a chunk; `Sink.accept_append` says that neither can be seen from the result.
-/

namespace GrammarLayout

/-! ### Sinks -/

namespace Sink

/-- What a sink is left with when bytes are handed to it in one piece. -/
def accept (s : Sink) (bytes : ByteArray) : Sink × Option Fault :=
  ({ s with written := s.written ++ bytes.extract 0 (s.room bytes.size) },
    if s.room bytes.size = bytes.size then none else some .closed)

/-- A sink never takes more than it is handed. -/
theorem room_le (s : Sink) (n : Nat) : s.room n ≤ n := Nat.min_le_left _ _

/-- There is room for less where there is room for more. -/
theorem room_of_le {s : Sink} {m n : Nat} (h : m ≤ s.room n) : s.room m = m := by
  unfold room at h ⊢
  cases hl : s.limit with
  | none => simp
  | some limit =>
    simp only [hl, Option.map_some, Option.getD_some] at h ⊢
    omega

/-- There is no more room for more bytes than for those that do not fit. -/
theorem room_add_of_ne {s : Sink} {m : Nat} (h : s.room m ≠ m) (n : Nat) :
    s.room (m + n) = s.room m := by
  unfold room at h ⊢
  cases hl : s.limit with
  | none => simp [hl] at h
  | some limit =>
    simp only [hl, Option.map_some, Option.getD_some] at h ⊢
    omega

/-- Bytes that fit leave the rest of the room. -/
theorem room_add_of_eq {s : Sink} {bytes : ByteArray} (h : s.room bytes.size = bytes.size)
    (n : Nat) :
    s.room (bytes.size + n) = bytes.size + room { s with written := s.written ++ bytes } n := by
  unfold room at h ⊢
  cases hl : s.limit with
  | none => simp
  | some limit =>
    simp only [hl, Option.map_some, Option.getD_some, ByteArray.size_append] at h ⊢
    omega

/-- Bytes that fit are appended. -/
theorem accept_of_room {s : Sink} {bytes : ByteArray} (h : s.room bytes.size = bytes.size) :
    s.accept bytes = ({ s with written := s.written ++ bytes }, none) := by
  rw [accept, if_pos h, h, ByteArray.extract_zero_size]

/-- A sink that takes the first part takes the second as if it came alone. -/
theorem accept_append (s : Sink) (a b : ByteArray) :
    s.accept (a ++ b) =
      match s.accept a with
      | (s, none) => s.accept b
      | (s, some fault) => (s, some fault) := by
  by_cases ha : s.room a.size = a.size
  · rw [accept_of_room ha]
    have hroom := room_add_of_eq ha b.size
    simp only [accept, ByteArray.size_append, hroom, ByteArray.extract_append,
      ByteArray.append_assoc]
    have hfirst : ∀ n, a.extract 0 (a.size + n) = a := by
      intro n
      rw [← Nat.max_eq_left (Nat.le_add_right a.size n), ByteArray.extract_zero_max_size]
    simp [hfirst]
  · have hroom := room_add_of_ne ha b.size
    have hle := s.room_le a.size
    have hrest : b.extract (0 - a.size) (s.room a.size - a.size) = .empty :=
      ByteArray.extract_eq_empty_iff.2 (by omega)
    have hne : ¬ s.room a.size = a.size + b.size := by omega
    simp only [accept, ByteArray.size_append, hroom, ByteArray.extract_append, hrest,
      ByteArray.append_empty, if_neg ha, if_neg hne]

/-- **Bytes handed over call by call** are taken as if in one piece. The induction is over the bytes
that are left: each call takes some, or the sink is full. -/
theorem writeBytes_eq (s : Sink) (bytes : ByteArray) : s.writeBytes bytes = s.accept bytes := by
  fun_induction writeBytes s bytes with
  | case1 s bytes h =>
    have hr : s.room bytes.size = bytes.size := by have := s.room_le bytes.size; omega
    rw [accept_of_room hr, ByteArray.size_eq_zero_iff.1 h, ByteArray.append_empty]
  | case2 s bytes n h hn =>
    -- a call takes nothing of something only where there is no room
    have hr : s.room bytes.size = 0 := by
      have hp : 0 < s.portion.getD bytes.size := by
        cases hs : s.portion with
        | none => exact Nat.pos_of_ne_zero h
        | some k => exact s.portion_pos k hs
      have htaken : min (s.room bytes.size) (s.portion.getD bytes.size) = 0 := hn
      omega
    rw [accept, hr, if_neg (Ne.symm h), ByteArray.extract_eq_empty_iff.2 (by omega),
      ByteArray.append_empty]
  | case3 s bytes n h hn ih =>
    have hle : n ≤ s.room bytes.size := Nat.min_le_left _ _
    have hsize : (bytes.extract 0 n).size = n := by
      have := s.room_le bytes.size
      rw [ByteArray.size_extract]
      omega
    have hfits : s.room (bytes.extract 0 n).size = (bytes.extract 0 n).size := by
      rw [hsize]
      exact room_of_le hle
    have hsplit : bytes.extract 0 n ++ bytes.extract n bytes.size = bytes := by
      have := s.room_le bytes.size
      rw [ByteArray.extract_append_extract, Nat.min_eq_left (by omega),
        Nat.max_eq_right (by omega), ByteArray.extract_zero_size]
    have happ := s.accept_append (bytes.extract 0 n) (bytes.extract n bytes.size)
    rw [hsplit, accept_of_room hfits] at happ
    rw [ih, happ]

/-- **Chunks handed over one by one** are taken as if joined. -/
theorem writeAll_eq (s : Sink) (chunks : List String) :
    s.writeAll chunks = s.accept (String.join chunks).toUTF8 := by
  induction chunks generalizing s with
  | nil =>
    have hroom : s.room ByteArray.empty.size = ByteArray.empty.size :=
      Nat.le_zero.1 (s.room_le 0)
    have hempty : (String.join []).toUTF8 = ByteArray.empty := rfl
    rw [writeAll, hempty, accept_of_room hroom, ByteArray.append_empty]
  | cons c cs ih =>
    have happ : (c ++ String.join cs).toUTF8 = c.toUTF8 ++ (String.join cs).toUTF8 :=
      String.toByteArray_append
    rw [writeAll, write, writeBytes_eq, String.join_cons, happ, accept_append]
    rcases s.accept c.toUTF8 with ⟨s, _ | fault⟩
    · exact ih s
    · rfl

end Sink

/-! ### The formatter at work on a sink -/

/-- One piece of work after the other, on a sink. After a fault the second is not begun. -/
theorem Delivery.bind_apply {α β : Type} (d : Delivery α) (k : α → Delivery β) (s : Sink) :
    (d >>= k) s =
      match d s with
      | (.ok a, s) => k a s
      | (.error fault, s) => (.error fault, s) := by
  show ExceptT.bindCont k (d s).1 (d s).2 = _
  rcases d s with ⟨_ | _, s'⟩ <;> rfl

/-- Hands chunks over, and then goes on with a value. -/
def handOver {α : Type} (chunks : List String) (a : α) : Delivery α := fun s ↦
  match s.writeAll chunks with
  | (s, none) => (.ok a, s)
  | (s, some fault) => (.error fault, s)

theorem Sink.writeAll_append (s : Sink) (cs ds : List String) :
    s.writeAll (cs ++ ds) =
      match s.writeAll cs with
      | (s, none) => s.writeAll ds
      | (s, some fault) => (s, some fault) := by
  induction cs generalizing s with
  | nil => rfl
  | cons c cs ih =>
    rw [List.cons_append, writeAll, writeAll]
    rcases s.write c with ⟨s, _ | fault⟩
    · exact ih s
    · rfl

theorem handOver_bind {α β : Type} {cs ds : List String} {a : α} {b : β} {k : α → Delivery β}
    (hk : k a = handOver ds b) : handOver cs a >>= k = handOver (cs ++ ds) b := by
  funext s
  rw [Delivery.bind_apply, handOver, handOver, Sink.writeAll_append]
  rcases s.writeAll cs with ⟨s, _ | fault⟩
  · exact congrFun hk s
  · rfl

/-- Work on a sink that leads from one layout to another: it hands over the chunks that the second
has more than the first, and then stands where the second does. -/
def Delivers (f f' : Formatter) (d : Delivery Formatter) : Prop :=
  ∃ cs, f'.chunks.toList = f.chunks.toList ++ cs ∧ d = handOver cs f'

namespace Delivers

variable {f f' f'' g : Formatter} {d : Delivery Formatter}

/-- Work that writes nothing. -/
theorem pure (h : f'.chunks = f.chunks) : Delivers f f' (pure f') :=
  ⟨[], by rw [h, List.append_nil], rfl⟩

/-- What was not written before the work does not matter. An operation may change the state of the
formatter first, as long as it writes nothing. -/
theorem of_chunks (h : g.chunks = f.chunks) (hd : Delivers g f' d) : Delivers f f' d := by
  obtain ⟨cs, hcs, rfl⟩ := hd
  exact ⟨cs, h ▸ hcs, rfl⟩

/-- **One piece of work after the other.** -/
theorem bind {k : Formatter → Delivery Formatter} (h : Delivers f f' d)
    (hk : Delivers f' f'' (k f')) : Delivers f f'' (d >>= k) := by
  obtain ⟨cs, hcs, rfl⟩ := h
  obtain ⟨ds, hds, hk⟩ := hk
  exact ⟨cs ++ ds, by rw [hds, hcs, List.append_assoc], handOver_bind hk⟩

/-- **Work along a list** leads where the layout along it leads, if every step does. -/
theorem foldlM {α : Type} {step : Formatter → α → Formatter}
    {stepTo : Formatter → α → Delivery Formatter}
    (hstep : ∀ f a, Delivers f (step f a) (stepTo f a)) (as : List α) (f : Formatter) :
    Delivers f (as.foldl step f) (as.foldlM stepTo f) := by
  induction as generalizing f with
  | nil => exact .pure rfl
  | cons a as ih =>
    rw [List.foldl_cons, List.foldlM_cons]
    exact (hstep f a).bind (ih (step f a))

end Delivers

namespace Formatter

/-- An effect of the writer is one chunk, or none. -/
theorem delivers_perform (f : Formatter) (e : Writer.Effect) :
    Delivers f (f.perform e) (f.performTo e) := by
  refine ⟨e.chunks, by rw [perform, Array.toList_appendList], ?_⟩
  funext s
  rw [performTo, handOver, Sink.perform]
  rcases s.writeAll e.chunks with ⟨s, _ | fault⟩ <;> rfl

theorem delivers_lineBreak (f : Formatter) : Delivers f f.lineBreak f.lineBreakTo :=
  (delivers_perform { f with breakPending := false } (f.writer.lineBreak f.indent.text)).of_chunks
    rfl

theorem delivers_settleBreak (f : Formatter) : Delivers f f.settleBreak f.settleBreakTo := by
  unfold settleBreak settleBreakTo
  split
  · exact delivers_lineBreak f
  · exact .pure rfl

theorem delivers_writeText (f : Formatter) (text : String) :
    Delivers f (f.writeText text) (f.writeTextTo text) :=
  (delivers_perform f (f.writer.write text)).bind (.pure rfl)

theorem delivers_writeSpace (f : Formatter) (text : String) :
    Delivers f (f.writeSpace text) (f.writeSpaceTo text) := by
  unfold writeSpace writeSpaceTo
  split
  · exact delivers_perform f _
  · exact .pure rfl

/-- A token: the line end before it, the space before it, and its text. -/
theorem delivers_emit (f : Formatter) (text : String) :
    Delivers f (f.emit text) (f.emitTo text) := by
  refine (delivers_settleBreak f).bind ?_
  simp only [emit]
  split
  · exact .pure rfl
  · exact (delivers_writeSpace _ text).bind (delivers_writeText _ text)

/-- What is done behind a comment. -/
theorem delivers_endComment (f : Formatter) (category : Category) (text : String) :
    Delivers f (f.endComment category text) (f.endCommentTo category text) := by
  unfold endComment endCommentTo
  split
  · exact delivers_lineBreak f
  · split
    · exact .pure rfl
    · exact .pure rfl

theorem delivers_writeComment (category : Category) (f : Formatter) (comment : Token) :
    Delivers f (writeComment category f comment) (writeCommentTo category f comment) := by
  unfold writeComment writeCommentTo
  generalize hnote : f.note (.comment comment.index category) = g
  have hg : g.chunks = f.chunks := by rw [← hnote]; rfl
  have hbreak : Delivers g (if g.breaksBeforeComment category then g.lineBreak else g)
      (if g.breaksBeforeComment category then g.lineBreakTo else pure g) := by
    split
    · exact delivers_lineBreak g
    · exact .pure rfl
  exact (hbreak.bind ((delivers_writeText _ _).bind (delivers_endComment _ _ _))).of_chunks hg

/-- The comments that are given out for a node or a token. -/
theorem delivers_writeComments (f : Formatter) (category : Category) (given : List Token × Marks) :
    Delivers f (f.writeComments category given) (f.writeCommentsTo category given) :=
  (Delivers.foldlM (delivers_writeComment category) given.1 { f with marks := given.2 }).of_chunks
    rfl

theorem delivers_runOp (text : String) (f : Formatter) (op : LayoutOp) :
    Delivers f (f.runOp text op) (f.runOpTo text op) := by
  cases op with
  | newLine => exact delivers_lineBreak f
  | indent => exact .pure rfl
  | dedent => exact .pure rfl
  | emit => exact delivers_emit f text

/-- A main token, with its plan and the comments after it. -/
theorem delivers_leaf (f : Formatter) (t : Token) : Delivers f (f.leaf t) (f.leafTo t) := by
  refine (delivers_writeComments f _ _).bind ?_
  simp only [leaf]
  generalize f.writeComments _ _ = g
  have hops := Delivers.foldlM (delivers_runOp t.text) (g.frames.plan t.kind t.text)
    { g with frames := g.frames.after t.kind }
  exact (hops.of_chunks rfl).bind (.pure rfl)

/-- The frame of a construct, which may end a line first. -/
theorem delivers_pushFrame (f : Formatter) (category : Category) :
    Delivers f (f.pushFrame category) (f.pushFrameTo category) := by
  unfold pushFrame pushFrameTo
  cases category.entry with
  | block => exact (delivers_lineBreak _).of_chunks rfl
  | inline => exact .pure rfl
  | inherit => exact .pure rfl

theorem delivers_commentsBefore (f : Formatter) (category : Category) (span : Option Span) :
    Delivers f (f.commentsBefore category span) (f.commentsBeforeTo category span) := by
  cases span with
  | none => exact .pure rfl
  | some span => exact delivers_writeComments f category _

theorem delivers_commentsAfter (f : Formatter) (category : Category) (span : Option Span) :
    Delivers f (f.commentsAfter category span) (f.commentsAfterTo category span) := by
  cases span with
  | none => exact .pure rfl
  | some span => exact delivers_writeComments f category _

/-- A report writes nothing into the text. -/
theorem chunks_reportRecovered (f : Formatter) (kind : NodeKind) (span : Option Span) :
    (f.reportRecovered kind span).chunks = f.chunks := by
  unfold reportRecovered
  split <;> rfl

/-- Taking a frame off writes nothing. -/
theorem chunks_popFrame (f : Formatter) (category : Category) :
    (f.popFrame category).chunks = f.chunks := by
  unfold popFrame
  split
  · split <;> rfl
  · rfl

theorem delivers_enter (f : Formatter) (kind : NodeKind) (span : Option Span) :
    Delivers f (f.enter kind span) (f.enterTo kind span) := by
  refine ((delivers_commentsBefore (f.note (.entered kind)) _ span).of_chunks rfl).bind ?_
  exact (delivers_pushFrame _ kind.category).of_chunks (chunks_reportRecovered _ kind span)

theorem delivers_leave (f : Formatter) (kind : NodeKind) (span : Option Span) :
    Delivers f (f.leave kind span) (f.leaveTo kind span) :=
  (delivers_commentsAfter f _ span).bind (.pure (chunks_popFrame _ kind.category))

/-- **Every event** hands over the chunks it lays out. -/
theorem delivers_step (f : Formatter) (e : Event) : Delivers f (f.step e) (f.stepTo e) := by
  cases e with
  | enter kind span => exact delivers_enter f kind span
  | leave kind span => exact delivers_leave f kind span
  | token t => exact delivers_leaf f t
  | stray t => exact (delivers_leaf (f.note (.strayToken t.text)) t).of_chunks rfl

/-- **Every run** hands over the chunks it lays out. -/
theorem delivers_run (f : Formatter) (events : List Event) :
    Delivers f (f.run events) (f.runTo events) :=
  Delivers.foldlM delivers_step events f

/-- A run that a sink takes leads where the run leads by itself. So what is known of layouts is
known of those that went into a sink. -/
theorem eq_run_of_runTo {f f' : Formatter} {es : List Event} {sink sink' : Sink}
    (h : f.runTo es sink = (.ok f', sink')) : f' = f.run es := by
  obtain ⟨cs, -, hrun⟩ := delivers_run f es
  rw [hrun, handOver] at h
  split at h
  · exact (Except.ok.inj (Prod.mk.inj h).1).symm
  · exact absurd (Prod.mk.inj h).1 (by simp)

/-- A sink without a limit takes a whole run. -/
theorem exists_runTo (f : Formatter) (es : List Event) {sink : Sink} (h : sink.limit = none) :
    ∃ f' sink', f.runTo es sink = (.ok f', sink') := by
  obtain ⟨cs, -, hrun⟩ := delivers_run f es
  have hroom : sink.room (String.join cs).toUTF8.size = (String.join cs).toUTF8.size := by
    rw [Sink.room, h]
    exact Nat.min_self _
  rw [hrun, handOver, Sink.writeAll_eq, Sink.accept_of_room hroom]
  exact ⟨_, _, rfl⟩

/-- A tree laid out into a sink is its layout delivered to the sink. -/
theorem ofTreeTo_eq (r : Rules) (stream : Stream) (tree : Tree) (s : Sink) :
    ofTreeTo r stream tree s =
      match s.deliver (ofTree r stream tree).output with
      | (s, none) => (.ok (ofTree r stream tree), s)
      | (s, some fault) => (.error fault, s) := by
  obtain ⟨cs, hcs, hrun⟩ := delivers_run { rules := r, stream } (tree.events stream)
  have hchunks : (ofTree r stream tree).chunks.toList = cs := hcs
  rw [ofTreeTo, hrun, Delivery.bind_apply, handOver, Sink.deliver, output, hchunks,
    Sink.writeAll_append]
  rcases s.writeAll cs with ⟨s, _ | fault⟩
  · rfl
  · rfl

end Formatter

/-! ### Sources -/

/-- **Formatting into a sink agrees with formatting into a text.** Where the text cannot be had, the
reason is that the source cannot be read, and the sink is left as it was. Otherwise the sink is left
with as many bytes of the text as it has room for, and the formatting succeeds, with the same
reports, exactly if these are all and the sink can be flushed. -/
theorem formatTo_agrees (r : Rules) (source : String) (sink : Sink) :
    match format r source with
    | .error e => (∃ d, e = .unreadable d) ∧ formatTo r source sink = (sink, .error e)
    | .ok out =>
      let bytes := out.rendered.toUTF8
      if sink.room bytes.size = bytes.size ∧ sink.failsFlush = false then
        formatTo r source sink =
          ({ sink with written := sink.written ++ bytes }, .ok out.diagnostics)
      else
        ∃ fault, formatTo r source sink =
          ({ sink with written := sink.written ++ bytes.extract 0 (sink.room bytes.size) },
            .error (.outside fault)) := by
  unfold format layoutSource formatTo
  dsimp only
  cases parse (tokenize source) with
  | error d => exact ⟨⟨d, rfl⟩, rfl⟩
  | ok tree =>
    simp only [Formatter.ofTreeTo_eq, Sink.deliver, Sink.writeAll_eq, Formatter.formatted]
    generalize Formatter.ofTree r (tokenize source) tree = f
    generalize (String.join f.output).toUTF8 = bytes
    by_cases hroom : sink.room bytes.size = bytes.size
    · rw [Sink.accept_of_room hroom]
      by_cases hflush : sink.failsFlush = false
      · rw [if_pos ⟨hroom, hflush⟩]
        simp [Sink.flush, hflush]
      · rw [if_neg fun h ↦ hflush h.2, hroom, ByteArray.extract_zero_size]
        exact ⟨.flushFailed, by simp [Sink.flush, hflush]⟩
    · rw [if_neg fun h ↦ hroom h.1, Sink.accept, if_neg hroom]
      exact ⟨.closed, rfl⟩

end GrammarLayout
