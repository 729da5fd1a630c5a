import GrammarLayout.Proofs.Layout.Frames
import GrammarLayout.Proofs.Layout.Insensitivity

/-!
# Muted streams

Rules need not know every comment of a source, and the layout passes over one that they do not know
as it passes over whitespace. Such a comment is told from whitespace by its kind alone. On the muted
stream it is not told from it at all: there the rules take exactly the comments for comments
(`readable_muted`), which is what a page asks of them.

The formatter never looks at the kind of a hidden token, only at its text and its position. So it
does the same on both streams, whatever events are laid out (`Formatter.run_muted`).

Why this detour is needed: the lemmas about pages ask that the rules take exactly the comments of a
stream for comments (`Readable`). Rules that pass the check see to that for every source, but the
formatter may also be run with rules that know fewer kinds of comments, or none. Muting moves the
difference from the rules into the stream, once and for all, so that no later proof has to carry two
notions of a comment along.

The module goes through the formatter from the inside out.

* The runs of hidden tokens of the muted stream are the muted runs (`Stream.hiddenBefore_muted`,
  `Stream.hiddenAfter_muted`), since muting keeps every position and every channel.

* What is given out as comments is muted too, and the marks are the same (`Marks.take_muted`): they
  hold positions only.

* `Formatter.on` puts another stream under a formatter. Everything that writes does not look at the
  stream at all; what does look at it asks for comments or for the line of a region, and gets the
  same answer (`Formatter.step_muted`).

* So a walk leaves the same formatter behind, on the other stream (`Formatter.run_muted`), and the
  text of a tree is the same (`rendered_ofTree_muted`).
-/

namespace GrammarLayout

/-! ### Muting -/

/-- A token as rules see it that do not know all comments: a hidden one that they do not take for a
comment is whitespace. The text stays, and so do the place and the line. -/
def Token.muted (r : Rules) (t : Token) : Token :=
  { t with kind := if t.isHidden && !r.isComment t.text then .whitespace else t.kind }

/-- A stream in which hidden tokens that the rules do not take for comments are whitespace. Only
kinds change, so the tokens still stand at their positions. -/
def Stream.muted (r : Rules) (s : Stream) : Stream where
  tokens := s.tokens.map (Token.muted r)
  index_eq := by intro i h; simp [Token.muted, s.index_eq]

variable {r : Rules}

/-- Main tokens are not muted, whatever their text is. -/
theorem Token.muted_of_main {t : Token} (h : t.isHidden = false) : t.muted r = t := by
  rw [Token.muted, h]
  rfl

/-- Muting hides no token and shows none: whitespace is hidden, and only hidden tokens become
whitespace. -/
@[simp] theorem Token.isHidden_muted (r : Rules) (t : Token) :
    (t.muted r).isHidden = t.isHidden := by
  cases h : t.isHidden with
  | false => rw [muted_of_main h, h]
  | true =>
    rw [Token.isHidden, Token.muted, h]
    split
    · rfl
    · exact h

/-- The comments of a muted stream are the comments that the rules take for comments. This is what
muting is for. -/
theorem Token.isPlainComment_muted (r : Rules) (t : Token) :
    (t.muted r).isPlainComment = (t.isPlainComment && r.isComment t.text) := by
  cases hc : r.isComment t.text with
  | true =>
    rw [Bool.and_true, isPlainComment, isPlainComment, muted, hc]
    simp
  | false =>
    rw [Bool.and_false, isPlainComment, muted, hc]
    cases hk : t.kind <;> simp [Token.isHidden, hk, Kind.isHidden, Kind.channel]

namespace Stream

/-- Muting goes through the tokens one by one. -/
theorem toList_muted (r : Rules) (s : Stream) : (s.muted r).toList = s.toList.map (Token.muted r) :=
  Array.toList_map

theorem get?_muted (r : Rules) (s : Stream) (i : Nat) :
    (s.muted r).get? i = (s.get? i).map (Token.muted r) :=
  Array.getElem?_map

/-- Among the main tokens nothing changes. -/
theorem filter_muted (r : Rules) (ts : List Token) :
    (ts.map (Token.muted r)).filter (!·.isHidden) = ts.filter (!·.isHidden) := by
  induction ts with
  | nil => rfl
  | cons t ts ih =>
    rw [List.map_cons]
    cases h : t.isHidden with
    | true => rw [List.filter_cons_of_neg (by simp [h]), List.filter_cons_of_neg (by simp [h]), ih]
    | false =>
      rw [List.filter_cons_of_pos (by simp [h]), List.filter_cons_of_pos (by simp [h]), ih,
        Token.muted_of_main h]

/-- The main tokens of a stream are those of the muted one. So the two are read as the same tree. -/
@[simp] theorem mainTokens_muted (r : Rules) (s : Stream) :
    (s.muted r).mainTokens = s.mainTokens := by
  rw [mainTokens, toList_muted, filter_muted]
  rfl

theorem hiddenBack_muted (r : Rules) (s : Stream) (n : Nat) (run : List Token) :
    (s.muted r).hiddenBack n (run.map (Token.muted r)) =
      (s.hiddenBack n run).map (Token.muted r) := by
  induction n generalizing run with
  | zero => rfl
  | succ n ih =>
    rw [hiddenBack, hiddenBack, get?_muted]
    cases s.get? n with
    | none => rfl
    | some t =>
      -- the run stops at the same token, since that is a question of channels
      simp only [Option.map_some, Token.isHidden_muted]
      split
      · exact ih (t :: run)
      · rfl

/-- The hidden tokens before a position of the muted stream. -/
theorem hiddenBefore_muted (r : Rules) (s : Stream) (i : Nat) :
    (s.muted r).hiddenBefore i = (s.hiddenBefore i).map (Token.muted r) := by
  have hsize : (s.muted r).size = s.size := Array.size_map
  rw [hiddenBefore, hiddenBefore, hsize, ← hiddenBack_muted]
  rfl

theorem hiddenOn_muted (r : Rules) (s : Stream) (n i : Nat) :
    (s.muted r).hiddenOn n i = (s.hiddenOn n i).map (Token.muted r) := by
  induction n generalizing i with
  | zero => rfl
  | succ n ih =>
    rw [hiddenOn, hiddenOn, get?_muted]
    cases s.get? i with
    | none => rfl
    | some t =>
      simp only [Option.map_some, Token.isHidden_muted, ih]
      split <;> rfl

/-- The hidden tokens after a position of the muted stream. -/
theorem hiddenAfter_muted (r : Rules) (s : Stream) (i : Nat) :
    (s.muted r).hiddenAfter i = (s.hiddenAfter i).map (Token.muted r) := by
  have hsize : (s.muted r).size = s.size := Array.size_map
  rw [hiddenAfter, hiddenAfter, hsize, hiddenOn_muted]

/-! ### What the rules know -/

/-- **On the muted stream of a source the rules know the comments**, whatever the rules are. What
the rules take for a comment and is none would have to be whitespace, of which nothing is left
without its blanks. -/
theorem readable_muted (r : Rules) (source : String) :
    Readable r ((tokenize source).muted r) where
  text_ne_nil := by
    rw [toList_muted, List.forall_mem_map]
    exact forall_mem_tokenize (P := fun s ↦ s.text ≠ []) (by decide)
      fun s hs ↦ (Segment.formed_ofChars none _ s hs).text_ne
  comment_ne_nil := by
    rw [toList_muted, List.forall_mem_map]
    intro t ht hp
    rw [Token.isPlainComment_muted, Bool.and_eq_true] at hp
    have ht : t.comment.text ≠ [] := text_comment_ne_nil ht hp.1
    exact ht
  isComment_eq := by
    rw [toList_muted, List.forall_mem_map]
    intro t ht hh
    rw [Token.isHidden_muted] at hh
    rw [Token.isPlainComment_muted]
    show r.isComment t.text = (t.isPlainComment && r.isComment t.text)
    -- hidden and no comment, so whitespace: the rules do not take it for a comment
    cases hp : t.isPlainComment with
    | true => rw [Bool.true_and]
    | false =>
      have hw : t.isVisible = false := by
        show (t.kind != .whitespace) = false
        rw [Token.kind_eq_whitespace hh hp]
        rfl
      rw [passesOver_tokenize r source t ht hw, Bool.and_false]

/-- The segments that are visible in a muted stream are determined by those of the stream: comments
that the rules do not know are left out, and nothing else. Comments are visible without the blanks
at their end, which decides nothing about whether they are comments. -/
theorem visible_muted (r : Rules) (ts : List Token) :
    Segment.visible ((ts.map (Token.muted r)).map Token.segment) =
      (Segment.visible (ts.map Token.segment)).filter fun c ↦
        !c.kind.isHidden || r.isComment (String.ofList c.text) := by
  induction ts with
  | nil => rfl
  | cons t ts ih =>
    rw [List.map_cons, List.map_cons, List.map_cons, Segment.visible_cons, ih,
      Segment.visible_cons t.segment, List.filter_append]
    refine congrArg (· ++ _) ?_
    rw [visible_segment, visible_segment, Token.isHidden_muted, Token.isPlainComment_muted]
    cases hh : t.isHidden with
    | false =>
      have hm : t.segment.kind.isHidden = false := hh
      simp [Token.muted_of_main hh, hm]
    | true =>
      have hh' : t.comment.kind.isHidden = true := hh
      -- rules look at a text without the blanks around it
      have htrim : r.isComment (String.ofList t.comment.text) = r.isComment t.text :=
        isComment_trimStringEnd r t.text
      have hcomment : r.isComment t.text = true → (t.muted r).comment = t.comment := by
        intro hc
        rw [Token.muted, hc]
        simp [Token.comment]
      cases t.isPlainComment with
      | false => rfl
      | true =>
        cases hc : r.isComment t.text with
        | false => simp [hh', htrim, hc]
        | true => simp [hh', htrim, hc, hcomment hc]

end Stream

/-! ### Comments that are given out -/

namespace Marks

/-- Giving out the comments of a muted run gives the muted comments and leaves the same marks. The
rules `r'` that select may be others than those that mute. -/
theorem take_muted (r r' : Rules) (m : Marks) (run : List Token) :
    m.take r' (run.map (Token.muted r)) =
      ((m.take r' run).1.map (Token.muted r), (m.take r' run).2) := by
  have hs : m.select r' (run.map (Token.muted r)) = (m.select r' run).map (Token.muted r) := by
    rw [select, select, List.filter_map]
    rfl
  rw [take, take, hs, List.getLast?_map]
  cases (m.select r' run).getLast? <;> rfl

/-- The comments before a node, on the muted stream. -/
theorem flushLeft_muted (r r' : Rules) (s : Stream) (span : Span) (m : Marks) :
    m.flushLeft r' (s.muted r) span =
      ((m.flushLeft r' s span).1.map (Token.muted r), (m.flushLeft r' s span).2) := by
  rw [flushLeft, flushLeft]
  split
  · rw [s.hiddenBefore_muted, take_muted]
  · rfl

/-- The comments after a node, on the muted stream. -/
theorem flushRight_muted (r r' : Rules) (s : Stream) (span : Span) (m : Marks) :
    m.flushRight r' (s.muted r) span =
      ((m.flushRight r' s span).1.map (Token.muted r), (m.flushRight r' s span).2) := by
  rw [flushRight, flushRight]
  split
  · rw [s.hiddenAfter_muted, take_muted]
  · rfl

/-- The comments before a leaf, on the muted stream. -/
theorem flushBefore_muted (r r' : Rules) (s : Stream) (i : Nat) (m : Marks) :
    m.flushBefore r' (s.muted r) i =
      ((m.flushBefore r' s i).1.map (Token.muted r), (m.flushBefore r' s i).2) := by
  rw [flushBefore, flushBefore, s.hiddenBefore_muted, take_muted]

end Marks

/-! ### Formatters on muted streams -/

namespace Formatter

/-- The same formatter on another stream. Since the stream is a field like the others, `rfl` shows
of most operations that they keep to themselves which stream it is. -/
def on (s : Stream) (f : Formatter) : Formatter := { f with stream := s }

/-- A line break that is due does not depend on the stream. -/
theorem on_settleBreak (s : Stream) (f : Formatter) :
    (f.on s).settleBreak = f.settleBreak.on s := by
  rw [settleBreak, settleBreak, show (f.on s).breakPending = f.breakPending from rfl]
  split <;> rfl

/-- Neither does writing a text. The space before it depends on what was written last, on the frames
and on the writer. -/
theorem on_emit (s : Stream) (f : Formatter) (text : String) :
    (f.on s).emit text = (f.emit text).on s := by
  have hspace : ∀ g : Formatter, (g.on s).writeSpace text = (g.writeSpace text).on s := by
    intro g
    have hneeds : (g.on s).rules.needsSpace (g.on s).previous text (g.on s).frames.active
        (g.on s).writer.atLineStart =
      g.rules.needsSpace g.previous text g.frames.active g.writer.atLineStart := rfl
    rw [writeSpace, writeSpace, hneeds]
    split <;> rfl
  have hdrops : (f.settleBreak.on s).drops text = f.settleBreak.drops text := rfl
  rw [emit, emit, on_settleBreak, hspace, hdrops]
  split <;> rfl

/-- Writing a comment asks for its text and its position, which muting keeps. -/
theorem on_writeComment (r : Rules) (s : Stream) (category : Category) (f : Formatter) (t : Token) :
    (f.on s).writeComment category (t.muted r) = (f.writeComment category t).on s := by
  -- the line break after it, and the one before it
  have hend : ∀ (g : Formatter) (text : String),
      (g.on s).endComment category text = (g.endComment category text).on s := by
    intro g text
    rw [endComment, endComment]
    split
    · rfl
    · split <;> rfl
  have hbreak : ∀ g : Formatter,
      (if (g.on s).breaksBeforeComment category then (g.on s).lineBreak else g.on s) =
        (if g.breaksBeforeComment category then g.lineBreak else g).on s := by
    intro g
    rw [show (g.on s).breaksBeforeComment category = g.breaksBeforeComment category from rfl]
    split <;> rfl
  have hwrite := hbreak (f.note (.comment t.index category))
  rw [writeComment, writeComment, ← hend]
  exact congrArg (fun g ↦ (g.writeText (trimStringEnd t.text)).endComment category
    (trimStringEnd t.text)) hwrite

/-- Writing comments that were given out, one after the other. -/
theorem on_writeComments (r : Rules) (s : Stream) (category : Category) (f : Formatter)
    (given : List Token × Marks) :
    (f.on s).writeComments category (given.1.map (Token.muted r), given.2) =
      (f.writeComments category given).on s := by
  have hfold : ∀ (ts : List Token) (g : Formatter),
      (ts.map (Token.muted r)).foldl (writeComment category) (g.on s) =
        (ts.foldl (writeComment category) g).on s := by
    intro ts
    induction ts with
    | nil => exact fun g ↦ rfl
    | cons t ts ih =>
      intro g
      rw [List.map_cons, List.foldl_cons, on_writeComment, ih]
      rfl
  exact hfold given.1 { f with marks := given.2 }

/-- The operations of a plan do not look at the stream. -/
theorem on_foldl_runOp (s : Stream) (text : String) (ops : List LayoutOp) (f : Formatter) :
    ops.foldl (runOp text) (f.on s) = (ops.foldl (runOp text) f).on s := by
  have hop : ∀ (g : Formatter) (op : LayoutOp),
      (g.on s).runOp text op = (g.runOp text op).on s := by
    intro g op
    cases op with
    | newLine | indent | dedent => rfl
    | emit => exact on_emit s g text
  induction ops generalizing f with
  | nil => rfl
  | cons op ops ih => rw [List.foldl_cons, hop, ih, List.foldl_cons]

theorem on_pushFrame (s : Stream) (f : Formatter) (category : Category) :
    (f.on s).pushFrame category = (f.pushFrame category).on s := by
  rw [pushFrame, pushFrame]
  cases category.entry <;> rfl

theorem on_popFrame (s : Stream) (f : Formatter) (category : Category) :
    (f.on s).popFrame category = (f.popFrame category).on s := by
  rw [popFrame, popFrame, show (f.on s).frames = f.frames from rfl]
  split
  · cases f.frames <;> rfl
  · rfl

/-- A leaf is laid out the same on the muted stream: the comments before it are the same, and so are
the operations of its plan. -/
theorem leaf_muted (r : Rules) (f : Formatter) (t : Token) :
    (f.on (f.stream.muted r)).leaf t = (f.leaf t).on (f.stream.muted r) := by
  have hcomments := on_writeComments r (f.stream.muted r) f.frames.active f
    (f.marks.flushBefore f.rules f.stream t.index)
  rw [← f.marks.flushBefore_muted] at hcomments
  have hrun : ∀ (s : Stream) (g : Formatter),
      (((g.on s).frames.plan t.kind t.text).foldl (runOp t.text)
        { g.on s with frames := (g.on s).frames.after t.kind }).note
          (.laidOut f.frames.active t.text) =
      (((g.frames.plan t.kind t.text).foldl (runOp t.text)
        { g with frames := g.frames.after t.kind }).note
          (.laidOut f.frames.active t.text)).on s := fun s g ↦
    congrArg (note · _) (on_foldl_runOp s t.text _ { g with frames := g.frames.after t.kind })
  rw [leaf, leaf, ← hrun, ← hcomments]
  rfl

/-- The comments before a node are written the same. -/
theorem commentsBefore_muted (r : Rules) (f : Formatter) (category : Category)
    (span : Option Span) : (f.on (f.stream.muted r)).commentsBefore category span =
      (f.commentsBefore category span).on (f.stream.muted r) := by
  cases span with
  | none => rfl
  | some span =>
    have hcomments := on_writeComments r (f.stream.muted r) category f
      (f.marks.flushLeft f.rules f.stream span)
    rwa [← f.marks.flushLeft_muted] at hcomments

/-- The comments after a node are written the same. -/
theorem commentsAfter_muted (r : Rules) (f : Formatter) (category : Category)
    (span : Option Span) : (f.on (f.stream.muted r)).commentsAfter category span =
      (f.commentsAfter category span).on (f.stream.muted r) := by
  cases span with
  | none => rfl
  | some span =>
    have hcomments := on_writeComments r (f.stream.muted r) category f
      (f.marks.flushRight f.rules f.stream span)
    rwa [← f.marks.flushRight_muted] at hcomments

/-- A region is reported with the same line, since muting keeps the lines of tokens. -/
theorem reportRecovered_muted (r : Rules) (f : Formatter) (kind : NodeKind) (span : Option Span) :
    (f.on (f.stream.muted r)).reportRecovered kind span =
      (f.reportRecovered kind span).on (f.stream.muted r) := by
  have hline : ((span.bind fun sp ↦ (f.stream.muted r).get? sp.start).map (·.line)) =
      (span.bind fun sp ↦ f.stream.get? sp.start).map (·.line) := by
    cases span with
    | none => rfl
    | some sp =>
      rw [Option.bind_some, Option.bind_some, f.stream.get?_muted]
      cases f.stream.get? sp.start <;> rfl
  have hstream : (f.on (f.stream.muted r)).stream = f.stream.muted r := rfl
  rw [reportRecovered, reportRecovered, hstream, hline]
  split <;> rfl

/-- Coming to a node does the same on the muted stream. -/
theorem approach_muted (r : Rules) (f : Formatter) (kind : NodeKind) (span : Option Span) :
    (f.on (f.stream.muted r)).approach kind span =
      (f.approach kind span).on (f.stream.muted r) := by
  have hbefore := commentsBefore_muted r (f.note (.entered kind)) kind.category span
  have hstream := (writes_commentsBefore (f.note (.entered kind)) kind.category span).stream
  rw [approach, approach]
  generalize (f.note (.entered kind)).commentsBefore kind.category span = g at hbefore hstream
  have hreport := reportRecovered_muted r g kind span
  rw [hstream] at hreport
  exact (congrArg (reportRecovered · kind span) hbefore).trans hreport

/-- **One event** does the same on the muted stream. The formatter and its stream go together: the
stream that is muted is the one the formatter is on, and no event replaces it. -/
theorem step_muted (r : Rules) (f : Formatter) (e : Event) :
    (f.on (f.stream.muted r)).step e = (f.step e).on (f.stream.muted r) := by
  cases e with
  | enter kind span =>
    show (f.on (f.stream.muted r)).enter kind span = (f.enter kind span).on (f.stream.muted r)
    rw [enter_eq_pushFrame, enter_eq_pushFrame, approach_muted, on_pushFrame]
  | leave kind span =>
    have hafter := commentsAfter_muted r f kind.category span
    show (f.on (f.stream.muted r)).leave kind span = (f.leave kind span).on (f.stream.muted r)
    rw [leave, leave, hafter, on_popFrame]
    rfl
  | token t => exact leaf_muted r f t
  | stray t => exact leaf_muted r (f.note (.strayToken t.text)) t

/-- **Events do the same on the muted stream.** -/
theorem run_muted (r : Rules) (f : Formatter) (es : List Event) :
    (f.on (f.stream.muted r)).run es = (f.run es).on (f.stream.muted r) := by
  induction es generalizing f with
  | nil => rfl
  | cons e es ih =>
    have hs := (diagnostics_step f e).2
    rw [Follows.run_cons, Follows.run_cons, step_muted, ← hs, ih]

end Formatter

/-- Walking over the main tokens is the same on the muted stream. -/
theorem Over.eventsAll_muted {s : Stream} {us : List Token} {ts : List Tree} (h : Over us ts)
    (hus : ∀ t ∈ us, t ∈ s.mainTokens) :
    Tree.eventsAll (s.muted r) ts = Tree.eventsAll s ts := by
  have hget : ∀ t ∈ us, (s.muted r).get? t.index = s.get? t.index := by
    intro t ht
    obtain ⟨hm, hh⟩ := List.mem_filter.1 (hus t ht)
    -- a main token is at its position, and is not muted
    rw [s.get?_muted, Stream.get?_of_mem hm, Option.map_some,
      Token.muted_of_main (by simpa using hh)]
  clear hus
  induction h with
  | nil => rfl
  | leaf _ ih | stray _ ih =>
    rw [List.forall_mem_cons] at hget
    rw [Tree.eventsAll, Tree.eventsAll, ih hget.2, Tree.events, Tree.events, hget.1]
  | node _ _ ih₁ ih₂ =>
    rw [List.forall_mem_append] at hget
    rw [Tree.eventsAll, Tree.eventsAll, ih₂ hget.2, Tree.ofChildren, Tree.events, Tree.events,
      ih₁ hget.1]

/-- A tree over the main tokens is walked in the same way on the muted stream. -/
theorem Over.events_muted {s : Stream} {tree : Tree} (h : Over s.mainTokens [tree]) :
    tree.events (s.muted r) = tree.events s := by
  simpa [Tree.eventsAll] using h.eventsAll_muted (r := r) fun _ ht ↦ ht

namespace Formatter

/-- Walking a muted stream from the start. -/
theorem run_start_muted (r : Rules) (s : Stream) (es : List Event) :
    run { rules := r, stream := s.muted r } es =
      (run { rules := r, stream := s } es).on (s.muted r) :=
  run_muted r { rules := r, stream := s } es

/-- On the muted stream the same is put out above a node. -/
theorem above_muted (r : Rules) (s : Stream) (es : List Event) (kind : NodeKind)
    (span : Option Span) : above r (s.muted r) es kind span = above r s es kind span := by
  have happroach := approach_muted r (run { rules := r, stream := s } es) kind span
  rw [stream_run] at happroach
  rw [above, run_start_muted, happroach]
  rfl

/-- On the muted stream the layout is the same. -/
theorem rendered_ofTree_muted (r : Rules) {s : Stream} {tree : Tree}
    (h : Over s.mainTokens [tree]) :
    (ofTree r (s.muted r) tree).formatted.rendered = (ofTree r s tree).formatted.rendered := by
  rw [ofTree, h.events_muted, run_start_muted]
  rfl

end Formatter

end GrammarLayout
