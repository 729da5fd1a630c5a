import GrammarLayout.Proofs.Action.Offsets

/-!
# Tokens by offsets

The tokens of a source can be found by offsets alone, without cutting the source into segments
first. The scan below keeps no text: it slices the source where it needs one, looks a line up among
the starts of all lines, and has only the tokens found so far to tell a block from an action. A
braced lexeme is measured twice, once by the flat scan and once more to see whether its last byte is
its closing brace, and its body is scanned as a region of its own.

Two things could go wrong that cannot when segments are placed afterwards: a slice could miss the
boundaries between characters, and the offsets of a region inside a region could drift. Neither
does (`tokensByOffset_eq`): no slice fails, and the tokens are those of `tokenize`. What carries the
proof is that the tokens found so far are the segments found so far, each at its place (`placed`),
so that pushing a token is adding a segment (`pushToken_placed`).

The parts are the following:

* Lines are looked up in the sorted list of their starts (`lineOf_byteLength`), which takes the
  place of counting line feeds.

* `placed` puts segments at their places one by one and `Leads` says that a source starts with them;
  a slice between two such places is the text of the segments between them (`Leads.slice?_eq`).

* `lexRegion`, `pushLexeme` and `expandBraced` call each other. Each has an equation for what it
  does with the right slice (`lexRegion_of_cons`, `expandBraced_of_slice?`), so that they are opened
  only there, and `lexRegion_placed` follows them along the recursion of `Segment.ofChars`.
-/

namespace GrammarLayout

/-! ### Lines -/

/-- The bytes at which lines start in a text at a byte, its first line apart. -/
def lineStartsFrom (offset : Nat) : List Char → List Nat
  | [] => []
  | c :: cs =>
    let rest := lineStartsFrom (offset + c.utf8Size) cs
    if c = '\n' then (offset + 1) :: rest else rest

/-- The bytes at which the lines of a source start, in their order. -/
def lineStarts (source : String) : List Nat := 0 :: lineStartsFrom 0 source.toList

/-- The line of a byte: how many lines start up to it. -/
def lineOf (starts : List Nat) (offset : Nat) : Nat := (starts.takeWhile (· ≤ offset)).length

/-- The starts of lines in a text of two parts. -/
theorem lineStartsFrom_append (offset : Nat) (pre post : List Char) :
    lineStartsFrom offset (pre ++ post) =
      lineStartsFrom offset pre ++ lineStartsFrom (offset + byteLength pre) post := by
  induction pre generalizing offset with
  | nil => rfl
  | cons c pre ih =>
    simp only [List.cons_append, lineStartsFrom, ih, byteLength_cons, Nat.add_assoc]
    split <;> rfl

/-- A line starts after the line feed before it. -/
theorem mem_lineStartsFrom {offset n : Nat} {cs : List Char} (h : n ∈ lineStartsFrom offset cs) :
    offset < n ∧ n ≤ offset + byteLength cs := by
  induction cs generalizing offset with
  | nil => exact absurd h (by simp [lineStartsFrom])
  | cons c cs ih =>
    have hpos := c.utf8Size_pos
    have hrest : n ∈ lineStartsFrom (offset + c.utf8Size) cs →
        offset < n ∧ n ≤ offset + byteLength (c :: cs) := fun hn ↦ by
      have := ih hn
      rw [byteLength_cons]
      omega
    rw [lineStartsFrom] at h
    split at h
    · rcases List.mem_cons.1 h with rfl | h
      · rw [byteLength_cons]
        omega
      · exact hrest h
    · exact hrest h

theorem length_lineStartsFrom (offset : Nat) (cs : List Char) :
    (lineStartsFrom offset cs).length = cs.count '\n' := by
  induction cs generalizing offset with
  | nil => rfl
  | cons c cs ih =>
    rw [lineStartsFrom, List.count_cons, ← ih (offset + c.utf8Size)]
    by_cases hc : c = '\n' <;> simp [hc]

/-- **A line is found among the starts of all lines**: those up to a byte come first, and there is
one more of them than line feeds before the byte. -/
theorem lineOf_byteLength {source : String} {pre post : List Char}
    (h : source.toList = pre ++ post) :
    lineOf (lineStarts source) (byteLength pre) = 1 + pre.count '\n' := by
  have hbefore : ∀ n ∈ 0 :: lineStartsFrom 0 pre, decide (n ≤ byteLength pre) = true := by
    refine List.forall_mem_cons.2 ⟨by simp, fun n hn ↦ decide_eq_true ?_⟩
    have := mem_lineStartsFrom hn
    omega
  have hafter : (lineStartsFrom (0 + byteLength pre) post).takeWhile (· ≤ byteLength pre) = [] := by
    cases hs : lineStartsFrom (0 + byteLength pre) post with
    | nil => rfl
    | cons n ns =>
      have hn := mem_lineStartsFrom (hs ▸ List.mem_cons_self : n ∈ lineStartsFrom _ post)
      rw [List.takeWhile_cons_of_neg (by simp; omega)]
  rw [lineOf, lineStarts, h, lineStartsFrom_append, ← List.cons_append,
    List.takeWhile_append_of_pos hbefore, hafter, List.append_nil, List.length_cons,
    length_lineStartsFrom, Nat.add_comm]

/-! ### The scan -/

/-- Tokens with one more after them, for a slice of a source. -/
def pushToken (source : String) (out : List Token) (kind : Kind) (start stop : Nat) :
    Option (List Token) :=
  (slice? source start stop).map fun text ↦
    let line := lineOf (lineStarts source) start
    out ++ [{ kind, text := String.ofList text, index := out.length, start, stop, line }]

/-- Tokens with a lexeme of the flat scan after them, which may turn out to be a doc comment. -/
def pushPlain (source : String) (out : List Token) (kind : Kind) (start stop : Nat) :
    Option (List Token) :=
  (slice? source start stop).bind fun text ↦
    pushToken source out (Segment.ofPlain kind text).kind start stop

/-- Tokens with the closing brace of a block after them, as far as it is there. -/
def pushClosing (source : String) (out : List Token) (kind : Kind) (closed : Bool) (stop : Nat) :
    Option (List Token) :=
  if closed then pushToken source out kind (stop - 1) stop else some out

/-- Tokens with the pieces of an action body after them. -/
def pushPieces (source : String) (out : List Token) (start stop : Nat) : Option (List Token) :=
  (slice? source start stop).bind fun body ↦
    (Action.pieceSpans (String.ofList body) 0).foldlM
      (fun out span ↦ pushToken source out .actionContent (span.1 + start) (span.2 + start)) out

/-- The kind of the last main token. -/
def lastMain? (out : List Token) : Option Kind := (out.reverse.find? (!·.isHidden)).map (·.kind)

theorem add_of_slice? {source : String} {start stop : Nat} {mid : List Char}
    (h : slice? source start stop = some mid) : start + byteLength mid = stop := by
  obtain ⟨pre, post, -, rfl, rfl⟩ := slice?_eq_some_iff.1 h
  rfl

/-- A lexeme of a region covers some of it. -/
theorem byteLength_next (c : Char) (cs : List Char) :
    0 < byteLength (Lexeme.next c cs).1.text ∧
      byteLength (Lexeme.next c cs).1.text ≤ byteLength (c :: cs) := by
  refine ⟨byteLength_pos (Lexeme.text_next_ne_nil c cs), ?_⟩
  rw [← Lexeme.next_append c cs, byteLength_append]
  exact Nat.le_add_right _ _

mutual

/-- Tokens with those of a region of a source after them. -/
def lexRegion (source : String) (start stop : Nat) (out : List Token) : Option (List Token) :=
  match _h : slice? source start stop with
  | none => none
  | some [] => some out
  | some (c :: cs) =>
    (pushLexeme source start (Lexeme.next c cs).1 out).bind fun out ↦
      lexRegion source (start + byteLength (Lexeme.next c cs).1.text) stop out
termination_by (stop - start, 2)
decreasing_by
  all_goals
    have hregion := add_of_slice? _h
    have hlexeme := byteLength_next c cs
    omega

/-- Tokens with those of a lexeme after them. -/
def pushLexeme (source : String) (start : Nat) (l : Lexeme) (out : List Token) :
    Option (List Token) :=
  match l with
  | .plain kind text => pushPlain source out kind start (start + byteLength text)
  | .unknown text => pushToken source out .unknown start (start + byteLength text)
  | .braced body closed =>
    expandBraced source start (start + byteLength (Lexeme.braced body closed).text) out
termination_by (byteLength l.text, 1)
decreasing_by omega

/-- Tokens with those of a braced lexeme after them: a block after a keyword that introduces one,
otherwise an action. -/
def expandBraced (source : String) (start stop : Nat) (out : List Token) : Option (List Token) :=
  match _h : slice? source (start + 1) stop with
  | none => none
  | some inside =>
    let closed := (Action.blockLength 0 (utf8Bytes inside)).2
    let last := if closed then stop - 1 else stop
    if (lastMain? out).any Kind.introducesBlock then
      (pushToken source out .lbrace start (start + 1)).bind fun out ↦
        (lexRegion source (start + 1) last out).bind fun out ↦
          pushClosing source out .rbrace closed stop
    else
      (pushToken source out .beginAction start (start + 1)).bind fun out ↦
        (pushPieces source out (start + 1) last).bind fun out ↦
          pushClosing source out .endAction closed stop
termination_by (stop - start, 0)
decreasing_by
  have hinside := add_of_slice? _h
  simp_wf
  split <;> omega

end

/-- The token stream of a source, with its end marker; nothing if a slice fails. -/
def tokensByOffset (source : String) : Option Stream :=
  (lexRegion source 0 source.utf8ByteSize []).map fun out ↦
    let stop := source.utf8ByteSize
    let line := lineOf (lineStarts source) stop
    .ofTokens
      (out ++ [{ kind := .eof, text := eofText, index := 0, start := stop, stop, line }]).toArray

/-! ### Segments at their places -/

/-- Tokens for segments that `pre` stands before, numbered from `k` on. -/
def placedFrom (pre : List Char) (k : Nat) : List Segment → List Token
  | [] => []
  | s :: ss =>
    { kind := s.kind, text := String.ofList s.text, index := k, start := byteLength pre,
      stop := byteLength pre + byteLength s.text, line := 1 + pre.count '\n' } ::
      placedFrom (pre ++ s.text) (k + 1) ss

/-- Tokens for segments at the start of a source. -/
def placed (ss : List Segment) : List Token := placedFrom [] 0 ss

theorem placedFrom_append (pre : List Char) (k : Nat) (ss ss' : List Segment) :
    placedFrom pre k (ss ++ ss') =
      placedFrom pre k ss ++ placedFrom (pre ++ ss.flatMap Segment.text) (k + ss.length) ss' := by
  induction ss generalizing pre k with
  | nil => simp [placedFrom]
  | cons s ss ih =>
    rw [List.cons_append, placedFrom, placedFrom, ih, List.flatMap_cons, List.append_assoc,
      List.length_cons, List.cons_append, show k + 1 + ss.length = k + (ss.length + 1) by omega]

@[simp] theorem length_placed (ss : List Segment) : (placed ss).length = ss.length := by
  have hfrom : ∀ (pre : List Char) (k : Nat), (placedFrom pre k ss).length = ss.length := by
    induction ss with
    | nil => intro _ _; rfl
    | cons s ss ih => intro pre k; rw [placedFrom, List.length_cons, ih, List.length_cons]
  exact hfrom [] 0

/-- One more segment is one more token. -/
theorem placed_concat (ss : List Segment) (s : Segment) :
    placed (ss ++ [s]) = placed ss ++ placedFrom (ss.flatMap Segment.text) ss.length [s] := by
  rw [placed, placedFrom_append, List.nil_append, Nat.zero_add]
  rfl

/-- The kind of the last main token is that of the nearest main segment. -/
theorem lastMain?_placed (ss : List Segment) :
    lastMain? (placed ss) = ss.foldl Segment.nearest none := by
  induction ss using List.reverseRecOn with
  | nil => rfl
  | append_singleton ss s ih =>
    rw [placed_concat, List.foldl_append, List.foldl_cons, List.foldl_nil, ← ih]
    cases hh : s.kind.isHidden <;>
      simp [lastMain?, placedFrom, Segment.nearest, Token.isHidden, hh]

/-- Placing segments is what `tokenize` does, before the end marker and without numbers. -/
theorem numberedFrom_placeSegments (pre : List Char) (k : Nat) (ss : List Segment) :
    numberedFrom k (placeSegments (byteLength pre) (1 + pre.count '\n') ss) =
      placedFrom pre k ss ++
        [{ kind := .eof, text := eofText, index := k + ss.length,
           start := byteLength (pre ++ ss.flatMap Segment.text),
           stop := byteLength (pre ++ ss.flatMap Segment.text),
           line := 1 + (pre ++ ss.flatMap Segment.text).count '\n' }] := by
  induction ss generalizing pre k with
  | nil => simp [placeSegments, numberedFrom, placedFrom]
  | cons s ss ih =>
    have hi := ih (pre ++ s.text) (k + 1)
    rw [byteLength_append, List.count_append, ← Nat.add_assoc] at hi
    rw [placeSegments, numberedFrom, hi, placedFrom, List.cons_append, List.flatMap_cons,
      List.length_cons, List.append_assoc, show k + 1 + ss.length = k + (ss.length + 1) by omega]

/-- Tokens at their places have their numbers. -/
theorem numberedFrom_placed (ss : List Segment) (t : Token) :
    numberedFrom 0 (placed ss ++ [t]) = placed ss ++ [{ t with index := ss.length }] := by
  have hfrom : ∀ (pre : List Char) (k : Nat), numberedFrom k (placedFrom pre k ss ++ [t]) =
      placedFrom pre k ss ++ [{ t with index := k + ss.length }] := by
    induction ss with
    | nil => intro _ _; rfl
    | cons s ss ih =>
      intro pre k
      rw [placedFrom, List.cons_append, numberedFrom, ih, List.length_cons, List.cons_append,
        show k + 1 + ss.length = k + (ss.length + 1) by omega]
  rw [placed, hfrom, Nat.zero_add]

/-- A stream is its tokens up to their numbers. -/
theorem ofTokens_congr {ts us : List Token} (h : numberedFrom 0 ts = numberedFrom 0 us) :
    Stream.ofTokens ts.toArray = Stream.ofTokens us.toArray := by
  have htokens : (Stream.ofTokens ts.toArray).tokens = (Stream.ofTokens us.toArray).tokens := by
    rw [← Array.toList_inj, Stream.ofTokens, Stream.ofTokens, Array.toList_mapIdx,
      Array.toList_mapIdx]
    exact (mapIdx_eq_numberedFrom 0 ts).trans (h.trans (mapIdx_eq_numberedFrom 0 us).symm)
  generalize Stream.ofTokens ts.toArray = s at htokens
  generalize Stream.ofTokens us.toArray = s' at htokens
  cases s
  cases s'
  cases htokens
  rfl

/-! ### Pushing tokens -/

/-- The byte after segments at the start of a source. -/
def endOf (ss : List Segment) : Nat := byteLength (ss.flatMap Segment.text)

/-- Segments end where the last of them does. -/
theorem endOf_append (ss ss' : List Segment) :
    endOf (ss ++ ss') = endOf ss + byteLength (ss'.flatMap Segment.text) := by
  rw [endOf, List.flatMap_append, byteLength_append, endOf]

theorem endOf_concat (ss : List Segment) (kind : Kind) (text : List Char) :
    endOf (ss ++ [⟨kind, text⟩]) = endOf ss + byteLength text := by
  rw [endOf_append, List.flatMap_singleton]

/-- An opening brace is one byte. -/
theorem endOf_opening (ss : List Segment) (kind : Kind) :
    endOf (ss ++ [⟨kind, ['\x7b']⟩]) = endOf ss + 1 :=
  endOf_concat ss kind _

/-- A closing brace is one byte, if it is there. -/
theorem endOf_closing (ss : List Segment) (kind : Kind) (closed : Bool) :
    (if closed then endOf (ss ++ Segment.closing kind closed) - 1
      else endOf (ss ++ Segment.closing kind closed)) = endOf ss := by
  cases closed with
  | false => rw [if_neg Bool.false_ne_true, Segment.closing, if_neg Bool.false_ne_true,
      List.append_nil]
  | true =>
    rw [if_pos rfl, Segment.closing, if_pos rfl, endOf_concat]
    rfl

/-- A source starts with segments. -/
def Leads (source : String) (ss : List Segment) : Prop :=
  ss.flatMap Segment.text <+: source.toList

section

variable {source : String} {ss ss' : List Segment}

theorem Leads.of_append (h : Leads source (ss ++ ss')) : Leads source ss := by
  rw [Leads, List.flatMap_append] at h
  exact (List.prefix_append ..).trans h

/-- Slices from segment to segment. -/
theorem Leads.slice?_eq (h : Leads source (ss ++ ss')) :
    slice? source (endOf ss) (endOf (ss ++ ss')) = some (ss'.flatMap Segment.text) := by
  obtain ⟨post, hpost⟩ := h
  rw [List.flatMap_append, List.append_assoc] at hpost
  exact slice?_eq_some_iff.2 ⟨_, post, hpost.symm, rfl, endOf_append ss ss'⟩

/-- **Pushing a token is adding a segment.** -/
theorem pushToken_placed {kind : Kind} {text : List Char}
    (h : Leads source (ss ++ [⟨kind, text⟩])) :
    pushToken source (placed ss) kind (endOf ss) (endOf (ss ++ [⟨kind, text⟩])) =
      some (placed (ss ++ [⟨kind, text⟩])) := by
  obtain ⟨post, hpost⟩ := h.of_append
  rw [pushToken, h.slice?_eq, Option.map_some, endOf_concat]
  dsimp only
  rw [endOf, lineOf_byteLength hpost.symm, length_placed, placed_concat, List.flatMap_singleton]
  rfl

/-- A lexeme of the flat scan is one segment, with the kind of a doc comment if it is one. -/
theorem pushPlain_placed {kind : Kind} {text : List Char}
    (h : Leads source (ss ++ [Segment.ofPlain kind text])) :
    pushPlain source (placed ss) kind (endOf ss) (endOf (ss ++ [Segment.ofPlain kind text])) =
      some (placed (ss ++ [Segment.ofPlain kind text])) := by
  have hs : Segment.ofPlain kind text = ⟨(Segment.ofPlain kind text).kind, text⟩ := by
    unfold Segment.ofPlain
    split <;> rfl
  rw [pushPlain, h.slice?_eq, Option.bind_some, List.flatMap_singleton, Segment.text_ofPlain]
  rw [hs] at h ⊢
  exact pushToken_placed h

/-- The closing brace is the last byte, if it is there. -/
theorem pushClosing_placed {kind : Kind} {closed : Bool}
    (h : Leads source (ss ++ Segment.closing kind closed)) :
    pushClosing source (placed ss) kind closed (endOf (ss ++ Segment.closing kind closed)) =
      some (placed (ss ++ Segment.closing kind closed)) := by
  have hstart := endOf_closing ss kind closed
  cases closed with
  | false => rw [pushClosing, Segment.closing, if_neg (by simp), if_neg (by simp), List.append_nil]
  | true =>
    rw [if_pos rfl] at hstart
    rw [pushClosing, if_pos rfl, hstart]
    exact pushToken_placed h

/-- Spans that follow each other are pushed as segments that follow each other. The body starts at a
byte of its own, to which the spans are relative. -/
theorem foldlM_pushToken {ps : List (List Char)} {offset start : Nat}
    (h : Leads source (ss ++ ps.map fun p ↦ ⟨.actionContent, p⟩))
    (ho : offset + start = endOf ss) :
    (byteSpans offset ps).foldlM (fun out span ↦
        pushToken source out .actionContent (span.1 + start) (span.2 + start)) (placed ss) =
      some (placed (ss ++ ps.map fun p ↦ ⟨.actionContent, p⟩)) := by
  induction ps generalizing ss offset with
  | nil => simp [byteSpans]
  | cons p ps ih =>
    rw [List.map_cons, List.append_cons] at h ⊢
    have hstop : offset + byteLength p + start = endOf (ss ++ [⟨.actionContent, p⟩]) := by
      rw [endOf_concat]
      omega
    rw [byteSpans, List.foldlM_cons]
    dsimp only
    rw [ho, hstop, pushToken_placed h.of_append]
    exact ih h hstop

/-- The pieces of an action body are pushed one by one. -/
theorem pushPieces_placed {body : List Char}
    (h : Leads source (ss ++ (Action.pieces body).map fun p ↦ ⟨.actionContent, p⟩)) :
    pushPieces source (placed ss) (endOf ss)
        (endOf (ss ++ (Action.pieces body).map fun p ↦ ⟨.actionContent, p⟩)) =
      some (placed (ss ++ (Action.pieces body).map fun p ↦ ⟨.actionContent, p⟩)) := by
  have htext : ((Action.pieces body).map fun p ↦ (⟨.actionContent, p⟩ : Segment)).flatMap
      Segment.text = body := by
    rw [List.flatMap_map, List.flatMap_id', Action.flatten_pieces]
  rw [pushPieces, h.slice?_eq, Option.bind_some, htext, Action.pieceSpans_eq,
    String.toList_ofList]
  exact foldlM_pushToken h (Nat.zero_add _)

end

/-! ### Regions -/

section

variable {source : String} {start stop : Nat} {out : List Token}

/-- An empty region has no tokens. -/
theorem lexRegion_of_nil (hs : slice? source start stop = some []) :
    lexRegion source start stop out = some out := by
  rw [lexRegion]
  split <;> simp_all

/-- A region is scanned lexeme by lexeme. -/
theorem lexRegion_of_cons {c : Char} {cs rest : List Char} {l : Lexeme}
    (hs : slice? source start stop = some (c :: cs)) (hn : Lexeme.next c cs = (l, rest)) :
    lexRegion source start stop out = (pushLexeme source start l out).bind fun out ↦
      lexRegion source (start + byteLength l.text) stop out := by
  rw [lexRegion]
  split <;> simp_all

/-- A braced lexeme is expanded by the keyword before it and by its last byte. -/
theorem expandBraced_of_slice? {inside : List Char} {closed : Bool}
    (hs : slice? source (start + 1) stop = some inside)
    (hc : (Action.blockLength 0 (utf8Bytes inside)).2 = closed) :
    expandBraced source start stop out =
      if (lastMain? out).any Kind.introducesBlock then
        (pushToken source out .lbrace start (start + 1)).bind fun out ↦
          (lexRegion source (start + 1) (if closed then stop - 1 else stop) out).bind fun out ↦
            pushClosing source out .rbrace closed stop
      else
        (pushToken source out .beginAction start (start + 1)).bind fun out ↦
          (pushPieces source out (start + 1) (if closed then stop - 1 else stop)).bind fun out ↦
            pushClosing source out .endAction closed stop := by
  rw [expandBraced]
  split <;> simp_all

end

/-- The second scan of a braced lexeme sees whether its last byte closes it, as the first did. -/
theorem blockLength_inside {c : Char} {cs body rest : List Char} {closed : Bool}
    (hn : Lexeme.next c cs = (.braced body closed, rest)) :
    (Action.blockLength 0 (utf8Bytes (body ++ Lexeme.closingBrace closed))).2 = closed := by
  rw [Action.blockLength_utf8Bytes]
  have hblock := (Lexeme.of_braced hn).2
  cases closed with
  | true => exact congrArg Action.Block.closed (Action.block_text_of_closed hblock)
  | false =>
    have hopen : (Action.block cs).closed = false := congrArg Action.Block.closed hblock
    have hbody : body = cs :=
      (congrArg Action.Block.body hblock).symm.trans (Action.of_not_closed hopen).1
    rw [Lexeme.closingBrace, if_neg (by simp), List.append_nil, hbody]
    exact hopen

section

variable {source : String} {ss : List Segment} {c : Char} {cs body rest : List Char} {closed : Bool}

/-- What stands between braces is scanned a second time, from the byte after the opening one. -/
theorem slice?_inside {opening kind : Kind} {V : List Segment}
    (hV : V.flatMap Segment.text = body)
    (h : Leads source (ss ++ [⟨opening, ['\x7b']⟩] ++ V ++ Segment.closing kind closed)) :
    slice? source (endOf ss + 1)
        (endOf (ss ++ [⟨opening, ['\x7b']⟩] ++ V ++ Segment.closing kind closed)) =
      some (body ++ Lexeme.closingBrace closed) := by
  rw [List.append_assoc] at h ⊢
  have hs := h.slice?_eq
  rw [List.flatMap_append, hV, Segment.flatMap_text_closing] at hs
  rw [← hs, endOf_opening]

/-- An action is its pieces between its braces. -/
theorem expandBraced_action (hn : Lexeme.next c cs = (.braced body closed, rest))
    (hb : (ss.foldl Segment.nearest none).any Kind.introducesBlock = false)
    (h : Leads source (ss ++ Segment.ofAction body closed)) :
    expandBraced source (endOf ss) (endOf (ss ++ Segment.ofAction body closed)) (placed ss) =
      some (placed (ss ++ Segment.ofAction body closed)) := by
  have hV : ((Action.pieces body).map fun p ↦ (⟨.actionContent, p⟩ : Segment)).flatMap
      Segment.text = body := by
    rw [List.flatMap_map, List.flatMap_id', Action.flatten_pieces]
  rw [Segment.ofAction, List.append_cons, ← List.append_assoc] at h ⊢
  rw [expandBraced_of_slice? (slice?_inside hV h) (blockLength_inside hn), lastMain?_placed,
    if_neg (by simp [hb]), ← endOf_opening ss .beginAction, endOf_closing,
    pushToken_placed h.of_append.of_append, Option.bind_some, pushPieces_placed h.of_append,
    Option.bind_some, pushClosing_placed h]

/-- A block is the tokens of its body between its braces. -/
theorem expandBraced_block (hn : Lexeme.next c cs = (.braced body closed, rest))
    (hb : (ss.foldl Segment.nearest none).any Kind.introducesBlock = true) {V : List Segment}
    (hV : V.flatMap Segment.text = body)
    (h : Leads source (ss ++ [⟨.lbrace, ['\x7b']⟩] ++ V ++ Segment.closing .rbrace closed))
    (hbody : lexRegion source (endOf (ss ++ [⟨.lbrace, ['\x7b']⟩]))
        (endOf (ss ++ [⟨.lbrace, ['\x7b']⟩] ++ V)) (placed (ss ++ [⟨.lbrace, ['\x7b']⟩])) =
      some (placed (ss ++ [⟨.lbrace, ['\x7b']⟩] ++ V))) :
    expandBraced source (endOf ss)
        (endOf (ss ++ [⟨.lbrace, ['\x7b']⟩] ++ V ++ Segment.closing .rbrace closed)) (placed ss) =
      some (placed (ss ++ [⟨.lbrace, ['\x7b']⟩] ++ V ++ Segment.closing .rbrace closed)) := by
  rw [expandBraced_of_slice? (slice?_inside hV h) (blockLength_inside hn), lastMain?_placed,
    if_pos hb, ← endOf_opening ss .lbrace, endOf_closing, pushToken_placed h.of_append.of_append,
    Option.bind_some, hbody, Option.bind_some, pushClosing_placed h]

end

/-- The text of a region is a slice. -/
theorem Leads.slice?_region {source : String} {ss : List Segment} {before : Option Kind}
    {cs : List Char} (h : Leads source (ss ++ Segment.ofChars before cs)) :
    slice? source (endOf ss) (endOf (ss ++ Segment.ofChars before cs)) = some cs := by
  rw [h.slice?_eq, Segment.flatMap_text_ofChars]

/-- Where nothing is left, nothing is added. -/
theorem lexRegion_nothing {source : String} {ss : List Segment} {before : Option Kind}
    (h : Leads source (ss ++ Segment.ofChars before [])) :
    lexRegion source (endOf ss) (endOf (ss ++ Segment.ofChars before [])) (placed ss) =
      some (placed (ss ++ Segment.ofChars before [])) := by
  have hs := h.slice?_region
  rw [Segment.ofChars, List.append_nil] at hs ⊢
  exact lexRegion_of_nil hs

/-- The segments of an action leave its end as the nearest one, if it is there. -/
theorem nearest_ofAction (before : Option Kind) (body : List Char) :
    (Segment.ofAction body true).foldl Segment.nearest before = some .endAction := by
  rw [Segment.ofAction, ← List.cons_append, List.foldl_append]
  rfl

/-- **A region has the tokens of its segments**, each where it stands. The tokens found so far
decide, by the last main one among them, whether a brace opens a block; they are the segments before
the region, whose nearest main kind the scan over characters carries along. -/
theorem lexRegion_placed {source : String} {before : Option Kind} {cs : List Char}
    {ss : List Segment} (h : Leads source (ss ++ Segment.ofChars before cs))
    (hb : ss.foldl Segment.nearest none = before) :
    lexRegion source (endOf ss) (endOf (ss ++ Segment.ofChars before cs)) (placed ss) =
      some (placed (ss ++ Segment.ofChars before cs)) := by
  have hs := h.slice?_region
  -- what is pushed for the first lexeme leads to where the rest of the region starts
  induction before, cs using Segment.ofChars.induct generalizing ss with
  | case1 before => exact lexRegion_nothing h
  | case2 before c cs kind text rest hn s =>
    rename_i ih
    rw [Segment.ofChars_of_plain hn, List.append_cons] at h hs ⊢
    have hnear : (ss ++ [s]).foldl Segment.nearest none = Segment.nearest before s := by
      rw [List.foldl_append, hb]
      rfl
    have hstop : endOf ss + byteLength text = endOf (ss ++ [s]) := by
      rw [endOf_append, List.flatMap_singleton, Segment.text_ofPlain]
    rw [lexRegion_of_cons hs hn, pushLexeme, Lexeme.text, hstop, pushPlain_placed h.of_append,
      Option.bind_some]
    exact ih h hnear h.slice?_region
  | case3 before c cs text rest hn ih =>
    rw [Segment.ofChars_of_unknown hn, List.append_cons] at h hs ⊢
    have hnear : (ss ++ [(⟨.unknown, text⟩ : Segment)]).foldl Segment.nearest none =
        some .unknown := by
      rw [List.foldl_append]
      rfl
    rw [lexRegion_of_cons hs hn, pushLexeme, Lexeme.text, ← endOf_concat ss .unknown text,
      pushToken_placed h.of_append, Option.bind_some]
    exact ih h hnear h.slice?_region
  | case4 before c cs body closed rest hn hi ihb ihr =>
    rw [Segment.ofChars_of_block hn hi, List.append_cons, ← List.append_assoc,
      ← List.append_assoc] at h hs ⊢
    have hopen : (ss ++ [(⟨.lbrace, ['\x7b']⟩ : Segment)]).foldl Segment.nearest none =
        some .lbrace := by
      rw [List.foldl_append]
      rfl
    have hbody := ihb h.of_append.of_append hopen h.of_append.of_append.slice?_region
    have hstop : endOf ss + byteLength (Lexeme.braced body closed).text =
        endOf (ss ++ [⟨.lbrace, ['\x7b']⟩] ++ Segment.ofChars (some .lbrace) body ++
          Segment.closing .rbrace closed) := by
      rw [endOf_append, endOf_append, endOf_append, Segment.flatMap_text_ofChars,
        Segment.flatMap_text_closing, Lexeme.text, byteLength_cons, byteLength_append,
        List.flatMap_singleton, byteLength_cons, byteLength_nil]
      omega
    rw [lexRegion_of_cons hs hn, pushLexeme, hstop, expandBraced_block hn (hb ▸ hi)
      (Segment.flatMap_text_ofChars _ _) h.of_append hbody, Option.bind_some]
    cases closed with
    | false =>
      obtain rfl := Segment.rest_of_braced hn
      exact lexRegion_nothing h
    | true =>
      refine ihr h ?_ h.slice?_region
      rw [List.foldl_append]
      rfl
  | case5 before c cs body closed rest hn hi ih =>
    rw [Segment.ofChars_of_action hn (by simpa using hi), ← List.append_assoc] at h hs ⊢
    have hstop : endOf ss + byteLength (Lexeme.braced body closed).text =
        endOf (ss ++ Segment.ofAction body closed) := by
      rw [endOf_append, Segment.flatMap_text_ofAction]
    rw [lexRegion_of_cons hs hn, pushLexeme, hstop,
      expandBraced_action hn (by rw [hb]; simpa using hi) h.of_append, Option.bind_some]
    cases closed with
    | false =>
      obtain rfl := Segment.rest_of_braced hn
      exact lexRegion_nothing h
    | true =>
      refine ih h ?_ h.slice?_region
      rw [List.foldl_append, nearest_ofAction]

/-- **Scanning by offsets gives the tokens of a source**, for every source: no slice fails, and
every token has the kind, the text, the bytes and the line that its segment gives it. -/
theorem tokensByOffset_eq (source : String) :
    tokensByOffset source = some (tokenize source) := by
  have htext := Segment.flatMap_text_ofChars none source.toList
  have hsize := Action.utf8ByteSize_eq source
  have hleads : Leads source ([] ++ Segment.ofChars none source.toList) :=
    ⟨[], by rw [List.nil_append, htext, List.append_nil]⟩
  have hregion := lexRegion_placed hleads rfl
  rw [List.nil_append, show endOf (Segment.ofChars none source.toList) = source.utf8ByteSize by
    rw [endOf, htext, hsize]] at hregion
  -- the end marker stands at the end of the source, on its last line
  have hline : lineOf (lineStarts source) source.utf8ByteSize = 1 + source.toList.count '\n' := by
    rw [hsize]
    exact lineOf_byteLength (List.append_nil _).symm
  have hplaces := numberedFrom_placeSegments [] 0 (Segment.ofChars none source.toList)
  rw [List.nil_append, htext, ← hsize, ← hline, Nat.zero_add] at hplaces
  rw [tokensByOffset, show ([] : List Token) = placed [] from rfl, show 0 = endOf [] from rfl,
    hregion, Option.map_some, tokenize]
  exact congrArg some (ofTokens_congr ((numberedFrom_placed _ _).trans hplaces.symm))

end GrammarLayout
