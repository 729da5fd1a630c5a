import GrammarLayout.Proofs.Action.Pieces
import GrammarLayout.Proofs.Token.Tokens

/-!
# Braces and actions among the tokens of a source

A brace opens a block after `options`, `tokens` or `channels`, and an action anywhere else, and an
action is a run of pieces between its start and its end (`bracing_tokenize`). The one thing that
takes care is how an action ends that is never closed. It takes all of the text it is in, but that
text may be the body of a block: the end of the block was found by the scanner for actions, and the
body is read by another one, so a quoted brace may open an action inside. Then the closing brace of
the block comes next.

Which braces those are cannot be told by counting tokens, because closing braces may stand by
themselves, also in the bodies of blocks. So the braces of blocks are given by their positions, as
the scan finds them (`Segment.blockBraces`).

The statement about a segment names what stands before it and after it, and the whole text is put
together from parts: the lexeme in front, the body of a block, what follows. So most lemmas are
about a split of a longer list of segments, `A ++ s :: B`, and say that what is known of `s` in a
part is known of it in the whole (`Bracing.append_left`, `Bracing.append_right`, `Bracing.cons`).
Only the end of an action changes on the way: an action that is open at the end of a part may be
ended by what follows the part, which for the body of a block is its closing brace
(`bracing_ofBody`).

Positions are carried along with the splits, since the braces of a block are given by their
positions.
-/

namespace GrammarLayout

namespace Segment

/-! ### The braces of blocks -/

/-- The positions of the braces of the closed blocks of a text. The kind of the nearest main segment
before the text is `before`, and its first segment is at position `start`. -/
def blockBraces (before : Option Kind) (start : Nat) : List Char → List (Nat × Nat)
  | [] => []
  | c :: cs =>
    match _h : Lexeme.next c cs with
    | (.plain kind text, rest) =>
      blockBraces (nearest before (ofPlain kind text)) (start + 1) rest
    | (.unknown _, rest) => blockBraces (some .unknown) (start + 1) rest
    | (.braced body closed, rest) =>
      if before.any Kind.introducesBlock then
        let stop := start + 1 + (ofChars (some .lbrace) body).length
        (if closed then [(start, stop)] else []) ++
          (blockBraces (some .lbrace) (start + 1) body ++
            blockBraces (some .rbrace) (stop + 1) rest)
      else blockBraces (some .endAction) (start + (ofAction body closed).length) rest
termination_by cs => cs.length
decreasing_by
  all_goals
    have ha := congrArg List.length (Lexeme.next_append c cs)
    have hn := Lexeme.length_next_lt c cs
    rw [_h] at ha hn
    simp only [List.length_cons, List.length_append, Lexeme.text] at ha hn ⊢
    omega

/-- Two positions of a run of segments that hold the braces of a block, `start` being the position
of the first segment. -/
def HoldBraces (ss : List Segment) (start : Nat) (p : Nat × Nat) : Prop :=
  ∃ A B C, ss = A ++ ⟨.lbrace, ['\x7b']⟩ :: (B ++ ⟨.rbrace, ['\x7d']⟩ :: C) ∧
    p = (start + A.length, start + A.length + 1 + B.length)

namespace HoldBraces

variable {ss : List Segment} {start : Nat} {p : Nat × Nat}

theorem append_right (h : HoldBraces ss start p) (ss' : List Segment) :
    HoldBraces (ss ++ ss') start p := by
  obtain ⟨A, B, C, rfl, rfl⟩ := h
  exact ⟨A, B, C ++ ss', by simp, rfl⟩

theorem append_left (ss' : List Segment) (h : HoldBraces ss (start + ss'.length) p) :
    HoldBraces (ss' ++ ss) start p := by
  obtain ⟨A, B, C, rfl, rfl⟩ := h
  exact ⟨ss' ++ A, B, C, by simp, by simp [Nat.add_assoc]⟩

end HoldBraces

/-- What is given as the braces of a block are braces. -/
theorem holdBraces_ofChars (before : Option Kind) (start : Nat) (cs : List Char) :
    ∀ p ∈ blockBraces before start cs, HoldBraces (ofChars before cs) start p := by
  fun_induction blockBraces before start cs with
  | case1 => simp
  | case2 before start c cs kind text rest hn ih =>
    rw [ofChars_of_plain hn]
    exact fun p hp ↦ .append_left [_] (ih p hp)
  | case3 before start c cs text rest hn ih =>
    rw [ofChars_of_unknown hn]
    exact fun p hp ↦ .append_left [_] (ih p hp)
  | case4 before start c cs body closed rest hn hb stop ihb ihr =>
    rw [ofChars_of_block hn hb]
    intro p hp
    rcases List.mem_append.1 hp with hown | hin
    · cases closed with
      | false => exact absurd hown (by simp)
      | true => exact ⟨[], _, _, rfl, List.mem_singleton.1 hown⟩
    · refine .append_left [_] ?_
      rcases List.mem_append.1 hin with hbody | hrest
      · exact (ihb p hbody).append_right _
      · cases closed with
        | false =>
          rw [rest_of_braced hn, blockBraces] at hrest
          exact absurd hrest (by simp)
        | true => exact .append_left _ (.append_left [_] (ihr p hrest))
  | case5 before start c cs body closed rest hn hb ih =>
    rw [ofChars_of_action hn (by simpa using hb)]
    exact fun p hp ↦ .append_left _ (ih p hp)

/-! ### The ends of actions -/

/-- How an action ends that starts at position `k` and has the pieces `ps`: with its own brace,
which the scanner finds after the pieces; or it has none, and then with the brace of a block that
was opened before it, or with the text. The positions of the braces of blocks are `braces`. -/
inductive EndsAction (braces : List (Nat × Nat)) (k : Nat) (ps : List Segment) :
    List Segment → Prop
  /-- The action is closed. -/
  | closed {rest : List Char} {more : List Segment} (hr : rest <+: more.flatMap text)
      (h : Action.block (ps.flatMap text ++ '\x7d' :: rest) = ⟨ps.flatMap text, true, rest⟩) :
      EndsAction braces k ps (⟨.endAction, ['\x7d']⟩ :: more)
  /-- The action is not closed, but a block around it is. -/
  | enclosed {opening : Nat} (more : List Segment)
      (h : (Action.block (ps.flatMap text)).closed = false) (ho : opening < k)
      (hb : (opening, k + 1 + ps.length) ∈ braces) :
      EndsAction braces k ps (⟨.rbrace, ['\x7d']⟩ :: more)
  /-- Nothing around the action is closed. -/
  | unclosed (h : (Action.block (ps.flatMap text)).closed = false) : EndsAction braces k ps []

/-- What is known of a segment at position `k`, with `A` before it and `B` after it. -/
structure Bracing (before : Option Kind) (braces : List (Nat × Nat)) (k : Nat) (A : List Segment)
    (s : Segment) (B : List Segment) : Prop where
  /-- A brace of a block comes after a word that introduces one. -/
  lbrace : s.kind = .lbrace → (A.foldl nearest before).any Kind.introducesBlock = true
  /-- The start of an action does not, and a run of pieces comes after it. -/
  beginAction : s.kind = .beginAction →
    (A.foldl nearest before).any Kind.introducesBlock = false ∧
      ∃ ps more, B = ps ++ more ∧ (∀ p ∈ ps, p.kind = .actionContent) ∧
        EndsAction braces k ps more
  /-- A piece or the end of an action comes after the start of one, and pieces. -/
  inAction : s.kind = .actionContent ∨ s.kind = .endAction →
    ∃ A' b ps, A = A' ++ b :: ps ∧ b.kind = .beginAction ∧ ∀ p ∈ ps, p.kind = .actionContent

namespace Bracing

variable {before : Option Kind} {braces braces' : List (Nat × Nat)} {k : Nat}
  {A B : List Segment} {s : Segment}

/-- Nothing is said of other segments. -/
theorem of_kind (h : s.kind.isActionPiece = false) (hl : s.kind ≠ .lbrace) :
    Bracing before braces k A s B where
  lbrace hk := absurd hk hl
  beginAction hk := absurd h (by rw [hk]; decide)
  inAction hk := by
    rcases hk with hk | hk <;> exact absurd h (by rw [hk]; decide)

/-- More segments before. -/
theorem append_left (P : List Segment)
    (h : Bracing (P.foldl nearest before) braces k A s B) :
    Bracing before braces k (P ++ A) s B where
  lbrace hk := by
    rw [List.foldl_append]
    exact h.lbrace hk
  beginAction hk := by
    rw [List.foldl_append]
    exact h.beginAction hk
  inAction hk := by
    obtain ⟨A', b, ps, rfl, hb, hp⟩ := h.inAction hk
    exact ⟨P ++ A', b, ps, by simp, hb, hp⟩

/-- Other segments after, which end the actions that are still open. -/
theorem append_right {more : List Segment} (h : Bracing before braces k A s B)
    (hs : ∀ p ∈ braces, p ∈ braces')
    (hm : (Action.block (B.flatMap text)).closed = false → EndsAction braces' k B more) :
    Bracing before braces' k A s (B ++ more) where
  lbrace := h.lbrace
  beginAction hk := by
    obtain ⟨hbefore, ps, rest, rfl, hps, he⟩ := h.beginAction hk
    refine ⟨hbefore, ps, rest ++ more, List.append_assoc _ _ _, hps, ?_⟩
    cases he with
    | @closed _ rest hr hc =>
      have hpre : rest.flatMap text <+: (rest ++ more).flatMap text := by
        rw [List.flatMap_append]
        exact List.prefix_append _ _
      exact .closed (hr.trans hpre) hc
    | enclosed rest' hc ho hb => exact .enclosed _ hc ho (hs _ hb)
    | unclosed hc =>
      rw [List.append_nil] at hm
      exact hm hc
  inAction := h.inAction

/-- One more segment before. -/
theorem cons (a : Segment) (h : Bracing (nearest before a) braces (k + 1 + A.length) A s B) :
    Bracing before braces (k + (a :: A).length) (a :: A) s B := by
  rw [Nat.add_assoc, Nat.add_comm 1] at h
  exact .append_left [a] h

theorem mono (h : Bracing before braces k A s B) (hs : ∀ p ∈ braces, p ∈ braces') :
    Bracing before braces' k A s B := by
  have h' := h.append_right hs .unclosed
  rwa [List.append_nil] at h'

end Bracing

variable {before : Option Kind} {braces : List (Nat × Nat)} {k : Nat} {A B : List Segment}
  {s : Segment}

/-- Inside an action that starts with the brace of `cs`. -/
theorem bracing_ofAction {cs body rest : List Char} {closed : Bool}
    (hb : before.any Kind.introducesBlock = false)
    (hblock : Action.block cs = ⟨body, closed, rest⟩) {more : List Segment}
    (hr : more.flatMap text = rest) (hm : closed = false → more = [])
    (h : ofAction body closed = A ++ s :: B) :
    Bracing before braces k A s (B ++ more) := by
  have hkind : ∀ p ∈ (Action.pieces body).map (Segment.mk .actionContent),
      p.kind = .actionContent := by
    intro p hp
    obtain ⟨_, -, rfl⟩ := List.mem_map.1 hp
    rfl
  have htext : ((Action.pieces body).map (Segment.mk .actionContent)).flatMap text = body := by
    rw [List.flatMap_map, List.flatMap_id', Action.flatten_pieces]
  cases A with
  | nil =>
    obtain ⟨rfl, rfl⟩ := List.cons.inj h
    refine ⟨fun hk ↦ absurd hk (by decide), fun _ ↦ ⟨hb, _, _, List.append_assoc _ _ _, hkind, ?_⟩,
      fun hk ↦ absurd hk (by decide)⟩
    cases closed with
    | true =>
      obtain ⟨rfl, -, -⟩ := Action.of_closed hblock
      have hpre : rest <+: more.flatMap text := hr ▸ List.prefix_refl rest
      refine .closed hpre ?_
      rw [htext]
      exact hblock
    | false =>
      have hcl : (Action.block cs).closed = false := by rw [hblock]
      have hbody : body = cs := by
        rw [← (Action.of_not_closed hcl).1]
        exact congrArg Action.Block.body hblock.symm
      rw [hm rfl]
      refine .unclosed ?_
      rw [htext, hbody]
      exact hcl
  | cons b A =>
    obtain ⟨rfl, htail⟩ := List.cons.inj h
    -- a piece or the closing brace, with nothing but pieces since the start of the action
    obtain ⟨hs, hA⟩ : (s.kind = .actionContent ∨ s.kind = .endAction) ∧
        ∀ p ∈ A, p.kind = .actionContent := by
      rcases append_eq_append_cons htail with ⟨B₁, hpieces, -⟩ | ⟨A₁, rfl, hclosing⟩
      · rw [hpieces] at hkind
        exact ⟨.inl (hkind s (by simp)), fun p hp ↦ hkind p (by simp [hp])⟩
      · cases closed with
        | false => exact absurd hclosing (by simp [closing])
        | true =>
          obtain ⟨rfl, hend⟩ := (List.append_eq_singleton_iff.1 hclosing.symm).resolve_right
            (by simp)
          obtain ⟨rfl, -⟩ := List.cons.inj hend
          refine ⟨.inr rfl, fun p hp ↦ hkind p (by simpa using hp)⟩
    have hne : s.kind.isActionPiece = true ∧ s.kind ≠ .lbrace ∧ s.kind ≠ .beginAction := by
      rcases hs with hk | hk <;> rw [hk] <;> decide
    exact ⟨fun hk ↦ absurd hk hne.2.1, fun hk ↦ absurd hk hne.2.2,
      fun _ ↦ ⟨[], _, A, rfl, rfl, hA⟩⟩

/-- In the body of a block: the end of the block ends the actions that are open. -/
theorem bracing_ofBody {c : Char} {cs body rest : List Char} {closed : Bool}
    (hn : Lexeme.next c cs = (.braced body closed, rest)) (start : Nat)
    (hbody : ofChars (some .lbrace) body = A ++ s :: B)
    (h : Bracing (some .lbrace) braces (start + 1 + A.length) A s B)
    (hstop : closed = true → (start, start + 1 + (ofChars (some .lbrace) body).length) ∈ braces) :
    Bracing (some .lbrace) braces (start + 1 + A.length) A s
      (B ++ (closing .rbrace closed ++ ofChars (some .rbrace) rest)) := by
  refine h.append_right (fun _ hp ↦ hp) fun hc ↦ ?_
  cases closed with
  | false =>
    rw [rest_of_braced hn, ofChars]
    exact .unclosed hc
  | true =>
    refine .enclosed _ hc (show start < start + 1 + A.length by omega) ?_
    have hat := hstop rfl
    rw [hbody, List.length_append, List.length_cons] at hat
    have hat' : start + 1 + A.length + 1 + B.length = start + 1 + (A.length + (B.length + 1)) := by
      omega
    rwa [hat']

/-- After the body of a block: its closing brace, and the rest of the text, of which `ih` speaks. -/
theorem bracing_afterBody {c : Char} {cs body rest : List Char} {closed : Bool}
    (hn : Lexeme.next c cs = (.braced body closed, rest)) (stop : Nat)
    (ih : ∀ A, ofChars (some .rbrace) rest = A ++ s :: B →
      Bracing (some .rbrace) braces (stop + 1 + A.length) A s B)
    (h : closing .rbrace closed ++ ofChars (some .rbrace) rest = A ++ s :: B) :
    Bracing before braces (stop + A.length) A s B := by
  rcases append_eq_append_cons h with ⟨B₁, hclosing, -⟩ | ⟨A₁, rfl, hrest⟩
  · have hk : s.kind = .rbrace := kind_of_closing (show s ∈ _ by rw [hclosing]; simp)
    exact .of_kind (by rw [hk]; rfl) (by rw [hk]; decide)
  · cases closed with
    | false =>
      -- the block has taken the whole text
      rw [rest_of_braced hn, ofChars] at hrest
      exact absurd hrest (by simp)
    | true => exact .cons ⟨.rbrace, ['\x7d']⟩ (ih A₁ hrest)

/-- A block: its opening brace, its body and what comes after that, of which `ihb` and `ihr` speak.
-/
theorem bracing_block {c : Char} {cs body rest : List Char} {closed : Bool}
    (hn : Lexeme.next c cs = (.braced body closed, rest))
    (hb : before.any Kind.introducesBlock = true) {start stop : Nat}
    (hstop : stop = start + 1 + (ofChars (some .lbrace) body).length)
    (hown : closed = true → (start, stop) ∈ braces)
    (ihb : ∀ A B, ofChars (some .lbrace) body = A ++ s :: B →
      Bracing (some .lbrace) braces (start + 1 + A.length) A s B)
    (ihr : ∀ A, ofChars (some .rbrace) rest = A ++ s :: B →
      Bracing (some .rbrace) braces (stop + 1 + A.length) A s B)
    (h : ⟨.lbrace, ['\x7b']⟩ :: (ofChars (some .lbrace) body ++
      (closing .rbrace closed ++ ofChars (some .rbrace) rest)) = A ++ s :: B) :
    Bracing before braces (start + A.length) A s B := by
  cases A with
  | nil =>
    obtain ⟨rfl, -⟩ := List.cons.inj h
    exact ⟨fun _ ↦ hb, fun hk ↦ absurd hk (by simp), fun hk ↦ absurd hk (by simp)⟩
  | cons a A =>
    obtain ⟨rfl, htail⟩ := List.cons.inj h
    refine .cons _ ?_
    rcases append_eq_append_cons htail with ⟨B₁, hbody, rfl⟩ | ⟨A₁, rfl, hafter⟩
    · exact bracing_ofBody hn start hbody (ihb A B₁ hbody) (hstop ▸ hown)
    · refine .append_left _ ?_
      rw [List.length_append, ← Nat.add_assoc, ← hstop]
      exact bracing_afterBody hn stop ihr hafter

/-- An action, and the rest of the text, of which `ih` speaks. -/
theorem bracing_action {c : Char} {cs body rest : List Char} {closed : Bool}
    (hn : Lexeme.next c cs = (.braced body closed, rest))
    (hb : before.any Kind.introducesBlock = false) {start : Nat}
    (ih : ∀ A, ofChars (some .endAction) rest = A ++ s :: B →
      Bracing (some .endAction) braces (start + (ofAction body closed).length + A.length) A s B)
    (h : ofAction body closed ++ ofChars (some .endAction) rest = A ++ s :: B) :
    Bracing before braces (start + A.length) A s B := by
  rcases append_eq_append_cons h with ⟨B₁, hact, rfl⟩ | ⟨A₁, rfl, hrest⟩
  · refine bracing_ofAction hb (Lexeme.of_braced hn).2 (flatMap_text_ofChars _ rest)
      (fun hc ↦ ?_) hact
    subst hc
    rw [rest_of_braced hn, ofChars]
  · cases closed with
    | false =>
      -- the action has taken the whole text
      rw [rest_of_braced hn, ofChars] at hrest
      exact absurd hrest (by simp)
    | true =>
      have hnear : (ofAction body true).foldl nearest before = some .endAction := by
        rw [ofAction, closing, if_pos rfl, ← List.cons_append, List.foldl_concat]
        rfl
      have hs := ih A₁ hrest
      rw [Nat.add_assoc, ← List.length_append, ← hnear] at hs
      exact .append_left _ hs

/-- **What stands around the braces and actions of a text.** The induction is on the lexemes of the
text; the bodies of blocks are texts of their own. -/
theorem bracing_ofChars (before : Option Kind) (start : Nat) (cs : List Char)
    (h : ofChars before cs = A ++ s :: B) :
    Bracing before (blockBraces before start cs) (start + A.length) A s B := by
  fun_induction blockBraces before start cs generalizing A B with
  | case1 => exact absurd h (by simp [ofChars])
  | case2 before start c cs kind text rest hn ih =>
    rw [ofChars_of_plain hn] at h
    cases A with
    | nil =>
      obtain ⟨rfl, -⟩ := List.cons.inj h
      obtain ⟨hp, hl⟩ := isActionPiece_ofPlain (Lexeme.formed_next hn).flat text
      exact .of_kind hp hl
    | cons a A =>
      obtain ⟨rfl, htail⟩ := List.cons.inj h
      exact (ih htail).cons _
  | case3 before start c cs text rest hn ih =>
    rw [ofChars_of_unknown hn] at h
    cases A with
    | nil =>
      obtain ⟨rfl, -⟩ := List.cons.inj h
      exact .of_kind rfl (by simp)
    | cons a A =>
      obtain ⟨rfl, htail⟩ := List.cons.inj h
      exact .cons ⟨.unknown, text⟩ (ih htail)
  | case4 before start c cs body closed rest hn hb stop ihb =>
    rename_i ihr
    rw [ofChars_of_block hn hb] at h
    refine bracing_block hn hb (show stop = _ from rfl) (fun hc ↦ by simp [hc]) (fun A B hbody ↦ ?_)
      (fun A hrest ↦ ?_) h
    · exact (ihb hbody).mono fun p hp ↦ by simp [hp]
    · exact (ihr hrest).mono fun p hp ↦ by simp [hp]
  | case5 before start c cs body closed rest hn hb ih =>
    have hb' : before.any Kind.introducesBlock = false := by simpa using hb
    rw [ofChars_of_action hn hb'] at h
    exact bracing_action hn hb' (fun A hrest ↦ ih hrest) h

end Segment

/-! ### From segments to tokens -/

/-- The nearest main token at the end of a run. -/
def nearestMain (ts : List Token) : Option Token := (ts.filter (!·.isHidden)).getLast?

/-- The scan carries the kind of the nearest main token along. -/
theorem foldl_nearest (ts : List Token) :
    (ts.map Token.segment).foldl Segment.nearest none = (nearestMain ts).map (·.kind) := by
  induction ts using List.reverseRecOn with
  | nil => rfl
  | append_singleton ts t ih =>
    rw [List.map_append, List.foldl_append, ih]
    show Segment.nearest _ t.segment = _
    have hk : t.segment.kind.isHidden = t.isHidden := rfl
    rw [Segment.nearest, hk, nearestMain, nearestMain, List.filter_append]
    cases hh : t.isHidden with
    | true => simp [hh]
    | false => simp [hh, Token.segment]

namespace Token

/-- The text of a run of tokens. -/
def texts (ts : List Token) : List Char := ts.flatMap (·.text.toList)

theorem flatMap_text_segment (ts : List Token) :
    (ts.map segment).flatMap Segment.text = texts ts := by
  rw [List.flatMap_map]
  rfl

/-- How the action ends that starts with `b` and has the pieces `ps`: what the token `e` after its
pieces is, before the tokens `more`. -/
inductive EndsAction (source : String) (b : Token) (ps : List Token) (e : Token)
    (more : List Token) : Prop
  /-- The scanner for actions finds a closing brace after the pieces, and `e` is that brace. -/
  | closed {rest : List Char} (hk : e.kind = .endAction) (hr : rest <+: texts more)
      (h : Action.block (texts ps ++ '\x7d' :: rest) = ⟨texts ps, true, rest⟩)
  /-- It finds none, and `e` is the closing brace of a block whose opening brace `o` comes before
  the action. -/
  | enclosed {o : Token} (h : (Action.block (texts ps)).closed = false) (hk : e.kind = .rbrace)
      (hm : o ∈ (tokenize source).toList) (ho : o.kind = .lbrace) (hlt : o.index < b.index)
      (hb : (o.index, e.index) ∈ Segment.blockBraces none 0 source.toList)
  /-- It finds none, and `e` is the end marker. -/
  | atEof (h : (Action.block (texts ps)).closed = false) (hk : e.kind = .eof)

/-- What is known of the braces and actions of a source at its token `t`, with the tokens `A` before
it and the tokens `B` after it. -/
structure Bracing (source : String) (A : List Token) (t : Token) (B : List Token) : Prop where
  /-- The nearest main token before the brace of a block introduces one. -/
  lbrace : t.kind = .lbrace →
    ∃ u, nearestMain A = some u ∧ u.kind ∈ [.kwOptions, .kwTokens, .kwChannels]
  /-- The nearest main token before the start of an action does not. -/
  before : t.kind = .beginAction →
    ∀ u, nearestMain A = some u → u.kind ∉ [.kwOptions, .kwTokens, .kwChannels]
  /-- A run of pieces comes after the start of an action, and then its end. -/
  beginAction : t.kind = .beginAction → ∃ ps e more, B = ps ++ e :: more ∧
    (∀ p ∈ ps, p.kind = .actionContent) ∧ EndsAction source t ps e more
  /-- Pieces and ends of actions come after the start of an action, and pieces. -/
  inAction : t.kind = .actionContent ∨ t.kind = .endAction →
    ∃ A' b ps, A = A' ++ b :: ps ∧ b.kind = .beginAction ∧ ∀ p ∈ ps, p.kind = .actionContent

end Token

theorem Kind.introducesBlock_iff (k : Kind) :
    k.introducesBlock = true ↔ k ∈ [kwOptions, kwTokens, kwChannels] := by
  cases k <;> decide

/-- The braces of a block are tokens. -/
theorem exists_lbrace {source : String} {p : Nat × Nat}
    (h : p ∈ Segment.blockBraces none 0 source.toList) :
    ∃ o ∈ (tokenize source).toList, o.kind = .lbrace ∧ o.index = p.1 := by
  obtain ⟨A, B, C, hs, rfl⟩ := Segment.holdBraces_ofChars none 0 source.toList p h
  have htok := segments_tokenize source
  rw [hs, List.append_assoc, List.cons_append, List.map_eq_append_iff] at htok
  obtain ⟨A', R, hAR, rfl, hR⟩ := htok
  obtain ⟨o, B', rfl, ho, -⟩ := List.map_eq_cons_iff.1 hR
  refine ⟨o, by rw [hAR]; simp, congrArg Segment.kind ho, ?_⟩
  rw [Stream.index_eq_length hAR]
  simp

/-- The end of an action among the tokens: what ends it among the segments is followed by the end
marker. -/
theorem exists_endsAction {source : String} {A ps R : List Token} {t : Token}
    {more : List Segment} (h : (tokenize source).toList = A ++ t :: (ps ++ R))
    (hR : R.map Token.segment = more ++ [.endMarker])
    (he : Segment.EndsAction (Segment.blockBraces none 0 source.toList) t.index
      (ps.map Token.segment) more) :
    ∃ e rest, R = e :: rest ∧ Token.EndsAction source t ps e rest := by
  obtain ⟨e, rest, rfl⟩ := List.exists_cons_of_ne_nil (l := R) (by rintro rfl; simp at hR)
  refine ⟨e, rest, rfl, ?_⟩
  cases he with
  | @closed _ more hr hc =>
    have hpre : more.flatMap Segment.text <+: Token.texts rest := by
      have hsplit : rest.map Token.segment = more ++ [Segment.endMarker] := (List.cons.inj hR).2
      rw [← Token.flatMap_text_segment, hsplit, List.flatMap_append]
      exact List.prefix_append _ _
    rw [Token.flatMap_text_segment] at hc
    exact .closed (congrArg Segment.kind (List.cons.inj hR).1) (hr.trans hpre) hc
  | enclosed more hc ho hbraces =>
    obtain ⟨o, hm, hk, hi⟩ := exists_lbrace hbraces
    -- the braces are counted up to the place of `e`, which is as many tokens behind the opening one
    -- as the action has pieces
    have hidx : e.index = t.index + 1 + ps.length := by
      rw [Stream.index_eq_length h]
      rw [← List.cons_append, ← List.append_assoc] at h
      rw [Stream.index_eq_length h, List.length_append, List.length_cons]
      omega
    rw [Token.flatMap_text_segment] at hc
    refine .enclosed hc (congrArg Segment.kind (List.cons.inj hR).1) hm hk ?_ ?_
    · rw [hi]
      exact ho
    · rw [hi, hidx]
      simpa using hbraces
  | unclosed hc =>
    rw [Token.flatMap_text_segment] at hc
    exact .atEof hc (congrArg Segment.kind (List.cons.inj hR).1)

/-- **Braces and actions of a source**: a brace opens a block exactly after a word that introduces
one. An action is a run of pieces, and ends with its closing brace; if it has none, the closing
brace of a block around it comes next, or the end. -/
theorem bracing_tokenize (source : String) {A B : List Token} {t : Token}
    (h : (tokenize source).toList = A ++ t :: B) : Token.Bracing source A t B := by
  have htok := segments_tokenize source
  rw [h, List.map_append, List.map_cons] at htok
  rcases append_eq_append_cons htok.symm with ⟨R, hs, hB⟩ | ⟨R, -, hend⟩
  · have hb := Segment.bracing_ofChars none 0 source.toList hs
    rw [List.length_map, Nat.zero_add, ← Stream.index_eq_length h] at hb
    refine ⟨fun hk ↦ ?_, fun hk u hu ↦ ?_, fun hk ↦ ?_, fun hk ↦ ?_⟩
    · have hany := hb.lbrace hk
      rw [foldl_nearest, Option.any_map, Option.any_eq_true] at hany
      obtain ⟨u, hu, hi⟩ := hany
      exact ⟨u, hu, (Kind.introducesBlock_iff _).1 hi⟩
    · have hany := (hb.beginAction hk).1
      rw [foldl_nearest, hu] at hany
      rw [← Kind.introducesBlock_iff, Bool.not_eq_true]
      exact hany
    · obtain ⟨-, ps, more, rfl, hps, he⟩ := hb.beginAction hk
      rw [List.append_assoc, List.map_eq_append_iff] at hB
      obtain ⟨ps', R, rfl, rfl, hR⟩ := hB
      obtain ⟨e, rest, rfl, hends⟩ := exists_endsAction h hR he
      exact ⟨ps', e, rest, rfl, fun p hp ↦ hps p.segment (List.mem_map_of_mem hp), hends⟩
    · obtain ⟨A', b, ps, hA, hbk, hps⟩ := hb.inAction hk
      obtain ⟨A₁, R, rfl, -, hR⟩ := List.map_eq_append_iff.1 hA
      obtain ⟨b', ps', rfl, rfl, rfl⟩ := List.map_eq_cons_iff.1 hR
      exact ⟨A₁, b', ps', rfl, hbk, fun p hp ↦ hps p.segment (List.mem_map_of_mem hp)⟩
  · -- the end marker
    have hk : t.kind = .eof := by
      cases R with
      | nil => exact congrArg Segment.kind (List.cons.inj hend).1.symm
      | cons r R => exact absurd hend (by simp)
    refine ⟨fun h ↦ ?_, fun h ↦ ?_, fun h ↦ ?_, fun h ↦ ?_⟩
    all_goals
      rw [hk] at h
      exact absurd h (by decide)

/-- A brace in double quotes opens an action in the body of a block, because only the scanner for
actions knows such quotes. The action runs into the closing brace of the block. -/
theorem quoted_brace_starts_action :
    let source := "options \x7b \"\x7b;\" \x7d"
    (tokenize source).toList.map (·.kind) =
      [.kwOptions, .whitespace, .lbrace, .whitespace, .unknown, .beginAction, .actionContent,
        .actionContent, .actionContent, .rbrace, .eof] ∧
    Segment.blockBraces none 0 source.toList = [(2, 9)] ∧
    ∃ A b B, (tokenize source).toList = A ++ b :: B ∧ b.kind = .beginAction ∧
      Token.Bracing source A b B := by
  intro source
  have hb : ∃ b ∈ (tokenize source).toList, b.kind = .beginAction := by decide +kernel
  obtain ⟨b, hb, hk⟩ := hb
  obtain ⟨A, B, h⟩ := List.append_of_mem hb
  exact ⟨by decide +kernel, by decide +kernel, A, b, B, h, hk, bracing_tokenize source h⟩

end GrammarLayout
