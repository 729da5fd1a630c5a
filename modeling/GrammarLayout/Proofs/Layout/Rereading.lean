import GrammarLayout.Proofs.Layout.Bodies

/-!
# Reading a layout again

The text of strokes, scanned again, gives the strokes back (`Relaid.reread`). Two things are needed
for that. Neighbours have to be apart, which the layout sees to (`Joins`). And segments whose
reading depends on more of what follows have to be read as before (`Keeps`): pieces of actions,
characters that start no lexeme, and doc comments without their terminator. Nothing else can be read
in another way, whatever the separators.

What is read between the pieces of an action are more pieces, since blanks count there; so reading
gives the segments of the strokes with the separators inside actions as further pieces
(`rereads`).

The main result is one induction over the comparison of a text with its strokes. Each of its cases
says that the first strokes are found by the scan, and that the scan then goes on with the rest:

* a lexeme is found again because what follows starts apart from it (`visible_plain_again`), with
  `apart_of_joins` for the standard rules of spacing;

* an action is found again because its strokes are passed, so that it is closed by the same brace
  (`next_action`), and its pieces are the strokes with the blanks between them;

* a block is found again for the same reason (`next_block`), and its body by the induction
  hypothesis;

* a block or an action without its closing brace still has none (`next_openBlock`,
  `next_openAction`).

What is compared are visible segments. Blanks outside actions are not among them, which is why the
separators appear in the result inside actions only.
-/

namespace GrammarLayout

/-! ### Reading strokes -/

/-- Whether the next separator stands inside an action. -/
def Kind.opensPieces (k : Kind) : Bool := k == .beginAction || k == .actionContent

/-- The pieces of an action as segments, all of one kind. -/
def contents (ps : List (List Char)) : List Segment := ps.map fun p ↦ ⟨.actionContent, p⟩

theorem kind_of_mem_contents {ps : List (List Char)} :
    ∀ c ∈ contents ps, c.kind = .actionContent := by
  intro c hc
  obtain ⟨p, -, rfl⟩ := List.mem_map.1 hc
  rfl

/-- What strokes are read as, followed by the blanks `rest`: the segments, and inside an action also
the separators. Whether a separator stands inside is told by the stroke before it. -/
def rereads (width : Nat) (inside : Bool) : List Stroke → List Char → List Segment
  | [], rest => if inside then contents (gapPieces rest) else []
  | s :: ss, rest =>
    (if inside then contents (gapPieces (s.gap.text width)) else []) ++
      s.segment :: rereads width s.segment.kind.opensPieces ss rest

/-- Strokes in two parts: the first one is followed by the separator of the second. -/
theorem rereads_append (width : Nat) (inside : Bool) (ss : List Stroke) (s : Stroke)
    (ss' : List Stroke) (rest : List Char) :
    rereads width inside (ss ++ s :: ss') rest =
      rereads width inside ss (s.gap.text width) ++
        s.segment :: rereads width s.segment.kind.opensPieces ss' rest := by
  induction ss generalizing inside with
  | nil => rfl
  | cons u ss ih => rw [List.cons_append, rereads, rereads, ih, List.append_assoc, List.cons_append]

/-- The strokes inside an action are read as pieces. -/
theorem rereads_contents (width : Nat) {qs : List Stroke}
    (hk : ∀ q ∈ qs, q.segment.kind = .actionContent) (rest : List Char) :
    rereads width true qs rest = contents (spacedPieces width qs ++ gapPieces rest) := by
  induction qs with
  | nil => rfl
  | cons q qs ih =>
    rw [List.forall_mem_cons] at hk
    have hs : q.segment = ⟨.actionContent, q.segment.text⟩ := by rw [← hk.1]
    rw [rereads, hk.1, show Kind.opensPieces .actionContent = true from rfl, ih hk.2, if_pos rfl,
      spacedPieces_cons, hs]
    simp [contents]

/-! ### Neighbours -/

/-- What a stroke outside an action starts with. -/
structure Segment.Starts (c : Segment) : Prop where
  /-- It is no piece of an action. -/
  noContent : c.kind ≠ .actionContent
  /-- It is not the end of one. -/
  noEnd : c.kind ≠ .endAction
  /-- A hidden comment starts with a slash. -/
  slash : c.kind.isHidden = true → ∃ t, c.text = '/' :: t
  /-- An action starts with a brace. -/
  brace : c.kind = .beginAction → c.text = ['\x7b']

/-- A comment starts with a slash, also without the blanks at its end. -/
theorem starts_trimmed {c : Char} {cs text rest : List Char} {kind : Kind}
    (hn : Lexeme.next c cs = (.plain kind text, rest)) (hk : kind ≠ .whitespace) :
    (Segment.ofPlain kind text).trimmed.Starts := by
  have hp := (isActionPiece_ofPlain (Lexeme.formed_next hn).flat text).1
  have hpiece : ∀ k : Kind, k.isActionPiece = true →
      (Segment.ofPlain kind text).trimmed.kind ≠ k := by
    rintro k hk rfl
    rw [Segment.kind_trimmed, hp] at hk
    exact absurd hk (by decide)
  refine ⟨hpiece _ rfl, hpiece _ rfl, fun hh ↦ ?_, fun hb ↦ absurd hb (hpiece _ rfl)⟩
  rw [Segment.kind_trimmed] at hh
  have hcom : kind = .lineComment ∨ kind = .blockComment := by
    rcases kind_ofPlain kind text with hkk | ⟨hb, -⟩
    · rw [hkk] at hh
      cases kind <;> first | exact .inl rfl | exact .inr rfl | exact absurd hh (by decide) |
        exact absurd rfl hk
    · exact .inr hb
  obtain ⟨l, -, rfl, -, -⟩ := Lexeme.of_comment hn hcom
  refine ⟨trimEnd l, ?_⟩
  rw [Segment.trimmed, if_pos hh, Segment.text_ofPlain]
  exact trimEnd_append [] (by decide) l

namespace Relaid

variable {before : Option Kind} {cs : List Char} {ss : List Stroke}

/-- A layout does not start inside an action, and comments and actions show their start. -/
theorem starts (h : Relaid before cs ss) : ∀ s ∈ ss.head?, s.segment.Starts := by
  induction h with
  | nil => simp
  | space _ _ ih => exact ih
  | plain gap hn hk h ih =>
    rintro s ⟨⟩
    exact starts_trimmed hn hk
  | unknown _ _ _ _ | block _ _ _ _ _ _ _ _ _ | openBlock _ _ _ _ _ _ =>
    rintro s ⟨⟩
    exact ⟨Kind.noConfusion, Kind.noConfusion, fun hh ↦ absurd hh Bool.false_ne_true,
      Kind.noConfusion⟩
  | action _ _ _ _ _ _ _ | openAction _ _ _ _ =>
    rintro s ⟨⟩
    exact ⟨Kind.noConfusion, Kind.noConfusion, fun hh ↦ absurd hh Bool.false_ne_true, fun _ ↦ rfl⟩

end Relaid

/-- Rules with the standard neighbours: what stands without a space before or after it. -/
structure Rules.Plain (r : Rules) : Prop where
  /-- Texts that no space precedes. -/
  noSpaceBefore : r.noSpaceBefore = ["?", "*", ";", ")"]
  /-- Texts that no space follows. -/
  noSpaceAfter : r.noSpaceAfter = ["("]

/-- The standard rules with another width of indentation. -/
def Rules.indented (width : Nat) : Rules := { Rules.standard with indentWidth := width }

/-- The standard rules have these neighbours, whatever their indentation. -/
theorem Rules.plain_indented (width : Nat) : (Rules.indented width).Plain := ⟨rfl, rfl⟩

theorem Rules.check_indented (width : Nat) : (Rules.indented width).check = none := by
  show Rules.standard.check = none
  decide

theorem isJoint_of_isSpace {c : Char} (hc : Lexeme.isSpace c = true) :
    Lexeme.isJoint c = false := by
  simp only [Lexeme.isSpace, Bool.or_eq_true, beq_iff_eq] at hc
  rcases hc with (((rfl | rfl) | rfl) | rfl) | rfl <;> decide

/-- What touches the stroke before it starts with no joint, unless that stroke is a parenthesis. Of
the four texts that no space precedes none starts with a joint. -/
theorem Joins.not_isJoint {r : Rules} (hr : r.Plain) {a b : Stroke} (h : Joins r a b)
    (hb : b.segment.Starts) (hgap : b.gap = .nothing) :
    a.segment.text = ['('] ∨ ∃ c t, b.segment.text = c :: t ∧ Lexeme.isJoint c = false := by
  have hof : ∀ {t : List Char} {x : String}, String.ofList t = x → t = x.toList := by
    rintro t x rfl
    exact String.toList_ofList.symm
  rcases h.touch hgap with ht | ht | ht | ht
  · rw [hr.noSpaceAfter, List.mem_singleton] at ht
    exact .inl (hof ht)
  · rw [hr.noSpaceBefore] at ht
    simp only [List.mem_cons, List.not_mem_nil, or_false] at ht
    rcases ht with ht | ht | ht | ht <;> exact .inr ⟨_, _, hof ht, by decide⟩
  · obtain ⟨t, ht⟩ := hb.slash ht
    exact .inr ⟨_, t, ht, by decide⟩
  · have hk : b.segment.kind = .beginAction := by
      have hcont := hb.noContent
      have hend := hb.noEnd
      cases hk : b.segment.kind <;> rw [hk] at ht hcont hend <;>
        first | rfl | exact absurd ht (by decide) | exact absurd rfl hcont | exact absurd rfl hend
    exact .inr ⟨_, _, hb.brace hk, by decide⟩

/-- Neighbours in a layout are apart: a blank stands between them, or the second starts with no
joint. -/
theorem apart_of_joins {r : Rules} (hr : r.Plain) {before : Option Kind} {cs : List Char}
    {s : Stroke} {ss : List Stroke} (hJ : (s :: ss).IsChain (Joins r)) (h : Relaid before cs ss)
    {rest : List Char} (hrest : ∀ c ∈ rest, Lexeme.isSpace c = true) (width : Nat) :
    Lexeme.Apart s.segment.text (inked width ss ++ rest) := by
  cases ss with
  | nil => exact .inr fun c hc ↦ isJoint_of_isSpace (hrest c (List.mem_of_mem_head? hc))
  | cons s' ss =>
    rw [inked_cons]
    cases hg : s'.gap with
    | nothing =>
      refine ((List.isChain_cons.1 hJ).1 s' rfl |>.not_isJoint hr (h.starts s' rfl) hg).imp_right ?_
      rintro ⟨c, t, ht, hc⟩ d hd
      rw [ht] at hd
      obtain rfl : c = d := Option.some.inj hd
      exact hc
    | space => exact .inr fun d hd ↦ by cases hd; decide
    | lines more depth =>
      obtain ⟨t, ht⟩ : ∃ t, (Separator.lines more depth).text width = '\n' :: t :=
        exists_of_isLines rfl width
      rw [ht]
      exact .inr fun d hd ↦ by cases hd; decide

/-! ### One lexeme again -/

/-- An opening brace is read with the block that the scanner for actions finds. -/
theorem next_brace (cs : List Char) :
    Lexeme.next '\x7b' cs =
      (.braced (Action.block cs).body (Action.block cs).closed, (Action.block cs).rest) := by
  rw [Lexeme.next_eq]
  rfl

section Steps

variable {before : Option Kind} {ss : List Stroke} {width : Nat} {gap rest : List Char}

/-- A closed action is read with the same braces. -/
theorem next_action {body : List Char} {qs : List Stroke} (hq : Thinned (Action.pieces body) qs)
    (hg : ∀ c ∈ gap, Lexeme.isSpace c = true)
    (hK : KeepsAll width qs (gap ++ '\x7d' :: rest))
    (hd : Action.depthThrough 0 (Action.pieces body) = some 0) :
    Lexeme.next '\x7b' (inked width qs ++ gap ++ '\x7d' :: rest) =
        (.braced (inked width qs ++ gap) true, rest) ∧
      Action.pieces (inked width qs ++ gap) = spacedPieces width qs ++ gapPieces gap := by
  have hread := hq.readAll hg hK
  have hflat : (spacedPieces width qs ++ gapPieces gap).flatten = inked width qs ++ gap := by simp
  constructor
  · have hnew := hread.blockFrom_append ((hq.depthThrough hg).trans hd)
    rw [hflat, Action.blockFrom_closing] at hnew
    rw [next_brace, Action.block, hnew]
    simp [Action.Block.push]
  · have hcut : Action.ReadAll (spacedPieces width qs ++ gapPieces gap) ([] ++ '\x7d' :: rest) :=
      hread
    have hp := hcut.cut.pieces_append
    rwa [hflat, List.append_nil, Action.pieces_nil, List.append_nil] at hp

/-- An action without its closing brace still has none. -/
theorem next_openAction {body : List Char} {qs : List Stroke}
    (hq : Thinned (Action.pieces body) qs) (hs : ∀ c ∈ rest, Lexeme.isSpace c = true)
    (hK : KeepsAll width qs rest) {d : Nat}
    (hd : Action.depthThrough 0 (Action.pieces body) = some d) :
    Lexeme.next '\x7b' (inked width qs ++ rest) = (.braced (inked width qs ++ rest) false, []) ∧
      Action.pieces (inked width qs ++ rest) = spacedPieces width qs ++ gapPieces rest := by
  have hread := hq.readAll hs ((List.append_nil rest).symm ▸ hK)
  have hflat : (spacedPieces width qs ++ gapPieces rest).flatten = inked width qs ++ rest := by simp
  constructor
  · have hnew := hread.blockFrom_append ((hq.depthThrough hs).trans hd)
    rw [hflat, List.append_nil, Action.blockFrom_nil] at hnew
    rw [next_brace, Action.block, hnew]
    simp [Action.Block.push]
  · have hp := hread.pieces_append
    rwa [hflat, List.append_nil, Action.pieces_nil, List.append_nil] at hp

/-- A block without its closing brace is read through the end again. -/
theorem next_openBlock {body : List Char} (hb : (Action.block body).closed = false) :
    Lexeme.next '\x7b' body = (.braced body false, []) := by
  have hbody : (Action.block body).body = body := (Action.of_not_closed hb).1
  have hrest : (Action.block body).rest = [] := Action.rest_of_not_closed 0 body hb
  rw [next_brace, hb, hbody, hrest]

/-- A block is read up to the same brace. -/
theorem next_block {body : List Char} {gap : List Char}
    (hp : Action.Passes (body ++ gap) ('\x7d' :: rest)) :
    Lexeme.next '\x7b' (body ++ gap ++ '\x7d' :: rest) = (.braced (body ++ gap) true, rest) := by
  rw [next_brace, Action.block, hp.blockFrom_append, Action.blockFrom_closing]
  simp [Action.Block.push]

/-- The first of some strokes is read as it was, and the scan goes on behind it. -/
theorem visible_of_plain {c : Char} {cs text rest' : List Char} {kind : Kind}
    (hn : Lexeme.next c cs = (.plain kind text, rest')) (hk : kind ≠ .whitespace)
    (ha : Lexeme.Apart (Segment.ofPlain kind text).trimmed.text rest)
    (hl : kind = .lineComment → ∀ d ∈ rest.head?, endsLine d = true)
    (hb : kind = .blockComment → Lexeme.ClosedComment text) :
    Segment.visible (Segment.ofChars before ((Segment.ofPlain kind text).trimmed.text ++ rest)) =
      (Segment.ofPlain kind text).trimmed :: Segment.visible
        (Segment.ofChars (Segment.nearest before (Segment.ofPlain kind text)) rest) := by
  obtain ⟨t, ht, hn'⟩ := next_trimmed hn hk ha hl hb
  have hkind : (Segment.ofPlain kind (c :: t)).kind ≠ .whitespace :=
    fun hw ↦ hk ((kind_ofPlain_eq_whitespace kind (c :: t)).1 hw)
  have hnear : Segment.nearest before (Segment.ofPlain kind (c :: t)) =
      Segment.nearest before (Segment.ofPlain kind text) := by
    rw [← ht, Segment.nearest_trimmed]
  rw [ht, Segment.text_ofPlain, List.cons_append, Segment.ofChars_of_plain hn',
    Segment.visible_cons, Segment.visible_singleton, if_neg hkind, hnear, ← ht, trimmed_trimmed]
  rfl

/-- A hidden comment without its terminator takes the blanks after it along. -/
theorem visible_of_unclosed {c : Char} {cs text rest' : List Char}
    (hn : Lexeme.next c cs = (.plain .blockComment text, rest'))
    (hu : ¬Lexeme.ClosedComment text) (hd : Segment.isDocComment text = false)
    (hs : ∀ c ∈ rest, Lexeme.isSpace c = true) :
    Segment.visible (Segment.ofChars before
        ((Segment.ofPlain .blockComment text).trimmed.text ++ rest)) =
      [(Segment.ofPlain .blockComment text).trimmed] := by
  have hplain : ∀ {u : List Char}, Segment.isDocComment u = false →
      (Segment.ofPlain .blockComment u).trimmed = ⟨.blockComment, trimEnd u⟩ := by
    intro u hu
    rw [Segment.ofPlain, if_neg (by simp [hu])]
    rfl
  have hkind : ∀ u, (Segment.ofPlain .blockComment u).kind ≠ .whitespace := fun u hw ↦
    absurd ((kind_ofPlain_eq_whitespace _ _).1 hw) (by decide)
  obtain ⟨t, ht, hn', hd'⟩ := next_unclosed hn hu hd hs
  rw [hplain hd]
  show Segment.visible (Segment.ofChars before (trimEnd text ++ rest)) = _
  rw [ht, List.cons_append, Segment.ofChars_of_plain hn', Segment.visible_cons,
    Segment.visible_singleton, if_neg (hkind _), hplain hd', Segment.ofChars, ← ht,
    trimEnd_append_spaces hs, trimEnd_trimEnd]
  rfl

/-- **What the flat scan found is found again.** A hidden comment without its terminator also takes
what follows, but that is blank. -/
theorem visible_plain_again {r : Rules} (hr : r.Plain) {c : Char} {cs text rest' : List Char}
    {kind : Kind} {gap' : Separator} (hn : Lexeme.next c cs = (.plain kind text, rest'))
    (hk : kind ≠ .whitespace) {before' : Option Kind} (h : Relaid before' rest' ss)
    (hS : Settled r width (⟨gap', (Segment.ofPlain kind text).trimmed⟩ :: ss) rest)
    (hs : ∀ c ∈ rest, Lexeme.isSpace c = true) :
    Segment.visible (Segment.ofChars before
        ((Segment.ofPlain kind text).trimmed.text ++ (inked width ss ++ rest))) =
      (Segment.ofPlain kind text).trimmed :: Segment.visible (Segment.ofChars
        (Segment.nearest before (Segment.ofPlain kind text)) (inked width ss ++ rest)) := by
  by_cases hcl : kind = .blockComment → Lexeme.ClosedComment text
  · exact visible_of_plain hn hk (apart_of_joins hr hS.chain h hs width)
      (fun hl ↦ hS.endsLine_head (by rw [Segment.kind_trimmed, hl]; rfl)) hcl
  · rw [Classical.not_imp] at hcl
    obtain ⟨rfl, hopen⟩ := hcl
    -- doc comments are closed, so this one is hidden, and nothing follows it
    have hdoc := hS.keeps.1.isDocComment_eq_false hopen
    obtain rfl : rest' = [] := ((follows_next hn).2 rfl).resolve_left hopen
    obtain rfl := h.nil_inv
    have hblank : Segment.visible (Segment.ofChars
        (Segment.nearest before (Segment.ofPlain .blockComment text)) rest) = [] := by
      simpa [Segment.ofChars] using Segment.visible_ofChars_spaces hs []
    rw [inked_nil, List.nil_append, visible_of_unclosed hn hopen hdoc hs, hblank]

/-- Characters that started no lexeme start none again. -/
theorem visible_unknown_again {c : Char} {cs text rest' : List Char}
    (hn : Lexeme.next c cs = (.unknown text, rest')) (hK : Keeps ⟨.unknown, text⟩ rest)
    (ha : Lexeme.Apart text rest) :
    Segment.visible (Segment.ofChars before (text ++ rest)) =
      ⟨.unknown, text⟩ :: Segment.visible (Segment.ofChars (some .unknown) rest) := by
  obtain ⟨t, rfl⟩ : ∃ t, text = c :: t := exists_cons_of_next hn
  have hn' : Lexeme.next c (t ++ rest) = (.unknown (c :: t), rest) := by
    cases ho : Lexeme.isOpener c with
    | true => exact hK.unknown rfl c t rfl ho
    | false =>
      have hcl := Lexeme.charClass_of_unknown hn ho
      obtain ⟨ht, hn'⟩ := Lexeme.next_unknown_again hn hcl ha
      obtain rfl : t = [] := (List.cons.inj ht).2
      exact hn'
  rw [List.cons_append, Segment.ofChars_of_unknown hn', Segment.visible_cons,
    Segment.visible_singleton, if_neg (by simp), Segment.trimmed_of_main rfl]
  rfl

/-- A block is found again, if its body is passed. -/
theorem visible_block_again (hb : before.any Kind.introducesBlock = true) {body : List Char}
    (hp : Action.Passes (body ++ gap) ('\x7d' :: rest)) :
    Segment.visible (Segment.ofChars before ('\x7b' :: (body ++ gap ++ '\x7d' :: rest))) =
      ⟨.lbrace, ['\x7b']⟩ :: (Segment.visible (Segment.ofChars (some .lbrace) (body ++ gap)) ++
        ⟨.rbrace, ['\x7d']⟩ :: Segment.visible (Segment.ofChars (some .rbrace) rest)) := by
  rw [Segment.ofChars_of_block (next_block hp) hb, Segment.visible_cons, Segment.visible_append,
    Segment.visible_append]
  rfl

/-- A block without its closing brace is found again, and goes through the end of the text. -/
theorem visible_openBlock_again (hb : before.any Kind.introducesBlock = true) {body : List Char}
    (hopen : (Action.block body).closed = false) :
    Segment.visible (Segment.ofChars before ('\x7b' :: body)) =
      ⟨.lbrace, ['\x7b']⟩ :: Segment.visible (Segment.ofChars (some .lbrace) body) := by
  rw [Segment.ofChars_of_block (next_openBlock hopen) hb, Segment.visible_cons,
    Segment.visible_append, Segment.visible_append, Segment.ofChars, Segment.visible_nil,
    Segment.closing, if_neg Bool.false_ne_true, Segment.visible_nil, List.append_nil,
    List.append_nil]
  rfl

/-- A closed action is found again, with the separators in it as further pieces. -/
theorem visible_action_again (hb : before.any Kind.introducesBlock = false) {body : List Char}
    {qs : List Stroke} (hq : Thinned (Action.pieces body) qs)
    (hg : ∀ c ∈ gap, Lexeme.isSpace c = true)
    (hK : KeepsAll width qs (gap ++ '\x7d' :: rest))
    (hd : Action.depthThrough 0 (Action.pieces body) = some 0) :
    Segment.visible (Segment.ofChars before
        ('\x7b' :: (inked width qs ++ gap ++ '\x7d' :: rest))) =
      ⟨.beginAction, ['\x7b']⟩ :: (contents (spacedPieces width qs ++ gapPieces gap) ++
        ⟨.endAction, ['\x7d']⟩ :: Segment.visible (Segment.ofChars (some .endAction) rest)) := by
  obtain ⟨hn, hpieces⟩ := next_action hq hg hK hd
  rw [Segment.ofChars_of_action hn hb, Segment.visible_append, visible_ofAction, Segment.ofAction,
    hpieces]
  simp [contents, Segment.closing]

/-- So is an action without its closing brace, which takes the blanks at the end along. -/
theorem visible_openAction_again (hb : before.any Kind.introducesBlock = false)
    {body : List Char} {qs : List Stroke} (hq : Thinned (Action.pieces body) qs)
    (hs : ∀ c ∈ rest, Lexeme.isSpace c = true) (hK : KeepsAll width qs rest)
    (hopen : (Action.block body).closed = false) :
    Segment.visible (Segment.ofChars before ('\x7b' :: (inked width qs ++ rest))) =
      ⟨.beginAction, ['\x7b']⟩ :: contents (spacedPieces width qs ++ gapPieces rest) := by
  obtain ⟨-, d, hd⟩ := Action.of_not_closed hopen
  obtain ⟨hn, hpieces⟩ := next_openAction hq hs hK hd
  rw [Segment.ofChars_of_action hn hb, Segment.visible_append, visible_ofAction, Segment.ofChars,
    Segment.ofAction, hpieces]
  simp [contents, Segment.closing]

end Steps

/-! ### All strokes -/

/-- The kinds of the flat scan do not stand inside an action. -/
theorem opensPieces_eq_false {kind : Kind} (h : kind.isActionPiece = false) :
    kind.opensPieces = false := by
  cases kind <;> first | rfl | exact absurd h (by decide)

/-- **Strokes are read again as they were laid out**: their segments, in their order, and inside
actions the separators as further pieces. -/
theorem Relaid.reread {before : Option Kind} {cs : List Char} {ss : List Stroke}
    (h : Relaid before cs ss) {r : Rules} (hr : r.Plain) {width : Nat} {rest : List Char}
    (hS : Settled r width ss rest) (hs : ∀ c ∈ rest, Lexeme.isSpace c = true) :
    Segment.visible (Segment.ofChars before (inked width ss ++ rest)) =
      rereads width false ss rest := by
  have hgap := fun g : Separator ↦ isSpace_separator width g
  induction h generalizing rest with
  | nil => simpa [Segment.ofChars, rereads] using Segment.visible_ofChars_spaces hs []
  | space hn h ih => exact ih hS hs
  | @plain before c cs text rest' kind ss gap hn hk h ih =>
    have hp := (isActionPiece_ofPlain (Lexeme.formed_next hn).flat text).1
    rw [← Segment.kind_trimmed] at hp
    rw [inked_cons, List.append_assoc, List.append_assoc, Segment.visible_ofChars_spaces (hgap gap),
      visible_plain_again hr hn hk h hS hs, ih hS.tail hs, rereads, opensPieces_eq_false hp]
    rfl
  | @unknown before c cs text rest' ss gap hn h ih =>
    rw [inked_cons, List.append_assoc, List.append_assoc, Segment.visible_ofChars_spaces (hgap gap),
      visible_unknown_again hn hS.keeps.1 (apart_of_joins hr hS.chain h hs width),
      ih hS.tail hs]
    rfl
  | @block before c cs body rest' ss ss' gap gap' hn hb ht hbody h ihb ihr =>
    obtain ⟨rfl, hblock⟩ := Lexeme.of_braced hn
    obtain ⟨hcs, -, -⟩ := Action.of_closed hblock
    -- the body as it stands in the source, for the scanner for actions
    have hsrc : Action.block (body ++ '\x7d' :: rest') = ⟨body, true, rest'⟩ := by
      rw [← hcs, hblock]
    have hin : Settled r width ss (gap'.text width ++ '\x7d' :: (inked width ss' ++ rest)) :=
      hS.tail.upTo
    have hpass := hbody.passes ht hsrc (hgap gap') hin
    have htext : inked width (⟨gap, ⟨.lbrace, ['\x7b']⟩⟩ ::
        (ss ++ ⟨gap', ⟨.rbrace, ['\x7d']⟩⟩ :: ss')) ++ rest = gap.text width ++ '\x7b' ::
        (inked width ss ++ gap'.text width ++ '\x7d' :: (inked width ss' ++ rest)) := by
      simp
    rw [htext, Segment.visible_ofChars_spaces (hgap gap), visible_block_again hb hpass,
      ihb (hin.cut ht) (hgap gap'), ihr hS.tail.after hs, rereads, rereads_append]
    rfl
  | @openBlock before c cs body rest' ss gap hn hb ht hbody ihb =>
    obtain ⟨rfl, hblock⟩ := Lexeme.of_braced hn
    -- nothing comes after an open block, so its strokes go through the end
    have hin : Settled r width ss rest := hS.tail
    have hopen := hbody.not_closed ht (not_closed_body hblock) hs hin
    have htext : inked width (⟨gap, ⟨.lbrace, ['\x7b']⟩⟩ :: ss) ++ rest =
        gap.text width ++ '\x7b' :: (inked width ss ++ rest) := by
      simp
    rw [htext, Segment.visible_ofChars_spaces (hgap gap), visible_openBlock_again hb hopen,
      ihb hin hs]
    rfl
  | @action before c cs body rest' qs ss gap gap' hn hb hq h ih =>
    obtain ⟨rfl, hblock⟩ := Lexeme.of_braced hn
    obtain ⟨-, -, hdepth⟩ := Action.of_closed hblock
    -- the pieces are kept up to the closing brace, and the separator before it is one of them
    have hin : Settled r width qs (gap'.text width ++ '\x7d' :: (inked width ss ++ rest)) :=
      hS.tail.upTo
    have htext : inked width (⟨gap, ⟨.beginAction, ['\x7b']⟩⟩ ::
        (qs ++ ⟨gap', ⟨.endAction, ['\x7d']⟩⟩ :: ss)) ++ rest = gap.text width ++ '\x7b' ::
        (inked width qs ++ gap'.text width ++ '\x7d' :: (inked width ss ++ rest)) := by
      simp
    rw [htext, Segment.visible_ofChars_spaces (hgap gap),
      visible_action_again hb hq (hgap gap') hin.keeps hdepth, ih hS.tail.after hs, rereads,
      rereads_append, show Kind.opensPieces .beginAction = true from rfl,
      rereads_contents width hq.kind]
    rfl
  | @openAction before c cs body rest' qs gap hn hb hq =>
    obtain ⟨rfl, hblock⟩ := Lexeme.of_braced hn
    have htext : inked width (⟨gap, ⟨.beginAction, ['\x7b']⟩⟩ :: qs) ++ rest =
        gap.text width ++ '\x7b' :: (inked width qs ++ rest) := by
      simp
    rw [htext, Segment.visible_ofChars_spaces (hgap gap),
      visible_openAction_again hb hq hs hS.keeps.2 (not_closed_body hblock), rereads,
      show Kind.opensPieces .beginAction = true from rfl, rereads_contents width hq.kind]
    rfl

/-- The end marker is not laid out. -/
theorem Laid.of_endMarker {lone : Segment → Prop} (hl : ∀ c, lone c → c.kind ≠ .eof)
    {cs : List Segment} {ss : List Stroke} (h : Laid lone (cs ++ [Segment.endMarker]) ss) :
    Laid lone cs ss := by
  obtain ⟨ss₁, ss₂, rfl, h₁, h₂⟩ :=
    Laid.append_inv (c := Segment.endMarker) h (by decide) (by decide)
  have hnil : ss₂ = [] := by
    generalize hcs : [Segment.endMarker] = l at h₂
    cases h₂ with
    | nil => rfl
    | eof hk h =>
      obtain ⟨-, rfl⟩ := List.cons.inj hcs
      cases h with
      | nil => rfl
    | stroke gap hc h =>
      obtain ⟨rfl, -⟩ := List.cons.inj hcs
      exact absurd rfl (hl _ hc)
    | action gap depth hb hp he h =>
      obtain ⟨rfl, -⟩ := List.cons.inj hcs
      exact absurd (congrArg Segment.kind hb) (by decide)
  rw [hnil, List.append_nil]
  exact h₁

/-- **A complete page is read again** as its strokes. -/
theorem Complete.reread {r : Rules} (hr : r.Plain) {source : String} {p : Page}
    (h : Complete r (·.kind ≠ .eof) (tokenize source) p) {width : Nat}
    (hB : BlocksTame (Segment.visible (Segment.ofChars none source.toList)))
    (hK : KeepsAll width p.strokes ['\n']) :
    Segment.visible (Segment.ofChars none (inked width p.strokes ++ ['\n'])) =
      rereads width false p.strokes ['\n'] := by
  have hl := h.laid
  rw [segments_tokenize, Segment.visible_append] at hl
  have hr' : Relaid none source.toList p.strokes :=
    relaid_of_laid (Laid.of_endMarker (fun _ h ↦ h) hl) hB
  exact hr'.reread hr ⟨h.sound.chain, fun _ _ _ ↦ ⟨[], rfl⟩, hK⟩ (List.forall_mem_singleton.2 rfl)

end GrammarLayout
