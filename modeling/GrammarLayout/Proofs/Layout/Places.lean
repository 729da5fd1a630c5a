import GrammarLayout.Proofs.Layout.Preservation
import GrammarLayout.Proofs.Layout.Rereading

/-!
# Places in a layout

A source and its layout have the same ink, so a token is found in the layout by the ink before it:
`dropInk n` is what follows the first `n` characters that are not blank. Where a statement about a
layout needs a condition on single tokens, the condition is a test at the place of each token
(`everyPlace`), which can be computed from the source and its layout.

Two kinds of conditions are handled here. One is about a place: a token has to be followed, in the
layout, by a text that lets it be read again. Strokes know what follows them, tokens do not; so the
strokes of a layout are matched with the tokens of the source through the ink before them
(`Laid.exists_place`, `exists_token_at`), and the test is carried from tokens to strokes.

The other is about blocks. Braced text is split by braces that are counted over characters, so a
literal that holds a brace in one of its pieces can make the block end elsewhere. `TameThrough` asks
for tame tokens from an opening brace through the closing one, or through the end of the text if the
block is open; `blocksTame_of_tokens` carries it over to what is visible of a source.
-/

namespace GrammarLayout

/-! ### Finding a place -/

/-- A text after its first `n` characters that are not blank. Blanks before the last of them are
dropped as well, blanks after it are kept, so that the result starts right behind a character. -/
def dropInk : Nat → List Char → List Char
  | 0, cs => cs
  | _ + 1, [] => []
  | n + 1, c :: cs => if isBlank c then dropInk (n + 1) cs else dropInk n cs

/-- The ink of a text in front is passed over with the text. -/
theorem dropInk_append (cs more : List Char) (n : Nat) :
    dropInk ((ink cs).length + n + 1) (cs ++ more) = dropInk (n + 1) more := by
  induction cs with
  | nil => rw [ink_nil, List.length_nil, Nat.zero_add, List.nil_append]
  | cons c cs ih =>
    rw [List.cons_append, dropInk]
    cases hb : isBlank c with
    | true =>
      have hi : ink (c :: cs) = ink cs := List.filter_cons_of_neg (by simp [hb])
      rw [if_pos rfl, hi, ih]
    | false =>
      have hi : ink (c :: cs) = c :: ink cs := List.filter_cons_of_pos (by simp [hb])
      rw [if_neg (by simp), hi, List.length_cons]
      show dropInk ((ink cs).length + 1 + n) (cs ++ more) = _
      rw [show (ink cs).length + 1 + n = (ink cs).length + n + 1 by omega, ih]

/-- Behind the first character. -/
theorem dropInk_one {c : Char} (hc : isBlank c = false) (more : List Char) :
    dropInk 1 (c :: more) = more := by
  rw [dropInk, if_neg (by simp [hc]), dropInk]

/-- The ink of tokens. It is the same for a source and its layout, where blanks differ. -/
def inkBefore (ts : List Token) : Nat := (ink (ts.flatMap (·.text.toList))).length

/-- A test of every token, given the tokens after it and the layout after its first character. It is
a computation, so for one source it can be run. -/
def everyPlace (layout : List Char) (test : Token → List Token → List Char → Bool) :
    (before : Nat) → List Token → Bool
  | _, [] => true
  | before, t :: ts =>
    test t ts (dropInk (before + 1) layout) &&
      everyPlace layout test (before + (ink t.text.toList).length) ts

/-- What every token passes, a token passes at its place. -/
theorem everyPlace_append {layout : List Char} {test : Token → List Token → List Char → Bool}
    {before : Nat} {A B : List Token} {t : Token}
    (h : everyPlace layout test before (A ++ t :: B) = true) :
    test t B (dropInk (before + inkBefore A + 1) layout) = true := by
  induction A generalizing before with
  | nil =>
    rw [List.nil_append, everyPlace, Bool.and_eq_true_iff] at h
    exact h.1
  | cons a A ih =>
    rw [List.cons_append, everyPlace, Bool.and_eq_true_iff] at h
    have hi := ih h.2
    have hn : inkBefore (a :: A) = (ink a.text.toList).length + inkBefore A := by
      simp [inkBefore]
    rw [hn, ← Nat.add_assoc]
    exact hi

/-! ### Strokes and tokens -/

/-- The strokes of an action stand for its pieces. Dropped pieces are blank, so they do not count.
-/
theorem exists_place_pieceStrokes {depth : Nat} {gap : Separator} {ps : List Segment}
    (hp : ∀ p ∈ ps, p.kind = .actionContent) {qs qs' : List Stroke} {q : Stroke} (width : Nat)
    (h : (pieceStrokes depth gap ps).1 = qs ++ q :: qs') :
    ∃ ps₁ ps₂, ps = ps₁ ++ q.segment :: ps₂ ∧ inkOf ps₁ = ink (inked width qs) := by
  induction ps generalizing gap qs with
  | nil => exact absurd h (by simp [pieceStrokes])
  | cons p ps ih =>
    rw [List.forall_mem_cons] at hp
    rw [pieceStrokes] at h
    split at h
    · -- a blank was dropped, which has no ink
      rename_i hd
      rw [Bool.and_eq_true_iff] at hd
      obtain ⟨ps₁, ps₂, rfl, hi⟩ := ih hp.2 h
      refine ⟨p :: ps₁, ps₂, rfl, ?_⟩
      rw [inkOf_cons, ink_of_allBlank (List.all_eq_true.1 hd.2), ite_self, List.nil_append, hi]
    · cases qs with
      | nil =>
        obtain ⟨rfl, -⟩ := List.cons.inj h
        exact ⟨[], ps, rfl, rfl⟩
      | cons q' qs =>
        obtain ⟨rfl, htail⟩ := List.cons.inj h
        obtain ⟨ps₁, ps₂, rfl, hi⟩ := ih hp.2 htail
        refine ⟨p :: ps₁, ps₂, rfl, ?_⟩
        rw [inkOf_cons, hi, if_neg (by simp [hp.1])]
        simp

/-- A stroke is the layout of a segment, with the same ink before it. The induction is on how the
segments are laid out: one by one, or an action at once. -/
theorem Laid.exists_place {cs : List Segment} {ss : List Stroke} (h : Laid (·.kind ≠ .eof) cs ss)
    {ss₁ ss₂ : List Stroke} {s : Stroke} (hs : ss = ss₁ ++ s :: ss₂) (width : Nat) :
    ∃ cs₁ cs₂, cs = cs₁ ++ s.segment :: cs₂ ∧ inkOf cs₁ = ink (inked width ss₁) := by
  induction h generalizing ss₁ with
  | nil => exact absurd hs (by simp)
  | @eof c cs ss hk h ih =>
    obtain ⟨cs₁, cs₂, rfl, hi⟩ := ih hs
    exact ⟨c :: cs₁, cs₂, rfl, by rw [inkOf_cons, if_pos hk, hi, List.nil_append]⟩
  | @stroke c cs ss gap hc h ih =>
    cases ss₁ with
    | nil =>
      obtain ⟨rfl, -⟩ := List.cons.inj hs
      exact ⟨[], cs, rfl, rfl⟩
    | cons s' ss₁ =>
      obtain ⟨rfl, htail⟩ := List.cons.inj hs
      obtain ⟨cs₁, cs₂, rfl, hi⟩ := ih htail
      refine ⟨c :: cs₁, cs₂, rfl, ?_⟩
      rw [inkOf_cons, if_neg hc, hi]
      simp
  | @action b e ps cs ss gap depth hb hp he h ih =>
    subst hb he
    rw [List.cons_append, List.append_assoc, List.singleton_append] at hs ⊢
    cases ss₁ with
    | nil =>
      obtain ⟨rfl, -⟩ := List.cons.inj hs
      exact ⟨[], _, rfl, rfl⟩
    | cons s' ss₁ =>
      obtain ⟨rfl, htail⟩ := List.cons.inj hs
      -- the stroke is a piece of the action, its end, or comes after it
      rcases List.append_eq_append_iff.1 htail with ⟨as, rfl, hrest⟩ | ⟨as, hqs, hrest⟩
      · cases as with
        | nil =>
          rw [List.nil_append] at hrest
          obtain ⟨rfl, -⟩ := List.cons.inj hrest
          refine ⟨⟨.beginAction, ['\x7b']⟩ :: ps, cs, by simp, ?_⟩
          rw [inkOf_cons, List.append_nil, inked_cons, ink_append, ink_pieceStrokes _ _ _ hp]
          simp
        | cons a as =>
          obtain ⟨rfl, hrest'⟩ := List.cons.inj hrest
          obtain ⟨cs₁, cs₂, rfl, hi⟩ := ih hrest'
          refine ⟨⟨.beginAction, ['\x7b']⟩ :: (ps ++ ⟨.endAction, ['\x7d']⟩ :: cs₁), cs₂, by simp,
            ?_⟩
          rw [inkOf_cons, inkOf_append, inkOf_cons, hi, inked_cons, inked_append, inked_cons]
          simp only [ink_append, ink_separator, ink_pieceStrokes _ _ _ hp, reduceCtorEq, if_false,
            List.nil_append]
      · cases as with
        | nil =>
          rw [List.nil_append] at hrest
          rw [List.append_nil] at hqs
          obtain ⟨rfl, -⟩ := List.cons.inj hrest
          refine ⟨⟨.beginAction, ['\x7b']⟩ :: ps, cs, by simp, ?_⟩
          rw [inkOf_cons, ← hqs, inked_cons, ink_append, ink_pieceStrokes _ _ _ hp]
          simp
        | cons a as =>
          obtain ⟨rfl, -⟩ := List.cons.inj hrest
          obtain ⟨ps₁, ps₂, rfl, hi⟩ := exists_place_pieceStrokes hp width hqs
          refine ⟨⟨.beginAction, ['\x7b']⟩ :: ps₁, ps₂ ++ ⟨.endAction, ['\x7d']⟩ :: cs, by simp, ?_⟩
          rw [inkOf_cons, hi, inked_cons]
          simp only [ink_append, ink_separator, reduceCtorEq, if_false, List.nil_append]

/-- A visible segment is that of a token, with the same visible segments before it and after it.
Hidden tokens in between show nothing. -/
theorem exists_token_of_visible {ts : List Token} {cs₁ cs₂ : List Segment} {c : Segment}
    (h : Segment.visible (ts.map Token.segment) = cs₁ ++ c :: cs₂) :
    ∃ A t B, ts = A ++ t :: B ∧ t.segment.trimmed = c ∧
      Segment.visible (A.map Token.segment) = cs₁ ∧
        Segment.visible (B.map Token.segment) = cs₂ := by
  induction ts generalizing cs₁ with
  | nil => exact absurd h (by simp)
  | cons t ts ih =>
    rw [List.map_cons, Segment.visible_cons, Segment.visible_singleton] at h
    split at h
    · rename_i hw
      obtain ⟨A, u, B, rfl, hu, hA, hB⟩ := ih h
      refine ⟨t :: A, u, B, rfl, hu, ?_, hB⟩
      rw [List.map_cons, Segment.visible_cons, Segment.visible_singleton, if_pos hw, hA]
      rfl
    · rename_i hw
      cases cs₁ with
      | nil =>
        obtain ⟨rfl, hrest⟩ := List.cons.inj h
        exact ⟨[], t, ts, rfl, rfl, rfl, hrest⟩
      | cons c' cs₁ =>
        obtain ⟨rfl, hrest⟩ := List.cons.inj h
        obtain ⟨A, u, B, rfl, hu, hA, hB⟩ := ih hrest
        refine ⟨t :: A, u, B, rfl, hu, ?_, hB⟩
        rw [List.map_cons, Segment.visible_cons, Segment.visible_singleton, if_neg hw, hA]
        rfl

/-- What is visible of tame tokens is tame. -/
theorem isTame_visible {ts : List Token} (h : ∀ t ∈ ts, t.segment.isTame = true) :
    ∀ c ∈ Segment.visible (ts.map Token.segment), c.isTame = true := by
  intro c hc
  obtain ⟨s, hs, rfl⟩ := List.mem_map.1 hc
  obtain ⟨t, ht, rfl⟩ := List.mem_map.1 (List.mem_of_mem_filter hs)
  rw [isTame_trimmed, h t ht]

/-- Braces of blocks are visible, so they can be counted in the text as well. -/
theorem blocks_visible (ss : List Segment) :
    blocksOpened (Segment.visible ss) = blocksOpened ss ∧
      blocksClosed (Segment.visible ss) = blocksClosed ss := by
  induction ss with
  | nil => exact ⟨rfl, rfl⟩
  | cons s ss ih =>
    rw [Segment.visible_cons, Segment.visible_singleton]
    by_cases hw : s.kind = .whitespace
    · rw [if_pos hw, List.nil_append]
      obtain ⟨ho, hc⟩ := blocks_other (s := s) (by simp [hw]) (by simp [hw]) ss
      exact ⟨ih.1.trans ho.symm, ih.2.trans hc.symm⟩
    · rw [if_neg hw, List.singleton_append]
      simp only [blocksOpened, blocksClosed] at ih
      simp only [blocksOpened, blocksClosed, List.countP_cons, Segment.kind_trimmed, ih.1, ih.2,
        and_self]

/-- The end marker is not part of a text. -/
theorem ne_eof_of_visible {before : Option Kind} {cs : List Char} {c : Segment}
    (h : c ∈ Segment.visible (Segment.ofChars before cs)) : c.kind ≠ .eof := by
  obtain ⟨s, hs, rfl⟩ := List.mem_map.1 h
  rw [Segment.kind_trimmed]
  exact (Segment.formed_ofChars before cs s (List.mem_of_mem_filter hs)).ne_eof

/-- Tokens that start with the end marker show nothing before it. -/
theorem eq_nil_of_endMarker {ts : List Token} {V : List Segment}
    (ht : ∀ t ∈ ts.head?, t.kind = .eof)
    (h : Segment.visible (ts.map Token.segment) = V ++ [Segment.endMarker])
    (hV : ∀ c ∈ V, c.kind ≠ .eof) : V = [] := by
  cases V with
  | nil => rfl
  | cons c V =>
    cases ts with
    | nil => exact absurd h (by simp)
    | cons t ts =>
      have hk : t.segment.kind = .eof := ht t rfl
      rw [List.map_cons, Segment.visible_cons, Segment.visible_singleton,
        if_neg (by rw [hk]; decide)] at h
      obtain ⟨rfl, -⟩ := List.cons.inj h
      exact absurd hk (by simpa using hV t.segment.trimmed List.mem_cons_self)

/-- Tokens are tame through the brace by which they close more than `depth` blocks, or through the
end of the text. -/
def TameThrough (depth : Nat) (ts : List Token) : Prop :=
  ∃ P Q, ts = P ++ Q ∧ (∀ p ∈ P, p.segment.isTame = true) ∧
    ((∀ q ∈ Q.head?, q.kind = .eof) ∨
      depth + blocksOpened (P.map Token.segment) < blocksClosed (P.map Token.segment))

/-- A tame token before them, which may open a block or close one. -/
theorem TameThrough.cons {depth d : Nat} {t : Token} {ts : List Token}
    (ht : t.segment.isTame = true)
    (hd : depth + blocksOpened [t.segment] ≤ d + blocksClosed [t.segment])
    (h : TameThrough d ts) : TameThrough depth (t :: ts) := by
  obtain ⟨P, Q, rfl, hP, hend⟩ := h
  refine ⟨t :: P, Q, rfl, List.forall_mem_cons.2 ⟨ht, hP⟩, hend.imp_right fun hlt ↦ ?_⟩
  rw [List.map_cons, ← List.singleton_append, blocksOpened_append, blocksClosed_append]
  omega

/-- Blocks are tame through their end if they are so in the stream, where blanks stand between the
tokens and the end marker after them. -/
theorem blocksTame_of_tokens {source : String}
    (h : ∀ A t B, (tokenize source).toList = A ++ t :: B → t.kind = .lbrace → TameThrough 0 B) :
    BlocksTame (Segment.visible (Segment.ofChars none source.toList)) := by
  intro A c B hV hc
  have hall : Segment.visible ((tokenize source).toList.map Token.segment) =
      A ++ c :: (B ++ [Segment.endMarker]) := by
    rw [segments_tokenize, Segment.visible_append, hV, List.append_assoc]
    rfl
  obtain ⟨A', t, B', htoks, ht, -, hB⟩ := exists_token_of_visible hall
  have hk : t.kind = .lbrace := by rw [← hc, ← ht, Segment.kind_trimmed]; rfl
  obtain ⟨P, Q, rfl, hP, hend⟩ := h A' t B' htoks hk
  rw [List.map_append, Segment.visible_append] at hB
  rcases List.append_eq_append_iff.1 hB with ⟨as, rfl, hQ⟩ | ⟨as, hvis, -⟩
  · rcases hend with heof | hlt
    · -- the end marker comes next, so the text ends with the tame tokens
      obtain rfl : as = [] := eq_nil_of_endMarker heof hQ fun a ha ↦
        ne_eof_of_visible (show a ∈ Segment.visible (Segment.ofChars none source.toList) by
          rw [hV]
          simp [ha])
      rw [List.append_nil]
      exact .inl (isTame_visible hP)
    · obtain ⟨ho, hcl⟩ := blocks_visible (P.map Token.segment)
      exact .inr ⟨_, as, rfl, isTame_visible hP, by omega⟩
  · exact .inl fun b hb ↦ isTame_visible hP b (by rw [hvis]; exact List.mem_append_left _ hb)

/-- The ink of what is visible of tokens is that of the tokens. What is not visible is blank, and
the blanks that are trimmed from comments are not counted either. -/
theorem length_inkOf_visible {source : String} {A B : List Token} {t : Token}
    (h : (tokenize source).toList = A ++ t :: B) :
    (inkOf (Segment.visible (A.map Token.segment))).length = inkBefore A := by
  have hf : ∀ c ∈ A.map Token.segment, c.Formed := by
    have hs := segments_tokenize source
    rw [h, List.map_append, List.map_cons] at hs
    -- the end marker is the last token, so none before another
    have hpre : A.map Token.segment <+: Segment.ofChars none source.toList := by
      refine List.prefix_of_prefix_length_le ⟨_, hs⟩ ⟨_, rfl⟩ ?_
      have hlen := congrArg List.length hs
      simp only [List.length_append, List.length_cons, List.length_nil] at hlen
      omega
    exact fun c hc ↦ Segment.formed_ofChars none _ c (hpre.subset hc)
  rw [inkOf_visible hf, inkBefore, List.flatMap_map]
  rfl

/-- **The place of a stroke** in a layout is that of its token. Behind the first character of the
token in the layout stand the rest of its text and the strokes after it. -/
theorem exists_token_at {source : String} {ss ss₁ ss₂ : List Stroke} {s : Stroke} {a : Char}
    {t : List Char} (width : Nat)
    (h : Laid (·.kind ≠ .eof) (Segment.visible ((tokenize source).toList.map Token.segment)) ss)
    (hs : ss = ss₁ ++ s :: ss₂) (ht : s.segment.text = a :: t) (ha : isBlank a = false)
    (rest : List Char) :
    ∃ A u B, (tokenize source).toList = A ++ u :: B ∧ u.segment.trimmed = s.segment ∧
      dropInk (inkBefore A + 1) (inked width ss ++ rest) = t ++ (inked width ss₂ ++ rest) := by
  obtain ⟨cs₁, cs₂, hcs, hi⟩ := h.exists_place hs width
  obtain ⟨A, u, B, htoks, hu, hA, -⟩ := exists_token_of_visible hcs
  refine ⟨A, u, B, htoks, hu, ?_⟩
  have hn : inkBefore A = (ink (inked width ss₁ ++ s.gap.text width)).length := by
    rw [← length_inkOf_visible htoks, hA, hi]
    simp
  have htext : inked width ss ++ rest =
      inked width ss₁ ++ s.gap.text width ++ a :: (t ++ (inked width ss₂ ++ rest)) := by
    rw [hs, inked_append, inked_cons, ht]
    simp
  rw [hn, htext]
  have hd := dropInk_append (inked width ss₁ ++ s.gap.text width)
    (a :: (t ++ (inked width ss₂ ++ rest))) 0
  rw [Nat.add_zero] at hd
  rw [hd, dropInk_one ha]

/-- Strokes are kept if each of them is, before what follows it. -/
theorem keepsAll_of_forall {width : Nat} {ss : List Stroke} {rest : List Char}
    (h : ∀ ss₁ s ss₂, ss = ss₁ ++ s :: ss₂ → Keeps s.segment (inked width ss₂ ++ rest)) :
    KeepsAll width ss rest := by
  induction ss with
  | nil => trivial
  | cons s ss ih =>
    exact ⟨h [] s ss rfl, ih fun ss₁ s' ss₂ hs ↦ h (s :: ss₁) s' ss₂ (by rw [hs]; rfl)⟩

end GrammarLayout
