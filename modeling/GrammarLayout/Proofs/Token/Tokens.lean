import GrammarLayout.Proofs.Token.Scanning
import GrammarLayout.Token.Tokenize
import Mathlib.Data.List.Chain

/-!
# Tokens of a source

The tokens of a source are its segments with the end marker after them, so what holds of segments
holds of tokens. Two things are shown of segments here: each is formed as its kind says, and inside
an action nothing is hidden, because the whole body is split into pieces.

Positions, lines and bytes are put on segments afterwards, so whatever is said of kinds and texts is
said of segments first and carried over by two lemmas: the tokens of a source have the segments of
its characters (`segments_tokenize`), and what all segments have all tokens have
(`forall_mem_tokenize`).

The scan itself is opened in one place, by the four equations under "The scan, step by step", one
for each thing it can find in front of a text. An induction over `Segment.ofChars` has these cases,
and uses the equations to rewrite them.

What is written of a segment is defined here as well (`Segment.visible`), because it is the notion
by which a source is compared with its layout: whitespace is left out, and comments lose the blanks
at their end.
-/

namespace GrammarLayout

/-- The segment of a token. -/
def Token.segment (t : Token) : Segment := ⟨t.kind, t.text.toList⟩

/-- An element of two lists side by side stands in the first or in the second. The segments of a
block are several lists side by side, and a segment of it stands in one of them. -/
theorem append_eq_append_cons {α : Type} {xs ys as bs : List α} {a : α}
    (h : xs ++ ys = as ++ a :: bs) :
    (∃ cs, xs = as ++ a :: cs ∧ bs = cs ++ ys) ∨ ∃ cs, as = xs ++ cs ∧ ys = cs ++ a :: bs := by
  rcases List.append_eq_append_iff.1 h with ⟨cs, rfl, hys⟩ | ⟨cs, rfl, hbs⟩
  · exact .inr ⟨cs, rfl, hys⟩
  · cases cs with
    | nil => exact .inr ⟨[], by simp, by simpa using hbs.symm⟩
    | cons c cs =>
      obtain ⟨rfl, rfl⟩ := List.cons.inj hbs
      exact .inl ⟨cs, rfl, rfl⟩

namespace Segment

/-- What the kind of a segment says of its text. -/
structure Formed (s : Segment) : Prop where
  /-- No segment is empty. -/
  text_ne : s.text ≠ []
  /-- The end of the input is no segment. -/
  ne_eof : s.kind ≠ .eof
  /-- Whitespace is made of spaces. -/
  space : s.kind = .whitespace → ∀ c ∈ s.text, Lexeme.isSpace c = true
  /-- A line comment starts with two slashes. -/
  line : s.kind = .lineComment → ['/', '/'] <+: s.text
  /-- A block comment starts with a slash and a star. -/
  block : s.kind = .blockComment → ['/', '*'] <+: s.text
  /-- A doc comment does so, too. -/
  doc : s.kind = .docComment → ['/', '*'] <+: s.text
  /-- An action starts with a brace. -/
  opening : s.kind = .beginAction → s.text = ['\x7b']
  /-- An action ends with a brace. -/
  closing : s.kind = .endAction → s.text = ['\x7d']

/-- A segment of a kind about whose text nothing is said. -/
theorem formed_of_kind {kind : Kind} {text : List Char} (h : text ≠ [])
    (hk : kind ∉ [.eof, .whitespace, .lineComment, .blockComment, .docComment, .beginAction,
      .endAction]) : Formed ⟨kind, text⟩ := by
  simp only [List.mem_cons, not_or, List.not_mem_nil] at hk
  exact ⟨h, hk.1, fun h ↦ absurd h hk.2.1, fun h ↦ absurd h hk.2.2.1,
    fun h ↦ absurd h hk.2.2.2.1, fun h ↦ absurd h hk.2.2.2.2.1,
    fun h ↦ absurd h hk.2.2.2.2.2.1, fun h ↦ absurd h hk.2.2.2.2.2.2.1⟩

/-- What the flat scan reads is formed, and turning a comment into a doc comment leaves it so. -/
theorem formed_ofPlain {kind : Kind} {text : List Char} (h : Lexeme.Formed kind text)
    (hne : text ≠ []) : Formed (ofPlain kind text) := by
  unfold ofPlain
  split
  · rename_i hd
    exact ⟨hne, Kind.noConfusion, Kind.noConfusion, Kind.noConfusion, Kind.noConfusion,
      fun _ ↦ h.block hd.1, Kind.noConfusion, Kind.noConfusion⟩
  · have hf := h.flat
    refine ⟨hne, fun hk ↦ ?_, h.space, h.line, h.block, fun hk ↦ ?_, fun hk ↦ ?_, fun hk ↦ ?_⟩ <;>
      exact absurd hf (by rw [show kind = _ from hk]; decide)

/-- The braces and the pieces of an action are formed. -/
theorem formed_ofAction (body : List Char) (closed : Bool) :
    ∀ s ∈ ofAction body closed, Formed s := by
  have hpiece : ∀ (cs : List Char), ∀ p ∈ Action.pieces cs, p ≠ [] := by
    intro cs
    fun_induction Action.pieces cs with
    | case1 => simp
    | case2 c cs ih => exact List.forall_mem_cons.2 ⟨by simp, ih⟩
  intro s hs
  rcases List.mem_cons.1 hs with rfl | hs
  · exact ⟨by simp, by simp, by simp, by simp, by simp, by simp, fun _ ↦ rfl, by simp⟩
  · rcases List.mem_append.1 hs with hs | hs
    · obtain ⟨p, hp, rfl⟩ := List.mem_map.1 hs
      exact formed_of_kind (hpiece body p hp) (by decide)
    · cases closed with
      | false => exact absurd hs (by simp [Segment.closing])
      | true =>
        rw [List.mem_singleton.1 hs]
        exact ⟨by simp, by simp, by simp, by simp, by simp, by simp, by simp, fun _ ↦ rfl⟩

theorem formed_closing (closed : Bool) : ∀ s ∈ closing .rbrace closed, Formed s := by
  intro s hs
  cases closed with
  | false => exact absurd hs (by simp [Segment.closing])
  | true =>
    rw [List.mem_singleton.1 hs]
    exact formed_of_kind (by simp) (by decide)

/-- Every segment of a text is formed as its kind says. -/
theorem formed_ofChars (before : Option Kind) (cs : List Char) :
    ∀ s ∈ ofChars before cs, Formed s := by
  fun_induction ofChars before cs with
  | case1 => simp
  | case2 before c cs kind text rest h s ih =>
    have hne := Lexeme.text_next_ne_nil c cs
    rw [h] at hne
    exact List.forall_mem_cons.2 ⟨formed_ofPlain (Lexeme.formed_next h) hne, ih⟩
  | case3 before c cs text rest h ih =>
    have hne := Lexeme.text_next_ne_nil c cs
    rw [h] at hne
    exact List.forall_mem_cons.2 ⟨formed_of_kind hne (by decide), ih⟩
  | case4 before c cs body closed rest h hb ihb ihr =>
    refine List.forall_mem_cons.2 ⟨formed_of_kind (by simp) (by decide), fun s hs ↦ ?_⟩
    rcases List.mem_append.1 hs with hs | hs
    · exact ihb s hs
    · rcases List.mem_append.1 hs with hs | hs
      · exact formed_closing closed s hs
      · exact ihr s hs
  | case5 before c cs body closed rest h hb ih =>
    intro s hs
    rcases List.mem_append.1 hs with hs | hs
    · exact formed_ofAction body closed s hs
    · exact ih s hs

/-! ### Inside actions nothing is hidden -/

/-- After the start or a piece of an action, nothing is hidden. It is a relation of neighbours, so
that it can be told of a list by its chain. -/
def Quiet (a b : Segment) : Prop :=
  a.kind = .beginAction ∨ a.kind = .actionContent → b.kind.isHidden = false

end Segment

namespace Action

/-- A block without its closing brace takes the whole text, so nothing comes after it. -/
theorem rest_of_not_closed (depth : Nat) (cs : List Char)
    (h : (blockFrom depth cs).closed = false) :
    (blockFrom depth cs).rest = [] := by
  fun_induction blockFrom depth cs <;> simp_all

end Action

namespace Segment

theorem quiet_of_kind {a : Segment} (h : a.kind ∉ [.beginAction, .actionContent]) (b : Segment) :
    Quiet a b := by
  simp only [List.mem_cons, List.not_mem_nil, or_false, not_or] at h
  exact fun hk ↦ absurd hk (by simp [h.1, h.2])

/-- The segments of an action are quiet, and so is what comes after a closed one. -/
theorem isChain_ofAction (body : List Char) (closed : Bool) {ss : List Segment}
    (hs : ss.IsChain Quiet) (hc : closed = false → ss = []) :
    (ofAction body closed ++ ss).IsChain Quiet := by
  have hend : ((closing .endAction closed) ++ ss).IsChain Quiet := by
    cases closed with
    | false => rw [hc rfl]; exact List.isChain_nil
    | true => exact List.isChain_cons.2 ⟨fun b _ ↦ quiet_of_kind (by decide) b, hs⟩
  have hhead : ∀ b ∈ ((closing .endAction closed) ++ ss).head?, b.kind.isHidden = false := by
    intro b hb
    cases closed with
    | false => rw [hc rfl] at hb; exact absurd hb (by simp [Segment.closing])
    | true => obtain rfl : ⟨.endAction, ['\x7d']⟩ = b := Option.some.inj hb; rfl
  have hpieces : ∀ ps : List (List Char),
      (ps.map (fun p ↦ (⟨.actionContent, p⟩ : Segment)) ++
        (closing .endAction closed ++ ss)).IsChain Quiet ∧
        ∀ b ∈ (ps.map (fun p ↦ (⟨.actionContent, p⟩ : Segment)) ++
          (closing .endAction closed ++ ss)).head?, b.kind.isHidden = false := by
    intro ps
    induction ps with
    | nil => exact ⟨hend, hhead⟩
    | cons p ps ih =>
      refine ⟨List.isChain_cons.2 ⟨fun b hb _ ↦ ih.2 b hb, ih.1⟩, fun b hb ↦ ?_⟩
      obtain rfl : ⟨.actionContent, p⟩ = b := Option.some.inj hb
      rfl
  rw [ofAction, List.cons_append, List.append_assoc]
  exact List.isChain_cons.2 ⟨fun b hb _ ↦ (hpieces _).2 b hb, (hpieces _).1⟩

/-- Segments that end without an open action may be followed by any. What is open at its end has
nothing after it. -/
theorem isChain_closing {ss ss' : List Segment} (h : ss.IsChain Quiet) (h' : ss'.IsChain Quiet)
    (closed : Bool) (hc : closed = false → ss' = []) :
    (ss ++ (closing .rbrace closed ++ ss')).IsChain Quiet := by
  cases closed with
  | false => rw [hc rfl]; simpa [Segment.closing] using h
  | true =>
    refine List.isChain_append.2
      ⟨h, List.isChain_cons.2 ⟨fun b _ ↦ quiet_of_kind (by decide) b, h'⟩,
      fun a _ b hb _ ↦ ?_⟩
    obtain rfl : ⟨.rbrace, ['\x7d']⟩ = b := Option.some.inj hb
    rfl

/-- A block without its closing brace is the last lexeme. -/
theorem rest_of_braced {c : Char} {cs body rest : List Char}
    (h : Lexeme.next c cs = (.braced body false, rest)) : rest = [] := by
  have hb := (Lexeme.of_braced h).2
  have hr := Action.rest_of_not_closed 0 cs (congrArg Action.Block.closed hb)
  exact (congrArg Action.Block.rest hb).symm.trans hr

/-- **Inside an action nothing is hidden.** -/
theorem isChain_ofChars (before : Option Kind) (cs : List Char) :
    (ofChars before cs).IsChain Quiet := by
  fun_induction ofChars before cs with
  | case1 => exact List.isChain_nil
  | case2 before c cs kind text rest h s ih =>
    have hf := (Lexeme.formed_next h).flat
    refine List.isChain_cons.2 ⟨fun b _ ↦ quiet_of_kind ?_ b, ih⟩
    simp only [s, ofPlain]
    split
    · simp
    · intro hm
      simp only [List.mem_cons, List.not_mem_nil, or_false] at hm
      rcases hm with rfl | rfl <;> exact absurd hf (by decide)
  | case3 before c cs text rest h ih =>
    exact List.isChain_cons.2 ⟨fun b _ ↦ quiet_of_kind (by simp) b, ih⟩
  | case4 before c cs body closed rest h hb ihb ihr =>
    refine List.isChain_cons.2 ⟨fun b _ ↦ quiet_of_kind (by simp) b,
      isChain_closing ihb ihr closed fun hc ↦ ?_⟩
    subst hc
    rw [rest_of_braced h, ofChars]
  | case5 before c cs body closed rest h hb ih =>
    refine isChain_ofAction body closed ih fun hc ↦ ?_
    subst hc
    rw [rest_of_braced h, ofChars]

end Segment

/-! ### The scan, step by step -/

namespace Segment

variable {before : Option Kind} {c : Char} {cs text rest : List Char}

theorem ofChars_of_plain {kind : Kind} (h : Lexeme.next c cs = (.plain kind text, rest)) :
    ofChars before (c :: cs) =
      ofPlain kind text :: ofChars (nearest before (ofPlain kind text)) rest := by
  rw [ofChars]
  split <;> simp_all

theorem ofChars_of_unknown (h : Lexeme.next c cs = (.unknown text, rest)) :
    ofChars before (c :: cs) = ⟨.unknown, text⟩ :: ofChars (some .unknown) rest := by
  rw [ofChars]
  split <;> simp_all

theorem ofChars_of_block {closed : Bool} (h : Lexeme.next c cs = (.braced text closed, rest))
    (hb : before.any Kind.introducesBlock = true) :
    ofChars before (c :: cs) = ⟨.lbrace, ['\x7b']⟩ ::
      (ofChars (some .lbrace) text ++ (closing .rbrace closed ++ ofChars (some .rbrace) rest)) := by
  rw [ofChars]
  split <;> simp_all

theorem ofChars_of_action {closed : Bool} (h : Lexeme.next c cs = (.braced text closed, rest))
    (hb : before.any Kind.introducesBlock = false) :
    ofChars before (c :: cs) = ofAction text closed ++ ofChars (some .endAction) rest := by
  rw [ofChars]
  split <;> simp_all

theorem kind_of_closing {kind : Kind} {closed : Bool} {s : Segment}
    (h : s ∈ closing kind closed) : s.kind = kind := by
  cases closed with
  | false => exact absurd h (by simp [closing])
  | true => rw [List.mem_singleton.1 h]

/-- An action is made of its braces and pieces. -/
theorem isActionPiece_ofAction {body : List Char} {closed : Bool} {s : Segment}
    (hs : s ∈ ofAction body closed) : s.kind.isActionPiece = true := by
  rcases List.mem_cons.1 hs with rfl | hs
  · rfl
  · rcases List.mem_append.1 hs with hs | hs
    · obtain ⟨p, -, rfl⟩ := List.mem_map.1 hs
      rfl
    · cases closed with
      | false => exact absurd hs (by simp [closing])
      | true => rw [List.mem_singleton.1 hs]; rfl

end Segment

/-- A comment may become a doc comment; other kinds stay. -/
theorem kind_ofPlain (kind : Kind) (text : List Char) :
    (Segment.ofPlain kind text).kind = kind ∨
      (kind = .blockComment ∧ (Segment.ofPlain kind text).kind = .docComment) := by
  unfold Segment.ofPlain
  split
  · rename_i h
    exact .inr ⟨h.1, rfl⟩
  · exact .inl rfl

/-- The flat scan leaves braces to the scanner for actions. -/
theorem isActionPiece_ofPlain {kind : Kind} (h : Lexeme.isFlat kind = true) (text : List Char) :
    (Segment.ofPlain kind text).kind.isActionPiece = false ∧
      (Segment.ofPlain kind text).kind ≠ .lbrace := by
  rcases kind_ofPlain kind text with hk | ⟨-, hk⟩ <;> rw [hk]
  · revert h
    cases kind <;> decide
  · decide

/-- Nothing of an action is hidden. -/
theorem Kind.isHidden_of_isActionPiece {kind : Kind} (h : kind.isActionPiece = true) :
    kind.isHidden = false := by
  cases kind <;> first | rfl | exact absurd h (by decide)

/-! ### What is written of a segment -/

namespace Segment

/-- A segment as it is written: a hidden one without the blanks at its end. -/
def trimmed (s : Segment) : Segment := if s.kind.isHidden then ⟨s.kind, trimEnd s.text⟩ else s

/-- Whether a segment is written at all: whitespace is not. -/
def isVisible (s : Segment) : Bool := s.kind != .whitespace

/-- The segments that are written, as they are written. -/
def visible (ss : List Segment) : List Segment := (ss.filter isVisible).map trimmed

@[simp] theorem visible_nil : visible [] = [] := rfl

@[simp] theorem visible_append (ss ss' : List Segment) :
    visible (ss ++ ss') = visible ss ++ visible ss' := by
  simp [visible]

theorem visible_cons (s : Segment) (ss : List Segment) :
    visible (s :: ss) = visible [s] ++ visible ss := visible_append [s] ss

@[simp] theorem kind_trimmed (s : Segment) : s.trimmed.kind = s.kind := by
  unfold trimmed
  split <;> rfl

theorem trimmed_of_main {s : Segment} (h : s.kind.isHidden = false) : s.trimmed = s := by
  rw [trimmed, if_neg (by simp [h])]

/-- Main segments are not trimmed, so they can be told from what is written. -/
theorem eq_of_trimmed {s t : Segment} (h : s.trimmed = t) (ht : t.kind.isHidden = false) :
    s = t := by
  subst h
  rw [kind_trimmed] at ht
  exact (trimmed_of_main ht).symm

/-- A segment without blanks at its end is written as it is. -/
theorem trimmed_of_trimEnd {s : Segment} (h : trimEnd s.text = s.text) : s.trimmed = s := by
  rw [trimmed, h]
  split <;> rfl

theorem nearest_trimmed (before : Option Kind) (s : Segment) :
    nearest before s.trimmed = nearest before s := by
  rw [nearest, nearest, kind_trimmed]

theorem visible_singleton (s : Segment) :
    visible [s] = if s.kind = .whitespace then [] else [s.trimmed] := by
  by_cases hs : s.kind = .whitespace
  · rw [visible, List.filter_cons_of_neg (by simp [isVisible, hs]), if_pos hs]
    rfl
  · rw [visible, List.filter_cons_of_pos (by simp [isVisible, hs]), if_neg hs]
    rfl

/-- Main segments are written, and as they are. Only hidden ones are left out or trimmed. -/
theorem visible_of_main {ss : List Segment} (h : ∀ s ∈ ss, s.kind.isHidden = false) :
    visible ss = ss := by
  induction ss with
  | nil => rfl
  | cons s ss ih =>
    rw [List.forall_mem_cons] at h
    have hs : s.kind ≠ .whitespace := fun hk ↦ absurd h.1 (by rw [hk]; decide)
    rw [visible_cons, visible_singleton, if_neg hs, trimmed_of_main h.1, ih h.2,
      List.singleton_append]

end Segment

/-! ### Positions in a stream -/

namespace Stream

/-- A token is found by the number of tokens before it. -/
theorem get?_length {s : Stream} {A B : List Token} {t : Token} (h : s.toList = A ++ t :: B) :
    s.get? A.length = some t := by
  have hl : s.get? A.length = s.toList[A.length]? := by simp [Stream.get?, Stream.toList]
  rw [hl, h, List.getElem?_append_right (Nat.le_refl _), Nat.sub_self]
  rfl

/-- The position of a token is the number of tokens before it. -/
theorem index_eq_length {s : Stream} {A B : List Token} {t : Token} (h : s.toList = A ++ t :: B) :
    t.index = A.length := by
  obtain ⟨hlt, he⟩ := Array.getElem?_eq_some_iff.1 (get?_length h)
  rw [← he, s.index_eq]

end Stream

/-! ### From segments to tokens -/

/-- The end marker as a segment. -/
def Segment.endMarker : Segment := ⟨.eof, eofText.toList⟩

theorem segments_placeSegments (offset line : Nat) (ss : List Segment) :
    (placeSegments offset line ss).map Token.segment = ss ++ [Segment.endMarker] := by
  induction ss generalizing offset line with
  | nil => rfl
  | cons s ss ih =>
    rw [placeSegments, List.map_cons, ih, Token.segment, String.toList_ofList]
    rfl

/-- The tokens that are placed for segments are the segments, and the end marker. -/
theorem segments_ofTokens (ss : List Segment) :
    (Stream.ofTokens (placeSegments 0 1 ss).toArray).toList.map Token.segment =
      ss ++ [Segment.endMarker] := by
  rw [← segments_placeSegments 0 1, Stream.toList, Stream.ofTokens, Array.toList_mapIdx]
  refine List.ext_getElem? fun i ↦ ?_
  rw [List.getElem?_map, List.getElem?_mapIdx, List.getElem?_map, Option.map_map]
  rfl

/-- **The tokens of a source** are its segments, and the end marker. -/
theorem segments_tokenize (source : String) :
    (tokenize source).toList.map Token.segment =
      Segment.ofChars none source.toList ++ [Segment.endMarker] :=
  segments_ofTokens (Segment.ofChars none source.toList)

/-- What is known of all segments is known of all tokens but the end marker. -/
theorem forall_mem_tokenize {source : String} {P : Segment → Prop} (he : P Segment.endMarker)
    (h : ∀ s ∈ Segment.ofChars none source.toList, P s) :
    ∀ t ∈ (tokenize source).toList, P t.segment := by
  intro t ht
  have hm : t.segment ∈ (tokenize source).toList.map Token.segment := List.mem_map_of_mem ht
  rw [segments_tokenize] at hm
  rcases List.mem_append.1 hm with hm | hm
  · exact h _ hm
  · rwa [List.mem_singleton.1 hm]

end GrammarLayout
