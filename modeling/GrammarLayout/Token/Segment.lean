import GrammarLayout.Token.Lexeme

/-!
# Segments

A segment is a token without its place. Segments resolve the two things the flat scan leaves open:

* A braced block after `options`, `tokens` or `channels` is structure: its body is scanned again as
  ordinary segments between the braces. Any other braced block is an action, and its body is split
  into action pieces. What decides is the nearest main segment before the block, so the scan carries
  that kind along.
* A block comment that starts like a doc comment is one, and is on the main channel.

The segments make up the source (`Segment.flatMap_text_ofChars`); their places are computed
afterwards, by a pass that knows nothing of scanning.
-/

namespace GrammarLayout

/-- A piece of a source with its kind. -/
structure Segment where
  /-- What the segment is. -/
  kind : Kind
  /-- The characters of the source it covers. -/
  text : List Char
  deriving DecidableEq, Repr

namespace Segment

/-- A block comment that starts with a second star is a doc comment, unless that star already
closes it. -/
def isDocComment (text : List Char) : Bool :=
  ['/', '*', '*'].isPrefixOf text && text != ['/', '*', '*', '/']

/-- The segment of a lexeme whose kind the flat scan knows. -/
def ofPlain (kind : Kind) (text : List Char) : Segment :=
  if kind = .blockComment ∧ isDocComment text then ⟨.docComment, text⟩ else ⟨kind, text⟩

/-- The kind of the nearest main segment once `s` has been read after `before`. -/
def nearest (before : Option Kind) (s : Segment) : Option Kind :=
  if s.kind.isHidden then before else some s.kind

/-- The segments of the closing brace of a block, as far as it is there. -/
def closing (kind : Kind) (closed : Bool) : List Segment :=
  if closed then [⟨kind, ['\x7d']⟩] else []

/-- The segments of an action. -/
def ofAction (body : List Char) (closed : Bool) : List Segment :=
  ⟨.beginAction, ['\x7b']⟩ ::
    ((Action.pieces body).map (fun p => ⟨.actionContent, p⟩) ++ closing .endAction closed)

/-- The segments of a text, `before` being the kind of the nearest main segment before it. -/
def ofChars (before : Option Kind) : List Char → List Segment
  | [] => []
  | c :: cs =>
    match _h : Lexeme.next c cs with
    | (.plain kind text, rest) =>
      let s := ofPlain kind text
      s :: ofChars (nearest before s) rest
    | (.unknown text, rest) => ⟨.unknown, text⟩ :: ofChars (some .unknown) rest
    | (.braced body closed, rest) =>
      if before.any Kind.introducesBlock then
        ⟨.lbrace, ['\x7b']⟩ ::
          (ofChars (some .lbrace) body ++
            (closing .rbrace closed ++ ofChars (some .rbrace) rest))
      else ofAction body closed ++ ofChars (some .endAction) rest
termination_by cs => cs.length
decreasing_by
  all_goals
    have ha := congrArg List.length (Lexeme.next_append c cs)
    have hn := Lexeme.length_next_lt c cs
    rw [_h] at ha hn
    simp only [List.length_cons, List.length_append, Lexeme.text] at ha hn ⊢
    omega

/-! ### Nothing is lost -/

@[simp] theorem text_ofPlain (kind : Kind) (text : List Char) :
    (ofPlain kind text).text = text := by
  unfold ofPlain
  split <;> rfl

@[simp] theorem flatMap_text_closing (kind : Kind) (closed : Bool) :
    (closing kind closed).flatMap text = Lexeme.closingBrace closed := by
  cases closed <;> rfl

@[simp] theorem flatMap_text_ofAction (body : List Char) (closed : Bool) :
    (ofAction body closed).flatMap text = (Lexeme.braced body closed).text := by
  simp only [ofAction, List.flatMap_cons, List.flatMap_append, flatMap_text_closing, Lexeme.text,
    List.flatMap_map]
  rw [List.flatMap_id', Action.flatten_pieces]
  rfl

/-- The segments make up the text. -/
theorem flatMap_text_ofChars (before : Option Kind) (cs : List Char) :
    (ofChars before cs).flatMap text = cs := by
  fun_induction ofChars before cs with
  | case1 => rfl
  | case2 before c cs kind t rest h s ih =>
    have ha := Lexeme.next_append c cs
    rw [h] at ha
    simpa [s, ih, Lexeme.text] using ha
  | case3 before c cs t rest h ih =>
    have ha := Lexeme.next_append c cs
    rw [h] at ha
    simpa [ih, Lexeme.text] using ha
  | case4 before c cs body closed rest h hb ihb ihr =>
    have ha := Lexeme.next_append c cs
    rw [h] at ha
    simpa [ihb, ihr, Lexeme.text] using ha
  | case5 before c cs body closed rest h hb ih =>
    have ha := Lexeme.next_append c cs
    rw [h] at ha
    simpa [ih] using ha

end Segment

end GrammarLayout
