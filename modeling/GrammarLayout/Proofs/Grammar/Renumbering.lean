import GrammarLayout.Proofs.Grammar.Derivation

/-!
# Renumbering

The reader looks at the kinds of tokens and copies their positions. So if tokens are replaced by
others of the same kinds, and their positions are renumbered on the way, the same is read up to that
renumbering (`toOption_readGrammar_map`). Two lists of tokens with the same kinds have one tree,
once every position is replaced by its rank.

The proof is a naturality argument. A reader is *natural* for a renumbering if it commutes with it:
reading renumbered tokens gives the renumbered trees and the renumbered rest (`Natural`). A pattern
is natural if the readers of its sub-rules are (`Pattern.natural_read`, one case for each kind of
pattern), so by induction on the number of open parentheses all of them are (`natural_readNest`).
The only patterns that look at a token do so through its kind or copy its position into a leaf, and
the only ones that look further ahead, at stray tokens, ask for kinds again.

Nothing is asked of `g`. It may even give two tokens the same position; the result is then a tree in
which they cannot be told apart. Uses of this module take a `g` that is strictly increasing.
-/

namespace GrammarLayout

/-- A span with other positions. -/
def Span.renumber (g : Nat → Nat) (s : Span) : Span := ⟨g s.start, g s.stop⟩

namespace Tree

mutual

/-- A tree with other positions. -/
def renumber (g : Nat → Nat) : Tree → Tree
  | leaf i => leaf (g i)
  | stray i => stray (g i)
  | node kind span children => node kind (span.map (Span.renumber g)) (renumberAll g children)

/-- Trees with other positions. -/
def renumberAll (g : Nat → Nat) : List Tree → List Tree
  | [] => []
  | t :: ts => t.renumber g :: renumberAll g ts

end

theorem renumberAll_eq_map (g : Nat → Nat) (ts : List Tree) :
    renumberAll g ts = ts.map (renumber g) := by
  induction ts with
  | nil => rfl
  | cons t ts ih => rw [renumberAll, ih, List.map_cons]

theorem firstIndex?_renumber (g : Nat → Nat) (t : Tree) :
    (t.renumber g).firstIndex? = t.firstIndex?.map g := by
  cases t with
  | leaf | stray => rfl
  | node kind span children => cases span <;> rfl

theorem lastIndex?_renumber (g : Nat → Nat) (t : Tree) :
    (t.renumber g).lastIndex? = t.lastIndex?.map g := by
  cases t with
  | leaf | stray => rfl
  | node kind span children => cases span <;> rfl

/-- A position that is looked up in one tree after the other. Whether one is found does not depend
on the numbers. -/
theorem findSome?_renumber {g : Nat → Nat} {f : Tree → Option Nat}
    (hf : ∀ t, f (t.renumber g) = (f t).map g) (ts : List Tree) :
    (ts.map (renumber g)).findSome? f = (ts.findSome? f).map g := by
  induction ts with
  | nil => rfl
  | cons t ts ih =>
    rw [List.map_cons, List.findSome?_cons, List.findSome?_cons, hf, ih]
    cases f t <;> rfl

/-- Spans are taken from the first and last positions, so they are renumbered with them. -/
theorem spanOf?_renumber (g : Nat → Nat) (ts : List Tree) :
    spanOf? (ts.map (renumber g)) = (spanOf? ts).map (Span.renumber g) := by
  rw [spanOf?, spanOf?, ← List.map_reverse, findSome?_renumber (firstIndex?_renumber g),
    findSome?_renumber (lastIndex?_renumber g)]
  cases ts.findSome? firstIndex? <;> cases ts.reverse.findSome? lastIndex? <;> rfl

/-- Nodes are renumbered by renumbering what is below them. Their spans need not be told, as they
follow. -/
theorem renumber_ofChildren (g : Nat → Nat) (kind : NodeKind) (ts : List Tree) :
    (ofChildren kind ts).renumber g = ofChildren kind (ts.map (renumber g)) := by
  rw [ofChildren, renumber, renumberAll_eq_map, ofChildren, spanOf?_renumber]

end Tree

/-- Tokens are replaced by others of the same kind, and their positions are renumbered by `g`. -/
structure Renumbers (g : Nat → Nat) (φ : Token → Token) : Prop where
  /-- The kind is the same. -/
  kind : ∀ t, (φ t).kind = t.kind
  /-- The position is renumbered. -/
  index : ∀ t, (φ t).index = g t.index

/-- What is read, with other tokens and positions. -/
def Reading.renumber (g : Nat → Nat) (φ : Token → Token) (x : Reading) : Reading :=
  x.map fun r ↦ (r.1.map (Tree.renumber g), r.2.map φ)

/-- A reader that reads the same off replaced tokens. Where it fails, it fails on the replaced ones,
too. -/
def Natural (g : Nat → Nat) (φ : Token → Token) (r : Reader) : Prop :=
  ∀ us, r (us.map φ) = Reading.renumber g φ (r us)

section Renumbering

variable {g : Nat → Nat} {φ : Token → Token} (h : Renumbers g φ)
include h

/-- Whether a mode begins depends on three kinds. -/
theorem Renumbers.opensMode_map (us : List Token) : opensMode (us.map φ) = opensMode us := by
  match us with
  | [] | [_] | [_, _] => rfl
  | a :: b :: c :: us => simp only [List.map_cons, opensMode, h.kind]

/-- Whether a token is stray depends on kinds, its own and those behind it. -/
theorem Renumbers.isStray_map (us : List Token) : isStray (us.map φ) = isStray us := by
  cases us with
  | nil => rfl
  | cons t us =>
    rw [List.map_cons, isStray, isStray, h.kind, ← List.map_cons, h.opensMode_map]

omit h in
/-- Repetition of a natural reader. The bound on the number of rounds is the same on both sides. -/
theorem Natural.readMany {r : Reader} (hr : Natural g φ r) (n : Nat) (us : List Token) :
    readMany r n (us.map φ) =
      ((readMany r n us).1.map (Tree.renumber g), (readMany r n us).2.map φ) := by
  induction n generalizing us with
  | zero => rfl
  | succ n ih =>
    rw [GrammarLayout.readMany, GrammarLayout.readMany, hr us]
    cases hx : r us with
    | none => rfl
    | some x =>
      obtain ⟨ts, rest⟩ := x
      simp only [Reading.renumber, Option.map_some, ih, List.map_append]

namespace Pattern

/-- **Reading does not depend on positions**, if reading the sub-rules does not. -/
theorem natural_read {limit : Nat} {sub : Nest → Reader} (hsub : ∀ n, Natural g φ (sub n))
    (p : Pattern) : Natural g φ (p.read limit sub) := by
  induction p with
  | token kinds =>
    intro us
    cases us with
    | nil => rfl
    | cons t us =>
      simp only [List.map_cons, read, h.kind, h.index]
      split <;> rfl
  | stray =>
    intro us
    cases us with
    | nil => rfl
    | cons t us =>
      have hs := h.isStray_map (t :: us)
      rw [List.map_cons] at hs ⊢
      simp only [read, hs, h.index]
      split <;> rfl
  | strayEnd =>
    intro us
    cases us with
    | nil => rfl
    | cons t us =>
      simp only [List.map_cons, read, h.kind, h.index]
      split <;> rfl
  | seq p q ihp ihq =>
    intro us
    simp only [read, ihp us]
    cases hp : p.read limit sub us with
    | none => rfl
    | some x =>
      obtain ⟨ts, rest⟩ := x
      simp only [Reading.renumber, Option.map_some, ihq rest, Option.map_map]
      cases q.read limit sub rest with
      | none => rfl
      | some y => simp
  | alt p q ihp ihq =>
    intro us
    simp only [read, ihp us]
    cases hp : p.read limit sub us with
    | none => exact ihq us
    | some x => rfl
  | opt p ih =>
    intro us
    simp only [read, ih us]
    cases hp : p.read limit sub us with
    | none => rfl
    | some x => rfl
  | many p ih =>
    intro us
    simp only [read, Natural.readMany ih]
    rfl
  | node kind p ih =>
    intro us
    simp only [read, ih us]
    cases hp : p.read limit sub us with
    | none => rfl
    | some x =>
      simp only [Reading.renumber, Option.map_some, List.map_cons, List.map_nil,
        Tree.renumber_ofChildren]
  | nested n => exact hsub n

/-- Reading a sub-rule in parentheses does not depend on positions. -/
theorem natural_readNest (limit depth : Nat) (n : Nest) :
    Natural g φ (Nest.read limit depth n) := by
  induction depth generalizing n with
  | zero => exact fun us ↦ rfl
  | succ depth ih => exact natural_read h ih _

end Pattern

/-- **What is read off tokens depends on their kinds alone**, up to the positions in the tree. -/
theorem toOption_readGrammar_map (us : List Token) :
    (readGrammar (us.map φ)).toOption = (readGrammar us).toOption.map (Tree.renumber g) := by
  have hread : Natural g φ
      (Production.grammarSpec.read us.length (Nest.read us.length us.length)) :=
    Pattern.natural_read h (Pattern.natural_readNest h us.length us.length) _
  rw [readGrammar, readGrammar, Pattern.parse, Pattern.parse, List.length_map, hread us]
  cases Production.grammarSpec.read us.length (Nest.read us.length us.length) us with
  | none => rfl
  | some x =>
    obtain ⟨ts, rest⟩ := x
    -- a grammar is read if there is one tree and no rest; renumbering keeps both numbers
    match ts, rest with
    | [], _ | [_], _ :: _ | _ :: _ :: _, _ | [_], [] => rfl

end Renumbering

/-- The tree of a stream is what is read off its main tokens. -/
theorem toOption_parse (s : Stream) : (parse s).toOption = (readGrammar s.mainTokens).toOption := by
  rw [parse]
  cases readGrammar s.mainTokens <;> rfl

end GrammarLayout
