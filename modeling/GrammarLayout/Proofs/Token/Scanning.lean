import GrammarLayout.Token.Segment
import Mathlib.Data.List.Basic

/-!
# Scanning again

When is a lexeme read again as it was, although something else follows it now? The scan looks at one
character to decide which lexeme starts, so it is cut along the classes of characters first
(`Lexeme.next_eq`). After that, every lexeme has its own condition on what follows: a word or a
number must not go on, a pair must not form, a line comment must have its line end, and a delimited
lexeme needs nothing at all. `Lexeme.next_again` states all of it once: a text that starts with none
of the few characters in `isJoint` may follow any lexeme but a line comment.

The module has two parts. The first one looks back: given a lexeme that was read, what does its kind
tell about its text and about what the scan looked at (`formed_next`, `of_braced`, `of_comment`,
`of_rbrace`)? Each of these goes through the classes once and shows that the other classes do not
give such a lexeme. Later modules that need another fact of this sort start from `next_eq`, too.

The second part looks ahead, with one lemma for each way to end a lexeme:

* `takeWhile_again`: what was taken as long as a test holds is taken again, if the test fails behind
  it.

* `items_again`, `delimited_again`: a literal or a set ends with its own closing delimiter, so it is
  read again before anything.

* `comment?_again`: a line comment is ended by what follows, a block comment by itself.

* `punctuation_again`: a single character must not form a pair with what follows.

Unclosed literals and sets are not among them. They start with an opener and are read as unknown
characters, and whether they stay so depends on the rest of the line; that is a condition of its own
where layouts are read again.
-/

namespace GrammarLayout

namespace Lexeme

/-! ### Classes of characters -/

/-- What the first character of a lexeme decides. The classes do not overlap, and two characters of
one class are read in the same way. -/
inductive CharClass
  | space
  | digit
  | upper
  | lower
  | quote
  | bracket
  | brace
  | slash
  | other
  deriving DecidableEq, Repr

/-- The class of a character. -/
def charClass (c : Char) : CharClass :=
  if isSpace c then .space
  else if c.isDigit then .digit
  else if c.isUpper then .upper
  else if c.isLower then .lower
  else if c = '\'' then .quote
  else if c = '[' then .bracket
  else if c = '\x7b' then .brace
  else if c = '/' then .slash
  else .other

/-- The lexeme that starts with a character of a class. This is `Lexeme.next` with its tests taken
out. -/
def nextOf (c : Char) (cs : List Char) : CharClass → Lexeme × List Char
  | .space => (plain .whitespace (c :: cs.takeWhile isSpace), cs.dropWhile isSpace)
  | .digit => (plain .int (c :: cs.takeWhile Char.isDigit), cs.dropWhile Char.isDigit)
  | .upper => (plain .tokenRef (c :: cs.takeWhile isWordChar), cs.dropWhile isWordChar)
  | .lower =>
    (plain (Kind.ofWord (c :: cs.takeWhile isWordChar)) (c :: cs.takeWhile isWordChar),
      cs.dropWhile isWordChar)
  | .quote => delimited .stringLiteral stopsLiteral '\'' c cs
  | .bracket => delimited .charSet stopsSet ']' c cs
  | .brace => (braced (Action.block cs).body (Action.block cs).closed, (Action.block cs).rest)
  | .slash =>
    match comment? cs with
    | some (l, r) => (plain (commentKind cs) (c :: l), r)
    | none => (unknown [c], cs)
  | .other => punctuation c cs

/-- The class of its first character decides how a lexeme is read. -/
theorem next_eq (c : Char) (cs : List Char) : next c cs = nextOf c cs (charClass c) := by
  unfold next charClass
  repeat' split
  all_goals first | rfl | (simp only [nextOf]; split <;> simp_all)

/-- What is known of a character of a class. Of the last class only what it is not matters, as the
characters in it are told apart by tables. -/
def CharClass.Holds (c : Char) : CharClass → Prop
  | .space => isSpace c = true
  | .digit => c.isDigit = true
  | .upper => c.isUpper = true
  | .lower => c.isLower = true
  | .quote => c = '\''
  | .bracket => c = '['
  | .brace => c = '\x7b'
  | .slash => c = '/'
  | .other => isSpace c = false ∧ c ≠ '\'' ∧ c ≠ '\x7b' ∧ c ≠ '/'

theorem holds_charClass (c : Char) : (charClass c).Holds c := by
  unfold charClass
  repeat' split
  all_goals simp_all [CharClass.Holds]

/-! ### Kinds of lexemes -/

/-- Whether the flat scan knows this kind. The other kinds are given later: doc comments among block
comments, braces and pieces among braced text, unknown characters and the end marker by themselves.
-/
def isFlat : Kind → Bool
  | .docComment | .lbrace | .beginAction | .actionContent | .endAction | .unknown | .eof => false
  | _ => true

theorem mem_of_lookup {ks : List (List Char × Kind)} {word : List Char} {k : Kind}
    (h : ks.lookup word = some k) : (word, k) ∈ ks := by
  induction ks with
  | nil => exact absurd h (by simp)
  | cons p ks ih =>
    rw [List.lookup_cons] at h
    split at h
    · rename_i hw
      rw [beq_iff_eq.1 hw, ← Option.some.inj h]
      exact List.mem_cons_self
    · exact List.mem_cons_of_mem _ (ih h)

/-- What is known of a lexeme whose kind the flat scan knows: blanks and comments show it. -/
structure Formed (kind : Kind) (text : List Char) : Prop where
  /-- The kind is one of the flat scan. -/
  flat : isFlat kind = true
  /-- Whitespace is made of spaces. -/
  space : kind = .whitespace → ∀ c ∈ text, isSpace c = true
  /-- A line comment starts with two slashes. -/
  line : kind = .lineComment → ['/', '/'] <+: text
  /-- A block comment starts with a slash and a star. -/
  block : kind = .blockComment → ['/', '*'] <+: text

theorem formed_of_ne {kind : Kind} (h : isFlat kind = true) (hs : kind ≠ .whitespace)
    (hl : kind ≠ .lineComment) (hb : kind ≠ .blockComment) (text : List Char) :
    Formed kind text :=
  ⟨h, fun hk ↦ absurd hk hs, fun hk ↦ absurd hk hl, fun hk ↦ absurd hk hb⟩

/-- The kinds of words: a keyword has its own, and every other word refers to a rule. -/
theorem ofWord_mem (word : List Char) :
    Kind.ofWord word ∈ Kind.ruleRef :: Kind.keywords.map Prod.snd := by
  rw [Kind.ofWord]
  cases h : Kind.keywords.lookup word with
  | none => exact List.mem_cons_self
  | some k => exact List.mem_cons_of_mem _ (List.mem_map.2 ⟨(word, k), mem_of_lookup h, rfl⟩)

theorem formed_ofWord (word text : List Char) : Formed (Kind.ofWord word) text := by
  have hk : ∀ k ∈ Kind.ruleRef :: Kind.keywords.map Prod.snd, isFlat k = true ∧
      k ≠ .whitespace ∧ k ≠ .lineComment ∧ k ≠ .blockComment := by decide
  obtain ⟨hf, hs, hl, hb⟩ := hk _ (ofWord_mem word)
  exact formed_of_ne hf hs hl hb text

theorem formed_ofPunctuation {c : Char} {kind : Kind} (h : Kind.ofPunctuation? c = some kind)
    (text : List Char) : Formed kind text := by
  unfold Kind.ofPunctuation? at h
  split at h <;> cases h <;> exact formed_of_ne (by decide) (by decide) (by decide) (by decide) _

theorem formed_ofPair {c d : Char} {kind : Kind} (h : Kind.ofPair? c d = some kind)
    (text : List Char) : Formed kind text := by
  unfold Kind.ofPair? at h
  split at h <;> cases h <;> exact formed_of_ne (by decide) (by decide) (by decide) (by decide) _

/-- A delimited lexeme that is closed has the kind and the text of its delimiters. One that is not
closed is no plain lexeme. -/
theorem of_delimited {k kind : Kind} {stops : Char → Bool} {closer opener : Char}
    {cs text rest : List Char} (h : delimited k stops closer opener cs = (plain kind text, rest)) :
    ∃ body, kind = k ∧ text = opener :: (body ++ [closer]) ∧
      items stops cs = (body, closer :: rest) := by
  unfold delimited at h
  split at h
  · simp at h
  · rename_i body c r hi
    split at h
    · rename_i hc
      simp only [Prod.mk.injEq, plain.injEq] at h
      obtain ⟨⟨rfl, rfl⟩, rfl⟩ := h
      exact ⟨body, rfl, by rw [hc], by rw [hi, hc]⟩
    · simp at h

/-- The characters that stand for themselves do so alone or in pairs. -/
theorem of_punctuation {c : Char} {cs text rest : List Char} {kind : Kind}
    (h : punctuation c cs = (plain kind text, rest)) :
    (Kind.ofPunctuation? c = some kind ∧ text = [c] ∧ rest = cs) ∨
      ∃ d ds, Kind.ofPair? c d = some kind ∧ text = [c, d] ∧ cs = d :: ds ∧ rest = ds := by
  have hs : punctuation.single c = plain kind text → Kind.ofPunctuation? c = some kind ∧
      text = [c] := by
    intro ht
    unfold punctuation.single at ht
    split at ht
    · rename_i hp
      obtain ⟨rfl, rfl⟩ := plain.inj ht
      exact ⟨hp, rfl⟩
    · exact absurd ht (by simp)
  unfold punctuation at h
  split at h
  · obtain ⟨ht, rfl⟩ := Prod.mk.inj h
    exact .inl ⟨(hs ht).1, (hs ht).2, rfl⟩
  · rename_i d ds
    split at h
    · rename_i hp
      obtain ⟨ht, rfl⟩ := Prod.mk.inj h
      obtain ⟨rfl, rfl⟩ := plain.inj ht
      exact .inr ⟨d, ds, hp, rfl, rfl, rfl⟩
    · obtain ⟨ht, rfl⟩ := Prod.mk.inj h
      exact .inl ⟨(hs ht).1, (hs ht).2, rfl⟩

/-- What the flat scan reads is formed as its kind says. For blanks and comments this shows in the
text; the other classes are ruled out by the kind. -/
theorem formed_next {c : Char} {cs text rest : List Char} {kind : Kind}
    (h : next c cs = (plain kind text, rest)) : Formed kind text := by
  have hc := holds_charClass c
  rw [next_eq] at h
  cases hk : charClass c with
  | space =>
    rw [hk] at h hc
    -- the whole run consists of spaces, its first character included
    simp only [nextOf, Prod.mk.injEq, plain.injEq] at h
    obtain ⟨⟨rfl, rfl⟩, -⟩ := h
    refine ⟨rfl, fun _ d hd ↦ ?_, fun h ↦ absurd h (by decide), fun h ↦ absurd h (by decide)⟩
    rcases List.mem_cons.1 hd with rfl | hd
    · exact hc
    · exact (List.all_eq_true.1 List.all_takeWhile) d hd
  | digit | upper =>
    rw [hk] at h
    simp only [nextOf, Prod.mk.injEq, plain.injEq] at h
    obtain ⟨⟨rfl, -⟩, -⟩ := h
    exact formed_of_ne rfl (by decide) (by decide) (by decide) _
  | lower =>
    rw [hk] at h
    simp only [nextOf, Prod.mk.injEq, plain.injEq] at h
    obtain ⟨⟨rfl, -⟩, -⟩ := h
    exact formed_ofWord _ _
  | quote | bracket =>
    rw [hk] at h
    obtain ⟨_, rfl, -, -⟩ := of_delimited h
    exact formed_of_ne rfl (by decide) (by decide) (by decide) _
  | brace => rw [hk] at h; simp [nextOf] at h
  | slash =>
    rw [hk] at h hc
    obtain rfl : c = '/' := hc
    simp only [nextOf] at h
    -- a slash starts one of the two comments here, or is a character by itself
    unfold comment? at h
    split at h
    · rename_i l r hl
      simp only [Prod.mk.injEq, plain.injEq] at h
      obtain ⟨⟨rfl, rfl⟩, -⟩ := h
      split at hl
      · simp only [Option.some.injEq, Prod.mk.injEq] at hl
        obtain ⟨rfl, -⟩ := hl
        exact ⟨rfl, fun h ↦ absurd h (by simp [commentKind]), fun _ ↦ ⟨_, rfl⟩,
          fun h ↦ absurd h (by simp [commentKind])⟩
      · simp only [Option.some.injEq, Prod.mk.injEq] at hl
        obtain ⟨rfl, -⟩ := hl
        exact ⟨rfl, fun h ↦ absurd h (by simp [commentKind]),
          fun h ↦ absurd h (by simp [commentKind]),
          fun _ ↦ ⟨_, rfl⟩⟩
      · exact absurd hl (by simp)
    · simp at h
  | other =>
    rw [hk] at h
    rcases of_punctuation h with ⟨hp, -, -⟩ | ⟨d, ds, hp, -, -, -⟩
    · exact formed_ofPunctuation hp _
    · exact formed_ofPair hp _

/-- Where a braced block is found, the scanner for actions has found it: no other character than the
brace starts one. -/
theorem of_braced {c : Char} {cs body rest : List Char} {closed : Bool}
    (h : next c cs = (braced body closed, rest)) :
    c = '\x7b' ∧ Action.block cs = ⟨body, closed, rest⟩ := by
  have hc := holds_charClass c
  rw [next_eq] at h
  cases hk : charClass c with
  | brace =>
    rw [hk] at h hc
    simp only [nextOf, Prod.mk.injEq, braced.injEq] at h
    obtain ⟨⟨rfl, rfl⟩, rfl⟩ := h
    exact ⟨hc, rfl⟩
  | other =>
    rw [hk] at h
    simp only [nextOf] at h
    unfold punctuation punctuation.single at h
    repeat' split at h
    all_goals simp at h
  | quote | bracket =>
    rw [hk] at h
    simp only [nextOf] at h
    unfold delimited at h
    repeat' split at h
    all_goals simp at h
  | slash =>
    rw [hk] at h
    simp only [nextOf] at h
    split at h <;> simp at h
  | space | digit | upper | lower => rw [hk] at h; simp [nextOf] at h

/-- Only comments have the kinds of plain comments, so a lexeme of such a kind starts with a slash
and is what the scan for comments gives. -/
theorem of_comment {c : Char} {cs text rest : List Char} {kind : Kind}
    (h : next c cs = (plain kind text, rest)) (hk : kind = .lineComment ∨ kind = .blockComment) :
    ∃ l, c = '/' ∧ text = '/' :: l ∧ comment? cs = some (l, rest) ∧ commentKind cs = kind := by
  have hc := holds_charClass c
  rw [next_eq] at h
  cases hcl : charClass c with
  | slash =>
    rw [hcl] at h hc
    obtain rfl : c = '/' := hc
    simp only [nextOf] at h
    split at h
    · rename_i l r hcom
      simp only [Prod.mk.injEq, plain.injEq] at h
      obtain ⟨⟨rfl, rfl⟩, rfl⟩ := h
      exact ⟨l, rfl, rfl, hcom, rfl⟩
    · simp at h
  | brace => rw [hcl] at h; simp [nextOf] at h
  | space | digit | upper =>
    rw [hcl] at h
    simp only [nextOf, Prod.mk.injEq, plain.injEq] at h
    rw [← h.1.1] at hk
    exact absurd hk (by decide)
  -- words have the kind of a keyword or of a rule name, none of which is a comment
  | lower =>
    rw [hcl] at h
    simp only [nextOf, Prod.mk.injEq, plain.injEq] at h
    have hw : ∀ k ∈ Kind.ruleRef :: Kind.keywords.map Prod.snd,
        ¬(k = .lineComment ∨ k = .blockComment) := by decide
    exact absurd hk (hw kind (h.1.1 ▸ ofWord_mem _))
  | quote | bracket =>
    rw [hcl] at h
    obtain ⟨_, rfl, -, -⟩ := of_delimited h
    exact absurd hk (by decide)
  | other =>
    rw [hcl] at h
    rcases of_punctuation h with ⟨hp, -, -⟩ | ⟨d, ds, hp, -, -, -⟩
    · unfold Kind.ofPunctuation? at hp
      split at hp <;> first | (cases hp; exact absurd hk (by decide)) | exact absurd hp (by simp)
    · unfold Kind.ofPair? at hp
      split at hp <;> first | (cases hp; exact absurd hk (by decide)) | exact absurd hp (by simp)

/-- A closing brace by itself. It is read where no block is open for the scanner, be it in the text
or in the body of a block. -/
theorem of_rbrace {c : Char} {cs text rest : List Char}
    (h : next c cs = (plain .rbrace text, rest)) :
    c = '\x7d' ∧ text = ['\x7d'] ∧ rest = cs := by
  rw [next_eq] at h
  cases hcl : charClass c with
  | other =>
    rw [hcl] at h
    rcases of_punctuation h with ⟨hp, rfl, rfl⟩ | ⟨d, ds, hp, -, -, -⟩
    · have hc : c = '\x7d' := by
        unfold Kind.ofPunctuation? at hp
        split at hp <;> first | rfl | exact absurd hp (by simp)
      rw [hc]
      exact ⟨rfl, rfl, rfl⟩
    · unfold Kind.ofPair? at hp
      split at hp <;> exact absurd hp (by simp)
  -- an opening brace starts a lexeme in braces and never one of plain kind
  | brace => rw [hcl] at h; simp [nextOf] at h
  | space | digit | upper => rw [hcl] at h; simp [nextOf] at h
  | lower =>
    rw [hcl] at h
    simp only [nextOf, Prod.mk.injEq, plain.injEq] at h
    have hw : ∀ k ∈ Kind.ruleRef :: Kind.keywords.map Prod.snd, k ≠ .rbrace := by decide
    exact absurd h.1.1 (hw _ (ofWord_mem _))
  | quote | bracket =>
    rw [hcl] at h
    obtain ⟨_, hk, -, -⟩ := of_delimited h
    exact absurd hk (by decide)
  | slash =>
    rw [hcl] at h
    simp only [nextOf] at h
    split at h
    · simp only [Prod.mk.injEq, plain.injEq] at h
      have hk := h.1.1
      unfold commentKind at hk
      split at hk <;> exact absurd hk (by decide)
    · simp at h

/-- Characters that open a lexeme which has to be closed, or a comment. -/
def isOpener (c : Char) : Bool := c == '\'' || c == '[' || c == '/'

/-- What starts no lexeme is an opener, or a character by itself. -/
theorem charClass_of_unknown {c : Char} {cs text rest : List Char}
    (h : next c cs = (unknown text, rest)) (ho : isOpener c = false) : charClass c = .other := by
  have hc := holds_charClass c
  rw [next_eq] at h
  cases hcl : charClass c with
  | other => rfl
  | quote | bracket | slash =>
    rw [hcl] at hc
    rw [show c = _ from hc] at ho
    exact absurd ho (by decide)
  | space | digit | upper | lower | brace => rw [hcl] at h; simp [nextOf] at h

/-- What follows a lexeme is known by its text. -/
theorem next_eq_of_text {c : Char} {cs rest : List Char} {l : Lexeme}
    (h : (next c (cs ++ rest)).1 = l) (ht : l.text = c :: cs) :
    next c (cs ++ rest) = (l, rest) := by
  have happ := next_append c (cs ++ rest)
  rw [h, ht, ← List.cons_append] at happ
  exact Prod.ext h (List.append_cancel_left happ)

/-! ### Reading again -/

/-- Characters that could go on with a word, a number or a pair. They are few: word characters, and
the second characters of pairs. -/
def isJoint (c : Char) : Bool := isWordChar c || c == ':' || c == '>' || c == '=' || c == '.'

/-- A text that may follow a lexeme: a parenthesis is never gone on with, and nothing that starts
with another character than the joints goes on with a lexeme. The condition does not look at the
kind of the lexeme, so it can be checked on a page without reading it. -/
def Apart (text rest : List Char) : Prop := text = ['('] ∨ ∀ c ∈ rest.head?, isJoint c = false

/-- A block comment with its terminator. -/
def ClosedComment (text : List Char) : Prop := ['*', '/'] <:+ text.drop 2

/-- What was taken from a text as long as a test holds, before a text that fails the test. -/
theorem takeWhile_again {p : Char → Bool} (cs : List Char) {rest : List Char}
    (h : ∀ c ∈ rest.head?, p c = false) :
    (cs.takeWhile p ++ rest).takeWhile p = cs.takeWhile p ∧
      (cs.takeWhile p ++ rest).dropWhile p = rest := by
  have hall : ∀ c ∈ cs.takeWhile p, p c = true := fun c hc ↦
    (List.all_eq_true.1 List.all_takeWhile) c hc
  rw [List.takeWhile_append_of_pos hall, List.dropWhile_append_of_pos hall]
  match rest with
  | [] => simp
  | d :: rest =>
    have hd := h d rfl
    rw [List.takeWhile_cons_of_neg (by simp [hd]), List.dropWhile_cons_of_neg (by simp [hd])]
    simp

/-- The items of a literal or a set, up to the character that ends it. Escapes are items of two
characters, so a closing delimiter behind a backslash does not end them. -/
theorem items_again {stops : Char → Bool} {cs body rest : List Char} {d : Char}
    (h : items stops cs = (body, d :: rest)) (hd : stops d = true) (hb : d ≠ '\\')
    (rest' : List Char) : items stops (body ++ d :: rest') = (body, d :: rest') := by
  fun_induction items stops cs generalizing body with
  | case1 => simp at h
  | case2 =>
    simp only [Prod.mk.injEq, List.cons.injEq] at h
    exact absurd h.2.1.symm hb
  | case3 =>
    simp only [Prod.mk.injEq, List.cons.injEq] at h
    exact absurd h.2.1.symm hb
  | case4 e ds he ih =>
    simp only [Prod.mk.injEq] at h
    obtain ⟨rfl, hr⟩ := h
    have hi := ih (show items stops ds = ((items stops ds).1, _) by rw [← hr])
    simp [items, he, hi]
  | case5 c cs hc hs =>
    simp only [Prod.mk.injEq, List.cons.injEq] at h
    obtain ⟨rfl, rfl, -⟩ := h
    unfold items
    simp [hd, hb]
  | case6 c cs hc hs ih =>
    simp only [Prod.mk.injEq] at h
    obtain ⟨rfl, hr⟩ := h
    have hi := ih (show items stops cs = ((items stops cs).1, _) by rw [← hr])
    rw [List.cons_append]
    conv_lhs => unfold items
    rw [if_neg hc, if_neg hs, hi]

/-- A literal or a set that is closed is read again before any text. -/
theorem delimited_again {k kind : Kind} {stops : Char → Bool} {closer opener : Char}
    {cs text rest : List Char} (h : delimited k stops closer opener cs = (plain kind text, rest))
    (hd : stops closer = true) (hb : closer ≠ '\\') (rest' : List Char) :
    delimited k stops closer opener (text.tail ++ rest') = (plain kind text, rest') := by
  obtain ⟨body, rfl, rfl, hi⟩ := of_delimited h
  have ha := items_again hi hd hb rest'
  rw [delimited, List.tail_cons, List.append_assoc, List.singleton_append, ha]
  simp

/-- A block comment that has its terminator ends there again. -/
theorem blockComment_again {cs : List Char} (h : ['*', '/'] <:+ (blockComment cs).1)
    (rest : List Char) :
    blockComment ((blockComment cs).1 ++ rest) = ((blockComment cs).1, rest) := by
  fun_induction blockComment cs with
  | case1 => simp at h
  | case2 cs => rfl
  | case3 c cs hc ih =>
    have happ := blockComment_append cs
    generalize (blockComment cs).1 = l at h ih happ
    have hnot : ∀ ds, c = '*' → l ++ rest = '/' :: ds → l ≠ [] → False := by
      intro ds hc' hl hne
      obtain ⟨x, l', rfl⟩ := List.exists_cons_of_ne_nil hne
      obtain ⟨rfl, -⟩ := List.cons.inj hl
      exact hc _ hc' happ.symm
    rcases List.suffix_cons_iff.1 h with he | hsuf
    · obtain ⟨rfl, rfl⟩ := List.cons.inj he
      exact absurd happ.symm (hc _ rfl)
    · have hne : l ≠ [] := fun hn ↦ by rw [hn] at hsuf; exact absurd hsuf (by simp)
      rw [List.cons_append, blockComment, ih hsuf]
      exact fun ds hc' hl ↦ hnot ds hc' hl hne

/-- A comment is read again, with the same kind: a line comment before a line end or at the end of
the text, a block comment if it has its terminator. -/
theorem comment?_again {cs l r : List Char} (h : comment? cs = some (l, r)) {rest : List Char}
    (hl : commentKind cs = .lineComment → ∀ c ∈ rest.head?, endsLine c = true)
    (hb : commentKind cs = .blockComment → ['*', '/'] <:+ l.drop 1) :
    comment? (l ++ rest) = some (l, rest) ∧ commentKind (l ++ rest) = commentKind cs := by
  unfold comment? at h
  split at h
  · rename_i cs
    simp only [Option.some.injEq, Prod.mk.injEq] at h
    obtain ⟨rfl, -⟩ := h
    have hr : ∀ c ∈ rest.head?, (!endsLine c) = false := fun c hc ↦ by
      simp [hl (by simp [commentKind]) c hc]
    obtain ⟨ht, hd⟩ := takeWhile_again cs hr
    refine ⟨?_, by simp [commentKind]⟩
    simp only [lineComment, List.cons_append, comment?] at ht hd ⊢
    rw [ht, hd]
  · rename_i cs
    simp only [Option.some.injEq, Prod.mk.injEq] at h
    obtain ⟨rfl, -⟩ := h
    refine ⟨?_, by simp [commentKind]⟩
    rw [List.cons_append, comment?, blockComment_again (hb (by simp [commentKind]))]
  · exact absurd h (by simp)

theorem isWordChar_of_not_isJoint {c : Char} (h : isJoint c = false) : isWordChar c = false := by
  simp only [isJoint, Bool.or_eq_false_iff] at h
  exact h.1.1.1.1

theorem isDigit_of_not_isJoint {c : Char} (h : isJoint c = false) : c.isDigit = false := by
  have hw := isWordChar_of_not_isJoint h
  simp only [isWordChar, Char.isAlphanum, Bool.or_eq_false_iff] at hw
  exact hw.1.2

/-- No pair is formed with a character that is not a joint, nor after a parenthesis. The pairs are
those of the table, which is small enough to be gone through. -/
theorem ofPair?_eq_none {c d : Char} (h : c = '(' ∨ isJoint d = false) :
    Kind.ofPair? c d = none := by
  unfold Kind.ofPair?
  split
  all_goals first | rfl | exact absurd h (by decide)

/-- The characters that stand for themselves are read again, alone or in pairs. One that was read
alone may not find a partner in what follows now. -/
theorem punctuation_again {c : Char} {cs : List Char} {l : Lexeme} {rest : List Char}
    (h : punctuation c cs = (l, rest)) {rest' : List Char} (ha : Apart l.text rest') :
    punctuation c (l.text.tail ++ rest') = (l, rest') := by
  have htext : (punctuation.single c).text = [c] := by
    unfold punctuation.single
    split <;> rfl
  have hsingle : l = punctuation.single c → punctuation c (l.text.tail ++ rest') = (l, rest') := by
    rintro rfl
    rw [htext] at ha ⊢
    rw [List.tail_cons, List.nil_append]
    match rest' with
    | [] => rfl
    | d :: ds =>
      have hp : Kind.ofPair? c d = none :=
        ofPair?_eq_none (ha.imp (fun h ↦ (List.cons.inj h).1) fun h ↦ h d rfl)
      simp only [punctuation, hp]
  unfold punctuation at h
  split at h
  · exact hsingle (Prod.mk.inj h).1.symm
  · split at h
    · rename_i kind hp
      obtain ⟨rfl, -⟩ := Prod.mk.inj h
      simp [text, punctuation, hp]
    · exact hsingle (Prod.mk.inj h).1.symm

/-- **A lexeme is read again** before any text that does not go on with it: a line comment has to
have its line end, and a block comment its terminator. Whitespace is left out, since more of it may
follow; the layout writes its own. -/
theorem next_again {c : Char} {cs text rest : List Char} {kind : Kind}
    (h : next c cs = (plain kind text, rest)) (hs : kind ≠ .whitespace) {rest' : List Char}
    (ha : Apart text rest')
    (hl : kind = .lineComment → ∀ d ∈ rest'.head?, endsLine d = true)
    (hb : kind = .blockComment → ClosedComment text) :
    next c (text.tail ++ rest') = (plain kind text, rest') := by
  -- only a parenthesis may be followed by anything
  have hapart : c ≠ '(' → text.head? = some c → ∀ d ∈ rest'.head?, isJoint d = false := by
    intro hne hhead
    refine ha.resolve_left fun ht ↦ hne ?_
    rw [ht] at hhead
    exact (Option.some.inj hhead).symm
  rw [next_eq] at h
  rw [next_eq]
  cases hk : charClass c with
  | space =>
    rw [hk] at h
    simp only [nextOf, Prod.mk.injEq, plain.injEq] at h
    exact absurd h.1.1.symm hs
  | digit =>
    rw [hk] at h
    simp only [nextOf, Prod.mk.injEq, plain.injEq] at h
    obtain ⟨⟨rfl, rfl⟩, -⟩ := h
    -- a digit is no parenthesis, so what follows starts with no joint
    have hne : c ≠ '(' := by rintro rfl; exact absurd hk (by decide)
    obtain ⟨ht, hd⟩ := takeWhile_again (p := Char.isDigit) cs
      fun d hd ↦ isDigit_of_not_isJoint (hapart hne rfl d hd)
    rw [nextOf, List.tail_cons, ht, hd]
  | upper =>
    rw [hk] at h
    simp only [nextOf, Prod.mk.injEq, plain.injEq] at h
    obtain ⟨⟨rfl, rfl⟩, -⟩ := h
    have hne : c ≠ '(' := by rintro rfl; exact absurd hk (by decide)
    obtain ⟨ht, hd⟩ := takeWhile_again (p := isWordChar) cs
      fun d hd ↦ isWordChar_of_not_isJoint (hapart hne rfl d hd)
    rw [nextOf, List.tail_cons, ht, hd]
  | lower =>
    rw [hk] at h
    simp only [nextOf, Prod.mk.injEq, plain.injEq] at h
    obtain ⟨⟨rfl, rfl⟩, -⟩ := h
    have hne : c ≠ '(' := by rintro rfl; exact absurd hk (by decide)
    obtain ⟨ht, hd⟩ := takeWhile_again (p := isWordChar) cs
      fun d hd ↦ isWordChar_of_not_isJoint (hapart hne rfl d hd)
    rw [nextOf, List.tail_cons, ht, hd]
  | quote =>
    rw [hk] at h
    exact delimited_again h (by decide) (by decide) rest'
  | bracket =>
    rw [hk] at h
    exact delimited_again h (by decide) (by decide) rest'
  | brace => rw [hk] at h; simp [nextOf] at h
  | slash =>
    rw [hk] at h
    simp only [nextOf] at h
    split at h
    · rename_i l r hcom
      simp only [Prod.mk.injEq, plain.injEq] at h
      obtain ⟨⟨rfl, rfl⟩, -⟩ := h
      obtain ⟨hcom', hkind⟩ := comment?_again hcom hl hb
      rw [nextOf, List.tail_cons, hcom', hkind]
    · simp at h
  | other =>
    rw [hk] at h
    exact punctuation_again (l := plain kind text) h ha

/-- A character that starts no lexeme is read again before any text that does not go on with it. -/
theorem next_unknown_again {c : Char} {cs text rest : List Char}
    (h : next c cs = (unknown text, rest)) (hk : charClass c = .other) {rest' : List Char}
    (ha : Apart text rest') : text = [c] ∧ next c rest' = (unknown text, rest') := by
  rw [next_eq, hk] at h
  have hp := punctuation_again (l := unknown text) h ha
  have htext : text = [c] := by
    have happ := punctuation_append c cs
    rw [nextOf] at h
    unfold punctuation punctuation.single at h
    split at h
    · split at h <;> simp_all
    · split at h
      · simp at h
      · split at h <;> simp_all
  refine ⟨htext, ?_⟩
  rw [next_eq, hk, nextOf]
  rw [htext] at hp ⊢
  exact hp

end Lexeme

end GrammarLayout
