import GrammarLayout.Action.Basic
import GrammarLayout.Text.Utf8

/-!
# Blocks, byte by byte

The end of a block can be found without decoding the text. The scanner below looks at single bytes
and never at characters: a backslash makes it skip the next byte, which may be the first of several
that make up a character, and then it goes on in the middle of that character.

That it finds the same end (`blockLength_utf8Bytes`) rests on one property of the encoding: every
byte of a character outside ASCII is 128 or more, so none of them is one the scanner acts on
(`exists_bytes`). Such bytes are passed one by one by all parts of the scanner, wherever among them
it starts.

The scanner is given by lengths, not by texts: `literalLength?`, `commentLength?` and `blockLength`
say how many bytes a literal, a comment or a block takes, and each is compared with the length of
the text that its counterpart over characters returns. The comparisons all have one shape. The first
byte of a character decides like the character does, for it equals the byte of an ASCII character
only if the character is that one. The bytes after it are high, and high bytes are passed, counted
one by one (`literalLength?_high`, `blockCommentLength_high`, `blockLength_high`).

A backslash is where the two scanners part ways for a moment. Over characters it takes the next
character along, over bytes only the first byte of it. What is left of that character consists of
high bytes, so the scanner of bytes passes them, and both are at the next character again.
-/

namespace GrammarLayout.Action

/-! ### Scanning bytes -/

/-- The byte of an ASCII character. It is used for the few characters that the scanner acts on. -/
def byteOf (c : Char) : UInt8 := UInt8.ofNat c.toNat

/-- Whether a byte ends a line. -/
def endsLineByte (b : UInt8) : Bool := b == byteOf '\n' || b == byteOf '\r'

/-- The bytes of a literal after its opening quote, closing quote included. -/
def literalLength? (quote : UInt8) : List UInt8 → Option Nat
  | [] => none
  | b :: bs =>
    if b = byteOf '\\' then
      match bs with
      | [] => none
      | _ :: ds => (literalLength? quote ds).map (· + 2)
    else if endsLineByte b then none
    else if b = quote then some 1
    else (literalLength? quote bs).map (· + 1)

/-- The bytes of a block comment after its opener, terminator included. A comment that is not
terminated takes all the bytes there are. -/
def blockCommentLength : List UInt8 → Nat
  | [] => 0
  | b :: bs =>
    if b = byteOf '*' ∧ bs.head? = some (byteOf '/') then 2 else blockCommentLength bs + 1

/-- The bytes of a comment after its first slash; nothing if the slash does not open a comment. -/
def commentLength? : List UInt8 → Option Nat
  | [] => none
  | b :: bs =>
    if b = byteOf '/' then some ((bs.takeWhile (!endsLineByte ·)).length + 1)
    else if b = byteOf '*' then some (blockCommentLength bs + 1)
    else none

/-- The bytes of a block after its opening brace, closing brace included, and whether that brace was
found; `depth` braces have been opened inside it so far. -/
def blockLength (depth : Nat) : List UInt8 → Nat × Bool
  | [] => (0, false)
  | b :: bs =>
    let skip (n : Nat) (r : Nat × Bool) := (n + r.1, r.2)
    if b = byteOf '\\' then
      match bs with
      | [] => (1, false)
      | _ :: ds => skip 2 (blockLength depth ds)
    else if b = byteOf '\'' ∨ b = byteOf '"' then
      let n := (literalLength? b bs).getD 0
      skip (n + 1) (blockLength depth (bs.drop n))
    else if b = byteOf '/' then
      let n := (commentLength? bs).getD 0
      skip (n + 1) (blockLength depth (bs.drop n))
    else if b = byteOf '\x7b' then skip 1 (blockLength (depth + 1) bs)
    else if b = byteOf '\x7d' then
      match depth with
      | 0 => (1, true)
      | n + 1 => skip 1 (blockLength n bs)
    else skip 1 (blockLength depth bs)
termination_by bs => bs.length
decreasing_by all_goals simp only [List.length_cons, List.length_drop]; omega

/-! ### Bytes of characters -/

/-- A byte that no ASCII character is encoded by: the bytes of the other characters, first or later.
-/
def IsHigh (b : UInt8) : Prop := 128 ≤ b.toNat

theorem byteOf_toNat {d : Char} (hd : d.toNat < 128) : (byteOf d).toNat = d.toNat := by
  rw [byteOf, UInt8.toNat_ofNat']
  omega

/-- ASCII characters are told apart by their bytes. -/
theorem byteOf_inj {c d : Char} (hc : c.toNat < 128) (hd : d.toNat < 128)
    (h : byteOf c = byteOf d) : c = d := by
  have hn := congrArg UInt8.toNat h
  rw [byteOf_toNat hc, byteOf_toNat hd] at hn
  exact Char.toNat_inj.1 hn

theorem not_isHigh_byteOf {d : Char} (hd : d.toNat < 128) : ¬ IsHigh (byteOf d) := by
  rw [IsHigh, byteOf_toNat hd]
  omega

theorem isHigh_ofNat {n : Nat} (h : 128 ≤ n) (hn : n < 256) : IsHigh (UInt8.ofNat n) := by
  rw [IsHigh, UInt8.toNat_ofNat']
  omega

/-- All bytes of a character outside ASCII are high, in each of the three lengths of its encoding.
-/
theorem isHigh_of_mem {c : Char} (hc : 128 ≤ c.toNat) :
    ∀ u ∈ String.utf8EncodeChar c, IsHigh u := by
  have hv : ¬ c.val.toNat ≤ 127 := by
    rw [Char.toNat] at hc
    omega
  rw [String.utf8EncodeChar, if_neg hv]
  split
  · rename_i hle
    simp only [List.forall_mem_cons, List.not_mem_nil, false_imp_iff, implies_true, and_true]
    exact ⟨isHigh_ofNat (by omega) (by omega), isHigh_ofNat (by omega) (by omega)⟩
  split
  · simp only [List.forall_mem_cons, List.not_mem_nil, false_imp_iff, implies_true, and_true]
    exact ⟨isHigh_ofNat (by omega) (by omega), isHigh_ofNat (by omega) (by omega),
      isHigh_ofNat (by omega) (by omega)⟩
  · simp only [List.forall_mem_cons, List.not_mem_nil, false_imp_iff, implies_true, and_true]
    exact ⟨isHigh_ofNat (by omega) (by omega), isHigh_ofNat (by omega) (by omega),
      isHigh_ofNat (by omega) (by omega), isHigh_ofNat (by omega) (by omega)⟩

/-- The text of an ASCII character and what follows it. -/
theorem utf8Bytes_cons_ascii {c : Char} (hc : c.toNat < 128) (cs : List Char) :
    utf8Bytes (c :: cs) = byteOf c :: utf8Bytes cs ∧ c.utf8Size = 1 := by
  have he : String.utf8EncodeChar c = [byteOf c] := by
    rw [String.utf8EncodeChar, if_pos (show c.val.toNat ≤ 127 from Nat.le_of_lt_succ hc)]
    rfl
  refine ⟨by rw [utf8Bytes, List.flatMap_cons, he]; rfl, ?_⟩
  rw [← String.length_utf8EncodeChar, he]
  rfl

/-- **The bytes of a character** and what follows it: the first byte tells the character from all
ASCII characters but itself, and the others are high. -/
theorem exists_bytes (c : Char) (cs : List Char) :
    ∃ b us, utf8Bytes (c :: cs) = b :: (us ++ utf8Bytes cs) ∧ us.length + 1 = c.utf8Size ∧
      (∀ u ∈ us, IsHigh u) ∧ ∀ d : Char, d.toNat < 128 → (b = byteOf d ↔ c = d) := by
  by_cases hc : c.toNat < 128
  · obtain ⟨hb, hs⟩ := utf8Bytes_cons_ascii hc cs
    exact ⟨byteOf c, [], hb, hs.symm, by simp, fun d hd ↦ ⟨byteOf_inj hc hd, fun h ↦ h ▸ rfl⟩⟩
  · have hhigh := isHigh_of_mem (Nat.le_of_not_lt hc)
    have hs := String.length_utf8EncodeChar c
    cases he : String.utf8EncodeChar c with
    | nil => exact absurd he String.utf8EncodeChar_ne_nil
    | cons b us =>
      rw [he, List.forall_mem_cons] at hhigh
      rw [he, List.length_cons] at hs
      refine ⟨b, us, by rw [utf8Bytes, List.flatMap_cons, he]; rfl, hs, hhigh.2,
        fun d hd ↦ ⟨fun hb ↦ ?_, fun h ↦ absurd hd (h ▸ hc)⟩⟩
      exact absurd (hb ▸ hhigh.1) (not_isHigh_byteOf hd)

/-- What starts with the byte of an ASCII character starts with that character. -/
theorem exists_cons_of_head?_utf8Bytes {d : Char} (hd : d.toNat < 128) {cs : List Char}
    (h : (utf8Bytes cs).head? = some (byteOf d)) : ∃ cs', cs = d :: cs' := by
  cases cs with
  | nil => exact absurd h (by simp [utf8Bytes])
  | cons c cs =>
    obtain ⟨b, us, hbytes, -, -, htell⟩ := exists_bytes c cs
    rw [hbytes, List.head?_cons, Option.some.injEq] at h
    exact ⟨cs, by rw [(htell d hd).1 h]⟩

/-! ### Literals and comments -/

theorem ne_byteOf {u : UInt8} (h : IsHigh u) {d : Char} (hd : d.toNat < 128) : u ≠ byteOf d := by
  rintro rfl
  exact not_isHigh_byteOf hd h

theorem endsLineByte_of_isHigh {u : UInt8} (h : IsHigh u) : endsLineByte u = false := by
  rw [endsLineByte, beq_eq_false_iff_ne.2 (ne_byteOf h (by decide)),
    beq_eq_false_iff_ne.2 (ne_byteOf h (by decide))]
  rfl

/-- A byte that tells its character apart ends a line if the character does. -/
theorem endsLineByte_eq {b : UInt8} {c : Char}
    (h : ∀ d : Char, d.toNat < 128 → (b = byteOf d ↔ c = d)) : endsLineByte b = endsLine c := by
  rw [Bool.eq_iff_iff, endsLineByte, endsLine]
  simp only [Bool.or_eq_true, beq_iff_eq]
  rw [h '\n' (by decide), h '\r' (by decide)]

/-- High bytes belong to a literal. -/
theorem literalLength?_high {q : Char} (hq : q.toNat < 128) {us : List UInt8}
    (hu : ∀ u ∈ us, IsHigh u) (bs : List UInt8) :
    literalLength? (byteOf q) (us ++ bs) =
      (literalLength? (byteOf q) bs).map (us.length + ·) := by
  induction us with
  | nil => simp
  | cons u us ih =>
    rw [List.forall_mem_cons] at hu
    rw [List.cons_append, literalLength?.eq_def]
    dsimp only
    rw [if_neg (ne_byteOf hu.1 (by decide)), endsLineByte_of_isHigh hu.1,
      if_neg Bool.false_ne_true, if_neg (ne_byteOf hu.1 hq), ih hu.2, Option.map_map]
    congr 1
    funext n
    simp only [Function.comp_apply, List.length_cons]
    omega

/-- **A literal is as long** as its text, and is closed in both or in neither. -/
theorem literalLength?_utf8Bytes {q : Char} (hq : q.toNat < 128) (cs : List Char) :
    literalLength? (byteOf q) (utf8Bytes cs) = (literal? q cs).map (byteLength ·.1) := by
  fun_induction literal? q cs with
  | case1 => rfl
  | case2 =>
    rw [(utf8Bytes_cons_ascii (by decide) _).1]
    simp [utf8Bytes, literalLength?]
  | case3 d ds ih =>
    -- over bytes only the first byte of the escaped character is taken along, and the others are
    -- high
    obtain ⟨hslash, hsize⟩ := utf8Bytes_cons_ascii (c := '\\') (by decide) (d :: ds)
    obtain ⟨b, us, hb, hlen, hu, -⟩ := exists_bytes d ds
    rw [hslash, hb, literalLength?, if_pos rfl, literalLength?_high hq hu, ih]
    simp only [Option.map_map]
    congr 1
    funext p
    simp only [Function.comp_apply, byteLength_cons, hsize]
    omega
  | case4 c cs hb he =>
    obtain ⟨b, us, hbytes, -, -, htell⟩ := exists_bytes c cs
    rw [hbytes, literalLength?.eq_def]
    dsimp only
    rw [if_neg (by rwa [htell _ (by decide)]), endsLineByte_eq htell, if_pos he]
    rfl
  | case5 cs hb he =>
    -- the closing quote
    obtain ⟨hquote, hsize⟩ := utf8Bytes_cons_ascii hq cs
    have htell : ∀ d : Char, d.toNat < 128 → (byteOf q = byteOf d ↔ q = d) := fun d hd ↦
      ⟨byteOf_inj hq hd, fun h ↦ h ▸ rfl⟩
    rw [hquote, literalLength?.eq_def]
    dsimp only
    rw [if_neg (by rwa [htell _ (by decide)]), endsLineByte_eq htell, if_neg he, if_pos rfl]
    simp [hsize]
  | case6 c cs hb he hcq ih =>
    -- any other character: its first byte is passed like it, and the rest as high bytes
    obtain ⟨b, us, hbytes, hlen, hu, htell⟩ := exists_bytes c cs
    rw [hbytes, literalLength?.eq_def]
    dsimp only
    rw [if_neg (by rwa [htell _ (by decide)]), endsLineByte_eq htell, if_neg he,
      if_neg (by rwa [htell _ hq]), literalLength?_high hq hu, ih]
    simp only [Option.map_map]
    congr 1
    funext p
    simp only [Function.comp_apply, byteLength_cons]
    omega

/-- A line comment is as long as its text. -/
theorem length_takeWhile_utf8Bytes (cs : List Char) :
    ((utf8Bytes cs).takeWhile (!endsLineByte ·)).length = byteLength (lineComment cs).1 := by
  induction cs with
  | nil => rfl
  | cons c cs ih =>
    obtain ⟨b, us, hbytes, hlen, hu, htell⟩ := exists_bytes c cs
    rw [hbytes, lineComment, List.takeWhile_cons, List.takeWhile_cons, endsLineByte_eq htell]
    cases endsLine c with
    | true => rfl
    | false =>
      have hpass : ∀ u ∈ us, (!endsLineByte u) = true := fun u hm ↦ by
        simp [endsLineByte_of_isHigh (hu u hm)]
      rw [lineComment] at ih
      simp only [Bool.not_false, if_true, List.length_cons, byteLength_cons]
      rw [List.takeWhile_append_of_pos hpass, List.length_append, ih]
      dsimp only
      omega

/-- High bytes belong to a block comment. -/
theorem blockCommentLength_high {us : List UInt8} (hu : ∀ u ∈ us, IsHigh u) (bs : List UInt8) :
    blockCommentLength (us ++ bs) = us.length + blockCommentLength bs := by
  induction us with
  | nil => simp
  | cons u us ih =>
    rw [List.forall_mem_cons] at hu
    have hne : ¬ (u = byteOf '*' ∧ (us ++ bs).head? = some (byteOf '/')) := fun h ↦
      ne_byteOf hu.1 (by decide) h.1
    rw [List.cons_append, blockCommentLength, if_neg hne, ih hu.2, List.length_cons]
    omega

/-- A block comment is as long as its text. -/
theorem blockCommentLength_utf8Bytes (cs : List Char) :
    blockCommentLength (utf8Bytes cs) = byteLength (blockComment cs).1 := by
  fun_induction blockComment cs with
  | case1 => rfl
  | case2 cs =>
    rw [(utf8Bytes_cons_ascii (by decide) _).1, (utf8Bytes_cons_ascii (by decide) _).1,
      blockCommentLength, if_pos ⟨rfl, rfl⟩]
    rfl
  | case3 c cs hne ih =>
    obtain ⟨b, us, hbytes, hlen, hu, htell⟩ := exists_bytes c cs
    have hne' : ¬ (b = byteOf '*' ∧ (us ++ utf8Bytes cs).head? = some (byteOf '/')) := by
      rintro ⟨hstar, hslash⟩
      obtain rfl := (htell '*' (by decide)).1 hstar
      obtain rfl : us = [] := List.length_eq_zero_iff.1 (Nat.succ.inj hlen)
      obtain ⟨cs', rfl⟩ := exists_cons_of_head?_utf8Bytes (by decide) hslash
      exact hne cs' rfl rfl
    rw [hbytes, blockCommentLength, if_neg hne', blockCommentLength_high hu, ih, byteLength_cons]
    omega

/-- **A comment is as long** as its text. -/
theorem commentLength?_utf8Bytes (cs : List Char) :
    commentLength? (utf8Bytes cs) = (comment? cs).map (byteLength ·.1) := by
  cases cs with
  | nil => rfl
  | cons c cs =>
    obtain ⟨b, us, hbytes, hlen, hu, htell⟩ := exists_bytes c cs
    by_cases hs : c = '/'
    · subst hs
      obtain ⟨hbytes, hsize⟩ := utf8Bytes_cons_ascii (c := '/') (by decide) cs
      rw [hbytes, commentLength?, if_pos rfl, length_takeWhile_utf8Bytes, comment?,
        Option.map_some, byteLength_cons, hsize, Nat.add_comm]
    by_cases ha : c = '*'
    · subst ha
      obtain ⟨hbytes, hsize⟩ := utf8Bytes_cons_ascii (c := '*') (by decide) cs
      rw [hbytes, commentLength?, if_neg (by decide), if_pos rfl, blockCommentLength_utf8Bytes,
        comment?, Option.map_some, byteLength_cons, hsize, Nat.add_comm]
    · rw [hbytes, commentLength?, if_neg (by rwa [htell _ (by decide)]),
        if_neg (by rwa [htell _ (by decide)]), comment?.eq_def]
      split <;> simp_all

/-! ### Blocks -/

theorem utf8Bytes_append (cs ds : List Char) :
    utf8Bytes (cs ++ ds) = utf8Bytes cs ++ utf8Bytes ds :=
  List.flatMap_append

/-- What follows a text follows its bytes. -/
theorem drop_utf8Bytes {cs l r : List Char} (h : l ++ r = cs) :
    (utf8Bytes cs).drop (byteLength l) = utf8Bytes r := by
  rw [← h, utf8Bytes_append, List.drop_left' (length_utf8Bytes l)]

/-- The length of a block with a text in front. -/
theorem byteLength_text_push (cs : List Char) (b : Block) :
    byteLength (b.push cs).text = byteLength cs + byteLength b.text := by
  simp [Block.text]

/-- What the scanner of bytes finds for a block. -/
def Block.measure (b : Block) : Nat × Bool := (byteLength b.text, b.closed)

/-- What is passed in front of a block is added to its length. -/
theorem measure_push (cs : List Char) (b : Block) :
    (b.push cs).measure = (byteLength cs + b.measure.1, b.measure.2) := by
  rw [Block.measure, byteLength_text_push]
  rfl

/-- The characters that a block does not pass by themselves have a byte each. -/
theorem lt_of_mem_special :
    ∀ d ∈ ['\\', '\'', '"', '/', '\x7b', '\x7d'], d.toNat < 128 := by
  simp

/-- A byte that is passed by itself, as the scanner does not act on it. -/
theorem blockLength_other (depth : Nat) {b : UInt8} (bs : List UInt8)
    (h : ∀ d ∈ ['\\', '\'', '"', '/', '\x7b', '\x7d'], b ≠ byteOf d) :
    blockLength depth (b :: bs) = (1 + (blockLength depth bs).1, (blockLength depth bs).2) := by
  rw [blockLength.eq_def]
  dsimp only
  rw [if_neg (h _ (by simp)), if_neg (not_or.2 ⟨h _ (by simp), h _ (by simp)⟩),
    if_neg (h _ (by simp)), if_neg (h _ (by simp)), if_neg (h _ (by simp))]

/-- High bytes belong to a block. -/
theorem blockLength_high (depth : Nat) {us : List UInt8} (hu : ∀ u ∈ us, IsHigh u)
    (bs : List UInt8) :
    blockLength depth (us ++ bs) =
      (us.length + (blockLength depth bs).1, (blockLength depth bs).2) := by
  induction us with
  | nil => simp
  | cons u us ih =>
    rw [List.forall_mem_cons] at hu
    have hne : ∀ d ∈ ['\\', '\'', '"', '/', '\x7b', '\x7d'], u ≠ byteOf d := fun d hd ↦
      ne_byteOf hu.1 (lt_of_mem_special d hd)
    rw [List.cons_append, blockLength_other depth _ hne, ih hu.2]
    simp only [List.length_cons, Prod.mk.injEq, and_true]
    omega

/-- A quote is passed with its literal, or by itself. The rest of the block starts behind the
literal. -/
theorem blockLength_quote (depth : Nat) {q : Char} (hq : isQuote q = true) (bs : List UInt8) :
    blockLength depth (byteOf q :: bs) =
      ((literalLength? (byteOf q) bs).getD 0 + 1 +
          (blockLength depth (bs.drop ((literalLength? (byteOf q) bs).getD 0))).1,
        (blockLength depth (bs.drop ((literalLength? (byteOf q) bs).getD 0))).2) := by
  have hc : q = '\'' ∨ q = '"' := by simpa [isQuote] using hq
  have hb : byteOf q ≠ byteOf '\\' ∧ (byteOf q = byteOf '\'' ∨ byteOf q = byteOf '"') := by
    rcases hc with rfl | rfl <;> decide
  rw [blockLength.eq_def]
  dsimp only
  rw [if_neg hb.1, if_pos hb.2]

/-- A slash is passed with its comment, or by itself. -/
theorem blockLength_slash (depth : Nat) (bs : List UInt8) :
    blockLength depth (byteOf '/' :: bs) =
      ((commentLength? bs).getD 0 + 1 + (blockLength depth (bs.drop ((commentLength? bs).getD 0))).1,
        (blockLength depth (bs.drop ((commentLength? bs).getD 0))).2) := by
  rw [blockLength.eq_def]
  dsimp only
  rw [if_neg (by decide), if_neg (by decide), if_pos rfl]

/-- **The scanner of bytes finds the same end** as the scanner of characters, and finds a closing
brace if and only if that one does. The induction follows the scanner of characters. -/
theorem blockLength_utf8Bytes (depth : Nat) (cs : List Char) :
    blockLength depth (utf8Bytes cs) = (blockFrom depth cs).measure := by
  fun_induction blockFrom depth cs with
  | case1 =>
    rw [utf8Bytes, List.flatMap_nil, blockLength.eq_def]
    rfl
  | case2 depth =>
    rw [(utf8Bytes_cons_ascii (by decide) _).1, utf8Bytes, List.flatMap_nil, blockLength.eq_def]
    rfl
  | case3 depth d ds ih =>
    obtain ⟨hslash, hsize⟩ := utf8Bytes_cons_ascii (c := '\\') (by decide) (d :: ds)
    obtain ⟨b, us, hb, hlen, hu, -⟩ := exists_bytes d ds
    rw [hslash, hb, blockLength.eq_def]
    dsimp only
    -- the byte that is skipped is the first one of the character after the backslash
    rw [if_pos rfl, blockLength_high depth hu, ih, measure_push]
    simp only [byteLength_cons, byteLength_nil, hsize, Prod.mk.injEq, and_true]
    omega
  | case4 depth c cs _ hq l r h ih =>
    have hascii : c.toNat < 128 := by
      have hc : c = '\'' ∨ c = '"' := by simpa [isQuote] using hq
      rcases hc with rfl | rfl <;> decide
    obtain ⟨hbytes, hsize⟩ := utf8Bytes_cons_ascii hascii cs
    have hlen := literalLength?_utf8Bytes hascii cs
    rw [h, Option.map_some] at hlen
    rw [hbytes, blockLength_quote depth hq, hlen, Option.getD_some,
      drop_utf8Bytes (literal?_append h), ih, measure_push, byteLength_cons, hsize,
      Nat.add_comm 1]
  | case5 depth c cs _ hq h ih =>
    have hascii : c.toNat < 128 := by
      have hc : c = '\'' ∨ c = '"' := by simpa [isQuote] using hq
      rcases hc with rfl | rfl <;> decide
    obtain ⟨hbytes, hsize⟩ := utf8Bytes_cons_ascii hascii cs
    have hlen := literalLength?_utf8Bytes hascii cs
    rw [h, Option.map_none] at hlen
    rw [hbytes, blockLength_quote depth hq, hlen, Option.getD_none, List.drop_zero, ih,
      measure_push, byteLength_cons, hsize, byteLength_nil]
  | case6 depth cs l r h _ _ ih =>
    obtain ⟨hbytes, hsize⟩ := utf8Bytes_cons_ascii (c := '/') (by decide) cs
    have hlen := commentLength?_utf8Bytes cs
    rw [h, Option.map_some] at hlen
    rw [hbytes, blockLength_slash, hlen, Option.getD_some, drop_utf8Bytes (comment?_append h), ih,
      measure_push, byteLength_cons, hsize, Nat.add_comm 1]
  | case7 depth cs h _ _ ih =>
    obtain ⟨hbytes, hsize⟩ := utf8Bytes_cons_ascii (c := '/') (by decide) cs
    have hlen := commentLength?_utf8Bytes cs
    rw [h, Option.map_none] at hlen
    rw [hbytes, blockLength_slash, hlen, Option.getD_none, List.drop_zero, ih, measure_push,
      byteLength_cons, hsize, byteLength_nil]
  | case8 depth cs _ _ _ ih =>
    obtain ⟨hbytes, hsize⟩ := utf8Bytes_cons_ascii (c := '\x7b') (by decide) cs
    rw [hbytes, blockLength.eq_def]
    dsimp only
    rw [if_neg (by decide), if_neg (by decide), if_neg (by decide), if_pos rfl, ih, measure_push,
      byteLength_cons, hsize, byteLength_nil]
  | case9 cs _ _ _ _ =>
    obtain ⟨hbytes, -⟩ := utf8Bytes_cons_ascii (c := '\x7d') (by decide) cs
    rw [hbytes, blockLength.eq_def]
    rfl
  | case10 cs _ _ _ _ n ih =>
    obtain ⟨hbytes, hsize⟩ := utf8Bytes_cons_ascii (c := '\x7d') (by decide) cs
    rw [hbytes, blockLength.eq_def]
    dsimp only
    rw [if_neg (by decide), if_neg (by decide), if_neg (by decide), if_neg (by decide),
      if_pos rfl, ih, measure_push, byteLength_cons, hsize, byteLength_nil]
  | case11 depth c cs hb hq hs ho hc ih =>
    obtain ⟨b, us, hbytes, hlen, hu, htell⟩ := exists_bytes c cs
    have hne : ∀ d ∈ ['\\', '\'', '"', '/', '\x7b', '\x7d'], b ≠ byteOf d := by
      intro d hd
      rw [Ne, htell d (lt_of_mem_special d hd)]
      rintro rfl
      simp only [List.mem_cons, List.not_mem_nil, or_false] at hd
      rcases hd with rfl | rfl | rfl | rfl | rfl | rfl <;> simp_all [isQuote]
    rw [hbytes, blockLength_other depth _ hne, blockLength_high depth hu, ih, measure_push,
      byteLength_cons, byteLength_nil]
    simp only [Prod.mk.injEq, and_true]
    omega

end GrammarLayout.Action
