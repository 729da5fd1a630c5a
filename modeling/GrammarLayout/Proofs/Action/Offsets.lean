import GrammarLayout.Proofs.Action.Agreement

/-!
# Pieces by their bytes

The pieces of an action can be found without splitting its text: the scanner below walks over the
bytes of a body and says for each piece where it starts and stops. It looks at one byte to choose
what to do. Literals and comments are measured in bytes, as when the end of a block is looked for;
after a backslash, and where nothing else applies, a whole character is taken.

The end of a piece is clamped between the next byte and the end of the body, so the scanner would
stop and stay inside the body even if a measure were wrong. None is: the spans are those of the
pieces (`pieceSpans_eq`), and the clamp changes nothing.
-/

namespace GrammarLayout.Action

/-- The byte after the character that starts at a byte of a body, or that byte itself if no
character starts there. -/
def charEnd (body : String) (i : Nat) : Nat :=
  match slice? body i body.utf8ByteSize with
  | some (c :: _) => i + c.utf8Size
  | _ => i

/-- The byte after the piece that starts at a byte of a body. -/
def pieceEnd (body : String) (i : Nat) : Nat :=
  match body.toUTF8.data.toList.drop i with
  | [] => i
  | b :: bs =>
    if b = byteOf '\\' then charEnd body (i + 1)
    else if b = byteOf '\'' ∨ b = byteOf '"' then i + 1 + (literalLength? b bs).getD 0
    else if b = byteOf '/' then
      match commentLength? bs with
      | some n => i + 1 + n
      | none => charEnd body i
    else charEnd body i

/-- Where the pieces of a body start and stop, from a byte on. -/
def pieceSpans (body : String) (i : Nat) : List (Nat × Nat) :=
  if i < body.utf8ByteSize then
    let stop := max (min (pieceEnd body i) body.utf8ByteSize) (i + 1)
    (i, stop) :: pieceSpans body stop
  else []
termination_by body.utf8ByteSize - i

section

variable {body : String} {pre cs : List Char} {c : Char}

/-- The bytes from a boundary on are those of the text from there on. -/
theorem drop_toUTF8 (h : body.toList = pre ++ cs) :
    body.toUTF8.data.toList.drop (byteLength pre) = utf8Bytes cs := by
  rw [toList_toUTF8]
  exact drop_utf8Bytes h.symm

theorem slice?_of_toList (h : body.toList = pre ++ cs) :
    slice? body (byteLength pre) body.utf8ByteSize = some cs :=
  slice?_eq_some_iff.2 ⟨pre, [], by rw [h, List.append_nil], rfl, by
    rw [utf8ByteSize_eq, h, byteLength_append]⟩

/-- A character ends where the next one starts. -/
theorem charEnd_of_cons (h : body.toList = pre ++ c :: cs) :
    charEnd body (byteLength pre) = byteLength pre + c.utf8Size := by
  rw [charEnd, slice?_of_toList h]

/-- No character starts at the end. -/
theorem charEnd_of_nil (h : body.toList = pre) : charEnd body (byteLength pre) = byteLength pre := by
  have hs : slice? body (byteLength pre) body.utf8ByteSize = some [] :=
    slice?_of_toList (by rw [h, List.append_nil])
  rw [charEnd, hs]

/-- A backslash takes the character after it along. -/
theorem pieceEnd_backslash (h : body.toList = pre ++ '\\' :: cs) :
    pieceEnd body (byteLength pre) = byteLength pre + byteLength ('\\' :: (piece '\\' cs).1) := by
  obtain ⟨hbytes, hsize⟩ := utf8Bytes_cons_ascii (c := '\\') (by decide) cs
  have hpre : byteLength pre + 1 = byteLength (pre ++ ['\\']) := by
    rw [byteLength_append, byteLength_cons, hsize, byteLength_nil]
  have hsplit : body.toList = pre ++ ['\\'] ++ cs := by rw [h, List.append_assoc]; rfl
  rw [pieceEnd, drop_toUTF8 h, hbytes]
  dsimp only
  rw [if_pos rfl, hpre, piece, if_pos rfl]
  cases cs with
  | nil => rw [charEnd_of_nil (hsplit.trans (List.append_nil _))]; simp
  | cons d ds => rw [charEnd_of_cons hsplit]; simp [Nat.add_assoc]

/-- A quote takes its literal along. -/
theorem pieceEnd_quote (hq : isQuote c = true) (h : body.toList = pre ++ c :: cs) :
    pieceEnd body (byteLength pre) = byteLength pre + byteLength (c :: (piece c cs).1) := by
  have hc : c = '\'' ∨ c = '"' := by simpa [isQuote] using hq
  have hascii : c.toNat < 128 := by rcases hc with rfl | rfl <;> decide
  have hne : c ≠ '\\' := by rintro rfl; exact absurd hq (by decide)
  have hb : byteOf c ≠ byteOf '\\' ∧ (byteOf c = byteOf '\'' ∨ byteOf c = byteOf '"') := by
    rcases hc with rfl | rfl <;> decide
  obtain ⟨hbytes, hsize⟩ := utf8Bytes_cons_ascii hascii cs
  rw [pieceEnd, drop_toUTF8 h, hbytes]
  dsimp only
  rw [if_neg hb.1, if_pos hb.2, literalLength?_utf8Bytes hascii, piece, if_neg hne, if_pos hq,
    byteLength_cons, hsize]
  cases literal? c cs <;> simp [Nat.add_assoc]

/-- A slash takes its comment along. -/
theorem pieceEnd_slash (h : body.toList = pre ++ '/' :: cs) :
    pieceEnd body (byteLength pre) = byteLength pre + byteLength ('/' :: (piece '/' cs).1) := by
  obtain ⟨hbytes, hsize⟩ := utf8Bytes_cons_ascii (c := '/') (by decide) cs
  rw [pieceEnd, drop_toUTF8 h, hbytes]
  dsimp only
  rw [if_neg (by decide), if_neg (by decide), if_pos rfl, commentLength?_utf8Bytes, piece,
    if_neg (by decide), if_neg (by decide), if_pos rfl, byteLength_cons, hsize]
  cases comment? cs with
  | none => rw [Option.map_none]; exact (charEnd_of_cons h).trans (by rw [hsize]; rfl)
  | some p => rw [Option.map_some, Option.getD_some]; exact Nat.add_assoc ..

/-- Any other character is a piece by itself. -/
theorem pieceEnd_other (h : body.toList = pre ++ c :: cs) (hb : c ≠ '\\') (hq : isQuote c = false)
    (hs : c ≠ '/') :
    pieceEnd body (byteLength pre) = byteLength pre + byteLength (c :: (piece c cs).1) := by
  obtain ⟨b, us, hbytes, -, -, htell⟩ := exists_bytes c cs
  have hq' : ¬ (b = byteOf '\'' ∨ b = byteOf '"') := by
    rw [htell _ (by decide), htell _ (by decide)]
    rintro (rfl | rfl) <;> exact absurd hq (by decide)
  rw [pieceEnd, drop_toUTF8 h, hbytes]
  dsimp only
  rw [if_neg (by rwa [htell _ (by decide)]), if_neg hq', if_neg (by rwa [htell _ (by decide)]),
    charEnd_of_cons h, piece, if_neg hb, if_neg (by simp [hq]), if_neg hs]
  rfl

/-- A piece ends after its last character. -/
theorem pieceEnd_eq (h : body.toList = pre ++ c :: cs) :
    pieceEnd body (byteLength pre) = byteLength pre + byteLength (c :: (piece c cs).1) := by
  by_cases hb : c = '\\'
  · subst hb
    exact pieceEnd_backslash h
  cases hq : isQuote c with
  | true => exact pieceEnd_quote hq h
  | false =>
    by_cases hs : c = '/'
    · subst hs
      exact pieceEnd_slash h
    · exact pieceEnd_other h hb hq hs

end

/-- The spans from a boundary on are those of the pieces of the text from there on. -/
theorem pieceSpans_byteLength {body : String} {pre cs : List Char} (h : body.toList = pre ++ cs) :
    pieceSpans body (byteLength pre) = byteSpans (byteLength pre) (pieces cs) := by
  fun_induction pieces cs generalizing pre with
  | case1 =>
    have hlen : body.utf8ByteSize = byteLength pre := by
      rw [utf8ByteSize_eq, h, List.append_nil]
    rw [pieceSpans, if_neg (by omega)]
    rfl
  | case2 c cs ih =>
    have hsplit : body.toList = pre ++ (c :: (piece c cs).1) ++ (piece c cs).2 := by
      rw [h, List.append_assoc, List.cons_append, piece_append]
    have hlen : body.utf8ByteSize =
        byteLength pre + byteLength (c :: (piece c cs).1) + byteLength (piece c cs).2 := by
      rw [utf8ByteSize_eq, hsplit, byteLength_append, byteLength_append]
    have hpos : 0 < byteLength (c :: (piece c cs).1) := byteLength_pos (by simp)
    -- a piece is not empty and ends inside the body, so its end is not moved
    have hclamp : max (min (pieceEnd body (byteLength pre)) body.utf8ByteSize)
        (byteLength pre + 1) = byteLength pre + byteLength (c :: (piece c cs).1) := by
      rw [pieceEnd_eq h]
      omega
    have hrest := ih hsplit
    rw [byteLength_append] at hrest
    rw [pieceSpans, if_pos (by omega), byteSpans]
    dsimp only
    rw [hclamp, hrest]

/-- **The scanner of bytes finds the pieces** of every body, each where it stands. -/
theorem pieceSpans_eq (body : String) : pieceSpans body 0 = byteSpans 0 (pieces body.toList) :=
  have h : body.toList = [] ++ body.toList := rfl
  pieceSpans_byteLength h

/-- A backslash before a character of two bytes, a literal, and a quote without a partner. -/
example : pieceSpans "\\éx'y'\"" 0 = [(0, 3), (3, 4), (4, 7), (7, 8)] := by decide +kernel

end GrammarLayout.Action
