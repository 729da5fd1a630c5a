/-!
# Texts as bytes

Spans of tokens and limits of sinks count UTF-8 bytes. `byteLength` measures a text without
encoding it, `utf8Bytes` encodes it, and `textOfBytes` reads bytes that need not encode a text: they
may have been cut in the middle of a character, or never have been a text at all.
-/

namespace GrammarLayout

/-- The number of bytes a text takes in UTF-8. -/
def byteLength : List Char → Nat
  | [] => 0
  | c :: cs => c.utf8Size + byteLength cs

@[simp] theorem byteLength_nil : byteLength [] = 0 := rfl

@[simp] theorem byteLength_cons (c : Char) (cs : List Char) :
    byteLength (c :: cs) = c.utf8Size + byteLength cs := rfl

@[simp] theorem byteLength_append (as bs : List Char) :
    byteLength (as ++ bs) = byteLength as + byteLength bs := by
  induction as with
  | nil => simp
  | cons c as ih => simp [ih, Nat.add_assoc]

/-- Where texts that follow each other start and stop, the first of them at an offset. -/
def byteSpans (offset : Nat) : List (List Char) → List (Nat × Nat)
  | [] => []
  | cs :: rest => (offset, offset + byteLength cs) :: byteSpans (offset + byteLength cs) rest

/-- The bytes of a text in UTF-8. -/
def utf8Bytes (cs : List Char) : List UInt8 := cs.flatMap String.utf8EncodeChar

theorem length_utf8Bytes (cs : List Char) : (utf8Bytes cs).length = byteLength cs := by
  induction cs with
  | nil => rfl
  | cons c cs ih => simp [utf8Bytes, ← ih]

/-! ### Bytes that may not be a text -/

/-- The ranges of the bytes that follow a leading byte in the encoding of a character; nothing if
no character starts with the byte. -/
def followers? (lead : Nat) : Option (List (Nat × Nat)) :=
  let any := (0x80, 0xBF)
  if lead ≤ 0x7F then some []
  else if 0xC2 ≤ lead ∧ lead ≤ 0xDF then some [any]
  else if lead = 0xE0 then some [(0xA0, 0xBF), any]
  else if lead = 0xED then some [(0x80, 0x9F), any]
  else if 0xE1 ≤ lead ∧ lead ≤ 0xEF then some [any, any]
  else if lead = 0xF0 then some [(0x90, 0xBF), any, any]
  else if lead = 0xF4 then some [(0x80, 0x8F), any, any]
  else if 0xF1 ≤ lead ∧ lead ≤ 0xF3 then some [any, any, any]
  else none

/-- How many bytes at the start of some bytes are in their ranges. -/
def countFollowers : List (Nat × Nat) → List UInt8 → Nat
  | (low, high) :: ranges, b :: bs =>
    if low ≤ b.toNat ∧ b.toNat ≤ high then countFollowers ranges bs + 1 else 0
  | _, _ => 0

/-- The character that a leading byte and the bytes after it encode. -/
def decodedChar (lead : Nat) (followers : List UInt8) : Char :=
  let start := if lead < 0x80 then lead else lead % Nat.pow 2 (6 - followers.length)
  Char.ofNat (followers.foldl (fun n b => 64 * n + b.toNat % 64) start)

/-- Reads bytes as a text. Where they are none, U+FFFD stands for the longest run of bytes that
could have started a character, or else for one byte. -/
def decodeLossy : List UInt8 → List Char
  | [] => []
  | b :: bs =>
    match followers? b.toNat with
    | none => '\ufffd' :: decodeLossy bs
    | some ranges =>
      let n := countFollowers ranges bs
      let c := if n = ranges.length then decodedChar b.toNat (bs.take n) else '\ufffd'
      c :: decodeLossy (bs.drop n)
termination_by bytes => bytes.length
decreasing_by all_goals simp only [List.length_cons, List.length_drop]; omega

/-- Reads bytes as a text, with U+FFFD where they are none. -/
def textOfBytes (bytes : ByteArray) : String :=
  match String.fromUTF8? bytes with
  | some text => text
  | none => String.ofList (decodeLossy bytes.data.toList)

end GrammarLayout
