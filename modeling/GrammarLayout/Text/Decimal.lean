/-!
# Numbers as text

A floating-point number is written with the fewest digits that read back as the same number, the
nearest of them where several do, and always without an exponent. The search is in exact arithmetic
on natural numbers: the numbers that read back as `m * 2 ^ q` are those between the midpoints to its
two neighbours, and the midpoints themselves count if `m` is even.
-/

namespace GrammarLayout

/-- The number that decimal digits stand for. -/
def decimalValue (digits : List Char) : Nat :=
  digits.foldl (fun n c => 10 * n + (c.toNat - '0'.toNat)) 0

/-- The number that a text of decimal digits stands for; nothing if it is empty or has other
characters. -/
def decimalValue? (digits : List Char) : Option Nat :=
  if digits.isEmpty || !digits.all Char.isDigit then none else some (decimalValue digits)

/-- A non-negative number as a fraction. -/
structure Fraction where
  /-- The numerator. -/
  num : Nat
  /-- The denominator. -/
  den : Nat

namespace Fraction

/-- The number `n * base ^ e`. -/
def scaled (n base : Nat) (e : Int) : Fraction :=
  if 0 ≤ e then ⟨n * base.pow e.toNat, 1⟩ else ⟨n, base.pow (-e).toNat⟩

/-- The quotient of two numbers. -/
def div (a b : Fraction) : Fraction := ⟨a.num * b.den, a.den * b.num⟩

/-- The largest integer that is not larger. -/
def floor (a : Fraction) : Nat := a.num / a.den

/-- Whether one number is less than another. -/
def lt (a b : Fraction) : Bool := a.num * b.den < b.num * a.den

/-- Whether one number is at most another. -/
def le (a b : Fraction) : Bool := a.num * b.den ≤ b.num * a.den

end Fraction

/-- A finite positive number `m * 2 ^ q`, and whether the number below it is only half as far away
as the one above. -/
structure Binary where
  /-- The significand. -/
  m : Nat
  /-- The exponent. -/
  q : Int
  /-- Whether the gap below is half the gap above. -/
  narrowBelow : Bool

namespace Binary

/-- The number itself. -/
def value (b : Binary) : Fraction := .scaled (4 * b.m) 2 (b.q - 2)

/-- The midpoint to the number below. -/
def low (b : Binary) : Fraction := .scaled (4 * b.m - if b.narrowBelow then 1 else 2) 2 (b.q - 2)

/-- The midpoint to the number above. -/
def high (b : Binary) : Fraction := .scaled (4 * b.m + 2) 2 (b.q - 2)

/-- Whether a number reads back as this one. -/
def readsBack (b : Binary) (x : Fraction) : Bool :=
  if b.m % 2 = 0 then b.low.le x && x.le b.high else b.low.lt x && x.lt b.high

/-- The exponent `e` with `10 ^ (e - 1) ≤ value < 10 ^ e`, searched downwards from `e`. -/
def magnitude (b : Binary) : (steps : Nat) → (e : Int) → Int
  | 0, e => e
  | steps + 1, e =>
    if (Fraction.scaled 1 10 (e - 1)).le b.value then e else magnitude b steps (e - 1)

/-- The nearest decimal with `n` digits that reads back, if there is one: its digits as a number,
and the power of ten they count. -/
def withDigits? (b : Binary) (magnitude : Int) (n : Nat) : Option (Nat × Int) :=
  let e := magnitude - n
  let unit := Fraction.scaled 1 10 e
  let d := (b.value.div unit).floor
  let below := Fraction.scaled d 10 e
  let above := Fraction.scaled (d + 1) 10 e
  -- `below` is nearer exactly if the value is not past the middle of the two.
  let middle := if 0 ≤ e then Fraction.scaled ((2 * d + 1) * Nat.pow 10 e.toNat) 2 (-1)
    else ⟨2 * d + 1, 2 * Nat.pow 10 (-e).toNat⟩
  if b.value.le middle then
    if b.readsBack below && d != 0 then some (d, e)
    else if b.readsBack above then some (d + 1, e) else none
  else if b.readsBack above then some (d + 1, e)
  else if b.readsBack below && d != 0 then some (d, e) else none

/-- The shortest decimal that reads back. -/
def shortest (b : Binary) : Nat × Int :=
  let magnitude := b.magnitude 700 310
  ((List.range 17).findSome? fun n => b.withDigits? magnitude (n + 1)).getD (0, 0)

end Binary

/-- Digits that count a power of ten, written without an exponent. -/
def positional (digits : Nat) (e : Int) : String :=
  let text := (Nat.toDigits 10 digits)
  if 0 ≤ e then String.ofList (text ++ List.replicate e.toNat '0')
  else
    let places := (-e).toNat
    let padded := List.replicate (places + 1 - text.length) '0' ++ text
    let whole := padded.take (padded.length - places)
    let part := (padded.drop (padded.length - places)).reverse.dropWhile (· == '0')
    if part.isEmpty then String.ofList whole
    else String.ofList (whole ++ '.' :: part.reverse)

/-- The number that the bits of a finite positive floating-point number stand for. -/
def Binary.ofBits (bits : Nat) : Binary :=
  let fraction : Nat := bits % Nat.pow 2 52
  let exponent : Nat := bits / Nat.pow 2 52 % Nat.pow 2 11
  if exponent = 0 then ⟨fraction, -1074, false⟩
  else ⟨fraction + Nat.pow 2 52, (exponent : Int) - 1075, fraction = 0 && 1 < exponent⟩

/-- A floating-point number as text. -/
def floatText (x : Float) : String :=
  let bits := x.toBits.toNat
  if x.isNaN then "NaN"
  else
    let sign := if Nat.pow 2 63 ≤ bits then "-" else ""
    let size : Nat := bits % Nat.pow 2 63
    if x.isInf then sign ++ "inf"
    else if size = 0 then sign ++ "0"
    else
      let (digits, e) := (Binary.ofBits size).shortest
      sign ++ positional digits e

end GrammarLayout
