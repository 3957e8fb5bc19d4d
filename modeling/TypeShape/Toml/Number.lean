import TypeShape.Toml.Text

/-!
# Numbers of TOML documents

Integers are written in base ten, sixteen, eight or two and have 64 bits with a sign.  Decimal
fractions are rounded to 64 bits; one so large that it would round to infinity is refused.

Main definitions: `Toml.isInteger`, `Toml.isFraction`.
-/

namespace TypeShape
namespace Toml

/-! ## Digits -/

/-- A digit of a base up to sixteen. -/
def isDigitOf (base : Nat) (c : Char) : Bool :=
  (hexDigit? c).any (· < base)

/-- Digits of a base with single underscores between them. -/
def isDigits (base : Nat) : List Char → Bool
  | [] => false
  | [c] => isDigitOf base c
  | c :: '_' :: cs => isDigitOf base c && isDigits base cs
  | c :: cs => isDigitOf base c && isDigits base cs

/-- The digits without the underscores between them. -/
def dropUnderscores (cs : List Char) : List Char :=
  cs.filter (· ≠ '_')

/-- The number that digits of a base spell. -/
def digitsNumber (base : Nat) (cs : List Char) : Nat :=
  (dropUnderscores cs).foldl (fun n c => base * n + (hexDigit? c).getD 0) 0

/-- Splits off a sign and tells whether it is a minus. -/
def splitSign : List Char → Bool × List Char
  | '+' :: cs => (false, cs)
  | '-' :: cs => (true, cs)
  | cs => (false, cs)

/-- Digits of a decimal number without a leading zero. -/
def isWhole (cs : List Char) : Bool :=
  cs == ['0'] || (isDigits 10 cs && cs.head? != some '0')

/-! ## Integers -/

/-- The first number that is too large for an integer. -/
def integerBound : Nat :=
  9223372036854775808

/-- Digits of a base that spell an integer without a sign. -/
def isNatural (base : Nat) (cs : List Char) : Bool :=
  isDigits base cs && decide (digitsNumber base cs < integerBound)

/-- Digits of base ten that spell an integer after a sign.  There is one more below zero than
above it. -/
def isSigned (negative : Bool) (cs : List Char) : Bool :=
  isWhole cs && decide (digitsNumber 10 cs < integerBound + if negative then 1 else 0)

/-- An integer of base ten, sixteen, eight or two. -/
def isInteger (cs : List Char) : Bool :=
  match cs with
  | '0' :: 'x' :: ds => isNatural 16 ds
  | '0' :: 'o' :: ds => isNatural 8 ds
  | '0' :: 'b' :: ds => isNatural 2 ds
  | cs => isSigned (splitSign cs).1 (splitSign cs).2

/-! ## Fractions -/

/-- The parts of a decimal fraction: its digits before and after the point, and its exponent.  A
part that is not written is `none`. -/
structure Fraction where
  negative : Bool
  whole : List Char
  decimals : Option (List Char)
  exponent : Option (List Char)

namespace Fraction

/-- Cuts a text at the sign, the point and the mark of the exponent. -/
def split (cs : List Char) : Fraction :=
  let (negative, digits) := splitSign cs
  let inMantissa := fun c : Char => c ≠ 'e' && c ≠ 'E'
  let mantissa := digits.takeWhile inMantissa
  { negative
    whole := mantissa.takeWhile (· ≠ '.')
    decimals := (mantissa.dropWhile (· ≠ '.')).tail?
    exponent := (digits.dropWhile inMantissa).tail? }

/-- The parts hold digits, and the decimals or the exponent are written. -/
def isWellFormed (f : Fraction) : Bool :=
  isWhole f.whole && f.decimals.all (isDigits 10) &&
    f.exponent.all (fun e => isDigits 10 (splitSign e).2) &&
    (f.decimals.isSome || f.exponent.isSome)

/-- All digits of the number, without a point and without zeros before them. -/
def digits (f : Fraction) : List Char :=
  (dropUnderscores (f.whole ++ f.decimals.getD [])).dropWhile (· == '0')

/-- The power of ten that the digits, read as one number, are multiplied by. -/
def scale (f : Fraction) : Int :=
  let (negative, exponent) := splitSign (f.exponent.getD [])
  let shift := digitsNumber 10 exponent
  (if negative then -(shift : Int) else shift) - (dropUnderscores (f.decimals.getD [])).length

/-- The first number that rounds to infinity: the middle between the largest finite number and
the next power of two. -/
def overflowBound : Nat :=
  Nat.pow 2 1024 - Nat.pow 2 970

/-- The size of the number reaches `overflowBound`.  A number with as many digits before the point
as the bound, 309, is compared with it; one with fewer is smaller and one with more is larger. -/
def overflows (f : Fraction) : Bool :=
  let places := f.digits.length + f.scale
  !f.digits.isEmpty &&
    (decide (309 < places) ||
      (places == 309 && decide (overflowBound * Nat.pow 10 (-f.scale).toNat ≤
        digitsNumber 10 f.digits * Nat.pow 10 f.scale.toNat)))

end Fraction

/-- A decimal fraction.  One above zero is finite; below zero there is no bound. -/
def isFraction (cs : List Char) : Bool :=
  let f := Fraction.split cs
  f.isWellFormed && (f.negative || !f.overflows)

end Toml
end TypeShape
