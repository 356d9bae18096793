import JsonStream.Binary64.Basic
import JsonStream.Number.Literal

/-!
# Reading decimals as binary64

A decimal denotes an exact rational number and is read as the nearest binary64 number, a tie going
to the even significand. `ofRatio` rounds an exact ratio. `ofDecimal` applies it to a decimal, and
answers directly where the exponent alone decides, so that no power of ten is computed that is far
outside the range.

The exponent of a literal is bounded while it is read: once the number read has reached `2 ^ 16`,
further digits are passed over. `readExponent_eq_value` says that an exponent below the bound is
read exactly. A longer one can show the difference only beside tens of thousands of other digits,
since any shorter literal is zero or infinite with either reading.
-/

namespace JsonStream

/-- The natural number nearest to a quotient; a tie goes to the even neighbour. -/
def roundHalfEven (num den : Nat) : Nat :=
  let quotient := num / den
  let remainder := num % den
  if 2 * remainder < den then quotient
  else if den < 2 * remainder then quotient + 1
  else quotient + quotient % 2

namespace Binary64

/-- The magnitude bits of the number nearest to `num / den`.

In units of the smallest subnormal number the ratio is `num * 2 ^ 1074 / den`. Numbers of more
than 53 bits are rounded on a grid that is coarser by the surplus, and a carry out of the
significand lands in the exponent bits, where it belongs. -/
def nearestMagnitude (num den : Nat) : Nat :=
  let scaled := num <<< 1074
  let surplus := Nat.log2 (scaled / den) - 52
  min (surplus * hiddenBit + roundHalfEven scaled (den <<< surplus)) infinityBits

/-- The number nearest to `± num / den`; what is too large becomes infinite. -/
def ofRatio (negative : Bool) (num den : Nat) : Binary64 :=
  ofMagnitude negative (nearestMagnitude num den)

/-- The number nearest to `± coefficient * 10 ^ exponent`. -/
def ofDecimal (negative : Bool) (coefficient : Nat) (exponent : Int) : Binary64 :=
  if coefficient = 0 then ofMagnitude negative 0
  else if 310 ≤ exponent then ofMagnitude negative infinityBits
  else if exponent + (Nat.log2 coefficient + 1 : Nat) ≤ -325 then ofMagnitude negative 0
  else if 0 ≤ exponent then ofRatio negative (coefficient * Nat.pow 10 exponent.toNat) 1
  else ofRatio negative coefficient (Nat.pow 10 (-exponent).toNat)

/-- The magnitude from which on an exponent takes no more digits. -/
def exponentLimit : Nat := 1 <<< 16

/-- Takes one more digit of an exponent, unless the number before it has reached the limit. -/
def pushExponentDigit (n : Nat) (d : UInt8) : Nat :=
  if n < exponentLimit then 10 * n + Byte.digitValue d else n

/-- The magnitude of an exponent, as far as its digits are taken. -/
def readExponent (digits : Bytes) : Nat :=
  digits.foldl pushExponentDigit 0

theorem foldl_pushExponentDigit {start : Nat} {digits : Bytes}
    (h : Decimal.valueFrom start digits < exponentLimit) :
    digits.foldl pushExponentDigit start = Decimal.valueFrom start digits := by
  induction digits generalizing start with
  | nil => rfl
  | cons d rest ih =>
    rw [Decimal.valueFrom_cons] at h ⊢
    have below : start < exponentLimit := by
      have := Decimal.le_valueFrom (10 * start + Byte.digitValue d) rest
      omega
    rw [List.foldl_cons, pushExponentDigit, if_pos below, ih h]

/-- An exponent below the limit is read exactly. -/
theorem readExponent_eq_value {digits : Bytes} (h : Decimal.value digits < exponentLimit) :
    readExponent digits = Decimal.value digits :=
  foldl_pushExponentDigit h

/-- The number nearest to the value of a literal, its exponent taken as `readExponent` reads it. -/
def ofLiteral (literal : Number.Literal) : Binary64 :=
  ofDecimal literal.negative (Decimal.value literal.digits)
    (literal.scaleOf (readExponent literal.exponentDigits))

/-- A literal whose exponent is below the limit is read as the number nearest to its value. -/
theorem ofLiteral_eq_ofDecimal {literal : Number.Literal}
    (h : Decimal.value literal.exponentDigits < exponentLimit) :
    ofLiteral literal =
      ofDecimal literal.negative (Decimal.value literal.digits) literal.scale := by
  rw [ofLiteral, readExponent_eq_value h, Number.Literal.scale]

/-- Reads a number literal. -/
def ofBytes? (input : Bytes) : Option Binary64 :=
  (Number.Literal.ofBytes? input).map ofLiteral

end Binary64

end JsonStream
