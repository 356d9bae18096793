import JsonStream.Number.Literal
import JsonStream.Binary64.Rounding
import JsonStream.Text.Latin1

/-!
# Exact components of a number

A literal such as `-12.340e+5` denotes
`± (integer + fraction / 10 ^ places) * 10 ^ (± exponent)`. The components keep each magnitude as a
64-bit word; a literal whose parts do not fit is out of range and never rounded. Leading zeros of
the fraction are counted in `places` and trailing ones are dropped, so `0.0500` has fraction 5 in
2 places.
-/

namespace JsonStream

namespace Number

/-- The exact decimal value of a number literal. -/
structure Components where
  /-- Whether the literal starts with a minus sign, which also zero may do. -/
  negative : Bool := false
  integer : UInt64 := 0
  /-- The significant digits after the point. -/
  fraction : UInt64 := 0
  /-- How many places after the point the fraction takes. -/
  places : Nat := 0
  /-- Whether the exponent carries a minus sign, which also a zero exponent may do. -/
  exponentNegative : Bool := false
  exponent : UInt64 := 0
deriving Repr, DecidableEq, Inhabited

/-- Why a byte string has no components. -/
inductive DecomposeError where
  /-- It is not a number literal. -/
  | malformed
  /-- A part of the literal does not fit 64 bits. -/
  | outOfRange
deriving Repr, DecidableEq, Inhabited

/-- The wording of a failure. -/
def DecomposeError.message : DecomposeError → String
  | .malformed => "malformed number literal"
  | .outOfRange => "number component out of range"

namespace Components

/-- The word that a run of digits stands for, as long as it fits at every digit. -/
def word? (digits : Bytes) : Option UInt64 :=
  digits.foldlM (fun n d => Decimal.word? (10 * n.toNat + Byte.digitValue d)) 0

/-- A fraction while its digits are read. Zeros wait until another digit shows that they are not
trailing. -/
structure FractionScan where
  digits : UInt64 := 0
  places : Nat := 0
  zeros : Nat := 0
deriving Repr, DecidableEq

/-- Takes one more digit of the fraction. -/
def FractionScan.push? (scan : FractionScan) (d : UInt8) : Option FractionScan :=
  if d = Byte.zero then some { scan with zeros := scan.zeros + 1 }
  else
    let shift := scan.zeros + 1
    (Decimal.word? (scan.digits.toNat * Nat.pow 10 shift + Byte.digitValue d)).map fun digits =>
      ⟨digits, scan.places + shift, 0⟩

/-- The fraction that a run of digits stands for, without its trailing zeros. -/
def fractionScan? (digits : Bytes) : Option FractionScan :=
  digits.foldlM FractionScan.push? {}

/-- The components of a literal, if every part fits. -/
def ofLiteral? (literal : Literal) : Option Components := do
  let integer ← word? literal.integer
  let fraction ← fractionScan? (literal.fraction.getD [])
  let exponent ← word? literal.exponentDigits
  return {
    negative := literal.negative
    integer := integer
    fraction := fraction.digits
    places := fraction.places
    exponentNegative := literal.exponentNegative
    exponent := exponent }

/-- The components of a byte string. That it is a literal comes first: a malformed one is never
reported as out of range. -/
def ofBytes (input : Bytes) : Except DecomposeError Components :=
  match Literal.ofBytes? input with
  | none => .error .malformed
  | some literal =>
    match ofLiteral? literal with
    | none => .error .outOfRange
    | some components => .ok components

/-- Whether the digits of the fraction fit its places. Components made by hand need not, and would
be printed as another number. -/
def fractionFits (c : Components) : Bool :=
  Decimal.length c.fraction.toNat ≤ c.places

/-- The sign and the integer part. -/
def integerText (c : Components) : Bytes :=
  (if c.negative then [Byte.minus] else []) ++ Decimal.digits c.integer.toNat

/-- The point and the fraction, padded to its places; nothing if it has none. -/
def fractionText (c : Components) : Bytes :=
  if c.places = 0 then [] else Byte.point :: Decimal.padded c.places c.fraction.toNat

/-- The exponent with its letter. -/
def exponentText (c : Components) : Bytes :=
  Byte.lowerE :: ((if c.exponentNegative then [Byte.minus] else []) ++
    Decimal.digits c.exponent.toNat)

/-- The canonical literal: a fraction without trailing zeros, as the components hold it, and no
exponent if that is a zero without minus sign. -/
def text (c : Components) : Bytes :=
  c.integerText ++ c.fractionText ++
    (if c.exponent ≠ 0 ∨ c.exponentNegative then c.exponentText else [])

/-- The canonical literal as a string. -/
def display (c : Components) : String :=
  Latin1.text c.text

/-- The literal from which the components are read as binary64: it always has an exponent. -/
def scientificText (c : Components) : Bytes :=
  c.integerText ++ c.fractionText ++ c.exponentText

/-- The nearest binary64 number. -/
def toBinary64 (c : Components) : Binary64 :=
  (Binary64.ofBytes? c.scientificText).getD Binary64.nan

end Components

end Number

end JsonStream
