import JsonStream.Binary64.Basic
import JsonStream.Number.Decimal
import JsonStream.Text.Utf8

/-!
# The shortest decimal of a binary64 number

Every finite number is written with the fewest digits that read back as the same number, and of
the decimals on their grid that do with the nearest to it. The decimals that read back form an
interval around the number, which reaches half way to each neighbour and holds its ends exactly if
the significand is even, as a tie is read as the even neighbour.

The digits are found on decimal grids of growing fineness: if a point of a grid lies in the
interval, then so does one of the two points around the number itself.
-/

namespace JsonStream

/-- `digits * 10 ^ exponent`, a positive decimal without trailing zeros. -/
structure ShortDecimal where
  digits : Nat
  exponent : Int
deriving Repr, DecidableEq, Inhabited

namespace Binary64

/-- The decimals around a positive number that read back as it, in units of a common
denominator. -/
structure ReadingInterval where
  value : Nat
  low : Nat
  high : Nat
  unit : Nat
  /-- Whether the ends belong to the interval. -/
  closed : Bool
deriving Repr

/-- The interval of a finite number that is not zero. Four units make the distance of two
neighbours above the number. The lower neighbour of a power of two is only half as far. -/
def readingInterval (x : Binary64) : ReadingInterval :=
  let m := x.significand
  let scale := 1 <<< x.binaryExponent
  let below := if x.fractionBits = 0 && 1 < x.exponentBits then 1 else 2
  { value := 4 * m * scale
    low := (4 * m - below) * scale
    high := (4 * m + 2) * scale
    unit := 4 <<< 1074
    closed := m % 2 == 0 }

/-- Whether `num / den` lies in the interval. -/
def ReadingInterval.contains (interval : ReadingInterval) (num den : Nat) : Bool :=
  let point := num * interval.unit
  if interval.closed then interval.low * den ≤ point && point ≤ interval.high * den
  else interval.low * den < point && point < interval.high * den

/-- A decimal as a fraction. -/
def decimalFraction (digits : Nat) (exponent : Int) : Nat × Nat :=
  if 0 ≤ exponent then (digits * Nat.pow 10 exponent.toNat, 1)
  else (digits, Nat.pow 10 (-exponent).toNat)

/-- The point of the grid of multiples of `10 ^ exponent` that is nearest to the number, among
those that read back as it. A tie goes to the even multiple. -/
def gridPoint? (interval : ReadingInterval) (exponent : Int) : Option Nat :=
  let (num, den) := decimalFraction 1 exponent
  let total := interval.value * den
  let step := interval.unit * num
  let lower := total / step
  let remainder := total % step
  let fits := fun n => interval.contains (n * num) den
  let lowerFirst := 2 * remainder < step || (2 * remainder == step && lower % 2 == 0)
  let (first, second) := if lowerFirst then (lower, lower + 1) else (lower + 1, lower)
  if fits first then some first else if fits second then some second else none

/-- Tries finer and finer grids, at most `fuel` of them, starting with `10 ^ exponent`. The digits
have no trailing zero, as a grid before would have had the point. -/
def searchGrids (interval : ReadingInterval) : Nat → Int → ShortDecimal
  | 0, exponent => ⟨0, exponent⟩
  | fuel + 1, exponent =>
    match gridPoint? interval exponent with
    | some digits => ⟨digits, exponent⟩
    | none => searchGrids interval fuel (exponent - 1)

/-- The exponent of a grid too coarse for the number, by at most three: the number lies below
`2 ^ (bits + 1)`, and a factor of two is at most 0.30103 decimal digits. -/
def coarseExponent (interval : ReadingInterval) : Int :=
  let bits : Int := (Nat.log2 interval.value : Int) - (Nat.log2 interval.unit : Int)
  (bits + 1) * 30103 / 100000 + 2

/-- The shortest decimal that reads back as a finite number other than zero, regardless of its
sign. -/
def shortest (x : Binary64) : ShortDecimal :=
  let interval := x.readingInterval
  searchGrids interval 24 (coarseExponent interval)

/-- The layout of a decimal. From `0.00001` up to sixteen places before the point the digits are
written out, a whole number with the fraction `.0`; beyond, one digit stands before the point and
an exponent follows, without plus sign and without padding. -/
def layout (d : ShortDecimal) : Bytes :=
  let digits := Decimal.digits d.digits
  let count : Int := digits.length
  let top := count + d.exponent
  if 0 ≤ d.exponent ∧ top ≤ 16 then
    digits ++ List.replicate d.exponent.toNat Byte.zero ++ [Byte.point, Byte.zero]
  else if 0 < top ∧ top ≤ 16 then
    digits.take top.toNat ++ Byte.point :: digits.drop top.toNat
  else if -5 < top ∧ top ≤ 0 then
    Byte.zero :: Byte.point :: (List.replicate (-top).toNat Byte.zero ++ digits)
  else
    let exponent := top - 1
    let sign := if exponent < 0 then [Byte.minus] else []
    let fraction := if digits.length = 1 then [] else Byte.point :: digits.drop 1
    digits.take 1 ++ fraction ++ Byte.lowerE :: (sign ++ Decimal.digits exponent.natAbs)

/-- A finite number as a literal of the fewest digits that read back as it. This stands for `ryu`
and follows its documented output: the shortest decimal, and the layout of its digits. -/
def text (x : Binary64) : Bytes :=
  (if x.isNegative then [Byte.minus] else []) ++
    (if x.isZero then [Byte.zero, Byte.point, Byte.zero] else layout x.shortest)

end Binary64

end JsonStream
