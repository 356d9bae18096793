/-!
# Binary64 numbers

A binary64 number is its 64 bits: a sign, eleven exponent bits and a 52 bit significand. Nothing
here computes with machine floats; every operation is exact arithmetic on the fields.
-/

namespace JsonStream

/-- A binary64 number, given by its bits. -/
structure Binary64 where
  bits : UInt64
deriving Repr, DecidableEq, Inhabited

namespace Binary64

/-- The sign bit alone, which is above all magnitude bits. -/
def signBit : Nat := 1 <<< 63

/-- The lowest exponent bit alone, which is above all stored bits of the significand. -/
def hiddenBit : Nat := 1 <<< 52

/-- The bits below the sign. -/
def magnitudeBits (x : Binary64) : Nat :=
  x.bits.toNat % signBit

/-- Whether the sign bit is set. -/
def isNegative (x : Binary64) : Bool :=
  signBit ≤ x.bits.toNat

/-- The exponent bits. -/
def exponentBits (x : Binary64) : Nat :=
  x.magnitudeBits / hiddenBit

/-- The stored bits of the significand. -/
def fractionBits (x : Binary64) : Nat :=
  x.magnitudeBits % hiddenBit

/-- The magnitude bits of infinity. Finite magnitudes have smaller ones. -/
def infinityBits : Nat := 0x7ff * hiddenBit

/-- Whether the number is neither infinite nor NaN. -/
def isFinite (x : Binary64) : Bool :=
  x.magnitudeBits < infinityBits

/-- Whether the bits stand for no value. -/
def isNaN (x : Binary64) : Bool :=
  infinityBits < x.magnitudeBits

/-- Whether the number is a zero of either sign. -/
def isZero (x : Binary64) : Bool :=
  x.magnitudeBits = 0

/-- The number with a given sign and given magnitude bits. -/
def ofMagnitude (negative : Bool) (magnitude : Nat) : Binary64 :=
  ⟨UInt64.ofNat (if negative then signBit + magnitude else magnitude)⟩

/-- The number that stands for no value. -/
def nan : Binary64 := ⟨0x7ff8000000000000⟩

/-- The finite magnitude is `significand * 2 ^ (binaryExponent - 1074)`. Subnormal numbers have no
hidden bit and share the exponent of the smallest normal ones. -/
def significand (x : Binary64) : Nat :=
  if x.exponentBits = 0 then x.fractionBits else hiddenBit + x.fractionBits

/-- The exponent of a finite number, counted from that of the smallest subnormal number. -/
def binaryExponent (x : Binary64) : Nat :=
  x.exponentBits - 1

/-- Equality of values: zeros of either sign are equal, and NaN equals nothing. -/
protected def beq (x y : Binary64) : Bool :=
  !x.isNaN && !y.isNaN && (x.bits == y.bits || (x.isZero && y.isZero))

instance : BEq Binary64 := ⟨Binary64.beq⟩

end Binary64

end JsonStream
