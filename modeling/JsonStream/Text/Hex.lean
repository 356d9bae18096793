import JsonStream.Byte

/-!
# Hexadecimal digits

The four digits of a `\uXXXX` escape are read one at a time, in either case, and written in lower
case.
-/

namespace JsonStream

namespace Hex

/-- The value of a digit of either case. -/
def digit? (byte : UInt8) : Option Nat :=
  if Byte.isDigit byte then some (byte.toNat - Byte.zero.toNat)
  else if Byte.lowerA ≤ byte && byte ≤ Byte.lowerF then some (byte.toNat - Byte.lowerA.toNat + 10)
  else if Byte.upperA ≤ byte && byte ≤ Byte.upperF then some (byte.toNat - Byte.upperA.toNat + 10)
  else none

/-- The lower case digit of a number below sixteen. -/
def ofDigit (n : Nat) : UInt8 :=
  if n < 10 then Byte.ofDigit n else UInt8.ofNat (Byte.lowerA.toNat + (n - 10))

/-- The four digits of a code unit. -/
def ofUnit (unit : Nat) : Bytes :=
  [ofDigit (unit / 0x1000 % 0x10), ofDigit (unit / 0x100 % 0x10), ofDigit (unit / 0x10 % 0x10),
    ofDigit (unit % 0x10)]

end Hex

/-- The digits of an escape read so far: how many there are and their value. -/
structure HexDigits where
  count : Nat := 0
  value : Nat := 0
deriving Repr, DecidableEq, Inhabited

namespace HexDigits

/-- Takes one more digit, or nothing if the byte is none. -/
def push? (digits : HexDigits) (byte : UInt8) : Option HexDigits :=
  (Hex.digit? byte).map fun d => ⟨digits.count + 1, 0x10 * digits.value + d⟩

/-- The code unit, once there are four digits. -/
def unit? (digits : HexDigits) : Option Nat :=
  if digits.count = 4 then some digits.value else none

end HexDigits

end JsonStream
