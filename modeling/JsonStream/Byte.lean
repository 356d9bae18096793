/-!
# Bytes of a document

Input and output are lists of bytes. This module names the bytes with a meaning of their own in
JSON, so that no number stands for a character elsewhere, and gives the byte classes that the
grammar uses.
-/

namespace JsonStream

/-- A run of input or output bytes. -/
abbrev Bytes := List UInt8

namespace Byte

@[match_pattern] abbrev tab : UInt8 := 0x09
@[match_pattern] abbrev lineFeed : UInt8 := 0x0a
@[match_pattern] abbrev carriageReturn : UInt8 := 0x0d
@[match_pattern] abbrev space : UInt8 := 0x20
@[match_pattern] abbrev quote : UInt8 := 0x22
@[match_pattern] abbrev plus : UInt8 := 0x2b
@[match_pattern] abbrev comma : UInt8 := 0x2c
@[match_pattern] abbrev minus : UInt8 := 0x2d
@[match_pattern] abbrev point : UInt8 := 0x2e
@[match_pattern] abbrev slash : UInt8 := 0x2f
@[match_pattern] abbrev zero : UInt8 := 0x30
@[match_pattern] abbrev nine : UInt8 := 0x39
@[match_pattern] abbrev colon : UInt8 := 0x3a
@[match_pattern] abbrev upperA : UInt8 := 0x41
@[match_pattern] abbrev upperE : UInt8 := 0x45
@[match_pattern] abbrev upperF : UInt8 := 0x46
@[match_pattern] abbrev upperZ : UInt8 := 0x5a
@[match_pattern] abbrev openBracket : UInt8 := 0x5b
@[match_pattern] abbrev backslash : UInt8 := 0x5c
@[match_pattern] abbrev closeBracket : UInt8 := 0x5d
@[match_pattern] abbrev underscore : UInt8 := 0x5f
@[match_pattern] abbrev lowerA : UInt8 := 0x61
@[match_pattern] abbrev lowerB : UInt8 := 0x62
@[match_pattern] abbrev lowerE : UInt8 := 0x65
@[match_pattern] abbrev lowerF : UInt8 := 0x66
@[match_pattern] abbrev lowerL : UInt8 := 0x6c
@[match_pattern] abbrev lowerN : UInt8 := 0x6e
@[match_pattern] abbrev lowerR : UInt8 := 0x72
@[match_pattern] abbrev lowerS : UInt8 := 0x73
@[match_pattern] abbrev lowerT : UInt8 := 0x74
@[match_pattern] abbrev lowerU : UInt8 := 0x75
@[match_pattern] abbrev lowerZ : UInt8 := 0x7a
@[match_pattern] abbrev openBrace : UInt8 := 0x7b
@[match_pattern] abbrev closeBrace : UInt8 := 0x7d

/-- The bytes allowed between tokens: space, tab, line feed and carriage return. -/
def isWhitespace (byte : UInt8) : Bool :=
  byte == space || byte == tab || byte == lineFeed || byte == carriageReturn

/-- A decimal digit. -/
def isDigit (byte : UInt8) : Bool :=
  zero ≤ byte && byte ≤ nine

/-- A letter of the ASCII alphabet. -/
def isLetter (byte : UInt8) : Bool :=
  (lowerA ≤ byte && byte ≤ lowerZ) || (upperA ≤ byte && byte ≤ upperZ)

/-- The number that a decimal digit stands for. -/
def digitValue (byte : UInt8) : Nat :=
  byte.toNat - zero.toNat

/-- The decimal digit that stands for a number below ten. -/
def ofDigit (n : Nat) : UInt8 :=
  UInt8.ofNat (zero.toNat + n)

/-- Whether a byte may follow a number or a keyword directly. Letters, digits, the other bytes
of which numbers are made, the underscore and everything outside ASCII may not: they would read
as a continuation of the token. -/
def endsScalar (byte : UInt8) : Bool :=
  !(isDigit byte || isLetter byte || byte == point || byte == plus || byte == minus ||
    byte == underscore || 0x80 ≤ byte)

theorem toNat_ofDigit {n : Nat} (h : n < 10) : (ofDigit n).toNat = 48 + n := by
  have : 48 + n < 256 := by omega
  simp [ofDigit, zero, Nat.mod_eq_of_lt this]

theorem digitValue_ofDigit {n : Nat} (h : n < 10) : digitValue (ofDigit n) = n := by
  simp [digitValue, zero, toNat_ofDigit h]

theorem isDigit_ofDigit {n : Nat} (h : n < 10) : isDigit (ofDigit n) = true := by
  simp [isDigit, zero, nine, UInt8.le_iff_toNat_le, toNat_ofDigit h]
  omega

end Byte

end JsonStream
