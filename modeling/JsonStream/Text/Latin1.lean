import JsonStream.Byte

/-!
# ISO-8859-1

Every byte is one code point, so every byte string is text. On ASCII the encoding agrees with
UTF-8.
-/

namespace JsonStream

namespace Latin1

/-- The character of a byte. -/
def char (byte : UInt8) : Char :=
  Char.ofNat byte.toNat

/-- The text of a byte string. -/
def text (input : Bytes) : String :=
  String.ofList (input.map char)

theorem toNat_char (byte : UInt8) : (char byte).toNat = byte.toNat := by
  have valid : byte.toNat.isValidChar := Or.inl (by have := byte.toNat_lt; omega)
  rw [char, Char.ofNat, dif_pos valid]
  rfl

end Latin1

end JsonStream
