import JsonStream.Proofs.Grammar.Numerals
import JsonStream.Proofs.Grammar.Strings

/-!
# ISO-8859-1 and UTF-8

Every byte of a text in ISO-8859-1 is one code point, and `Latin1.toUtf8` writes each of them in
UTF-8: an ASCII byte as itself, any other byte as two. Outside of strings JSON knows ASCII only, so
no byte class and no part of a number, a keyword or an escape holds another byte.

* `Latin1.exists_pair`: the two bytes of a counterpart, and how UTF-8 is read over them.
-/

namespace JsonStream

/-! ### Counterparts -/

namespace Latin1

/-- The UTF-8 bytes of an ISO-8859-1 text: each byte is replaced by the encoding of the code point
with its value. -/
def toUtf8 (input : Bytes) : Bytes :=
  Utf8.bytes (text input)

theorem toUtf8_nil : toUtf8 [] = [] :=
  rfl

theorem toUtf8_cons (byte : UInt8) (rest : Bytes) :
    toUtf8 (byte :: rest) = String.utf8EncodeChar (char byte) ++ toUtf8 rest := by
  simp only [toUtf8, Utf8.bytes, text, String.toList_ofList, List.map_cons, Utf8.encode_cons]

theorem toUtf8_append (first second : Bytes) :
    toUtf8 (first ++ second) = toUtf8 first ++ toUtf8 second := by
  induction first with
  | nil => rfl
  | cons byte rest ih => rw [List.cons_append, toUtf8_cons, toUtf8_cons, ih, List.append_assoc]

theorem toUtf8_cons_ascii {byte : UInt8} (ascii : byte.toNat < 0x80) (rest : Bytes) :
    toUtf8 (byte :: rest) = byte :: toUtf8 rest := by
  rw [toUtf8_cons, Utf8.utf8EncodeChar_of_toNat_eq ascii (toNat_char byte), List.singleton_append]

/-- The two bytes that stand for a byte outside ASCII. -/
structure Pair (byte first second : UInt8) : Prop where
  encoded : String.utf8EncodeChar (char byte) = [first, second]
  high : 0x80 ≤ first.toNat ∧ 0x80 ≤ second.toNat
  opens : Utf8.State.boundary.step? first = some .one
  closes : Utf8.State.one.step? second = some .boundary

theorem exists_pair {byte : UInt8} (high : 0x80 ≤ byte.toNat) :
    ∃ first second, Pair byte first second := by
  have bound := byte.toNat_lt
  have same := toNat_char byte
  have first : (UInt8.ofNat (byte.toNat / 64 % 0x20 + 0xc0)).toNat =
      byte.toNat / 64 % 0x20 + 0xc0 := by
    rw [UInt8.toNat_ofNat']
    omega
  have second : (UInt8.ofNat (byte.toNat % 0x40 + 0x80)).toNat = byte.toNat % 0x40 + 0x80 := by
    rw [UInt8.toNat_ofNat']
    omega
  have encoded := Utf8.utf8EncodeChar_two (c := char byte) (by omega) (by omega)
  rw [same] at encoded
  refine ⟨_, _, encoded, ?_, ?_, ?_⟩
  · rw [first, second]
    omega
  · refine Utf8.State.lead?_eq_some_iff.2 ?_
    rw [first]
    show 0xc2 ≤ _ ∧ _ < 0xe0
    omega
  · refine Utf8.State.within_eq_some_iff.2 ⟨?_, rfl⟩
    rw [second]
    show 0x80 ≤ _ ∧ _ ≤ 0xbf
    omega

theorem Pair.toUtf8_cons {byte first second : UInt8} (h : Pair byte first second) (rest : Bytes) :
    toUtf8 (byte :: rest) = first :: second :: toUtf8 rest := by
  rw [Latin1.toUtf8_cons, h.encoded]
  rfl

end Latin1

/-! ### Bytes outside ASCII -/

section
variable {byte : UInt8}

theorem ne_of_high (high : 0x80 ≤ byte.toNat) {other : UInt8} (ascii : other.toNat < 0x80) :
    byte ≠ other := by
  intro same
  rw [same] at high
  omega

theorem Byte.isWhitespace_of_high (high : 0x80 ≤ byte.toNat) : isWhitespace byte = false := by
  rw [Bool.eq_false_iff]
  intro blank
  rcases isWhitespace_iff.1 blank with h | h | h | h <;>
    exact absurd h (ne_of_high high (by decide))

theorem Byte.isDigit_of_high (high : 0x80 ≤ byte.toNat) : isDigit byte = false := by
  rw [Bool.eq_false_iff]
  intro digit
  obtain ⟨same, small⟩ := Decimal.toNat_of_isDigit digit
  omega

theorem Byte.endsScalar_of_high (high : 0x80 ≤ byte.toNat) : endsScalar byte = false := by
  have above : decide (0x80 ≤ byte) = true := decide_eq_true (UInt8.le_iff_toNat_le.2 high)
  rw [endsScalar, above, Bool.or_true]
  rfl

namespace Number.Phase

theorem start?_of_high (high : 0x80 ≤ byte.toNat) : start? byte = none := by
  rw [start?, if_neg (ne_of_high high (by decide)), if_neg (ne_of_high high (by decide)),
    Byte.isDigit_of_high high]
  rfl

theorem next?_of_high (high : 0x80 ≤ byte.toNat) (phase : Phase) : phase.next? byte = none := by
  have digit : ¬Byte.isDigit byte = true := Bool.eq_false_iff.1 (Byte.isDigit_of_high high)
  have mark : ¬isExponentMark byte = true := by
    rw [isExponentMark_iff]
    rintro (same | same) <;> exact absurd same (ne_of_high high (by decide))
  have sign : ¬(byte = Byte.plus ∨ byte = Byte.minus) := by
    rintro (same | same) <;> exact absurd same (ne_of_high high (by decide))
  have zero : byte ≠ Byte.zero := ne_of_high high (by decide)
  have point : byte ≠ Byte.point := ne_of_high high (by decide)
  cases phase <;> simp only [next?, afterInteger?, if_neg digit, if_neg mark, if_neg sign,
    if_neg zero, if_neg point]

end Number.Phase

theorem Keyword.ofHead?_of_high (high : 0x80 ≤ byte.toNat) : ofHead? byte = none := by
  cases found : ofHead? byte with
  | none => rfl
  | some word =>
    have head := ofHead?_eq_some_iff.1 found
    exact absurd head (ne_of_high high (by cases word <;> decide))

theorem HexDigits.push?_of_high (high : 0x80 ≤ byte.toNat) (digits : HexDigits) :
    digits.push? byte = none := by
  have none : Hex.digit? byte = none := by
    cases found : Hex.digit? byte with
    | none => rfl
    | some value =>
      have digit := digit?_eq_some_iff.1 found
      rw [HexDigit] at digit
      omega
  rw [push?, none]
  rfl

theorem Escape.short?_of_high (high : 0x80 ≤ byte.toNat) : short? byte = none := by
  cases found : short? byte with
  | none => rfl
  | some c =>
    have entry := short?_eq_some_iff.1 found
    have ascii : ∀ pair ∈ shortEscapes, pair.1.toNat < 0x80 := by decide
    have below : byte.toNat < 0x80 := ascii _ entry
    omega

end

end JsonStream
