import JsonStream.Proofs.Grammar.Printing
import JsonStream.Proofs.Number.Integer
import JsonStream.Proofs.Text.Utf8

/-!
# Numbers that are read, written and read again

A number that is not rounded can be written, and what is written is read as the same number, except
that components without fraction and exponent are read as an integer where integers are reported.

* `ReaderOptions.reread`: what a number is read as after it has been written.
* `ReaderOptions.NumeralText.prints`: it is.
* `ReaderOptions.NumeralText.text_reread_iff`: only the negative zero is written differently then.
-/

namespace JsonStream

/-! ### Literals as texts -/

/-- Bytes below 0x80. -/
def Ascii (bytes : Bytes) : Prop :=
  ∀ byte ∈ bytes, byte.toNat < 0x80

theorem ascii_cons_iff {byte : UInt8} {bytes : Bytes} :
    Ascii (byte :: bytes) ↔ byte.toNat < 0x80 ∧ Ascii bytes :=
  List.forall_mem_cons

/-- Bytes below 0x80 are the bytes of the text that they are in any encoding. -/
theorem bytes_latin1 {input : Bytes} (ascii : Ascii input) :
    Utf8.bytes (Latin1.text input) = input := by
  rw [Latin1.text, Utf8.bytes]
  rw [String.toList_ofList]
  induction input with
  | nil => rfl
  | cons byte rest ih =>
    obtain ⟨first, others⟩ := ascii_cons_iff.1 ascii
    rw [List.map_cons, Utf8.encode_cons, ih others,
      Utf8.utf8EncodeChar_of_toNat_eq first (Latin1.toNat_char byte), List.singleton_append]

/-- The bytes from the space to the tilde. -/
def PrintableAscii (bytes : Bytes) : Prop :=
  ∀ byte ∈ bytes, 0x20 ≤ byte.toNat ∧ byte.toNat ≤ 0x7e

-- The bytes of the list are looked at, not all the bytes that there are.
instance (bytes : Bytes) : Decidable (PrintableAscii bytes) :=
  List.decidableBAll _ bytes

theorem PrintableAscii.ascii {bytes : Bytes} (h : PrintableAscii bytes) : Ascii bytes :=
  fun byte mem => Nat.lt_of_le_of_lt (h byte mem).2 (by decide)

/-- The bytes of which numbers are made. -/
def NumberBytes (bytes : Bytes) : Prop :=
  ∀ byte ∈ bytes, Byte.isDigit byte = true ∨
    byte ∈ [Byte.minus, Byte.plus, Byte.point, Byte.lowerE, Byte.upperE]

instance (bytes : Bytes) : Decidable (NumberBytes bytes) :=
  List.decidableBAll _ bytes

theorem numberBytes_nil : NumberBytes [] := fun _ mem => absurd mem List.not_mem_nil

theorem numberBytes_cons_iff {byte : UInt8} {bytes : Bytes} :
    NumberBytes (byte :: bytes) ↔ (Byte.isDigit byte = true ∨
      byte ∈ [Byte.minus, Byte.plus, Byte.point, Byte.lowerE, Byte.upperE]) ∧ NumberBytes bytes :=
  List.forall_mem_cons

theorem numberBytes_append_iff {first second : Bytes} :
    NumberBytes (first ++ second) ↔ NumberBytes first ∧ NumberBytes second :=
  List.forall_mem_append

theorem numberBytes_of_digits {digits : Bytes} (h : Number.Digits digits) : NumberBytes digits :=
  fun byte mem => .inl (h byte mem)

theorem numberBytes_sign (negative : Bool) :
    NumberBytes (if negative then [Byte.minus] else []) := by
  cases negative with
  | true => exact numberBytes_cons_iff.2 ⟨by decide, numberBytes_nil⟩
  | false => exact numberBytes_nil

theorem NumberBytes.printable {bytes : Bytes} (h : NumberBytes bytes) : PrintableAscii bytes := by
  have marks : PrintableAscii [Byte.minus, Byte.plus, Byte.point, Byte.lowerE, Byte.upperE] := by
    decide
  intro byte mem
  rcases h byte mem with digit | mark
  · obtain ⟨same, small⟩ := Decimal.toNat_of_isDigit digit
    omega
  · exact marks byte mark

theorem numberBytes_fractionBytes {fraction : Option Bytes} (h : Number.IsFraction fraction) :
    NumberBytes (Number.Literal.fractionBytes fraction) := by
  cases fraction with
  | none => exact numberBytes_nil
  | some digits =>
    exact numberBytes_cons_iff.2 ⟨by decide, numberBytes_of_digits (h digits rfl).1⟩

theorem numberBytes_exponentBytes {exponent : Option Number.Exponent}
    (h : Number.IsExponent exponent) : NumberBytes (Number.Literal.exponentBytes exponent) := by
  cases exponent with
  | none => exact numberBytes_nil
  | some e =>
    obtain ⟨mark, sign, digits, -⟩ := h e rfl
    refine numberBytes_cons_iff.2 ⟨.inr ?_,
      numberBytes_append_iff.2 ⟨fun byte mem => .inr ?_, numberBytes_of_digits digits⟩⟩
    · rcases mark with mark | mark <;> rw [mark] <;> decide
    · rcases sign byte (Option.mem_toList.1 mem) with rfl | rfl <;> decide

theorem NumberText.numberBytes {bytes : Bytes} (h : NumberText bytes) : NumberBytes bytes := by
  obtain ⟨literal, ⟨integer, fraction, exponent⟩, rfl⟩ := h
  refine numberBytes_append_iff.2 ⟨numberBytes_sign _, numberBytes_append_iff.2 ⟨?_,
    numberBytes_append_iff.2
      ⟨numberBytes_fractionBytes fraction, numberBytes_exponentBytes exponent⟩⟩⟩
  exact numberBytes_of_digits (Number.digits_of_isInteger integer).1

theorem NumberText.ascii {bytes : Bytes} (h : NumberText bytes) : Ascii bytes :=
  h.numberBytes.printable.ascii

/-- A literal of a number is the bytes of a text. -/
theorem NumberText.exists_text {bytes : Bytes} (h : NumberText bytes) :
    ∃ text, Utf8.bytes text = bytes :=
  ⟨_, bytes_latin1 h.ascii⟩

/-! ### Numbers that are not rounded -/

namespace ReaderOptions

variable {options : ReaderOptions} {n : Numeral} {bytes : Bytes}

/-- What is reported for a literal, unless it is rounded. -/
theorem NumeralText.cases (h : options.NumeralText n bytes) (exact : options.numbers ≠ .float) :
    (∃ i, n = .integer i ∧ options.integers = true) ∨
      (∃ c, n = .other (.components c) ∧ options.numbers = .components ∧ c.Read) ∨
        ∃ text, n = .other (.text text) ∧ Utf8.bytes text = bytes := by
  obtain ⟨-, text, same, read⟩ := h
  unfold Token.ofLiteral at read
  dsimp only at read
  rw [same, Bool.not_false, Bool.and_true] at read
  cases integer : if options.integers = true then Number.int64? bytes else none with
  | some i =>
    rw [integer] at read
    refine .inl ⟨i, Numeral.token_injective (Except.ok.inj read).symm, ?_⟩
    by_cases integers : options.integers = true
    · exact integers
    · rw [if_neg integers] at integer
      contradiction
  | none =>
    rw [integer] at read
    refine .inr ?_
    cases numbers : options.numbers with
    | float => contradiction
    | components =>
      rw [numbers] at read
      dsimp only at read
      cases taken : Number.Components.ofBytes bytes with
      | ok c =>
        rw [taken] at read
        exact .inl ⟨c, Numeral.token_injective (Except.ok.inj read).symm, rfl,
          Number.Components.read_of_ofBytes taken⟩
      | error e =>
        rw [taken] at read
        cases e <;> contradiction
    | text =>
      rw [numbers] at read
      exact .inr ⟨text, Numeral.token_injective (Except.ok.inj read).symm, same⟩

theorem numeralText_integer {i : Int64} (number : NumberText bytes)
    (integers : options.integers = true) (read : Number.int64? bytes = some i) :
    options.NumeralText (.integer i) bytes := by
  obtain ⟨text, same⟩ := number.exists_text
  refine ⟨number, text, same, ?_⟩
  unfold Token.ofLiteral
  dsimp only
  rw [integers, same, Bool.not_false, Bool.and_true, if_pos rfl, read]
  rfl

theorem numeralText_components {c : Number.Components} (number : NumberText bytes)
    (numbers : options.numbers = .components)
    (other : options.integers = true → Number.int64? bytes = none)
    (read : Number.Components.ofBytes bytes = .ok c) :
    options.NumeralText (.other (.components c)) bytes := by
  obtain ⟨text, same⟩ := number.exists_text
  refine ⟨number, text, same, ?_⟩
  have none : (if options.integers && !false then Number.int64? bytes else none) = none := by
    by_cases integers : options.integers = true
    · rw [other integers, ite_self]
    · rw [Bool.eq_false_iff.2 integers]
      rfl
  unfold Token.ofLiteral
  dsimp only
  rw [same, none, numbers]
  dsimp only
  rw [read]
  rfl

theorem numberText_integerText (i : Int64) : NumberText (Scalar.integerText i) := by
  refine ⟨⟨decide (i < 0), Decimal.digits i.toInt.natAbs, none, none⟩,
    ⟨Decimal.isInteger_digits _, nofun, nofun⟩, ?_⟩
  rw [Number.integerText_eq]
  rw [Number.Literal.bytes, Number.signedText]
  show _ ++ (_ ++ []) = _
  rw [List.append_nil]

theorem numberText_components (c : Number.Components) : NumberText c.text :=
  ⟨c.literal, c.wellFormed_literal, c.bytes_literal⟩

/-- What components are read as after they have been written. -/
def rereadComponents (options : ReaderOptions) (c : Number.Components) : Numeral :=
  match if options.integers then Number.int64? c.text else none with
  | some i => .integer i
  | none => .other (.components c)

/-- What a number is read as after it has been written. -/
def reread (options : ReaderOptions) : Numeral → Numeral
  | .other (.components c) => options.rereadComponents c
  | n => n

/-- Components are read again as an integer, or as themselves. -/
theorem rereadComponents_cases (options : ReaderOptions) (c : Number.Components) :
    (options.integers = true ∧ ∃ i, Number.int64? c.text = some i ∧
        options.rereadComponents c = .integer i) ∨
      (options.integers = true → Number.int64? c.text = none) ∧
        options.rereadComponents c = .other (.components c) := by
  rw [rereadComponents]
  by_cases integers : options.integers = true
  · rw [if_pos integers]
    cases integer : Number.int64? c.text with
    | some i => exact .inl ⟨integers, i, rfl, rfl⟩
    | none => exact .inr ⟨fun _ => rfl, rfl⟩
  · rw [if_neg integers]
    exact .inr ⟨fun absurd => (integers absurd).elim, rfl⟩

/-- **A number that is not rounded is written, and read again as it is reported then.** -/
theorem NumeralText.prints (h : options.NumeralText n bytes) (exact : options.numbers ≠ .float)
    (o : WriterOptions) : n.Prints options.dialect o options.reread := by
  rcases h.cases exact with ⟨i, rfl, integers⟩ | ⟨c, rfl, numbers, read⟩ | ⟨text, rfl, same⟩
  · exact ⟨_, rfl, numeralText_integer (numberText_integerText i) integers
      (Number.int64?_integerText i)⟩
  · refine ⟨c.text, if_pos (Number.Components.fractionFits_of_read read), ?_⟩
    show options.NumeralText (options.rereadComponents c) _
    rcases options.rereadComponents_cases c with ⟨integers, i, integer, same⟩ | ⟨other, same⟩
    · rw [same]
      exact numeralText_integer (numberText_components c) integers integer
    · rw [same]
      exact numeralText_components (numberText_components c) numbers other
        (Number.Components.ofBytes_text read)
  · refine ⟨bytes, ?_, h⟩
    show (if Number.isLiteral (Utf8.bytes text) = true then _ else _) = _
    rw [same, if_pos (Number.isLiteral_iff.2 h.1)]

/-- **Only the negative zero is written differently** when it is written again. -/
theorem NumeralText.text_reread_iff (h : options.NumeralText n bytes)
    (exact : options.numbers ≠ .float) (asciiOnly : Bool) :
    (options.reread n).scalar.text asciiOnly = n.scalar.text asciiOnly ↔
      ¬(options.integers = true ∧ n = .other (.components .negativeZero)) := by
  rcases h.cases exact with ⟨i, rfl, -⟩ | ⟨c, rfl, -, read⟩ | ⟨text, rfl, -⟩
  · exact iff_of_true rfl nofun
  · have written : (Numeral.other (.components c)).scalar.text asciiOnly = .ok c.text :=
      if_pos (Number.Components.fractionFits_of_read read)
    have zero_iff : Numeral.other (.components c) = .other (.components .negativeZero) ↔
        c = .negativeZero := by
      simp only [Numeral.other.injEq, NumberValue.components.injEq]
    rw [written, zero_iff]
    show (options.rereadComponents c).scalar.text asciiOnly = _ ↔ _
    rcases options.rereadComponents_cases c with ⟨integers, i, integer, same⟩ | ⟨other, same⟩
    · rw [same, and_iff_right integers]
      show Except.ok (Scalar.integerText i) = .ok c.text ↔ _
      rw [Except.ok.injEq]
      exact Number.Components.integerText_eq_text_iff read integer
    · rw [same, written]
      refine iff_of_true rfl ?_
      intro found
      obtain ⟨integers, rfl⟩ := found
      have none := other integers
      rw [Number.Components.int64?_negativeZero] at none
      contradiction
  · exact iff_of_true rfl nofun

end ReaderOptions

end JsonStream
