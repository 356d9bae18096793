import JsonStream.Proofs.Number.Canonical
import JsonStream.Proofs.Number.Phase
import JsonStream.Writer.Scalar

/-!
# Integers

Literals without fraction and exponent are 64-bit integers if they are in range. The text of such an
integer is the literal that it was read from, but for the sign of a zero.

* `Number.int64?_integerText`: reading undoes writing.
* `Number.Components.integerText_eq_text_iff`: the only canonical literal that changes when it is
  read as an integer and written again is the negative zero.
-/

namespace JsonStream

namespace Number

/-- The value of an integer part and its sign. -/
def signedValue (negative : Bool) (digits : Bytes) : Int :=
  if negative then -(Decimal.value digits : Int) else Decimal.value digits

/-- The text of an integer part and its sign. -/
def signedText (negative : Bool) (digits : Bytes) : Bytes :=
  (if negative then [Byte.minus] else []) ++ digits

/-! ### Marks -/

theorem marked_append (first second : Bytes) :
    marked (first ++ second) = (marked first || marked second) :=
  List.any_append

theorem marked_digits {digits : Bytes} (h : Digits digits) : marked digits = false := by
  refine List.any_eq_false.2 ?_
  intro d mem mark
  rw [Phase.isMarkByte_of_isDigit (h d mem)] at mark
  contradiction

theorem digits_of_isInteger {digits : Bytes} (h : IsInteger digits) :
    Digits digits ∧ digits ≠ [] := by
  rcases h with rfl | ⟨d, rest, rfl, -, digit, all⟩
  · exact ⟨digits_cons_iff.2 ⟨rfl, digits_nil⟩, List.cons_ne_nil _ _⟩
  · exact ⟨digits_cons_iff.2 ⟨digit, all⟩, List.cons_ne_nil _ _⟩

/-- A literal without marks has neither fraction nor exponent. -/
theorem eq_none_of_not_marked {l : Literal} (wellFormed : l.WellFormed)
    (unmarked : ¬marked l.bytes = true) : l.fraction = none ∧ l.exponent = none := by
  rw [Literal.bytes] at unmarked
  simp only [marked_append, Bool.or_eq_true, not_or] at unmarked
  obtain ⟨-, -, fraction, exponent⟩ := unmarked
  constructor
  · cases part : l.fraction with
    | none => rfl
    | some digits =>
      rw [part] at fraction
      exact absurd rfl fraction
  · cases part : l.exponent with
    | none => rfl
    | some e =>
      have mark := (wellFormed.exponent e part).mark
      rw [part] at exponent
      refine absurd ?_ exponent
      show (Phase.isMarkByte e.mark || _) = true
      rcases mark with mark | mark <;> rw [mark] <;> rfl

theorem not_marked_of_int64? {literal : Bytes} {i : Int64} (h : int64? literal = some i) :
    ¬marked literal = true := by
  intro mark
  rw [int64?_of_marked mark] at h
  contradiction

/-- Only a literal without fraction and exponent is an integer. -/
theorem eq_none_of_int64? {l : Literal} (wellFormed : l.WellFormed) {i : Int64}
    (h : int64? l.bytes = some i) : l.fraction = none ∧ l.exponent = none :=
  eq_none_of_not_marked wellFormed (not_marked_of_int64? h)

/-! ### Integers and their texts -/

/-- An integer part with its sign is read as its value, if that is in range. -/
theorem int64?_signedText {digits : Bytes} (h : IsInteger digits) (negative : Bool) :
    int64? (signedText negative digits) =
      if Int64.minValue.toInt ≤ signedValue negative digits ∧
          signedValue negative digits ≤ Int64.maxValue.toInt then
        some (Int64.ofInt (signedValue negative digits))
      else none := by
  obtain ⟨all, nonempty⟩ := digits_of_isInteger h
  have unmarked : ¬marked (signedText negative digits) = true := by
    rw [signedText]
    rw [marked_append, marked_digits all]
    cases negative <;> exact Bool.false_ne_true
  have sign : Literal.takeSign (signedText negative digits) = (negative, digits) := by
    have taken : Literal.takeSign (_ ++ (digits ++ [])) = (negative, digits ++ []) :=
      Literal.takeSign_append h
    rw [List.append_nil] at taken
    exact taken
  have valid : ¬(digits = [] ∨ digits.all Byte.isDigit = false) := by
    intro found
    obtain empty | other := found
    · exact nonempty empty
    · rw [List.all_eq_true.2 all] at other
      contradiction
  refine (if_neg unmarked).trans ?_
  rw [sign]
  dsimp only
  rw [if_neg valid]
  rfl

theorem integerText_eq (i : Int64) :
    Scalar.integerText i = signedText (decide (i < 0)) (Decimal.digits i.toInt.natAbs) := by
  rw [Scalar.integerText, signedText]
  simp only [decide_eq_true_eq]

theorem signedValue_integer (i : Int64) :
    signedValue (decide (i < 0)) (Decimal.digits i.toInt.natAbs) = i.toInt := by
  rw [signedValue]
  rw [Decimal.value_digits]
  by_cases negative : i < 0
  · have below : i.toInt < 0 := Int64.lt_iff_toInt_lt.1 negative
    rw [if_pos (decide_eq_true negative)]
    omega
  · have above : ¬i.toInt < 0 := fun below => negative (Int64.lt_iff_toInt_lt.2 below)
    rw [if_neg (by rw [decide_eq_false negative]; exact Bool.false_ne_true)]
    omega

/-- **Reading an integer undoes writing it.** -/
theorem int64?_integerText (i : Int64) : int64? (Scalar.integerText i) = some i := by
  rw [integerText_eq, int64?_signedText (Decimal.isInteger_digits _), signedValue_integer,
    if_pos ⟨i.minValue_le_toInt, i.toInt_le⟩, Int64.ofInt_toInt]

/-- Integers are written like their values. -/
theorem integerText_of_toInt {i : Int64} {negative : Bool} {n : Nat}
    (value : i.toInt = if negative then -(n : Int) else n) (nonzero : negative = true → n ≠ 0) :
    Scalar.integerText i = signedText negative (Decimal.digits n) := by
  have magnitude : i.toInt.natAbs = n := by
    rw [value]
    cases negative with
    | false => exact Int.natAbs_natCast n
    | true => exact (Int.natAbs_neg n).trans (Int.natAbs_natCast n)
  have sign : decide (i < 0) = negative := by
    cases negative with
    | false =>
      refine decide_eq_false fun below => ?_
      have below : i.toInt < 0 := Int64.lt_iff_toInt_lt.1 below
      rw [value, if_neg Bool.false_ne_true] at below
      omega
    | true =>
      refine decide_eq_true (Int64.lt_iff_toInt_lt.2 ?_)
      show i.toInt < 0
      have positive := nonzero rfl
      rw [value, if_pos rfl]
      omega
  rw [integerText_eq, sign, magnitude]

namespace Components

/-- The negative zero without fraction and exponent. -/
def negativeZero : Components :=
  { negative := true }

theorem text_negativeZero : negativeZero.text = signedText true (Decimal.digits 0) := by
  show (signedText _ _ ++ []) ++ [] = _
  rw [List.append_nil, List.append_nil]
  rfl

/-- The negative zero is printed like an integer. -/
theorem int64?_negativeZero : int64? negativeZero.text = some 0 := by
  rw [text_negativeZero, int64?_signedText (Decimal.isInteger_digits 0), signedValue,
    Decimal.value_digits]
  rfl

/-- Components that are printed without fraction and exponent have neither. -/
theorem eq_of_parts_eq_none {c : Components} (h : c.Read) (fraction : c.fractionPart = none)
    (exponent : c.exponentPart = none) : c = { negative := c.negative, integer := c.integer } := by
  obtain ⟨core, -, digits, width, -⟩ := h.fraction
  have places : c.places = 0 := by
    by_cases places : c.places = 0
    · exact places
    · rw [fractionPart, if_neg places] at fraction
      contradiction
  have zero : c.fraction = 0 := by
    rw [List.length_eq_zero_iff.1 (width.symm.trans places)] at digits
    exact UInt64.toNat_inj.1 digits
  have unwritten : ¬(c.exponent ≠ 0 ∨ c.exponentNegative = true) := by
    intro written
    rw [exponentPart, if_pos written] at exponent
    contradiction
  obtain ⟨magnitude, sign⟩ := not_or.1 unwritten
  obtain ⟨negative, integer, _, _, exponentNegative, _⟩ := c
  cases places
  cases zero
  cases Decidable.not_not.1 magnitude
  cases Bool.eq_false_iff.2 sign
  rfl

/-- **Only the negative zero changes.** A canonical literal that is read as an integer is what is
written for the integer, unless it is the negative zero. -/
theorem integerText_eq_text_iff {c : Components} (h : c.Read) {i : Int64}
    (integer : int64? c.text = some i) : Scalar.integerText i = c.text ↔ c ≠ negativeZero := by
  rw [← bytes_literal] at integer
  obtain ⟨fraction, exponent⟩ := eq_none_of_int64? c.wellFormed_literal integer
  have parts := eq_of_parts_eq_none h fraction exponent
  have text : c.text = signedText c.negative (Decimal.digits c.integer.toNat) := by
    rw [parts]
    show (signedText _ _ ++ []) ++ [] = _
    rw [List.append_nil, List.append_nil]
  rw [bytes_literal, text, int64?_signedText (Decimal.isInteger_digits _)] at integer
  have value : i.toInt = if c.negative then -(c.integer.toNat : Int) else c.integer.toNat := by
    split_ifs at integer with range
    cases integer
    have below := Int.lt_of_le_of_lt range.2 (by decide : Int64.maxValue.toInt < 2 ^ 63)
    rw [Int64.toInt_ofInt_of_le range.1 below, signedValue, Decimal.value_digits]
  rw [text]
  by_cases zero : c = negativeZero
  · have none : i.toInt = if false then -((0 : Nat) : Int) else (0 : Nat) := by
      rw [value, zero]
      rfl
    have unsigned := integerText_of_toInt none (fun absurd => nomatch absurd)
    refine iff_of_false ?_ fun other => other zero
    rw [unsigned, zero]
    show signedText false (Decimal.digits 0) ≠ signedText true (Decimal.digits 0)
    rw [Decimal.digits_of_lt (by decide)]
    decide
  · refine iff_of_true (integerText_of_toInt value ?_) zero
    intro negative magnitude
    have integer_eq : c.integer = 0 := UInt64.toNat_inj.1 magnitude
    refine zero (parts.trans ?_)
    rw [negative, integer_eq]
    rfl

end Components

end Number

end JsonStream
