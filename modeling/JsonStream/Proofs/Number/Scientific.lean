import JsonStream.Proofs.Binary64.Nearest
import JsonStream.Proofs.Number.Display

/-!
# Literals of one number

A literal may be spelled in many ways: the fraction may end with zeros, the exponent may start with
them, and an exponent of zero may be left out. Literals that agree up to that denote one number and
are read as one float. The literals made of components agree with the one that the components were
read from.

* `Number.Literal.Agrees`: the same sign, number before the exponent, and exponent.
* `Number.Literal.Agrees.ofLiteral_eq`: such literals are read as the same float.
* `Number.Components.toRat_literal_eq_iff`: the printed literal denotes what the components denote
  exactly if the digits of the fraction fit its places.
-/

namespace JsonStream

/-! ### Exponents -/

namespace Binary64

theorem readExponent_zero_cons (digits : Bytes) :
    readExponent (Byte.zero :: digits) = readExponent digits := rfl

theorem readExponent_zeros (zeros : Nat) (digits : Bytes) :
    readExponent (List.replicate zeros Byte.zero ++ digits) = readExponent digits := by
  induction zeros with
  | zero => rfl
  | succ zeros ih => rw [List.replicate_succ, List.cons_append, readExponent_zero_cons, ih]

/-- Of the digits of an exponent only the number that they stand for is read. -/
theorem readExponent_digits_value {digits : Bytes} (all : Number.Digits digits) :
    readExponent (Decimal.digits (Decimal.value digits)) = readExponent digits := by
  by_cases empty : digits = []
  · have none : Decimal.value [] = 0 := rfl
    rw [empty, none, Decimal.digits_of_lt (by decide)]
    rfl
  · obtain ⟨zeros, integer, same, isInteger, value⟩ := Decimal.exists_leading_zeros all empty
    rw [value, Decimal.digits_value isInteger, same, readExponent_zeros]

theorem readExponent_congr {first second : Bytes} (all : Number.Digits first)
    (all' : Number.Digits second) (same : Decimal.value first = Decimal.value second) :
    readExponent first = readExponent second := by
  rw [← readExponent_digits_value all, same, readExponent_digits_value all']

end Binary64

namespace Number

theorem signed_inj {negative : Bool} {first second : ℚ} :
    signed negative first = signed negative second ↔ first = second := by
  cases negative with
  | true => exact neg_inj
  | false => exact Iff.rfl

/-! ### Mantissas -/

namespace Literal

/-- The number that the digits before the exponent stand for. -/
def mantissa (l : Literal) : ℚ :=
  Decimal.value l.integer + Decimal.value (l.fraction.getD []) / 10 ^ (l.fraction.getD []).length

/-- The exponent that is a magnitude with the sign of the literal's exponent. -/
def powerOf (l : Literal) (magnitude : Nat) : ℤ :=
  if l.exponentNegative then -(magnitude : ℤ) else magnitude

theorem value_digits_mul_scaleOf (l : Literal) (magnitude : Nat) :
    (Decimal.value l.digits : ℚ) * 10 ^ l.scaleOf magnitude =
      l.mantissa * 10 ^ l.powerOf magnitude := by
  have scale : l.scaleOf magnitude = l.powerOf magnitude - ((l.fraction.getD []).length : ℤ) := rfl
  rw [scale, zpow_sub₀ (by norm_num), zpow_natCast, digits, Decimal.value_append, mantissa]
  push_cast
  field_simp

theorem toRat_eq_mantissa (l : Literal) :
    l.toRat = signed l.negative (l.mantissa * 10 ^ l.powerOf (Decimal.value l.exponentDigits)) := by
  rw [toRat, scale, value_digits_mul_scaleOf]

/-- The literals have the same sign, the same number before the exponent and the same exponent. -/
structure Agrees (l l' : Literal) : Prop where
  negative : l.negative = l'.negative
  mantissa : l.mantissa = l'.mantissa
  exponentNegative : l.exponentNegative = l'.exponentNegative
  exponent : Decimal.value l.exponentDigits = Decimal.value l'.exponentDigits

variable {l l' l'' : Literal}

theorem Agrees.symm (h : l.Agrees l') : l'.Agrees l :=
  ⟨h.negative.symm, h.mantissa.symm, h.exponentNegative.symm, h.exponent.symm⟩

theorem Agrees.trans (h : l.Agrees l') (h' : l'.Agrees l'') : l.Agrees l'' :=
  ⟨h.negative.trans h'.negative, h.mantissa.trans h'.mantissa,
    h.exponentNegative.trans h'.exponentNegative, h.exponent.trans h'.exponent⟩

theorem Agrees.powerOf_eq (h : l.Agrees l') (magnitude : Nat) :
    l.powerOf magnitude = l'.powerOf magnitude := by
  rw [powerOf, powerOf, h.exponentNegative]

theorem Agrees.toRat_eq (h : l.Agrees l') : l.toRat = l'.toRat := by
  rw [toRat_eq_mantissa, toRat_eq_mantissa, h.powerOf_eq, h.negative, h.mantissa, h.exponent]

theorem WellFormed.digits_exponentDigits (h : l.WellFormed) : Digits l.exponentDigits := by
  rw [exponentDigits]
  cases written : l.exponent with
  | none => exact digits_nil
  | some e => exact (h.exponent e written).digits

/-- **Literals that agree are read as one float.** This also holds where the exponent has more
digits than are taken. -/
theorem Agrees.ofLiteral_eq (h : l.Agrees l') (wellFormed : l.WellFormed)
    (wellFormed' : l'.WellFormed) : Binary64.ofLiteral l = Binary64.ofLiteral l' := by
  rw [Binary64.ofLiteral, Binary64.ofLiteral, h.negative]
  refine Binary64.ofDecimal_congr _ ?_
  rw [value_digits_mul_scaleOf, value_digits_mul_scaleOf, h.mantissa, h.powerOf_eq,
    Binary64.readExponent_congr wellFormed.digits_exponentDigits wellFormed'.digits_exponentDigits
      h.exponent]

end Literal

/-! ### Literals of components -/

namespace Components

variable {c : Components} {l : Literal}

/-- The literal from which the components are read as a float, taken apart. -/
def scientific (c : Components) : Literal :=
  { c.literal with exponent := some c.writtenExponent }

theorem bytes_scientific (c : Components) : c.scientific.bytes = c.scientificText := by
  show _ ++ (_ ++ (Literal.fractionBytes c.fractionPart ++ c.writtenExponent.bytes)) = _
  rw [fractionBytes_fractionPart, bytes_writtenExponent, scientificText, integerText]
  simp only [List.append_assoc]
  rfl

theorem wellFormed_scientific (c : Components) : c.scientific.WellFormed where
  integer := Decimal.isInteger_digits _
  fraction := c.isFraction_fractionPart
  exponent := fun _ written => Option.some.inj written ▸ Exponent.wellFormed_printed _ _

theorem exponentNegative_scientific (c : Components) :
    c.scientific.exponentNegative = c.exponentNegative :=
  Exponent.negative_printed _ _

theorem value_exponentDigits_scientific (c : Components) :
    Decimal.value c.scientific.exponentDigits = c.exponent.toNat :=
  Decimal.value_digits _

/-- Both literals of components agree: the exponent that one of them may leave out is zero. -/
theorem scientific_agrees (c : Components) : c.scientific.Agrees c.literal where
  negative := rfl
  mantissa := rfl
  exponentNegative := c.exponentNegative_scientific.trans c.exponentNegative_literal.symm
  exponent := c.value_exponentDigits_scientific.trans c.value_exponentDigits_literal.symm

/-- The literal that components were read from agrees with the one that is printed for them. -/
theorem Exact.agrees (h : c.Exact l) (wellFormed : l.WellFormed) : l.Agrees c.literal where
  negative := h.negative.symm
  mantissa := by
    have fits := fractionFits_of_read ⟨l, wellFormed, ofLiteral?_eq_some_iff_exact.2 h⟩
    obtain ⟨value, length⟩ := digits_fractionPart fits
    have integer : Decimal.value c.literal.integer = c.integer.toNat := Decimal.value_digits _
    rw [Literal.mantissa, Literal.mantissa, value, length, integer, h.integer, h.fraction, h.places,
      value_significant_div]
  exponentNegative := h.exponentNegative.symm.trans c.exponentNegative_literal.symm
  exponent := h.exponent.symm.trans c.value_exponentDigits_literal.symm

/-! ### What the printed literal denotes -/

theorem powerOf_literal (c : Components) :
    c.literal.powerOf (Decimal.value c.literal.exponentDigits) = c.scale := by
  rw [Literal.powerOf, value_exponentDigits_literal, exponentNegative_literal, scale]

/-- What is printed of a fraction with too many digits is another number: all digits are printed,
or none if the fraction has no place. -/
theorem value_fractionPart_div_ne (large : c.places < Decimal.length c.fraction.toNat) :
    (Decimal.value (c.fractionPart.getD []) : ℚ) / 10 ^ (c.fractionPart.getD []).length ≠
      c.fraction.toNat / 10 ^ c.places := by
  have nonzero : c.fraction.toNat ≠ 0 := by
    intro zero
    rw [zero, Decimal.length, if_pos rfl] at large
    omega
  have numerator : (c.fraction.toNat : ℚ) ≠ 0 := Nat.cast_ne_zero.2 nonzero
  rw [Decimal.length, if_neg nonzero] at large
  rw [fractionPart]
  by_cases none : c.places = 0
  · have empty : Decimal.value [] = 0 := rfl
    rw [if_pos none, Option.getD_none, empty, none]
    simpa using numerator.symm
  · have width : (Decimal.padded c.places c.fraction.toNat).length =
        (Decimal.digits c.fraction.toNat).length := by
      rw [Decimal.padded, List.length_append, List.length_replicate]
      omega
    rw [if_neg none, Option.getD_some, Decimal.value_padded, width]
    intro same
    rw [div_eq_mul_inv, div_eq_mul_inv, mul_right_inj' numerator, inv_inj] at same
    have tens : 10 ^ (Decimal.digits c.fraction.toNat).length = 10 ^ c.places := by
      exact_mod_cast same
    have lengths := Nat.pow_right_injective (by decide : 2 ≤ 10) tens
    omega

theorem value_fractionPart_div_eq_iff (c : Components) :
    (Decimal.value (c.fractionPart.getD []) : ℚ) / 10 ^ (c.fractionPart.getD []).length =
      c.fraction.toNat / 10 ^ c.places ↔ c.fractionFits = true := by
  constructor
  · intro same
    by_contra large
    rw [fractionFits, decide_eq_true_iff, Nat.not_le] at large
    exact value_fractionPart_div_ne large same
  · intro fits
    obtain ⟨value, length⟩ := digits_fractionPart fits
    exact congrArg₂ (fun (n : Nat) (places : Nat) => (n : ℚ) / 10 ^ places) value length

/-- **The printed literal denotes what the components denote exactly if the digits of the fraction
fit its places.** -/
theorem toRat_literal_eq_iff (c : Components) :
    c.literal.toRat = c.toRat ↔ c.fractionFits = true := by
  have power : (10 : ℚ) ^ c.scale ≠ 0 := zpow_ne_zero _ (by norm_num)
  have integer : Decimal.value c.literal.integer = c.integer.toNat := Decimal.value_digits _
  rw [Literal.toRat_eq_mantissa, powerOf_literal, toRat, Literal.mantissa, integer]
  show signed c.negative _ = _ ↔ _
  rw [signed_inj, mul_left_inj' power, add_right_inj]
  exact c.value_fractionPart_div_eq_iff

end Components

end Number

end JsonStream
