import JsonStream.Proofs.Number.Exact

/-!
# Printed components

Components are printed with their fraction filled up with zeros in front to its places, and without
an exponent if that is a zero without sign. Reading undoes this up to the zeros that end the
fraction: components made by hand may have some, components that were read have none.

* `Number.Components.Trims`: the same components without the zeros that end the fraction.
* `Number.Components.ofBytes_text_iff_trims`: they are what the printed literal has.
* `Number.Components.ofBytes_display`: so reading undoes printing.
-/

namespace JsonStream

/-! ### Padded digits -/

namespace Decimal

theorem value_padded (width n : Nat) : value (padded width n) = n := by
  rw [padded]
  induction width - (digits n).length with
  | zero => exact value_digits n
  | succ zeros ih => rw [List.replicate_succ, List.cons_append, value_zero_cons, ih]

theorem length_padded {width n : Nat} (positive : 0 < width) (fits : length n ≤ width) :
    (padded width n).length = width := by
  have short : (digits n).length ≤ width := by
    by_cases zero : n = 0
    · rw [zero, digits_of_lt (by decide)]
      exact positive
    · rw [length, if_neg zero] at fits
      exact fits
  rw [padded, List.length_append, List.length_replicate]
  omega

theorem eq_zero_of_length_le {n : Nat} (none : length n ≤ 0) : n = 0 := by
  by_contra nonzero
  rw [length, if_neg nonzero] at none
  exact digits_ne_nil n (List.length_eq_zero_iff.1 (Nat.le_zero.1 none))

end Decimal

namespace Number

namespace Components

variable {c c' : Components}

/-! ### The zeros that end a fraction -/

/-- No zero ends the fraction. A fraction that is zero takes no places. -/
def Canonical (c : Components) : Prop :=
  c.fraction.toNat = 0 ∧ c.places = 0 ∨ ¬10 ∣ c.fraction.toNat

/-- The components are others without the zeros that end the fraction. -/
structure Trims (c' c : Components) : Prop where
  negative : c'.negative = c.negative
  integer : c'.integer = c.integer
  zeros : ∃ zeros, c.fraction.toNat = c'.fraction.toNat * 10 ^ zeros ∧
    c.places = c'.places + zeros
  canonical : c'.Canonical
  exponentNegative : c'.exponentNegative = c.exponentNegative
  exponent : c'.exponent = c.exponent

/-- Of two runs of digits for one number, the one that more zeros follow does not end with one. -/
theorem ten_dvd_of_lt {a b i j : Nat} (same : a * 10 ^ i = b * 10 ^ j) (fewer : i < j) : 10 ∣ a := by
  obtain ⟨more, rfl⟩ := Nat.exists_eq_add_of_lt fewer
  refine ⟨b * 10 ^ more, Nat.eq_of_mul_eq_mul_right (Nat.pow_pos (n := i) (by decide : 0 < 10)) ?_⟩
  rw [same, pow_succ, pow_add]
  ring

theorem Canonical.places_eq_zero (h : c.Canonical) (ten : 10 ∣ c.fraction.toNat) : c.places = 0 := by
  rcases h with ⟨-, none⟩ | other
  · exact none
  · exact absurd ten other

/-- Without the zeros that end it a fraction is determined by its value in its places. -/
theorem Canonical.unique {i j : Nat} (h : c.Canonical) (h' : c'.Canonical)
    (value : c.fraction.toNat * 10 ^ i = c'.fraction.toNat * 10 ^ j)
    (places : c.places + i = c'.places + j) :
    c.fraction = c'.fraction ∧ c.places = c'.places := by
  rcases Nat.lt_trichotomy i j with fewer | same | more
  · have none := h.places_eq_zero (ten_dvd_of_lt value fewer)
    omega
  · subst same
    have cancelled := Nat.eq_of_mul_eq_mul_right (Nat.pow_pos (n := i) (by decide : 0 < 10)) value
    exact ⟨UInt64.toNat_inj.1 cancelled, Nat.add_right_cancel places⟩
  · have none := h'.places_eq_zero (ten_dvd_of_lt value.symm more)
    omega

theorem Trims.unique {c₁ c₂ : Components} (h₁ : c₁.Trims c) (h₂ : c₂.Trims c) : c₁ = c₂ := by
  obtain ⟨i, value₁, places₁⟩ := h₁.zeros
  obtain ⟨j, value₂, places₂⟩ := h₂.zeros
  obtain ⟨fraction, places⟩ := h₁.canonical.unique h₂.canonical (value₁.symm.trans value₂)
    (places₁.symm.trans places₂)
  have negative := h₁.negative.trans h₂.negative.symm
  have integer := h₁.integer.trans h₂.integer.symm
  have exponentNegative := h₁.exponentNegative.trans h₂.exponentNegative.symm
  have exponent := h₁.exponent.trans h₂.exponent.symm
  obtain ⟨⟩ := c₁
  obtain ⟨⟩ := c₂
  simp only at negative integer fraction places exponentNegative exponent
  subst negative integer fraction places exponentNegative exponent
  rfl

/-! ### The printed literal -/

/-- The digits of the fraction that are printed stand for it, and take its places. -/
theorem digits_fractionPart (fits : c.fractionFits = true) :
    Decimal.value (c.literal.fraction.getD []) = c.fraction.toNat ∧
      (c.literal.fraction.getD []).length = c.places := by
  have short : Decimal.length c.fraction.toNat ≤ c.places := of_decide_eq_true fits
  show Decimal.value (c.fractionPart.getD []) = _ ∧ (c.fractionPart.getD []).length = _
  rw [fractionPart]
  by_cases none : c.places = 0
  · rw [none] at short
    rw [if_pos none, none, Decimal.eq_zero_of_length_le short]
    exact ⟨rfl, rfl⟩
  · rw [if_neg none]
    exact ⟨Decimal.value_padded _ _, Decimal.length_padded (Nat.pos_of_ne_zero none) short⟩

theorem value_exponentDigits_literal (c : Components) :
    Decimal.value c.literal.exponentDigits = c.exponent.toNat :=
  (word?_eq_some_iff.1 c.word?_exponentDigits_literal).symm

/-- What the printed literal has are the components without the zeros that end the fraction. -/
theorem Exact.trims (fits : c.fractionFits = true) (h : c'.Exact c.literal) : c'.Trims c := by
  obtain ⟨value, length⟩ := digits_fractionPart fits
  obtain ⟨zeros, places, shifted⟩ := exists_value_significant (c.literal.fraction.getD [])
  rw [length, ← h.places] at places
  rw [value, ← h.fraction] at shifted
  refine ⟨h.negative, UInt64.toNat_inj.1 ?_, ⟨zeros, shifted, places⟩, ?_,
    h.exponentNegative.trans c.exponentNegative_literal, UInt64.toNat_inj.1 ?_⟩
  · rw [h.integer]
    exact Decimal.value_digits _
  · refine (h.not_ten_dvd c.wellFormed_literal).imp_left fun none => ⟨?_, none⟩
    have empty := List.length_eq_zero_iff.1 (h.places.symm.trans none)
    rw [h.fraction, empty]
    rfl
  · rw [h.exponent, c.value_exponentDigits_literal]

/-- The printed literal has components: the zeros that end the fraction only make it larger. -/
theorem fits_literal (fits : c.fractionFits = true) : c.literal.Fits := by
  refine ⟨?_, ?_, ?_⟩
  · show Decimal.value (Decimal.digits c.integer.toNat) < _
    rw [Decimal.value_digits]
    exact c.integer.toNat_lt_size
  · obtain ⟨zeros, -, shifted⟩ := exists_value_significant (c.literal.fraction.getD [])
    rw [(digits_fractionPart fits).1] at shifted
    have less : Decimal.value (significant (c.literal.fraction.getD [])) ≤ c.fraction.toNat := by
      rw [shifted]
      exact Nat.le_mul_of_pos_right _ (Nat.pow_pos (by decide))
    exact Nat.lt_of_le_of_lt less c.fraction.toNat_lt_size
  · rw [value_exponentDigits_literal]
    exact c.exponent.toNat_lt_size

theorem bytes_display (c : Components) : Utf8.bytes c.display = c.text :=
  bytes_latin1 (ReaderOptions.numberText_components c).ascii

/-- **What is printed reads as the components without the zeros that end the fraction.** -/
theorem ofBytes_text_iff_trims (fits : c.fractionFits = true) :
    ofBytes c.text = .ok c' ↔ c'.Trims c := by
  rw [ofBytes_eq_ok_iff c.wellFormed_literal c.bytes_literal]
  refine ⟨Exact.trims fits, fun trims => ?_⟩
  obtain ⟨read, exact⟩ := exists_exact (fits_literal fits)
  rw [trims.unique (exact.trims fits)]
  exact exact

theorem exists_trims (fits : c.fractionFits = true) : ∃ c' : Components, c'.Trims c := by
  obtain ⟨c', exact⟩ := exists_exact (fits_literal fits)
  exact ⟨c', exact.trims fits⟩

/-- **Reading undoes printing.** Components whose fraction fits its places are printed as a literal.
It reads as the same components, with the signs of a zero and of a zero exponent, and without the
zeros that end the fraction. Components that were read have no such zeros, so they are read again
as they are, and their literal is the one that is printed for what it reads as. -/
theorem ofBytes_display :
    (∀ c : Components, c.fractionFits = true →
      isLiteral (Utf8.bytes c.display) = true ∧ ∃ c', ofBytes (Utf8.bytes c.display) = .ok c' ∧
        ∀ other, other.Trims c ↔ other = c') ∧
      ∀ input c, ofBytes input = .ok c →
        ofBytes (Utf8.bytes c.display) = .ok c ∧
          (ofBytes (Utf8.bytes c.display)).map display = .ok c.display := by
  refine ⟨fun c fits => ⟨?_, ?_⟩, fun input c read => ?_⟩
  · rw [bytes_display, isLiteral,
      Literal.ofBytes?_eq_some_iff.2 ⟨c.wellFormed_literal, c.bytes_literal⟩]
    rfl
  · obtain ⟨c', trims⟩ := exists_trims fits
    rw [bytes_display]
    refine ⟨c', (ofBytes_text_iff_trims fits).2 trims, fun other => ?_⟩
    exact ⟨fun h => h.unique trims, fun same => same ▸ trims⟩
  · rw [bytes_display, ofBytes_text (read_of_ofBytes read)]
    exact ⟨rfl, rfl⟩

/-- A fraction with zeros on both sides, made by hand and read, with a zero exponent that has a
sign. -/
theorem ofBytes_display_zeros :
    (fractionFits ⟨true, 0, 5000, 7, true, 0⟩ = true ∧
      ofBytes (Utf8.bytes (display ⟨true, 0, 5000, 7, true, 0⟩)) = .ok ⟨true, 0, 5, 4, true, 0⟩) ∧
      ofBytes (Utf8.bytes "-0.000500E-00") = .ok ⟨true, 0, 5, 4, true, 0⟩ ∧
        ofBytes (Utf8.bytes (display ⟨true, 0, 5, 4, true, 0⟩)) = .ok ⟨true, 0, 5, 4, true, 0⟩ := by
  have fits : fractionFits ⟨true, 0, 5000, 7, true, 0⟩ = true := by
    simp [fractionFits, Decimal.length, Decimal.digits]
  obtain ⟨-, c', read, unique⟩ := ofBytes_display.1 _ fits
  have trims : Trims ⟨true, 0, 5, 4, true, 0⟩ ⟨true, 0, 5000, 7, true, 0⟩ :=
    ⟨rfl, rfl, ⟨3, rfl, rfl⟩, .inr (by decide), rfl, rfl⟩
  rw [← (unique _).1 trims] at read
  have literal : ofBytes (Utf8.bytes "-0.000500E-00") = .ok ⟨true, 0, 5, 4, true, 0⟩ := by rfl
  exact ⟨⟨fits, read⟩, literal, (ofBytes_display.2 _ _ literal).1⟩

end Components

end Number

end JsonStream
