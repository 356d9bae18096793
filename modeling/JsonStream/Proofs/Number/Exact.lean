import Mathlib.Algebra.Order.Field.Rat
import Mathlib.Tactic.FieldSimp
import Mathlib.Tactic.Ring
import JsonStream.Proofs.Number.Conversion

/-!
# Components are exact

A literal denotes a rational number: its digits before and after the point, read as one integer,
times a power of ten. Its components denote the same number in another form, with the magnitude of
each part on its own and without the zeros that end the fraction.

* `Number.Components.ofLiteral?_eq_some_iff_exact`: which components a literal has.
* `Number.Components.Exact.toRat_eq`: they denote the number of the literal.
* `Number.Components.ofBytes_exact`: what becomes of any byte string.
-/

namespace JsonStream

/-! ### Longer runs of digits -/

namespace Decimal

theorem value_append (first second : Bytes) :
    value (first ++ second) = value first * 10 ^ second.length + value second := by
  induction second using List.reverseRecOn with
  | nil =>
    rw [List.append_nil, List.length_nil, pow_zero, Nat.mul_one]
    rfl
  | append_singleton second d ih =>
    rw [← List.append_assoc, value_append_singleton, ih, value_append_singleton,
      List.length_append, List.length_singleton, pow_succ]
    ring

end Decimal

namespace Number

/-! ### Rational values -/

/-- A magnitude with its sign. -/
def signed (negative : Bool) (magnitude : ℚ) : ℚ :=
  if negative then -magnitude else magnitude

/-- The number that a literal denotes. -/
def Literal.toRat (l : Literal) : ℚ :=
  signed l.negative (Decimal.value l.digits * (10 : ℚ) ^ l.scale)

namespace Components

/-- The power of ten of the components. -/
def scale (c : Components) : ℤ :=
  if c.exponentNegative then -(c.exponent.toNat : ℤ) else c.exponent.toNat

/-- The number that components denote. -/
def toRat (c : Components) : ℚ :=
  signed c.negative
    ((c.integer.toNat + c.fraction.toNat / (10 : ℚ) ^ c.places) * (10 : ℚ) ^ c.scale)

/-- The components hold the parts of a literal, the fraction without the zeros that end it. -/
structure Exact (c : Components) (l : Literal) : Prop where
  negative : c.negative = l.negative
  integer : c.integer.toNat = Decimal.value l.integer
  fraction : c.fraction.toNat = Decimal.value (significant (l.fraction.getD []))
  places : c.places = (significant (l.fraction.getD [])).length
  exponentNegative : c.exponentNegative = l.exponentNegative
  exponent : c.exponent.toNat = Decimal.value l.exponentDigits

variable {c : Components} {l : Literal} {input : Bytes}

theorem fractionScan?_eq_some_iff {digits : Bytes} {fraction : UInt64} {places : Nat} :
    (∃ zeros, fractionScan? digits = some ⟨fraction, places, zeros⟩) ↔
      fraction.toNat = Decimal.value (significant digits) ∧
        places = (significant digits).length := by
  rw [fractionScan?_eq]
  constructor
  · rintro ⟨zeros, scan⟩
    obtain ⟨word, fits, same⟩ := Option.map_eq_some_iff.1 scan
    cases same
    exact ⟨Decimal.word?_eq_some_iff.1 fits, rfl⟩
  · rintro ⟨fits, rfl⟩
    rw [Decimal.word?_eq_some_iff.2 fits]
    exact ⟨_, rfl⟩

/-- **The components of a literal are its parts.** -/
theorem ofLiteral?_eq_some_iff_exact : ofLiteral? l = some c ↔ c.Exact l := by
  rw [ofLiteral?_eq_some_iff, word?_eq_some_iff, word?_eq_some_iff, fractionScan?_eq_some_iff]
  constructor
  · rintro ⟨negative, integer, ⟨fraction, places⟩, exponentNegative, exponent⟩
    exact ⟨negative, integer, fraction, places, exponentNegative, exponent⟩
  · intro h
    exact ⟨h.negative, h.integer, ⟨h.fraction, h.places⟩, h.exponentNegative, h.exponent⟩

/-- The zeros that end a run of digits only multiply its number. -/
theorem exists_value_significant (digits : Bytes) :
    ∃ zeros, digits.length = (significant digits).length + zeros ∧
      Decimal.value digits = Decimal.value (significant digits) * 10 ^ zeros := by
  have padded := significant_append_zeros digits
  generalize digits.length - (significant digits).length = zeros at padded
  refine ⟨zeros, ?_, ?_⟩
  · have length := congrArg List.length padded
    rw [List.length_append, List.length_replicate] at length
    exact length.symm
  · have value := Decimal.value_append_zeros (significant digits) zeros
    rw [padded] at value
    exact value

/-- The significant digits over their places are the fraction over its length. -/
theorem value_significant_div (digits : Bytes) :
    (Decimal.value (significant digits) : ℚ) / 10 ^ (significant digits).length =
      Decimal.value digits / 10 ^ digits.length := by
  obtain ⟨zeros, length, value⟩ := exists_value_significant digits
  rw [value, length, pow_add, Nat.cast_mul, Nat.cast_pow, Nat.cast_ofNat]
  field_simp

/-- **The components of a literal denote the number that it denotes.** -/
theorem Exact.toRat_eq (h : c.Exact l) : c.toRat = l.toRat := by
  have scale : l.scale = c.scale - ((l.fraction.getD []).length : ℤ) := by
    rw [Literal.scale, Literal.scaleOf, Components.scale, h.exponentNegative, h.exponent]
  rw [toRat, Literal.toRat, h.negative, h.integer, h.fraction, h.places, value_significant_div,
    Literal.digits, Decimal.value_append, scale, zpow_sub₀ (by norm_num), zpow_natCast]
  congr 1
  push_cast
  field_simp

/-- A digit that is no zero ends the significant ones. -/
theorem significant_eq_nil_or (digits : Bytes) :
    significant digits = [] ∨
      ∃ front d, significant digits = front ++ [d] ∧ d ≠ Byte.zero ∧ d ∈ digits := by
  induction digits using List.reverseRecOn with
  | nil => exact .inl rfl
  | append_singleton digits d ih =>
    by_cases zero : d = Byte.zero
    · rw [zero, significant_append_zero]
      refine ih.imp_right ?_
      rintro ⟨front, e, same, nonzero, mem⟩
      exact ⟨front, e, same, nonzero, List.mem_append_left _ mem⟩
    · rw [significant_append_of_ne digits zero]
      exact .inr ⟨digits, d, rfl, zero, List.mem_append_right _ (List.mem_singleton.2 rfl)⟩

theorem digits_getD_fraction (h : l.WellFormed) : Digits (l.fraction.getD []) := by
  cases fraction : l.fraction with
  | none => exact digits_nil
  | some digits => exact (h.fraction digits fraction).1

/-- No zero ends the fraction of components that were read. -/
theorem Exact.not_ten_dvd (h : c.Exact l) (wellFormed : l.WellFormed) :
    c.places = 0 ∨ ¬10 ∣ c.fraction.toNat := by
  rcases significant_eq_nil_or (l.fraction.getD []) with none | ⟨front, d, same, nonzero, mem⟩
  · refine .inl ?_
    rw [h.places, none]
    rfl
  · refine .inr ?_
    have digit := digits_getD_fraction wellFormed d mem
    have positive := Decimal.digitValue_pos digit nonzero
    have small := (Decimal.toNat_of_isDigit digit).2
    rw [h.fraction, same, Decimal.value_append_singleton]
    omega

/-- A literal whose parts fit has components. -/
theorem exists_exact (fits : l.Fits) : ∃ c : Components, c.Exact l := by
  obtain ⟨c, parts⟩ := Option.isSome_iff_exists.1 ((isSome_ofLiteral? l).2 fits)
  exact ⟨c, ofLiteral?_eq_some_iff_exact.1 parts⟩

/-! ### Byte strings -/

theorem ofBytes_of_wellFormed (wellFormed : l.WellFormed) (same : l.bytes = input) :
    ofBytes input = match ofLiteral? l with
      | none => .error .outOfRange
      | some c => .ok c := by
  have taken : Literal.ofBytes? input = some l :=
    Literal.ofBytes?_eq_some_iff.2 ⟨wellFormed, same⟩
  cases parts : ofLiteral? l with
  | none => simp only [ofBytes, taken, parts]
  | some c => simp only [ofBytes, taken, parts]

theorem ofBytes_eq_malformed_iff : ofBytes input = .error .malformed ↔ ¬NumberText input := by
  constructor
  · rintro malformed ⟨l, wellFormed, same⟩
    rw [ofBytes_of_wellFormed wellFormed same] at malformed
    split at malformed <;> contradiction
  · intro other
    rw [ofBytes]
    cases taken : Literal.ofBytes? input with
    | none => rfl
    | some l => exact absurd ⟨l, Literal.ofBytes?_eq_some_iff.1 taken⟩ other

theorem ofBytes_eq_outOfRange_iff (wellFormed : l.WellFormed) (same : l.bytes = input) :
    ofBytes input = .error .outOfRange ↔ ¬l.Fits := by
  rw [ofBytes_of_wellFormed wellFormed same, ← isSome_ofLiteral?]
  cases ofLiteral? l with
  | none => exact iff_of_true rfl Bool.false_ne_true
  | some c => exact iff_of_false nofun fun none => none rfl

theorem ofBytes_eq_ok_iff (wellFormed : l.WellFormed) (same : l.bytes = input) :
    ofBytes input = .ok c ↔ c.Exact l := by
  rw [ofBytes_of_wellFormed wellFormed same, ← ofLiteral?_eq_some_iff_exact]
  cases ofLiteral? l with
  | none => exact iff_of_false nofun nofun
  | some c' => rw [Except.ok.injEq, Option.some.injEq]

/-- **Components are exact.** What is no literal is malformed. A literal is out of range exactly if
the number before the point, the one after it up to the zeros at its end, or that of the exponent
does not fit a word, however long the runs of digits are. The components of any other literal are
these numbers with the signs: they denote the number that the literal denotes, the digits of their
fraction fit its places, and no zero ends them. -/
theorem ofBytes_exact (input : Bytes) :
    (ofBytes input = .error .malformed ↔ ¬NumberText input) ∧
      ∀ l : Literal, l.WellFormed → l.bytes = input →
        (ofBytes input = .error .outOfRange ↔ ¬l.Fits) ∧
          (∀ c, ofBytes input = .ok c ↔ c.Exact l) ∧
            (l.Fits → ∃ c, ofBytes input = .ok c ∧ c.Exact l ∧ c.toRat = l.toRat ∧
              c.fractionFits = true ∧ (c.places = 0 ∨ ¬10 ∣ c.fraction.toNat)) := by
  refine ⟨ofBytes_eq_malformed_iff, fun l wellFormed same => ⟨ofBytes_eq_outOfRange_iff wellFormed
    same, fun c => ofBytes_eq_ok_iff wellFormed same, fun fits => ?_⟩⟩
  obtain ⟨c, exact⟩ := exists_exact fits
  have parts := ofLiteral?_eq_some_iff_exact.2 exact
  exact ⟨c, (ofBytes_eq_ok_iff wellFormed same).2 exact, exact, exact.toRat_eq,
    fractionFits_of_read ⟨l, wellFormed, parts⟩, exact.not_ten_dvd wellFormed⟩

/-- Zeros on both sides of the digits, and digits that are too many only with the last of them. -/
theorem ofBytes_exact_zeros :
    (∃ l : Literal, l.WellFormed ∧ l.bytes = Utf8.bytes "-12.0050300e-007" ∧ l.Fits ∧
      ofBytes (Utf8.bytes "-12.0050300e-007") = .ok ⟨true, 12, 503, 5, true, 7⟩ ∧
        toRat ⟨true, 12, 503, 5, true, 7⟩ = l.toRat) ∧
      ∃ l : Literal, l.WellFormed ∧ l.bytes = Utf8.bytes "0.10000000000000000000200" ∧ ¬l.Fits ∧
        ofBytes (Utf8.bytes "0.10000000000000000000200") = .error .outOfRange := by
  constructor
  · have taken : Literal.ofBytes? (Utf8.bytes "-12.0050300e-007") =
        some ⟨true, [0x31, 0x32], some [0x30, 0x30, 0x35, 0x30, 0x33, 0x30, 0x30],
          some ⟨0x65, some 0x2d, [0x30, 0x30, 0x37]⟩⟩ := by decide
    obtain ⟨wellFormed, same⟩ := Literal.ofBytes?_eq_some_iff.1 taken
    obtain ⟨-, ok, fitting⟩ := (ofBytes_exact _).2 _ wellFormed same
    have read := (ok ⟨true, 12, 503, 5, true, 7⟩).2
      ⟨rfl, by decide, by decide, by decide, rfl, by decide⟩
    obtain ⟨c, again, -, toRat, -⟩ := fitting ⟨by decide, by decide, by decide⟩
    cases read.symm.trans again
    exact ⟨_, wellFormed, same, ⟨by decide, by decide, by decide⟩, read, toRat⟩
  · have taken : Literal.ofBytes? (Utf8.bytes "0.10000000000000000000200") =
        some ⟨false, [0x30], some ([0x31] ++ List.replicate 19 0x30 ++ [0x32, 0x30, 0x30]), none⟩ :=
      by decide
    obtain ⟨wellFormed, same⟩ := Literal.ofBytes?_eq_some_iff.1 taken
    obtain ⟨range, -⟩ := (ofBytes_exact _).2 _ wellFormed same
    exact ⟨_, wellFormed, same, fun fits => absurd fits.fraction (by decide),
      range.2 fun fits => absurd fits.fraction (by decide)⟩

end Components

end Number

end JsonStream
