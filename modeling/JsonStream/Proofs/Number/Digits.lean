import Mathlib.Data.List.Induction
import JsonStream.Proofs.Number.Literal

/-!
# Digits and the numbers they stand for

Writing a number and reading a run of digits undo each other: on integer parts without leading zeros
exactly, and on any run of digits if its width is kept.

* `Decimal.digits_value`: integer parts.
* `Decimal.padded_value`: runs of digits of a given width.
-/

namespace JsonStream

open Number

namespace Decimal

/-! ### One digit -/

theorem toNat_of_isDigit {d : UInt8} (h : Byte.isDigit d = true) :
    d.toNat = 48 + Byte.digitValue d ∧ Byte.digitValue d < 10 := by
  simp only [Byte.isDigit, Bool.and_eq_true, decide_eq_true_eq, UInt8.le_iff_toNat_le, Byte.zero,
    Byte.nine, UInt8.reduceToNat] at h
  rw [Byte.digitValue]
  simp only [Byte.zero, UInt8.reduceToNat]
  omega

theorem ofDigit_digitValue {d : UInt8} (h : Byte.isDigit d = true) :
    Byte.ofDigit (Byte.digitValue d) = d := by
  obtain ⟨same, small⟩ := toNat_of_isDigit h
  apply UInt8.toNat_inj.1
  rw [Byte.toNat_ofDigit small, same]

theorem digitValue_pos {d : UInt8} (h : Byte.isDigit d = true) (nonzero : d ≠ Byte.zero) :
    0 < Byte.digitValue d := by
  obtain ⟨same, -⟩ := toNat_of_isDigit h
  rcases Nat.eq_zero_or_pos (Byte.digitValue d) with zero | positive
  · rw [zero] at same
    exact absurd (UInt8.toNat_inj.1 same) nonzero
  · exact positive

/-! ### Numbers as digits -/

theorem digits_of_lt {n : Nat} (h : n < 10) : digits n = [Byte.ofDigit n] := by
  rw [digits, if_pos h]

/-- One more digit at the end. -/
theorem digits_ten_mul_add {n d : Nat} (positive : 0 < n) (digit : d < 10) :
    digits (10 * n + d) = digits n ++ [Byte.ofDigit d] := by
  have large : ¬10 * n + d < 10 := by omega
  have front : (10 * n + d) / 10 = n := by omega
  have last : (10 * n + d) % 10 = d := by omega
  rw [digits, if_neg large, front, last]

theorem digits_digits (n : Nat) : Digits (digits n) :=
  fun _ mem => isDigit_of_mem_digits mem

theorem value_lt_value_append (front : Bytes) (d : UInt8) (h : 0 < value front) :
    0 < value (front ++ [d]) := by
  rw [value_append_singleton]
  omega

/-- **Integer parts are what is written for their numbers.** -/
theorem digits_value {bytes : Bytes} (h : IsInteger bytes) : digits (value bytes) = bytes := by
  rcases h with rfl | ⟨d, rest, rfl, nonzero, digit, all⟩
  · exact digits_of_lt (by decide)
  · have positive := digitValue_pos digit nonzero
    -- The number stays positive, so that every further digit is one of its own.
    suffices both : digits (value (d :: rest)) = d :: rest ∧ 0 < value (d :: rest) from both.1
    induction rest using List.reverseRecOn with
    | nil =>
      have one : value [d] = Byte.digitValue d := by
        rw [value, valueFrom_cons, valueFrom_nil]
        omega
      rw [one, digits_of_lt (toNat_of_isDigit digit).2, ofDigit_digitValue digit]
      exact ⟨rfl, positive⟩
    | append_singleton rest e ih =>
      have last : Byte.isDigit e = true := all e (List.mem_append_right _ (List.mem_singleton.2 rfl))
      obtain ⟨same, more⟩ := ih fun b mem => all b (List.mem_append_left _ mem)
      rw [← List.cons_append]
      refine ⟨?_, value_lt_value_append _ e more⟩
      rw [value_append_singleton, digits_ten_mul_add more (toNat_of_isDigit last).2, same,
        ofDigit_digitValue last]

/-- **What is written for a number is an integer part.** -/
theorem isInteger_digits (n : Nat) : IsInteger (digits n) := by
  induction n using digits.induct with
  | case1 n small =>
    rw [digits_of_lt small]
    by_cases zero : n = 0
    · rw [zero]
      exact .inl rfl
    · refine .inr ⟨Byte.ofDigit n, [], rfl, ?_, Byte.isDigit_ofDigit small, digits_nil⟩
      intro same
      have value := Byte.digitValue_ofDigit small
      rw [same] at value
      exact zero value.symm
  | case2 n large ih =>
    have last : n % 10 < 10 := Nat.mod_lt n (by omega)
    rw [digits, if_neg large]
    rcases ih with zero | ⟨d, rest, same, nonzero, digit, all⟩
    · have value := value_digits (n / 10)
      rw [zero] at value
      have small : n / 10 = 0 := value.symm
      omega
    · refine .inr ⟨d, rest ++ [Byte.ofDigit (n % 10)], by rw [same]; rfl, nonzero, digit, ?_⟩
      intro b mem
      rcases List.mem_append.1 mem with mem | mem
      · exact all b mem
      · rw [List.mem_singleton.1 mem]
        exact Byte.isDigit_ofDigit last

/-! ### Runs of digits -/

theorem value_zero_cons (bytes : Bytes) : value (Byte.zero :: bytes) = value bytes :=
  valueFrom_cons 0 Byte.zero bytes

theorem value_append_zeros (bytes : Bytes) (count : Nat) :
    value (bytes ++ List.replicate count Byte.zero) = value bytes * Nat.pow 10 count := by
  induction count with
  | zero =>
    rw [List.replicate_zero, List.append_nil]
    exact (Nat.mul_one _).symm
  | succ count ih =>
    rw [List.replicate_succ', ← List.append_assoc, value_append_singleton, ih]
    show 10 * (value bytes * Nat.pow 10 count) = value bytes * (Nat.pow 10 count * 10)
    rw [Nat.mul_comm 10, Nat.mul_assoc]

/-- A run of digits is an integer part with zeros in front. -/
theorem exists_leading_zeros {bytes : Bytes} (all : Digits bytes) (nonempty : bytes ≠ []) :
    ∃ count integer, bytes = List.replicate count Byte.zero ++ integer ∧ IsInteger integer ∧
      value bytes = value integer := by
  induction bytes with
  | nil => contradiction
  | cons d rest ih =>
    obtain ⟨digit, rest_digits⟩ := digits_cons_iff.1 all
    by_cases zero : d = Byte.zero
    · subst zero
      by_cases last : rest = []
      · subst last
        exact ⟨0, [Byte.zero], rfl, .inl rfl, rfl⟩
      · obtain ⟨count, integer, same, isInteger, value_eq⟩ := ih rest_digits last
        refine ⟨count + 1, integer, ?_, isInteger, ?_⟩
        · rw [List.replicate_succ, List.cons_append, ← same]
        · rw [value_zero_cons, value_eq]
    · exact ⟨0, d :: rest, rfl, .inr ⟨d, rest, rfl, zero, digit, rest_digits⟩, rfl⟩

/-- **A run of digits is what is written for its number in its width.** -/
theorem padded_value {bytes : Bytes} (all : Digits bytes) (nonempty : bytes ≠ []) :
    padded bytes.length (value bytes) = bytes := by
  obtain ⟨count, integer, same, isInteger, value_eq⟩ := exists_leading_zeros all nonempty
  have width : bytes.length - integer.length = count := by
    rw [same, List.length_append, List.length_replicate]
    omega
  rw [padded, value_eq, digits_value isInteger, width, ← same]

/-- The digits of a number are no more than those it was read from. -/
theorem length_value_le {bytes : Bytes} (all : Digits bytes) :
    length (value bytes) ≤ bytes.length := by
  rw [length]
  by_cases zero : value bytes = 0
  · rw [if_pos zero]
    exact Nat.zero_le _
  · rw [if_neg zero]
    have nonempty : bytes ≠ [] := by
      intro same
      subst same
      exact zero rfl
    obtain ⟨count, integer, same, isInteger, value_eq⟩ := exists_leading_zeros all nonempty
    rw [value_eq, digits_value isInteger, same, List.length_append]
    omega

theorem digits_padded (width n : Nat) : Digits (padded width n) := by
  intro d mem
  rcases List.mem_append.1 mem with mem | mem
  · rw [List.eq_of_mem_replicate mem]
    rfl
  · exact isDigit_of_mem_digits mem

theorem padded_ne_nil (width n : Nat) : padded width n ≠ [] :=
  List.append_ne_nil_of_right_ne_nil _ (digits_ne_nil n)

/-! ### Words -/

theorem word?_eq_some_iff {n : Nat} {w : UInt64} : word? n = some w ↔ w.toNat = n := by
  rw [word?]
  by_cases fits : n < UInt64.size
  · rw [if_pos fits, Option.some_inj, ← UInt64.toNat_inj, UInt64.toNat_ofNat_of_lt' fits]
    exact eq_comm
  · rw [if_neg fits]
    have bound := w.toNat_lt_size
    constructor
    · exact nofun
    · intro same
      omega

end Decimal

end JsonStream
