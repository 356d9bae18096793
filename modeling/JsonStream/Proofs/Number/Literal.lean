import Mathlib.Tactic.SplitIfs
import JsonStream.Number.Literal

/-!
# Well-formed literals

The grammar of numbers as a condition on the parts of a literal: an integer part without leading
zeros, digits after a point, and an exponent with a letter, a sign or none, and digits.

* `Number.Literal.ofBytes?_eq_some_iff`: taking a byte string apart succeeds exactly on the bytes of
  a well-formed literal, and gives that literal.
-/

namespace JsonStream

namespace Number

/-- A run of decimal digits, possibly empty. -/
def Digits (bytes : Bytes) : Prop :=
  ∀ d ∈ bytes, Byte.isDigit d = true

theorem digits_nil : Digits [] := fun _ mem => absurd mem List.not_mem_nil

theorem digits_cons_iff {d : UInt8} {bytes : Bytes} :
    Digits (d :: bytes) ↔ Byte.isDigit d = true ∧ Digits bytes :=
  List.forall_mem_cons

/-- What does not continue a run of digits. -/
def NoDigit (rest : Bytes) : Prop :=
  ∀ d ∈ rest.head?, Byte.isDigit d = false

theorem noDigit_nil : NoDigit [] := nofun

theorem noDigit_cons_iff {d : UInt8} {rest : Bytes} :
    NoDigit (d :: rest) ↔ Byte.isDigit d = false := by
  rw [NoDigit]
  rw [List.head?_cons]
  simp only [Option.mem_some_iff, forall_eq']

/-! ### Leading digits -/

theorem digits_leadingDigits (input : Bytes) : Digits (leadingDigits input) :=
  List.all_eq_true.1 List.all_takeWhile

theorem leadingDigits_of_noDigit {rest : Bytes} (h : NoDigit rest) :
    leadingDigits rest = [] ∧ afterDigits rest = rest := by
  cases rest with
  | nil => exact ⟨rfl, rfl⟩
  | cons d rest =>
    have stop : ¬Byte.isDigit d = true := Bool.eq_false_iff.1 (noDigit_cons_iff.1 h)
    exact ⟨List.takeWhile_cons_of_neg stop, List.dropWhile_cons_of_neg stop⟩

theorem leadingDigits_append {digits rest : Bytes} (h : Digits digits) (stop : NoDigit rest) :
    leadingDigits (digits ++ rest) = digits ∧ afterDigits (digits ++ rest) = rest := by
  rw [leadingDigits, afterDigits]
  rw [List.takeWhile_append_of_pos h, List.dropWhile_append_of_pos h]
  obtain ⟨none, all⟩ := leadingDigits_of_noDigit stop
  exact ⟨(congrArg (digits ++ ·) none).trans (List.append_nil digits), all⟩

/-! ### Well-formed parts -/

/-- The letter of an exponent, in either case. -/
def IsMark (byte : UInt8) : Prop :=
  byte = Byte.lowerE ∨ byte = Byte.upperE

/-- A sign in front of the digits of an exponent. -/
def IsSign (byte : UInt8) : Prop :=
  byte = Byte.plus ∨ byte = Byte.minus

/-- A letter, a sign or none, and one digit or more. -/
structure Exponent.WellFormed (exponent : Exponent) : Prop where
  mark : IsMark exponent.mark
  sign : ∀ byte ∈ exponent.sign, IsSign byte
  digits : Digits exponent.digits
  nonempty : exponent.digits ≠ []

/-- A zero alone, or digits that start with another one. -/
def IsInteger (bytes : Bytes) : Prop :=
  bytes = [Byte.zero] ∨
    ∃ d rest, bytes = d :: rest ∧ d ≠ Byte.zero ∧ Byte.isDigit d = true ∧ Digits rest

/-- One digit or more, if there is a point at all. -/
def IsFraction (fraction : Option Bytes) : Prop :=
  ∀ digits ∈ fraction, Digits digits ∧ digits ≠ []

/-- A well-formed exponent, if there is one at all. -/
def IsExponent (exponent : Option Exponent) : Prop :=
  ∀ e ∈ exponent, e.WellFormed

/-- The parts follow the grammar of numbers. -/
structure Literal.WellFormed (literal : Literal) : Prop where
  integer : IsInteger literal.integer
  fraction : IsFraction literal.fraction
  exponent : IsExponent literal.exponent

namespace Literal

theorem isDigit_of_isMark {byte : UInt8} (h : IsMark byte) : Byte.isDigit byte = false := by
  rcases h with rfl | rfl <;> decide

theorem isDigit_of_isSign {byte : UInt8} (h : IsSign byte) : Byte.isDigit byte = false := by
  rcases h with rfl | rfl <;> decide

theorem noDigit_exponentBytes {exponent : Option Exponent} (h : IsExponent exponent) :
    NoDigit (exponentBytes exponent) := by
  cases exponent with
  | none => exact noDigit_nil
  | some e => exact noDigit_cons_iff.2 (isDigit_of_isMark (h e rfl).mark)

theorem noDigit_fractionBytes {exponent : Option Exponent} (h : IsExponent exponent)
    (fraction : Option Bytes) : NoDigit (fractionBytes fraction ++ exponentBytes exponent) := by
  cases fraction with
  | none => exact noDigit_exponentBytes h
  | some digits => exact noDigit_cons_iff.2 (by decide)

/-! ### Parts that are taken are well formed -/

theorem isInteger_of_takeInteger? {input digits rest : Bytes}
    (h : takeInteger? input = some (digits, rest)) : IsInteger digits := by
  cases input with
  | nil => contradiction
  | cons byte more =>
    rw [takeInteger?] at h
    split_ifs at h with zero digit
    · cases h
      exact .inl (congrArg (fun b => [b]) zero)
    · cases h
      exact .inr ⟨byte, _, rfl, zero, digit, digits_leadingDigits more⟩

theorem digits_of_takeDigits? {input digits rest : Bytes}
    (h : takeDigits? input = some (digits, rest)) : Digits digits ∧ digits ≠ [] := by
  rw [takeDigits?] at h
  split_ifs at h with empty
  cases h
  exact ⟨digits_leadingDigits input, fun none => empty (List.isEmpty_iff.2 none)⟩

theorem isFraction_of_takeFraction? {input rest : Bytes} {fraction : Option Bytes}
    (h : takeFraction? input = some (fraction, rest)) : IsFraction fraction := by
  cases input with
  | nil =>
    cases h
    exact nofun
  | cons byte more =>
    rw [takeFraction?] at h
    split_ifs at h with point
    · obtain ⟨taken, found, h⟩ := Option.map_eq_some_iff.1 h
      cases h
      intro digits mem
      cases mem
      exact digits_of_takeDigits? found
    · cases h
      exact nofun

theorem isSign_of_takeExponentSign (input : Bytes) :
    ∀ byte ∈ (takeExponentSign input).1, IsSign byte := by
  intro byte mem
  cases input with
  | nil => contradiction
  | cons first more =>
    rw [takeExponentSign] at mem
    split_ifs at mem with sign
    · cases mem
      exact sign
    · contradiction

theorem isExponent_of_takeExponent? {input rest : Bytes} {exponent : Option Exponent}
    (h : takeExponent? input = some (exponent, rest)) : IsExponent exponent := by
  cases input with
  | nil =>
    cases h
    exact nofun
  | cons byte more =>
    rw [takeExponent?] at h
    split_ifs at h with mark
    · obtain ⟨taken, found, h⟩ := Option.map_eq_some_iff.1 h
      cases h
      intro e mem
      cases mem
      obtain ⟨digits, nonempty⟩ := digits_of_takeDigits? found
      exact ⟨mark, isSign_of_takeExponentSign more, digits, nonempty⟩
    · cases h
      exact nofun

theorem wellFormed_of_ofBytes? {input : Bytes} {literal : Literal}
    (h : ofBytes? input = some literal) : literal.WellFormed := by
  obtain ⟨integer, hi, h⟩ := Option.bind_eq_some_iff.1 h
  obtain ⟨fraction, hf, h⟩ := Option.bind_eq_some_iff.1 h
  obtain ⟨exponent, he, h⟩ := Option.bind_eq_some_iff.1 h
  split_ifs at h
  cases h
  exact ⟨isInteger_of_takeInteger? hi, isFraction_of_takeFraction? hf,
    isExponent_of_takeExponent? he⟩

/-! ### Well-formed parts are taken -/

theorem takeInteger?_append {digits rest : Bytes} (h : IsInteger digits) (stop : NoDigit rest) :
    takeInteger? (digits ++ rest) = some (digits, rest) := by
  rcases h with rfl | ⟨d, more, rfl, nonzero, digit, digits⟩
  · rw [List.singleton_append, takeInteger?, if_pos rfl]
  · obtain ⟨leading, after⟩ := leadingDigits_append digits stop
    rw [List.cons_append, takeInteger?, if_neg nonzero, if_pos digit, leading, after]

theorem takeDigits?_append {digits rest : Bytes} (h : Digits digits) (nonempty : digits ≠ [])
    (stop : NoDigit rest) : takeDigits? (digits ++ rest) = some (digits, rest) := by
  obtain ⟨leading, after⟩ := leadingDigits_append h stop
  have some : ¬digits.isEmpty = true := fun none => nonempty (List.isEmpty_iff.1 none)
  rw [takeDigits?]
  rw [leading, after, if_neg some]

theorem takeExponentSign_append {sign : Option UInt8} {digits : Bytes}
    (h : ∀ byte ∈ sign, IsSign byte) (all : Digits digits) :
    takeExponentSign (sign.toList ++ digits) = (sign, digits) := by
  cases sign with
  | some byte => exact if_pos (h byte rfl)
  | none =>
    cases digits with
    | nil => rfl
    | cons d rest =>
      have digit := (digits_cons_iff.1 all).1
      have unsigned : ¬IsSign d := fun sign =>
        Bool.false_ne_true ((isDigit_of_isSign sign).symm.trans digit)
      exact if_neg unsigned

theorem takeExponent?_exponentBytes {exponent : Option Exponent} (h : IsExponent exponent) :
    takeExponent? (exponentBytes exponent) = some (exponent, []) := by
  cases exponent with
  | none => rfl
  | some e =>
    obtain ⟨mark, sign, digits, nonempty⟩ := h e rfl
    have letter : e.mark = Byte.lowerE ∨ e.mark = Byte.upperE := mark
    have taken := takeDigits?_append digits nonempty noDigit_nil
    rw [List.append_nil] at taken
    rw [exponentBytes, Exponent.bytes, takeExponent?, if_pos letter,
      takeExponentSign_append sign digits, taken, Option.map_some]

theorem takeFraction?_append {fraction : Option Bytes} {exponent : Option Exponent}
    (hf : IsFraction fraction) (he : IsExponent exponent) :
    takeFraction? (fractionBytes fraction ++ exponentBytes exponent) =
      some (fraction, exponentBytes exponent) := by
  cases fraction with
  | some digits =>
    obtain ⟨all, nonempty⟩ := hf digits rfl
    have taken := takeDigits?_append all nonempty (noDigit_exponentBytes he)
    rw [fractionBytes, List.cons_append, takeFraction?, if_pos rfl, taken, Option.map_some]
  | none =>
    cases exponent with
    | none => rfl
    | some e =>
      have other : e.mark ≠ Byte.point := by
        rcases (he e rfl).mark with mark | mark <;> rw [mark] <;> decide
      rw [fractionBytes, List.nil_append, exponentBytes, Exponent.bytes, takeFraction?, if_neg other]

theorem takeSign_append {negative : Bool} {digits rest : Bytes} (h : IsInteger digits) :
    takeSign ((if negative then [Byte.minus] else []) ++ (digits ++ rest)) =
      (negative, digits ++ rest) := by
  cases negative with
  | true =>
    show takeSign (Byte.minus :: (digits ++ rest)) = _
    rw [takeSign, if_pos rfl]
  | false =>
    rcases h with rfl | ⟨d, more, rfl, -, digit, -⟩
    · show takeSign (Byte.zero :: rest) = _
      rw [takeSign, if_neg (by decide)]
      rfl
    · have other : d ≠ Byte.minus := by
        intro same
        subst same
        contradiction
      show takeSign (d :: (more ++ rest)) = _
      rw [takeSign, if_neg other]
      rfl

/-- **Taking apart succeeds exactly on well-formed literals.** -/
theorem ofBytes?_eq_some_iff {input : Bytes} {literal : Literal} :
    ofBytes? input = some literal ↔ literal.WellFormed ∧ literal.bytes = input := by
  constructor
  · intro h
    exact ⟨wellFormed_of_ofBytes? h, bytes_of_ofBytes? h⟩
  · intro found
    obtain ⟨⟨integer, fraction, exponent⟩, rfl⟩ := found
    rw [ofBytes?, bytes]
    rw [takeSign_append integer, takeInteger?_append integer (noDigit_fractionBytes exponent _)]
    dsimp only [Option.bind_some]
    rw [takeFraction?_append fraction exponent]
    dsimp only [Option.bind_some]
    rw [takeExponent?_exponentBytes exponent]
    dsimp only [Option.bind_some]
    rw [if_pos rfl]

theorem WellFormed.bytes_ne_nil {literal : Literal} (h : literal.WellFormed) :
    literal.bytes ≠ [] := by
  intro none
  have integer := (List.append_eq_nil_iff.1 (List.append_eq_nil_iff.1 none).2).1
  rcases h.integer with zero | ⟨d, rest, digits, -⟩
  · rw [zero] at integer
    contradiction
  · rw [digits] at integer
    contradiction

end Literal

end Number

end JsonStream
