import Mathlib.Data.List.DropRight
import Mathlib.Tactic.SplitIfs
import JsonStream.Number.Components
import JsonStream.Proofs.Number.Digits

/-!
# Canonical literals

The components of a literal are printed as a literal with the same components. It has no leading
zeros beyond those of the fraction, no trailing ones, and no exponent that is a zero without sign.

* `Number.Components.ofBytes_text`: reading undoes printing for components that have been read.
* `Number.Components.fractionFits_of_read`: such components are printed at all.
-/

namespace JsonStream

namespace Number

/-! ### Exponents -/

namespace Exponent

/-- The exponent that is printed for a magnitude: a sign stands only in front of a negative one. -/
def printed (negative : Bool) (magnitude : Nat) : Exponent where
  mark := Byte.lowerE
  sign := if negative then some Byte.minus else none
  digits := Decimal.digits magnitude

theorem bytes_printed (negative : Bool) (magnitude : Nat) :
    (printed negative magnitude).bytes =
      Byte.lowerE :: ((if negative then [Byte.minus] else []) ++ Decimal.digits magnitude) := by
  rw [bytes, printed]
  cases negative <;> rfl

theorem wellFormed_printed (negative : Bool) (magnitude : Nat) :
    (printed negative magnitude).WellFormed := by
  refine ⟨.inl rfl, ?_, Decimal.digits_digits _, Decimal.digits_ne_nil _⟩
  intro byte sign
  cases negative with
  | true =>
    cases sign
    exact .inr rfl
  | false => contradiction

theorem negative_printed (negative : Bool) (magnitude : Nat) :
    (printed negative magnitude).negative = negative := by
  cases negative <;> rfl

end Exponent

namespace Components

/-! ### Words -/

/-- Checking at every digit whether the number fits is checking it at the end. -/
theorem foldlM_word? (digits : Bytes) (start : UInt64) :
    digits.foldlM (fun n d => Decimal.word? (10 * n.toNat + Byte.digitValue d)) start =
      Decimal.word? (Decimal.valueFrom start.toNat digits) := by
  induction digits generalizing start with
  | nil => exact (Decimal.word?_eq_some_iff.2 rfl).symm
  | cons d rest ih =>
    rw [List.foldlM_cons, Decimal.valueFrom_cons]
    cases next : Decimal.word? (10 * start.toNat + Byte.digitValue d) with
    | some n =>
      rw [← Decimal.word?_eq_some_iff.1 next]
      exact ih n
    | none =>
      have large : ¬10 * start.toNat + Byte.digitValue d < UInt64.size := by
        intro fits
        rw [Decimal.word?, if_pos fits] at next
        contradiction
      have grows := Decimal.le_valueFrom (10 * start.toNat + Byte.digitValue d) rest
      rw [Decimal.word?, if_neg (by omega)]
      rfl

theorem word?_eq_some_iff {digits : Bytes} {w : UInt64} :
    word? digits = some w ↔ w.toNat = Decimal.value digits := by
  rw [word?, foldlM_word?, Decimal.word?_eq_some_iff]
  rfl

theorem word?_digits (w : UInt64) : word? (Decimal.digits w.toNat) = some w :=
  word?_eq_some_iff.2 (Decimal.value_digits w.toNat).symm

/-! ### Fractions -/

theorem fractionScan?_append_singleton (read : Bytes) (d : UInt8) :
    fractionScan? (read ++ [d]) = (fractionScan? read).bind (·.push? d) := by
  simp only [fractionScan?]
  rw [List.foldlM_append]
  cases List.foldlM FractionScan.push? ({} : FractionScan) read with
  | none => rfl
  | some scan => exact bind_pure (scan.push? d)

/-- The digits of a fraction up to the last one that is not a zero. -/
def significant (digits : Bytes) : Bytes :=
  digits.rdropWhile (· == Byte.zero)

theorem significant_append_zero (digits : Bytes) :
    significant (digits ++ [Byte.zero]) = significant digits :=
  List.rdropWhile_concat_pos _ _ _ rfl

theorem significant_append_of_ne (digits : Bytes) {d : UInt8} (nonzero : d ≠ Byte.zero) :
    significant (digits ++ [d]) = digits ++ [d] :=
  List.rdropWhile_concat_neg _ _ _ (by simpa using nonzero)

theorem significant_significant (digits : Bytes) :
    significant (significant digits) = significant digits :=
  List.rdropWhile_idempotent _ _

theorem length_significant_le (digits : Bytes) : (significant digits).length ≤ digits.length :=
  (List.rdropWhile_prefix _ _).length_le

/-- Only zeros follow the significant digits. -/
theorem significant_append_zeros (digits : Bytes) :
    significant digits ++
      List.replicate (digits.length - (significant digits).length) Byte.zero = digits := by
  induction digits using List.reverseRecOn with
  | nil => rfl
  | append_singleton digits d ih =>
    by_cases zero : d = Byte.zero
    · have length := length_significant_le digits
      have more : (digits ++ [Byte.zero]).length - (significant digits).length =
          digits.length - (significant digits).length + 1 := by
        rw [List.length_append, List.length_singleton]
        omega
      rw [zero, significant_append_zero, more, List.replicate_succ', ← List.append_assoc, ih]
    · rw [significant_append_of_ne digits zero, Nat.sub_self]
      exact List.append_nil _

/-- One more digit of the fraction. -/
theorem value_append_digit (digits : Bytes) (d : UInt8) :
    Decimal.value (digits ++ [d]) =
      Decimal.value (significant digits) *
        Nat.pow 10 (digits.length - (significant digits).length + 1) + Byte.digitValue d := by
  have tenfold : ∀ n, Nat.pow 10 (n + 1) = Nat.pow 10 n * 10 := fun _ => rfl
  have value := Decimal.value_append_zeros (significant digits)
    (digits.length - (significant digits).length)
  rw [significant_append_zeros] at value
  rw [Decimal.value_append_singleton, value, tenfold, Nat.mul_comm 10, Nat.mul_assoc]

/-- **A fraction is read if its significant digits fit a word.** -/
theorem fractionScan?_eq (digits : Bytes) :
    fractionScan? digits =
      (Decimal.word? (Decimal.value (significant digits))).map fun word =>
        ⟨word, (significant digits).length, digits.length - (significant digits).length⟩ := by
  induction digits using List.reverseRecOn with
  | nil => rfl
  | append_singleton digits d ih =>
    have value := value_append_digit digits d
    rw [fractionScan?_append_singleton, ih]
    cases read : Decimal.word? (Decimal.value (significant digits)) with
    | none =>
      by_cases zero : d = Byte.zero
      · rw [zero, significant_append_zero, read]
        rfl
      · -- What does not fit does not fit with more digits either.
        have large : Decimal.value (significant digits) ≤ Decimal.value (digits ++ [d]) := by
          rw [value]
          exact Nat.le_add_right_of_le (Nat.le_mul_of_pos_right _ (Nat.pow_pos (by decide)))
        have beyond : ¬Decimal.value (significant digits) < UInt64.size := by
          intro fits
          rw [Decimal.word?, if_pos fits] at read
          contradiction
        rw [significant_append_of_ne digits zero, Decimal.word?, if_neg (by omega)]
        rfl
    | some word =>
      rw [Option.map_some, Option.bind_some, FractionScan.push?]
      by_cases zero : d = Byte.zero
      · have length := length_significant_le digits
        rw [if_pos zero, zero, significant_append_zero, read, Option.map_some, List.length_append,
          List.length_singleton, Nat.sub_add_comm length]
      · have length := length_significant_le digits
        have places : (digits ++ [d]).length =
            (significant digits).length + (digits.length - (significant digits).length + 1) := by
          rw [List.length_append, List.length_singleton]
          omega
        rw [if_neg zero, significant_append_of_ne digits zero, value,
          Decimal.word?_eq_some_iff.1 read, places, Nat.sub_self]

/-- The scan of a fraction stands for its digits up to the last one that is not a zero, and these
alone have the same scan. -/
theorem exists_core {read : Bytes} {scan : FractionScan} (h : fractionScan? read = some scan) :
    ∃ core, read = core ++ List.replicate scan.zeros Byte.zero ∧
      scan.digits.toNat = Decimal.value core ∧ scan.places = core.length ∧
        fractionScan? core = some { scan with zeros := 0 } := by
  rw [fractionScan?_eq] at h
  obtain ⟨word, fits, rfl⟩ := Option.map_eq_some_iff.1 h
  refine ⟨significant read, (significant_append_zeros read).symm,
    Decimal.word?_eq_some_iff.1 fits, rfl, ?_⟩
  rw [fractionScan?_eq, significant_significant, fits, Option.map_some, Nat.sub_self]

/-! ### Components of a literal -/

theorem ofLiteral?_eq_some_iff {l : Literal} {c : Components} :
    ofLiteral? l = some c ↔
      c.negative = l.negative ∧ word? l.integer = some c.integer ∧
        (∃ zeros, fractionScan? (l.fraction.getD []) = some ⟨c.fraction, c.places, zeros⟩) ∧
          c.exponentNegative = l.exponentNegative ∧ word? l.exponentDigits = some c.exponent := by
  obtain ⟨negative, integer, fraction, places, exponentNegative, exponent⟩ := c
  rw [ofLiteral?]
  constructor
  · intro h
    obtain ⟨i, hi, h⟩ := Option.bind_eq_some_iff.1 h
    obtain ⟨scan, hf, h⟩ := Option.bind_eq_some_iff.1 h
    obtain ⟨e, he, h⟩ := Option.bind_eq_some_iff.1 h
    cases h
    exact ⟨rfl, hi, ⟨scan.zeros, hf⟩, rfl, he⟩
  · intro ⟨negative_eq, hi, ⟨zeros, hf⟩, exponentNegative_eq, he⟩
    rw [hi, hf, he]
    cases negative_eq
    cases exponentNegative_eq
    rfl

/-! ### The canonical literal -/

/-- The digits after the point that are printed. -/
def fractionPart (c : Components) : Option Bytes :=
  if c.places = 0 then none else some (Decimal.padded c.places c.fraction.toNat)

/-- The exponent with its letter, taken apart. -/
def writtenExponent (c : Components) : Exponent :=
  .printed c.exponentNegative c.exponent.toNat

/-- The exponent that is printed. -/
def exponentPart (c : Components) : Option Exponent :=
  if c.exponent ≠ 0 ∨ c.exponentNegative then
    some c.writtenExponent
  else none

/-- The canonical literal, taken apart. -/
def literal (c : Components) : Literal where
  negative := c.negative
  integer := Decimal.digits c.integer.toNat
  fraction := c.fractionPart
  exponent := c.exponentPart

theorem fractionBytes_fractionPart (c : Components) :
    Literal.fractionBytes c.fractionPart = c.fractionText := by
  rw [fractionPart, fractionText]
  split_ifs <;> rfl

theorem bytes_writtenExponent (c : Components) : c.writtenExponent.bytes = c.exponentText :=
  Exponent.bytes_printed _ _

theorem bytes_literal (c : Components) : c.literal.bytes = c.text := by
  have exponent : Literal.exponentBytes c.exponentPart =
      if c.exponent ≠ 0 ∨ c.exponentNegative then c.exponentText else [] := by
    rw [exponentPart]
    by_cases written : c.exponent ≠ 0 ∨ c.exponentNegative = true
    · rw [if_pos written, if_pos written]
      exact c.bytes_writtenExponent
    · rw [if_neg written, if_neg written]
      rfl
  show _ ++ (_ ++ (Literal.fractionBytes c.fractionPart ++
    Literal.exponentBytes c.exponentPart)) = _
  rw [fractionBytes_fractionPart, exponent]
  rw [text, integerText]
  simp only [List.append_assoc]
  rfl

theorem isFraction_fractionPart (c : Components) : IsFraction c.fractionPart := by
  intro digits mem
  rw [fractionPart] at mem
  split_ifs at mem
  · contradiction
  · cases mem
    exact ⟨Decimal.digits_padded _ _, Decimal.padded_ne_nil _ _⟩

theorem isExponent_exponentPart (c : Components) : IsExponent c.exponentPart := by
  intro e mem
  rw [exponentPart] at mem
  by_cases written : c.exponent ≠ 0 ∨ c.exponentNegative = true
  · rw [if_pos written] at mem
    cases mem
    exact Exponent.wellFormed_printed _ _
  · rw [if_neg written] at mem
    contradiction

theorem wellFormed_literal (c : Components) : c.literal.WellFormed where
  integer := Decimal.isInteger_digits _
  fraction := c.isFraction_fractionPart
  exponent := c.isExponent_exponentPart

theorem exponentNegative_literal (c : Components) :
    c.literal.exponentNegative = c.exponentNegative := by
  show c.exponentPart.any Exponent.negative = _
  rw [exponentPart]
  by_cases written : c.exponent ≠ 0 ∨ c.exponentNegative = true
  · rw [if_pos written]
    exact Exponent.negative_printed _ _
  · rw [if_neg written]
    exact (Bool.eq_false_iff.2 fun negative => written (.inr negative)).symm

theorem word?_exponentDigits_literal (c : Components) :
    word? c.literal.exponentDigits = some c.exponent := by
  show word? (c.exponentPart.elim [] Exponent.digits) = _
  rw [exponentPart]
  by_cases written : c.exponent ≠ 0 ∨ c.exponentNegative = true
  · rw [if_pos written]
    exact word?_digits c.exponent
  · rw [if_neg written]
    have zero : c.exponent = 0 := Decidable.not_not.1 fun other => written (.inl other)
    rw [zero]
    rfl

/-- The components were read from a literal. -/
def Read (c : Components) : Prop :=
  ∃ l : Literal, l.WellFormed ∧ ofLiteral? l = some c

theorem read_of_ofBytes {input : Bytes} {c : Components} (h : ofBytes input = .ok c) : c.Read := by
  rw [ofBytes] at h
  cases taken : Literal.ofBytes? input with
  | none =>
    rw [taken] at h
    contradiction
  | some l =>
    rw [taken] at h
    dsimp only at h
    cases read : ofLiteral? l with
    | none =>
      rw [read] at h
      contradiction
    | some c' =>
      rw [read] at h
      cases h
      exact ⟨l, (Literal.ofBytes?_eq_some_iff.1 taken).1, read⟩

theorem Read.fraction {c : Components} (h : c.Read) :
    ∃ core, Digits core ∧ c.fraction.toNat = Decimal.value core ∧ c.places = core.length ∧
      fractionScan? core = some ⟨c.fraction, c.places, 0⟩ := by
  obtain ⟨l, wellFormed, read⟩ := h
  obtain ⟨-, -, ⟨zeros, scan⟩, -, -⟩ := ofLiteral?_eq_some_iff.1 read
  obtain ⟨core, same, digits, places, again⟩ := exists_core scan
  refine ⟨core, ?_, digits, places, again⟩
  have all : Digits (l.fraction.getD []) := by
    cases fraction : l.fraction with
    | none => exact digits_nil
    | some digits => exact (wellFormed.fraction digits fraction).1
  rw [same] at all
  exact fun d mem => all d (List.mem_append_left _ mem)

/-- The digits of a fraction that was read fit its places. -/
theorem fractionFits_of_read {c : Components} (h : c.Read) : c.fractionFits = true := by
  obtain ⟨core, all, digits, places, -⟩ := h.fraction
  have fits := Decimal.length_value_le all
  rw [← digits, ← places] at fits
  exact decide_eq_true fits

/-- The canonical literal has the components that it is printed for. -/
theorem ofLiteral?_literal {c : Components} (h : c.Read) : ofLiteral? c.literal = some c := by
  obtain ⟨core, all, digits, places, scan⟩ := h.fraction
  refine ofLiteral?_eq_some_iff.2 ⟨rfl, word?_digits _, ⟨0, ?_⟩,
    c.exponentNegative_literal.symm, c.word?_exponentDigits_literal⟩
  show fractionScan? (c.fractionPart.getD []) = _
  rw [fractionPart]
  by_cases none : c.places = 0
  · rw [if_pos none]
    have empty : core = [] := List.length_eq_zero_iff.1 (places.symm.trans none)
    rw [empty] at scan
    exact scan
  · rw [if_neg none, Option.getD_some, digits, places, Decimal.padded_value all, scan, places]
    intro same
    subst same
    exact none places

/-- **Reading undoes printing.** -/
theorem ofBytes_text {c : Components} (h : c.Read) : ofBytes c.text = .ok c := by
  have taken := Literal.ofBytes?_eq_some_iff.2 ⟨c.wellFormed_literal, c.bytes_literal⟩
  rw [ofBytes, taken]
  dsimp only
  rw [ofLiteral?_literal h]

end Components

end Number

end JsonStream
