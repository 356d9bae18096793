import JsonStream.Proofs.Binary64.Shortest
import JsonStream.Proofs.Number.Display

/-!
# Reading back a printed number

The layout of a decimal is one of four literals, and each has the digits of the decimal and the same
value. As the digits of a number are read back as it, so is its text.

* `Binary64.Denotes`: a literal that stands for a decimal, `Binary64.exists_literal`: every layout
  is one.
* `Binary64.ofBytes?_text`: reading undoes printing.
-/

namespace JsonStream

open Number

namespace Binary64

/-! ### Literals of a decimal -/

/-- A literal with a point or an exponent that stands for a decimal. The digits of its exponent are
all taken. -/
structure Denotes (l : Literal) (d : ShortDecimal) : Prop where
  wellFormed : l.WellFormed
  marked : l.fraction ≠ none ∨ l.exponent ≠ none
  exponent : Decimal.value l.exponentDigits < exponentLimit
  value : (Decimal.value l.digits : ℚ) * 10 ^ l.scale = d.digits * 10 ^ d.exponent

variable {d : ShortDecimal} {l : Literal} {negative : Bool}

theorem Denotes.ofLiteral_eq (h : Denotes l d) :
    ofLiteral l = ofDecimal l.negative d.digits d.exponent := by
  rw [ofLiteral_eq_ofDecimal h.exponent, ofDecimal_congr l.negative h.value]

/-- A positive number starts with a digit that is no zero. -/
theorem exists_head_digits (positive : 0 < d.digits) :
    ∃ a rest, Decimal.digits d.digits = a :: rest ∧ a ≠ Byte.zero ∧ Byte.isDigit a = true ∧
      Digits rest := by
  refine (Decimal.isInteger_digits d.digits).resolve_left fun zero => ?_
  have value := Decimal.value_digits d.digits
  rw [zero] at value
  exact positive.ne value

/-- Without an exponent the value is that of the digits before and after the point, less the places
behind it. -/
theorem denotes_of_fraction {integer fraction : Bytes} (isInteger : IsInteger integer)
    (all : Digits fraction) (nonempty : fraction ≠ [])
    (value : (Decimal.value (integer ++ fraction) : ℚ) =
      d.digits * 10 ^ (d.exponent + fraction.length)) :
    Denotes ⟨negative, integer, some fraction, none⟩ d where
  wellFormed := ⟨isInteger, fun _ written => Option.some.inj written ▸ ⟨all, nonempty⟩, nofun⟩
  marked := .inl nofun
  exponent := (by decide : 0 < exponentLimit)
  value := by
    have scale : Literal.scale ⟨negative, integer, some fraction, none⟩ = -(fraction.length : Int) :=
      zero_sub _
    show (Decimal.value (integer ++ fraction) : ℚ) * _ = _
    rw [scale, value, mul_assoc, ← zpow_add₀ (by norm_num), add_neg_cancel_right]

/-- Digits and zeros, with a zero behind the point. -/
theorem denotes_whole (positive : 0 < d.digits) (whole : 0 ≤ d.exponent) :
    Denotes ⟨negative, Decimal.digits d.digits ++ List.replicate d.exponent.toNat Byte.zero,
      some [Byte.zero], none⟩ d := by
  obtain ⟨a, rest, same, nonzero, digit, all⟩ := exists_head_digits positive
  obtain ⟨n, exponent⟩ := Int.eq_ofNat_of_zero_le whole
  rw [exponent, Int.toNat_natCast]
  refine denotes_of_fraction (.inr ⟨a, _, congrArg (· ++ _) same, nonzero, digit, ?_⟩)
    (digits_cons_iff.2 ⟨rfl, digits_nil⟩) nofun ?_
  · intro b mem
    rcases List.mem_append.1 mem with mem | mem
    · exact all b mem
    · rw [List.eq_of_mem_replicate mem]
      rfl
  · have zeros : List.replicate n Byte.zero ++ [Byte.zero] = List.replicate (n + 1) Byte.zero :=
      List.replicate_succ'.symm
    rw [List.append_assoc, zeros, Decimal.value_append_zeros, Decimal.value_digits, exponent]
    show ((d.digits * 10 ^ (n + 1) : ℕ) : ℚ) = d.digits * 10 ^ ((n : ℤ) + 1)
    push_cast
    rfl

/-- The point stands between the digits. -/
theorem denotes_split (positive : 0 < d.digits) {front : Nat} (some_digit : 0 < front)
    (top : (Decimal.digits d.digits).length + d.exponent = front) (broken : d.exponent < 0) :
    Denotes ⟨negative, (Decimal.digits d.digits).take front,
      some ((Decimal.digits d.digits).drop front), none⟩ d := by
  obtain ⟨a, rest, same, nonzero, digit, all⟩ := exists_head_digits positive
  have digits := Decimal.digits_digits d.digits
  have length := List.length_drop (i := front) (l := Decimal.digits d.digits)
  refine denotes_of_fraction ?_ (fun b mem => digits b (List.mem_of_mem_drop mem)) ?_ ?_
  · obtain ⟨n, rfl⟩ := Nat.exists_eq_succ_of_ne_zero some_digit.ne'
    rw [same, List.take_succ_cons]
    exact .inr ⟨a, _, rfl, nonzero, digit, fun b mem => all b (List.mem_of_mem_take mem)⟩
  · rw [ne_eq, List.drop_eq_nil_iff]
    omega
  · have none : d.exponent + ((Decimal.digits d.digits).drop front).length = 0 := by omega
    rw [List.take_append_drop, Decimal.value_digits, none, zpow_zero, mul_one]

/-- A zero before the point and zeros behind it. -/
theorem denotes_small {zeros : Nat}
    (top : (Decimal.digits d.digits).length + d.exponent = -(zeros : Int)) :
    Denotes ⟨negative, [Byte.zero],
      some (List.replicate zeros Byte.zero ++ Decimal.digits d.digits), none⟩ d := by
  have padded : List.replicate zeros Byte.zero ++ Decimal.digits d.digits =
      Decimal.padded (zeros + (Decimal.digits d.digits).length) d.digits := by
    rw [Decimal.padded, Nat.add_sub_cancel]
  rw [padded]
  refine denotes_of_fraction (.inl rfl) (Decimal.digits_padded _ _) (Decimal.padded_ne_nil _ _) ?_
  have none : d.exponent + (Decimal.padded (zeros + (Decimal.digits d.digits).length)
      d.digits).length = 0 := by
    rw [← padded, List.length_append, List.length_replicate]
    omega
  rw [List.singleton_append, Decimal.value_zero_cons, Decimal.value_padded, none, zpow_zero, mul_one]

/-- The digits behind the first one, if there are any, make up a fraction. -/
theorem isFraction_behind {rest : Bytes} (all : Digits rest) :
    IsFraction (if rest.length + 1 = 1 then none else some rest) ∧
      (if rest.length + 1 = 1 then none else some rest).getD [] = rest := by
  cases rest with
  | nil => exact ⟨nofun, rfl⟩
  | cons b rest => exact ⟨fun _ written => Option.some.inj written ▸ ⟨all, nofun⟩, rfl⟩

/-- One digit stands before the point. -/
theorem denotes_scientific (positive : 0 < d.digits) {power : Int}
    (top : (Decimal.digits d.digits).length + d.exponent = power + 1)
    (small : power.natAbs < exponentLimit) :
    Denotes ⟨negative, (Decimal.digits d.digits).take 1,
      if (Decimal.digits d.digits).length = 1 then none
      else some ((Decimal.digits d.digits).drop 1),
      some (.printed (decide (power < 0)) power.natAbs)⟩ d := by
  obtain ⟨a, rest, same, nonzero, digit, all⟩ := exists_head_digits positive
  have value := Decimal.value_digits d.digits
  rw [same, List.length_cons] at top
  rw [same] at value ⊢
  show Denotes ⟨negative, [a], if rest.length + 1 = 1 then none else some rest, _⟩ d
  obtain ⟨isFraction, behind⟩ := isFraction_behind all
  generalize (if rest.length + 1 = 1 then none else some rest) = fraction at isFraction behind ⊢
  generalize printed : Exponent.printed (decide (power < 0)) power.natAbs = exponent
  have magnitude : Decimal.value exponent.digits = power.natAbs := by
    rw [← printed]
    exact Decimal.value_digits _
  have sign : exponent.negative = decide (power < 0) := by
    rw [← printed, Exponent.negative_printed]
  have wellFormed : exponent.WellFormed := by
    rw [← printed]
    exact Exponent.wellFormed_printed _ _
  refine ⟨⟨.inr ⟨a, [], rfl, nonzero, digit, digits_nil⟩, isFraction, ?_⟩, .inr nofun, ?_, ?_⟩
  · exact fun _ written => Option.some.inj written ▸ wellFormed
  · exact magnitude.trans_lt small
  · have scale : Literal.scale ⟨negative, [a], fraction, some exponent⟩ = d.exponent := by
      show (if exponent.negative = true then -(Decimal.value exponent.digits : Int)
        else Decimal.value exponent.digits) - ((fraction.getD []).length : Int) = _
      rw [magnitude, sign, behind]
      split_ifs with down <;> rw [decide_eq_true_iff] at down <;> omega
    have digits : Literal.digits ⟨negative, [a], fraction, some exponent⟩ = a :: rest :=
      congrArg ([a] ++ ·) behind
    rw [scale, digits, value]

theorem bytes_of_fraction (integer fraction : Bytes) :
    Literal.bytes ⟨negative, integer, some fraction, none⟩ =
      (if negative then [Byte.minus] else []) ++ (integer ++ Byte.point :: fraction) := by
  simp only [Literal.bytes, Literal.fractionBytes, Literal.exponentBytes, List.append_nil]

/-- **Every layout is a literal of its decimal.** -/
theorem exists_literal (negative : Bool) (positive : 0 < d.digits)
    (small : ((Decimal.digits d.digits).length + d.exponent - 1).natAbs < exponentLimit) :
    ∃ l : Literal, Denotes l d ∧ l.negative = negative ∧
      l.bytes = (if negative then [Byte.minus] else []) ++ layout d := by
  rw [layout]
  dsimp only
  generalize top_eq : ((Decimal.digits d.digits).length : Int) + d.exponent = top at small ⊢
  by_cases whole : 0 ≤ d.exponent ∧ top ≤ 16
  · rw [if_pos whole]
    exact ⟨_, denotes_whole positive whole.1, rfl, bytes_of_fraction _ _⟩
  rw [if_neg whole]
  by_cases split : 0 < top ∧ top ≤ 16
  · rw [if_pos split]
    exact ⟨_, denotes_split positive (by omega) (by omega) (by omega), rfl, bytes_of_fraction _ _⟩
  rw [if_neg split]
  by_cases below : -5 < top ∧ top ≤ 0
  · rw [if_pos below]
    exact ⟨_, denotes_small (by omega), rfl, bytes_of_fraction _ _⟩
  · rw [if_neg below]
    refine ⟨_, denotes_scientific positive (by omega) small, rfl, ?_⟩
    have fraction : Literal.fractionBytes (if (Decimal.digits d.digits).length = 1 then none
        else some ((Decimal.digits d.digits).drop 1)) =
          if (Decimal.digits d.digits).length = 1 then []
          else Byte.point :: (Decimal.digits d.digits).drop 1 := by
      split_ifs <;> rfl
    rw [Literal.bytes, Literal.exponentBytes, Exponent.bytes_printed, fraction]
    simp only [decide_eq_true_eq, List.append_assoc]

/-! ### The text of a number -/

section
variable {x : Binary64}

/-- **The text of a finite number is a literal that is read as it.** It has a point or an
exponent. -/
theorem exists_text_literal (finite : x.isFinite = true) :
    ∃ l : Literal, l.WellFormed ∧ (l.fraction ≠ none ∨ l.exponent ≠ none) ∧ l.bytes = x.text ∧
      ofLiteral l = x := by
  rw [text]
  cases zero : x.isZero with
  | true =>
    have denotes : Denotes ⟨x.isNegative, [Byte.zero], some [Byte.zero], none⟩ ⟨0, 0⟩ :=
      denotes_of_fraction (.inl rfl) (digits_cons_iff.2 ⟨rfl, digits_nil⟩) nofun (by norm_num; rfl)
    refine ⟨_, denotes.wellFormed, denotes.marked, bytes_of_fraction _ _, ?_⟩
    rw [isZero, decide_eq_true_iff] at zero
    rw [denotes.ofLiteral_eq, ofDecimal, if_pos rfl, ← zero]
    exact x.ofMagnitude_magnitudeBits
  | false =>
    obtain ⟨low, high⟩ := shortest_power_bounds finite zero
    have limit : exponentLimit = 65536 := rfl
    obtain ⟨l, denotes, negative, bytes⟩ := exists_literal x.isNegative (shortest_pos finite zero)
      (by omega)
    refine ⟨l, denotes.wellFormed, denotes.marked, bytes, ?_⟩
    rw [denotes.ofLiteral_eq, negative, ofDecimal_shortest finite zero]

theorem numberText_text (finite : x.isFinite = true) : NumberText x.text := by
  obtain ⟨l, wellFormed, -, bytes, -⟩ := exists_text_literal finite
  exact ⟨l, wellFormed, bytes⟩

/-- **Reading undoes printing.** -/
theorem ofBytes?_text (finite : x.isFinite = true) : ofBytes? x.text = some x := by
  obtain ⟨l, wellFormed, -, bytes, float⟩ := exists_text_literal finite
  rw [← bytes, ofBytes?_bytes wellFormed, float]

/-- A tenth, and the smallest positive number: neither decimal is exact. -/
example : text ⟨0x3fb999999999999a⟩ = Utf8.bytes "0.1" ∧ text ⟨1⟩ = Utf8.bytes "5e-324" := by
  decide +kernel

end

end Binary64

end JsonStream
