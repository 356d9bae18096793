import Mathlib.Algebra.Order.Field.Rat
import Mathlib.Tactic.FieldSimp
import Mathlib.Tactic.NormNum
import Mathlib.Tactic.Ring
import Mathlib.Tactic.SplitIfs
import JsonStream.Binary64.Rounding

/-!
# The nearest number depends on the value alone

One value has many decimals: zeros may be moved from the coefficient to the exponent. Rounding
answers some decimals from their exponent alone and others by dividing, and it gives the same number
for every decimal of a value.

* `Binary64.nearestMagnitude_congr`: a quotient, however it is expanded.
* `Binary64.nearestMagnitude_eq_infinityBits`, `Binary64.nearestMagnitude_eq_zero`: quotients beyond
  the range on either side.
* `Binary64.ofDecimal_congr`: decimals of one value.
-/

namespace JsonStream

/-! ### Rounding a quotient -/

theorem roundHalfEven_mul_right (num den : Nat) {k : Nat} (positive : 0 < k) :
    roundHalfEven (num * k) (den * k) = roundHalfEven num den := by
  rw [roundHalfEven, roundHalfEven]
  simp only [Nat.mul_div_mul_right _ _ positive, Nat.mul_mod_mul_right, ← Nat.mul_assoc,
    Nat.mul_lt_mul_right positive]

theorem div_le_roundHalfEven (num den : Nat) : num / den ≤ roundHalfEven num den := by
  rw [roundHalfEven]
  split_ifs <;> omega

theorem roundHalfEven_eq_zero {num den : Nat} (small : 2 * num < den) :
    roundHalfEven num den = 0 := by
  have below : num < den := by omega
  rw [roundHalfEven, Nat.mod_eq_of_lt below, if_pos small, Nat.div_eq_of_lt below]

namespace Binary64

variable {num den num' den' : Nat}

theorem nearestMagnitude_mul_right (num den : Nat) {k : Nat} (positive : 0 < k) :
    nearestMagnitude (num * k) (den * k) = nearestMagnitude num den := by
  have shift (m n : Nat) : (m * k) <<< n = m <<< n * k := by
    rw [Nat.shiftLeft_eq, Nat.shiftLeft_eq, Nat.mul_right_comm]
  rw [nearestMagnitude, nearestMagnitude]
  simp only [shift, Nat.mul_div_mul_right _ _ positive, roundHalfEven_mul_right _ _ positive]

/-- **Equal quotients are rounded alike.** -/
theorem nearestMagnitude_congr (positive : 0 < den) (positive' : 0 < den')
    (same : num * den' = num' * den) : nearestMagnitude num den = nearestMagnitude num' den' := by
  rw [← nearestMagnitude_mul_right num den positive', same, Nat.mul_comm den,
    nearestMagnitude_mul_right num' den' positive]

theorem two_pow_le_shiftLeft_div {bits : Nat} (positive : 0 < den) (large : 2 ^ bits * den ≤ num)
    (shift : Nat) : 2 ^ (bits + shift) ≤ num <<< shift / den := by
  rw [Nat.le_div_iff_mul_le positive, Nat.shiftLeft_eq, Nat.pow_add, Nat.mul_right_comm]
  exact Nat.mul_le_mul_right _ large

/-- A quotient of `2 ^ 1024` or more is rounded to infinity. -/
theorem nearestMagnitude_eq_infinityBits (positive : 0 < den) (large : 2 ^ 1024 * den ≤ num) :
    nearestMagnitude num den = infinityBits := by
  -- In units of the smallest subnormal number the quotient has more than 2098 bits.
  have units := two_pow_le_shiftLeft_div positive large 1074
  rw [nearestMagnitude]
  generalize num <<< 1074 = scaled at units ⊢
  have nonzero : scaled / den ≠ 0 :=
    Nat.pos_iff_ne_zero.1 (Nat.lt_of_lt_of_le (Nat.two_pow_pos _) units)
  have bits := (Nat.le_log2 nonzero).2 units
  generalize surplus_eq : Nat.log2 (scaled / den) - 52 = surplus
  have log : Nat.log2 (scaled / den) = 52 + surplus := by omega
  have top : 2 ^ 52 ≤ scaled / (den <<< surplus) := by
    rw [Nat.shiftLeft_eq, ← Nat.div_div_eq_div_mul, Nat.le_div_iff_mul_le (Nat.two_pow_pos surplus),
      ← Nat.pow_add, ← log]
    exact Nat.log2_self_le nonzero
  have rounded := Nat.le_trans top (div_le_roundHalfEven scaled (den <<< surplus))
  have hidden : hiddenBit = 2 ^ 52 := rfl
  have grid : 2046 * 2 ^ 52 ≤ surplus * 2 ^ 52 := Nat.mul_le_mul_right _ (by omega)
  refine Nat.min_eq_right ?_
  rw [infinityBits, hidden]
  omega

/-- A quotient below half the smallest subnormal number is rounded to zero. -/
theorem nearestMagnitude_eq_zero (small : 2 * num <<< 1074 < den) :
    nearestMagnitude num den = 0 := by
  have units : num <<< 1074 / den = 0 := Nat.div_eq_of_lt (by omega)
  have surplus : Nat.log2 0 - 52 = 0 := rfl
  rw [nearestMagnitude, units, surplus, Nat.zero_mul, Nat.zero_add, Nat.shiftLeft_zero,
    roundHalfEven_eq_zero small]
  exact Nat.zero_min _

/-! ### Decimals -/

/-- A decimal of `10 ^ 310` or more is beyond the range. -/
theorem nearestMagnitude_of_large {coefficient exponent : Nat} (positive : 0 < den)
    (nonzero : coefficient ≠ 0) (large : 310 ≤ exponent)
    (same : coefficient * 10 ^ exponent * den = num) : nearestMagnitude num den = infinityBits := by
  refine nearestMagnitude_eq_infinityBits positive ?_
  rw [← same]
  refine Nat.mul_le_mul_right den ?_
  calc 2 ^ 1024 ≤ 10 ^ 310 := by decide +kernel
    _ ≤ 10 ^ exponent := Nat.pow_le_pow_right (by decide) large
    _ ≤ coefficient * 10 ^ exponent := Nat.le_mul_of_pos_left _ (Nat.pos_of_ne_zero nonzero)

theorem two_mul_shiftLeft_lt {coefficient exponent shift places : Nat} (positive : 0 < den)
    (within : 2 * 2 ^ shift ≤ 10 ^ places)
    (small : places + (Nat.log2 coefficient + 1) ≤ exponent)
    (same : coefficient * den = num * 10 ^ exponent) : 2 * num <<< shift < den := by
  have digits : coefficient < 10 ^ (Nat.log2 coefficient + 1) :=
    Nat.lt_of_lt_of_le Nat.lt_log2_self (Nat.pow_le_pow_left (by decide) _)
  rw [Nat.shiftLeft_eq]
  refine Nat.lt_of_mul_lt_mul_right (a := 10 ^ exponent) ?_
  calc 2 * (num * 2 ^ shift) * 10 ^ exponent
      = 2 * 2 ^ shift * (num * 10 ^ exponent) := by ring
    _ = 2 * 2 ^ shift * (coefficient * den) := by rw [same]
    _ ≤ 10 ^ places * (coefficient * den) := Nat.mul_le_mul_right _ within
    _ < 10 ^ places * (10 ^ (Nat.log2 coefficient + 1) * den) :=
      Nat.mul_lt_mul_of_pos_left (Nat.mul_lt_mul_of_pos_right digits positive)
        (Nat.pow_pos (by decide))
    _ = den * 10 ^ (places + (Nat.log2 coefficient + 1)) := by ring
    _ ≤ den * 10 ^ exponent := Nat.mul_le_mul_left _ (Nat.pow_le_pow_right (by decide) small)

/-- A decimal below `10 ^ -325` is rounded to zero. -/
theorem nearestMagnitude_of_small {coefficient exponent : Nat} (positive : 0 < den)
    (small : 325 + (Nat.log2 coefficient + 1) ≤ exponent)
    (same : coefficient * den = num * 10 ^ exponent) : nearestMagnitude num den = 0 :=
  nearestMagnitude_eq_zero (two_mul_shiftLeft_lt positive (by decide +kernel) small same)

/-- A decimal with a given quotient, by the sign of its exponent. -/
theorem exists_pow_of_decimal {coefficient : Nat} {exponent : Int} (positive : 0 < den)
    (value : (coefficient : ℚ) * 10 ^ exponent = num / den) :
    ∃ n : Nat, exponent = n ∧ coefficient * 10 ^ n * den = num ∨
      exponent = -n ∧ coefficient * den = num * 10 ^ n := by
  have nonzero : (den : ℚ) ≠ 0 := Nat.cast_ne_zero.2 (Nat.pos_iff_ne_zero.1 positive)
  obtain ⟨n, rfl | rfl⟩ := exponent.eq_nat_or_neg
  · refine ⟨n, .inl ⟨rfl, ?_⟩⟩
    rw [zpow_natCast, eq_div_iff nonzero] at value
    exact_mod_cast value
  · refine ⟨n, .inr ⟨rfl, ?_⟩⟩
    rw [zpow_neg, zpow_natCast, ← div_eq_mul_inv,
      div_eq_div_iff (pow_ne_zero n (by norm_num)) nonzero] at value
    exact_mod_cast value

/-- **A decimal is read as the number nearest to its value**, also where the exponent alone decides. -/
theorem ofDecimal_eq_ofRatio (negative : Bool) {coefficient : Nat} {exponent : Int}
    (positive : 0 < den) (value : (coefficient : ℚ) * 10 ^ exponent = num / den) :
    ofDecimal negative coefficient exponent = ofRatio negative num den := by
  obtain ⟨n, sides⟩ := exists_pow_of_decimal positive value
  have tens : 0 < 10 ^ n := Nat.pow_pos (by decide)
  by_cases zero : coefficient = 0
  · have none : num = 0 := by
      subst zero
      rcases sides with ⟨-, same⟩ | ⟨-, same⟩
      · simpa using same.symm
      · simpa [tens.ne'] using same.symm
    rw [ofDecimal, if_pos zero, ofRatio, none, nearestMagnitude_eq_zero (by simpa using positive)]
  rw [ofDecimal, if_neg zero]
  rcases sides with ⟨rfl, same⟩ | ⟨rfl, same⟩
  · -- A whole number, which is infinite or is divided by one.
    by_cases large : 310 ≤ n
    · rw [if_pos (by omega), ofRatio, nearestMagnitude_of_large positive zero large same]
    · rw [if_neg (by omega), if_neg (by omega), if_pos (by omega), Int.toNat_natCast]
      refine congrArg (ofMagnitude negative) (nearestMagnitude_congr Nat.one_pos positive ?_)
      rw [Nat.mul_one]
      exact same
  · by_cases small : 325 + (Nat.log2 coefficient + 1) ≤ n
    · rw [if_neg (by omega), if_pos (by omega), ofRatio, nearestMagnitude_of_small positive small same]
    · rw [if_neg (by omega), if_neg (by omega)]
      by_cases whole : (0 : Int) ≤ -n
      · have none : n = 0 := by omega
        subst none
        rw [if_pos whole]
        refine congrArg (ofMagnitude negative) (nearestMagnitude_congr Nat.one_pos positive ?_)
        simpa using same
      · rw [if_neg whole, Int.neg_neg, Int.toNat_natCast]
        exact congrArg (ofMagnitude negative) (nearestMagnitude_congr tens positive same)

theorem exists_quotient (coefficient : Nat) (exponent : Int) :
    ∃ num den : Nat, 0 < den ∧ (coefficient : ℚ) * 10 ^ exponent = num / den := by
  obtain ⟨n, rfl | rfl⟩ := exponent.eq_nat_or_neg
  · refine ⟨coefficient * 10 ^ n, 1, Nat.one_pos, ?_⟩
    rw [zpow_natCast]
    push_cast
    rw [div_one]
  · refine ⟨coefficient, 10 ^ n, Nat.pow_pos (by decide), ?_⟩
    rw [zpow_neg, zpow_natCast, ← div_eq_mul_inv]
    push_cast
    rfl

/-- **Decimals of one value are read as one number.** -/
theorem ofDecimal_congr (negative : Bool) {coefficient coefficient' : Nat} {exponent exponent' : Int}
    (value : (coefficient : ℚ) * 10 ^ exponent = coefficient' * 10 ^ exponent') :
    ofDecimal negative coefficient exponent = ofDecimal negative coefficient' exponent' := by
  obtain ⟨num, den, positive, quotient⟩ := exists_quotient coefficient exponent
  rw [ofDecimal_eq_ofRatio negative positive quotient,
    ofDecimal_eq_ofRatio negative positive (value.symm.trans quotient)]

/-- The range ends between `10 ^ 308` and `10 ^ 309`, and moving zeros to the exponent changes
nothing. -/
example : ofDecimal false 1000 307 = ofDecimal false 1 310 := by
  have exponent : (310 : Int) = 3 + 307 := rfl
  refine ofDecimal_congr false ?_
  rw [exponent, zpow_add₀ (by norm_num)]
  norm_num

end Binary64

end JsonStream
