import JsonStream.Binary64.Shortest
import JsonStream.Proofs.Binary64.Nearest
import JsonStream.Proofs.Number.Conversion

/-!
# The decimals that are read as a given number

A finite number that is not zero is what all decimals of an interval around it are read as, and no
others. Within a binade the interval is half a unit wide on either side, and its ends belong to it
exactly if the significand is even. Below a power of two the next binade down is twice as fine, and
so the interval is narrower on this side; what is left of the half is rounded up within that binade
and carries into the exponent.

* `roundHalfEven_eq_iff`: what is rounded to a natural number.
* `Binary64.nearestMagnitude_eq_iff`: the quotients that are read as a number.
* `Binary64.ofDecimal_eq_iff`: the decimals that are.
-/

namespace JsonStream

/-- **A quotient is rounded to a number exactly if it is at most a half away from it**, and less if the
number is odd. -/
theorem roundHalfEven_eq_iff {num den : Nat} (positive : 0 < den) (n : Nat) :
    roundHalfEven num den = n ↔
      2 * (n * den) ≤ 2 * num + den ∧ 2 * num ≤ 2 * (n * den) + den ∧
        (n % 2 ≠ 0 → 2 * (n * den) ≠ 2 * num + den ∧ 2 * num ≠ 2 * (n * den) + den) := by
  have split : den * (num / den) + num % den = num := Nat.div_add_mod num den
  have remainder : num % den < den := Nat.mod_lt num positive
  rw [Nat.mul_comm] at split
  rw [roundHalfEven]
  generalize num / den = q at split ⊢
  generalize num % den = r at split remainder ⊢
  subst split
  have cases : n + 1 ≤ q ∨ n = q ∨ n = q + 1 ∨ q + 2 ≤ n := by omega
  rcases cases with below | rfl | rfl | above
  · have apart := Nat.mul_le_mul_right den below
    rw [Nat.add_mul] at apart
    split_ifs <;> omega
  · split_ifs <;> omega
  · rw [Nat.add_mul]
    split_ifs <;> omega
  · have apart := Nat.mul_le_mul_right den above
    rw [Nat.add_mul] at apart
    split_ifs <;> omega

theorem roundHalfEven_le_succ_div (num den : Nat) : roundHalfEven num den ≤ num / den + 1 := by
  rw [roundHalfEven]
  split_ifs <;> omega

namespace Binary64

/-! ### Fields of a number -/

section
variable (x : Binary64)

/-- **The bits below the sign are the significand, carried into the exponent.** -/
theorem magnitudeBits_eq : x.magnitudeBits = x.binaryExponent * hiddenBit + x.significand := by
  have hidden : hiddenBit = 4503599627370496 := rfl
  have split := Nat.div_add_mod x.magnitudeBits hiddenBit
  rw [binaryExponent, significand, exponentBits, fractionBits]
  rw [hidden] at split ⊢
  split_ifs <;> omega

theorem significand_lt : x.significand < 2 * hiddenBit := by
  have hidden : hiddenBit = 4503599627370496 := rfl
  rw [significand, fractionBits, hidden]
  split_ifs <;> omega

/-- Above the lowest binade there is a hidden bit. -/
theorem hiddenBit_le_significand (h : 0 < x.binaryExponent) : hiddenBit ≤ x.significand := by
  rw [binaryExponent] at h
  rw [significand, if_neg (by omega)]
  exact Nat.le_add_right _ _

theorem binaryExponent_lt (finite : x.isFinite = true) : x.binaryExponent < 2046 := by
  have hidden : hiddenBit = 4503599627370496 := rfl
  rw [isFinite, decide_eq_true_iff, infinityBits, hidden] at finite
  rw [binaryExponent, exponentBits, hidden]
  omega

theorem significand_pos (nonzero : x.isZero = false) : 0 < x.significand := by
  have hidden : 0 < hiddenBit := by decide
  rw [isZero, decide_eq_false_iff_not, magnitudeBits_eq] at nonzero
  by_cases lowest : x.binaryExponent = 0
  · rw [lowest] at nonzero
    omega
  · exact Nat.lt_of_lt_of_le hidden (x.hiddenBit_le_significand (Nat.pos_of_ne_zero lowest))

/-- A number is its sign and its magnitude. -/
theorem ofMagnitude_magnitudeBits : ofMagnitude x.isNegative x.magnitudeBits = x := by
  have sign : signBit = 9223372036854775808 := rfl
  have bound := x.bits.toNat_lt_size
  obtain ⟨bits⟩ := x
  rw [ofMagnitude, isNegative, magnitudeBits, sign]
  refine congrArg Binary64.mk (UInt64.toNat_inj.1 ?_)
  simp only [decide_eq_true_eq, UInt64.toNat_ofNat', UInt64.size] at bound ⊢
  split_ifs <;> omega

end

/-! ### The interval -/

namespace ReadingInterval

variable {interval : ReadingInterval}

/-- The number in the middle. -/
def center (interval : ReadingInterval) : ℚ :=
  interval.value / interval.unit

/-- A point of the interval. -/
structure Holds (interval : ReadingInterval) (v : ℚ) : Prop where
  low : interval.low ≤ v * interval.unit
  high : v * interval.unit ≤ interval.high
  inner : interval.closed = false →
    v * interval.unit ≠ interval.low ∧ v * interval.unit ≠ interval.high

/-- What lies between two points of an interval lies in it. -/
theorem Holds.between {v w u : ℚ} (h : interval.Holds v) (h' : interval.Holds w) (lower : v ≤ u)
    (upper : u ≤ w) : interval.Holds u := by
  have unit : (0 : ℚ) ≤ interval.unit := Nat.cast_nonneg _
  have left := mul_le_mul_of_nonneg_right lower unit
  have right := mul_le_mul_of_nonneg_right upper unit
  refine ⟨h.low.trans left, right.trans h'.high, fun opened => ⟨fun same => ?_, fun same => ?_⟩⟩
  · exact (h.inner opened).1 (le_antisymm (left.trans same.le) h.low)
  · exact (h'.inner opened).2 (le_antisymm h'.high (same.ge.trans right))

/-- A fraction in the interval. -/
theorem holds_div_iff {num den : Nat} (positive : 0 < den) :
    interval.Holds (num / den) ↔
      interval.low * den ≤ num * interval.unit ∧ num * interval.unit ≤ interval.high * den ∧
        (interval.closed = false → num * interval.unit ≠ interval.low * den ∧
          num * interval.unit ≠ interval.high * den) := by
  have den_pos : (0 : ℚ) < den := Nat.cast_pos.2 positive
  have point : (num / den : ℚ) * interval.unit = (num * interval.unit : ℕ) / den := by
    push_cast
    ring
  have cast (n : ℕ) : (n : ℚ) = (n * den : ℕ) / den := by
    rw [Nat.cast_mul, mul_div_cancel_right₀ _ den_pos.ne']
  have parts : interval.Holds (num / den) ↔ _ ∧ _ ∧ _ :=
    ⟨fun h => ⟨h.low, h.high, h.inner⟩, fun h => ⟨h.1, h.2.1, h.2.2⟩⟩
  rw [parts, point, cast interval.low, cast interval.high, div_le_div_iff_of_pos_right den_pos,
    div_le_div_iff_of_pos_right den_pos, Ne, Ne, div_left_inj' den_pos.ne',
    div_left_inj' den_pos.ne']
  simp only [Nat.cast_le, Nat.cast_inj, Ne]

/-- The check of a fraction is exact. -/
theorem contains_iff {num den : Nat} (positive : 0 < den) :
    interval.contains num den = true ↔ interval.Holds (num / den) := by
  rw [holds_div_iff positive, contains]
  generalize num * interval.unit = point
  cases interval.closed with
  | true => simp
  | false =>
    simp only [Bool.false_eq_true, if_false, Bool.and_eq_true, decide_eq_true_eq, forall_const]
    omega

end ReadingInterval

/-! ### Reading a quotient -/

variable {x : Binary64} {num den : Nat}

/-- The binade of a quotient: in units of its grid it takes 53 bits, or fewer in the lowest one. -/
structure Binade (num den surplus : Nat) : Prop where
  below : num < 2 * (hiddenBit * (den * 2 ^ surplus))
  above : surplus = 0 ∨ hiddenBit * (den * 2 ^ surplus) ≤ num

theorem Binade.unique {first second : Nat} (h : Binade num den first) (h' : Binade num den second) :
    first = second := by
  have apart {low high : Nat} (h : Binade num den low) (h' : Binade num den high) : ¬low < high := by
    intro lt
    have below := h.below
    have above := h'.above
    have grids : hiddenBit * (den * 2 ^ low) * 2 ≤ hiddenBit * (den * 2 ^ high) := by
      rw [Nat.mul_assoc, Nat.mul_assoc, ← Nat.pow_succ]
      exact Nat.mul_le_mul_left _ (Nat.mul_le_mul_left _ (Nat.pow_le_pow_right (by decide) lt))
    omega
  have := apart h h'
  have := apart h' h
  omega

theorem binade_log2 (num : Nat) (positive : 0 < den) :
    Binade num den (Nat.log2 (num / den) - 52) := by
  have hidden : hiddenBit = 2 ^ 52 := rfl
  constructor
  · rw [Nat.mul_comm den, ← Nat.mul_assoc, ← Nat.mul_assoc, ← Nat.div_lt_iff_lt_mul positive, hidden,
      ← Nat.pow_succ', ← Nat.pow_add]
    exact Nat.lt_of_lt_of_le Nat.lt_log2_self (Nat.pow_le_pow_right (by decide) (by omega))
  · by_cases small : Nat.log2 (num / den) ≤ 52
    · exact .inl (by omega)
    · have nonzero : num / den ≠ 0 := by
        intro zero
        rw [zero] at small
        exact small (by decide)
      refine .inr ?_
      rw [Nat.mul_comm den, ← Nat.mul_assoc, ← Nat.le_div_iff_mul_le positive, hidden, ← Nat.pow_add]
      exact Nat.le_trans (Nat.pow_le_pow_right (by decide) (by omega)) (Nat.log2_self_le nonzero)

/-- Rounding takes place on the grid of the binade. -/
theorem nearestMagnitude_of_binade (positive : 0 < den) {surplus : Nat}
    (h : Binade (num <<< 1074) den surplus) :
    nearestMagnitude num den =
      min (surplus * hiddenBit + roundHalfEven (num <<< 1074) (den * 2 ^ surplus)) infinityBits := by
  have same := (binade_log2 (num <<< 1074) positive).unique h
  rw [nearestMagnitude, same, Nat.shiftLeft_eq den]

/-! ### The interval of a number -/

/-- The number is the least one of a binade that has another one below it. -/
theorem narrow_iff (x : Binary64) :
    (x.fractionBits = 0 && 1 < x.exponentBits) = true ↔
      x.significand = hiddenBit ∧ 0 < x.binaryExponent := by
  have hidden : hiddenBit = 4503599627370496 := rfl
  simp only [Bool.and_eq_true, decide_eq_true_eq]
  rw [significand, binaryExponent, fractionBits, hidden]
  split_ifs <;> omega

/-- The ends of the interval of a number, in quarters of its grid. -/
theorem readingInterval_low (x : Binary64) (positive : 0 < x.significand) :
    if x.significand = hiddenBit ∧ 0 < x.binaryExponent then
      x.readingInterval.low + 2 ^ x.binaryExponent = 4 * (x.significand * 2 ^ x.binaryExponent)
    else
      x.readingInterval.low + 2 * 2 ^ x.binaryExponent =
        4 * (x.significand * 2 ^ x.binaryExponent) := by
  rw [readingInterval]
  dsimp only
  rw [Nat.one_shiftLeft]
  by_cases narrow : x.significand = hiddenBit ∧ 0 < x.binaryExponent
  · rw [if_pos narrow, if_pos (x.narrow_iff.2 narrow), ← Nat.add_one_mul, ← Nat.mul_assoc]
    congr 1
    omega
  · rw [if_neg narrow, if_neg (fun h => narrow (x.narrow_iff.1 h)), ← Nat.add_mul, ← Nat.mul_assoc]
    congr 1
    omega

theorem readingInterval_high (x : Binary64) :
    x.readingInterval.high =
      4 * (x.significand * 2 ^ x.binaryExponent) + 2 * 2 ^ x.binaryExponent := by
  rw [readingInterval]
  dsimp only
  rw [Nat.one_shiftLeft, Nat.add_mul, Nat.mul_assoc]

section
variable {scaled grid : Nat}

/-- **The fractions in the interval of a number**, by what they are in units of its grid. -/
theorem holds_iff (x : Binary64) (nonzero : 0 < x.significand) (positive : 0 < den)
    (scaled_eq : num <<< 1074 = scaled) (grid_eq : den * 2 ^ x.binaryExponent = grid) :
    x.readingInterval.Holds (num / den) ↔
      (if x.significand = hiddenBit ∧ 0 < x.binaryExponent then
        4 * (x.significand * grid) ≤ 4 * scaled + grid
      else 4 * (x.significand * grid) ≤ 4 * scaled + 2 * grid) ∧
      4 * scaled ≤ 4 * (x.significand * grid) + 2 * grid ∧
      (x.significand % 2 ≠ 0 → 4 * (x.significand * grid) ≠ 4 * scaled + 2 * grid ∧
        4 * scaled ≠ 4 * (x.significand * grid) + 2 * grid) := by
  have hidden : hiddenBit = 4503599627370496 := rfl
  have shift (n : Nat) : num * 4 <<< n = 4 * num <<< n := by
    rw [Nat.shiftLeft_eq, Nat.shiftLeft_eq, Nat.mul_left_comm]
  have point : num * x.readingInterval.unit = 4 * scaled :=
    (shift 1074).trans (congrArg (4 * ·) scaled_eq)
  have closed : x.readingInterval.closed = (x.significand % 2 == 0) := rfl
  have unit : 2 ^ x.binaryExponent * den = grid := by rw [← grid_eq, Nat.mul_comm]
  have units (n : Nat) : n * 2 ^ x.binaryExponent * den = n * grid := by rw [Nat.mul_assoc, unit]
  have high := congrArg (· * den) x.readingInterval_high
  have low := x.readingInterval_low nonzero
  simp only [Nat.add_mul, Nat.mul_assoc 4, Nat.mul_assoc 2, units, unit] at high
  rw [ReadingInterval.holds_div_iff positive, point, closed, high, beq_eq_false_iff_ne]
  split_ifs at low ⊢ with narrow
  · have low := congrArg (· * den) low
    simp only [Nat.add_mul, Nat.mul_assoc 4, units, unit] at low
    omega
  · have low := congrArg (· * den) low
    simp only [Nat.add_mul, Nat.mul_assoc 4, Nat.mul_assoc 2, units, unit] at low
    omega

end

/-- Within its binade a quotient is rounded to a significand, or carried to the next binade. -/
theorem Binade.rounds {surplus : Nat} (h : Binade num den surplus) (positive : 0 < den) :
    roundHalfEven num (den * 2 ^ surplus) ≤ 2 * hiddenBit ∧
      (surplus = 0 ∨ hiddenBit ≤ roundHalfEven num (den * 2 ^ surplus)) := by
  have grid : 0 < den * 2 ^ surplus := Nat.mul_pos positive (Nat.two_pow_pos surplus)
  constructor
  · have below := h.below
    rw [← Nat.mul_assoc] at below
    have quotient := (Nat.div_lt_iff_lt_mul grid).2 below
    exact Nat.le_trans (roundHalfEven_le_succ_div num _) quotient
  · refine h.above.imp_right fun above => ?_
    have quotient := (Nat.le_div_iff_mul_le grid).2 above
    exact Nat.le_trans quotient (div_le_roundHalfEven num _)

/-- What is rounded to a number lies in its interval: on the grid of the number, or on the finer one
below it from which it is carried. -/
theorem holds_of_nearestMagnitude (finite : x.isFinite = true) (nonzero : x.isZero = false)
    (positive : 0 < den) (nearest : nearestMagnitude num den = x.magnitudeBits) :
    x.readingInterval.Holds (num / den) := by
  have hidden : hiddenBit = 4503599627370496 := rfl
  have sig_pos := x.significand_pos nonzero
  have sig_lt := x.significand_lt
  have normal := x.hiddenBit_le_significand
  have magnitude := x.magnitudeBits_eq
  have binade := binade_log2 (num <<< 1074) positive
  rw [nearestMagnitude_of_binade positive binade] at nearest
  rw [isFinite, decide_eq_true_iff] at finite
  generalize Nat.log2 (num <<< 1074 / den) - 52 = surplus at binade nearest
  generalize scaled_eq : num <<< 1074 = scaled at binade nearest
  have grid_pos : 0 < den * 2 ^ surplus := Nat.mul_pos positive (Nat.two_pow_pos surplus)
  have rounded := (roundHalfEven_eq_iff grid_pos (roundHalfEven scaled _)).1 rfl
  obtain ⟨most, least⟩ := binade.rounds positive
  obtain ⟨below, above⟩ := binade
  generalize roundHalfEven scaled (den * 2 ^ surplus) = n at nearest rounded most least
  by_cases carried : n = 2 * hiddenBit
  · -- The significand is the hidden bit, one binade up.
    have same : x.binaryExponent = surplus + 1 ∧ x.significand = hiddenBit := by
      rw [hidden] at *
      omega
    have grid : den * 2 ^ x.binaryExponent = 2 * (den * 2 ^ surplus) := by
      rw [same.1, Nat.pow_succ', Nat.mul_left_comm]
    rw [x.holds_iff sig_pos positive scaled_eq grid, if_pos ⟨same.2, by omega⟩, same.2]
    clear scaled_eq
    rw [carried, Nat.mul_assoc] at rounded
    rw [Nat.mul_left_comm hiddenBit]
    generalize hiddenBit * (den * 2 ^ surplus) = least at below rounded ⊢
    omega
  · have same : x.binaryExponent = surplus ∧ x.significand = n := by
      rw [hidden] at *
      omega
    rw [x.holds_iff sig_pos positive scaled_eq (congrArg (den * 2 ^ ·) same.1), same.1, same.2]
    clear scaled_eq
    refine ⟨?_, by omega, by omega⟩
    split_ifs with narrow
    · rw [narrow.1]
      omega
    · omega

/-- On the grid of a number, what lies in its interval is rounded to its significand. -/
theorem rounds_of_holds (nonzero : x.isZero = false) (positive : 0 < den)
    (holds : x.readingInterval.Holds (num / den))
    (above : x.binaryExponent = 0 ∨ hiddenBit * (den * 2 ^ x.binaryExponent) ≤ num <<< 1074) :
    Binade (num <<< 1074) den x.binaryExponent ∧
      roundHalfEven (num <<< 1074) (den * 2 ^ x.binaryExponent) = x.significand := by
  have grid_pos : 0 < den * 2 ^ x.binaryExponent := Nat.mul_pos positive (Nat.two_pow_pos _)
  have most : x.significand * (den * 2 ^ x.binaryExponent) + den * 2 ^ x.binaryExponent ≤
      2 * (hiddenBit * (den * 2 ^ x.binaryExponent)) := by
    rw [← Nat.add_one_mul, ← Nat.mul_assoc 2]
    exact Nat.mul_le_mul_right _ x.significand_lt
  generalize scaled_eq : num <<< 1074 = scaled at above ⊢
  obtain ⟨low, high, inner⟩ :=
    (x.holds_iff (x.significand_pos nonzero) positive scaled_eq rfl).1 holds
  clear scaled_eq
  refine ⟨⟨by omega, above⟩, (roundHalfEven_eq_iff grid_pos _).2 ?_⟩
  split_ifs at low with narrow
  · have even : hiddenBit % 2 = 0 := by decide
    rw [narrow.1] at low high ⊢
    omega
  · omega

/-- Below the grid of a number its interval is reached only if it is the least number of its binade.
What lies there is rounded up to it on the grid that is twice as fine. -/
theorem carries_of_holds (nonzero : x.isZero = false) (positive : 0 < den)
    (holds : x.readingInterval.Holds (num / den)) {surplus : Nat}
    (up : x.binaryExponent = surplus + 1)
    (below : num <<< 1074 < hiddenBit * (den * 2 ^ x.binaryExponent)) :
    x.significand = hiddenBit ∧ Binade (num <<< 1074) den surplus ∧
      roundHalfEven (num <<< 1074) (den * 2 ^ surplus) = 2 * hiddenBit := by
  have half : den * 2 ^ x.binaryExponent = 2 * (den * 2 ^ surplus) := by
    rw [up, Nat.pow_succ', Nat.mul_left_comm]
  have unit_pos : 0 < den * 2 ^ surplus := Nat.mul_pos positive (Nat.two_pow_pos _)
  have unit_le : den * 2 ^ surplus ≤ hiddenBit * (den * 2 ^ surplus) :=
    Nat.le_mul_of_pos_left _ (by decide)
  generalize scaled_eq : num <<< 1074 = scaled at below ⊢
  obtain ⟨low, high, -⟩ := (x.holds_iff (x.significand_pos nonzero) positive scaled_eq half).1 holds
  rw [half, Nat.mul_left_comm] at below
  clear scaled_eq
  have same : x.significand = hiddenBit := by
    by_contra other
    have least := x.hiddenBit_le_significand (up ▸ surplus.succ_pos)
    have next : hiddenBit * (2 * (den * 2 ^ surplus)) + 2 * (den * 2 ^ surplus) ≤
        x.significand * (2 * (den * 2 ^ surplus)) := by
      rw [← Nat.add_one_mul]
      exact Nat.mul_le_mul_right _ (by omega)
    rw [if_neg (fun narrow => other narrow.1)] at low
    rw [Nat.mul_left_comm] at next
    omega
  rw [if_pos ⟨same, up ▸ surplus.succ_pos⟩, same, Nat.mul_left_comm hiddenBit] at low
  refine ⟨same, ⟨below, .inr (by omega)⟩, (roundHalfEven_eq_iff unit_pos _).2 ?_⟩
  rw [Nat.mul_assoc]
  omega

/-- What lies in the interval of a number is rounded to it. -/
theorem nearestMagnitude_of_holds (finite : x.isFinite = true) (nonzero : x.isZero = false)
    (positive : 0 < den) (holds : x.readingInterval.Holds (num / den)) :
    nearestMagnitude num den = x.magnitudeBits := by
  have magnitude := x.magnitudeBits_eq
  rw [isFinite, decide_eq_true_iff] at finite
  by_cases above :
      x.binaryExponent = 0 ∨ hiddenBit * (den * 2 ^ x.binaryExponent) ≤ num <<< 1074
  · obtain ⟨binade, rounded⟩ := rounds_of_holds nonzero positive holds above
    rw [nearestMagnitude_of_binade positive binade, rounded, ← magnitude]
    exact Nat.min_eq_left finite.le
  · obtain ⟨exponent, below⟩ := not_or.1 above
    obtain ⟨surplus, up⟩ := Nat.exists_eq_succ_of_ne_zero exponent
    obtain ⟨same, binade, rounded⟩ :=
      carries_of_holds nonzero positive holds up (Nat.not_le.1 below)
    have carry : surplus * hiddenBit + 2 * hiddenBit = x.magnitudeBits := by
      rw [magnitude, up, same, Nat.two_mul, ← Nat.add_assoc, ← Nat.succ_mul]
    rw [nearestMagnitude_of_binade positive binade, rounded, carry]
    exact Nat.min_eq_left finite.le

/-- **The quotients that are read as a number** are those of its interval. -/
theorem nearestMagnitude_eq_iff (finite : x.isFinite = true) (nonzero : x.isZero = false)
    (positive : 0 < den) :
    nearestMagnitude num den = x.magnitudeBits ↔ x.readingInterval.Holds (num / den) :=
  ⟨holds_of_nearestMagnitude finite nonzero positive,
    nearestMagnitude_of_holds finite nonzero positive⟩

/-! ### Reading a decimal -/

theorem ofRatio_eq_iff :
    ofRatio x.isNegative num den = x ↔ nearestMagnitude num den = x.magnitudeBits := by
  have below : infinityBits < signBit := by decide
  have bound := nearestMagnitude_le num den
  constructor
  · intro same
    rw [← magnitudeBits_ofMagnitude x.isNegative (Nat.lt_of_le_of_lt bound below)]
    exact congrArg magnitudeBits same
  · intro same
    rw [ofRatio, same, x.ofMagnitude_magnitudeBits]

/-- **The decimals that are read as a number** are those of its interval. -/
theorem ofDecimal_eq_iff (finite : x.isFinite = true) (nonzero : x.isZero = false)
    (coefficient : Nat) (exponent : Int) :
    ofDecimal x.isNegative coefficient exponent = x ↔
      x.readingInterval.Holds (coefficient * 10 ^ exponent) := by
  obtain ⟨num, den, positive, value⟩ := exists_quotient coefficient exponent
  rw [ofDecimal_eq_ofRatio x.isNegative positive value, value, ofRatio_eq_iff,
    nearestMagnitude_eq_iff finite nonzero positive]

end Binary64

end JsonStream
