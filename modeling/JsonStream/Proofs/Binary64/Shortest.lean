import Mathlib.Algebra.Order.Field.Power
import Mathlib.Tactic.Linarith
import Mathlib.Tactic.Positivity
import JsonStream.Proofs.Binary64.Interval

/-!
# The digits of a number are the fewest

The search starts on a grid that is too coarse to have a point in the interval of the number and
ends on one that is fine enough to have one, so it stops on the coarsest grid with such a point.
Therefore what is found is read back as the number, and no decimal with fewer digits is: between the
two would lie a power of ten, which is on a coarser grid.

* `Binary64.ReadingInterval.Neighbours`: the two points of a grid around a number.
* `Binary64.ReadingInterval.searchGrids_picks`: what the search stops at.
* `Binary64.ten_zpow_le`: powers of ten between powers of two, for the first and the last grid.
* `Binary64.ofDecimal_shortest`, `Binary64.length_shortest_le`, `Binary64.shortest_nearest`: the
  digits of a number.
-/

namespace JsonStream

namespace Decimal

theorem lt_pow_length_digits (n : Nat) : n < 10 ^ (digits n).length := by
  induction n using digits.induct with
  | case1 n small =>
    rw [digits_of_lt small, List.length_singleton, pow_one]
    exact small
  | case2 n large ih =>
    rw [digits, if_neg large, List.length_append, List.length_singleton, pow_succ]
    omega

theorem pow_length_digits_le {n : Nat} (positive : 0 < n) : 10 ^ ((digits n).length - 1) ≤ n := by
  induction n using digits.induct with
  | case1 n small =>
    rw [digits_of_lt small, List.length_singleton]
    exact positive
  | case2 n large ih =>
    have shorter := ih (by omega)
    have some := List.length_pos_iff.2 (digits_ne_nil (n / 10))
    obtain ⟨length, same⟩ := Nat.exists_eq_succ_of_ne_zero (Nat.pos_iff_ne_zero.1 some)
    rw [same, Nat.succ_sub_one] at shorter
    rw [digits, if_neg large, List.length_append, List.length_singleton, Nat.add_sub_cancel, same,
      Nat.pow_succ]
    omega

end Decimal

namespace Binary64

/-! ### One grid -/

theorem decimalFraction_one (exponent : Int) :
    0 < (decimalFraction 1 exponent).1 ∧ 0 < (decimalFraction 1 exponent).2 ∧
      ((decimalFraction 1 exponent).1 : ℚ) / (decimalFraction 1 exponent).2 = 10 ^ exponent := by
  have tens (n : Nat) : 0 < Nat.pow 10 n := Nat.pow_pos (by decide)
  obtain ⟨n, rfl | rfl⟩ := exponent.eq_nat_or_neg
  · rw [decimalFraction, if_pos (Int.natCast_nonneg n), Int.toNat_natCast]
    refine ⟨Nat.mul_pos Nat.one_pos (tens n), Nat.one_pos, ?_⟩
    rw [zpow_natCast, Nat.one_mul, Nat.cast_one, div_one]
    exact Nat.cast_pow 10 n
  · rw [decimalFraction, Int.neg_neg, Int.toNat_natCast]
    split_ifs with whole
    · have zero : n = 0 := by omega
      subst zero
      exact ⟨Nat.one_pos, Nat.one_pos, by norm_num⟩
    · refine ⟨Nat.one_pos, tens n, ?_⟩
      rw [zpow_neg, zpow_natCast, Nat.cast_one, one_div]
      exact congrArg _ (Nat.cast_pow 10 n)

namespace ReadingInterval

variable {interval : ReadingInterval} {exponent : Int} {n : Nat}

/-- The interval is around its middle. -/
structure Around (interval : ReadingInterval) : Prop where
  unit : 0 < interval.unit
  low : interval.low < interval.value
  high : interval.value < interval.high

theorem Around.holds_center (h : interval.Around) : interval.Holds interval.center := by
  have unit : (interval.unit : ℚ) ≠ 0 := Nat.cast_ne_zero.2 (Nat.pos_iff_ne_zero.1 h.unit)
  have middle : interval.center * interval.unit = interval.value := div_mul_cancel₀ _ unit
  have low : (interval.low : ℚ) < interval.value := Nat.cast_lt.2 h.low
  have high : (interval.value : ℚ) < interval.high := Nat.cast_lt.2 h.high
  constructor
  · rw [middle]
    exact low.le
  · rw [middle]
    exact high.le
  · rw [middle]
    exact fun _ => ⟨low.ne', high.ne⟩

/-- The one point lies between the other one and the middle. -/
def Shields (interval : ReadingInterval) (v w : ℚ) : Prop :=
  w ≤ v ∧ v ≤ interval.center ∨ interval.center ≤ v ∧ v ≤ w

theorem Shields.holds {v w : ℚ} (h : interval.Shields v w) (around : interval.Around)
    (holds : interval.Holds w) : interval.Holds v := by
  rcases h with ⟨lower, upper⟩ | ⟨lower, upper⟩
  · exact holds.between around.holds_center lower upper
  · exact around.holds_center.between holds lower upper

theorem Shields.near {v w : ℚ} (h : interval.Shields v w) :
    |v - interval.center| ≤ |w - interval.center| := by
  rcases h with ⟨lower, upper⟩ | ⟨lower, upper⟩
  · rw [abs_of_nonpos (by linarith), abs_of_nonpos (by linarith)]
    linarith
  · rw [abs_of_nonneg (by linarith), abs_of_nonneg (by linarith)]
    linarith

/-- Of two points that are equally near to the middle, the one is the other if it shields it. -/
theorem Shields.eq_of_abs_eq {v w : ℚ} (h : interval.Shields v w)
    (near : |w - interval.center| = |v - interval.center|) : w = v := by
  rcases h with ⟨lower, upper⟩ | ⟨lower, upper⟩
  · rw [abs_of_nonpos (by linarith), abs_of_nonpos (by linarith)] at near
    linarith
  · rw [abs_of_nonneg (by linarith), abs_of_nonneg (by linarith)] at near
    linarith

/-- **The two points of a grid around the middle**, the nearer one first, and the even one if they
are equally near. All other points lie behind one of them. -/
structure Neighbours (interval : ReadingInterval) (exponent : Int) (first second : Nat) : Prop where
  half : 2 * |first * 10 ^ exponent - interval.center| ≤ 10 ^ exponent
  near : |first * 10 ^ exponent - interval.center| ≤ |second * 10 ^ exponent - interval.center|
  tie : |first * 10 ^ exponent - interval.center| = |second * 10 ^ exponent - interval.center| →
    first % 2 = 0
  shields : ∀ n : Nat, interval.Shields (first * 10 ^ exponent) (n * 10 ^ exponent) ∨
    interval.Shields (second * 10 ^ exponent) (n * 10 ^ exponent)

/-- The middle lies between a point of a grid and the next one, and the nearer of them comes
first. -/
theorem Neighbours.of_split {lower : Nat} {rest : ℚ} (nonneg : 0 ≤ rest)
    (below : rest < 10 ^ exponent) (split : interval.center = lower * 10 ^ exponent + rest) :
    (2 * rest ≤ 10 ^ exponent → (10 ^ exponent ≤ 2 * rest → lower % 2 = 0) →
      interval.Neighbours exponent lower (lower + 1)) ∧
    (10 ^ exponent ≤ 2 * rest → (2 * rest ≤ 10 ^ exponent → (lower + 1) % 2 = 0) →
      interval.Neighbours exponent (lower + 1) lower) := by
  have tens : (0 : ℚ) < 10 ^ exponent := by positivity
  have left : |(lower : ℚ) * 10 ^ exponent - interval.center| = rest := by
    rw [split, sub_add_cancel_left, abs_neg, abs_of_nonneg nonneg]
  have right :
      |((lower + 1 : ℕ) : ℚ) * 10 ^ exponent - interval.center| = 10 ^ exponent - rest := by
    rw [split, Nat.cast_succ, add_one_mul, add_sub_add_left_eq_sub, abs_of_pos (by linarith)]
  have shields (n : Nat) : interval.Shields (lower * 10 ^ exponent) (n * 10 ^ exponent) ∨
      interval.Shields ((lower + 1 : ℕ) * 10 ^ exponent) (n * 10 ^ exponent) := by
    rcases Nat.lt_or_ge lower n with above | behind
    · have apart : ((lower + 1 : ℕ) : ℚ) ≤ n := Nat.cast_le.2 above
      refine .inr (.inr ⟨?_, mul_le_mul_of_nonneg_right apart tens.le⟩)
      rw [split, Nat.cast_succ]
      linarith
    · have apart : (n : ℚ) ≤ lower := Nat.cast_le.2 behind
      refine .inl (.inl ⟨mul_le_mul_of_nonneg_right apart tens.le, ?_⟩)
      linarith
  constructor
  · intro half even
    refine ⟨?_, ?_, fun tie => even ?_, shields⟩
    · rw [left]
      exact half
    · rw [left, right]
      linarith
    · rw [left, right] at tie
      linarith
  · intro half even
    refine ⟨?_, ?_, fun tie => even ?_, fun n => (shields n).symm⟩
    · rw [right]
      linarith
    · rw [left, right]
      linarith
    · rw [left, right] at tie
      linarith

/-- The division by the step of a grid tells where the middle lies on it, and which half of a step
the rest is. -/
theorem exists_rest (unit : 0 < interval.unit) {num den : Nat} (num_pos : 0 < num)
    (den_pos : 0 < den) (tens : (num : ℚ) / den = 10 ^ exponent) :
    ∃ rest : ℚ, 0 ≤ rest ∧ rest < 10 ^ exponent ∧
      interval.center =
        (interval.value * den / (interval.unit * num) : ℕ) * 10 ^ exponent + rest ∧
      (2 * rest ≤ 10 ^ exponent ↔
        2 * (interval.value * den % (interval.unit * num)) ≤ interval.unit * num) ∧
      (10 ^ exponent ≤ 2 * rest ↔
        interval.unit * num ≤ 2 * (interval.value * den % (interval.unit * num))) := by
  have division := Nat.div_add_mod (interval.value * den) (interval.unit * num)
  have least := Nat.mod_lt (interval.value * den) (Nat.mul_pos unit num_pos)
  generalize interval.value * den / (interval.unit * num) = lower at division ⊢
  generalize interval.value * den % (interval.unit * num) = remainder at division least ⊢
  -- All quotients get the common denominator `unit * den`.
  have unit' : (0 : ℚ) < interval.unit := Nat.cast_pos.2 unit
  have den' : (0 : ℚ) < den := Nat.cast_pos.2 den_pos
  have common := mul_pos unit' den'
  have grid : (10 : ℚ) ^ exponent = (interval.unit * num : ℕ) / (interval.unit * den) := by
    rw [← tens, Nat.cast_mul, mul_div_mul_left _ _ unit'.ne']
  have double : 2 * ((remainder : ℚ) / (interval.unit * den)) =
      (2 * remainder : ℕ) / (interval.unit * den) := by
    push_cast
    ring
  refine ⟨remainder / (interval.unit * den), by positivity, ?_, ?_, ?_, ?_⟩
  · rw [grid, div_lt_div_iff_of_pos_right common, Nat.cast_lt]
    exact least
  · have division : (interval.unit : ℚ) * num * lower + remainder = interval.value * den := by
      exact_mod_cast division
    rw [center, ← tens]
    field_simp
    linarith
  · rw [double, grid, div_le_div_iff_of_pos_right common, Nat.cast_le]
  · rw [double, grid, div_le_div_iff_of_pos_right common, Nat.cast_le]

/-- **A grid is searched at the points around the middle.** -/
theorem exists_neighbours (unit : 0 < interval.unit) (exponent : Int) :
    ∃ first second, interval.Neighbours exponent first second ∧
      gridPoint? interval exponent =
        if interval.contains (first * (decimalFraction 1 exponent).1)
            (decimalFraction 1 exponent).2 then some first
        else if interval.contains (second * (decimalFraction 1 exponent).1)
            (decimalFraction 1 exponent).2 then some second
        else none := by
  obtain ⟨num_pos, den_pos, tens⟩ := decimalFraction_one exponent
  obtain ⟨rest, nonneg, below, split, low_iff, high_iff⟩ :=
    interval.exists_rest unit num_pos den_pos tens
  obtain ⟨low, high⟩ := Neighbours.of_split nonneg below split
  rw [low_iff, high_iff] at low high
  rw [gridPoint?]
  generalize decimalFraction 1 exponent = fraction at low high ⊢
  obtain ⟨num, den⟩ := fraction
  dsimp only at low high ⊢
  generalize interval.value * den / (interval.unit * num) = lower at low high ⊢
  generalize interval.value * den % (interval.unit * num) = remainder at low high ⊢
  simp only [Bool.or_eq_true, decide_eq_true_eq, Bool.and_eq_true, beq_iff_eq]
  by_cases lowerFirst : 2 * remainder < interval.unit * num ∨
      2 * remainder = interval.unit * num ∧ lower % 2 = 0
  · rw [if_pos lowerFirst]
    exact ⟨lower, lower + 1, low (by omega) (by omega), rfl⟩
  · rw [if_neg lowerFirst]
    exact ⟨lower + 1, lower, high (by omega) (by omega), rfl⟩

/-- A point of a grid that lies in the interval. None of those of its grid that do is nearer to the
middle, and if another one is as near, the point is even. -/
structure Nearest (interval : ReadingInterval) (exponent : Int) (n : Nat) : Prop where
  holds : interval.Holds (n * 10 ^ exponent)
  near : ∀ m : Nat, interval.Holds (m * 10 ^ exponent) →
    |n * 10 ^ exponent - interval.center| ≤ |m * 10 ^ exponent - interval.center|
  tie : ∀ m : Nat, interval.Holds (m * 10 ^ exponent) → m ≠ n →
    |m * 10 ^ exponent - interval.center| = |n * 10 ^ exponent - interval.center| → n % 2 = 0

/-- A point behind another one is not as near. -/
theorem Shields.abs_ne {m : Nat} (h : interval.Shields (n * 10 ^ exponent) (m * 10 ^ exponent))
    (other : m ≠ n) :
    |m * 10 ^ exponent - interval.center| ≠ |n * 10 ^ exponent - interval.center| := by
  intro near
  have same := mul_right_cancel₀ (zpow_ne_zero exponent (by norm_num)) (h.eq_of_abs_eq near)
  exact other (Nat.cast_injective same)

theorem Neighbours.nearest_first {first second : Nat}
    (h : interval.Neighbours exponent first second)
    (holds : interval.Holds (first * 10 ^ exponent)) : interval.Nearest exponent first := by
  refine ⟨holds, fun m _ => ?_, fun m _ other near => ?_⟩
  · rcases h.shields m with behind | behind
    · exact behind.near
    · exact h.near.trans behind.near
  · rcases h.shields m with behind | behind
    · exact absurd near (behind.abs_ne other)
    · exact h.tie (le_antisymm h.near (behind.near.trans near.le))

theorem Neighbours.nearest_second {first second : Nat} (around : interval.Around)
    (h : interval.Neighbours exponent first second)
    (other : ¬interval.Holds (first * 10 ^ exponent))
    (holds : interval.Holds (second * 10 ^ exponent)) : interval.Nearest exponent second := by
  have behind (m : Nat) (inside : interval.Holds (m * 10 ^ exponent)) :
      interval.Shields (second * 10 ^ exponent) (m * 10 ^ exponent) :=
    (h.shields m).resolve_left fun behind => other (behind.holds around inside)
  refine ⟨holds, fun m inside => (behind m inside).near, fun m inside differs near => ?_⟩
  exact absurd near ((behind m inside).abs_ne differs)

/-- No point of the grid lies in the interval. -/
def Misses (interval : ReadingInterval) (exponent : Int) : Prop :=
  ∀ n : Nat, ¬interval.Holds (n * 10 ^ exponent)

/-- **A grid is searched exactly**: a nearest point is found, and there is none if nothing is. -/
theorem gridPoint?_spec (around : interval.Around) (exponent : Int) :
    match gridPoint? interval exponent with
    | some n => interval.Nearest exponent n
    | none => interval.Misses exponent := by
  obtain ⟨-, den_pos, tens⟩ := decimalFraction_one exponent
  obtain ⟨first, second, neighbours, same⟩ := exists_neighbours around.unit exponent
  have fits (n : Nat) : interval.contains (n * (decimalFraction 1 exponent).1)
      (decimalFraction 1 exponent).2 = true ↔ interval.Holds (n * 10 ^ exponent) := by
    rw [contains_iff den_pos, Nat.cast_mul, mul_div_assoc, tens]
  rw [same]
  split_ifs with left right
  · exact neighbours.nearest_first ((fits first).1 left)
  · rw [fits] at left right
    exact neighbours.nearest_second around left right
  · rw [fits] at left right
    intro n inside
    rcases neighbours.shields n with behind | behind
    · exact left (behind.holds around inside)
    · exact right (behind.holds around inside)

/-! ### The search -/

/-- A coarser grid has no other points. -/
theorem Misses.coarser {coarse : Int} (h : interval.Misses exponent) (le : exponent ≤ coarse) :
    interval.Misses coarse := by
  intro n inside
  obtain ⟨k, rfl⟩ := Int.le.dest le
  refine h (n * 10 ^ k) ?_
  rw [zpow_add₀ (by norm_num), zpow_natCast] at inside
  have same : ((n * 10 ^ k : ℕ) : ℚ) * 10 ^ exponent = n * (10 ^ exponent * 10 ^ k) := by
    push_cast
    ring
  rw [same]
  exact inside

/-- **What the search is for**: the coarsest grid with a point in the interval, and there a nearest
one. -/
structure Picks (interval : ReadingInterval) (d : ShortDecimal) : Prop where
  nearest : interval.Nearest d.exponent d.digits
  coarsest : interval.Misses (d.exponent + 1)

/-- The digits that are found have no zero at their end. -/
theorem Picks.no_trailing_zero {d : ShortDecimal} (h : interval.Picks d) : d.digits % 10 ≠ 0 := by
  intro zero
  refine h.coarsest (d.digits / 10) ?_
  have digits : (d.digits : ℚ) = (d.digits / 10 : ℕ) * 10 := by
    have exact : d.digits = d.digits / 10 * 10 := by omega
    exact_mod_cast exact
  have holds := h.nearest.holds
  rw [digits] at holds
  rw [zpow_add_one₀ (by norm_num), mul_comm _ (10 : ℚ), ← mul_assoc]
  exact holds

/-- **The search stops on the coarsest grid with a point in the interval**, if it starts on it or
above and there is one among the grids that it tries. -/
theorem searchGrids_picks (around : interval.Around) (fuel : Nat) (start : Int)
    (coarse : interval.Misses (start + 1)) (fine : ¬interval.Misses (start + 1 - fuel)) :
    interval.Picks (searchGrids interval fuel start) := by
  induction fuel generalizing start with
  | zero =>
    rw [Nat.cast_zero, sub_zero] at fine
    exact absurd coarse fine
  | succ fuel ih =>
    have grid := gridPoint?_spec around start
    rw [searchGrids]
    cases point : gridPoint? interval start with
    | some n =>
      rw [point] at grid
      exact ⟨grid, coarse⟩
    | none =>
      rw [point] at grid
      refine ih (start - 1) ?_ ?_
      · rw [sub_add_cancel]
        exact grid
      · rw [sub_add_cancel]
        rw [Nat.cast_succ, add_sub_add_right_eq_sub] at fine
        exact fine

theorem le_exponent_searchGrids (fuel : Nat) (start : Int) :
    start - fuel ≤ (searchGrids interval fuel start).exponent := by
  induction fuel generalizing start with
  | zero => exact Int.sub_le_self start (le_refl 0)
  | succ fuel ih =>
    rw [searchGrids]
    cases gridPoint? interval start with
    | some n => exact Int.sub_le_self start (Int.natCast_nonneg _)
    | none =>
      refine le_trans (le_of_eq ?_) (ih (start - 1))
      rw [Nat.cast_succ]
      omega

end ReadingInterval

/-! ### Powers of ten and of two -/

/-- Powers are compared by comparing their powers. -/
theorem ten_zpow_le_of {k n : ℤ} {p q : ℕ} (positive : 0 < q)
    (known : ((10 : ℚ) ^ q) ^ k ≤ (2 ^ p) ^ k) (le : p * k ≤ q * n) : (10 : ℚ) ^ k ≤ 2 ^ n := by
  rw [← pow_le_pow_iff_left₀ (by positivity) (by positivity) positive.ne']
  calc ((10 : ℚ) ^ k) ^ q = (10 ^ q) ^ k := by rw [← zpow_natCast, ← zpow_natCast, zpow_comm]
    _ ≤ (2 ^ p) ^ k := known
    _ = 2 ^ (p * k) := by rw [← zpow_natCast, ← zpow_mul]
    _ ≤ 2 ^ (q * n) := zpow_le_zpow_right₀ (by norm_num) le
    _ = (2 ^ n) ^ q := by rw [mul_comm, zpow_mul, zpow_natCast]

/-- **A factor of two is at most 0.30103 decimal digits**, up to one factor in the range of the
exponents. -/
theorem ten_zpow_le {k n : ℤ} (le : 100000 * k ≤ 30103 * n) (low : -1100 ≤ n) (high : n ≤ 1100) :
    (10 : ℚ) ^ k ≤ 2 ^ (n + 1) := by
  rcases le_total 0 k with positive | negative
  · refine ten_zpow_le_of (p := 196) (q := 59) (by decide) ?_ (by omega)
    exact zpow_le_zpow_left₀ positive (by norm_num) (by norm_num)
  · refine ten_zpow_le_of (p := 93) (q := 28) (by decide) ?_ (by omega)
    obtain ⟨j, rfl⟩ := Int.exists_eq_neg_ofNat negative
    rw [zpow_neg, zpow_neg, zpow_natCast, zpow_natCast]
    exact inv_anti₀ (by positivity) (pow_le_pow_left₀ (by norm_num) (by norm_num) j)

theorem le_ten_zpow {k n : ℤ} (le : 30103 * n ≤ 100000 * k) (low : -1100 ≤ n) (high : n ≤ 1100) :
    (2 : ℚ) ^ (n - 1) ≤ 10 ^ k := by
  have inverse := ten_zpow_le (k := -k) (n := -n) (by omega) (by omega) (by omega)
  rw [← inv_le_inv₀ (by positivity) (by positivity), ← zpow_neg, ← zpow_neg, neg_sub',
    sub_neg_eq_add]
  exact inverse

/-! ### The grids of a number -/

section
variable {x : Binary64}

theorem readingInterval_value (x : Binary64) :
    x.readingInterval.value = 4 * (x.significand * 2 ^ x.binaryExponent) := by
  rw [readingInterval]
  dsimp only
  rw [Nat.one_shiftLeft, Nat.mul_assoc]

theorem readingInterval_unit (x : Binary64) : x.readingInterval.unit = 2 ^ 1076 := by
  have shift {n m : Nat} (more : m = n + 2) : 4 <<< n = 2 ^ m := by
    rw [more, Nat.shiftLeft_eq, Nat.pow_add, Nat.mul_comm]
  exact shift rfl

theorem cast_readingInterval_unit (x : Binary64) :
    (x.readingInterval.unit : ℚ) = 2 ^ (1076 : ℤ) := by
  rw [readingInterval_unit, Nat.cast_pow, Nat.cast_ofNat, ← zpow_natCast, Nat.cast_ofNat]

/-- The finite number that the bits below the sign stand for. -/
def magnitude (x : Binary64) : ℚ :=
  x.significand * 2 ^ ((x.binaryExponent : Int) - 1074)

/-- In the middle of the interval is the number itself. -/
theorem readingInterval_center (x : Binary64) : x.readingInterval.center = x.magnitude := by
  have four : (4 : ℚ) = 2 ^ (2 : ℤ) := by norm_num
  have exponent : (x.binaryExponent : Int) - 1074 = 2 + x.binaryExponent - 1076 := by omega
  rw [ReadingInterval.center, readingInterval_value, cast_readingInterval_unit, magnitude, exponent,
    zpow_sub₀ (by norm_num), zpow_add₀ (by norm_num), zpow_natCast, ← four]
  generalize (2 : ℚ) ^ (1076 : ℤ) = unit
  push_cast
  ring

/-- The lower end is at least a quarter of the grid below the number, and above zero. -/
theorem readingInterval_low_bounds (nonzero : x.isZero = false) :
    0 < x.readingInterval.low ∧
      x.readingInterval.low + 2 ^ x.binaryExponent ≤ x.readingInterval.value := by
  have positive := x.significand_pos nonzero
  have low := x.readingInterval_low positive
  have grid := Nat.two_pow_pos x.binaryExponent
  have least : 2 ^ x.binaryExponent ≤ x.significand * 2 ^ x.binaryExponent :=
    Nat.le_mul_of_pos_left _ positive
  rw [readingInterval_value]
  split_ifs at low <;> omega

theorem readingInterval_around (nonzero : x.isZero = false) : x.readingInterval.Around := by
  have low := readingInterval_low_bounds nonzero
  have high := x.readingInterval_high
  have grid := Nat.two_pow_pos x.binaryExponent
  rw [← readingInterval_value] at high
  refine ⟨?_, by omega, by omega⟩
  rw [readingInterval_unit]
  positivity

/-- What is less than a quarter of the grid away from the number is in its interval. -/
theorem holds_of_near (nonzero : x.isZero = false) {v : ℚ}
    (near : |v - x.readingInterval.center| * x.readingInterval.unit < 2 ^ x.binaryExponent) :
    x.readingInterval.Holds v := by
  have around := readingInterval_around nonzero
  have unit : (0 : ℚ) < x.readingInterval.unit := Nat.cast_pos.2 around.unit
  have middle : x.readingInterval.center * x.readingInterval.unit = x.readingInterval.value :=
    div_mul_cancel₀ _ unit.ne'
  have low : (x.readingInterval.low : ℚ) + 2 ^ x.binaryExponent ≤ x.readingInterval.value := by
    exact_mod_cast (readingInterval_low_bounds nonzero).2
  have high : (x.readingInterval.value : ℚ) + 2 ^ x.binaryExponent ≤ x.readingInterval.high := by
    have high := x.readingInterval_high
    rw [← readingInterval_value] at high
    rw [high]
    push_cast
    have grid : (0 : ℚ) < 2 ^ x.binaryExponent := by positivity
    linarith
  have scaled : |v - x.readingInterval.center| * x.readingInterval.unit =
      |v * x.readingInterval.unit - x.readingInterval.value| := by
    rw [← middle, ← sub_mul, abs_mul, abs_of_pos unit]
  rw [scaled, abs_lt] at near
  obtain ⟨left, right⟩ := near
  have below : (x.readingInterval.low : ℚ) < v * x.readingInterval.unit := by linarith
  have above : v * x.readingInterval.unit < x.readingInterval.high := by linarith
  exact ⟨below.le, above.le, fun _ => ⟨below.ne', above.ne⟩⟩

/-- The position of the leading bit of the number, in quarters of the finest grid. -/
theorem log2_value_bounds (finite : x.isFinite = true) (nonzero : x.isZero = false) :
    2 ≤ Nat.log2 x.readingInterval.value ∧
      Nat.log2 x.readingInterval.value ≤ x.binaryExponent + 54 ∧ x.binaryExponent + 54 ≤ 2099 := by
  have positive := x.significand_pos nonzero
  have hidden : hiddenBit = 2 ^ 52 := rfl
  have most : 4 * (x.significand * 2 ^ x.binaryExponent) < 2 ^ (x.binaryExponent + 55) := by
    have split : 2 ^ (x.binaryExponent + 55) = 4 * (2 * hiddenBit * 2 ^ x.binaryExponent) := by
      rw [hidden, Nat.pow_add]
      ring
    rw [split]
    exact Nat.mul_lt_mul_of_pos_left
      (Nat.mul_lt_mul_of_pos_right x.significand_lt (Nat.two_pow_pos _)) (by decide)
  have least : 1 ≤ x.significand * 2 ^ x.binaryExponent :=
    Nat.mul_pos positive (Nat.two_pow_pos _)
  have range := x.binaryExponent_lt finite
  rw [readingInterval_value]
  refine ⟨(Nat.le_log2 (by omega)).2 (by omega), ?_, by omega⟩
  exact Nat.le_of_lt_succ ((Nat.log2_lt (by omega)).2 most)

theorem coarseExponent_eq (x : Binary64) :
    coarseExponent x.readingInterval =
      ((Nat.log2 x.readingInterval.value : Int) - 1075) * 30103 / 100000 + 2 := by
  have unit : Nat.log2 x.readingInterval.unit = 1076 := by
    rw [readingInterval_unit, Nat.log2_two_pow]
  have same (bits : Int) : bits - (1076 : ℕ) + 1 = bits - 1075 := by omega
  rw [coarseExponent, unit, same]

/-- **The first grid is too coarse**: its step is above the interval. -/
theorem high_lt (finite : x.isFinite = true) (nonzero : x.isZero = false) :
    (x.readingInterval.high : ℚ) <
      10 ^ coarseExponent x.readingInterval * x.readingInterval.unit := by
  obtain ⟨least, most, range⟩ := log2_value_bounds finite nonzero
  have double : x.readingInterval.high < 2 ^ (Nat.log2 x.readingInterval.value + 2) := by
    have value := Nat.lt_log2_self (n := x.readingInterval.value)
    have high := x.readingInterval_high
    have one : 2 ^ x.binaryExponent ≤ x.significand * 2 ^ x.binaryExponent :=
      Nat.le_mul_of_pos_left _ (x.significand_pos nonzero)
    rw [readingInterval_value] at value ⊢
    rw [Nat.pow_succ]
    omega
  have coarse := coarseExponent_eq x
  generalize coarseExponent x.readingInterval = exponent at coarse ⊢
  generalize Nat.log2 x.readingInterval.value = bits at least most coarse double
  have tens := le_ten_zpow (k := exponent - 1) (n := (bits : Int) - 1075) (by omega) (by omega)
    (by omega)
  rw [cast_readingInterval_unit]
  calc (x.readingInterval.high : ℚ) < (2 ^ (bits + 2) : ℕ) := Nat.cast_lt.2 double
    _ = 4 * 2 ^ bits := by rw [Nat.cast_pow, pow_add]; ring
    _ ≤ 10 * 2 ^ bits := by
      have : (0 : ℚ) ≤ 2 ^ bits := by positivity
      linarith
    _ = 10 * 2 ^ ((bits : Int) - 1075 - 1) * 2 ^ (1076 : ℤ) := by
      rw [← zpow_natCast, mul_assoc, ← zpow_add₀ (by norm_num)]
      congr 2
      omega
    _ ≤ 10 * 10 ^ (exponent - 1) * 2 ^ (1076 : ℤ) := by gcongr
    _ = 10 ^ exponent * 2 ^ (1076 : ℤ) := by
      rw [← zpow_one_add₀ (by norm_num), add_sub_cancel]

theorem misses_coarseExponent (finite : x.isFinite = true) (nonzero : x.isZero = false) :
    x.readingInterval.Misses (coarseExponent x.readingInterval) := by
  intro n inside
  have low : (0 : ℚ) < x.readingInterval.low :=
    Nat.cast_pos.2 (readingInterval_low_bounds nonzero).1
  have high := high_lt finite nonzero
  have left := inside.low
  have right := inside.high
  rcases n.eq_zero_or_pos with rfl | positive
  · rw [Nat.cast_zero, zero_mul, zero_mul] at left
    linarith
  · have one : (1 : ℚ) ≤ n := Nat.one_le_cast.2 positive
    have step : (0 : ℚ) ≤ 10 ^ coarseExponent x.readingInterval * x.readingInterval.unit :=
      mul_nonneg (by positivity) (Nat.cast_nonneg _)
    have least := le_mul_of_one_le_left step one
    rw [← mul_assoc] at least
    exact absurd (high.trans_le least) (not_lt.2 right)

/-- **The last grid is fine enough**: half its step stays in the interval. -/
theorem not_misses_fine (finite : x.isFinite = true) (nonzero : x.isZero = false) :
    ¬x.readingInterval.Misses (coarseExponent x.readingInterval + 1 - (24 : ℕ)) := by
  obtain ⟨least, most, range⟩ := log2_value_bounds finite nonzero
  have coarse := coarseExponent_eq x
  obtain ⟨n, second, neighbours, -⟩ := ReadingInterval.exists_neighbours
    (readingInterval_around nonzero).unit (coarseExponent x.readingInterval + 1 - (24 : ℕ))
  have half := neighbours.half
  intro misses
  refine misses n (holds_of_near nonzero ?_)
  generalize coarseExponent x.readingInterval = exponent at coarse half ⊢
  generalize Nat.log2 x.readingInterval.value = bits at least most coarse
  have tens := ten_zpow_le (k := exponent - 2) (n := (bits : Int) - 1075) (by omega) (by omega)
    (by omega)
  have step : (10 : ℚ) ^ (exponent + 1 - (24 : ℕ)) ≤ 2 ^ ((x.binaryExponent : Int) - 1076) := by
    calc (10 : ℚ) ^ (exponent + 1 - (24 : ℕ)) = 10 ^ (exponent - 2) / 10 ^ 21 := by
          rw [← zpow_natCast, ← zpow_sub₀ (by norm_num)]
          congr 1
          omega
      _ ≤ 2 ^ ((bits : Int) - 1075 + 1) / 2 ^ 69 := by
          gcongr
          norm_num
      _ = 2 ^ ((bits : Int) - 1143) := by
          rw [← zpow_natCast, ← zpow_sub₀ (by norm_num)]
          congr 1
          omega
      _ ≤ 2 ^ ((x.binaryExponent : Int) - 1076) := zpow_le_zpow_right₀ (by norm_num) (by omega)
  have grid : (0 : ℚ) < 2 ^ ((x.binaryExponent : Int) - 1076) := by positivity
  rw [cast_readingInterval_unit]
  calc |(n : ℚ) * 10 ^ (exponent + 1 - (24 : ℕ)) - x.readingInterval.center| * 2 ^ (1076 : ℤ)
      < 2 ^ ((x.binaryExponent : Int) - 1076) * 2 ^ (1076 : ℤ) :=
        mul_lt_mul_of_pos_right (by linarith) (by positivity)
    _ = 2 ^ x.binaryExponent := by
      rw [← zpow_add₀ (by norm_num), sub_add_cancel, zpow_natCast]

/-! ### The digits -/

/-- **The search finds the coarsest grid** that has a point read as the number. -/
theorem shortest_picks (finite : x.isFinite = true) (nonzero : x.isZero = false) :
    x.readingInterval.Picks x.shortest :=
  ReadingInterval.searchGrids_picks (readingInterval_around nonzero) 24 _
    ((misses_coarseExponent finite nonzero).coarser (Int.le_add_one (le_refl _)))
    (not_misses_fine finite nonzero)

theorem shortest_pos (finite : x.isFinite = true) (nonzero : x.isZero = false) :
    0 < x.shortest.digits := by
  have last := (shortest_picks finite nonzero).no_trailing_zero
  omega

/-- The power of ten of the first digit. -/
theorem shortest_power_bounds (finite : x.isFinite = true) (nonzero : x.isZero = false) :
    -400 ≤ (Decimal.digits x.shortest.digits).length + x.shortest.exponent - 1 ∧
      (Decimal.digits x.shortest.digits).length + x.shortest.exponent - 1 ≤ 400 := by
  obtain ⟨least, most, range⟩ := log2_value_bounds finite nonzero
  have coarse := coarseExponent_eq x
  have tried : coarseExponent x.readingInterval - (24 : ℕ) ≤ x.shortest.exponent :=
    ReadingInterval.le_exponent_searchGrids 24 _
  have unit : (0 : ℚ) < x.readingInterval.unit :=
    Nat.cast_pos.2 (readingInterval_around nonzero).unit
  have first : (10 : ℚ) ^ (((Decimal.digits x.shortest.digits).length - 1 : ℕ) : ℤ) ≤
      x.shortest.digits := by
    rw [zpow_natCast]
    exact_mod_cast Decimal.pow_length_digits_le (shortest_pos finite nonzero)
  have below : (x.shortest.digits : ℚ) * 10 ^ x.shortest.exponent <
      10 ^ coarseExponent x.readingInterval :=
    lt_of_mul_lt_mul_right
      ((shortest_picks finite nonzero).nearest.holds.high.trans_lt (high_lt finite nonzero)) unit.le
  have power : (10 : ℚ) ^
      ((((Decimal.digits x.shortest.digits).length - 1 : ℕ) : ℤ) + x.shortest.exponent) <
        10 ^ coarseExponent x.readingInterval := by
    rw [zpow_add₀ (by norm_num)]
    exact (mul_le_mul_of_nonneg_right first (by positivity)).trans_lt below
  have exponents := (zpow_lt_zpow_iff_right₀ (by norm_num)).1 power
  omega

/-- **What is found is read back as the number.** -/
theorem ofDecimal_shortest (finite : x.isFinite = true) (nonzero : x.isZero = false) :
    ofDecimal x.isNegative x.shortest.digits x.shortest.exponent = x :=
  (ofDecimal_eq_iff finite nonzero _ _).2 (shortest_picks finite nonzero).nearest.holds

/-- **No decimal on its grid is read as the number and nearer to it**, and one that is as near only
if the digits are even. -/
theorem shortest_nearest (finite : x.isFinite = true) (nonzero : x.isZero = false)
    {coefficient : Nat} (read : ofDecimal x.isNegative coefficient x.shortest.exponent = x) :
    |x.shortest.digits * 10 ^ x.shortest.exponent - x.magnitude| ≤
      |coefficient * 10 ^ x.shortest.exponent - x.magnitude| ∧
    (coefficient ≠ x.shortest.digits →
      |coefficient * 10 ^ x.shortest.exponent - x.magnitude| =
        |x.shortest.digits * 10 ^ x.shortest.exponent - x.magnitude| →
      x.shortest.digits % 2 = 0) := by
  have nearest := (shortest_picks finite nonzero).nearest
  have inside := (ofDecimal_eq_iff finite nonzero _ _).1 read
  rw [← readingInterval_center]
  exact ⟨nearest.near coefficient inside, nearest.tie coefficient inside⟩

/-- **No decimal with fewer digits is read as the number.** -/
theorem length_shortest_le (finite : x.isFinite = true) (nonzero : x.isZero = false)
    {coefficient : Nat} {exponent : Int}
    (read : ofDecimal x.isNegative coefficient exponent = x) :
    (Decimal.digits x.shortest.digits).length ≤ (Decimal.digits coefficient).length := by
  have picks := shortest_picks finite nonzero
  have inside := (ofDecimal_eq_iff finite nonzero _ _).1 read
  have least := Decimal.pow_length_digits_le (shortest_pos finite nonzero)
  have most := Decimal.lt_pow_length_digits coefficient
  have one := List.length_pos_iff.2 (Decimal.digits_ne_nil coefficient)
  generalize (Decimal.digits x.shortest.digits).length = length at least ⊢
  generalize (Decimal.digits coefficient).length = other at most one ⊢
  by_contra fewer
  have grid : exponent ≤ x.shortest.exponent := by
    by_contra finer
    exact picks.coarsest.coarser (by omega) coefficient inside
  -- Between the two decimals lies the power of ten with which the longer one starts.
  have power : (((1 : ℕ) : ℚ) * 10 ^ (x.shortest.exponent + (length - 1 : ℕ))) =
      (10 ^ (length - 1) : ℕ) * 10 ^ x.shortest.exponent := by
    rw [zpow_add₀ (by norm_num), zpow_natCast]
    push_cast
    ring
  have beyond : x.readingInterval.Misses (x.shortest.exponent + (length - 1 : ℕ)) :=
    picks.coarsest.coarser (by omega)
  refine beyond 1 (inside.between picks.nearest.holds ?_ ?_)
  · rw [power]
    have shorter : 10 ^ other ≤ 10 ^ (length - 1) := Nat.pow_le_pow_right (by decide) (by omega)
    have digits : (coefficient : ℚ) ≤ (10 ^ (length - 1) : ℕ) :=
      Nat.cast_le.2 (most.le.trans shorter)
    exact mul_le_mul digits (zpow_le_zpow_right₀ (by norm_num) grid) (by positivity) (by positivity)
  · rw [power]
    exact mul_le_mul_of_nonneg_right (Nat.cast_le.2 least) (by positivity)

end

end Binary64

end JsonStream
