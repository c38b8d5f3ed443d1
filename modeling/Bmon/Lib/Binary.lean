/-
This file holds the rounding of binary floating point: the nearest number with so many
significant bits, and of two nearest ones the one with the even last bit. Numbers are exact
rationals and the exponent is not bounded, so this is the result of an operation that neither
overflows nor comes close to zero.

Rounding keeps the order, and keeps the numbers that fit in the bits. What a comparison of two
rounded numbers says about the numbers themselves follows from these two.
-/

import Mathlib.Data.Int.Log
import Mathlib.Data.Rat.Floor
import Mathlib.Algebra.Order.Field.Rat
import Mathlib.Tactic.FieldSimp
import Mathlib.Tactic.Linarith
import Mathlib.Tactic.Positivity

namespace Binary

/-! ### The nearest integer -/

/-- The nearest integer, and of two the even one. -/
def nearestEven (x : ℚ) : ℤ :=
  if Int.fract x < 1 / 2 then ⌊x⌋
  else if 1 / 2 < Int.fract x then ⌊x⌋ + 1
  else if 2 ∣ ⌊x⌋ then ⌊x⌋ else ⌊x⌋ + 1

/-- No integer is nearer than a half of one. -/
theorem abs_nearestEven_sub_le (x : ℚ) : |nearestEven x - x| ≤ 1 / 2 := by
  have nonneg := Int.fract_nonneg x
  have below := Int.fract_lt_one x
  have parts := Int.floor_add_fract x
  unfold nearestEven
  rw [abs_le]
  split_ifs <;> push_cast <;> constructor <;> linarith

/-- Where two integers are nearest it is the even one. -/
theorem even_nearestEven {x : ℚ} (tie : |nearestEven x - x| = 1 / 2) : 2 ∣ nearestEven x := by
  have nonneg := Int.fract_nonneg x
  have below := Int.fract_lt_one x
  have parts := Int.floor_add_fract x
  unfold nearestEven at tie ⊢
  split_ifs at tie ⊢ with low high even
  · exfalso
    rw [abs_eq (by norm_num)] at tie
    rcases tie with tie | tie <;> linarith
  · exfalso
    push_cast at tie
    rw [abs_eq (by norm_num)] at tie
    rcases tie with tie | tie <;> linarith
  · exact even
  · omega

/-- The larger of two numbers has no smaller nearest integer. -/
theorem nearestEven_mono {x y : ℚ} (le : x ≤ y) : nearestEven x ≤ nearestEven y := by
  by_contra above
  have apart : (nearestEven y : ℚ) + 1 ≤ nearestEven x := by exact_mod_cast not_le.mp above
  have upper := (abs_le.mp (abs_nearestEven_sub_le x)).2
  have lower := (abs_le.mp (abs_nearestEven_sub_le y)).1
  obtain rfl : x = y := le_antisymm le (by linarith)
  exact above le_rfl

theorem nearestEven_intCast (n : ℤ) : nearestEven n = n := by
  simp [nearestEven]

/-- An integer nearer than a half is the nearest one, and so is an even one at a half. -/
theorem nearestEven_eq {x : ℚ} {n : ℤ} (near : |(n : ℚ) - x| ≤ 1 / 2)
    (tie : |(n : ℚ) - x| = 1 / 2 → 2 ∣ n) : nearestEven x = n := by
  have bound := abs_nearestEven_sub_le x
  by_contra other
  have apart : (1 : ℚ) ≤ |(nearestEven x : ℚ) - n| := by
    have : 1 ≤ |nearestEven x - n| := Int.one_le_abs (sub_ne_zero.mpr other)
    exact_mod_cast this
  have total : |(nearestEven x : ℚ) - n| ≤ |(nearestEven x : ℚ) - x| + |(n : ℚ) - x| := by
    rw [abs_sub_comm (n : ℚ) x]
    exact abs_sub_le _ _ _
  -- both are at a half, so both are even, and they are one apart
  have nearHalf : |(n : ℚ) - x| = 1 / 2 := le_antisymm near (by linarith)
  have half : |(nearestEven x : ℚ) - x| = 1 / 2 := le_antisymm bound (by linarith)
  have one : |(nearestEven x : ℚ) - n| = 1 := le_antisymm (by linarith) apart
  have difference : |nearestEven x - n| = 1 := by exact_mod_cast one
  have even := even_nearestEven half
  have even' := tie nearHalf
  rcases abs_eq (by norm_num) |>.mp difference with same | same <;> omega

theorem nearestEven_neg (x : ℚ) : nearestEven (-x) = -nearestEven x := by
  have opposite : |((-nearestEven x : ℤ) : ℚ) - -x| = |(nearestEven x : ℚ) - x| := by
    rw [← abs_neg]
    congr 1
    push_cast
    ring
  refine nearestEven_eq (opposite.trans_le (abs_nearestEven_sub_le x)) fun tie => ?_
  exact (Int.dvd_neg).mpr (even_nearestEven (opposite.symm.trans tie))

/-! ### Rounding -/

/-- The value of the last bit of a number with so many significant bits. -/
def unit (bits : Nat) (x : ℚ) : ℚ := 2 ^ (Int.log 2 |x| + 1 - bits)

/-- The nearest number with so many significant bits. -/
def round (bits : Nat) (x : ℚ) : ℚ := nearestEven (x / unit bits x) * unit bits x

/-- The number has so many significant bits. -/
def Fits (bits : Nat) (x : ℚ) : Prop := ∃ m e : ℤ, |m| < 2 ^ bits ∧ x = m * 2 ^ e

variable {bits : Nat} {x y : ℚ}

theorem unit_pos (bits : Nat) (x : ℚ) : 0 < unit bits x := zpow_pos two_pos _

@[simp] theorem unit_neg (bits : Nat) (x : ℚ) : unit bits (-x) = unit bits x := by
  rw [unit, unit, abs_neg]

@[simp] theorem round_zero (bits : Nat) : round bits 0 = 0 := by
  rw [round, zero_div, show nearestEven 0 = 0 from nearestEven_intCast 0, Int.cast_zero, zero_mul]

theorem round_neg (bits : Nat) (x : ℚ) : round bits (-x) = -round bits x := by
  rw [round, unit_neg, neg_div, nearestEven_neg, Int.cast_neg, neg_mul, round]

/-- A whole number of units is kept. -/
theorem round_of_units {n : ℤ} (whole : x / unit bits x = n) : round bits x = x := by
  rw [round, whole, nearestEven_intCast, ← whole, div_mul_cancel₀ _ (unit_pos bits x).ne']

/-- A positive number is between two powers of two. -/
theorem log_bounds (positive : 0 < x) :
    (2 : ℚ) ^ Int.log 2 x ≤ x ∧ x < 2 ^ (Int.log 2 x + 1) :=
  ⟨by exact_mod_cast Int.zpow_log_le_self one_lt_two positive,
    by exact_mod_cast Int.lt_zpow_succ_log_self one_lt_two x⟩

/-- A positive number in its units. -/
theorem units_bounds (bits : Nat) (positive : 0 < x) :
    (2 : ℚ) ^ ((bits : ℤ) - 1) ≤ x / unit bits x ∧ x / unit bits x < 2 ^ (bits : ℤ) := by
  obtain ⟨lower, upper⟩ := log_bounds positive
  have small : (2 : ℚ) ^ ((bits : ℤ) - 1) * unit bits x = 2 ^ Int.log 2 x := by
    rw [unit, abs_of_pos positive, ← zpow_add₀ two_ne_zero]
    congr 1
    ring
  have large : (2 : ℚ) ^ (bits : ℤ) * unit bits x = 2 ^ (Int.log 2 x + 1) := by
    rw [unit, abs_of_pos positive, ← zpow_add₀ two_ne_zero]
    congr 1
    ring
  rw [le_div_iff₀ (unit_pos bits x), div_lt_iff₀ (unit_pos bits x), small, large]
  exact ⟨lower, upper⟩

/-- A positive number is rounded to one between the same two powers. -/
theorem round_bounds (some : 0 < bits) (positive : 0 < x) :
    (2 : ℚ) ^ Int.log 2 x ≤ round bits x ∧ round bits x ≤ 2 ^ (Int.log 2 x + 1) := by
  obtain ⟨lower, upper⟩ := units_bounds bits positive
  have least : (2 : ℤ) ^ (bits - 1) ≤ nearestEven (x / unit bits x) := by
    rw [← nearestEven_intCast (2 ^ (bits - 1))]
    refine nearestEven_mono (le_trans (le_of_eq ?_) lower)
    rw [← Nat.cast_pred some, zpow_natCast]
    push_cast
    rfl
  have most : nearestEven (x / unit bits x) ≤ (2 : ℤ) ^ bits := by
    rw [← nearestEven_intCast (2 ^ bits)]
    refine nearestEven_mono (upper.le.trans (le_of_eq ?_))
    rw [zpow_natCast]
    push_cast
    rfl
  have positiveUnit := (unit_pos bits x).le
  constructor
  · calc (2 : ℚ) ^ Int.log 2 x = (2 : ℚ) ^ (bits - 1) * unit bits x := by
          rw [← zpow_natCast, Nat.cast_pred some, unit, abs_of_pos positive,
            ← zpow_add₀ two_ne_zero]
          congr 1
          ring
      _ ≤ round bits x := mul_le_mul_of_nonneg_right (by exact_mod_cast least) positiveUnit
  · calc round bits x ≤ (2 : ℚ) ^ bits * unit bits x :=
          mul_le_mul_of_nonneg_right (by exact_mod_cast most) positiveUnit
      _ = 2 ^ (Int.log 2 x + 1) := by
          rw [← zpow_natCast, unit, abs_of_pos positive, ← zpow_add₀ two_ne_zero]
          congr 1
          ring

theorem round_pos (some : 0 < bits) (positive : 0 < x) : 0 < round bits x :=
  (zpow_pos two_pos _).trans_le (round_bounds some positive).1

theorem round_mono_of_pos (some : 0 < bits) (positive : 0 < x) (le : x ≤ y) :
    round bits x ≤ round bits y := by
  have positive' := positive.trans_le le
  rcases (Int.log_mono_right positive le : Int.log 2 x ≤ Int.log 2 y).lt_or_eq with less | same
  · -- a power of two is between them
    calc round bits x ≤ 2 ^ (Int.log 2 x + 1) := (round_bounds some positive).2
      _ ≤ 2 ^ Int.log 2 y := zpow_le_zpow_right₀ one_le_two (Int.add_one_le_iff.mpr less)
      _ ≤ round bits y := (round_bounds some positive').1
  · have sameUnit : unit bits x = unit bits y := by
      rw [unit, unit, abs_of_pos positive, abs_of_pos positive', same]
    rw [round, round, sameUnit]
    refine mul_le_mul_of_nonneg_right ?_ (unit_pos bits y).le
    exact_mod_cast nearestEven_mono (div_le_div_of_nonneg_right le (unit_pos bits y).le)

/-- The larger of two numbers is not rounded to a smaller one. -/
theorem round_mono (some : 0 < bits) (le : x ≤ y) : round bits x ≤ round bits y := by
  rcases lt_trichotomy 0 x with positive | rfl | negative
  · exact round_mono_of_pos some positive le
  · rcases le.lt_or_eq with positive | rfl
    · rw [round_zero]
      exact (round_pos some positive).le
    · exact le_rfl
  · rcases lt_or_ge y 0 with negative' | nonneg
    · have opposite := round_mono_of_pos some (neg_pos.mpr negative') (neg_le_neg le)
      rw [round_neg, round_neg] at opposite
      exact neg_le_neg_iff.mp opposite
    · have below : round bits x ≤ 0 := by
        have opposite := (round_pos some (neg_pos.mpr negative)).le
        rw [round_neg] at opposite
        exact neg_nonneg.mp opposite
      refine below.trans ?_
      rcases nonneg.lt_or_eq with positive | rfl
      · exact (round_pos some positive).le
      · exact (round_zero bits).ge

theorem round_nonneg (some : 0 < bits) (nonneg : 0 ≤ x) : 0 ≤ round bits x := by
  rw [← round_zero bits]
  exact round_mono some nonneg

/-! ### Numbers that fit -/

theorem fits_neg (fits : Fits bits x) : Fits bits (-x) := by
  obtain ⟨m, e, bound, rfl⟩ := fits
  exact ⟨-m, e, by rwa [abs_neg], by push_cast; ring⟩

theorem fits_intCast {n : ℤ} (bound : |n| < 2 ^ bits) : Fits bits n :=
  ⟨n, 0, bound, by rw [zpow_zero, mul_one]⟩

theorem fits_natCast {n : Nat} (bound : n < 2 ^ bits) : Fits bits n := by
  have abs : |(n : ℤ)| < 2 ^ bits := by
    rw [Nat.abs_cast]
    exact_mod_cast bound
  exact_mod_cast fits_intCast abs

/-- A number that fits is kept. -/
theorem round_of_fits (fits : Fits bits x) : round bits x = x := by
  by_cases zero : x = 0
  · rw [zero, round_zero]
  obtain ⟨m, e, bound, value⟩ := fits
  have positive : 0 < |x| := abs_pos.mpr zero
  have log : Int.log 2 |x| < bits + e := by
    refine (zpow_lt_zpow_iff_right₀ (one_lt_two (α := ℚ))).mp ?_
    calc (2 : ℚ) ^ Int.log 2 |x| ≤ |x| := (log_bounds positive).1
      _ = |(m : ℚ)| * 2 ^ e := by
          rw [value, abs_mul, abs_of_pos (zpow_pos (two_pos (α := ℚ)) e)]
      _ < (2 : ℚ) ^ (bits : ℤ) * 2 ^ e := by
          refine mul_lt_mul_of_pos_right ?_ (zpow_pos two_pos e)
          rw [zpow_natCast]
          exact_mod_cast bound
      _ = 2 ^ ((bits : ℤ) + e) := (zpow_add₀ two_ne_zero _ _).symm
  -- the last bit of `x` is not below the one that is kept
  obtain ⟨shift, same⟩ := Int.eq_ofNat_of_zero_le
    (show 0 ≤ e - (Int.log 2 |x| + 1 - bits) by omega)
  refine round_of_units (n := m * 2 ^ shift) ?_
  rw [div_eq_iff (unit_pos bits x).ne', unit]
  push_cast
  rw [mul_assoc, ← zpow_natCast, ← zpow_add₀ two_ne_zero, ← same, sub_add_cancel]
  exact value

/-- What rounding returns fits. -/
theorem fits_round (some : 0 < bits) (x : ℚ) : Fits bits (round bits x) := by
  have ofPos (x : ℚ) (positive : 0 < x) : Fits bits (round bits x) := by
    have most := (round_bounds some positive).2
    have nonneg := (round_pos some positive).le
    by_cases carry : round bits x = 2 ^ (Int.log 2 x + 1)
    · refine ⟨1, Int.log 2 x + 1, ?_, by rw [carry, Int.cast_one, one_mul]⟩
      exact_mod_cast Nat.one_lt_two_pow some.ne'
    · refine ⟨nearestEven (x / unit bits x), _, ?_, rfl⟩
      have below : (nearestEven (x / unit bits x) : ℚ) * unit bits x <
          2 ^ (bits : ℤ) * unit bits x := by
        calc _ < (2 : ℚ) ^ (Int.log 2 x + 1) := lt_of_le_of_ne most carry
          _ = 2 ^ (bits : ℤ) * unit bits x := by
            rw [unit, abs_of_pos positive, ← zpow_add₀ two_ne_zero]
            congr 1
            ring
      have nonneg' : 0 ≤ nearestEven (x / unit bits x) := by
        have := (mul_nonneg_iff_of_pos_right (unit_pos bits x)).mp nonneg
        exact_mod_cast this
      rw [abs_of_nonneg nonneg']
      have strict := (mul_lt_mul_iff_left₀ (unit_pos bits x)).mp below
      rw [zpow_natCast] at strict
      exact_mod_cast strict
  rcases lt_trichotomy 0 x with positive | rfl | negative
  · exact ofPos x positive
  · exact ⟨0, 0, by positivity, by rw [round_zero, Int.cast_zero, zero_mul]⟩
  · have opposite := fits_neg (ofPos (-x) (neg_pos.mpr negative))
    rwa [round_neg, neg_neg] at opposite

@[simp] theorem round_round (some : 0 < bits) (x : ℚ) :
    round bits (round bits x) = round bits x :=
  round_of_fits (fits_round some x)

/-- A number that fits is a bound of a number if it is one of the rounded number. -/
theorem le_round (some : 0 < bits) (fits : Fits bits x) (le : x ≤ y) : x ≤ round bits y := by
  rw [← round_of_fits fits]
  exact round_mono some le

theorem round_le (some : 0 < bits) (fits : Fits bits y) (le : x ≤ y) : round bits x ≤ y := by
  rw [← round_of_fits fits]
  exact round_mono some le

/-- Below a power of two there is a gap as wide as the last bit. -/
theorem Fits.le_of_lt_zpow {k : ℤ} (fits : Fits bits x) (below : x < 2 ^ k) :
    x ≤ 2 ^ k - 2 ^ (k - bits) := by
  obtain ⟨m, e, bound, rfl⟩ := fits
  have positive : (0 : ℚ) < 2 ^ e := zpow_pos two_pos e
  rcases le_or_gt (k - bits) e with coarse | fine
  · -- both are multiples of the last bit of `x`
    rcases le_or_gt k e with high | low
    · have negative : m < 1 := by
        by_contra atLeast
        have one : (1 : ℚ) ≤ m := by exact_mod_cast not_lt.mp atLeast
        have power : (2 : ℚ) ^ k ≤ 2 ^ e := zpow_le_zpow_right₀ one_le_two high
        nlinarith
      have nonpos : (m : ℚ) * 2 ^ e ≤ 0 :=
        mul_nonpos_of_nonpos_of_nonneg (by exact_mod_cast Int.lt_add_one_iff.mp negative)
          positive.le
      have power : (2 : ℚ) ^ (k - bits) ≤ 2 ^ k := zpow_le_zpow_right₀ one_le_two (by omega)
      linarith
    · obtain ⟨shift, same⟩ := Int.eq_ofNat_of_zero_le (show 0 ≤ k - e by omega)
      have split : (2 : ℚ) ^ k = 2 ^ shift * 2 ^ e := by
        rw [← zpow_natCast, ← zpow_add₀ two_ne_zero, ← same, sub_add_cancel]
      have less : m < 2 ^ shift := by
        have := lt_of_mul_lt_mul_right (split ▸ below) positive.le
        exact_mod_cast this
      have units : (m : ℚ) + 1 ≤ 2 ^ shift := by exact_mod_cast less
      have power : (2 : ℚ) ^ (k - bits) ≤ 2 ^ e := zpow_le_zpow_right₀ one_le_two coarse
      rw [split]
      nlinarith
  · have most : (m : ℚ) ≤ 2 ^ bits - 1 := by
      have := (le_abs_self m).trans_lt bound
      have strict : m + 1 ≤ 2 ^ bits := this
      have cast : (m : ℚ) + 1 ≤ 2 ^ bits := by exact_mod_cast strict
      linarith
    have power : (2 : ℚ) ^ e ≤ 2 ^ (k - bits) := zpow_le_zpow_right₀ one_le_two fine.le
    have whole : (2 : ℚ) ^ k = 2 ^ bits * 2 ^ (k - bits) := by
      rw [← zpow_natCast, ← zpow_add₀ two_ne_zero, add_sub_cancel]
    have nonneg : (0 : ℚ) ≤ 2 ^ bits - 1 := by
      rw [sub_nonneg]
      exact one_le_pow₀ one_le_two
    calc (m : ℚ) * 2 ^ e ≤ (2 ^ bits - 1) * 2 ^ e := mul_le_mul_of_nonneg_right most positive.le
      _ ≤ (2 ^ bits - 1) * 2 ^ (k - bits) := mul_le_mul_of_nonneg_left power nonneg
      _ = 2 ^ k - 2 ^ (k - bits) := by rw [whole]; ring

end Binary
