/-
This file models the rate arithmetic of `attr.c`: how a reading of a counter is added to the
accumulated total, and when and how a new rate is computed from it.

`calc_counter_rate` does both at once. Its model returns the new rate record together with
the sample `delta / diff` in case it computed one, that is, the value of `r_rate` just before
the 3:1 smoothing. The arithmetic on `uint64_t` is that of `UInt64`.
-/

import Bmon.AttrData
import Bmon.Conf

namespace Bmon

/-! ### The source functions -/

/-- `rate_get_total`. -/
def rateGetTotal (rate : Rate) : UInt64 := rate.rTotal - rate.rReset

/-- The first half of `calc_counter_rate`: the increment since the last reading, with the
correction for a counter that went backwards. -/
def counterDelta (flags : AttrFlags) (rate : Rate) : UInt64 :=
  if rate.rCurrent < rate.rPrev then
    if flags.ignoreOverflows then
      rate.rCurrent
    else
      (if flags.true64bit then 0xFFFFFFFFFFFFFFFF - rate.rPrev else 0xFFFFFFFF - rate.rPrev) +
        (rate.rCurrent + 1)
  else
    rate.rCurrent - rate.rPrev

/-- The increment of the total over the current call, as `calc_counter_rate` recomputes it. -/
def totalDelta (prevTotal total : UInt64) : UInt64 :=
  if total < prevTotal then
    (0xFFFFFFFFFFFFFFFF - prevTotal) + (total + 1)
  else
    total - prevTotal

/-- The smoothing at the end of `calc_counter_rate`. -/
def smoothRate (oldRate sample : ℚ) : ℚ :=
  if oldRate ≠ 0 then (sample * 3 + oldRate) / 4 else sample

/-- The call comes less than the rate interval, minus its variance, after the last calculation. -/
def rateTooEarly (cfg : Config) (rate : Rate) (ts : Timestamp) : Prop :=
  timestampDiff rate.rLastCalc ts < cfg.cfgRateInterval - cfg.cfgRateVariance

instance (cfg : Config) (rate : Rate) (ts : Timestamp) : Decidable (rateTooEarly cfg rate ts) :=
  inferInstanceAs (Decidable (_ < _))

/-- `calc_counter_rate`, with the sample it computed, if any. -/
def calcCounterSample (cfg : Config) (flags : AttrFlags) (rate : Rate) (ts : Timestamp) :
    Rate × Option ℚ :=
  let prevTotal := rate.rTotal
  let total := prevTotal + counterDelta flags rate
  let advanced := { rate with rTotal := total, rPrev := rate.rCurrent }
  if prevTotal = 0 then
    -- no previous record: only reset the time
    ({ advanced with rLastCalc := ts }, none)
  else if rateTooEarly cfg rate ts then
    (advanced, none)
  else
    let sample : ℚ := (totalDelta prevTotal total).toNat / timestampDiff rate.rLastCalc ts
    ({ advanced with rRate := smoothRate rate.rRate sample, rLastCalc := ts }, some sample)

/-- `calc_counter_rate`. -/
def calcCounterRate (cfg : Config) (flags : AttrFlags) (rate : Rate) (ts : Timestamp) : Rate :=
  (calcCounterSample cfg flags rate ts).1

/-- `calc_rate_total`: a rate or a percentage is its own total. -/
def calcRateTotal (rate : Rate) (ts : Timestamp) : Rate :=
  { rate with
    rPrev := rate.rCurrent
    rRate := (rate.rCurrent.toNat : ℚ)
    rTotal := rate.rCurrent
    rLastCalc := ts }

/-! ### What one call does to each field -/

section Fields

variable (cfg : Config) (flags : AttrFlags) (rate : Rate) (ts : Timestamp)

/-- Every path through `calc_counter_rate` accumulates the increment first. -/
@[simp] theorem calcCounterRate_rTotal :
    (calcCounterRate cfg flags rate ts).rTotal = rate.rTotal + counterDelta flags rate := by
  simp only [calcCounterRate, calcCounterSample]
  split_ifs <;> rfl

@[simp] theorem calcCounterRate_rPrev :
    (calcCounterRate cfg flags rate ts).rPrev = rate.rCurrent := by
  simp only [calcCounterRate, calcCounterSample]
  split_ifs <;> rfl

@[simp] theorem calcCounterRate_rCurrent :
    (calcCounterRate cfg flags rate ts).rCurrent = rate.rCurrent := by
  simp only [calcCounterRate, calcCounterSample]
  split_ifs <;> rfl

@[simp] theorem calcCounterRate_rReset :
    (calcCounterRate cfg flags rate ts).rReset = rate.rReset := by
  simp only [calcCounterRate, calcCounterSample]
  split_ifs <;> rfl

/-- The time of the last calculation moves exactly when the call is not too early. -/
theorem calcCounterRate_rLastCalc :
    (calcCounterRate cfg flags rate ts).rLastCalc =
      if rate.rTotal ≠ 0 ∧ rateTooEarly cfg rate ts then rate.rLastCalc else ts := by
  simp only [calcCounterRate, calcCounterSample]
  split_ifs <;> simp_all

/-- A sample is computed exactly when there is a previous record and the call is not too
early. -/
theorem calcCounterSample_eq_some {sample : ℚ} :
    (calcCounterSample cfg flags rate ts).2 = some sample ↔
      (rate.rTotal ≠ 0 ∧ ¬ rateTooEarly cfg rate ts) ∧
        sample = (totalDelta rate.rTotal (rate.rTotal + counterDelta flags rate)).toNat /
          timestampDiff rate.rLastCalc ts := by
  simp only [calcCounterSample]
  split_ifs with empty early
  · simp [empty]
  · simp [early]
  · simp only [Option.some.injEq, ne_eq, empty, early, not_false_eq_true, and_self, true_and]
    exact eq_comm

end Fields

/-! ### The increments -/

/-- The correction in `totalDelta` is the wrap-around subtraction itself. -/
theorem totalDelta_eq_sub (prevTotal total : UInt64) :
    totalDelta prevTotal total = total - prevTotal := by
  unfold totalDelta
  split
  · apply UInt64.toNat_inj.mp
    have prevBound := prevTotal.toNat_lt
    have totalBound := total.toNat_lt
    simp only [UInt64.toNat_add, UInt64.toNat_sub]
    simp only [UInt64.reduceToNat]
    omega
  · rfl

/-- Between two readings of a 32-bit counter whose true counts differ by less than `2 ^ 32`,
the increment is the difference of the true counts, wrap or no wrap. -/
theorem counterDelta_toNat (flags : AttrFlags) (rate : Rate) (previous current : Nat)
    (noIgnore : flags.ignoreOverflows = false) (no64bit : flags.true64bit = false)
    (prevReading : rate.rPrev.toNat = previous % 2 ^ 32)
    (currentReading : rate.rCurrent.toNat = current % 2 ^ 32)
    (monotone : previous ≤ current) (small : current < previous + 2 ^ 32) :
    (counterDelta flags rate).toNat = current - previous := by
  unfold counterDelta
  simp only [noIgnore, no64bit, Bool.false_eq_true, if_false]
  split
  · rename_i wrapped
    have wrappedNat := UInt64.lt_iff_toNat_lt.mp wrapped
    simp only [UInt64.toNat_add, UInt64.toNat_sub]
    simp only [UInt64.reduceToNat]
    omega
  · rename_i notWrapped
    have ordered := UInt64.not_lt.mp notWrapped
    rw [UInt64.toNat_sub_of_le _ _ ordered]
    have orderedNat := UInt64.le_iff_toNat_le.mp ordered
    omega

/-- A counter that did not go backwards is added as it stands. -/
theorem counterDelta_of_le (flags : AttrFlags) (rate : Rate) (rising : rate.rPrev ≤ rate.rCurrent) :
    counterDelta flags rate = rate.rCurrent - rate.rPrev := by
  unfold counterDelta
  rw [if_neg (UInt64.not_lt.mpr rising)]

end Bmon
