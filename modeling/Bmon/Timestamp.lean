/-
This file models the timestamps of `include/bmon/bmon.h` and the helpers of `utils.c` that
work on them. A timestamp is a pair of seconds and microseconds. The clock is
`CLOCK_MONOTONIC`, so the two 64-bit fields stay far away from their bounds and are taken
as integers.

`timestamp_diff` computes a `float`. The development reads the `float` and `double` values of the
program as exact rationals, so the difference of two timestamps is exact here. Where a result
depends on the rounding, `HistoryFloat` and `UnitDivisor` round as the program does.
-/

import Mathlib.Data.Rat.Floor
import Mathlib.Algebra.Order.Field.Rat
import Mathlib.Tactic.FieldSimp
import Mathlib.Tactic.Ring
import Mathlib.Tactic.Linarith

namespace Bmon

/-- `timestamp_t`: seconds and microseconds. -/
structure Timestamp where
  tvSec : Int
  tvUsec : Int
  deriving DecidableEq, Repr

namespace Timestamp

/-- The zero-filled timestamp of a freshly allocated record. -/
def zero : Timestamp := ⟨0, 0⟩

/-- The microseconds field is in range. -/
def Normalised (ts : Timestamp) : Prop := 0 ≤ ts.tvUsec ∧ ts.tvUsec < 1000000

instance (ts : Timestamp) : Decidable ts.Normalised :=
  inferInstanceAs (Decidable (_ ∧ _))

end Timestamp

/-- `timestamp_diff`: the seconds from `t1` to `t2`. -/
def timestampDiff (t1 t2 : Timestamp) : ℚ :=
  (t2.tvSec - t1.tvSec : ℚ) + (t2.tvUsec - t1.tvUsec : ℚ) / 1000000

/-- `later` comes strictly after `earlier`. -/
def Timestamp.Before (earlier later : Timestamp) : Prop := 0 < timestampDiff earlier later

instance (earlier later : Timestamp) : Decidable (earlier.Before later) :=
  inferInstanceAs (Decidable (0 < timestampDiff earlier later))

theorem timestampDiff_self (ts : Timestamp) : timestampDiff ts ts = 0 := by
  simp [timestampDiff]

/-- Differences of timestamps add up. -/
theorem timestampDiff_add (first second third : Timestamp) :
    timestampDiff first second + timestampDiff second third = timestampDiff first third := by
  unfold timestampDiff
  ring

theorem Timestamp.Before.trans {first second third : Timestamp}
    (left : first.Before second) (right : second.Before third) : first.Before third := by
  unfold Timestamp.Before at *
  rw [← timestampDiff_add first second third]
  exact add_pos left right

theorem Timestamp.Before.ne {earlier later : Timestamp} (before : earlier.Before later) :
    earlier ≠ later := by
  rintro rfl
  unfold Timestamp.Before at before
  rw [timestampDiff_self] at before
  exact lt_irrefl 0 before

end Bmon
