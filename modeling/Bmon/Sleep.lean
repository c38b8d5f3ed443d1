/-
This file asks how long an iteration of the main loop sleeps.

At start-up `main` cuts the configured `sleep_time` down to the read interval. Every iteration
then compares it with the time that is left until the next read, a pair of seconds and
microseconds, but it does so only when no whole second is left. So a sleep of up to a second
always ends in time, and a longer one is not cut short while a second or more is left.
-/

import Bmon.Schedule

namespace Bmon

/-- What `main` makes of the configured `sleep_time` at start-up: no more than the read
interval, in microseconds. -/
def startSleepTime (configured : UInt64) (readInterval : ℚ) : UInt64 :=
  if (configured.toNat : ℚ) / 1000000 > readInterval then UInt64.ofNat ⌊readInterval * 1000000⌋₊
  else configured

theorem startSleepTime_le (configured : UInt64) {readInterval : ℚ} (nonneg : 0 ≤ readInterval) :
    ((startSleepTime configured readInterval).toNat : ℚ) ≤ readInterval * 1000000 := by
  unfold startSleepTime
  have scaled : 0 ≤ readInterval * 1000000 := by linarith
  split
  · calc ((UInt64.ofNat ⌊readInterval * 1000000⌋₊).toNat : ℚ)
        ≤ (⌊readInterval * 1000000⌋₊ : ℚ) := by
          rw [UInt64.toNat_ofNat']
          exact_mod_cast Nat.mod_le _ _
      _ ≤ readInterval * 1000000 := Nat.floor_le scaled
  · rename_i short
    rw [gt_iff_lt, not_lt, div_le_iff₀ (by norm_num)] at short
    exact short

namespace MainLoop

variable {loop : MainLoop} {e : Timestamp}

/-- The microseconds left until the next read. -/
def remaining (loop : MainLoop) (e : Timestamp) : Int :=
  timestampToInt loop.rtNextRead - timestampToInt e

/-- The seconds of the time left are those of its microseconds. -/
theorem remaining_eq (planned : loop.rtNextRead.Normalised) (reading : e.Normalised) :
    (timestampSub loop.rtNextRead e).tvSec = loop.remaining e / 1000000 ∧
      (timestampSub loop.rtNextRead e).tvUsec = loop.remaining e % 1000000 := by
  have value := timestampToInt_sub loop.rtNextRead e
  have normalised := timestampSub_normalised planned reading
  unfold Timestamp.Normalised at normalised
  unfold timestampToInt at value
  unfold remaining timestampToInt
  omega

/-- After the next read is due the loop goes on without sleeping. -/
theorem sleep_of_neg (planned : loop.rtNextRead.Normalised) (reading : e.Normalised)
    (late : loop.remaining e < 0) (sleepTime : UInt64) : loop.sleep sleepTime e = none := by
  obtain ⟨seconds, -⟩ := remaining_eq planned reading
  unfold sleep
  rw [if_pos (by omega)]

/-- Within the last second the sleep is cut short at the next read. -/
theorem sleep_of_lt (planned : loop.rtNextRead.Normalised) (reading : e.Normalised)
    (inTime : 0 ≤ loop.remaining e) (soon : loop.remaining e < 1000000) (sleepTime : UInt64) :
    loop.sleep sleepTime e = some (min (sleepTime.toNat : Int) (loop.remaining e)) := by
  obtain ⟨seconds, microseconds⟩ := remaining_eq planned reading
  have zero : (timestampSub loop.rtNextRead e).tvSec = 0 := by omega
  have all : (timestampSub loop.rtNextRead e).tvUsec = loop.remaining e := by omega
  unfold sleep
  simp only [zero, all]
  rw [if_neg (lt_irrefl 0)]
  by_cases longer : loop.remaining e < sleepTime.toNat
  · rw [if_pos ⟨trivial, by omega⟩, if_neg (by omega), min_eq_right longer.le]
  · rw [if_neg (by omega), min_eq_left (not_lt.mp longer)]

/-- Before that it is not. -/
theorem sleep_of_ge (planned : loop.rtNextRead.Normalised) (reading : e.Normalised)
    (far : 1000000 ≤ loop.remaining e) (sleepTime : UInt64) :
    loop.sleep sleepTime e = some (sleepTime.toNat : Int) := by
  obtain ⟨seconds, -⟩ := remaining_eq planned reading
  unfold sleep
  rw [if_neg (by omega), if_neg (by omega)]

/-- An iteration sleeps for the sleep time or until the next read, whichever is shorter,
exactly if less than a second is left or the sleep time is no longer than the time left. So it
does for every sleep time up to a second, and for every read interval up to a second. When the
next read is due already, it does not sleep. -/
theorem sleep_eq_min_iff (planned : loop.rtNextRead.Normalised) (reading : e.Normalised)
    (configured : UInt64) (readInterval : ℚ) :
    (0 ≤ loop.remaining e →
      (loop.sleep (startSleepTime configured readInterval) e =
          some (min ((startSleepTime configured readInterval).toNat : Int) (loop.remaining e)) ↔
        loop.remaining e < 1000000 ∨
          ((startSleepTime configured readInterval).toNat : Int) ≤ loop.remaining e) ∧
      ((startSleepTime configured readInterval).toNat ≤ 1000000 ∨
          0 ≤ readInterval ∧ readInterval ≤ 1 →
        loop.sleep (startSleepTime configured readInterval) e =
          some (min ((startSleepTime configured readInterval).toNat : Int)
            (loop.remaining e)))) ∧
    (loop.remaining e < 0 → loop.sleep (startSleepTime configured readInterval) e = none) := by
  have short : (startSleepTime configured readInterval).toNat ≤ 1000000 ∨
      0 ≤ readInterval ∧ readInterval ≤ 1 →
      (startSleepTime configured readInterval).toNat ≤ 1000000 := by
    rintro (given | ⟨nonneg, atMost⟩)
    · exact given
    · have bound := startSleepTime_le configured nonneg
      have second : ((startSleepTime configured readInterval).toNat : ℚ) ≤ 1000000 := by linarith
      exact_mod_cast second
  generalize startSleepTime configured readInterval = sleepTime at *
  refine ⟨fun inTime => ?_, fun late => sleep_of_neg planned reading late sleepTime⟩
  have exact : loop.sleep sleepTime e =
      some (min (sleepTime.toNat : Int) (loop.remaining e)) ↔
      loop.remaining e < 1000000 ∨ (sleepTime.toNat : Int) ≤ loop.remaining e := by
    by_cases soon : loop.remaining e < 1000000
    · exact iff_of_true (sleep_of_lt planned reading inTime soon sleepTime) (Or.inl soon)
    · rw [sleep_of_ge planned reading (not_lt.mp soon), or_iff_right soon, Option.some_inj]
      constructor
      · intro same
        rw [same]
        exact min_le_right _ _
      · exact fun atMost => (min_eq_left atMost).symm
  refine ⟨exact, fun atMost => exact.mpr ?_⟩
  have second := short atMost
  omega

/-- With the default sleep time of 20 milliseconds and half a millisecond left the iteration
sleeps for that. -/
theorem sleep_eq_min_iff_default :
    (⟨⟨5, 0⟩, ⟨6, 0⟩, []⟩ : MainLoop).sleep (startSleepTime 20000 1) ⟨5, 999500⟩ = some 500 := by
  have sleeps := ((@sleep_eq_min_iff ⟨⟨5, 0⟩, ⟨6, 0⟩, []⟩ ⟨5, 999500⟩ (by decide) (by decide)
    20000 1).1 (by decide)).1.mpr (Or.inl (by decide))
  exact sleeps.trans (by decide +kernel)

/-- With a sleep time of five seconds and a read interval of ten, an iteration with a second and
a half left sleeps for five seconds. -/
theorem sleep_past_next_read :
    (⟨⟨0, 0⟩, ⟨20, 0⟩, []⟩ : MainLoop).remaining ⟨18, 500000⟩ = 1500000 ∧
      (⟨⟨0, 0⟩, ⟨20, 0⟩, []⟩ : MainLoop).sleep (startSleepTime 5000000 10) ⟨18, 500000⟩ =
        some 5000000 := by
  decide +kernel

end MainLoop

end Bmon
