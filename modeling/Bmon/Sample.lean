/-
This file measures the samples of `calc_counter_rate` against the true average: the increment
of the total since `r_last_calc` was set, over the time since then.

The function divides the increment of the current call alone by the time since `r_last_calc`.
A call that comes too early adds its increment to the total and keeps `r_last_calc`, so that
increment is in no sample. `totalAtCalc` follows a run and remembers the total at the moment
`r_last_calc` was set; a sample is the true average exactly when that is still the total the
call starts from.
-/

import Bmon.Attr

namespace Bmon

/-! ### The true average -/

/-- The increment from one total to another, over a time. -/
def trueAverage (before after : UInt64) (diff : ℚ) : ℚ := ((after.toNat : ℚ) - before.toNat) / diff

/-- The event makes `calc_counter_rate` set `r_last_calc`. -/
def setsLastCalc (cfg : Config) (rate : Rate) : AttrEvent → Prop
  | .notify ts => ¬ (rate.rTotal ≠ 0 ∧ rateTooEarly cfg rate ts)
  | _ => False

instance (cfg : Config) (rate : Rate) :
    (event : AttrEvent) → Decidable (setsLastCalc cfg rate event)
  | .notify _ => inferInstanceAs (Decidable (¬ _))
  | .update _ _ _ _ => inferInstanceAs (Decidable False)
  | .reset => inferInstanceAs (Decidable False)

/-- The total a direction had when `r_last_calc` was set, after one more event. -/
def totalAtCalcStep (cfg : Config) (direction : Direction) (total : UInt64) (a a' : Attr)
    (event : AttrEvent) : UInt64 :=
  if setsLastCalc cfg (a.rate direction) event then (a'.rate direction).rTotal else total

/-- The total a direction had when `r_last_calc` was set, after a run. -/
def totalAtCalc (cfg : Config) (fuel : Nat) (direction : Direction) :
    UInt64 → Attr → List AttrEvent → UInt64
  | total, _, [] => total
  | total, a, event :: events =>
    match attrStep cfg fuel a event with
    | none => total
    | some a' =>
      totalAtCalc cfg fuel direction (totalAtCalcStep cfg direction total a a' event) a' events

/-! ### Runs of rising readings -/

/-- The times of the notifications. -/
def notifyTimes (events : List AttrEvent) : List Timestamp :=
  events.filterMap fun
    | .notify ts => some ts
    | _ => none

/-- The readings of a direction never fall from one notification to the next, starting from
the given reading processed last and reading stored last. -/
def Rising (direction : Direction) : UInt64 → UInt64 → List AttrEvent → Prop
  | _, _, [] => True
  | prev, current, .update rx tx flags _ :: events =>
    Rising direction prev
      (if flags.touches direction then readingOf rx tx direction else current) events
  | prev, current, .notify _ :: events => prev ≤ current ∧ Rising direction current current events
  | prev, current, .reset :: events => Rising direction prev current events

/-- What holds of a direction whose readings only rose: the total is the reading processed
last, and once there is one, `r_last_calc` is the time of a notification. -/
structure Metered (rate : Rate) (times : List Timestamp) : Prop where
  reading : rate.rTotal = rate.rPrev
  calculated : rate.rTotal ≠ 0 → rate.rLastCalc ∈ times

theorem metered_start : Metered Rate.zero [] where
  reading := rfl
  calculated started := absurd rfl started

/-- A calculation on a rising reading brings the total to that reading. -/
theorem Metered.rTotal_calc {rate : Rate} {times : List Timestamp} (metered : Metered rate times)
    (cfg : Config) (flags : AttrFlags) (ts : Timestamp) (rising : rate.rPrev ≤ rate.rCurrent) :
    (calcCounterRate cfg flags rate ts).rTotal = rate.rCurrent := by
  rw [calcCounterRate_rTotal, counterDelta_of_le flags rate rising, metered.reading,
    UInt64.add_comm, UInt64.sub_add_cancel]

theorem Metered.calc {rate : Rate} {times : List Timestamp} (metered : Metered rate times)
    (cfg : Config) (flags : AttrFlags) (ts : Timestamp) (rising : rate.rPrev ≤ rate.rCurrent) :
    Metered (calcCounterRate cfg flags rate ts) (times ++ [ts]) where
  reading := by rw [metered.rTotal_calc cfg flags ts rising, calcCounterRate_rPrev]
  calculated _ := by
    rw [calcCounterRate_rLastCalc]
    split_ifs with early
    · exact List.mem_append_left _ (metered.calculated early.1)
    · exact List.mem_append_right _ (List.mem_singleton_self ts)

/-- One event of a run of rising readings. -/
theorem Metered.step {cfg : Config} {fuel : Nat} {a a' : Attr} {direction : Direction}
    {times : List Timestamp} {event : AttrEvent} {events : List AttrEvent}
    (counter : a.aDef.adType = .counter) (metered : Metered (a.rate direction) times)
    (rising : Rising direction (a.rate direction).rPrev (a.rate direction).rCurrent
      (event :: events))
    (returned : attrStep cfg fuel a event = some a') :
    Metered (a'.rate direction) (times ++ notifyTimes [event]) ∧
      Rising direction (a'.rate direction).rPrev (a'.rate direction).rCurrent events := by
  cases event with
  | update rx tx flags now =>
    obtain rfl := Option.some.inj returned
    rw [attrStore_rate, show notifyTimes [.update rx tx flags now] = [] from rfl, List.append_nil]
    unfold Rising at rising
    split_ifs at rising ⊢
    · exact ⟨⟨metered.reading, metered.calculated⟩, rising⟩
    · exact ⟨metered, rising⟩
  | notify ts =>
    obtain ⟨-, -, sameRate⟩ := attrNotifyUpdate_fields returned
    rw [sameRate, attrCalcRates_rate cfg a ts counter, calcCounterRate_rPrev,
      calcCounterRate_rCurrent]
    exact ⟨metered.calc cfg a.aFlags ts rising.1, rising.2⟩
  | reset =>
    obtain rfl := Option.some.inj returned
    rw [attrResetCounter_rate a counter, show notifyTimes [.reset] = [] from rfl,
      List.append_nil]
    exact ⟨⟨metered.reading, metered.calculated⟩, rising⟩

/-- A run of rising readings, followed by more events. -/
theorem Metered.run {cfg : Config} {fuel : Nat} {a a' : Attr} {direction : Direction}
    {times : List Timestamp} {events rest : List AttrEvent}
    (counter : a.aDef.adType = .counter) (metered : Metered (a.rate direction) times)
    (rising : Rising direction (a.rate direction).rPrev (a.rate direction).rCurrent
      (events ++ rest))
    (returned : attrRun cfg fuel a events = some a') :
    Metered (a'.rate direction) (times ++ notifyTimes events) ∧
      Rising direction (a'.rate direction).rPrev (a'.rate direction).rCurrent rest := by
  induction events generalizing a times with
  | nil =>
    obtain rfl := Option.some.inj returned
    rw [show notifyTimes [] = [] from rfl, List.append_nil]
    exact ⟨metered, rising⟩
  | cons event events inductionHypothesis =>
    obtain ⟨next, stepped, run⟩ := Option.bind_eq_some_iff.mp returned
    obtain ⟨meteredNext, risingNext⟩ := metered.step counter rising stepped
    have sameDef := (attrStep_fields stepped).1
    have split : notifyTimes (event :: events) = notifyTimes [event] ++ notifyTimes events := by
      unfold notifyTimes
      rw [← List.filterMap_append, List.singleton_append]
    rw [split, ← List.append_assoc]
    exact inductionHypothesis (by rw [sameDef, counter]) meteredNext risingNext run

/-! ### Which samples are averages -/

/-- The calls of a run: the readings of the direction only rise, and every notification comes
after the one before. -/
structure RisingRun (direction : Direction) (events : List AttrEvent) : Prop where
  rising : Rising direction 0 0 events
  increasing : (notifyTimes events).Pairwise Timestamp.Before

/-- If the notification that follows a run computes a sample, then the sample is the true
average since `r_last_calc`. -/
def SampleIsAverage (cfg : Config) (fuel : Nat) (direction : Direction) (a : Attr)
    (events : List AttrEvent) (ts : Timestamp) : Prop :=
  ∀ a' sample, attrRun cfg fuel a events = some a' →
    (calcCounterSample cfg a'.aFlags (a'.rate direction) ts).2 = some sample →
    sample = trueAverage (totalAtCalc cfg fuel direction 0 a events)
      (calcCounterRate cfg a'.aFlags (a'.rate direction) ts).rTotal
      (timestampDiff (a'.rate direction).rLastCalc ts)

/-- If the notification that follows a run computes a sample, then no call since `r_last_calc`
was set has moved the total. -/
def NothingHeldOver (cfg : Config) (fuel : Nat) (direction : Direction) (a : Attr)
    (events : List AttrEvent) (ts : Timestamp) : Prop :=
  ∀ a', attrRun cfg fuel a events = some a' → (a'.rate direction).rTotal ≠ 0 →
    ¬ rateTooEarly cfg (a'.rate direction) ts →
    (a'.rate direction).rTotal = totalAtCalc cfg fuel direction 0 a events

/-- A sample of a rising reading is the average since `r_last_calc` exactly when the total has
not moved since. -/
theorem sample_eq_trueAverage_iff {rate : Rate} {times : List Timestamp}
    (metered : Metered rate times) (cfg : Config) (flags : AttrFlags) (ts : Timestamp)
    (rising : rate.rPrev ≤ rate.rCurrent) (later : ∀ earlier ∈ times, earlier.Before ts)
    (started : rate.rTotal ≠ 0) (total : UInt64) :
    ((totalDelta rate.rTotal (rate.rTotal + counterDelta flags rate)).toNat : ℚ) /
        timestampDiff rate.rLastCalc ts =
      trueAverage total (calcCounterRate cfg flags rate ts).rTotal
        (timestampDiff rate.rLastCalc ts) ↔
      rate.rTotal = total := by
  have positive : 0 < timestampDiff rate.rLastCalc ts :=
    later _ (metered.calculated started)
  have reached := metered.rTotal_calc cfg flags ts rising
  have increment : ((totalDelta rate.rTotal (rate.rTotal + counterDelta flags rate)).toNat : ℚ) =
      (rate.rCurrent.toNat : ℚ) - rate.rTotal.toNat := by
    rw [← calcCounterRate_rTotal cfg flags rate ts, reached, totalDelta_eq_sub, metered.reading,
      UInt64.toNat_sub_of_le _ _ rising, Nat.cast_sub (UInt64.le_iff_toNat_le.mp rising)]
  rw [increment, trueAverage, reached, div_left_inj' positive.ne', sub_right_inj, Nat.cast_inj,
    UInt64.toNat_inj]

/-- Every notification that comes too early finds the reading that was processed before. -/
def QuietWhenEarly (cfg : Config) (fuel : Nat) (direction : Direction) :
    Attr → List AttrEvent → Prop
  | _, [] => True
  | a, event :: events =>
    (match event with
      | .notify ts => (a.rate direction).rTotal ≠ 0 → rateTooEarly cfg (a.rate direction) ts →
          (a.rate direction).rCurrent = (a.rate direction).rPrev
      | _ => True) ∧
    ∀ a', attrStep cfg fuel a event = some a' → QuietWhenEarly cfg fuel direction a' events

/-- As long as early calls are quiet, one event keeps the total at its value at `r_last_calc`. -/
theorem totalAtCalcStep_quiet {cfg : Config} {fuel : Nat} {a a' : Attr} {direction : Direction}
    {times : List Timestamp} {event : AttrEvent} {events : List AttrEvent}
    (counter : a.aDef.adType = .counter) (metered : Metered (a.rate direction) times)
    (rising : Rising direction (a.rate direction).rPrev (a.rate direction).rCurrent
      (event :: events))
    (quiet : QuietWhenEarly cfg fuel direction a (event :: events))
    (returned : attrStep cfg fuel a event = some a') :
    totalAtCalcStep cfg direction (a.rate direction).rTotal a a' event =
      (a'.rate direction).rTotal := by
  unfold totalAtCalcStep
  split_ifs with moved
  · rfl
  · cases event with
    | update rx tx flags now =>
      obtain rfl := Option.some.inj returned
      rw [attrStore_rate]
      split_ifs <;> rfl
    | notify ts =>
      obtain ⟨started, early⟩ := not_not.mp moved
      obtain ⟨-, -, sameRate⟩ := attrNotifyUpdate_fields returned
      rw [sameRate, attrCalcRates_rate cfg a ts counter,
        metered.rTotal_calc cfg a.aFlags ts rising.1, quiet.1 started early, metered.reading]
    | reset =>
      obtain rfl := Option.some.inj returned
      rw [attrResetCounter_rate a counter]

/-- In a run whose early calls are quiet the total never leaves its value at `r_last_calc`. -/
theorem totalAtCalc_quiet {cfg : Config} {fuel : Nat} {a a' : Attr} {direction : Direction}
    {times : List Timestamp} {events rest : List AttrEvent}
    (counter : a.aDef.adType = .counter) (metered : Metered (a.rate direction) times)
    (rising : Rising direction (a.rate direction).rPrev (a.rate direction).rCurrent
      (events ++ rest))
    (quiet : QuietWhenEarly cfg fuel direction a (events ++ rest))
    (returned : attrRun cfg fuel a events = some a') :
    totalAtCalc cfg fuel direction (a.rate direction).rTotal a events =
      (a'.rate direction).rTotal := by
  induction events generalizing a times with
  | nil =>
    obtain rfl := Option.some.inj returned
    rfl
  | cons event events inductionHypothesis =>
    obtain ⟨next, stepped, run⟩ := Option.bind_eq_some_iff.mp returned
    obtain ⟨meteredNext, risingNext⟩ := metered.step counter rising stepped
    have sameDef := (attrStep_fields stepped).1
    rw [totalAtCalc, stepped]
    simp only
    rw [totalAtCalcStep_quiet counter metered rising quiet stepped]
    exact inductionHypothesis (by rw [sameDef, counter]) meteredNext risingNext
      (quiet.2 next stepped) run

/-- When a sample is a true average. Take a new counter attribute, a run in which the readings
of a direction never fall and the times strictly increase, and any notification of that run.
If it computes a sample, the sample is the increment since `r_last_calc` over the time since
`r_last_calc` exactly when no call in between has moved the total. In particular every sample
is a true average in a run where each call that comes too early finds the old reading again. -/
theorem attrRun_sample_average (cfg : Config) (fuel : Nat) (a : Attr)
    (counter : a.aDef.adType = .counter) (fresh : ∀ direction, a.rate direction = Rate.zero)
    (direction : Direction) (events : List AttrEvent) (run : RisingRun direction events)
    (earlier later : List AttrEvent) (ts : Timestamp)
    (called : events = earlier ++ .notify ts :: later) :
    (SampleIsAverage cfg fuel direction a earlier ts ↔
        NothingHeldOver cfg fuel direction a earlier ts) ∧
      (QuietWhenEarly cfg fuel direction a events →
        SampleIsAverage cfg fuel direction a earlier ts) := by
  subst called
  have metered : Metered (a.rate direction) [] := by
    rw [fresh direction]
    exact metered_start
  have rising : Rising direction (a.rate direction).rPrev (a.rate direction).rCurrent
      (earlier ++ .notify ts :: later) := by
    rw [fresh direction]
    exact run.rising
  have times : notifyTimes (earlier ++ .notify ts :: later) =
      notifyTimes earlier ++ ts :: notifyTimes later := List.filterMap_append
  have before : ∀ time ∈ notifyTimes earlier, time.Before ts := fun time member =>
    (List.pairwise_append.mp (times ▸ run.increasing)).2.2 time member ts List.mem_cons_self
  have pointwise : SampleIsAverage cfg fuel direction a earlier ts ↔
      NothingHeldOver cfg fuel direction a earlier ts := by
    constructor
    · intro average a' returned started onTime
      obtain ⟨meteredNow, risingNow⟩ := metered.run counter rising returned
      rw [List.nil_append] at meteredNow
      have sampled := (calcCounterSample_eq_some cfg a'.aFlags (a'.rate direction) ts).mpr
        ⟨⟨started, onTime⟩, rfl⟩
      exact (sample_eq_trueAverage_iff meteredNow cfg a'.aFlags ts risingNow.1 before started
        _).mp (average a' _ returned sampled)
    · intro nothing a' sample returned sampled
      obtain ⟨meteredNow, risingNow⟩ := metered.run counter rising returned
      rw [List.nil_append] at meteredNow
      obtain ⟨⟨started, onTime⟩, rfl⟩ :=
        (calcCounterSample_eq_some cfg a'.aFlags (a'.rate direction) ts).mp sampled
      exact (sample_eq_trueAverage_iff meteredNow cfg a'.aFlags ts risingNow.1 before started
        _).mpr (nothing a' returned started onTime)
  refine ⟨pointwise, fun quiet => pointwise.mpr fun a' returned _ _ => ?_⟩
  have unmoved := totalAtCalc_quiet counter metered rising quiet returned
  rw [fresh direction] at unmoved
  exact unmoved.symm

/-- Three reads of a counter, the second half a second after the first. -/
def threeReads (first second third : UInt64) : List AttrEvent :=
  [.update first 0 { rx := true } ⟨1, 0⟩, .notify ⟨1, 0⟩,
    .update second 0 { rx := true } ⟨1, 500000⟩, .notify ⟨1, 500000⟩,
    .update third 0 { rx := true } ⟨2, 0⟩]

/-- With a read interval of half a second and a rate interval of one second, the second of
three reads comes too early. When it repeats the first reading, the sample of the third is the
true average. -/
theorem attrRun_sample_average_quiet :
    SampleIsAverage (confInitPost { readInterval := 1 / 2 }) 1 .rx (attrAlloc bytesDef)
      (threeReads 100 100 300) ⟨2, 0⟩ := by
  have rising : RisingRun .rx (threeReads 100 100 300 ++ [.notify ⟨2, 0⟩]) :=
    ⟨⟨by decide, by decide, by decide, trivial⟩, by decide +kernel⟩
  refine (attrRun_sample_average _ 1 (attrAlloc bytesDef) rfl
    (fun direction => by cases direction <;> rfl) .rx _ rising _ [] _ rfl).1.mpr ?_
  have unmoved : (attrRun (confInitPost { readInterval := 1 / 2 }) 1 (attrAlloc bytesDef)
      (threeReads 100 100 300)).map (fun a' => (a'.rate .rx).rTotal) =
        some (totalAtCalc (confInitPost { readInterval := 1 / 2 }) 1 .rx 0 (attrAlloc bytesDef)
          (threeReads 100 100 300)) := by
    decide +kernel
  intro a' returned _ _
  rw [returned] at unmoved
  exact Option.some.inj unmoved

/-- When it brings half of the increment, that half is in no sample: the sample of the third
read is 100 where the average is 200. -/
theorem sample_loses_early_increment :
    RisingRun .rx (threeReads 100 200 300 ++ [.notify ⟨2, 0⟩]) ∧
      ¬ SampleIsAverage (confInitPost { readInterval := 1 / 2 }) 1 .rx (attrAlloc bytesDef)
        (threeReads 100 200 300) ⟨2, 0⟩ := by
  refine ⟨⟨⟨by decide, by decide, by decide, trivial⟩, by decide +kernel⟩, fun average => ?_⟩
  have values : (attrRun (confInitPost { readInterval := 1 / 2 }) 1 (attrAlloc bytesDef)
      (threeReads 100 200 300)).map (fun a' =>
        ((calcCounterSample (confInitPost { readInterval := 1 / 2 }) a'.aFlags (a'.rate .rx)
            ⟨2, 0⟩).2,
          trueAverage (totalAtCalc (confInitPost { readInterval := 1 / 2 }) 1 .rx 0
              (attrAlloc bytesDef) (threeReads 100 200 300))
            (calcCounterRate (confInitPost { readInterval := 1 / 2 }) a'.aFlags (a'.rate .rx)
              ⟨2, 0⟩).rTotal
            (timestampDiff (a'.rate .rx).rLastCalc ⟨2, 0⟩))) = some (some 100, 200) := by
    decide +kernel
  obtain ⟨a', returned, same⟩ := Option.map_eq_some_iff.mp values
  obtain ⟨sampled, averaged⟩ := Prod.mk.inj same
  have equal := average a' 100 returned sampled
  rw [averaged] at equal
  norm_num at equal

end Bmon
