/-
This file shows what the histories of rates and percentages record. Such an attribute is no
counter: its total is the reading itself, and a history of it is meant to hold the readings.
`history_update` knows of the difference and lets only counters wait for a first increment, but
`history_store_data` then treats all of them as counters. What it stores is the increment since
the last update per second, modulo `2 ^ 64` where the reading falls.

A history therefore holds the readings only where each of them happens to be that quotient. Of
readings of less than 24 bits, taken at whole seconds, only the last one may be any other than
zero. How long a history of a gauge waits decides whether there is a sample at all. It takes one
at every read if its interval is the read interval. If its interval is a longer one, its first
read comes too early, and so does every other, for nothing starts its clock.

The division is one of `float`s, and it is followed here with its rounding.
-/

import Bmon.HistoryFloat
import Bmon.Lib.Runs

namespace Bmon

/-! ### The samples of one update -/

/-- A type whose attributes are their own totals. -/
def AttrType.IsGauge (type : AttrType) : Prop := type = .rate ∨ type = .percent

instance (type : AttrType) : Decidable type.IsGauge := inferInstanceAs (Decidable (_ ∨ _))

/-- The total of a direction once `attr_notify_update` has calculated the rates. -/
theorem attrCalcRates_totals (cfg : Config) {a : Attr} (gauge : a.aDef.adType.IsGauge)
    (ts : Timestamp) (direction : Direction) :
    (attrCalcRates cfg a ts).totals direction = (a.rate direction).rCurrent := by
  unfold attrCalcRates
  rcases gauge with isRate | isPercent
  · rw [isRate]
    cases direction <;> rfl
  · rw [isPercent]
    cases direction <;> rfl

/-- What `attr_notify_update` does to one history: it calculates the rates of the attribute and
calls `history_update`. -/
def notifyHistory (cfg : Config) (fuel : Nat) (h : History) (call : Attr × Timestamp) :
    Option History :=
  (historyUpdateIn toFloat cfg fuel (attrCalcRates cfg call.1 call.2) h call.2).map Prod.fst

/-- The quotient that `delta /= diff` converts to 64 bits. -/
def floatQuotient (delta : UInt64) (diff : ℚ) : ℚ := toFloat (toFloat delta.toNat / diff)

/-- `delta /= diff` is defined: there is nothing to divide, or the quotient is one of a positive
time and fits the 64 bits it is converted to. What is stored of another one is up to the
machine. -/
def SampleDefined (delta : UInt64) (diff : ℚ) : Prop :=
  0 < delta → 0 < diff ∧ floatQuotient delta diff < 2 ^ 64

/-- Every known sample that `history_update` writes at a call is the total of its direction, and
the result of a defined division. A slot of 64 bits holds what was written. -/
def RecordsTotals (cfg : Config) (fuel : Nat) (h : History) (call : Attr × Timestamp) : Prop :=
  let a := attrCalcRates cfg call.1 call.2
  (∀ h' steps, historyUpdateIn toFloat cfg fuel a h call.2 = some (h', steps) → ∀ step ∈ steps,
    ∀ direction sample, step.entry direction = some sample → sample ≠ historyUnknown →
      sample = a.totals direction) ∧
    (historyExitIn toFloat cfg a h call.2 = .update → ∀ direction,
      SampleDefined (a.totals direction - (h.store direction).hsPrevTotal)
        (historyTimediffIn toFloat h call.2))

/-! ### When the quotient is the reading -/

/-- The increment from one reading to the next, modulo `2 ^ 64`. -/
def increment (previous reading : Nat) : Nat :=
  if previous ≤ reading then reading - previous else reading + 2 ^ 64 - previous

/-- A reading that comes so many seconds after another: it repeats the value zero, or it differs,
and its increment per second has it as its whole part. -/
def ReadingKept (previous reading : UInt64) (diff : ℚ) : Prop :=
  if reading = previous then reading = 0
  else
    0 < diff ∧
      reading.toNat ≤ toFloat (toFloat (increment previous.toNat reading.toNat) / diff) ∧
        toFloat (toFloat (increment previous.toNat reading.toNat) / diff) < reading.toNat + 1

instance (previous reading : UInt64) (diff : ℚ) :
    Decidable (ReadingKept previous reading diff) := by
  unfold ReadingKept
  infer_instance

theorem toNat_sub_eq_increment (previous reading : UInt64) :
    (reading - previous).toNat = increment previous.toNat reading.toNat := by
  unfold increment
  split_ifs with rises
  · exact UInt64.toNat_sub_of_le _ _ (UInt64.le_iff_toNat_le.mpr rises)
  · have bound := previous.toNat_lt
    rw [UInt64.toNat_sub]
    omega

theorem floatQuotient_nonneg (delta : UInt64) {diff : ℚ} (positive : 0 < diff) :
    0 ≤ floatQuotient delta diff :=
  Binary.round_nonneg (by decide) (div_nonneg
    (Binary.round_nonneg (by decide) (Nat.cast_nonneg _)) positive.le)

/-- A defined quotient is stored as its whole part. -/
theorem historySampleIn_toNat {delta : UInt64} (rises : 0 < delta) {diff : ℚ}
    (positive : 0 < diff) (fits : floatQuotient delta diff < 2 ^ 64) :
    (historySampleIn toFloat delta diff).toNat = ⌊floatQuotient delta diff⌋₊ := by
  have below : ⌊floatQuotient delta diff⌋₊ < 2 ^ 64 := by
    rw [Nat.floor_lt (floatQuotient_nonneg delta positive)]
    exact_mod_cast fits
  unfold historySampleIn
  rw [if_pos rises, UInt64.toNat_ofNat']
  exact Nat.mod_eq_of_lt below

/-- No quotient is stored as the mark of an unknown sample: 64 bits that are all set do not fit
a `float`. -/
theorem historySampleIn_ne_unknown {delta : UInt64} (rises : 0 < delta) {diff : ℚ}
    (positive : 0 < diff) (fits : floatQuotient delta diff < 2 ^ 64) :
    historySampleIn toFloat delta diff ≠ historyUnknown := by
  intro mark
  have value := historySampleIn_toNat rises positive fits
  rw [mark, show historyUnknown.toNat = 2 ^ 64 - 1 by decide] at value
  have high := Nat.floor_le (floatQuotient_nonneg delta positive)
  rw [← value] at high
  have rounded : Binary.Fits 24 (floatQuotient delta diff) := Binary.fits_round (by decide) _
  have gap := rounded.le_of_lt_zpow (k := 64) (by exact_mod_cast fits)
  norm_num at high gap
  linarith

/-- A defined sample that is known is the reading just when the reading is kept. -/
theorem sample_eq_reading_iff (previous reading : UInt64) (diff : ℚ) :
    (SampleDefined (reading - previous) diff ∧
        (historySampleIn toFloat (reading - previous) diff ≠ historyUnknown →
          historySampleIn toFloat (reading - previous) diff = reading)) ↔
      ReadingKept previous reading diff := by
  unfold ReadingKept
  split_ifs with repeats
  · subst repeats
    rw [UInt64.sub_self]
    constructor
    · rintro ⟨-, equal⟩
      exact (equal (show (0 : UInt64) ≠ historyUnknown by decide)).symm
    · rintro rfl
      exact ⟨fun rises => absurd rises (by decide), fun _ => rfl⟩
  · have rises : 0 < reading - previous := by
      rw [UInt64.lt_iff_toNat_lt]
      refine Nat.pos_of_ne_zero fun zero => repeats ?_
      have difference : reading - previous = 0 := UInt64.toNat_inj.mp zero
      rw [UInt64.sub_eq_iff_eq_add.mp difference, UInt64.zero_add]
    rw [SampleDefined, forall_prop_of_true rises, ← toNat_sub_eq_increment, and_assoc]
    refine and_congr_right fun positive => ?_
    change _ ↔ (reading.toNat : ℚ) ≤ floatQuotient (reading - previous) diff ∧
      floatQuotient (reading - previous) diff < reading.toNat + 1
    rw [← Nat.floor_eq_iff (floatQuotient_nonneg _ positive)]
    constructor
    · rintro ⟨fits, equal⟩
      rw [← historySampleIn_toNat rises positive fits,
        equal (historySampleIn_ne_unknown rises positive fits)]
    · intro whole
      have fits : floatQuotient (reading - previous) diff < 2 ^ 64 := by
        have below := Nat.lt_floor_add_one (floatQuotient (reading - previous) diff)
        rw [whole] at below
        have bound : (reading.toNat : ℚ) + 1 ≤ 2 ^ 64 := by exact_mod_cast reading.toNat_lt
        linarith
      refine ⟨fits, fun _ => UInt64.toNat_inj.mp ?_⟩
      rw [historySampleIn_toNat rises positive fits, whole]

/-! ### Readings of less than 24 bits -/

/-- A second or more after the last reading, one that has fallen is not kept: the quotient has 24
bits or more. -/
theorem not_readingKept_of_falls {previous reading : UInt64} (small : previous.toNat < 2 ^ 24)
    (falls : reading.toNat < previous.toNat) {diff : ℚ} (later : 1 ≤ diff)
    (bounded : diff ≤ 2 ^ 39) : ¬ReadingKept previous reading diff := by
  unfold ReadingKept increment toFloat
  rw [if_neg fun repeats => falls.ne (congrArg UInt64.toNat repeats), if_neg (not_le.mpr falls)]
  rintro ⟨-, -, below⟩
  have huge : ((2 ^ 63 : Nat) : ℚ) ≤
      Binary.round 24 (reading.toNat + 2 ^ 64 - previous.toNat : Nat) := by
    refine Binary.le_round (by decide) ⟨1, 63, by decide, by norm_num⟩ ?_
    exact_mod_cast (by omega : 2 ^ 63 ≤ reading.toNat + 2 ^ 64 - previous.toNat)
  have large : (2 : ℚ) ^ 24 ≤ Binary.round 24
      (Binary.round 24 (reading.toNat + 2 ^ 64 - previous.toNat : Nat) / diff) := by
    refine Binary.le_round (by decide) ⟨1, 24, by decide, by norm_num⟩ ?_
    rw [le_div_iff₀ (by linarith)]
    push_cast at huge ⊢
    linarith
  have small' : (reading.toNat : ℚ) + 1 ≤ 2 ^ 24 := by exact_mod_cast (by omega)
  linarith

/-- One second after the last reading, a reading is kept just when the last one was zero. -/
theorem readingKept_second_iff {previous reading : UInt64} (small : previous.toNat < 2 ^ 24)
    (small' : reading.toNat < 2 ^ 24) : ReadingKept previous reading 1 ↔ previous = 0 := by
  have zero : previous = 0 ↔ previous.toNat = 0 := UInt64.toNat_inj.symm
  rcases lt_trichotomy reading.toNat previous.toNat with falls | repeats | rises
  · exact iff_of_false (not_readingKept_of_falls small falls le_rfl (by norm_num))
      fun none => (Nat.zero_le _).not_gt (none ▸ falls)
  · rw [ReadingKept, if_pos (UInt64.toNat_inj.mp repeats), UInt64.toNat_inj.mp repeats]
  · rw [ReadingKept, if_neg fun repeats => rises.ne' (congrArg UInt64.toNat repeats), increment,
      if_pos rises.le, div_one, toFloat, toFloat, Binary.round_round (by decide),
      Binary.round_of_fits (Binary.fits_natCast (by omega)), zero]
    constructor
    · rintro ⟨-, least, -⟩
      have : reading.toNat ≤ reading.toNat - previous.toNat := by exact_mod_cast least
      omega
    · intro none
      rw [none, Nat.sub_zero]
      exact ⟨one_pos, le_rfl, by linarith⟩

/-- Two seconds or more after the last reading, a reading is kept just when both are zero. -/
theorem readingKept_later_iff {previous reading : UInt64} (small : previous.toNat < 2 ^ 24)
    (small' : reading.toNat < 2 ^ 24) {diff : ℚ} (later : 2 ≤ diff) (bounded : diff ≤ 2 ^ 39) :
    ReadingKept previous reading diff ↔ previous = 0 ∧ reading = 0 := by
  rcases lt_trichotomy reading.toNat previous.toNat with falls | repeats | rises
  · refine iff_of_false (not_readingKept_of_falls small falls (by linarith) bounded) fun both => ?_
    rw [both.1, both.2] at falls
    exact falls.false
  · rw [ReadingKept, if_pos (UInt64.toNat_inj.mp repeats), UInt64.toNat_inj.mp repeats, and_self]
  · refine iff_of_false (fun kept => ?_) fun both => ?_
    · -- the quotient is at most half of the reading
      rw [ReadingKept, if_neg fun repeats => rises.ne' (congrArg UInt64.toNat repeats), increment,
        if_pos rises.le, toFloat, toFloat,
        Binary.round_of_fits (Binary.fits_natCast (by omega))] at kept
      have fits : Binary.Fits 24 ((reading.toNat : ℚ) / 2) :=
        ⟨reading.toNat, -1, by rw [Nat.abs_cast]; exact_mod_cast small', by
          rw [zpow_neg_one, Int.cast_natCast, div_eq_mul_inv]⟩
      have half : Binary.round 24 (((reading.toNat - previous.toNat : Nat) : ℚ) / diff) ≤
          (reading.toNat : ℚ) / 2 := by
        refine Binary.round_le (by decide) fits ?_
        exact div_le_div₀ (Nat.cast_nonneg _) (by exact_mod_cast Nat.sub_le _ _) two_pos later
      have positive : (0 : ℚ) < reading.toNat := by exact_mod_cast Nat.zero_lt_of_lt rises
      linarith [kept.2.1]
    · rw [both.1, both.2] at rises
      exact rises.false

/-! ### Readings at whole seconds -/

/-- A time of whole seconds after zero. -/
def WholeSecond (ts : Timestamp) : Prop := ts.tvUsec = 0 ∧ 0 < ts.tvSec ∧ ts.tvSec < 2 ^ 39

instance (ts : Timestamp) : Decidable (WholeSecond ts) := inferInstanceAs (Decidable (_ ∧ _))

theorem WholeSecond.before_iff {first second : Timestamp} (whole : WholeSecond first)
    (whole' : WholeSecond second) : first.Before second ↔ first.tvSec < second.tvSec := by
  rw [Timestamp.Before, timestampDiff, whole.1, whole'.1, sub_self, zero_div, add_zero, sub_pos,
    Int.cast_lt]

/-- Between whole seconds there is one second, or two and more. -/
theorem secondsSince_whole {lastUpdate ts : Timestamp} (last : WholeSecond lastUpdate)
    (now : WholeSecond ts) (later : lastUpdate.tvSec < ts.tvSec) :
    if lastUpdate.tvSec + 1 = ts.tvSec then secondsSince toFloat lastUpdate ts = 1
    else 2 ≤ secondsSince toFloat lastUpdate ts ∧ secondsSince toFloat lastUpdate ts ≤ 2 ^ 39 := by
  obtain ⟨lastUsec, lastSec, -⟩ := last
  obtain ⟨usec, sec, small⟩ := now
  have value : secondsSince toFloat lastUpdate ts =
      Binary.round 24 ((ts.tvSec - lastUpdate.tvSec : ℤ) : ℚ) := by
    rw [secondsSince, if_neg lastSec.ne', timestampDiffIn, lastUsec, usec]
    simp [toFloat, Binary.round_round]
  rw [value]
  split_ifs with next
  · rw [show ts.tvSec - lastUpdate.tvSec = 1 by omega]
    exact Binary.round_of_fits (Binary.fits_intCast (by decide))
  · exact ⟨Binary.le_round (by decide) ⟨1, 1, by decide, by norm_num⟩
        (by exact_mod_cast (by omega : 2 ≤ ts.tvSec - lastUpdate.tvSec)),
      Binary.round_le (by decide) ⟨1, 39, by decide, by norm_num⟩
        (by exact_mod_cast (by omega : ts.tvSec - lastUpdate.tvSec ≤ 2 ^ 39))⟩

/-- At whole seconds a reading is kept just when the last one was zero, and it is zero itself or
comes one second later. -/
theorem readingKept_whole_iff {previous reading : UInt64} (small : previous.toNat < 2 ^ 24)
    (small' : reading.toNat < 2 ^ 24) {lastUpdate ts : Timestamp} (last : WholeSecond lastUpdate)
    (now : WholeSecond ts) (later : lastUpdate.tvSec < ts.tvSec) :
    ReadingKept previous reading (secondsSince toFloat lastUpdate ts) ↔
      previous = 0 ∧ (reading = 0 ∨ lastUpdate.tvSec + 1 = ts.tvSec) := by
  have since := secondsSince_whole last now later
  split_ifs at since with next
  · rw [since, readingKept_second_iff small small', and_iff_left (Or.inr next)]
  · rw [readingKept_later_iff small small' since.1 since.2, or_iff_left next]

/-! ### One update -/

/-- The attribute is a gauge, with readings below `2 ^ 63`. -/
structure Gauged (a : Attr) : Prop where
  gauge : a.aDef.adType.IsGauge
  below : ∀ direction, (a.rate direction).rCurrent.toNat < 2 ^ 63

/-- Where a call brings the history a sample, it finds every reading kept. -/
def KeepsReadings (cfg : Config) (h : History) (call : Attr × Timestamp) : Prop :=
  historyExitIn toFloat cfg call.1 h call.2 = .update → ∀ direction,
    ReadingKept (h.store direction).hsPrevTotal (call.1.rate direction).rCurrent
      (historyTimediffIn toFloat h call.2)

namespace Gauged

variable {a : Attr} (gauged : Gauged a) (cfg : Config) (fuel : Nat) (h : History) (ts : Timestamp)

include gauged

theorem totals_ne_unknown (direction : Direction) :
    (attrCalcRates cfg a ts).totals direction ≠ historyUnknown := by
  intro unknown
  have bound := gauged.below direction
  rw [← attrCalcRates_totals cfg gauged.gauge ts direction, unknown] at bound
  exact absurd bound (by decide)

/-- An update records the totals just when it finds every reading kept. -/
theorem recordsTotals_iff : RecordsTotals cfg fuel h (a, ts) ↔ KeepsReadings cfg h (a, ts) := by
  have exit : historyExitIn toFloat cfg (attrCalcRates cfg a ts) h ts =
      historyExitIn toFloat cfg a h ts := by
    rw [historyExitIn, attrCalcRates_aDef, historyExitIn]
  have kept (direction : Direction) :=
    sample_eq_reading_iff (h.store direction).hsPrevTotal (a.rate direction).rCurrent
      (historyTimediffIn toFloat h ts)
  have totals := attrCalcRates_totals cfg gauged.gauge ts
  have entry (direction : Direction) :
      (historyStepIn toFloat h (attrCalcRates cfg a ts).totals
        (historyTimediffIn toFloat h ts)).2.entry direction =
        some (historySampleIn toFloat
          ((a.rate direction).rCurrent - (h.store direction).hsPrevTotal)
          (historyTimediffIn toFloat h ts)) := by
    rw [(historyStepIn_known _ (gauged.totals_ne_unknown cfg ts direction)).2, totals]
  unfold RecordsTotals KeepsReadings
  simp only [totals, exit]
  constructor
  · rintro ⟨samples, defined⟩ updates direction
    refine (kept direction).mp ⟨defined updates direction, fun known => ?_⟩
    have returned : historyUpdateIn toFloat cfg fuel (attrCalcRates cfg a ts) h ts =
        some ((historyStepIn toFloat h (attrCalcRates cfg a ts).totals
          (historyTimediffIn toFloat h ts)).1.updateTs ts,
          [(historyStepIn toFloat h (attrCalcRates cfg a ts).totals
            (historyTimediffIn toFloat h ts)).2]) := by
      unfold historyUpdateIn
      rw [exit, updates]
    exact samples _ _ returned _ List.mem_cons_self direction _ (entry direction) known
  · intro quotients
    refine ⟨fun h' steps returned step member direction sample written known => ?_,
      fun updates direction => ((kept direction).mpr (quotients updates direction)).1⟩
    obtain ⟨updates, rfl⟩ := historyUpdateIn_known returned member written known
    obtain rfl := Option.some.inj ((entry direction).symm.trans written)
    exact ((kept direction).mpr (quotients (exit ▸ updates) direction)).2 known

end Gauged

/-! ### Which calls take a sample -/

section Exits

variable {cfg : Config} {h : History} {a : Attr} {ts : Timestamp}

theorem historyExitIn_gauge (gauge : a.aDef.adType.IsGauge) :
    historyExitIn toFloat cfg a h ts =
      if cfg.cfgReadInterval > h.hDefinition.hdInterval then .discard
      else if cfg.cfgReadInterval = h.hDefinition.hdInterval then .update
      else if Extended.ofRat (historyTimediffIn toFloat h ts) > h.hMaxInterval then .discard
      else if historyTimediffIn toFloat h ts < h.hMinInterval then .tooEarly
      else .update := by
  refine if_neg fun both => ?_
  rw [both.2] at gauge
  exact absurd gauge (by decide)

/-- A history of a longer interval than the read interval whose clock has not started: every call
comes too early. -/
structure Waits (cfg : Config) (h : History) : Prop where
  longer : cfg.cfgReadInterval < h.hDefinition.hdInterval
  initial : h.isInitial
  noDiscard : ¬ h.hMaxInterval < Extended.ofRat 0
  early : 0 < h.hMinInterval

/-- A history that discards every call: it is read too seldom, or its longest interval is a
negative one. -/
def Discards (cfg : Config) (h : History) : Prop :=
  h.hDefinition.hdInterval < cfg.cfgReadInterval ∨
    cfg.cfgReadInterval ≠ h.hDefinition.hdInterval ∧ h.hMaxInterval < Extended.ofRat 0

theorem Waits.exit (waits : Waits cfg h) (gauge : a.aDef.adType.IsGauge) :
    historyExitIn toFloat cfg a h ts = .tooEarly := by
  have zero : historyTimediffIn toFloat h ts = 0 := if_pos waits.initial
  rw [historyExitIn_gauge gauge, if_neg (not_lt.mpr waits.longer.le), if_neg waits.longer.ne,
    zero, if_neg waits.noDiscard, if_pos waits.early]

theorem Discards.exit (discards : Discards cfg h) (gauge : a.aDef.adType.IsGauge)
    (nonneg : 0 ≤ historyTimediffIn toFloat h ts) :
    historyExitIn toFloat cfg a h ts = .discard := by
  rw [historyExitIn_gauge gauge]
  rcases discards with seldom | ⟨apart, negative⟩
  · exact if_pos seldom
  · have above : h.hMaxInterval < Extended.ofRat (historyTimediffIn toFloat h ts) := by
      refine negative.trans_le ?_
      unfold Extended.ofRat
      exact_mod_cast nonneg
    split_ifs <;> rfl

end Exits

/-! ### Every run -/

/-- Whether a property holds of both directions. -/
instance decidableForallDirection (property : Direction → Prop)
    [∀ direction, Decidable (property direction)] :
    Decidable (∀ direction, property direction) :=
  decidable_of_iff (property .rx ∧ property .tx)
    ⟨fun both direction => by cases direction; exacts [both.1, both.2],
      fun all => ⟨all .rx, all .tx⟩⟩

/-- Every reading of a list of calls is kept, where each is the one after that of the call
before. -/
def ReadingsKept : Timestamp → (Direction → UInt64) → List (Attr × Timestamp) → Prop
  | _, _, [] => True
  | lastUpdate, previous, (a, ts) :: rest =>
    (∀ direction, ReadingKept (previous direction) (a.rate direction).rCurrent
      (secondsSince toFloat lastUpdate ts)) ∧
      ReadingsKept ts (fun direction => (a.rate direction).rCurrent) rest

/-- With an interval equal to the read interval every call takes a sample, and what it finds is
the call before. -/
theorem every_keeps_iff {cfg : Config} (fuel : Nat) {calls : List (Attr × Timestamp)}
    (gauged : ∀ call ∈ calls, Gauged call.1) {h : History}
    (equal : cfg.cfgReadInterval = h.hDefinition.hdInterval) :
    Runs.Every (notifyHistory cfg fuel) (KeepsReadings cfg) h calls ↔
      ReadingsKept h.hLastUpdate (fun direction => (h.store direction).hsPrevTotal) calls := by
  induction calls generalizing h with
  | nil => exact Iff.rfl
  | cons call rest inductionHypothesis =>
    obtain ⟨a, ts⟩ := call
    obtain ⟨isGauged, others⟩ := List.forall_mem_cons.mp gauged
    have updates (a' : Attr) (same : a'.aDef = a.aDef) :
        historyExitIn toFloat cfg a' h ts = .update := by
      have gauge : a'.aDef.adType.IsGauge := same ▸ isGauged.gauge
      rw [historyExitIn_gauge gauge, if_neg (not_lt.mpr equal.le), if_pos equal]
    let next := (historyStepIn toFloat h (attrCalcRates cfg a ts).totals
      (historyTimediffIn toFloat h ts)).1.updateTs ts
    have stepped : notifyHistory cfg fuel h (a, ts) = some next := by
      unfold notifyHistory historyUpdateIn
      rw [updates _ (attrCalcRates_aDef cfg a ts)]
      rfl
    have previous : (fun direction => (next.store direction).hsPrevTotal) =
        fun direction => (a.rate direction).rCurrent := by
      funext direction
      rw [updateTs_store, (historyStepIn_known _ (isGauged.totals_ne_unknown cfg ts direction)).1]
      exact attrCalcRates_totals cfg isGauged.gauge ts direction
    have later := inductionHypothesis others (h := next) equal
    rw [previous] at later
    change (KeepsReadings cfg h (a, ts) ∧ ∀ next', _ → _) ↔ _
    rw [KeepsReadings, forall_prop_of_true (updates a rfl), stepped]
    simp only [Option.some.injEq, forall_eq']
    exact and_congr_right fun _ => later

/-- All readings are zero, but that those of the last call may be any if it comes one second after
another. -/
def LeavesZeroLast : Timestamp → List (Attr × Timestamp) → Prop
  | _, [] => True
  | lastUpdate, (a, ts) :: rest =>
    (∀ direction, (a.rate direction).rCurrent = 0 ∨
      rest = [] ∧ 0 < lastUpdate.tvSec ∧ lastUpdate.tvSec + 1 = ts.tvSec) ∧
      LeavesZeroLast ts rest

/-- A call at a whole second, with readings of less than 24 bits. -/
structure Ordinary (call : Attr × Timestamp) : Prop where
  whole : WholeSecond call.2
  small : ∀ direction, (call.1.rate direction).rCurrent.toNat < 2 ^ 24

instance (call : Attr × Timestamp) : Decidable (Ordinary call) :=
  decidable_of_iff
    (WholeSecond call.2 ∧ ∀ direction, (call.1.rate direction).rCurrent.toNat < 2 ^ 24)
    ⟨fun both => ⟨both.1, both.2⟩, fun ordinary => ⟨ordinary.whole, ordinary.small⟩⟩

/-- Readings of less than 24 bits at whole seconds, after one of zero: all are kept just when all
are zero but the last. -/
theorem readingsKept_iff_leavesZeroLast {calls : List (Attr × Timestamp)}
    (ordinary : ∀ call ∈ calls, Ordinary call)
    (increasing : calls.Pairwise fun first second => first.2.tvSec < second.2.tvSec)
    {lastUpdate : Timestamp} (last : lastUpdate.tvSec = 0 ∨
      WholeSecond lastUpdate ∧ ∀ call ∈ calls, lastUpdate.tvSec < call.2.tvSec) :
    ReadingsKept lastUpdate (fun _ => 0) calls ↔ LeavesZeroLast lastUpdate calls := by
  induction calls generalizing lastUpdate with
  | nil => exact Iff.rfl
  | cons call rest inductionHypothesis =>
    obtain ⟨a, ts⟩ := call
    obtain ⟨here, others⟩ := List.forall_mem_cons.mp ordinary
    obtain ⟨later, increasingRest⟩ := List.pairwise_cons.mp increasing
    have kept (direction : Direction) :
        ReadingKept 0 (a.rate direction).rCurrent (secondsSince toFloat lastUpdate ts) ↔
          (a.rate direction).rCurrent = 0 ∨
            0 < lastUpdate.tvSec ∧ lastUpdate.tvSec + 1 = ts.tvSec := by
      rcases last with none | ⟨whole, before⟩
      · rw [secondsSince, if_pos none, none, ReadingKept]
        split_ifs with zero <;> simp [zero]
      · rw [readingKept_whole_iff (by decide) (here.small direction) whole here.whole
          (before _ List.mem_cons_self), eq_self, true_and, and_iff_right whole.2.1]
    rw [ReadingsKept, LeavesZeroLast]
    simp only [kept]
    cases rest with
    | nil => simp [ReadingsKept, LeavesZeroLast]
    | cons next rest =>
      simp only [List.cons_ne_nil, false_and, or_false]
      by_cases zero : ∀ direction, (a.rate direction).rCurrent = 0
      · simp only [zero, true_or, implies_true, true_and]
        exact inductionHypothesis others increasingRest (Or.inr ⟨here.whole, later⟩)
      · refine iff_of_false (fun both => zero fun direction => ?_) fun both => zero both.1
        have follows := both.2.1 direction
        exact ((readingKept_whole_iff (here.small direction)
          ((others _ List.mem_cons_self).small direction) here.whole
          (others _ List.mem_cons_self).whole (later _ List.mem_cons_self)).mp follows).1

/-- A history that waits or discards never takes a sample. -/
theorem every_keeps_of_idle {cfg : Config} (fuel : Nat) {calls : List (Attr × Timestamp)}
    (gauges : ∀ call ∈ calls, call.1.aDef.adType.IsGauge)
    (increasing : calls.Pairwise fun first second => 0 ≤ secondsSince toFloat first.2 second.2)
    {h : History} (since : ∀ call ∈ calls, 0 ≤ historyTimediffIn toFloat h call.2)
    (idle : Waits cfg h ∨ Discards cfg h) :
    Runs.Every (notifyHistory cfg fuel) (KeepsReadings cfg) h calls := by
  induction calls generalizing h with
  | nil => trivial
  | cons call rest inductionHypothesis =>
    obtain ⟨gauge, others⟩ := List.forall_mem_cons.mp gauges
    obtain ⟨nonneg, sinceRest⟩ := List.forall_mem_cons.mp since
    obtain ⟨afterCall, increasingRest⟩ := List.pairwise_cons.mp increasing
    have calculated : (attrCalcRates cfg call.1 call.2).aDef.adType.IsGauge :=
      (attrCalcRates_aDef cfg call.1 call.2).symm ▸ gauge
    rcases idle with waits | discards
    · refine ⟨fun updates => ?_, fun next stepped => ?_⟩
      · rw [waits.exit gauge] at updates
        cases updates
      · obtain ⟨⟨h', steps⟩, returned, rfl⟩ := Option.map_eq_some_iff.mp stepped
        unfold historyUpdateIn at returned
        simp only [waits.exit calculated] at returned
        obtain ⟨rfl, -⟩ := Prod.mk.inj (Option.some.inj returned)
        exact inductionHypothesis others increasingRest sinceRest (Or.inl waits)
    · refine ⟨fun updates => ?_, fun next stepped => ?_⟩
      · rw [discards.exit gauge nonneg] at updates
        cases updates
      · obtain ⟨⟨h', steps⟩, returned, rfl⟩ := Option.map_eq_some_iff.mp stepped
        obtain ⟨definition, maxInterval, last⟩ :=
          historyUpdateIn_discard (discards.exit calculated nonneg) returned
        refine inductionHypothesis others increasingRest (fun other member => ?_) (Or.inr ?_)
        · rw [historyTimediffIn, last]
          exact afterCall other member
        · unfold Discards
          rw [definition, maxInterval]
          exact discards

/-- A new history of another interval than the read interval waits or discards. -/
theorem idle_historyAllocIn {cfg : Config} (nonneg : 0 ≤ cfg.cfgReadInterval)
    {definition : HistoryDef} (apart : cfg.cfgReadInterval ≠ definition.hdInterval) :
    Waits cfg (historyAllocIn toFloat cfg definition) ∨
      Discards cfg (historyAllocIn toFloat cfg definition) := by
  rcases lt_or_gt_of_ne apart with longer | seldom
  · by_cases negative :
      (historyAllocIn toFloat cfg definition).hMaxInterval < Extended.ofRat 0
    · exact Or.inr (Or.inr ⟨apart, negative⟩)
    · exact Or.inl ⟨longer, rfl, negative, Binary.round_pos (by decide) (by linarith)⟩
  · exact Or.inr (Or.inl seldom)

/-- In terms of the readings alone: a new history of another interval than the read interval takes
no sample, and one of the same interval takes one at every call. -/
theorem every_keepsReadings_iff {cfg : Config} (fuel : Nat) {definition : HistoryDef}
    {calls : List (Attr × Timestamp)} (gauged : ∀ call ∈ calls, Gauged call.1)
    (normalised : ∀ call ∈ calls, call.2.Normalised)
    (increasing : calls.Pairwise fun first second => first.2.Before second.2)
    (nonneg : 0 ≤ cfg.cfgReadInterval) :
    Runs.Every (notifyHistory cfg fuel) (KeepsReadings cfg)
        (historyAllocIn toFloat cfg definition) calls ↔
      (cfg.cfgReadInterval = definition.hdInterval →
        ReadingsKept Timestamp.zero (fun _ => 0) calls) := by
  by_cases equal : cfg.cfgReadInterval = definition.hdInterval
  · rw [forall_prop_of_true equal, every_keeps_iff fuel gauged equal]
    have none : (fun direction =>
        ((historyAllocIn toFloat cfg definition).store direction).hsPrevTotal) = fun _ => 0 := by
      funext direction
      cases direction <;> rfl
    rw [none]
    rfl
  · refine iff_of_true ?_ fun same => absurd same equal
    refine every_keeps_of_idle fuel (fun call member => (gauged call member).gauge) ?_
      (fun call _ => le_rfl) (idle_historyAllocIn nonneg equal)
    refine increasing.imp_of_mem fun inFirst inSecond before => ?_
    exact secondsSince_nonneg (normalised _ inFirst) (normalised _ inSecond) before

/-- What a history of a gauge records. Take a new history of 64 bits of an attribute that is a
rate or a percentage, and any sequence of readings below `2 ^ 63` with strictly increasing
timestamps. Every known sample is the reading of its update just when every update finds every
reading kept.

In terms of the readings alone, with a read interval that is not negative: the history has
another interval than that and takes no sample, or every reading is kept that comes after the
one before it, where the first ones come after zero and no time. For readings of less than 24 bits
at whole seconds this says that all are zero, but that those of the last call may be any if it comes
one second after another. -/
theorem notifyHistory_recordsTotals_iff (cfg : Config) (fuel : Nat) (definition : HistoryDef)
    (calls : List (Attr × Timestamp)) (gauged : ∀ call ∈ calls, Gauged call.1)
    (normalised : ∀ call ∈ calls, call.2.Normalised)
    (increasing : calls.Pairwise fun first second => first.2.Before second.2) :
    (Runs.Every (notifyHistory cfg fuel) (RecordsTotals cfg fuel)
        (historyAllocIn toFloat cfg definition) calls ↔
      Runs.Every (notifyHistory cfg fuel) (KeepsReadings cfg)
        (historyAllocIn toFloat cfg definition) calls) ∧
      (0 ≤ cfg.cfgReadInterval →
        (Runs.Every (notifyHistory cfg fuel) (RecordsTotals cfg fuel)
            (historyAllocIn toFloat cfg definition) calls ↔
          (cfg.cfgReadInterval = definition.hdInterval →
            ReadingsKept Timestamp.zero (fun _ => 0) calls)) ∧
        ((∀ call ∈ calls, Ordinary call) →
          (Runs.Every (notifyHistory cfg fuel) (RecordsTotals cfg fuel)
              (historyAllocIn toFloat cfg definition) calls ↔
            (cfg.cfgReadInterval = definition.hdInterval →
              LeavesZeroLast Timestamp.zero calls)))) := by
  have each : Runs.Every (notifyHistory cfg fuel) (RecordsTotals cfg fuel)
      (historyAllocIn toFloat cfg definition) calls ↔
      Runs.Every (notifyHistory cfg fuel) (KeepsReadings cfg)
        (historyAllocIn toFloat cfg definition) calls :=
    Runs.every_congr_of_mem (fun _ => True)
      (fun h call member _ => (gauged call member).recordsTotals_iff cfg fuel h call.2)
      (fun _ _ _ _ _ _ _ => trivial) trivial
  have inputs (nonneg : 0 ≤ cfg.cfgReadInterval) :
      Runs.Every (notifyHistory cfg fuel) (RecordsTotals cfg fuel)
          (historyAllocIn toFloat cfg definition) calls ↔
        (cfg.cfgReadInterval = definition.hdInterval →
          ReadingsKept Timestamp.zero (fun _ => 0) calls) :=
    each.trans (every_keepsReadings_iff fuel gauged normalised increasing nonneg)
  refine ⟨each, fun nonneg => ⟨inputs nonneg, fun ordinary => (inputs nonneg).trans ?_⟩⟩
  rw [readingsKept_iff_leavesZeroLast ordinary ?_ (Or.inl rfl)]
  refine increasing.imp_of_mem fun inFirst inSecond before => ?_
  exact ((ordinary _ inFirst).whole.before_iff (ordinary _ inSecond).whole).mp before

instance decidableLeavesZeroLast (lastUpdate : Timestamp) :
    (calls : List (Attr × Timestamp)) → Decidable (LeavesZeroLast lastUpdate calls)
  | [] => isTrue trivial
  | (_, ts) :: rest =>
    have := decidableLeavesZeroLast ts rest
    have : Decidable (rest = []) := decidable_of_iff _ List.isEmpty_iff
    inferInstanceAs (Decidable (_ ∧ _))

instance decidableReadingsKept (lastUpdate : Timestamp) (previous : Direction → UInt64) :
    (calls : List (Attr × Timestamp)) → Decidable (ReadingsKept lastUpdate previous calls)
  | [] => isTrue trivial
  | (a, ts) :: rest =>
    have := decidableReadingsKept ts (fun direction => (a.rate direction).rCurrent) rest
    inferInstanceAs (Decidable (_ ∧ _))

/-- A rate in received packets. -/
def rateDef : AttrDef := ⟨3, "pps", "Packets/s", .rate, {}⟩

/-- A 64-bit history with a slot for every so many seconds. -/
def secondsDef (interval : ℚ) : HistoryDef := ⟨"second", 60, .type64, interval⟩

/-- A reading of the rate at the full second. -/
def rateCall (reading : UInt64) (second : Int) : Attr × Timestamp :=
  (attrStore (attrAlloc rateDef) reading 0 { rx := true } ⟨second, 0⟩, ⟨second, 0⟩)

theorem gauged_rateCall {reading : UInt64} (below : reading.toNat < 2 ^ 63) (second : Int) :
    Gauged (rateCall reading second).1 := by
  refine ⟨Or.inl rfl, fun direction => ?_⟩
  cases direction
  · exact below
  · exact (by decide : (0 : UInt64).toNat < 2 ^ 63)

theorem gauged_threeCalls {first second third : UInt64} (below : first.toNat < 2 ^ 63)
    (below' : second.toNat < 2 ^ 63) (below'' : third.toNat < 2 ^ 63) (start pause : Int) :
    ∀ call ∈ [rateCall first start, rateCall second (start + pause),
      rateCall third (start + 2 * pause)], Gauged call.1 := by
  simp only [List.forall_mem_cons]
  exact ⟨gauged_rateCall below _, gauged_rateCall below' _, gauged_rateCall below'' _,
    List.forall_mem_nil _⟩

/-- A rate that leaves zero once is recorded. -/
theorem notifyHistory_recordsTotals_leavesZero :
    Runs.Every (notifyHistory (confInitPost {}) 1) (RecordsTotals (confInitPost {}) 1)
      (historyAllocIn toFloat (confInitPost {}) (secondsDef 1))
      [rateCall 0 1, rateCall 0 2, rateCall 100 3] :=
  (((notifyHistory_recordsTotals_iff (confInitPost {}) 1 (secondsDef 1)
    [rateCall 0 1, rateCall 0 2, rateCall 100 3]
    (gauged_threeCalls (by decide) (by decide) (by decide) 1 1) (by decide)
    (by decide +kernel)).2 (by decide)).2 (by decide)).mpr fun _ => by decide

/-- A rate that falls from 100 to 50 within two seconds gets a sample of `2 ^ 63`. -/
theorem falling_rate_hugeSample :
    let cfg := confInitPost { readInterval := 2 }
    let start := historyAllocIn toFloat cfg (secondsDef 2)
    let third := rateCall 50 6
    (∀ call ∈ [rateCall 0 2, rateCall 100 4, third], Gauged call.1) ∧
    (∃ h h' step, Runs.run (notifyHistory cfg 1) start [rateCall 0 2, rateCall 100 4] = some h ∧
      historyUpdateIn toFloat cfg 1 (attrCalcRates cfg third.1 third.2) h third.2 =
        some (h', [step]) ∧ step.rx = some 9223372036854775808 ∧
      (attrCalcRates cfg third.1 third.2).totals .rx = 50) ∧
      ¬ Runs.Every (notifyHistory cfg 1) (RecordsTotals cfg 1) start
        [rateCall 0 2, rateCall 100 4, third] := by
  intro cfg start third
  have read : (Runs.run (notifyHistory cfg 1) start [rateCall 0 2, rateCall 100 4]).any
      (fun h => (historyUpdateIn toFloat cfg 1 (attrCalcRates cfg third.1 third.2) h third.2).any
        fun updated => updated.2.map HistoryStep.rx = [some 9223372036854775808]) = true := by
    decide +kernel
  have total : (attrCalcRates cfg third.1 third.2).totals .rx = 50 := by decide
  obtain ⟨h, ran, wrote⟩ := (Option.any_eq_true _ _).mp read
  obtain ⟨⟨h', steps⟩, returned, samples⟩ := (Option.any_eq_true _ _).mp wrote
  obtain ⟨step, rfl, written⟩ := List.map_eq_singleton_iff.mp (of_decide_eq_true samples)
  refine ⟨gauged_threeCalls (by decide) (by decide) (by decide) 2 2,
    ⟨h, h', step, ran, returned, written, total⟩, fun every => ?_⟩
  have split : [rateCall 0 2, rateCall 100 4, third] =
      [rateCall 0 2, rateCall 100 4] ++ third :: [] := rfl
  rw [split] at every
  have records := every.of_run ran
  have recorded := records.1 h' [step] returned step List.mem_cons_self .rx _ written (by decide)
  rw [total] at recorded
  exact absurd recorded (by decide)

end Bmon
