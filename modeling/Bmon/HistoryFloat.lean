/-
This file models `history_update` once more, with the rounding of `float`.

The rest of the development takes every `float` as an exact rational. Here each operation is
followed by a rounding. With no rounding at all the functions are those of `History`; with the
rounding to 24 bits they are what the program computes, as long as no exponent leaves the range
of a `float`. The increment of a total is rounded before it is divided, so that of a large one
only the leading bits are stored.
-/

import Bmon.Attr
import Bmon.HistoryTotals

namespace Bmon

section Rounded

variable (round : ℚ → ℚ)

/-! ### The functions of the source -/

/-- `timestamp_diff`. -/
def timestampDiffIn (t1 t2 : Timestamp) : ℚ :=
  round (round (t2.tvSec - t1.tvSec) +
    round (round (round t2.tvUsec - round t1.tvUsec) / 1000000))

/-- The seconds since a last update, which is none if it has no seconds. -/
def secondsSince (lastUpdate ts : Timestamp) : ℚ :=
  if lastUpdate.tvSec = 0 then 0 else timestampDiffIn round lastUpdate ts

/-- The local `timediff` of `history_update`. -/
def historyTimediffIn (h : History) (ts : Timestamp) : ℚ := secondsSince round h.hLastUpdate ts

/-- `delta /= diff`. -/
def historySampleIn (delta : UInt64) (diff : ℚ) : UInt64 :=
  if 0 < delta then UInt64.ofNat ⌊round (round delta.toNat / diff)⌋₊ else delta

/-- `history_store_data`, with the entry it wrote, if any. -/
def historyStoreDataIn (h : History) (hs : HistoryStore) (total : UInt64) (diff : ℚ) :
    HistoryStore × Option UInt64 :=
  if hs.hsData = none ∧ total = historyUnknown then
    (hs, none)
  else
    let data := hs.hsData.getD (historyAllocData h.hDefinition)
    let delta :=
      if total = historyUnknown then historyUnknown
      else historySampleIn round (total - hs.hsPrevTotal) diff
    let prevTotal := if total = historyUnknown then hs.hsPrevTotal else total
    ({ hsData := some (data.set h.hIndex (h.hDefinition.hdType.cast delta))
       hsPrevTotal := prevTotal }, some delta)

/-- One call of `history_store_data` for each direction, then `inc_history_index`. -/
def historyStepIn (h : History) (totals : Direction → UInt64) (diff : ℚ) :
    History × HistoryStep :=
  let rx := historyStoreDataIn round h h.hRx (totals .rx) diff
  let tx := historyStoreDataIn round h h.hTx (totals .tx) diff
  (incHistoryIndex { h with hRx := rx.1, hTx := tx.1 }, ⟨rx.2, tx.2⟩)

/-- The tests of `history_update`, in the order of the source. -/
def historyExitIn (cfg : Config) (a : Attr) (h : History) (ts : Timestamp) : HistoryExit :=
  if h.isInitial ∧ a.aDef.adType = .counter then .updatePrevTotal
  else if cfg.cfgReadInterval > h.hDefinition.hdInterval then .discard
  else if cfg.cfgReadInterval = h.hDefinition.hdInterval then .update
  else if Extended.ofRat (historyTimediffIn round h ts) > h.hMaxInterval then .discard
  else if historyTimediffIn round h ts < h.hMinInterval then .tooEarly
  else .update

/-- The `while` loop behind the label `discard`. -/
def discardLoopIn : Nat → History → ℚ → Option (History × List HistoryStep)
  | 0, _, _ => none
  | fuel + 1, h, timediff =>
    if timediff ≥ h.hDefinition.hdInterval / 2 then
      let stepped := historyStepIn round h (fun _ => historyUnknown) 0
      (discardLoopIn fuel stepped.1 (round (timediff - h.hDefinition.hdInterval))).map fun rest =>
        (rest.1, stepped.2 :: rest.2)
    else
      some (h, [])

/-- `history_update`, with the steps it made. -/
def historyUpdateIn (cfg : Config) (fuel : Nat) (a : Attr) (h : History) (ts : Timestamp) :
    Option (History × List HistoryStep) :=
  match historyExitIn round cfg a h ts with
  | .updatePrevTotal => some ((h.updatePrevTotal a).updateTs ts, [])
  | .tooEarly => some (h, [])
  | .update =>
    let stepped := historyStepIn round h a.totals (historyTimediffIn round h ts)
    some (stepped.1.updateTs ts, [stepped.2])
  | .discard =>
    (discardLoopIn round fuel h (historyTimediffIn round h ts)).map fun discarded =>
      ((discarded.1.updatePrevTotal a).updateTs ts, discarded.2)

/-- A division of `float`s. -/
def floatDivIn (dividend divisor : ℚ) : Extended :=
  if divisor = 0 then floatDiv dividend divisor else Extended.ofRat (round (dividend / divisor))

/-- `history_alloc`. -/
def historyAllocIn (cfg : Config) (definition : HistoryDef) : History where
  hIndex := 0
  hDefinition := definition
  hLastUpdate := Timestamp.zero
  hMinInterval := round (definition.hdInterval - cfg.cfgReadInterval / 2)
  hMaxInterval := floatDivIn round definition.hdInterval cfg.cfgHistoryVariance
  hRx := ⟨none, 0⟩
  hTx := ⟨none, 0⟩

end Rounded

/-! ### Without rounding -/

theorem timestampDiffIn_id : timestampDiffIn id = timestampDiff := by
  funext t1 t2
  simp [timestampDiffIn, timestampDiff]

theorem historyTimediffIn_id : historyTimediffIn id = historyTimediff := by
  funext h ts
  rw [historyTimediffIn, secondsSince, timestampDiffIn_id]
  rfl

theorem historyStepIn_id : historyStepIn id = historyStep := rfl

theorem discardLoopIn_id : discardLoopIn id = discardLoop := by
  funext fuel
  induction fuel with
  | zero => rfl
  | succ fuel inductionHypothesis =>
    funext h timediff
    rw [discardLoopIn, discardLoop, inductionHypothesis, historyStepIn_id]
    rfl

theorem historyExitIn_id : historyExitIn id = historyExit := by
  funext cfg a h ts
  rw [historyExitIn, historyTimediffIn_id, historyExit]

/-- Without rounding `history_update` is the one of exact rationals. -/
theorem historyUpdateIn_id : historyUpdateIn id = historyUpdate := by
  funext cfg fuel a h ts
  rw [historyUpdateIn, historyExitIn_id, historyTimediffIn_id, historyStepIn_id, discardLoopIn_id]
  rfl

theorem historyAllocIn_id : historyAllocIn id = historyAlloc := by
  funext cfg definition
  have quotient : floatDivIn id definition.hdInterval cfg.cfgHistoryVariance =
      floatDiv definition.hdInterval cfg.cfgHistoryVariance := by
    unfold floatDivIn floatDiv
    split_ifs <;> rfl
  rw [historyAllocIn, quotient]
  rfl

/-! ### The time since the last update -/

/-- A later time is not rounded to an earlier one. -/
theorem timestampDiffIn_nonneg {t1 t2 : Timestamp} (first : t1.Normalised)
    (second : t2.Normalised) (before : t1.Before t2) : 0 ≤ timestampDiffIn toFloat t1 t2 := by
  have fits (n : ℤ) (bound : |n| < 2 ^ 24) : toFloat n = n :=
    Binary.round_of_fits (Binary.fits_intCast bound)
  have usecs : toFloat (toFloat t2.tvUsec - toFloat t1.tvUsec) = (t2.tvUsec - t1.tvUsec : ℤ) := by
    rw [fits t2.tvUsec (abs_lt.mpr ⟨by linarith [second.1], by linarith [second.2]⟩),
      fits t1.tvUsec (abs_lt.mpr ⟨by linarith [first.1], by linarith [first.2]⟩)]
    rw [← Int.cast_sub]
    exact fits _ (abs_lt.mpr ⟨by linarith [first.2, second.1], by linarith [first.1, second.2]⟩)
  obtain ⟨lower, upper⟩ := second
  obtain ⟨lower', upper'⟩ := first
  have lead : t2.tvSec - t1.tvSec = 0 ∧ 0 ≤ t2.tvUsec - t1.tvUsec ∨ 1 ≤ t2.tvSec - t1.tvSec := by
    have scaled : 0 < (t2.tvSec - t1.tvSec) * 1000000 + (t2.tvUsec - t1.tvUsec) := by
      have positive : (0 : ℚ) < timestampDiff t1 t2 * 1000000 := mul_pos before (by norm_num)
      rw [timestampDiff, add_mul, div_mul_cancel₀ _ (by norm_num)] at positive
      exact_mod_cast positive
    omega
  refine Binary.round_nonneg (by decide) ?_
  rw [usecs, ← Int.cast_sub]
  rcases lead with ⟨same, later⟩ | ahead
  · rw [same]
    refine add_nonneg (Binary.round_nonneg (by decide) (by norm_num)) ?_
    refine Binary.round_nonneg (by decide) (div_nonneg ?_ (by norm_num))
    exact_mod_cast later
  · -- a second more outweighs the microseconds
    have one : (1 : ℚ) ≤ toFloat (t2.tvSec - t1.tvSec : ℤ) :=
      Binary.le_round (by decide) ⟨1, 0, by decide, by norm_num⟩ (by exact_mod_cast ahead)
    have fraction : (-1 : ℚ) ≤ toFloat ((t2.tvUsec - t1.tvUsec : ℤ) / 1000000) := by
      refine Binary.le_round (by decide) ⟨-1, 0, by decide, by norm_num⟩ ?_
      rw [le_div_iff₀ (by norm_num)]
      exact_mod_cast (by omega : -1 * 1000000 ≤ t2.tvUsec - t1.tvUsec)
    linarith

theorem secondsSince_nonneg {t1 t2 : Timestamp} (first : t1.Normalised)
    (second : t2.Normalised) (before : t1.Before t2) : 0 ≤ secondsSince toFloat t1 t2 := by
  unfold secondsSince
  split_ifs
  · exact le_rfl
  · exact timestampDiffIn_nonneg first second before

/-! ### What a call writes -/

section Calls

variable {round : ℚ → ℚ} {cfg : Config} {fuel : Nat} {a : Attr} {h : History} {ts : Timestamp}

/-- A known total is recorded, and the sample of its increment is written. -/
theorem historyStepIn_known {totals : Direction → UInt64} (diff : ℚ) {direction : Direction}
    (known : totals direction ≠ historyUnknown) :
    ((historyStepIn round h totals diff).1.store direction).hsPrevTotal = totals direction ∧
      (historyStepIn round h totals diff).2.entry direction =
        some (historySampleIn round (totals direction - (h.store direction).hsPrevTotal) diff) := by
  cases direction <;>
    simp [historyStepIn, historyStoreDataIn, incHistoryIndex, History.store, HistoryStep.entry,
      known]

/-- An unknown total writes unknown entries only. -/
theorem historyStepIn_unknown (diff : ℚ) {direction : Direction} {sample : UInt64}
    (written : (historyStepIn round h (fun _ => historyUnknown) diff).2.entry direction =
      some sample) : sample = historyUnknown := by
  cases direction <;>
  · simp only [historyStepIn, HistoryStep.entry, historyStoreDataIn] at written
    split_ifs at written
    exact (Option.some.inj written).symm

/-- The discard loop writes unknown entries only. -/
theorem discardLoopIn_entries {timediff : ℚ} {h' : History} {steps : List HistoryStep}
    (returned : discardLoopIn round fuel h timediff = some (h', steps)) :
    ∀ step ∈ steps, ∀ direction sample, step.entry direction = some sample →
      sample = historyUnknown := by
  induction fuel generalizing h timediff steps with
  | zero => cases returned
  | succ fuel inductionHypothesis =>
    rw [discardLoopIn] at returned
    split_ifs at returned
    · obtain ⟨⟨last, rest⟩, loop, same⟩ := Option.map_eq_some_iff.mp returned
      obtain ⟨rfl, rfl⟩ := Prod.mk.inj same
      intro step member direction sample written
      rcases List.mem_cons.mp member with rfl | later
      · exact historyStepIn_unknown 0 written
      · exact inductionHypothesis loop step later direction sample written
    · obtain ⟨rfl, rfl⟩ := Prod.mk.inj (Option.some.inj returned)
      exact fun step member => absurd member List.not_mem_nil

/-- The discard loop leaves the intervals and the time alone. -/
theorem discardLoopIn_fields {timediff : ℚ} {h' : History} {steps : List HistoryStep}
    (returned : discardLoopIn round fuel h timediff = some (h', steps)) :
    h'.hDefinition = h.hDefinition ∧ h'.hMaxInterval = h.hMaxInterval := by
  induction fuel generalizing h timediff steps with
  | zero => cases returned
  | succ fuel inductionHypothesis =>
    rw [discardLoopIn] at returned
    split_ifs at returned
    · obtain ⟨⟨last, rest⟩, loop, same⟩ := Option.map_eq_some_iff.mp returned
      obtain ⟨rfl, rfl⟩ := Prod.mk.inj same
      have later := inductionHypothesis loop
      exact later
    · obtain ⟨rfl, rfl⟩ := Prod.mk.inj (Option.some.inj returned)
      exact ⟨rfl, rfl⟩

/-- A call that discards leaves the intervals alone, and its time is the last one. -/
theorem historyUpdateIn_discard {h' : History} {steps : List HistoryStep}
    (exit : historyExitIn round cfg a h ts = .discard)
    (returned : historyUpdateIn round cfg fuel a h ts = some (h', steps)) :
    h'.hDefinition = h.hDefinition ∧ h'.hMaxInterval = h.hMaxInterval ∧ h'.hLastUpdate = ts := by
  unfold historyUpdateIn at returned
  simp only [exit] at returned
  obtain ⟨⟨discarded, made⟩, loop, same⟩ := Option.map_eq_some_iff.mp returned
  obtain ⟨rfl, -⟩ := Prod.mk.inj same
  obtain ⟨definition, maxInterval⟩ := discardLoopIn_fields loop
  exact ⟨definition, maxInterval, rfl⟩

/-- A call that writes a known sample leaves through the update. -/
theorem historyUpdateIn_known {h' : History} {steps : List HistoryStep}
    (returned : historyUpdateIn round cfg fuel a h ts = some (h', steps)) {step : HistoryStep}
    (member : step ∈ steps) {direction : Direction} {sample : UInt64}
    (written : step.entry direction = some sample) (known : sample ≠ historyUnknown) :
    historyExitIn round cfg a h ts = .update ∧
      step = (historyStepIn round h a.totals (historyTimediffIn round h ts)).2 := by
  unfold historyUpdateIn at returned
  cases exit : historyExitIn round cfg a h ts <;> simp only [exit] at returned
  case updatePrevTotal =>
    obtain ⟨-, rfl⟩ := Prod.mk.inj (Option.some.inj returned)
    exact absurd member List.not_mem_nil
  case tooEarly =>
    obtain ⟨-, rfl⟩ := Prod.mk.inj (Option.some.inj returned)
    exact absurd member List.not_mem_nil
  case update =>
    obtain ⟨-, rfl⟩ := Prod.mk.inj (Option.some.inj returned)
    exact ⟨rfl, List.mem_singleton.mp member⟩
  case discard =>
    obtain ⟨⟨discarded, made⟩, loop, same⟩ := Option.map_eq_some_iff.mp returned
    obtain ⟨-, rfl⟩ := Prod.mk.inj same
    exact absurd (discardLoopIn_entries loop step member direction sample written) known

end Calls

end Bmon
