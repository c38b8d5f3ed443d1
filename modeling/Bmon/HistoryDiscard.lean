/-
This file computes what the discard path of `history_update` does to a history.

Each round of its loop takes one interval off the elapsed time and marks one slot as unknown in
the stores that have an array, until less than half an interval is left. So the rounds are the
elapsed time in intervals, rounded to the nearest number and up at halves; the index moves on
by as many slots, and exactly the slots it passes are marked. A gap longer than the ring passes
every slot, some of them more than once.
-/

import Bmon.Graph
import Mathlib.Tactic.FieldSimp

namespace Bmon

/-! ### The number of rounds -/

/-- The elapsed time in intervals, rounded half up; none for a negative time. -/
def discardCount (timediff interval : ℚ) : Nat := ⌊timediff / interval + 1 / 2⌋₊

/-- The loop goes on as long as there are rounds left. -/
theorem discardCount_pos_iff {timediff interval : ℚ} (positive : 0 < interval) :
    0 < discardCount timediff interval ↔ interval / 2 ≤ timediff := by
  unfold discardCount
  rw [Nat.floor_pos]
  constructor
  · intro rounded
    have half : 1 / 2 ≤ timediff / interval := by linarith
    rw [le_div_iff₀ positive] at half
    linarith
  · intro long
    have half : 1 / 2 ≤ timediff / interval := by
      rw [le_div_iff₀ positive]
      linarith
    linarith

/-- A round takes one off the number. -/
theorem discardCount_sub {timediff interval : ℚ} (positive : 0 < interval) :
    discardCount (timediff - interval) interval = discardCount timediff interval - 1 := by
  unfold discardCount
  rw [← Nat.floor_sub_one, sub_div, div_self positive.ne', sub_add_eq_add_sub]

/-! ### The rounds -/

/-- The history after one round of the loop. -/
def discardStep (h : History) : History := (historyStep h (fun _ => historyUnknown) 0).1

/-- What one round writes: the mark, in each direction that has an array. -/
def discardEntries (h : History) : HistoryStep :=
  ⟨h.hRx.hsData.map fun _ => historyUnknown, h.hTx.hsData.map fun _ => historyUnknown⟩

theorem historyStep_discard (h : History) :
    historyStep h (fun _ => historyUnknown) 0 = (discardStep h, discardEntries h) := by
  refine Prod.ext rfl ?_
  unfold discardEntries
  rw [← historyStoreData_unknown_entry h h.hRx 0, ← historyStoreData_unknown_entry h h.hTx 0]
  rfl

@[simp] theorem discardStep_hDefinition (h : History) :
    (discardStep h).hDefinition = h.hDefinition := rfl

@[simp] theorem discardStep_hIndex (h : History) :
    (discardStep h).hIndex = RingLog.next h.hDefinition.hdSize h.hIndex := rfl

/-- A round marks the slot at the index in the arrays that are allocated, and allocates
none. -/
theorem discardStep_hsData (h : History) (direction : Direction) :
    ((discardStep h).store direction).hsData =
      (h.store direction).hsData.map fun slots =>
        slots.set h.hIndex h.hDefinition.hdType.unknown := by
  unfold discardStep
  rw [historyStep_store]
  unfold historyStoreData
  cases allocated : (h.store direction).hsData with
  | none => simp [allocated]
  | some slots => simp [HistoryType.unknown]

/-- A round finds the same stores allocated as the round before it. -/
theorem discardEntries_discardStep (h : History) :
    discardEntries (discardStep h) = discardEntries h := by
  have rx : (discardStep h).hRx.hsData = _ := discardStep_hsData h .rx
  have tx : (discardStep h).hTx.hsData = _ := discardStep_hsData h .tx
  unfold discardEntries
  rw [rx, tx, Option.map_map, Option.map_map]
  rfl

/-- With more fuel than rounds the loop ends after that many rounds. -/
theorem discardLoop_eq {h : History} (positive : 0 < h.hDefinition.hdInterval) {fuel : Nat}
    {timediff : ℚ} (enough : discardCount timediff h.hDefinition.hdInterval < fuel) :
    discardLoop fuel h timediff =
      some (discardStep^[discardCount timediff h.hDefinition.hdInterval] h,
        List.replicate (discardCount timediff h.hDefinition.hdInterval) (discardEntries h)) := by
  induction fuel generalizing h timediff with
  | zero => omega
  | succ fuel inductionHypothesis =>
    have goesOn : 0 < discardCount timediff h.hDefinition.hdInterval ↔
        h.hDefinition.hdInterval / 2 ≤ timediff := discardCount_pos_iff positive
    have less : discardCount (timediff - h.hDefinition.hdInterval) h.hDefinition.hdInterval =
        discardCount timediff h.hDefinition.hdInterval - 1 := discardCount_sub positive
    unfold discardLoop
    split
    · rename_i long
      have rounds := goesOn.mpr long
      have enoughLater : discardCount (timediff - h.hDefinition.hdInterval)
          (discardStep h).hDefinition.hdInterval < fuel := by
        rw [discardStep_hDefinition, less]
        omega
      have positiveLater : 0 < (discardStep h).hDefinition.hdInterval := positive
      have later := inductionHypothesis positiveLater enoughLater
      rw [discardStep_hDefinition, less, discardEntries_discardStep] at later
      rw [historyStep_discard]
      simp only [later, Option.map_some]
      rw [← Function.iterate_succ_apply, ← List.replicate_succ, Nat.succ_eq_add_one,
        Nat.sub_add_cancel rounds]
    · rename_i short
      have none : discardCount timediff h.hDefinition.hdInterval = 0 := by
        by_contra some
        exact short (goesOn.mp (by omega))
      rw [none]
      rfl

/-! ### All rounds together -/

theorem iterate_discardStep_hIndex (h : History) (count : Nat) :
    (discardStep^[count] h).hIndex = (RingLog.next h.hDefinition.hdSize)^[count] h.hIndex := by
  induction count generalizing h with
  | zero => rfl
  | succ count inductionHypothesis =>
    rw [Function.iterate_succ_apply, inductionHypothesis, discardStep_hDefinition,
      discardStep_hIndex, ← Function.iterate_succ_apply]

/-- The rounds write the mark over successive slots of an allocated array. -/
theorem iterate_discardStep_hsData (h : History) (count : Nat) (direction : Direction) :
    ((discardStep^[count] h).store direction).hsData =
      (h.store direction).hsData.map fun slots =>
        RingLog.fill h.hDefinition.hdSize h.hDefinition.hdType.unknown count h.hIndex slots := by
  induction count generalizing h with
  | zero => exact Option.map_id'.symm
  | succ count inductionHypothesis =>
    rw [Function.iterate_succ_apply, inductionHypothesis, discardStep_hsData, Option.map_map]
    rfl

/-- A gap takes the right number of slots. If `history_update` takes the discard path with a
positive interval, it makes as many history steps as the elapsed time has intervals, rounded
half up, each of which writes the unknown entry to every allocated store; the index moves on by
that number modulo the size; the slots it passes hold the mark of an unknown entry, the others
what they held, and no store is allocated; and the call ends at the given time with the current
totals. -/
theorem historyUpdate_discards (cfg : Config) (a : Attr) (h : History) (ts : Timestamp)
    (sound : h.Sound) (positive : 0 < h.hDefinition.hdInterval)
    (discards : historyExit cfg a h ts = .discard) (count : Nat)
    (rounded : count = ⌊historyTimediff h ts / h.hDefinition.hdInterval + 1 / 2⌋₊) :
    ∃ h', (∀ fuel > count, historyUpdate cfg fuel a h ts =
        some (h', List.replicate count (discardEntries h))) ∧
      h'.hIndex = (h.hIndex + count) % h.hDefinition.hdSize ∧
      h'.hLastUpdate = ts ∧
      ∀ direction, (h'.store direction).hsPrevTotal = a.totals direction ∧
        ((h.store direction).hsData = none → (h'.store direction).hsData = none) ∧
        ∀ slots, (h.store direction).hsData = some slots →
          ∃ slots', (h'.store direction).hsData = some slots' ∧
            slots'.length = slots.length ∧
            (∀ step < count, slots'[(h.hIndex + step) % h.hDefinition.hdSize]? =
              some h.hDefinition.hdType.unknown) ∧
            ∀ slot, (∀ step < count, (h.hIndex + step) % h.hDefinition.hdSize ≠ slot) →
              slots'[slot]? = slots[slot]? := by
  refine ⟨((discardStep^[count] h).updatePrevTotal a).updateTs ts, fun fuel enough => ?_, ?_, rfl,
    fun direction => ⟨?_, fun unallocated => ?_, fun slots allocated => ?_⟩⟩
  · unfold historyUpdate
    rw [discards, rounded]
    rw [rounded] at enough
    exact congrArg (Option.map _) (discardLoop_eq positive enough)
  · rw [updateTs_hIndex, updatePrevTotal_hIndex, iterate_discardStep_hIndex,
      RingLog.iterate_next sound.inside]
  · rw [updateTs_store, updatePrevTotal_hsPrevTotal]
  · rw [updateTs_store, updatePrevTotal_hsData, iterate_discardStep_hsData, unallocated]
    rfl
  · rw [updateTs_store, updatePrevTotal_hsData, iterate_discardStep_hsData, allocated]
    refine ⟨_, rfl, RingLog.length_fill _ _ _ _ _, fun step early => ?_, fun slot spared => ?_⟩
    · exact RingLog.getElem?_fill_of_passed _ sound.inside (sound.full direction slots allocated)
        early
    · exact RingLog.getElem?_fill_of_not_passed sound.inside spared

/-- A configuration that reads every two seconds. -/
def slowReads : Config := confInitPost { readInterval := 2 }

/-- A history of three slots, one interval a second, with an array for one direction. -/
def threeSlots : History :=
  { historyAlloc (confInitPost {}) ⟨"second", 3, .type8, 1⟩ with
    hIndex := 2, hLastUpdate := ⟨5, 0⟩, hRx := ⟨some [7, 8, 9], 40⟩ }

/-- An elapsed time of one and a half intervals passes two slots, across the end of the
ring. -/
theorem historyUpdate_discards_half :
    ∃ h', historyUpdate slowReads 3 (bytesAt 60) threeSlots ⟨6, 500000⟩ =
        some (h', List.replicate 2 ⟨some historyUnknown, none⟩) ∧ h'.hIndex = 1 := by
  have array : ∀ direction slots, (threeSlots.store direction).hsData = some slots →
      slots.length = 3 := by
    intro direction slots allocated
    cases direction
    · obtain rfl := Option.some.inj allocated
      rfl
    · cases allocated
  obtain ⟨h', updated, index, -⟩ := historyUpdate_discards slowReads (bytesAt 60)
    threeSlots ⟨6, 500000⟩ ⟨by decide, array⟩ (by decide +kernel) (by decide +kernel) 2
    (by decide +kernel)
  exact ⟨h', updated 3 (by decide), index⟩

end Bmon
