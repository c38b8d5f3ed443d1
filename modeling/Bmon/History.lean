/-
This file models `history.c`: the ring arrays a history keeps for its two directions, and
`history_update`, which decides for every read whether the history takes a sample, waits, or
gives a period up as unknown.

Both stores of a history share one write index. One history step stores an entry in each
store that is allocated and then moves the index; an update makes one step, the discard path
makes one for every interval that was missed. The model returns, next to the new record, the
list of the steps a call made, with the entries each of them wrote before they were cast to
the width of a slot.

The discard path is a `while` loop over a rational, and nothing in the source keeps
`hd_interval` away from zero. Its model therefore takes an amount of fuel and yields `none`
when that is used up. `historyUpdate_returns` gives the fuel for every positive interval.
-/

import Bmon.AttrData
import Bmon.Conf
import Bmon.Lib.RingLog
import Mathlib.Algebra.Order.Archimedean.Basic
import Mathlib.Data.List.Induction

namespace Bmon

/-! ### Storing and reading entries -/

/-- The cast to the type of a slot. -/
def HistoryType.cast : HistoryType → UInt64 → UInt64
  | .type8, delta => delta.toUInt8.toUInt64
  | .type16, delta => delta.toUInt16.toUInt64
  | .type32, delta => delta.toUInt32.toUInt64
  | .type64, delta => delta

/-- `(uintN_t) -1`, the value by which `history_data` recognises an unknown entry. -/
def HistoryType.unknown (type : HistoryType) : UInt64 := type.cast historyUnknown

/-- `history_alloc_data`. -/
def historyAllocData (definition : HistoryDef) : List UInt64 :=
  List.replicate definition.hdSize 0

/-- The increment of a total per second of the period it arrived in, as `delta /= diff`
stores it. The quotient is exact here. In the program it is a `float`, which leaves it as it is
where increment and quotient need no more than 24 bits; `HistoryFloat` rounds it. -/
def historySample (delta : UInt64) (diff : ℚ) : UInt64 :=
  if 0 < delta then UInt64.ofNat ⌊(delta.toNat : ℚ) / diff⌋₊ else delta

/-- `history_store_data`, with the entry it wrote, if any. -/
def historyStoreData (h : History) (hs : HistoryStore) (total : UInt64) (diff : ℚ) :
    HistoryStore × Option UInt64 :=
  if hs.hsData = none ∧ total = historyUnknown then
    (hs, none)
  else
    let data := hs.hsData.getD (historyAllocData h.hDefinition)
    let delta :=
      if total = historyUnknown then historyUnknown
      else historySample (total - hs.hsPrevTotal) diff
    let prevTotal := if total = historyUnknown then hs.hsPrevTotal else total
    ({ hsData := some (data.set h.hIndex (h.hDefinition.hdType.cast delta))
       hsPrevTotal := prevTotal }, some delta)

/-- `inc_history_index`. -/
def incHistoryIndex (h : History) : History :=
  { h with hIndex := if h.hIndex < h.hDefinition.hdSize - 1 then h.hIndex + 1 else 0 }

/-- `history_data`, for a slot of the array. -/
def historyData (h : History) (data : List UInt64) (index : Nat) : Option UInt64 :=
  data[index]?.map fun v => if v = h.hDefinition.hdType.unknown then historyUnknown else v

/-- One step backwards of the walk of `fill_table`: `if (--n < 0) n = hd_size - 1`. -/
def prevHistoryIndex (definition : HistoryDef) (n : Nat) : Nat :=
  if n = 0 then definition.hdSize - 1 else n - 1

/-- The slot `fill_table` reaches after `steps` steps backwards from the index. -/
def History.walkBack (h : History) (steps : Nat) : Nat :=
  (prevHistoryIndex h.hDefinition)^[steps] h.hIndex

/-! ### One history step -/

/-- The entries one history step wrote. -/
structure HistoryStep where
  rx : Option UInt64
  tx : Option UInt64
  deriving DecidableEq, Repr

/-- The entry of one direction. -/
def HistoryStep.entry (step : HistoryStep) : Direction → Option UInt64
  | .rx => step.rx
  | .tx => step.tx

/-- One call of `history_store_data` for each direction, then `inc_history_index`. -/
def historyStep (h : History) (totals : Direction → UInt64) (diff : ℚ) :
    History × HistoryStep :=
  let rx := historyStoreData h h.hRx (totals .rx) diff
  let tx := historyStoreData h h.hTx (totals .tx) diff
  (incHistoryIndex { h with hRx := rx.1, hTx := tx.1 }, ⟨rx.2, tx.2⟩)

/-! ### Updating a history -/

/-- The totals `history_update` reads. -/
def Attr.totals (a : Attr) (direction : Direction) : UInt64 := (a.rate direction).rTotal

/-- The assignments behind the label `update_prev_total`. -/
def History.updatePrevTotal (h : History) (a : Attr) : History :=
  { h with
    hRx := { h.hRx with hsPrevTotal := a.aRxRate.rTotal }
    hTx := { h.hTx with hsPrevTotal := a.aTxRate.rTotal } }

/-- The assignment behind the label `update_ts`. -/
def History.updateTs (h : History) (ts : Timestamp) : History :=
  { h with hLastUpdate := ts }

/-- Where the tests of `history_update` lead: to one of its labels, or to the `return` of a
call that comes too early. -/
inductive HistoryExit where
  | updatePrevTotal
  | discard
  | update
  | tooEarly
  deriving DecidableEq, Repr

/-- The first test of `history_update`: no update has been recorded yet. -/
def History.isInitial (h : History) : Prop := h.hLastUpdate.tvSec = 0

instance (h : History) : Decidable h.isInitial := inferInstanceAs (Decidable (_ = _))

/-- The local `timediff` of `history_update`. -/
def historyTimediff (h : History) (ts : Timestamp) : ℚ :=
  if h.isInitial then 0 else timestampDiff h.hLastUpdate ts

/-- The tests of `history_update`, in the order of the source. -/
def historyExit (cfg : Config) (a : Attr) (h : History) (ts : Timestamp) : HistoryExit :=
  if h.isInitial ∧ a.aDef.adType = .counter then .updatePrevTotal
  else if cfg.cfgReadInterval > h.hDefinition.hdInterval then .discard
  else if cfg.cfgReadInterval = h.hDefinition.hdInterval then .update
  else if Extended.ofRat (historyTimediff h ts) > h.hMaxInterval then .discard
  else if historyTimediff h ts < h.hMinInterval then .tooEarly
  else .update

/-- The `while` loop behind the label `discard`. The difference is exact here. In the program it is
a `float`, and an interval that is too small to be taken from it leaves it as it is; `HistoryFloat`
rounds it. -/
def discardLoop : Nat → History → ℚ → Option (History × List HistoryStep)
  | 0, _, _ => none
  | fuel + 1, h, timediff =>
    if timediff ≥ h.hDefinition.hdInterval / 2 then
      let stepped := historyStep h (fun _ => historyUnknown) 0
      (discardLoop fuel stepped.1 (timediff - h.hDefinition.hdInterval)).map fun rest =>
        (rest.1, stepped.2 :: rest.2)
    else
      some (h, [])

/-- `history_update`, with the steps it made. -/
def historyUpdate (cfg : Config) (fuel : Nat) (a : Attr) (h : History) (ts : Timestamp) :
    Option (History × List HistoryStep) :=
  match historyExit cfg a h ts with
  | .updatePrevTotal => some ((h.updatePrevTotal a).updateTs ts, [])
  | .tooEarly => some (h, [])
  | .update =>
    let stepped := historyStep h a.totals (historyTimediff h ts)
    some (stepped.1.updateTs ts, [stepped.2])
  | .discard =>
    (discardLoop fuel h (historyTimediff h ts)).map fun discarded =>
      ((discarded.1.updatePrevTotal a).updateTs ts, discarded.2)

/-- `history_alloc`. -/
def historyAlloc (cfg : Config) (definition : HistoryDef) : History where
  hIndex := 0
  hDefinition := definition
  hLastUpdate := Timestamp.zero
  hMinInterval := definition.hdInterval - cfg.cfgReadInterval / 2
  hMaxInterval := floatDiv definition.hdInterval cfg.cfgHistoryVariance
  hRx := ⟨none, 0⟩
  hTx := ⟨none, 0⟩

/-- `history_attach`: one history for every definition, in the order of the definitions. -/
def historyAttach (cfg : Config) (definitions : List HistoryDef) (a : Attr) : Attr :=
  { a with aHistoryList := a.aHistoryList ++ definitions.map (historyAlloc cfg) }

/-- A run of `history_update` on one history, with all the steps it made. -/
def historyRun (cfg : Config) (fuel : Nat) :
    History → List (Attr × Timestamp) → Option (History × List HistoryStep)
  | h, [] => some (h, [])
  | h, call :: calls =>
    (historyUpdate cfg fuel call.1 h call.2).bind fun updated =>
      (historyRun cfg fuel updated.1 calls).map fun rest => (rest.1, updated.2 ++ rest.2)

/-! ### What one step does to each field -/

section Fields

variable (h : History) (totals : Direction → UInt64) (diff : ℚ)

@[simp] theorem historyStep_hDefinition :
    (historyStep h totals diff).1.hDefinition = h.hDefinition := rfl

@[simp] theorem historyStep_hLastUpdate :
    (historyStep h totals diff).1.hLastUpdate = h.hLastUpdate := rfl

@[simp] theorem historyStep_hIndex :
    (historyStep h totals diff).1.hIndex = RingLog.next h.hDefinition.hdSize h.hIndex := rfl

@[simp] theorem historyStep_store (direction : Direction) :
    (historyStep h totals diff).1.store direction =
      (historyStoreData h (h.store direction) (totals direction) diff).1 := by
  cases direction <;> rfl

@[simp] theorem historyStep_entry (direction : Direction) :
    (historyStep h totals diff).2.entry direction =
      (historyStoreData h (h.store direction) (totals direction) diff).2 := by
  cases direction <;> rfl

variable (a : Attr) (ts : Timestamp) (direction : Direction)

@[simp] theorem updatePrevTotal_hsData :
    ((h.updatePrevTotal a).store direction).hsData = (h.store direction).hsData := by
  cases direction <;> rfl

@[simp] theorem updatePrevTotal_hsPrevTotal :
    ((h.updatePrevTotal a).store direction).hsPrevTotal = a.totals direction := by
  cases direction <;> rfl

@[simp] theorem updateTs_store : (h.updateTs ts).store direction = h.store direction := by
  cases direction <;> rfl

@[simp] theorem updatePrevTotal_hDefinition :
    (h.updatePrevTotal a).hDefinition = h.hDefinition := rfl

@[simp] theorem updatePrevTotal_hIndex : (h.updatePrevTotal a).hIndex = h.hIndex := rfl

@[simp] theorem updateTs_hDefinition : (h.updateTs ts).hDefinition = h.hDefinition := rfl

@[simp] theorem updateTs_hIndex : (h.updateTs ts).hIndex = h.hIndex := rfl

@[simp] theorem updateTs_hLastUpdate : (h.updateTs ts).hLastUpdate = ts := rfl

end Fields

/-- The entry stored for an unknown total is the unknown entry, if there is an array to store
it in. -/
theorem historyStoreData_unknown_entry (h : History) (hs : HistoryStore) (diff : ℚ) :
    (historyStoreData h hs historyUnknown diff).2 =
      hs.hsData.map fun _ => historyUnknown := by
  unfold historyStoreData
  cases hs.hsData <;> simp

/-- Storing a known total records it and writes the sample of its increment. -/
theorem historyStoreData_known (h : History) (hs : HistoryStore) (total : UInt64) (diff : ℚ)
    (known : total ≠ historyUnknown) :
    (historyStoreData h hs total diff).1.hsPrevTotal = total ∧
      (historyStoreData h hs total diff).2 =
        some (historySample (total - hs.hsPrevTotal) diff) := by
  unfold historyStoreData
  simp [known]

/-! ### What one update can do -/

/-- Every call of `history_update` that returns leaves the record alone, or starts it, or
makes one step, or runs the discard loop; in all cases but the first it ends at the given
time. -/
theorem historyUpdate_cases {cfg : Config} {fuel : Nat} {a : Attr} {h : History}
    {ts : Timestamp} {h' : History} {steps : List HistoryStep}
    (returned : historyUpdate cfg fuel a h ts = some (h', steps)) :
    (historyExit cfg a h ts = .tooEarly ∧ h' = h ∧ steps = []) ∨
      (historyExit cfg a h ts = .updatePrevTotal ∧
        h' = (h.updatePrevTotal a).updateTs ts ∧ steps = []) ∨
      (historyExit cfg a h ts = .update ∧
        h' = (historyStep h a.totals (historyTimediff h ts)).1.updateTs ts ∧
        steps = [(historyStep h a.totals (historyTimediff h ts)).2]) ∨
      (historyExit cfg a h ts = .discard ∧ ∃ discarded,
        discardLoop fuel h (historyTimediff h ts) = some (discarded, steps) ∧
        h' = (discarded.updatePrevTotal a).updateTs ts) := by
  unfold historyUpdate at returned
  cases exit : historyExit cfg a h ts <;> simp only [exit] at returned
  case updatePrevTotal =>
    obtain ⟨rfl, rfl⟩ := Prod.mk.inj (Option.some.inj returned)
    exact Or.inr (Or.inl ⟨rfl, rfl, rfl⟩)
  case tooEarly =>
    obtain ⟨rfl, rfl⟩ := Prod.mk.inj (Option.some.inj returned)
    exact Or.inl ⟨rfl, rfl, rfl⟩
  case update =>
    obtain ⟨rfl, rfl⟩ := Prod.mk.inj (Option.some.inj returned)
    exact Or.inr (Or.inr (Or.inl ⟨rfl, rfl, rfl⟩))
  case discard =>
    obtain ⟨⟨discarded, steps'⟩, loop, same⟩ := Option.map_eq_some_iff.mp returned
    obtain ⟨rfl, rfl⟩ := Prod.mk.inj same
    exact Or.inr (Or.inr (Or.inr ⟨rfl, discarded, loop, rfl⟩))

/-- What every single discard step preserves, a whole discard loop preserves. The property
may speak of the steps made so far. -/
theorem discardLoop_invariant (property : History → List HistoryStep → Prop)
    (preserved : ∀ h steps, property h steps →
      property (historyStep h (fun _ => historyUnknown) 0).1
        (steps ++ [(historyStep h (fun _ => historyUnknown) 0).2]))
    {fuel : Nat} {h : History} {timediff : ℚ} (before : List HistoryStep)
    (start : property h before) {h' : History} {steps : List HistoryStep}
    (returned : discardLoop fuel h timediff = some (h', steps)) :
    property h' (before ++ steps) := by
  induction fuel generalizing h timediff before steps with
  | zero => simp [discardLoop] at returned
  | succ fuel inductionHypothesis =>
    unfold discardLoop at returned
    split at returned
    · obtain ⟨⟨last, rest⟩, loop, same⟩ := Option.map_eq_some_iff.mp returned
      obtain ⟨rfl, rfl⟩ := Prod.mk.inj same
      have later := inductionHypothesis _ (preserved h before start) loop
      rwa [List.append_assoc, List.singleton_append] at later
    · obtain ⟨rfl, rfl⟩ := Prod.mk.inj (Option.some.inj returned)
      rwa [List.append_nil]

/-- No call changes the definition of a history. -/
theorem historyUpdate_hDefinition {cfg : Config} {fuel : Nat} {a : Attr} {h : History}
    {ts : Timestamp} {h' : History} {steps : List HistoryStep}
    (returned : historyUpdate cfg fuel a h ts = some (h', steps)) :
    h'.hDefinition = h.hDefinition := by
  rcases historyUpdate_cases returned with
    ⟨-, rfl, -⟩ | ⟨-, rfl, -⟩ | ⟨-, rfl, -⟩ | ⟨-, discarded, loop, rfl⟩
  · rfl
  · rfl
  · rfl
  · have looped : discarded.hDefinition = h.hDefinition :=
      discardLoop_invariant (fun current _ => current.hDefinition = h.hDefinition)
        (fun _ _ same => same) [] rfl loop
    rw [updateTs_hDefinition, updatePrevTotal_hDefinition, looped]

theorem historyRun_hDefinition {cfg : Config} {fuel : Nat} {h : History}
    {calls : List (Attr × Timestamp)} {h' : History} {steps : List HistoryStep}
    (returned : historyRun cfg fuel h calls = some (h', steps)) :
    h'.hDefinition = h.hDefinition := by
  induction calls generalizing h steps with
  | nil =>
    obtain ⟨rfl, rfl⟩ := Prod.mk.inj (Option.some.inj returned)
    rfl
  | cons call calls inductionHypothesis =>
    obtain ⟨⟨next, first⟩, updated, rest⟩ := Option.bind_eq_some_iff.mp returned
    obtain ⟨⟨final, others⟩, later, same⟩ := Option.map_eq_some_iff.mp rest
    obtain ⟨rfl, rfl⟩ := Prod.mk.inj same
    rw [inductionHypothesis later, historyUpdate_hDefinition updated]

/-- A run is a run followed by one more call. -/
theorem historyRun_concat {cfg : Config} {fuel : Nat} {h : History}
    {calls : List (Attr × Timestamp)} {call : Attr × Timestamp} {h' : History}
    {steps : List HistoryStep}
    (returned : historyRun cfg fuel h (calls ++ [call]) = some (h', steps)) :
    ∃ middle earlier last, historyRun cfg fuel h calls = some (middle, earlier) ∧
      historyUpdate cfg fuel call.1 middle call.2 = some (h', last) ∧
      steps = earlier ++ last := by
  induction calls generalizing h steps with
  | nil =>
    simp only [List.nil_append, historyRun, Option.map_some, List.append_nil] at returned
    obtain ⟨⟨h'', last⟩, updated, same⟩ := Option.bind_eq_some_iff.mp returned
    obtain ⟨rfl, rfl⟩ := Prod.mk.inj (Option.some.inj same)
    exact ⟨h, [], last, rfl, updated, rfl⟩
  | cons head calls inductionHypothesis =>
    simp only [List.cons_append, historyRun] at returned
    obtain ⟨⟨next, first⟩, updated, rest⟩ := Option.bind_eq_some_iff.mp returned
    obtain ⟨⟨final, others⟩, later, same⟩ := Option.map_eq_some_iff.mp rest
    obtain ⟨rfl, rfl⟩ := Prod.mk.inj same
    obtain ⟨middle, earlier, last, run, call', rfl⟩ := inductionHypothesis later
    refine ⟨middle, first ++ earlier, last, ?_, call', by rw [List.append_assoc]⟩
    simp [historyRun, updated, run]

/-! ### Termination -/

/-- More fuel never changes what a discard loop returns. -/
theorem discardLoop_mono {fuel more : Nat} (enough : fuel ≤ more) {h : History} {timediff : ℚ}
    {result : History × List HistoryStep} (returned : discardLoop fuel h timediff = some result) :
    discardLoop more h timediff = some result := by
  induction fuel generalizing more h timediff result with
  | zero => simp [discardLoop] at returned
  | succ fuel inductionHypothesis =>
    obtain ⟨more, rfl⟩ : ∃ smaller, more = smaller + 1 := ⟨more - 1, by omega⟩
    unfold discardLoop at returned ⊢
    split
    · rename_i long
      rw [if_pos long] at returned
      obtain ⟨rest, loop, same⟩ := Option.map_eq_some_iff.mp returned
      simp only [inductionHypothesis (Nat.le_of_succ_le_succ enough) loop, Option.map_some, ← same]
    · rename_i short
      rwa [if_neg short] at returned

theorem historyUpdate_mono {cfg : Config} {fuel more : Nat} (enough : fuel ≤ more) {a : Attr}
    {h : History} {ts : Timestamp} {result : History × List HistoryStep}
    (returned : historyUpdate cfg fuel a h ts = some result) :
    historyUpdate cfg more a h ts = some result := by
  unfold historyUpdate at returned ⊢
  cases exit : historyExit cfg a h ts <;> simp only [exit] at returned ⊢ <;> try exact returned
  obtain ⟨discarded, loop, same⟩ := Option.map_eq_some_iff.mp returned
  rw [discardLoop_mono enough loop, Option.map_some, same]

theorem historyRun_mono {cfg : Config} {fuel more : Nat} (enough : fuel ≤ more) {h : History}
    {calls : List (Attr × Timestamp)} {result : History × List HistoryStep}
    (returned : historyRun cfg fuel h calls = some result) :
    historyRun cfg more h calls = some result := by
  induction calls generalizing h result with
  | nil => exact returned
  | cons call calls inductionHypothesis =>
    obtain ⟨updated, first, rest⟩ := Option.bind_eq_some_iff.mp returned
    obtain ⟨last, later, same⟩ := Option.map_eq_some_iff.mp rest
    simp only [historyRun, historyUpdate_mono enough first, Option.bind_some,
      inductionHypothesis later, Option.map_some, same]

/-- With a positive interval the discard loop ends: it takes one interval off in every round. -/
theorem discardLoop_returns {h : History} (positive : 0 < h.hDefinition.hdInterval)
    (timediff : ℚ) (rounds : Nat)
    (enough : timediff < (rounds : ℚ) * h.hDefinition.hdInterval + h.hDefinition.hdInterval / 2) :
    ∃ result, discardLoop (rounds + 1) h timediff = some result := by
  induction rounds generalizing h timediff with
  | zero =>
    simp only [Nat.cast_zero, zero_mul, zero_add] at enough
    exact ⟨(h, []), by simp [discardLoop, not_le.mpr enough]⟩
  | succ rounds inductionHypothesis =>
    rw [discardLoop]
    split
    · have shorter : timediff - h.hDefinition.hdInterval <
          (rounds : ℚ) * h.hDefinition.hdInterval + h.hDefinition.hdInterval / 2 := by
        push_cast at enough
        linarith
      obtain ⟨result, loop⟩ :=
        inductionHypothesis (h := (historyStep h (fun _ => historyUnknown) 0).1) positive
          (timediff - h.hDefinition.hdInterval) shorter
      simp only [loop, Option.map_some]
      exact ⟨_, rfl⟩
    · exact ⟨_, rfl⟩

/-- With a positive interval every call of `history_update` returns. -/
theorem historyUpdate_returns (cfg : Config) (a : Attr) (h : History) (ts : Timestamp)
    (positive : 0 < h.hDefinition.hdInterval) :
    ∃ fuel result, historyUpdate cfg fuel a h ts = some result := by
  obtain ⟨rounds, bound⟩ :=
    exists_nat_gt (historyTimediff h ts / h.hDefinition.hdInterval)
  have below : historyTimediff h ts <
      (rounds : ℚ) * h.hDefinition.hdInterval + h.hDefinition.hdInterval / 2 := by
    have scaled := (div_lt_iff₀ positive).mp bound
    linarith
  obtain ⟨result, loop⟩ := discardLoop_returns positive (historyTimediff h ts) rounds below
  refine ⟨rounds + 1, ?_⟩
  unfold historyUpdate
  cases historyExit cfg a h ts <;> simp [loop]

/-- With a positive interval every run returns. -/
theorem historyRun_returns (cfg : Config) {h : History} (positive : 0 < h.hDefinition.hdInterval)
    (calls : List (Attr × Timestamp)) :
    ∃ fuel result, historyRun cfg fuel h calls = some result := by
  induction calls generalizing h with
  | nil => exact ⟨0, (h, []), rfl⟩
  | cons call calls inductionHypothesis =>
    obtain ⟨first, ⟨next, steps⟩, updated⟩ := historyUpdate_returns cfg call.1 h call.2 positive
    have positiveNext : 0 < next.hDefinition.hdInterval := by
      rwa [historyUpdate_hDefinition updated]
    obtain ⟨rest, last, run⟩ := inductionHypothesis positiveNext
    refine ⟨max first rest, (last.1, steps ++ last.2), ?_⟩
    simp only [historyRun, historyUpdate_mono (le_max_left first rest) updated, Option.bind_some,
      historyRun_mono (le_max_right first rest) run, Option.map_some]

end Bmon
