/-
This file shows what the overflow correction of `calc_counter_rate` makes of readings of any
size. The correction takes every reading below the one before for the overflow of a counter of
fixed width, so the total runs ahead of the readings by a surplus for each fall.

Two results follow. A total never runs backwards exactly as long as no reading falls by more
than the width of the counter. And a total follows a 64-bit counter across its wrap exactly if
the definition of the attribute says that the counter has 64 bits: the flag of the update that
says so is not looked at.
-/

import Bmon.AttrLookup
import Mathlib.Data.List.Chain

namespace Bmon

/-! ### The surplus of a fall -/

/-- How far the total runs ahead of the readings when a reading is processed. -/
def overflowSurplus (flags : AttrFlags) (prev current : UInt64) : UInt64 :=
  if current < prev then
    if flags.ignoreOverflows then prev
    else if flags.true64bit then 0
    else 0x100000000
  else 0

/-- The increment is the difference of the readings and the surplus. -/
theorem counterDelta_eq_surplus (flags : AttrFlags) (rate : Rate) :
    counterDelta flags rate =
      rate.rCurrent - rate.rPrev + overflowSurplus flags rate.rPrev rate.rCurrent := by
  have prevBound := rate.rPrev.toNat_lt
  have currentBound := rate.rCurrent.toNat_lt
  unfold counterDelta overflowSurplus
  split_ifs <;> apply UInt64.toNat_inj.mp <;>
    simp only [UInt64.toNat_add, UInt64.toNat_sub, UInt64.reduceToNat] <;> omega

/-- A surplus appears exactly when a reading falls, unless the definition of the attribute says
that the counter has 64 bits. -/
theorem overflowSurplus_eq_zero_iff (flags : AttrFlags) (prev current : UInt64) :
    overflowSurplus flags prev current = 0 ↔
      (flags.true64bit ∧ ¬flags.ignoreOverflows) ∨ prev ≤ current := by
  unfold overflowSurplus
  by_cases falls : current < prev
  · have rises : ¬prev ≤ current := UInt64.not_le.mpr falls
    have positive : prev ≠ 0 := by
      rintro rfl
      exact UInt64.not_lt_zero falls
    rw [if_pos falls]
    by_cases ignore : flags.ignoreOverflows
    · simp [ignore, rises, positive]
    · by_cases wide : flags.true64bit <;> simp [ignore, wide, rises]
  · simp [falls, UInt64.not_lt.mp falls]

/-! ### The readings of a direction -/

/-- What a run has brought for one direction: the reading stored last, the one processed last,
and the sum and the number of all readings. -/
structure Readings where
  stored : UInt64
  processed : UInt64
  sum : Nat
  number : Nat
  deriving DecidableEq, Repr

def Readings.start : Readings := ⟨0, 0, 0, 0⟩

/-- One event seen from one direction. -/
def Readings.step (direction : Direction) (r : Readings) : AttrEvent → Readings
  | .update rx tx flags _ =>
    if flags.touches direction then
      { r with
        stored := readingOf rx tx direction
        sum := r.sum + (readingOf rx tx direction).toNat
        number := r.number + 1 }
    else r
  | .notify _ => { r with processed := r.stored }
  | .reset => r

/-- The readings of a run. -/
def Readings.run (direction : Direction) (events : List AttrEvent) : Readings :=
  events.foldl (Readings.step direction) Readings.start

/-- The total of a rate is the reading processed last, and `2 ^ 32` for each fall so far. A fall
needs a new reading, so there are at most as many falls as readings. -/
structure Accumulates (rate : Rate) (r : Readings) : Prop where
  current : rate.rCurrent = r.stored
  prev : rate.rPrev = r.processed
  stored_le : r.stored.toNat ≤ r.sum
  processed_le : r.processed.toNat ≤ r.sum
  total : ∃ falls, rate.rTotal.toNat = (r.processed.toNat + 2 ^ 32 * falls) % 2 ^ 64 ∧
    falls ≤ r.number ∧ (r.stored ≠ r.processed → falls < r.number)

theorem accumulates_start : Accumulates Rate.zero Readings.start :=
  ⟨rfl, rfl, le_rfl, le_rfl, 0, rfl, le_rfl, fun differ => absurd rfl differ⟩

theorem Accumulates.store {rate : Rate} {r : Readings} (accumulates : Accumulates rate r)
    (reading : UInt64) :
    Accumulates { rate with rCurrent := reading }
      { r with stored := reading, sum := r.sum + reading.toNat, number := r.number + 1 } where
  current := rfl
  prev := accumulates.prev
  stored_le := Nat.le_add_left _ _
  processed_le := le_trans accumulates.processed_le (Nat.le_add_right _ _)
  total := by
    obtain ⟨falls, total, bound, -⟩ := accumulates.total
    exact ⟨falls, total, Nat.le_succ_of_le bound, fun _ => Nat.lt_succ_of_le bound⟩

/-- The falls after one more reading is processed. -/
def fallsAfter (falls : Nat) (r : Readings) : Nat :=
  if r.stored < r.processed then falls + 1 else falls

theorem Accumulates.calc_total (cfg : Config) {flags : AttrFlags} {rate : Rate} {r : Readings}
    (noIgnore : flags.ignoreOverflows = false) (no64bit : flags.true64bit = false)
    (accumulates : Accumulates rate r) (ts : Timestamp) {falls : Nat}
    (total : rate.rTotal.toNat = (r.processed.toNat + 2 ^ 32 * falls) % 2 ^ 64) :
    (calcCounterRate cfg flags rate ts).rTotal.toNat =
      (r.stored.toNat + 2 ^ 32 * fallsAfter falls r) % 2 ^ 64 := by
  have storedBound := r.stored.toNat_lt
  have processedBound := r.processed.toNat_lt
  rw [calcCounterRate_rTotal, counterDelta_eq_surplus, accumulates.current, accumulates.prev]
  unfold overflowSurplus fallsAfter
  simp only [noIgnore, no64bit, Bool.false_eq_true, if_false]
  split_ifs <;> simp only [UInt64.toNat_add, UInt64.toNat_sub, UInt64.reduceToNat, total] <;> omega

theorem Accumulates.calc {cfg : Config} {flags : AttrFlags} {rate : Rate} {r : Readings}
    (noIgnore : flags.ignoreOverflows = false) (no64bit : flags.true64bit = false)
    (accumulates : Accumulates rate r) (ts : Timestamp) :
    Accumulates (calcCounterRate cfg flags rate ts) { r with processed := r.stored } where
  current := by
    rw [calcCounterRate_rCurrent]
    exact accumulates.current
  prev := by
    rw [calcCounterRate_rPrev]
    exact accumulates.current
  stored_le := accumulates.stored_le
  processed_le := accumulates.stored_le
  total := by
    obtain ⟨falls, total, bound, fewer⟩ := accumulates.total
    refine ⟨fallsAfter falls r, accumulates.calc_total cfg noIgnore no64bit ts total, ?_,
      fun differ => absurd rfl differ⟩
    unfold fallsAfter
    split
    · rename_i falling
      exact fewer (UInt64.ne_of_lt falling)
    · exact bound

/-- As long as all readings and all corrections fit, a notification moves the total backwards
exactly if the reading has fallen by more than `2 ^ 32`. -/
theorem Accumulates.calc_le_iff {cfg : Config} {flags : AttrFlags} {rate : Rate} {r : Readings}
    (noIgnore : flags.ignoreOverflows = false) (no64bit : flags.true64bit = false)
    (accumulates : Accumulates rate r) (ts : Timestamp)
    (bounded : r.sum + 2 ^ 32 * r.number < 2 ^ 64) :
    rate.rTotal ≤ (calcCounterRate cfg flags rate ts).rTotal ↔
      r.processed.toNat ≤ r.stored.toNat + 2 ^ 32 := by
  obtain ⟨falls, total, bound, fewer⟩ := accumulates.total
  have after := accumulates.calc_total cfg noIgnore no64bit ts total
  have processed := accumulates.processed_le
  have stored := accumulates.stored_le
  rw [UInt64.le_iff_toNat_le, total, after]
  unfold fallsAfter
  split
  · rename_i falling
    have few := fewer (UInt64.ne_of_lt falling)
    rw [Nat.mod_eq_of_lt (by omega), Nat.mod_eq_of_lt (by omega)]
    omega
  · rename_i rising
    have ordered := UInt64.le_iff_toNat_le.mp (UInt64.not_lt.mp rising)
    rw [Nat.mod_eq_of_lt (by omega), Nat.mod_eq_of_lt (by omega)]
    omega

/-! ### Runs of one attribute -/

/-- The readings so far bound those of any later moment from below. -/
theorem Readings.foldl_step_le (direction : Direction) (events : List AttrEvent) (r : Readings) :
    r.sum ≤ (events.foldl (Readings.step direction) r).sum ∧
      r.number ≤ (events.foldl (Readings.step direction) r).number := by
  induction events generalizing r with
  | nil => exact ⟨le_rfl, le_rfl⟩
  | cons event events inductionHypothesis =>
    have head : r.sum ≤ (r.step direction event).sum ∧
        r.number ≤ (r.step direction event).number := by
      cases event with
      | update rx tx flags now =>
        by_cases touched : flags.touches direction <;> simp [Readings.step, touched]
      | notify ts => exact ⟨le_rfl, le_rfl⟩
      | reset => exact ⟨le_rfl, le_rfl⟩
    have tail := inductionHypothesis (r.step direction event)
    exact ⟨le_trans head.1 tail.1, le_trans head.2 tail.2⟩

theorem Readings.run_append_le (direction : Direction) (first second : List AttrEvent) :
    (Readings.run direction first).sum ≤ (Readings.run direction (first ++ second)).sum ∧
      (Readings.run direction first).number ≤
        (Readings.run direction (first ++ second)).number := by
  rw [Readings.run, Readings.run, List.foldl_append]
  exact Readings.foldl_step_le direction second _

theorem attrRun_append {cfg : Config} {fuel : Nat} {a last : Attr} {first second : List AttrEvent} :
    attrRun cfg fuel a (first ++ second) = some last ↔
      ∃ middle, attrRun cfg fuel a first = some middle ∧
        attrRun cfg fuel middle second = some last := by
  induction first generalizing a with
  | nil => simp [attrRun]
  | cons event first inductionHypothesis =>
    rw [List.cons_append, attrRun, attrRun]
    cases attrStep cfg fuel a event with
    | none => simp
    | some next => exact inductionHypothesis

/-- One event keeps the account of a direction. -/
theorem Accumulates.step {cfg : Config} {fuel : Nat} {a a' : Attr} {direction : Direction}
    {r : Readings} {event : AttrEvent} (counter : a.aDef.adType = .counter)
    (noIgnore : a.aFlags.ignoreOverflows = false) (no64bit : a.aFlags.true64bit = false)
    (accumulates : Accumulates (a.rate direction) r)
    (returned : attrStep cfg fuel a event = some a') :
    Accumulates (a'.rate direction) (r.step direction event) := by
  cases event with
  | update rx tx flags now =>
    obtain rfl := Option.some.inj returned
    rw [attrStore_rate, Readings.step]
    by_cases touched : flags.touches direction
    · rw [if_pos touched, if_pos touched]
      exact accumulates.store _
    · rw [if_neg touched, if_neg touched]
      exact accumulates
  | notify ts =>
    obtain ⟨-, -, sameRate⟩ := attrNotifyUpdate_fields returned
    rw [sameRate, attrCalcRates_rate cfg a ts counter]
    exact accumulates.calc noIgnore no64bit ts
  | reset =>
    obtain rfl := Option.some.inj returned
    rw [attrResetCounter_rate a counter]
    exact ⟨accumulates.current, accumulates.prev, accumulates.stored_le,
      accumulates.processed_le, accumulates.total⟩

/-- A run keeps the account, and everything that says how the counter overflows. -/
theorem Accumulates.run {cfg : Config} {fuel : Nat} {a a' : Attr} {direction : Direction}
    {r : Readings} {events : List AttrEvent} (counter : a.aDef.adType = .counter)
    (noIgnore : a.aFlags.ignoreOverflows = false) (no64bit : a.aFlags.true64bit = false)
    (accumulates : Accumulates (a.rate direction) r)
    (returned : attrRun cfg fuel a events = some a') :
    Accumulates (a'.rate direction) (events.foldl (Readings.step direction) r) ∧
      a'.aDef.adType = .counter ∧ a'.aFlags.ignoreOverflows = false ∧
        a'.aFlags.true64bit = false := by
  induction events generalizing a r with
  | nil =>
    obtain rfl := Option.some.inj returned
    exact ⟨accumulates, counter, noIgnore, no64bit⟩
  | cons event events inductionHypothesis =>
    obtain ⟨next, stepped, rest⟩ := Option.bind_eq_some_iff.mp returned
    obtain ⟨sameDef, sameIgnore, same64bit⟩ := attrStep_fields stepped
    exact inductionHypothesis (by rw [sameDef, counter]) (by rw [sameIgnore, noIgnore])
      (by rw [same64bit, no64bit]) (accumulates.step counter noIgnore no64bit stepped) rest

/-! ### Totals that run backwards -/

/-- No notification of a run leaves the total of a direction below what it was. -/
def TotalRises (cfg : Config) (fuel : Nat) (a : Attr) (direction : Direction)
    (events : List AttrEvent) : Prop :=
  ∀ first ts rest, events = first ++ AttrEvent.notify ts :: rest →
    ∀ before after, attrRun cfg fuel a first = some before →
      attrNotifyUpdate cfg fuel before ts = some after →
      (before.rate direction).rTotal ≤ (after.rate direction).rTotal

/-- No notification of a run processes a reading more than `2 ^ 32` below the one before. -/
def ShallowFalls (direction : Direction) (events : List AttrEvent) : Prop :=
  ∀ first ts rest, events = first ++ AttrEvent.notify ts :: rest →
    (Readings.run direction first).processed.toNat ≤
      (Readings.run direction first).stored.toNat + 2 ^ 32

/-- When totals run backwards. Take a new attribute of counter type without the bits for ignored
or 64-bit overflows, and any run in which all readings of a direction and `2 ^ 32` for each of
them add up to less than `2 ^ 64`. Its total never runs backwards if and only if no reading is
more than `2 ^ 32` below the one processed before it. The run returns whenever the intervals of
the histories are positive. -/
theorem attrRun_total_rises_iff (cfg : Config) (a : Attr)
    (counter : a.aDef.adType = .counter) (noIgnore : a.aFlags.ignoreOverflows = false)
    (no64bit : a.aFlags.true64bit = false) (direction : Direction)
    (fresh : a.rate direction = Rate.zero) (events : List AttrEvent)
    (bounded : (Readings.run direction events).sum +
      2 ^ 32 * (Readings.run direction events).number < 2 ^ 64) :
    ((∀ definition ∈ a.aHistoryList.map History.hDefinition, 0 < definition.hdInterval) →
      ∃ fuel last, attrRun cfg fuel a events = some last) ∧
    ∀ fuel last, attrRun cfg fuel a events = some last →
      (TotalRises cfg fuel a direction events ↔ ShallowFalls direction events) := by
  refine ⟨fun positive => attrRun_returns cfg a positive events, fun fuel last returned => ?_⟩
  have notified : ∀ first ts rest, events = first ++ AttrEvent.notify ts :: rest →
      ∀ before after, attrRun cfg fuel a first = some before →
        attrNotifyUpdate cfg fuel before ts = some after →
        ((before.rate direction).rTotal ≤ (after.rate direction).rTotal ↔
          (Readings.run direction first).processed.toNat ≤
            (Readings.run direction first).stored.toNat + 2 ^ 32) := by
    rintro first ts rest rfl before after ran notifies
    have started : Accumulates (a.rate direction) Readings.start := by
      rw [fresh]
      exact accumulates_start
    obtain ⟨accumulates, isCounter, noIgnoreNow, no64bitNow⟩ :=
      started.run counter noIgnore no64bit ran
    obtain ⟨-, -, sameRate⟩ := attrNotifyUpdate_fields notifies
    have earlier := Readings.run_append_le direction first (.notify ts :: rest)
    rw [sameRate, attrCalcRates_rate cfg before ts isCounter]
    exact accumulates.calc_le_iff noIgnoreNow no64bitNow ts (by
      change (Readings.run direction first).sum + 2 ^ 32 * (Readings.run direction first).number <
        2 ^ 64
      omega)
  constructor
  · intro rises first ts rest split
    obtain ⟨before, ran, rest'⟩ := attrRun_append.mp (split ▸ returned)
    obtain ⟨after, notifies, -⟩ := Option.bind_eq_some_iff.mp rest'
    exact (notified first ts rest split before after ran notifies).mp
      (rises first ts rest split before after ran notifies)
  · intro shallow first ts rest split before after ran notifies
    exact (notified first ts rest split before after ran notifies).mpr
      (shallow first ts rest split)

/-- A counter that once falls by less than `2 ^ 32`, as one of 32 bits does when it wraps. -/
def shallowCount : List AttrEvent :=
  [.update 8589934592 0 { rx := true } ⟨1, 0⟩, .notify ⟨1, 0⟩,
    .update 5000000000 0 { rx := true } ⟨2, 0⟩, .notify ⟨2, 0⟩,
    .update 9000000000 0 { rx := true } ⟨3, 0⟩, .notify ⟨3, 0⟩]

/-- Its total rises all the same. -/
theorem attrRun_total_rises_steady :
    TotalRises (confInitPost {}) 0 (attrAlloc bytesDef) .rx shallowCount := by
  refine ((attrRun_total_rises_iff (confInitPost {}) (attrAlloc bytesDef) rfl rfl rfl .rx rfl
    shallowCount (by decide)).2 0 _ rfl).mpr fun first ts rest split => ?_
  have isTake : first = shallowCount.take first.length := by rw [split, List.take_left]
  have short : first.length < shallowCount.length := by
    rw [split, List.length_append, List.length_cons]
    omega
  have shallow : ∀ k < shallowCount.length,
      (Readings.run .rx (shallowCount.take k)).processed.toNat ≤
        (Readings.run .rx (shallowCount.take k)).stored.toNat + 2 ^ 32 := by decide
  rw [isTake]
  exact shallow _ short

/-- A device that has counted up to `2 ^ 33` is reset, and counts from one again: the total falls
from `8589934592` to `4294967297`. -/
def deviceReset : List AttrEvent :=
  [.update 8589934592 0 { rx := true } ⟨1, 0⟩, .notify ⟨1, 0⟩,
    .update 1 0 { rx := true } ⟨2, 0⟩, .notify ⟨2, 0⟩]

theorem deviceReset_total_backwards :
    (attrRun (confInitPost {}) 0 (attrAlloc bytesDef) deviceReset).isSome ∧
      (Readings.run .rx deviceReset).sum + 2 ^ 32 * (Readings.run .rx deviceReset).number <
        2 ^ 64 ∧
      ¬TotalRises (confInitPost {}) 0 (attrAlloc bytesDef) .rx deviceReset := by
  refine ⟨rfl, by decide, fun rises => ?_⟩
  have ordered := rises (deviceReset.take 3) ⟨2, 0⟩ [] rfl _ _ rfl rfl
  exact absurd ordered (by decide +kernel)

/-! ### Counters of 64 bits -/

/-- The flags with which an input module delivers readings of 64 bits. -/
def updateFlags64 : UpdateFlags := { rx := true, tx := true, is64bit := true }

/-- One reading of a counter of 64 bits: the true counts of both directions, and the times of
the update and of the notification. -/
structure CountSample where
  rx : Nat
  tx : Nat
  now : Timestamp
  ts : Timestamp
  deriving DecidableEq, Repr

/-- The true count of a direction. -/
def CountSample.count (s : CountSample) : Direction → Nat
  | .rx => s.rx
  | .tx => s.tx

/-- What a counter of 64 bits shows of the true count. -/
def CountSample.reading (s : CountSample) (direction : Direction) : UInt64 :=
  UInt64.ofNat (s.count direction)

/-- The tables after each of a list of readings. -/
def feedRun (cfg : Config) (attrDefs : List AttrDef) (historyDefs : List HistoryDef)
    (fuel : Nat) (id : Nat) : AttrTable → List CountSample → Option (List AttrTable)
  | _, [] => some []
  | t, s :: samples =>
    (attrFeed cfg attrDefs historyDefs fuel t id (s.reading .rx) (s.reading .tx) updateFlags64
      s.now s.ts).bind fun next =>
        (feedRun cfg attrDefs historyDefs fuel id next samples).map (next :: ·)

/-- The total of a direction of an attribute. -/
def attrTotal (t : AttrTable) (id : Nat) (direction : Direction) : Option UInt64 :=
  (attrLookup t id).bind fun p => t.attrs[p]?.map fun a => (a.rate direction).rTotal

/-- The total follows the true counts: after each reading it is the first reading and what the
count has moved since then, modulo `2 ^ 64`. -/
def FollowsCount (id : Nat) (direction : Direction) (samples : List CountSample)
    (tables : List AttrTable) : Prop :=
  ∀ first ∈ samples.head?, ∀ (k : Nat) (s : CountSample) (t : AttrTable),
    samples[k]? = some s → tables[k]? = some t →
    ∃ total, attrTotal t id direction = some total ∧
      (total.toNat : Int) =
        ((first.reading direction).toNat + s.count direction - first.count direction) % 2 ^ 64

/-- The first reading and the movement since then make up the reading of now. -/
theorem CountSample.reading_toNat (s first : CountSample) (direction : Direction) :
    ((s.reading direction).toNat : Int) =
      ((first.reading direction).toNat + s.count direction - first.count direction) % 2 ^ 64 := by
  unfold CountSample.reading
  simp only [UInt64.toNat_ofNat']
  omega

/-- The definition of the attribute says that the counter has 64 bits. -/
def AttrFlags.Honours64bit (flags : AttrFlags) : Prop :=
  flags.true64bit ∧ ¬flags.ignoreOverflows

/-- What one reading of 64 bits does to the record it is stored in: its total moves by the
difference of the readings and the surplus. -/
theorem attrFeed_rate {cfg : Config} {attrDefs : List AttrDef} {historyDefs : List HistoryDef}
    {fuel : Nat} {t t' : AttrTable} {id : Nat} {a : Attr} {s : CountSample}
    (storesIn : StoresIn cfg attrDefs historyDefs t id a) (counter : a.aDef.adType = .counter)
    (fed : attrFeed cfg attrDefs historyDefs fuel t id (s.reading .rx) (s.reading .tx)
      updateFlags64 s.now s.ts = some t') (direction : Direction) :
    ∃ p a', attrLookup t' id = some p ∧ t'.attrs[p]? = some a' ∧ a'.aDef.adType = .counter ∧
      a'.aFlags.ignoreOverflows = a.aFlags.ignoreOverflows ∧
      a'.aFlags.true64bit = a.aFlags.true64bit ∧
      (a'.rate direction).rPrev = s.reading direction ∧
      (a'.rate direction).rTotal = (a.rate direction).rTotal +
        (s.reading direction - (a.rate direction).rPrev +
          overflowSurplus a.aFlags (a.rate direction).rPrev (s.reading direction)) := by
  obtain ⟨p, a', notified, found, isAttr⟩ := attrFeed_lookup storesIn fed
  obtain ⟨sameDef, sameFlags, sameRate⟩ := attrNotifyUpdate_fields notified
  have storedDef := attrStore_aDef a (s.reading .rx) (s.reading .tx) updateFlags64 s.now
  have storedFlags :=
    attrStore_overflowFlags a (s.reading .rx) (s.reading .tx) updateFlags64 s.now
  have storedRate :=
    attrStore_rate a (s.reading .rx) (s.reading .tx) updateFlags64 s.now direction
  have touched : updateFlags64.touches direction := by cases direction <;> rfl
  have reading : readingOf (s.reading .rx) (s.reading .tx) direction = s.reading direction := by
    cases direction <;> rfl
  rw [if_pos touched, reading] at storedRate
  have rate := sameRate direction
  rw [attrCalcRates_rate _ _ _ (by rw [storedDef, counter]), storedRate] at rate
  refine ⟨p, a', found, isAttr, by rw [sameDef, storedDef, counter],
    by rw [sameFlags, storedFlags.1], by rw [sameFlags, storedFlags.2], ?_, ?_⟩
  · rw [rate, calcCounterRate_rPrev]
  · rw [rate, calcCounterRate_rTotal, counterDelta_eq_surplus]
    simp only [overflowSurplus, storedFlags.1, storedFlags.2]

/-- A statement about two lists side by side, one entry further. -/
theorem forall_getElem?_cons {α β : Type*} {holds : α → β → Prop} {a : α} {b : β} {as : List α}
    {bs : List β} :
    (∀ (k : Nat) x y, (a :: as)[k]? = some x → (b :: bs)[k]? = some y → holds x y) ↔
      holds a b ∧ ∀ (k : Nat) x y, as[k]? = some x → bs[k]? = some y → holds x y := by
  constructor
  · intro all
    exact ⟨all 0 a b rfl rfl, fun k x y left right => all (k + 1) x y left right⟩
  · rintro ⟨first, rest⟩ k x y left right
    cases k with
    | zero =>
      obtain rfl := Option.some.inj left
      obtain rfl := Option.some.inj right
      exact first
    | succ k => exact rest k x y left right

/-- Starting from a record whose total is the reading processed last, the totals stay the
readings exactly if the counter is known to have 64 bits, or no reading falls. -/
theorem feedRun_reading_iff {cfg : Config} {attrDefs : List AttrDef}
    {historyDefs : List HistoryDef} {fuel : Nat} {t : AttrTable} {id : Nat} {a : Attr}
    {samples : List CountSample} {tables : List AttrTable} (direction : Direction)
    (storesIn : StoresIn cfg attrDefs historyDefs t id a) (counter : a.aDef.adType = .counter)
    (even : (a.rate direction).rTotal = (a.rate direction).rPrev)
    (fed : feedRun cfg attrDefs historyDefs fuel id t samples = some tables) :
    (∀ (k : Nat) (s : CountSample) (t : AttrTable), samples[k]? = some s → tables[k]? = some t →
      attrTotal t id direction = some (s.reading direction)) ↔
      a.aFlags.Honours64bit ∨ ((a.rate direction).rPrev ::
        samples.map (CountSample.reading · direction)).IsChain (· ≤ ·) := by
  induction samples generalizing t a tables with
  | nil => simp
  | cons s samples inductionHypothesis =>
    obtain ⟨next, first, rest⟩ := Option.bind_eq_some_iff.mp fed
    obtain ⟨others, fedRest, rfl⟩ := Option.map_eq_some_iff.mp rest
    obtain ⟨p, a', found, isAttr, isCounter, sameIgnore, same64bit, prev, total⟩ :=
      attrFeed_rate storesIn counter first direction
    have sameHonours : a'.aFlags.Honours64bit ↔ a.aFlags.Honours64bit := by
      rw [AttrFlags.Honours64bit, AttrFlags.Honours64bit, sameIgnore, same64bit]
    have moved : (a'.rate direction).rTotal = s.reading direction +
        overflowSurplus a.aFlags (a.rate direction).rPrev (s.reading direction) := by
      rw [total, even, ← UInt64.add_assoc, UInt64.add_comm _ (s.reading direction - _),
        UInt64.sub_add_cancel]
    have now : attrTotal next id direction = some (a'.rate direction).rTotal := by
      rw [attrTotal, found, Option.bind_some, isAttr, Option.map_some]
    have zero_iff := overflowSurplus_eq_zero_iff a.aFlags (a.rate direction).rPrev
      (s.reading direction)
    rw [forall_getElem?_cons, now, moved, List.map_cons, List.isChain_cons_cons]
    by_cases zero :
      overflowSurplus a.aFlags (a.rate direction).rPrev (s.reading direction) = 0
    · rw [zero, UInt64.add_zero] at moved
      have later := inductionHypothesis (Or.inl ⟨p, found, isAttr⟩) isCounter
        (moved.trans prev.symm) fedRest
      rw [prev, sameHonours] at later
      have known : a.aFlags.Honours64bit ∨ _ := zero_iff.mp zero
      rw [zero, UInt64.add_zero, later]
      constructor
      · rintro ⟨-, honours | chain⟩
        · exact Or.inl honours
        · exact known.imp_right fun rises => ⟨rises, chain⟩
      · rintro (honours | ⟨-, chain⟩)
        · exact ⟨rfl, Or.inl honours⟩
        · exact ⟨rfl, Or.inr chain⟩
    · have ahead : s.reading direction +
          overflowSurplus a.aFlags (a.rate direction).rPrev (s.reading direction) ≠
            s.reading direction := fun same => zero (by simpa using same)
      have falls : ¬(a.aFlags.Honours64bit ∨ _) := mt zero_iff.mpr zero
      simp only [Option.some.injEq, ahead, false_and, false_iff]
      exact fun either => falls (either.imp_right And.left)

theorem feedRun_mono {cfg : Config} {attrDefs : List AttrDef} {historyDefs : List HistoryDef}
    {fuel more : Nat} (enough : fuel ≤ more) {t : AttrTable} {id : Nat}
    {samples : List CountSample} {tables : List AttrTable}
    (fed : feedRun cfg attrDefs historyDefs fuel id t samples = some tables) :
    feedRun cfg attrDefs historyDefs more id t samples = some tables := by
  induction samples generalizing t tables with
  | nil => exact fed
  | cons s samples inductionHypothesis =>
    obtain ⟨next, first, rest⟩ := Option.bind_eq_some_iff.mp fed
    obtain ⟨others, fedRest, rfl⟩ := Option.map_eq_some_iff.mp rest
    simp only [feedRun, attrFeed_mono enough first, Option.bind_some,
      inductionHypothesis fedRest, Option.map_some]

theorem feedRun_returns {cfg : Config} {attrDefs : List AttrDef} {historyDefs : List HistoryDef}
    {t : AttrTable} {id : Nat} {a : Attr} (storesIn : StoresIn cfg attrDefs historyDefs t id a)
    (positive : a.PositiveIntervals) (samples : List CountSample) :
    ∃ fuel tables, feedRun cfg attrDefs historyDefs fuel id t samples = some tables := by
  induction samples generalizing t a with
  | nil => exact ⟨0, [], rfl⟩
  | cons s samples inductionHypothesis =>
    obtain ⟨first, next, a', fed, storesInNext, positiveNext⟩ := attrFeed_returns storesIn positive
      (s.reading .rx) (s.reading .tx) updateFlags64 s.now s.ts
    obtain ⟨rest, tables, fedRest⟩ := inductionHypothesis storesInNext positiveNext
    refine ⟨max first rest, next :: tables, ?_⟩
    simp only [feedRun, attrFeed_mono (le_max_left first rest) fed, Option.bind_some,
      feedRun_mono (le_max_right first rest) fedRest, Option.map_some]

/-- When a total follows a counter of 64 bits. Take an attribute of counter type that is not
tracked yet, and any list of readings of 64 bits of a true count, each stored and notified. The
total follows the true count if and only if the definition of the attribute says that the
counter has 64 bits, or no reading falls, that is, the counter never wraps. The flag of the
updates makes no difference. With positive history intervals all readings are processed. -/
theorem feedRun_followsCount_iff (cfg : Config) (attrDefs : List AttrDef)
    (historyDefs : List HistoryDef) (t : AttrTable) (id : Nat) (definition : AttrDef)
    (untracked : attrLookup t id = none)
    (known : attrDefLookupId attrDefs id = some definition)
    (counter : definition.adType = .counter) (samples : List CountSample) :
    ((∀ definition ∈ historyDefs, 0 < definition.hdInterval) →
      ∃ fuel tables, feedRun cfg attrDefs historyDefs fuel id t samples = some tables) ∧
    ∀ fuel tables, feedRun cfg attrDefs historyDefs fuel id t samples = some tables →
      ∀ direction, FollowsCount id direction samples tables ↔
        definition.adFlags.Honours64bit ∨
          (samples.map (CountSample.reading · direction)).IsChain (· ≤ ·) := by
  have storesIn : StoresIn cfg attrDefs historyDefs t id (attrNew cfg historyDefs t definition) :=
    Or.inr ⟨definition, untracked, known, rfl⟩
  obtain ⟨zero, sameDef, sameIgnore, same64bit⟩ := attrNew_fields cfg historyDefs t definition
  refine ⟨fun positive => feedRun_returns storesIn
    (attrNew_positiveIntervals cfg t definition positive) samples,
    fun fuel tables fed direction => ?_⟩
  have readings := feedRun_reading_iff direction storesIn (by rw [sameDef, counter])
    (by rw [zero]; rfl) fed
  have honours : (attrNew cfg historyDefs t definition).aFlags.Honours64bit ↔
      definition.adFlags.Honours64bit := by
    rw [AttrFlags.Honours64bit, AttrFlags.Honours64bit, sameIgnore, same64bit]
  have chain : (((attrNew cfg historyDefs t definition).rate direction).rPrev ::
      samples.map (CountSample.reading · direction)).IsChain (· ≤ ·) ↔
        (samples.map (CountSample.reading · direction)).IsChain (· ≤ ·) := by
    rw [zero]
    cases samples with
    | nil => simp
    | cons s samples => simp [List.isChain_cons_cons, Rate.zero]
  rw [honours, chain] at readings
  rw [← readings]
  constructor
  · intro follows k s next isSample isTable
    obtain ⟨first, isFirst⟩ : ∃ first, first ∈ samples.head? := by
      cases samples with
      | nil => cases isSample
      | cons first samples => exact ⟨first, rfl⟩
    obtain ⟨total, isTotal, value⟩ := follows first isFirst k s next isSample isTable
    rw [← CountSample.reading_toNat s first direction] at value
    have same : total = s.reading direction := UInt64.toNat_inj.mp (Int.ofNat.inj value)
    rw [isTotal, same]
  · intro equal first isFirst k s next isSample isTable
    exact ⟨s.reading direction, equal k s next isSample isTable,
      CountSample.reading_toNat s first direction⟩

/-- A counter that has not wrapped is followed. -/
theorem feedRun_followsCount_rising :
    ∃ tables, feedRun (confInitPost {}) [bytesDef] [] 0 1 AttrTable.empty
        [⟨18446744073709551610, 0, ⟨1, 0⟩, ⟨1, 0⟩⟩, ⟨18446744073709551615, 0, ⟨2, 0⟩, ⟨2, 0⟩⟩] =
          some tables ∧
      FollowsCount 1 .rx
        [⟨18446744073709551610, 0, ⟨1, 0⟩, ⟨1, 0⟩⟩, ⟨18446744073709551615, 0, ⟨2, 0⟩, ⟨2, 0⟩⟩]
        tables :=
  ⟨_, rfl, ((feedRun_followsCount_iff (confInitPost {}) [bytesDef] [] AttrTable.empty 1 bytesDef rfl
    rfl rfl [⟨18446744073709551610, 0, ⟨1, 0⟩, ⟨1, 0⟩⟩,
      ⟨18446744073709551615, 0, ⟨2, 0⟩, ⟨2, 0⟩⟩]).2 0 _ rfl .rx).mpr (Or.inr (by decide))⟩

/-- A counter of 64 bits that moves on by five across its wrap: the total is ahead by `2 ^ 32`
although the updates say that the readings have 64 bits. -/
theorem feedRun_wrapped_ahead :
    ∃ tables, feedRun (confInitPost {}) [bytesDef] [] 0 1 AttrTable.empty
        [⟨18446744073709551615, 0, ⟨1, 0⟩, ⟨1, 0⟩⟩, ⟨18446744073709551620, 0, ⟨2, 0⟩, ⟨2, 0⟩⟩] =
          some tables ∧
      (tables[1]?.bind fun t => attrTotal t 1 .rx) = some 4294967300 ∧
      ¬FollowsCount 1 .rx
        [⟨18446744073709551615, 0, ⟨1, 0⟩, ⟨1, 0⟩⟩, ⟨18446744073709551620, 0, ⟨2, 0⟩, ⟨2, 0⟩⟩]
        tables := by
  refine ⟨_, rfl, by decide +kernel, fun follows => ?_⟩
  obtain ⟨total, isTotal, value⟩ := follows _ rfl 1 _ _ rfl rfl
  obtain rfl : 4294967300 = total :=
    Option.some.inj ((by decide +kernel : _ = some (4294967300 : UInt64)).symm.trans isTotal)
  exact absurd value (by decide)

end Bmon
