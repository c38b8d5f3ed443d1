/-
This file shows that the total of a 32-bit counter follows the true count over whole runs.

The abstract side is an odometer: the true count of the reading that was stored last, the true
count of the reading that was processed last, and the true count at the last reset. A run of
the program sees the counts modulo `2 ^ 32`. As long as the true count moves by less than
`2 ^ 32` from one processed reading to the next, `Tracks` holds after every event: the total
is the true count modulo `2 ^ 64`, wherever the 32-bit counter wrapped and whether or not a
rate was calculated on the way.
-/

import Bmon.Attr

namespace Bmon

/-! ### The odometer -/

/-- An event of a run, with the true counts in place of the readings. -/
inductive CountEvent where
  | update (rx tx : Nat) (flags : UpdateFlags) (now : Timestamp)
  | notify (ts : Timestamp)
  | reset
  deriving DecidableEq, Repr

/-- What the program sees of an event: a 32-bit counter shows its count modulo `2 ^ 32`. -/
def CountEvent.observe : CountEvent → AttrEvent
  | .update rx tx flags now =>
    .update (UInt64.ofNat (rx % 2 ^ 32)) (UInt64.ofNat (tx % 2 ^ 32)) flags now
  | .notify ts => .notify ts
  | .reset => .reset

/-- The true counts of one direction: of the reading stored last, of the reading processed
last, and of the reading processed last before the most recent reset. -/
structure Odometer where
  pending : Nat
  count : Nat
  base : Nat
  deriving DecidableEq, Repr

/-- Nothing has been read yet. -/
def Odometer.start : Odometer := ⟨0, 0, 0⟩

/-- The true count an update carries for a direction. -/
def countOf (rx tx : Nat) : Direction → Nat
  | .rx => rx
  | .tx => tx

/-- One event seen from one direction. -/
def Odometer.step (direction : Direction) (o : Odometer) : CountEvent → Odometer
  | .update rx tx flags _ =>
    if flags.touches direction then { o with pending := countOf rx tx direction } else o
  | .notify _ => { o with count := o.pending }
  | .reset => { o with base := o.count }

/-- A run of events seen from one direction. -/
def Odometer.run (direction : Direction) (o : Odometer) (events : List CountEvent) : Odometer :=
  events.foldl (Odometer.step direction) o

/-- The true count never falls from one processed reading to the next, and moves by less than
one turn of a 32-bit counter. -/
def Odometer.Steady (direction : Direction) : Odometer → List CountEvent → Prop
  | _, [] => True
  | o, event :: events =>
    (match event with
      | .notify _ => o.count ≤ o.pending ∧ o.pending < o.count + 2 ^ 32
      | _ => True) ∧ Odometer.Steady direction (o.step direction event) events

/-! ### The rate of a counter tracks its odometer -/

/-- A rate shows what its odometer says: the readings modulo `2 ^ 32`, the totals modulo
`2 ^ 64`. -/
structure Tracks (rate : Rate) (o : Odometer) : Prop where
  current : rate.rCurrent.toNat = o.pending % 2 ^ 32
  prev : rate.rPrev.toNat = o.count % 2 ^ 32
  total : rate.rTotal.toNat = o.count % 2 ^ 64
  reset : rate.rReset.toNat = o.base % 2 ^ 64
  base_le : o.base ≤ o.count

theorem tracks_start : Tracks Rate.zero Odometer.start :=
  ⟨rfl, rfl, rfl, rfl, le_rfl⟩

/-- Storing a reading only moves the pending count. -/
theorem Tracks.store {rate : Rate} {o : Odometer} (tracks : Tracks rate o) (count : Nat) :
    Tracks { rate with rCurrent := UInt64.ofNat (count % 2 ^ 32) }
      { o with pending := count } where
  current := by
    rw [UInt64.toNat_ofNat', Nat.mod_eq_of_lt]
    exact lt_trans (Nat.mod_lt _ (by decide)) (by decide)
  prev := tracks.prev
  total := tracks.total
  reset := tracks.reset
  base_le := tracks.base_le

/-- Processing a reading adds the difference of the true counts. -/
theorem Tracks.calc {cfg : Config} {flags : AttrFlags} {rate : Rate} {o : Odometer}
    (noIgnore : flags.ignoreOverflows = false) (no64bit : flags.true64bit = false)
    (tracks : Tracks rate o) (monotone : o.count ≤ o.pending)
    (small : o.pending < o.count + 2 ^ 32) (ts : Timestamp) :
    Tracks (calcCounterRate cfg flags rate ts) { o with count := o.pending } where
  current := by
    rw [calcCounterRate_rCurrent]
    exact tracks.current
  prev := by
    rw [calcCounterRate_rPrev]
    exact tracks.current
  total := by
    have delta := counterDelta_toNat flags rate o.count o.pending noIgnore no64bit tracks.prev
      tracks.current monotone small
    rw [calcCounterRate_rTotal, UInt64.toNat_add, delta, tracks.total]
    simp only
    omega
  reset := by
    rw [calcCounterRate_rReset]
    exact tracks.reset
  base_le := le_trans tracks.base_le monotone

/-- Resetting moves the base to the current count. -/
theorem Tracks.resetCounter {rate : Rate} {o : Odometer} (tracks : Tracks rate o) :
    Tracks { rate with rReset := rate.rTotal } { o with base := o.count } where
  current := tracks.current
  prev := tracks.prev
  total := tracks.total
  reset := tracks.total
  base_le := le_rfl

/-- What `rate_get_total` shows of a tracked rate: the count since the last reset. -/
theorem Tracks.rateGetTotal {rate : Rate} {o : Odometer} (tracks : Tracks rate o) :
    (rateGetTotal rate).toNat = (o.count - o.base) % 2 ^ 64 := by
  have ordered := tracks.base_le
  rw [Bmon.rateGetTotal, UInt64.toNat_sub, tracks.total, tracks.reset]
  omega

/-- One event keeps the rate of a direction on its odometer. -/
theorem Tracks.step {cfg : Config} {fuel : Nat} {a a' : Attr} {direction : Direction}
    {o : Odometer} {event : CountEvent} {events : List CountEvent}
    (counter : a.aDef.adType = .counter)
    (noIgnore : a.aFlags.ignoreOverflows = false) (no64bit : a.aFlags.true64bit = false)
    (tracks : Tracks (a.rate direction) o) (steady : o.Steady direction (event :: events))
    (returned : attrStep cfg fuel a event.observe = some a') :
    Tracks (a'.rate direction) (o.step direction event) := by
  cases event with
  | update rx tx flags now =>
    obtain rfl := Option.some.inj returned
    rw [attrStore_rate]
    by_cases touched : flags.touches direction
    · rw [if_pos touched, Odometer.step, if_pos touched]
      cases direction with
      | rx => exact tracks.store rx
      | tx => exact tracks.store tx
    · rw [if_neg touched, Odometer.step, if_neg touched]
      exact tracks
  | notify ts =>
    obtain ⟨⟨monotone, small⟩, -⟩ := steady
    obtain ⟨-, -, sameRate⟩ := attrNotifyUpdate_fields returned
    rw [sameRate, attrCalcRates_rate cfg a ts counter]
    exact tracks.calc noIgnore no64bit monotone small ts
  | reset =>
    obtain rfl := Option.some.inj returned
    rw [attrResetCounter_rate a counter]
    exact tracks.resetCounter

/-- A run keeps the rate of a direction on its odometer. -/
theorem Tracks.run {cfg : Config} {fuel : Nat} {a a' : Attr} {direction : Direction}
    {o : Odometer} {events : List CountEvent} (counter : a.aDef.adType = .counter)
    (noIgnore : a.aFlags.ignoreOverflows = false) (no64bit : a.aFlags.true64bit = false)
    (tracks : Tracks (a.rate direction) o) (steady : o.Steady direction events)
    (returned : attrRun cfg fuel a (events.map CountEvent.observe) = some a') :
    Tracks (a'.rate direction) (o.run direction events) := by
  induction events generalizing a o with
  | nil =>
    obtain rfl := Option.some.inj returned
    exact tracks
  | cons event events inductionHypothesis =>
    obtain ⟨next, stepped, rest⟩ := Option.bind_eq_some_iff.mp returned
    obtain ⟨sameDef, sameIgnore, same64bit⟩ := attrStep_fields stepped
    exact inductionHypothesis (by rw [sameDef, counter]) (by rw [sameIgnore, noIgnore])
      (by rw [same64bit, no64bit])
      (tracks.step counter noIgnore no64bit steady stepped) steady.2 rest

/-- The total of a counter follows the true count. Take a new attribute of counter type without
the bits for ignored or 64-bit overflows, and any run of stored readings, notifications and
resets in which the true count of a direction moves by less than `2 ^ 32` from one processed
reading to the next. Then the total of that direction is the true count of the last reading
processed, modulo `2 ^ 64`, and `rate_get_total` shows the count since the last reset. The run
returns whenever the intervals of the histories are positive. -/
theorem attrRun_total (cfg : Config) (a : Attr)
    (counter : a.aDef.adType = .counter) (noIgnore : a.aFlags.ignoreOverflows = false)
    (no64bit : a.aFlags.true64bit = false) (fresh : ∀ direction, a.rate direction = Rate.zero)
    (events : List CountEvent) :
    ((∀ definition ∈ a.aHistoryList.map History.hDefinition, 0 < definition.hdInterval) →
      ∃ fuel a', attrRun cfg fuel a (events.map CountEvent.observe) = some a') ∧
    ∀ fuel a', attrRun cfg fuel a (events.map CountEvent.observe) = some a' →
      ∀ direction, Odometer.start.Steady direction events →
        (a'.rate direction).rTotal.toNat =
            (Odometer.start.run direction events).count % 2 ^ 64 ∧
          (rateGetTotal (a'.rate direction)).toNat =
            ((Odometer.start.run direction events).count -
              (Odometer.start.run direction events).base) % 2 ^ 64 := by
  refine ⟨fun positive => attrRun_returns cfg a positive _,
    fun fuel a' returned direction steady => ?_⟩
  have started : Tracks (a.rate direction) Odometer.start := by
    rw [fresh direction]
    exact tracks_start
  have tracks := started.run counter noIgnore no64bit steady returned
  exact ⟨tracks.total, tracks.rateGetTotal⟩

/-- A counter that wraps once after a reset: it is read at the last value before the wrap, and
then four further on. -/
def wrappedRun : List CountEvent :=
  [.update 4294967295 0 { rx := true } ⟨1, 0⟩, .notify ⟨1, 0⟩, .reset,
    .update 4294967299 0 { rx := true } ⟨2, 0⟩, .notify ⟨2, 0⟩]

theorem attrRun_total_wrapped :
    ∃ fuel a', attrRun (confInitPost {}) fuel (attrAlloc bytesDef)
        (wrappedRun.map CountEvent.observe) = some a' ∧
      (a'.rate .rx).rTotal.toNat = 4294967299 ∧ (rateGetTotal (a'.rate .rx)).toNat = 4 := by
  obtain ⟨returns, totals⟩ := attrRun_total (confInitPost {}) (attrAlloc bytesDef) rfl rfl rfl
    (fun direction => by cases direction <;> rfl) wrappedRun
  obtain ⟨fuel, a', returned⟩ := returns fun definition member => absurd member List.not_mem_nil
  have steady : Odometer.start.Steady .rx wrappedRun :=
    ⟨trivial, by decide, trivial, trivial, by decide, trivial⟩
  obtain ⟨total, sinceReset⟩ := totals fuel a' returned .rx steady
  exact ⟨fuel, a', returned, total.trans (by decide), sinceReset.trans (by decide)⟩

end Bmon
