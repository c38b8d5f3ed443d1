/-
This file models `dummy_read` of `in_dummy.c` and shows which of its devices are advanced.

The module makes up the counters of its devices: each read adds to them, and feeds the device
with the sums. A denied device ends the whole read, with all later devices and groups. A device
that is marked as updated already is left alone. So exactly these two keep a device that is
tracked or permitted from being advanced.
-/

import Bmon.Feed
import Bmon.Lib.Loops

namespace Bmon

/-! ### The source functions -/

/-- The options of the module. -/
structure DummyConf where
  cRxBInc : UInt64 := 1000000000
  cTxBInc : UInt64 := 80000000
  cRxPInc : UInt64 := 1000
  cTxPInc : UInt64 := 800
  cNumdev : Int := 5
  cRandomize : Bool := false
  cMtu : Int := 1540
  cMaxpps : Int := 100000
  cNumgroups : Int := 2

/-- The state that a read changes: the store, `cnts`, and how often `rand` was called. -/
structure DummyState where
  store : Store
  cnts : Nat → UInt64
  rands : Nat

theorem nul_not_mem_toDigits (n : Nat) : nul ∉ Nat.toDigits 10 n := fun member =>
  absurd (Nat.isDigit_of_mem_toDigits (by decide) (by decide) member) (by decide)

/-- `"%02d"`. -/
def twoDigits (n : Nat) : List Char :=
  List.replicate (2 - (Nat.toDigits 10 n).length) '0' ++ Nat.toDigits 10 n

theorem nul_not_mem_twoDigits (n : Nat) : nul ∉ twoDigits n := by
  unfold twoDigits
  rw [List.mem_append, not_or]
  exact ⟨fun member => absurd (List.eq_of_mem_replicate member) (by decide),
    nul_not_mem_toDigits n⟩

/-- `gname`. -/
def gname (gidx : Nat) : CString :=
  if gidx = 0 then ⟨['i', 'n', 't', 'f'], by decide⟩
  else ⟨['g', 'r', 'o', 'u', 'p'] ++ twoDigits gidx, fun member =>
    (List.mem_append.mp member).elim (by decide) (nul_not_mem_twoDigits gidx)⟩

/-- `ifname`. -/
def ifname (n : Nat) : CString :=
  ⟨['d', 'u', 'm', 'm', 'y'] ++ Nat.toDigits 10 n, fun member =>
    (List.mem_append.mp member).elim (by decide) (nul_not_mem_toDigits n)⟩

namespace DummyConf

variable (conf : DummyConf)

/-- The number of devices in each group; the loop makes no pass for a negative one. -/
def numdev : Nat := conf.cNumdev.toNat

/-- The number of groups. -/
def numgroups : Nat := conf.cNumgroups.toNat

/-- `cnt`, as an index into `cnts`. The program computes it as an `int`, which holds it as long as
there are less than `2 ^ 31` counters, four for each device: `cntIndex_eq` compares the two. -/
def cnt (group dev unit direction : Nat) : Nat :=
  group * conf.numdev * 2 * 2 + dev * 2 * 2 + unit * 2 + direction

/-- What is added to a counter, where `rand` is at some point of its sequence. -/
def increment (rand : Nat → Nat) (rands unit direction : Nat) : UInt64 :=
  if conf.cRandomize then
    let pps := UInt64.ofNat ((rand (rands + direction) : Int).tmod conf.cMaxpps).toNat
    if unit = 0 then pps
    else pps * UInt64.ofNat ((rand (rands + 2 + direction) : Int).tmod conf.cMtu).toNat
  else
    match unit, direction with
    | 0, 0 => conf.cRxPInc
    | 0, _ => conf.cTxPInc
    | _, 0 => conf.cRxBInc
    | _, _ => conf.cTxBInc

/-- No division by zero. -/
def Divides : Prop := conf.cRandomize = true → conf.cMaxpps ≠ 0 ∧ conf.cMtu ≠ 0

instance : Decidable conf.Divides := inferInstanceAs (Decidable (_ → _))

end DummyConf

/-- Add to one counter. -/
def DummyState.add (st : DummyState) (index : Nat) (value : UInt64) : DummyState :=
  { st with cnts := fun i => if i = index then st.cnts i + value else st.cnts i }

/-- `UPDATE_FLAG_RX | UPDATE_FLAG_TX | UPDATE_FLAG_64BIT`. -/
def dummyFlags : UpdateFlags := { rx := true, tx := true, is64bit := true }

/-- The names of `link_attrs`, in their order. -/
def dummyLinkAttrs : List String := ["bytes", "packets"]

/-- What the turns of the loop over the devices of a group leave behind: the call that looks up
the group, and the calls for each device. -/
structure GroupTurn where
  lookup : InputOp
  devices : List (List InputOp)

section

variable (ctx : ReadContext) (conf : DummyConf) (rand : Nat → Nat) (fuel : Nat)

/-- Advance the counters of a device. -/
def advance (gidx n : Nat) (st : DummyState) : Option DummyState :=
  if conf.Divides then
    let increment := conf.increment rand st.rands
    let st := st.add (conf.cnt gidx n 0 0) (increment 0 0)
    let st := st.add (conf.cnt gidx n 0 1) (increment 0 1)
    let st := st.add (conf.cnt gidx n 1 0) (increment 1 0)
    let st := st.add (conf.cnt gidx n 1 1) (increment 1 1)
    some { st with rands := if conf.cRandomize then st.rands + 4 else st.rands }
  else
    none

/-- What is passed to `attr_update` for a device. -/
def dummyReadings (gidx n : Nat) (st : DummyState) : List Reading :=
  dummyLinkAttrs.mapIdx fun i name =>
    ⟨name, st.cnts (conf.cnt gidx n i 0), st.cnts (conf.cnt gidx n i 1)⟩

/-- One turn of the loop over the devices of a group, with the calls that are made in it. -/
def dummyDevice (gidx : Nat) (group : GroupPtr) (st : DummyState) (n : Nat) :
    Option (Pass DummyState (List InputOp)) :=
  (ctx.lookUp st.store group (ifname n)).bind fun looked =>
    match looked.element with
    -- return
    | none => some ⟨{ st with store := looked.store }, looked.calls, true⟩
    | some e =>
      if (looked.store.elements e).any fun r => r.eFlags.updated then
        some ⟨{ st with store := looked.store }, looked.calls, false⟩
      else
        (advance conf rand gidx n { st with store := looked.store }).bind fun st =>
          let calls :=
            (ctx.feedCalls fuel dummyFlags (dummyReadings conf gidx n st)).map
              (InputOp.onElement e)
          (Runs.run (InputOp.apply ctx.cfg) st.store calls).map fun σ =>
            ⟨{ st with store := σ }, looked.calls ++ calls, false⟩

/-- One turn of the loop over the groups. Without a group the first `element_lookup` ends the
program. -/
def dummyGroup (st : DummyState) (gidx : Nat) : Option (Pass DummyState GroupTurn) :=
  let looked := groupLookup st.store (gname gidx) true
  let call := InputOp.groupLookup (gname gidx) true
  let st := { st with store := looked.1 }
  match looked.2 with
  | none => if conf.numdev = 0 then some ⟨st, ⟨call, []⟩, false⟩ else none
  | some group =>
    (Pass.loop (dummyDevice ctx conf rand fuel gidx group) st (List.range conf.numdev)).map
      fun devices => ⟨devices.state, ⟨call, devices.output⟩, devices.leaves⟩

/-- `dummy_read`: the state afterwards, and the calls for each group that is reached. -/
def dummyRead (st : DummyState) : Option (Pass DummyState (List GroupTurn)) :=
  Pass.loop (dummyGroup ctx conf rand fuel) st (List.range conf.numgroups)

end

/-! ### Names and counters -/

theorem ifname_injective : Function.Injective ifname := by
  intro n n' equal
  have digits := List.append_cancel_left (congrArg CString.chars equal)
  have number := congrArg (fun digits => Nat.ofDigitChars 10 digits 0) digits
  rw [Nat.ofDigitChars_ten_toDigits, Nat.ofDigitChars_ten_toDigits] at number
  exact number

/-- The zeros in front do not change the number. -/
theorem ofDigitChars_twoDigits (n : Nat) : Nat.ofDigitChars 10 (twoDigits n) 0 = n := by
  unfold twoDigits
  rw [Nat.ofDigitChars_append, Nat.ofDigitChars_replicate_zero, Nat.mul_zero,
    Nat.ofDigitChars_ten_toDigits]

theorem gname_injective : Function.Injective gname := by
  intro gidx gidx' equal
  have chars := congrArg CString.chars equal
  unfold gname at chars
  split_ifs at chars with first second second
  · rw [first, second]
  · cases (List.cons.inj chars).1
  · cases (List.cons.inj chars).1
  · have digits := List.append_cancel_left chars
    have number := congrArg (fun digits => Nat.ofDigitChars 10 digits 0) digits
    rw [ofDigitChars_twoDigits, ofDigitChars_twoDigits] at number
    exact number

/-- Every counter of a device has an index of its own. -/
theorem cnt_injective {conf : DummyConf} {gidx gidx' n n' unit unit' direction direction' : Nat}
    (isDevice : n < conf.numdev) (isDevice' : n' < conf.numdev) (isUnit : unit < 2)
    (isUnit' : unit' < 2) (isDirection : direction < 2) (isDirection' : direction' < 2)
    (equal : conf.cnt gidx n unit direction = conf.cnt gidx' n' unit' direction') :
    gidx = gidx' ∧ n = n' ∧ unit = unit' ∧ direction = direction' := by
  unfold DummyConf.cnt at equal
  obtain ⟨devices, units, directions⟩ : gidx * conf.numdev + n = gidx' * conf.numdev + n' ∧
      unit = unit' ∧ direction = direction' := by omega
  have number : n = n' := by
    have rest := congrArg (· % conf.numdev) devices
    simp only [Nat.mul_add_mod_self_right] at rest
    rwa [Nat.mod_eq_of_lt isDevice, Nat.mod_eq_of_lt isDevice'] at rest
  subst number
  exact ⟨Nat.eq_of_mul_eq_mul_right (Nat.zero_lt_of_lt isDevice) (Nat.add_right_cancel devices),
    rfl, units, directions⟩

theorem cnt_eq_iff (conf : DummyConf) (gidx n unit direction unit' direction' : Nat) :
    conf.cnt gidx n unit direction = conf.cnt gidx n unit' direction' ↔
      unit * 2 + direction = unit' * 2 + direction' := by
  unfold DummyConf.cnt
  omega

section

variable {conf : DummyConf} {rand : Nat → Nat} {gidx n : Nat}

theorem add_cnts (st : DummyState) (index : Nat) (value : UInt64) (i : Nat) :
    (st.add index value).cnts i = if i = index then st.cnts i + value else st.cnts i := rfl

/-- Advancing a device adds to its counters, and to no others. -/
theorem advance_spec (isDevice : n < conf.numdev) {st st' : DummyState}
    (advanced : advance conf rand gidx n st = some st') :
    st'.store = st.store ∧
      (∀ unit < 2, ∀ direction < 2, st'.cnts (conf.cnt gidx n unit direction) =
        st.cnts (conf.cnt gidx n unit direction) +
          conf.increment rand st.rands unit direction) ∧
      ∀ gidx' n', n' < conf.numdev → ¬(gidx' = gidx ∧ n' = n) →
        ∀ unit < 2, ∀ direction < 2, st'.cnts (conf.cnt gidx' n' unit direction) =
          st.cnts (conf.cnt gidx' n' unit direction) := by
  rw [advance] at advanced
  by_cases divides : conf.Divides
  swap
  · rw [if_neg divides] at advanced
    cases advanced
  rw [if_pos divides] at advanced
  obtain rfl := Option.some.inj advanced
  refine ⟨rfl, fun unit isUnit direction isDirection => ?_,
    fun gidx' n' isDevice' apart unit isUnit direction isDirection => ?_⟩
  · simp only [add_cnts, cnt_eq_iff]
    obtain rfl | rfl : unit = 0 ∨ unit = 1 := by omega
    all_goals
      obtain rfl | rfl : direction = 0 ∨ direction = 1 := by omega
      all_goals simp
  · have other : ∀ unit' < 2, ∀ direction' < 2,
        conf.cnt gidx' n' unit direction ≠ conf.cnt gidx n unit' direction' :=
      fun unit' isUnit' direction' isDirection' equal =>
        have same := cnt_injective isDevice' isDevice isUnit isUnit' isDirection isDirection' equal
        apart ⟨same.1, same.2.1⟩
    simp only [add_cnts]
    rw [if_neg (other 1 (by decide) 1 (by decide)), if_neg (other 1 (by decide) 0 (by decide)),
      if_neg (other 0 (by decide) 1 (by decide)), if_neg (other 0 (by decide) 0 (by decide))]

end

/-! ### Devices -/

/-- The element of a device. -/
def Store.device (σ : Store) (gidx n : Nat) : Option ElementPtr :=
  (σ.groupNamed (gname gidx)).bind fun group => σ.tracked group (ifname n)

/-- The device is tracked already, or permitted. -/
def Store.DeviceEligible (σ : Store) (gidx n : Nat) : Prop :=
  (σ.device gidx n).isSome ∨ σ.allows (ifname n) = true

/-- The device has been updated since the flags were reset. -/
def Store.deviceUpdated (σ : Store) (gidx n : Nat) : Bool :=
  (σ.device gidx n).any fun e => (σ.elements e).any fun r => r.eFlags.updated

section

variable {σ : Store} {gidx : Nat} {group : GroupPtr}
variable (named : σ.groupNamed (gname gidx) = some group) (n : Nat)

include named

theorem device_eq : σ.device gidx n = σ.tracked group (ifname n) := by
  rw [Store.device, named, Option.bind_some]

theorem deviceEligible_iff : σ.DeviceEligible gidx n ↔ σ.Eligible group (ifname n) := by
  rw [Store.DeviceEligible, device_eq named, Store.Eligible]

theorem deviceUpdated_eq : σ.deviceUpdated gidx n = σ.updated group (ifname n) := by
  rw [Store.deviceUpdated, device_eq named, Store.updated]

end

/-- A read leaves a device alone. -/
structure Spares (conf : DummyConf) (gidx n : Nat) (st st' : DummyState) : Prop where
  group : ∀ g, st.store.groupNamed (gname gidx) = some g →
    st'.store.groupNamed (gname gidx) = some g
  tracked : ∀ g e, st.store.tracked g (ifname n) = some e →
    st'.store.tracked g (ifname n) = some e
  eligible : st'.store.DeviceEligible gidx n ↔ st.store.DeviceEligible gidx n
  updated : st'.store.deviceUpdated gidx n = st.store.deviceUpdated gidx n
  counts : ∀ unit < 2, ∀ direction < 2, st'.cnts (conf.cnt gidx n unit direction) =
    st.cnts (conf.cnt gidx n unit direction)

namespace Spares

variable {conf : DummyConf} {gidx n : Nat} {st st' st'' : DummyState}

theorem refl (conf : DummyConf) (gidx n : Nat) (st : DummyState) : Spares conf gidx n st st :=
  ⟨fun _ found => found, fun _ _ found => found, Iff.rfl, rfl, fun _ _ _ _ => rfl⟩

theorem trans (first : Spares conf gidx n st st') (second : Spares conf gidx n st' st'') :
    Spares conf gidx n st st'' where
  group g found := second.group g (first.group g found)
  tracked g e found := second.tracked g e (first.tracked g e found)
  eligible := second.eligible.trans first.eligible
  updated := second.updated.trans first.updated
  counts unit isUnit direction isDirection :=
    (second.counts unit isUnit direction isDirection).trans
      (first.counts unit isUnit direction isDirection)

/-- Feeding the element of another device. -/
theorem of_feedsOnly {gidx' n' : Nat} {group : GroupPtr}
    (named : st.store.groupNamed (gname gidx') = some group)
    (feeds : FeedsOnly group (ifname n') st.store st'.store) (apart : ¬(gidx = gidx' ∧ n = n'))
    (counts : ∀ unit < 2, ∀ direction < 2, st'.cnts (conf.cnt gidx n unit direction) =
      st.cnts (conf.cnt gidx n unit direction)) : Spares conf gidx n st st' := by
  have sameGroup := congrFun feeds.groupNamed_eq (gname gidx)
  have others : ∀ g, st.store.groupNamed (gname gidx) = some g →
      ¬(g = group ∧ ifname n = ifname n') := by
    rintro g found ⟨rfl, sameName⟩
    have name := (groupNamed_eq_some found).2
    rw [(groupNamed_eq_some named).2] at name
    exact apart ⟨(gname_injective (Option.some.inj name)).symm, ifname_injective sameName⟩
  refine ⟨fun g found => sameGroup.trans found, fun g e => feeds.tracked_of_some, ?_, ?_, counts⟩
  · cases found : st.store.groupNamed (gname gidx) with
    | none =>
      unfold Store.DeviceEligible Store.device
      rw [sameGroup, found, feeds.allows]
      rfl
    | some g =>
      rw [deviceEligible_iff found, deviceEligible_iff (sameGroup.trans found)]
      unfold Store.Eligible
      rw [feeds.allows, (feeds.other g (ifname n) (others g found)).1]
  · cases found : st.store.groupNamed (gname gidx) with
    | none =>
      unfold Store.deviceUpdated Store.device
      rw [sameGroup, found]
      rfl
    | some g =>
      rw [deviceUpdated_eq found, deviceUpdated_eq (sameGroup.trans found),
        (feeds.other g (ifname n) (others g found)).2]

/-- Looking up a group. -/
theorem of_findsGroup {gidx' : Nat} {group : GroupPtr} {σ : Store}
    (finds : FindsGroup (gname gidx') group st.store σ) (conf : DummyConf) (gidx n : Nat) :
    Spares conf gidx n st { st with store := σ } := by
  have device : σ.device gidx n = st.store.device gidx n := by
    unfold Store.device
    rw [finds.tracked_eq]
    cases found : st.store.groupNamed (gname gidx) with
    | some g => rw [finds.old _ _ found]
    | none =>
      by_cases same : gname gidx = gname gidx'
      · rw [same, finds.named, Option.bind_some, Option.bind_none, ← finds.tracked_eq]
        exact finds.fresh (same ▸ found) _
      · rw [finds.other _ same, found]
  refine ⟨finds.old _, fun g e found => ?_, ?_, ?_, fun _ _ _ _ => rfl⟩
  · rw [finds.tracked_eq]
    exact found
  · unfold Store.DeviceEligible
    rw [device, finds.allows]
  · unfold Store.deviceUpdated
    rw [device, finds.elements]

end Spares

/-- A device has been advanced: its counters were added to, and its element is fed with them. -/
structure Advanced (ctx : ReadContext) (conf : DummyConf) (rand : Nat → Nat) (fuel : Nat)
    (gidx n : Nat) (before after : DummyState) (calls : List InputOp) : Prop where
  fed : ∃ group, after.store.groupNamed (gname gidx) = some group ∧
    ctx.Fed fuel dummyFlags (dummyReadings conf gidx n after) after.store group (ifname n) calls
  counts : ∃ rands, ∀ unit < 2, ∀ direction < 2,
    after.cnts (conf.cnt gidx n unit direction) =
      before.cnts (conf.cnt gidx n unit direction) + conf.increment rand rands unit direction

section

variable {ctx : ReadContext} {conf : DummyConf} {rand : Nat → Nat} {fuel gidx n : Nat}
variable {st st' st'' : DummyState} {calls : List InputOp}

/-- The readings of a device are those of its counters. -/
theorem dummyReadings_congr (counts : ∀ unit < 2, ∀ direction < 2,
    st'.cnts (conf.cnt gidx n unit direction) = st.cnts (conf.cnt gidx n unit direction)) :
    dummyReadings conf gidx n st' = dummyReadings conf gidx n st := by
  unfold dummyReadings dummyLinkAttrs
  simp only [List.mapIdx_cons, List.mapIdx_nil]
  rw [counts 0 (by decide) 0 (by decide), counts 0 (by decide) 1 (by decide),
    counts 1 (by decide) 0 (by decide), counts 1 (by decide) 1 (by decide)]

/-- A device that was advanced stays so while it is left alone. -/
theorem Advanced.spares (advanced : Advanced ctx conf rand fuel gidx n st st' calls)
    (spares : Spares conf gidx n st' st'') : Advanced ctx conf rand fuel gidx n st st'' calls where
  fed := by
    obtain ⟨group, named, e, tracked, fed⟩ := advanced.fed
    rw [dummyReadings_congr spares.counts]
    exact ⟨group, spares.group group named, e, spares.tracked group e tracked, fed⟩
  counts := by
    obtain ⟨rands, counts⟩ := advanced.counts
    refine ⟨rands, fun unit isUnit direction isDirection => ?_⟩
    rw [spares.counts unit isUnit direction isDirection]
    exact counts unit isUnit direction isDirection

/-- Leaving a device alone before does not change whether it was advanced. -/
theorem Advanced.of_spares (spares : Spares conf gidx n st st')
    (advanced : Advanced ctx conf rand fuel gidx n st' st'' calls) :
    Advanced ctx conf rand fuel gidx n st st'' calls where
  fed := advanced.fed
  counts := by
    obtain ⟨rands, counts⟩ := advanced.counts
    refine ⟨rands, fun unit isUnit direction isDirection => ?_⟩
    rw [← spares.counts unit isUnit direction isDirection]
    exact counts unit isUnit direction isDirection

/-- What has become of an eligible device: it was advanced if it was not updated already, and
is not given a lifesign otherwise. -/
structure Handled (ctx : ReadContext) (conf : DummyConf) (rand : Nat → Nat) (fuel : Nat)
    (gidx n : Nat) (before after : DummyState) (calls : List InputOp) : Prop where
  advanced : before.store.deviceUpdated gidx n = false →
    Advanced ctx conf rand fuel gidx n before after calls
  silent : before.store.deviceUpdated gidx n = true →
    ∀ e, InputOp.onElement e .lifesign ∉ calls

/-- Only devices that were not updated already are advanced. -/
theorem Handled.advanced_iff (handled : Handled ctx conf rand fuel gidx n st st' calls) :
    Advanced ctx conf rand fuel gidx n st st' calls ↔
      st.store.deviceUpdated gidx n = false := by
  refine ⟨fun advanced => Bool.eq_false_iff.mpr fun updated => ?_, handled.advanced⟩
  obtain ⟨group, -, fed⟩ := advanced.fed
  obtain ⟨e, member⟩ := fed.lifesign
  exact handled.silent updated e member

theorem Handled.spares (handled : Handled ctx conf rand fuel gidx n st st' calls)
    (spares : Spares conf gidx n st' st'') : Handled ctx conf rand fuel gidx n st st'' calls :=
  ⟨fun fresh => (handled.advanced fresh).spares spares, handled.silent⟩

theorem Handled.of_spares (spares : Spares conf gidx n st st')
    (handled : Handled ctx conf rand fuel gidx n st' st'' calls) :
    Handled ctx conf rand fuel gidx n st st'' calls := by
  refine ⟨fun fresh => (handled.advanced ?_).of_spares spares, fun updated => handled.silent ?_⟩
  · rw [spares.updated, fresh]
  · rw [spares.updated, updated]

end

/-! ### The devices of a group -/

/-- What a turn of the loop over the devices does. -/
structure DeviceTurn (ctx : ReadContext) (conf : DummyConf) (rand : Nat → Nat) (fuel : Nat)
    (gidx : Nat) (group : GroupPtr) (n : Nat) (st : DummyState)
    (pass : Pass DummyState (List InputOp)) : Prop where
  run : Runs.run (InputOp.apply ctx.cfg) st.store pass.output = some pass.state.store
  feeds : FeedsOnly group (ifname n) st.store pass.state.store
  spares : ∀ gidx' n', n' < conf.numdev → ¬(gidx' = gidx ∧ n' = n) →
    Spares conf gidx' n' st pass.state
  leaves : pass.leaves = true ↔ ¬st.store.DeviceEligible gidx n
  handled : st.store.DeviceEligible gidx n →
    Handled ctx conf rand fuel gidx n st pass.state pass.output

section

variable {ctx : ReadContext} {conf : DummyConf} {rand : Nat → Nat} {fuel gidx : Nat}
variable {group : GroupPtr}

theorem dummyDevice_turn {n : Nat} (isDevice : n < conf.numdev) {st : DummyState}
    (wf : st.store.WellFormed) (named : st.store.groupNamed (gname gidx) = some group)
    {pass : Pass DummyState (List InputOp)}
    (passed : dummyDevice ctx conf rand fuel gidx group st n = some pass) :
    DeviceTurn ctx conf rand fuel gidx group n st pass := by
  have isGroup := (groupNamed_eq_some named).1
  obtain ⟨looked, lookedUp, rest⟩ := Option.bind_eq_some_iff.mp passed
  have ranLookUp := lookUp_run lookedUp isGroup
  have eligibleIff := deviceEligible_iff named n
  have updatedEq := deviceUpdated_eq named n
  cases found : looked.element with
  | none =>
    simp only [found] at rest
    obtain rfl := Option.some.inj rest
    obtain ⟨denied, same⟩ := lookUp_none lookedUp found
    rw [← eligibleIff] at denied
    refine ⟨ranLookUp, ?_, fun gidx' n' _ _ => ?_, iff_of_true rfl denied,
      fun eligible => absurd eligible denied⟩
    · rw [same]
      exact .refl wf
    · rw [same]
      exact .refl conf gidx' n' st
  | some e =>
    simp only [found] at rest
    obtain ⟨eligible, feeds, tracked, updated⟩ := lookUp_some lookedUp wf isGroup found
    rw [← eligibleIff] at eligible
    have sameFlag : ((looked.store.elements e).any fun r => r.eFlags.updated) =
        st.store.deviceUpdated gidx n := by
      rw [updatedEq, ← updated, Store.updated, tracked, Option.any_some]
    rw [sameFlag] at rest
    split_ifs at rest with already
    · obtain rfl := Option.some.inj rest
      refine ⟨ranLookUp, feeds, fun gidx' n' _ apart =>
        .of_feedsOnly named feeds apart fun _ _ _ _ => rfl,
        iff_of_false Bool.false_ne_true (not_not_intro eligible), fun _ => ⟨fun fresh => ?_,
        fun _ => lookUp_calls lookedUp⟩⟩
      rw [already] at fresh
      cases fresh
    · obtain ⟨st', advanced, rest⟩ := Option.bind_eq_some_iff.mp rest
      obtain ⟨σ, ran, rfl⟩ := Option.map_eq_some_iff.mp rest
      obtain ⟨sameStore, counts, others⟩ := advance_spec isDevice advanced
      rw [sameStore] at ran
      have feedsMore := feedCalls_feedsOnly feeds.wf tracked ran
      have feedsAll := feeds.trans feedsMore
      refine ⟨Runs.run_append.mpr ⟨_, ranLookUp, ran⟩, feedsAll, fun gidx' n' isDevice' apart =>
        .of_feedsOnly named feedsAll apart (others gidx' n' isDevice' apart),
        iff_of_false Bool.false_ne_true (not_not_intro eligible), fun _ => ⟨fun _ => ?_,
        fun updated => absurd updated already⟩⟩
      refine ⟨⟨group, ?_, e, feedsMore.kept e tracked, List.suffix_append _ _⟩, st.rands, counts⟩
      exact (congrFun feedsAll.groupNamed_eq (gname gidx)).trans named

/-- The group is there, in a store that is well formed. -/
structure DummyState.InGroup (gidx : Nat) (group : GroupPtr) (st : DummyState) : Prop where
  wf : st.store.WellFormed
  named : st.store.groupNamed (gname gidx) = some group

theorem DeviceTurn.inGroup {n : Nat} {st : DummyState} {pass : Pass DummyState (List InputOp)}
    (turn : DeviceTurn ctx conf rand fuel gidx group n st pass) (inGroup : st.InGroup gidx group) :
    pass.state.InGroup gidx group :=
  ⟨turn.feeds.wf, (congrFun turn.feeds.groupNamed_eq (gname gidx)).trans inGroup.named⟩

/-- The turns of the loop over the devices of a group work together. -/
theorem dummyDevice_cooperates (before : DummyState) :
    Pass.Cooperates (dummyDevice ctx conf rand fuel gidx group) (·.InGroup gidx group)
      (fun st n => n < conf.numdev ∧ Spares conf gidx n before st)
      (fun n => ¬before.store.DeviceEligible gidx n)
      (fun st n calls => before.store.DeviceEligible gidx n →
        Handled ctx conf rand fuel gidx n before st calls)
      (fun m n => m ≠ n ∧ m < conf.numdev ∧ n < conf.numdev) where
  step st n pass inGroup ready passed := by
    obtain ⟨isDevice, spares⟩ := ready
    have turn := dummyDevice_turn isDevice inGroup.wf inGroup.named passed
    refine ⟨turn.inGroup inGroup, ?_, fun eligible => ?_⟩
    · rw [turn.leaves, spares.eligible]
    · exact (turn.handled (spares.eligible.mpr eligible)).of_spares spares
  keeps st n pass m inGroup ready passed apart otherReady := by
    obtain ⟨isDevice, -⟩ := ready
    have turn := dummyDevice_turn isDevice inGroup.wf inGroup.named passed
    exact ⟨otherReady.1, otherReady.2.trans
      (turn.spares gidx m otherReady.1 fun same => apart.1 same.2.symm)⟩
  stays st n pass m calls inGroup ready passed apart handled eligible := by
    obtain ⟨isDevice, -⟩ := ready
    have turn := dummyDevice_turn isDevice inGroup.wf inGroup.named passed
    exact (handled eligible).spares (turn.spares gidx m apart.2.1 fun same => apart.1 same.2)

/-- What has become of the devices of a group: they are handled up to the first that is denied. -/
structure Served (ctx : ReadContext) (conf : DummyConf) (rand : Nat → Nat) (fuel gidx : Nat)
    (before after : DummyState) (devices : List (List InputOp)) : Prop where
  reached : ∀ n < conf.numdev, before.store.DeviceEligible gidx n →
    (∀ m < n, before.store.DeviceEligible gidx m) →
    ∃ calls, devices[n]? = some calls ∧ Handled ctx conf rand fuel gidx n before after calls
  missed : ∀ n < conf.numdev, ∀ m < n, ¬before.store.DeviceEligible gidx m → devices[n]? = none

theorem Served.spares {before after later : DummyState} {devices : List (List InputOp)}
    (served : Served ctx conf rand fuel gidx before after devices)
    (spares : ∀ n < conf.numdev, Spares conf gidx n after later) :
    Served ctx conf rand fuel gidx before later devices := by
  refine ⟨fun n isDevice eligible earlier => ?_, served.missed⟩
  obtain ⟨calls, present, handled⟩ := served.reached n isDevice eligible earlier
  exact ⟨calls, present, handled.spares (spares n isDevice)⟩

theorem Served.of_spares {first before after : DummyState} {devices : List (List InputOp)}
    (spares : ∀ n < conf.numdev, Spares conf gidx n first before)
    (served : Served ctx conf rand fuel gidx before after devices) :
    Served ctx conf rand fuel gidx first after devices := by
  refine ⟨fun n isDevice eligible earlier => ?_, fun n isDevice m less denied => ?_⟩
  · obtain ⟨calls, present, handled⟩ := served.reached n isDevice
      ((spares n isDevice).eligible.mpr eligible)
      fun m less => (spares m (less.trans isDevice)).eligible.mpr (earlier m less)
    exact ⟨calls, present, handled.of_spares (spares n isDevice)⟩
  · exact served.missed n isDevice m less
      (mt (spares m (less.trans isDevice)).eligible.mp denied)

/-- What a turn of the loop over the groups does. -/
structure GroupServed (ctx : ReadContext) (conf : DummyConf) (rand : Nat → Nat) (fuel gidx : Nat)
    (st st' : DummyState) (calls : List InputOp) (devices : List (List InputOp)) (leaves : Bool) :
    Prop where
  run : Runs.run (InputOp.apply ctx.cfg) st.store (calls ++ devices.flatten) = some st'.store
  wf : st'.store.WellFormed
  spares : ∀ gidx', gidx' ≠ gidx → ∀ n < conf.numdev, Spares conf gidx' n st st'
  leaves : leaves = true ↔ ∃ n < conf.numdev, ¬st.store.DeviceEligible gidx n
  served : Served ctx conf rand fuel gidx st st' devices

/-- The loop over the devices of a group serves it. -/
theorem dummyDevices_served {st : DummyState} (inGroup : st.InGroup gidx group)
    {last : Pass DummyState (List (List InputOp))}
    (looped : Pass.loop (dummyDevice ctx conf rand fuel gidx group) st (List.range conf.numdev) =
      some last) :
    GroupServed ctx conf rand fuel gidx st last.state [] last.output last.leaves := by
  have turns : ∀ st' : DummyState, ∀ n ∈ List.range conf.numdev, ∀ pass,
      st'.InGroup gidx group → dummyDevice ctx conf rand fuel gidx group st' n = some pass →
      DeviceTurn ctx conf rand fuel gidx group n st' pass := fun _ n member pass inGroup passed =>
    dummyDevice_turn (List.mem_range.mp member) inGroup.wf inGroup.named passed
  obtain ⟨kept, leaves, served⟩ := (dummyDevice_cooperates st).loop_range inGroup
    (fun n isDevice => ⟨isDevice, .refl conf gidx n st⟩) looped
  refine ⟨?_, kept.wf, fun gidx' other n isDevice => ?_, leaves, ?_, ?_⟩
  · rw [List.nil_append, ← List.flatMap_id]
    exact Pass.loop_run DummyState.store id (·.InGroup gidx group)
      (fun st n member pass inGroup passed =>
        have turn := turns st n member pass inGroup passed
        ⟨turn.inGroup inGroup, turn.run⟩) inGroup looped
  · refine (Pass.loop_invariant (fun st' => st'.InGroup gidx group ∧ Spares conf gidx' n st st')
      (fun st' m member pass both passed => ?_) ⟨inGroup, .refl conf gidx' n st⟩ looped).2
    have turn := turns st' m member pass both.1 passed
    exact ⟨turn.inGroup both.1, both.2.trans
      (turn.spares gidx' n isDevice fun same => other same.1)⟩
  · intro n isDevice eligible earlier
    obtain ⟨calls, present, handled⟩ := (served n isDevice).1 fun m less =>
      not_not_intro (earlier m less)
    exact ⟨calls, present, handled eligible⟩
  · exact fun n isDevice m less denied => (served n isDevice).2 m less denied

end

/-! ### The groups -/

section

variable {ctx : ReadContext} {conf : DummyConf} {rand : Nat → Nat} {fuel : Nat}

/-- A turn of the loop over the groups serves the group. -/
theorem dummyGroup_served {gidx : Nat} {st : DummyState} (wf : st.store.WellFormed)
    {pass : Pass DummyState GroupTurn}
    (passed : dummyGroup ctx conf rand fuel st gidx = some pass) :
    GroupServed ctx conf rand fuel gidx st pass.state [pass.output.lookup] pass.output.devices
      pass.leaves := by
  unfold dummyGroup at passed
  cases looked : groupLookup st.store (gname gidx) true with
  | mk σ found =>
    have ranCall : Runs.run (InputOp.apply ctx.cfg) st.store
        [.groupLookup (gname gidx) true] = some σ := by
      rw [Runs.run, List.foldlM_cons, InputOp.apply, looked]
      rfl
    rw [looked] at passed
    cases found with
    | none =>
      simp only at passed
      split_ifs at passed with empty
      obtain rfl := Option.some.inj passed
      obtain rfl := groupLookup_none looked
      refine ⟨?_, wf, fun gidx' _ n _ => .refl conf gidx' n st,
        iff_of_false Bool.false_ne_true ?_, ?_, ?_⟩
      · exact Runs.run_append.mpr ⟨_, ranCall, rfl⟩
      · rintro ⟨n, isDevice, -⟩
        exact Nat.not_lt_zero n (empty ▸ isDevice)
      · exact fun n isDevice => absurd (empty ▸ isDevice) (Nat.not_lt_zero n)
      · exact fun _ _ _ _ _ => rfl
    | some group =>
      obtain ⟨last, looped, rfl⟩ := Option.map_eq_some_iff.mp passed
      have finds := groupLookup_some wf looked
      have spares := Spares.of_findsGroup finds conf
      have inGroup : DummyState.InGroup gidx group { st with store := σ } :=
        ⟨finds.wf, finds.named⟩
      have served := dummyDevices_served inGroup looped
      refine ⟨?_, served.wf, fun gidx' other n isDevice => (spares gidx' n).trans
        (served.spares gidx' other n isDevice), ?_,
        served.served.of_spares fun n _ => spares gidx n⟩
      · exact Runs.run_append.mpr ⟨_, ranCall, served.run⟩
      · rw [served.leaves]
        refine exists_congr fun n => and_congr_right fun _ => not_congr ?_
        exact (spares gidx n).eligible

/-- The turns of the loop over the groups work together. -/
theorem dummyGroup_cooperates (before : DummyState) :
    Pass.Cooperates (dummyGroup ctx conf rand fuel) (·.store.WellFormed)
      (fun st gidx => ∀ n < conf.numdev, Spares conf gidx n before st)
      (fun gidx => ∃ n < conf.numdev, ¬before.store.DeviceEligible gidx n)
      (fun st gidx turn => Served ctx conf rand fuel gidx before st turn.devices)
      (fun m n => m ≠ n ∧ m < conf.numgroups ∧ n < conf.numgroups) where
  step st gidx pass wf ready passed := by
    have served := dummyGroup_served wf passed
    refine ⟨served.wf, ?_, served.served.of_spares ready⟩
    rw [served.leaves]
    exact exists_congr fun n => and_congr_right fun isDevice =>
      not_congr (ready n isDevice).eligible
  keeps st gidx pass other wf ready passed apart otherReady n isDevice :=
    (otherReady n isDevice).trans
      ((dummyGroup_served wf passed).spares other apart.1.symm n isDevice)
  stays st gidx pass other turn wf ready passed apart served :=
    served.spares ((dummyGroup_served wf passed).spares other apart.1)

/-- All calls of a turn of the loop over the groups. -/
def GroupTurn.calls (turn : GroupTurn) : List InputOp := turn.lookup :: turn.devices.flatten

/-- Every device that is tracked or permitted has been advanced in this read. -/
def DummyAdvances (ctx : ReadContext) (conf : DummyConf) (rand : Nat → Nat) (fuel : Nat)
    (before : DummyState) (last : Pass DummyState (List GroupTurn)) : Prop :=
  ∀ gidx < conf.numgroups, ∀ n < conf.numdev, before.store.DeviceEligible gidx n →
    ∃ turn calls, last.output[gidx]? = some turn ∧ turn.devices[n]? = some calls ∧
      Advanced ctx conf rand fuel gidx n before last.state calls

/-- No device that is tracked or permitted has been updated already, and no denied device comes
before one, in its group or in an earlier one. -/
def DevicesFree (conf : DummyConf) (σ : Store) : Prop :=
  ∀ gidx < conf.numgroups, ∀ n < conf.numdev, σ.DeviceEligible gidx n →
    σ.deviceUpdated gidx n = false ∧
      ∀ gidx' n', n' < conf.numdev → (gidx' < gidx ∨ gidx' = gidx ∧ n' < n) →
        σ.DeviceEligible gidx' n'

section

variable {before : DummyState} (wf : before.store.WellFormed)
variable {last : Pass DummyState (List GroupTurn)}
variable (read : dummyRead ctx conf rand fuel before = some last)

include wf read

/-- A read makes the calls in its output, one after the other. -/
theorem dummyRead_run :
    Runs.run (InputOp.apply ctx.cfg) before.store (last.output.flatMap GroupTurn.calls) =
      some last.state.store :=
  Pass.loop_run DummyState.store GroupTurn.calls (·.store.WellFormed)
    (fun _ _ _ _ wf passed =>
      have served := dummyGroup_served wf passed
      ⟨served.wf, served.run⟩) wf read

/-- A read advances every device that is tracked or permitted if and only if none of them was
updated already and the denied ones come last. -/
theorem dummyRead_advances_iff :
    DummyAdvances ctx conf rand fuel before last ↔ DevicesFree conf before.store := by
  obtain ⟨-, -, served⟩ := (dummyGroup_cooperates before).loop_range wf
    (fun gidx _ n _ => .refl conf gidx n before) read
  constructor
  · intro advances gidx isGroup n isDevice eligible
    obtain ⟨turn, calls, isTurn, isCalls, advanced⟩ := advances gidx isGroup n isDevice eligible
    obtain ⟨reached, missed⟩ := served gidx isGroup
    have earlierGroups : ∀ gidx' < gidx, ∀ n' < conf.numdev,
        before.store.DeviceEligible gidx' n' := fun gidx' less n' isDevice' => by
      by_contra denied
      have none := missed gidx' less ⟨n', isDevice', denied⟩
      rw [isTurn] at none
      cases none
    obtain ⟨turn', isTurn', devices⟩ := reached fun gidx' less ⟨n', isDevice', denied⟩ =>
      denied (earlierGroups gidx' less n' isDevice')
    obtain rfl := Option.some.inj (isTurn.symm.trans isTurn')
    have earlierDevices : ∀ n' < n, before.store.DeviceEligible gidx n' := fun n' less => by
      by_contra denied
      have none := devices.missed n isDevice n' less denied
      rw [isCalls] at none
      cases none
    obtain ⟨calls', isCalls', handled⟩ := devices.reached n isDevice eligible earlierDevices
    obtain rfl := Option.some.inj (isCalls.symm.trans isCalls')
    refine ⟨handled.advanced_iff.mp advanced, fun gidx' n' isDevice' earlier => ?_⟩
    obtain less | ⟨rfl, less⟩ := earlier
    · exact earlierGroups gidx' less n' isDevice'
    · exact earlierDevices n' less
  · intro free gidx isGroup n isDevice eligible
    obtain ⟨fresh, earlier⟩ := free gidx isGroup n isDevice eligible
    obtain ⟨turn, isTurn, devices⟩ := (served gidx isGroup).1
      fun gidx' less ⟨n', isDevice', denied⟩ =>
        denied (earlier gidx' n' isDevice' (Or.inl less))
    obtain ⟨calls, isCalls, handled⟩ := devices.reached n isDevice eligible fun n' less =>
      earlier gidx n' (less.trans isDevice) (Or.inr ⟨rfl, less⟩)
    exact ⟨turn, calls, isTurn, isCalls, handled.advanced_iff.mpr fresh⟩

end

end

/-! ### Termination -/

/-- Every group exists or can be created. -/
def Store.HasGroups (conf : DummyConf) (σ : Store) : Prop :=
  ∀ gidx < conf.numgroups, (σ.groupNamed (gname gidx)).isSome ∨
    (groupLookupHdr σ (gname gidx)).isSome

/-- What a read needs to return. -/
structure DummyState.CanRead (conf : DummyConf) (st : DummyState) : Prop where
  wf : st.store.WellFormed
  positive : st.store.PositiveIntervals
  groups : st.store.HasGroups conf

section

variable {ctx : ReadContext} {conf : DummyConf} {rand : Nat → Nat}

theorem HasGroups.of_feedsOnly {g : GroupPtr} {name : CString} {σ σ' : Store}
    (groups : σ.HasGroups conf) (feeds : FeedsOnly g name σ σ') : σ'.HasGroups conf := by
  unfold Store.HasGroups groupLookupHdr
  rw [feeds.groupNamed_eq, feeds.titlesList]
  exact groups

/-- Looking up a group leaves the store so that the read returns. -/
theorem DummyState.CanRead.of_findsGroup {name : CString} {group : GroupPtr} {st : DummyState}
    {σ : Store} (canRead : st.CanRead conf) (finds : FindsGroup name group st.store σ) :
    DummyState.CanRead conf { st with store := σ } := by
  refine ⟨finds.wf, ?_, fun gidx isGroup => ?_⟩
  · unfold Store.PositiveIntervals
    rw [finds.elements]
    exact canRead.positive
  · refine (canRead.groups gidx isGroup).imp (fun present => ?_) fun header => ?_
    · obtain ⟨g, named⟩ := Option.isSome_iff_exists.mp present
      exact Option.isSome_iff_exists.mpr ⟨g, finds.old _ g named⟩
    · unfold groupLookupHdr
      rw [finds.titlesList]
      exact header

/-- The store stays so that the rest of the read returns. -/
theorem DeviceTurn.canRead {fuel gidx n : Nat} {group : GroupPtr} {st : DummyState}
    {pass : Pass DummyState (List InputOp)}
    (turn : DeviceTurn ctx conf rand fuel gidx group n st pass) (canRead : st.CanRead conf)
    (inGroup : st.InGroup gidx group) (positive : pass.state.store.PositiveIntervals) :
    pass.state.CanRead conf ∧ pass.state.InGroup gidx group :=
  ⟨⟨turn.feeds.wf, positive, HasGroups.of_feedsOnly canRead.groups turn.feeds⟩,
    turn.inGroup inGroup⟩

/-- With the attributes defined and positive intervals a turn of the loop over the devices
returns. -/
theorem dummyDevice_returns (defined : ctx.Defined) (intervals : ctx.PositiveIntervals)
    (divides : conf.Divides) {gidx n : Nat}
    {group : GroupPtr} (isDevice : n < conf.numdev) {st : DummyState} (canRead : st.CanRead conf)
    (inGroup : st.InGroup gidx group) :
    ∃ enough after leaves, (DummyState.CanRead conf after ∧ after.InGroup gidx group) ∧
      ∀ fuel, enough ≤ fuel → ∃ output,
        dummyDevice ctx conf rand fuel gidx group st n = some ⟨after, output, leaves⟩ := by
  have turnOf : ∀ {fuel pass}, dummyDevice ctx conf rand fuel gidx group st n = some pass →
      DeviceTurn ctx conf rand fuel gidx group n st pass :=
    fun passed => dummyDevice_turn isDevice inGroup.wf inGroup.named passed
  obtain ⟨looked, lookedUp, positive, feedable⟩ := lookUp_returns defined canRead.wf
    canRead.positive (groupNamed_eq_some inGroup.named).1 (ifname n)
  cases found : looked.element with
  | none =>
    have passed : ∀ fuel, dummyDevice ctx conf rand fuel gidx group st n =
        some ⟨{ st with store := looked.store }, looked.calls, true⟩ := fun fuel => by
      rw [dummyDevice, lookedUp, Option.bind_some, found]
    exact ⟨0, _, _, (turnOf (passed 0)).canRead canRead inGroup positive,
      fun fuel _ => ⟨_, passed fuel⟩⟩
  | some e =>
    cases updated : (looked.store.elements e).any fun r => r.eFlags.updated with
    | true =>
      have passed : ∀ fuel, dummyDevice ctx conf rand fuel gidx group st n =
          some ⟨{ st with store := looked.store }, looked.calls, false⟩ := fun fuel => by
        rw [dummyDevice, lookedUp, Option.bind_some, found]
        simp only [updated, if_true]
      exact ⟨0, _, _, (turnOf (passed 0)).canRead canRead inGroup positive,
        fun fuel _ => ⟨_, passed fuel⟩⟩
    | false =>
      obtain ⟨st', advanced⟩ : ∃ st',
          advance conf rand gidx n { st with store := looked.store } = some st' :=
        ⟨_, if_pos divides⟩
      have sameStore := (advance_spec isDevice advanced).1
      obtain ⟨enough, σ, kept, returns⟩ := feedCalls_returns intervals (feedable e found) dummyFlags
        (dummyReadings conf gidx n st')
      have passed : ∀ fuel, enough ≤ fuel → ∃ output,
          dummyDevice ctx conf rand fuel gidx group st n =
            some ⟨{ st' with store := σ }, output, false⟩ := fun fuel more => by
        rw [dummyDevice, lookedUp, Option.bind_some, found]
        simp only [updated, Bool.false_eq_true, if_false, advanced, Option.bind_some, sameStore,
          returns fuel more, Option.map_some]
        exact ⟨_, rfl⟩
      obtain ⟨output, once⟩ := passed enough le_rfl
      exact ⟨enough, _, _, (turnOf once).canRead canRead inGroup kept.positive, passed⟩

/-- With the attributes defined and positive intervals a turn of the loop over the groups
returns. -/
theorem dummyGroup_returns (defined : ctx.Defined) (intervals : ctx.PositiveIntervals)
    (divides : conf.Divides) {gidx : Nat}
    (isGroup : gidx < conf.numgroups) {st : DummyState} (canRead : st.CanRead conf) :
    ∃ enough after leaves, DummyState.CanRead conf after ∧
      ∀ fuel, enough ≤ fuel → ∃ output,
        dummyGroup ctx conf rand fuel st gidx = some ⟨after, output, leaves⟩ := by
  obtain ⟨group, found⟩ := groupLookup_returns (canRead.groups gidx isGroup)
  have finds := groupLookup_some canRead.wf (Prod.ext rfl found)
  have canReadGroup := canRead.of_findsGroup finds
  obtain ⟨enough, after, leaves, kept, returns⟩ := Pass.loop_returns
    (fun fuel => dummyDevice ctx conf rand fuel gidx group)
    (fun st => st.CanRead conf ∧ st.InGroup gidx group) (List.range conf.numdev)
    (fun st n member both => dummyDevice_returns defined intervals divides
      (List.mem_range.mp member) both.1 both.2) ⟨canReadGroup, finds.wf, finds.named⟩
  refine ⟨enough, after, leaves, kept.1, fun fuel more => ?_⟩
  obtain ⟨outputs, looped⟩ := returns fuel more
  rw [dummyGroup]
  simp only [found, looped, Option.map_some]
  exact ⟨_, rfl⟩

/-- With the attributes defined and positive intervals a read returns. -/
theorem dummyRead_returns (rand : Nat → Nat) (defined : ctx.Defined)
    (intervals : ctx.PositiveIntervals) (divides : conf.Divides)
    {st : DummyState} (canRead : st.CanRead conf) :
    ∃ enough, ∀ fuel, enough ≤ fuel → (dummyRead ctx conf rand fuel st).isSome := by
  obtain ⟨enough, _, _, -, returns⟩ := Pass.loop_returns (dummyGroup ctx conf rand)
    (DummyState.CanRead conf) (List.range conf.numgroups)
    (fun _ gidx member canRead => dummyGroup_returns defined intervals divides
      (List.mem_range.mp member) canRead) canRead
  refine ⟨enough, fun fuel more => ?_⟩
  obtain ⟨_, looped⟩ := returns fuel more
  exact Option.isSome_iff_exists.mpr ⟨_, looped⟩

end

end Bmon
