/-
This file follows `dummy_read` through any number of calls and asks what the generator makes of
its options `rxb`, `txb`, `rxp` and `txp`.

The counters of a device have indices of their own, so devices, groups, units and directions do
not interfere, and every call adds the increments of a device exactly once. But the read adds
the increments of packets to the counters of the unit 0 and those of bytes to the unit 1, while
`link_attrs`, like the enumeration of its indices, has the bytes first. So each attribute is
given the increments of the other.
-/

import Bmon.InputReads

namespace Bmon

/-! ### Calls of the generator -/

/-- What a call of `dummy_read` finds: the definitions of the time, and the store as the rest of
the program has left it. -/
structure DummyRound where
  ctx : ReadContext
  store : Store

/-- Calls of `dummy_read` one after the other. Only the counters and the random numbers are
carried from one call to the next. -/
def dummyReads (conf : DummyConf) (rand : Nat → Nat) (fuel : Nat) :
    (Nat → UInt64) → Nat → List DummyRound → Option (List (Pass DummyState (List GroupTurn)))
  | _, _, [] => some []
  | cnts, rands, round :: rounds =>
    (dummyRead round.ctx conf rand fuel ⟨round.store, cnts, rands⟩).bind fun last =>
      (dummyReads conf rand fuel last.state.cnts last.state.rands rounds).map fun rest =>
        last :: rest

/-- In this call every device of every group is permitted, and none is marked as updated. -/
structure DummyRound.Ready (conf : DummyConf) (round : DummyRound) : Prop where
  wf : round.store.WellFormed
  permitted : ∀ n < conf.numdev, round.store.allows (ifname n) = true
  fresh : ∀ gidx < conf.numgroups, ∀ n < conf.numdev,
    round.store.deviceUpdated gidx n = false

/-- In a call the device was given these readings: its turn ends with the calls that feed its
element with them. -/
def DummyRound.Given (round : DummyRound) (fuel : Nat) (last : Pass DummyState (List GroupTurn))
    (gidx n : Nat) (readings : List Reading) : Prop :=
  ∃ turn calls group, last.output[gidx]? = some turn ∧ turn.devices[n]? = some calls ∧
    last.state.store.groupNamed (gname gidx) = some group ∧
    round.ctx.Fed fuel dummyFlags readings last.state.store group (ifname n) calls

/-- The readings of a device after `k` calls, as the options say. -/
def DummyConf.configured (conf : DummyConf) (k : Nat) : List Reading :=
  [⟨"bytes", UInt64.ofNat k * conf.cRxBInc, UInt64.ofNat k * conf.cTxBInc⟩,
    ⟨"packets", UInt64.ofNat k * conf.cRxPInc, UInt64.ofNat k * conf.cTxPInc⟩]

/-- The readings of a device after `k` calls, as the counters are increased. -/
def DummyConf.generated (conf : DummyConf) (k : Nat) : List Reading :=
  [⟨"bytes", UInt64.ofNat k * conf.cRxPInc, UInt64.ofNat k * conf.cTxPInc⟩,
    ⟨"packets", UInt64.ofNat k * conf.cRxBInc, UInt64.ofNat k * conf.cTxBInc⟩]

section

variable {conf : DummyConf} {rand : Nat → Nat} {fuel : Nat}

/-! ### One call -/

/-- Without random numbers an increment is that of its unit and direction. -/
theorem increment_of_constant (constant : conf.cRandomize = false) (rands rands' : Nat)
    (unit direction : Nat) :
    conf.increment rand rands unit direction = conf.increment rand rands' unit direction := by
  unfold DummyConf.increment
  simp [constant]

/-- Permitted devices that are not marked stand in nobody's way. -/
theorem DummyRound.Ready.free {round : DummyRound} (ready : round.Ready conf) :
    DevicesFree conf round.store := fun gidx isGroup n isDevice _ =>
  ⟨ready.fresh gidx isGroup n isDevice, fun _ n' isDevice' _ =>
    Or.inr (ready.permitted n' isDevice')⟩

/-- One call adds its increment to every counter of a device, and gives the device what its
counters say then. -/
theorem dummyRead_gives {round : DummyRound} (ready : round.Ready conf)
    (constant : conf.cRandomize = false) {cnts : Nat → UInt64} {rands : Nat}
    {last : Pass DummyState (List GroupTurn)}
    (read : dummyRead round.ctx conf rand fuel ⟨round.store, cnts, rands⟩ = some last)
    {gidx n : Nat} (isGroup : gidx < conf.numgroups) (isDevice : n < conf.numdev) :
    round.Given fuel last gidx n (dummyReadings conf gidx n last.state) ∧
      ∀ unit < 2, ∀ direction < 2, last.state.cnts (conf.cnt gidx n unit direction) =
        cnts (conf.cnt gidx n unit direction) + conf.increment rand 0 unit direction := by
  obtain ⟨turn, calls, isTurn, isCalls, ⟨group, named, fed⟩, rands', counts⟩ :=
    (dummyRead_advances_iff ready.wf read).mpr ready.free gidx isGroup n isDevice
      (Or.inr (ready.permitted n isDevice))
  refine ⟨⟨turn, calls, group, isTurn, isCalls, named, fed⟩, fun unit isUnit direction isDir => ?_⟩
  rw [counts unit isUnit direction isDir, increment_of_constant constant rands' 0]

/-! ### All calls -/

/-- After each call of a run the counters have been increased as often as there were calls. -/
theorem dummyReads_counts {rounds : List DummyRound}
    (ready : ∀ round ∈ rounds, round.Ready conf) (constant : conf.cRandomize = false)
    {cnts : Nat → UInt64} {rands : Nat} {passes : List (Pass DummyState (List GroupTurn))}
    (ran : dummyReads conf rand fuel cnts rands rounds = some passes) {k : Nat}
    {round : DummyRound} {last : Pass DummyState (List GroupTurn)}
    (isRound : rounds[k]? = some round) (isLast : passes[k]? = some last) {gidx n : Nat}
    (isGroup : gidx < conf.numgroups) (isDevice : n < conf.numdev) :
    round.Given fuel last gidx n (dummyReadings conf gidx n last.state) ∧
      ∀ unit < 2, ∀ direction < 2, last.state.cnts (conf.cnt gidx n unit direction) =
        cnts (conf.cnt gidx n unit direction) +
          UInt64.ofNat (k + 1) * conf.increment rand 0 unit direction := by
  induction rounds generalizing cnts rands passes k with
  | nil => cases isRound
  | cons first rounds inductionHypothesis =>
    obtain ⟨head, read, rest⟩ := Option.bind_eq_some_iff.mp ran
    obtain ⟨tail, later, rfl⟩ := Option.map_eq_some_iff.mp rest
    have here := fun gidx n (isGroup : gidx < conf.numgroups) (isDevice : n < conf.numdev) =>
      dummyRead_gives (ready first List.mem_cons_self) constant read isGroup isDevice
    cases k with
    | zero =>
      obtain rfl := Option.some.inj isRound
      obtain rfl := Option.some.inj isLast
      obtain ⟨given, counts⟩ := here gidx n isGroup isDevice
      refine ⟨given, fun unit isUnit direction isDirection => ?_⟩
      rw [counts unit isUnit direction isDirection]
      grind
    | succ k =>
      obtain ⟨given, counts⟩ := inductionHypothesis
        (fun other member => ready other (List.mem_cons_of_mem _ member)) later isRound isLast
      refine ⟨given, fun unit isUnit direction isDirection => ?_⟩
      rw [counts unit isUnit direction isDirection,
        (here gidx n isGroup isDevice).2 unit isUnit direction isDirection]
      have next : UInt64.ofNat (k + 1 + 1) = UInt64.ofNat (k + 1) + 1 := UInt64.ofNat_add _ _
      rw [next]
      grind

/-- In every call of a run from zero counters every device is given what the counters have been
increased to. -/
theorem dummyReads_given {rounds : List DummyRound}
    (ready : ∀ round ∈ rounds, round.Ready conf) (constant : conf.cRandomize = false)
    {passes : List (Pass DummyState (List GroupTurn))}
    (ran : dummyReads conf rand fuel (fun _ => 0) 0 rounds = some passes) {k : Nat}
    {round : DummyRound} {last : Pass DummyState (List GroupTurn)}
    (isRound : rounds[k]? = some round) (isLast : passes[k]? = some last) {gidx n : Nat}
    (isGroup : gidx < conf.numgroups) (isDevice : n < conf.numdev) :
    round.Given fuel last gidx n (conf.generated (k + 1)) := by
  obtain ⟨given, counts⟩ := dummyReads_counts ready constant ran isRound isLast isGroup isDevice
  have readings : dummyReadings conf gidx n last.state = conf.generated (k + 1) := by
    unfold dummyReadings dummyLinkAttrs DummyConf.generated
    simp only [List.mapIdx_cons, List.mapIdx_nil]
    rw [counts 0 (by decide) 0 (by decide), counts 0 (by decide) 1 (by decide),
      counts 1 (by decide) 0 (by decide), counts 1 (by decide) 1 (by decide)]
    simp [DummyConf.increment, constant]
  rwa [readings] at given

/-! ### What a device is given is unique -/

/-- The numbers a call of `attr_update` passes. -/
def InputOp.numbers : InputOp → Option (UInt64 × UInt64)
  | .onElement _ (.attrUpdate _ _ _ rx tx _ _) => some (rx, tx)
  | _ => none

theorem filterMap_numbers_feedCalls (ctx : ReadContext) (flags : UpdateFlags)
    (readings : List Reading) (e : ElementPtr) :
    ((ctx.feedCalls fuel flags readings).map (InputOp.onElement e)).filterMap InputOp.numbers =
      readings.map fun reading => (reading.rx, reading.tx) := by
  unfold ReadContext.feedCalls
  rw [List.map_append, List.filterMap_append, List.map_map, List.filterMap_map]
  have updates : InputOp.numbers ∘ InputOp.onElement e ∘ (fun reading : Reading =>
      ElementOp.attrUpdate ctx.attrDefs ctx.historyDefs (ctx.attrid reading.name) reading.rx
        reading.tx flags ctx.now) = some ∘ fun reading => (reading.rx, reading.tx) := rfl
  rw [updates, List.filterMap_eq_map]
  exact List.append_nil _

/-- A device is given one list of numbers in a call. -/
theorem DummyRound.Given.unique {round : DummyRound} {last : Pass DummyState (List GroupTurn)}
    {gidx n : Nat} {first second : List Reading} (left : round.Given fuel last gidx n first)
    (right : round.Given fuel last gidx n second) (same : first.length = second.length) :
    first.map (fun reading => (reading.rx, reading.tx)) =
      second.map fun reading => (reading.rx, reading.tx) := by
  obtain ⟨turn, calls, group, isTurn, isCalls, named, e, tracked, fed⟩ := left
  obtain ⟨turn', calls', group', isTurn', isCalls', named', e', tracked', fed'⟩ := right
  obtain rfl := Option.some.inj (isTurn.symm.trans isTurn')
  obtain rfl := Option.some.inj (isCalls.symm.trans isCalls')
  obtain rfl := Option.some.inj (named.symm.trans named')
  obtain rfl := Option.some.inj (tracked.symm.trans tracked')
  -- both are the end of the calls of the turn, of the same length
  have lengths : ((round.ctx.feedCalls fuel dummyFlags first).map (InputOp.onElement e)).length =
      ((round.ctx.feedCalls fuel dummyFlags second).map (InputOp.onElement e)).length := by
    simp [ReadContext.feedCalls, same]
  have ends := (List.suffix_of_suffix_length_le fed fed' lengths.le).eq_of_length lengths
  have numbers : ((round.ctx.feedCalls fuel dummyFlags first).map
      (InputOp.onElement e)).filterMap InputOp.numbers =
      first.map fun reading => (reading.rx, reading.tx) :=
    filterMap_numbers_feedCalls round.ctx dummyFlags first e
  rw [← numbers, ends, filterMap_numbers_feedCalls]

/-! ### Termination -/

/-- With the attributes defined and positive intervals a read returns, in a state that does not
depend on the fuel. -/
theorem dummyRead_returns_state {ctx : ReadContext} (defined : ctx.Defined)
    (intervals : ctx.PositiveIntervals) (divides : conf.Divides) {st : DummyState}
    (canRead : st.CanRead conf) :
    ∃ enough after, ∀ fuel, enough ≤ fuel → ∃ last,
      dummyRead ctx conf rand fuel st = some last ∧ last.state = after := by
  obtain ⟨enough, after, leaves, -, returns⟩ := Pass.loop_returns (dummyGroup ctx conf rand)
    (DummyState.CanRead conf) (List.range conf.numgroups)
    (fun _ gidx member canRead => dummyGroup_returns defined intervals divides
      (List.mem_range.mp member) canRead) canRead
  refine ⟨enough, after, fun fuel more => ?_⟩
  obtain ⟨outputs, looped⟩ := returns fuel more
  exact ⟨_, looped, rfl⟩

/-- In this call the attributes are defined, and groups and histories are such that it
returns. -/
structure DummyRound.Returns (conf : DummyConf) (round : DummyRound) : Prop where
  defined : round.ctx.Defined
  intervals : round.ctx.PositiveIntervals
  positive : round.store.PositiveIntervals
  groups : round.store.HasGroups conf

theorem dummyReads_returns {rounds : List DummyRound}
    (ready : ∀ round ∈ rounds, round.Ready conf) (constant : conf.cRandomize = false)
    (returns : ∀ round ∈ rounds, round.Returns conf) (cnts : Nat → UInt64) (rands : Nat) :
    ∃ enough, ∀ fuel, enough ≤ fuel →
      (dummyReads conf rand fuel cnts rands rounds).isSome := by
  induction rounds generalizing cnts rands with
  | nil => exact ⟨0, fun fuel _ => rfl⟩
  | cons round rounds inductionHypothesis =>
    have here := returns round List.mem_cons_self
    have divides : conf.Divides := fun random => by
      rw [constant] at random
      cases random
    have canRead : DummyState.CanRead conf ⟨round.store, cnts, rands⟩ :=
      ⟨(ready round List.mem_cons_self).wf, here.positive, here.groups⟩
    obtain ⟨first, after, read⟩ :=
      @dummyRead_returns_state conf rand round.ctx here.defined here.intervals divides _ canRead
    obtain ⟨second, later⟩ := inductionHypothesis
      (fun other member => ready other (List.mem_cons_of_mem _ member))
      (fun other member => returns other (List.mem_cons_of_mem _ member)) after.cnts after.rands
    refine ⟨max first second, fun fuel more => ?_⟩
    obtain ⟨last, isLast, rfl⟩ := read fuel (le_of_max_le_left more)
    obtain ⟨rest, isRest⟩ := Option.isSome_iff_exists.mp (later fuel (le_of_max_le_right more))
    rw [dummyReads, isLast, Option.bind_some, isRest]
    rfl

/-! ### The generator -/

/-- The readings of all calls of a run are those the options say. -/
def GeneratesConfigured (conf : DummyConf) (fuel : Nat) (rounds : List DummyRound)
    (passes : List (Pass DummyState (List GroupTurn))) : Prop :=
  ∀ (k : Nat) (round : DummyRound) (last : Pass DummyState (List GroupTurn)),
    rounds[k]? = some round → passes[k]? = some last →
    ∀ gidx < conf.numgroups, ∀ n < conf.numdev,
      round.Given fuel last gidx n (conf.configured (k + 1))

end

/-- In any number of calls of `dummy_read`, with all devices permitted and none updated already,
every device of every group is given the multiples of the configured increments if and only if
those of bytes and packets are the same in both directions. The calls return where the
attributes are defined. -/
theorem dummyReads_configured_iff (conf : DummyConf) (rand : Nat → Nat) (rounds : List DummyRound)
    (constant : conf.cRandomize = false) (devices : 1 ≤ conf.cNumdev)
    (groups : 1 ≤ conf.cNumgroups) (called : rounds ≠ [])
    (ready : ∀ round ∈ rounds, round.Ready conf) :
    (∀ fuel passes, dummyReads conf rand fuel (fun _ => 0) 0 rounds = some passes →
      (GeneratesConfigured conf fuel rounds passes ↔
        conf.cRxBInc = conf.cRxPInc ∧ conf.cTxBInc = conf.cTxPInc)) ∧
    ((∀ round ∈ rounds, round.Returns conf) → ∃ enough, ∀ fuel, enough ≤ fuel →
      (dummyReads conf rand fuel (fun _ => 0) 0 rounds).isSome) := by
  refine ⟨fun fuel passes ran => ?_, fun returns =>
    dummyReads_returns ready constant returns (fun _ => 0) 0⟩
  have isGroup : 0 < conf.numgroups := by
    unfold DummyConf.numgroups
    omega
  have isDevice : 0 < conf.numdev := by
    unfold DummyConf.numdev
    omega
  constructor
  · intro generates
    -- the first call tells the increments apart
    obtain ⟨round, rest, rfl⟩ := List.exists_cons_of_ne_nil called
    obtain ⟨last, read, later⟩ := Option.bind_eq_some_iff.mp ran
    obtain ⟨tail, -, rfl⟩ := Option.map_eq_some_iff.mp later
    have configured := generates 0 round last rfl rfl 0 isGroup 0 isDevice
    have generated := dummyReads_given ready constant ran (k := 0) rfl rfl isGroup isDevice
    have numbers := configured.unique generated rfl
    have one : UInt64.ofNat (0 + 1) = 1 := rfl
    simp only [DummyConf.configured, DummyConf.generated, List.map_cons, List.map_nil, one,
      UInt64.one_mul, List.cons.injEq, Prod.mk.injEq] at numbers
    exact numbers.1
  · rintro ⟨received, sent⟩ k round last isRound isLast gidx inGroups n inDevices
    have generated := dummyReads_given ready constant ran isRound isLast inGroups inDevices
    unfold DummyConf.generated at generated
    unfold DummyConf.configured
    rwa [received, sent] at generated ⊢

/-- A call on a store with one group and no rules. -/
def plainRound : DummyRound := ⟨procContext, interfaceStore []⟩

/-- Two devices in one group, with the given increments. -/
def twoDevices (bytes packets : UInt64) : DummyConf :=
  { cNumgroups := 1, cNumdev := 2, cRxBInc := bytes, cTxBInc := bytes, cRxPInc := packets,
    cTxPInc := packets }

theorem plainRound_ready (bytes packets : UInt64) :
    plainRound.Ready (twoDevices bytes packets) where
  wf := interfaceStore_wellFormed []
  permitted n _ := allows_interfaceStore (ifname n)
  fresh gidx isGroup n _ := by
    obtain rfl : gidx = 0 := Nat.lt_one_iff.mp isGroup
    rfl

theorem plainRound_returns (bytes packets : UInt64) :
    plainRound.Returns (twoDevices bytes packets) where
  defined := procContext_defined
  intervals := procContext_intervals
  positive := interfaceStore_positive []
  groups gidx isGroup := by
    obtain rfl : gidx = 0 := Nat.lt_one_iff.mp isGroup
    exact Or.inl rfl

/-- With equal increments two calls give what the options say. -/
theorem dummyReads_configured_iff_equal :
    ∃ fuel passes, dummyReads (twoDevices 7 7) (fun _ => 0) fuel (fun _ => 0) 0
        [plainRound, plainRound] = some passes ∧
      GeneratesConfigured (twoDevices 7 7) fuel [plainRound, plainRound] passes := by
  have ready : ∀ round ∈ [plainRound, plainRound], round.Ready (twoDevices 7 7) := by
    simpa using plainRound_ready 7 7
  obtain ⟨configured, returns⟩ := dummyReads_configured_iff (twoDevices 7 7) (fun _ => 0)
    [plainRound, plainRound] rfl (by decide) (by decide) (by simp) ready
  obtain ⟨fuel, enough⟩ := returns (by simpa using plainRound_returns 7 7)
  obtain ⟨passes, ran⟩ := Option.isSome_iff_exists.mp (enough fuel le_rfl)
  exact ⟨fuel, passes, ran, (configured fuel passes ran).mpr ⟨rfl, rfl⟩⟩

/-- With the increments 1000 for bytes and 10 for packets the first call gives a device 10 bytes
and 1000 packets. -/
theorem dummyReads_exchanged :
    ∃ fuel last, dummyReads (twoDevices 1000 10) (fun _ => 0) fuel (fun _ => 0) 0 [plainRound] =
        some [last] ∧
      plainRound.Given fuel last 0 1 [⟨"bytes", 10, 10⟩, ⟨"packets", 1000, 1000⟩] ∧
      ¬ plainRound.Given fuel last 0 1 [⟨"bytes", 1000, 1000⟩, ⟨"packets", 10, 10⟩] := by
  have ready : ∀ round ∈ [plainRound], round.Ready (twoDevices 1000 10) := by
    simpa using plainRound_ready 1000 10
  have returns : ∀ round ∈ [plainRound], round.Returns (twoDevices 1000 10) := by
    simpa using plainRound_returns 1000 10
  obtain ⟨fuel, enough⟩ :=
    @dummyReads_returns (twoDevices 1000 10) (fun _ => 0) _ ready rfl returns (fun _ => 0) 0
  obtain ⟨passes, ran⟩ := Option.isSome_iff_exists.mp (enough fuel le_rfl)
  obtain ⟨last, -, rest⟩ := Option.bind_eq_some_iff.mp ran
  obtain ⟨tail, later, rfl⟩ := Option.map_eq_some_iff.mp rest
  obtain rfl := Option.some.inj later
  have given : plainRound.Given fuel last 0 1 ((twoDevices 1000 10).generated (0 + 1)) :=
    dummyReads_given ready rfl ran rfl rfl (by decide) (by decide)
  refine ⟨fuel, last, ran, given, fun configured => ?_⟩
  exact absurd (configured.unique given rfl) (by decide)

end Bmon
