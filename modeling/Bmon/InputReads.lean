/-
This file puts together what a read of `proc` and of `dummy` does for the interfaces that are
tracked or permitted. Both leave their loop at an interface that is denied, and so both miss
those after it; nothing else keeps `proc` from feeding one.
-/

import Bmon.ProcRead
import Bmon.DummyRead

namespace Bmon

/-- **When denied interfaces do not affect the others.** A `proc_read` of any file with lines of
at most 510 characters feeds every interface that is tracked or permitted if and only if no line
of a denied one comes before, and a `dummy_read` advances every such device if and only if no
denied device comes before and it was not updated already. Both make the calls in their output,
and return where their attributes are defined and the intervals of the histories are positive. -/
theorem reads_feed_iff (ctx : ReadContext) :
    (∀ (grp : GroupPtr) (content : List Char) (σ : Store),
      (∀ line ∈ fileLines content, line.length ≤ 511) → σ.WellFormed → grp ∈ σ.groupList →
      (∀ fuel last, procRead ctx grp fuel content σ = some last →
        Runs.run (InputOp.apply ctx.cfg) σ last.output.flatten = some last.state ∧
        (ProcFeeds ctx grp fuel content σ last ↔ DeniedLast grp content σ)) ∧
      (ctx.Defined → ctx.PositiveIntervals → σ.PositiveIntervals →
        ∃ enough, ∀ fuel, enough ≤ fuel → (procRead ctx grp fuel content σ).isSome)) ∧
    ∀ (conf : DummyConf) (rand : Nat → Nat) (before : DummyState), before.store.WellFormed →
      (∀ fuel last, dummyRead ctx conf rand fuel before = some last →
        Runs.run (InputOp.apply ctx.cfg) before.store (last.output.flatMap GroupTurn.calls) =
          some last.state.store ∧
        (DummyAdvances ctx conf rand fuel before last ↔ DevicesFree conf before.store)) ∧
      (ctx.Defined → ctx.PositiveIntervals → conf.Divides → before.CanRead conf →
        ∃ enough, ∀ fuel, enough ≤ fuel → (dummyRead ctx conf rand fuel before).isSome) := by
  refine ⟨fun grp content σ short wf isGroup => ⟨fun fuel last read => ?_, ?_⟩,
    fun conf rand before wf => ⟨fun fuel last read => ?_, ?_⟩⟩
  · exact ⟨procRead_run wf isGroup read, procRead_feeds_iff wf isGroup read short⟩
  · exact fun defined intervals positive =>
      procRead_returns defined intervals positive wf isGroup content
  · exact ⟨dummyRead_run wf read, dummyRead_advances_iff wf read⟩
  · exact fun defined intervals divides canRead =>
      dummyRead_returns rand defined intervals divides canRead

/-! ### A file with two interfaces -/

/-- Attributes with the names of those of `proc`. -/
def procContext : ReadContext where
  cfg := confInitPost {}
  attrDefs := procLinkAttrs.mapIdx fun i entry => ⟨i + 1, entry.2, entry.2, .counter, {}⟩
  historyDefs := []
  attrid name := procLinkAttrs.findIdx (fun entry => entry.2 = name) + 1
  now := ⟨1, 0⟩

theorem procContext_defined : procContext.Defined := ⟨by decide, by decide⟩

theorem procContext_histories : SoundHistories procContext.historyDefs :=
  ⟨fun _ member => (List.not_mem_nil member).elim, fun _ member => (List.not_mem_nil member).elim⟩

theorem procContext_intervals : procContext.PositiveIntervals := procContext_histories.intervals

/-- A line with sixteen ones. -/
def onesLine (name : List Char) : List Char :=
  name ++ ':' :: (List.replicate 16 [' ', '1']).flatten ++ ['\n']

/-- `eth0`. -/
def eth0 : CString := ⟨['e', 't', 'h', '0'], by decide⟩

/-- `wlan0`. -/
def wlan0 : CString := ⟨['w', 'l', 'a', 'n', '0'], by decide⟩

/-- Two lines of header, then `eth0` and `wlan0`. -/
def twoInterfaces : List Char :=
  ['I', 'n', 't', 'e', 'r', '\n', 'f', 'a', 'c', 'e', '\n'] ++ onesLine eth0.chars ++
    onesLine wlan0.chars

/-- The group of the interfaces, with these rules. -/
def interfaceStore (denied : List Policy) : Store :=
  (groupLookup (Store.start [⟨gname 0, "Interfaces", []⟩] [] [] denied) (gname 0) true).1

theorem interfaceStore_wellFormed (denied : List Policy) : (interfaceStore denied).WellFormed :=
  (wellFormed_start _ _ _ _).groupLookup _ _

theorem interfaceStore_positive (denied : List Policy) :
    (interfaceStore denied).PositiveIntervals := fun e r isElement => by
  cases isElement

theorem interfaceAt_twoInterfaces :
    interfaceAt twoInterfaces 0 = some ⟨eth0, List.replicate 16 1⟩ ∧
      interfaceAt twoInterfaces 1 = some ⟨wlan0, List.replicate 16 1⟩ ∧
      ∀ line ∈ fileLines twoInterfaces, line.length ≤ 511 := by decide +kernel

theorem allows_interfaceStore (name : CString) : (interfaceStore []).allows name = true := rfl

/-- One group of devices in a store, with all counters at zero. -/
def dummyStart (denied : List Policy) : DummyState := ⟨interfaceStore denied, fun _ => 0, 0⟩

/-- The defaults, with a single group. -/
def oneGroup : DummyConf := { cNumgroups := 1 }

theorem dummyStart_canRead (denied : List Policy) : (dummyStart denied).CanRead oneGroup where
  wf := interfaceStore_wellFormed denied
  positive := interfaceStore_positive denied
  groups gidx isGroup := by
    obtain rfl : gidx = 0 := Nat.lt_one_iff.mp isGroup
    exact Or.inl rfl

/-- Without rules all interfaces are fed and all devices advanced. -/
theorem reads_feed_all :
    (∃ fuel last, procRead procContext 0 fuel twoInterfaces (interfaceStore []) = some last ∧
      ProcFeeds procContext 0 fuel twoInterfaces (interfaceStore []) last) ∧
    ∃ fuel last, dummyRead procContext oneGroup (fun _ => 0) fuel (dummyStart []) = some last ∧
      DummyAdvances procContext oneGroup (fun _ => 0) fuel (dummyStart []) last := by
  obtain ⟨proc, dummy⟩ := reads_feed_iff procContext
  obtain ⟨feeds, procReturns⟩ := proc 0 twoInterfaces (interfaceStore [])
    interfaceAt_twoInterfaces.2.2 (interfaceStore_wellFormed []) List.mem_cons_self
  obtain ⟨advances, dummyReturns⟩ := dummy oneGroup (fun _ => 0) (dummyStart [])
    (interfaceStore_wellFormed [])
  constructor
  · obtain ⟨fuel, returns⟩ := procReturns procContext_defined procContext_intervals
      (interfaceStore_positive [])
    obtain ⟨last, read⟩ := Option.isSome_iff_exists.mp (returns fuel le_rfl)
    refine ⟨fuel, last, read, (feeds fuel last read).2.mpr ?_⟩
    exact fun _ _ _ _ other _ _ _ => Or.inr (allows_interfaceStore other.name)
  · obtain ⟨fuel, returns⟩ := dummyReturns procContext_defined procContext_intervals
      (fun random => by cases random) (dummyStart_canRead [])
    obtain ⟨last, read⟩ := Option.isSome_iff_exists.mp (returns fuel le_rfl)
    refine ⟨fuel, last, read, (advances fuel last read).2.mpr fun gidx isGroup n _ _ => ?_⟩
    obtain rfl : gidx = 0 := Nat.lt_one_iff.mp isGroup
    exact ⟨rfl, fun _ n' _ _ => Or.inr (allows_interfaceStore (ifname n'))⟩

/-- When `eth0` is denied, `wlan0` is missed; and when `dummy0` is, so is `dummy1`. -/
theorem reads_miss_permitted :
    (∃ fuel last, procRead procContext 0 fuel twoInterfaces (interfaceStore [⟨eth0⟩]) =
        some last ∧
      ¬ProcFeeds procContext 0 fuel twoInterfaces (interfaceStore [⟨eth0⟩]) last) ∧
    ∃ fuel last,
      dummyRead procContext oneGroup (fun _ => 0) fuel (dummyStart [⟨ifname 0⟩]) = some last ∧
      ¬DummyAdvances procContext oneGroup (fun _ => 0) fuel (dummyStart [⟨ifname 0⟩]) last := by
  obtain ⟨eth0Line, wlan0Line, short⟩ := interfaceAt_twoInterfaces
  constructor
  · have wf := interfaceStore_wellFormed [⟨eth0⟩]
    have isGroup : 0 ∈ (interfaceStore [⟨eth0⟩]).groupList := List.mem_cons_self
    obtain ⟨fuel, returns⟩ := procRead_returns procContext_defined procContext_intervals
      (interfaceStore_positive [⟨eth0⟩]) wf isGroup twoInterfaces
    obtain ⟨last, read⟩ := Option.isSome_iff_exists.mp (returns fuel le_rfl)
    refine ⟨fuel, last, read, fun feeds => ?_⟩
    have deniedLast := (procRead_feeds_iff wf isGroup read short).mp feeds
    have permitted : (interfaceStore [⟨eth0⟩]).allows wlan0 = true := by decide
    obtain tracked | permitted := deniedLast 1 0 (by decide) _ _ wlan0Line eth0Line
      (Or.inr permitted)
    · cases tracked
    · exact absurd permitted (by decide)
  · obtain ⟨fuel, returns⟩ := dummyRead_returns (fun _ => 0) procContext_defined
      procContext_intervals (fun random => by cases random) (dummyStart_canRead [⟨ifname 0⟩])
    obtain ⟨last, read⟩ := Option.isSome_iff_exists.mp (returns fuel le_rfl)
    refine ⟨fuel, last, read, fun advances => ?_⟩
    have free := (dummyRead_advances_iff (interfaceStore_wellFormed _) read).mp advances
    have permitted : (interfaceStore [⟨ifname 0⟩]).allows (ifname 1) = true := by decide
    obtain tracked | permitted := (free 0 (by decide) 1 (by decide) (Or.inr permitted)).2 0 0
      (by decide) (Or.inr ⟨rfl, by decide⟩)
    · cases tracked
    · exact absurd permitted (by decide)

end Bmon
