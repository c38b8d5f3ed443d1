/-
This file shows which interfaces the outputs find in the group of `proc`, after any number of
turns of the main loop.

The group is a table of leases. A read renews those of the interfaces that it accepts, and the
sweep of the same turn takes one from each. So an interface is there just when one of the last
reads accepted it, where the number of these reads is one less than the time to live of an
element. The elements stand in the order in which they were created.
-/

import Bmon.Lib.Leases
import Bmon.ProcCycles

namespace Bmon

/-! ### The elements of a group as a table -/

/-- The number of the sweep that frees an element with this time to live. The counter is
unsigned, so that it only gets to one by way of its largest value if it is zero. -/
def sweepsLeft (lifecycles : UInt32) : Nat := (lifecycles - 1).toNat + 1

theorem sweepsLeft_pos (lifecycles : UInt32) : 0 < sweepsLeft lifecycles := Nat.succ_pos _

theorem sub_one_eq_zero_iff {lifecycles : UInt32} : lifecycles - 1 = 0 ↔ lifecycles = 1 := by
  rw [UInt32.sub_eq_iff_eq_add, UInt32.zero_add]

theorem sweepsLeft_eq_one_iff {lifecycles : UInt32} :
    sweepsLeft lifecycles = 1 ↔ lifecycles = 1 := by
  unfold sweepsLeft
  rw [Nat.add_eq_right, ← sub_one_eq_zero_iff]
  exact UInt32.toNat_inj (b := 0)

/-- A sweep that leaves an element takes one from its time to live. -/
theorem sweepsLeft_sub {lifecycles : UInt32} (notOne : lifecycles ≠ 1) :
    sweepsLeft (lifecycles - 1) = sweepsLeft lifecycles - 1 := by
  have positive : 1 ≤ (lifecycles - 1).toNat := by
    rw [Nat.one_le_iff_ne_zero]
    exact mt (UInt32.toNat_inj (b := 0)).mp (mt sub_one_eq_zero_iff.mp notOne)
  unfold sweepsLeft
  rw [UInt32.toNat_sub_of_le (lifecycles - 1) 1 (UInt32.le_iff_toNat_le.mpr positive)]
  exact Nat.sub_add_cancel positive

/-- What the table holds of an element: its name and the sweeps that are left to it. -/
def Store.lease (σ : Store) (e : ElementPtr) : Option (CString × Nat) :=
  (σ.elements e).map fun r => (r.eName, sweepsLeft r.eLifecycles)

/-- The elements in the list of a group. -/
def Store.leases (σ : Store) (g : GroupPtr) : List (CString × Nat) :=
  (σ.lists (.ofGroup g)).filterMap σ.lease

/-- The elements at the top of a group are the table, and all have the identifier that `proc`
gives them. -/
structure Store.Leasing (g : GroupPtr) (table : List (CString × Nat)) (σ : Store) : Prop where
  leases : σ.leases g = table
  ids : ∀ e ∈ σ.lists (.ofGroup g), ∀ r, σ.elements e = some r → r.eId = 0

theorem lease_eq_some {σ : Store} {e : ElementPtr} {held : CString × Nat}
    (holds : σ.lease e = some held) :
    (σ.elements e).map Element.eName = some held.1 ∧
      ∃ n, σ.eLifecycles e = some n ∧ sweepsLeft n = held.2 := by
  obtain ⟨r, found, rfl⟩ := Option.map_eq_some_iff.mp holds
  exact ⟨by rw [found, Option.map_some], r.eLifecycles, by rw [Store.eLifecycles, found]; rfl, rfl⟩

/-- A name and a time to live make a lease. -/
theorem lease_of {σ : Store} {e : ElementPtr} {name : CString} {n : UInt32}
    (isName : (σ.elements e).map Element.eName = some name) (life : σ.eLifecycles e = some n) :
    σ.lease e = some (name, sweepsLeft n) := by
  obtain ⟨r, found, rfl⟩ := Option.map_eq_some_iff.mp isName
  rw [Store.eLifecycles, found] at life
  obtain rfl := Option.some.inj life
  rw [Store.lease, found]
  rfl

section

variable {g : GroupPtr} {table : List (CString × Nat)} {σ σ' : Store}

/-- Which element is tracked for a name, if all elements have the same identifier. -/
theorem Store.Leasing.tracked_eq (leasing : σ.Leasing g table) (name : CString) :
    σ.tracked g name =
      (σ.lists (.ofGroup g)).find? fun e => (σ.lease e).any fun held => held.1 = name := by
  unfold Store.tracked lookupElement
  refine List.find?_congr fun e member => ?_
  unfold Store.lease
  rw [Option.any_map]
  cases found : σ.elements e with
  | none => rfl
  | some r =>
    have id := leasing.ids e member r found
    simp [id]

theorem Touches.lease_other {e x : ElementPtr} (touches : Touches e σ σ') (other : x ≠ e) :
    σ'.lease x = σ.lease x := by
  unfold Store.lease
  rw [touches.others x other]

theorem Touches.eName {e : ElementPtr} (touches : Touches e σ σ') :
    (σ'.elements e).map Element.eName = (σ.elements e).map Element.eName := by
  have same := congrArg (Option.map fun identity => identity.2.1) touches.identity
  rwa [Option.map_map, Option.map_map] at same

/-- Calls on one element leave a table, with what they make of its lease. -/
theorem Store.Leasing.of_touches {e : ElementPtr} {after : List (CString × Nat)}
    (leasing : σ.Leasing g table) (touches : Touches e σ σ') (leases : σ'.leases g = after) :
    σ'.Leasing g after where
  leases := leases
  ids x member r' found := by
    have same := touches.identity_eq x
    rw [found, Option.map_some] at same
    obtain ⟨r, before, identity⟩ := Option.map_eq_some_iff.mp same.symm
    rw [touches.lists] at member
    rw [← leasing.ids x member r before]
    exact (congrArg (fun identity => identity.2.2) identity).symm

/-- Calls that leave the time to live leave the table. -/
theorem Store.Leasing.unchanged {e : ElementPtr} (leasing : σ.Leasing g table)
    (touches : Touches e σ σ') (life : σ'.eLifecycles e = σ.eLifecycles e) :
    σ'.Leasing g table := by
  refine leasing.of_touches touches ?_
  have same : σ'.lease = σ.lease := funext fun x => by
    by_cases equal : x = e
    · rw [equal]
      cases before : σ.lease e with
      | some held =>
        obtain ⟨isName, n, lives, left⟩ := lease_eq_some before
        rw [lease_of (touches.eName.trans isName) (life.trans lives), left]
      | none =>
        have absent := Option.map_eq_none_iff.mp before
        have same := touches.identity
        rw [absent, Option.map_none, Option.map_eq_none_iff] at same
        rw [Store.lease, same]
        rfl
    · exact touches.lease_other equal
  rw [← leasing.leases, Store.leases, Store.leases, touches.lists, same]

/-- Calls that give a tracked element all its time to live renew its lease. -/
theorem Store.Leasing.renewed (leasing : σ.Leasing g table) (wf : σ.WellFormed)
    {name : CString} {e : ElementPtr} (tracked : σ.tracked g name = some e)
    (touches : Touches e σ σ') {n : UInt32} (life : σ'.eLifecycles e = some n) :
    σ'.Leasing g (Leases.renew (sweepsLeft n) name table) := by
  obtain ⟨inList, r, found, isName⟩ := tracked_eq_some tracked
  have named : (σ'.elements e).map Element.eName = some name := by
    rw [touches.eName, found, Option.map_some, isName]
  have first := leasing.tracked_eq name ▸ tracked
  refine leasing.of_touches touches ?_
  rw [← leasing.leases, Store.leases, touches.lists]
  exact Leases.filterMap_renew _ (wf.lists_nodup _) first (lease_of named life)
    fun x other => touches.lease_other other

/-- Creating an element for a name that is not tracked starts its lease. -/
theorem Store.Leasing.created (leasing : σ.Leasing g table) (wf : σ.WellFormed)
    (cfg : Config) {name : CString} (absent : σ.tracked g name = none) :
    (elementLinked cfg σ g name 0 none).Leasing g
      (Leases.renew (sweepsLeft (getLifecycles cfg)) name table) := by
  have lists : (elementLinked cfg σ g name 0 none).lists (.ofGroup g) =
      σ.lists (.ofGroup g) ++ [σ.nextElement] := by
    rw [wf.lists_elementLinked]
    exact congrArg _ (if_pos rfl)
  have old : ∀ e ∈ σ.lists (.ofGroup g), (elementLinked cfg σ g name 0 none).elements e =
      σ.elements e := fun e member => by
    rw [elements_elementLinked, if_neg (wf.lt_of_mem member).ne]
  have new : (elementLinked cfg σ g name 0 none).elements σ.nextElement =
      some (elementNew cfg g name 0 none (elementCfgLookup σ name)) := if_pos rfl
  have fresh : name ∉ table.map Prod.fst := by
    rw [← leasing.leases, Store.leases, ← Leases.find?_eq_none_iff, ← leasing.tracked_eq, absent]
  refine ⟨?_, fun e member r found => ?_⟩
  · have same : ∀ e ∈ σ.lists (.ofGroup g), (elementLinked cfg σ g name 0 none).lease e =
        σ.lease e := fun e member => by
      rw [Store.lease, old e member, Store.lease]
    rw [Leases.renew_eq_append _ fresh, Store.leases, lists, List.filterMap_append,
      List.filterMap_congr same, ← leasing.leases, Store.leases]
    refine congrArg _ (List.filterMap_cons_some ?_)
    rw [Store.lease, new]
    rfl
  · rw [lists] at member
    rcases List.mem_append.mp member with before | isNew
    · rw [old e before] at found
      exact leasing.ids e before r found
    · rw [List.mem_singleton.mp isNew, new] at found
      obtain rfl := Option.some.inj found
      rfl

end

/-! ### Turns -/

section

variable {ctx : ReadContext} {allows : CString → Bool} {g : GroupPtr} {fuel : Nat}
variable {table : List (CString × Nat)} {σ σ' : Store}

/-- Calls that end with a lifesign give an element all its time to live. -/
theorem lifesign_last_eLifecycles {cfg : Config} {front : List ElementOp} {e : ElementPtr}
    (ran : Runs.run (InputOp.apply cfg) σ
      ((front ++ [ElementOp.lifesign]).map (InputOp.onElement e)) = some σ') :
    σ'.eLifecycles e = some (getLifecycles cfg) := by
  rw [List.map_append] at ran
  obtain ⟨middle, -, ranLast⟩ := Runs.run_append.mp ran
  obtain ⟨next, called, same⟩ := Option.bind_eq_some_iff.mp ranLast
  obtain rfl := Option.some.inj same
  rw [InputOp.apply] at called
  split_ifs at called with present
  obtain rfl := Option.some.inj called
  obtain ⟨r, found⟩ := Option.isSome_iff_exists.mp present
  rw [elementLifesign_eLifecycles, if_pos rfl, Store.eLifecycles, found]
  rfl

/-- Feeding an element gives it all its time to live. -/
theorem feedCalls_eLifecycles {fuel : Nat} {flags : UpdateFlags} {readings : List Reading}
    {e : ElementPtr} (ran : Runs.run (InputOp.apply ctx.cfg) σ
      ((ctx.feedCalls fuel flags readings).map (InputOp.onElement e)) = some σ') :
    σ'.eLifecycles e = some (getLifecycles ctx.cfg) := by
  rw [ReadContext.feedCalls, List.append_cons] at ran
  exact lifesign_last_eLifecycles ran

/-- A line that is accepted renews the lease of its interface. -/
theorem Store.Leasing.feedLine (leasing : σ.Leasing g table) (wf : σ.WellFormed)
    {line : ProcLine} (fed : ctx.feedLine g fuel σ line = some σ') :
    σ'.Leasing g (Leases.renew (sweepsLeft (getLifecycles ctx.cfg)) line.name table) := by
  obtain ⟨looked, e, lookedUp, found, ran⟩ := feedLine_cases fed
  have life := feedCalls_eLifecycles ran
  obtain ⟨calls, middle, -, ranSetUp, either⟩ := lookUp_cases lookedUp found
  have touches := (touches_run ranSetUp).trans (touches_run ran)
  obtain ⟨tracked, rfl⟩ | ⟨absent, -, rfl, rfl⟩ := either
  · exact leasing.renewed wf tracked touches life
  · refine (leasing.created wf ctx.cfg absent).unchanged
      ((touches_elementCreate ctx.cfg σ g line.name 0 none).trans touches) ?_
    rw [life, Store.eLifecycles, elements_elementLinked, if_pos rfl]
    rfl

/-- `reset_update_flags` leaves the table. -/
theorem Store.Leasing.resetUpdateFlags (leasing : σ.Leasing g table) :
    (Bmon.resetUpdateFlags σ).Leasing g table := by
  refine groupForeachRecursive_invariant elementResetUpdateFlag (fun σ g' e before => ?_) leasing
  refine before.unchanged (touches_elementResetUpdateFlag σ g' e) ?_
  exact map_modifyElement Element.eLifecycles σ e e fun _ => rfl

/-- The sweep takes one from every lease of the table. -/
theorem Store.Leasing.sweep {st : State} (wf : st.store.WellFormed)
    (isGroup : g ∈ st.store.groupList) (leasing : st.store.Leasing g table) :
    (freeUnusedElements st).store.Leasing g (Leases.expire table) := by
  obtain ⟨lists, left⟩ := sweep_top_elements wf isGroup
  refine ⟨?_, fun e member r found => ?_⟩
  · rw [← leasing.leases, Store.leases, lists]
    refine Leases.filterMap_expire (fun e member held holds => ?_) fun e member => ?_
    · obtain ⟨isName, n, life, isLeft⟩ := lease_eq_some holds
      have staysIff : st.store.eLifecycles e ≠ some 1 ↔ n ≠ 1 := by
        rw [life, Ne, Option.some_inj]
      rw [decide_eq_true_iff, staysIff, ← isLeft, Ne, Ne, sweepsLeft_eq_one_iff]
      refine ⟨Iff.rfl, fun more => ?_⟩
      have ticked := left e member (staysIff.mpr more)
      rw [← sweepsLeft_sub more]
      refine lease_of ?_ ?_
      · rw [ticked, Option.map_map]
        exact isName
      · rw [Store.eLifecycles, ticked, Option.map_map]
        have lowered := congrArg (Option.map (· - 1)) life
        rw [Store.eLifecycles, Option.map_map] at lowered
        exact lowered
    · obtain ⟨place, present, -⟩ := wf.owned _ e member
      obtain ⟨r, found, -⟩ := place_eq_some_iff.mp present
      rw [Store.lease, found]
      rfl
  · rw [lists] at member
    obtain ⟨before, more⟩ := List.mem_filter.mp member
    rw [left e before (of_decide_eq_true more)] at found
    obtain ⟨r', isElement, rfl⟩ := Option.map_eq_some_iff.mp found
    exact leasing.ids e before r' isElement

/-- The interfaces that a read accepts. -/
def acceptedNames (allows : CString → Bool) (content : List Char) : List CString :=
  (acceptedLines allows content).map ProcLine.name

/-- A turn is a round of the table. -/
theorem procCycle_leasing {st last : State} {c : ProcCycle} (admits : st.store.Admits allows g)
    (leasing : st.store.Leasing g table) (ran : procCycle ctx g fuel st c = some last) :
    last.store.Leasing g (Leases.round (sweepsLeft (getLifecycles ctx.cfg)) table
      (acceptedNames allows c.content)) := by
  obtain ⟨middle, s, -, fed, kept, swept, -⟩ := procCycle_cases admits ran
  have renewed := Runs.run_foldl
    (fun table σ => σ.Admits allows g ∧ σ.Leasing g table)
    (fun table line => Leases.renew (sweepsLeft (getLifecycles ctx.cfg)) line.name table)
    (fun table σ line _ next both fedLine => by
      have after := both.2.feedLine both.1.wf fedLine
      exact ⟨both.1.feedLine fedLine, after⟩)
    ⟨admits.resetUpdateFlags, leasing.resetUpdateFlags⟩ fed
  rw [swept, Leases.round, acceptedNames, List.foldl_map]
  exact Store.Leasing.sweep (show (State.mk middle s).store.WellFormed from kept.wf) kept.isGroup
    renewed.2

/-- The table of a group without elements is empty. -/
theorem leasing_empty (empty : σ.lists (.ofGroup g) = []) : σ.Leasing g [] := by
  refine ⟨?_, fun e member => ?_⟩
  · rw [Store.leases, empty]
    rfl
  · rw [empty] at member
    cases member

/-- So are some turns rounds of it, from a group without elements on. -/
theorem procCycles_leasing {st last : State} {cycles : List ProcCycle} (valid : st.Valid)
    (isGroup : g ∈ st.store.groupList) (empty : st.store.lists (.ofGroup g) = [])
    (ran : Runs.run (procCycle ctx g fuel) st cycles = some last) :
    last.store.Leasing g (Leases.rounds (sweepsLeft (getLifecycles ctx.cfg))
      (cycles.map fun c => acceptedNames st.store.allows c.content)) := by
  have turns := Runs.run_foldl
    (fun table (next : State) => next.store.Admits st.store.allows g ∧ next.store.Leasing g table)
    (fun table c => Leases.round (sweepsLeft (getLifecycles ctx.cfg)) table
      (acceptedNames st.store.allows c.content))
    (fun table before c _ after both turned =>
      ⟨procCycle_admits both.1 turned, procCycle_leasing both.1 both.2 turned⟩)
    ⟨admits_empty valid isGroup empty, leasing_empty empty⟩ ran
  rw [Leases.rounds, List.foldl_map]
  exact turns.2

end

/-! ### Which interfaces are shown -/

/-- An element with this name is at the top of the group. -/
def Store.ShowsName (σ : Store) (g : GroupPtr) (name : CString) : Prop :=
  ∃ e ∈ σ.lists (.ofGroup g), (σ.elements e).map Element.eName = some name

theorem showsName_iff {σ : Store} {g : GroupPtr} {name : CString} :
    σ.ShowsName g name ↔ name ∈ (σ.leases g).map Prod.fst := by
  rw [List.mem_map]
  constructor
  · rintro ⟨e, member, isName⟩
    obtain ⟨r, found, rfl⟩ := Option.map_eq_some_iff.mp isName
    refine ⟨(r.eName, sweepsLeft r.eLifecycles), List.mem_filterMap.mpr ⟨e, member, ?_⟩, rfl⟩
    rw [Store.lease, found]
    rfl
  · rintro ⟨held, member, rfl⟩
    obtain ⟨e, inList, holds⟩ := List.mem_filterMap.mp member
    exact ⟨e, inList, (lease_eq_some holds).1⟩

/-- **The interfaces are leases.** Whatever the file holds in each turn of the main loop, and
whatever the outputs select, where `proc` is the only input module the elements of its group, in the
order of the list and with the sweeps that are left to them, are the table that is left when every
read renews the leases of the interfaces it accepts and every sweep takes one from all of them. -/
theorem proc_leases (ctx : ReadContext) (g : GroupPtr) (fuel : Nat) (cycles : List ProcCycle)
    (st last : State) (valid : st.Valid) (isGroup : g ∈ st.store.groupList)
    (empty : st.store.lists (.ofGroup g) = [])
    (ran : Runs.run (procCycle ctx g fuel) st cycles = some last) :
    last.store.leases g = Leases.rounds (sweepsLeft (getLifecycles ctx.cfg))
      (cycles.map fun c => acceptedNames st.store.allows c.content) :=
  (procCycles_leasing valid isGroup empty ran).leases

/-- **Which interfaces are shown.** Where the attributes are defined, all histories have positive
intervals and those of the configuration room for an entry, the main loop with `proc` as its only
input module makes its turns whatever the file holds in each of them. Afterwards an interface is in
the group just when one of the last reads accepted it, as many as the time to live of an element
less one. -/
theorem proc_shown_iff (ctx : ReadContext) (g : GroupPtr) (cycles : List ProcCycle) (st : State)
    (valid : st.Valid) (isGroup : g ∈ st.store.groupList)
    (empty : st.store.lists (.ofGroup g) = []) (defined : ctx.Defined)
    (histories : SoundHistories ctx.historyDefs) (positive : st.store.PositiveIntervals) :
    ∃ enough last,
      (∀ fuel, enough ≤ fuel → Runs.run (procCycle ctx g fuel) st cycles = some last) ∧
      ∀ name, last.store.ShowsName g name ↔
        ∃ c ∈ cycles.reverse.take (sweepsLeft (getLifecycles ctx.cfg) - 1),
          name ∈ acceptedNames st.store.allows c.content := by
  obtain ⟨enough, last, returns⟩ :=
    procCycles_return defined histories.intervals valid (admits_empty valid isGroup empty) positive
      cycles
  refine ⟨enough, last, returns, fun name => ?_⟩
  rw [showsName_iff, (procCycles_leasing valid isGroup empty (returns enough le_rfl)).leases]
  refine (Leases.mem_keys_rounds_iff _ (sweepsLeft_pos _) _ name).trans ?_
  rw [← List.map_reverse, ← List.map_take]
  simp only [List.mem_map, exists_exists_and_eq_and]

/-! ### An interface that goes away -/

/-- What the two reads leave of the leases. -/
theorem rounds_oneLeaves :
    Leases.rounds (sweepsLeft (getLifecycles shortLived.cfg)) (oneLeaves.map fun c =>
      acceptedNames interfacesStart.store.allows c.content) = [(eth0, 1)] := by decide +kernel

/-- The interface that is not in the second file has been freed. -/
theorem proc_leases_oneLeaves :
    ∃ fuel last, Runs.run (procCycle shortLived 0 fuel) interfacesStart oneLeaves = some last ∧
      last.store.leases 0 = [(eth0, 1)] := by
  obtain ⟨enough, last, returns⟩ := procCycles_return shortLived_defined
    shortLived_histories.intervals interfacesStart_valid
    (admits_empty interfacesStart_valid List.mem_cons_self rfl) (interfaceStore_positive [])
    oneLeaves
  have ran := returns enough le_rfl
  refine ⟨enough, last, ran, ?_⟩
  rw [proc_leases shortLived 0 enough oneLeaves interfacesStart last interfacesStart_valid
    List.mem_cons_self rfl ran]
  exact rounds_oneLeaves

/-- So the outputs find only the other one. -/
theorem proc_shown_iff_oneLeaves :
    ∃ fuel last, Runs.run (procCycle shortLived 0 fuel) interfacesStart oneLeaves = some last ∧
      last.store.ShowsName 0 eth0 ∧ ¬last.store.ShowsName 0 wlan0 := by
  obtain ⟨enough, last, returns, shown⟩ := proc_shown_iff shortLived 0 oneLeaves interfacesStart
    interfacesStart_valid List.mem_cons_self rfl shortLived_defined shortLived_histories
    (interfaceStore_positive [])
  refine ⟨enough, last, returns enough le_rfl, (shown eth0).mpr ?_, mt (shown wlan0).mp ?_⟩
  · decide +kernel
  · decide +kernel

end Bmon
