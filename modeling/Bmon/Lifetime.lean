/-
This file follows the time to live of the elements through the cycles of the main loop.

An element is created with `get_lifecycles` cycles to live, and a lifesign gives it as many
again. The sweep runs after the input modules in the same cycle and takes one of them at once. So
with a single cycle to live, an element that was just updated is freed in the same cycle; and as
the counter is unsigned, an element with none never reaches zero by the decrement.
-/

import Bmon.Program

namespace Bmon

/-! ### Cycles of the main loop -/

/-- One reading of the main loop, with what the output modules do since the last one. -/
structure Cycle where
  selects : List OutputOp
  inputs : List InputOp
  draws : List OutputOp

/-- A cycle up to the sweep: `output_pre`, `reset_update_flags`, `input_read`. -/
def Cycle.reading (c : Cycle) : List Op :=
  c.selects.map Op.output ++ .resetUpdateFlags :: c.inputs.map Op.input

/-- A cycle from the sweep on: `free_unused_elements`, `output_draw`, `output_post`. -/
def Cycle.drawing (c : Cycle) : List Op := .freeUnusedElements :: c.draws.map Op.output

def Cycle.ops (c : Cycle) : List Op := c.reading ++ c.drawing

/-- The element is linked in the list of its parent or its group. -/
def Store.Linked (σ : Store) (e : ElementPtr) : Prop :=
  ∃ place, σ.place e = some place ∧ e ∈ σ.lists place.head

theorem Store.WellFormed.linked_iff {σ : Store} (wf : σ.WellFormed) {e : ElementPtr} :
    σ.Linked e ↔ ∃ place, σ.place e = some place :=
  ⟨fun ⟨place, present, _⟩ => ⟨place, present⟩,
    fun ⟨place, present⟩ => ⟨place, present, wf.linked e place present⟩⟩

/-- The elements left after a sweep are those that do not die in it. -/
theorem sweep_linked_iff {st : State} (wf : st.store.WellFormed) {e : ElementPtr} :
    (freeUnusedElements st).store.Linked e ↔ st.store.Linked e ∧ ¬st.store.Dies e := by
  rw [(sweep_wellFormed wf).linked_iff, wf.linked_iff]
  simp only [sweep_place_eq_some_iff wf, exists_and_right]

/-! ### The time to live while the input modules read -/

theorem exists_place_of_eLifecycles {σ : Store} {e : ElementPtr} {n : UInt32}
    (life : σ.eLifecycles e = some n) : ∃ place, σ.place e = some place := by
  obtain ⟨r, found, -⟩ := Option.map_eq_some_iff.mp life
  exact ⟨r.place, by rw [Store.place, found, Option.map_some]⟩

/-- The time to live of the elements when one is created. -/
theorem elementCreate_eLifecycles (cfg : Config) (σ : Store) (group : GroupPtr) (name : CString)
    (id : UInt32) (parent : Option ElementPtr) (e : ElementPtr) :
    (elementCreate cfg σ group name id parent).eLifecycles e =
      if e = σ.nextElement then some (getLifecycles cfg) else σ.eLifecycles e := by
  rw [(sameStanding_elementCreate cfg σ group name id parent).eLifecycles]
  change (elementAlloc σ _).eLifecycles e = _
  unfold Store.eLifecycles elementAlloc
  simp only
  split_ifs <;> rfl

/-- The time to live of the elements after a lifesign of one. -/
theorem elementLifesign_eLifecycles (cfg : Config) (σ : Store) (e e' : ElementPtr) :
    (elementLifesign cfg σ e' 1).eLifecycles e =
      if e = e' then (σ.eLifecycles e).map fun _ => getLifecycles cfg else σ.eLifecycles e := by
  unfold Store.eLifecycles elementLifesign Store.modifyElement
  simp only
  split_ifs
  · rw [Option.map_map, Option.map_map]
    simp only [Function.comp_def, UInt32.one_mul]
  · rfl

/-- The element has all its time to live, or does not exist. -/
def Store.Renewed (cfg : Config) (σ : Store) (e : ElementPtr) : Prop :=
  σ.place e = none ∨ σ.eLifecycles e = some (getLifecycles cfg)

/-- While the input modules read, an element that has all its time to live keeps it. -/
theorem InputOp.renewed {cfg : Config} {σ σ' : Store} {op : InputOp}
    (called : op.apply cfg σ = some σ') {e : ElementPtr} (renewed : σ.Renewed cfg e) :
    σ'.Renewed cfg e := by
  rcases InputOp.apply_cases called with same | ⟨e', -, rfl⟩ | ⟨hdr, rfl⟩ |
    ⟨group, name, id, parent, -, -, rfl⟩
  · unfold Store.Renewed
    rw [same.place, same.eLifecycles]
    exact renewed
  · unfold Store.Renewed
    rw [(sameShape_elementLifesign cfg σ e' 1).place, elementLifesign_eLifecycles]
    refine renewed.imp_right fun life => ?_
    split_ifs
    · rw [life, Option.map_some]
    · exact life
  · exact renewed
  · unfold Store.Renewed
    rw [elementCreate_eLifecycles, (sameStanding_elementCreate cfg σ group name id parent).place]
    change (elementAlloc σ _).place e = none ∨ _
    rw [elementAlloc_place]
    split_ifs
    · exact Or.inr rfl
    · exact renewed

/-- An element that gets no lifesign keeps its time to live while the input modules read. -/
theorem InputOp.eLifecycles {cfg : Config} {σ σ' : Store} {op : InputOp}
    (called : op.apply cfg σ = some σ') {e : ElementPtr} (old : e < σ.nextElement)
    (silent : op ≠ .onElement e .lifesign) :
    e < σ'.nextElement ∧ σ'.place e = σ.place e ∧ σ'.eLifecycles e = σ.eLifecycles e := by
  rcases InputOp.apply_cases called with same | ⟨e', isLife, rfl⟩ | ⟨hdr, rfl⟩ |
    ⟨group, name, id, parent, -, -, rfl⟩
  · rw [same.place, same.eLifecycles, same.nextElement]
    exact ⟨old, rfl, rfl⟩
  · have other : e ≠ e' := fun same => silent (same ▸ isLife)
    rw [elementLifesign_eLifecycles, if_neg other,
      (sameShape_elementLifesign cfg σ e' 1).place]
    exact ⟨old, rfl, rfl⟩
  · exact ⟨old, rfl, rfl⟩
  · have same := sameStanding_elementCreate cfg σ group name id parent
    rw [elementCreate_eLifecycles, if_neg old.ne, same.place, same.nextElement]
    refine ⟨old.trans (Nat.lt_succ_self _), ?_, rfl⟩
    change (elementAlloc σ _).place e = σ.place e
    rw [elementAlloc_place, if_neg old.ne]

/-- A reading of the main loop leaves the input modules with the store as it was. -/
theorem reading_cases {cfg : Config} {st last : State} {c : Cycle}
    (ran : Runs.run (step cfg) st c.reading = some last) :
    ∃ s σ, SameStanding st.store σ ∧
      Runs.run (step cfg) st (c.selects.map Op.output ++ [.resetUpdateFlags]) = some ⟨σ, s⟩ ∧
      Runs.run (step cfg) ⟨σ, s⟩ (c.inputs.map Op.input) = some last := by
  rw [Cycle.reading, List.append_cons] at ran
  obtain ⟨middle, ranKeys, ranInputs⟩ := Runs.run_append.mp ran
  refine ⟨middle.selection, middle.store, ?_, ranKeys, ranInputs⟩
  refine Runs.run_invariant_of_mem (fun other : State => SameStanding st.store other.store)
    (fun other op member next same stepped => ?_) (SameStanding.refl _) ranKeys
  rcases List.mem_append.mp member with isKey | isReset
  · obtain ⟨key, -, rfl⟩ := List.mem_map.mp isKey
    obtain rfl := Option.some.inj stepped
    exact same
  · obtain rfl := List.mem_singleton.mp isReset
    obtain rfl := Option.some.inj stepped
    exact same.trans (sameStanding_resetUpdateFlags other.store)

/-- The steps of the input modules keep an element renewed. -/
theorem step_input_renewed {cfg : Config} {st next : State} {op : InputOp}
    (stepped : step cfg st (.input op) = some next) {e : ElementPtr}
    (renewed : st.store.Renewed cfg e) : next.store.Renewed cfg e := by
  obtain ⟨σ, called, rfl⟩ := Option.map_eq_some_iff.mp stepped
  exact InputOp.renewed called renewed

/-- An element that gets a lifesign while the input modules read has all its time to live
afterwards. -/
theorem lifesigned_eLifecycles {cfg : Config} {st last : State} {inputs : List InputOp}
    {e : ElementPtr} (valid : st.Valid)
    (ran : Runs.run (step cfg) st (inputs.map Op.input) = some last)
    (updated : InputOp.onElement e .lifesign ∈ inputs) :
    last.store.eLifecycles e = some (getLifecycles cfg) := by
  have renewed := Runs.run_establishes State.Valid
    (fun st => st.store.eLifecycles e = some (getLifecycles cfg))
    (.input (.onElement e .lifesign))
    (fun _ _ _ valid stepped => step_valid valid stepped)
    (fun st next _ stepped => ?_) (fun st op member next valid renewed stepped => ?_)
    (List.mem_map.mpr ⟨_, updated, rfl⟩) valid ran
  · exact renewed.2
  · obtain ⟨σ, called, rfl⟩ := Option.map_eq_some_iff.mp stepped
    rw [InputOp.apply] at called
    split_ifs at called with present
    obtain rfl := Option.some.inj called
    obtain ⟨r, found⟩ := Option.isSome_iff_exists.mp present
    change (elementLifesign cfg st.store e 1).eLifecycles e = _
    rw [elementLifesign_eLifecycles, if_pos rfl, Store.eLifecycles, found]
    rfl
  · obtain ⟨input, -, rfl⟩ := List.mem_map.mp member
    obtain ⟨σ, called, rfl⟩ := Option.map_eq_some_iff.mp stepped
    obtain ⟨place, present⟩ := exists_place_of_eLifecycles renewed
    refine (InputOp.renewed called (Or.inr renewed)).resolve_left ?_
    rw [InputOp.place called valid.store present]
    exact Option.some_ne_none place

/-! ### Updated elements in their cycle -/

/-- **When an updated element is kept.** In every cycle of every run of the main loop, an
element that received a lifesign is still linked when the outputs draw if and only if elements
do not have a single cycle to live and the time to live of no ancestor runs out in the sweep. -/
theorem lifesigned_linked_iff (cfg : Config) (titles : List GroupHdr) (cfgs : List ElementCfg)
    (allowed denied : List Policy) (past : List Cycle) (c : Cycle) (st : State)
    (ran : Runs.run (step cfg) (State.start titles cfgs allowed denied)
      (past.flatMap Cycle.ops ++ c.reading) = some st)
    (e : ElementPtr) (updated : InputOp.onElement e .lifesign ∈ c.inputs) :
    (freeUnusedElements st).store.Linked e ↔
      getLifecycles cfg ≠ 1 ∧
        ∀ a, st.store.Above a e → a ≠ e → st.store.eLifecycles a ≠ some 1 := by
  have initial := valid_stateStart titles cfgs allowed denied
  have valid := run_valid initial ran
  obtain ⟨before, ranPast, ranReading⟩ := Runs.run_append.mp ran
  obtain ⟨s, σ, -, ranKeys, ranInputs⟩ := reading_cases ranReading
  have life := lifesigned_eLifecycles (run_valid (run_valid initial ranPast) ranKeys) ranInputs
    updated
  rw [sweep_linked_iff valid.store, valid.store.linked_iff,
    and_iff_right (exists_place_of_eLifecycles life)]
  constructor
  · intro alive
    refine ⟨fun one => alive ⟨e, .refl, by rw [life, one]⟩, fun a above _ one => ?_⟩
    exact alive ⟨a, above, one⟩
  · rintro ⟨notOne, others⟩ ⟨a, above, one⟩
    by_cases same : a = e
    · rw [same, life] at one
      exact notOne (Option.some.inj one)
    · exact others a above same one

/-- With the default lifetime, a child and its parent that are both updated are kept. -/
theorem lifesigned_linked_child :
    ∃ st, Runs.run (step (confInitPost {})) (State.start [] [] [] [])
        (Cycle.reading ⟨[], parentAndChild ++ [.onElement 1 .lifesign], []⟩) = some st ∧
      (freeUnusedElements st).store.Linked 1 := by
  have run : (Runs.run (step (confInitPost {})) (State.start [] [] [] [])
      (Cycle.reading ⟨[], parentAndChild ++ [.onElement 1 .lifesign], []⟩)).map
        (fun st => st.store.eLifecycles 0) = some (some 30) := by decide +kernel
  obtain ⟨st, ran, life⟩ := Option.map_eq_some_iff.mp run
  refine ⟨st, ran, (lifesigned_linked_iff (confInitPost {}) [] [] [] [] []
    ⟨[], parentAndChild ++ [InputOp.onElement 1 ElementOp.lifesign], []⟩ st ran 1
    (List.mem_append_right _ List.mem_cons_self)).mpr ⟨by decide +kernel, ?_⟩⟩
  intro a above other
  have valid := run_valid (valid_stateStart _ _ _ _) ran
  have parent : a = 0 := by
    have le := valid.store.le_of_above above
    have less : a < 1 := Nat.lt_of_le_of_ne le other
    exact Nat.lt_one_iff.mp less
  rw [parent, life]
  decide

/-- With a lifetime of one read interval, an updated element is freed in the same cycle; with
one of two, so is a child whose parent was updated last in the cycle before. -/
theorem lifesigned_freed :
    (∃ st, Runs.run (step (confInitPost { lifetime := 1 })) (State.start [] [] [] [])
        (Cycle.reading ⟨[], parentAndChild ++ [.onElement 0 .lifesign], []⟩) = some st ∧
      ¬(freeUnusedElements st).store.Linked 0) ∧
    ∃ st, Runs.run (step (confInitPost { lifetime := 2 })) (State.start [] [] [] [])
        (Cycle.ops ⟨[], parentAndChild, []⟩ ++
          Cycle.reading ⟨[], [.onElement 1 .lifesign], []⟩) = some st ∧
      ¬(freeUnusedElements st).store.Linked 1 := by
  have freed : ∀ {σ : Store} {e : ElementPtr}, σ.place e = none → ¬σ.Linked e :=
    fun absent ⟨place, present, _⟩ => by
      rw [absent] at present
      cases present
  have first : (Runs.run (step (confInitPost { lifetime := 1 })) (State.start [] [] [] [])
      (Cycle.reading ⟨[], parentAndChild ++ [.onElement 0 .lifesign], []⟩)).map
        (fun st => (freeUnusedElements st).store.place 0) = some none := by decide +kernel
  have second : (Runs.run (step (confInitPost { lifetime := 2 })) (State.start [] [] [] [])
      (Cycle.ops ⟨[], parentAndChild, []⟩ ++
        Cycle.reading ⟨[], [.onElement 1 .lifesign], []⟩)).map
        (fun st => (freeUnusedElements st).store.place 1) = some none := by decide +kernel
  obtain ⟨st, ran, absent⟩ := Option.map_eq_some_iff.mp first
  obtain ⟨st', ran', absent'⟩ := Option.map_eq_some_iff.mp second
  exact ⟨⟨st, ran, freed absent⟩, st', ran', freed absent'⟩

/-! ### Stale elements -/

/-- The element does not exist any more, or is freed by the given number of sweeps. -/
def Store.Expiring (σ : Store) (e : ElementPtr) (sweeps : Nat) : Prop :=
  e < σ.nextElement ∧ (σ.place e = none ∨
    ∃ n, σ.eLifecycles e = some n ∧ 1 ≤ n.toNat ∧ n.toNat ≤ sweeps)

/-- What does not change an element does not change when it expires. -/
theorem Store.Expiring.of_eq {σ σ' : Store} {e : ElementPtr} {sweeps : Nat}
    (expiring : σ.Expiring e sweeps) (old : e < σ'.nextElement) (place : σ'.place e = σ.place e)
    (life : σ'.eLifecycles e = σ.eLifecycles e) : σ'.Expiring e sweeps := by
  unfold Store.Expiring
  rw [place, life]
  exact ⟨old, expiring.2⟩

/-- A sweep brings an element closer to its end. -/
theorem sweep_expiring {st : State} (wf : st.store.WellFormed) {e : ElementPtr} {sweeps : Nat}
    (expiring : st.store.Expiring e sweeps) :
    (freeUnusedElements st).store.Expiring e (sweeps - 1) := by
  obtain ⟨old, ends⟩ := expiring
  refine ⟨by rw [sweep_nextElement wf]; exact old, ?_⟩
  cases present : (freeUnusedElements st).store.place e with
  | none => exact Or.inl rfl
  | some place =>
    right
    obtain ⟨before, alive⟩ := (sweep_place_eq_some_iff wf).mp present
    obtain ⟨n, life, positive, bound⟩ := ends.resolve_left fun absent => by
      rw [absent] at before
      cases before
    have notOne : n.toNat ≠ 1 := fun one => by
      refine alive ⟨e, .refl, ?_⟩
      rw [life, UInt32.toNat_inj.mp (one.trans rfl : n.toNat = (1 : UInt32).toNat)]
    have less : (n - 1).toNat = n.toNat - 1 :=
      UInt32.toNat_sub_of_le n 1 (UInt32.le_iff_toNat_le.mpr positive)
    refine ⟨n - 1, by rw [sweep_eLifecycles wf before alive, life, Option.map_some], ?_, ?_⟩
    · omega
    · omega

/-- The second half of a cycle brings an element closer to its end by one sweep. -/
theorem drawing_expiring {cfg : Config} {st last : State} {c : Cycle} {e : ElementPtr}
    {sweeps : Nat} (wf : st.store.WellFormed) (expiring : st.store.Expiring e sweeps)
    (ran : Runs.run (step cfg) st c.drawing = some last) :
    last.store.Expiring e (sweeps - 1) := by
  have ranDraws : Runs.run (step cfg) (freeUnusedElements st) (c.draws.map Op.output) =
      some last := ran
  refine Runs.run_invariant_of_mem (fun st : State => st.store.Expiring e (sweeps - 1))
    (fun st op member next expiring stepped => ?_) (sweep_expiring wf expiring) ranDraws
  obtain ⟨draw, -, rfl⟩ := List.mem_map.mp member
  obtain rfl := Option.some.inj stepped
  exact expiring

/-- A cycle without a lifesign brings an element closer to its end by one sweep. -/
theorem cycle_expiring {cfg : Config} {st last : State} {c : Cycle} {e : ElementPtr}
    {sweeps : Nat} (valid : st.Valid) (expiring : st.store.Expiring e sweeps)
    (silent : InputOp.onElement e .lifesign ∉ c.inputs)
    (ran : Runs.run (step cfg) st c.ops = some last) :
    last.store.Expiring e (sweeps - 1) := by
  obtain ⟨swept, ranReading, ranDrawing⟩ := Runs.run_append.mp ran
  obtain ⟨s, σ, same, ranKeys, ranInputs⟩ := reading_cases ranReading
  have start : (⟨σ, s⟩ : State).store.Expiring e sweeps := by
    refine expiring.of_eq ?_ (congrFun same.place e) (congrFun same.eLifecycles e)
    rw [same.nextElement]
    exact expiring.1
  refine drawing_expiring (run_valid valid ranReading).store ?_ ranDrawing
  refine Runs.run_invariant_of_mem (fun st : State => st.store.Expiring e sweeps)
    (fun st op member next expiring stepped => ?_) start ranInputs
  obtain ⟨input, isInput, rfl⟩ := List.mem_map.mp member
  obtain ⟨σ, called, rfl⟩ := Option.map_eq_some_iff.mp stepped
  obtain ⟨old, place, life⟩ := InputOp.eLifecycles called expiring.1
    fun same => silent (same ▸ isInput)
  exact expiring.of_eq old place life

/-- Cycles without a lifesign bring an element closer to its end, one sweep each. -/
theorem cycles_expiring {cfg : Config} {st last : State} {later : List Cycle} {e : ElementPtr}
    {sweeps : Nat} (valid : st.Valid) (expiring : st.store.Expiring e sweeps)
    (silent : ∀ c ∈ later, InputOp.onElement e .lifesign ∉ c.inputs)
    (ran : Runs.run (step cfg) st (later.flatMap Cycle.ops) = some last) :
    last.store.Expiring e (sweeps - later.length) := by
  induction later generalizing st sweeps with
  | nil =>
    obtain rfl := Option.some.inj ran
    exact expiring
  | cons c later inductionHypothesis =>
    rw [List.flatMap_cons] at ran
    obtain ⟨middle, ranFirst, ranRest⟩ := Runs.run_append.mp ran
    have rest := inductionHypothesis (run_valid valid ranFirst)
      (cycle_expiring valid expiring (silent c List.mem_cons_self) ranFirst)
      (fun c inLater => silent c (List.mem_cons_of_mem _ inLater)) ranRest
    rwa [Nat.sub_sub, Nat.add_comm 1] at rest

/-- What the lifetime option promises: an element that is created or gets its last lifesign in
one cycle is not linked any more after the sweep of the last of `max(L, 1)` later cycles, where
`L` is the lifetime in read intervals, rounded down. -/
def StaleElementsExpire (cfg : Config) : Prop :=
  ∀ (titles : List GroupHdr) (cfgs : List ElementCfg) (allowed denied : List Policy)
    (past : List Cycle) (c : Cycle) (later : List Cycle) (before st last : State)
    (e : ElementPtr),
    Runs.run (step cfg) (State.start titles cfgs allowed denied) (past.flatMap Cycle.ops) =
      some before →
    Runs.run (step cfg) before c.reading = some st →
    (before.store.place e = none ∧ st.store.place e ≠ none) ∨
      InputOp.onElement e .lifesign ∈ c.inputs →
    (∀ other ∈ later, InputOp.onElement e .lifesign ∉ other.inputs) →
    later.length = max ⌊cfg.lifetime / cfg.cfgReadInterval⌋₊ 1 →
    Runs.run (step cfg) st (c.drawing ++ later.flatMap Cycle.ops) = some last →
    ¬last.store.Linked e

/-- An element that is created or gets a lifesign in a cycle has all its time to live before
the sweep. -/
theorem touched_eLifecycles {cfg : Config} {before st : State} {c : Cycle} {e : ElementPtr}
    (valid : before.Valid) (ran : Runs.run (step cfg) before c.reading = some st)
    (touched : (before.store.place e = none ∧ st.store.place e ≠ none) ∨
      InputOp.onElement e .lifesign ∈ c.inputs) :
    st.store.eLifecycles e = some (getLifecycles cfg) := by
  obtain ⟨s, σ, same, ranKeys, ranInputs⟩ := reading_cases ran
  rcases touched with ⟨absent, present⟩ | updated
  · have start : (⟨σ, s⟩ : State).store.Renewed cfg e :=
      Or.inl ((congrFun same.place e).trans absent)
    refine (Runs.run_invariant_of_mem (fun st : State => st.store.Renewed cfg e)
      (fun st op member next renewed stepped => ?_) start ranInputs).resolve_left present
    obtain ⟨input, -, rfl⟩ := List.mem_map.mp member
    exact step_input_renewed stepped renewed
  · exact lifesigned_eLifecycles (run_valid valid ranKeys) ranInputs updated

/-- A top element with no time to live, or more than a single cycle, is left by the sweep. -/
theorem sweep_top {st : State} (wf : st.store.WellFormed) {e : ElementPtr} {place : Place}
    (present : st.store.place e = some place) (top : place.parent = none) {n : UInt32}
    (life : st.store.eLifecycles e = some n) (notOne : n ≠ 1) :
    (freeUnusedElements st).store.place e = some place ∧
      (freeUnusedElements st).store.eLifecycles e = some (n - 1) := by
  have alive : ¬st.store.Dies e := fun ⟨a, above, one⟩ => by
    rcases above.cases_tail with same | ⟨p, -, parent⟩
    · rw [← same, life] at one
      exact notOne (Option.some.inj one)
    · obtain ⟨place', present', some⟩ := isParent_iff.mp parent
      rw [present] at present'
      obtain rfl := Option.some.inj present'
      rw [top] at some
      cases some
  refine ⟨(sweep_place_eq_some_iff wf).mpr ⟨present, alive⟩, ?_⟩
  rw [sweep_eLifecycles wf present alive, life, Option.map_some]

/-- With a lifetime below the read interval an element outlives both its cycle and the next. -/
theorem not_staleElementsExpire {cfg : Config}
    (zero : ⌊cfg.lifetime / cfg.cfgReadInterval⌋₊ = 0) : ¬StaleElementsExpire cfg := by
  intro expire
  have noCycles : getLifecycles cfg = 0 := by
    rw [getLifecycles, zero]
    rfl
  have created : (Runs.run (step cfg) (State.start [] [] [] [])
      (Cycle.reading ⟨[], parentAndChild, []⟩)).map
        (fun st => (st.store.place 0, st.store.eLifecycles 0)) =
      some (some ⟨none, 0⟩, some (getLifecycles cfg)) := rfl
  obtain ⟨st, ran, record⟩ := Option.map_eq_some_iff.mp created
  obtain ⟨present, life⟩ := Prod.mk.inj record
  have initial := valid_stateStart [] [] [] []
  have valid := run_valid initial ran
  obtain ⟨presentOnce, lifeOnce⟩ :=
    sweep_top valid.store present rfl life (by rw [noCycles]; decide)
  have same := sameStanding_resetUpdateFlags (freeUnusedElements st).store
  have wfOnce := (sweep_wellFormed valid.store).sameShape same.toSameShape
  let idle : State :=
    { freeUnusedElements st with store := resetUpdateFlags (freeUnusedElements st).store }
  have wfIdle : idle.store.WellFormed := wfOnce
  obtain ⟨presentTwice, -⟩ := sweep_top wfIdle
    ((congrFun same.place 0).trans presentOnce) rfl
    ((congrFun same.eLifecycles 0).trans lifeOnce) (by rw [noCycles]; decide)
  refine expire [] [] [] [] [] ⟨[], parentAndChild, []⟩ [⟨[], [], []⟩] _ st
    (freeUnusedElements idle) 0 rfl ran (Or.inl ⟨rfl, by rw [present]; exact Option.some_ne_none _⟩)
    (fun other member => ?_) (by rw [zero]; rfl) rfl
    ((sweep_wellFormed wfOnce).linked_iff.mpr ⟨_, presentTwice⟩)
  rw [List.mem_singleton.mp member]
  exact List.not_mem_nil

/-- **When stale elements expire.** Below `2^31` cycles, stale elements expire in time in every
run if and only if the lifetime is at least the read interval. -/
theorem staleElementsExpire_iff (cfg : Config)
    (small : ⌊cfg.lifetime / cfg.cfgReadInterval⌋₊ < 2 ^ 31) :
    StaleElementsExpire cfg ↔ 1 ≤ ⌊cfg.lifetime / cfg.cfgReadInterval⌋₊ := by
  constructor
  · intro expire
    by_contra below
    exact not_staleElementsExpire (Nat.lt_one_iff.mp (Nat.lt_of_not_le below)) expire
  · intro positive titles cfgs allowed denied past c later before st last e ranPast ranReading
      touched silent length ranRest
    set cycles := ⌊cfg.lifetime / cfg.cfgReadInterval⌋₊ with cyclesDef
    have whole : (getLifecycles cfg).toNat = cycles := by
      rw [getLifecycles, UInt32.toNat_ofNat', ← cyclesDef, Nat.mod_eq_of_lt (by omega)]
    have validBefore := run_valid (valid_stateStart titles cfgs allowed denied) ranPast
    have valid := run_valid validBefore ranReading
    have life := touched_eLifecycles validBefore ranReading touched
    obtain ⟨place, present⟩ := exists_place_of_eLifecycles life
    have expiring : st.store.Expiring e cycles :=
      ⟨valid.store.element_lt e place present,
        Or.inr ⟨_, life, by rw [whole]; exact positive, whole.le⟩⟩
    obtain ⟨swept, ranDrawing, ranLater⟩ := Runs.run_append.mp ranRest
    obtain ⟨-, ends⟩ := cycles_expiring (run_valid valid ranDrawing)
      (drawing_expiring valid.store expiring ranDrawing) silent ranLater
    rcases ends with absent | ⟨n, -, low, high⟩
    · rintro ⟨place, present, -⟩
      rw [absent] at present
      cases present
    · omega

/-- With the defaults of the options stale elements expire in time. -/
theorem staleElementsExpire_default : StaleElementsExpire (confInitPost {}) :=
  (staleElementsExpire_iff (confInitPost {}) (by decide +kernel)).mpr (by decide +kernel)

/-- With a lifetime of half a read interval they do not. -/
theorem staleElementsExpire_fails :
    ¬StaleElementsExpire (confInitPost { lifetime := 1 / 2 }) :=
  not_staleElementsExpire (by decide +kernel)

end Bmon
