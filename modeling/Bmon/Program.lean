/-
This file models the program as a system that takes one step for each call the main loop, the
input modules and the output modules make, and shows that the store stays well formed and the
selection valid in every run.

A call is only possible where the caller holds what it passes: input modules get elements and
groups from the lookup functions in the same call of theirs, so that an element they pass is not
freed, a group is in the list of groups, and a parent is an element of the same group. All input
modules call `element_lifesign` with the factor one.
-/

import Bmon.Lib.Runs
import Bmon.SweepEffects

namespace Bmon

/-! ### The calls of the input modules -/

/-- What input modules do to an element. The tables of definitions are those of the time. -/
inductive ElementOp where
  | lifesign
  | updateInfo (name value : String)
  | setRxmax (max : UInt64)
  | setTxmax (max : UInt64)
  | setKeyAttr (attrDefs : List AttrDef) (major minor : String)
  | setUsageAttr (attrDefs : List AttrDef) (usage : String)
  | attrUpdate (attrDefs : List AttrDef) (historyDefs : List HistoryDef) (id : Nat)
      (rx tx : UInt64) (flags : UpdateFlags) (now : Timestamp)
  | notifyUpdate (fuel : Nat) (ts : Timestamp)
  | setUp (level : UInt32)

/-- The end of the block in which an input module sets up a new element. -/
def Element.setUp (level : UInt32) (r : Element) : Element :=
  { r with eLevel := level, eFlags := { r.eFlags with created := false } }

def ElementOp.apply (cfg : Config) (σ : Store) (e : ElementPtr) : ElementOp → Option Store
  | lifesign => some (elementLifesign cfg σ e 1)
  | updateInfo name value => some (elementUpdateInfo σ e name value)
  | setRxmax max => some (elementSetRxmax σ e max)
  | setTxmax max => some (elementSetTxmax σ e max)
  | setKeyAttr attrDefs major minor => some (elementSetKeyAttr attrDefs σ e major minor)
  | setUsageAttr attrDefs usage => some (elementSetUsageAttr attrDefs σ e usage)
  | attrUpdate attrDefs historyDefs id rx tx flags now =>
    some (elementAttrUpdate cfg attrDefs historyDefs σ e id rx tx flags now)
  | notifyUpdate fuel ts => elementNotifyUpdate cfg fuel σ e ts
  | setUp level => some (σ.modifyElement e (Element.setUp level))

/-- What input modules call while they read. -/
inductive InputOp where
  | groupNewHdr (hdr : GroupHdr)
  | groupNewDerivedHdr (name : CString) (title : String) (template : CString)
  | groupLookup (name : CString) (create : Bool)
  | elementLookup (group : GroupPtr) (name : CString) (id : UInt32)
      (parent : Option ElementPtr) (creat : Bool)
  | onElement (e : ElementPtr) (op : ElementOp)

def InputOp.apply (cfg : Config) (σ : Store) : InputOp → Option Store
  | groupNewHdr hdr => some (Bmon.groupNewHdr σ hdr)
  | groupNewDerivedHdr name title template => some (Bmon.groupNewDerivedHdr σ name title template)
  | groupLookup name create => some (Bmon.groupLookup σ name create).1
  | elementLookup group name id parent creat =>
    if group ∈ σ.groupList ∧ ∀ p ∈ parent, σ.eGroup p = some group then
      some (Bmon.elementLookup cfg σ group name id parent creat).1
    else
      none
  | onElement e op => if (σ.elements e).isSome then op.apply cfg σ e else none

/-! ### The calls of the output modules -/

/-- What output modules call to move and read the selection. -/
inductive OutputOp where
  | elementSelectFirst
  | elementSelectLast
  | elementSelectNext
  | elementSelectPrev
  | elementCurrent
  | groupSelectFirst
  | groupSelectLast
  | groupSelectNext
  | groupSelectPrev
  | groupCurrent
  deriving DecidableEq, Repr

def OutputOp.apply (σ : Store) (s : Selection) : OutputOp → Selection
  | elementSelectFirst => Bmon.elementSelectFirst σ s
  | elementSelectLast => Bmon.elementSelectLast σ s
  | elementSelectNext => Bmon.elementSelectNext σ s
  | elementSelectPrev => Bmon.elementSelectPrev σ s
  | elementCurrent => Bmon.elementCurrent σ s
  | groupSelectFirst => Bmon.groupSelectFirst σ s
  | groupSelectLast => Bmon.groupSelectLast σ s
  | groupSelectNext => Bmon.groupSelectNext σ s
  | groupSelectPrev => Bmon.groupSelectPrev σ s
  | groupCurrent => Bmon.groupCurrent σ s

/-! ### The program -/

/-- The calls of the whole program. The decrement of `element_check_if_dead` and `element_free`
are steps of their own as well, so that the states in the middle of a sweep are reached too. -/
inductive Op where
  | input (op : InputOp)
  | output (op : OutputOp)
  | resetUpdateFlags
  | freeUnusedElements
  | decrement (e : ElementPtr)
  | elementFree (e : ElementPtr)

/-- One call. Where a group was created, it has nothing selected, as its record is zeroed. -/
def step (cfg : Config) (st : State) : Op → Option State
  | .input op => (op.apply cfg st.store).map fun σ =>
    ⟨σ, if σ.nextGroup = st.store.nextGroup then st.selection
      else st.selection.setCurrent st.store.nextGroup none⟩
  | .output op => some { st with selection := op.apply st.store st.selection }
  | .resetUpdateFlags => some { st with store := Bmon.resetUpdateFlags st.store }
  | .freeUnusedElements => some (Bmon.freeUnusedElements st)
  | .decrement e =>
    if (st.store.elements e).isSome then
      some { st with store := st.store.modifyElement e Element.tick }
    else
      none
  | .elementFree e => if (st.store.elements e).isSome then some (Bmon.elementFree st e) else none

/-- The start of the program: no elements and no groups, and nothing selected. -/
def State.start (titles : List GroupHdr) (cfgs : List ElementCfg) (allowed denied : List Policy) :
    State :=
  ⟨Store.start titles cfgs allowed denied, Selection.start⟩

/-! ### What the calls of the input modules preserve -/

theorem ElementOp.sameStanding {cfg : Config} {σ σ' : Store} {e : ElementPtr} {op : ElementOp}
    (called : op.apply cfg σ e = some σ') (other : op ≠ .lifesign) : SameStanding σ σ' := by
  cases op with
  | lifesign => exact absurd rfl other
  | updateInfo name value =>
    obtain rfl := Option.some.inj called
    exact sameStanding_elementUpdateInfo σ e name value
  | setRxmax max =>
    obtain rfl := Option.some.inj called
    exact sameStanding_elementSetMax .rx "RxMax" σ e max
  | setTxmax max =>
    obtain rfl := Option.some.inj called
    exact sameStanding_elementSetMax .tx "TxMax" σ e max
  | setKeyAttr attrDefs major minor =>
    obtain rfl := Option.some.inj called
    exact sameStanding_elementSetKeyAttr attrDefs σ e major minor
  | setUsageAttr attrDefs usage =>
    obtain rfl := Option.some.inj called
    exact sameStanding_elementSetUsageAttr attrDefs σ e usage
  | attrUpdate attrDefs historyDefs id rx tx flags now =>
    obtain rfl := Option.some.inj called
    exact sameStanding_elementAttrUpdate cfg attrDefs historyDefs σ e id rx tx flags now
  | notifyUpdate fuel ts => exact sameStanding_elementNotifyUpdate called
  | setUp level =>
    obtain rfl := Option.some.inj called
    exact sameStanding_modifyElement σ e _ (fun _ => rfl) fun _ => rfl

/-- What a call of an input module can do to the store. -/
theorem InputOp.apply_cases {cfg : Config} {σ σ' : Store} {op : InputOp}
    (called : op.apply cfg σ = some σ') :
    SameStanding σ σ' ∨
    (∃ e, op = .onElement e .lifesign ∧ σ' = elementLifesign cfg σ e 1) ∨
    (∃ hdr, σ' = groupCreate σ hdr) ∨
    (∃ group name id parent, group ∈ σ.groupList ∧ (∀ p ∈ parent, σ.eGroup p = some group) ∧
      σ' = elementCreate cfg σ group name id parent) := by
  cases op with
  | groupNewHdr hdr =>
    obtain rfl := Option.some.inj called
    exact Or.inl (sameStanding_groupNewHdr σ hdr)
  | groupNewDerivedHdr name title template =>
    obtain rfl := Option.some.inj called
    exact Or.inl (sameStanding_groupNewDerivedHdr σ name title template)
  | groupLookup name create =>
    obtain rfl := Option.some.inj called
    obtain same | created := groupLookup_cases σ name create
    · rw [same]
      exact Or.inl (SameStanding.refl σ)
    · exact Or.inr (Or.inr (Or.inl created))
  | elementLookup group name id parent creat =>
    rw [InputOp.apply] at called
    split_ifs at called with held
    obtain rfl := Option.some.inj called
    obtain same | ⟨-, created⟩ := elementLookup_cases cfg σ group name id parent creat
    · rw [same]
      exact Or.inl (SameStanding.refl σ)
    · exact Or.inr (Or.inr (Or.inr ⟨group, name, id, parent, held.1, held.2, created⟩))
  | onElement e op =>
    rw [InputOp.apply] at called
    split_ifs at called
    by_cases life : op = .lifesign
    · subst life
      obtain rfl := Option.some.inj called
      exact Or.inr (Or.inl ⟨e, rfl, rfl⟩)
    · exact Or.inl (ElementOp.sameStanding called life)

/-- Elements stay where they are when another one is created. -/
theorem elementCreate_place {cfg : Config} {σ : Store} (wf : σ.WellFormed) (group : GroupPtr)
    (name : CString) (id : UInt32) (parent : Option ElementPtr) {e : ElementPtr} {place : Place}
    (present : σ.place e = some place) :
    (elementCreate cfg σ group name id parent).place e = some place := by
  rw [(sameStanding_elementCreate cfg σ group name id parent).place]
  change (elementAlloc σ _).place e = some place
  rw [elementAlloc_place, if_neg (wf.element_lt e place present).ne, present]

section InputOp

variable {cfg : Config} {σ σ' : Store} {op : InputOp} (called : op.apply cfg σ = some σ')

include called

theorem InputOp.groupList : σ.groupList ⊆ σ'.groupList := by
  rcases InputOp.apply_cases called with same | ⟨e, -, rfl⟩ | ⟨hdr, rfl⟩ |
    ⟨group, name, id, parent, -, -, rfl⟩
  · rw [same.groupList]
    exact List.Subset.refl _
  · exact List.Subset.refl _
  · exact List.subset_append_left _ _
  · rw [(sameStanding_elementCreate cfg σ group name id parent).groupList]
    exact List.Subset.refl _

variable (wf : σ.WellFormed)

include wf

theorem InputOp.wellFormed : σ'.WellFormed := by
  rcases InputOp.apply_cases called with same | ⟨e, -, rfl⟩ | ⟨hdr, rfl⟩ |
    ⟨group, name, id, parent, isGroup, held, rfl⟩
  · exact wf.sameShape same.toSameShape
  · exact wf.sameShape (sameShape_elementLifesign cfg σ e 1)
  · exact wf.groupCreate hdr
  · exact wf.elementCreate cfg group name id parent isGroup fun p isParent =>
      eGroup_eq_some_iff.mp (held p isParent)

/-- Elements stay where they are while the input modules read. -/
theorem InputOp.place {e : ElementPtr} {place : Place} (present : σ.place e = some place) :
    σ'.place e = some place := by
  rcases InputOp.apply_cases called with same | ⟨e', -, rfl⟩ | ⟨hdr, rfl⟩ |
    ⟨group, name, id, parent, -, -, rfl⟩
  · rw [same.place, present]
  · rw [(sameShape_elementLifesign cfg σ e' 1).place, present]
  · exact present
  · exact elementCreate_place wf group name id parent present

end InputOp

/-! ### The invariant of the program -/

/-- The store is well formed and the selection valid in it. -/
structure State.Valid (st : State) : Prop where
  store : st.store.WellFormed
  selection : st.selection.Valid st.store

theorem valid_stateStart (titles : List GroupHdr) (cfgs : List ElementCfg)
    (allowed denied : List Policy) : (State.start titles cfgs allowed denied).Valid :=
  ⟨wellFormed_start titles cfgs allowed denied, valid_start _⟩

/-- Another store in the same shape. -/
theorem State.Valid.sameShape {st : State} (valid : st.Valid) {σ : Store}
    (same : SameShape st.store σ) : State.Valid { st with store := σ } :=
  have wf := valid.store.sameShape same
  ⟨wf, valid.selection.of_eGroup valid.store wf (fun g member => same.groupList ▸ member)
    fun _ e _ => by rw [Store.eGroup, same.place, Store.eGroup]⟩

/-- The functions of the selection keep it valid. -/
theorem OutputOp.valid {σ : Store} {s : Selection} (wf : σ.WellFormed) (valid : s.Valid σ)
    (op : OutputOp) : (op.apply σ s).Valid σ := by
  cases op with
  | elementSelectFirst => exact valid.elementSelectFirst
  | elementSelectLast => exact valid.elementSelectLast wf
  | elementSelectNext => exact valid.elementSelectNext wf
  | elementSelectPrev => exact valid.elementSelectPrev wf
  | elementCurrent => exact valid.elementCurrent
  | groupSelectFirst => exact valid.groupSelectFirst
  | groupSelectLast => exact valid.groupSelectLast
  | groupSelectNext => exact valid.groupSelectNext
  | groupSelectPrev => exact valid.groupSelectPrev
  | groupCurrent => exact valid.groupCurrent

theorem place_ne_none {σ : Store} {e : ElementPtr} (present : (σ.elements e).isSome) :
    σ.place e ≠ none := by
  obtain ⟨r, found⟩ := Option.isSome_iff_exists.mp present
  rw [Store.place, found, Option.map_some]
  exact Option.some_ne_none _

/-- Every call keeps the store well formed and the selection valid. -/
theorem step_valid {cfg : Config} {st next : State} {op : Op} (valid : st.Valid)
    (stepped : step cfg st op = some next) : next.Valid := by
  cases op with
  | input op =>
    obtain ⟨σ, called, rfl⟩ := Option.map_eq_some_iff.mp stepped
    have wf := InputOp.wellFormed called valid.store
    have kept : st.selection.Valid σ :=
      valid.selection.of_eGroup valid.store wf (InputOp.groupList called) fun g e picked => by
        have group := valid.store.inForest_iff.mp (valid.selection.gCurrent g e picked)
        obtain ⟨place, present, same⟩ := eGroup_eq_some_iff.mp group
        rw [group]
        exact eGroup_eq_some_iff.mpr ⟨place, InputOp.place called valid.store present, same⟩
    refine ⟨wf, ?_⟩
    change Selection.Valid σ (if _ then _ else _)
    split_ifs
    · exact kept
    · exact kept.setCurrent fun _ picked => by cases picked
  | output op =>
    obtain rfl := Option.some.inj stepped
    exact ⟨valid.store, op.valid valid.store valid.selection⟩
  | resetUpdateFlags =>
    obtain rfl := Option.some.inj stepped
    exact valid.sameShape (sameStanding_resetUpdateFlags st.store).toSameShape
  | freeUnusedElements =>
    obtain rfl := Option.some.inj stepped
    exact ⟨sweep_wellFormed valid.store, sweep_valid valid.store valid.selection⟩
  | decrement e =>
    rw [step] at stepped
    split_ifs at stepped
    obtain rfl := Option.some.inj stepped
    exact valid.sameShape (sameShape_modifyElement st.store e _ fun _ => rfl)
  | elementFree e =>
    rw [step] at stepped
    split_ifs at stepped with present
    obtain rfl := Option.some.inj stepped
    obtain ⟨wf, selection, -⟩ :=
      elementFree_spec valid.store valid.selection (place_ne_none present)
    exact ⟨wf, selection⟩

theorem run_valid {cfg : Config} {st last : State} {ops : List Op} (valid : st.Valid)
    (ran : Runs.run (step cfg) st ops = some last) : last.Valid :=
  Runs.run_invariant State.Valid (fun _ _ _ valid stepped => step_valid valid stepped) valid ran

/-- **Selection pointers stay valid.** In every run of the program, whatever calls it makes in
whatever order, the current group is in the list of groups, the selected element of every group
is linked somewhere in the forest of that group, and once `element_free` has freed an element,
no group refers to the element or to anything that was below it. -/
theorem selection_valid (cfg : Config) (titles : List GroupHdr) (cfgs : List ElementCfg)
    (allowed denied : List Policy) (ops : List Op) (st : State)
    (ran : Runs.run (step cfg) (State.start titles cfgs allowed denied) ops = some st) :
    (∀ g, st.selection.currentGroup = some g → g ∈ st.store.groupList) ∧
    (∀ g e, st.selection.gCurrent g = some e → st.store.InForest g e) ∧
    ∀ e, (st.store.elements e).isSome → ∀ g x, st.store.Above e x →
      (elementFree st e).selection.gCurrent g ≠ some x := by
  have valid := run_valid (valid_stateStart titles cfgs allowed denied) ran
  refine ⟨valid.selection.currentGroup, valid.selection.gCurrent, fun e present g x above => ?_⟩
  obtain ⟨wf, selection, freed⟩ :=
    elementFree_spec valid.store valid.selection (place_ne_none present)
  intro picked
  have group := wf.inForest_iff.mp (selection.gCurrent g x picked)
  rw [Store.eGroup, freed x above] at group
  cases group

/-- The input modules create a group, an element in it, and a child of the element. -/
def parentAndChild : List InputOp :=
  let name : CString := ⟨['i', 'f'], by decide⟩
  [.groupNewHdr ⟨name, "Interfaces", []⟩, .groupLookup name true,
    .elementLookup 0 name 0 none true, .elementLookup 0 name 1 (some 0) true]

/-- With the child selected, nothing refers to it once its parent is freed. -/
theorem selection_valid_child :
    ∃ st, Runs.run (step (confInitPost {})) (State.start [] [] [] [])
        (parentAndChild.map Op.input ++ [.output .elementSelectFirst, .output .elementSelectNext]) =
        some st ∧
      st.selection.selected = some (0, 1) ∧
      ∀ g, (elementFree st 0).selection.gCurrent g ≠ some 1 := by
  have run : (Runs.run (step (confInitPost {})) (State.start [] [] [] [])
      (parentAndChild.map Op.input ++
        [.output .elementSelectFirst, .output .elementSelectNext])).map
        (fun st => (st.selection.selected, (st.store.elements 0).isSome, st.store.eParent 1)) =
      some (some (0, 1), true, some 0) := by decide +kernel
  obtain ⟨st, ran, state⟩ := Option.map_eq_some_iff.mp run
  obtain ⟨selected, rest⟩ := Prod.mk.inj state
  obtain ⟨present, parent⟩ := Prod.mk.inj rest
  refine ⟨st, ran, selected, fun g => ?_⟩
  exact (selection_valid _ _ _ _ _ _ st ran).2.2 0 present g 1 (.single parent)

end Bmon
