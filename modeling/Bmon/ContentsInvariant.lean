/-
This file shows what the store holds in every run of the program: every group counts the
elements of its whole forest, no two siblings have the same name and id, and the information of
an element is what was written to it last.

The count of a group is compared with the pointers whose element is in the group; creating an
element adds one of them and a release takes one away, wherever in the forest. A pointer is
never handed out twice, so that the entries of the log for a pointer are about one element.
-/

import Bmon.Contents
import Mathlib.Data.Finset.Card

namespace Bmon

/-! ### The invariant -/

/-- How many elements are in a group, at any depth. -/
def Store.population (σ : Store) (g : GroupPtr) : Nat :=
  ((Finset.range σ.nextElement).filter fun e => σ.eGroup e = some g).card

/-- No two entries of a list have the same name and id. -/
def Store.DistinctSiblings (σ : Store) : Prop :=
  ∀ head, ∀ x ∈ σ.lists head, ∀ y ∈ σ.lists head, ∀ c d, σ.card x = some c → σ.card y = some d →
    c.name = d.name → c.id = d.id → x = y

/-- The groups count their elements, siblings are distinct, and the information is what was
written last. -/
structure Store.Kept (σ : Store) (log : List InfoWrite) : Prop where
  counted : ∀ g ∈ σ.groupList, ∃ r, σ.groups g = some r ∧ r.gNelements = σ.population g
  siblings : σ.DistinctSiblings
  tidy : ∀ e c, σ.card e = some c → c.Tidy
  values : ∀ e c, σ.card e = some c → ∀ name, infoValue c.infoList name = lastWritten log e name
  fresh : ∀ w ∈ log, w.element < σ.nextElement

theorem kept_start (titles : List GroupHdr) (cfgs : List ElementCfg)
    (allowed denied : List Policy) : (Store.start titles cfgs allowed denied).Kept [] where
  counted _ member := by cases member
  siblings _ _ member := by cases member
  tidy _ _ present := by cases present
  values _ _ present := by cases present
  fresh _ member := by cases member

/-- The population depends on the places only. -/
theorem population_congr {σ σ' : Store} (place : σ'.place = σ.place)
    (nextElement : σ'.nextElement = σ.nextElement) (g : GroupPtr) :
    σ'.population g = σ.population g := by
  unfold Store.population Store.eGroup
  rw [place, nextElement]

/-! ### Writes and new groups -/

/-- Writes to elements that exist keep the invariant. -/
theorem Store.Kept.writes {σ σ' : Store} {log writes : List InfoWrite} (kept : σ.Kept log)
    (same : Writes σ σ' writes) (old : ∀ w ∈ writes, w.element < σ.nextElement) :
    σ'.Kept (log ++ writes) := by
  have before : ∀ {e c}, σ'.card e = some c →
      ∃ b, σ.card e = some b ∧ b.writeAll e writes = c := fun {e c} present => by
    rw [same.card] at present
    exact Option.map_eq_some_iff.mp present
  refine ⟨fun g member => ?_, fun head x inList y inList' c d presentC presentD => ?_,
    fun e c present => ?_, fun e c present => ?_, fun w member => ?_⟩
  · rw [same.groupList] at member
    rw [same.groups, population_congr same.place same.nextElement]
    exact kept.counted g member
  · rw [same.lists] at inList inList'
    obtain ⟨b, presentB, rfl⟩ := before presentC
    obtain ⟨a, presentA, rfl⟩ := before presentD
    obtain ⟨-, nameB, idB⟩ := writeAll_identity x writes b
    obtain ⟨-, nameA, idA⟩ := writeAll_identity y writes a
    rw [nameB, nameA, idB, idA]
    exact kept.siblings head x inList y inList' b a presentB presentA
  · obtain ⟨b, presentB, rfl⟩ := before present
    exact (writeAll_tidy e writes (kept.tidy e b presentB) (kept.values e b presentB)).1
  · obtain ⟨b, presentB, rfl⟩ := before present
    exact (writeAll_tidy e writes (kept.tidy e b presentB) (kept.values e b presentB)).2
  · rw [same.nextElement]
    exact (List.mem_append.mp member).elim (kept.fresh w) (old w)

/-- What changes nothing that the invariant is about keeps it. -/
theorem Store.Kept.unwritten {σ σ' : Store} {log : List InfoWrite} (kept : σ.Kept log)
    (same : Writes σ σ' []) : σ'.Kept log := by
  have written := kept.writes same fun w member => by cases member
  rwa [List.append_nil] at written

/-- A new group has no elements, and counts none. -/
theorem Store.Kept.groupCreate {σ : Store} {log : List InfoWrite} (kept : σ.Kept log)
    (wf : σ.WellFormed) (hdr : GroupHdr) : (groupCreate σ hdr).Kept log := by
  have empty : σ.population σ.nextGroup = 0 := by
    refine Finset.card_eq_zero.mpr (Finset.filter_eq_empty_iff.mpr fun e _ group => ?_)
    obtain ⟨place, present, same⟩ := eGroup_eq_some_iff.mp group
    have less := wf.group_lt _ (wf.grouped e place present)
    rw [same] at less
    exact lt_irrefl _ less
  refine ⟨fun g member => ?_, fun head x inList y inList' => ?_, kept.tidy, kept.values, kept.fresh⟩
  · change ∃ r : ElementGroup, (if g = σ.nextGroup then _ else _) = some r ∧ _
    rcases List.mem_append.mp member with old | new
    · rw [if_neg (wf.group_lt g old).ne]
      exact kept.counted g old
    · rw [if_pos (List.mem_singleton.mp new), List.mem_singleton.mp new]
      exact ⟨_, rfl, empty.symm⟩
  · change x ∈ (if _ then _ else _) at inList
    change y ∈ (if _ then _ else _) at inList'
    split_ifs at inList inList' with new
    · cases inList
    · exact kept.siblings head x inList y inList'

/-! ### New elements -/

section ElementCreate

variable (cfg : Config) (σ : Store) (group : GroupPtr) (name : CString) (id : UInt32)
variable (parent : Option ElementPtr)

/-- Creating an element is linking it and writing its configuration. -/
theorem writes_elementCreate :
    Writes (elementLinked cfg σ group name id parent) (elementCreate cfg σ group name id parent)
      (configWrites σ.nextElement
        ((elementCfgLookup σ name).bind fun c => σ.cfgList[c]?)) := by
  have present : ((elementAlloc σ (elementNew cfg group name id parent
      (elementCfgLookup σ name))).elements σ.nextElement).isSome := by
    unfold elementAlloc
    simp only [if_true, Option.isSome_some]
  exact (writes_elementConfigure present _).link _ _ _ _

theorem card_elementLinked (e : ElementPtr) :
    (elementLinked cfg σ group name id parent).card e =
      if e = σ.nextElement then some ⟨⟨parent, group⟩, name, id, 0, []⟩ else σ.card e := by
  unfold Store.card
  rw [elements_elementLinked]
  split_ifs <;> rfl

/-- A new element is one more in its group. -/
theorem population_elementLinked (g : GroupPtr) :
    (elementLinked cfg σ group name id parent).population g =
      if g = group then σ.population g + 1 else σ.population g := by
  have here : ∀ e, (elementLinked cfg σ group name id parent).eGroup e =
      if e = σ.nextElement then some group else σ.eGroup e := fun e => by
    rw [Store.eGroup, place_eq_card, card_elementLinked, Store.eGroup, place_eq_card]
    split_ifs <;> rfl
  have same : ((Finset.range σ.nextElement).filter fun e =>
      (elementLinked cfg σ group name id parent).eGroup e = some g) =
      (Finset.range σ.nextElement).filter fun e => σ.eGroup e = some g := by
    refine Finset.filter_congr fun e inRange => ?_
    rw [here, if_neg (Finset.mem_range.mp inRange).ne]
  change ((Finset.range (σ.nextElement + 1)).filter _).card = _
  rw [Finset.range_add_one, Finset.filter_insert, here, if_pos rfl, same]
  by_cases isGroup : g = group
  · rw [if_pos (congrArg some isGroup.symm), if_pos isGroup]
    refine Finset.card_insert_of_notMem fun member => ?_
    exact Finset.notMem_range_self (Finset.mem_filter.mp member).1
  · rw [if_neg fun same => isGroup (Option.some.inj same).symm, if_neg isGroup]
    rfl

variable {σ group name id parent}

/-- Where `element_lookup` finds nothing, no entry of the list has the name and the id. -/
theorem apart_of_lookupElement (absent : lookupElement σ group name id parent = none)
    {x : ElementPtr} (inList : x ∈ σ.lists (listOf group parent)) {c : ElementCard}
    (present : σ.card x = some c) (sameName : c.name = name) (sameId : c.id = id) : False := by
  obtain ⟨r, found, rfl⟩ := Option.map_eq_some_iff.mp present
  refine List.find?_eq_none.mp absent x inList ?_
  rw [found]
  exact decide_eq_true ⟨sameName, sameId⟩

/-- Linking an element that was not there keeps the invariant. -/
theorem Store.Kept.elementLinked {log : List InfoWrite} (kept : σ.Kept log) (wf : σ.WellFormed)
    (absent : lookupElement σ group name id parent = none) :
    (elementLinked cfg σ group name id parent).Kept log := by
  have lists := wf.lists_elementLinked cfg group name id parent
  -- an entry of a list is an old one, or the new element in its own list
  have entries : ∀ {head x c}, x ∈ (Bmon.elementLinked cfg σ group name id parent).lists head →
      (Bmon.elementLinked cfg σ group name id parent).card x = some c →
      (x ∈ σ.lists head ∧ σ.card x = some c) ∨
        (x = σ.nextElement ∧ head = listOf group parent ∧ c.name = name ∧ c.id = id) := by
    intro head x c inList present
    rw [card_elementLinked] at present
    rw [lists] at inList
    rcases List.mem_append.mp inList with old | new
    · rw [if_neg (wf.lt_of_mem old).ne] at present
      exact Or.inl ⟨old, present⟩
    · split_ifs at new with here
      · obtain rfl := List.mem_singleton.mp new
        rw [if_pos rfl] at present
        obtain rfl := Option.some.inj present
        exact Or.inr ⟨rfl, here, rfl, rfl⟩
      · cases new
  have logged : ∀ other, lastWritten log σ.nextElement other = none := fun other => by
    refine Option.map_eq_none_iff.mpr (List.find?_eq_none.mpr fun w member isNext => ?_)
    have less := kept.fresh w (List.mem_reverse.mp member)
    exact less.ne (of_decide_eq_true isNext).1
  refine ⟨fun g member => ?_,
    fun head x inList y inList' c d presentC presentD sameName sameId => ?_,
    fun e c present => ?_, fun e c present => ?_, fun w member => ?_⟩
  · obtain ⟨r, found, counts⟩ := kept.counted g member
    rw [population_elementLinked]
    change ∃ r : ElementGroup, (if g = group then (σ.groups g).map _ else σ.groups g) = some r ∧ _
    rw [found]
    split_ifs
    · exact ⟨_, rfl, congrArg (· + 1) counts⟩
    · exact ⟨r, rfl, counts⟩
  · rcases entries inList presentC with ⟨oldX, cardX⟩ | ⟨rfl, here, nameX, idX⟩ <;>
      rcases entries inList' presentD with ⟨oldY, cardY⟩ | ⟨rfl, here', nameY, idY⟩
    · exact kept.siblings head x oldX y oldY c d cardX cardY sameName sameId
    · subst here'
      exact (apart_of_lookupElement absent oldX cardX (sameName.trans nameY)
        (sameId.trans idY)).elim
    · subst here
      exact (apart_of_lookupElement absent oldY cardY (sameName.symm.trans nameX)
        (sameId.symm.trans idX)).elim
    · rfl
  · rw [card_elementLinked] at present
    split_ifs at present
    · obtain rfl := Option.some.inj present
      exact ⟨rfl, List.nodup_nil⟩
    · exact kept.tidy e c present
  · rw [card_elementLinked] at present
    split_ifs at present with new
    · obtain rfl := Option.some.inj present
      intro other
      rw [new, logged]
      rfl
    · exact kept.values e c present
  · exact (kept.fresh w member).trans (Nat.lt_succ_self _)

/-- The configuration of an element writes to that element only. -/
theorem element_of_mem_configWrites {e : ElementPtr} {ec : Option ElementCfg} {w : InfoWrite}
    (member : w ∈ configWrites e ec) : w.element = e := by
  cases ec with
  | none => cases member
  | some ec =>
    rcases List.mem_append.mp member with described | maxima
    · obtain ⟨description, -, rfl⟩ := Option.map_eq_some_iff.mp (Option.mem_toList.mp described)
      rfl
    · simp only [List.mem_cons, List.not_mem_nil, or_false] at maxima
      rcases maxima with rfl | rfl <;> rfl

/-- Creating an element that was not there keeps the invariant. -/
theorem Store.Kept.elementCreate {log : List InfoWrite} (kept : σ.Kept log) (wf : σ.WellFormed)
    (absent : lookupElement σ group name id parent = none) :
    (elementCreate cfg σ group name id parent).Kept
      (log ++ configWrites σ.nextElement
        ((elementCfgLookup σ name).bind fun c => σ.cfgList[c]?)) := by
  refine (kept.elementLinked cfg wf absent).writes
    (writes_elementCreate cfg σ group name id parent) fun w member => ?_
  rw [element_of_mem_configWrites member]
  exact Nat.lt_succ_self _

end ElementCreate

/-! ### Freeing elements -/

/-- The population after the release of an element. -/
theorem Effect.population_release {st : State} {e : ElementPtr} {r : Element}
    (legal : (Effect.release e).Legal st.store) (wf : st.store.WellFormed)
    (found : st.store.elements e = some r) (g : GroupPtr) :
    ((Effect.release e).apply st).store.population g =
      if g = r.eGroup then st.store.population g - 1 else st.store.population g := by
  have group : st.store.eGroup e = some r.eGroup := by
    rw [Store.eGroup, Store.place, found]
    rfl
  have less := wf.element_lt e r.place (by rw [Store.place, found]; rfl)
  have erased : ((Finset.range st.store.nextElement).filter fun x =>
      ((Effect.release e).apply st).store.eGroup x = some g) =
      ((Finset.range st.store.nextElement).filter fun x => st.store.eGroup x = some g).erase e := by
    ext x
    rw [Finset.mem_erase, Finset.mem_filter, Finset.mem_filter, Store.eGroup,
      Effect.apply_place legal]
    by_cases same : x = e
    · simp [Effect.freed, same]
    · simp [Effect.freed, same, Ne.symm same, Store.eGroup]
  unfold Store.population
  rw [(Effect.apply_same legal).2.1, erased]
  split_ifs with isGroup
  · refine Finset.card_erase_of_mem (Finset.mem_filter.mpr ⟨Finset.mem_range.mpr less, ?_⟩)
    rw [group, isGroup]
  · refine congrArg Finset.card (Finset.erase_eq_of_notMem fun member => isGroup ?_)
    have same := (Finset.mem_filter.mp member).2
    rw [group] at same
    exact (Option.some.inj same).symm

/-- An effect keeps the invariant. -/
theorem Effect.apply_kept {st : State} {effect : Effect} {log : List InfoWrite}
    (legal : effect.Legal st.store) (wf : st.store.WellFormed) (kept : st.store.Kept log) :
    (effect.apply st).store.Kept log := by
  cases effect with
  | tick e => exact kept.unwritten (writes_modifyElement st.store e Element.tick fun _ => rfl)
  | release e =>
    obtain ⟨place, present⟩ := Option.ne_none_iff_exists'.mp legal.1
    obtain ⟨r, found, -⟩ := place_eq_some_iff.mp present
    have store : ((Effect.release e).apply st).store = _ := elementRelease_store_eq found
    have before : ∀ {x c}, ((Effect.release e).apply st).store.card x = some c →
        st.store.card x = some c := fun {x c} present => by
      rw [store] at present
      change (if x = e then none else st.store.elements x).map Element.card = some c at present
      split_ifs at present
      · cases present
      · exact present
    refine ⟨fun g member => ?_, fun head x inList y inList' c d presentC presentD => ?_,
      fun x c present => kept.tidy x c (before present),
      fun x c present => kept.values x c (before present), fun w member => ?_⟩
    · rw [(Effect.apply_same legal).1] at member
      obtain ⟨counter, isGroup, counts⟩ := kept.counted g member
      rw [Effect.population_release legal wf found, store]
      change ∃ r' : ElementGroup, (if g = r.eGroup then (st.store.groups g).map _
        else st.store.groups g) = some r' ∧ _
      rw [isGroup]
      split_ifs
      · exact ⟨_, rfl, congrArg (· - 1) counts⟩
      · exact ⟨counter, rfl, counts⟩
    · rw [Effect.apply_lists legal] at inList inList'
      exact kept.siblings head x (List.mem_filter.mp inList).1 y (List.mem_filter.mp inList').1 c d
        (before presentC) (before presentD)
    · rw [(Effect.apply_same legal).2.1]
      exact kept.fresh w member

theorem applyAll_kept {st : State} {effects : List Effect} {log : List InfoWrite}
    (legal : LegalAll st effects) (wf : st.store.WellFormed) (kept : st.store.Kept log) :
    (applyAll st effects).store.Kept log := by
  induction effects generalizing st with
  | nil => exact kept
  | cons effect rest inductionHypothesis =>
    exact inductionHypothesis legal.2 (Effect.apply_wellFormed legal.1 wf)
      (Effect.apply_kept legal.1 wf kept)

/-! ### Runs -/

theorem writes_groupNewHdr (σ : Store) (hdr : GroupHdr) : Writes σ (groupNewHdr σ hdr) [] := by
  rw [groupNewHdr_titlesList]
  exact .of_eq rfl rfl rfl rfl rfl

theorem writes_groupNewDerivedHdr (σ : Store) (name : CString) (title : String)
    (template : CString) : Writes σ (groupNewDerivedHdr σ name title template) [] := by
  rw [groupNewDerivedHdr_titlesList]
  exact .of_eq rfl rfl rfl rfl rfl

/-- `reset_update_flags` writes nothing. -/
theorem writes_resetUpdateFlags (σ : Store) : Writes σ (resetUpdateFlags σ) [] := by
  have each : ∀ (σ' : Store) (g : GroupPtr) (e : ElementPtr), Writes σ σ' [] →
      Writes σ (elementResetUpdateFlag σ' g e) [] := fun σ' _ e same =>
    same.trans (writes_modifyElement σ' e _ fun _ => rfl)
  exact groupForeachRecursive_invariant elementResetUpdateFlag each (Writes.refl σ)

/-- The calls of an input module keep the invariant, with what they write. -/
theorem InputOp.kept {cfg : Config} {σ σ' : Store} {op : InputOp} {log : List InfoWrite}
    (called : op.apply cfg σ = some σ') (wf : σ.WellFormed) (kept : σ.Kept log) :
    σ'.Kept (log ++ op.infoWrites σ) := by
  cases op with
  | groupNewHdr hdr =>
    obtain rfl := Option.some.inj called
    exact kept.writes (writes_groupNewHdr σ hdr) fun w member => by cases member
  | groupNewDerivedHdr name title template =>
    obtain rfl := Option.some.inj called
    exact kept.writes (writes_groupNewDerivedHdr σ name title template)
      fun w member => by cases member
  | groupLookup name create =>
    obtain rfl := Option.some.inj called
    change (Bmon.groupLookup σ name create).1.Kept (log ++ [])
    rw [List.append_nil]
    obtain same | ⟨hdr, created⟩ := groupLookup_cases σ name create
    · rw [same]
      exact kept
    · rw [created]
      exact kept.groupCreate wf hdr
  | elementLookup group name id parent creat =>
    rw [InputOp.apply] at called
    split_ifs at called
    obtain rfl := Option.some.inj called
    unfold Bmon.elementLookup
    simp only [InputOp.infoWrites]
    cases absent : lookupElement σ group name id parent with
    | some e =>
      simp only [reduceCtorEq, false_and, if_false, List.append_nil]
      exact kept
    | none =>
      simp only [true_and]
      split_ifs
      · exact kept.elementCreate cfg wf absent
      · rw [List.append_nil]
        exact kept
  | onElement e op =>
    rw [InputOp.apply] at called
    split_ifs at called with present
    obtain ⟨place, some⟩ := Option.ne_none_iff_exists'.mp (place_ne_none present)
    refine kept.writes (ElementOp.writes present called) fun w member => ?_
    have element : w.element = e := by
      cases op with
      | updateInfo name value =>
        rw [List.mem_singleton.mp member]
      | setRxmax max =>
        rw [List.mem_singleton.mp member]
      | setTxmax max =>
        rw [List.mem_singleton.mp member]
      | _ => cases member
    rw [element]
    exact wf.element_lt e place some

/-- Every call of the program keeps the invariant, with what it writes. -/
theorem step_kept {cfg : Config} {st next : State} {op : Op} {log : List InfoWrite}
    (valid : st.Valid) (kept : st.store.Kept log) (stepped : step cfg st op = some next) :
    next.store.Kept (log ++ op.infoWrites st) := by
  cases op with
  | input op =>
    obtain ⟨σ, called, rfl⟩ := Option.map_eq_some_iff.mp stepped
    exact InputOp.kept called valid.store kept
  | output op =>
    obtain rfl := Option.some.inj stepped
    simp only [Op.infoWrites, List.append_nil]
    exact kept
  | resetUpdateFlags =>
    obtain rfl := Option.some.inj stepped
    simp only [Op.infoWrites, List.append_nil]
    exact kept.unwritten (writes_resetUpdateFlags st.store)
  | freeUnusedElements =>
    obtain rfl := Option.some.inj stepped
    simp only [Op.infoWrites, List.append_nil]
    obtain ⟨forest, represents⟩ := valid.store.represents
    obtain ⟨swept, legal⟩ := freeUnusedElements_eq represents
    rw [swept]
    exact applyAll_kept legal valid.store kept
  | decrement e =>
    rw [step] at stepped
    split_ifs at stepped
    obtain rfl := Option.some.inj stepped
    simp only [Op.infoWrites, List.append_nil]
    exact kept.unwritten (writes_modifyElement st.store e Element.tick fun _ => rfl)
  | elementFree e =>
    rw [step] at stepped
    split_ifs at stepped with present
    obtain rfl := Option.some.inj stepped
    simp only [Op.infoWrites, List.append_nil]
    obtain ⟨below, -, free, legal⟩ := elementFree_effects valid.store (place_ne_none present)
    rw [free]
    exact applyAll_kept legal valid.store kept

/-- In every run the store keeps the invariant for all that was written in it. -/
theorem run_kept {cfg : Config} {st last : State} {log final : List InfoWrite} {ops : List Op}
    (valid : st.Valid) (kept : st.store.Kept log)
    (ran : Runs.run (loggedStep cfg) (st, log) ops = some (last, final)) :
    last.Valid ∧ last.store.Kept final := by
  refine Runs.run_invariant (fun pair : State × List InfoWrite =>
    pair.1.Valid ∧ pair.1.store.Kept pair.2) (fun pair op next holds stepped => ?_)
    ⟨valid, kept⟩ ran
  obtain ⟨after, called, rfl⟩ := Option.map_eq_some_iff.mp stepped
  exact ⟨step_valid holds.1 called, step_kept holds.1 holds.2 called⟩

/-! ### The store of a run -/

/-- What the store of a program that has written a log shows. -/
structure Store.Consistent (σ : Store) (log : List InfoWrite) : Prop where
  /-- Every group counts the elements of its whole forest. -/
  gNelements : ∃ forest, Represents σ forest ∧
    ∀ g ∈ σ.groupList, ∃ r, σ.groups g = some r ∧ r.gNelements = (forest g).preorder.length
  /-- No two siblings have the same name and id. -/
  siblings : ∀ head, ∀ x ∈ σ.lists head, ∀ y ∈ σ.lists head, ∀ r s, σ.elements x = some r →
    σ.elements y = some s → r.eName = s.eName → r.eId = s.eId → x = y
  /-- The parent of an element is the one that holds it. -/
  eParent : ∀ p c, c ∈ σ.lists (.ofElement p) ↔ σ.eParent c = some p
  /-- An element is in the group of its parent. -/
  eGroup : ∀ p c, c ∈ σ.lists (.ofElement p) → σ.eGroup c = σ.eGroup p
  /-- Every element counts its information, which has different names. -/
  eNinfo : ∀ e r, σ.elements e = some r →
    r.eNinfo = r.eInfoList.length ∧ (r.eInfoList.map Info.iName).Nodup
  /-- The information of an element is what was written last. -/
  eInfoList : ∀ e r, σ.elements e = some r →
    ∀ name, infoValue r.eInfoList name = lastWritten log e name

/-- Exactly the subtree of an element is removed: the elements in it are freed, the others are
as they were, and the lists keep them in their order. -/
def RemovesSubtree (σ σ' : Store) (e : ElementPtr) : Prop :=
  ∃ freed : List ElementPtr, (∀ x, x ∈ freed ↔ σ.Above e x) ∧
    (∀ x, σ'.elements x = if x ∈ freed then none else σ.elements x) ∧
    ∀ head, σ'.lists head = (σ.lists head).filter fun x => decide (x ∉ freed)

/-- The nodes of the forest of a group are the elements in the group. -/
theorem length_preorder {σ : Store} (wf : σ.WellFormed) {forest : GroupPtr → Forest ElementPtr}
    (represents : Represents σ forest) {g : GroupPtr} (isGroup : g ∈ σ.groupList) :
    (forest g).preorder.length = σ.population g := by
  have nodup := (List.nodup_flatMap.mp represents.nodup).1 g isGroup
  rw [← List.toFinset_card_of_nodup nodup, Store.population]
  refine congrArg Finset.card (Finset.ext fun e => ?_)
  rw [List.mem_toFinset, Finset.mem_filter, Finset.mem_range,
    wf.mem_preorder_iff represents isGroup, wf.inForest_iff]
  refine ⟨fun group => ⟨?_, group⟩, And.right⟩
  obtain ⟨place, present, -⟩ := eGroup_eq_some_iff.mp group
  exact wf.element_lt e place present

theorem Store.Kept.consistent {σ : Store} {log : List InfoWrite} (wf : σ.WellFormed)
    (kept : σ.Kept log) : σ.Consistent log := by
  have onCard : ∀ {e r}, σ.elements e = some r → σ.card e = some r.card := fun {e r} found => by
    rw [Store.card, found, Option.map_some]
  obtain ⟨forest, represents⟩ := wf.represents
  refine ⟨⟨forest, represents, fun g isGroup => ?_⟩, ?_, fun p c => ⟨fun child => ?_, ?_⟩,
    fun p c child => wf.eGroup_child child, fun e r found => ?_, fun e r found => ?_⟩
  · rw [length_preorder wf represents isGroup]
    exact kept.counted g isGroup
  · intro head x inList y inList' r s foundX foundY sameName sameId
    exact kept.siblings head x inList y inList' r.card s.card (onCard foundX) (onCard foundY)
      sameName sameId
  · obtain ⟨-, place, -, present, parent, -, -⟩ := wf.owner_present child
    exact isParent_iff.mpr ⟨place, present, parent⟩
  · exact wf.mem_of_isParent
  · have tidy := kept.tidy e r.card (onCard found)
    exact ⟨tidy.ninfo, tidy.nodup⟩
  · exact kept.values e r.card (onCard found)

theorem elementFree_removesSubtree {st : State} (wf : st.store.WellFormed) {e : ElementPtr}
    (present : (st.store.elements e).isSome) :
    RemovesSubtree st.store (elementFree st e).store e := by
  obtain ⟨below, aboveIff, free, legal⟩ := elementFree_effects wf (place_ne_none present)
  rw [free]
  refine ⟨freedBy (releaseTree e below), fun x => ?_, fun x => ?_, applyAll_lists legal⟩
  · rw [mem_freedBy_releaseTree, aboveIff]
  · split_ifs with freed
    · have absent := applyAll_place legal x
      rw [if_pos freed] at absent
      exact Option.map_eq_none_iff.mp absent
    · refine applyAll_elements_other legal fun target => freed ?_
      exact mem_freedBy_releaseTree.mpr (target_releaseTree.mp target)

/-- **The store of every run.** After any calls of the program, in any order, every group counts
the elements of its whole forest, no two siblings have the same name and id, the elements are
linked below their parent and in its group, and their information is what was written last. And
from there `element_free` removes exactly the subtree of the element it is called for. -/
theorem store_consistent (cfg : Config) (titles : List GroupHdr) (cfgs : List ElementCfg)
    (allowed denied : List Policy) (ops : List Op) (st : State) (log : List InfoWrite)
    (ran : Runs.run (loggedStep cfg) (State.start titles cfgs allowed denied, []) ops =
      some (st, log)) :
    st.store.Consistent log ∧
      ∀ e, (st.store.elements e).isSome → RemovesSubtree st.store (elementFree st e).store e := by
  obtain ⟨valid, kept⟩ := run_kept (valid_stateStart titles cfgs allowed denied)
    (kept_start titles cfgs allowed denied) ran
  exact ⟨kept.consistent valid.store, fun e present =>
    elementFree_removesSubtree valid.store present⟩

/-- Two values are written for one name of a child. -/
def linkGoesDown : List InputOp :=
  parentAndChild ++
    [.onElement 1 (.updateInfo "Link" "up"), .onElement 1 (.updateInfo "Link" "down")]

/-- The child has the second value, and is removed with its parent. -/
theorem store_consistent_child :
    ∃ st log, Runs.run (loggedStep (confInitPost {})) (State.start [] [] [] [], [])
        (linkGoesDown.map Op.input) = some (st, log) ∧
      lastWritten log 1 "Link" = some "down" ∧ st.store.Consistent log ∧
      RemovesSubtree st.store (elementFree st 0).store 0 := by
  have run : (Runs.run (loggedStep (confInitPost {})) (State.start [] [] [] [], [])
      (linkGoesDown.map Op.input)).map
        (fun pair => (lastWritten pair.2 1 "Link", (pair.1.store.elements 0).isSome)) =
      some (some "down", true) := by decide +kernel
  obtain ⟨⟨st, log⟩, ran, facts⟩ := Option.map_eq_some_iff.mp run
  obtain ⟨last, present⟩ := Prod.mk.inj facts
  obtain ⟨consistent, removes⟩ := store_consistent _ _ _ _ _ _ st log ran
  exact ⟨st, log, ran, last, consistent, removes 0 present⟩

end Bmon
