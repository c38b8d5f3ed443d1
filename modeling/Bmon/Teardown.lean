/-
This file models the end of the program, when `group_exit` frees all groups, and shows what it
leaves behind.

`group_free` moves the current group on, frees the elements of the group and then the record of
the group. It does not unlink the record from the list of groups, so that the freed groups stay the
neighbours of the others, and the first entry of the list is the first one that is freed. The
repairs in `element_free` move through this list. The freed records are written down next to the
state; the list is taken to keep its links, as it does until the memory is used again.
-/

import Bmon.SelectionFrame

namespace Bmon

/-! ### Freeing the groups -/

/-- `xfree(g)` for a group, which stays linked. -/
def Store.xfreeGroup (σ : Store) (g : GroupPtr) : Store :=
  { σ with groups := fun p => if p = g then none else σ.groups p }

/-- The beginning of `group_free`, which moves the current group on. -/
def groupLeave (st : State) (g : GroupPtr) : State :=
  if st.selection.currentGroup = some g then
    let s := groupSelectNext st.store st.selection
    if s.currentGroup = none ∨ s.currentGroup = some g then
      { st with selection := { s with currentGroup := none } }
    else
      { st with selection := s }
  else
    st

/-- The loop of `group_free` over the elements of the group. -/
def groupFreeElements (st : State) (g : GroupPtr) : State :=
  elementFreeChilds st.store.nextElement st (st.store.firstEntry (.ofGroup g))

/-- `group_free`. -/
def groupFree (st : State) (g : GroupPtr) : State :=
  let st := groupFreeElements (groupLeave st g) g
  { st with store := st.store.xfreeGroup g }

/-- The loop of `group_exit` over the groups. -/
def groupExit (st : State) : State := st.store.groupList.foldl groupFree st

/-! ### The states on the way -/

/-- The states in which `element_free` releases an element in its loop over a list, from an entry
on, each with the element. -/
def elementFreeChildsLog : Nat → State → Option ElementPtr → List (State × ElementPtr)
  | _, _, none => []
  | 0, _, some _ => []
  | fuel + 1, st, some c =>
    let below := st.store.firstEntry (.ofElement c)
    let released := elementFreeChilds fuel st below
    elementFreeChildsLog fuel st below ++ (released, c) ::
      elementFreeChildsLog fuel (elementRelease released c) (st.store.eNext c)

/-- A state on the way, with the groups that are freed already, and the element that is released
in it if one is. -/
structure Moment where
  freed : List GroupPtr
  state : State
  released : Option ElementPtr

/-- The states on the way through `group_free`. -/
def groupFreeMoments (freed : List GroupPtr) (st : State) (g : GroupPtr) : List Moment :=
  let left := groupLeave st g
  let log := elementFreeChildsLog left.store.nextElement left (left.store.firstEntry (.ofGroup g))
  [⟨freed, st, none⟩, ⟨freed, left, none⟩] ++
    (log.map fun entry => ⟨freed, entry.1, some entry.2⟩) ++
      [⟨freed, groupFreeElements left g, none⟩]

/-- The states on the way through the loop of `group_exit`, from a group on. -/
def groupExitMoments : List GroupPtr → List GroupPtr → State → List Moment
  | freed, [], st => [⟨freed, st, none⟩]
  | freed, g :: groups, st =>
    groupFreeMoments freed st g ++ groupExitMoments (g :: freed) groups (groupFree st g)

/-! ### What goes wrong -/

/-- The selections that calls of `group_select_next`, `group_select_prev` and `group_current` lead
to. -/
def GroupsReached (σ : Store) : Selection → Selection → Prop :=
  Relation.ReflTransGen fun s next =>
    next = groupSelectNext σ s ∨ next = groupSelectPrev σ s ∨ next = groupCurrent σ s

/-- The groups `element_select_prev` reads: the current one, and the one that is current then. -/
def elementSelectPrevReads (σ : Store) (s : Selection) : List GroupPtr :=
  (groupCurrent σ s).currentGroup.toList ++ (elementSelectPrev σ s).currentGroup.toList

/-- The groups the repair in `element_free` reads. -/
def Moment.repairReads (moment : Moment) : List GroupPtr :=
  match moment.released.bind fun e => moment.state.store.elements e with
  | none => []
  | some r =>
    if moment.state.selection.gCurrent r.eGroup = moment.released then
      elementSelectPrevReads moment.state.store moment.state.selection
    else []

/-- The current group is not freed, and neither are the groups reached from it or from the list of
groups, nor the groups a repair reads. -/
structure Moment.Orderly (moment : Moment) : Prop where
  current : ∀ g, moment.state.selection.currentGroup = some g → g ∉ moment.freed
  reached : ∀ s, GroupsReached moment.state.store moment.state.selection s →
    ∀ g, s.currentGroup = some g → g ∉ moment.freed
  repair : ∀ g ∈ moment.repairReads, g ∉ moment.freed

/-! ### The states are those of the program -/

theorem groupExitMoments_last (freed groups : List GroupPtr) (st : State) :
    (⟨groups.reverse ++ freed, groups.foldl groupFree st, none⟩ : Moment) ∈
      groupExitMoments freed groups st := by
  induction groups generalizing freed st with
  | nil => exact List.mem_singleton.mpr rfl
  | cons g groups inductionHypothesis =>
    rw [List.reverse_cons, List.append_assoc, List.singleton_append]
    exact List.mem_append_right _ (inductionHypothesis (g :: freed) (groupFree st g))

/-- In the last one all groups are freed, and it is where `group_exit` ends. -/
theorem groupExit_moment (st : State) :
    (⟨st.store.groupList.reverse, groupExit st, none⟩ : Moment) ∈
      groupExitMoments [] st.store.groupList st := by
  have last := groupExitMoments_last [] st.store.groupList st
  rw [List.append_nil] at last
  exact last

/-- The releases of some elements, one after the other. -/
def releaseLog : State → List ElementPtr → List (State × ElementPtr)
  | _, [] => []
  | st, e :: nodes => (st, e) :: releaseLog (elementRelease st e) nodes

theorem releaseLog_append (st : State) (before after : List ElementPtr) :
    releaseLog st (before ++ after) =
      releaseLog st before ++ releaseLog (applyAll st (before.map Effect.release)) after := by
  induction before generalizing st with
  | nil => rfl
  | cons e before inductionHypothesis =>
    exact congrArg ((st, e) :: ·) (inductionHypothesis (elementRelease st e))

/-- The loop over a forest releases its nodes in postorder. -/
theorem elementFreeChildsLog_eq {fuel : Nat} {st : State} {head : ListHead}
    {forest : Forest ElementPtr} (hangs : Hangs st.store head forest)
    (enough : forest.preorder.length ≤ fuel) :
    elementFreeChildsLog fuel st forest.roots.head? = releaseLog st forest.postorder := by
  induction forest generalizing fuel st head with
  | nil => cases fuel <;> rfl
  | cons node below beside belowHypothesis besideHypothesis =>
    cases fuel with
    | zero => simp [Forest.preorder] at enough
    | succ fuel =>
      have whole := (elementFreeChilds_eq hangs enough).2
      simp only [Forest.preorder, List.length_cons, List.length_append] at enough
      obtain ⟨⟨-, freshBeside⟩, -, -, apart⟩ := Forest.nodup_preorder_cons.mp hangs.nodup
      have enoughBelow : below.preorder.length ≤ fuel := by omega
      have freeBelow := (elementFreeChilds_eq hangs.childs enoughBelow).1
      have listed : (Forest.cons node below beside).postorder =
          (below.postorder ++ [node]) ++ beside.postorder := by
        rw [Forest.postorder, List.append_assoc, List.singleton_append]
      have tree : (below.postorder ++ [node]).map Effect.release = releaseTree node below :=
        List.map_append
      rw [listed, List.map_append, legalAll_append, tree] at whole
      have hangsBeside := hangs.siblings.applyAll whole.1 fun e inBeside target => by
        rcases target_releaseTree.mp target with rfl | inBelow
        · exact freshBeside inBeside
        · exact apart inBelow inBeside
      have released : applyAll st (releaseTree node below) =
          elementRelease (elementFreeChilds fuel st below.roots.head?) node := by
        rw [freeBelow, releaseTree, applyAll_append]
        rfl
      rw [released] at hangsBeside
      simp only [Forest.roots, List.head?_cons, elementFreeChildsLog]
      rw [hangs.eNext, hangs.firstEntry, belowHypothesis hangs.childs enoughBelow,
        besideHypothesis hangsBeside (by omega), listed, releaseLog_append, releaseLog_append, tree,
        released, freeBelow, List.append_assoc]
      rfl

/-! ### What the end of the program preserves -/

theorem groupLeave_valid {st : State} (valid : st.Valid) (g : GroupPtr) :
    (groupLeave st g).Valid := by
  unfold groupLeave
  simp only
  split_ifs
  · exact ⟨valid.store, valid.selection.groupSelectNext.selectGroup fun _ same => by cases same⟩
  · exact ⟨valid.store, valid.selection.groupSelectNext⟩
  · exact valid

/-- Moving on leaves the store, and what is selected in the groups. -/
theorem groupLeave_same (st : State) (g : GroupPtr) :
    (groupLeave st g).store = st.store ∧
      (groupLeave st g).selection.gCurrent = st.selection.gCurrent := by
  have next : (groupSelectNext st.store st.selection).gCurrent = st.selection.gCurrent := by
    unfold groupSelectNext
    split
    · rfl
    · split <;> rfl
  unfold groupLeave
  simp only
  split_ifs
  · exact ⟨rfl, next⟩
  · exact ⟨rfl, next⟩
  · exact ⟨rfl, rfl⟩

/-- The elements of a group are released in postorder. -/
theorem groupFreeElements_eq {st : State} {forest : GroupPtr → Forest ElementPtr}
    (represents : Represents st.store forest) {g : GroupPtr} (isGroup : g ∈ st.store.groupList) :
    groupFreeElements st g = applyAll st ((forest g).postorder.map Effect.release) ∧
      elementFreeChildsLog st.store.nextElement st (st.store.firstEntry (.ofGroup g)) =
        releaseLog st (forest g).postorder ∧
      LegalAll st ((forest g).postorder.map Effect.release) := by
  have hangs := represents.hangs isGroup
  have enough := represents.length_le isGroup
  obtain ⟨free, legal⟩ := elementFreeChilds_eq hangs enough
  have first : st.store.firstEntry (.ofGroup g) = (forest g).roots.head? := by
    rw [Store.firstEntry, represents.roots g isGroup]
  refine ⟨?_, ?_, legal⟩
  · rw [groupFreeElements, first, free]
  · rw [first, elementFreeChildsLog_eq hangs enough]

/-- `group_free` keeps the list of groups and both invariants. -/
theorem groupFree_valid {st : State} (valid : st.Valid) {g : GroupPtr}
    (isGroup : g ∈ st.store.groupList) :
    (groupFree st g).Valid ∧ (groupFree st g).store.groupList = st.store.groupList := by
  have left := groupLeave_valid valid g
  have isGroupLeft : g ∈ (groupLeave st g).store.groupList := by
    rw [(groupLeave_same st g).1]
    exact isGroup
  obtain ⟨forest, represents⟩ := left.store.represents
  obtain ⟨free, -, legal⟩ := groupFreeElements_eq represents isGroupLeft
  have freed : (groupFreeElements (groupLeave st g) g).Valid := by
    rw [free]
    exact ⟨applyAll_wellFormed legal left.store, applyAll_valid legal left.store left.selection⟩
  refine ⟨freed.sameShape ⟨rfl, rfl, rfl, rfl, rfl⟩, ?_⟩
  show (groupFreeElements (groupLeave st g) g).store.groupList = _
  rw [free, applyAll_groupList legal, (groupLeave_same st g).1]

theorem groupsFree_valid {st : State} (valid : st.Valid) {groups : List GroupPtr}
    (areGroups : groups ⊆ st.store.groupList) :
    (groups.foldl groupFree st).Valid ∧
      (groups.foldl groupFree st).store.groupList = st.store.groupList := by
  induction groups generalizing st with
  | nil => exact ⟨valid, rfl⟩
  | cons g groups inductionHypothesis =>
    obtain ⟨valid', same⟩ := groupFree_valid valid (areGroups List.mem_cons_self)
    obtain ⟨last, sameLast⟩ := inductionHypothesis valid' fun h member =>
      same ▸ areGroups (List.mem_cons_of_mem g member)
    exact ⟨last, sameLast.trans same⟩

/-! ### The end -/

/-- At the end of the loop the groups are all freed, and at least one can be reached. -/
theorem not_orderly {st : State} (valid : st.Valid) (someGroup : st.store.groupList ≠ []) :
    ¬ ∀ moment ∈ groupExitMoments [] st.store.groupList st, moment.Orderly := by
  intro orderly
  have last := orderly _ (groupExit_moment st)
  obtain ⟨validLast, same⟩ := groupsFree_valid valid (List.Subset.refl st.store.groupList)
  cases current : (st.store.groupList.foldl groupFree st).selection.currentGroup with
  | some g =>
    have isGroup := validLast.selection.currentGroup g current
    rw [same] at isGroup
    exact last.current g current (List.mem_reverse.mpr isGroup)
  | none =>
    obtain ⟨first, rest, groups⟩ := List.exists_cons_of_ne_nil someGroup
    have reached : (groupCurrent (st.store.groupList.foldl groupFree st).store
        (st.store.groupList.foldl groupFree st).selection).currentGroup = some first := by
      unfold groupCurrent
      rw [current]
      show List.head? _ = _
      rw [same, groups, List.head?_cons]
    refine last.reached _ (.single (Or.inr (Or.inr rfl))) first reached ?_
    rw [groups]
    exact List.mem_reverse.mpr List.mem_cons_self

/-- With a single group, nothing is freed before the repairs. -/
theorem repairReads_single {st : State} (few : st.store.groupList.length ≤ 1) :
    ∀ moment ∈ groupExitMoments [] st.store.groupList st,
      ∀ g ∈ moment.repairReads, g ∉ moment.freed := by
  have unfreed (g : GroupPtr) : ∀ moment ∈ groupFreeMoments [] st g, moment.freed = [] := by
    intro moment member
    rcases List.mem_append.mp member with member | member
    · rcases List.mem_append.mp member with member | member
      · rcases List.mem_cons.mp member with rfl | member
        · rfl
        · obtain rfl := List.mem_singleton.mp member
          rfl
      · obtain ⟨entry, -, rfl⟩ := List.mem_map.mp member
        rfl
    · obtain rfl := List.mem_singleton.mp member
      rfl
  intro moment member g read
  cases groups : st.store.groupList with
  | nil =>
    rw [groups] at member
    obtain rfl := List.mem_singleton.mp member
    exact List.not_mem_nil
  | cons first rest =>
    rw [groups] at few member
    obtain rfl : rest = [] :=
      List.length_eq_zero_iff.mp (Nat.le_zero.mp (Nat.le_of_succ_le_succ few))
    rcases List.mem_append.mp member with member | member
    · rw [unfreed first moment member]
      exact List.not_mem_nil
    · obtain rfl := List.mem_singleton.mp member
      cases read

/-! ### Something is selected in the last group -/

/-- `element_select_prev` does not unselect what is selected in a group. -/
theorem elementSelectPrev_selected {σ : Store} {s : Selection} (wf : σ.WellFormed)
    (valid : s.Valid σ) {h : GroupPtr} (selected : s.gCurrent h ≠ none) :
    (elementSelectPrev σ s).gCurrent h ≠ none := by
  by_cases there : (elementSelectPrev σ s).currentGroup = some h
  swap
  · rw [elementSelectPrev_gCurrent there]
    exact selected
  obtain ⟨forest, represents⟩ := wf.represents
  cases current : (groupCurrent σ s).currentGroup with
  | none =>
    have same : elementSelectPrev σ s = groupCurrent σ s := by
      unfold elementSelectPrev
      simp only [current]
    rw [same, gCurrent_groupCurrent]
    exact selected
  | some c =>
    have here : (groupCurrent σ s).At (c, (groupCurrent σ s).gCurrent c) := ⟨current, rfl⟩
    have inside := here.inside wf represents valid.groupCurrent
    have moved := here.elementSelectPrev represents inside.1 inside.2
    rw [elementSelectPrev_groupCurrent] at moved
    have isHere := Option.some.inj (moved.1.symm.trans there)
    have picked := moved.2
    rw [isHere] at picked
    intro nothing
    have isEmpty := Neighbours.advance_eq_none (picked.symm.trans nothing)
    rw [isHere, List.reverse_eq_nil_iff] at isEmpty
    obtain ⟨x, isSelected⟩ := Option.ne_none_iff_exists'.mp selected
    have isGroup := valid.groupCurrent.elementSelectPrev wf
    rw [elementSelectPrev_groupCurrent] at isGroup
    have member := (wf.mem_preorder_iff represents (isGroup.currentGroup h there)).mpr
      (valid.gCurrent h x isSelected)
    rw [isEmpty] at member
    cases member

/-- Freeing elements of one group does not unselect what is selected in another one. -/
theorem Releases.keeps_selected {st : State} {g h : GroupPtr} {nodes : List ElementPtr}
    (releases : Releases st g nodes) (valid : st.Valid) (apart : h ≠ g)
    (selected : st.selection.gCurrent h ≠ none) :
    (applyAll st (nodes.map Effect.release)).selection.gCurrent h ≠ none := by
  induction nodes generalizing st with
  | nil => exact selected
  | cons e nodes inductionHypothesis =>
    have legal := releases.legal.1
    refine inductionHypothesis releases.tail ⟨Effect.apply_wellFormed legal valid.store,
      Effect.apply_valid legal valid.store valid.selection⟩ ?_
    have group := releases.group e List.mem_cons_self
    show (elementRelease st e).selection.gCurrent h ≠ none
    rw [elementRelease_selection]
    by_cases own : st.selection.gCurrent g = some e
    · rw [elementUnselect_selected group own]
      have moved := elementSelectPrev_selected valid.store valid.selection selected
      split_ifs
      · rw [show (Selection.setCurrent _ g none).gCurrent h = _ from if_neg apart]
        exact moved
      · exact moved
    · rw [elementUnselect_other group own]
      exact selected

/-- The elements of a group are the ones that are released with it. -/
theorem releases_group {st : State} (valid : st.Valid) {forest : GroupPtr → Forest ElementPtr}
    (represents : Represents st.store forest) {g : GroupPtr} (isGroup : g ∈ st.store.groupList) :
    Releases st g (forest g).postorder := by
  refine ⟨(groupFreeElements_eq represents isGroup).2.2, fun e member => ?_,
    (forest g).postorder_perm.nodup_iff.mpr (represents.hangs isGroup).nodup⟩
  rw [Forest.mem_postorder_iff, valid.store.mem_preorder_iff represents isGroup] at member
  exact valid.store.inForest_iff.mp member

theorem groupFree_selected {st : State} (valid : st.Valid) {g h : GroupPtr}
    (isGroup : g ∈ st.store.groupList) (apart : h ≠ g) (selected : st.selection.gCurrent h ≠ none) :
    (groupFree st g).selection.gCurrent h ≠ none := by
  have left := groupLeave_valid valid g
  have isGroupLeft : g ∈ (groupLeave st g).store.groupList := by
    rw [(groupLeave_same st g).1]
    exact isGroup
  obtain ⟨forest, represents⟩ := left.store.represents
  show (groupFreeElements (groupLeave st g) g).selection.gCurrent h ≠ none
  rw [(groupFreeElements_eq represents isGroupLeft).1]
  refine (releases_group left represents isGroupLeft).keeps_selected left apart ?_
  rw [(groupLeave_same st g).2]
  exact selected

theorem groupsFree_selected {st : State} (valid : st.Valid) {groups : List GroupPtr}
    (areGroups : groups ⊆ st.store.groupList) {h : GroupPtr} (apart : h ∉ groups)
    (selected : st.selection.gCurrent h ≠ none) :
    (groups.foldl groupFree st).selection.gCurrent h ≠ none := by
  induction groups generalizing st with
  | nil => exact selected
  | cons g groups inductionHypothesis =>
    rw [List.mem_cons, not_or] at apart
    have isGroup := areGroups List.mem_cons_self
    obtain ⟨valid', same⟩ := groupFree_valid valid isGroup
    exact inductionHypothesis valid'
      (fun _ member => same ▸ areGroups (List.mem_cons_of_mem g member)) apart.2
      (groupFree_selected valid isGroup apart.1 selected)

/-- `group_free` leaves the group it frees. -/
theorem groupLeave_currentGroup (st : State) (g : GroupPtr) :
    (groupLeave st g).selection.currentGroup ≠ some g := by
  unfold groupLeave
  simp only
  split_ifs with current next
  · exact nofun
  · exact (not_or.mp next).2
  · exact current

theorem groupExitMoments_behind {freed first second : List GroupPtr} {st : State} {moment : Moment}
    (member : moment ∈
      groupExitMoments (first.reverse ++ freed) second (first.foldl groupFree st)) :
    moment ∈ groupExitMoments freed (first ++ second) st := by
  induction first generalizing freed st with
  | nil => exact member
  | cons g first inductionHypothesis =>
    rw [List.reverse_cons, List.append_assoc, List.singleton_append] at member
    exact List.mem_append_right _ (inductionHypothesis member)

/-- Where the last group is not the current one, `group_current` finds one of the others. -/
theorem groupCurrent_front {σ : Store} {s : Selection} {front : List GroupPtr} {last : GroupPtr}
    (groups : σ.groupList = front ++ [last]) (several : front ≠ [])
    (areGroups : ∀ g, s.currentGroup = some g → g ∈ σ.groupList)
    (other : s.currentGroup ≠ some last) :
    ∃ c ∈ front, (groupCurrent σ s).currentGroup = some c := by
  cases current : s.currentGroup with
  | some c =>
    refine ⟨c, ?_, by rw [groupCurrent_of_some current, current]⟩
    have isGroup := areGroups c current
    rw [groups] at isGroup
    refine (List.mem_append.mp isGroup).resolve_right fun isLast => ?_
    rw [List.mem_singleton.mp isLast] at current
    exact other current
  | none =>
    obtain ⟨first, rest, rfl⟩ := List.exists_cons_of_ne_nil several
    refine ⟨first, List.mem_cons_self, ?_⟩
    unfold groupCurrent
    rw [current]
    show σ.groupList.head? = _
    rw [groups]
    rfl

/-- Where something is selected in the last one of several groups, the repair of its selection
reads a group that is freed. -/
theorem repairReads_freed {st : State} (valid : st.Valid) {front : List GroupPtr} {last : GroupPtr}
    (groups : st.store.groupList = front ++ [last]) (several : front ≠ [])
    (selected : st.selection.gCurrent last ≠ none) :
    ∃ moment ∈ groupExitMoments [] st.store.groupList st,
      ∃ g ∈ moment.repairReads, g ∈ moment.freed := by
  have areGroups : front ⊆ st.store.groupList := by
    rw [groups]
    exact List.subset_append_left front [last]
  have apart : last ∉ front := fun inFront => by
    have nodup := valid.store.groups_nodup
    rw [groups] at nodup
    exact (List.nodup_append.mp nodup).2.2 last inFront last List.mem_cons_self rfl
  obtain ⟨validFreed, sameGroups⟩ := groupsFree_valid valid areGroups
  have still := groupsFree_selected valid areGroups apart selected
  -- the last group is freed from here on
  have left := groupLeave_valid validFreed last
  obtain ⟨sameStore, sameCurrent⟩ := groupLeave_same (front.foldl groupFree st) last
  have leftGroups : (groupLeave (front.foldl groupFree st) last).store.groupList =
      front ++ [last] := by
    rw [sameStore, sameGroups, groups]
  have isGroup : last ∈ (groupLeave (front.foldl groupFree st) last).store.groupList := by
    rw [leftGroups]
    exact List.mem_append_right front List.mem_cons_self
  rw [← sameCurrent] at still
  obtain ⟨x, isSelected⟩ := Option.ne_none_iff_exists'.mp still
  obtain ⟨forest, represents⟩ := left.store.represents
  have member : x ∈ (forest last).postorder := by
    rw [Forest.mem_postorder_iff, left.store.mem_preorder_iff represents isGroup]
    exact left.selection.gCurrent last x isSelected
  obtain ⟨before, after, split⟩ := List.append_of_mem member
  have releases := releases_group left represents isGroup
  rw [split] at releases
  have stays := releases.selection_before isSelected
  have group := releases.behind.group x List.mem_cons_self
  obtain ⟨place, present, isPlace⟩ := eGroup_eq_some_iff.mp group
  obtain ⟨r, found, rfl⟩ := place_eq_some_iff.mp present
  let moment : Moment := ⟨front.reverse,
    applyAll (groupLeave (front.foldl groupFree st) last) (before.map Effect.release), some x⟩
  have isMoment : moment ∈ groupExitMoments [] st.store.groupList st := by
    rw [groups]
    refine groupExitMoments_behind (List.mem_append_left _ (List.mem_append_left _
      (List.mem_append_right _ (List.mem_map.mpr ⟨(moment.state, x), ?_, ?_⟩))))
    · rw [(groupFreeElements_eq represents isGroup).2.1, split, releaseLog_append]
      exact List.mem_append_right _ List.mem_cons_self
    · rw [List.append_nil]
  have reads : moment.repairReads = elementSelectPrevReads moment.state.store
      (groupLeave (front.foldl groupFree st) last).selection := by
    unfold Moment.repairReads
    simp only [moment, Option.bind_some, found, stays]
    exact if_pos ((congrArg _ isPlace).trans isSelected)
  have momentGroups := applyAll_groupList releases.front.legal
  obtain ⟨c, isFreed, isCurrent⟩ := groupCurrent_front (momentGroups.trans leftGroups) several
    (fun g current => momentGroups ▸ left.selection.currentGroup g current)
    (groupLeave_currentGroup _ last)
  refine ⟨moment, isMoment, c, ?_, List.mem_reverse.mpr isFreed⟩
  rw [reads, elementSelectPrevReads, isCurrent]
  exact List.mem_append_left _ List.mem_cons_self

/-- What the end of the program finds. In every state the program reaches, `group_exit` is orderly
all the way just when there are no groups: otherwise the groups it has freed can be reached. As
long as there is only one group, no repair reads a freed one; where there are several and
something is selected in the last one, a repair does. -/
theorem groupExit_orderly_iff (cfg : Config) (titles : List GroupHdr) (cfgs : List ElementCfg)
    (allowed denied : List Policy) (ops : List Op) (st : State)
    (ran : Runs.run (step cfg) (State.start titles cfgs allowed denied) ops = some st) :
    ((∀ moment ∈ groupExitMoments [] st.store.groupList st, moment.Orderly) ↔
        st.store.groupList = []) ∧
      (st.store.groupList.length ≤ 1 → ∀ moment ∈ groupExitMoments [] st.store.groupList st,
        ∀ g ∈ moment.repairReads, g ∉ moment.freed) ∧
      ∀ front last, st.store.groupList = front ++ [last] → front ≠ [] →
        st.selection.gCurrent last ≠ none →
          ∃ moment ∈ groupExitMoments [] st.store.groupList st,
            ∃ g ∈ moment.repairReads, g ∈ moment.freed := by
  have valid := run_valid (valid_stateStart titles cfgs allowed denied) ran
  refine ⟨⟨fun orderly => ?_, fun noGroup moment member => ?_⟩, repairReads_single,
    fun _ _ => repairReads_freed valid⟩
  · by_contra someGroup
    exact not_orderly valid someGroup orderly
  · rw [noGroup] at member
    obtain rfl := List.mem_singleton.mp member
    exact ⟨fun _ _ => List.not_mem_nil, fun _ _ _ _ => List.not_mem_nil,
      fun _ _ => List.not_mem_nil⟩

/-- With one group, in which the child is selected, no repair reads a freed group. -/
theorem groupExit_orderly_alone :
    ∃ st, Runs.run (step (confInitPost {})) (State.start [] [] [] [])
        (parentAndChild.map Op.input ++ [.output .elementSelectLast]) = some st ∧
      st.selection.selected = some (0, 1) ∧
      ∀ moment ∈ groupExitMoments [] st.store.groupList st,
        ∀ g ∈ moment.repairReads, g ∉ moment.freed := by
  have run : (Runs.run (step (confInitPost {})) (State.start [] [] [] [])
      (parentAndChild.map Op.input ++ [.output .elementSelectLast])).map (fun st =>
        (st.selection.selected, st.store.groupList.length)) = some (some (0, 1), 1) := by
    decide +kernel
  obtain ⟨st, ran, state⟩ := Option.map_eq_some_iff.mp run
  obtain ⟨selected, alone⟩ := Prod.mk.inj state
  exact ⟨st, ran, selected,
    (groupExit_orderly_iff _ _ _ _ _ _ st ran).2.1 (Nat.le_of_eq alone)⟩

/-- With two groups and an element selected in the second one, freeing this element reads the
current group, which is the first one and freed. -/
theorem groupExit_readsFreed :
    ∃ st, Runs.run (step (confInitPost {})) (State.start [] [] [] [])
        (twoElementsBeside ++ [.output .groupSelectLast, .output .elementSelectLast]) = some st ∧
      st.selection.selected = some (1, 3) ∧
      ∃ moment ∈ groupExitMoments [] st.store.groupList st,
        moment.released = some 3 ∧ moment.repairReads = [0, 0] ∧ moment.freed = [0] ∧
          ¬ moment.Orderly := by
  have run : (Runs.run (step (confInitPost {})) (State.start [] [] [] [])
      (twoElementsBeside ++ [.output .groupSelectLast, .output .elementSelectLast])).map (fun st =>
        (st.selection.selected, (groupExitMoments [] st.store.groupList st).any fun moment =>
          decide (moment.released = some 3 ∧ moment.repairReads = [0, 0] ∧
            moment.freed = [0]))) =
      some (some (1, 3), true) := by
    decide +kernel
  obtain ⟨st, ran, state⟩ := Option.map_eq_some_iff.mp run
  obtain ⟨selected, found⟩ := Prod.mk.inj state
  obtain ⟨moment, member, holds⟩ := List.any_eq_true.mp found
  obtain ⟨released, reads, freed⟩ := of_decide_eq_true holds
  refine ⟨st, ran, selected, moment, member, released, reads, freed, fun orderly => ?_⟩
  have alive := orderly.repair 0 (by rw [reads]; exact List.mem_cons_self)
  rw [freed] at alive
  exact alive List.mem_cons_self

end Bmon
