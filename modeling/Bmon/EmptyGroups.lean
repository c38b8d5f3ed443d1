/-
This file shows what the keyboard navigation reaches where some groups are empty.

A group stays in the list of groups when its last element is freed. `element_select_next` leaves
a group behind its last element and takes the first element of the next group, and where there is
none, it selects nothing and stays in that group. Every further call tries the first element of
the same group again. So the selection is a cursor over the groups that an empty group keeps, and
the other elements are out of reach.
-/

import Bmon.Lib.Cursor
import Bmon.Navigation
import Bmon.Program

namespace Bmon

/-! ### The selection as a cursor -/

/-- The current group and what is selected in it. -/
def Selection.At (s : Selection) (cursor : GroupPtr × Option ElementPtr) : Prop :=
  s.currentGroup = some cursor.1 ∧ s.gCurrent cursor.1 = cursor.2

namespace Selection.At

variable {s : Selection} {cursor : GroupPtr × Option ElementPtr} (here : s.At cursor)

include here

theorem selected_iff {shown : GroupPtr × ElementPtr} :
    s.selected = some shown ↔ cursor = (shown.1, some shown.2) := by
  obtain ⟨g, e⟩ := cursor
  obtain ⟨current, picked⟩ := here
  rw [show shown = (shown.1, shown.2) from rfl, selected_eq_some_iff, current]
  constructor
  · rintro ⟨same, selected⟩
    obtain rfl := Option.some.inj same
    exact Prod.ext rfl (picked.symm.trans selected)
  · rintro same
    obtain ⟨rfl, rfl⟩ := Prod.mk.inj same
    exact ⟨rfl, picked⟩

theorem groupCurrent (σ : Store) : (groupCurrent σ s).At cursor := by
  rw [groupCurrent_of_some here.1]
  exact here

theorem setCurrent (e : Option ElementPtr) : (s.setCurrent cursor.1 e).At (cursor.1, e) :=
  ⟨here.1, if_pos rfl⟩

theorem elementSelectFirst (σ : Store) :
    (elementSelectFirst σ s).At (cursor.1, σ.firstEntry (.ofGroup cursor.1)) := by
  simp only [Bmon.elementSelectFirst, groupCurrent_of_some here.1, here.1]
  exact here.setCurrent _

theorem elementSelectLast (σ : Store) :
    (elementSelectLast σ s).At (cursor.1,
      (σ.lastEntry (.ofGroup cursor.1)).map (lastDescendant σ σ.nextElement)) := by
  simp only [Bmon.elementSelectLast, groupCurrent_of_some here.1, here.1]
  exact here.setCurrent _

theorem groupSelectNext {σ : Store} (isGroup : cursor.1 ∈ σ.groupList) :
    ∃ e, (groupSelectNext σ s).At (Neighbours.following σ.groupList cursor.1, e) := by
  refine ⟨(Bmon.groupSelectNext σ s).gCurrent _, ?_, rfl⟩
  rw [groupSelectNext_currentGroup here.1, Neighbours.next_or_head? _ _ isGroup,
    Neighbours.following_eq_next isGroup]

theorem groupSelectPrev {σ : Store} (isGroup : cursor.1 ∈ σ.groupList) :
    ∃ e, (groupSelectPrev σ s).At (Neighbours.following σ.groupList.reverse cursor.1, e) := by
  refine ⟨(Bmon.groupSelectPrev σ s).gCurrent _, ?_, rfl⟩
  rw [groupSelectPrev_currentGroup here.1, Neighbours.prev, ← List.head?_reverse,
    Neighbours.next_or_head? _ _ (List.mem_reverse.mpr isGroup),
    Neighbours.following_eq_next (List.mem_reverse.mpr isGroup)]

end Selection.At

theorem elementSelectNext_groupCurrent (σ : Store) (s : Selection) :
    elementSelectNext σ (groupCurrent σ s) = elementSelectNext σ s := by
  unfold elementSelectNext
  rw [groupCurrent_idem]

theorem elementSelectPrev_groupCurrent (σ : Store) (s : Selection) :
    elementSelectPrev σ (groupCurrent σ s) = elementSelectPrev σ s := by
  unfold elementSelectPrev
  rw [groupCurrent_idem]

section Moves

variable {σ : Store} {forest : GroupPtr → Forest ElementPtr} (represents : Represents σ forest)

include represents

/-- `element_select_next` moves the cursor one step on. -/
theorem Selection.At.elementSelectNext {s : Selection} {cursor : GroupPtr × Option ElementPtr}
    (here : s.At cursor) (isGroup : cursor.1 ∈ σ.groupList)
    (inside : ∀ e ∈ cursor.2, e ∈ (forest cursor.1).preorder) :
    (elementSelectNext σ s).At
      (Neighbours.advance σ.groupList (fun g => (forest g).preorder) cursor) := by
  obtain ⟨g, selected⟩ := cursor
  have first {g : GroupPtr} (isGroup : g ∈ σ.groupList) :
      (g, σ.firstEntry (.ofGroup g)) = Neighbours.enter (fun g => (forest g).preorder) g := by
    rw [represents.firstEntry_eq isGroup]
    rfl
  unfold Bmon.elementSelectNext
  simp only [groupCurrent_of_some here.1, here.1]
  cases selected with
  | none =>
    simp only [here.2]
    rw [Neighbours.advance_none, ← first isGroup]
    exact here.elementSelectFirst σ
  | some e =>
    simp only [here.2]
    rw [Neighbours.advance_some, ← represents.successor_eq isGroup (inside e rfl), successor,
      climbNext]
    cases σ.firstEntry (.ofElement e) with
    | some c => exact here.setCurrent (some c)
    | none =>
      rw [Option.none_or]
      cases σ.eNext (climb σ σ.nextElement e) with
      | some n => exact here.setCurrent (some n)
      | none =>
        obtain ⟨selected, next⟩ := here.groupSelectNext isGroup
        rw [Option.map_none, Option.getD_none, ← first (Neighbours.following_mem isGroup)]
        exact next.elementSelectFirst σ

/-- `element_select_prev` moves the cursor one step through the reversed lists. -/
theorem Selection.At.elementSelectPrev {s : Selection} {cursor : GroupPtr × Option ElementPtr}
    (here : s.At cursor) (isGroup : cursor.1 ∈ σ.groupList)
    (inside : ∀ e ∈ cursor.2, e ∈ (forest cursor.1).preorder) :
    (elementSelectPrev σ s).At
      (Neighbours.advance σ.groupList.reverse (fun g => (forest g).preorder.reverse) cursor) := by
  obtain ⟨g, selected⟩ := cursor
  have last {g : GroupPtr} (isGroup : g ∈ σ.groupList) :
      (g, (σ.lastEntry (.ofGroup g)).map (lastDescendant σ σ.nextElement)) =
        Neighbours.enter (fun g => (forest g).preorder.reverse) g := by
    rw [represents.lastEntry_eq isGroup, ← List.head?_reverse]
    rfl
  unfold Bmon.elementSelectPrev
  simp only [groupCurrent_of_some here.1, here.1]
  cases selected with
  | none =>
    simp only [here.2]
    rw [Neighbours.advance_none, ← last isGroup]
    exact here.elementSelectLast σ
  | some e =>
    simp only [here.2]
    rw [Neighbours.advance_some, ← Neighbours.prev,
      ← represents.predecessor_eq isGroup (inside e rfl), predecessor]
    cases σ.ePrev e with
    | some p => exact here.setCurrent (some (lastDescendant σ σ.nextElement p))
    | none =>
      rw [Option.map_none, Option.none_or]
      cases σ.eParent e with
      | some parent => exact here.setCurrent (some parent)
      | none =>
        obtain ⟨selected, prev⟩ := here.groupSelectPrev isGroup
        have isPrev := Neighbours.following_mem (List.mem_reverse.mpr isGroup)
        rw [Option.map_none, Option.getD_none, ← last (List.mem_reverse.mp isPrev)]
        exact prev.elementSelectLast σ

end Moves

/-- What the cursor of a valid selection is in. -/
theorem Selection.At.inside {σ : Store} {forest : GroupPtr → Forest ElementPtr}
    (wf : σ.WellFormed) (represents : Represents σ forest) {s : Selection} (valid : s.Valid σ)
    {cursor : GroupPtr × Option ElementPtr} (here : s.At cursor) :
    cursor.1 ∈ σ.groupList ∧ ∀ e ∈ cursor.2, e ∈ (forest cursor.1).preorder := by
  have isGroup := valid.currentGroup _ here.1
  exact ⟨isGroup, fun e picked => (wf.mem_preorder_iff represents isGroup).mpr
    (valid.gCurrent _ e (here.2.trans picked))⟩

/-- A group is empty if its forest is. -/
theorem Represents.lists_eq_nil_iff {σ : Store} {forest : GroupPtr → Forest ElementPtr}
    (represents : Represents σ forest) {g : GroupPtr} (isGroup : g ∈ σ.groupList) :
    σ.lists (.ofGroup g) = [] ↔ (forest g).preorder = [] := by
  rw [represents.roots g isGroup, ← List.head?_eq_none_iff, ← Forest.head?_preorder,
    List.head?_eq_none_iff]

/-! ### What repeated calls select -/

/-- Repeated calls of a function that moves the cursor select the same entry, or one the cursor
visits. -/
theorem selects_iff {σ : Store} {select : Selection → Selection}
    {groups : List GroupPtr} {nodes : GroupPtr → List ElementPtr}
    (settles : ∀ s, select (groupCurrent σ s) = select s)
    (keeps : ∀ s, s.Valid σ → (select s).Valid σ)
    (moves : ∀ s cursor, s.Valid σ → s.At cursor →
      (select s).At (Neighbours.advance groups nodes cursor))
    {s : Selection} (valid : s.Valid σ) {cursor : GroupPtr × Option ElementPtr}
    (here : (groupCurrent σ s).At cursor) (shown : GroupPtr × ElementPtr) :
    (∃ n, (select^[n] s).selected = some shown) ↔
      s.selected = some shown ∨ Neighbours.Visits groups nodes cursor shown := by
  have reached (n : ℕ) : (select^[n + 1] s).Valid σ ∧
      (select^[n + 1] s).At ((Neighbours.advance groups nodes)^[n + 1] cursor) := by
    induction n with
    | zero =>
      refine ⟨keeps s valid, ?_⟩
      rw [Function.iterate_one, Function.iterate_one, ← settles]
      exact moves _ _ valid.groupCurrent here
    | succ n inductionHypothesis =>
      obtain ⟨valid, there⟩ := inductionHypothesis
      rw [Function.iterate_succ_apply', Function.iterate_succ_apply' (Neighbours.advance _ _)]
      exact ⟨keeps _ valid, moves _ _ valid there⟩
  constructor
  · rintro ⟨n, found⟩
    cases n with
    | zero => exact Or.inl found
    | succ n => exact Or.inr ⟨n, (reached n).2.selected_iff.mp found⟩
  · rintro (same | ⟨n, found⟩)
    · exact ⟨0, same⟩
    · exact ⟨n + 1, (reached n).2.selected_iff.mpr found⟩

/-- Some number of calls of `element_select_next`, and also of `element_select_prev`, selects any
element that is drawn. -/
def ReachesAll (σ : Store) (s : Selection) : Prop :=
  (∀ shown ∈ displayOrder σ, ∃ n, ((elementSelectNext σ)^[n] s).selected = some shown) ∧
    ∀ shown ∈ displayOrder σ, ∃ n, ((elementSelectPrev σ)^[n] s).selected = some shown

/-- No group is empty; or all elements are in the current group, where nothing is selected or
its only element is. -/
def Unhindered (σ : Store) (s : Selection) : Prop :=
  (∀ g ∈ σ.groupList, σ.lists (.ofGroup g) ≠ []) ∨
    ∀ shown ∈ displayOrder σ, (groupCurrent σ s).currentGroup = some shown.1 ∧
      (s.gCurrent shown.1 = none ∨ displayOrder σ = [shown] ∧ s.selected = some shown)

theorem gCurrent_groupCurrent (σ : Store) (s : Selection) :
    (groupCurrent σ s).gCurrent = s.gCurrent := by
  unfold groupCurrent
  cases s.currentGroup <;> rfl

/-- A list of one entry, which does not repeat it. -/
theorem eq_singleton_of_nodup {Entry : Type*} {entries : List Entry} {entry : Entry}
    (nodup : entries.Nodup) (member : entry ∈ entries) (all : ∀ other ∈ entries, other = entry) :
    entries = [entry] := by
  have repeated := List.eq_replicate_of_mem all
  have once : entries.length ≤ 1 := by
    rw [repeated, List.nodup_replicate] at nodup
    exact nodup
  have some : 0 < entries.length := List.length_pos_of_mem member
  rw [repeated, Nat.le_antisymm once some, List.replicate_one]

/-- Without groups `group_current` finds none. -/
theorem groupList_eq_nil {σ : Store} {s : Selection}
    (noGroup : (groupCurrent σ s).currentGroup = none) : σ.groupList = [] := by
  unfold groupCurrent at noGroup
  cases own : s.currentGroup with
  | some g =>
    simp only [own] at noGroup
    cases noGroup
  | none =>
    simp only [own] at noGroup
    exact List.head?_eq_none_iff.mp noGroup

section Reaches

variable {σ : Store} {s : Selection} (wf : σ.WellFormed) (valid : s.Valid σ)
variable {forest : GroupPtr → Forest ElementPtr} (represents : Represents σ forest)
variable {g : GroupPtr} (current : (groupCurrent σ s).currentGroup = some g)

include current

theorem at_groupCurrent : (groupCurrent σ s).At (g, s.gCurrent g) :=
  ⟨current, by rw [gCurrent_groupCurrent]⟩

include wf valid represents

/-- The selection is within the forests. -/
theorem current_inside : g ∈ σ.groupList ∧ ∀ e ∈ s.gCurrent g, e ∈ (forest g).preorder :=
  (at_groupCurrent current).inside wf represents valid.groupCurrent

/-- What `element_select_next` selects. -/
theorem selects_next_iff (shown : GroupPtr × ElementPtr) :
    (∃ n, ((elementSelectNext σ)^[n] s).selected = some shown) ↔
      s.selected = some shown ∨
        Neighbours.Visits σ.groupList (fun g => (forest g).preorder) (g, s.gCurrent g) shown :=
  selects_iff (elementSelectNext_groupCurrent σ) (fun _ valid => valid.elementSelectNext wf)
    (fun _ _ valid here => here.elementSelectNext represents
      (here.inside wf represents valid).1 (here.inside wf represents valid).2)
    valid (at_groupCurrent current) shown

/-- What `element_select_prev` selects. -/
theorem selects_prev_iff (shown : GroupPtr × ElementPtr) :
    (∃ n, ((elementSelectPrev σ)^[n] s).selected = some shown) ↔
      s.selected = some shown ∨
        Neighbours.Visits σ.groupList.reverse (fun g => (forest g).preorder.reverse)
          (g, s.gCurrent g) shown :=
  selects_iff (elementSelectPrev_groupCurrent σ) (fun _ valid => valid.elementSelectPrev wf)
    (fun _ _ valid here => here.elementSelectPrev represents
      (here.inside wf represents valid).1 (here.inside wf represents valid).2)
    valid (at_groupCurrent current) shown

/-- Without empty groups the navigation reaches all elements. -/
theorem reachesAll_of_nonempty (nonempty : ∀ g ∈ σ.groupList, σ.lists (.ofGroup g) ≠ []) :
    ReachesAll σ s := by
  obtain ⟨isGroup, inside⟩ := current_inside wf valid represents current
  have nodup := represents.displayOrder_nodup
  have nonemptyPieces : ∀ g ∈ σ.groupList, (forest g).preorder ≠ [] := fun g isGroup nothing =>
    nonempty g isGroup ((represents.lists_eq_nil_iff isGroup).mpr nothing)
  have display : displayOrder σ = Neighbours.tagged σ.groupList fun g => (forest g).preorder :=
    displayOrder_eq represents
  unfold ReachesAll
  rw [display] at nodup ⊢
  refine ⟨fun shown drawn => ?_, fun shown drawn => ?_⟩
  · rw [selects_next_iff wf valid represents current]
    exact Or.inr (Neighbours.visits_of_nonempty nodup nonemptyPieces isGroup inside drawn)
  · rw [selects_prev_iff wf valid represents current]
    rw [← List.nodup_reverse, Neighbours.tagged_reverse] at nodup
    rw [← List.mem_reverse, Neighbours.tagged_reverse] at drawn
    refine Or.inr (Neighbours.visits_of_nonempty nodup ?_ (List.mem_reverse.mpr isGroup) ?_ drawn)
    · exact fun g isGroup =>
        List.reverse_ne_nil_iff.mpr (nonemptyPieces g (List.mem_reverse.mp isGroup))
    · exact fun e picked => List.mem_reverse.mpr (inside e picked)

/-- It also does where all elements are in the current group, and nothing is selected there or the
only element is. -/
theorem reachesAll_of_only (only : ∀ shown ∈ displayOrder σ,
    (groupCurrent σ s).currentGroup = some shown.1 ∧
      (s.gCurrent shown.1 = none ∨ displayOrder σ = [shown] ∧ s.selected = some shown)) :
    ReachesAll σ s := by
  obtain ⟨isGroup, -⟩ := current_inside wf valid represents current
  have nodupPiece : (forest g).preorder.Nodup := (represents.hangs isGroup).nodup
  refine ⟨fun shown drawn => ?_, fun shown drawn => ?_⟩
  · rw [selects_next_iff wf valid represents current]
    obtain ⟨same, none | ⟨-, selected⟩⟩ := only shown drawn
    · obtain rfl : g = shown.1 := Option.some.inj (current.symm.trans same)
      rw [none]
      exact Or.inr (Neighbours.visits_of_none _ (fun g => (forest g).preorder) shown.1 nodupPiece
        (represents.mem_displayOrder.mp drawn).2)
    · exact Or.inl selected
  · rw [selects_prev_iff wf valid represents current]
    obtain ⟨same, none | ⟨-, selected⟩⟩ := only shown drawn
    · obtain rfl : g = shown.1 := Option.some.inj (current.symm.trans same)
      rw [none]
      exact Or.inr (Neighbours.visits_of_none _ (fun g => (forest g).preorder.reverse) shown.1
        (List.nodup_reverse.mpr nodupPiece)
        (List.mem_reverse.mpr (represents.mem_displayOrder.mp drawn).2))
    · exact Or.inl selected

/-- Where there is an empty group, elements that are not selected are only reached in the current
group, and only if nothing is selected there. -/
theorem reaches_hindered (reaches : ReachesAll σ s) {empty : GroupPtr}
    (isEmptyGroup : empty ∈ σ.groupList) (isEmpty : σ.lists (.ofGroup empty) = [])
    {shown : GroupPtr × ElementPtr} (drawn : shown ∈ displayOrder σ)
    (other : s.selected ≠ some shown) : shown.1 = g ∧ s.gCurrent g = none := by
  obtain ⟨isGroup, inside⟩ := current_inside wf valid represents current
  obtain ⟨forward, backward⟩ := reaches
  have onward := (selects_next_iff wf valid represents current shown).mp (forward shown drawn)
  have back := (selects_prev_iff wf valid represents current shown).mp (backward shown drawn)
  exact (onward.resolve_left other).both represents.groups_nodup
    (fun g isGroup => (represents.hangs isGroup).nodup) isEmptyGroup
    ((represents.lists_eq_nil_iff isEmptyGroup).mp isEmpty) isGroup inside
    (back.resolve_left other)

theorem unhindered_of_reachesAll (reaches : ReachesAll σ s) : Unhindered σ s := by
  by_cases hindered : ∃ empty ∈ σ.groupList, σ.lists (.ofGroup empty) = []
  swap
  · exact Or.inl fun g isGroup isEmpty => hindered ⟨g, isGroup, isEmpty⟩
  obtain ⟨empty, isEmptyGroup, isEmpty⟩ := hindered
  have unselected {shown : GroupPtr × ElementPtr} (drawn : shown ∈ displayOrder σ)
      (other : s.selected ≠ some shown) : shown.1 = g ∧ s.gCurrent g = none :=
    reaches_hindered wf valid represents current reaches isEmptyGroup isEmpty drawn other
  refine Or.inr fun shown drawn => ?_
  by_cases selected : s.selected = some shown
  swap
  · obtain ⟨same, none⟩ := unselected drawn selected
    rw [same]
    exact ⟨current, Or.inl none⟩
  obtain ⟨ownCurrent, picked⟩ := selected_eq_some_iff.mp selected
  have same : g = shown.1 := by
    rw [groupCurrent_of_some ownCurrent, ownCurrent] at current
    exact (Option.some.inj current).symm
  refine ⟨current.trans (congrArg some same), Or.inr ⟨?_, selected⟩⟩
  refine eq_singleton_of_nodup represents.displayOrder_nodup drawn fun other drawn => ?_
  by_contra apart
  have none := (unselected drawn fun both => apart
    (Option.some.inj (both.symm.trans selected))).2
  rw [same, picked] at none
  cases none

end Reaches

/-- The navigation reaches all elements just where no empty group is in its way. -/
theorem reachesAll_iff {σ : Store} {s : Selection} (wf : σ.WellFormed) (valid : s.Valid σ) :
    ReachesAll σ s ↔ Unhindered σ s := by
  obtain ⟨forest, represents⟩ := wf.represents
  cases current : (groupCurrent σ s).currentGroup with
  | none =>
    have noGroup := groupList_eq_nil current
    refine iff_of_true ?_ (Or.inl ?_)
    · rw [ReachesAll, displayOrder_eq represents, noGroup]
      exact ⟨nofun, nofun⟩
    · rw [noGroup]
      exact nofun
  | some g =>
    constructor
    · exact unhindered_of_reachesAll wf valid represents current
    · rintro (nonempty | only)
      · exact reachesAll_of_nonempty wf valid represents current nonempty
      · exact reachesAll_of_only wf valid represents current only

/-- Whether the navigation reaches all elements. In every state the program reaches, some number
of calls of `element_select_next`, and also of `element_select_prev`, selects any element that is
drawn, just when no group is empty, or all elements are in the current group, and there nothing is
selected or its only element is. -/
theorem elementSelect_reachesAll_iff (cfg : Config) (titles : List GroupHdr)
    (cfgs : List ElementCfg) (allowed denied : List Policy) (ops : List Op) (st : State)
    (ran : Runs.run (step cfg) (State.start titles cfgs allowed denied) ops = some st) :
    ReachesAll st.store st.selection ↔ Unhindered st.store st.selection :=
  have valid := run_valid (valid_stateStart titles cfgs allowed denied) ran
  reachesAll_iff valid.store valid.selection

/-- The parent, its child, and a group behind theirs that is empty. -/
def emptyGroupBehind : List Op :=
  let behind : List InputOp := [.groupNewHdr ⟨⟨['d'], by decide⟩, "Disks", []⟩,
    .groupLookup ⟨['d'], by decide⟩ true]
  (parentAndChild ++ behind).map Op.input

/-- Before anything is selected, the empty group is not in the way. -/
theorem elementSelect_reachesAll_unselected :
    ∃ st, Runs.run (step (confInitPost {})) (State.start [] [] [] []) emptyGroupBehind = some st ∧
      ∃ n, ((elementSelectNext st.store)^[n] st.selection).selected = some (0, 1) := by
  have run : (Runs.run (step (confInitPost {})) (State.start [] [] [] []) emptyGroupBehind).map
      (fun st => (displayOrder st.store, (groupCurrent st.store st.selection).currentGroup,
        st.selection.gCurrent 0)) = some ([(0, 0), (0, 1)], some 0, none) := by decide +kernel
  obtain ⟨st, ran, state⟩ := Option.map_eq_some_iff.mp run
  obtain ⟨drawn, rest⟩ := Prod.mk.inj state
  obtain ⟨current, unselected⟩ := Prod.mk.inj rest
  have unhindered : Unhindered st.store st.selection := by
    refine Or.inr fun shown member => ?_
    rw [drawn] at member
    rcases List.mem_cons.mp member with rfl | member
    · exact ⟨current, Or.inl unselected⟩
    · obtain rfl := List.mem_singleton.mp member
      exact ⟨current, Or.inl unselected⟩
  have reaches := (elementSelect_reachesAll_iff _ _ _ _ _ _ st ran).mpr unhindered
  exact ⟨st, ran, reaches.1 (0, 1) (by rw [drawn]; decide)⟩

/-- Once the selection has moved into the empty group, it never leaves it again. -/
theorem elementSelect_trapped :
    ∃ st, Runs.run (step (confInitPost {})) (State.start [] [] [] [])
        (emptyGroupBehind ++ [.output .elementSelectFirst, .output .elementSelectNext,
          .output .elementSelectNext]) = some st ∧
      (0, 0) ∈ displayOrder st.store ∧
      ∀ n, ((elementSelectNext st.store)^[n] st.selection).selected ≠ some (0, 0) := by
  have run : (Runs.run (step (confInitPost {})) (State.start [] [] [] [])
      (emptyGroupBehind ++ [.output .elementSelectFirst, .output .elementSelectNext,
        .output .elementSelectNext])).map (fun st => (displayOrder st.store,
          st.selection.currentGroup, st.selection.gCurrent 1, st.store.firstEntry (.ofGroup 1))) =
      some ([(0, 0), (0, 1)], some 1, none, none) := by decide +kernel
  obtain ⟨st, ran, state⟩ := Option.map_eq_some_iff.mp run
  obtain ⟨drawn, rest⟩ := Prod.mk.inj state
  obtain ⟨current, rest⟩ := Prod.mk.inj rest
  obtain ⟨unselected, isEmpty⟩ := Prod.mk.inj rest
  refine ⟨st, ran, by rw [drawn]; decide, fun n found => ?_⟩
  have stays : ((elementSelectNext st.store)^[n] st.selection).At (1, none) := by
    refine Function.Iterate.rec (Selection.At · (1, none)) ⟨current, unselected⟩
      (fun s here => ?_) n
    have first := here.elementSelectFirst st.store
    rw [isEmpty] at first
    unfold elementSelectNext
    simp only [groupCurrent_of_some here.1, here.1, here.2]
    exact first
  cases stays.selected_iff.mp found

end Bmon
