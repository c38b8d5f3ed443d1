/-
This file holds the invariant of the selection: the current group is in the list of groups, and
the selected element of every group is linked somewhere in the forest of that group.

In a well-formed store an element is in the forest of a group if and only if it is not freed
and its `e_group` is that group. All links lead to elements of the same group, so everything
the selection functions select is in the forest it should be in. The repair in `element_free`
calls `element_select_prev`, which works on the current group, whichever group the element is
in; that no group refers to the element afterwards is due to the test that follows it.
-/

import Bmon.Layout
import Bmon.Sweep

namespace Bmon

/-! ### The group of an element -/

/-- The element is linked somewhere in the forest of the group. -/
inductive Store.InForest (σ : Store) (g : GroupPtr) : ElementPtr → Prop where
  | top {e : ElementPtr} (member : e ∈ σ.lists (.ofGroup g)) : σ.InForest g e
  | child {p e : ElementPtr} (above : σ.InForest g p) (member : e ∈ σ.lists (.ofElement p)) :
      σ.InForest g e

namespace Store.WellFormed

variable {σ : Store} (wf : σ.WellFormed)

include wf

/-- The entries of one list are in one group. -/
theorem eGroup_of_place {e : ElementPtr} {place : Place} (present : σ.place e = some place)
    {other : ElementPtr} (member : other ∈ σ.lists place.head) : σ.eGroup other = σ.eGroup e := by
  have linked := wf.linked e place present
  cases head : place.head with
  | ofGroup g =>
    rw [head] at member linked
    rw [wf.eGroup_of_mem member, wf.eGroup_of_mem linked]
  | ofElement p =>
    rw [head] at member linked
    rw [wf.eGroup_child member, wf.eGroup_child linked]

theorem eGroup_eNext {e n : ElementPtr} (next : σ.eNext e = some n) :
    σ.eGroup n = σ.eGroup e := by
  rw [eNext_eq, Option.bind_eq_some_iff] at next
  obtain ⟨place, present, found⟩ := next
  exact wf.eGroup_of_place present (Neighbours.next_mem found)

theorem eGroup_ePrev {e p : ElementPtr} (prev : σ.ePrev e = some p) :
    σ.eGroup p = σ.eGroup e := by
  rw [ePrev_eq, Option.bind_eq_some_iff] at prev
  obtain ⟨place, present, found⟩ := prev
  exact wf.eGroup_of_place present (List.mem_reverse.mp (Neighbours.next_mem found))

theorem eGroup_lastDescendant (fuel : Nat) (e : ElementPtr) :
    σ.eGroup (lastDescendant σ fuel e) = σ.eGroup e := by
  induction fuel generalizing e with
  | zero => rfl
  | succ fuel inductionHypothesis =>
    rw [lastDescendant]
    cases last : σ.lastEntry (.ofElement e) with
    | none => rfl
    | some c =>
      exact (inductionHypothesis c).trans (wf.eGroup_child (List.mem_of_mem_getLast? last))

theorem eGroup_climb (fuel : Nat) (e : ElementPtr) : σ.eGroup (climb σ fuel e) = σ.eGroup e := by
  induction fuel generalizing e with
  | zero => rfl
  | succ fuel inductionHypothesis =>
    rw [climb]
    cases parent : σ.eParent e with
    | none => rfl
    | some p =>
      cases σ.eNext e with
      | none => exact (inductionHypothesis p).trans (wf.eGroup_eParent parent)
      | some n => rfl

/-- The elements in the forest of a group are those of the group that are not freed. -/
theorem inForest_iff {g : GroupPtr} {e : ElementPtr} :
    σ.InForest g e ↔ σ.eGroup e = some g := by
  constructor
  · intro inForest
    induction inForest with
    | top member => exact wf.eGroup_of_mem member
    | child _ member inductionHypothesis =>
      exact (wf.eGroup_child member).trans inductionHypothesis
  · -- parents have smaller pointers
    induction e using Nat.strong_induction_on with
    | _ e inductionHypothesis =>
      intro group
      obtain ⟨place, present, rfl⟩ := eGroup_eq_some_iff.mp group
      have linked := wf.linked e place present
      cases parent : place.parent with
      | none =>
        rw [head_eq_ofGroup_iff.mpr ⟨parent, rfl⟩] at linked
        exact .top linked
      | some p =>
        rw [head_eq_ofElement_iff.mpr parent] at linked
        have less := (wf.parent e place p present parent).1
        exact .child (inductionHypothesis p less ((wf.eGroup_child linked).symm.trans group)) linked

/-- The forest that represents a group has the elements in the forest of the group. -/
theorem mem_preorder_iff {forest : GroupPtr → Forest ElementPtr}
    (represents : Represents σ forest) {g : GroupPtr} (isGroup : g ∈ σ.groupList)
    {e : ElementPtr} : e ∈ (forest g).preorder ↔ σ.InForest g e := by
  constructor
  · intro member
    obtain ⟨root, isRoot, above⟩ := (represents.laid g isGroup).above_root member
    rw [← represents.roots g isGroup] at isRoot
    rw [wf.inForest_iff, ← wf.eGroup_of_above above, wf.eGroup_of_mem isRoot]
  · intro inForest
    induction inForest with
    | top member =>
      rw [represents.roots g isGroup] at member
      exact (forest g).roots_subset_preorder member
    | child _ member inductionHypothesis =>
      exact (represents.laid g isGroup).childs_mem inductionHypothesis member

end Store.WellFormed

/-! ### The invariant -/

/-- The current group is in the list of groups, and the selected element of every group is in
the forest of the group. -/
structure Selection.Valid (σ : Store) (s : Selection) : Prop where
  currentGroup : ∀ g, s.currentGroup = some g → g ∈ σ.groupList
  gCurrent : ∀ g e, s.gCurrent g = some e → σ.InForest g e

theorem valid_start (σ : Store) : Selection.start.Valid σ where
  currentGroup _ current := by cases current
  gCurrent _ _ picked := by cases picked

namespace Selection.Valid

variable {σ : Store} {s : Selection} (valid : s.Valid σ)

include valid

theorem selectGroup {g : Option GroupPtr} (member : ∀ g', g = some g' → g' ∈ σ.groupList) :
    Selection.Valid σ { s with currentGroup := g } := ⟨member, valid.gCurrent⟩

theorem setCurrent {g : GroupPtr} {e : Option ElementPtr}
    (inForest : ∀ e', e = some e' → σ.InForest g e') : (s.setCurrent g e).Valid σ where
  currentGroup := valid.currentGroup
  gCurrent g' e' picked := by
    unfold Selection.setCurrent at picked
    simp only at picked
    split_ifs at picked with same
    · rw [same]
      exact inForest e' picked
    · exact valid.gCurrent g' e' picked

theorem groupSelectFirst : (groupSelectFirst σ s).Valid σ :=
  valid.selectGroup fun _ first => List.mem_of_mem_head? first

theorem groupSelectLast : (groupSelectLast σ s).Valid σ :=
  valid.selectGroup fun _ last => List.mem_of_mem_getLast? last

theorem groupSelectNext : (groupSelectNext σ s).Valid σ := by
  unfold Bmon.groupSelectNext
  split
  · exact valid.groupSelectFirst
  · split
    · next g' next =>
      refine valid.selectGroup fun _ same => ?_
      rw [← Option.some.inj same]
      exact Neighbours.next_mem next
    · exact valid.groupSelectFirst

theorem groupSelectPrev : (groupSelectPrev σ s).Valid σ := by
  unfold Bmon.groupSelectPrev
  split
  · exact valid.groupSelectLast
  · split
    · next g' prev =>
      refine valid.selectGroup fun _ same => ?_
      rw [← Option.some.inj same]
      exact List.mem_reverse.mp (Neighbours.next_mem prev)
    · exact valid.groupSelectLast

theorem groupCurrent : (groupCurrent σ s).Valid σ := by
  unfold Bmon.groupCurrent
  split
  · exact valid.groupSelectFirst
  · exact valid

theorem elementSelectFirst : (elementSelectFirst σ s).Valid σ := by
  simp only [Bmon.elementSelectFirst]
  split
  · exact valid.groupCurrent
  · exact valid.groupCurrent.setCurrent fun _ first => .top (List.mem_of_mem_head? first)

theorem elementPickFromPolicy (g : GroupPtr) : (elementPickFromPolicy σ s g).Valid σ := by
  simp only [Bmon.elementPickFromPolicy]
  split
  · next picked =>
    refine valid.setCurrent fun _ same => ?_
    obtain ⟨policy, -, found⟩ := List.exists_of_findSome?_eq_some picked
    rw [← Option.some.inj same]
    exact .top (List.mem_of_find?_eq_some found)
  · exact valid.elementSelectFirst

theorem elementCurrent : (elementCurrent σ s).Valid σ := by
  simp only [Bmon.elementCurrent]
  split
  · exact valid.groupCurrent
  · split
    · exact valid.groupCurrent.elementPickFromPolicy _
    · exact valid.groupCurrent

variable (wf : σ.WellFormed)

include wf

theorem elementSelectLast : (elementSelectLast σ s).Valid σ := by
  simp only [Bmon.elementSelectLast]
  split
  · exact valid.groupCurrent
  · refine valid.groupCurrent.setCurrent fun e found => ?_
    obtain ⟨last, isLast, rfl⟩ := Option.map_eq_some_iff.mp found
    rw [wf.inForest_iff, wf.eGroup_lastDescendant]
    exact wf.eGroup_of_mem (List.mem_of_mem_getLast? isLast)

/-- Every element `element_select_next` selects is reached from the selected one by links. -/
theorem elementSelectNext : (elementSelectNext σ s).Valid σ := by
  have current := valid.groupCurrent
  simp only [Bmon.elementSelectNext]
  split
  · exact current
  · split
    · exact current.elementSelectFirst
    · next g _ _ e picked =>
      have group := wf.inForest_iff.mp (current.gCurrent g e picked)
      split
      · next c first =>
        refine current.setCurrent fun _ same => ?_
        rw [← Option.some.inj same, wf.inForest_iff,
          wf.eGroup_child (List.mem_of_mem_head? first), group]
      · split
        · exact current.groupSelectNext.elementSelectFirst
        · next n next =>
          refine current.setCurrent fun _ same => ?_
          rw [← Option.some.inj same, wf.inForest_iff, wf.eGroup_eNext next, wf.eGroup_climb,
            group]

theorem elementSelectPrev : (elementSelectPrev σ s).Valid σ := by
  have current := valid.groupCurrent
  simp only [Bmon.elementSelectPrev]
  split
  · exact current
  · split
    · exact current.elementSelectLast wf
    · next g _ _ e picked =>
      have group := wf.inForest_iff.mp (current.gCurrent g e picked)
      split
      · exact current.groupSelectPrev.elementSelectLast wf
      · next p _ parent =>
        refine current.setCurrent fun _ same => ?_
        rw [← Option.some.inj same, wf.inForest_iff, wf.eGroup_eParent parent, group]
      · next p prev =>
        refine current.setCurrent fun _ same => ?_
        rw [← Option.some.inj same, wf.inForest_iff, wf.eGroup_lastDescendant,
          wf.eGroup_ePrev prev, group]

end Selection.Valid

/-- A selection stays valid as long as groups stay and the selected elements stay in theirs. -/
theorem Selection.Valid.of_eGroup {σ σ' : Store} {s : Selection} (valid : s.Valid σ)
    (wf : σ.WellFormed) (wf' : σ'.WellFormed) (groups : σ.groupList ⊆ σ'.groupList)
    (kept : ∀ g e, s.gCurrent g = some e → σ'.eGroup e = σ.eGroup e) : s.Valid σ' where
  currentGroup g current := groups (valid.currentGroup g current)
  gCurrent g e picked := by
    rw [wf'.inForest_iff, kept g e picked]
    exact wf.inForest_iff.mp (valid.gCurrent g e picked)

/-- The repair in `element_free` keeps the selection valid and leaves no group referring to the
element. -/
theorem elementUnselect_valid {st : State} (wf : st.store.WellFormed)
    (valid : st.selection.Valid st.store) {e : ElementPtr} (present : st.store.place e ≠ none) :
    (elementUnselect st e).selection.Valid st.store ∧
      ∀ g, (elementUnselect st e).selection.gCurrent g ≠ some e := by
  cases found : st.store.elements e with
  | none =>
    rw [Store.place, found] at present
    exact absurd rfl present
  | some r =>
    have group : st.store.eGroup e = some r.eGroup := by
      rw [Store.eGroup, Store.place, found, Option.map_some, Option.map_some]
      rfl
    -- only the group of the element could refer to it
    have elsewhere : ∀ s : Selection, s.Valid st.store → s.gCurrent r.eGroup ≠ some e →
        ∀ g, s.gCurrent g ≠ some e := fun s valid other g picked => by
      have same := wf.inForest_iff.mp (valid.gCurrent g e picked)
      rw [group] at same
      exact other (Option.some.inj same ▸ picked)
    unfold elementUnselect
    simp only [found]
    split_ifs with selected again
    · have valid' := (valid.elementSelectPrev wf).setCurrent (g := r.eGroup) (e := none)
        fun _ picked => by cases picked
      refine ⟨valid', elsewhere _ valid' ?_⟩
      simp [Selection.setCurrent]
    · exact ⟨valid.elementSelectPrev wf, elsewhere _ (valid.elementSelectPrev wf) again⟩
    · exact ⟨valid, elsewhere _ valid selected⟩

end Bmon
