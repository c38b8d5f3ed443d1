/-
This file shows that the keyboard navigation walks the list in display order.

Within a group the element selected next is found by descending to the first child, or by
climbing until there is a next entry; the one selected before by descending to the last
descendant of the previous entry, or at the parent. Both are shown to be the neighbours in the
preorder of the forest, by induction on the forest: for the next element along with what the
climb from the owner of its list leads to, for the previous one along with what comes before
its list. At the ends of a group the group functions lead to the neighbouring group, so that
over all groups the neighbours are the cyclic ones.
-/

import Bmon.Traversal

namespace Bmon

/-! ### The next element within a group -/

/-- The entry that climbing leads to. -/
def climbNext (σ : Store) (fuel : Nat) (e : ElementPtr) : Option ElementPtr :=
  σ.eNext (climb σ fuel e)

/-- The element after another one within its group, as `element_select_next` finds it. -/
def successor (σ : Store) (e : ElementPtr) : Option ElementPtr :=
  (σ.firstEntry (.ofElement e)).or (climbNext σ σ.nextElement e)

/-- Climbing stops at an element with a next entry, and goes on from the parent otherwise. -/
theorem climbNext_succ (σ : Store) (fuel : Nat) (e : ElementPtr) :
    climbNext σ (fuel + 1) e = (σ.eNext e).or ((σ.eParent e).bind (climbNext σ fuel)) := by
  unfold climbNext
  rw [climb]
  cases parent : σ.eParent e with
  | none => cases σ.eNext e <;> rfl
  | some p => cases next : σ.eNext e <;> simp [next]

/-- What climbing from the owner of a list leads to, with enough fuel. -/
def ContinuesWith (σ : Store) (depth : Nat) (head : ListHead) (after : Option ElementPtr) :
    Prop :=
  match head with
  | .ofGroup _ => after = none
  | .ofElement p => ∀ fuel, depth ≤ fuel → climbNext σ fuel p = after

/-- Climbing from a node leads to its next sibling, or to where its list continues. -/
theorem Hangs.climbNext {σ : Store} {head : ListHead} {e : ElementPtr}
    {below beside : Forest ElementPtr} (hangs : Hangs σ head (.cons e below beside))
    {depth : Nat} {after : Option ElementPtr} (continues : ContinuesWith σ depth head after)
    {fuel : Nat} (enough : depth + 1 ≤ fuel) :
    climbNext σ fuel e = beside.roots.head?.or after := by
  obtain ⟨fuel, rfl⟩ : ∃ less, fuel = less + 1 := ⟨fuel - 1, by omega⟩
  rw [climbNext_succ, hangs.eNext, hangs.eParent]
  congr 1
  cases head with
  | ofGroup g => exact continues.symm
  | ofElement p => exact continues fuel (by omega)

/-- The successor of a node is its neighbour in the preorder of the forest, or where the list
of the forest continues. -/
theorem Hangs.successor_eq {σ : Store} {head : ListHead} {forest : Forest ElementPtr}
    (hangs : Hangs σ head forest) {depth : Nat} {after : Option ElementPtr}
    (continues : ContinuesWith σ depth head after)
    (enough : depth + forest.preorder.length ≤ σ.nextElement) {e : ElementPtr}
    (member : e ∈ forest.preorder) :
    successor σ e = Neighbours.next (forest.preorder ++ after.toList) e := by
  induction forest generalizing head depth after with
  | nil => cases member
  | cons node below beside belowHypothesis besideHypothesis =>
    simp only [Forest.preorder, List.length_cons, List.length_append] at enough
    obtain ⟨⟨freshBelow, freshBeside⟩, -, -, apart⟩ := Forest.nodup_preorder_cons.mp hangs.nodup
    have continuesBelow : ContinuesWith σ (depth + 1) (.ofElement node)
        (beside.roots.head?.or after) := fun fuel => hangs.climbNext continues
    by_cases first : e = node
    · subst first
      rw [successor, continuesBelow _ (by omega), hangs.firstEntry, Forest.preorder,
        List.cons_append, Neighbours.next, if_pos rfl, List.append_assoc, List.head?_append,
        List.head?_append, Forest.head?_preorder, Forest.head?_preorder, Option.head?_toList]
    · have inRest := (List.mem_cons.mp member).resolve_left first
      have skip : Neighbours.next (Forest.preorder (.cons node below beside) ++ after.toList) e =
          Neighbours.next (below.preorder ++ (beside.preorder ++ after.toList)) e := by
        rw [Forest.preorder, List.cons_append, Neighbours.next, if_neg (Ne.symm first),
          List.append_assoc]
      rw [skip]
      rcases List.mem_append.mp inRest with inBelow | inBeside
      · rw [Neighbours.next_append_of_mem inBelow, List.head?_append, Forest.head?_preorder,
          Option.head?_toList]
        exact belowHypothesis hangs.childs continuesBelow (by omega) inBelow
      · have notBelow : e ∉ below.preorder := fun inBelow => apart inBelow inBeside
        rw [Neighbours.next_append_of_not_mem notBelow]
        exact besideHypothesis hangs.siblings continues (by omega) inBeside

/-! ### The previous element within a group -/

/-- The element before another one within its group, as `element_select_prev` finds it. -/
def predecessor (σ : Store) (e : ElementPtr) : Option ElementPtr :=
  ((σ.ePrev e).map (lastDescendant σ σ.nextElement)).or (σ.eParent e)

/-- Descending from the last root of a forest leads to its last node. -/
theorem Laid.lastDescendant_eq {σ : Store} {head : ListHead} {forest : Forest ElementPtr}
    (laid : Laid σ head forest) {fuel : Nat} (enough : forest.preorder.length ≤ fuel) :
    forest.roots.getLast?.map (lastDescendant σ fuel) = forest.preorder.getLast? := by
  induction forest generalizing head fuel with
  | nil => rfl
  | cons node below beside belowHypothesis besideHypothesis =>
    obtain ⟨-, list, laidBelow, laidBeside⟩ := laid
    simp only [Forest.preorder, List.length_cons, List.length_append] at enough
    cases beside with
    | nil =>
      obtain ⟨fuel, rfl⟩ : ∃ less, fuel = less + 1 := ⟨fuel - 1, by omega⟩
      have enoughBelow : below.preorder.length ≤ fuel := by omega
      have lastBelow := belowHypothesis laidBelow enoughBelow
      simp only [Forest.roots, Forest.preorder, List.append_nil, List.getLast?_singleton,
        Option.map_some, lastDescendant, Store.lastEntry, list]
      rw [List.getLast?_cons, ← lastBelow]
      cases below.roots.getLast? <;> rfl
    | cons next down along =>
      have lastBeside := besideHypothesis laidBeside (by omega : _ ≤ fuel)
      simp only [Forest.roots, Forest.preorder] at lastBeside ⊢
      rw [List.getLast?_cons_cons, lastBeside]
      exact (List.getLast?_append_of_ne_nil (node :: below.preorder)
        (List.cons_ne_nil next _)).symm

/-- What comes before a forest in a list: the last descendant of the entry before it, or the
owner of the list. -/
def preceding (σ : Store) (head : ListHead) (before : List ElementPtr) : Option ElementPtr :=
  (before.getLast?.map (lastDescendant σ σ.nextElement)).or head.owner

/-- The predecessor of a node is its neighbour in the preorder of the forest, or what comes
before the forest. -/
theorem Hangs.predecessor_eq {σ : Store} {head : ListHead} {forest : Forest ElementPtr}
    (hangs : Hangs σ head forest) (before : List ElementPtr)
    (split : σ.lists head = before ++ forest.roots)
    (enough : forest.preorder.length ≤ σ.nextElement) {e : ElementPtr}
    (member : e ∈ forest.preorder) :
    predecessor σ e =
      Neighbours.prev ((preceding σ head before).toList ++ forest.preorder) e := by
  induction forest generalizing head before with
  | nil => cases member
  | cons node below beside belowHypothesis besideHypothesis =>
    have lastNode : Option.some (lastDescendant σ σ.nextElement node) =
        (node :: below.preorder).getLast? := by
      have alone : Laid σ head (.cons node below .nil) :=
        ⟨hangs.laid.1, hangs.laid.2.1, hangs.laid.2.2.1, trivial⟩
      have short : (Forest.cons node below .nil).preorder.length ≤ σ.nextElement := by
        simp only [Forest.preorder, List.length_cons, List.length_append, List.length_nil]
          at enough ⊢
        omega
      simpa only [Forest.roots, Forest.preorder, List.append_nil, List.getLast?_singleton,
        Option.map_some] using alone.lastDescendant_eq short
    simp only [Forest.preorder, List.length_cons, List.length_append] at enough
    obtain ⟨⟨freshBelow, freshBeside⟩, -, -, apart⟩ := Forest.nodup_preorder_cons.mp hangs.nodup
    rw [Forest.preorder]
    rcases List.mem_cons.mp member with rfl | inRest
    · rw [Neighbours.prev_append_cons (by simp [freshBelow, freshBeside]), predecessor,
        hangs.ePrev split, hangs.eParent, ← preceding]
      cases preceding σ head before <;> rfl
    · rcases List.mem_append.mp inRest with inBelow | inBeside
      · have notBeside : e ∉ beside.preorder := fun inBeside => apart inBelow inBeside
        rw [← List.cons_append, ← List.append_assoc, Neighbours.prev_append_of_not_mem notBeside,
          List.append_cons, Neighbours.prev_append_of_mem inBelow, List.getLast?_concat]
        exact belowHypothesis hangs.childs [] hangs.laid.2.1 (by omega) inBelow
      · rw [← List.cons_append, ← List.append_assoc, Neighbours.prev_append_of_mem inBeside,
          List.getLast?_append_of_ne_nil _ (List.cons_ne_nil _ _), ← lastNode]
        have next := besideHypothesis hangs.siblings (before ++ [node])
          (by rw [split, List.append_assoc, List.singleton_append, Forest.roots]) (by omega)
          inBeside
        rwa [preceding, List.getLast?_concat] at next

/-! ### What the selection functions select -/

/-- Selecting an element of the current group. -/
theorem selected_setCurrent {s : Selection} {g : GroupPtr} (current : s.currentGroup = some g)
    (e : Option ElementPtr) : (s.setCurrent g e).selected = e.map fun e => (g, e) := by
  simp [Selection.selected, Selection.setCurrent, current]

theorem selected_eq_some_iff {s : Selection} {g : GroupPtr} {e : ElementPtr} :
    s.selected = some (g, e) ↔ s.currentGroup = some g ∧ s.gCurrent g = some e := by
  simp only [Selection.selected, Option.bind_eq_some_iff, Option.map_eq_some_iff, Prod.mk.injEq]
  constructor
  · rintro ⟨g', current, e', picked, rfl, rfl⟩
    exact ⟨current, picked⟩
  · rintro ⟨current, picked⟩
    exact ⟨g, current, e, picked, rfl, rfl⟩

/-- A current group is kept by `group_current`. -/
theorem groupCurrent_of_some {σ : Store} {s : Selection} {g : GroupPtr}
    (current : s.currentGroup = some g) : groupCurrent σ s = s := by
  simp only [groupCurrent, current]

/-- `group_current` takes the first group where there is none, and keeps it. -/
theorem groupCurrent_idem (σ : Store) (s : Selection) :
    groupCurrent σ (groupCurrent σ s) = groupCurrent σ s := by
  cases current : s.currentGroup with
  | some g => rw [groupCurrent_of_some current, groupCurrent_of_some current]
  | none =>
    simp only [groupCurrent, current]
    cases first : σ.groupList.head? with
    | none => simp only [groupSelectFirst, first]
    | some g => simp only [groupSelectFirst, first]

/-- `element_select_first` selects the first entry of the current group. -/
theorem selected_elementSelectFirst {σ : Store} {s : Selection} {g : GroupPtr}
    (current : s.currentGroup = some g) :
    (elementSelectFirst σ s).selected =
      (σ.firstEntry (.ofGroup g)).map fun e => (g, e) := by
  simp only [elementSelectFirst, groupCurrent_of_some current, current]
  exact selected_setCurrent current _

/-- `element_select_last` selects the last descendant of the last entry of the current group. -/
theorem selected_elementSelectLast {σ : Store} {s : Selection} {g : GroupPtr}
    (current : s.currentGroup = some g) :
    (elementSelectLast σ s).selected =
      ((σ.lastEntry (.ofGroup g)).map (lastDescendant σ σ.nextElement)).map
        fun e => (g, e) := by
  simp only [elementSelectLast, groupCurrent_of_some current, current]
  exact selected_setCurrent current _

/-- From a current group the next one is its cyclic successor. -/
theorem groupSelectNext_currentGroup {σ : Store} {s : Selection} {g : GroupPtr}
    (current : s.currentGroup = some g) :
    (groupSelectNext σ s).currentGroup =
      (Neighbours.next σ.groupList g).or σ.groupList.head? := by
  simp only [groupSelectNext, current]
  cases Neighbours.next σ.groupList g <;> rfl

/-- From a current group the previous one is its cyclic predecessor. -/
theorem groupSelectPrev_currentGroup {σ : Store} {s : Selection} {g : GroupPtr}
    (current : s.currentGroup = some g) :
    (groupSelectPrev σ s).currentGroup =
      (Neighbours.prev σ.groupList g).or σ.groupList.getLast? := by
  simp only [groupSelectPrev, current]
  cases Neighbours.prev σ.groupList g <;> rfl

/-- `element_select_next` selects the successor in the group, or the first entry of the next
group. -/
theorem selected_elementSelectNext {σ : Store} {s : Selection} {g g' : GroupPtr} {e : ElementPtr}
    (selected : s.selected = some (g, e))
    (after : (Neighbours.next σ.groupList g).or σ.groupList.head? = some g') :
    (elementSelectNext σ s).selected =
      ((successor σ e).map fun e => (g, e)).or
        ((σ.firstEntry (.ofGroup g')).map fun e => (g', e)) := by
  obtain ⟨current, picked⟩ := selected_eq_some_iff.mp selected
  simp only [elementSelectNext, groupCurrent_of_some current, current, picked, successor,
    climbNext]
  cases σ.firstEntry (.ofElement e) with
  | some c => exact selected_setCurrent current _
  | none =>
    cases σ.eNext (climb σ σ.nextElement e) with
    | some n => exact selected_setCurrent current _
    | none =>
      exact selected_elementSelectFirst ((groupSelectNext_currentGroup current).trans after)

/-- `element_select_prev` selects the predecessor in the group, or the last node of the
previous group. -/
theorem selected_elementSelectPrev {σ : Store} {s : Selection} {g g' : GroupPtr} {e : ElementPtr}
    (selected : s.selected = some (g, e))
    (before : (Neighbours.prev σ.groupList g).or σ.groupList.getLast? = some g') :
    (elementSelectPrev σ s).selected =
      ((predecessor σ e).map fun e => (g, e)).or
        (((σ.lastEntry (.ofGroup g')).map (lastDescendant σ σ.nextElement)).map
          fun e => (g', e)) := by
  obtain ⟨current, picked⟩ := selected_eq_some_iff.mp selected
  simp only [elementSelectPrev, groupCurrent_of_some current, current, picked, predecessor]
  cases σ.ePrev e with
  | some p => exact selected_setCurrent current _
  | none =>
    cases σ.eParent e with
    | some parent => exact selected_setCurrent current _
    | none =>
      exact selected_elementSelectLast ((groupSelectPrev_currentGroup current).trans before)

/-! ### Navigation over all groups -/

section Groups

variable {σ : Store} {forest : GroupPtr → Forest ElementPtr} (represents : Represents σ forest)

include represents

/-- Nothing is drawn twice. -/
theorem Represents.displayOrder_nodup : (displayOrder σ).Nodup := by
  have apart : ((displayOrder σ).map Prod.snd).Nodup := by
    have nodes := represents.nodup
    simp only [displayOrder_eq represents, List.map_flatMap, List.map_map, Function.comp_def,
      List.map_id']
    exact nodes
  exact List.Nodup.of_map _ apart

theorem Represents.mem_displayOrder {g : GroupPtr} {e : ElementPtr} :
    (g, e) ∈ displayOrder σ ↔ g ∈ σ.groupList ∧ e ∈ (forest g).preorder := by
  rw [displayOrder_eq represents]
  exact Neighbours.mem_tagged

/-- The successor of a node is its neighbour in the preorder of its group. -/
theorem Represents.successor_eq {g : GroupPtr} (isGroup : g ∈ σ.groupList) {e : ElementPtr}
    (member : e ∈ (forest g).preorder) :
    successor σ e = Neighbours.next (forest g).preorder e := by
  have continues : ContinuesWith σ 0 (.ofGroup g) none := rfl
  have inGroup := (represents.hangs isGroup).successor_eq continues
    (by rw [Nat.zero_add]; exact represents.length_le isGroup) member
  rwa [Option.toList_none, List.append_nil] at inGroup

/-- The predecessor of a node is its neighbour in the preorder of its group. -/
theorem Represents.predecessor_eq {g : GroupPtr} (isGroup : g ∈ σ.groupList) {e : ElementPtr}
    (member : e ∈ (forest g).preorder) :
    predecessor σ e = Neighbours.prev (forest g).preorder e :=
  (represents.hangs isGroup).predecessor_eq [] (represents.roots g isGroup)
    (represents.length_le isGroup) member

/-- The first entry of a group is its first node. -/
theorem Represents.firstEntry_eq {g : GroupPtr} (isGroup : g ∈ σ.groupList) :
    σ.firstEntry (.ofGroup g) = (forest g).preorder.head? := by
  rw [Store.firstEntry, represents.roots g isGroup, Forest.head?_preorder]

/-- Descending from the last entry of a group leads to its last node. -/
theorem Represents.lastEntry_eq {g : GroupPtr} (isGroup : g ∈ σ.groupList) :
    (σ.lastEntry (.ofGroup g)).map (lastDescendant σ σ.nextElement) =
      (forest g).preorder.getLast? := by
  rw [Store.lastEntry, represents.roots g isGroup]
  exact (represents.laid g isGroup).lastDescendant_eq (represents.length_le isGroup)

variable (nonempty : ∀ g ∈ σ.groupList, (forest g).preorder ≠ [])

include nonempty

/-- `element_select_next` selects the cyclic successor in display order. -/
theorem Represents.selected_next (s : Selection) (shown : GroupPtr × ElementPtr)
    (member : shown ∈ displayOrder σ) (selected : s.selected = some shown) :
    (elementSelectNext σ s).selected = some ((displayOrder σ).next shown member) := by
  obtain ⟨g, e⟩ := shown
  obtain ⟨isGroup, inGroup⟩ := represents.mem_displayOrder.mp member
  have after := Neighbours.next_or_head? σ.groupList g isGroup
  have isAfter := List.next_mem σ.groupList g isGroup
  have cyclic := Neighbours.next_tagged_cyclic nonempty isGroup inGroup
  rw [selected_elementSelectNext selected after, represents.successor_eq isGroup inGroup,
    represents.firstEntry_eq isAfter, ← Neighbours.next_or_head?]
  simp only [displayOrder_eq represents]
  rw [← Neighbours.tagged, cyclic, after, Option.bind_some]

/-- `element_select_prev` selects the cyclic predecessor in display order. -/
theorem Represents.selected_prev (s : Selection) (shown : GroupPtr × ElementPtr)
    (member : shown ∈ displayOrder σ) (selected : s.selected = some shown) :
    (elementSelectPrev σ s).selected = some ((displayOrder σ).prev shown member) := by
  obtain ⟨g, e⟩ := shown
  obtain ⟨isGroup, inGroup⟩ := represents.mem_displayOrder.mp member
  have before := Neighbours.prev_or_getLast? σ.groupList represents.groups_nodup g isGroup
  have isBefore := List.prev_mem σ.groupList g isGroup
  have cyclic := Neighbours.prev_tagged_cyclic nonempty isGroup inGroup
  rw [selected_elementSelectPrev selected before, represents.predecessor_eq isGroup inGroup,
    represents.lastEntry_eq isBefore,
    ← Neighbours.prev_or_getLast? _ represents.displayOrder_nodup]
  simp only [displayOrder_eq represents]
  rw [← Neighbours.tagged, cyclic, before, Option.bind_some]

end Groups

/-- **Keyboard navigation walks the list in display order.** In a store of groups that hold
non-empty forests, the outputs draw the nodes of all groups in preorder. From any of them,
`element_select_next` selects the cyclic successor in that order and `element_select_prev` the
cyclic predecessor, each undoes the other, and as many steps forward as there are elements visit
every element of every group once and return to the start. -/
theorem elementSelect_walks_displayOrder (σ : Store) (forest : GroupPtr → Forest ElementPtr)
    (represents : Represents σ forest)
    (nonempty : ∀ g ∈ σ.groupList, σ.lists (.ofGroup g) ≠ []) (s : Selection)
    (shown : GroupPtr × ElementPtr) (member : shown ∈ displayOrder σ)
    (selected : s.selected = some shown) :
    displayOrder σ = (σ.groupList.flatMap fun g => (forest g).preorder.map fun e => (g, e)) ∧
    (elementSelectNext σ s).selected = some ((displayOrder σ).next shown member) ∧
    (elementSelectPrev σ s).selected = some ((displayOrder σ).prev shown member) ∧
    (elementSelectPrev σ (elementSelectNext σ s)).selected = s.selected ∧
    (elementSelectNext σ (elementSelectPrev σ s)).selected = s.selected ∧
    (displayOrder σ).Nodup ∧
    ((List.range (displayOrder σ).length).map fun k =>
      ((elementSelectNext σ)^[k] s).selected).Perm ((displayOrder σ).map some) ∧
    ((elementSelectNext σ)^[(displayOrder σ).length] s).selected = s.selected := by
  have nonempty : ∀ g ∈ σ.groupList, (forest g).preorder ≠ [] := fun g isGroup empty => by
    refine nonempty g isGroup ?_
    rw [represents.roots g isGroup, ← List.head?_eq_none_iff, ← Forest.head?_preorder, empty,
      List.head?_nil]
  have nodup := represents.displayOrder_nodup
  have next := represents.selected_next nonempty
  have prev := represents.selected_prev nonempty
  refine ⟨displayOrder_eq represents, next s shown member selected, prev s shown member selected,
    ?_, ?_, nodup, Neighbours.tour_perm nodup next member selected,
    Neighbours.tour_returns nodup next member selected⟩
  · rw [prev _ _ (List.next_mem _ _ _) (next s shown member selected),
      List.prev_next _ nodup, selected]
  · rw [next _ _ (List.prev_mem _ _ _) (prev s shown member selected),
      List.next_prev _ nodup, selected]

/-- Two groups: one with an element that has a child, and one with a single element. -/
def twoGroups : Store :=
  let named (c : Char) (visible : c ≠ nul) : CString :=
    ⟨[c], fun same => visible (List.mem_singleton.mp same).symm⟩
  let cfg := confInitPost {}
  let σ := groupCreate (Store.start [] [] [] []) ⟨named 'i' (by decide), "Interfaces", []⟩
  let σ := groupCreate σ ⟨named 'd' (by decide), "Disks", []⟩
  let σ := elementCreate cfg σ 0 (named 'a' (by decide)) 0 none
  let σ := elementCreate cfg σ 0 (named 'b' (by decide)) 0 (some 0)
  elementCreate cfg σ 1 (named 'c' (by decide)) 0 none

/-- The forests of the two groups. -/
def twoForests : GroupPtr → Forest ElementPtr
  | 0 => .cons 0 (.cons 1 .nil .nil) .nil
  | _ => .cons 2 .nil .nil

theorem represents_twoGroups : Represents twoGroups twoForests := by
  refine ⟨by decide, fun g member => ?_, by decide, by decide, by decide⟩
  rcases List.mem_cons.mp member with rfl | member
  · exact ⟨⟨⟨none, 0⟩, rfl, rfl⟩, rfl, ⟨⟨⟨some 0, 0⟩, rfl, rfl⟩, rfl, trivial, trivial⟩, trivial⟩
  · obtain rfl := List.mem_singleton.mp member
    exact ⟨⟨⟨none, 1⟩, rfl, rfl⟩, rfl, trivial, trivial⟩

/-- From the child in the first group, the way leads to the second group, and back. -/
theorem elementSelect_walks_displayOrder_two :
    (elementSelectNext twoGroups ⟨some 0, fun _ => some 1⟩).selected = some (1, 2) ∧
      (elementSelectPrev twoGroups
        (elementSelectNext twoGroups ⟨some 0, fun _ => some 1⟩)).selected = some (0, 1) := by
  have walk := elementSelect_walks_displayOrder twoGroups twoForests represents_twoGroups
    (by decide) ⟨some 0, fun _ => some 1⟩ (0, 1) (by decide) rfl
  exact ⟨walk.2.1.trans (by decide), walk.2.2.2.1⟩

end Bmon
