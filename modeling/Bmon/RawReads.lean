/-
This file relates the links of a memory to the lists of a store, and shows that the functions of
the selection do the same on both.

A memory shows a state where its records are those of the store, and where the links of
`group_list`, of every `g_elements` and of every `e_childs` are rings of the entries the store
has in that list. Reading a link of such a memory gives the neighbour in the list, or the address
of the head that the functions compare it with.
-/

import Bmon.Raw

namespace Bmon

/-! ### What a memory shows -/

/-- The address of the head of a list of elements. -/
def ListHead.node : ListHead → ListNode
  | ofGroup g => .gElements g
  | ofElement e => .eChilds e

namespace Store

/-- The records of a store. -/
def withoutLists (σ : Store) : Store := { σ with lists := fun _ => [], groupList := [] }

/-- The heads of lists in the records that were allocated so far, freed or not. -/
def IsHead (σ : Store) : ListNode → Prop
  | .groupList => True
  | .gElements g => g < σ.nextGroup
  | .eChilds e => e < σ.nextElement
  | _ => False

/-- What is linked in a list, as addresses. -/
def entries (σ : Store) : ListNode → List ListNode
  | .groupList => σ.groupList.map .gList
  | .gElements g => (σ.lists (.ofGroup g)).map .eList
  | .eChilds e => (σ.lists (.ofElement e)).map .eList
  | _ => []

theorem entries_node (σ : Store) (head : ListHead) :
    σ.entries head.node = (σ.lists head).map .eList := by
  cases head <;> rfl

end Store

/-- The memory holds the records, the lists and the selection of a state. -/
structure Memory.Shows (m : Memory) (st : State) : Prop where
  records : m.records = st.store.withoutLists
  rings : m.links.Rings st.store.IsHead st.store.entries
  selection : m.selection = st.selection

/-! ### Addresses -/

theorem ListHead.node_injective : Function.Injective ListHead.node := by
  intro first second same
  cases first <;> cases second <;> cases same <;> rfl

theorem eList_injective : Function.Injective ListNode.eList := fun _ _ same => by
  injection same

theorem gList_injective : Function.Injective ListNode.gList := fun _ _ same => by
  injection same

/-- `list_entry` on a link that leads to an entry or back to the head. -/
theorem element_getD (e : Option ElementPtr) (head : ListHead) :
    ((e.map ListNode.eList).getD head.node).element = e := by
  cases e with
  | none => cases head <;> rfl
  | some _ => rfl

theorem group_getD (g : Option GroupPtr) :
    ((g.map ListNode.gList).getD .groupList).group = g := by
  cases g <;> rfl

/-- The comparison of a link with the address of a head. -/
theorem getD_eq_node_iff {e : Option ElementPtr} {head other : ListHead} :
    (e.map ListNode.eList).getD head.node = other.node ↔ e = none ∧ head = other := by
  cases e with
  | none => simp [ListHead.node_injective.eq_iff]
  | some e => cases other <;> simp [ListHead.node]

theorem getD_eq_groupList_iff {g : Option GroupPtr} :
    (g.map ListNode.gList).getD .groupList = .groupList ↔ g = none := by
  cases g <;> simp

namespace Store.WellFormed

variable {σ : Store} (wf : σ.WellFormed)

include wf

/-- The list an element is in belongs to a record that was allocated. -/
theorem isHead_place {e : ElementPtr} {place : Place} (present : σ.place e = some place) :
    σ.IsHead place.head.node := by
  cases parent : place.parent with
  | none =>
    rw [head_eq_ofGroup_iff.mpr ⟨parent, rfl⟩]
    exact wf.group_lt _ (wf.grouped e place present)
  | some p =>
    obtain ⟨-, above, presentAbove, -⟩ := wf.parent e place p present parent
    rw [head_eq_ofElement_iff.mpr parent]
    exact wf.element_lt p above presentAbove

theorem isHead_ofElement {e : ElementPtr} (present : σ.place e ≠ none) :
    σ.IsHead (ListHead.ofElement e).node := by
  obtain ⟨place, found⟩ := Option.ne_none_iff_exists'.mp present
  exact wf.element_lt e place found

theorem isHead_ofGroup {g : GroupPtr} (member : g ∈ σ.groupList) :
    σ.IsHead (ListHead.ofGroup g).node := wf.group_lt g member

theorem present_of_mem {head : ListHead} {e : ElementPtr} (member : e ∈ σ.lists head) :
    σ.place e ≠ none := by
  obtain ⟨place, present, -⟩ := wf.owned head e member
  rw [present]
  exact Option.some_ne_none place

/-- No list is longer than the pointers that were handed out. -/
theorem length_lists (head : ListHead) : (σ.lists head).length ≤ σ.nextElement :=
  wf.length_le (wf.lists_nodup head) fun e member => by
    obtain ⟨place, present, -⟩ := wf.owned head e member
    exact ⟨place, present⟩

/-- With enough rounds, the climb ends where there is a next entry or no parent. -/
theorem climb_done {fuel : Nat} {e : ElementPtr} (less : e < fuel)
    (last : σ.eNext (climb σ fuel e) = none) : σ.eParent (climb σ fuel e) = none := by
  induction fuel generalizing e with
  | zero => cases less
  | succ fuel inductionHypothesis =>
    rw [climb] at last ⊢
    cases parent : σ.eParent e with
    | none => exact parent
    | some p =>
      rw [parent] at last
      cases next : σ.eNext e with
      | none =>
        rw [next] at last
        obtain ⟨place, present, isParent⟩ := isParent_iff.mp parent
        have below := (wf.parent e place p present isParent).1
        exact inductionHypothesis (below.trans_le (Nat.le_of_lt_succ less)) last
      | some n =>
        rw [next] at last
        simp only at last
        rw [next] at last
        cases last

end Store.WellFormed

/-! ### Reading links -/

namespace Memory.Shows

variable {m : Memory} {st : State} (shows : m.Shows st)

include shows

/-- The link of a head to its first entry. -/
theorem next_head {head : ListHead} (isHead : st.store.IsHead head.node) :
    m.links.next head.node = ((st.store.firstEntry head).map .eList).getD head.node := by
  rw [(shows.rings.ring _ isHead).next_head, st.store.entries_node, List.headD_eq_head?_getD,
    List.head?_map]
  rfl

/-- The link of a head to its last entry. -/
theorem prev_head {head : ListHead} (isHead : st.store.IsHead head.node) :
    m.links.prev head.node = ((st.store.lastEntry head).map .eList).getD head.node := by
  rw [(shows.rings.ring _ isHead).prev_head, st.store.entries_node, List.getLastD_eq_getLast?,
    List.getLast?_map]
  rfl

theorem listEmpty_iff {head : ListHead} (isHead : st.store.IsHead head.node) :
    Raw.listEmpty m.links head.node = true ↔ st.store.lists head = [] := by
  rw [Raw.listEmpty, decide_eq_true_iff, (shows.rings.ring _ isHead).next_eq_head_iff,
    st.store.entries_node, List.map_eq_nil_iff]

theorem next_groupList :
    m.links.next .groupList = (st.store.groupList.head?.map .gList).getD .groupList := by
  rw [(shows.rings.ring .groupList trivial).next_head, List.headD_eq_head?_getD]
  exact congrArg (fun first => first.getD ListNode.groupList) List.head?_map

theorem prev_groupList :
    m.links.prev .groupList = (st.store.groupList.getLast?.map .gList).getD .groupList := by
  rw [(shows.rings.ring .groupList trivial).prev_head, List.getLastD_eq_getLast?]
  exact congrArg (fun last => last.getD ListNode.groupList) List.getLast?_map

theorem listEmpty_groupList :
    Raw.listEmpty m.links .groupList = true ↔ st.store.groupList = [] := by
  rw [Raw.listEmpty, decide_eq_true_iff,
    (shows.rings.ring .groupList trivial).next_eq_head_iff]
  exact List.map_eq_nil_iff

/-- The link of a group to the next one. -/
theorem next_gList {g : GroupPtr} (member : g ∈ st.store.groupList) :
    m.links.next (.gList g) =
      ((Neighbours.next st.store.groupList g).map .gList).getD .groupList := by
  have linked : ListNode.gList g ∈ st.store.entries .groupList := List.mem_map_of_mem member
  rw [(shows.rings.ring .groupList trivial).next_entry linked]
  exact congrArg (fun after => after.getD ListNode.groupList)
    (Neighbours.next_map gList_injective _ g)

theorem prev_gList {g : GroupPtr} (member : g ∈ st.store.groupList) :
    m.links.prev (.gList g) =
      ((Neighbours.prev st.store.groupList g).map .gList).getD .groupList := by
  have linked : ListNode.gList g ∈ st.store.entries .groupList := List.mem_map_of_mem member
  rw [(shows.rings.ring .groupList trivial).prev_entry linked]
  exact congrArg (fun before => before.getD ListNode.groupList)
    (Neighbours.prev_map gList_injective _ g)

variable (wf : st.store.WellFormed)

include wf

/-- The link of an element to the next one. -/
theorem next_eList {e : ElementPtr} {place : Place} (present : st.store.place e = some place) :
    m.links.next (.eList e) = ((st.store.eNext e).map .eList).getD place.head.node := by
  have linked : ListNode.eList e ∈ st.store.entries place.head.node := by
    rw [st.store.entries_node]
    exact List.mem_map_of_mem (wf.linked e place present)
  rw [(shows.rings.ring _ (wf.isHead_place present)).next_entry linked, st.store.entries_node,
    Neighbours.next_map eList_injective, eNext_eq, present, Option.bind_some]

theorem prev_eList {e : ElementPtr} {place : Place} (present : st.store.place e = some place) :
    m.links.prev (.eList e) = ((st.store.ePrev e).map .eList).getD place.head.node := by
  have linked : ListNode.eList e ∈ st.store.entries place.head.node := by
    rw [st.store.entries_node]
    exact List.mem_map_of_mem (wf.linked e place present)
  rw [(shows.rings.ring _ (wf.isHead_place present)).prev_entry linked, st.store.entries_node,
    Neighbours.prev_map eList_injective, ePrev_eq, present, Option.bind_some]

end Memory.Shows

/-! ### The selection -/

/-- The element selected in a group is in a place of the group. -/
theorem Selection.Valid.selected_place {σ : Store} {s : Selection} (valid : s.Valid σ)
    (wf : σ.WellFormed) {g : GroupPtr} {e : ElementPtr} (picked : s.gCurrent g = some e) :
    ∃ place, σ.place e = some place ∧ place.group = g :=
  eGroup_eq_some_iff.mp (wf.inForest_iff.mp (valid.gCurrent g e picked))

namespace Memory.Shows

variable {m : Memory} {σ : Store} {s : Selection} (shows : m.Shows ⟨σ, s⟩)

include shows

theorem selectGroup (g : Option GroupPtr) :
    (m.selectGroup g).Shows ⟨σ, { s with currentGroup := g }⟩ :=
  ⟨shows.records, shows.rings, by rw [Memory.selectGroup, shows.selection]⟩

theorem setCurrent (g : GroupPtr) (e : Option ElementPtr) :
    (m.setCurrent g e).Shows ⟨σ, s.setCurrent g e⟩ :=
  ⟨shows.records, shows.rings, by rw [Memory.setCurrent, shows.selection]⟩

theorem groupSelectFirst : (Raw.groupSelectFirst m).Shows ⟨σ, groupSelectFirst σ s⟩ := by
  unfold Raw.groupSelectFirst Bmon.groupSelectFirst
  split_ifs with empty
  · rw [shows.listEmpty_groupList] at empty
    rw [show σ.groupList = [] from empty]
    exact shows.selectGroup none
  · rw [shows.next_groupList, group_getD]
    exact shows.selectGroup _

theorem groupSelectLast : (Raw.groupSelectLast m).Shows ⟨σ, groupSelectLast σ s⟩ := by
  unfold Raw.groupSelectLast Bmon.groupSelectLast
  split_ifs with empty
  · rw [shows.listEmpty_groupList] at empty
    rw [show σ.groupList = [] from empty]
    exact shows.selectGroup none
  · rw [shows.prev_groupList, group_getD]
    exact shows.selectGroup _

theorem groupCurrent : (Raw.groupCurrent m).Shows ⟨σ, groupCurrent σ s⟩ := by
  unfold Raw.groupCurrent Bmon.groupCurrent
  rw [shows.selection]
  cases s.currentGroup with
  | none => exact shows.groupSelectFirst
  | some _ => exact shows

variable (valid : s.Valid σ)

include valid

theorem groupSelectNext : (Raw.groupSelectNext m).Shows ⟨σ, groupSelectNext σ s⟩ := by
  unfold Raw.groupSelectNext Bmon.groupSelectNext
  rw [shows.selection]
  cases current : s.currentGroup with
  | none => exact shows.groupSelectFirst
  | some g =>
    simp only [shows.next_gList (valid.currentGroup g current), ne_eq, getD_eq_groupList_iff]
    cases Neighbours.next σ.groupList g with
    | none => exact shows.groupSelectFirst
    | some g' => exact shows.selectGroup (some g')

theorem groupSelectPrev : (Raw.groupSelectPrev m).Shows ⟨σ, groupSelectPrev σ s⟩ := by
  unfold Raw.groupSelectPrev Bmon.groupSelectPrev
  rw [shows.selection]
  cases current : s.currentGroup with
  | none => exact shows.groupSelectLast
  | some g =>
    simp only [shows.prev_gList (valid.currentGroup g current), ne_eq, getD_eq_groupList_iff]
    cases Neighbours.prev σ.groupList g with
    | none => exact shows.groupSelectLast
    | some g' => exact shows.selectGroup (some g')

variable (wf : σ.WellFormed)

include wf

theorem elementSelectFirst :
    (Raw.elementSelectFirst m).Shows ⟨σ, elementSelectFirst σ s⟩ := by
  have current := shows.groupCurrent
  simp only [Raw.elementSelectFirst, Bmon.elementSelectFirst]
  rw [current.selection]
  cases group : (Bmon.groupCurrent σ s).currentGroup with
  | none => exact current
  | some g =>
    have isHead := wf.isHead_ofGroup (valid.groupCurrent.currentGroup g group)
    have first := current.next_head isHead
    simp only
    split_ifs with empty
    · rw [show σ.firstEntry (.ofGroup g) = none from
        List.head?_eq_none_iff.mpr ((current.listEmpty_iff isHead).mp empty)]
      exact current.setCurrent g none
    · rw [show (Raw.groupCurrent m).links.next (.gElements g) = _ from first, element_getD]
      exact current.setCurrent g _

omit valid in
/-- The loop that descends follows the links to the last children. -/
theorem lastDescendant (fuel : Nat) {e : ElementPtr} (present : σ.place e ≠ none) :
    Raw.lastDescendant m fuel e = lastDescendant σ fuel e := by
  induction fuel generalizing e with
  | zero => rfl
  | succ fuel inductionHypothesis =>
    have isHead := wf.isHead_ofElement present
    have last : m.links.prev (.eChilds e) = _ := shows.prev_head isHead
    rw [Raw.lastDescendant, Bmon.lastDescendant]
    split_ifs with empty
    · rw [show σ.lastEntry (.ofElement e) = none from
        List.getLast?_eq_none_iff.mpr ((shows.listEmpty_iff isHead).mp empty)]
    · rw [last, element_getD]
      cases found : σ.lastEntry (.ofElement e) with
      | none => rfl
      | some c =>
        exact inductionHypothesis (wf.present_of_mem (List.mem_of_mem_getLast? found))

theorem elementSelectLast : (Raw.elementSelectLast m).Shows ⟨σ, elementSelectLast σ s⟩ := by
  have current := shows.groupCurrent
  simp only [Raw.elementSelectLast, Bmon.elementSelectLast]
  rw [current.selection]
  cases group : (Bmon.groupCurrent σ s).currentGroup with
  | none => exact current
  | some g =>
    have isHead := wf.isHead_ofGroup (valid.groupCurrent.currentGroup g group)
    have last : (Raw.groupCurrent m).links.prev (.gElements g) = _ := current.prev_head isHead
    simp only
    split_ifs with empty
    · rw [show σ.lastEntry (.ofGroup g) = none from
        List.getLast?_eq_none_iff.mpr ((current.listEmpty_iff isHead).mp empty)]
      exact current.setCurrent g none
    · rw [last, element_getD]
      have descend : (σ.lastEntry (.ofGroup g)).map (Raw.lastDescendant (Raw.groupCurrent m)
            (Raw.groupCurrent m).records.nextElement) =
          (σ.lastEntry (.ofGroup g)).map (Bmon.lastDescendant σ σ.nextElement) := by
        refine Option.map_congr fun e found => ?_
        rw [current.records]
        exact current.lastDescendant wf σ.nextElement
          (wf.present_of_mem (List.mem_of_mem_getLast? found))
      rw [descend]
      exact current.setCurrent g _

omit valid in
/-- The loop that moves upwards compares the link with the head that the parent owns. -/
theorem climb (fuel : Nat) {e : ElementPtr} (present : σ.place e ≠ none) :
    Raw.climb m fuel e = climb σ fuel e ∧ σ.place (Bmon.climb σ fuel e) ≠ none := by
  induction fuel generalizing e with
  | zero => exact ⟨rfl, present⟩
  | succ fuel inductionHypothesis =>
    obtain ⟨place, found⟩ := Option.ne_none_iff_exists'.mp present
    have records : m.records.eParent e = σ.eParent e := by rw [shows.records]; rfl
    rw [Raw.climb, Bmon.climb, records, shows.next_eList wf found]
    cases parent : σ.eParent e with
    | none => exact ⟨rfl, present⟩
    | some p =>
      rw [eParent_eq, found, Option.bind_some] at parent
      obtain ⟨-, above, presentAbove, -⟩ := wf.parent e place p found parent
      have atTail : ((σ.eNext e).map ListNode.eList).getD place.head.node = .eChilds p ↔
          σ.eNext e = none := by
        change _ = (ListHead.ofElement p).node ↔ _
        rw [getD_eq_node_iff, head_eq_ofElement_iff, and_iff_left parent]
      simp only [atTail]
      cases σ.eNext e with
      | none => exact inductionHypothesis (by rw [presentAbove]; exact Option.some_ne_none above)
      | some n => exact ⟨rfl, present⟩

omit valid in
/-- An element without a parent whose link leads to the head of its group is the last one. -/
theorem atTail_iff {e : ElementPtr} {place : Place} (found : σ.place e = some place) :
    (m.records.eParent e = none ∧ m.links.next (.eList e) = .gElements place.group) ↔
      σ.eParent e = none ∧ σ.eNext e = none := by
  have records : m.records.eParent e = σ.eParent e := by rw [shows.records]; rfl
  have parent : σ.eParent e = place.parent := by rw [eParent_eq, found, Option.bind_some]
  rw [records, shows.next_eList wf found, parent]
  refine and_congr_right fun top => ?_
  change _ = (ListHead.ofGroup place.group).node ↔ _
  rw [getD_eq_node_iff, head_eq_ofGroup_iff, and_iff_left ⟨top, rfl⟩]

omit valid in
theorem atHead_iff {e : ElementPtr} {place : Place} (found : σ.place e = some place) :
    (m.records.eParent e = none ∧ m.links.prev (.eList e) = .gElements place.group) ↔
      σ.eParent e = none ∧ σ.ePrev e = none := by
  have records : m.records.eParent e = σ.eParent e := by rw [shows.records]; rfl
  have parent : σ.eParent e = place.parent := by rw [eParent_eq, found, Option.bind_some]
  rw [records, shows.prev_eList wf found, parent]
  refine and_congr_right fun top => ?_
  change _ = (ListHead.ofGroup place.group).node ↔ _
  rw [getD_eq_node_iff, head_eq_ofGroup_iff, and_iff_left ⟨top, rfl⟩]

/-- Where the selection goes once it has climbed. -/
theorem selectBehind {e : ElementPtr} {place : Place} (found : σ.place e = some place)
    (climbed : σ.eNext e = none → σ.eParent e = none) :
    (if m.records.eParent e = none ∧ m.links.next (.eList e) = .gElements place.group then
        Raw.elementSelectFirst (Raw.groupSelectNext m)
      else m.setCurrent place.group (m.links.next (.eList e)).element).Shows
      ⟨σ, match σ.eNext e with
        | none => Bmon.elementSelectFirst σ (Bmon.groupSelectNext σ s)
        | some n => s.setCurrent place.group (some n)⟩ := by
  simp only [shows.atTail_iff wf found]
  rw [shows.next_eList wf found, element_getD]
  cases next : σ.eNext e with
  | none =>
    rw [if_pos ⟨climbed next, rfl⟩]
    exact (shows.groupSelectNext valid).elementSelectFirst valid.groupSelectNext wf
  | some n =>
    rw [if_neg fun last => Option.some_ne_none n last.2]
    exact shows.setCurrent place.group (some n)

theorem elementSelectNext : (Raw.elementSelectNext m).Shows ⟨σ, elementSelectNext σ s⟩ := by
  have current := shows.groupCurrent
  have validCurrent := valid.groupCurrent
  simp only [Raw.elementSelectNext, Bmon.elementSelectNext]
  rw [current.selection]
  cases (Bmon.groupCurrent σ s).currentGroup with
  | none => exact current
  | some g =>
    simp only
    cases picked : (Bmon.groupCurrent σ s).gCurrent g with
    | none => exact current.elementSelectFirst validCurrent wf
    | some e =>
      obtain ⟨place, found, rfl⟩ := validCurrent.selected_place wf picked
      have present : σ.place e ≠ none := by rw [found]; exact Option.some_ne_none place
      have isHead := wf.isHead_ofElement present
      have first : (Raw.groupCurrent m).links.next (.eChilds e) = _ := current.next_head isHead
      have empty : Raw.listEmpty (Raw.groupCurrent m).links (.eChilds e) = true ↔ _ :=
        current.listEmpty_iff isHead
      simp only [first, element_getD, Bool.not_eq_true', ← Bool.not_eq_true, empty]
      cases child : σ.firstEntry (.ofElement e) with
      | none =>
        rw [if_neg (not_not.mpr (List.head?_eq_none_iff.mp child))]
        obtain ⟨same, presentAbove⟩ := current.climb wf σ.nextElement present
        have fuel : (Raw.groupCurrent m).records.nextElement = σ.nextElement := by
          rw [current.records]; rfl
        obtain ⟨placeAbove, foundAbove⟩ := Option.ne_none_iff_exists'.mp presentAbove
        have sameGroup : placeAbove.group = place.group := by
          have group := wf.eGroup_climb σ.nextElement e
          rw [Store.eGroup, Store.eGroup, foundAbove, found] at group
          exact Option.some.inj group
        rw [fuel, same, ← sameGroup]
        exact current.selectBehind validCurrent wf foundAbove
          (wf.climb_done (wf.element_lt e place found))
      | some c =>
        rw [if_pos fun none => ?_]
        · exact current.setCurrent place.group (some c)
        · rw [Store.firstEntry, none] at child
          cases child

theorem elementSelectPrev : (Raw.elementSelectPrev m).Shows ⟨σ, elementSelectPrev σ s⟩ := by
  have current := shows.groupCurrent
  have validCurrent := valid.groupCurrent
  simp only [Raw.elementSelectPrev, Bmon.elementSelectPrev]
  rw [current.selection]
  cases (Bmon.groupCurrent σ s).currentGroup with
  | none => exact current
  | some g =>
    simp only
    cases picked : (Bmon.groupCurrent σ s).gCurrent g with
    | none => exact current.elementSelectLast validCurrent wf
    | some e =>
      obtain ⟨place, found, rfl⟩ := validCurrent.selected_place wf picked
      have fuel : (Raw.groupCurrent m).records.nextElement = σ.nextElement := by
        rw [current.records]; rfl
      have records : (Raw.groupCurrent m).records.eParent e = σ.eParent e := by
        rw [current.records]; rfl
      have descend : ((σ.ePrev e).map (Raw.lastDescendant (Raw.groupCurrent m) σ.nextElement)) =
          (σ.ePrev e).map (Bmon.lastDescendant σ σ.nextElement) := by
        refine Option.map_congr fun p before => current.lastDescendant wf σ.nextElement ?_
        rw [ePrev_eq, found, Option.bind_some] at before
        exact wf.present_of_mem (List.mem_reverse.mp (Neighbours.next_mem before))
      simp only [current.atHead_iff wf found]
      simp only [records, fuel, current.prev_eList wf found, element_getD, descend]
      cases parent : σ.eParent e with
      | none =>
        cases before : σ.ePrev e with
        | none =>
          rw [if_pos ⟨rfl, rfl⟩]
          exact (current.groupSelectPrev validCurrent).elementSelectLast
            validCurrent.groupSelectPrev wf
        | some p =>
          rw [if_neg fun first => Option.some_ne_none p first.2]
          exact current.setCurrent place.group _
      | some above =>
        have isParent := parent
        rw [eParent_eq, found, Option.bind_some] at isParent
        have atHead : ((σ.ePrev e).map ListNode.eList).getD place.head.node = .eChilds above ↔
            σ.ePrev e = none := by
          change _ = (ListHead.ofElement above).node ↔ _
          rw [getD_eq_node_iff, head_eq_ofElement_iff, and_iff_left isParent]
        rw [if_neg fun first => Option.some_ne_none above first.1]
        simp only [atHead]
        cases before : σ.ePrev e with
        | none => exact current.setCurrent place.group (some above)
        | some p => exact current.setCurrent place.group _

omit valid in
/-- The loop over a list of elements that returns the first one that meets a test. -/
theorem search_elements {head : ListHead} (isHead : σ.IsHead head.node)
    (test : ElementPtr → Bool) :
    m.links.search (fun node => node.element.any test) head.node m.records.nextElement
        (m.links.next head.node) =
      ((σ.lists head).find? test).map .eList := by
  have enough : (σ.entries head.node).length ≤ m.records.nextElement := by
    rw [shows.records, σ.entries_node, List.length_map]
    exact wf.length_lists head
  rw [(shows.rings.ring _ isHead).search_eq _ enough]
  change List.find? _ (σ.entries head.node) = _
  rw [σ.entries_node, List.find?_map]
  rfl

theorem elementPickFromPolicy {g : GroupPtr} (isGroup : g ∈ σ.groupList) :
    (Raw.elementPickFromPolicy m g).Shows ⟨σ, elementPickFromPolicy σ s g⟩ := by
  have found (test : ElementPtr → Bool) :
      m.links.search (fun node => node.element.any test) (.gElements g) m.records.nextElement
        (m.links.next (.gElements g)) = ((σ.lists (.ofGroup g)).find? test).map .eList :=
    shows.search_elements wf (wf.isHead_ofGroup isGroup) test
  have entry (e : Option ElementPtr) : (e.map ListNode.eList).bind ListNode.element = e := by
    cases e <;> rfl
  unfold Raw.elementPickFromPolicy Bmon.elementPickFromPolicy
  simp only [found, entry]
  rw [shows.records]
  dsimp only [Store.withoutLists]
  cases σ.allowed.findSome? fun p => (σ.lists (.ofGroup g)).find? fun e =>
      (σ.elements e).any fun r => matchMask (some p) (some r.eName) = some true with
  | none => exact shows.elementSelectFirst valid wf
  | some e => exact shows.setCurrent g (some e)

theorem elementCurrent : (Raw.elementCurrent m).Shows ⟨σ, elementCurrent σ s⟩ := by
  have current := shows.groupCurrent
  have validCurrent := valid.groupCurrent
  simp only [Raw.elementCurrent, Bmon.elementCurrent]
  rw [current.selection]
  cases group : (Bmon.groupCurrent σ s).currentGroup with
  | none => exact current
  | some g =>
    simp only
    cases (Bmon.groupCurrent σ s).gCurrent g with
    | none =>
      exact current.elementPickFromPolicy validCurrent wf (validCurrent.currentGroup g group)
    | some e => exact current

/-- The calls of the output modules. -/
theorem outputApply (op : OutputOp) : (Raw.outputApply m op).Shows ⟨σ, op.apply σ s⟩ := by
  cases op with
  | elementSelectFirst => exact shows.elementSelectFirst valid wf
  | elementSelectLast => exact shows.elementSelectLast valid wf
  | elementSelectNext => exact shows.elementSelectNext valid wf
  | elementSelectPrev => exact shows.elementSelectPrev valid wf
  | elementCurrent => exact shows.elementCurrent valid wf
  | groupSelectFirst => exact shows.groupSelectFirst
  | groupSelectLast => exact shows.groupSelectLast
  | groupSelectNext => exact shows.groupSelectNext valid
  | groupSelectPrev => exact shows.groupSelectPrev valid
  | groupCurrent => exact shows.groupCurrent

end Memory.Shows

end Bmon
