/-
This file relates the linked lists of a store to the forests they stand for.

`Laid` says that a forest is linked in a store as the part of a list from some entry on: each
node is an element in that list, and the list of its children holds the forest below it.
`Represents` says which forest every group holds. A well-formed store always represents some
forests, and every element that is not freed is in the one of its group.
-/

import Bmon.Lib.Forest
import Bmon.StoreInvariant
import Mathlib.Data.List.Perm.Subperm
import Mathlib.Logic.Relation

namespace Bmon

/-! ### A forest in a list -/

/-- The forest is linked in the list, with the children of its nodes in their own lists. -/
def Laid (σ : Store) : ListHead → Forest ElementPtr → Prop
  | _, .nil => True
  | head, .cons e childs siblings =>
    (∃ place, σ.place e = some place ∧ place.head = head) ∧
      σ.lists (.ofElement e) = childs.roots ∧ Laid σ (.ofElement e) childs ∧ Laid σ head siblings

/-- A store that agrees on the nodes of a forest has it laid in the same way. -/
theorem Laid.congr {σ σ' : Store} {head : ListHead} {forest : Forest ElementPtr}
    (laid : Laid σ head forest)
    (same : ∀ e ∈ forest.preorder,
      σ'.place e = σ.place e ∧ σ'.lists (.ofElement e) = σ.lists (.ofElement e)) :
    Laid σ' head forest := by
  induction forest generalizing head with
  | nil => trivial
  | cons e childs siblings childsHypothesis siblingsHypothesis =>
    obtain ⟨linked, below, laidChilds, laidSiblings⟩ := laid
    obtain ⟨samePlace, sameList⟩ := same e List.mem_cons_self
    refine ⟨by rwa [samePlace], sameList.trans below, childsHypothesis laidChilds ?_,
      siblingsHypothesis laidSiblings ?_⟩
    · exact fun x member => same x (List.mem_cons_of_mem _ (List.mem_append_left _ member))
    · exact fun x member => same x (List.mem_cons_of_mem _ (List.mem_append_right _ member))

/-- Every node of a forest is an element that is not freed. -/
theorem Laid.present {σ : Store} {head : ListHead} {forest : Forest ElementPtr}
    (laid : Laid σ head forest) {e : ElementPtr} (member : e ∈ forest.preorder) :
    ∃ place, σ.place e = some place := by
  induction forest generalizing head with
  | nil => cases member
  | cons node childs siblings childsHypothesis siblingsHypothesis =>
    obtain ⟨⟨place, present, -⟩, -, laidChilds, laidSiblings⟩ := laid
    rcases List.mem_cons.mp member with rfl | member
    · exact ⟨place, present⟩
    · rcases List.mem_append.mp member with below | beside
      · exact childsHypothesis laidChilds below
      · exact siblingsHypothesis laidSiblings beside

/-- The children of a node of a forest are nodes of the forest. -/
theorem Laid.childs_mem {σ : Store} {head : ListHead} {forest : Forest ElementPtr}
    (laid : Laid σ head forest) {e c : ElementPtr} (member : e ∈ forest.preorder)
    (child : c ∈ σ.lists (.ofElement e)) : c ∈ forest.preorder := by
  induction forest generalizing head with
  | nil => cases member
  | cons node childs siblings childsHypothesis siblingsHypothesis =>
    obtain ⟨-, below, laidChilds, laidSiblings⟩ := laid
    refine List.mem_cons_of_mem _ ?_
    rcases List.mem_cons.mp member with rfl | member
    · rw [below] at child
      exact List.mem_append_left _ (childs.roots_subset_preorder child)
    · rcases List.mem_append.mp member with inChilds | inSiblings
      · exact List.mem_append_left _ (childsHypothesis laidChilds inChilds)
      · exact List.mem_append_right _ (siblingsHypothesis laidSiblings inSiblings)

/-- A forest without repetitions that is linked in a list, from some entry to the end. -/
structure Hangs (σ : Store) (head : ListHead) (forest : Forest ElementPtr) : Prop where
  laid : Laid σ head forest
  rest : forest.roots <:+ σ.lists head
  list_nodup : (σ.lists head).Nodup
  nodup : forest.preorder.Nodup

namespace Hangs

variable {σ : Store} {head : ListHead} {e : ElementPtr} {below beside : Forest ElementPtr}
variable (hangs : Hangs σ head (.cons e below beside))

include hangs

theorem childs : Hangs σ (.ofElement e) below := by
  obtain ⟨-, nodup, -, -⟩ := Forest.nodup_preorder_cons.mp hangs.nodup
  have list := hangs.laid.2.1
  exact ⟨hangs.laid.2.2.1, by rw [list], by rw [list]; exact Forest.nodup_roots nodup, nodup⟩

theorem siblings : Hangs σ head beside := by
  obtain ⟨-, -, nodup, -⟩ := Forest.nodup_preorder_cons.mp hangs.nodup
  exact ⟨hangs.laid.2.2.2, (List.suffix_cons _ _).trans hangs.rest, hangs.list_nodup, nodup⟩

/-- The first child of a node. -/
theorem firstEntry : σ.firstEntry (.ofElement e) = below.roots.head? := by
  rw [Store.firstEntry, hangs.laid.2.1]

/-- The parent of a node owns its list. -/
theorem eParent : σ.eParent e = head.owner := by
  obtain ⟨⟨place, present, rfl⟩, -⟩ := hangs.laid
  rw [eParent_eq, present, Option.bind_some, owner_head]

/-- The link of a node to the next entry leads to its later siblings. -/
theorem eNext : σ.eNext e = beside.roots.head? := by
  obtain ⟨⟨place, present, rfl⟩, -⟩ := hangs.laid
  obtain ⟨before, split⟩ := hangs.rest
  have nodup := hangs.list_nodup
  rw [← split] at nodup
  have fresh : e ∉ before := fun member =>
    (List.nodup_append.mp nodup).2.2 e member e List.mem_cons_self rfl
  rw [eNext_eq, present, Option.bind_some, ← split, Forest.roots,
    Neighbours.next_append_cons fresh]

/-- The link of a node to the previous entry leads to its earlier siblings. -/
theorem ePrev {before : List ElementPtr} (split : σ.lists head = before ++ e :: beside.roots) :
    σ.ePrev e = before.getLast? := by
  obtain ⟨⟨place, present, rfl⟩, -⟩ := hangs.laid
  have nodup := hangs.list_nodup
  rw [split] at nodup
  have fresh : e ∉ beside.roots := (List.nodup_cons.mp (List.nodup_append.mp nodup).2.1).1
  rw [ePrev_eq, present, Option.bind_some, split, Neighbours.prev_append_cons fresh]

end Hangs

/-! ### Ancestors -/

/-- One element is the parent of another. -/
def Store.IsParent (σ : Store) (p e : ElementPtr) : Prop := σ.eParent e = some p

/-- One element is another or one of its ancestors. -/
def Store.Above (σ : Store) : ElementPtr → ElementPtr → Prop := Relation.ReflTransGen σ.IsParent

/-- A parent that is read from an element that is not freed. -/
theorem isParent_iff {σ : Store} {p e : ElementPtr} :
    σ.IsParent p e ↔ ∃ place, σ.place e = some place ∧ place.parent = some p := by
  rw [Store.IsParent, eParent_eq, Option.bind_eq_some_iff]

theorem isParent_of_head {σ : Store} {p e : ElementPtr} {place : Place}
    (present : σ.place e = some place) (head : place.head = .ofElement p) : σ.IsParent p e :=
  isParent_iff.mpr ⟨place, present, head_eq_ofElement_iff.mp head⟩

/-- The roots of a forest are in the list it is laid in. -/
theorem Laid.root_place {σ : Store} {head : ListHead} {forest : Forest ElementPtr}
    (laid : Laid σ head forest) {root : ElementPtr} (member : root ∈ forest.roots) :
    ∃ place, σ.place root = some place ∧ place.head = head := by
  induction forest with
  | nil => cases member
  | cons node childs siblings _ siblingsHypothesis =>
    rcases List.mem_cons.mp member with rfl | member
    · exact laid.1
    · exact siblingsHypothesis laid.2.2.2 member

/-- The children of a node of a forest have it as their parent. -/
theorem Laid.isParent {σ : Store} {head : ListHead} {forest : Forest ElementPtr}
    (laid : Laid σ head forest) {e c : ElementPtr} (member : e ∈ forest.preorder)
    (child : c ∈ σ.lists (.ofElement e)) : σ.IsParent e c := by
  induction forest generalizing head with
  | nil => cases member
  | cons node childs siblings childsHypothesis siblingsHypothesis =>
    obtain ⟨-, below, laidChilds, laidSiblings⟩ := laid
    rcases List.mem_cons.mp member with rfl | member
    · rw [below] at child
      obtain ⟨place, present, headChild⟩ := laidChilds.root_place child
      exact isParent_of_head present headChild
    · rcases List.mem_append.mp member with inChilds | inSiblings
      · exact childsHypothesis laidChilds inChilds
      · exact siblingsHypothesis laidSiblings inSiblings

/-- A parent has its children in its list. -/
theorem Store.WellFormed.mem_of_isParent {σ : Store} (wf : σ.WellFormed) {p e : ElementPtr}
    (parent : σ.IsParent p e) : e ∈ σ.lists (.ofElement p) := by
  obtain ⟨place, present, some⟩ := isParent_iff.mp parent
  have linked := wf.linked e place present
  rwa [head_eq_ofElement_iff.mpr some] at linked

theorem Store.WellFormed.eGroup_eParent {σ : Store} (wf : σ.WellFormed) {p e : ElementPtr}
    (parent : σ.eParent e = some p) : σ.eGroup p = σ.eGroup e := by
  obtain ⟨place, present, some⟩ := isParent_iff.mp parent
  obtain ⟨-, above, presentAbove, same⟩ := wf.parent e place p present some
  rw [Store.eGroup, Store.eGroup, present, presentAbove, Option.map_some, Option.map_some, same]

/-- An element is in the group of its ancestors. -/
theorem Store.WellFormed.eGroup_of_above {σ : Store} (wf : σ.WellFormed) {a e : ElementPtr}
    (above : σ.Above a e) : σ.eGroup a = σ.eGroup e := by
  induction above with
  | refl => rfl
  | tail _ parent inductionHypothesis =>
    exact inductionHypothesis.trans (wf.eGroup_eParent parent)

/-- An element comes after all its ancestors. -/
theorem Store.WellFormed.le_of_above {σ : Store} (wf : σ.WellFormed) {a e : ElementPtr}
    (above : σ.Above a e) : a ≤ e := by
  induction above with
  | refl => exact le_rfl
  | tail _ parent inductionHypothesis =>
    obtain ⟨place, present, some⟩ := isParent_iff.mp parent
    exact inductionHypothesis.trans (wf.parent _ place _ present some).1.le

/-- Two different elements of one list have no common descendant. -/
theorem Store.WellFormed.eq_of_above {σ : Store} (wf : σ.WellFormed) {a b e : ElementPtr}
    {placeA placeB : Place} (presentA : σ.place a = some placeA)
    (presentB : σ.place b = some placeB) (sameHead : placeA.head = placeB.head)
    (aboveA : σ.Above a e) (aboveB : σ.Above b e) : a = b := by
  -- of two ancestors of one element, one is above the other
  have unique : Relator.RightUnique (Function.swap σ.IsParent) := fun e p q left right =>
    Option.some.inj (left.symm.trans right)
  have strict : ∀ {x y : ElementPtr} {placeX placeY : Place}, σ.place x = some placeX →
      σ.place y = some placeY → placeX.head = placeY.head → σ.Above x y → x = y := by
    intro x y placeX placeY presentX presentY same above
    rcases above.cases_tail with rfl | ⟨p, abovep, parent⟩
    · rfl
    · obtain ⟨place, present, some⟩ := isParent_iff.mp parent
      rw [presentY] at present
      obtain rfl := Option.some.inj present
      have parentX : placeX.parent = Option.some p :=
        head_eq_ofElement_iff.mp (same.trans (head_eq_ofElement_iff.mpr some))
      have less := (wf.parent x placeX p presentX parentX).1
      exact absurd (wf.le_of_above abovep) (Nat.not_le_of_lt less)
  rcases Relation.ReflTransGen.total_of_right_unique unique
    (Relation.reflTransGen_swap.mpr aboveA) (Relation.reflTransGen_swap.mpr aboveB) with
    above | above
  · exact (strict presentB presentA sameHead.symm (Relation.reflTransGen_swap.mp above)).symm
  · exact strict presentA presentB sameHead (Relation.reflTransGen_swap.mp above)

/-- Every node of a forest is below one of its roots. -/
theorem Laid.above_root {σ : Store} {head : ListHead} {forest : Forest ElementPtr}
    (laid : Laid σ head forest) {e : ElementPtr} (member : e ∈ forest.preorder) :
    ∃ root ∈ forest.roots, σ.Above root e := by
  induction forest generalizing head with
  | nil => cases member
  | cons node childs siblings childsHypothesis siblingsHypothesis =>
    obtain ⟨-, -, laidChilds, laidSiblings⟩ := laid
    rcases List.mem_cons.mp member with rfl | member
    · exact ⟨e, List.mem_cons_self, .refl⟩
    · rcases List.mem_append.mp member with inChilds | inSiblings
      · obtain ⟨root, isRoot, above⟩ := childsHypothesis laidChilds inChilds
        obtain ⟨place, present, headRoot⟩ := laidChilds.root_place isRoot
        exact ⟨node, List.mem_cons_self, .head (isParent_of_head present headRoot) above⟩
      · obtain ⟨root, isRoot, above⟩ := siblingsHypothesis laidSiblings inSiblings
        exact ⟨root, List.mem_cons_of_mem _ isRoot, above⟩

/-- The nodes below a node of a forest are its proper descendants. -/
theorem Laid.above_childs {σ : Store} {head : ListHead} {node : ElementPtr}
    {childs siblings : Forest ElementPtr} (laid : Laid σ head (.cons node childs siblings))
    {e : ElementPtr} (member : e ∈ childs.preorder) :
    ∃ root, σ.IsParent node root ∧ σ.Above root e := by
  obtain ⟨-, -, laidChilds, -⟩ := laid
  obtain ⟨root, isRoot, above⟩ := laidChilds.above_root member
  obtain ⟨place, present, headRoot⟩ := laidChilds.root_place isRoot
  exact ⟨root, isParent_of_head present headRoot, above⟩

/-- A forest in a well-formed store repeats no node, as long as it repeats no root. -/
theorem Laid.nodup {σ : Store} (wf : σ.WellFormed) {head : ListHead} {forest : Forest ElementPtr}
    (laid : Laid σ head forest) (roots : forest.roots.Nodup) : forest.preorder.Nodup := by
  induction forest generalizing head with
  | nil => exact List.nodup_nil
  | cons node childs siblings childsHypothesis siblingsHypothesis =>
    have below : ∀ e ∈ childs.preorder, ∃ root, σ.IsParent node root ∧ σ.Above root e :=
      fun e member => laid.above_childs member
    obtain ⟨⟨place, present, rfl⟩, list, laidChilds, laidSiblings⟩ := laid
    obtain ⟨freshRoot, restRoots⟩ := List.nodup_cons.mp roots
    have apart : ∀ e, σ.Above node e → e ∉ siblings.preorder := fun e above member => by
      obtain ⟨root, isRoot, aboveRoot⟩ := laidSiblings.above_root member
      obtain ⟨placeRoot, presentRoot, headRoot⟩ := laidSiblings.root_place isRoot
      obtain rfl := wf.eq_of_above present presentRoot headRoot.symm above aboveRoot
      exact freshRoot isRoot
    refine Forest.nodup_preorder_cons.mpr ⟨⟨fun member => ?_, apart node .refl⟩,
      childsHypothesis laidChilds ?_, siblingsHypothesis laidSiblings restRoots,
      fun e inChilds => ?_⟩
    · obtain ⟨root, parent, above⟩ := below node member
      obtain ⟨placeRoot, presentRoot, some⟩ := isParent_iff.mp parent
      have less := (wf.parent root placeRoot node presentRoot some).1
      exact absurd (wf.le_of_above above) (Nat.not_le_of_lt less)
    · rw [← list]
      exact wf.lists_nodup _
    · obtain ⟨root, parent, above⟩ := below e inChilds
      exact apart e (.head parent above)

/-! ### The forests of a store -/

/-- Every list of a well-formed store holds a forest. -/
theorem Store.WellFormed.exists_laid {σ : Store} (wf : σ.WellFormed) (head : ListHead) :
    ∃ forest, forest.roots = σ.lists head ∧ Laid σ head forest := by
  -- pointers rise along the lists of children, and are bounded
  suffices bounded : ∀ n head, (∀ e ∈ σ.lists head, σ.nextElement ≤ e + n) →
      ∃ forest, forest.roots = σ.lists head ∧ Laid σ head forest from
    bounded σ.nextElement head fun e _ => Nat.le_add_left _ _
  intro n
  induction n with
  | zero =>
    intro head high
    refine ⟨.nil, ?_, trivial⟩
    refine (List.eq_nil_iff_forall_not_mem.mpr fun e member => ?_).symm
    exact absurd (high e member) (Nat.not_le_of_lt (wf.lt_of_mem member))
  | succ n inductionHypothesis =>
    intro head high
    have part : ∀ entries, entries ⊆ σ.lists head →
        ∃ forest, forest.roots = entries ∧ Laid σ head forest := by
      intro entries
      induction entries with
      | nil => exact fun _ => ⟨.nil, rfl, trivial⟩
      | cons e entries entriesHypothesis =>
        intro inList
        have member := inList List.mem_cons_self
        obtain ⟨siblings, roots, laidSiblings⟩ :=
          entriesHypothesis fun x inRest => inList (List.mem_cons_of_mem _ inRest)
        obtain ⟨childs, below, laidChilds⟩ := inductionHypothesis (.ofElement e) fun c child => by
          obtain ⟨-, -, -, -, -, -, less⟩ := wf.owner_present child
          calc σ.nextElement ≤ e + (n + 1) := high e member
            _ = e + 1 + n := by rw [Nat.add_assoc, Nat.add_comm 1 n]
            _ ≤ c + n := Nat.add_le_add_right less n
        exact ⟨.cons e childs siblings, by rw [Forest.roots, roots],
          wf.owned head e member, below.symm, laidChilds, laidSiblings⟩
    exact part _ (List.Subset.refl _)

/-- The nodes of all groups, in the order of the groups. -/
def allNodes (σ : Store) (forest : GroupPtr → Forest ElementPtr) : List ElementPtr :=
  σ.groupList.flatMap fun g => (forest g).preorder

/-- Which forest each group of a store holds. The forests are disjoint, and there are no more
nodes than pointers were handed out. -/
structure Represents (σ : Store) (forest : GroupPtr → Forest ElementPtr) : Prop where
  roots : ∀ g ∈ σ.groupList, σ.lists (.ofGroup g) = (forest g).roots
  laid : ∀ g ∈ σ.groupList, Laid σ (.ofGroup g) (forest g)
  groups_nodup : σ.groupList.Nodup
  nodup : (allNodes σ forest).Nodup
  short : (allNodes σ forest).length ≤ σ.nextElement

/-- Only the forests of the groups in the list count. -/
theorem Represents.congr {σ : Store} {forest forest' : GroupPtr → Forest ElementPtr}
    (represents : Represents σ forest) (same : ∀ g ∈ σ.groupList, forest' g = forest g) :
    Represents σ forest' := by
  have nodes : allNodes σ forest' = allNodes σ forest :=
    List.flatMap_congr fun g isGroup => by rw [same g isGroup]
  refine ⟨fun g isGroup => ?_, fun g isGroup => ?_, represents.groups_nodup, ?_, ?_⟩
  · rw [same g isGroup]
    exact represents.roots g isGroup
  · rw [same g isGroup]
    exact represents.laid g isGroup
  · rw [nodes]
    exact represents.nodup
  · rw [nodes]
    exact represents.short

/-- The forest of a group hangs in the list of the group. -/
theorem Represents.hangs {σ : Store} {forest : GroupPtr → Forest ElementPtr}
    (represents : Represents σ forest) {g : GroupPtr} (member : g ∈ σ.groupList) :
    Hangs σ (.ofGroup g) (forest g) := by
  have list := represents.roots g member
  have nodup := (List.nodup_flatMap.mp represents.nodup).1 g member
  exact ⟨represents.laid g member, by rw [list], by rw [list]; exact Forest.nodup_roots nodup,
    nodup⟩

/-- No forest has more nodes than pointers were handed out. -/
theorem Represents.length_le {σ : Store} {forest : GroupPtr → Forest ElementPtr}
    (represents : Represents σ forest) {g : GroupPtr} (member : g ∈ σ.groupList) :
    (forest g).preorder.length ≤ σ.nextElement := by
  refine le_trans (List.Sublist.length_le ?_) represents.short
  rw [allNodes, List.flatMap_def]
  exact List.sublist_flatten_of_mem (List.mem_map_of_mem member)

/-- Different entries that are not freed are no more than the pointers that were handed out. -/
theorem Store.WellFormed.length_le {σ : Store} (wf : σ.WellFormed) {nodes : List ElementPtr}
    (nodup : nodes.Nodup) (present : ∀ e ∈ nodes, ∃ place, σ.place e = some place) :
    nodes.length ≤ σ.nextElement := by
  have bounded : nodes ⊆ List.range σ.nextElement := fun e member => by
    obtain ⟨place, present⟩ := present e member
    exact List.mem_range.mpr (wf.element_lt e place present)
  have length := (nodup.subperm bounded).length_le
  rwa [List.length_range] at length

/-- A well-formed store represents the forests of its groups. -/
theorem Store.WellFormed.represents {σ : Store} (wf : σ.WellFormed) :
    ∃ forest, Represents σ forest := by
  choose forest roots laid using fun g => wf.exists_laid (.ofGroup g)
  have nodupGroup : ∀ g, (forest g).preorder.Nodup := fun g =>
    (laid g).nodup wf (by rw [roots g]; exact wf.lists_nodup _)
  have groupOf : ∀ g e, e ∈ (forest g).preorder → σ.eGroup e = some g := fun g e member => by
    obtain ⟨root, isRoot, above⟩ := (laid g).above_root member
    rw [roots g] at isRoot
    rw [← wf.eGroup_of_above above, wf.eGroup_of_mem isRoot]
  have nodup : (allNodes σ forest).Nodup := by
    refine List.nodup_flatMap.mpr ⟨fun g _ => nodupGroup g, ?_⟩
    refine wf.groups_nodup.imp fun {g g'} apart e inFirst inSecond => apart ?_
    exact Option.some.inj ((groupOf g e inFirst).symm.trans (groupOf g' e inSecond))
  refine ⟨forest, fun g _ => (roots g).symm, fun g _ => laid g, wf.groups_nodup, nodup,
    wf.length_le nodup fun e member => ?_⟩
  obtain ⟨g, -, inGroup⟩ := List.mem_flatMap.mp member
  exact (laid g).present inGroup

end Bmon
