/-
This file shows what freeing an element does, as a list of effects.

The functions that free elements change the lists they follow. What they do is described by
effects on single elements: the time to live of an element is decremented, and an element is
released once its children are. `element_free` is shown to be the same as a list of effects
that is read off the forest below the element beforehand. What effects do to the lists, the
elements and the selection is shown by induction on the list.
-/

import Bmon.SelectionInvariant

namespace Bmon

/-! ### Effects -/

/-- What freeing and sweeping do to one element: `element_check_if_dead` decrements its time
to live, and `element_free` releases it after its children. -/
inductive Effect where
  | tick (e : ElementPtr)
  | release (e : ElementPtr)

namespace Effect

/-- The element an effect is on. -/
def target : Effect → ElementPtr
  | tick e => e
  | release e => e

/-- The element an effect frees, if it does. -/
def freed : Effect → Option ElementPtr
  | tick _ => none
  | release e => some e

def apply (st : State) : Effect → State
  | tick e => { st with store := st.store.modifyElement e Element.tick }
  | release e => elementRelease st e

/-- An element is only released when it is not freed yet and has no children any more. -/
def Legal (σ : Store) : Effect → Prop
  | tick _ => True
  | release e => σ.place e ≠ none ∧ σ.lists (.ofElement e) = []

end Effect

/-- One effect after the other. -/
def applyAll (st : State) (effects : List Effect) : State := effects.foldl Effect.apply st

/-- Every effect is legal at the time it is applied. -/
def LegalAll : State → List Effect → Prop
  | _, [] => True
  | st, effect :: rest => effect.Legal st.store ∧ LegalAll (effect.apply st) rest

/-- The elements a list of effects frees. -/
def freedBy (effects : List Effect) : List ElementPtr := effects.filterMap Effect.freed

theorem applyAll_append (st : State) (first second : List Effect) :
    applyAll st (first ++ second) = applyAll (applyAll st first) second :=
  List.foldl_append

theorem legalAll_append {st : State} {first second : List Effect} :
    LegalAll st (first ++ second) ↔ LegalAll st first ∧ LegalAll (applyAll st first) second := by
  induction first generalizing st with
  | nil => exact (iff_of_eq (true_and _)).symm
  | cons effect rest inductionHypothesis =>
    rw [List.cons_append, LegalAll, LegalAll, inductionHypothesis, and_assoc]
    rfl

theorem freedBy_append (first second : List Effect) :
    freedBy (first ++ second) = freedBy first ++ freedBy second := List.filterMap_append

@[simp] theorem freedBy_cons_tick (e : ElementPtr) (rest : List Effect) :
    freedBy (.tick e :: rest) = freedBy rest := rfl

@[simp] theorem freedBy_cons_release (e : ElementPtr) (rest : List Effect) :
    freedBy (.release e :: rest) = e :: freedBy rest := rfl

theorem freedBy_release (nodes : List ElementPtr) :
    freedBy (nodes.map Effect.release) = nodes := by
  rw [freedBy, List.filterMap_map]
  exact List.filterMap_some

theorem target_of_mem_freedBy {effects : List Effect} {e : ElementPtr}
    (member : e ∈ freedBy effects) : e ∈ effects.map Effect.target := by
  obtain ⟨effect, isEffect, freed⟩ := List.mem_filterMap.mp member
  cases effect with
  | tick e => cases freed
  | release e =>
    obtain rfl := Option.some.inj freed
    exact List.mem_map.mpr ⟨_, isEffect, rfl⟩

/-! ### What one effect does to the store -/

/-- The store after the release of an element that is not freed. -/
theorem elementRelease_store_eq {st : State} {e : ElementPtr} {r : Element}
    (found : st.store.elements e = some r) :
    (elementRelease st e).store = ((st.store.listDel e).modifyGroup r.eGroup fun g =>
      { g with gNelements := g.gNelements - 1 }).xfree e := by
  have store : (elementUnselect st e).store = st.store := by
    unfold elementUnselect
    simp only [found]
    split_ifs <;> rfl
  unfold elementRelease
  simp only [found]
  rw [store]

theorem elementRelease_store {st : State} {e : ElementPtr} (present : st.store.place e ≠ none) :
    ∃ g change, (elementRelease st e).store =
      ((st.store.listDel e).modifyGroup g change).xfree e := by
  obtain ⟨place, some⟩ := Option.ne_none_iff_exists'.mp present
  obtain ⟨r, found, -⟩ := place_eq_some_iff.mp some
  exact ⟨r.eGroup, _, elementRelease_store_eq found⟩

namespace Effect

variable {st : State} {effect : Effect} (legal : effect.Legal st.store)

include legal

theorem apply_lists (head : ListHead) :
    (effect.apply st).store.lists head =
      (st.store.lists head).filter fun e => decide (e ∉ effect.freed) := by
  cases effect with
  | tick e =>
    refine (List.filter_eq_self.mpr fun e' _ => ?_).symm
    simp [freed]
  | release e =>
    obtain ⟨g, change, store⟩ := elementRelease_store legal.1
    rw [apply, store]
    refine List.filter_congr fun e' _ => ?_
    simp [freed, eq_comm]

theorem apply_elements_other {e : ElementPtr} (other : e ≠ effect.target) :
    (effect.apply st).store.elements e = st.store.elements e := by
  cases effect with
  | tick e' => exact if_neg other
  | release e' =>
    obtain ⟨g, change, store⟩ := elementRelease_store legal.1
    rw [apply, store]
    exact if_neg other

theorem apply_place (e : ElementPtr) :
    (effect.apply st).store.place e = if e ∈ effect.freed then none else st.store.place e := by
  cases effect with
  | tick e' =>
    exact congrFun (sameShape_modifyElement st.store e' Element.tick fun _ => rfl).place e
  | release e' =>
    by_cases same : e = e'
    · obtain ⟨g, change, store⟩ := elementRelease_store legal.1
      rw [apply, store, same]
      simp [freed, Store.place, Store.xfree]
    · rw [Store.place, apply_elements_other legal same, if_neg, Store.place]
      simpa [freed] using Ne.symm same

/-- An effect leaves the groups, and hands out no pointers. -/
theorem apply_same :
    (effect.apply st).store.groupList = st.store.groupList ∧
      (effect.apply st).store.nextElement = st.store.nextElement ∧
      (effect.apply st).store.nextGroup = st.store.nextGroup := by
  cases effect with
  | tick e => exact ⟨rfl, rfl, rfl⟩
  | release e =>
    obtain ⟨g, change, store⟩ := elementRelease_store legal.1
    rw [apply, store]
    exact ⟨rfl, rfl, rfl⟩

/-- An effect keeps the invariant of the store. -/
theorem apply_wellFormed (wf : st.store.WellFormed) : (effect.apply st).store.WellFormed := by
  have places : ∀ {e place}, (effect.apply st).store.place e = some place →
      e ∉ effect.freed ∧ st.store.place e = some place := fun {e place} present => by
    rw [apply_place legal] at present
    split_ifs at present with free
    exact ⟨free, present⟩
  have kept : ∀ {e head}, e ∈ st.store.lists head → e ∉ effect.freed →
      e ∈ (effect.apply st).store.lists head := fun member alive => by
    rw [apply_lists legal]
    exact List.mem_filter.mpr ⟨member, decide_eq_true alive⟩
  obtain ⟨sameGroups, sameElement, sameGroup⟩ := apply_same legal
  refine ⟨fun e place present => ?_, fun head e member => ?_, fun head => ?_,
    fun e place p present parent => ?_, fun e place present => ?_, fun e place present => ?_,
    ?_, ?_⟩
  · obtain ⟨alive, present⟩ := places present
    exact kept (wf.linked e place present) alive
  · rw [apply_lists legal] at member
    obtain ⟨member, alive⟩ := List.mem_filter.mp member
    rw [apply_place legal, if_neg (of_decide_eq_true alive)]
    exact wf.owned head e member
  · rw [apply_lists legal]
    exact (wf.ascending head).filter _
  · obtain ⟨-, before⟩ := places present
    obtain ⟨less, above, presentAbove, same⟩ := wf.parent e place p before parent
    -- the parent has a child, so that it is not the element released
    have aliveAbove : p ∉ effect.freed := fun free => by
      cases effect with
      | tick e' => cases free
      | release e' =>
        obtain rfl := Option.mem_some.mp free
        have linked := wf.linked e place before
        rw [head_eq_ofElement_iff.mpr parent, legal.2] at linked
        cases linked
    exact ⟨less, above, by rw [apply_place legal, if_neg aliveAbove, presentAbove], same⟩
  · rw [sameGroups]
    exact wf.grouped e place (places present).2
  · rw [sameElement]
    exact wf.element_lt e place (places present).2
  · rw [sameGroups, sameGroup]
    exact wf.group_lt
  · rw [sameGroups]
    exact wf.groups_nodup

end Effect

/-! ### What a list of effects does to the store -/

section ApplyAll

variable {st : State} {effects : List Effect} (legal : LegalAll st effects)

include legal

/-- Every list loses the elements that are freed. -/
theorem applyAll_lists (head : ListHead) :
    (applyAll st effects).store.lists head =
      (st.store.lists head).filter fun e => decide (e ∉ freedBy effects) := by
  induction effects generalizing st with
  | nil =>
    refine (List.filter_eq_self.mpr fun e _ => ?_).symm
    simp [freedBy]
  | cons effect rest inductionHypothesis =>
    obtain ⟨legalFirst, legalRest⟩ := legal
    rw [applyAll, List.foldl_cons, ← applyAll, inductionHypothesis legalRest,
      Effect.apply_lists legalFirst, List.filter_filter]
    refine List.filter_congr fun e _ => ?_
    rw [Bool.eq_iff_iff, Bool.and_eq_true, decide_eq_true_iff, decide_eq_true_iff,
      decide_eq_true_iff]
    cases effect with
    | tick e' => simp [Effect.freed]
    | release e' =>
      rw [freedBy_cons_release, List.mem_cons, not_or, Effect.freed, Option.mem_some_iff,
        and_comm, eq_comm]

/-- Elements that no effect is on stay as they are. -/
theorem applyAll_elements_other {e : ElementPtr} (other : e ∉ effects.map Effect.target) :
    (applyAll st effects).store.elements e = st.store.elements e := by
  induction effects generalizing st with
  | nil => rfl
  | cons effect rest inductionHypothesis =>
    rw [List.map_cons, List.mem_cons, not_or] at other
    obtain ⟨otherFirst, otherRest⟩ := other
    rw [applyAll, List.foldl_cons, ← applyAll, inductionHypothesis legal.2 otherRest,
      Effect.apply_elements_other legal.1 otherFirst]

/-- The times to live of elements that no effect is on. -/
theorem applyAll_eLifecycles_other {e : ElementPtr} (other : e ∉ effects.map Effect.target) :
    (applyAll st effects).store.eLifecycles e = st.store.eLifecycles e := by
  rw [Store.eLifecycles, applyAll_elements_other legal other, Store.eLifecycles]

/-- Elements that are not freed stay where they are. -/
theorem applyAll_place (e : ElementPtr) :
    (applyAll st effects).store.place e =
      if e ∈ freedBy effects then none else st.store.place e := by
  induction effects generalizing st with
  | nil => rfl
  | cons effect rest inductionHypothesis =>
    rw [applyAll, List.foldl_cons, ← applyAll, inductionHypothesis legal.2,
      Effect.apply_place legal.1]
    cases effect with
    | tick e' => rfl
    | release e' =>
      simp only [freedBy_cons_release, Effect.freed, Option.mem_some_iff, List.mem_cons]
      by_cases same : e = e'
      · simp [same]
      · simp [same, Ne.symm same]

theorem applyAll_nextElement :
    (applyAll st effects).store.nextElement = st.store.nextElement := by
  induction effects generalizing st with
  | nil => rfl
  | cons effect rest inductionHypothesis =>
    rw [applyAll, List.foldl_cons, ← applyAll, inductionHypothesis legal.2,
      (Effect.apply_same legal.1).2.1]

theorem applyAll_groupList :
    (applyAll st effects).store.groupList = st.store.groupList := by
  induction effects generalizing st with
  | nil => rfl
  | cons effect rest inductionHypothesis =>
    rw [applyAll, List.foldl_cons, ← applyAll, inductionHypothesis legal.2,
      (Effect.apply_same legal.1).1]

theorem applyAll_wellFormed (wf : st.store.WellFormed) :
    (applyAll st effects).store.WellFormed := by
  induction effects generalizing st with
  | nil => exact wf
  | cons effect rest inductionHypothesis =>
    exact inductionHypothesis legal.2 (Effect.apply_wellFormed legal.1 wf)

/-- A forest that no effect is on hangs where it did. -/
theorem Hangs.applyAll {head : ListHead} {forest : Forest ElementPtr}
    (hangs : Hangs st.store head forest)
    (apart : ∀ e ∈ forest.preorder, e ∉ effects.map Effect.target) :
    Hangs (applyAll st effects).store head forest := by
  have alive : ∀ e ∈ forest.preorder, e ∉ freedBy effects := fun e member free =>
    apart e member (target_of_mem_freedBy free)
  refine ⟨hangs.laid.congr fun e member => ⟨?_, ?_⟩, ?_, ?_, hangs.nodup⟩
  · rw [Store.place, applyAll_elements_other legal (apart e member), Store.place]
  · rw [applyAll_lists legal]
    refine List.filter_eq_self.mpr fun c child => decide_eq_true ?_
    exact alive c (hangs.laid.childs_mem member child)
  · obtain ⟨before, split⟩ := hangs.rest
    rw [applyAll_lists legal, ← split, List.filter_append]
    have kept : forest.roots.filter (fun e => decide (e ∉ freedBy effects)) = forest.roots :=
      List.filter_eq_self.mpr fun e isRoot =>
        decide_eq_true (alive e (forest.roots_subset_preorder isRoot))
    rw [kept]
    exact List.suffix_append _ _
  · rw [applyAll_lists legal]
    exact hangs.list_nodup.filter _

end ApplyAll

/-! ### The forests after effects -/

/-- Where a node of a forest is freed, so is all below it, if parents are not freed before their
children. -/
theorem Laid.freed_of_roots {σ : Store} {freed : ElementPtr → Prop} {head : ListHead}
    {forest : Forest ElementPtr} (laid : Laid σ head forest)
    (closed : ∀ e, freed e → ∀ c ∈ σ.lists (.ofElement e), freed c)
    (roots : ∀ e ∈ forest.roots, freed e) : ∀ e ∈ forest.preorder, freed e := by
  induction forest generalizing head with
  | nil => exact nofun
  | cons node childs siblings childsHypothesis siblingsHypothesis =>
    obtain ⟨-, list, laidChilds, laidSiblings⟩ := laid
    have freedNode := roots node List.mem_cons_self
    intro e member
    rcases List.mem_cons.mp member with rfl | member
    · exact freedNode
    rcases List.mem_append.mp member with inChilds | inSiblings
    · exact childsHypothesis laidChilds (fun c isRoot => closed node freedNode c (list ▸ isRoot))
        e inChilds
    · exact siblingsHypothesis laidSiblings
        (fun c isRoot => roots c (List.mem_cons_of_mem _ isRoot)) e inSiblings

/-- A forest whose freed nodes are cut out. -/
theorem Laid.without {σ σ' : Store} {freed : List ElementPtr} {head : ListHead}
    {forest : Forest ElementPtr} (laid : Laid σ head forest)
    (places : ∀ e, e ∉ freed → σ'.place e = σ.place e)
    (lists : ∀ head, σ'.lists head = (σ.lists head).filter fun e => decide (e ∉ freed))
    (closed : ∀ e ∈ freed, ∀ c ∈ σ.lists (.ofElement e), c ∈ freed) :
    Laid σ' head (forest.without fun e => decide (e ∈ freed)) ∧
      (forest.without fun e => decide (e ∈ freed)).preorder =
        forest.preorder.filter fun e => decide (e ∉ freed) := by
  induction forest generalizing head with
  | nil => exact ⟨trivial, rfl⟩
  | cons node childs siblings childsHypothesis siblingsHypothesis =>
    obtain ⟨linked, list, laidChilds, laidSiblings⟩ := laid
    obtain ⟨below, orderBelow⟩ := childsHypothesis laidChilds
    obtain ⟨beside, orderBeside⟩ := siblingsHypothesis laidSiblings
    rw [Forest.without]
    by_cases isFreed : node ∈ freed
    · rw [if_pos (decide_eq_true isFreed)]
      refine ⟨beside, ?_⟩
      have none : childs.preorder.filter (fun e => decide (e ∉ freed)) = [] := by
        refine List.filter_eq_nil_iff.mpr fun e member => ?_
        have alsoFreed := laidChilds.freed_of_roots closed
          (fun c isRoot => closed node isFreed c (list ▸ isRoot)) e member
        simpa using alsoFreed
      rw [Forest.preorder, List.filter_cons_of_neg (by simpa using isFreed), List.filter_append,
        none, List.nil_append, orderBeside]
    · rw [if_neg (by simpa using isFreed)]
      refine ⟨⟨?_, ?_, below, beside⟩, ?_⟩
      · rw [places node isFreed]
        exact linked
      · rw [lists, list, Forest.roots_without]
        refine List.filter_congr fun e _ => ?_
        rw [decide_not]
      · rw [Forest.preorder, orderBelow, orderBeside, Forest.preorder,
          List.filter_cons_of_pos (by simpa using isFreed), List.filter_append]

/-- The forests of a store after effects are those before, without what is freed, if no parent
is freed before its children. -/
theorem Represents.without {st : State} {forest : GroupPtr → Forest ElementPtr}
    (represents : Represents st.store forest) {effects : List Effect}
    (legal : LegalAll st effects)
    (closed : ∀ e ∈ freedBy effects, ∀ c ∈ st.store.lists (.ofElement e), c ∈ freedBy effects) :
    Represents (applyAll st effects).store
        (fun g => (forest g).without fun e => decide (e ∈ freedBy effects)) ∧
      ∀ g ∈ st.store.groupList, ((forest g).without fun e =>
        decide (e ∈ freedBy effects)).preorder =
          (forest g).preorder.filter fun e => decide (e ∉ freedBy effects) := by
  have groups := applyAll_groupList legal
  have places : ∀ e, e ∉ freedBy effects →
      (applyAll st effects).store.place e = st.store.place e := fun e alive => by
    rw [applyAll_place legal, if_neg alive]
  have cut : ∀ g ∈ st.store.groupList, _ := fun g isGroup =>
    (represents.laid g isGroup).without places (applyAll_lists legal) closed
  have order : allNodes (applyAll st effects).store
      (fun g => (forest g).without fun e => decide (e ∈ freedBy effects)) =
        (allNodes st.store forest).filter fun e => decide (e ∉ freedBy effects) := by
    rw [allNodes, groups, allNodes, List.filter_flatMap]
    exact List.flatMap_congr fun g isGroup => (cut g isGroup).2
  refine ⟨⟨fun g isGroup => ?_, fun g isGroup => ?_, ?_, ?_, ?_⟩,
    fun g isGroup => (cut g isGroup).2⟩
  · rw [groups] at isGroup
    rw [applyAll_lists legal, represents.roots g isGroup, Forest.roots_without]
    exact List.filter_congr fun e _ => decide_not
  · exact (cut g (groups ▸ isGroup)).1
  · rw [groups]
    exact represents.groups_nodup
  · rw [order]
    exact represents.nodup.filter _
  · rw [order, applyAll_nextElement legal]
    exact (List.length_filter_le _ _).trans represents.short

/-- In a well-formed store no parent is freed before its children. -/
theorem Represents.applyAll {st : State} {forest : GroupPtr → Forest ElementPtr}
    (represents : Represents st.store forest) (wf : st.store.WellFormed) {effects : List Effect}
    (legal : LegalAll st effects) :
    ∃ left : GroupPtr → Forest ElementPtr, Represents (applyAll st effects).store left ∧
      ∀ g ∈ st.store.groupList, (left g).preorder =
        (forest g).preorder.filter fun e => decide (e ∉ freedBy effects) := by
  have wf' := applyAll_wellFormed legal wf
  refine ⟨_, represents.without legal fun e isFreed c child => ?_⟩
  by_contra alive
  obtain ⟨place, present, head⟩ := wf.owned _ c child
  have presentAfter : (Bmon.applyAll st effects).store.place c = some place := by
    rw [applyAll_place legal, if_neg alive, present]
  obtain ⟨-, above, presentAbove, -⟩ :=
    wf'.parent c place e presentAfter (head_eq_ofElement_iff.mp head)
  rw [applyAll_place legal, if_pos isFreed] at presentAbove
  cases presentAbove

/-! ### Freeing an element -/

/-- The release of an element after everything below it. -/
def releaseTree (e : ElementPtr) (below : Forest ElementPtr) : List Effect :=
  below.postorder.map Effect.release ++ [.release e]

theorem mem_freedBy_releaseTree {e x : ElementPtr} {below : Forest ElementPtr} :
    x ∈ freedBy (releaseTree e below) ↔ x = e ∨ x ∈ below.preorder := by
  rw [releaseTree, freedBy_append, freedBy_release, List.mem_append, Forest.mem_postorder_iff,
    or_comm, freedBy_cons_release, List.mem_cons]
  simp [freedBy]

theorem target_releaseTree {e x : ElementPtr} {below : Forest ElementPtr} :
    x ∈ (releaseTree e below).map Effect.target ↔ x = e ∨ x ∈ below.preorder := by
  rw [← mem_freedBy_releaseTree]
  refine ⟨fun member => ?_, target_of_mem_freedBy⟩
  simpa [releaseTree, freedBy, Effect.target, Effect.freed] using member

/-- Once all below it are released, an element has no children any more. -/
theorem legalAll_releaseTree {st : State} {e : ElementPtr} {below : Forest ElementPtr}
    (present : st.store.place e ≠ none) (list : st.store.lists (.ofElement e) = below.roots)
    (fresh : e ∉ below.preorder) (legal : LegalAll st (below.postorder.map Effect.release)) :
    LegalAll st (releaseTree e below) := by
  refine legalAll_append.mpr ⟨legal, ⟨?_, ?_⟩, trivial⟩
  · have alive : e ∉ below.postorder := mt Forest.mem_postorder_iff.mp fresh
    rw [applyAll_place legal, freedBy_release, if_neg alive]
    exact present
  · rw [applyAll_lists legal, list, freedBy_release]
    refine List.filter_eq_nil_iff.mpr fun c child => ?_
    simpa [Forest.mem_postorder_iff] using below.roots_subset_preorder child

/-- The loop of `element_free` over a forest releases its nodes in postorder. -/
theorem elementFreeChilds_eq {fuel : Nat} {st : State} {head : ListHead}
    {forest : Forest ElementPtr} (hangs : Hangs st.store head forest)
    (enough : forest.preorder.length ≤ fuel) :
    elementFreeChilds fuel st forest.roots.head? =
        applyAll st (forest.postorder.map Effect.release) ∧
      LegalAll st (forest.postorder.map Effect.release) := by
  induction forest generalizing fuel st head with
  | nil =>
    refine ⟨?_, trivial⟩
    cases fuel <;> rfl
  | cons node below beside belowHypothesis besideHypothesis =>
    cases fuel with
    | zero => simp [Forest.preorder] at enough
    | succ fuel =>
      simp only [Forest.preorder, List.length_cons, List.length_append] at enough
      obtain ⟨⟨freshBelow, freshBeside⟩, -, -, apart⟩ :=
        Forest.nodup_preorder_cons.mp hangs.nodup
      have enoughBelow : below.preorder.length ≤ fuel := by omega
      have enoughBeside : beside.preorder.length ≤ fuel := by omega
      obtain ⟨freeBelow, legalBelow⟩ := belowHypothesis hangs.childs enoughBelow
      have present : st.store.place node ≠ none := by
        obtain ⟨⟨place, present, -⟩, -⟩ := hangs.laid
        rw [present]
        exact Option.some_ne_none place
      have legalTree := legalAll_releaseTree present hangs.laid.2.1 freshBelow legalBelow
      have freeTree : applyAll st (releaseTree node below) =
          elementRelease (applyAll st (below.postorder.map Effect.release)) node :=
        applyAll_append _ _ _
      have hangsBeside := hangs.siblings.applyAll legalTree fun e inBeside target => by
        rcases target_releaseTree.mp target with rfl | inBelow
        · exact freshBeside inBeside
        · exact apart inBelow inBeside
      obtain ⟨freeBeside, legalBeside⟩ := besideHypothesis hangsBeside enoughBeside
      have listed : (Forest.cons node below beside).postorder.map Effect.release =
          releaseTree node below ++ beside.postorder.map Effect.release := by
        simp [Forest.postorder, releaseTree]
      refine ⟨?_, ?_⟩
      · rw [listed, applyAll_append, ← freeBeside, freeTree, ← freeBelow]
        simp only [Forest.roots, List.head?_cons, elementFreeChilds]
        rw [hangs.eNext, hangs.firstEntry]
      · rw [listed]
        exact legalAll_append.mpr ⟨legalTree, legalBeside⟩

/-- `element_free` releases the element after everything below it. -/
theorem elementFree_eq {st : State} {e : ElementPtr} {below : Forest ElementPtr}
    (present : st.store.place e ≠ none) (list : st.store.lists (.ofElement e) = below.roots)
    (hangs : Hangs st.store (.ofElement e) below) (fresh : e ∉ below.preorder)
    (enough : below.preorder.length ≤ st.store.nextElement) :
    elementFree st e = applyAll st (releaseTree e below) ∧
      LegalAll st (releaseTree e below) := by
  obtain ⟨free, legal⟩ := elementFreeChilds_eq hangs enough
  refine ⟨?_, legalAll_releaseTree present list fresh legal⟩
  rw [elementFree, Store.firstEntry, list, free, releaseTree, applyAll_append]
  rfl

/-- Everything below a node of a forest is a node of the forest. -/
theorem Laid.below_mem {σ : Store} (wf : σ.WellFormed) {head : ListHead}
    {forest : Forest ElementPtr} (laid : Laid σ head forest) {a e : ElementPtr}
    (member : a ∈ forest.preorder) (above : σ.Above a e) : e ∈ forest.preorder := by
  induction above with
  | refl => exact member
  | tail _ parent inductionHypothesis =>
    exact laid.childs_mem inductionHypothesis (wf.mem_of_isParent parent)

/-- Below an element are it and the nodes of the forest its children hold. -/
theorem Laid.above_iff {σ : Store} (wf : σ.WellFormed) {e : ElementPtr}
    {below : Forest ElementPtr} (laid : Laid σ (.ofElement e) below)
    (list : σ.lists (.ofElement e) = below.roots) {x : ElementPtr} :
    σ.Above e x ↔ x = e ∨ x ∈ below.preorder := by
  constructor
  · intro above
    rcases above.cases_head with same | ⟨c, parent, aboveChild⟩
    · exact Or.inl same.symm
    · have child := wf.mem_of_isParent parent
      rw [list] at child
      exact Or.inr (laid.below_mem wf (below.roots_subset_preorder child) aboveChild)
  · rintro (rfl | member)
    · exact .refl
    · obtain ⟨root, isRoot, above⟩ := laid.above_root member
      obtain ⟨place, present, headRoot⟩ := laid.root_place isRoot
      exact .head (isParent_of_head present headRoot) above

/-! ### The selection -/

/-- What `element_free` does to the selection is the repair. -/
theorem elementRelease_selection (st : State) (e : ElementPtr) :
    (elementRelease st e).selection = (elementUnselect st e).selection := by
  unfold elementRelease
  split
  · next found => simp only [elementUnselect, found]
  · rfl

/-- An effect keeps the selection valid. -/
theorem Effect.apply_valid {st : State} {effect : Effect} (legal : effect.Legal st.store)
    (wf : st.store.WellFormed) (valid : st.selection.Valid st.store) :
    (effect.apply st).selection.Valid (effect.apply st).store := by
  have wf' := Effect.apply_wellFormed legal wf
  cases effect with
  | tick e =>
    have same := sameShape_modifyElement st.store e Element.tick fun _ => rfl
    refine valid.of_eGroup wf wf' (fun _ member => member) fun g x picked => ?_
    exact congrArg (Option.map Place.group) (congrFun same.place x)
  | release e =>
    obtain ⟨valid', gone⟩ := elementUnselect_valid wf valid legal.1
    rw [Effect.apply, elementRelease_selection]
    refine valid'.of_eGroup wf wf' (fun g member => ?_) fun g x picked => ?_
    · rw [← Effect.apply, (Effect.apply_same legal).1]
      exact member
    · have other : x ≠ e := fun same => gone g (same ▸ picked)
      rw [← Effect.apply, Store.eGroup, Effect.apply_place legal, if_neg, Store.eGroup]
      simpa [Effect.freed] using Ne.symm other

theorem applyAll_valid {st : State} {effects : List Effect} (legal : LegalAll st effects)
    (wf : st.store.WellFormed) (valid : st.selection.Valid st.store) :
    (applyAll st effects).selection.Valid (applyAll st effects).store := by
  induction effects generalizing st with
  | nil => exact valid
  | cons effect rest inductionHypothesis =>
    exact inductionHypothesis legal.2 (Effect.apply_wellFormed legal.1 wf)
      (Effect.apply_valid legal.1 wf valid)

/-- In a well-formed store `element_free` is a list of effects, read off the forest below the
element. -/
theorem elementFree_tree {st : State} (wf : st.store.WellFormed) {e : ElementPtr}
    (present : st.store.place e ≠ none) :
    ∃ below : Forest ElementPtr, below.roots = st.store.lists (.ofElement e) ∧
      Laid st.store (.ofElement e) below ∧
      (∀ x, st.store.Above e x ↔ x = e ∨ x ∈ below.preorder) ∧
      elementFree st e = applyAll st (releaseTree e below) ∧
      LegalAll st (releaseTree e below) := by
  obtain ⟨below, roots, laid⟩ := wf.exists_laid (.ofElement e)
  have nodup := laid.nodup wf (by rw [roots]; exact wf.lists_nodup _)
  have hangs : Hangs st.store (.ofElement e) below :=
    ⟨laid, by rw [roots], wf.lists_nodup _, nodup⟩
  have fresh : e ∉ below.preorder := fun member => by
    obtain ⟨root, isRoot, above⟩ := laid.above_root member
    rw [roots] at isRoot
    obtain ⟨-, -, -, -, -, -, less⟩ := wf.owner_present isRoot
    exact absurd (wf.le_of_above above) (Nat.not_le_of_lt less)
  exact ⟨below, roots, laid, fun x => laid.above_iff wf roots.symm,
    elementFree_eq present roots.symm hangs fresh
      (wf.length_le nodup fun x member => laid.present member)⟩

/-- The elements that `element_free` frees, as effects. -/
theorem elementFree_effects {st : State} (wf : st.store.WellFormed) {e : ElementPtr}
    (present : st.store.place e ≠ none) :
    ∃ below : Forest ElementPtr, (∀ x, st.store.Above e x ↔ x = e ∨ x ∈ below.preorder) ∧
      elementFree st e = applyAll st (releaseTree e below) ∧
      LegalAll st (releaseTree e below) := by
  obtain ⟨below, -, -, effects⟩ := elementFree_tree wf present
  exact ⟨below, effects⟩

/-- Freeing an element frees all below it and keeps both invariants. -/
theorem elementFree_spec {st : State} (wf : st.store.WellFormed)
    (valid : st.selection.Valid st.store) {e : ElementPtr} (present : st.store.place e ≠ none) :
    (elementFree st e).store.WellFormed ∧
      (elementFree st e).selection.Valid (elementFree st e).store ∧
      ∀ x, st.store.Above e x → (elementFree st e).store.place x = none := by
  obtain ⟨below, aboveIff, free, legal⟩ := elementFree_effects wf present
  rw [free]
  refine ⟨applyAll_wellFormed legal wf, applyAll_valid legal wf valid, fun x above => ?_⟩
  rw [applyAll_place legal, if_pos (mem_freedBy_releaseTree.mpr ((aboveIff x).mp above))]

end Bmon
