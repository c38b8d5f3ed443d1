/-
This file shows that the sweep `free_unused_elements` is exact.

The sweep is a list of effects that is read off the forests beforehand. So it frees the elements
that have a time to live of one themselves or an ancestor that has, and each of them once. Every
other element is decremented once. The lists lose what is freed and keep the rest in its order,
so that the forests afterwards are those before without some trees, and every group counts as
many elements less as it loses. All this holds of any forests in any groups, whatever the times
to live are.
-/

import Bmon.Program

namespace Bmon

/-! ### Which elements are freed -/

/-- An element dies with its own time to live or with its parent. -/
theorem Store.dies_iff {σ : Store} {e : ElementPtr} :
    σ.Dies e ↔ σ.eLifecycles e = some 1 ∨ ∃ p, σ.IsParent p e ∧ σ.Dies p := by
  constructor
  · rintro ⟨a, above, one⟩
    rcases above.cases_tail with rfl | ⟨p, aboveParent, parent⟩
    · exact Or.inl one
    · exact Or.inr ⟨p, parent, a, aboveParent, one⟩
  · rintro (one | ⟨p, parent, a, above, one⟩)
    · exact ⟨e, .refl, one⟩
    · exact ⟨a, above.tail parent, one⟩

/-- The list of a group has no owner that could die. -/
theorem Store.not_dies_owner (σ : Store) (g : GroupPtr) :
    ¬∃ p ∈ (ListHead.ofGroup g).owner, σ.Dies p := by
  rintro ⟨p, owns, -⟩
  cases owns

/-- A root of a forest dies with its own time to live or with the owner of the list. -/
theorem Laid.dies_root {σ : Store} {head : ListHead} {forest : Forest ElementPtr}
    (laid : Laid σ head forest) {root : ElementPtr} (isRoot : root ∈ forest.roots) :
    σ.Dies root ↔ σ.eLifecycles root = some 1 ∨ ∃ p ∈ head.owner, σ.Dies p := by
  obtain ⟨place, present, rfl⟩ := laid.root_place isRoot
  have parent : σ.eParent root = place.head.owner := by
    rw [eParent_eq, present, Option.bind_some, owner_head]
  have parentIff : ∀ p, σ.IsParent p root ↔ p ∈ place.head.owner := fun p => by
    rw [Store.IsParent, parent, Option.mem_def]
  simp only [Store.dies_iff (e := root), parentIff]

/-- A node of a forest dies when the sweep of the forest frees it, or with the owner of the
list. -/
theorem Laid.dies_iff {σ : Store} {head : ListHead} {forest : Forest ElementPtr}
    (laid : Laid σ head forest) (nodup : forest.preorder.Nodup) {x : ElementPtr}
    (member : x ∈ forest.preorder) :
    σ.Dies x ↔ x ∈ freedBy (sweepEffects σ.eLifecycles forest) ∨ ∃ p ∈ head.owner, σ.Dies p := by
  induction forest generalizing head with
  | nil => cases member
  | cons node below beside belowHypothesis besideHypothesis =>
    have isRoot : node ∈ (Forest.cons node below beside).roots := List.mem_cons_self
    have dies := laid.dies_root isRoot
    obtain ⟨-, -, laidBelow, laidBeside⟩ := laid
    obtain ⟨⟨freshBelow, freshBeside⟩, nodupBelow, nodupBeside, apart⟩ :=
      Forest.nodup_preorder_cons.mp nodup
    have inForest : ∀ forest : Forest ElementPtr,
        x ∈ freedBy (sweepEffects σ.eLifecycles forest) → x ∈ forest.preorder := fun _ freed =>
      target_sweepEffects.mp (target_of_mem_freedBy freed)
    have freed : x ∈ freedBy (sweepEffects σ.eLifecycles (.cons node below beside)) ↔
        (if σ.eLifecycles node = some 1 then x = node ∨ x ∈ below.preorder
          else x ∈ freedBy (sweepEffects σ.eLifecycles below)) ∨
        x ∈ freedBy (sweepEffects σ.eLifecycles beside) := by
      rw [sweepEffects, freedBy_append, List.mem_append, freedBy_cons_tick]
      split_ifs
      · rw [mem_freedBy_releaseTree]
      · exact Iff.rfl
    rw [freed]
    rcases List.mem_cons.mp member with rfl | member
    · have notBelow := mt (inForest below) freshBelow
      have notBeside := mt (inForest beside) freshBeside
      rw [dies]
      simp [notBelow, notBeside]
    · rcases List.mem_append.mp member with inBelow | inBeside
      · have notNode : x ≠ node := fun same => freshBelow (same ▸ inBelow)
        have notBeside := mt (inForest beside) (apart inBelow)
        have owner : (∃ p ∈ (ListHead.ofElement node).owner, σ.Dies p) ↔ σ.Dies node := by
          simp [ListHead.owner]
        rw [belowHypothesis laidBelow nodupBelow inBelow, owner, dies]
        split_ifs with one <;> simp [one, inBelow, notBeside]
      · have notNode : x ≠ node := fun same => freshBeside (same ▸ inBeside)
        have notBelow : x ∉ below.preorder := fun inBelow => apart inBelow inBeside
        have notFreed := mt (inForest below) notBelow
        rw [besideHypothesis laidBeside nodupBeside inBeside]
        simp [notNode, notBelow, notFreed]

/-- The sweep frees the nodes of the forests that die in it. -/
theorem Represents.mem_freedBy_iff {σ : Store} {forest : GroupPtr → Forest ElementPtr}
    (represents : Represents σ forest) {x : ElementPtr} :
    x ∈ freedBy (sweepAll σ forest) ↔ x ∈ allNodes σ forest ∧ σ.Dies x := by
  have flat : freedBy (sweepAll σ forest) =
      σ.groupList.flatMap fun g => freedBy (sweepEffects σ.eLifecycles (forest g)) :=
    List.filterMap_flatMap
  have nodup := (List.nodup_flatMap.mp represents.nodup).1
  have dies : ∀ g ∈ σ.groupList, ∀ e ∈ (forest g).preorder,
      (σ.Dies e ↔ e ∈ freedBy (sweepEffects σ.eLifecycles (forest g))) :=
    fun g isGroup e inForest =>
      ((represents.laid g isGroup).dies_iff (nodup g isGroup) inForest).trans
        (or_iff_left (σ.not_dies_owner g))
  rw [flat, allNodes, List.mem_flatMap, List.mem_flatMap]
  constructor
  · rintro ⟨g, isGroup, freed⟩
    have inForest := target_sweepEffects.mp (target_of_mem_freedBy freed)
    exact ⟨⟨g, isGroup, inForest⟩, (dies g isGroup x inForest).mpr freed⟩
  · rintro ⟨⟨g, isGroup, inForest⟩, dying⟩
    exact ⟨g, isGroup, (dies g isGroup x inForest).mp dying⟩

/-! ### How often an element is freed -/

/-- An element that is freed later is not freed yet. -/
theorem LegalAll.present {st : State} {effects : List Effect} (legal : LegalAll st effects)
    {x : ElementPtr} (freed : x ∈ freedBy effects) : st.store.place x ≠ none := by
  induction effects generalizing st with
  | nil => cases freed
  | cons effect rest inductionHypothesis =>
    cases effect with
    | tick e =>
      have present := inductionHypothesis legal.2 freed
      rw [Effect.apply_place legal.1] at present
      exact present
    | release e =>
      rcases List.mem_cons.mp freed with rfl | later
      · exact legal.1.1
      · have present := inductionHypothesis legal.2 later
        rw [Effect.apply_place legal.1] at present
        split_ifs at present
        · exact absurd rfl present
        · exact present

/-- Once an element is released, no later effect frees it. -/
theorem LegalAll.release_not_mem {st : State} {e : ElementPtr} {rest : List Effect}
    (legal : LegalAll st (.release e :: rest)) : e ∉ freedBy rest := fun later => by
  have present := LegalAll.present legal.2 later
  have freed : e ∈ (Effect.release e).freed := Option.mem_some_self e
  rw [Effect.apply_place legal.1, if_pos freed] at present
  exact present rfl

/-- No element is freed twice. -/
theorem LegalAll.nodup_freedBy {st : State} {effects : List Effect} (legal : LegalAll st effects) :
    (freedBy effects).Nodup := by
  induction effects generalizing st with
  | nil => exact List.nodup_nil
  | cons effect rest inductionHypothesis =>
    cases effect with
    | tick e => exact inductionHypothesis legal.2
    | release e =>
      exact List.nodup_cons.mpr ⟨legal.release_not_mem, inductionHypothesis legal.2⟩

/-- A group counts one element less for each of its elements that is freed. -/
theorem applyAll_groups {st : State} {effects : List Effect} (legal : LegalAll st effects)
    (g : GroupPtr) :
    (applyAll st effects).store.groups g = (st.store.groups g).map fun r =>
      { r with gNelements := r.gNelements -
        (freedBy effects).countP fun e => decide (st.store.eGroup e = some g) } := by
  induction effects generalizing st with
  | nil =>
    rw [freedBy, List.filterMap_nil, List.countP_nil]
    exact Option.map_id'.symm
  | cons effect rest inductionHypothesis =>
    rw [applyAll, List.foldl_cons, ← applyAll, inductionHypothesis legal.2]
    cases effect with
    | tick e =>
      have same : ((Effect.tick e).apply st).store.eGroup = st.store.eGroup := by
        funext x
        rw [Store.eGroup, Effect.apply_place legal.1, Store.eGroup]
        rfl
      rw [same]
      rfl
    | release e =>
      have others : ∀ x ∈ freedBy rest,
          ((Effect.release e).apply st).store.eGroup x = st.store.eGroup x := fun x later => by
        have other : x ≠ e := fun same => legal.release_not_mem (same ▸ later)
        rw [Store.eGroup, Store.place, Effect.apply_elements_other legal.1 other, Store.eGroup,
          Store.place]
      obtain ⟨place, present⟩ := Option.ne_none_iff_exists'.mp legal.1.1
      obtain ⟨r, found, -⟩ := place_eq_some_iff.mp present
      have group : st.store.eGroup e = some r.eGroup := by
        rw [Store.eGroup, Store.place, found]
        rfl
      have counted : (freedBy rest).countP (fun x => decide
            (((Effect.release e).apply st).store.eGroup x = some g)) =
          (freedBy rest).countP fun x => decide (st.store.eGroup x = some g) :=
        List.countP_congr fun x later => by rw [others x later]
      rw [counted, freedBy_cons_release, List.countP_cons, group, Effect.apply,
        elementRelease_store_eq found]
      change Option.map _ (if g = r.eGroup then _ else _) = _
      by_cases same : g = r.eGroup
      · subst same
        rw [if_pos rfl, decide_eq_true rfl, if_pos rfl, Option.map_map]
        refine congrArg (fun change => Option.map change _) (funext fun s => ?_)
        simp only [Function.comp_apply]
        rw [Nat.sub_sub, Nat.add_comm]
      · have other : ¬(some r.eGroup = some g) := fun equal => same (Option.some.inj equal).symm
        rw [if_neg same, decide_eq_false other, if_neg Bool.false_ne_true, Nat.add_zero]
        rfl

/-! ### What is left -/

/-- The forest without the trees whose top has a time to live of one. -/
def Store.survivors (σ : Store) (forest : Forest ElementPtr) : Forest ElementPtr :=
  forest.without fun e => decide (σ.eLifecycles e = some 1)

/-- The elements of a group that one store has and another has not. -/
def removedFrom (σ σ' : Store) (nodes : List ElementPtr) (g : GroupPtr) : List ElementPtr :=
  nodes.filter fun e => decide (σ.eGroup e = some g) && (σ'.elements e).isNone

/-- What an exact sweep makes of a store that holds the forests. -/
structure SweptExactly (σ σ' : Store) (forest : GroupPtr → Forest ElementPtr) : Prop where
  /-- Exactly the elements are removed that have a time to live of one, or an ancestor with it. -/
  removed : ∀ e ∈ allNodes σ forest, σ'.elements e = none ↔
    ∃ a, σ.Above a e ∧ σ.eLifecycles a = some 1
  /-- Each element that is left has its time to live decremented once, and is otherwise as it
  was. -/
  decremented : ∀ e ∈ allNodes σ forest, ∀ r', σ'.elements e = some r' →
    ∃ r, σ.elements e = some r ∧ r' = { r with eLifecycles := r.eLifecycles - 1 }
  /-- What is not in the forests is not touched. -/
  others : ∀ e, e ∉ allNodes σ forest → σ'.elements e = σ.elements e
  /-- The list of every group keeps the order of what is left in it. -/
  ofGroup : ∀ g ∈ σ.groupList, σ'.lists (.ofGroup g) =
    (σ.lists (.ofGroup g)).filter fun e => (σ'.elements e).isSome
  /-- So does the list of the children of every element. -/
  ofElement : ∀ p ∈ allNodes σ forest, σ'.lists (.ofElement p) =
    (σ.lists (.ofElement p)).filter fun e => (σ'.elements e).isSome
  /-- The groups stay, and hold the forests without the trees that died. -/
  groupList : σ'.groupList = σ.groupList
  represents : Represents σ' fun g => σ.survivors (forest g)
  /-- Every group counts as many elements less as it lost. A group that counts its elements counts
  no less than that. -/
  gNelements : ∀ g, σ'.groups g = (σ.groups g).map fun r =>
    { r with gNelements := r.gNelements - (removedFrom σ σ' (allNodes σ forest) g).length }

/-- Some effects remove the elements they free. -/
theorem applyAll_isSome_iff {st : State} {effects : List Effect} (legal : LegalAll st effects)
    {x : ElementPtr} (present : st.store.place x ≠ none) :
    ((applyAll st effects).store.elements x).isSome ↔ x ∉ freedBy effects := by
  have place := applyAll_place legal x
  have isSome : ∀ σ : Store, (σ.elements x).isSome ↔ σ.place x ≠ none := fun σ => by
    rw [Store.place, Ne, Option.map_eq_none_iff, Option.isSome_iff_ne_none]
  rw [isSome, place]
  split_ifs with freed
  · exact iff_of_false (fun none => none rfl) fun notFreed => notFreed freed
  · exact iff_of_true present freed

/-- Where the owner of a list stays, cutting out what is freed is cutting out the trees whose top
has a time to live of one. -/
theorem Laid.survivors_eq {σ : Store} {head : ListHead} {forest : Forest ElementPtr}
    {freed : List ElementPtr} (laid : Laid σ head forest)
    (dies : ∀ e ∈ forest.preorder, e ∈ freed ↔ σ.Dies e)
    (owner : ¬∃ p ∈ head.owner, σ.Dies p) :
    σ.survivors forest = forest.without fun e => decide (e ∈ freed) := by
  induction forest generalizing head with
  | nil => rfl
  | cons node below beside belowHypothesis besideHypothesis =>
    have isRoot : node ∈ (Forest.cons node below beside).roots := List.mem_cons_self
    have freedNode := dies node List.mem_cons_self
    rw [laid.dies_root isRoot, or_iff_left owner] at freedNode
    obtain ⟨-, -, laidBelow, laidBeside⟩ := laid
    have diesBelow : ∀ e ∈ below.preorder, e ∈ freed ↔ σ.Dies e :=
      fun e member => dies e (List.mem_cons_of_mem _ (List.mem_append_left _ member))
    have diesBeside : ∀ e ∈ beside.preorder, e ∈ freed ↔ σ.Dies e :=
      fun e member => dies e (List.mem_cons_of_mem _ (List.mem_append_right _ member))
    have rest := besideHypothesis laidBeside diesBeside owner
    rw [Store.survivors] at rest ⊢
    have sameCut : decide (node ∈ freed) = decide (σ.eLifecycles node = some 1) :=
      decide_eq_decide.mpr freedNode
    rw [Forest.without, Forest.without, rest, sameCut]
    split_ifs with one
    · rfl
    · have alive : ¬σ.Dies node := fun dying =>
        one (decide_eq_true (freedNode.mp ((dies node List.mem_cons_self).mpr dying)))
      have ownerBelow : ¬∃ p ∈ (ListHead.ofElement node).owner, σ.Dies p := by
        rintro ⟨p, owns, dying⟩
        rw [← Option.mem_some.mp owns] at dying
        exact alive dying
      rw [← belowHypothesis laidBelow diesBelow ownerBelow, Store.survivors]

/-- The forests of a store after a sweep. -/
theorem Represents.survivors {st : State} {forest : GroupPtr → Forest ElementPtr}
    (represents : Represents st.store forest) :
    Represents (freeUnusedElements st).store fun g => st.store.survivors (forest g) := by
  obtain ⟨swept, legal⟩ := freeUnusedElements_eq represents
  have closed : ∀ e ∈ freedBy (sweepAll st.store forest), ∀ c ∈ st.store.lists (.ofElement e),
      c ∈ freedBy (sweepAll st.store forest) := fun e freed c child => by
    obtain ⟨member, dying⟩ := represents.mem_freedBy_iff.mp freed
    obtain ⟨g, isGroup, inForest⟩ := List.mem_flatMap.mp member
    have laid := represents.laid g isGroup
    exact represents.mem_freedBy_iff.mpr
      ⟨List.mem_flatMap.mpr ⟨g, isGroup, laid.childs_mem inForest child⟩,
        Store.dies_iff.mpr (Or.inr ⟨e, laid.isParent inForest child, dying⟩)⟩
  rw [swept]
  refine (represents.without legal closed).1.congr fun g isGroup => ?_
  rw [applyAll_groupList legal] at isGroup
  exact (represents.laid g isGroup).survivors_eq (fun e inForest =>
    represents.mem_freedBy_iff.trans
      (and_iff_right (List.mem_flatMap.mpr ⟨g, isGroup, inForest⟩)))
    (st.store.not_dies_owner g)

/-- The elements of a group that a sweep removes are those of it that it frees. -/
theorem length_removedFrom {st : State} {forest : GroupPtr → Forest ElementPtr}
    (represents : Represents st.store forest)
    (removed : ∀ e ∈ allNodes st.store forest,
      (freeUnusedElements st).store.elements e = none ↔ st.store.Dies e) (g : GroupPtr) :
    (removedFrom st.store (freeUnusedElements st).store (allNodes st.store forest) g).length =
      (freedBy (sweepAll st.store forest)).countP fun e => decide (st.store.eGroup e = some g) := by
  obtain ⟨-, legal⟩ := freeUnusedElements_eq represents
  rw [List.countP_eq_length_filter]
  refine List.Perm.length_eq ((List.perm_ext_iff_of_nodup (represents.nodup.filter _)
    (legal.nodup_freedBy.filter _)).mpr fun e => ?_)
  rw [List.mem_filter, List.mem_filter, represents.mem_freedBy_iff, Bool.and_eq_true,
    Option.isNone_iff_eq_none, and_assoc]
  refine and_congr_right fun member => ?_
  rw [removed e member, and_comm]

/-- **The sweep is exact.** For every list of groups, every forest in them and all times to live,
`free_unused_elements` removes exactly the elements that have a time to live of one or an ancestor
that has, decrements the time to live of each other element once, keeps what is left in every list
in its order, and takes from the count of every group the number of its elements it removes. -/
theorem freeUnusedElements_exact (st : State) (forest : GroupPtr → Forest ElementPtr)
    (represents : Represents st.store forest) :
    SweptExactly st.store (freeUnusedElements st).store forest := by
  obtain ⟨swept, legal⟩ := freeUnusedElements_eq represents
  have present : ∀ e ∈ allNodes st.store forest, st.store.place e ≠ none := fun e member => by
    obtain ⟨g, isGroup, inForest⟩ := List.mem_flatMap.mp member
    obtain ⟨place, present⟩ := (represents.laid g isGroup).present inForest
    rw [present]
    exact Option.some_ne_none place
  have left : ∀ e ∈ allNodes st.store forest, ((freeUnusedElements st).store.elements e).isSome ↔
      e ∉ freedBy (sweepAll st.store forest) := fun e member => by
    rw [swept, applyAll_isSome_iff legal (present e member)]
  have dies : ∀ e ∈ allNodes st.store forest,
      (e ∈ freedBy (sweepAll st.store forest) ↔ st.store.Dies e) := fun e member =>
    represents.mem_freedBy_iff.trans (and_iff_right member)
  have removed : ∀ e ∈ allNodes st.store forest,
      (freeUnusedElements st).store.elements e = none ↔ st.store.Dies e := fun e member => by
    rw [← Option.not_isSome_iff_eq_none, left e member, not_not, dies e member]
  have lists : ∀ head, st.store.lists head ⊆ allNodes st.store forest →
      (freeUnusedElements st).store.lists head = (st.store.lists head).filter fun e =>
        ((freeUnusedElements st).store.elements e).isSome := fun head inForest => by
    have kept := applyAll_lists legal head
    rw [← swept] at kept
    rw [kept]
    refine List.filter_congr fun e member => ?_
    rw [Bool.eq_iff_iff, decide_eq_true_iff, left e (inForest member)]
  refine ⟨removed, fun e member r' found => ?_, fun e outside => ?_, fun g isGroup => ?_,
    fun p member => ?_, ?_, represents.survivors, fun g => ?_⟩
  · have alive := (left e member).mp (by rw [found, Option.isSome_some])
    rw [represents.sweep_elements member alive] at found
    obtain ⟨r, before, ticked⟩ := Option.map_eq_some_iff.mp found
    exact ⟨r, before, ticked.symm⟩
  · rw [swept]
    exact applyAll_elements_other legal (mt target_sweepAll.mp outside)
  · refine lists _ fun e inList => List.mem_flatMap.mpr ⟨g, isGroup, ?_⟩
    rw [represents.roots g isGroup] at inList
    exact (forest g).roots_subset_preorder inList
  · obtain ⟨g, isGroup, inForest⟩ := List.mem_flatMap.mp member
    exact lists _ fun e child => List.mem_flatMap.mpr
      ⟨g, isGroup, (represents.laid g isGroup).childs_mem inForest child⟩
  · rw [swept, applyAll_groupList legal]
  · rw [length_removedFrom represents removed g, swept, applyAll_groups legal]

/-- A child that is not about to expire itself goes with its parent. -/
theorem freeUnusedElements_exact_ancestor :
    ∃ st forest, Represents st.store forest ∧
      SweptExactly st.store (freeUnusedElements st).store forest ∧
      st.store.eLifecycles 0 = some 1 ∧ st.store.eLifecycles 1 = some 2 ∧
      displayOrder st.store = [(0, 0), (0, 1)] ∧
      displayOrder (freeUnusedElements st).store = [] ∧
      (st.store.groups 0).map ElementGroup.gNelements = some 2 ∧
      ((freeUnusedElements st).store.groups 0).map ElementGroup.gNelements = some 0 := by
  have run : (Runs.run (step (confInitPost { lifetime := 2 })) (State.start [] [] [] [])
      (parentAndChild.map Op.input ++ [.freeUnusedElements, .input (.onElement 1 .lifesign)])).map
        (fun st => decide (st.store.eLifecycles 0 = some 1 ∧ st.store.eLifecycles 1 = some 2 ∧
          displayOrder st.store = [(0, 0), (0, 1)] ∧
          displayOrder (freeUnusedElements st).store = [] ∧
          (st.store.groups 0).map ElementGroup.gNelements = some 2 ∧
          ((freeUnusedElements st).store.groups 0).map ElementGroup.gNelements = some 0)) =
      some true := by decide +kernel
  obtain ⟨st, ran, facts⟩ := Option.map_eq_some_iff.mp run
  obtain ⟨forest, represents⟩ := (run_valid (valid_stateStart [] [] [] []) ran).store.represents
  exact ⟨st, forest, represents, freeUnusedElements_exact st forest represents,
    of_decide_eq_true facts⟩

end Bmon
