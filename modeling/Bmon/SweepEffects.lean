/-
This file shows what the sweep `free_unused_elements` does.

The traversal behind the sweep runs while its callback frees elements of the lists it follows.
It is shown to be the same as a list of effects that is read off the forests and the times to
live beforehand. So the sweep frees the elements whose own time to live, or that of an ancestor,
runs out, and takes one cycle from every other.
-/

import Bmon.Effects
import Bmon.Traversal

namespace Bmon

/-! ### The sweep -/

/-- What the sweep does to the elements of a forest, by their time to live before it. -/
def sweepEffects (life : ElementPtr → Option UInt32) : Forest ElementPtr → List Effect
  | .nil => []
  | .cons e below beside =>
    .tick e :: (if life e = some 1 then releaseTree e below else sweepEffects life below) ++
      sweepEffects life beside

/-- The sweep is on the elements of the forest. -/
theorem target_sweepEffects {life : ElementPtr → Option UInt32} {forest : Forest ElementPtr}
    {x : ElementPtr} :
    x ∈ (sweepEffects life forest).map Effect.target ↔ x ∈ forest.preorder := by
  induction forest with
  | nil => exact Iff.rfl
  | cons node below beside belowHypothesis besideHypothesis =>
    rw [sweepEffects, List.map_append, List.map_cons, List.mem_append, List.mem_cons,
      besideHypothesis, Forest.preorder, List.mem_cons, List.mem_append, ← or_assoc, Effect.target]
    split_ifs
    · rw [target_releaseTree, or_self_left]
    · rw [belowHypothesis]

/-- The unsigned decrement gives zero for one only; from zero it wraps around. -/
theorem tick_le_zero_iff (r : Element) : r.tick.eLifecycles ≤ 0 ↔ r.eLifecycles = 1 := by
  change r.eLifecycles - 1 ≤ 0 ↔ r.eLifecycles = 1
  constructor
  · intro dead
    have zero : r.eLifecycles - 1 = 0 := UInt32.le_antisymm dead UInt32.zero_le
    exact (UInt32.sub_eq_iff_eq_add.mp zero).trans (UInt32.zero_add 1)
  · intro one
    rw [one]
    decide

/-- The callback of the sweep frees an element whose time to live is one. -/
theorem elementCheckIfDead_eq (st : State) (g : GroupPtr) (e : ElementPtr) :
    elementCheckIfDead st g e =
      if st.store.eLifecycles e = some 1 then elementFree (Effect.apply st (.tick e)) e
      else Effect.apply st (.tick e) := by
  have dead : ((st.store.modifyElement e Element.tick).elements e).any
        (fun r => r.eLifecycles ≤ 0) = true ↔ st.store.eLifecycles e = some 1 := by
    have found : (st.store.modifyElement e Element.tick).elements e =
        (st.store.elements e).map Element.tick := if_pos rfl
    rw [found, Store.eLifecycles]
    cases st.store.elements e with
    | none => simp
    | some r =>
      rw [Option.map_some, Option.any_some, Option.map_some, Option.some.injEq,
        decide_eq_true_iff, tick_le_zero_iff]
  simp only [elementCheckIfDead, Effect.apply]
  by_cases one : st.store.eLifecycles e = some 1
  · rw [if_pos (dead.mpr one), if_pos one]
  · rw [if_neg (mt dead.mp one), if_neg one]

theorem foreachElement_none {Data : Type*} (view : Data → Store)
    (cb : Data → GroupPtr → ElementPtr → Data) (g : GroupPtr) (fuel : Nat) (data : Data) :
    foreachElement view cb g fuel data none = data := by
  cases fuel <;> rfl

/-- A forest that hangs in a list and that the sweep has not reached yet. -/
structure Unswept (st : State) (life : ElementPtr → Option UInt32) (head : ListHead)
    (forest : Forest ElementPtr) : Prop where
  hangs : Hangs st.store head forest
  short : forest.preorder.length ≤ st.store.nextElement
  alive : ∀ e ∈ forest.preorder, st.store.eLifecycles e = life e

namespace Unswept

variable {st : State} {life : ElementPtr → Option UInt32} {head : ListHead}

/-- Effects on other elements do not reach a forest. -/
theorem applyAll {forest : Forest ElementPtr} (unswept : Unswept st life head forest)
    {effects : List Effect} (legal : LegalAll st effects)
    (apart : ∀ e ∈ forest.preorder, e ∉ effects.map Effect.target) :
    Unswept (applyAll st effects) life head forest where
  hangs := unswept.hangs.applyAll legal apart
  short := by
    rw [applyAll_nextElement legal]
    exact unswept.short
  alive e member := by
    rw [applyAll_eLifecycles_other legal (apart e member)]
    exact unswept.alive e member

variable {node : ElementPtr} {below beside : Forest ElementPtr}
variable (unswept : Unswept st life head (.cons node below beside))

include unswept

/-- The decrement of a node does not reach the forest below it. -/
theorem childs : Unswept (Effect.apply st (.tick node)) life (.ofElement node) below := by
  obtain ⟨⟨fresh, -⟩, -⟩ := Forest.nodup_preorder_cons.mp unswept.hangs.nodup
  have legal : LegalAll st [.tick node] := ⟨trivial, trivial⟩
  have short := unswept.short
  simp only [Forest.preorder, List.length_cons, List.length_append] at short
  refine Unswept.applyAll ⟨unswept.hangs.childs, by omega, fun e member => ?_⟩ legal
    fun e member target => ?_
  · exact unswept.alive e (List.mem_cons_of_mem _ (List.mem_append_left _ member))
  · obtain rfl := List.mem_singleton.mp target
    exact fresh member

/-- The sweep of a node and all below it does not reach its later siblings. -/
theorem siblings (legal : LegalAll st (.tick node ::
      (if life node = some 1 then releaseTree node below else sweepEffects life below))) :
    Unswept (Bmon.applyAll st (.tick node ::
      (if life node = some 1 then releaseTree node below else sweepEffects life below)))
      life head beside := by
  obtain ⟨⟨-, freshBeside⟩, -, -, apart⟩ := Forest.nodup_preorder_cons.mp unswept.hangs.nodup
  have short := unswept.short
  simp only [Forest.preorder, List.length_cons, List.length_append] at short
  refine Unswept.applyAll ⟨unswept.hangs.siblings, by omega, fun e member => ?_⟩ legal
    fun e inBeside target => ?_
  · exact unswept.alive e (List.mem_cons_of_mem _ (List.mem_append_right _ member))
  · have notNode : e ≠ node := fun same => freshBeside (same ▸ inBeside)
    have notBelow : e ∉ below.preorder := fun inBelow => apart inBelow inBeside
    rcases List.mem_cons.mp target with same | target
    · exact notNode same
    · split_ifs at target
      · exact (target_releaseTree.mp target).elim notNode notBelow
      · exact notBelow (target_sweepEffects.mp target)

/-- The callback of a node whose time to live runs out frees it and all below it. -/
theorem free (one : life node = some 1) (g : GroupPtr) :
    elementCheckIfDead st g node = Bmon.applyAll st (.tick node :: releaseTree node below) ∧
      LegalAll st (.tick node :: releaseTree node below) := by
  have hangs := unswept.hangs.sameShape
    (sameShape_modifyElement st.store node Element.tick fun _ => rfl)
  obtain ⟨⟨place, present, -⟩, list, -⟩ := hangs.laid
  obtain ⟨⟨fresh, -⟩, -⟩ := Forest.nodup_preorder_cons.mp hangs.nodup
  have ticked : (Effect.apply st (.tick node)).store.place node ≠ none := by
    rw [Effect.apply, present]
    exact Option.some_ne_none place
  obtain ⟨free, legal⟩ := elementFree_eq ticked list hangs.childs fresh unswept.childs.short
  rw [elementCheckIfDead_eq, unswept.alive node List.mem_cons_self, if_pos one]
  exact ⟨free, trivial, legal⟩

/-- The callback of any other node only decrements its time to live. -/
theorem keep (other : life node ≠ some 1) (g : GroupPtr) :
    elementCheckIfDead st g node = Effect.apply st (.tick node) := by
  rw [elementCheckIfDead_eq, unswept.alive node List.mem_cons_self, if_neg other]

end Unswept

/-- The sweep of one node and all below it: its callback, and the traversal of what is then
left of its children. -/
theorem sweepNode_eq {g : GroupPtr} {fuel : Nat} {st : State} {head : ListHead}
    {node : ElementPtr} {below beside : Forest ElementPtr} {life : ElementPtr → Option UInt32}
    (unswept : Unswept st life head (.cons node below beside))
    (belowHypothesis : foreachElement State.store elementCheckIfDead g fuel
          (Effect.apply st (.tick node)) below.roots.head? =
        applyAll (Effect.apply st (.tick node)) (sweepEffects life below) ∧
      LegalAll (Effect.apply st (.tick node)) (sweepEffects life below)) :
    let effects := Effect.tick node ::
      (if life node = some 1 then releaseTree node below else sweepEffects life below)
    foreachElement State.store elementCheckIfDead g fuel (elementCheckIfDead st g node)
        ((elementCheckIfDead st g node).store.firstEntry (.ofElement node)) =
      applyAll st effects ∧ LegalAll st effects := by
  by_cases one : life node = some 1
  · -- the node is freed with all below it, so that no children are left to traverse
    obtain ⟨free, legal⟩ := unswept.free one g
    have childless : (elementCheckIfDead st g node).store.firstEntry (.ofElement node) = none := by
      rw [Store.firstEntry, free, applyAll_lists legal, unswept.hangs.laid.2.1,
        List.head?_eq_none_iff, List.filter_eq_nil_iff]
      intro c child
      have freed := mem_freedBy_releaseTree (e := node).mpr
        (Or.inr (below.roots_subset_preorder child))
      exact fun kept => of_decide_eq_true kept freed
    simp only [if_pos one]
    rw [childless, foreachElement_none, free]
    exact ⟨rfl, legal⟩
  · simp only [if_neg one]
    obtain ⟨walked, legal⟩ := belowHypothesis
    have list : (Effect.apply st (.tick node)).store.firstEntry (.ofElement node) =
        below.roots.head? := unswept.hangs.firstEntry
    rw [unswept.keep one, list, walked]
    exact ⟨rfl, trivial, legal⟩

/-- The sweep of a forest, while it changes the forest. -/
theorem foreachElement_elementCheckIfDead {g : GroupPtr} {fuel : Nat} {st : State}
    {head : ListHead} {forest : Forest ElementPtr} {life : ElementPtr → Option UInt32}
    (unswept : Unswept st life head forest) (enough : forest.preorder.length ≤ fuel) :
    foreachElement State.store elementCheckIfDead g fuel st forest.roots.head? =
        applyAll st (sweepEffects life forest) ∧
      LegalAll st (sweepEffects life forest) := by
  induction forest generalizing fuel st head with
  | nil => exact ⟨foreachElement_none _ _ _ _ _, trivial⟩
  | cons node below beside belowHypothesis besideHypothesis =>
    cases fuel with
    | zero => simp [Forest.preorder] at enough
    | succ fuel =>
      simp only [Forest.preorder, List.length_cons, List.length_append] at enough
      have enoughBelow : below.preorder.length ≤ fuel := by omega
      have enoughBeside : beside.preorder.length ≤ fuel := by omega
      obtain ⟨walked, legal⟩ :=
        sweepNode_eq unswept (belowHypothesis unswept.childs enoughBelow)
      obtain ⟨rest, legalRest⟩ :=
        besideHypothesis (unswept.siblings legal) enoughBeside
      refine ⟨?_, legalAll_append.mpr ⟨legal, legalRest⟩⟩
      rw [sweepEffects, applyAll_append, ← rest, ← walked]
      simp only [Forest.roots, List.head?_cons, foreachElement]
      rw [unswept.hangs.eNext]

/-- The forests of some groups, which the sweep has not reached yet. -/
def UnsweptGroups (st : State) (life : ElementPtr → Option UInt32)
    (forest : GroupPtr → Forest ElementPtr) (groups : List GroupPtr) : Prop :=
  (groups.flatMap fun g => (forest g).preorder).Nodup ∧
    ∀ g ∈ groups, Unswept st life (.ofGroup g) (forest g) ∧
      st.store.lists (.ofGroup g) = (forest g).roots

theorem Represents.unswept {st : State} {forest : GroupPtr → Forest ElementPtr}
    (represents : Represents st.store forest) :
    UnsweptGroups st st.store.eLifecycles forest st.store.groupList := by
  refine ⟨represents.nodup, fun g isGroup => ⟨⟨represents.hangs isGroup,
    represents.length_le isGroup, fun _ _ => rfl⟩, represents.roots g isGroup⟩⟩

section UnsweptGroups

variable {st : State} {life : ElementPtr → Option UInt32}
variable {forest : GroupPtr → Forest ElementPtr} {g : GroupPtr} {groups : List GroupPtr}
variable (unswept : UnsweptGroups st life forest (g :: groups))

include unswept

/-- The sweep of the first group. -/
theorem UnsweptGroups.first :
    groupForeachElement State.store elementCheckIfDead st g =
        applyAll st (sweepEffects life (forest g)) ∧
      LegalAll st (sweepEffects life (forest g)) := by
  obtain ⟨first, list⟩ := unswept.2 g List.mem_cons_self
  rw [groupForeachElement, Store.firstEntry, list]
  exact foreachElement_elementCheckIfDead first first.short

/-- The sweep of the first group does not reach the others. -/
theorem UnsweptGroups.rest :
    UnsweptGroups (groupForeachElement State.store elementCheckIfDead st g) life forest groups := by
  obtain ⟨swept, legal⟩ := unswept.first
  obtain ⟨nodup, inPlace⟩ := unswept
  rw [List.flatMap_cons, List.nodup_append'] at nodup
  obtain ⟨-, nodupRest, apart⟩ := nodup
  rw [swept]
  refine ⟨nodupRest, fun g' inRest => ?_⟩
  obtain ⟨before, list⟩ := inPlace g' (List.mem_cons_of_mem _ inRest)
  have others : ∀ e ∈ (forest g').preorder,
      e ∉ (sweepEffects life (forest g)).map Effect.target := fun e inForest target =>
    apart (target_sweepEffects.mp target) (List.mem_flatMap.mpr ⟨g', inRest, inForest⟩)
  refine ⟨before.applyAll legal others, ?_⟩
  rw [applyAll_lists legal, list]
  refine List.filter_eq_self.mpr fun e isRoot => decide_eq_true fun freed => ?_
  exact others e ((forest g').roots_subset_preorder isRoot) (target_of_mem_freedBy freed)

end UnsweptGroups

/-- The sweep of some groups. -/
theorem sweepGroups_eq {forest : GroupPtr → Forest ElementPtr}
    {life : ElementPtr → Option UInt32} {groups : List GroupPtr} {st : State}
    (unswept : UnsweptGroups st life forest groups) :
    groups.foldl (groupForeachElement State.store elementCheckIfDead) st =
        applyAll st (groups.flatMap fun g => sweepEffects life (forest g)) ∧
      LegalAll st (groups.flatMap fun g => sweepEffects life (forest g)) := by
  induction groups generalizing st with
  | nil => exact ⟨rfl, trivial⟩
  | cons g groups inductionHypothesis =>
    obtain ⟨walked, legal⟩ := unswept.first
    obtain ⟨rest, legalRest⟩ := inductionHypothesis unswept.rest
    rw [List.foldl_cons, List.flatMap_cons, applyAll_append, rest, walked]
    rw [walked] at legalRest
    exact ⟨rfl, legalAll_append.mpr ⟨legal, legalRest⟩⟩

/-- What the sweep does to a store that represents the forests. -/
def sweepAll (σ : Store) (forest : GroupPtr → Forest ElementPtr) : List Effect :=
  σ.groupList.flatMap fun g => sweepEffects σ.eLifecycles (forest g)

/-- The sweep of all groups, while it changes their forests. -/
theorem freeUnusedElements_eq {st : State} {forest : GroupPtr → Forest ElementPtr}
    (represents : Represents st.store forest) :
    freeUnusedElements st = applyAll st (sweepAll st.store forest) ∧
      LegalAll st (sweepAll st.store forest) :=
  sweepGroups_eq represents.unswept

/-! ### Which elements the sweep frees -/

/-- The time to live of the element or of one of its ancestors runs out in the next sweep. -/
def Store.Dies (σ : Store) (e : ElementPtr) : Prop :=
  ∃ a, σ.Above a e ∧ σ.eLifecycles a = some 1

/-- The sweep of a forest frees the nodes below a node whose time to live runs out. -/
theorem mem_freedBy_sweepEffects {σ : Store} (wf : σ.WellFormed) {head : ListHead}
    {forest : Forest ElementPtr} (laid : Laid σ head forest) {x : ElementPtr} :
    x ∈ freedBy (sweepEffects σ.eLifecycles forest) ↔
      ∃ a ∈ forest.preorder, σ.Above a x ∧ σ.eLifecycles a = some 1 := by
  induction forest generalizing head with
  | nil => simp [sweepEffects, freedBy, Forest.preorder]
  | cons node below beside belowHypothesis besideHypothesis =>
    obtain ⟨-, list, laidBelow, laidBeside⟩ := laid
    have freed : x ∈ freedBy (sweepEffects σ.eLifecycles (.cons node below beside)) ↔
        (if σ.eLifecycles node = some 1 then σ.Above node x
          else ∃ a ∈ below.preorder, σ.Above a x ∧ σ.eLifecycles a = some 1) ∨
        ∃ a ∈ beside.preorder, σ.Above a x ∧ σ.eLifecycles a = some 1 := by
      rw [sweepEffects, freedBy_append, List.mem_append, freedBy_cons_tick,
        besideHypothesis laidBeside]
      split_ifs
      · rw [mem_freedBy_releaseTree, laidBelow.above_iff wf list]
      · rw [belowHypothesis laidBelow]
    rw [freed]
    constructor
    · rintro (inTree | ⟨a, inBeside, above⟩)
      · split_ifs at inTree with one
        · exact ⟨node, List.mem_cons_self, inTree, one⟩
        · obtain ⟨a, inBelow, above⟩ := inTree
          exact ⟨a, List.mem_cons_of_mem _ (List.mem_append_left _ inBelow), above⟩
      · exact ⟨a, List.mem_cons_of_mem _ (List.mem_append_right _ inBeside), above⟩
    · rintro ⟨a, member, above, one⟩
      rcases List.mem_cons.mp member with rfl | inRest
      · left
        rwa [if_pos one]
      · rcases List.mem_append.mp inRest with inBelow | inBeside
        · left
          split_ifs with oneNode
          · exact (laidBelow.above_iff wf list).mpr (Or.inr (laidBelow.below_mem wf inBelow above))
          · exact ⟨a, inBelow, above, one⟩
        · exact Or.inr ⟨a, inBeside, above, one⟩

/-- The sweep frees the elements that die in it. -/
theorem mem_freedBy_sweepAll {σ : Store} (wf : σ.WellFormed)
    {forest : GroupPtr → Forest ElementPtr} (represents : Represents σ forest)
    {x : ElementPtr} : x ∈ freedBy (sweepAll σ forest) ↔ σ.Dies x := by
  have flat : freedBy (sweepAll σ forest) =
      σ.groupList.flatMap fun g => freedBy (sweepEffects σ.eLifecycles (forest g)) :=
    List.filterMap_flatMap
  have freed : ∀ g ∈ σ.groupList, x ∈ freedBy (sweepEffects σ.eLifecycles (forest g)) ↔
      ∃ a ∈ (forest g).preorder, σ.Above a x ∧ σ.eLifecycles a = some 1 := fun g isGroup =>
    mem_freedBy_sweepEffects wf (represents.laid g isGroup)
  rw [flat, List.mem_flatMap]
  constructor
  · rintro ⟨g, isGroup, member⟩
    obtain ⟨a, -, dies⟩ := (freed g isGroup).mp member
    exact ⟨a, dies⟩
  · rintro ⟨a, above, one⟩
    obtain ⟨r, found, -⟩ := Option.map_eq_some_iff.mp one
    have present : σ.place a = some r.place := by rw [Store.place, found, Option.map_some]
    have isGroup := wf.grouped a r.place present
    have inForest := wf.inForest_iff.mpr (eGroup_eq_some_iff.mpr ⟨r.place, present, rfl⟩)
    exact ⟨_, isGroup, (freed _ isGroup).mpr
      ⟨a, (wf.mem_preorder_iff represents isGroup).mpr inForest, above, one⟩⟩

/-! ### The time to live of what is left -/

/-- The element whose time to live an effect decrements, if it does. -/
def Effect.ticked : Effect → Option ElementPtr
  | .tick e => some e
  | .release _ => none

/-- The elements whose time to live a list of effects decrements. -/
def tickedBy (effects : List Effect) : List ElementPtr := effects.filterMap Effect.ticked

theorem tickedBy_append (first second : List Effect) :
    tickedBy (first ++ second) = tickedBy first ++ tickedBy second := List.filterMap_append

theorem tickedBy_releaseTree (e : ElementPtr) (below : Forest ElementPtr) :
    tickedBy (releaseTree e below) = [] := by
  simp [tickedBy, releaseTree, Effect.ticked]

/-- An effect is on an element that it decrements or frees. -/
theorem mem_target_iff {effects : List Effect} {e : ElementPtr} :
    e ∈ effects.map Effect.target ↔ e ∈ tickedBy effects ∨ e ∈ freedBy effects := by
  induction effects with
  | nil => simp [tickedBy, freedBy]
  | cons effect rest inductionHypothesis =>
    rw [List.map_cons, List.mem_cons, inductionHypothesis]
    cases effect <;> simp [Effect.target, tickedBy, Effect.ticked, or_assoc, or_left_comm]

/-- The sweep decrements the times to live of different elements of the forest. -/
theorem tickedBy_sublist (life : ElementPtr → Option UInt32) (forest : Forest ElementPtr) :
    (tickedBy (sweepEffects life forest)).Sublist forest.preorder := by
  induction forest with
  | nil => exact List.Sublist.slnil
  | cons node below beside belowHypothesis besideHypothesis =>
    rw [sweepEffects, tickedBy_append, Forest.preorder, ← List.cons_append]
    refine List.Sublist.append (List.Sublist.cons_cons node ?_) besideHypothesis
    split_ifs
    · change (tickedBy (releaseTree node below)).Sublist _
      rw [tickedBy_releaseTree]
      exact List.nil_sublist _
    · exact belowHypothesis

/-- An element that is decremented once and not freed is otherwise as it was. -/
theorem applyAll_elements_ticked {st : State} {effects : List Effect}
    (legal : LegalAll st effects) {x : ElementPtr} (alive : x ∉ freedBy effects)
    (ticked : x ∈ tickedBy effects) (once : (tickedBy effects).Nodup) :
    (applyAll st effects).store.elements x = (st.store.elements x).map Element.tick := by
  induction effects generalizing st with
  | nil => cases ticked
  | cons effect rest inductionHypothesis =>
    rw [applyAll, List.foldl_cons, ← applyAll]
    cases effect with
    | tick e =>
      obtain ⟨fresh, onceRest⟩ := List.nodup_cons.mp once
      rw [freedBy_cons_tick] at alive
      by_cases same : x = e
      · subst same
        have other : x ∉ rest.map Effect.target := by
          rw [mem_target_iff, not_or]
          exact ⟨fresh, alive⟩
        rw [applyAll_elements_other legal.2 other]
        exact if_pos rfl
      · have inRest := (List.mem_cons.mp ticked).resolve_left same
        rw [inductionHypothesis legal.2 alive inRest onceRest,
          Effect.apply_elements_other legal.1 same]
    | release e =>
      rw [freedBy_cons_release, List.mem_cons, not_or] at alive
      rw [inductionHypothesis legal.2 alive.2 ticked once,
        Effect.apply_elements_other legal.1 alive.1]

/-- The sweep is on the elements of the forests. -/
theorem target_sweepAll {σ : Store} {forest : GroupPtr → Forest ElementPtr} {x : ElementPtr} :
    x ∈ (sweepAll σ forest).map Effect.target ↔ x ∈ allNodes σ forest := by
  rw [sweepAll, List.map_flatMap, allNodes, List.mem_flatMap, List.mem_flatMap]
  exact exists_congr fun g => and_congr_right fun _ => target_sweepEffects

/-- The sweep decrements no time to live twice. -/
theorem Represents.ticked_once {σ : Store} {forest : GroupPtr → Forest ElementPtr}
    (represents : Represents σ forest) : (tickedBy (sweepAll σ forest)).Nodup := by
  have flat : tickedBy (sweepAll σ forest) =
      σ.groupList.flatMap fun g => tickedBy (sweepEffects σ.eLifecycles (forest g)) :=
    List.filterMap_flatMap
  rw [flat]
  refine List.Nodup.sublist ?_ represents.nodup
  exact List.Sublist.flatMap_right _ fun g _ => tickedBy_sublist _ (forest g)

/-- The sweep decrements the time to live of an element that it does not free, and changes
nothing else of it. -/
theorem Represents.sweep_elements {st : State} {forest : GroupPtr → Forest ElementPtr}
    (represents : Represents st.store forest) {x : ElementPtr}
    (member : x ∈ allNodes st.store forest) (alive : x ∉ freedBy (sweepAll st.store forest)) :
    (freeUnusedElements st).store.elements x = (st.store.elements x).map Element.tick := by
  obtain ⟨swept, legal⟩ := freeUnusedElements_eq represents
  have ticked := (mem_target_iff.mp (target_sweepAll.mpr member)).resolve_right alive
  rw [swept, applyAll_elements_ticked legal alive ticked represents.ticked_once]

/-! ### The sweep as a whole -/

section Sweep

variable {st : State} (wf : st.store.WellFormed)

include wf

theorem sweep_wellFormed : (freeUnusedElements st).store.WellFormed := by
  obtain ⟨forest, represents⟩ := wf.represents
  obtain ⟨swept, legal⟩ := freeUnusedElements_eq represents
  rw [swept]
  exact applyAll_wellFormed legal wf

theorem sweep_nextElement :
    (freeUnusedElements st).store.nextElement = st.store.nextElement := by
  obtain ⟨forest, represents⟩ := wf.represents
  obtain ⟨swept, legal⟩ := freeUnusedElements_eq represents
  rw [swept, applyAll_nextElement legal]

/-- The sweep leaves the elements that do not die where they are, and no others. -/
theorem sweep_place_eq_some_iff {x : ElementPtr} {place : Place} :
    (freeUnusedElements st).store.place x = some place ↔
      st.store.place x = some place ∧ ¬st.store.Dies x := by
  obtain ⟨forest, represents⟩ := wf.represents
  obtain ⟨swept, legal⟩ := freeUnusedElements_eq represents
  rw [swept, applyAll_place legal, ← mem_freedBy_sweepAll wf represents]
  split_ifs with freed <;> simp [freed]

/-- An element that does not die in a sweep has one cycle less to live after it. -/
theorem sweep_eLifecycles {x : ElementPtr} {place : Place} (present : st.store.place x = some place)
    (alive : ¬st.store.Dies x) :
    (freeUnusedElements st).store.eLifecycles x = (st.store.eLifecycles x).map (· - 1) := by
  obtain ⟨forest, represents⟩ := wf.represents
  have isGroup := wf.grouped x place present
  have inForest := (wf.mem_preorder_iff represents isGroup).mpr
    (wf.inForest_iff.mpr (eGroup_eq_some_iff.mpr ⟨place, present, rfl⟩))
  have member : x ∈ allNodes st.store forest := List.mem_flatMap.mpr ⟨_, isGroup, inForest⟩
  rw [Store.eLifecycles, Store.eLifecycles, represents.sweep_elements member
    (mt (mem_freedBy_sweepAll wf represents).mp alive), Option.map_map, Option.map_map]
  rfl

end Sweep

/-- The sweep keeps the selection valid. -/
theorem sweep_valid {st : State} (wf : st.store.WellFormed)
    (valid : st.selection.Valid st.store) :
    (freeUnusedElements st).selection.Valid (freeUnusedElements st).store := by
  obtain ⟨forest, represents⟩ := wf.represents
  obtain ⟨swept, legal⟩ := freeUnusedElements_eq represents
  rw [swept]
  exact applyAll_valid legal wf valid

end Bmon
