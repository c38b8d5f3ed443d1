/-
This file shows when the sweep `free_unused_elements` reads records that it has freed.

`list_for_each_entry_safe` saves the next entry before the callback runs, so that the traversal
can step on when the callback frees the entry. But the traversal then still looks at the children
of the entry, and these are a field of the record. The reads are listed here in the order in which
the traversal makes them, each with whether the record is in the store at that moment.
-/

import Bmon.Program

namespace Bmon

/-! ### The reads of a traversal -/

/-- A read of fields of an element, and whether its record is still in the store. -/
structure ElementRead where
  element : ElementPtr
  present : Bool
  deriving DecidableEq, Repr

section Reads

variable {Data : Type*} (view : Data → Store) (cb : Data → GroupPtr → ElementPtr → Data)

/-- Read fields of an element. -/
def readElement (data : Data) (e : ElementPtr) : ElementRead :=
  ⟨e, ((view data).elements e).isSome⟩

/-- The elements `__group_foreach_element` reads, from an entry of a list on. At the end of the
list `n` is read from its head, which is a field of the element that owns the list. -/
def foreachElementReads (g : GroupPtr) :
    ListHead → Nat → Data → Option ElementPtr → List ElementRead
  | head, _, data, none => head.owner.toList.map (readElement view data)
  | _, 0, _, some _ => []
  | head, fuel + 1, data, some e =>
    let n := (view data).eNext e
    let called := cb data g e
    let first := (view called).firstEntry (.ofElement e)
    -- the next entry, the argument of the callback, and `list_empty(&e->e_childs)` after it
    [readElement view data e, readElement view data e, readElement view called e] ++
      (match first with
        | none => []
        | some c => readElement view called e ::
            foreachElementReads g (.ofElement e) fuel called (some c)) ++
      foreachElementReads g head fuel (foreachElement view cb g fuel called first) n

/-- The elements `group_foreach_recursive` reads, from a group on. -/
def groupsReads : List GroupPtr → Data → List ElementRead
  | [], _ => []
  | g :: groups, data =>
    foreachElementReads view cb g (.ofGroup g) (view data).nextElement data
        ((view data).firstEntry (.ofGroup g)) ++
      groupsReads groups (groupForeachElement view cb data g)

end Reads

/-- The elements `free_unused_elements` reads while it traverses them. -/
def sweepReads (st : State) : List ElementRead :=
  groupsReads State.store elementCheckIfDead st.store.groupList st

/-- Only records that are in the store are read. -/
def AllPresent (reads : List ElementRead) : Prop := ∀ read ∈ reads, read.present = true

theorem allPresent_append {first second : List ElementRead} :
    AllPresent (first ++ second) ↔ AllPresent first ∧ AllPresent second :=
  List.forall_mem_append

theorem allPresent_cons {read : ElementRead} {rest : List ElementRead} :
    AllPresent (read :: rest) ↔ read.present = true ∧ AllPresent rest :=
  List.forall_mem_cons

/-! ### The reads of the sweep -/

/-- An element that owns a list is in the store, and not in the forest that hangs in the list. -/
def OwnerKept (σ : Store) (head : ListHead) (forest : Forest ElementPtr) : Prop :=
  ∀ p ∈ head.owner, p ∉ forest.preorder ∧ (σ.elements p).isSome

theorem isSome_of_laid {σ : Store} {head : ListHead} {node : ElementPtr}
    {below beside : Forest ElementPtr} (laid : Laid σ head (.cons node below beside)) :
    (σ.elements node).isSome := by
  obtain ⟨⟨place, present, -⟩, -⟩ := laid
  obtain ⟨r, found, -⟩ := place_eq_some_iff.mp present
  rw [found, Option.isSome_some]

/-- The sweep of a node does not free the owner of its list. -/
theorem OwnerKept.siblings {st : State} {life : ElementPtr → Option UInt32} {head : ListHead}
    {node : ElementPtr} {below beside : Forest ElementPtr}
    (kept : OwnerKept st.store head (.cons node below beside))
    (legal : LegalAll st (.tick node ::
      (if life node = some 1 then releaseTree node below else sweepEffects life below))) :
    OwnerKept (applyAll st (.tick node ::
      (if life node = some 1 then releaseTree node below else sweepEffects life below))).store
      head beside := by
  intro p owns
  obtain ⟨apart, present⟩ := kept p owns
  rw [Forest.preorder, List.mem_cons, List.mem_append, not_or, not_or] at apart
  obtain ⟨notNode, notBelow, notBeside⟩ := apart
  refine ⟨notBeside, ?_⟩
  rw [applyAll_elements_other legal]
  · exact present
  · intro target
    rcases List.mem_cons.mp target with same | target
    · exact notNode same
    · split_ifs at target
      · exact (target_releaseTree.mp target).elim notNode notBelow
      · exact notBelow (target_sweepEffects.mp target)

/-- The sweep of a forest reads only records in the store if and only if it frees no node. -/
theorem foreachElementReads_iff {g : GroupPtr} {fuel : Nat} {st : State} {head : ListHead}
    {forest : Forest ElementPtr} {life : ElementPtr → Option UInt32}
    (unswept : Unswept st life head forest) (kept : OwnerKept st.store head forest)
    (enough : forest.preorder.length ≤ fuel) :
    AllPresent (foreachElementReads State.store elementCheckIfDead g head fuel st
        forest.roots.head?) ↔
      ∀ e ∈ forest.preorder, life e ≠ some 1 := by
  induction forest generalizing fuel st head with
  | nil =>
    have owner : AllPresent (head.owner.toList.map (readElement State.store st)) :=
      fun read member => by
        obtain ⟨p, owns, rfl⟩ := List.mem_map.mp member
        exact (kept p (Option.mem_toList.mp owns)).2
    refine iff_of_true ?_ fun e member => by cases member
    cases fuel <;> exact owner
  | cons node below beside belowHypothesis besideHypothesis =>
    cases fuel with
    | zero => simp [Forest.preorder] at enough
    | succ fuel =>
      simp only [Forest.preorder, List.length_cons, List.length_append] at enough
      have enoughBelow : below.preorder.length ≤ fuel := by omega
      have enoughBeside : beside.preorder.length ≤ fuel := by omega
      have present := isSome_of_laid unswept.hangs.laid
      simp only [Forest.roots, List.head?_cons, foreachElementReads, allPresent_append,
        allPresent_cons]
      by_cases one : life node = some 1
      · -- the callback frees the node, whose children are looked at next
        obtain ⟨free, legal⟩ := unswept.free one g
        refine iff_of_false (fun all => ?_) fun none => none node List.mem_cons_self one
        have absent := applyAll_place legal node
        have freed : node ∈ freedBy (.tick node :: releaseTree node below) :=
          mem_freedBy_releaseTree.mpr (Or.inl rfl)
        rw [if_pos freed, ← free] at absent
        have gone := Option.map_eq_none_iff.mp absent
        have read := all.1.1.2.2.1
        rw [readElement, gone] at read
        cases read
      · obtain ⟨fresh, -⟩ := (Forest.nodup_preorder_cons.mp unswept.hangs.nodup).1
        have ticked : ((Effect.apply st (.tick node)).store.elements node).isSome :=
          (isSome_modifyElement st.store node node Element.tick).trans present
        have belowIff := belowHypothesis unswept.childs (fun p owns => by
          obtain rfl := Option.mem_some.mp owns
          exact ⟨fresh, ticked⟩) enoughBelow
        obtain ⟨walked, legal⟩ := sweepNode_eq unswept
          (foreachElement_elementCheckIfDead (g := g) unswept.childs enoughBelow)
        have besideIff := besideHypothesis (unswept.siblings legal)
          (OwnerKept.siblings kept legal) enoughBeside
        have list : (Effect.apply st (.tick node)).store.firstEntry (.ofElement node) =
            below.roots.head? := unswept.hangs.firstEntry
        rw [walked, unswept.hangs.eNext, besideIff, unswept.keep one, list, Forest.preorder,
          List.forall_mem_cons, List.forall_mem_append]
        have nothing : AllPresent [] := fun read member => by cases member
        have descent : AllPresent (match below.roots.head? with
            | none => []
            | some c => readElement State.store (Effect.apply st (.tick node)) node ::
                foreachElementReads State.store elementCheckIfDead g (.ofElement node) fuel
                  (Effect.apply st (.tick node)) (some c)) ↔
            ∀ e ∈ below.preorder, life e ≠ some 1 := by
          cases below with
          | nil => exact iff_of_true nothing fun e member => by cases member
          | cons child _ _ => exact allPresent_cons.trans ((and_iff_right ticked).trans belowIff)
        rw [descent]
        exact ⟨fun all => ⟨one, all.1.2, all.2⟩,
          fun all => ⟨⟨⟨present, present, ticked, nothing⟩, all.2.1⟩, all.2.2⟩⟩

/-- The sweep of some groups reads only records in the store if and only if it frees no node. -/
theorem groupsReads_iff {forest : GroupPtr → Forest ElementPtr}
    {life : ElementPtr → Option UInt32} {groups : List GroupPtr} {st : State}
    (unswept : UnsweptGroups st life forest groups) :
    AllPresent (groupsReads State.store elementCheckIfDead groups st) ↔
      ∀ g ∈ groups, ∀ e ∈ (forest g).preorder, life e ≠ some 1 := by
  induction groups generalizing st with
  | nil => exact iff_of_true (fun read member => by cases member) fun g member => by cases member
  | cons g groups inductionHypothesis =>
    obtain ⟨first, list⟩ := unswept.2 g List.mem_cons_self
    have owner : OwnerKept st.store (.ofGroup g) (forest g) := fun p owns => by cases owns
    rw [groupsReads, allPresent_append, Store.firstEntry, list,
      foreachElementReads_iff first owner first.short, inductionHypothesis unswept.rest,
      List.forall_mem_cons]

/-- **When the sweep reads only live elements.** For every list of groups, every forest in them
and all times to live, the traversal of `free_unused_elements` reads only records that are still
in the store if and only if no time to live runs out, which is when the sweep frees nothing. -/
theorem sweepReads_allPresent_iff (st : State) (forest : GroupPtr → Forest ElementPtr)
    (represents : Represents st.store forest) :
    AllPresent (sweepReads st) ↔
      ∀ g ∈ st.store.groupList, ∀ e ∈ (forest g).preorder, st.store.eLifecycles e ≠ some 1 :=
  groupsReads_iff represents.unswept

/-- With a parent and a child that are not about to expire only live elements are read. -/
theorem sweepReads_allPresent_child :
    ∃ st, Runs.run (step (confInitPost {})) (State.start [] [] [] [])
        (parentAndChild.map Op.input) = some st ∧
      (sweepReads st).map ElementRead.element = [0, 0, 0, 0, 1, 1, 1, 0] ∧
      AllPresent (sweepReads st) := by
  have run : (Runs.run (step (confInitPost {})) (State.start [] [] [] [])
      (parentAndChild.map Op.input)).map (fun st => ((sweepReads st).map ElementRead.element,
        st.store.nextElement, st.store.eLifecycles 0, st.store.eLifecycles 1)) =
      some ([0, 0, 0, 0, 1, 1, 1, 0], 2, some 30, some 30) := by decide +kernel
  obtain ⟨st, ran, facts⟩ := Option.map_eq_some_iff.mp run
  obtain ⟨reads, rest⟩ := Prod.mk.inj facts
  obtain ⟨two, lives⟩ := Prod.mk.inj rest
  obtain ⟨parentLives, childLives⟩ := Prod.mk.inj lives
  have wf := (run_valid (valid_stateStart [] [] [] []) ran).store
  obtain ⟨forest, represents⟩ := wf.represents
  refine ⟨st, ran, reads, (sweepReads_allPresent_iff st forest represents).mpr ?_⟩
  intro g isGroup e member
  obtain ⟨place, present⟩ := (represents.laid g isGroup).present member
  have less := wf.element_lt e place present
  rw [two] at less
  rcases Nat.le_one_iff_eq_zero_or_eq_one.mp (Nat.lt_succ_iff.mp less) with rfl | rfl
  · rw [parentLives]
    decide
  · rw [childLives]
    decide

/-- When the child expires, its list of children is read after it was freed. -/
theorem sweepReads_freed :
    ∃ st forest, Represents st.store forest ∧
      (sweepReads st).map ElementRead.element = [0, 0, 0, 0, 1, 1, 1, 0] ∧
      ⟨1, false⟩ ∈ sweepReads st ∧ ¬AllPresent (sweepReads st) := by
  have run : (Runs.run (step (confInitPost { lifetime := 2 })) (State.start [] [] [] [])
      (parentAndChild.map Op.input ++ [.freeUnusedElements, .input (.onElement 0 .lifesign)])).map
        (fun st => ((sweepReads st).map ElementRead.element,
          decide ((⟨1, false⟩ : ElementRead) ∈ sweepReads st))) =
      some ([0, 0, 0, 0, 1, 1, 1, 0], true) := by decide +kernel
  obtain ⟨st, ran, facts⟩ := Option.map_eq_some_iff.mp run
  obtain ⟨reads, freed⟩ := Prod.mk.inj facts
  obtain ⟨forest, represents⟩ := (run_valid (valid_stateStart [] [] [] []) ran).store.represents
  have member := of_decide_eq_true freed
  refine ⟨st, forest, represents, reads, member, fun all => ?_⟩
  have present := all _ member
  cases present

end Bmon
