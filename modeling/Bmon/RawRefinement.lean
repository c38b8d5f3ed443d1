/-
This file shows that the program on the level of its pointers does what the program on lists
does, in every run.

The loops that free elements and sweep them follow links that the same loops change. Each link
is read while the entry it belongs to is still in its list, or from a head that the record of a
freed element still holds. The traversal is treated for all callbacks at once, by what a callback
has to leave for the entries that are not reached yet.
-/

import Bmon.RawWrites

namespace Bmon

/-- The memory shows a state of the program whose invariants hold. -/
structure Memory.Refines (m : Memory) (st : State) : Prop extends m.Shows st where
  valid : st.Valid

/-! ### Effects -/

section Effects

variable {st : State} {effects : List Effect} (legal : LegalAll st effects)

include legal

theorem State.Valid.applyAll (valid : st.Valid) : (applyAll st effects).Valid :=
  ⟨applyAll_wellFormed legal valid.store, applyAll_valid legal valid.store valid.selection⟩

/-- Effects hand out no pointers. -/
theorem applyAll_nextGroup : (applyAll st effects).store.nextGroup = st.store.nextGroup := by
  induction effects generalizing st with
  | nil => rfl
  | cons effect rest inductionHypothesis =>
    rw [Bmon.applyAll, List.foldl_cons, ← Bmon.applyAll, inductionHypothesis legal.2,
      (Effect.apply_same legal.1).2.2]

theorem isHead_applyAll {node : ListNode} :
    (applyAll st effects).store.IsHead node ↔ st.store.IsHead node := by
  cases node with
  | gElements g =>
    change g < (Bmon.applyAll st effects).store.nextGroup ↔ _
    rw [applyAll_nextGroup legal]
    rfl
  | eChilds e =>
    change e < (Bmon.applyAll st effects).store.nextElement ↔ _
    rw [applyAll_nextElement legal]
    rfl
  | _ => exact Iff.rfl

end Effects

/-! ### Freeing elements -/

/-- The address a loop is at: an entry, or the head at the end of the list. -/
def ListHead.at (head : ListHead) (e : Option ElementPtr) : ListNode :=
  (e.map ListNode.eList).getD head.node

theorem Memory.Shows.next_at {m : Memory} {st : State} (shows : m.Shows st)
    (wf : st.store.WellFormed) {head : ListHead} {node : ElementPtr}
    {below beside : Forest ElementPtr}
    (hangs : Hangs st.store head (.cons node below beside)) :
    m.links.next (.eList node) = head.at beside.roots.head? := by
  obtain ⟨place, found, rfl⟩ := hangs.laid.1
  rw [shows.next_eList wf found, hangs.eNext]
  rfl

theorem eList_ne_node (e : ElementPtr) (head : ListHead) : .eList e ≠ head.node := by
  cases head <;> exact fun same => by cases same

/-- The loop over the children of an element that are still there. -/
theorem Memory.Refines.elementFreeChilds {fuel : Nat} {m : Memory} {st : State}
    (refines : m.Refines st) {head : ListHead} {forest : Forest ElementPtr}
    (hangs : Hangs st.store head forest) (isHead : st.store.IsHead head.node)
    (enough : forest.preorder.length ≤ fuel) :
    (Raw.elementFreeChilds head.node fuel m (head.at forest.roots.head?)
      (m.links.next (head.at forest.roots.head?))).Refines
        (elementFreeChilds fuel st forest.roots.head?) := by
  induction forest generalizing fuel m st head with
  | nil =>
    cases fuel with
    | zero => exact refines
    | succ fuel =>
      rw [Raw.elementFreeChilds, if_pos (by rfl)]
      exact refines
  | cons node below beside belowHypothesis besideHypothesis =>
    cases fuel with
    | zero => simp [Forest.preorder] at enough
    | succ fuel =>
      simp only [Forest.preorder, List.length_cons, List.length_append] at enough
      have enoughBelow : below.preorder.length ≤ fuel := by omega
      have enoughBeside : beside.preorder.length ≤ fuel := by omega
      obtain ⟨⟨fresh, freshBeside⟩, -, -, apart⟩ := Forest.nodup_preorder_cons.mp hangs.nodup
      have wf := refines.valid.store
      obtain ⟨place, found, -⟩ := hangs.laid.1
      have present : st.store.place node ≠ none := by rw [found]; exact Option.some_ne_none place
      have isHeadNode := wf.isHead_ofElement present
      have first : m.links.next (.eChilds node) =
          (ListHead.ofElement node).at below.roots.head? := by
        rw [← hangs.firstEntry]
        exact refines.next_head isHeadNode
      have inner := belowHypothesis refines hangs.childs isHeadNode enoughBelow
      obtain ⟨freeBelow, legalBelow⟩ := elementFreeChilds_eq hangs.childs enoughBelow
      have presentBelow : (Bmon.elementFreeChilds fuel st below.roots.head?).store.place node ≠
          none := by
        rw [freeBelow, applyAll_place legalBelow, if_neg, found]
        · exact Option.some_ne_none place
        · rw [freedBy_release]
          exact fun inBelow => fresh (Forest.mem_postorder_iff.mp inBelow)
      have released := inner.toShows.elementRelease inner.valid.store inner.valid.selection
        presentBelow
      have legalTree := legalAll_releaseTree present hangs.laid.2.1 fresh legalBelow
      have freeTree : elementRelease (Bmon.elementFreeChilds fuel st below.roots.head?) node =
          applyAll st (releaseTree node below) := by
        rw [freeBelow, releaseTree, applyAll_append]
        rfl
      have hangsBeside := hangs.siblings.applyAll legalTree fun e inBeside target => by
        rcases target_releaseTree.mp target with rfl | inBelow
        · exact freshBeside inBeside
        · exact apart inBelow inBeside
      rw [← freeTree] at hangsBeside
      have kept :
          (elementRelease (Bmon.elementFreeChilds fuel st below.roots.head?) node).Valid := by
        rw [freeTree]
        exact refines.valid.applyAll legalTree
      have isHeadKept : (elementRelease (Bmon.elementFreeChilds fuel st below.roots.head?)
          node).store.IsHead head.node := by
        rw [freeTree]
        exact (isHead_applyAll legalTree).mpr isHead
      have rest := besideHypothesis ⟨released, kept⟩ hangsBeside isHeadKept enoughBeside
      change (Raw.elementFreeChilds head.node (fuel + 1) m (.eList node)
        (m.links.next (.eList node))).Refines
          (Bmon.elementFreeChilds (fuel + 1) st (some node))
      rw [refines.next_at wf hangs, Raw.elementFreeChilds, if_neg (eList_ne_node node head)]
      simp only [ListNode.element, first, Bmon.elementFreeChilds]
      rw [hangs.eNext, hangs.firstEntry]
      exact rest

/-- `element_free` of an element in the store. -/
theorem Memory.Refines.elementFree {m : Memory} {st : State} (refines : m.Refines st)
    {e : ElementPtr} (present : st.store.place e ≠ none) :
    (Raw.elementFree m e).Refines (elementFree st e) := by
  have wf := refines.valid.store
  obtain ⟨below, roots, laid, aboveIff, free, legal⟩ := elementFree_tree wf present
  have nodup := laid.nodup wf (by rw [roots]; exact wf.lists_nodup _)
  have hangs : Hangs st.store (.ofElement e) below :=
    ⟨laid, by rw [roots], wf.lists_nodup _, nodup⟩
  have enough := wf.length_le nodup fun x member => laid.present member
  have isHead := wf.isHead_ofElement present
  have first : m.links.next (.eChilds e) = (ListHead.ofElement e).at below.roots.head? := by
    rw [roots]
    exact refines.next_head isHead
  have fuel : m.records.nextElement = st.store.nextElement := by rw [refines.records]; rfl
  have freed := refines.elementFreeChilds hangs isHead enough
  obtain ⟨freeBelow, legalBelow⟩ := elementFreeChilds_eq hangs enough
  have presentBelow : (Bmon.elementFreeChilds st.store.nextElement st
      below.roots.head?).store.place e ≠ none := by
    rw [freeBelow, applyAll_place legalBelow, if_neg]
    · exact present
    · rw [freedBy_release]
      intro inBelow
      obtain ⟨root, isRoot, above⟩ := laid.above_root (Forest.mem_postorder_iff.mp inBelow)
      rw [roots] at isRoot
      obtain ⟨-, -, -, -, -, -, less⟩ := wf.owner_present isRoot
      exact absurd (wf.le_of_above above) (Nat.not_le_of_lt less)
  refine ⟨?_, ?_⟩
  · unfold Raw.elementFree Bmon.elementFree
    rw [first, fuel, Store.firstEntry, ← roots]
    exact freed.toShows.elementRelease freed.valid.store freed.valid.selection presentBelow
  · rw [free]
    exact refines.valid.applyAll legal

/-- `element_check_if_dead` of an element in the store. -/
theorem Memory.Refines.elementCheckIfDead {m : Memory} {st : State} (refines : m.Refines st)
    (g : GroupPtr) {e : ElementPtr} (present : st.store.place e ≠ none) :
    (Raw.elementCheckIfDead m g e).Refines (elementCheckIfDead st g e) := by
  have same := sameShape_modifyElement st.store e Element.tick fun _ => rfl
  have ticked : Memory.Refines { m with records := m.records.modifyElement e Element.tick }
      { st with store := st.store.modifyElement e Element.tick } := by
    refine ⟨?_, refines.valid.sameShape same⟩
    rw [refines.records]
    exact refines.toShows.sameShape same
  have records : (m.records.modifyElement e Element.tick).elements e =
      (st.store.modifyElement e Element.tick).elements e := by rw [refines.records]; rfl
  unfold Raw.elementCheckIfDead Bmon.elementCheckIfDead
  simp only [records]
  split_ifs
  · exact ticked.elementFree (by rw [same.place]; exact present)
  · exact ticked

/-! ### Traversals -/

/-- What a callback of a traversal has to leave. `ready` says that a forest hangs in a list and
that the traversal has not reached it; after the callback of its first node, what is left of the
forest below the node is ready, and after the traversal of that, so are the later siblings. The
traversals on lists work on any data that shows a state. -/
structure Raw.Follows {Data : Type*} (state : Data → State)
    (rawCb : Memory → GroupPtr → ElementPtr → Memory) (cb : Data → GroupPtr → ElementPtr → Data)
    (g : GroupPtr) (ready : Data → ListHead → Forest ElementPtr → Prop) : Prop where
  hangs : ∀ {data head forest}, ready data head forest → Hangs (state data).store head forest
  isHead : ∀ {data head forest}, ready data head forest → (state data).store.IsHead head.node
  calls : ∀ {m : Memory} {data head node below beside},
    ready data head (.cons node below beside) → m.Refines (state data) →
    (rawCb m g node).Refines (state (cb data g node))
  childs : ∀ {data head node below beside}, ready data head (.cons node below beside) →
    ∃ left : Forest ElementPtr,
      (state (cb data g node)).store.lists (.ofElement node) = left.roots ∧
      left.preorder.length ≤ below.preorder.length ∧
      ready (cb data g node) (.ofElement node) left
  siblings : ∀ {fuel data head node below beside}, ready data head (.cons node below beside) →
    below.preorder.length ≤ fuel →
    ready (Bmon.foreachElement (fun data => (state data).store) cb g fuel (cb data g node)
      ((state (cb data g node)).store.firstEntry (.ofElement node))) head beside

theorem Raw.foreachElement_end (cb : Memory → GroupPtr → ElementPtr → Memory) (g : GroupPtr)
    (list : ListNode) (fuel : Nat) (m : Memory) (n : ListNode) :
    Raw.foreachElement cb g list fuel m list n = m := by
  cases fuel with
  | zero => rfl
  | succ fuel => exact if_pos rfl

section Follows

variable {Data : Type*} {state : Data → State}
variable {rawCb : Memory → GroupPtr → ElementPtr → Memory}
variable {cb : Data → GroupPtr → ElementPtr → Data}

/-- The traversal of a list on pointers follows that on lists. -/
theorem Raw.Follows.foreachElement {g : GroupPtr}
    {ready : Data → ListHead → Forest ElementPtr → Prop}
    (follows : Raw.Follows state rawCb cb g ready) {fuel : Nat} {m : Memory} {data : Data}
    {head : ListHead} {forest : Forest ElementPtr} (refines : m.Refines (state data))
    (isReady : ready data head forest) (enough : forest.preorder.length ≤ fuel) :
    (Raw.foreachElement rawCb g head.node fuel m (head.at forest.roots.head?)
      (m.links.next (head.at forest.roots.head?))).Refines
        (state (Bmon.foreachElement (fun data => (state data).store) cb g fuel data
          forest.roots.head?)) := by
  induction fuel generalizing m data head forest with
  | zero =>
    have none : forest = .nil := by
      cases forest with
      | nil => rfl
      | cons node below beside => simp [Forest.preorder] at enough
    rw [none]
    exact refines
  | succ fuel inductionHypothesis =>
    cases forest with
    | nil =>
      rw [Raw.foreachElement, if_pos (by rfl)]
      exact refines
    | cons node below beside =>
      simp only [Forest.preorder, List.length_cons, List.length_append] at enough
      have enoughBelow : below.preorder.length ≤ fuel := by omega
      have enoughBeside : beside.preorder.length ≤ fuel := by omega
      have called := follows.calls isReady refines
      obtain ⟨left, list, fewer, readyLeft⟩ := follows.childs isReady
      have firstLeft : (state (cb data g node)).store.firstEntry (.ofElement node) =
          left.roots.head? := by rw [Store.firstEntry, list]
      have first : (rawCb m g node).links.next (.eChilds node) =
          (ListHead.ofElement node).at left.roots.head? := by
        rw [← firstLeft]
        exact called.next_head (follows.isHead readyLeft)
      have inner := inductionHypothesis called readyLeft (fewer.trans enoughBelow)
      have readyBeside := follows.siblings isReady enoughBelow
      rw [firstLeft] at readyBeside
      have rest := inductionHypothesis inner readyBeside enoughBeside
      -- where the list of children is empty, the traversal of it would end at once
      have descent : (if (!Raw.listEmpty (rawCb m g node).links (.eChilds node)) = true then
            Raw.foreachElement rawCb g (.eChilds node) fuel (rawCb m g node)
              ((rawCb m g node).links.next (.eChilds node))
              ((rawCb m g node).links.next ((rawCb m g node).links.next (.eChilds node)))
          else rawCb m g node) =
          Raw.foreachElement rawCb g (.eChilds node) fuel (rawCb m g node)
            ((rawCb m g node).links.next (.eChilds node))
            ((rawCb m g node).links.next ((rawCb m g node).links.next (.eChilds node))) := by
        split_ifs with some
        · rfl
        · have empty : (rawCb m g node).links.next (.eChilds node) = .eChilds node := by
            simpa [Raw.listEmpty] using some
          rw [empty, Raw.foreachElement_end]
      change (Raw.foreachElement rawCb g head.node (fuel + 1) m (.eList node)
        (m.links.next (.eList node))).Refines
          (state (Bmon.foreachElement _ cb g (fuel + 1) data (some node)))
      rw [refines.next_at refines.valid.store (follows.hangs isReady), Raw.foreachElement,
        if_neg (eList_ne_node node head)]
      simp only [ListNode.element, Bmon.foreachElement]
      rw [(follows.hangs isReady).eNext, firstLeft, descent, first]
      exact rest

/-- What is left of a loop over groups. `holds` is an invariant of the loop over the groups that
are not reached yet. -/
structure Raw.FollowsGroups (state : Data → State)
    (rawCb : Memory → GroupPtr → ElementPtr → Memory) (cb : Data → GroupPtr → ElementPtr → Data)
    (holds : Data → List GroupPtr → Prop) : Prop where
  listed : ∀ {data groups}, holds data groups → groups <:+ (state data).store.groupList
  first : ∀ {data g rest}, holds data (g :: rest) →
    ∃ (ready : Data → ListHead → Forest ElementPtr → Prop) (forest : Forest ElementPtr),
      Raw.Follows state rawCb cb g ready ∧ ready data (.ofGroup g) forest ∧
      (state data).store.lists (.ofGroup g) = forest.roots ∧
      forest.preorder.length ≤ (state data).store.nextElement
  rest : ∀ {data g rest}, holds data (g :: rest) →
    holds (groupForeachElement (fun data => (state data).store) cb data g) rest

/-- The loop over the groups on pointers follows that on lists. -/
theorem Raw.FollowsGroups.foreachGroup {holds : Data → List GroupPtr → Prop}
    (follows : Raw.FollowsGroups state rawCb cb holds) {fuel : Nat} {m : Memory} {data : Data}
    {groups : List GroupPtr} (refines : m.Refines (state data)) (initial : holds data groups)
    (enough : groups.length ≤ fuel) :
    (Raw.foreachGroup rawCb fuel m ((groups.head?.map ListNode.gList).getD .groupList)
      (m.links.next ((groups.head?.map ListNode.gList).getD .groupList))).Refines
        (state (groups.foldl (groupForeachElement (fun data => (state data).store) cb) data)) := by
  induction groups generalizing fuel m data with
  | nil =>
    cases fuel with
    | zero => exact refines
    | succ fuel =>
      rw [Raw.foreachGroup, if_pos (by rfl)]
      exact refines
  | cons g groups inductionHypothesis =>
    cases fuel with
    | zero => cases enough
    | succ fuel =>
      obtain ⟨ready, forest, followsGroup, isReady, list, short⟩ := follows.first initial
      have fuelSame : m.records.nextElement = (state data).store.nextElement := by
        rw [refines.records]; rfl
      have first : m.links.next (.gElements g) = (ListHead.ofGroup g).at forest.roots.head? := by
        rw [← list]
        exact refines.next_head (followsGroup.isHead isReady)
      have walked : (Raw.foreachElement rawCb g (.gElements g) m.records.nextElement m
          (m.links.next (.gElements g)) (m.links.next (m.links.next (.gElements g)))).Refines
            (state (groupForeachElement (fun data => (state data).store) cb data g)) := by
        rw [first, fuelSame, groupForeachElement, Store.firstEntry, list]
        exact followsGroup.foreachElement refines isReady short
      have later := inductionHypothesis walked (follows.rest initial)
        (Nat.le_of_succ_le_succ enough)
      obtain ⟨before, split⟩ := follows.listed initial
      have nodup := refines.valid.store.groups_nodup
      rw [← split] at nodup
      have fresh : g ∉ before := fun member =>
        (List.nodup_append.mp nodup).2.2 g member g List.mem_cons_self rfl
      have member : g ∈ (state data).store.groupList := by
        rw [← split]
        exact List.mem_append_right _ List.mem_cons_self
      have next : m.links.next (.gList g) =
          (groups.head?.map ListNode.gList).getD .groupList := by
        rw [refines.next_gList member, ← split, Neighbours.next_append_cons fresh]
      change (Raw.foreachGroup rawCb (fuel + 1) m (.gList g)
        (m.links.next (.gList g))).Refines _
      rw [next, Raw.foreachGroup, if_neg (fun same => by cases same)]
      exact later

/-- `group_foreach_recursive` on pointers follows that on lists. -/
theorem Raw.FollowsGroups.groupForeachRecursive {holds : Data → List GroupPtr → Prop}
    (follows : Raw.FollowsGroups state rawCb cb holds) {m : Memory} {data : Data}
    (refines : m.Refines (state data)) (initial : holds data (state data).store.groupList) :
    (Raw.groupForeachRecursive rawCb m).Refines
      (state (Bmon.groupForeachRecursive (fun data => (state data).store) cb data)) := by
  have wf := refines.valid.store
  have bounded : (state data).store.groupList ⊆ List.range (state data).store.nextGroup :=
    fun g member => List.mem_range.mpr (wf.group_lt g member)
  have enough : (state data).store.groupList.length ≤ m.records.nextGroup := by
    rw [refines.records]
    exact (wf.groups_nodup.subperm bounded).length_le.trans_eq List.length_range
  unfold Raw.groupForeachRecursive Bmon.groupForeachRecursive
  rw [refines.next_groupList]
  exact follows.foreachGroup refines initial enough

end Follows

/-! ### The sweep -/

/-- A forest that the sweep has not reached, in a list whose head was allocated. -/
structure SweepReady (life : ElementPtr → Option UInt32) (st : State) (head : ListHead)
    (forest : Forest ElementPtr) : Prop where
  unswept : Unswept st life head forest
  wellFormed : st.store.WellFormed
  isHead : st.store.IsHead head.node

/-- Effects on other elements leave a forest ready. -/
theorem SweepReady.of_applyAll {life : ElementPtr → Option UInt32} {st : State} {head : ListHead}
    {forest : Forest ElementPtr} {effects : List Effect} (legal : LegalAll st effects)
    (wf : st.store.WellFormed) (isHead : st.store.IsHead head.node)
    (unswept : Unswept (applyAll st effects) life head forest) :
    SweepReady life (applyAll st effects) head forest :=
  ⟨unswept, applyAll_wellFormed legal wf, (isHead_applyAll legal).mpr isHead⟩

/-- The sweep on pointers follows the sweep on lists: a freed element leaves no children, and
what is freed or ticked is not behind it in its list. -/
theorem Raw.follows_elementCheckIfDead (g : GroupPtr) (life : ElementPtr → Option UInt32) :
    Raw.Follows id Raw.elementCheckIfDead Bmon.elementCheckIfDead g (SweepReady life) where
  hangs ready := ready.unswept.hangs
  isHead ready := ready.isHead
  calls ready refines := by
    obtain ⟨place, found, -⟩ := ready.unswept.hangs.laid.1
    exact refines.elementCheckIfDead g (by rw [id, found]; exact Option.some_ne_none place)
  childs {st head node below beside} ready := by
    obtain ⟨unswept, wf, -⟩ := ready
    obtain ⟨place, found, -⟩ := unswept.hangs.laid.1
    have isHead : st.store.IsHead (ListHead.ofElement node).node := wf.element_lt node place found
    by_cases one : life node = some 1
    · obtain ⟨free, legal⟩ := unswept.free one g
      have childless : (applyAll st (.tick node :: releaseTree node below)).store.lists
          (.ofElement node) = [] := by
        rw [applyAll_lists legal, unswept.hangs.laid.2.1, List.filter_eq_nil_iff]
        intro c child
        have freed := mem_freedBy_releaseTree (e := node).mpr
          (Or.inr (below.roots_subset_preorder child))
        exact fun kept => of_decide_eq_true kept freed
      refine ⟨.nil, ?_, Nat.zero_le _, ?_⟩
      · rw [free]
        exact childless
      · rw [free]
        refine SweepReady.of_applyAll legal wf isHead ⟨⟨trivial, List.nil_suffix, ?_,
          List.nodup_nil⟩, Nat.zero_le _, fun e member => by cases member⟩
        rw [childless]
        exact List.nodup_nil
    · have legal : LegalAll st [.tick node] := ⟨trivial, trivial⟩
      rw [unswept.keep one g]
      exact ⟨below, unswept.hangs.laid.2.1, le_rfl,
        SweepReady.of_applyAll legal wf isHead unswept.childs⟩
  siblings {fuel st head node below beside} ready enough := by
    obtain ⟨unswept, wf, isHead⟩ := ready
    obtain ⟨walked, legal⟩ := sweepNode_eq unswept
      (foreachElement_elementCheckIfDead (g := g) unswept.childs enough)
    have kept := SweepReady.of_applyAll legal wf isHead (unswept.siblings legal)
    rw [← walked] at kept
    exact kept

/-- The groups that the sweep has not reached. -/
theorem Raw.followsGroups_elementCheckIfDead (life : ElementPtr → Option UInt32)
    (forest : GroupPtr → Forest ElementPtr) :
    Raw.FollowsGroups id Raw.elementCheckIfDead Bmon.elementCheckIfDead fun st groups =>
      UnsweptGroups st life forest groups ∧ st.store.WellFormed ∧
        groups <:+ st.store.groupList where
  listed holds := holds.2.2
  first {st g rest} holds := by
    obtain ⟨unswept, wf, listed⟩ := holds
    obtain ⟨first, list⟩ := unswept.2 g List.mem_cons_self
    have isGroup : g ∈ st.store.groupList := listed.subset List.mem_cons_self
    exact ⟨SweepReady life, forest g, Raw.follows_elementCheckIfDead g life,
      ⟨first, wf, wf.isHead_ofGroup isGroup⟩, list, first.short⟩
  rest {st g rest} holds := by
    obtain ⟨unswept, wf, listed⟩ := holds
    obtain ⟨swept, legal⟩ := unswept.first
    refine ⟨unswept.rest, ?_, ?_⟩
    · change Store.WellFormed (groupForeachElement State.store Bmon.elementCheckIfDead st g).store
      rw [swept]
      exact applyAll_wellFormed legal wf
    · change rest <:+ (groupForeachElement State.store Bmon.elementCheckIfDead st g).store.groupList
      rw [swept, applyAll_groupList legal]
      exact (List.suffix_cons g rest).trans listed

theorem Memory.Refines.freeUnusedElements {m : Memory} {st : State} (refines : m.Refines st) :
    (Raw.freeUnusedElements m).Refines (freeUnusedElements st) := by
  obtain ⟨forest, represents⟩ := refines.valid.store.represents
  exact (Raw.followsGroups_elementCheckIfDead st.store.eLifecycles forest).groupForeachRecursive
    refines ⟨represents.unswept, refines.valid.store, List.suffix_refl _⟩

/-! ### Resetting flags -/

theorem SameShape.isHead {σ σ' : Store} (same : SameShape σ σ') {node : ListNode} :
    σ'.IsHead node ↔ σ.IsHead node := by
  cases node <;> simp [Store.IsHead, same.nextGroup, same.nextElement]

theorem sameShape_elementResetUpdateFlag (σ : Store) (g : GroupPtr) (e : ElementPtr) :
    SameShape σ (elementResetUpdateFlag σ g e) := sameShape_modifyElement σ e _ fun _ => rfl

/-- `reset_update_flags` leaves all links alone. -/
theorem Raw.follows_elementResetUpdateFlag (s : Selection) (g : GroupPtr) :
    Raw.Follows (fun σ => ⟨σ, s⟩) Raw.elementResetUpdateFlag Bmon.elementResetUpdateFlag g
      fun σ head forest => Hangs σ head forest ∧ σ.WellFormed ∧ σ.IsHead head.node where
  hangs ready := ready.1
  isHead ready := ready.2.2
  calls {m σ head node below beside} ready refines := by
    have same := sameShape_elementResetUpdateFlag σ g node
    refine ⟨?_, refines.valid.sameShape same⟩
    unfold Raw.elementResetUpdateFlag
    rw [refines.records]
    exact refines.toShows.sameShape same
  childs {σ head node below beside} ready := by
    obtain ⟨hangs, wf, -⟩ := ready
    have same := sameShape_elementResetUpdateFlag σ g node
    obtain ⟨place, found, -⟩ := hangs.laid.1
    have called := hangs.sameShape same
    exact ⟨below, called.laid.2.1, le_rfl, called.childs, wf.sameShape same,
      same.isHead.mpr (wf.element_lt node place found)⟩
  siblings {fuel σ head node below beside} ready _ := by
    obtain ⟨hangs, wf, isHead⟩ := ready
    have same : SameShape σ (Bmon.foreachElement (fun σ => σ) Bmon.elementResetUpdateFlag g fuel
        (Bmon.elementResetUpdateFlag σ g node)
        ((Bmon.elementResetUpdateFlag σ g node).firstEntry (.ofElement node))) :=
      foreachElement_invariant (fun σ' g e before =>
        before.trans (sameShape_elementResetUpdateFlag σ' g e)) g
        (sameShape_elementResetUpdateFlag σ g node) _
    exact ⟨hangs.siblings.sameShape same, wf.sameShape same, same.isHead.mpr isHead⟩

theorem Raw.followsGroups_elementResetUpdateFlag (s : Selection) :
    Raw.FollowsGroups (fun σ => ⟨σ, s⟩) Raw.elementResetUpdateFlag Bmon.elementResetUpdateFlag
      fun σ groups => σ.WellFormed ∧ groups <:+ σ.groupList where
  listed holds := holds.2
  first {σ g rest} holds := by
    obtain ⟨wf, listed⟩ := holds
    have isGroup : g ∈ σ.groupList := listed.subset List.mem_cons_self
    obtain ⟨forest, represents⟩ := wf.represents
    exact ⟨_, forest g, Raw.follows_elementResetUpdateFlag s g,
      ⟨represents.hangs isGroup, wf, wf.isHead_ofGroup isGroup⟩, represents.roots g isGroup,
      represents.length_le isGroup⟩
  rest {σ g rest} holds := by
    have same : SameShape σ (groupForeachElement (fun σ => σ) Bmon.elementResetUpdateFlag σ g) :=
      foreachElement_invariant (fun σ' g e before =>
        before.trans (sameShape_elementResetUpdateFlag σ' g e)) g (SameShape.refl σ) _
    refine ⟨holds.1.sameShape same, ?_⟩
    change rest <:+ (groupForeachElement (fun σ => σ) Bmon.elementResetUpdateFlag σ g).groupList
    rw [same.groupList]
    exact (List.suffix_cons g rest).trans holds.2

theorem Memory.Refines.resetUpdateFlags {m : Memory} {st : State} (refines : m.Refines st) :
    (Raw.resetUpdateFlags m).Refines { st with store := resetUpdateFlags st.store } :=
  (Raw.followsGroups_elementResetUpdateFlag st.selection).groupForeachRecursive refines
    ⟨refines.valid.store, List.suffix_refl _⟩

/-! ### The program -/

/-- The calls of the input modules. -/
theorem Memory.Refines.inputApply {cfg : Config} {m : Memory} {st : State} {op : InputOp}
    {σ : Store} (refines : m.Refines st) (called : op.apply cfg st.store = some σ) :
    ∃ m', Raw.inputApply cfg m op = some m' ∧
      m'.Shows ⟨σ, if σ.nextGroup = st.store.nextGroup then st.selection
        else st.selection.setCurrent st.store.nextGroup none⟩ := by
  have wf := refines.valid.store
  cases op with
  | groupNewHdr hdr =>
    obtain rfl := Option.some.inj called
    have same := (sameStanding_groupNewHdr st.store hdr).toSameShape
    refine ⟨_, rfl, ?_⟩
    rw [refines.records, groupNewHdr_withoutLists, if_pos same.nextGroup]
    exact refines.toShows.sameShape same
  | groupNewDerivedHdr name title template =>
    obtain rfl := Option.some.inj called
    have same := (sameStanding_groupNewDerivedHdr st.store name title template).toSameShape
    refine ⟨_, rfl, ?_⟩
    rw [refines.records, groupNewDerivedHdr_withoutLists, if_pos same.nextGroup]
    exact refines.toShows.sameShape same
  | groupLookup name create =>
    obtain rfl := Option.some.inj called
    exact ⟨_, rfl, (refines.toShows.groupLookup wf name create).1⟩
  | elementLookup group name id parent creat =>
    rw [InputOp.apply] at called
    split_ifs at called with held
    obtain rfl := Option.some.inj called
    refine ⟨_, rfl, ?_⟩
    have handed : (Bmon.elementLookup cfg st.store group name id parent creat).1.nextGroup =
        st.store.nextGroup := by
      obtain same | ⟨-, created⟩ := elementLookup_cases cfg st.store group name id parent creat
      · rw [same]
      · rw [created]
        exact (sameStanding_elementCreate cfg st.store group name id parent).nextGroup
    rw [if_pos handed]
    exact (refines.toShows.elementLookup wf cfg name id creat held.1 held.2).1
  | onElement e op =>
    rw [InputOp.apply] at called
    split_ifs at called
    have same : SameShape st.store σ := by
      by_cases life : op = .lifesign
      · subst life
        obtain rfl := Option.some.inj called
        exact sameShape_elementLifesign cfg st.store e 1
      · exact (ElementOp.sameStanding called life).toSameShape
    refine ⟨{ m with records := σ.withoutLists }, ?_, ?_⟩
    · rw [Raw.inputApply, refines.records, ElementOp.apply_withoutLists, called]
      rfl
    · rw [if_pos same.nextGroup]
      exact refines.toShows.sameShape same

/-- Every call of the program on lists is one on pointers. -/
theorem Memory.Refines.step {cfg : Config} {m : Memory} {st next : State} {op : Op}
    (refines : m.Refines st) (stepped : step cfg st op = some next) :
    ∃ m', Raw.step cfg m op = some m' ∧ m'.Refines next := by
  have valid := step_valid refines.valid stepped
  cases op with
  | input op =>
    obtain ⟨σ, called, rfl⟩ := Option.map_eq_some_iff.mp stepped
    obtain ⟨m', returned, shows⟩ := refines.inputApply called
    exact ⟨m', returned, shows, valid⟩
  | output op =>
    obtain rfl := Option.some.inj stepped
    exact ⟨_, rfl, refines.toShows.outputApply refines.valid.selection refines.valid.store op,
      valid⟩
  | resetUpdateFlags =>
    obtain rfl := Option.some.inj stepped
    exact ⟨_, rfl, refines.resetUpdateFlags⟩
  | freeUnusedElements =>
    obtain rfl := Option.some.inj stepped
    exact ⟨_, rfl, refines.freeUnusedElements⟩
  | decrement e =>
    rw [Bmon.step] at stepped
    split_ifs at stepped
    obtain rfl := Option.some.inj stepped
    refine ⟨_, rfl, ?_, valid⟩
    rw [refines.records]
    exact refines.toShows.sameShape (sameShape_modifyElement st.store e Element.tick fun _ => rfl)
  | elementFree e =>
    rw [Bmon.step] at stepped
    split_ifs at stepped with present
    obtain rfl := Option.some.inj stepped
    exact ⟨_, rfl, refines.elementFree (place_ne_none present)⟩

/-- At the start only `group_list` is a list. -/
theorem refines_start (titles : List GroupHdr) (cfgs : List ElementCfg)
    (allowed denied : List Policy) (garbage : Links ListNode) :
    (Raw.start titles cfgs allowed denied garbage).Refines
      (State.start titles cfgs allowed denied) := by
  have only : ∀ head, (Store.start titles cfgs allowed denied).IsHead head →
      head = .groupList := fun head holds => by
    cases head with
    | groupList => rfl
    | gElements g => cases holds
    | eChilds e => cases holds
    | _ => cases holds
  refine ⟨⟨rfl, ⟨fun head holds => ?_, fun head head' holds holds' other => ?_⟩, rfl⟩,
    valid_stateStart titles cfgs allowed denied⟩
  · rw [only head holds]
    exact Links.ring_init garbage .groupList
  · exact absurd ((only head holds).trans (only head' holds').symm) other

/-- Every run on lists is one on pointers. -/
theorem raw_run {cfg : Config} {titles : List GroupHdr} {cfgs : List ElementCfg}
    {allowed denied : List Policy} (garbage : Links ListNode) {ops : List Op} {st : State}
    (ran : Runs.run (step cfg) (State.start titles cfgs allowed denied) ops = some st) :
    ∃ m, Runs.run (Raw.step cfg) (Raw.start titles cfgs allowed denied garbage) ops = some m ∧
      m.Refines st :=
  Runs.run_simulation Memory.Refines
    (fun _ st op next refines (stepped : step cfg st op = some next) => refines.step stepped)
    (refines_start titles cfgs allowed denied garbage) ran

/-- **The lists of the program are what its pointers make them.** In every run of the program,
whatever the memory holds at the start, the same calls on pointers, with the loops and writes of
`list.h`, are possible and lead to a memory with the same records and the same selection, whose
links are rings of exactly the entries of the lists. -/
theorem raw_refines (cfg : Config) (titles : List GroupHdr) (cfgs : List ElementCfg)
    (allowed denied : List Policy) (garbage : Links ListNode) (ops : List Op) (st : State)
    (ran : Runs.run (step cfg) (State.start titles cfgs allowed denied) ops = some st) :
    ∃ m, Runs.run (Raw.step cfg) (Raw.start titles cfgs allowed denied garbage) ops = some m ∧
      m.Shows st := by
  obtain ⟨m, ran', refines⟩ := raw_run garbage ran
  exact ⟨m, ran', refines.toShows⟩

/-- A group with an element and its child, which is freed while it is selected, and another
child in its place. -/
def childReplaced : List Op :=
  parentAndChild.map Op.input ++ [.output .elementSelectLast, .elementFree 1,
    .input (.elementLookup 0 (CString.ofMemory ['v', 'l', 'a', 'n']) 2 (some 0) true)]

/-- The links of the parent lead to the new child and back. -/
theorem raw_refines_child :
    ∃ st m, Runs.run (step (confInitPost {})) (State.start [] [] [] []) childReplaced = some st ∧
      Runs.run (Raw.step (confInitPost {})) (Raw.start [] [] [] [] ⟨id, id⟩) childReplaced =
        some m ∧
      m.Shows st ∧ st.store.lists (.ofElement 0) = [2] ∧
      m.links.next (.eChilds 0) = .eList 2 ∧ m.links.next (.eList 2) = .eChilds 0 := by
  have run : (Runs.run (step (confInitPost {})) (State.start [] [] [] []) childReplaced).map
      (fun st => st.store.lists (.ofElement 0)) = some [2] := by decide +kernel
  have rawRun : (Runs.run (Raw.step (confInitPost {})) (Raw.start [] [] [] [] ⟨id, id⟩)
      childReplaced).map (fun m => (m.links.next (.eChilds 0), m.links.next (.eList 2))) =
      some (.eList 2, .eChilds 0) := by decide +kernel
  obtain ⟨st, ran, list⟩ := Option.map_eq_some_iff.mp run
  obtain ⟨m, ran', shows⟩ := raw_refines _ _ _ _ _ ⟨id, id⟩ _ st ran
  rw [ran'] at rawRun
  obtain ⟨first, last⟩ := Prod.mk.inj (Option.some.inj rawRun)
  exact ⟨st, m, ran, ran', shows, list, first, last⟩

/-! ### Dangling links -/

/-- The links in records that are not freed. -/
def Store.Live (σ : Store) : ListNode → Prop
  | .groupList => True
  | .gList g => g ∈ σ.groupList
  | .gElements g => g ∈ σ.groupList
  | .eList e => (σ.elements e).isSome
  | .eChilds e => (σ.elements e).isSome

namespace Store.WellFormed

variable {σ : Store} (wf : σ.WellFormed)

include wf

/-- A list of a record that is not freed has only elements that are not freed. -/
theorem live_list {head : ListHead} (live : σ.Live head.node) {node : ListNode}
    (member : node ∈ head.node :: σ.entries head.node) : σ.Live node := by
  rcases List.mem_cons.mp member with rfl | inList
  · exact live
  · rw [σ.entries_node] at inList
    obtain ⟨e, linked, rfl⟩ := List.mem_map.mp inList
    exact Option.isSome_map.symm.trans (Option.isSome_iff_ne_none.mpr (wf.present_of_mem linked))

/-- Every node that is not freed is in a ring of nodes that are not freed. -/
theorem live_ring {node : ListNode} (live : σ.Live node) :
    ∃ head, σ.IsHead head ∧ node ∈ head :: σ.entries head ∧
      ∀ other ∈ head :: σ.entries head, σ.Live other := by
  have groups : ∀ other ∈ ListNode.groupList :: σ.entries .groupList, σ.Live other :=
    fun other member => by
      rcases List.mem_cons.mp member with rfl | inList
      · exact trivial
      · obtain ⟨g, isGroup, rfl⟩ := List.mem_map.mp inList
        exact isGroup
  cases node with
  | groupList => exact ⟨.groupList, trivial, List.mem_cons_self, groups⟩
  | gList g =>
    exact ⟨.groupList, trivial, List.mem_cons_of_mem _ (List.mem_map_of_mem live), groups⟩
  | gElements g =>
    have owner : σ.Live (ListHead.ofGroup g).node := live
    exact ⟨_, wf.isHead_ofGroup live, List.mem_cons_self,
      fun _ member => wf.live_list owner member⟩
  | eList e =>
    obtain ⟨place, found⟩ := Option.ne_none_iff_exists'.mp (place_ne_none live)
    have linked : ListNode.eList e ∈ σ.entries place.head.node := by
      rw [σ.entries_node]
      exact List.mem_map_of_mem (wf.linked e place found)
    have owner : σ.Live place.head.node := by
      cases parent : place.parent with
      | none =>
        rw [head_eq_ofGroup_iff.mpr ⟨parent, rfl⟩]
        exact wf.grouped e place found
      | some p =>
        obtain ⟨-, above, presentAbove, -⟩ := wf.parent e place p found parent
        rw [head_eq_ofElement_iff.mpr parent]
        exact Option.isSome_map.symm.trans (Option.isSome_iff_exists.mpr ⟨above, presentAbove⟩)
    exact ⟨_, wf.isHead_place found, List.mem_cons_of_mem _ linked,
      fun _ member => wf.live_list owner member⟩
  | eChilds e =>
    have owner : σ.Live (ListHead.ofElement e).node := live
    exact ⟨_, wf.isHead_ofElement (place_ne_none live), List.mem_cons_self,
      fun _ member => wf.live_list owner member⟩

end Store.WellFormed

/-- **No link of a record in use dangles.** In the memory after every run, the links of every
record that is not freed lead to records that are not freed, and back; and following them from
the head of a list, in either direction, meets the entries of that list once each and ends. -/
theorem raw_live (cfg : Config) (titles : List GroupHdr) (cfgs : List ElementCfg)
    (allowed denied : List Policy) (garbage : Links ListNode) (ops : List Op) (st : State)
    (m : Memory) (ran : Runs.run (step cfg) (State.start titles cfgs allowed denied) ops = some st)
    (ran' : Runs.run (Raw.step cfg) (Raw.start titles cfgs allowed denied garbage) ops = some m) :
    (∀ node, st.store.Live node →
      st.store.Live (m.links.next node) ∧ st.store.Live (m.links.prev node) ∧
      m.links.prev (m.links.next node) = node ∧ m.links.next (m.links.prev node) = node) ∧
    ∀ head : ListHead, st.store.Live head.node →
      m.links.walk head.node m.records.nextElement (m.links.next head.node) =
        (st.store.lists head).map .eList ∧
      m.links.reverse.walk head.node m.records.nextElement (m.links.prev head.node) =
        ((st.store.lists head).map .eList).reverse := by
  obtain ⟨m', again, shows, valid⟩ := raw_run garbage ran
  obtain rfl := Option.some.inj (ran'.symm.trans again)
  have wf := valid.store
  refine ⟨fun node live => ?_, fun head live => ?_⟩
  · obtain ⟨head, isHead, member, all⟩ := wf.live_ring live
    have ring := shows.rings.ring head isHead
    exact ⟨all _ (ring.next_mem member), all _ (ring.prev_mem member), ring.prev_next member,
      ring.next_prev member⟩
  · have isHead : st.store.IsHead head.node := by
      cases head with
      | ofGroup g => exact wf.isHead_ofGroup live
      | ofElement e => exact wf.isHead_ofElement (place_ne_none live)
    have ring := shows.rings.ring _ isHead
    rw [st.store.entries_node] at ring
    have enough : ((st.store.lists head).map ListNode.eList).length ≤ m.records.nextElement := by
      rw [shows.records, List.length_map]
      exact wf.length_lists head
    exact ⟨ring.walk_eq enough,
      ring.reverse.walk_eq (by rw [List.length_reverse]; exact enough)⟩

/-- The same run, with the links read from the parent on. -/
theorem raw_live_child :
    ∃ m, Runs.run (Raw.step (confInitPost {})) (Raw.start [] [] [] [] ⟨id, id⟩) childReplaced =
        some m ∧
      m.links.prev (m.links.next (.eChilds 0)) = .eChilds 0 ∧
      m.links.walk (.eChilds 0) m.records.nextElement (m.links.next (.eChilds 0)) =
        [.eList 2] := by
  have run : (Runs.run (step (confInitPost {})) (State.start [] [] [] []) childReplaced).map
      (fun st => ((st.store.elements 0).isSome, st.store.lists (.ofElement 0))) =
        some (true, [2]) := by decide +kernel
  obtain ⟨st, ran, facts⟩ := Option.map_eq_some_iff.mp run
  obtain ⟨present, list⟩ := Prod.mk.inj facts
  obtain ⟨m, ran', -⟩ := raw_run ⟨id, id⟩ ran
  obtain ⟨links, walks⟩ := raw_live _ _ _ _ _ _ _ st m ran ran'
  refine ⟨m, ran', (links (.eChilds 0) present).2.2.1, ?_⟩
  have walked := (walks (.ofElement 0) present).1
  rwa [list] at walked

end Bmon
