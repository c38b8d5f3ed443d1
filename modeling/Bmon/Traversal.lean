/-
This file shows what the traversals of `group.c` meet: the nodes of the forests in preorder.

This holds as long as the callback keeps the shape of the store, as the drawing functions and
`element_reset_update_flag` do. The sweep is treated in `Bmon.SweepEffects`.
-/

import Bmon.Layout
import Bmon.Sweep

namespace Bmon

variable {Data : Type*} {view : Data → Store} {cb : Data → GroupPtr → ElementPtr → Data}

/-- What every callback preserves, a traversal preserves. -/
theorem foreachElement_invariant {invariant : Data → Prop}
    (preserves : ∀ data g e, invariant data → invariant (cb data g e)) (g : GroupPtr)
    {fuel : Nat} {data : Data} (initial : invariant data) (pos : Option ElementPtr) :
    invariant (foreachElement view cb g fuel data pos) := by
  induction fuel generalizing data pos with
  | zero => cases pos <;> exact initial
  | succ fuel inductionHypothesis =>
    cases pos with
    | none => exact initial
    | some e =>
      exact inductionHypothesis (inductionHypothesis (preserves data g e initial) _) _

theorem groupForeachRecursive_invariant (cb : Data → GroupPtr → ElementPtr → Data)
    {invariant : Data → Prop}
    (preserves : ∀ data g e, invariant data → invariant (cb data g e)) {data : Data}
    (initial : invariant data) : invariant (groupForeachRecursive view cb data) := by
  unfold groupForeachRecursive
  generalize (view data).groupList = groups
  induction groups generalizing data with
  | nil => exact initial
  | cons g groups inductionHypothesis =>
    exact inductionHypothesis (foreachElement_invariant preserves g initial _)

/-- The callback keeps the shape of the store. -/
def KeepsShape (view : Data → Store) (cb : Data → GroupPtr → ElementPtr → Data) : Prop :=
  ∀ data g e, SameShape (view data) (view (cb data g e))

theorem Hangs.sameShape {σ σ' : Store} (same : SameShape σ σ') {head : ListHead}
    {forest : Forest ElementPtr} (hangs : Hangs σ head forest) : Hangs σ' head forest where
  laid := hangs.laid.congr fun e _ => ⟨congrFun same.place e, congrFun same.lists _⟩
  rest := by
    rw [same.lists]
    exact hangs.rest
  list_nodup := by
    rw [same.lists]
    exact hangs.list_nodup
  nodup := hangs.nodup

/-- A fold of the callback keeps the shape. -/
theorem KeepsShape.foldl (keeps : KeepsShape view cb) (g : GroupPtr) (nodes : List ElementPtr)
    (data : Data) :
    SameShape (view data) (view (nodes.foldl (fun data e => cb data g e) data)) := by
  induction nodes generalizing data with
  | nil => exact SameShape.refl _
  | cons e nodes inductionHypothesis =>
    exact (keeps data g e).trans (inductionHypothesis (cb data g e))

/-- The traversal of a forest runs the callback on its nodes in preorder. -/
theorem foreachElement_eq_foldl (keeps : KeepsShape view cb) (g : GroupPtr) {fuel : Nat}
    {data : Data} {head : ListHead} {forest : Forest ElementPtr}
    (hangs : Hangs (view data) head forest) (enough : forest.preorder.length ≤ fuel) :
    foreachElement view cb g fuel data forest.roots.head? =
      forest.preorder.foldl (fun data e => cb data g e) data := by
  induction forest generalizing fuel data head with
  | nil => cases fuel <;> rfl
  | cons e childs siblings childsHypothesis siblingsHypothesis =>
    cases fuel with
    | zero => simp [Forest.preorder] at enough
    | succ fuel =>
      simp only [Forest.preorder, List.length_cons, List.length_append] at enough
      have called := hangs.sameShape (keeps data g e)
      have enoughBelow : childs.preorder.length ≤ fuel := by omega
      have below := childsHypothesis called.childs enoughBelow
      have after := called.siblings.sameShape (keeps.foldl g childs.preorder (cb data g e))
      simp only [Forest.roots, List.head?_cons, foreachElement, Forest.preorder, List.foldl_cons,
        List.foldl_append]
      rw [hangs.eNext, called.firstEntry, below]
      exact siblingsHypothesis after (by omega)

/-- The traversal of all groups runs the callback on the nodes of each group in preorder. -/
theorem groupForeachRecursive_eq_foldl (keeps : KeepsShape view cb) (data : Data)
    {forest : GroupPtr → Forest ElementPtr} (represents : Represents (view data) forest) :
    groupForeachRecursive view cb data =
      (view data).groupList.foldl
        (fun data g => (forest g).preorder.foldl (fun data e => cb data g e) data) data := by
  unfold groupForeachRecursive
  suffices general : ∀ groups, groups ⊆ (view data).groupList → ∀ data',
      SameShape (view data) (view data') →
      groups.foldl (groupForeachElement view cb) data' =
        groups.foldl (fun data g => (forest g).preorder.foldl (fun data e => cb data g e) data)
          data' from
    general _ (List.Subset.refl _) data (SameShape.refl _)
  intro groups
  induction groups with
  | nil => exact fun _ _ _ => rfl
  | cons g groups inductionHypothesis =>
    intro inList data' same
    have member := inList List.mem_cons_self
    have hangs := (represents.hangs member).sameShape same
    have walked : groupForeachElement view cb data' g =
        (forest g).preorder.foldl (fun data e => cb data g e) data' := by
      rw [groupForeachElement, Store.firstEntry, same.lists, represents.roots g member]
      refine foreachElement_eq_foldl keeps g hangs ?_
      rw [same.nextElement]
      exact represents.length_le member
    rw [List.foldl_cons, List.foldl_cons, walked]
    exact inductionHypothesis (fun x inRest => inList (List.mem_cons_of_mem _ inRest)) _
      (same.trans (keeps.foldl g _ _))

/-- What the outputs draw: the nodes of all groups in preorder, each with its group. -/
theorem displayOrder_eq {σ : Store} {forest : GroupPtr → Forest ElementPtr}
    (represents : Represents σ forest) :
    displayOrder σ =
      σ.groupList.flatMap fun g => (forest g).preorder.map fun e => (g, e) := by
  have collect : ∀ (g : GroupPtr) (nodes : List ElementPtr) (drawn : List (GroupPtr × ElementPtr)),
      nodes.foldl (fun drawn e => drawn ++ [(g, e)]) drawn =
        drawn ++ nodes.map fun e => (g, e) := by
    intro g nodes
    induction nodes with
    | nil => exact fun drawn => (List.append_nil drawn).symm
    | cons e nodes inductionHypothesis =>
      intro drawn
      rw [List.foldl_cons, inductionHypothesis, List.append_assoc, List.singleton_append,
        List.map_cons]
  have keeps : KeepsShape (fun _ => σ) fun (drawn : List (GroupPtr × ElementPtr)) g e =>
      drawn ++ [(g, e)] := fun _ _ _ => SameShape.refl σ
  have walked := groupForeachRecursive_eq_foldl keeps [] represents
  rw [displayOrder, walked]
  simp only [collect]
  rw [List.flatMap_eq_foldl]

/-- `reset_update_flags` changes flags only. -/
theorem sameStanding_resetUpdateFlags (σ : Store) : SameStanding σ (resetUpdateFlags σ) :=
  groupForeachRecursive_invariant elementResetUpdateFlag
    (fun _ _ _ same => same.trans (sameStanding_modifyElement _ _ _ (fun _ => rfl) fun _ => rfl))
    (SameStanding.refl σ)

end Bmon
