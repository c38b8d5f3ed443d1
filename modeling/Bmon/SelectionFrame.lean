/-
This file shows when freeing an element in one group leaves the selection in another one alone.

`element_free` repairs the selection of the group of the element, but it does so with
`element_select_prev`, which moves the selection of the current group. So wherever the element or
one below it is selected in its own group, the current group is the one that changes: another
element is selected in it, or the group before it becomes the current one. Only two kinds of states
are spared: those whose current group is empty, and those of two groups where the selection leaves
the current group and comes back to it, since the group it moved to has lost its last element.
-/

import Bmon.EmptyGroups

namespace Bmon

/-! ### The forest in a list -/

/-- A list holds only one forest. -/
theorem Laid.unique {σ : Store} {head : ListHead} {forest other : Forest ElementPtr}
    (laid : Laid σ head forest) (laidOther : Laid σ head other)
    (roots : forest.roots = other.roots) : forest = other := by
  induction forest generalizing head other with
  | nil =>
    cases other with
    | nil => rfl
    | cons node childs siblings => cases roots
  | cons node childs siblings childsHypothesis siblingsHypothesis =>
    cases other with
    | nil => cases roots
    | cons node' childs' siblings' =>
      obtain ⟨rfl, sameRoots⟩ := List.cons.inj roots
      obtain ⟨-, list, below, beside⟩ := laid
      obtain ⟨-, list', below', beside'⟩ := laidOther
      rw [childsHypothesis below below' (list.symm.trans list'),
        siblingsHypothesis beside beside' sameRoots]

/-- An element is reached from another one by going to the last child any number of times. -/
def Store.LastBelow (σ : Store) : ElementPtr → ElementPtr → Prop :=
  Relation.ReflTransGen fun p c => σ.lastEntry (.ofElement p) = some c

/-- The last branch of a forest that is laid in a store. -/
theorem Laid.mem_lastBranch_iff {σ : Store} {head : ListHead} {forest : Forest ElementPtr}
    (laid : Laid σ head forest) {x : ElementPtr} :
    x ∈ forest.lastBranch ↔ ∃ root, forest.roots.getLast? = some root ∧ σ.LastBelow root x := by
  induction forest generalizing head with
  | nil => exact iff_of_false List.not_mem_nil nofun
  | cons node childs siblings childsHypothesis siblingsHypothesis =>
    obtain ⟨-, list, laidChilds, laidSiblings⟩ := laid
    cases siblings with
    | nil =>
      have below := childsHypothesis laidChilds
      rw [← list] at below
      rw [Forest.lastBranch, List.mem_cons, below, Forest.roots, Forest.roots,
        List.getLast?_singleton]
      constructor
      · rintro (rfl | ⟨root, last, path⟩)
        · exact ⟨x, rfl, .refl⟩
        · exact ⟨node, rfl, .head last path⟩
      · rintro ⟨root, same, path⟩
        obtain rfl := Option.some.inj same
        obtain rfl | ⟨c, last, path⟩ := path.cases_head
        · exact Or.inl rfl
        · exact Or.inr ⟨c, last, path⟩
    | cons next below beside =>
      rw [Forest.lastBranch, siblingsHypothesis laidSiblings]
      rfl

/-! ### The repair -/

theorem elementSelectLast_gCurrent {σ : Store} {s : Selection} {g : GroupPtr}
    (other : (elementSelectLast σ s).currentGroup ≠ some g) :
    (elementSelectLast σ s).gCurrent g = s.gCurrent g := by
  rw [← gCurrent_groupCurrent σ s]
  unfold elementSelectLast at other ⊢
  cases current : (groupCurrent σ s).currentGroup with
  | none => simp only [current]
  | some c =>
    simp only [current] at other ⊢
    exact if_neg fun same : g = c => other (current.trans (congrArg some same.symm))

/-- `element_select_prev` changes only what is selected in the group that is current then. -/
theorem elementSelectPrev_gCurrent {σ : Store} {s : Selection} {g : GroupPtr}
    (other : (elementSelectPrev σ s).currentGroup ≠ some g) :
    (elementSelectPrev σ s).gCurrent g = s.gCurrent g := by
  have groupPrev (s : Selection) : (groupSelectPrev σ s).gCurrent = s.gCurrent := by
    unfold groupSelectPrev
    split
    · rfl
    · split <;> rfl
  have set {s : Selection} {c : GroupPtr} {e : Option ElementPtr}
      (current : s.currentGroup = some c) (other : (s.setCurrent c e).currentGroup ≠ some g) :
      (s.setCurrent c e).gCurrent g = s.gCurrent g :=
    if_neg fun same : g = c => other (current.trans (congrArg some same.symm))
  rw [← gCurrent_groupCurrent σ s]
  unfold elementSelectPrev at other ⊢
  cases current : (groupCurrent σ s).currentGroup with
  | none => simp only [current]
  | some c =>
    simp only [current] at other ⊢
    cases selected : (groupCurrent σ s).gCurrent c with
    | none =>
      simp only [selected] at other ⊢
      exact elementSelectLast_gCurrent other
    | some e =>
      simp only [selected] at other ⊢
      cases prev : σ.ePrev e with
      | some p =>
        simp only [prev] at other ⊢
        exact set current other
      | none =>
        cases parent : σ.eParent e with
        | some p =>
          simp only [prev, parent] at other ⊢
          exact set current other
        | none =>
          simp only [prev, parent] at other ⊢
          rw [elementSelectLast_gCurrent other, groupPrev]

section Repair

variable {st : State} {h : GroupPtr} {e : ElementPtr} (group : st.store.eGroup e = some h)

include group

/-- There is no repair where another element is selected in the group. -/
theorem elementUnselect_other (other : st.selection.gCurrent h ≠ some e) :
    elementUnselect st e = st := by
  obtain ⟨place, present, rfl⟩ := eGroup_eq_some_iff.mp group
  obtain ⟨r, found, rfl⟩ := place_eq_some_iff.mp present
  unfold elementUnselect
  simp only [found]
  exact if_neg other

/-- The repair moves the selection of the current group; where the element is selected in its own
group then, nothing is selected there. -/
theorem elementUnselect_selected (selected : st.selection.gCurrent h = some e) :
    (elementUnselect st e).selection =
      if (elementSelectPrev st.store st.selection).gCurrent h = some e then
        (elementSelectPrev st.store st.selection).setCurrent h none
      else elementSelectPrev st.store st.selection := by
  obtain ⟨place, present, rfl⟩ := eGroup_eq_some_iff.mp group
  obtain ⟨r, found, rfl⟩ := place_eq_some_iff.mp present
  unfold elementUnselect
  simp only [found]
  exact congrArg State.selection (if_pos selected)

end Repair

/-! ### Several releases -/

/-- The elements that are released all belong to a group, and no element is released twice. -/
structure Releases (st : State) (h : GroupPtr) (nodes : List ElementPtr) : Prop where
  legal : LegalAll st (nodes.map Effect.release)
  group : ∀ e ∈ nodes, st.store.eGroup e = some h
  nodup : nodes.Nodup

/-- The rest of them, after the first one. -/
theorem Releases.tail {st : State} {h : GroupPtr} {e : ElementPtr} {nodes : List ElementPtr}
    (releases : Releases st h (e :: nodes)) : Releases (elementRelease st e) h nodes := by
  obtain ⟨fresh, nodup⟩ := List.nodup_cons.mp releases.nodup
  refine ⟨releases.legal.2, fun x member => ?_, nodup⟩
  have other : x ∉ (Effect.release e).freed := fun isFreed =>
    fresh (Option.some.inj isFreed ▸ member)
  have place := Effect.apply_place releases.legal.1 x
  rw [if_neg other] at place
  rw [Store.eGroup, show (elementRelease st e).store.place x = st.store.place x from place]
  exact releases.group x (List.mem_cons_of_mem e member)

/-- The ones behind a first part. -/
theorem Releases.behind {st : State} {h : GroupPtr} {before after : List ElementPtr}
    (releases : Releases st h (before ++ after)) :
    Releases (applyAll st (before.map Effect.release)) h after := by
  induction before generalizing st with
  | nil => exact releases
  | cons e before inductionHypothesis => exact inductionHypothesis releases.tail

theorem Releases.front {st : State} {h : GroupPtr} {before after : List ElementPtr}
    (releases : Releases st h (before ++ after)) : Releases st h before := by
  refine ⟨?_, fun e member => releases.group e (List.mem_append_left _ member),
    (List.nodup_append.mp releases.nodup).1⟩
  have legal := releases.legal
  rw [List.map_append] at legal
  exact (legalAll_append.mp legal).1

/-- As long as none of them is selected in its group, the selection stays. -/
theorem Releases.selection_other {st : State} {h : GroupPtr} {nodes : List ElementPtr}
    (releases : Releases st h nodes) (other : ∀ e ∈ nodes, st.selection.gCurrent h ≠ some e) :
    (applyAll st (nodes.map Effect.release)).selection = st.selection := by
  induction nodes generalizing st with
  | nil => rfl
  | cons e nodes inductionHypothesis =>
    have same : (elementRelease st e).selection = st.selection := by
      rw [elementRelease_selection, elementUnselect_other (releases.group e List.mem_cons_self)
        (other e List.mem_cons_self)]
    refine Eq.trans ?_ same
    refine inductionHypothesis releases.tail fun x member => ?_
    show (elementRelease st e).selection.gCurrent h ≠ some x
    rw [same]
    exact other x (List.mem_cons_of_mem e member)

/-- The last node of a list, after one node is taken out of it. -/
theorem getLast?_filter_ne {nodes : List ElementPtr} {e last : ElementPtr}
    (isLast : nodes.getLast? = some last) (other : last ≠ e) :
    (nodes.filter fun x => decide (x ≠ e)).getLast? = some last := by
  obtain ⟨init, rfl⟩ := List.getLast?_eq_some_iff.mp isLast
  have kept : ([last].filter fun x => decide (x ≠ e)) = [last] :=
    List.filter_eq_self.mpr fun x alone => decide_eq_true (List.mem_singleton.mp alone ▸ other)
  rw [List.filter_append, kept, List.getLast?_concat]

/-- Where the last node of the current group is selected, one release selects the last node that
is left. -/
theorem Selection.At.release_last {st : State} {forest : GroupPtr → Forest ElementPtr}
    {h : GroupPtr} {e : ElementPtr} (represents : Represents st.store forest)
    (isGroup : h ∈ st.store.groupList) (group : st.store.eGroup e = some h)
    (here : st.selection.At (h, (forest h).preorder.getLast?))
    (left : (forest h).preorder.filter (fun x => decide (x ≠ e)) ≠ []) :
    (elementRelease st e).selection.At
      (h, ((forest h).preorder.filter fun x => decide (x ≠ e)).getLast?) := by
  rw [elementRelease_selection]
  have nodup := (represents.hangs isGroup).nodup
  cases last : (forest h).preorder.getLast? with
  | none =>
    rw [List.getLast?_eq_none_iff.mp last] at left
    exact absurd rfl left
  | some l =>
    rw [last] at here
    by_cases same : l = e
    · subst same
      obtain ⟨init, whole⟩ := List.getLast?_eq_some_iff.mp last
      have fresh : l ∉ init := fun inInit => by
        rw [whole] at nodup
        exact (List.nodup_append.mp nodup).2.2 l inInit l List.mem_cons_self rfl
      have rest : (forest h).preorder.filter (fun x => decide (x ≠ l)) = init := by
        have kept : init.filter (fun x => decide (x ≠ l)) = init :=
          List.filter_eq_self.mpr fun x inInit => decide_eq_true fun same => fresh (same ▸ inInit)
        rw [whole, List.filter_append, kept]
        simp
      rw [rest] at left ⊢
      obtain ⟨before, z, split⟩ := (List.eq_nil_or_concat init).resolve_left left
      rw [List.concat_eq_append] at split
      have inside : ∀ x ∈ some l, x ∈ (forest h).preorder := fun x isSome => by
        rw [← Option.some.inj isSome, whole]
        exact List.mem_append_right _ List.mem_cons_self
      have prev := here.elementSelectPrev represents isGroup inside
      have step : Neighbours.next (forest h).preorder.reverse l = some z := by
        rw [whole, split, List.reverse_append, List.reverse_append]
        exact if_pos rfl
      rw [Neighbours.advance, step, Option.map_some, Option.getD_some] at prev
      have apart : z ≠ l := fun same => fresh (by rw [split, same]; simp)
      rw [elementUnselect_selected group here.2, if_neg, split, List.getLast?_concat]
      · exact prev
      · rw [prev.2]
        exact fun same => apart (Option.some.inj same)
    · have other : st.selection.gCurrent h ≠ some e := fun selected =>
        same (Option.some.inj (here.2.symm.trans selected))
      rw [elementUnselect_other group other, getLast?_filter_ne last same]
      exact here

/-- Where the last node of the current group is selected, releases select the last node that is
left, as long as there is one. -/
theorem Releases.select_last {st : State} {forest : GroupPtr → Forest ElementPtr}
    {h : GroupPtr} {nodes : List ElementPtr} (releases : Releases st h nodes)
    (wf : st.store.WellFormed) (represents : Represents st.store forest)
    (isGroup : h ∈ st.store.groupList)
    (here : st.selection.At (h, (forest h).preorder.getLast?))
    (left : (forest h).preorder.filter (fun x => decide (x ∉ nodes)) ≠ []) :
    (applyAll st (nodes.map Effect.release)).selection.At
      (h, ((forest h).preorder.filter fun x => decide (x ∉ nodes)).getLast?) := by
  induction nodes generalizing st forest with
  | nil =>
    have all : (forest h).preorder.filter (fun x => decide (x ∉ ([] : List ElementPtr))) =
        (forest h).preorder := List.filter_eq_self.mpr fun x _ => rfl
    rw [all]
    exact here
  | cons e nodes inductionHypothesis =>
    have legalFirst : LegalAll st [Effect.release e] := ⟨releases.legal.1, trivial⟩
    obtain ⟨forest', represents', orders⟩ := represents.applyAll wf legalFirst
    have order : (forest' h).preorder = (forest h).preorder.filter fun x => decide (x ≠ e) := by
      rw [orders h isGroup]
      exact List.filter_congr fun x _ => decide_eq_decide.mpr
        (not_congr List.mem_singleton)
    have both : (forest' h).preorder.filter (fun x => decide (x ∉ nodes)) =
        (forest h).preorder.filter fun x => decide (x ∉ e :: nodes) := by
      rw [order, List.filter_filter]
      refine List.filter_congr fun x _ => ?_
      rw [← Bool.decide_and, decide_eq_decide, List.mem_cons, not_or]
      exact and_comm
    rw [← both] at left ⊢
    refine inductionHypothesis releases.tail (Effect.apply_wellFormed releases.legal.1 wf)
      represents' ?_ ?_ left
    · rw [(Effect.apply_same releases.legal.1).1]
      exact isGroup
    · rw [order]
      refine here.release_last represents isGroup (releases.group e List.mem_cons_self) ?_
      rw [← order]
      exact fun none => left (by rw [none]; rfl)

/-! ### What is freed with an element -/

/-- `element_free` releases the tree below the element in postorder. -/
theorem elementFree_releases {st : State} (wf : st.store.WellFormed) {e : ElementPtr}
    {h : GroupPtr} (group : st.store.eGroup e = some h) :
    ∃ tree : Forest ElementPtr, tree.roots = [e] ∧ (∃ head, Laid st.store head tree) ∧
      (∀ x, st.store.Above e x ↔ x ∈ tree.preorder) ∧ tree.preorder.Nodup ∧
      elementFree st e = applyAll st (tree.postorder.map Effect.release) ∧
      Releases st h tree.postorder := by
  obtain ⟨place, present, -⟩ := eGroup_eq_some_iff.mp group
  obtain ⟨below, roots, laid, aboveIff, free, legal⟩ :=
    elementFree_tree wf (e := e) (by rw [present]; exact Option.some_ne_none _)
  have tree : Laid st.store place.head (.cons e below .nil) :=
    ⟨⟨place, present, rfl⟩, roots.symm, laid, trivial⟩
  have effects : releaseTree e below =
      (Forest.cons e below .nil).postorder.map Effect.release := by
    simp [releaseTree, Forest.postorder]
  rw [effects] at free legal
  have above : ∀ x, st.store.Above e x ↔ x ∈ (Forest.cons e below .nil).preorder := fun x => by
    rw [aboveIff, Forest.preorder, Forest.preorder, List.append_nil, List.mem_cons]
  have nodup := tree.nodup wf (List.nodup_singleton e)
  refine ⟨.cons e below .nil, rfl, ⟨_, tree⟩, above, nodup, free, legal, fun x member => ?_,
    (Forest.postorder_perm _).nodup_iff.mpr nodup⟩
  rw [Forest.mem_postorder_iff, ← above] at member
  rw [← wf.eGroup_of_above member, group]

/-- Where nothing that is freed is selected in its group, the selection stays. -/
theorem elementFree_selection_other {st : State} (wf : st.store.WellFormed) {e : ElementPtr}
    {h : GroupPtr} (group : st.store.eGroup e = some h)
    (other : ∀ x, st.selection.gCurrent h = some x → ¬ st.store.Above e x) :
    (elementFree st e).selection = st.selection := by
  obtain ⟨tree, -, -, above, -, free, releases⟩ := elementFree_releases wf group
  rw [free]
  refine releases.selection_other fun x member selected => other x selected ?_
  rw [above, ← Forest.mem_postorder_iff]
  exact member

/-- No release leaves the selection without a current group. -/
theorem applyAll_currentGroup {st : State} {effects : List Effect} (legal : LegalAll st effects)
    (valid : st.Valid) (current : st.selection.currentGroup ≠ none) :
    (applyAll st effects).selection.currentGroup ≠ none := by
  induction effects generalizing st with
  | nil => exact current
  | cons effect rest inductionHypothesis =>
    refine inductionHypothesis legal.2 ⟨Effect.apply_wellFormed legal.1 valid.store,
      Effect.apply_valid legal.1 valid.store valid.selection⟩ ?_
    cases effect with
    | tick e => exact current
    | release e =>
      show (elementRelease st e).selection.currentGroup ≠ none
      obtain ⟨c, isCurrent⟩ := Option.ne_none_iff_exists'.mp current
      obtain ⟨forest, represents⟩ := valid.store.represents
      have here : st.selection.At (c, st.selection.gCurrent c) := ⟨isCurrent, rfl⟩
      have inside := here.inside valid.store represents valid.selection
      have prev := here.elementSelectPrev represents inside.1 inside.2
      have moved : (elementSelectPrev st.store st.selection).currentGroup ≠ none := by
        rw [prev.1]
        exact Option.some_ne_none _
      obtain ⟨place, present⟩ := Option.ne_none_iff_exists'.mp legal.1.1
      have group : st.store.eGroup e = some place.group :=
        eGroup_eq_some_iff.mpr ⟨place, present, rfl⟩
      rw [elementRelease_selection]
      by_cases selected : st.selection.gCurrent place.group = some e
      · rw [elementUnselect_selected group selected]
        split_ifs
        · exact moved
        · exact moved
      · rw [elementUnselect_other group selected]
        exact current

/-! ### The selected element is freed -/

/-- The last nodes first. -/
def backwards (forest : GroupPtr → Forest ElementPtr) (g : GroupPtr) : List ElementPtr :=
  (forest g).preorder.reverse

/-- What the group holds when some of its elements are released. -/
def remaining (forest : GroupPtr → Forest ElementPtr) (h : GroupPtr) (freed : List ElementPtr) :
    List ElementPtr :=
  (forest h).preorder.filter fun x => decide (x ∉ freed)

theorem remaining_append (forest : GroupPtr → Forest ElementPtr) (h : GroupPtr)
    (freed more : List ElementPtr) :
    remaining forest h (freed ++ more) =
      (remaining forest h freed).filter fun x => decide (x ∉ more) := by
  rw [remaining, remaining, List.filter_filter]
  refine List.filter_congr fun x _ => ?_
  rw [← Bool.decide_and, decide_eq_decide, List.mem_append, not_or]
  exact and_comm

/-- The last node stays when another one is released. -/
theorem getLast?_remaining_concat {forest : GroupPtr → Forest ElementPtr} {h : GroupPtr}
    {freed : List ElementPtr} {x : ElementPtr}
    (other : (remaining forest h freed).getLast? ≠ some x) :
    (remaining forest h (freed ++ [x])).getLast? = (remaining forest h freed).getLast? := by
  rw [remaining_append]
  cases last : (remaining forest h freed).getLast? with
  | none =>
    rw [List.getLast?_eq_none_iff.mp last]
    rfl
  | some y =>
    have apart : y ≠ x := fun same => other (same ▸ last)
    rw [← getLast?_filter_ne last apart]
    refine congrArg List.getLast? (List.filter_congr fun z _ => ?_)
    rw [decide_eq_decide, List.mem_singleton]

theorem applyAll_release_append (st : State) (before after : List ElementPtr) :
    applyAll st ((before ++ after).map Effect.release) =
      applyAll (applyAll st (before.map Effect.release)) (after.map Effect.release) := by
  rw [List.map_append, applyAll_append]

/-- Up to the release of the selected element, the selection stays. -/
theorem Releases.selection_before {st : State} {h : GroupPtr} {x : ElementPtr}
    {before after : List ElementPtr} (releases : Releases st h (before ++ x :: after))
    (selected : st.selection.gCurrent h = some x) :
    (applyAll st (before.map Effect.release)).selection = st.selection := by
  refine releases.front.selection_other fun y member same => ?_
  obtain rfl := Option.some.inj (selected.symm.trans same)
  exact (List.nodup_append.mp releases.nodup).2.2 x member x List.mem_cons_self rfl

section Selected

variable {st : State} (valid : st.Valid) {forest : GroupPtr → Forest ElementPtr}
variable (represents : Represents st.store forest) {h : GroupPtr} (isGroup : h ∈ st.store.groupList)

include valid represents isGroup

/-- Releases leave the other groups alone. -/
theorem Releases.forests {nodes : List ElementPtr} (releases : Releases st h nodes) :
    ∃ left, Represents (applyAll st (nodes.map Effect.release)).store left ∧
      (∀ g ∈ st.store.groupList, g ≠ h → backwards left g = backwards forest g) ∧
      (left h).preorder = remaining forest h nodes := by
  obtain ⟨left, represents', orders⟩ := represents.applyAll valid.store releases.legal
  rw [freedBy_release] at orders
  refine ⟨left, represents', fun g isOther apart => ?_, orders h isGroup⟩
  refine congrArg List.reverse ((orders g isOther).trans (List.filter_eq_self.mpr ?_))
  intro x member
  refine decide_eq_true fun isFreed => apart ?_
  have inForest := (valid.store.mem_preorder_iff represents isOther).mp member
  rw [valid.store.inForest_iff, releases.group x isFreed] at inForest
  exact (Option.some.inj inForest).symm

variable {x : ElementPtr} (selected : st.selection.gCurrent h = some x)
variable {before after : List ElementPtr} (releases : Releases st h (before ++ x :: after))

include selected releases

/-- The repair at the release of the selected element. -/
theorem Releases.repair {cursor : GroupPtr × Option ElementPtr} (here : st.selection.At cursor) :
    ∃ left prev, (left h).preorder = remaining forest h before ∧
      (∀ g ∈ st.store.groupList, g ≠ h → backwards left g = backwards forest g) ∧
      Represents (applyAll st (before.map Effect.release)).store left ∧
      Selection.At prev (Neighbours.advance st.store.groupList.reverse (backwards left) cursor) ∧
      (prev.currentGroup ≠ some h → prev.gCurrent h = some x) ∧
      (elementRelease (applyAll st (before.map Effect.release)) x).selection =
        if prev.gCurrent h = some x then prev.setCurrent h none else prev := by
  have legal := releases.front.legal
  have stays := releases.selection_before selected
  have wf := applyAll_wellFormed legal valid.store
  have valid' := applyAll_valid legal valid.store valid.selection
  obtain ⟨left, represents', same, order⟩ := releases.front.forests valid represents isGroup
  have group : (applyAll st (before.map Effect.release)).store.eGroup x = some h :=
    releases.behind.group x List.mem_cons_self
  rw [stays] at valid'
  have inside := here.inside wf represents' valid'
  have moved := here.elementSelectPrev represents' inside.1 inside.2
  rw [applyAll_groupList legal] at moved
  refine ⟨left, elementSelectPrev (applyAll st (before.map Effect.release)).store st.selection,
    order, same, represents', moved, fun other => ?_, ?_⟩
  · rw [elementSelectPrev_gCurrent other, selected]
  · rw [elementRelease_selection, elementUnselect_selected group (by rw [stays]; exact selected),
      stays]

/-- Where the selection moves to a group other than that of the element, it stays there. -/
theorem Releases.moves_elsewhere {cursor : GroupPtr × Option ElementPtr}
    (here : st.selection.At cursor) (apart : cursor.1 ≠ h)
    (elsewhere :
      (Neighbours.advance st.store.groupList.reverse (backwards forest) cursor).1 ≠ h) :
    (applyAll st ((before ++ x :: after).map Effect.release)).selection.At
      (Neighbours.advance st.store.groupList.reverse (backwards forest) cursor) := by
  obtain ⟨left, prev, -, same, -, moved, kept, released⟩ :=
    releases.repair valid represents isGroup selected here
  have isCursorGroup := valid.selection.currentGroup _ here.1
  have sameCursor := (Neighbours.advance_congr st.store.groupList.reverse
    (same cursor.1 isCursorGroup apart)).2
  have isNext := Neighbours.advance_mem (backwards forest) (List.mem_reverse.mpr isCursorGroup)
  rw [sameCursor (same _ (List.mem_reverse.mp isNext) elsewhere)] at moved
  have stillSelected : prev.gCurrent h = some x :=
    kept (by rw [moved.1]; exact fun same => elsewhere (Option.some.inj same))
  rw [if_pos stillSelected] at released
  rw [applyAll_release_append]
  show (applyAll (elementRelease (applyAll st _) x) _).selection.At _
  rw [releases.behind.tail.selection_other, released]
  · exact ⟨moved.1, (if_neg elsewhere).trans moved.2⟩
  · intro y _
    rw [released, show (prev.setCurrent h none).gCurrent h = none from if_pos rfl]
    exact nofun

/-- The repair where the selection moves to the group of the element: it takes the last node that
is left there, or nothing if that is the element itself. -/
theorem Releases.moves_here {cursor : GroupPtr × Option ElementPtr}
    (here : st.selection.At cursor) (apart : cursor.1 ≠ h)
    (back : (Neighbours.advance st.store.groupList.reverse (backwards forest) cursor).1 = h) :
    (elementRelease (applyAll st (before.map Effect.release)) x).selection.At
      (h, if (remaining forest h before).getLast? = some x then none
        else (remaining forest h before).getLast?) := by
  obtain ⟨left, prev, order, same, -, moved, kept, released⟩ :=
    releases.repair valid represents isGroup selected here
  have isCursorGroup := valid.selection.currentGroup _ here.1
  have sameGroup := (Neighbours.advance_congr st.store.groupList.reverse
    (same cursor.1 isCursorGroup apart)).1
  have leaves : (Neighbours.advance st.store.groupList.reverse (backwards left) cursor).1 ≠
      cursor.1 := by
    rw [sameGroup, back]
    exact apart.symm
  have entered := (Neighbours.advance_leaves leaves).2
  have isHere : Neighbours.following st.store.groupList.reverse cursor.1 = h := by
    rw [← back, ← sameGroup, entered]
    rfl
  rw [entered, isHere, Neighbours.enter, backwards, List.head?_reverse, order] at moved
  rw [released, moved.2]
  split_ifs with last
  · exact ⟨moved.1, if_pos rfl⟩
  · exact moved

/-- Where it takes nothing, the group of the element is the current one in the end. -/
theorem Releases.ends_here {cursor : GroupPtr × Option ElementPtr}
    (here : st.selection.At cursor) (apart : cursor.1 ≠ h)
    (back : (Neighbours.advance st.store.groupList.reverse (backwards forest) cursor).1 = h)
    (last : (remaining forest h before).getLast? = some x) :
    (applyAll st ((before ++ x :: after).map Effect.release)).selection.currentGroup = some h := by
  have there := releases.moves_here valid represents isGroup selected here apart back
  rw [if_pos last] at there
  rw [applyAll_release_append]
  show (applyAll (elementRelease (applyAll st _) x) _).selection.currentGroup = _
  rw [releases.behind.tail.selection_other, there.1]
  intro y _
  rw [there.2]
  exact nofun

/-- Where it takes another node, the last node that is left is selected as long as there is one. -/
theorem Releases.selects_last {cursor : GroupPtr × Option ElementPtr}
    (here : st.selection.At cursor) (apart : cursor.1 ≠ h)
    (back : (Neighbours.advance st.store.groupList.reverse (backwards forest) cursor).1 = h)
    (other : (remaining forest h before).getLast? ≠ some x)
    (left : remaining forest h (before ++ x :: after) ≠ []) :
    (applyAll st ((before ++ x :: after).map Effect.release)).selection.At
      (h, (remaining forest h (before ++ x :: after)).getLast?) := by
  have there := releases.moves_here valid represents isGroup selected here apart back
  rw [if_neg other] at there
  have split : before ++ x :: after = (before ++ [x]) ++ after := by
    rw [List.append_assoc, List.singleton_append]
  have next : applyAll st ((before ++ [x]).map Effect.release) =
      elementRelease (applyAll st (before.map Effect.release)) x := applyAll_release_append st _ _
  rw [split] at releases left ⊢
  obtain ⟨forest', represents', -, order⟩ := releases.front.forests valid represents isGroup
  have both : (forest' h).preorder.filter (fun y => decide (y ∉ after)) =
      remaining forest h (before ++ [x] ++ after) := by
    rw [order, ← remaining_append]
  rw [applyAll_release_append, ← both]
  refine releases.behind.select_last (applyAll_wellFormed releases.front.legal valid.store)
    represents' ?_ ?_ (both ▸ left)
  · rw [applyAll_groupList releases.front.legal]
    exact isGroup
  · rw [order, getLast?_remaining_concat other, next]
    exact there

/-- Where the last node of the group is released too, the selection moves on to the group before
it. -/
theorem Releases.moves_on {cursor : GroupPtr × Option ElementPtr}
    (here : st.selection.At cursor) (apart : cursor.1 ≠ h)
    (back : (Neighbours.advance st.store.groupList.reverse (backwards forest) cursor).1 = h)
    (other : (remaining forest h before).getLast? ≠ some x) {last : ElementPtr}
    (left : remaining forest h (before ++ x :: after) = [last])
    (more : Releases st h ((before ++ x :: after) ++ [last])) :
    (applyAll st (((before ++ x :: after) ++ [last]).map Effect.release)).selection.At
      (Neighbours.enter (backwards forest)
        (Neighbours.following st.store.groupList.reverse h)) := by
  have isCursorGroup := valid.selection.currentGroup _ here.1
  have there := releases.selects_last valid represents isGroup selected here apart back other
    (by rw [left]; exact List.cons_ne_nil last [])
  rw [left, List.getLast?_singleton] at there
  have legal := releases.legal
  have groups := applyAll_groupList legal
  have valid' : (applyAll st ((before ++ x :: after).map Effect.release)).Valid :=
    ⟨applyAll_wellFormed legal valid.store,
      applyAll_valid legal valid.store valid.selection⟩
  obtain ⟨forest', represents', same, order⟩ := releases.forests valid represents isGroup
  have single : Releases (applyAll st ((before ++ x :: after).map Effect.release)) h
      ([] ++ last :: []) := more.behind
  obtain ⟨left', prev, order', same', -, moved, kept, released⟩ :=
    single.repair valid' represents' (groups ▸ isGroup) there.2 there
  rw [groups] at moved same'
  have alone : backwards left' h = [last] := by
    rw [backwards, order', remaining, order, left]
    rfl
  have isPrev : Neighbours.following st.store.groupList.reverse h ≠ h :=
    Neighbours.following_ne (List.nodup_reverse.mpr represents.groups_nodup)
      (List.mem_reverse.mpr isGroup) (List.mem_reverse.mpr isCursorGroup) apart
  have memPrev := List.mem_reverse.mp
    (Neighbours.following_mem (List.mem_reverse.mpr isGroup))
  have noNext : Neighbours.next [last] last = none := if_pos rfl
  rw [Neighbours.advance_some, alone, noNext, Option.map_none, Option.getD_none,
    Neighbours.enter, same' _ memPrev isPrev, same _ memPrev isPrev] at moved
  have stillSelected : prev.gCurrent h = some last :=
    kept (by rw [moved.1]; exact fun same => isPrev (Option.some.inj same))
  rw [if_pos stillSelected] at released
  have final : (applyAll st ((before ++ x :: after ++ [last]).map Effect.release)).selection =
      prev.setCurrent h none := by
    rw [applyAll_release_append]
    exact released
  rw [final]
  exact ⟨moved.1, (if_neg isPrev).trans moved.2⟩

end Selected

/-! ### When the selection is left alone -/

/-- Freeing the element leaves the current group and what is selected in it. -/
def KeepsSelection (st : State) (e : ElementPtr) : Prop :=
  (elementFree st e).selection.currentGroup = st.selection.currentGroup ∧
    ∀ c, st.selection.currentGroup = some c →
      (elementFree st e).selection.gCurrent c = st.selection.gCurrent c

/-- The selection leaves the current group and comes back to it: there are two groups, all of the
other one is freed with the element, the element selected there is not at the end of its tree, and
the current group has a single element, which is selected. -/
structure ComesBack (st : State) (h c : GroupPtr) (e x : ElementPtr) : Prop where
  two : st.store.groupList.length = 2
  all : ∀ y, st.store.InForest h y → st.store.Above e y
  notLast : ¬ st.store.LastBelow e x
  single : ∃ v, st.selection.gCurrent c = some v ∧ ∀ y, st.store.InForest c y → y = v

/-- What is selected in the group of the element is not freed with it; or the current group is
empty, or the selection comes back to it. -/
def Undisturbed (st : State) (e : ElementPtr) : Prop :=
  ∀ h x, st.store.eGroup e = some h → st.selection.gCurrent h = some x → st.store.Above e x →
    ∃ c, st.selection.currentGroup = some c ∧
      (st.store.lists (.ofGroup c) = [] ∨ ComesBack st h c e x)

/-- Without a current group, a repair makes one the current group. -/
theorem Releases.currentGroup_of_none {st : State} (valid : st.Valid) {h : GroupPtr}
    {x : ElementPtr} {before after : List ElementPtr}
    (releases : Releases st h (before ++ x :: after)) (isGroup : h ∈ st.store.groupList)
    (selected : st.selection.gCurrent h = some x) (noCurrent : st.selection.currentGroup = none) :
    (applyAll st ((before ++ x :: after).map Effect.release)).selection.currentGroup ≠ none := by
  obtain ⟨forest, represents⟩ := valid.store.represents
  have stays := releases.selection_before selected
  have legal := releases.front.legal
  have valid' : (applyAll st (before.map Effect.release)).Valid :=
    ⟨applyAll_wellFormed legal valid.store, applyAll_valid legal valid.store valid.selection⟩
  obtain ⟨forest', represents'⟩ := valid'.store.represents
  have group := releases.behind.group x List.mem_cons_self
  obtain ⟨first, rest, groups⟩ := List.exists_cons_of_ne_nil (List.ne_nil_of_mem isGroup)
  have here : (groupCurrent (applyAll st (before.map Effect.release)).store st.selection).At
      (first, st.selection.gCurrent first) := by
    unfold groupCurrent
    rw [noCurrent]
    refine ⟨?_, rfl⟩
    show (applyAll st _).store.groupList.head? = _
    rw [applyAll_groupList legal, groups, List.head?_cons]
  have validCurrent : (groupCurrent (applyAll st (before.map Effect.release)).store
      st.selection).Valid (applyAll st (before.map Effect.release)).store := by
    have validSelection := valid'.selection
    rw [stays] at validSelection
    exact validSelection.groupCurrent
  have inside := here.inside valid'.store represents' validCurrent
  have moved := here.elementSelectPrev represents' inside.1 inside.2
  rw [elementSelectPrev_groupCurrent] at moved
  have current : (elementRelease (applyAll st (before.map Effect.release)) x).selection.currentGroup
      ≠ none := by
    rw [elementRelease_selection, elementUnselect_selected group (by rw [stays]; exact selected),
      stays]
    have isSome : (elementSelectPrev (applyAll st (before.map Effect.release)).store
        st.selection).currentGroup ≠ none := by
      rw [moved.1]
      exact Option.some_ne_none _
    split_ifs
    · exact isSome
    · exact isSome
  have legalFirst := releases.behind.legal.1
  rw [applyAll_release_append]
  show (applyAll (elementRelease (applyAll st _) x) _).selection.currentGroup ≠ none
  exact applyAll_currentGroup releases.behind.tail.legal
    ⟨Effect.apply_wellFormed legalFirst valid'.store,
      Effect.apply_valid legalFirst valid'.store valid'.selection⟩ current

section Kept

variable {st : State} (valid : st.Valid) {forest : GroupPtr → Forest ElementPtr}
variable (represents : Represents st.store forest) {c h : GroupPtr} {e x : ElementPtr}
variable (isGroup : c ∈ st.store.groupList)

include valid represents isGroup

/-- The current group has a single element, which is selected. -/
theorem single_iff {w : ElementPtr} (picked : st.selection.gCurrent c = some w) :
    (∃ v, st.selection.gCurrent c = some v ∧ ∀ y, st.store.InForest c y → y = v) ↔
      backwards forest c = [w] := by
  have inForest {y : ElementPtr} : y ∈ backwards forest c ↔ st.store.InForest c y := by
    rw [backwards, List.mem_reverse, valid.store.mem_preorder_iff represents isGroup]
  have nodup : (backwards forest c).Nodup :=
    List.nodup_reverse.mpr (represents.hangs isGroup).nodup
  constructor
  · rintro ⟨v, isPicked, only⟩
    obtain rfl := Option.some.inj (picked.symm.trans isPicked)
    exact eq_singleton_of_nodup nodup (inForest.mpr (valid.selection.gCurrent c w picked))
      fun y member => only y (inForest.mp member)
  · intro alone
    refine ⟨w, picked, fun y member => ?_⟩
    rw [← inForest, alone] at member
    exact List.mem_singleton.mp member

/-- A group that the selection leaves is not empty. -/
theorem not_empty_of_leaves (apart : c ≠ h)
    (back : (Neighbours.advance st.store.groupList.reverse (backwards forest)
      (c, st.selection.gCurrent c)).1 = h) : st.store.lists (.ofGroup c) ≠ [] := by
  obtain ⟨⟨w, picked, -⟩, -⟩ :=
    Neighbours.advance_leaves (show _ ≠ c from fun same => apart (same.symm.trans back))
  have member := (valid.store.mem_preorder_iff represents isGroup).mpr
    (valid.selection.gCurrent c w picked)
  rw [ne_eq, represents.lists_eq_nil_iff isGroup]
  exact List.ne_nil_of_mem member

variable (isOther : h ∈ st.store.groupList) (apart : c ≠ h)

include isOther apart

/-- Where the selection moves to a third group or within its own one, it is left alone only in an
empty group. -/
theorem keeps_elsewhere_iff
    (elsewhere : (Neighbours.advance st.store.groupList.reverse (backwards forest)
      (c, st.selection.gCurrent c)).1 ≠ h) :
    Neighbours.advance st.store.groupList.reverse (backwards forest)
        (c, st.selection.gCurrent c) = (c, st.selection.gCurrent c) ↔
      st.store.lists (.ofGroup c) = [] ∨ ComesBack st h c e x := by
  have nodupGroups := List.nodup_reverse.mpr represents.groups_nodup
  have nodup : (backwards forest c).Nodup :=
    List.nodup_reverse.mpr (represents.hangs isGroup).nodup
  rw [represents.lists_eq_nil_iff isGroup, ← List.reverse_eq_nil_iff, ← backwards]
  cases picked : st.selection.gCurrent c with
  | none =>
    rw [Neighbours.advance_none, Neighbours.enter, Prod.mk.injEq, List.head?_eq_none_iff]
    constructor
    · exact fun both => Or.inl both.2
    · rintro (isEmpty | back)
      · exact ⟨rfl, isEmpty⟩
      · obtain ⟨v, isPicked, -⟩ := back.single
        rw [picked] at isPicked
        cases isPicked
  | some w =>
    have member : w ∈ backwards forest c := List.mem_reverse.mpr
      ((valid.store.mem_preorder_iff represents isGroup).mpr
        (valid.selection.gCurrent c w picked))
    refine iff_of_false (fun same => ?_) ?_
    · rw [Neighbours.advance_some] at same
      cases next : Neighbours.next (backwards forest c) w with
      | some z =>
        rw [next] at same
        exact Neighbours.next_ne nodup next (Option.some.inj (Prod.mk.inj same).2)
      | none =>
        rw [next] at same
        exact Neighbours.following_ne nodupGroups (List.mem_reverse.mpr isGroup)
          (List.mem_reverse.mpr isOther) apart.symm (Prod.mk.inj same).1
    · rintro (isEmpty | back)
      · rw [isEmpty] at member
        cases member
      · have each := (Neighbours.following_each_other_iff nodupGroups
          (List.mem_reverse.mpr isGroup) (List.mem_reverse.mpr isOther) apart.symm).mpr
          (by rw [List.length_reverse]; exact back.two)
        have alone := (single_iff valid represents isGroup picked).mp back.single
        have noNext : Neighbours.next [w] w = none := if_pos rfl
        rw [picked, Neighbours.advance_some, alone, noNext] at elsewhere
        exact elsewhere each.1

/-- Where it moves to the group of the element and on from there, it is left alone only if it
comes back. -/
theorem keeps_back_iff
    (back : (Neighbours.advance st.store.groupList.reverse (backwards forest)
      (c, st.selection.gCurrent c)).1 = h)
    (all : ∀ y, st.store.InForest h y → st.store.Above e y) (notLast : ¬ st.store.LastBelow e x) :
    Neighbours.enter (backwards forest) (Neighbours.following st.store.groupList.reverse h) =
        (c, st.selection.gCurrent c) ↔
      st.store.lists (.ofGroup c) = [] ∨ ComesBack st h c e x := by
  have nodupGroups := List.nodup_reverse.mpr represents.groups_nodup
  have nodup : (backwards forest c).Nodup :=
    List.nodup_reverse.mpr (represents.hangs isGroup).nodup
  obtain ⟨⟨w, picked, final⟩, entered⟩ :=
    Neighbours.advance_leaves (show _ ≠ c from fun same => apart (same.symm.trans back))
  have behind : Neighbours.following st.store.groupList.reverse c = h := by
    rw [entered] at back
    exact back
  have member : w ∈ backwards forest c := List.mem_reverse.mpr
    ((valid.store.mem_preorder_iff represents isGroup).mpr (valid.selection.gCurrent c w picked))
  have last := Neighbours.getLast?_of_next member final
  have each := Neighbours.following_each_other_iff nodupGroups
    (List.mem_reverse.mpr isGroup) (List.mem_reverse.mpr isOther) apart.symm
  rw [List.length_reverse] at each
  have single := single_iff valid represents isGroup picked
  rw [represents.lists_eq_nil_iff isGroup, ← List.reverse_eq_nil_iff, ← backwards,
    show st.selection.gCurrent c = some w from picked]
  constructor
  · intro same
    obtain ⟨isBack, head⟩ := Prod.mk.inj same
    rw [isBack] at head
    exact Or.inr ⟨each.mp ⟨behind, isBack⟩, all, notLast,
      single.mpr ((Neighbours.head?_eq_iff nodup last).mp head)⟩
  · rintro (isEmpty | comesBack)
    · rw [isEmpty] at member
      cases member
    · rw [(each.mpr comesBack.two).2, Neighbours.enter, single.mp comesBack.single]
      rfl

end Kept

/-- The tree that is freed is all of its group, if it has all nodes of that. -/
theorem laid_tree {st : State} (valid : st.Valid) {forest : GroupPtr → Forest ElementPtr}
    (represents : Represents st.store forest) {h : GroupPtr} (isGroup : h ∈ st.store.groupList)
    {e : ElementPtr} (group : st.store.eGroup e = some h)
    (all : ∀ y, st.store.InForest h y → st.store.Above e y) {tree : Forest ElementPtr}
    (roots : tree.roots = [e]) {head : ListHead} (laid : Laid st.store head tree) :
    forest h = tree := by
  have inForest {y : ElementPtr} : y ∈ (forest h).preorder ↔ st.store.InForest h y :=
    valid.store.mem_preorder_iff represents isGroup
  have only : ∀ root ∈ (forest h).roots, root = e := by
    intro root isRoot
    obtain ⟨place, present, isTop⟩ := (represents.laid h isGroup).root_place isRoot
    have below := all root (inForest.mp ((forest h).roots_subset_preorder isRoot))
    rcases below.cases_tail with same | ⟨p, -, parent⟩
    · exact same
    · obtain ⟨place', present', hasParent⟩ := isParent_iff.mp parent
      obtain rfl := Option.some.inj (present.symm.trans present')
      rw [(head_eq_ofGroup_iff.mp isTop).1] at hasParent
      cases hasParent
  have member : e ∈ (forest h).preorder := inForest.mpr (valid.store.inForest_iff.mpr group)
  obtain ⟨root, isRoot, -⟩ := (represents.laid h isGroup).above_root member
  have sameRoots : (forest h).roots = [e] :=
    eq_singleton_of_nodup (Forest.nodup_roots (represents.hangs isGroup).nodup)
      (only root isRoot ▸ isRoot) only
  have isRootHere : e ∈ (forest h).roots := by
    rw [sameRoots]
    exact List.mem_cons_self
  have isRootThere : e ∈ tree.roots := by
    rw [roots]
    exact List.mem_cons_self
  obtain ⟨place, present, isTop⟩ := (represents.laid h isGroup).root_place isRootHere
  obtain ⟨place', present', isHead⟩ := laid.root_place isRootThere
  obtain rfl := Option.some.inj (present.symm.trans present')
  obtain rfl := isTop.symm.trans isHead
  exact (represents.laid h isGroup).unique laid (sameRoots.trans roots.symm)

/-- The selection is left alone where the cursor is the one before. -/
theorem keepsSelection_iff_at {st : State} {c : GroupPtr}
    (current : st.selection.currentGroup = some c) (e : ElementPtr) :
    KeepsSelection st e ↔ (elementFree st e).selection.At (c, st.selection.gCurrent c) := by
  unfold KeepsSelection Selection.At
  rw [current]
  exact and_congr_right fun _ =>
    ⟨fun kept => kept c rfl, fun kept c' same => Option.some.inj same ▸ kept⟩

/-- A selection has a single cursor. -/
theorem Selection.At.at_iff {s : Selection} {cursor other : GroupPtr × Option ElementPtr}
    (here : s.At cursor) : s.At other ↔ cursor = other := by
  constructor
  · rintro ⟨current, picked⟩
    obtain ⟨g, v⟩ := cursor
    obtain rfl := Option.some.inj (here.1.symm.trans current)
    exact Prod.ext rfl (here.2.symm.trans picked)
  · rintro rfl
    exact here

/-- With what is selected in its group freed, an element is spared for the sake of the current
group. -/
theorem undisturbed_iff {st : State} {e x : ElementPtr} {h : GroupPtr}
    (group : st.store.eGroup e = some h) (selected : st.selection.gCurrent h = some x)
    (below : st.store.Above e x) :
    Undisturbed st e ↔ ∃ c, st.selection.currentGroup = some c ∧
      (st.store.lists (.ofGroup c) = [] ∨ ComesBack st h c e x) := by
  refine ⟨fun undisturbed => undisturbed h x group selected below,
    fun spared h' x' group' selected' _ => ?_⟩
  obtain rfl := Option.some.inj (group.symm.trans group')
  obtain rfl := Option.some.inj (selected.symm.trans selected')
  exact spared

section Whole

variable {st : State} {forest : GroupPtr → Forest ElementPtr} {h : GroupPtr} {e x : ElementPtr}
variable {tree : Forest ElementPtr} (whole : forest h = tree) {before after : List ElementPtr}
variable (split : tree.postorder = before ++ x :: after)

include whole split

/-- Where all of a group is freed, the selected element is the last one left just when it is at
the end of the tree. -/
theorem last_remaining_iff {head : ListHead} (laid : Laid st.store head tree)
    (roots : tree.roots = [e]) (nodup : tree.preorder.Nodup) :
    (remaining forest h before).getLast? = some x ↔ st.store.LastBelow e x := by
  rw [remaining, whole, Forest.getLast?_filter_iff nodup split, laid.mem_lastBranch_iff, roots,
    List.getLast?_singleton]
  exact ⟨fun ⟨_, same, path⟩ => Option.some.inj same ▸ path, fun path => ⟨e, rfl, path⟩⟩

/-- Otherwise another one is released at last, and alone is left before. -/
theorem exists_final (roots : tree.roots = [e]) (nodup : tree.preorder.Nodup)
    (notSelf : x ≠ e) :
    ∃ others final, after = others ++ [final] ∧
      remaining forest h (before ++ x :: others) = [final] := by
  -- a tree is released from below, so that its root comes last
  obtain ⟨below, rfl⟩ : ∃ below, tree = .cons e below .nil := by
    cases tree with
    | nil => cases roots
    | cons node childs siblings =>
      obtain ⟨rfl, noSiblings⟩ := List.cons.inj roots
      cases siblings with
      | nil => exact ⟨childs, rfl⟩
      | cons => cases noSiblings
  have fresh : (Forest.cons e below .nil).postorder.Nodup :=
    (Forest.postorder_perm _).nodup_iff.mpr nodup
  obtain rfl | ⟨others, final, rfl⟩ := List.eq_nil_or_concat after
  · obtain ⟨-, same⟩ := List.append_inj' split rfl
    exact absurd (List.head_eq_of_cons_eq same).symm notSelf
  rw [List.concat_eq_append, ← List.cons_append, ← List.append_assoc] at split
  refine ⟨others, final, List.concat_eq_append, ?_⟩
  rw [split] at fresh
  have freshFinal := (List.nodup_append.mp fresh).2.2
  have member {z : ElementPtr} :
      z ∈ (forest h).preorder ↔ z ∈ (before ++ x :: others) ++ [final] := by
    rw [whole, ← Forest.mem_postorder_iff, split]
  refine eq_singleton_of_nodup ((whole ▸ nodup).filter _) ?_ fun z rest => ?_
  · refine List.mem_filter.mpr ⟨member.mpr (List.mem_append_right _ List.mem_cons_self), ?_⟩
    exact decide_eq_true fun inFront => freshFinal final inFront final List.mem_cons_self rfl
  · obtain ⟨isNode, notBefore⟩ := List.mem_filter.mp rest
    exact List.mem_singleton.mp
      ((List.mem_append.mp (member.mp isNode)).resolve_left (of_decide_eq_true notBefore))

end Whole

/-- Where some of the group of the element is left, the selection ends there, once it has moved to
it. -/
theorem Releases.stays_here {st : State} (valid : st.Valid)
    {forest : GroupPtr → Forest ElementPtr} (represents : Represents st.store forest)
    {h : GroupPtr} (isGroup : h ∈ st.store.groupList) {x : ElementPtr}
    (selected : st.selection.gCurrent h = some x) {before after : List ElementPtr}
    (releases : Releases st h (before ++ x :: after)) {cursor : GroupPtr × Option ElementPtr}
    (here : st.selection.At cursor) (apart : cursor.1 ≠ h)
    (back : (Neighbours.advance st.store.groupList.reverse (backwards forest) cursor).1 = h)
    (left : remaining forest h (before ++ x :: after) ≠ []) :
    (applyAll st ((before ++ x :: after).map Effect.release)).selection.currentGroup = some h := by
  by_cases last : (remaining forest h before).getLast? = some x
  · exact releases.ends_here valid represents isGroup selected here apart back last
  · exact (releases.selects_last valid represents isGroup selected here apart back last left).1

/-- When freeing an element leaves the selection of the current group alone. -/
theorem keepsSelection_iff {st : State} (valid : st.Valid) {e : ElementPtr} {h : GroupPtr}
    (group : st.store.eGroup e = some h) (other : st.selection.currentGroup ≠ some h) :
    KeepsSelection st e ↔ Undisturbed st e := by
  obtain ⟨forest, represents⟩ := valid.store.represents
  obtain ⟨place, present, isPlace⟩ := eGroup_eq_some_iff.mp group
  have isOther : h ∈ st.store.groupList := isPlace ▸ valid.store.grouped e place present
  by_cases freed : ∃ x, st.selection.gCurrent h = some x ∧ st.store.Above e x
  swap
  · have stays := elementFree_selection_other valid.store group
      fun x selected above => freed ⟨x, selected, above⟩
    refine iff_of_true ⟨by rw [stays], fun c _ => by rw [stays]⟩
      fun h' x group' selected above => ?_
    obtain rfl := Option.some.inj (group.symm.trans group')
    exact absurd ⟨x, selected, above⟩ freed
  obtain ⟨x, selected, below⟩ := freed
  obtain ⟨tree, roots, ⟨head, laid⟩, above, nodup, free, releases⟩ :=
    elementFree_releases valid.store group
  obtain ⟨before, after, split⟩ := List.append_of_mem
    (Forest.mem_postorder_iff.mpr ((above x).mp below))
  rw [split] at free releases
  rw [undisturbed_iff group selected below]
  cases current : st.selection.currentGroup with
  | none =>
    refine iff_of_false (fun kept => ?_) nofun
    have ends := kept.1
    rw [free, current] at ends
    exact releases.currentGroup_of_none valid isOther selected current ends
  | some c =>
    have isGroup := valid.selection.currentGroup c current
    have apart : c ≠ h := fun same => other (same ▸ current)
    have here : st.selection.At (c, st.selection.gCurrent c) := ⟨current, rfl⟩
    have only : (∃ c', some c = some c' ∧ (st.store.lists (.ofGroup c') = [] ∨
        ComesBack st h c' e x)) ↔ st.store.lists (.ofGroup c) = [] ∨ ComesBack st h c e x :=
      ⟨fun ⟨_, same, spared⟩ => Option.some.inj same ▸ spared, fun spared => ⟨c, rfl, spared⟩⟩
    rw [only, keepsSelection_iff_at current, free]
    by_cases back : (Neighbours.advance st.store.groupList.reverse (backwards forest)
        (c, st.selection.gCurrent c)).1 = h
    swap
    · rw [(releases.moves_elsewhere valid represents isOther selected here apart back).at_iff]
      exact keeps_elsewhere_iff valid represents isGroup isOther apart back
    have notEmpty := not_empty_of_leaves valid represents isGroup apart back
    -- the selection ends in the group of the element
    have leaves (ends : (applyAll st
        ((before ++ x :: after).map Effect.release)).selection.currentGroup = some h)
        (spared : ¬ ComesBack st h c e x) :
        (applyAll st ((before ++ x :: after).map Effect.release)).selection.At
          (c, st.selection.gCurrent c) ↔
            st.store.lists (.ofGroup c) = [] ∨ ComesBack st h c e x :=
      iff_of_false (fun kept => apart (Option.some.inj (kept.1.symm.trans ends)))
        (not_or.mpr ⟨notEmpty, spared⟩)
    by_cases all : ∀ y, st.store.InForest h y → st.store.Above e y
    swap
    · refine leaves (releases.stays_here valid represents isOther selected here apart back ?_)
        fun comesBack => all comesBack.all
      obtain ⟨y, inForest, notBelow⟩ : ∃ y, st.store.InForest h y ∧ ¬ st.store.Above e y := by
        simpa only [not_forall, exists_prop] using all
      rw [← split]
      refine List.ne_nil_of_mem (a := y) (List.mem_filter.mpr
        ⟨(valid.store.mem_preorder_iff represents isOther).mpr inForest, decide_eq_true ?_⟩)
      rw [Forest.mem_postorder_iff, ← above]
      exact notBelow
    have whole : forest h = tree := laid_tree valid represents isOther group all roots laid
    have last_iff := last_remaining_iff whole split laid roots nodup
    by_cases last : st.store.LastBelow e x
    · exact leaves (releases.ends_here valid represents isOther selected here apart back
        (last_iff.mpr last)) fun comesBack => comesBack.notLast last
    · obtain ⟨others, final, rfl, left⟩ := exists_final whole split roots nodup
        fun same => last (same ▸ .refl)
      rw [← List.cons_append, ← List.append_assoc] at releases ⊢
      rw [(releases.front.moves_on valid represents isOther selected here apart back
        (mt last_iff.mp last) left releases).at_iff]
      exact keeps_back_iff valid represents isGroup isOther apart back all last

/-- When freeing an element in another group leaves the selection alone. In every state the
program reaches, and for any element in another group than the current one, `element_free` leaves
the current group and what is selected in it just when what is selected in the group of the
element is not freed; or the current group is empty; or there are two groups and the selection
leaves the current one and comes back to its only element. -/
theorem elementFree_keepsSelection_iff (cfg : Config) (titles : List GroupHdr)
    (cfgs : List ElementCfg) (allowed denied : List Policy) (ops : List Op) (st : State)
    (ran : Runs.run (step cfg) (State.start titles cfgs allowed denied) ops = some st)
    (e : ElementPtr) (h : GroupPtr) (group : st.store.eGroup e = some h)
    (other : st.selection.currentGroup ≠ some h) :
    KeepsSelection st e ↔ Undisturbed st e :=
  keepsSelection_iff (run_valid (valid_stateStart titles cfgs allowed denied) ran) group other

/-- The parent and its child in one group, and two elements in another one. -/
def twoElementsBeside : List Op :=
  let d : CString := ⟨['s', 'd'], by decide⟩
  let beside : List InputOp := [.groupNewHdr ⟨d, "Disks", []⟩, .groupLookup d true,
    .elementLookup 1 d 0 none true, .elementLookup 1 d 1 none true]
  (parentAndChild ++ beside).map Op.input

/-- As long as nothing is selected in the first group, the selection in the second one stays. -/
theorem elementFree_keepsSelection_unselected :
    ∃ st, Runs.run (step (confInitPost {})) (State.start [] [] [] [])
        (twoElementsBeside ++ [.output .groupSelectLast, .output .elementSelectLast]) = some st ∧
      st.selection.selected = some (1, 3) ∧ KeepsSelection st 0 := by
  have run : (Runs.run (step (confInitPost {})) (State.start [] [] [] [])
      (twoElementsBeside ++ [.output .groupSelectLast, .output .elementSelectLast])).map (fun st =>
        (st.selection.selected, st.store.eGroup 0, st.selection.currentGroup,
          st.selection.gCurrent 0)) = some (some (1, 3), some 0, some 1, none) := by
    decide +kernel
  obtain ⟨st, ran, state⟩ := Option.map_eq_some_iff.mp run
  obtain ⟨selected, rest⟩ := Prod.mk.inj state
  obtain ⟨group, rest⟩ := Prod.mk.inj rest
  obtain ⟨current, unselected⟩ := Prod.mk.inj rest
  have other : st.selection.currentGroup ≠ some 0 := by
    rw [current]
    decide
  have undisturbed : Undisturbed st 0 := fun h x group' picked _ => by
    obtain rfl := Option.some.inj (group.symm.trans group')
    rw [unselected] at picked
    cases picked
  exact ⟨st, ran, selected,
    (elementFree_keepsSelection_iff _ _ _ _ _ _ st ran 0 0 group other).mpr undisturbed⟩

/-- Where the freed element is selected in its own group, the selection in the other group moves
from the second element to the first one. -/
theorem elementFree_movesSelection :
    ∃ st, Runs.run (step (confInitPost {})) (State.start [] [] [] [])
        (twoElementsBeside ++ [.output .elementSelectFirst, .output .groupSelectLast,
          .output .elementSelectLast]) = some st ∧
      st.store.eGroup 0 = some 0 ∧ st.selection.selected = some (1, 3) ∧
      (elementFree st 0).selection.selected = some (1, 2) ∧ ¬ KeepsSelection st 0 := by
  have run : (Runs.run (step (confInitPost {})) (State.start [] [] [] [])
      (twoElementsBeside ++ [.output .elementSelectFirst, .output .groupSelectLast,
        .output .elementSelectLast])).map (fun st =>
        (st.store.eGroup 0, st.selection.selected, (elementFree st 0).selection.selected)) =
      some (some 0, some (1, 3), some (1, 2)) := by
    decide +kernel
  obtain ⟨st, ran, state⟩ := Option.map_eq_some_iff.mp run
  obtain ⟨group, rest⟩ := Prod.mk.inj state
  obtain ⟨before, after⟩ := Prod.mk.inj rest
  refine ⟨st, ran, group, before, after, fun kept => ?_⟩
  obtain ⟨current, picked⟩ := selected_eq_some_iff.mp before
  have moved := (selected_eq_some_iff.mp after).2
  rw [kept.2 1 current, picked] at moved
  cases moved

end Bmon
