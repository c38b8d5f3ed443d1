/-
This file holds the levels of the elements and their depths.

The depth of an element is the number of its ancestors by `e_parent`. Its level, `e_level`, is
zero where it is created, and the modules only write it for an element that has a parent, or write
what it is. So the elements at the top of a group have the level zero in every state that a program
with such modules reaches, and the depth of an element never changes.
-/

import Bmon.Evolution
import Bmon.Tracked

namespace Bmon

/-! ### Depths and levels -/

/-- An element has so many ancestors. -/
inductive Store.HasDepth (σ : Store) : ElementPtr → Nat → Prop where
  | atTop {e : ElementPtr} {r : Element} (found : σ.elements e = some r)
      (alone : r.eParent = none) : HasDepth σ e 0
  | ofChild {e p : ElementPtr} {r : Element} {depth : Nat} (found : σ.elements e = some r)
      (parent : r.eParent = some p) (above : HasDepth σ p depth) : HasDepth σ e (depth + 1)

/-- The level of an element is its depth, as a number of 32 bits. -/
def Store.LevelIsDepth (σ : Store) (e : ElementPtr) : Prop :=
  ∃ r depth, σ.elements e = some r ∧ σ.HasDepth e depth ∧ r.eLevel = UInt32.ofNat depth

/-- The level of an element and its parent. -/
def Element.indent (r : Element) : UInt32 × Option ElementPtr := (r.eLevel, r.eParent)

/-- The elements at the top have the level zero. -/
structure Store.Levelled (σ : Store) : Prop where
  wf : σ.WellFormed
  top : ∀ e level, (σ.elements e).map Element.indent = some (level, none) → level = 0

namespace Store.HasDepth

variable {σ σ' : Store} {e p : ElementPtr} {depth : Nat}

/-- An element has one depth only. -/
theorem unique {other : Nat} (hasDepth : σ.HasDepth e depth) (hasOther : σ.HasDepth e other) :
    depth = other := by
  induction hasDepth generalizing other with
  | atTop found alone =>
    cases hasOther with
    | atTop _ _ => rfl
    | ofChild found' parent _ =>
      obtain rfl := Option.some.inj (found.symm.trans found')
      rw [alone] at parent
      cases parent
  | ofChild found parent _ aboveHypothesis =>
    cases hasOther with
    | atTop found' alone =>
      obtain rfl := Option.some.inj (found.symm.trans found')
      rw [alone] at parent
      cases parent
    | ofChild found' parent' above' =>
      obtain rfl := Option.some.inj (found.symm.trans found')
      obtain rfl := Option.some.inj (parent.symm.trans parent')
      rw [aboveHypothesis above']

/-- Where every element stays in its place, so does its depth. -/
theorem stays (places : ∀ e place, σ.place e = some place → σ'.place e = some place)
    (hasDepth : σ.HasDepth e depth) : σ'.HasDepth e depth := by
  have parents : ∀ {e r}, σ.elements e = some r →
      ∃ r', σ'.elements e = some r' ∧ r'.eParent = r.eParent := fun {e r} found => by
    obtain ⟨r', found', same⟩ := place_eq_some_iff.mp
      (places e r.place (place_eq_some_iff.mpr ⟨r, found, rfl⟩))
    exact ⟨r', found', congrArg Place.parent same⟩
  induction hasDepth with
  | atTop found alone =>
    obtain ⟨r', found', same⟩ := parents found
    exact .atTop found' (same.trans alone)
  | ofChild found parent _ aboveHypothesis =>
    obtain ⟨r', found', same⟩ := parents found
    exact .ofChild found' (same.trans parent) aboveHypothesis

/-- The depth of an element at a place. -/
theorem of_place {place : Place} (present : σ.place e = some place)
    (above : ∀ p, place.parent = some p → ∃ above, depth = above + 1 ∧ σ.HasDepth p above)
    (alone : place.parent = none → depth = 0) : σ.HasDepth e depth := by
  obtain ⟨r, found, rfl⟩ := place_eq_some_iff.mp present
  cases parent : r.eParent with
  | none =>
    obtain rfl := alone parent
    exact .atTop found parent
  | some p =>
    obtain ⟨before, rfl, hasDepth⟩ := above p parent
    exact .ofChild found parent hasDepth

end Store.HasDepth

/-- The level of an element is its depth just if it is the number that its depth is. -/
theorem levelIsDepth_iff {σ : Store} {e : ElementPtr} {r : Element} {depth : Nat}
    (found : σ.elements e = some r) (hasDepth : σ.HasDepth e depth) :
    σ.LevelIsDepth e ↔ r.eLevel = UInt32.ofNat depth := by
  constructor
  · rintro ⟨r', depth', found', hasDepth', same⟩
    obtain rfl := Option.some.inj (found.symm.trans found')
    rw [same, hasDepth'.unique hasDepth]
  · exact fun same => ⟨r, depth, found, hasDepth, same⟩

/-! ### Writing levels -/

/-- A call that writes the level of an element at the top writes what it is. -/
def InputOp.fairLevel (σ : Store) : InputOp → Bool
  | onElement e (.setUp level) =>
    (σ.elements e).all fun r => r.eParent.isSome || r.eLevel == level
  | _ => true

/-- So it is for every call of the program. -/
def Op.fairLevel (σ : Store) : Op → Bool
  | input op => op.fairLevel σ
  | _ => true

/-- Calls on an element other than the end of its set-up keep all levels. -/
theorem ElementOp.indent_eq {cfg : Config} {σ σ' : Store} {e : ElementPtr} {op : ElementOp}
    (other : ∀ level, op ≠ .setUp level) (called : op.apply cfg σ e = some σ') (x : ElementPtr) :
    (σ'.elements x).map Element.indent = (σ.elements x).map Element.indent := by
  have modify : ∀ (change : Element → Element), (∀ r, (change r).indent = r.indent) →
      ((σ.modifyElement e change).elements x).map Element.indent =
        (σ.elements x).map Element.indent := fun change stays =>
    map_modifyElement Element.indent σ e x stays
  have info : ∀ r name value, (Element.updateInfo name value r).indent = r.indent :=
    fun r name value => field_updateInfo Element.indent (fun _ _ _ => rfl) r name value
  cases op with
  | lifesign =>
    obtain rfl := Option.some.inj called
    exact modify _ fun _ => rfl
  | updateInfo name value =>
    obtain rfl := Option.some.inj called
    exact modify _ fun r => info r name value
  | setRxmax max =>
    obtain rfl := Option.some.inj called
    exact map_elementSetMax Element.indent info (fun _ _ => rfl) .rx "RxMax" σ e x max
  | setTxmax max =>
    obtain rfl := Option.some.inj called
    exact map_elementSetMax Element.indent info (fun _ _ => rfl) .tx "TxMax" σ e x max
  | setKeyAttr attrDefs major minor =>
    obtain rfl := Option.some.inj called
    refine elementSetKeyAttr_rule (fun σ' => (σ'.elements x).map Element.indent =
      (σ.elements x).map Element.indent) (fun σ' column definition before => ?_)
      attrDefs major minor rfl
    refine Eq.trans ?_ before
    exact map_modifyElement Element.indent σ' e x fun _ => rfl
  | setUsageAttr attrDefs usage =>
    obtain rfl := Option.some.inj called
    exact modify _ fun _ => rfl
  | attrUpdate attrDefs historyDefs id rx tx flags now =>
    obtain rfl := Option.some.inj called
    exact modify _ fun _ => rfl
  | notifyUpdate fuel ts =>
    obtain rfl | ⟨-, attrs, -, -, usage, rfl⟩ := elementNotifyUpdate_cases called
    · rfl
    · exact modify _ fun _ => rfl
  | setUp level => exact absurd rfl (other level)

/-- The end of the set-up writes the level. -/
theorem indent_setUp (σ : Store) (e x : ElementPtr) (level : UInt32) :
    ((σ.modifyElement e (Element.setUp level)).elements x).map Element.indent =
      if x = e then (σ.elements e).map fun r => (level, r.eParent)
      else (σ.elements x).map Element.indent := by
  unfold Store.modifyElement
  simp only
  split_ifs with same
  · rw [same, Option.map_map]
    rfl
  · rfl

/-- A new element has the level zero. -/
theorem indent_elementCreate (cfg : Config) (σ : Store) (group : GroupPtr) (name : CString)
    (id : UInt32) (parent : Option ElementPtr) (x : ElementPtr) :
    ((elementCreate cfg σ group name id parent).elements x).map Element.indent =
      if x = σ.nextElement then some (0, parent) else (σ.elements x).map Element.indent :=
  map_elementCreate Element.indent
    (fun r name value => field_updateInfo Element.indent (fun _ _ _ => rfl) r name value)
    (fun _ _ => rfl) cfg σ group name id parent x

/-- Levels at the top are kept where they are not zero. -/
def TopLevelsKept (σ σ' : Store) : Prop :=
  ∀ x level, (σ'.elements x).map Element.indent = some (level, none) →
    (σ.elements x).map Element.indent = some (level, none) ∨ level = 0

namespace TopLevelsKept

variable {σ σ' : Store}

/-- All levels and parents are kept. -/
theorem of_indent
    (same : ∀ x, (σ'.elements x).map Element.indent = (σ.elements x).map Element.indent) :
    TopLevelsKept σ σ' := fun x _ isTop => Or.inl ((same x).symm.trans isTop)

theorem evolution : Evolution TopLevelsKept where
  trans first second x level isTop := (second x level isTop).elim (first x level) Or.inr
  frees _ _ elements x level isTop := by
    obtain ⟨r, present, indent⟩ := Option.map_eq_some_iff.mp isTop
    rw [elements x r present, Option.map_some, indent]
    exact Or.inl rfl
  marks σ e _ _ := .of_indent fun x => map_modifyElement Element.indent σ e x fun _ => rfl

theorem elementCreate (cfg : Config) (σ : Store) (group : GroupPtr) (name : CString)
    (id : UInt32) (parent : Option ElementPtr) :
    TopLevelsKept σ (elementCreate cfg σ group name id parent) := by
  intro x level isTop
  rw [indent_elementCreate] at isTop
  split_ifs at isTop
  · exact Or.inr (Prod.mk.inj (Option.some.inj isTop)).1.symm
  · exact Or.inl isTop

theorem onElement {cfg : Config} {e : ElementPtr} {op : ElementOp}
    (fair : (InputOp.onElement e op).fairLevel σ = true) (called : op.apply cfg σ e = some σ') :
    TopLevelsKept σ σ' := by
  cases op with
  | setUp level =>
    obtain rfl := Option.some.inj called
    intro x other isTop
    rw [indent_setUp] at isTop
    split_ifs at isTop with same
    · obtain ⟨r, found, isTop⟩ := Option.map_eq_some_iff.mp isTop
      obtain ⟨rfl, alone⟩ := Prod.mk.inj isTop
      rw [InputOp.fairLevel, found, Option.all_some, alone, Option.isSome_none, Bool.false_or,
        beq_iff_eq] at fair
      rw [same, found, ← fair, ← alone]
      exact Or.inl rfl
    · exact Or.inl isTop
  | _ => exact .of_indent (ElementOp.indent_eq (fun _ => by simp) called)

/-- A call of an input module. -/
theorem inputOp {cfg : Config} {op : InputOp} (fair : op.fairLevel σ = true)
    (called : op.apply cfg σ = some σ') : TopLevelsKept σ σ' := by
  refine evolution.inputOp (elementCreate cfg σ) (fun e call _ same called => ?_) called
  rw [same] at fair
  exact onElement fair called

end TopLevelsKept

/-- Levels at the top stay zero where they are kept. -/
theorem Store.Levelled.of_kept {σ σ' : Store} (levelled : σ.Levelled) (wf : σ'.WellFormed)
    (kept : TopLevelsKept σ σ') : σ'.Levelled :=
  ⟨wf, fun x level isTop => (kept x level isTop).elim (levelled.top x level) id⟩

/-- A call of an input module keeps the levels at the top zero. -/
theorem Store.Levelled.inputOp {σ σ' : Store} (levelled : σ.Levelled) {cfg : Config}
    {op : InputOp} (fair : op.fairLevel σ = true) (called : op.apply cfg σ = some σ') :
    σ'.Levelled :=
  levelled.of_kept (InputOp.wellFormed called levelled.wf) (TopLevelsKept.inputOp fair called)

/-- A call of the program that writes no other level at the top keeps these zero. -/
theorem step_levelled {cfg : Config} {st next : State} {op : Op} (valid : st.Valid)
    (levelled : st.store.Levelled) (fair : op.fairLevel st.store = true)
    (stepped : step cfg st op = some next) : next.store.Levelled := by
  refine levelled.of_kept (step_valid valid stepped).store ?_
  refine TopLevelsKept.evolution.step valid (fun call σ same called => ?_) stepped
  rw [same] at fair
  exact TopLevelsKept.inputOp fair called

/-! ### Stores of a read -/

/-- A store that an input module leads to while it reads: nothing is freed or moved. -/
structure Store.Grows (σ σ' : Store) : Prop where
  levelled : σ'.Levelled
  groupList : σ.groupList ⊆ σ'.groupList
  place : ∀ e place, σ.place e = some place → σ'.place e = some place

namespace Store.Grows

variable {σ σ' σ'' : Store}

theorem refl (levelled : σ.Levelled) : σ.Grows σ := ⟨levelled, List.Subset.refl _, fun _ _ => id⟩

theorem trans (first : σ.Grows σ') (second : σ'.Grows σ'') : σ.Grows σ'' :=
  ⟨second.levelled, List.Subset.trans first.groupList second.groupList,
    fun e place present => second.place e place (first.place e place present)⟩

theorem hasDepth (grows : σ.Grows σ') {e : ElementPtr} {depth : Nat}
    (hasDepth : σ.HasDepth e depth) : σ'.HasDepth e depth := hasDepth.stays grows.place

theorem inputOp (levelled : σ.Levelled) {cfg : Config} {op : InputOp}
    (fair : op.fairLevel σ = true) (called : op.apply cfg σ = some σ') : σ.Grows σ' :=
  ⟨levelled.inputOp fair called, InputOp.groupList called,
    fun _ _ => InputOp.place called levelled.wf⟩

/-- Calls on an element that write zero to its level, or are on one with a parent. -/
theorem onElement (levelled : σ.Levelled) {cfg : Config} {e : ElementPtr} {place : Place}
    (present : σ.place e = some place) {calls : List ElementOp}
    (fair : ∀ level, .setUp level ∈ calls → place.parent = none → level = 0)
    (ran : Runs.run (InputOp.apply cfg) σ (calls.map (InputOp.onElement e)) = some σ') :
    σ.Grows σ' := by
  refine Runs.run_invariant_of_mem (fun other => σ.Grows other)
    (fun other op member next grows called => ?_) (refl levelled) ran
  obtain ⟨op, isCall, rfl⟩ := List.mem_map.mp member
  refine grows.trans (inputOp grows.levelled ?_ called)
  cases op with
  | setUp level =>
    obtain ⟨r, found, same⟩ := place_eq_some_iff.mp (grows.place e place present)
    rw [InputOp.fairLevel, found, Option.all_some]
    cases alone : r.eParent with
    | some p => rfl
    | none =>
      have zero := grows.levelled.top e r.eLevel (by
        rw [found, Option.map_some, Element.indent, alone])
      have written := fair level isCall ((congrArg Place.parent same).symm.trans alone)
      rw [zero, written]
      rfl
  | _ => rfl

end Store.Grows

/-! ### Looking up and setting up an element -/

/-- An element that is looked up is in the group and below the parent. -/
theorem elementLookup_place {cfg : Config} {σ : Store} (wf : σ.WellFormed) {group : GroupPtr}
    {name : CString} {id : UInt32} {parent : Option ElementPtr} {creat : Bool} {e : ElementPtr}
    (held : ∀ p ∈ parent, σ.eGroup p = some group)
    (looked : (elementLookup cfg σ group name id parent creat).2 = some e) :
    (elementLookup cfg σ group name id parent creat).1.place e = some ⟨parent, group⟩ := by
  unfold elementLookup at looked ⊢
  cases found : lookupElement σ group name id parent with
  | some e' =>
    simp only [found] at looked ⊢
    obtain rfl := Option.some.inj looked
    have inList := List.mem_of_find?_eq_some found
    obtain ⟨place, present, head⟩ := wf.owned _ _ inList
    rw [present]
    cases parent with
    | none =>
      obtain ⟨alone, rfl⟩ := head_eq_ofGroup_iff.mp head
      rw [← alone]
    | some p =>
      have isParent := head_eq_ofElement_iff.mp head
      have sameGroup := wf.eGroup_child inList
      rw [held p rfl, Store.eGroup, present] at sameGroup
      rw [← isParent, ← Option.some.inj sameGroup]
  | none =>
    simp only [found] at looked ⊢
    split_ifs at looked ⊢
    obtain rfl := Option.some.inj looked
    have place := map_elementCreate Element.place
      (fun r name value => field_updateInfo Element.place (fun _ _ _ => rfl) r name value)
      (fun _ _ => rfl) cfg σ group name id parent σ.nextElement
    rw [if_pos rfl] at place
    exact place

/-- An element that was not there before is marked as created. -/
theorem elementLookup_created {cfg : Config} {σ : Store} {group : GroupPtr} {name : CString}
    {id : UInt32} {parent : Option ElementPtr} {creat : Bool} {e : ElementPtr}
    (looked : (elementLookup cfg σ group name id parent creat).2 = some e)
    (absent : σ.elements e = none) {r : Element}
    (found : (elementLookup cfg σ group name id parent creat).1.elements e = some r) :
    r.eFlags.created = true ∧ r.eLevel = 0 := by
  obtain same | ⟨-, created⟩ := elementLookup_cases cfg σ group name id parent creat
  · have present := elementLookup_present looked
    rw [same, absent] at present
    cases present
  · rw [created] at found
    have fields := map_elementCreate (fun r => (r.eFlags.created, r.eLevel))
      (fun r name value => field_updateInfo (fun r => (r.eFlags.created, r.eLevel))
        (fun _ _ _ => rfl) r name value) (fun _ _ => rfl) cfg σ group name id parent e
    rw [found, absent] at fields
    split_ifs at fields
    · exact Prod.mk.inj (Option.some.inj fields)
    · cases fields

/-- The end of the set-up decides the level, whatever calls there are before and after it. -/
theorem eLevel_calls {cfg : Config} {σ σ' : Store} {e : ElementPtr} {front rest : List ElementOp}
    {level : UInt32} (others : ∀ op ∈ rest, ∀ level, op ≠ .setUp level)
    (ran : Runs.run (InputOp.apply cfg) σ
      ((front ++ .setUp level :: rest).map (InputOp.onElement e)) = some σ') :
    ∃ r, σ'.elements e = some r ∧ r.eLevel = level := by
  rw [List.map_append, List.map_cons] at ran
  obtain ⟨middle, -, ran⟩ := Runs.run_append.mp ran
  obtain ⟨next, called, ranRest⟩ := Option.bind_eq_some_iff.mp ran
  have written : ∃ parent, (next.elements e).map Element.indent = some (level, parent) := by
    rw [InputOp.apply] at called
    split_ifs at called with present
    obtain ⟨r, found⟩ := Option.isSome_iff_exists.mp present
    obtain rfl := Option.some.inj called
    refine ⟨r.eParent, ?_⟩
    rw [indent_setUp, if_pos rfl, found, Option.map_some]
  have kept : ∃ parent, (σ'.elements e).map Element.indent = some (level, parent) := by
    refine Runs.run_invariant_of_mem (fun other : Store => ∃ parent,
      (other.elements e).map Element.indent = some (level, parent))
      (fun other op member next before called => ?_) written ranRest
    obtain ⟨op, isCall, rfl⟩ := List.mem_map.mp member
    rw [InputOp.apply] at called
    split_ifs at called
    rw [ElementOp.indent_eq (others op isCall) called]
    exact before
  obtain ⟨parent, indent⟩ := kept
  obtain ⟨r, found, same⟩ := Option.map_eq_some_iff.mp indent
  exact ⟨r, found, (Prod.mk.inj same).1⟩

end Bmon
