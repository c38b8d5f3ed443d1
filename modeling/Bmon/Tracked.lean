/-
This file shows which elements `element_lookup` finds for an input module, and which it creates.

The calls of an input module on an element leave the other elements alone, and the lists, the
names and the policies as they are. An element that is created is a new entry at the end of one
list. So whether an element is tracked, or would be created, only changes for its own name.
-/

import Bmon.Program
import Mathlib.Data.List.Find

namespace Bmon

/-! ### Policies -/

/-- `element_allowed` for a name, with its configuration. -/
def Store.allows (σ : Store) (name : CString) : Bool :=
  elementAllowed σ name ((elementCfgLookup σ name).bind fun c => σ.cfgList[c]?)

/-- The flags of the configuration of a name, none if it has no configuration. -/
def Store.cfgFlags (σ : Store) (name : CString) : CfgFlags :=
  ((σ.cfgList.find? fun ec => ec.ecName = name).map ElementCfg.ecFlags).getD {}

/-- Policies and flags decide whether a name is allowed. -/
theorem allows_congr {σ σ' : Store} {name : CString} (allowed : σ'.allowed = σ.allowed)
    (denied : σ'.denied = σ.denied) (flags : σ'.cfgFlags name = σ.cfgFlags name) :
    σ'.allows name = σ.allows name := by
  have byFlags : ∀ σ : Store, σ.allows name =
      elementAllowed σ name (some ⟨name, none, 0, 0, σ.cfgFlags name⟩) := fun σ => by
    unfold Store.allows elementAllowed Store.cfgFlags elementCfgLookup
    rw [← List.find?_eq_bind_findIdx?_getElem?]
    cases σ.cfgList.find? fun ec => ec.ecName = name <;> rfl
  rw [byFlags σ', byFlags σ, flags]
  unfold elementAllowed
  rw [allowed, denied]

theorem cfgFlags_elementCfgCreate (σ : Store) (other name : CString) :
    (elementCfgCreate σ other).1.cfgFlags name = σ.cfgFlags name := by
  unfold elementCfgCreate
  cases elementCfgLookup σ other with
  | some c => rfl
  | none =>
    unfold Store.cfgFlags
    simp only [List.find?_append]
    cases found : σ.cfgList.find? fun ec => ec.ecName = name with
    | some ec => rfl
    | none =>
      rw [Option.none_or, List.find?_singleton]
      split_ifs <;> rfl

theorem cfgFlags_setMax (σ : Store) (direction : Direction) (max : UInt64) (c : CfgPtr)
    (name : CString) :
    ({ σ with cfgList := σ.cfgList.modify c (ElementCfg.setMax direction max) } : Store).cfgFlags
      name = σ.cfgFlags name := by
  have same : ∀ ec : ElementCfg, (ec.setMax direction max).ecName = ec.ecName ∧
      (ec.setMax direction max).ecFlags = ec.ecFlags := fun ec => by
    cases direction <;> exact ⟨rfl, rfl⟩
  unfold Store.cfgFlags
  simp only
  induction σ.cfgList generalizing c with
  | nil => rw [List.modify_nil]
  | cons ec rest inductionHypothesis =>
    cases c with
    | zero =>
      rw [List.modify_zero_cons, List.find?_cons, List.find?_cons, (same ec).1]
      split
      · rw [Option.map_some, Option.map_some, (same ec).2]
      · rfl
    | succ c =>
      rw [List.modify_succ_cons, List.find?_cons, List.find?_cons]
      split
      · rfl
      · exact inductionHypothesis c

/-! ### Calls on one element -/

/-- What an element is called and where it is. -/
def Element.identity (r : Element) : Place × CString × UInt32 := (r.place, r.eName, r.eId)

/-- Only the record of one element is changed, and neither what it is called nor where it is. -/
structure Touches (e : ElementPtr) (σ σ' : Store) : Prop where
  others : ∀ x, x ≠ e → σ'.elements x = σ.elements x
  identity : (σ'.elements e).map Element.identity = (σ.elements e).map Element.identity
  lists : σ'.lists = σ.lists
  groups : σ'.groups = σ.groups
  groupList : σ'.groupList = σ.groupList
  nextElement : σ'.nextElement = σ.nextElement
  nextGroup : σ'.nextGroup = σ.nextGroup
  titlesList : σ'.titlesList = σ.titlesList
  allows : σ'.allows = σ.allows

namespace Touches

variable {e : ElementPtr} {σ σ' σ'' : Store}

theorem refl (e : ElementPtr) (σ : Store) : Touches e σ σ :=
  ⟨fun _ _ => rfl, rfl, rfl, rfl, rfl, rfl, rfl, rfl, rfl⟩

theorem trans (first : Touches e σ σ') (second : Touches e σ' σ'') : Touches e σ σ'' where
  others x other := (second.others x other).trans (first.others x other)
  identity := second.identity.trans first.identity
  lists := second.lists.trans first.lists
  groups := second.groups.trans first.groups
  groupList := second.groupList.trans first.groupList
  nextElement := second.nextElement.trans first.nextElement
  nextGroup := second.nextGroup.trans first.nextGroup
  titlesList := second.titlesList.trans first.titlesList
  allows := second.allows.trans first.allows

/-- A change of the configurations that leaves their flags. -/
theorem of_cfgList (σ : Store) (cfgList : List ElementCfg)
    (flags : ∀ name, ({ σ with cfgList := cfgList } : Store).cfgFlags name = σ.cfgFlags name) :
    Touches e σ { σ with cfgList := cfgList } :=
  ⟨fun _ _ => rfl, rfl, rfl, rfl, rfl, rfl, rfl, rfl,
    funext fun name => allows_congr rfl rfl (flags name)⟩

theorem modifyElement (σ : Store) (e : ElementPtr) {change : Element → Element}
    (stays : ∀ r, (change r).identity = r.identity) : Touches e σ (σ.modifyElement e change) where
  others _ other := if_neg other
  identity := map_modifyElement Element.identity σ e e stays
  lists := rfl
  groups := rfl
  groupList := rfl
  nextElement := rfl
  nextGroup := rfl
  titlesList := rfl
  allows := funext fun _ => allows_congr rfl rfl rfl

variable (touches : Touches e σ σ')

include touches

/-- Every element keeps what it is called and where it is. -/
theorem identity_eq (x : ElementPtr) :
    (σ'.elements x).map Element.identity = (σ.elements x).map Element.identity := by
  by_cases same : x = e
  · rw [same]
    exact touches.identity
  · rw [touches.others x same]

theorem sameShape : SameShape σ σ' where
  place := funext fun x => by
    have same := congrArg (Option.map Prod.fst) (touches.identity_eq x)
    rw [Option.map_map, Option.map_map] at same
    exact same
  lists := touches.lists
  groupList := touches.groupList
  nextElement := touches.nextElement
  nextGroup := touches.nextGroup

theorem lookupElement_eq (group : GroupPtr) (name : CString) (id : UInt32)
    (parent : Option ElementPtr) :
    lookupElement σ' group name id parent = lookupElement σ group name id parent := by
  unfold lookupElement
  rw [touches.lists]
  refine List.find?_congr fun x _ => ?_
  have same := touches.identity_eq x
  cases before : σ.elements x with
  | none =>
    rw [before, Option.map_none, Option.map_eq_none_iff] at same
    rw [same]
  | some r =>
    rw [before, Option.map_some, Option.map_eq_some_iff] at same
    obtain ⟨r', after, equal⟩ := same
    obtain ⟨-, nameSame, idSame⟩ : r'.place = r.place ∧ r'.eName = r.eName ∧ r'.eId = r.eId := by
      simpa [Element.identity] using equal
    rw [after, Option.any_some, Option.any_some, nameSame, idSame]

end Touches

/-- Linking and counting an element changes nothing else. -/
theorem Touches.link {e : ElementPtr} {σ σ' : Store} (touches : Touches e σ σ') (x : ElementPtr)
    (head : ListHead) (g : GroupPtr) (change : ElementGroup → ElementGroup) :
    Touches e ((σ.listAddTail x head).modifyGroup g change)
      ((σ'.listAddTail x head).modifyGroup g change) where
  others := touches.others
  identity := touches.identity
  lists := by
    unfold Store.modifyGroup Store.listAddTail
    simp only [touches.lists]
  groups := by
    unfold Store.modifyGroup Store.listAddTail
    simp only [touches.groups]
  groupList := touches.groupList
  nextElement := touches.nextElement
  nextGroup := touches.nextGroup
  titlesList := touches.titlesList
  allows := touches.allows

theorem touches_elementUpdateInfo (σ : Store) (e : ElementPtr) (name value : String) :
    Touches e σ (elementUpdateInfo σ e name value) :=
  Touches.modifyElement σ e fun r =>
    field_updateInfo Element.identity (fun _ _ _ => rfl) r name value

theorem touches_elementSetMax (direction : Direction) (info : String) (σ : Store)
    (e : ElementPtr) (max : UInt64) : Touches e σ (elementSetMax direction info σ e max) := by
  have creates : ∀ σ' name, Touches e σ σ' → Touches e σ (elementCfgCreate σ' name).1 :=
    fun σ' name before => by
      have config := elementCfgCreate_cfgList σ' name
      rw [config]
      refine before.trans (Touches.of_cfgList σ' _ fun other => ?_)
      rw [← config]
      exact cfgFlags_elementCfgCreate σ' name other
  obtain ⟨-, same⟩ | ⟨σ', before, same⟩ := elementSetMax_cases (Touches e σ) direction creates
    (fun σ' c before => before.trans (Touches.modifyElement σ' e fun _ => rfl))
    (fun σ' c max before => before.trans (Touches.of_cfgList σ' _ fun name =>
      cfgFlags_setMax _ direction max _ name)) info max (.refl e σ)
  · rw [same]
    exact Touches.refl e σ
  · rw [same]
    exact before.trans (touches_elementUpdateInfo σ' e _ _)

theorem touches_elementConfigure (σ : Store) (e : ElementPtr) (ec : Option ElementCfg) :
    Touches e σ (elementConfigure σ e ec) :=
  elementConfigure_rule (Touches e σ)
    (fun σ' _ _ before => before.trans (touches_elementUpdateInfo σ' e _ _))
    (fun σ' _ _ _ before => before.trans (touches_elementSetMax _ _ σ' e _)) ec (.refl e σ)

/-- Every call on an element changes only its record. -/
theorem ElementOp.touches {cfg : Config} {σ σ' : Store} {e : ElementPtr} {op : ElementOp}
    (called : op.apply cfg σ e = some σ') : Touches e σ σ' := by
  cases op with
  | lifesign =>
    obtain rfl := Option.some.inj called
    exact Touches.modifyElement σ e fun _ => rfl
  | updateInfo name value =>
    obtain rfl := Option.some.inj called
    exact touches_elementUpdateInfo σ e name value
  | setRxmax max =>
    obtain rfl := Option.some.inj called
    exact touches_elementSetMax .rx "RxMax" σ e max
  | setTxmax max =>
    obtain rfl := Option.some.inj called
    exact touches_elementSetMax .tx "TxMax" σ e max
  | setKeyAttr attrDefs major minor =>
    obtain rfl := Option.some.inj called
    exact elementSetKeyAttr_rule (Touches e σ) (fun σ' column definition before =>
      before.trans (Touches.modifyElement σ' e fun _ => rfl)) attrDefs major minor (.refl e σ)
  | setUsageAttr attrDefs usage =>
    obtain rfl := Option.some.inj called
    exact Touches.modifyElement σ e fun _ => rfl
  | attrUpdate attrDefs historyDefs id rx tx flags now =>
    obtain rfl := Option.some.inj called
    exact Touches.modifyElement σ e fun _ => rfl
  | notifyUpdate fuel ts =>
    obtain rfl | ⟨-, attrs, -, -, usage, rfl⟩ := elementNotifyUpdate_cases called
    · exact Touches.refl e σ'
    · exact Touches.modifyElement σ e fun _ => rfl
  | setUp level =>
    obtain rfl := Option.some.inj called
    exact Touches.modifyElement σ e fun _ => rfl

/-- Any number of calls on an element change only its record. -/
theorem touches_run {cfg : Config} {e : ElementPtr} {ops : List ElementOp} {σ σ' : Store}
    (ran : Runs.run (InputOp.apply cfg) σ (ops.map (InputOp.onElement e)) = some σ') :
    Touches e σ σ' := by
  refine Runs.run_invariant_of_mem (fun other => Touches e σ other)
    (fun other op member next touches stepped => ?_) (Touches.refl e σ) ran
  obtain ⟨op, -, rfl⟩ := List.mem_map.mp member
  rw [InputOp.apply] at stepped
  split_ifs at stepped
  exact touches.trans (ElementOp.touches stepped)

/-! ### Looking up a group -/

/-- The group of a name. -/
def Store.groupNamed (σ : Store) (name : CString) : Option GroupPtr :=
  σ.groupList.find? fun g => (σ.groups g).any fun r => r.gName = name

/-- The group of a name is in the list, and has this name. -/
theorem groupNamed_eq_some {σ : Store} {name : CString} {g : GroupPtr}
    (found : σ.groupNamed name = some g) :
    g ∈ σ.groupList ∧ (σ.groups g).map ElementGroup.gName = some name := by
  refine ⟨List.mem_of_find?_eq_some found, ?_⟩
  have matched := List.find?_some found
  obtain ⟨r, isGroup, named⟩ := (Option.any_eq_true _ _).mp matched
  rw [isGroup, Option.map_some, of_decide_eq_true named]

/-- The names of the groups decide which is found. -/
theorem groupNamed_congr {σ σ' : Store} (groupList : σ'.groupList = σ.groupList)
    (gName : ∀ g ∈ σ.groupList, (σ'.groups g).map ElementGroup.gName =
      (σ.groups g).map ElementGroup.gName) (name : CString) :
    σ'.groupNamed name = σ.groupNamed name := by
  unfold Store.groupNamed
  rw [groupList]
  refine List.find?_congr fun g member => ?_
  have same := congrArg (Option.any fun other => decide (other = name)) (gName g member)
  rw [Option.any_map, Option.any_map] at same
  exact same

/-! ### Looking up an element -/

/-- Creating an element is linking it and changing its record. -/
theorem touches_elementCreate (cfg : Config) (σ : Store) (group : GroupPtr) (name : CString)
    (id : UInt32) (parent : Option ElementPtr) :
    Touches σ.nextElement (elementLinked cfg σ group name id parent)
      (elementCreate cfg σ group name id parent) :=
  (touches_elementConfigure _ _ _).link _ _ _ _

section

variable {Field : Type*} (field : Element → Field)
variable (info : ∀ r name value, field (Element.updateInfo name value r) = field r)
variable (config : ∀ r c, field { r with eCfg := c } = field r)

include info config

/-- Setting a maximum changes the information and the configuration of an element. -/
theorem map_elementSetMax (direction : Direction) (name : String) (σ : Store)
    (e x : ElementPtr) (max : UInt64) :
    ((elementSetMax direction name σ e max).elements x).map field =
      (σ.elements x).map field := by
  obtain ⟨-, same⟩ | ⟨σ', before, same⟩ := elementSetMax_cases
    (fun σ' => (σ'.elements x).map field = (σ.elements x).map field) direction
    (fun σ' name before => by rwa [elementCfgCreate_cfgList])
    (fun σ' c before => (map_modifyElement field σ' e x fun r => config r _).trans before)
    (fun σ' c max before => before) name max rfl
  · rw [same]
  · rw [same]
    exact (map_modifyElement field σ' e x fun r => info r _ _).trans before

/-- So does applying a configuration. -/
theorem map_elementConfigure (σ : Store) (e x : ElementPtr) (ec : Option ElementCfg) :
    ((elementConfigure σ e ec).elements x).map field = (σ.elements x).map field :=
  elementConfigure_rule (fun σ' => (σ'.elements x).map field = (σ.elements x).map field)
    (fun σ' _ _ before => (map_modifyElement field σ' e x fun r => info r _ _).trans before)
    (fun σ' _ _ _ before => (map_elementSetMax field info config _ _ σ' e x _).trans before) ec rfl

/-- The record of an element that is created, as far as its configuration does not change it. -/
theorem map_elementCreate (cfg : Config) (σ : Store) (g : GroupPtr) (name : CString)
    (id : UInt32) (parent : Option ElementPtr) (x : ElementPtr) :
    ((elementCreate cfg σ g name id parent).elements x).map field =
      if x = σ.nextElement then
        some (field (elementNew cfg g name id parent (elementCfgLookup σ name)))
      else (σ.elements x).map field := by
  change ((elementConfigure (elementAlloc σ _) σ.nextElement _).elements x).map field = _
  rw [map_elementConfigure field info config]
  unfold elementAlloc
  simp only
  split_ifs <;> rfl

end

/-- The element that is tracked for a name in a group, at its top. -/
def Store.tracked (σ : Store) (g : GroupPtr) (name : CString) : Option ElementPtr :=
  lookupElement σ g name 0 none

/-- The element that is tracked for a name has been updated since the flags were reset. -/
def Store.updated (σ : Store) (g : GroupPtr) (name : CString) : Bool :=
  (σ.tracked g name).any fun e => (σ.elements e).any fun r => r.eFlags.updated

/-- What is tracked for a name is in the list of the group, under that name. -/
theorem tracked_eq_some {σ : Store} {g : GroupPtr} {name : CString} {e : ElementPtr}
    (found : σ.tracked g name = some e) :
    e ∈ σ.lists (.ofGroup g) ∧ ∃ r, σ.elements e = some r ∧ r.eName = name := by
  unfold Store.tracked lookupElement at found
  refine ⟨List.mem_of_find?_eq_some found, ?_⟩
  have matched := List.find?_some found
  obtain ⟨r, isElement, matched⟩ := (Option.any_eq_true _ _).mp matched
  exact ⟨r, isElement, (of_decide_eq_true matched).1⟩

/-- Different names, or names in different groups, have different elements. -/
theorem tracked_ne {σ : Store} (wf : σ.WellFormed) {g g' : GroupPtr} {name name' : CString}
    {e e' : ElementPtr} (found : σ.tracked g name = some e)
    (found' : σ.tracked g' name' = some e') (apart : ¬(g' = g ∧ name' = name)) : e' ≠ e := by
  rintro rfl
  obtain ⟨inList, r, isElement, isName⟩ := tracked_eq_some found
  obtain ⟨inList', r', isElement', isName'⟩ := tracked_eq_some found'
  rw [isElement] at isElement'
  obtain rfl := Option.some.inj isElement'
  have group := wf.eGroup_of_mem inList
  rw [wf.eGroup_of_mem inList'] at group
  exact apart ⟨Option.some.inj group, isName'.symm.trans isName⟩

/-- What is found when an element is created: it, and what was found before. -/
theorem lookupElement_elementCreate (cfg : Config) {σ : Store} (wf : σ.WellFormed) (g : GroupPtr)
    (name : CString) (id : UInt32) (parent : Option ElementPtr) (g' : GroupPtr) (name' : CString)
    (id' : UInt32) (parent' : Option ElementPtr) :
    lookupElement (elementCreate cfg σ g name id parent) g' name' id' parent' =
      (lookupElement σ g' name' id' parent').or
        (if listOf g' parent' = listOf g parent ∧ name' = name ∧ id' = id then
          some σ.nextElement else none) := by
  rw [(touches_elementCreate cfg σ g name id parent).lookupElement_eq]
  unfold lookupElement
  rw [wf.lists_elementLinked, List.find?_append]
  have old : ∀ e ∈ σ.lists (listOf g' parent'),
      ((elementLinked cfg σ g name id parent).elements e).any
          (fun r => decide (r.eName = name' ∧ r.eId = id')) =
        (σ.elements e).any fun r => decide (r.eName = name' ∧ r.eId = id') := fun e member => by
    rw [elements_elementLinked, if_neg (wf.lt_of_mem member).ne]
  rw [List.find?_congr old]
  refine congrArg (Option.or _) ?_
  by_cases same : listOf g' parent' = listOf g parent
  · rw [if_pos same, List.find?_singleton, elements_elementLinked, if_pos rfl]
    by_cases sameKey : name' = name ∧ id' = id
    · simp [elementNew, same, sameKey.1, sameKey.2]
    · have different : ¬(name = name' ∧ id = id') := fun equal =>
        sameKey ⟨equal.1.symm, equal.2.symm⟩
      simp [elementNew, sameKey, different]
  · rw [if_neg same, if_neg fun all => same all.1]
    rfl

/-- What is tracked when an element is created: it, and what was tracked before. -/
theorem tracked_elementCreate (cfg : Config) {σ : Store} (wf : σ.WellFormed) (g : GroupPtr)
    (name : CString) (g' : GroupPtr) (name' : CString) :
    (elementCreate cfg σ g name 0 none).tracked g' name' =
      (σ.tracked g' name').or
        (if g' = g ∧ name' = name then some σ.nextElement else none) := by
  unfold Store.tracked
  rw [lookupElement_elementCreate cfg wf]
  refine congrArg (Option.or _) (if_congr ?_ rfl rfl)
  rw [eq_self_iff_true, and_true]
  exact and_congr_left' ⟨ListHead.ofGroup.inj, congrArg ListHead.ofGroup⟩

/-- Only the element that is tracked for one name in one group is changed, or it is created. -/
structure FeedsOnly (g : GroupPtr) (name : CString) (σ σ' : Store) : Prop where
  wf : σ'.WellFormed
  groupList : σ'.groupList = σ.groupList
  gName : ∀ p, (σ'.groups p).map ElementGroup.gName = (σ.groups p).map ElementGroup.gName
  titlesList : σ'.titlesList = σ.titlesList
  allows : σ'.allows = σ.allows
  kept : ∀ e, σ.tracked g name = some e → σ'.tracked g name = some e
  other : ∀ g' name', ¬(g' = g ∧ name' = name) →
    σ'.tracked g' name' = σ.tracked g' name' ∧ σ'.updated g' name' = σ.updated g' name'

namespace FeedsOnly

variable {g : GroupPtr} {name : CString} {σ σ' σ'' : Store}

theorem refl (wf : σ.WellFormed) : FeedsOnly g name σ σ :=
  ⟨wf, rfl, fun _ => rfl, rfl, rfl, fun _ found => found, fun _ _ _ => ⟨rfl, rfl⟩⟩

theorem trans (first : FeedsOnly g name σ σ') (second : FeedsOnly g name σ' σ'') :
    FeedsOnly g name σ σ'' where
  wf := second.wf
  groupList := second.groupList.trans first.groupList
  gName p := (second.gName p).trans (first.gName p)
  titlesList := second.titlesList.trans first.titlesList
  allows := second.allows.trans first.allows
  kept e found := second.kept e (first.kept e found)
  other g' name' apart :=
    ⟨(second.other g' name' apart).1.trans (first.other g' name' apart).1,
      (second.other g' name' apart).2.trans (first.other g' name' apart).2⟩

/-- Other elements keep their flags where their records stay. -/
theorem updated_eq {g' : GroupPtr} {name' : CString}
    (tracked : σ'.tracked g' name' = σ.tracked g' name')
    (elements : ∀ e, σ.tracked g' name' = some e → σ'.elements e = σ.elements e) :
    σ'.updated g' name' = σ.updated g' name' := by
  unfold Store.updated
  rw [tracked]
  cases found : σ.tracked g' name' with
  | none => rfl
  | some e => rw [Option.any_some, Option.any_some, elements e found]

/-- Calls on an element that is tracked. -/
theorem of_touches (wf : σ.WellFormed) {e : ElementPtr} (found : σ.tracked g name = some e)
    (touches : Touches e σ σ') : FeedsOnly g name σ σ' where
  wf := wf.sameShape touches.sameShape
  groupList := touches.groupList
  gName p := by rw [touches.groups]
  titlesList := touches.titlesList
  allows := touches.allows
  kept e' found' := (touches.lookupElement_eq g name 0 none).trans found'
  other g' name' apart := by
    have tracked := touches.lookupElement_eq g' name' 0 none
    refine ⟨tracked, updated_eq tracked fun x found' => touches.others x ?_⟩
    exact tracked_ne wf found found' apart

/-- Creating an element that was not tracked. -/
theorem of_elementCreate (cfg : Config) (wf : σ.WellFormed) (isGroup : g ∈ σ.groupList)
    (absent : σ.tracked g name = none) :
    FeedsOnly g name σ (elementCreate cfg σ g name 0 none) where
  wf := wf.elementCreate cfg g name 0 none isGroup fun p above => by cases above
  groupList := (touches_elementCreate cfg σ g name 0 none).groupList
  gName p := by
    rw [(touches_elementCreate cfg σ g name 0 none).groups]
    change (if p = g then (σ.groups p).map _ else σ.groups p).map _ = _
    split_ifs
    · rw [Option.map_map]
      rfl
    · rfl
  titlesList := (touches_elementCreate cfg σ g name 0 none).titlesList
  allows := (touches_elementCreate cfg σ g name 0 none).allows.trans
    (funext fun _ => allows_congr rfl rfl rfl)
  kept e found := by
    rw [absent] at found
    cases found
  other g' name' apart := by
    have tracked : (elementCreate cfg σ g name 0 none).tracked g' name' = σ.tracked g' name' := by
      rw [tracked_elementCreate cfg wf, if_neg apart, Option.or_none]
    refine ⟨tracked, updated_eq tracked fun e found => ?_⟩
    have old := (wf.lt_of_mem (tracked_eq_some found).1).ne
    rw [(touches_elementCreate cfg σ g name 0 none).others e old, elements_elementLinked,
      if_neg old]

end FeedsOnly

/-- The name is tracked in the group already, or permitted. -/
def Store.Eligible (σ : Store) (g : GroupPtr) (name : CString) : Prop :=
  (σ.tracked g name).isSome ∨ σ.allows name = true

namespace FeedsOnly

variable {g : GroupPtr} {name : CString} {σ σ' : Store} (feeds : FeedsOnly g name σ σ')

include feeds

/-- What was tracked before stays so. -/
theorem tracked_of_some {g' : GroupPtr} {name' : CString} {e : ElementPtr}
    (found : σ.tracked g' name' = some e) : σ'.tracked g' name' = some e := by
  by_cases same : g' = g ∧ name' = name
  · obtain ⟨rfl, rfl⟩ := same
    exact feeds.kept e found
  · rw [(feeds.other g' name' same).1]
    exact found

/-- Where the element itself was eligible, the same names are eligible afterwards. -/
theorem eligible_iff (eligible : σ.Eligible g name) (g' : GroupPtr) (name' : CString) :
    σ'.Eligible g' name' ↔ σ.Eligible g' name' := by
  unfold Store.Eligible
  rw [feeds.allows]
  by_cases same : g' = g ∧ name' = name
  · obtain ⟨rfl, rfl⟩ := same
    refine iff_of_true (eligible.imp_left fun tracked => ?_) eligible
    obtain ⟨e, found⟩ := Option.isSome_iff_exists.mp tracked
    exact Option.isSome_iff_exists.mpr ⟨e, feeds.kept e found⟩
  · rw [(feeds.other g' name' same).1]

end FeedsOnly

/-- What `element_lookup` finds or creates for an input module. -/
theorem elementLookup_some {cfg : Config} {σ σ' : Store} (wf : σ.WellFormed) {g : GroupPtr}
    (isGroup : g ∈ σ.groupList) {name : CString} {e : ElementPtr}
    (looked : elementLookup cfg σ g name 0 none true = (σ', some e)) :
    σ.Eligible g name ∧ FeedsOnly g name σ σ' ∧ σ'.tracked g name = some e ∧
      σ'.updated g name = σ.updated g name := by
  unfold elementLookup at looked
  cases found : lookupElement σ g name 0 none with
  | some e' =>
    rw [found] at looked
    obtain ⟨rfl, same⟩ := Prod.mk.inj looked
    obtain rfl := Option.some.inj same
    exact ⟨Or.inl (Option.isSome_iff_exists.mpr ⟨e', found⟩), .refl wf, found, rfl⟩
  | none =>
    rw [found] at looked
    simp only [true_and] at looked
    split_ifs at looked with allowed
    · obtain ⟨rfl, same⟩ := Prod.mk.inj looked
      obtain rfl := Option.some.inj same
      have absent : σ.tracked g name = none := found
      have tracked : (elementCreate cfg σ g name 0 none).tracked g name = some σ.nextElement := by
        rw [tracked_elementCreate cfg wf, absent, if_pos ⟨rfl, rfl⟩]
        rfl
      refine ⟨Or.inr allowed, .of_elementCreate cfg wf isGroup absent, tracked, ?_⟩
      have flags := map_elementCreate Element.eFlags
        (field_updateInfo Element.eFlags fun _ _ _ => rfl) (fun _ _ => rfl) cfg σ g name 0 none
        σ.nextElement
      rw [if_pos rfl] at flags
      obtain ⟨r, isElement, sameFlags⟩ := Option.map_eq_some_iff.mp flags
      unfold Store.updated
      rw [tracked, absent, Option.any_some, isElement, Option.any_some, sameFlags]
      rfl
    · cases (Prod.mk.inj looked).2

/-- Where `element_lookup` returns nothing it has changed nothing. -/
theorem elementLookup_none {cfg : Config} {σ σ' : Store} {g : GroupPtr} {name : CString}
    (looked : elementLookup cfg σ g name 0 none true = (σ', none)) :
    ¬σ.Eligible g name ∧ σ' = σ := by
  unfold elementLookup at looked
  cases found : lookupElement σ g name 0 none with
  | some e' =>
    rw [found] at looked
    cases (Prod.mk.inj looked).2
  | none =>
    rw [found] at looked
    simp only [true_and] at looked
    split_ifs at looked with allowed
    · cases (Prod.mk.inj looked).2
    · refine ⟨?_, (Prod.mk.inj looked).1.symm⟩
      rintro (tracked | permitted)
      · have absent : σ.tracked g name = none := found
        rw [absent] at tracked
        cases tracked
      · exact allowed permitted

/-- Looking up an element does not change which names are allowed. -/
theorem allows_elementLookup (cfg : Config) (σ : Store) (group : GroupPtr) (name : CString)
    (id : UInt32) (parent : Option ElementPtr) (creat : Bool) :
    (elementLookup cfg σ group name id parent creat).1.allows = σ.allows := by
  obtain same | ⟨-, created⟩ := elementLookup_cases cfg σ group name id parent creat
  · rw [same]
  · rw [created]
    exact (touches_elementCreate cfg σ group name id parent).allows.trans
      (funext fun _ => allows_congr rfl rfl rfl)

/-- What `element_lookup` returns is in the store. -/
theorem elementLookup_present {cfg : Config} {σ : Store} {group : GroupPtr} {name : CString}
    {id : UInt32} {parent : Option ElementPtr} {creat : Bool} {e : ElementPtr}
    (looked : (elementLookup cfg σ group name id parent creat).2 = some e) :
    ((elementLookup cfg σ group name id parent creat).1.elements e).isSome := by
  unfold elementLookup at looked ⊢
  cases found : lookupElement σ group name id parent with
  | some e' =>
    simp only [found] at looked ⊢
    obtain rfl := Option.some.inj looked
    unfold lookupElement at found
    have matched := List.find?_some found
    obtain ⟨r, isElement, -⟩ := (Option.any_eq_true _ _).mp matched
    rw [isElement]
    rfl
  | none =>
    simp only [found] at looked ⊢
    split_ifs at looked ⊢
    obtain rfl := Option.some.inj looked
    have created := map_elementCreate (fun _ => ()) (fun _ _ _ => rfl) (fun _ _ => rfl) cfg σ
      group name id parent σ.nextElement
    rw [if_pos rfl] at created
    obtain ⟨r, isElement, -⟩ := Option.map_eq_some_iff.mp created
    rw [isElement]
    rfl

/-- For a name that is allowed `element_lookup` finds an element or creates one. -/
theorem elementLookup_allowed (cfg : Config) {σ : Store} (group : GroupPtr) {name : CString}
    (allowed : σ.allows name = true) (id : UInt32) (parent : Option ElementPtr) :
    (elementLookup cfg σ group name id parent true).2.isSome := by
  unfold Store.allows at allowed
  unfold elementLookup
  cases lookupElement σ group name id parent with
  | some e => rfl
  | none =>
    simp only [true_and]
    rw [if_pos allowed]
    rfl

/-! ### Looking up a group and then its elements -/

/-- A group is there afterwards, and may be new and empty; nothing else is changed. -/
structure FindsGroup (name : CString) (g : GroupPtr) (σ σ' : Store) : Prop where
  wf : σ'.WellFormed
  named : σ'.groupNamed name = some g
  elements : σ'.elements = σ.elements
  lists : σ'.lists = σ.lists
  titlesList : σ'.titlesList = σ.titlesList
  allows : σ'.allows = σ.allows
  old : ∀ name' g', σ.groupNamed name' = some g' → σ'.groupNamed name' = some g'
  other : ∀ name', name' ≠ name → σ'.groupNamed name' = σ.groupNamed name'
  fresh : σ.groupNamed name = none → ∀ name', σ'.tracked g name' = none

/-- No element is added or lost. -/
theorem FindsGroup.tracked_eq {name : CString} {g : GroupPtr} {σ σ' : Store}
    (finds : FindsGroup name g σ σ') : σ'.tracked = σ.tracked := by
  funext g' name'
  unfold Store.tracked lookupElement
  rw [finds.lists, finds.elements]

/-- A group that is created is found by its name only. -/
theorem groupNamed_groupCreate {σ : Store} (wf : σ.WellFormed) (hdr : GroupHdr)
    (name : CString) :
    (groupCreate σ hdr).groupNamed name =
      (σ.groupNamed name).or (if hdr.ghName = name then some σ.nextGroup else none) := by
  unfold Store.groupNamed groupCreate
  simp only [List.find?_append]
  rw [List.find?_congr fun g member => by rw [if_neg (wf.group_lt g member).ne]]
  refine congrArg (Option.or _) ?_
  rw [List.find?_singleton, if_pos rfl, Option.any_some]
  simp only [decide_eq_true_eq]

/-- Where `group_lookup` returns nothing it changes nothing. -/
theorem groupLookup_none {σ σ' : Store} {name : CString} {create : Bool}
    (looked : groupLookup σ name create = (σ', none)) : σ' = σ := by
  unfold groupLookup at looked
  split at looked
  · cases (Prod.mk.inj looked).2
  · split_ifs at looked
    · split at looked
      · exact (Prod.mk.inj looked).1.symm
      · cases (Prod.mk.inj looked).2
    · exact (Prod.mk.inj looked).1.symm

/-- A group that exists, or whose header does, is returned. -/
theorem groupLookup_returns {σ : Store} {name : CString}
    (known : (σ.groupNamed name).isSome ∨ (groupLookupHdr σ name).isSome) :
    ∃ g, (groupLookup σ name true).2 = some g := by
  have before : σ.groupNamed name = σ.groupList.find? fun g =>
    (σ.groups g).any fun r => r.gName = name := rfl
  unfold groupLookup
  rw [← before]
  cases named : σ.groupNamed name with
  | some g => exact ⟨g, rfl⟩
  | none =>
    obtain found | header := known
    · rw [named] at found
      cases found
    · obtain ⟨hdr, header⟩ := Option.isSome_iff_exists.mp header
      simp only [if_true, header]
      exact ⟨_, rfl⟩

/-- What `group_lookup` finds or creates. -/
theorem groupLookup_some {σ σ' : Store} (wf : σ.WellFormed) {name : CString} {g : GroupPtr}
    (looked : groupLookup σ name true = (σ', some g)) : FindsGroup name g σ σ' := by
  have kept : σ'.WellFormed := by
    have kept := wf.groupLookup name true
    rw [looked] at kept
    exact kept
  have before : σ.groupNamed name = σ.groupList.find? fun g =>
      (σ.groups g).any fun r => r.gName = name := rfl
  unfold groupLookup at looked
  rw [← before] at looked
  cases found : σ.groupNamed name with
  | some g' =>
    rw [found] at looked
    obtain ⟨rfl, same⟩ := Prod.mk.inj looked
    obtain rfl := Option.some.inj same
    exact ⟨wf, found, rfl, rfl, rfl, rfl, fun _ _ old => old, fun _ _ => rfl, fun absent => by
      rw [found] at absent
      cases absent⟩
  | none =>
    simp only [found, if_true] at looked
    split at looked
    · cases (Prod.mk.inj looked).2
    · next hdr header =>
      obtain ⟨rfl, same⟩ := Prod.mk.inj looked
      obtain rfl := Option.some.inj same
      have isName : hdr.ghName = name := by
        unfold groupLookupHdr at header
        have matched := List.find?_some header
        exact of_decide_eq_true matched
      have absent : σ.lists (.ofGroup σ.nextGroup) = [] :=
        wf.lists_of_group_not_mem fun member => lt_irrefl _ (wf.group_lt _ member)
      have lists : (groupCreate σ hdr).lists = σ.lists := by
        funext head
        unfold groupCreate
        simp only
        split_ifs with new
        · rw [new, absent]
        · rfl
      refine ⟨kept, ?_, rfl, lists, rfl, funext fun _ => allows_congr rfl rfl rfl,
        fun name' g' old => ?_, fun name' different => ?_, fun _ name' => ?_⟩
      · rw [groupNamed_groupCreate wf, found, if_pos isName]
        rfl
      · rw [groupNamed_groupCreate wf, old]
        rfl
      · rw [groupNamed_groupCreate wf, isName, if_neg different.symm, Option.or_none]
      · unfold Store.tracked lookupElement
        rw [lists]
        change List.find? _ (σ.lists (.ofGroup σ.nextGroup)) = none
        rw [absent]
        rfl

/-- Feeding an element leaves the names of the groups as they are. -/
theorem FeedsOnly.groupNamed_eq {g : GroupPtr} {name : CString} {σ σ' : Store}
    (feeds : FeedsOnly g name σ σ') : σ'.groupNamed = σ.groupNamed :=
  funext (groupNamed_congr feeds.groupList fun g _ => feeds.gName g)

end Bmon
