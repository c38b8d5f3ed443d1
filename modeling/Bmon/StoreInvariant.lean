/-
This file holds the invariant of the store: every element that is not freed is linked in
exactly one list, the one its parent or its group owns, and everything linked is not freed.

Pointers are handed out in order and lists only grow at the end, so every list is in ascending
order, and a parent comes before its children. The functions that change other fields of a
record keep the shape of the store, and with it the invariant; the ones that create elements
and groups are treated here too, and the one that unlinks elements.
-/

import Bmon.Element

namespace Bmon

/-! ### Places and links -/

theorem eParent_eq (σ : Store) (e : ElementPtr) : σ.eParent e = (σ.place e).bind Place.parent := by
  unfold Store.eParent Store.place
  cases σ.elements e <;> rfl

theorem eNext_eq (σ : Store) (e : ElementPtr) :
    σ.eNext e = (σ.place e).bind fun place => Neighbours.next (σ.lists place.head) e := by
  unfold Store.eNext Store.place
  cases σ.elements e <;> rfl

theorem ePrev_eq (σ : Store) (e : ElementPtr) :
    σ.ePrev e = (σ.place e).bind fun place => Neighbours.prev (σ.lists place.head) e := by
  unfold Store.ePrev Store.place
  cases σ.elements e <;> rfl

theorem place_eq_some_iff {σ : Store} {e : ElementPtr} {place : Place} :
    σ.place e = some place ↔ ∃ r, σ.elements e = some r ∧ r.place = place :=
  Option.map_eq_some_iff

theorem eGroup_eq_some_iff {σ : Store} {e : ElementPtr} {g : GroupPtr} :
    σ.eGroup e = some g ↔ ∃ place, σ.place e = some place ∧ place.group = g :=
  Option.map_eq_some_iff

theorem head_eq_ofGroup_iff {place : Place} {g : GroupPtr} :
    place.head = .ofGroup g ↔ place.parent = none ∧ place.group = g := by
  unfold Place.head
  cases place.parent <;> simp

theorem head_eq_ofElement_iff {place : Place} {p : ElementPtr} :
    place.head = .ofElement p ↔ place.parent = some p := by
  unfold Place.head
  cases place.parent <;> simp

theorem owner_head (place : Place) : place.head.owner = place.parent := by
  unfold Place.head
  cases place.parent <;> rfl

/-! ### The shape of a store -/

/-- Two stores whose records and lists are the same up to the contents of the records. -/
structure SameShape (σ σ' : Store) : Prop where
  place : σ'.place = σ.place
  lists : σ'.lists = σ.lists
  groupList : σ'.groupList = σ.groupList
  nextElement : σ'.nextElement = σ.nextElement
  nextGroup : σ'.nextGroup = σ.nextGroup

theorem SameShape.refl (σ : Store) : SameShape σ σ := ⟨rfl, rfl, rfl, rfl, rfl⟩

theorem SameShape.trans {σ σ' σ'' : Store} (first : SameShape σ σ') (second : SameShape σ' σ'') :
    SameShape σ σ'' where
  place := second.place.trans first.place
  lists := second.lists.trans first.lists
  groupList := second.groupList.trans first.groupList
  nextElement := second.nextElement.trans first.nextElement
  nextGroup := second.nextGroup.trans first.nextGroup

/-- What a change of a record leaves alone in the record is the same in the store. -/
theorem map_modifyElement {Field : Type*} (field : Element → Field) (σ : Store) (e p : ElementPtr)
    {change : Element → Element} (stays : ∀ r, field (change r) = field r) :
    ((σ.modifyElement e change).elements p).map field = (σ.elements p).map field := by
  unfold Store.modifyElement
  simp only
  split_ifs
  · rw [Option.map_map]
    exact congrArg (fun f => (σ.elements p).map f) (funext stays)
  · rfl

/-- A change of a record frees no element. -/
theorem isSome_modifyElement (σ : Store) (e p : ElementPtr) (change : Element → Element) :
    ((σ.modifyElement e change).elements p).isSome = (σ.elements p).isSome := by
  unfold Store.modifyElement
  simp only
  split_ifs
  · rw [Option.isSome_map]
  · rfl

/-- A change of a record that leaves it where it is keeps the shape. -/
theorem sameShape_modifyElement (σ : Store) (e : ElementPtr) (change : Element → Element)
    (stays : ∀ r, (change r).place = r.place) : SameShape σ (σ.modifyElement e change) where
  place := funext fun p => map_modifyElement Element.place σ e p stays
  lists := rfl
  groupList := rfl
  nextElement := rfl
  nextGroup := rfl

/-- Two stores of the same shape whose elements have the same time to live. -/
structure SameStanding (σ σ' : Store) : Prop extends SameShape σ σ' where
  eLifecycles : σ'.eLifecycles = σ.eLifecycles

theorem SameStanding.refl (σ : Store) : SameStanding σ σ := ⟨SameShape.refl σ, rfl⟩

theorem SameStanding.trans {σ σ' σ'' : Store} (first : SameStanding σ σ')
    (second : SameStanding σ' σ'') : SameStanding σ σ'' :=
  ⟨first.toSameShape.trans second.toSameShape, second.eLifecycles.trans first.eLifecycles⟩

/-- Stores that differ in neither elements nor lists nor groups have the same standing. -/
theorem SameStanding.of_eq {σ σ' : Store} (elements : σ'.elements = σ.elements)
    (lists : σ'.lists = σ.lists) (groupList : σ'.groupList = σ.groupList)
    (nextElement : σ'.nextElement = σ.nextElement) (nextGroup : σ'.nextGroup = σ.nextGroup) :
    SameStanding σ σ' where
  place := by
    unfold Store.place
    rw [elements]
  lists := lists
  groupList := groupList
  nextElement := nextElement
  nextGroup := nextGroup
  eLifecycles := by
    unfold Store.eLifecycles
    rw [elements]

/-- A change of a record that leaves its place and its time to live alone. -/
theorem sameStanding_modifyElement (σ : Store) (e : ElementPtr) (change : Element → Element)
    (place : ∀ r, (change r).place = r.place)
    (eLifecycles : ∀ r, (change r).eLifecycles = r.eLifecycles) :
    SameStanding σ (σ.modifyElement e change) :=
  ⟨sameShape_modifyElement σ e change place,
    funext fun p => map_modifyElement Element.eLifecycles σ e p eLifecycles⟩

theorem sameStanding_modifyGroup (σ : Store) (g : GroupPtr) (change : ElementGroup → ElementGroup) :
    SameStanding σ (σ.modifyGroup g change) := .of_eq rfl rfl rfl rfl rfl

/-- Writing information leaves all other fields alone. -/
theorem field_updateInfo {Field : Type*} (field : Element → Field)
    (stays : ∀ (r : Element) infos count,
      field { r with eInfoList := infos, eNinfo := count } = field r)
    (r : Element) (name value : String) : field (r.updateInfo name value) = field r := by
  unfold Element.updateInfo
  split
  · exact stays r _ r.eNinfo
  · exact stays r _ _

theorem sameStanding_elementUpdateInfo (σ : Store) (e : ElementPtr) (name value : String) :
    SameStanding σ (elementUpdateInfo σ e name value) :=
  sameStanding_modifyElement σ e _
    (fun r => field_updateInfo Element.place (fun _ _ _ => rfl) r name value)
    fun r => field_updateInfo Element.eLifecycles (fun _ _ _ => rfl) r name value

/-- Creating a configuration changes the list of configurations only. -/
theorem elementCfgCreate_cfgList (σ : Store) (name : CString) :
    (elementCfgCreate σ name).1 =
      { σ with cfgList := (elementCfgCreate σ name).1.cfgList } := by
  unfold elementCfgCreate
  split <;> rfl

/-- Setting a maximum ends with a write of the information. What creating, linking and changing a
configuration preserve holds before it. -/
theorem elementSetMax_cases (holds : Store → Prop) {e : ElementPtr} (direction : Direction)
    (creates : ∀ σ name, holds σ → holds (elementCfgCreate σ name).1)
    (links : ∀ σ c, holds σ → holds (σ.modifyElement e fun r => { r with eCfg := some c }))
    (limits : ∀ σ c max, holds σ →
      holds { σ with cfgList := σ.cfgList.modify c (ElementCfg.setMax direction max) })
    (info : String) {σ : Store} (max : UInt64) (before : holds σ) :
    (σ.elements e = none ∧ elementSetMax direction info σ e max = σ) ∨
      ∃ σ', holds σ' ∧ elementSetMax direction info σ e max =
        elementUpdateInfo σ' e info (unitBit2str (max * 8)) := by
  cases found : σ.elements e with
  | none =>
    refine Or.inl ⟨rfl, ?_⟩
    unfold elementSetMax
    rw [found]
  | some r =>
    have ensured : holds (elementEnsureCfg σ e r).1 := by
      unfold elementEnsureCfg
      cases r.eCfg with
      | some c => exact before
      | none => exact links _ _ (creates σ r.eName before)
    refine Or.inr ⟨_, limits _ (elementEnsureCfg σ e r).2 max ensured, ?_⟩
    unfold elementSetMax
    rw [found]

theorem sameStanding_elementSetMax (direction : Direction) (info : String) (σ : Store)
    (e : ElementPtr) (max : UInt64) : SameStanding σ (elementSetMax direction info σ e max) := by
  have creates : ∀ σ' name, SameStanding σ σ' → SameStanding σ (elementCfgCreate σ' name).1 :=
    fun σ' name before => by
      rw [elementCfgCreate_cfgList]
      exact before.trans (.of_eq rfl rfl rfl rfl rfl)
  obtain ⟨-, same⟩ | ⟨σ', before, same⟩ := elementSetMax_cases (SameStanding σ) direction creates
    (fun σ' c before =>
      before.trans (sameStanding_modifyElement σ' e _ (fun _ => rfl) fun _ => rfl))
    (fun σ' c max before => before.trans (.of_eq rfl rfl rfl rfl rfl)) info max (.refl σ)
  · rw [same]
    exact SameStanding.refl σ
  · rw [same]
    exact before.trans (sameStanding_elementUpdateInfo σ' e _ _)

/-- What its steps preserve, the configuration of a new element preserves. -/
theorem elementConfigure_rule (holds : Store → Prop) {e : ElementPtr}
    (info : ∀ σ name value, holds σ → holds (elementUpdateInfo σ e name value))
    (max : ∀ σ direction name max, holds σ → holds (elementSetMax direction name σ e max))
    {σ : Store} (ec : Option ElementCfg) (before : holds σ) : holds (elementConfigure σ e ec) := by
  cases ec with
  | none => exact before
  | some ec =>
    simp only [elementConfigure]
    refine max _ .tx "TxMax" _ (max _ .rx "RxMax" _ ?_)
    cases ec.ecDescription with
    | none => exact before
    | some description => exact info σ "Description" description before

theorem sameStanding_elementConfigure (σ : Store) (e : ElementPtr) (ec : Option ElementCfg) :
    SameStanding σ (elementConfigure σ e ec) :=
  elementConfigure_rule (SameStanding σ)
    (fun σ' _ _ before => before.trans (sameStanding_elementUpdateInfo σ' e _ _))
    (fun σ' _ _ _ before => before.trans (sameStanding_elementSetMax _ _ σ' e _)) ec (.refl σ)

/-- What the change of one key attribute preserves, `element_set_key_attr` preserves. -/
theorem elementSetKeyAttr_rule (holds : Store → Prop) {e : ElementPtr}
    (keeps : ∀ σ column definition, holds σ →
      holds (σ.modifyElement e (Element.setKeyAttr column definition)))
    (attrDefs : List AttrDef) {σ : Store} (major minor : String) (before : holds σ) :
    holds (elementSetKeyAttr attrDefs σ e major minor) := by
  have first := keeps σ .major (attrDefLookup attrDefs major) before
  simp only [elementSetKeyAttr]
  split_ifs
  · exact first
  · exact keeps _ .minor _ first

theorem sameStanding_elementSetKeyAttr (attrDefs : List AttrDef) (σ : Store) (e : ElementPtr)
    (major minor : String) : SameStanding σ (elementSetKeyAttr attrDefs σ e major minor) := by
  refine elementSetKeyAttr_rule (SameStanding σ) (fun σ' column definition before => ?_) attrDefs
    major minor (.refl σ)
  exact before.trans (sameStanding_modifyElement σ' e _ (fun _ => rfl) fun _ => rfl)

theorem sameStanding_elementSetUsageAttr (attrDefs : List AttrDef) (σ : Store) (e : ElementPtr)
    (usage : String) : SameStanding σ (elementSetUsageAttr attrDefs σ e usage) :=
  sameStanding_modifyElement σ e _ (fun _ => rfl) fun _ => rfl

theorem sameStanding_elementAttrUpdate (cfg : Config) (attrDefs : List AttrDef)
    (historyDefs : List HistoryDef) (σ : Store) (e : ElementPtr) (id : Nat) (rx tx : UInt64)
    (flags : UpdateFlags) (now : Timestamp) :
    SameStanding σ (elementAttrUpdate cfg attrDefs historyDefs σ e id rx tx flags now) :=
  sameStanding_modifyElement σ e _ (fun _ => rfl) fun _ => rfl

/-- `element_notify_update` only changes the record of its element, if there is one. -/
theorem elementNotifyUpdate_cases {cfg : Config} {fuel : Nat} {σ σ' : Store} {e : ElementPtr}
    {ts : Timestamp} (returned : elementNotifyUpdate cfg fuel σ e ts = some σ') :
    σ' = σ ∨ ∃ r attrs, σ.elements e = some r ∧
      notifyAttrs cfg fuel ts ((List.range attrHashSize).flatMap r.eAttrs.eAttrhash) r.eAttrs =
        some attrs ∧
      ∃ usage : Element → Option ℚ × Option ℚ, σ' = σ.modifyElement e fun r =>
        { r with
          eFlags := { r.eFlags with updated := true }
          eAttrs := attrs
          eRxUsage := (usage r).1
          eTxUsage := (usage r).2 } := by
  unfold elementNotifyUpdate at returned
  split at returned
  · exact Or.inl (Option.some.inj returned).symm
  · next r found =>
    obtain ⟨attrs, notified, rfl⟩ := Option.map_eq_some_iff.mp returned
    exact Or.inr ⟨r, attrs, found, notified, _, rfl⟩

theorem sameStanding_elementNotifyUpdate {cfg : Config} {fuel : Nat} {σ σ' : Store}
    {e : ElementPtr} {ts : Timestamp} (returned : elementNotifyUpdate cfg fuel σ e ts = some σ') :
    SameStanding σ σ' := by
  obtain rfl | ⟨-, attrs, -, -, usage, rfl⟩ := elementNotifyUpdate_cases returned
  · exact SameStanding.refl σ'
  · exact sameStanding_modifyElement σ e _ (fun _ => rfl) fun _ => rfl

/-- New headers change the list of titles only. -/
theorem groupNewHdr_titlesList (σ : Store) (hdr : GroupHdr) :
    groupNewHdr σ hdr = { σ with titlesList := (groupNewHdr σ hdr).titlesList } := by
  unfold groupNewHdr
  split_ifs <;> rfl

theorem groupNewDerivedHdr_titlesList (σ : Store) (name : CString) (title : String)
    (template : CString) : groupNewDerivedHdr σ name title template =
      { σ with titlesList := (groupNewDerivedHdr σ name title template).titlesList } := by
  unfold groupNewDerivedHdr
  split_ifs
  · rfl
  · split
    · rfl
    · exact groupNewHdr_titlesList σ _

theorem sameStanding_groupNewHdr (σ : Store) (hdr : GroupHdr) :
    SameStanding σ (groupNewHdr σ hdr) := by
  rw [groupNewHdr_titlesList]
  exact .of_eq rfl rfl rfl rfl rfl

theorem sameStanding_groupNewDerivedHdr (σ : Store) (name : CString) (title : String)
    (template : CString) : SameStanding σ (groupNewDerivedHdr σ name title template) := by
  rw [groupNewDerivedHdr_titlesList]
  exact .of_eq rfl rfl rfl rfl rfl

theorem sameShape_elementLifesign (cfg : Config) (σ : Store) (e : ElementPtr) (n : UInt32) :
    SameShape σ (elementLifesign cfg σ e n) :=
  sameShape_modifyElement σ e _ fun _ => rfl

/-! ### The invariant -/

/-- The invariant of the store. -/
structure Store.WellFormed (σ : Store) : Prop where
  linked : ∀ e place, σ.place e = some place → e ∈ σ.lists place.head
  owned : ∀ head e, e ∈ σ.lists head → ∃ place, σ.place e = some place ∧ place.head = head
  ascending : ∀ head, (σ.lists head).Pairwise (· < ·)
  parent : ∀ e place p, σ.place e = some place → place.parent = some p →
    p < e ∧ ∃ above, σ.place p = some above ∧ above.group = place.group
  grouped : ∀ e place, σ.place e = some place → place.group ∈ σ.groupList
  element_lt : ∀ e place, σ.place e = some place → e < σ.nextElement
  group_lt : ∀ g ∈ σ.groupList, g < σ.nextGroup
  groups_nodup : σ.groupList.Nodup

/-- The store at the start of the program: no elements and no groups. -/
def Store.start (titles : List GroupHdr) (cfgs : List ElementCfg) (allowed denied : List Policy) :
    Store where
  elements := fun _ => none
  lists := fun _ => []
  groups := fun _ => none
  groupList := []
  nextElement := 0
  nextGroup := 0
  titlesList := titles
  cfgList := cfgs
  allowed := allowed
  denied := denied

theorem wellFormed_start (titles : List GroupHdr) (cfgs : List ElementCfg)
    (allowed denied : List Policy) : (Store.start titles cfgs allowed denied).WellFormed where
  linked _ _ present := by cases present
  owned _ _ member := by cases member
  ascending _ := List.Pairwise.nil
  parent _ _ _ present := by cases present
  grouped _ _ present := by cases present
  element_lt _ _ present := by cases present
  group_lt _ member := by cases member
  groups_nodup := List.nodup_nil

namespace Store.WellFormed

variable {σ : Store} (wf : σ.WellFormed)

include wf

theorem sameShape {σ' : Store} (same : SameShape σ σ') : σ'.WellFormed where
  linked := by
    rw [same.place, same.lists]
    exact wf.linked
  owned := by
    rw [same.place, same.lists]
    exact wf.owned
  ascending := by
    rw [same.lists]
    exact wf.ascending
  parent := by
    rw [same.place]
    exact wf.parent
  grouped := by
    rw [same.place, same.groupList]
    exact wf.grouped
  element_lt := by
    rw [same.place, same.nextElement]
    exact wf.element_lt
  group_lt := by
    rw [same.groupList, same.nextGroup]
    exact wf.group_lt
  groups_nodup := by
    rw [same.groupList]
    exact wf.groups_nodup

theorem lists_nodup (head : ListHead) : (σ.lists head).Nodup :=
  (wf.ascending head).imp fun less => ne_of_lt less

/-- Everything in a list has a pointer that was handed out. -/
theorem lt_of_mem {head : ListHead} {e : ElementPtr} (member : e ∈ σ.lists head) :
    e < σ.nextElement := by
  obtain ⟨place, present, -⟩ := wf.owned head e member
  exact wf.element_lt e place present

/-- The children of an element are not freed, and neither is it. -/
theorem owner_present {p e : ElementPtr} (member : e ∈ σ.lists (.ofElement p)) :
    ∃ above place, σ.place p = some above ∧ σ.place e = some place ∧ place.parent = some p ∧
      above.group = place.group ∧ p < e := by
  obtain ⟨place, present, head⟩ := wf.owned _ e member
  have parent := head_eq_ofElement_iff.mp head
  obtain ⟨less, above, presentAbove, same⟩ := wf.parent e place p present parent
  exact ⟨above, place, presentAbove, present, parent, same, less⟩

/-- The entries of the list of a group are in the group. -/
theorem eGroup_of_mem {g : GroupPtr} {e : ElementPtr} (member : e ∈ σ.lists (.ofGroup g)) :
    σ.eGroup e = some g := by
  obtain ⟨place, present, head⟩ := wf.owned _ e member
  exact eGroup_eq_some_iff.mpr ⟨place, present, (head_eq_ofGroup_iff.mp head).2⟩

/-- The children of an element are in its group. -/
theorem eGroup_child {p c : ElementPtr} (member : c ∈ σ.lists (.ofElement p)) :
    σ.eGroup c = σ.eGroup p := by
  obtain ⟨above, place, presentAbove, present, -, same, -⟩ := wf.owner_present member
  rw [Store.eGroup, Store.eGroup, present, presentAbove, Option.map_some, Option.map_some, same]

/-- The pointer handed out next is not in use. -/
theorem place_next : σ.place σ.nextElement = none := by
  cases present : σ.place σ.nextElement with
  | none => rfl
  | some place => exact absurd (wf.element_lt _ _ present) (lt_irrefl _)

/-- No list of children is kept for a pointer that is not in use. -/
theorem lists_of_place_none {e : ElementPtr} (absent : σ.place e = none) :
    σ.lists (.ofElement e) = [] := by
  refine List.eq_nil_iff_forall_not_mem.mpr fun child member => ?_
  obtain ⟨above, -, present, -⟩ := wf.owner_present member
  rw [absent] at present
  cases present

/-- No list of elements is kept for a group that does not exist. -/
theorem lists_of_group_not_mem {g : GroupPtr} (absent : g ∉ σ.groupList) :
    σ.lists (.ofGroup g) = [] := by
  refine List.eq_nil_iff_forall_not_mem.mpr fun e member => ?_
  obtain ⟨place, present, head⟩ := wf.owned _ e member
  obtain ⟨-, rfl⟩ := head_eq_ofGroup_iff.mp head
  exact absent (wf.grouped e place present)

end Store.WellFormed

/-! ### Creating elements and groups -/

/-- `element_lookup` creates an element where there is none of the name and the id, or changes
nothing. -/
theorem elementLookup_cases (cfg : Config) (σ : Store) (group : GroupPtr) (name : CString)
    (id : UInt32) (parent : Option ElementPtr) (creat : Bool) :
    (elementLookup cfg σ group name id parent creat).1 = σ ∨
      lookupElement σ group name id parent = none ∧
        (elementLookup cfg σ group name id parent creat).1 =
          elementCreate cfg σ group name id parent := by
  unfold elementLookup
  split
  · exact Or.inl rfl
  · next absent =>
    split_ifs
    · exact Or.inr ⟨absent, rfl⟩
    · exact Or.inl rfl

/-- `group_lookup` creates a group, or changes nothing. -/
theorem groupLookup_cases (σ : Store) (name : CString) (create : Bool) :
    (groupLookup σ name create).1 = σ ∨
      ∃ hdr, (groupLookup σ name create).1 = groupCreate σ hdr := by
  unfold groupLookup
  split
  · exact Or.inl rfl
  · split_ifs
    · split
      · exact Or.inl rfl
      · next hdr _ => exact Or.inr ⟨hdr, rfl⟩
    · exact Or.inl rfl

/-- Linking an element keeps two stores in the same standing. -/
theorem SameStanding.listAddTail {σ σ' : Store} (same : SameStanding σ σ') (e : ElementPtr)
    (head : ListHead) : SameStanding (σ.listAddTail e head) (σ'.listAddTail e head) where
  place := same.place
  lists := by
    unfold Store.listAddTail
    simp only [same.lists]
  groupList := same.groupList
  nextElement := same.nextElement
  nextGroup := same.nextGroup
  eLifecycles := same.eLifecycles

/-- Creating an element allocates its record and links it, as far as its standing goes. -/
theorem sameStanding_elementCreate (cfg : Config) (σ : Store) (group : GroupPtr) (name : CString)
    (id : UInt32) (parent : Option ElementPtr) :
    SameStanding
      ((elementAlloc σ (elementNew cfg group name id parent (elementCfgLookup σ name))).listAddTail
        σ.nextElement (listOf group parent))
      (elementCreate cfg σ group name id parent) :=
  ((sameStanding_elementConfigure _ _ _).listAddTail _ _).trans (sameStanding_modifyGroup _ _ _)

/-- A new element, linked and counted, before its configuration is applied. -/
def elementLinked (cfg : Config) (σ : Store) (group : GroupPtr) (name : CString) (id : UInt32)
    (parent : Option ElementPtr) : Store :=
  ((elementAlloc σ (elementNew cfg group name id parent (elementCfgLookup σ name))).listAddTail
    σ.nextElement (listOf group parent)).modifyGroup group fun g =>
      { g with gNelements := g.gNelements + 1 }

theorem elements_elementLinked (cfg : Config) (σ : Store) (group : GroupPtr) (name : CString)
    (id : UInt32) (parent : Option ElementPtr) (e : ElementPtr) :
    (elementLinked cfg σ group name id parent).elements e =
      if e = σ.nextElement then
        some (elementNew cfg group name id parent (elementCfgLookup σ name))
      else σ.elements e := rfl

theorem elementAlloc_place (σ : Store) (r : Element) (e : ElementPtr) :
    (elementAlloc σ r).place e = if e = σ.nextElement then some r.place else σ.place e := by
  unfold Store.place elementAlloc
  simp only
  split_ifs <;> rfl

namespace Store.WellFormed

variable {σ : Store} (wf : σ.WellFormed)

include wf

/-- The lists after a new element is linked: one has it at its end. -/
theorem lists_alloc (r : Element) (head : ListHead) :
    ((elementAlloc σ r).listAddTail σ.nextElement r.place.head).lists head =
      σ.lists head ++ if head = r.place.head then [σ.nextElement] else [] := by
  have kept : (elementAlloc σ r).lists head = σ.lists head := by
    unfold elementAlloc
    simp only
    split_ifs with new
    · rw [new, wf.lists_of_place_none wf.place_next]
    · rfl
  unfold Store.listAddTail
  simp only [kept]
  split_ifs
  · rfl
  · rw [List.append_nil]

theorem lists_elementLinked (cfg : Config) (group : GroupPtr) (name : CString) (id : UInt32)
    (parent : Option ElementPtr) (head : ListHead) :
    (elementLinked cfg σ group name id parent).lists head =
      σ.lists head ++ if head = listOf group parent then [σ.nextElement] else [] :=
  wf.lists_alloc (elementNew cfg group name id parent (elementCfgLookup σ name)) head

/-- Creating an element below a parent of the same group, or at the top of an existing group,
keeps the invariant. -/
theorem alloc (r : Element) (group : r.eGroup ∈ σ.groupList)
    (parent : ∀ p, r.eParent = some p → ∃ above, σ.place p = some above ∧ above.group = r.eGroup) :
    ((elementAlloc σ r).listAddTail σ.nextElement r.place.head).WellFormed where
  linked e place present := by
    rw [wf.lists_alloc]
    change (elementAlloc σ r).place e = some place at present
    rw [elementAlloc_place] at present
    split_ifs at present with new
    · obtain rfl := Option.some.inj present
      simp [new]
    · exact List.mem_append_left _ (wf.linked e place present)
  owned head e member := by
    change ∃ place, (elementAlloc σ r).place e = some place ∧ place.head = head
    rw [elementAlloc_place]
    rw [wf.lists_alloc] at member
    rcases List.mem_append.mp member with old | new
    · rw [if_neg (wf.lt_of_mem old).ne]
      exact wf.owned head e old
    · split_ifs at new with here
      · exact ⟨r.place, if_pos (List.mem_singleton.mp new), here.symm⟩
      · cases new
  ascending head := by
    rw [wf.lists_alloc]
    refine List.pairwise_append.mpr ⟨wf.ascending head, by split_ifs <;> simp, ?_⟩
    intro e old e' new
    split_ifs at new
    · rw [List.mem_singleton.mp new]
      exact wf.lt_of_mem old
    · cases new
  parent e place p present above := by
    change (elementAlloc σ r).place e = some place at present
    change p < e ∧ ∃ above, (elementAlloc σ r).place p = some above ∧ above.group = place.group
    rw [elementAlloc_place] at present ⊢
    have old : ∃ above, σ.place p = some above ∧ above.group = place.group := by
      split_ifs at present
      · obtain rfl := Option.some.inj present
        exact parent p above
      · exact (wf.parent e place p present above).2
    obtain ⟨other, presentOther, same⟩ := old
    have less := wf.element_lt p other presentOther
    refine ⟨?_, other, by rw [if_neg less.ne, presentOther], same⟩
    split_ifs at present with new
    · rwa [new]
    · exact (wf.parent e place p present above).1
  grouped e place present := by
    change (elementAlloc σ r).place e = some place at present
    rw [elementAlloc_place] at present
    split_ifs at present
    · obtain rfl := Option.some.inj present
      exact group
    · exact wf.grouped e place present
  element_lt e place present := by
    change (elementAlloc σ r).place e = some place at present
    rw [elementAlloc_place] at present
    split_ifs at present with new
    · rw [new]
      exact Nat.lt_succ_self _
    · exact (wf.element_lt e place present).trans (Nat.lt_succ_self _)
  group_lt := wf.group_lt
  groups_nodup := wf.groups_nodup

/-- Creating an element keeps the invariant. -/
theorem elementCreate (cfg : Config) (group : GroupPtr) (name : CString) (id : UInt32)
    (parent : Option ElementPtr) (existing : group ∈ σ.groupList)
    (above : ∀ p, parent = some p → ∃ above, σ.place p = some above ∧ above.group = group) :
    (elementCreate cfg σ group name id parent).WellFormed :=
  (wf.alloc (elementNew cfg group name id parent (elementCfgLookup σ name)) existing
    above).sameShape (sameStanding_elementCreate cfg σ group name id parent).toSameShape

/-- Looking up an element, created or not, keeps the invariant. -/
theorem elementLookup (cfg : Config) (group : GroupPtr) (name : CString) (id : UInt32)
    (parent : Option ElementPtr) (creat : Bool) (existing : group ∈ σ.groupList)
    (above : ∀ p, parent = some p → ∃ above, σ.place p = some above ∧ above.group = group) :
    (elementLookup cfg σ group name id parent creat).1.WellFormed := by
  obtain same | ⟨-, created⟩ := elementLookup_cases cfg σ group name id parent creat
  · rw [same]
    exact wf
  · rw [created]
    exact wf.elementCreate cfg group name id parent existing above

/-- The list of a group that is created was empty before. -/
theorem lists_groupCreate (hdr : GroupHdr) : (Bmon.groupCreate σ hdr).lists = σ.lists := by
  have fresh : σ.nextGroup ∉ σ.groupList := fun member => lt_irrefl _ (wf.group_lt _ member)
  funext head
  unfold Bmon.groupCreate
  simp only
  split_ifs with new
  · rw [new, wf.lists_of_group_not_mem fresh]
  · rfl

/-- Creating a group keeps the invariant. -/
theorem groupCreate (hdr : GroupHdr) : (groupCreate σ hdr).WellFormed := by
  have lists := wf.lists_groupCreate hdr
  refine ⟨?_, ?_, ?_, wf.parent, ?_, wf.element_lt, ?_, ?_⟩
  · rw [lists]
    exact wf.linked
  · rw [lists]
    exact wf.owned
  · rw [lists]
    exact wf.ascending
  · intro e place present
    exact List.mem_append_left _ (wf.grouped e place present)
  · intro g member
    rcases List.mem_append.mp member with old | new
    · exact (wf.group_lt g old).trans (Nat.lt_succ_self _)
    · rw [List.mem_singleton.mp new]
      exact Nat.lt_succ_self _
  · exact List.nodup_append.mpr ⟨wf.groups_nodup, List.nodup_singleton _, fun g old g' new => by
      rw [List.mem_singleton.mp new]
      exact (wf.group_lt g old).ne⟩

/-- Looking up a group, created or not, keeps the invariant. -/
theorem groupLookup (name : CString) (create : Bool) :
    (groupLookup σ name create).1.WellFormed := by
  obtain same | ⟨hdr, created⟩ := groupLookup_cases σ name create
  · rw [same]
    exact wf
  · rw [created]
    exact wf.groupCreate hdr

end Store.WellFormed

end Bmon
