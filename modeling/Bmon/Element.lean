/-
This file models the functions of `element.c`, `element_cfg.c` and `group.c` that create
elements and groups and change one record: what the input modules call while they read.

`unit_bit2str` prints the plain number, as no function of the program ever sets `bit_unit`.
-/

import Bmon.Store

namespace Bmon

/-! ### Configurations and policies -/

/-- `element_cfg_lookup`. -/
def elementCfgLookup (σ : Store) (name : CString) : Option CfgPtr :=
  σ.cfgList.findIdx? fun ec => ec.ecName = name

/-- `element_cfg_create`, with the position of the configuration. -/
def elementCfgCreate (σ : Store) (name : CString) : Store × CfgPtr :=
  match elementCfgLookup σ name with
  | some c => (σ, c)
  | none => ({ σ with cfgList := σ.cfgList ++ [⟨name, none, 0, 0, {}⟩] }, σ.cfgList.length)

/-- `element_allowed`. -/
def elementAllowed (σ : Store) (name : CString) (cfg : Option ElementCfg) : Bool :=
  let byPolicy :=
    if σ.denied.any fun p => matchMask (some p) (some name) = some true then false
    else σ.allowed.isEmpty || σ.allowed.any fun p => matchMask (some p) (some name) = some true
  match cfg with
  | some ec => if ec.ecFlags.hidden then false else if ec.ecFlags.shown then true else byPolicy
  | none => byPolicy

/-! ### Information and maxima -/

/-- `unit_bit2str`. Nothing ever sets `bit_unit`, so that the number is printed as it is. -/
def unitBit2str (bits : UInt64) : String := toString bits.toNat

/-- The change `element_update_info` makes to an element. -/
def Element.updateInfo (name value : String) (r : Element) : Element :=
  match r.eInfoList.findIdx? fun i => i.iName = name with
  | some i => { r with eInfoList := r.eInfoList.modify i fun info => { info with iValue := value } }
  | none => { r with eNinfo := r.eNinfo + 1, eInfoList := r.eInfoList ++ [⟨name, value⟩] }

/-- `element_update_info`. -/
def elementUpdateInfo (σ : Store) (e : ElementPtr) (name value : String) : Store :=
  σ.modifyElement e (Element.updateInfo name value)

/-- Set `ec_rxmax` or `ec_txmax`. -/
def ElementCfg.setMax (direction : Direction) (max : UInt64) (ec : ElementCfg) : ElementCfg :=
  match direction with
  | .rx => { ec with ecRxmax := max }
  | .tx => { ec with ecTxmax := max }

/-- The configuration of an element, created under its name if it has none. -/
def elementEnsureCfg (σ : Store) (e : ElementPtr) (r : Element) : Store × CfgPtr :=
  match r.eCfg with
  | some c => (σ, c)
  | none =>
    let created := elementCfgCreate σ r.eName
    (created.1.modifyElement e fun r => { r with eCfg := some created.2 }, created.2)

/-- The common body of `element_set_rxmax` and `element_set_txmax`. -/
def elementSetMax (direction : Direction) (info : String) (σ : Store) (e : ElementPtr)
    (max : UInt64) : Store :=
  match σ.elements e with
  | none => σ
  | some r =>
    let ensured := elementEnsureCfg σ e r
    let σ := { ensured.1 with
      cfgList := ensured.1.cfgList.modify ensured.2 (ElementCfg.setMax direction max) }
    elementUpdateInfo σ e info (unitBit2str (max * 8))

/-- `element_set_rxmax`. -/
def elementSetRxmax : Store → ElementPtr → UInt64 → Store := elementSetMax .rx "RxMax"

/-- `element_set_txmax`. -/
def elementSetTxmax : Store → ElementPtr → UInt64 → Store := elementSetMax .tx "TxMax"

/-! ### Looking up and creating elements -/

/-- The list `element_lookup` looks in: the children of the parent, if there is one. -/
def listOf (group : GroupPtr) (parent : Option ElementPtr) : ListHead :=
  match parent with
  | some p => .ofElement p
  | none => .ofGroup group

/-- `__lookup_element`. -/
def lookupElement (σ : Store) (group : GroupPtr) (name : CString) (id : UInt32)
    (parent : Option ElementPtr) : Option ElementPtr :=
  (σ.lists (listOf group parent)).find? fun e =>
    (σ.elements e).any fun r => r.eName = name ∧ r.eId = id

/-- The record of a new element, before its configuration is applied. -/
def elementNew (cfg : Config) (group : GroupPtr) (name : CString) (id : UInt32)
    (parent : Option ElementPtr) (ec : Option CfgPtr) : Element where
  eName := name
  eId := id
  eFlags := { created := true }
  eLifecycles := getLifecycles cfg
  eLevel := 0
  eParent := parent
  eGroup := group
  eAttrs := AttrTable.empty
  eNinfo := 0
  eInfoList := []
  eRxUsage := some 0
  eTxUsage := some 0
  eCfg := ec

/-- The allocation of a new element: its record, with an empty list of children, under a
pointer that was never handed out. -/
def elementAlloc (σ : Store) (r : Element) : Store :=
  { σ with
    elements := fun p => if p = σ.nextElement then some r else σ.elements p
    lists := fun h => if h = .ofElement σ.nextElement then [] else σ.lists h
    nextElement := σ.nextElement + 1 }

/-- The part of `element_lookup` that applies the configuration of a new element. -/
def elementConfigure (σ : Store) (e : ElementPtr) (ec : Option ElementCfg) : Store :=
  match ec with
  | none => σ
  | some ec =>
    let σ := match ec.ecDescription with
      | some description => elementUpdateInfo σ e "Description" description
      | none => σ
    elementSetTxmax (elementSetRxmax σ e ec.ecRxmax) e ec.ecTxmax

/-- The part of `element_lookup` that creates the element. -/
def elementCreate (cfg : Config) (σ : Store) (group : GroupPtr) (name : CString) (id : UInt32)
    (parent : Option ElementPtr) : Store :=
  let ec := elementCfgLookup σ name
  let e := σ.nextElement
  let configured := elementConfigure (elementAlloc σ (elementNew cfg group name id parent ec)) e
    (ec.bind fun c => σ.cfgList[c]?)
  (configured.listAddTail e (listOf group parent)).modifyGroup group fun g =>
    { g with gNelements := g.gNelements + 1 }

/-- `element_lookup`, with the element it returns. -/
def elementLookup (cfg : Config) (σ : Store) (group : GroupPtr) (name : CString) (id : UInt32)
    (parent : Option ElementPtr) (creat : Bool) : Store × Option ElementPtr :=
  match lookupElement σ group name id parent with
  | some e => (σ, some e)
  | none =>
    if creat ∧ elementAllowed σ name ((elementCfgLookup σ name).bind fun c => σ.cfgList[c]?) then
      (elementCreate cfg σ group name id parent, some σ.nextElement)
    else
      (σ, none)

/-! ### Updating one element -/

/-- `element_lifesign`. The factor is converted to `unsigned int`. -/
def elementLifesign (cfg : Config) (σ : Store) (e : ElementPtr) (n : UInt32) : Store :=
  σ.modifyElement e fun r => { r with eLifecycles := n * getLifecycles cfg }

/-- `attr_def_lookup`. -/
def attrDefLookup (attrDefs : List AttrDef) (name : String) : Option AttrDef :=
  attrDefs.find? fun definition => definition.adName = name

/-- Set one of the key attributes of an element. -/
def Element.setKeyAttr (column : GroupColumn) (definition : Option AttrDef) (r : Element) :
    Element :=
  { r with
    eAttrs := { r.eAttrs with
      eKeyAttr := fun other => if other = column then definition else r.eAttrs.eKeyAttr other } }

/-- `element_set_key_attr`. -/
def elementSetKeyAttr (attrDefs : List AttrDef) (σ : Store) (e : ElementPtr)
    (major minor : String) : Store :=
  let σ := σ.modifyElement e (Element.setKeyAttr .major (attrDefLookup attrDefs major))
  if (attrDefLookup attrDefs major).isNone then σ
  else σ.modifyElement e (Element.setKeyAttr .minor (attrDefLookup attrDefs minor))

/-- `element_set_usage_attr`. -/
def elementSetUsageAttr (attrDefs : List AttrDef) (σ : Store) (e : ElementPtr) (usage : String) :
    Store :=
  σ.modifyElement e fun r =>
    { r with eAttrs := { r.eAttrs with eUsageAttr := attrDefLookup attrDefs usage } }

/-- `attr_update` on an element. -/
def elementAttrUpdate (cfg : Config) (attrDefs : List AttrDef) (historyDefs : List HistoryDef)
    (σ : Store) (e : ElementPtr) (id : Nat) (rx tx : UInt64) (flags : UpdateFlags)
    (now : Timestamp) : Store :=
  σ.modifyElement e fun r =>
    { r with eAttrs := attrUpdate cfg attrDefs historyDefs r.eAttrs id rx tx flags now }

/-- `__calc_usage`. -/
def calcUsage (cfg : Config) (rate : ℚ) (max : UInt64) : Option ℚ :=
  if max = 0 then none
  else if rate = 0 then some 0
  else some (100 / ((max.toNat : ℚ) / (rate * cfg.cfgRateInterval)))

/-- `attr_calc_usage`. -/
def attrCalcUsage (cfg : Config) (a : Attr) (rxmax txmax : UInt64) : Option ℚ × Option ℚ :=
  if a.aDef.adType = .percent then
    (some a.aRxRate.rTotal.toNat, some a.aTxRate.rTotal.toNat)
  else
    (calcUsage cfg a.aRxRate.rRate rxmax, calcUsage cfg a.aTxRate.rRate txmax)

/-- The loop of `element_notify_update` over the attributes, in the order of the hash table. -/
def notifyAttrs (cfg : Config) (fuel : Nat) (ts : Timestamp) :
    List AttrPtr → AttrTable → Option AttrTable
  | [], t => some t
  | p :: rest, t =>
    match t.attrs[p]? with
    | none => notifyAttrs cfg fuel ts rest t
    | some a => (attrNotifyUpdate cfg fuel a ts).bind fun a =>
        notifyAttrs cfg fuel ts rest (t.modifyAttr p fun _ => a)

/-- The usage `element_notify_update` stores, for a table whose attributes are updated. -/
def Element.usage (cfg : Config) (cfgList : List ElementCfg) (r : Element) :
    Option ℚ × Option ℚ :=
  match r.eAttrs.eUsageAttr, r.eCfg.bind fun c => cfgList[c]? with
  | some definition, some ec =>
    match (attrLookup r.eAttrs definition.adId).bind fun p => r.eAttrs.attrs[p]? with
    | some a => attrCalcUsage cfg a ec.ecRxmax ec.ecTxmax
    | none => (none, none)
  | _, _ => (none, none)

/-- `element_notify_update`. -/
def elementNotifyUpdate (cfg : Config) (fuel : Nat) (σ : Store) (e : ElementPtr)
    (ts : Timestamp) : Option Store :=
  match σ.elements e with
  | none => some σ
  | some r =>
    let order := (List.range attrHashSize).flatMap r.eAttrs.eAttrhash
    (notifyAttrs cfg fuel ts order r.eAttrs).map fun attrs =>
      σ.modifyElement e fun r =>
        let r := { r with eFlags := { r.eFlags with updated := true }, eAttrs := attrs }
        let usage := r.usage cfg σ.cfgList
        { r with eRxUsage := usage.1, eTxUsage := usage.2 }

/-! ### Groups -/

/-- `group_lookup_hdr`. -/
def groupLookupHdr (σ : Store) (name : CString) : Option GroupHdr :=
  σ.titlesList.find? fun hdr => hdr.ghName = name

/-- `group_new_hdr`. -/
def groupNewHdr (σ : Store) (hdr : GroupHdr) : Store :=
  if (groupLookupHdr σ hdr.ghName).isSome then σ
  else { σ with titlesList := σ.titlesList ++ [hdr] }

/-- `group_new_derived_hdr`. -/
def groupNewDerivedHdr (σ : Store) (name : CString) (title : String) (template : CString) :
    Store :=
  if (groupLookupHdr σ name).isSome then σ
  else
    match groupLookupHdr σ template with
    | none => σ
    | some t => groupNewHdr σ ⟨name, title, t.ghColumn⟩

/-- The part of `group_lookup` that creates the group. -/
def groupCreate (σ : Store) (hdr : GroupHdr) : Store :=
  { σ with
    groups := fun p => if p = σ.nextGroup then some ⟨hdr.ghName, hdr, 0⟩ else σ.groups p
    lists := fun h => if h = .ofGroup σ.nextGroup then [] else σ.lists h
    groupList := σ.groupList ++ [σ.nextGroup]
    nextGroup := σ.nextGroup + 1 }

/-- `group_lookup`, with the group it returns. -/
def groupLookup (σ : Store) (name : CString) (create : Bool) : Store × Option GroupPtr :=
  match σ.groupList.find? fun g => (σ.groups g).any fun r => r.gName = name with
  | some g => (σ, some g)
  | none =>
    if create then
      match groupLookupHdr σ name with
      | none => (σ, none)
      | some hdr => (groupCreate σ hdr, some σ.nextGroup)
    else
      (σ, none)

end Bmon
