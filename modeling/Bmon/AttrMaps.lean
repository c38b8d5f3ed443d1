/-
This file models how attributes come to be defined: from the configuration, and by the input
modules, each of which loads a map of the attributes it reads.

The definitions are never removed, and `attr_def_add` gives a name that is defined the id it has.
So a name has one id and an id one name, whatever is loaded in whatever order, and a module that
finds the units of its map has all its attributes defined.
-/

import Bmon.AttrIndex
import Bmon.UnitConf

namespace Bmon

/-! ### The definitions -/

/-- Where no two entries share a key, a key is found at the entry that has it. -/
theorem find?_key_eq_some_iff {Entry Key : Type*} [DecidableEq Key] {key : Entry → Key}
    {entries : List Entry} (distinct : (entries.map key).Nodup) {k : Key} {entry : Entry} :
    entries.find? (fun other => key other = k) = some entry ↔ entry ∈ entries ∧ key entry = k := by
  constructor
  · intro found
    have matched := List.find?_some found
    exact ⟨List.mem_of_find?_eq_some found, of_decide_eq_true matched⟩
  · rintro ⟨member, rfl⟩
    cases found : entries.find? fun other => key other = key entry with
    | none => exact absurd (decide_eq_true rfl) (List.find?_eq_none.mp found entry member)
    | some other =>
      have matched := List.find?_some found
      exact congrArg some (List.inj_on_of_nodup_map distinct (List.mem_of_find?_eq_some found)
        member (of_decide_eq_true matched))

/-- `attr_def_list` and `attr_id_gen`: no two definitions share a name or an id, and the ids to
come have not been used. -/
structure AttrRegistry where
  attrDefs : List AttrDef
  attrIdGen : Nat
  names : (attrDefs.map AttrDef.adName).Nodup
  ids : (attrDefs.map AttrDef.adId).Nodup
  below : ∀ definition ∈ attrDefs, definition.adId < attrIdGen

namespace AttrRegistry

/-- Before anything is defined. -/
def start : AttrRegistry :=
  ⟨[], 1, List.nodup_nil, List.nodup_nil, fun _ member => absurd member List.not_mem_nil⟩

variable (registry : AttrRegistry)

/-- A name is found at the definition that has it. -/
theorem attrDefLookup_eq_some_iff {name : String} {definition : AttrDef} :
    attrDefLookup registry.attrDefs name = some definition ↔
      definition ∈ registry.attrDefs ∧ definition.adName = name :=
  find?_key_eq_some_iff registry.names

/-- So is an id. -/
theorem attrDefLookupId_eq_some_iff {id : Nat} {definition : AttrDef} :
    attrDefLookupId registry.attrDefs id = some definition ↔
      definition ∈ registry.attrDefs ∧ definition.adId = id :=
  find?_key_eq_some_iff registry.ids

/-- What `attr_def_add` does: nothing to a name that is defined, and otherwise a new definition
under an id that has not been used. -/
theorem attrDefAdd_eq (name description : String) (type : AttrType) (flags : AttrFlags) :
    (∃ definition ∈ registry.attrDefs, definition.adName = name ∧
        attrDefLookup registry.attrDefs name = some definition ∧
        attrDefAdd registry.attrDefs registry.attrIdGen name description type flags =
          (registry.attrDefs, registry.attrIdGen)) ∨
      ((∀ definition ∈ registry.attrDefs, definition.adName ≠ name) ∧
        attrDefLookup registry.attrDefs name = none ∧
        attrDefAdd registry.attrDefs registry.attrIdGen name description type flags =
          (registry.attrDefs ++ [⟨registry.attrIdGen, name, description, type, flags⟩],
            registry.attrIdGen + 1)) := by
  unfold attrDefAdd
  cases found : attrDefLookup registry.attrDefs name with
  | some definition =>
    obtain ⟨member, named⟩ := registry.attrDefLookup_eq_some_iff.mp found
    exact Or.inl ⟨definition, member, named, rfl, rfl⟩
  | none =>
    refine Or.inr ⟨fun definition member named => ?_, rfl, rfl⟩
    rw [registry.attrDefLookup_eq_some_iff.mpr ⟨member, named⟩] at found
    cases found

/-- `attr_def_add`. -/
def add (name description : String) (type : AttrType) (flags : AttrFlags) : AttrRegistry where
  attrDefs := (attrDefAdd registry.attrDefs registry.attrIdGen name description type flags).1
  attrIdGen := (attrDefAdd registry.attrDefs registry.attrIdGen name description type flags).2
  names := by
    obtain ⟨-, -, -, -, same⟩ | ⟨absent, -, added⟩ :=
      registry.attrDefAdd_eq name description type flags
    · rw [same]
      exact registry.names
    · rw [added, List.map_append, List.map_singleton]
      refine registry.names.append (List.nodup_singleton _)
        (List.disjoint_singleton.mpr fun member => ?_)
      obtain ⟨definition, inList, named⟩ := List.mem_map.mp member
      exact absent definition inList named
  ids := by
    obtain ⟨-, -, -, -, same⟩ | ⟨-, -, added⟩ :=
      registry.attrDefAdd_eq name description type flags
    · rw [same]
      exact registry.ids
    · rw [added, List.map_append, List.map_singleton]
      refine registry.ids.append (List.nodup_singleton _)
        (List.disjoint_singleton.mpr fun member => ?_)
      obtain ⟨definition, inList, same⟩ := List.mem_map.mp member
      exact (registry.below definition inList).ne same
  below := by
    obtain ⟨-, -, -, -, same⟩ | ⟨-, -, added⟩ :=
      registry.attrDefAdd_eq name description type flags
    · rw [same]
      exact registry.below
    · rw [added]
      intro definition member
      rcases List.mem_append.mp member with old | isNew
      · exact (registry.below definition old).trans (Nat.lt_succ_self _)
      · rw [List.mem_singleton.mp isNew]
        exact Nat.lt_succ_self _

@[simp] theorem add_attrDefs (name description : String) (type : AttrType) (flags : AttrFlags) :
    (registry.add name description type flags).attrDefs =
      (attrDefAdd registry.attrDefs registry.attrIdGen name description type flags).1 := rfl

/-- The id that `attr_def_add` returns. -/
def addId (name : String) : Nat :=
  match attrDefLookup registry.attrDefs name with
  | some definition => definition.adId
  | none => registry.attrIdGen

/-- A definition is never removed. -/
theorem subset_add (name description : String) (type : AttrType) (flags : AttrFlags) :
    registry.attrDefs ⊆ (registry.add name description type flags).attrDefs := by
  rw [add_attrDefs]
  obtain ⟨-, -, -, -, same⟩ | ⟨-, -, added⟩ := registry.attrDefAdd_eq name description type flags
  · rw [same]
    exact List.Subset.refl _
  · rw [added]
    exact List.subset_append_left _ _

/-- The name is defined afterwards, under the id that is returned. -/
theorem exists_mem_add (name description : String) (type : AttrType) (flags : AttrFlags) :
    ∃ definition ∈ (registry.add name description type flags).attrDefs,
      definition.adName = name ∧ definition.adId = registry.addId name := by
  rw [add_attrDefs]
  unfold addId
  obtain ⟨definition, member, named, found, same⟩ | ⟨-, found, added⟩ :=
    registry.attrDefAdd_eq name description type flags
  · rw [same, found]
    exact ⟨definition, member, named, rfl⟩
  · rw [added, found]
    exact ⟨_, List.mem_append_right _ List.mem_cons_self, rfl, rfl⟩

/-- Only this name can be new. -/
theorem mem_add {name description : String} {type : AttrType} {flags : AttrFlags}
    {definition : AttrDef}
    (member : definition ∈ (registry.add name description type flags).attrDefs) :
    definition ∈ registry.attrDefs ∨
      definition.adName = name ∧ definition.adType = type ∧ definition.adFlags = flags := by
  rw [add_attrDefs] at member
  obtain ⟨-, -, -, -, same⟩ | ⟨-, -, added⟩ := registry.attrDefAdd_eq name description type flags
  · rw [same] at member
    exact Or.inl member
  · rw [added] at member
    rcases List.mem_append.mp member with old | isNew
    · exact Or.inl old
    · rw [List.mem_singleton.mp isNew]
      exact Or.inr ⟨rfl, rfl, rfl⟩

end AttrRegistry

/-! ### Loading a map -/

/-- `struct attr_map`, without the identifiers of counters. -/
structure AttrMapEntry where
  name : String
  description : String
  unit : CString
  attrid : Nat := 0
  type : AttrType
  flags : AttrFlags := {}
  deriving DecidableEq

/-- `unit_lookup`. -/
def unitLookup (units : List UnitRecord) (name : CString) : Option UnitRecord :=
  units.find? fun unit => unit.uName = name

/-- `attr_map_load`: the definitions, the map, and how many units are missing. -/
def attrMapLoad (units : List UnitRecord) (registry : AttrRegistry) :
    List AttrMapEntry → AttrRegistry × List AttrMapEntry × Nat
  | [] => (registry, [], 0)
  | m :: map =>
    match unitLookup units m.unit with
    | none =>
      let (loaded, rest, nfailed) := attrMapLoad units registry map
      (loaded, m :: rest, nfailed + 1)
    | some _ =>
      let (loaded, rest, nfailed) :=
        attrMapLoad units (registry.add m.name m.description m.type m.flags) map
      (loaded, { m with attrid := registry.addId m.name } :: rest, nfailed)

section

variable (units : List UnitRecord) (registry : AttrRegistry) (map : List AttrMapEntry)

/-- Loading a map adds definitions as its entries give them. -/
theorem attrMapLoad_attrDefs :
    registry.attrDefs ⊆ (attrMapLoad units registry map).1.attrDefs ∧
      ∀ definition ∈ (attrMapLoad units registry map).1.attrDefs,
        definition ∈ registry.attrDefs ∨ ∃ m ∈ map, definition.adName = m.name ∧
          definition.adType = m.type ∧ definition.adFlags = m.flags := by
  induction map generalizing registry with
  | nil => exact ⟨List.Subset.refl _, fun definition member => Or.inl member⟩
  | cons m map inductionHypothesis =>
    rw [attrMapLoad]
    cases unitLookup units m.unit with
    | none =>
      obtain ⟨kept, added⟩ := inductionHypothesis registry
      refine ⟨kept, fun definition member => (added definition member).imp_right ?_⟩
      rintro ⟨other, inMap, given⟩
      exact ⟨other, List.mem_cons_of_mem _ inMap, given⟩
    | some unit =>
      obtain ⟨kept, added⟩ :=
        inductionHypothesis (registry.add m.name m.description m.type m.flags)
      refine ⟨fun definition old => kept (registry.subset_add _ _ _ _ old),
        fun definition member => ?_⟩
      rcases added definition member with before | ⟨other, inMap, given⟩
      · exact (registry.mem_add before).imp_right fun given => ⟨m, List.mem_cons_self, given⟩
      · exact Or.inr ⟨other, List.mem_cons_of_mem _ inMap, given⟩

/-- Where all units are known, loading a map gives each of its entries the id of the definition
of its name. -/
theorem attrMapLoad_map (known : ∀ m ∈ map, (unitLookup units m.unit).isSome) :
    (attrMapLoad units registry map).2.2 = 0 ∧
      (attrMapLoad units registry map).2.1.map AttrMapEntry.name = map.map AttrMapEntry.name ∧
      ∀ m ∈ (attrMapLoad units registry map).2.1,
        ∃ definition ∈ (attrMapLoad units registry map).1.attrDefs,
          definition.adName = m.name ∧ definition.adId = m.attrid := by
  induction map generalizing registry with
  | nil => exact ⟨rfl, rfl, fun m member => by cases member⟩
  | cons m map inductionHypothesis =>
    obtain ⟨unit, found⟩ := Option.isSome_iff_exists.mp (known m List.mem_cons_self)
    obtain ⟨succeeds, names, rest⟩ :=
      inductionHypothesis (registry.add m.name m.description m.type m.flags)
        fun other member => known other (List.mem_cons_of_mem _ member)
    obtain ⟨kept, -⟩ :=
      attrMapLoad_attrDefs units (registry.add m.name m.description m.type m.flags) map
    rw [attrMapLoad, found]
    refine ⟨succeeds, congrArg (m.name :: ·) names, fun other member => ?_⟩
    rcases List.mem_cons.mp member with rfl | inRest
    · obtain ⟨definition, defined, named, isId⟩ :=
        registry.exists_mem_add m.name m.description m.type m.flags
      exact ⟨definition, kept defined, named, isId⟩
    · exact rest other inRest

end

/-! ### The configuration -/

/-- An `attr` section of a configuration file, with the defaults of `attr_opts`. There is no
option `ignore_overflows`, so that the parser gives no for it. -/
structure AttrSection where
  title : String
  description : String := ""
  unit : CString := ⟨[], by decide⟩
  type : String := "counter"
  history : Bool := false
  ignoreOverflows : Bool := false

/-- The comparisons of `configfile_read_attrs`. -/
def readAttrType (type : String) : Option AttrType :=
  if strcasecmp type.toList "counter".toList = 0 then some .counter
  else if strcasecmp type.toList "rate".toList = 0 then some .rate
  else if strcasecmp type.toList "percent".toList = 0 then some .percent
  else none

/-- `configfile_read_attrs`. -/
def configfileReadAttrs (units : List UnitRecord) :
    List AttrSection → AttrRegistry → Quits AttrRegistry
  | [], registry => .ok registry
  | attr :: attrs, registry =>
    match unitLookup units attr.unit with
    | none =>
      .error ("Unknown unit '" ++ String.ofList attr.unit.chars ++ "' attribute '" ++ attr.title ++
        "'\n")
    | some _ =>
      match readAttrType attr.type with
      | none => .error ("Unknown type '" ++ attr.type ++ "' in attribute '" ++ attr.title ++ "'\n")
      | some type =>
        configfileReadAttrs units attrs (registry.add attr.title attr.description type
          { forceHistory := attr.history, ignoreOverflows := attr.ignoreOverflows })

/-! ### Units stay -/

/-- A unit that is defined stays defined. -/
def Keeps (units units' : List UnitRecord) : Prop :=
  ∀ name, name ∈ units.map UnitRecord.uName → name ∈ units'.map UnitRecord.uName

theorem unitLookup_isSome_iff {units : List UnitRecord} {name : CString} :
    (unitLookup units name).isSome ↔ name ∈ units.map UnitRecord.uName := by
  unfold unitLookup
  rw [List.find?_isSome, List.mem_map]
  exact exists_congr fun unit => and_congr_right fun _ => decide_eq_true_iff

theorem uName_setDiv (unit : UnitRecord) (fractions : List Fraction) (type : UnitType) :
    (unit.setDiv fractions type).uName = unit.uName := by
  cases type <;> rfl

/-- The variants of a unit leave its name. -/
theorem readVariants_uName {variants : List VariantSection} {unit loaded : UnitRecord}
    (read : readVariants variants unit = .ok loaded) : loaded.uName = unit.uName := by
  induction variants generalizing unit with
  | nil =>
    rw [← Except.ok.inj read]
  | cons variant variants inductionHypothesis =>
    rw [readVariants] at read
    cases first : readVariant unit variant with
    | error text =>
      rw [first] at read
      cases read
    | ok next =>
      rw [first] at read
      refine (inductionHypothesis read).trans ?_
      have added : ∃ type, addDiv unit type variant = .ok next := by
        unfold readVariant at first
        split_ifs at first
        · exact ⟨_, first⟩
        · exact ⟨_, first⟩
        · exact ⟨_, first⟩
      obtain ⟨type, added⟩ := added
      rcases addDiv_cases added with ⟨-, rfl⟩ | ⟨-, rfl⟩
      · rfl
      · exact uName_setDiv _ _ _

/-- `unit_add` keeps the names of the units, and adds one at the end where it is new. -/
theorem unitAdd_names {name : CString} {change : UnitRecord → Quits UnitRecord}
    (keepsName : ∀ unit unit', change unit = .ok unit' → unit'.uName = unit.uName)
    {units units' : List UnitRecord} (added : unitAdd name change units = .ok units') :
    units'.map UnitRecord.uName =
      if name ∈ units.map UnitRecord.uName then units.map UnitRecord.uName
      else units.map UnitRecord.uName ++ [name] := by
  induction units generalizing units' with
  | nil =>
    cases done : change (newUnit name) with
    | error text =>
      rw [unitAdd, done] at added
      cases added
    | ok unit =>
      rw [unitAdd, done] at added
      rw [← Except.ok.inj added, List.map_singleton, keepsName _ _ done]
      rfl
  | cons unit units inductionHypothesis =>
    rw [unitAdd] at added
    split at added
    · next same =>
      cases done : change unit with
      | error text =>
        rw [done] at added
        cases added
      | ok unit' =>
        rw [done] at added
        rw [← Except.ok.inj added, List.map_cons, keepsName _ _ done, List.map_cons, same,
          if_pos List.mem_cons_self]
    · next other =>
      cases rest : unitAdd name change units with
      | error text =>
        rw [rest] at added
        cases added
      | ok units'' =>
        rw [rest] at added
        have here : name ∈ (unit :: units).map UnitRecord.uName ↔
            name ∈ units.map UnitRecord.uName := by
          rw [List.map_cons, List.mem_cons, or_iff_right (Ne.symm other)]
        rw [← Except.ok.inj added, List.map_cons, inductionHypothesis rest, if_congr here rfl rfl,
          List.map_cons, List.cons_append, apply_ite (List.cons unit.uName)]

theorem unitAdd_keeps {name : CString} {change : UnitRecord → Quits UnitRecord}
    (keepsName : ∀ unit unit', change unit = .ok unit' → unit'.uName = unit.uName)
    {units units' : List UnitRecord} (added : unitAdd name change units = .ok units') :
    Keeps units units' := by
  intro other member
  rw [unitAdd_names keepsName added]
  split_ifs
  · exact member
  · exact List.mem_append_left _ member

/-- The unit of a name is there once it has been added. -/
theorem unitAdd_mem {name : CString} {change : UnitRecord → Quits UnitRecord}
    (keepsName : ∀ unit unit', change unit = .ok unit' → unit'.uName = unit.uName)
    {units units' : List UnitRecord} (added : unitAdd name change units = .ok units') :
    name ∈ units'.map UnitRecord.uName := by
  rw [unitAdd_names keepsName added]
  split_ifs with known
  · exact known
  · exact List.mem_append_right _ (List.mem_singleton_self name)

/-- The configuration keeps the units. -/
theorem configfileReadUnits_keeps {sections : List UnitSection} {units units' : List UnitRecord}
    (read : configfileReadUnits sections units = .ok units') : Keeps units units' := by
  induction sections generalizing units with
  | nil =>
    rw [← Except.ok.inj read]
    exact fun name member => member
  | cons unit rest inductionHypothesis =>
    rw [configfileReadUnits] at read
    split at read
    · exact inductionHypothesis read
    · cases added : unitAdd unit.title (readVariants unit.variants) units with
      | error text =>
        rw [added] at read
        cases read
      | ok next =>
        rw [added] at read
        intro name member
        exact inductionHypothesis read name
          (unitAdd_keeps (fun _ _ => readVariants_uName) added name member)

end Bmon
