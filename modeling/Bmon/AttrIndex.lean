/-
This file shows that the structures `attr_update` maintains agree. The table of an element keeps
its attributes in a hash table, in a sorted list and in a counter; whatever ids are updated, in
whatever order, all three describe the same attributes, each under its id and once. Next to them
every attribute has its list of histories, which one call of `history_attach` fills.

The calls of `history_attach` leave no trace when no history is defined. The runs therefore write
down, for every attribute, the definitions each call found.
-/

import Bmon.AttrSelect
import Bmon.Element

namespace Bmon

/-! ### Definitions of attributes -/

/-- `attr_def_add`, on the list of the definitions and the next id. -/
def attrDefAdd (attrDefs : List AttrDef) (attrIdGen : Nat) (name description : String)
    (type : AttrType) (flags : AttrFlags) : List AttrDef × Nat :=
  match attrDefLookup attrDefs name with
  | some _ => (attrDefs, attrIdGen)
  | none => (attrDefs ++ [⟨attrIdGen, name, description, type, flags⟩], attrIdGen + 1)

theorem attrDefAdd_cases (attrDefs : List AttrDef) (attrIdGen : Nat) (name description : String)
    (type : AttrType) (flags : AttrFlags) :
    attrDefAdd attrDefs attrIdGen name description type flags = (attrDefs, attrIdGen) ∨
      attrDefAdd attrDefs attrIdGen name description type flags =
        (attrDefs ++ [⟨attrIdGen, name, description, type, flags⟩], attrIdGen + 1) := by
  unfold attrDefAdd
  cases attrDefLookup attrDefs name with
  | some _ => exact Or.inl rfl
  | none => exact Or.inr rfl

/-- The flags a configuration can set: at most `ATTR_FORCE_HISTORY` and
`ATTR_IGNORE_OVERFLOWS`. -/
def AttrFlags.Configurable (flags : AttrFlags) : Prop :=
  flags = { forceHistory := flags.forceHistory, ignoreOverflows := flags.ignoreOverflows }

instance (flags : AttrFlags) : Decidable flags.Configurable := inferInstanceAs (Decidable (_ = _))

/-! ### Runs -/

/-- The definitions that exist, the table of one element, and for each of its attributes the
definitions of histories that every call of `history_attach` found. -/
structure AttrRun where
  attrDefs : List AttrDef
  attrIdGen : Nat
  table : AttrTable
  attached : AttrPtr → List (List HistoryDef)

/-- The calls that change the attributes of an element, and the one that defines an attribute.
The definitions of histories are those of the time of the call. -/
inductive AttrCall where
  | attrDefAdd (name description : String) (type : AttrType) (flags : AttrFlags)
  | attrUpdate (historyDefs : List HistoryDef) (id : Nat) (rx tx : UInt64) (flags : UpdateFlags)
      (now : Timestamp)
  | attrStartCollectingHistory (historyDefs : List HistoryDef) (p : AttrPtr)
  deriving DecidableEq, Repr

/-- An attribute is defined with flags a configuration can set. -/
def AttrCall.Configurable : AttrCall → Prop
  | .attrDefAdd _ _ _ flags => flags.Configurable
  | _ => True

instance : (call : AttrCall) → Decidable call.Configurable
  | .attrDefAdd _ _ _ flags => inferInstanceAs (Decidable flags.Configurable)
  | .attrUpdate .. => isTrue trivial
  | .attrStartCollectingHistory .. => isTrue trivial

/-- The calls of `history_attach` in `attr_start_collecting_history`. -/
def startAttaches (historyDefs : List HistoryDef) (a : Attr) : List (List HistoryDef) :=
  if a.aFlags.doingHistory then [] else [historyDefs]

/-- The calls of `history_attach` in `attr_update`, for the attribute it tracks first. -/
def updateAttaches (attrDefs : List AttrDef) (historyDefs : List HistoryDef) (t : AttrTable)
    (id : Nat) : List (List HistoryDef) :=
  match attrLookup t id with
  | some _ => []
  | none =>
    match attrDefLookupId attrDefs id with
    | none => []
    | some definition =>
      if collectHistory t definition then startAttaches historyDefs (attrAlloc definition) else []

/-- One call. -/
def AttrRun.step (cfg : Config) (run : AttrRun) : AttrCall → AttrRun
  | .attrDefAdd name description type flags =>
    let added := attrDefAdd run.attrDefs run.attrIdGen name description type flags
    { run with attrDefs := added.1, attrIdGen := added.2 }
  | .attrUpdate historyDefs id rx tx flags now =>
    let attaches := updateAttaches run.attrDefs historyDefs run.table id
    { run with
      table := attrUpdate cfg run.attrDefs historyDefs run.table id rx tx flags now
      attached := fun p =>
        if p = run.table.attrs.length then run.attached p ++ attaches else run.attached p }
  | .attrStartCollectingHistory historyDefs p =>
    let attaches := run.table.attrs[p]?.elim [] (startAttaches historyDefs)
    { run with
      table := run.table.modifyAttr p (attrStartCollectingHistory cfg historyDefs)
      attached := fun q => if q = p then run.attached q ++ attaches else run.attached q }

/-- Before the first call: no attribute is defined, and the element is fresh, with any key and
usage attributes. -/
def AttrRun.start (eKeyAttr : GroupColumn → Option AttrDef) (eUsageAttr : Option AttrDef) :
    AttrRun where
  attrDefs := []
  attrIdGen := 1
  table := { AttrTable.empty with eKeyAttr := eKeyAttr, eUsageAttr := eUsageAttr }
  attached := fun _ => []

/-- A sequence of calls. -/
def AttrRun.calls (cfg : Config) (run : AttrRun) (calls : List AttrCall) : AttrRun :=
  calls.foldl (AttrRun.step cfg) run

/-- The call is an `attr_update` of the id, which has a definition at this time. -/
def AttrRun.Updates (run : AttrRun) (id : Nat) : AttrCall → Prop
  | .attrUpdate _ updated _ _ _ _ =>
    updated = id ∧ (attrDefLookupId run.attrDefs id).isSome
  | _ => False

/-- In a sequence of calls there is such an `attr_update`. -/
def AttrRun.Updated (cfg : Config) (run : AttrRun) (sequence : List AttrCall) (id : Nat) : Prop :=
  ∃ before call rest, sequence = before ++ call :: rest ∧
    (run.calls cfg before).Updates id call

/-- It is the first call or a later one. -/
theorem AttrRun.updated_cons_iff (cfg : Config) (run : AttrRun) (call : AttrCall)
    (rest : List AttrCall) (id : Nat) :
    run.Updated cfg (call :: rest) id ↔
      run.Updates id call ∨ (run.step cfg call).Updated cfg rest id := by
  constructor
  · rintro ⟨before, other, behind, split, updates⟩
    cases before with
    | nil =>
      obtain ⟨rfl, -⟩ := List.cons.inj split
      exact Or.inl updates
    | cons first before =>
      obtain ⟨rfl, later⟩ := List.cons.inj split
      exact Or.inr ⟨before, other, behind, later, updates⟩
  · rintro (updates | ⟨before, other, behind, rfl, updates⟩)
    · exact ⟨[], call, rest, rfl, updates⟩
    · exact ⟨call :: before, other, behind, rfl, updates⟩

/-! ### The structures of a table -/

/-- The definitions of the records of a table, in the order `attr_update` first saw them. -/
def AttrTable.seen (t : AttrTable) : List AttrDef := t.attrs.map Attr.aDef

/-- The ids of the records of a table: those that are tracked. -/
def AttrTable.ids (t : AttrTable) : List Nat := t.attrs.map fun a => a.aDef.adId

/-- The entries of all buckets of the hash table. -/
def AttrTable.hashed (t : AttrTable) : List AttrPtr :=
  (List.range attrHashSize).flatMap t.eAttrhash

/-- The ids of some attributes of a table. -/
def AttrTable.idsOf (t : AttrTable) (entries : List AttrPtr) : List Nat :=
  entries.filterMap fun p => t.ids[p]?

/-- The hash table, the sorted list and the counter describe the tracked attributes. -/
structure AttrTable.Indexed (t : AttrTable) : Prop where
  hashedOnce : ∀ id ∈ t.ids, (t.idsOf t.hashed).count id = 1
  bucket : ∀ bucket, ∀ p ∈ t.eAttrhash bucket, ∃ id, t.ids[p]? = some id ∧ attrHash id = bucket
  sortedOnce : ∀ id ∈ t.ids, (t.idsOf t.eAttrSorted).count id = 1
  same : ∀ p, p ∈ t.hashed ↔ p ∈ t.eAttrSorted
  size : t.eNattrs = t.eAttrSorted.toFinset.card
  lookup : ∀ id, (attrLookup t id).isSome ↔ id ∈ t.ids
  found : ∀ id p, attrLookup t id = some p → t.ids[p]? = some id

theorem attrLookup_eq (t : AttrTable) (id : Nat) :
    attrLookup t id = (t.eAttrhash (attrHash id)).find? fun p => t.ids[p]? = some id := by
  unfold attrLookup AttrTable.ids
  refine List.find?_congr fun p _ => ?_
  rw [List.getElem?_map]
  cases t.attrs[p]? with
  | none => rfl
  | some a => simp

/-- A list read at all of its positions. -/
theorem filterMap_range_getElem {α : Type} (list : List α) :
    ((List.range list.length).filterMap fun p => list[p]?) = list := by
  induction list using List.reverseRecOn with
  | nil => rfl
  | append_singleton list last inductionHypothesis =>
    rw [List.length_append, List.length_singleton, List.range_succ, List.filterMap_append]
    have before : (List.range list.length).filterMap (fun p => (list ++ [last])[p]?) = list := by
      refine (List.filterMap_congr fun p member => ?_).trans inductionHypothesis
      exact List.getElem?_append_left (List.mem_range.mp member)
    rw [before]
    simp

/-- How the table comes about: every bucket and the sorted list hold the records that belong
there, in the order of their allocation or sorted. -/
structure AttrTable.Filled (t : AttrTable) : Prop where
  nodup : t.ids.Nodup
  hash : ∀ bucket, t.eAttrhash bucket =
    (List.range t.ids.length).filter fun p => t.ids[p]?.any fun id => attrHash id = bucket
  sorted : t.eAttrSorted.Perm (List.range t.ids.length)
  count : t.eNattrs = t.ids.length

namespace AttrTable.Filled

variable {t : AttrTable} (filled : t.Filled)

include filled

theorem mem_hash {bucket : Nat} {p : AttrPtr} :
    p ∈ t.eAttrhash bucket ↔ ∃ id, t.ids[p]? = some id ∧ attrHash id = bucket := by
  rw [filled.hash, List.mem_filter, List.mem_range, Option.any_eq_true]
  constructor
  · rintro ⟨-, id, found, same⟩
    exact ⟨id, found, of_decide_eq_true same⟩
  · rintro ⟨id, found, same⟩
    exact ⟨(List.getElem?_eq_some_iff.mp found).1, id, found, decide_eq_true same⟩

/-- The buckets hold every record once. -/
theorem hashed_perm : t.hashed.Perm (List.range t.ids.length) := by
  refine (List.perm_ext_iff_of_nodup ?_ List.nodup_range).mpr fun p => ?_
  · refine List.nodup_flatMap.mpr ⟨fun bucket _ => ?_, ?_⟩
    · rw [filled.hash]
      exact List.nodup_range.filter _
    · refine List.nodup_range.imp fun {first second} different p inFirst inSecond => ?_
      obtain ⟨id, found, isFirst⟩ := filled.mem_hash.mp inFirst
      obtain ⟨id', found', isSecond⟩ := filled.mem_hash.mp inSecond
      obtain rfl := Option.some.inj (found.symm.trans found')
      exact different (isFirst.symm.trans isSecond)
  · unfold AttrTable.hashed
    rw [List.mem_flatMap, List.mem_range]
    constructor
    · rintro ⟨bucket, -, member⟩
      obtain ⟨id, found, -⟩ := filled.mem_hash.mp member
      exact (List.getElem?_eq_some_iff.mp found).1
    · intro bound
      refine ⟨attrHash t.ids[p], List.mem_range.mpr (Nat.mod_lt _ (by decide)), ?_⟩
      exact filled.mem_hash.mpr ⟨t.ids[p], List.getElem?_eq_getElem bound, rfl⟩

/-- What holds every record once holds every id once. -/
theorem count_idsOf {entries : List AttrPtr} (all : entries.Perm (List.range t.ids.length))
    {id : Nat} (tracked : id ∈ t.ids) : (t.idsOf entries).count id = 1 := by
  have ids : (t.idsOf entries).Perm t.ids := by
    have perm := all.filterMap fun p => t.ids[p]?
    rwa [filterMap_range_getElem] at perm
  rw [ids.count_eq, List.count_eq_one_of_mem filled.nodup tracked]

theorem lookup_isSome (id : Nat) : (attrLookup t id).isSome ↔ id ∈ t.ids := by
  rw [attrLookup_eq, List.find?_isSome, List.mem_iff_getElem?]
  constructor
  · rintro ⟨p, -, matched⟩
    exact ⟨p, of_decide_eq_true matched⟩
  · rintro ⟨p, found⟩
    exact ⟨p, filled.mem_hash.mpr ⟨id, found, rfl⟩, decide_eq_true found⟩

theorem indexed : t.Indexed where
  hashedOnce _ tracked := filled.count_idsOf filled.hashed_perm tracked
  bucket _ _ member := filled.mem_hash.mp member
  sortedOnce _ tracked := filled.count_idsOf filled.sorted tracked
  same p := by rw [filled.hashed_perm.mem_iff, filled.sorted.mem_iff]
  size := by
    rw [filled.count, List.toFinset_card_of_nodup (filled.sorted.nodup_iff.mpr List.nodup_range),
      filled.sorted.length_eq, List.length_range]
  lookup := filled.lookup_isSome
  found id p found := by
    rw [attrLookup_eq] at found
    have matched := List.find?_some found
    exact of_decide_eq_true matched

end AttrTable.Filled

/-! ### What the calls keep -/

section Branches

variable (cfg : Config) (historyDefs : List HistoryDef) (rx tx : UInt64) (flags : UpdateFlags)
  (now : Timestamp) {t : AttrTable} {id : Nat}

theorem attrUpdate_tracked_eq (attrDefs : List AttrDef) {p : AttrPtr}
    (tracked : attrLookup t id = some p) :
    attrUpdate cfg attrDefs historyDefs t id rx tx flags now =
      t.modifyAttr p fun a => attrStore a rx tx flags now := by
  unfold attrUpdate
  rw [tracked]

theorem attrUpdate_untracked_eq {attrDefs : List AttrDef} {definition : AttrDef}
    (untracked : attrLookup t id = none)
    (known : attrDefLookupId attrDefs id = some definition) :
    attrUpdate cfg attrDefs historyDefs t id rx tx flags now =
      (attrTrack cfg historyDefs t definition).modifyAttr t.attrs.length fun a =>
        attrStore a rx tx flags now := by
  unfold attrUpdate
  rw [untracked, known]

end Branches

/-- The structures only speak of the ids of the records. -/
theorem AttrTable.Filled.congr {t t' : AttrTable} (filled : t.Filled) (ids : t'.ids = t.ids)
    (hash : t'.eAttrhash = t.eAttrhash) (sorted : t'.eAttrSorted = t.eAttrSorted)
    (count : t'.eNattrs = t.eNattrs) : t'.Filled where
  nodup := ids ▸ filled.nodup
  hash bucket := by rw [hash, ids, filled.hash]
  sorted := by rw [sorted, ids]; exact filled.sorted
  count := by rw [count, ids, filled.count]

theorem ids_eq_seen (t : AttrTable) : t.ids = t.seen.map AttrDef.adId :=
  (List.map_map ..).symm

theorem seen_modifyAttr (t : AttrTable) (p : AttrPtr) {change : Attr → Attr}
    (keeps : ∀ a, (change a).aDef = a.aDef) : (t.modifyAttr p change).seen = t.seen := by
  refine List.ext_getElem? fun q => ?_
  unfold AttrTable.seen
  rw [List.getElem?_map, List.getElem?_map, AttrTable.modifyAttr_attrs, List.getElem?_modify,
    Option.map_eq_map, Option.map_map]
  refine congrArg (fun f => Option.map f t.attrs[q]?) (funext fun a => ?_)
  rw [Function.comp_apply]
  split_ifs
  · rw [keeps]
  · rfl

theorem ids_modifyAttr (t : AttrTable) (p : AttrPtr) {change : Attr → Attr}
    (keeps : ∀ a, (change a).aDef = a.aDef) : (t.modifyAttr p change).ids = t.ids := by
  rw [ids_eq_seen, ids_eq_seen, seen_modifyAttr t p keeps]

theorem AttrTable.Filled.modifyAttr {t : AttrTable} (filled : t.Filled) (p : AttrPtr)
    {change : Attr → Attr} (keeps : ∀ a, (change a).aDef = a.aDef) :
    (t.modifyAttr p change).Filled :=
  filled.congr (ids_modifyAttr t p keeps) rfl rfl rfl

theorem seen_attrTrack (cfg : Config) (historyDefs : List HistoryDef) (t : AttrTable)
    (definition : AttrDef) :
    (attrTrack cfg historyDefs t definition).seen = t.seen ++ [definition] := by
  unfold AttrTable.seen
  rw [attrTrack_attrs, List.map_append, List.map_singleton, (attrNew_fields _ _ _ _).2.1]

theorem ids_attrTrack (cfg : Config) (historyDefs : List HistoryDef) (t : AttrTable)
    (definition : AttrDef) :
    (attrTrack cfg historyDefs t definition).ids = t.ids ++ [definition.adId] := by
  rw [ids_eq_seen, ids_eq_seen, seen_attrTrack, List.map_append, List.map_singleton]

/-- A new attribute goes to the end of its bucket and into the sorted list. -/
theorem AttrTable.Filled.attrTrack {t : AttrTable} (filled : t.Filled) (cfg : Config)
    (historyDefs : List HistoryDef) {definition : AttrDef}
    (untracked : attrLookup t definition.adId = none) :
    (attrTrack cfg historyDefs t definition).Filled := by
  have new : definition.adId ∉ t.ids := by
    rw [← filled.lookup_isSome, untracked]
    exact Bool.false_ne_true
  have length : t.attrs.length = t.ids.length := (List.length_map _).symm
  refine ⟨?_, fun bucket => ?_, ?_, ?_⟩
  · rw [ids_attrTrack]
    exact filled.nodup.append (List.nodup_singleton _)
      (List.disjoint_singleton.mpr new)
  · have older : ((List.range t.ids.length).filter fun p =>
        (t.ids ++ [definition.adId])[p]?.any fun id => attrHash id = bucket) =
          t.eAttrhash bucket := by
      rw [filled.hash]
      refine List.filter_congr fun p member => ?_
      rw [List.getElem?_append_left (List.mem_range.mp member)]
    rw [ids_attrTrack, List.length_append, List.length_singleton, List.range_succ,
      List.filter_append, older, List.filter_singleton, List.getElem?_concat_length,
      Option.any_some, ← length]
    show (if bucket = attrHash definition.adId then t.eAttrhash bucket ++ [t.attrs.length]
      else t.eAttrhash bucket) = _
    by_cases same : bucket = attrHash definition.adId
    · rw [if_pos same, decide_eq_true same.symm, cond_true]
    · rw [if_neg same, decide_eq_false (Ne.symm same), cond_false, List.append_nil]
  · rw [ids_attrTrack, List.length_append, List.length_singleton, List.range_succ, ← length]
    refine (attrSortedInsert_perm t _ _ _).trans ?_
    refine (List.Perm.cons _ (length ▸ filled.sorted)).trans ?_
    exact (List.perm_append_singleton _ _).symm
  · rw [ids_attrTrack, List.length_append, List.length_singleton, ← filled.count]
    rfl

theorem AttrTable.Filled.attrUpdate {t : AttrTable} (filled : t.Filled) (cfg : Config)
    (attrDefs : List AttrDef) (historyDefs : List HistoryDef) (id : Nat) (rx tx : UInt64)
    (flags : UpdateFlags) (now : Timestamp) :
    (attrUpdate cfg attrDefs historyDefs t id rx tx flags now).Filled := by
  have keeps (a : Attr) : (attrStore a rx tx flags now).aDef = a.aDef :=
    attrStore_aDef a rx tx flags now
  unfold Bmon.attrUpdate
  cases tracked : attrLookup t id with
  | some p => exact filled.modifyAttr p keeps
  | none =>
    cases known : attrDefLookupId attrDefs id with
    | none => exact filled
    | some definition =>
      obtain rfl := attrDefLookupId_adId known
      exact (filled.attrTrack cfg historyDefs tracked).modifyAttr _ keeps

theorem attrStartCollectingHistory_aDef (cfg : Config) (historyDefs : List HistoryDef) (a : Attr) :
    (attrStartCollectingHistory cfg historyDefs a).aDef = a.aDef := by
  unfold attrStartCollectingHistory
  split_ifs <;> rfl

/-! ### Histories -/

/-- The histories of an attribute come from the calls of `history_attach` made for it, of which
there is at most one. The flag tells whether there was one. -/
structure HistoryAttached (cfg : Config) (attached : List (List HistoryDef)) (a : Attr) : Prop where
  histories : a.aHistoryList =
    attached.flatMap fun definitions => definitions.map (historyAlloc cfg)
  flag : a.aFlags.doingHistory = true ↔
    ∃ definitions, attached = [definitions] ∧
      a.aHistoryList = definitions.map (historyAlloc cfg)
  once : attached.length ≤ 1

namespace HistoryAttached

variable {cfg : Config} {attached : List (List HistoryDef)} {a : Attr}

/-- Without the flag nothing is attached. -/
theorem of_clear (histories : a.aHistoryList = []) (clear : a.aFlags.doingHistory = false) :
    HistoryAttached cfg [] a where
  histories := histories
  flag := by
    rw [clear]
    refine ⟨fun set => absurd set Bool.false_ne_true, ?_⟩
    rintro ⟨definitions, none, -⟩
    exact absurd none (List.cons_ne_nil _ _).symm
  once := Nat.zero_le 1

theorem eq_nil (holds : HistoryAttached cfg attached a) (clear : a.aFlags.doingHistory = false) :
    attached = [] := by
  refine List.length_eq_zero_iff.mp (Nat.lt_one_iff.mp (lt_of_le_of_ne holds.once fun one => ?_))
  obtain ⟨definitions, rfl⟩ := List.length_eq_one_iff.mp one
  have set := holds.flag.mpr ⟨definitions, rfl, by
    rw [holds.histories, List.flatMap_singleton]⟩
  rw [clear] at set
  exact Bool.false_ne_true set

/-- The histories and the flag are all that is looked at. -/
theorem congr (holds : HistoryAttached cfg attached a) {a' : Attr}
    (histories : a'.aHistoryList = a.aHistoryList)
    (flag : a'.aFlags.doingHistory = a.aFlags.doingHistory) : HistoryAttached cfg attached a' where
  histories := histories ▸ holds.histories
  flag := by rw [flag, histories]; exact holds.flag
  once := holds.once

/-- Starting to collect attaches histories if none are attached. -/
theorem start (holds : HistoryAttached cfg attached a) (historyDefs : List HistoryDef) :
    HistoryAttached cfg (attached ++ startAttaches historyDefs a)
      (attrStartCollectingHistory cfg historyDefs a) := by
  unfold startAttaches attrStartCollectingHistory
  cases doing : a.aFlags.doingHistory with
  | true => simpa using holds
  | false =>
    have empty := holds.eq_nil doing
    subst empty
    have histories : (historyAttach cfg historyDefs a).aHistoryList =
        historyDefs.map (historyAlloc cfg) := by
      show a.aHistoryList ++ _ = _
      rw [holds.histories, List.flatMap_nil, List.nil_append]
    exact ⟨histories.trans (List.flatMap_singleton _ _).symm,
      ⟨fun _ => ⟨historyDefs, rfl, histories⟩, fun _ => rfl⟩, le_rfl⟩

end HistoryAttached

theorem attrStore_doingHistory (a : Attr) (rx tx : UInt64) (flags : UpdateFlags)
    (now : Timestamp) :
    (attrStore a rx tx flags now).aFlags.doingHistory = a.aFlags.doingHistory := by
  unfold attrStore
  split_ifs <;> rfl

/-! ### Every run -/

/-- What every call keeps: definitions have flags a configuration can set and stay known, the
table is filled, and the histories are those that were attached. -/
structure AttrRun.Invariant (cfg : Config) (run : AttrRun) : Prop where
  flags : ∀ definition ∈ run.attrDefs, definition.adFlags.Configurable
  known : ∀ id ∈ run.table.ids, ∃ definition ∈ run.attrDefs, definition.adId = id
  filled : run.table.Filled
  unused : ∀ p, run.table.attrs.length ≤ p → run.attached p = []
  histories : ∀ p a, run.table.attrs[p]? = some a → HistoryAttached cfg (run.attached p) a

/-- The histories of a table in which one record is changed. -/
theorem attached_modifyAttr {cfg : Config} {t : AttrTable}
    (attached : AttrPtr → List (List HistoryDef)) {attached' : AttrPtr → List (List HistoryDef)}
    (p : AttrPtr) {change : Attr → Attr}
    (holds : ∀ q ≠ p, ∀ a, t.attrs[q]? = some a → HistoryAttached cfg (attached q) a)
    (others : ∀ q ≠ p, attached' q = attached q)
    (changed : ∀ a, t.attrs[p]? = some a → HistoryAttached cfg (attached' p) (change a))
    (q : AttrPtr) (a : Attr) (present : (t.modifyAttr p change).attrs[q]? = some a) :
    HistoryAttached cfg (attached' q) a := by
  by_cases same : q = p
  · subst same
    rw [AttrTable.modifyAttr_attrs, List.getElem?_modify_eq] at present
    obtain ⟨old, found, rfl⟩ := Option.map_eq_some_iff.mp present
    exact changed old found
  · rw [AttrTable.modifyAttr_attrs, List.getElem?_modify_ne _ _ (Ne.symm same)] at present
    rw [others q same]
    exact holds q same a present

namespace AttrRun.Invariant

variable {cfg : Config} {run : AttrRun} (holds : run.Invariant cfg)

include holds

/-- An id without a definition is not tracked, and its update changes nothing. -/
theorem attrUpdate_unknown {id : Nat} (unknown : attrDefLookupId run.attrDefs id = none)
    (historyDefs : List HistoryDef) (rx tx : UInt64) (flags : UpdateFlags) (now : Timestamp) :
    attrUpdate cfg run.attrDefs historyDefs run.table id rx tx flags now = run.table := by
  have untracked : attrLookup run.table id = none := by
    refine Option.not_isSome_iff_eq_none.mp fun tracked => ?_
    obtain ⟨definition, member, same⟩ :=
      holds.known id ((holds.filled.lookup_isSome id).mp tracked)
    exact List.find?_eq_none.mp unknown definition member (decide_eq_true same)
  unfold attrUpdate
  rw [untracked, unknown]

theorem step_attrDefAdd (name description : String) (type : AttrType) {flags : AttrFlags}
    (configurable : flags.Configurable) :
    (run.step cfg (.attrDefAdd name description type flags)).Invariant cfg := by
  obtain same | added := attrDefAdd_cases run.attrDefs run.attrIdGen name description type flags
  · simp only [AttrRun.step, same]
    exact holds
  · simp only [AttrRun.step, added]
    refine ⟨fun definition member => ?_, fun id tracked => ?_, holds.filled, holds.unused,
      holds.histories⟩
    · rcases List.mem_append.mp member with old | new
      · exact holds.flags definition old
      · rw [List.mem_singleton.mp new]
        exact configurable
    · obtain ⟨definition, member, same⟩ := holds.known id tracked
      exact ⟨definition, List.mem_append_left _ member, same⟩

/-- The update of a tracked attribute only stores the readings. -/
theorem step_attrUpdate_tracked (historyDefs : List HistoryDef) {id : Nat} (rx tx : UInt64)
    (flags : UpdateFlags) (now : Timestamp) {p : AttrPtr}
    (tracked : attrLookup run.table id = some p) :
    (run.step cfg (.attrUpdate historyDefs id rx tx flags now)).Invariant cfg := by
  have filled := holds.filled.attrUpdate cfg run.attrDefs historyDefs id rx tx flags now
  have updated := attrUpdate_tracked_eq cfg historyDefs rx tx flags now run.attrDefs tracked
  have attaches : updateAttaches run.attrDefs historyDefs run.table id = [] := by
    unfold updateAttaches
    rw [tracked]
  simp only [AttrRun.step, attaches, List.append_nil, ite_self]
  rw [updated] at filled ⊢
  refine ⟨holds.flags, ?_, filled, fun q bound => ?_, ?_⟩
  · rw [ids_modifyAttr _ _ fun a => attrStore_aDef a rx tx flags now]
    exact holds.known
  · exact holds.unused q ((List.length_modify _ _ _).ge.trans bound)
  · refine attached_modifyAttr run.attached p (fun q _ => holds.histories q) (fun _ _ => rfl) ?_
    exact fun a present => (holds.histories p a present).congr
      (attrStore_aHistoryList a rx tx flags now) (attrStore_doingHistory a rx tx flags now)

/-- A new attribute has histories if `collect_history` says so. -/
theorem attached_attrNew {definition : AttrDef} (defined : definition ∈ run.attrDefs)
    (historyDefs : List HistoryDef) {id : Nat} (untracked : attrLookup run.table id = none)
    (known : attrDefLookupId run.attrDefs id = some definition) :
    HistoryAttached cfg (updateAttaches run.attrDefs historyDefs run.table id)
      (attrNew cfg historyDefs run.table definition) := by
  have clear : (attrAlloc definition).aFlags.doingHistory = false := by
    show definition.adFlags.doingHistory = false
    rw [holds.flags definition defined]
  have allocated : HistoryAttached cfg [] (attrAlloc definition) := .of_clear rfl clear
  unfold updateAttaches attrNew
  rw [untracked, known]
  simp only
  split_ifs
  · exact allocated.start historyDefs
  · exact allocated

/-- The update of an attribute that is not tracked yet adds a record at the end. -/
theorem step_attrUpdate_new (historyDefs : List HistoryDef) {id : Nat} (rx tx : UInt64)
    (flags : UpdateFlags) (now : Timestamp) {definition : AttrDef}
    (untracked : attrLookup run.table id = none)
    (known : attrDefLookupId run.attrDefs id = some definition) :
    (run.step cfg (.attrUpdate historyDefs id rx tx flags now)).Invariant cfg := by
  have defined := List.mem_of_find?_eq_some known
  have filled := holds.filled.attrUpdate cfg run.attrDefs historyDefs id rx tx flags now
  have updated := attrUpdate_untracked_eq cfg historyDefs rx tx flags now untracked known
  have new := holds.attached_attrNew defined historyDefs untracked known
  have length : ((attrTrack cfg historyDefs run.table definition).modifyAttr
      run.table.attrs.length fun a => attrStore a rx tx flags now).attrs.length =
        run.table.attrs.length + 1 := by
    rw [AttrTable.modifyAttr_attrs, List.length_modify, attrTrack_attrs, List.length_append,
      List.length_singleton]
  simp only [AttrRun.step]
  rw [updated] at filled ⊢
  refine ⟨holds.flags, ?_, filled, fun q bound => ?_, ?_⟩
  · rw [ids_modifyAttr _ _ fun a => attrStore_aDef a rx tx flags now, ids_attrTrack]
    intro other member
    rcases List.mem_append.mp member with old | isNew
    · exact holds.known other old
    · exact ⟨definition, defined,
        (attrDefLookupId_adId known).trans
          ((List.mem_singleton.mp isNew).trans (attrDefLookupId_adId known)).symm⟩
  · have longer := length ▸ bound
    exact (if_neg (Nat.ne_of_gt longer)).trans (holds.unused q (Nat.le_of_succ_le longer))
  · refine attached_modifyAttr run.attached run.table.attrs.length
      (fun q other a present => ?_) (fun q other => if_neg other) fun a present => ?_
    · -- the records before the new one are the old ones
      rw [attrTrack_attrs] at present
      have bound := (List.getElem?_eq_some_iff.mp present).1
      rw [List.length_append, List.length_singleton] at bound
      rw [List.getElem?_append_left (lt_of_le_of_ne (Nat.le_of_lt_succ bound) other)] at present
      exact holds.histories q a present
    · rw [attrTrack_attrs, List.getElem?_concat_length] at present
      obtain rfl := Option.some.inj present
      have attached : (if run.table.attrs.length = run.table.attrs.length then
          run.attached run.table.attrs.length ++
            updateAttaches run.attrDefs historyDefs run.table id
          else run.attached run.table.attrs.length) =
            updateAttaches run.attrDefs historyDefs run.table id := by
        rw [if_pos rfl, holds.unused _ le_rfl, List.nil_append]
      show HistoryAttached cfg (if _ then _ else _) _
      rw [attached]
      exact new.congr (attrStore_aHistoryList _ rx tx flags now)
        (attrStore_doingHistory _ rx tx flags now)

theorem step_attrUpdate (historyDefs : List HistoryDef) (id : Nat) (rx tx : UInt64)
    (flags : UpdateFlags) (now : Timestamp) :
    (run.step cfg (.attrUpdate historyDefs id rx tx flags now)).Invariant cfg := by
  cases tracked : attrLookup run.table id with
  | some p => exact holds.step_attrUpdate_tracked historyDefs rx tx flags now tracked
  | none =>
    cases known : attrDefLookupId run.attrDefs id with
    | some definition =>
      exact holds.step_attrUpdate_new historyDefs rx tx flags now tracked known
    | none =>
      have attaches : updateAttaches run.attrDefs historyDefs run.table id = [] := by
        unfold updateAttaches
        rw [tracked, known]
      simp only [AttrRun.step, attaches, List.append_nil, ite_self]
      rw [holds.attrUpdate_unknown known]
      exact holds

theorem step_attrStartCollectingHistory (historyDefs : List HistoryDef) (p : AttrPtr) :
    (run.step cfg (.attrStartCollectingHistory historyDefs p)).Invariant cfg := by
  have keeps := attrStartCollectingHistory_aDef cfg historyDefs
  simp only [AttrRun.step]
  refine ⟨holds.flags, ?_, holds.filled.modifyAttr p keeps, fun q bound => ?_, ?_⟩
  · rw [ids_modifyAttr _ _ keeps]
    exact holds.known
  · rw [AttrTable.modifyAttr_attrs, List.length_modify] at bound
    have unused := holds.unused q bound
    by_cases same : q = p
    · subst same
      refine (if_pos rfl).trans ?_
      rw [unused, List.getElem?_eq_none bound]
      rfl
    · exact (if_neg same).trans unused
  · refine attached_modifyAttr run.attached p (fun q _ => holds.histories q)
      (fun q other => if_neg other) fun a present => ?_
    simp only [present, ↓reduceIte, Option.elim_some]
    exact (holds.histories p a present).start historyDefs

theorem step {call : AttrCall} (configurable : call.Configurable) :
    (run.step cfg call).Invariant cfg := by
  cases call with
  | attrDefAdd name description type flags =>
    exact holds.step_attrDefAdd name description type configurable
  | attrUpdate historyDefs id rx tx flags now =>
    exact holds.step_attrUpdate historyDefs id rx tx flags now
  | attrStartCollectingHistory historyDefs p =>
    exact holds.step_attrStartCollectingHistory historyDefs p

theorem calls {sequence : List AttrCall} (configurable : ∀ call ∈ sequence, call.Configurable) :
    (run.calls cfg sequence).Invariant cfg := by
  induction sequence generalizing run with
  | nil => exact holds
  | cons call rest inductionHypothesis =>
    exact inductionHypothesis (holds.step (configurable call List.mem_cons_self))
      fun other member => configurable other (List.mem_cons_of_mem _ member)

/-- What is tracked after a call was tracked before, or the call is its `attr_update`. -/
theorem mem_ids_step (call : AttrCall) (id : Nat) :
    id ∈ (run.step cfg call).table.ids ↔ id ∈ run.table.ids ∨ run.Updates id call := by
  cases call with
  | attrDefAdd name description type flags => exact (or_iff_left not_false).symm
  | attrStartCollectingHistory historyDefs p =>
    have same : (run.step cfg (.attrStartCollectingHistory historyDefs p)).table.ids =
        run.table.ids := ids_modifyAttr _ _ (attrStartCollectingHistory_aDef cfg historyDefs)
    rw [same]
    exact (or_iff_left not_false).symm
  | attrUpdate historyDefs updated rx tx flags now =>
    have keeps (a : Attr) : (attrStore a rx tx flags now).aDef = a.aDef :=
      attrStore_aDef a rx tx flags now
    change id ∈ (attrUpdate cfg run.attrDefs historyDefs run.table updated rx tx flags now).ids ↔
      id ∈ run.table.ids ∨ updated = id ∧ (attrDefLookupId run.attrDefs id).isSome
    cases tracked : attrLookup run.table updated with
    | some p =>
      rw [attrUpdate_tracked_eq cfg historyDefs rx tx flags now run.attrDefs tracked,
        ids_modifyAttr _ _ keeps]
      refine (or_iff_left_of_imp ?_).symm
      rintro ⟨rfl, -⟩
      exact (holds.filled.lookup_isSome updated).mp (tracked ▸ rfl)
    | none =>
      cases known : attrDefLookupId run.attrDefs updated with
      | none =>
        rw [holds.attrUpdate_unknown known]
        refine (or_iff_left ?_).symm
        rintro ⟨rfl, isKnown⟩
        rw [known] at isKnown
        exact Bool.false_ne_true isKnown
      | some definition =>
        rw [attrUpdate_untracked_eq cfg historyDefs rx tx flags now tracked known,
          ids_modifyAttr _ _ keeps, ids_attrTrack, List.mem_append, List.mem_singleton,
          attrDefLookupId_adId known]
        refine or_congr_right ⟨?_, fun updates => updates.1.symm⟩
        rintro rfl
        exact ⟨rfl, known ▸ rfl⟩

/-- After a sequence of calls. -/
theorem mem_ids_calls {sequence : List AttrCall}
    (configurable : ∀ call ∈ sequence, call.Configurable) (id : Nat) :
    id ∈ (run.calls cfg sequence).table.ids ↔
      id ∈ run.table.ids ∨ run.Updated cfg sequence id := by
  induction sequence generalizing run with
  | nil =>
    refine (or_iff_left ?_).symm
    rintro ⟨before, call, rest, split, -⟩
    exact absurd split.symm (List.append_ne_nil_of_right_ne_nil _ (List.cons_ne_nil _ _))
  | cons call rest inductionHypothesis =>
    have later := inductionHypothesis (holds.step (configurable call List.mem_cons_self))
      fun other member => configurable other (List.mem_cons_of_mem _ member)
    rw [AttrRun.updated_cons_iff, ← or_assoc, ← holds.mem_ids_step call id]
    exact later

end AttrRun.Invariant

theorem invariant_start (cfg : Config) (eKeyAttr : GroupColumn → Option AttrDef)
    (eUsageAttr : Option AttrDef) : (AttrRun.start eKeyAttr eUsageAttr).Invariant cfg where
  flags _ member := absurd member List.not_mem_nil
  known _ member := absurd member List.not_mem_nil
  filled := ⟨List.nodup_nil, fun _ => rfl, List.Perm.refl _, rfl⟩
  unused _ _ := rfl
  histories _ _ present := by cases present

/-- Two attributes are defined and updated, one of them collects its history, and an unknown id
is updated. -/
def twoAttrCalls : List AttrCall :=
  [.attrDefAdd "bytes" "Bytes" .counter { forceHistory := true },
    .attrDefAdd "packets" "Packets" .counter { ignoreOverflows := true },
    .attrUpdate [] 2 1 1 { rx := true } Timestamp.zero,
    .attrUpdate [] 7 1 1 { tx := true } Timestamp.zero,
    .attrUpdate [] 1 1 1 { tx := true } Timestamp.zero,
    .attrStartCollectingHistory [] 0, .attrStartCollectingHistory [] 0]

/-- After every sequence of calls the structures of a table agree, the tracked ids are those that
were updated when they had a definition, an id without a definition changes nothing, and the
histories of every attribute are those of at most one `history_attach`. -/
theorem attrUpdate_indexed (cfg : Config) (eKeyAttr : GroupColumn → Option AttrDef)
    (eUsageAttr : Option AttrDef) (sequence : List AttrCall)
    (configurable : ∀ call ∈ sequence, call.Configurable) (run : AttrRun)
    (ran : (AttrRun.start eKeyAttr eUsageAttr).calls cfg sequence = run) :
    run.table.Indexed ∧
      (∀ id, id ∈ run.table.ids ↔
        (AttrRun.start eKeyAttr eUsageAttr).Updated cfg sequence id) ∧
      (∀ id, attrDefLookupId run.attrDefs id = none → ∀ historyDefs rx tx flags now,
        attrUpdate cfg run.attrDefs historyDefs run.table id rx tx flags now = run.table) ∧
      ∀ p a, run.table.attrs[p]? = some a → HistoryAttached cfg (run.attached p) a := by
  subst ran
  have initial := invariant_start cfg eKeyAttr eUsageAttr
  have holds := initial.calls configurable
  refine ⟨holds.filled.indexed, fun id => ?_, fun id => holds.attrUpdate_unknown, holds.histories⟩
  exact (initial.mem_ids_calls configurable id).trans (or_iff_right List.not_mem_nil)

theorem attrUpdate_indexed_twoAttrs :
    let run := (AttrRun.start (fun _ => none) none).calls (confInitPost {}) twoAttrCalls
    run.table.Indexed ∧ attrLookup run.table 2 = some 0 ∧ attrLookup run.table 1 = some 1 ∧
      ∀ id, (AttrRun.start (fun _ => none) none).Updated (confInitPost {}) twoAttrCalls id ↔
        id = 2 ∨ id = 1 := by
  obtain ⟨indexed, tracked, -⟩ :=
    attrUpdate_indexed (confInitPost {}) (fun _ => none) none twoAttrCalls (by decide) _ rfl
  refine ⟨indexed, by decide, by decide, fun id => (tracked id).symm.trans ?_⟩
  have ids : ((AttrRun.start (fun _ => none) none).calls (confInitPost {})
      twoAttrCalls).table.ids = [2, 1] := by decide
  rw [ids, List.mem_cons, List.mem_singleton]

end Bmon
