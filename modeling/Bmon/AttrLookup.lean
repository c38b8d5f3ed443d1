/-
This file shows how `attr_lookup` sees the table of an element through its operations: a change
of a record that keeps its definition is not seen, and a new attribute is found under its id. So
`attr_update` stores its readings in the record that `attr_lookup` finds afterwards.
-/

import Bmon.Attr
import Mathlib.Data.List.Find

namespace Bmon

@[simp] theorem AttrTable.modifyAttr_attrs (t : AttrTable) (p : AttrPtr) (change : Attr → Attr) :
    (t.modifyAttr p change).attrs = t.attrs.modify p change := rfl

/-- The lookup only depends on the buckets and on the definitions of the records. -/
theorem attrLookup_congr {t t' : AttrTable} (id : Nat)
    (bucket : t'.eAttrhash (attrHash id) = t.eAttrhash (attrHash id))
    (definitions : ∀ p : AttrPtr, t'.attrs[p]?.map Attr.aDef = t.attrs[p]?.map Attr.aDef) :
    attrLookup t' id = attrLookup t id := by
  unfold attrLookup
  rw [bucket]
  refine List.find?_congr fun p _ => ?_
  have same := congrArg (Option.any fun definition => definition.adId = id) (definitions p)
  rwa [Option.any_map, Option.any_map] at same

theorem attrLookup_modifyAttr (t : AttrTable) (p : AttrPtr) {change : Attr → Attr}
    (keeps : ∀ a ∈ t.attrs[p]?, (change a).aDef = a.aDef) (id : Nat) :
    attrLookup (t.modifyAttr p change) id = attrLookup t id := by
  refine attrLookup_congr id rfl fun q => ?_
  rw [AttrTable.modifyAttr_attrs]
  by_cases same : p = q
  · subst same
    rw [List.getElem?_modify_eq]
    cases found : t.attrs[p]? with
    | none => rfl
    | some a => exact congrArg some (keeps a found)
  · rw [List.getElem?_modify_ne _ _ same]

/-- What is found has the id that was looked for. -/
theorem attrLookup_adId {t : AttrTable} {id : Nat} {p : AttrPtr}
    (found : attrLookup t id = some p) : ∃ a, t.attrs[p]? = some a ∧ a.aDef.adId = id := by
  unfold attrLookup at found
  have matched := List.find?_some found
  obtain ⟨a, isAttr, same⟩ := (Option.any_eq_true _ _).mp matched
  exact ⟨a, isAttr, of_decide_eq_true same⟩

theorem attrDefLookupId_adId {attrDefs : List AttrDef} {id : Nat} {definition : AttrDef}
    (known : attrDefLookupId attrDefs id = some definition) : definition.adId = id := by
  have matched := List.find?_some known
  exact of_decide_eq_true matched

@[simp] theorem attrTrack_attrs (cfg : Config) (historyDefs : List HistoryDef) (t : AttrTable)
    (definition : AttrDef) :
    (attrTrack cfg historyDefs t definition).attrs =
      t.attrs ++ [attrNew cfg historyDefs t definition] := rfl

/-- A new attribute is found at the address of its record. -/
theorem attrLookup_attrTrack (cfg : Config) (historyDefs : List HistoryDef) {t : AttrTable}
    {definition : AttrDef} (untracked : attrLookup t definition.adId = none) :
    attrLookup (attrTrack cfg historyDefs t definition) definition.adId =
      some t.attrs.length := by
  have newDef := (attrNew_fields cfg historyDefs t definition).2.1
  have bucket : (attrTrack cfg historyDefs t definition).eAttrhash (attrHash definition.adId) =
      t.eAttrhash (attrHash definition.adId) ++ [t.attrs.length] := if_pos rfl
  have last : (attrTrack cfg historyDefs t definition).attrs[t.attrs.length]?.any
      fun attr => attr.aDef.adId = definition.adId := by
    rw [attrTrack_attrs, List.getElem?_concat_length, Option.any_some, newDef]
    exact decide_eq_true rfl
  cases found : attrLookup (attrTrack cfg historyDefs t definition) definition.adId with
  | none =>
    unfold attrLookup at found
    rw [bucket] at found
    exact absurd last (List.find?_eq_none.mp found _ (List.mem_append_right _ (by simp)))
  | some p =>
    -- an older record would have been found before
    obtain ⟨a, isAttr, same⟩ := attrLookup_adId found
    rw [attrTrack_attrs, List.getElem?_append] at isAttr
    split at isAttr
    · rename_i older
      have member := List.mem_of_find?_eq_some found
      rw [bucket, List.mem_append, List.mem_singleton] at member
      have inBucket := member.resolve_right (Nat.ne_of_lt older)
      have unmatched := List.find?_eq_none.mp untracked p inBucket
      rw [isAttr] at unmatched
      exact absurd (decide_eq_true same) unmatched
    · rename_i notOlder
      have bound := (List.getElem?_eq_some_iff.mp isAttr).1
      rw [List.length_singleton] at bound
      exact congrArg some (Nat.le_antisymm (Nat.sub_eq_zero_iff_le.mp (Nat.lt_one_iff.mp bound))
        (Nat.le_of_not_lt notOlder))

/-! ### The record `attr_update` stores its readings in -/

/-- `attr_update` stores its readings in this record: the one that is tracked, or a new one. -/
def StoresIn (cfg : Config) (attrDefs : List AttrDef) (historyDefs : List HistoryDef)
    (t : AttrTable) (id : Nat) (a : Attr) : Prop :=
  (∃ p, attrLookup t id = some p ∧ t.attrs[p]? = some a) ∨
    ∃ definition, attrLookup t id = none ∧ attrDefLookupId attrDefs id = some definition ∧
      a = attrNew cfg historyDefs t definition

/-- After `attr_update` the attribute is tracked, with the readings stored. -/
theorem attrUpdate_lookup {cfg : Config} {attrDefs : List AttrDef}
    {historyDefs : List HistoryDef} {t : AttrTable} {id : Nat} {a : Attr}
    (storesIn : StoresIn cfg attrDefs historyDefs t id a) (rx tx : UInt64) (flags : UpdateFlags)
    (now : Timestamp) :
    ∃ p, attrLookup (attrUpdate cfg attrDefs historyDefs t id rx tx flags now) id = some p ∧
      (attrUpdate cfg attrDefs historyDefs t id rx tx flags now).attrs[p]? =
        some (attrStore a rx tx flags now) := by
  have keeps (a : Attr) : (attrStore a rx tx flags now).aDef = a.aDef :=
    attrStore_aDef a rx tx flags now
  obtain ⟨p, tracked, isAttr⟩ | ⟨definition, untracked, known, rfl⟩ := storesIn
  · refine ⟨p, ?_, ?_⟩
    · unfold attrUpdate
      rw [tracked]
      exact (attrLookup_modifyAttr t p (fun a _ => keeps a) id).trans tracked
    · rw [attrUpdate_tracked _ _ _ _ _ _ _ _ _ _ tracked, isAttr]
      rfl
  · obtain rfl := attrDefLookupId_adId known
    refine ⟨t.attrs.length, ?_,
      attrUpdate_new cfg attrDefs historyDefs t _ rx tx flags now definition untracked known⟩
    unfold attrUpdate
    rw [untracked, known]
    exact (attrLookup_modifyAttr _ _ (fun a _ => keeps a) _).trans
      (attrLookup_attrTrack cfg historyDefs untracked)

/-! ### Reading an attribute -/

/-- What an input module does for an attribute in one read: `attr_update`, and
`attr_notify_update` of the attribute it has updated. -/
def attrFeed (cfg : Config) (attrDefs : List AttrDef) (historyDefs : List HistoryDef)
    (fuel : Nat) (t : AttrTable) (id : Nat) (rx tx : UInt64) (flags : UpdateFlags)
    (now ts : Timestamp) : Option AttrTable :=
  let t := attrUpdate cfg attrDefs historyDefs t id rx tx flags now
  match attrLookup t id with
  | none => some t
  | some p =>
    (t.attrs[p]?.bind fun a => attrNotifyUpdate cfg fuel a ts).map fun a =>
      t.modifyAttr p fun _ => a

/-- One read takes the record through an update and a notification. -/
theorem attrFeed_lookup {cfg : Config} {attrDefs : List AttrDef}
    {historyDefs : List HistoryDef} {fuel : Nat} {t t' : AttrTable} {id : Nat} {a : Attr}
    {rx tx : UInt64} {flags : UpdateFlags} {now ts : Timestamp}
    (storesIn : StoresIn cfg attrDefs historyDefs t id a)
    (fed : attrFeed cfg attrDefs historyDefs fuel t id rx tx flags now ts = some t') :
    ∃ p a', attrNotifyUpdate cfg fuel (attrStore a rx tx flags now) ts = some a' ∧
      attrLookup t' id = some p ∧ t'.attrs[p]? = some a' := by
  obtain ⟨p, found, isAttr⟩ := attrUpdate_lookup storesIn rx tx flags now
  simp only [attrFeed, found, isAttr, Option.bind_some] at fed
  obtain ⟨a', notified, rfl⟩ := Option.map_eq_some_iff.mp fed
  refine ⟨p, a', notified, ?_, ?_⟩
  · rw [attrLookup_modifyAttr, found]
    intro old isOld
    obtain rfl : attrStore a rx tx flags now = old := Option.some.inj (isAttr.symm.trans isOld)
    exact (attrNotifyUpdate_fields notified).1
  · rw [AttrTable.modifyAttr_attrs, List.getElem?_modify_eq, isAttr]
    rfl

/-! ### Termination -/

/-- All histories of an attribute have a positive interval. -/
def Attr.PositiveIntervals (a : Attr) : Prop :=
  ∀ definition ∈ a.aHistoryList.map History.hDefinition, 0 < definition.hdInterval

/-- A new attribute only has histories of the configured definitions. -/
theorem attrNew_positiveIntervals (cfg : Config) {historyDefs : List HistoryDef} (t : AttrTable)
    (definition : AttrDef) (positive : ∀ definition ∈ historyDefs, 0 < definition.hdInterval) :
    (attrNew cfg historyDefs t definition).PositiveIntervals := by
  intro attached member
  unfold attrNew attrStartCollectingHistory at member
  split_ifs at member
  · exact absurd member List.not_mem_nil
  · simp only [historyAttach, attrAlloc, List.nil_append, List.map_map, List.mem_map] at member
    obtain ⟨source, configured, rfl⟩ := member
    exact positive source configured
  · exact absurd member List.not_mem_nil

theorem attrFeed_mono {cfg : Config} {attrDefs : List AttrDef} {historyDefs : List HistoryDef}
    {fuel more : Nat} (enough : fuel ≤ more) {t t' : AttrTable} {id : Nat} {rx tx : UInt64}
    {flags : UpdateFlags} {now ts : Timestamp}
    (fed : attrFeed cfg attrDefs historyDefs fuel t id rx tx flags now ts = some t') :
    attrFeed cfg attrDefs historyDefs more t id rx tx flags now ts = some t' := by
  unfold attrFeed at fed ⊢
  cases found : attrLookup (attrUpdate cfg attrDefs historyDefs t id rx tx flags now) id with
  | none => simpa only [found] using fed
  | some p =>
    simp only [found] at fed ⊢
    obtain ⟨a', notified, rfl⟩ := Option.map_eq_some_iff.mp fed
    obtain ⟨a, isAttr, notified⟩ := Option.bind_eq_some_iff.mp notified
    rw [isAttr, Option.bind_some, attrNotifyUpdate_mono enough notified, Option.map_some]

/-- With positive intervals one read returns, and leaves an attribute with such intervals. -/
theorem attrFeed_returns {cfg : Config} {attrDefs : List AttrDef}
    {historyDefs : List HistoryDef} {t : AttrTable} {id : Nat} {a : Attr}
    (storesIn : StoresIn cfg attrDefs historyDefs t id a) (positive : a.PositiveIntervals)
    (rx tx : UInt64) (flags : UpdateFlags) (now ts : Timestamp) :
    ∃ fuel t' a', attrFeed cfg attrDefs historyDefs fuel t id rx tx flags now ts = some t' ∧
      StoresIn cfg attrDefs historyDefs t' id a' ∧ a'.PositiveIntervals := by
  obtain ⟨p, found, isAttr⟩ := attrUpdate_lookup storesIn rx tx flags now
  have stored : (attrStore a rx tx flags now).PositiveIntervals := by
    unfold Attr.PositiveIntervals
    rw [attrStore_aHistoryList]
    exact positive
  obtain ⟨fuel, a', stepped⟩ := attrStep_returns cfg _ stored (.notify ts)
  have notified : attrNotifyUpdate cfg fuel (attrStore a rx tx flags now) ts = some a' := stepped
  have fed : attrFeed cfg attrDefs historyDefs fuel t id rx tx flags now ts =
      some ((attrUpdate cfg attrDefs historyDefs t id rx tx flags now).modifyAttr p
        fun _ => a') := by
    simp only [attrFeed, found, isAttr, Option.bind_some, notified, Option.map_some]
  obtain ⟨q, b, notified', found', isAttr'⟩ := attrFeed_lookup storesIn fed
  obtain rfl : a' = b := Option.some.inj (notified.symm.trans notified')
  refine ⟨fuel, _, a', fed, Or.inl ⟨q, found', isAttr'⟩, ?_⟩
  unfold Attr.PositiveIntervals
  rw [attrStep_definitions stepped]
  exact stored

end Bmon
