/-
This file holds what the operations of a table do to the record of one attribute.

Where a table is filled as `attr_update` fills it, an id names one record, and the records of the
others are out of reach: an update stores in the record of its id alone, and a pass over the hash
table notifies every record once, each as if there were no other.
-/

import Bmon.AttrIndex

namespace Bmon

/-- The record of an attribute. -/
def AttrTable.record (t : AttrTable) (id : Nat) : Option Attr :=
  (attrLookup t id).bind fun p => t.attrs[p]?

/-- The record of an attribute that is tracked is the one `attr_lookup` finds. -/
theorem record_of_lookup {t : AttrTable} {id : Nat} {p : AttrPtr} {a : Attr}
    (tracked : attrLookup t id = some p) (isAttr : t.attrs[p]? = some a) :
    t.record id = some a := by
  rw [AttrTable.record, tracked, Option.bind_some, isAttr]

/-- An attribute that is not tracked has no record. -/
theorem record_of_untracked {t : AttrTable} {id : Nat} (untracked : attrLookup t id = none) :
    t.record id = none := by
  rw [AttrTable.record, untracked, Option.bind_none]

/-- Where a record is changed and keeps its definition, the ids stay. -/
theorem ids_modifyAttr_of_mem (t : AttrTable) (p : AttrPtr) {change : Attr → Attr}
    (keeps : ∀ a ∈ t.attrs[p]?, (change a).aDef = a.aDef) :
    (t.modifyAttr p change).ids = t.ids := by
  refine List.ext_getElem? fun q => ?_
  unfold AttrTable.ids
  rw [List.getElem?_map, List.getElem?_map, AttrTable.modifyAttr_attrs]
  by_cases same : p = q
  · subst same
    rw [List.getElem?_modify_eq]
    cases found : t.attrs[p]? with
    | none => rfl
    | some a => exact congrArg (fun definition => some definition.adId) (keeps a found)
  · rw [List.getElem?_modify_ne _ _ same]

namespace AttrTable.Filled

variable {t : AttrTable} (filled : t.Filled)

include filled

/-- An id names the one record whose definition has it. -/
theorem record_eq_some_iff {id : Nat} {a : Attr} :
    t.record id = some a ↔ ∃ p : AttrPtr, t.attrs[p]? = some a ∧ a.aDef.adId = id := by
  constructor
  · intro found
    obtain ⟨p, tracked, isAttr⟩ := Option.bind_eq_some_iff.mp found
    obtain ⟨a', isAttr', named⟩ := attrLookup_adId tracked
    obtain rfl := Option.some.inj (isAttr.symm.trans isAttr')
    exact ⟨p, isAttr, named⟩
  · rintro ⟨p, isAttr, named⟩
    have isId : t.ids[p]? = some id := by
      rw [AttrTable.ids, List.getElem?_map, isAttr, Option.map_some, named]
    obtain ⟨q, tracked⟩ := Option.isSome_iff_exists.mp
      ((filled.lookup_isSome id).mpr (List.mem_of_getElem? isId))
    have alsoId := filled.indexed.found id q tracked
    obtain ⟨bound, -⟩ := List.getElem?_eq_some_iff.mp alsoId
    obtain rfl := (List.getElem?_inj bound filled.nodup).mp (alsoId.trans isId.symm)
    exact record_of_lookup tracked isAttr

/-- A change of one record changes the record of its id alone. -/
theorem record_modifyAttr {p : AttrPtr} {a : Attr} (isAttr : t.attrs[p]? = some a)
    {change : Attr → Attr} (keeps : (change a).aDef = a.aDef) :
    (t.modifyAttr p change).Filled ∧ ∀ id, (t.modifyAttr p change).record id =
      if a.aDef.adId = id then some (change a) else t.record id := by
  have keepsAll : ∀ a' ∈ t.attrs[p]?, (change a').aDef = a'.aDef := fun a' isAttr' => by
    obtain rfl := Option.some.inj (isAttr.symm.trans isAttr')
    exact keeps
  refine ⟨filled.congr (ids_modifyAttr_of_mem t p keepsAll) rfl rfl rfl, fun id => ?_⟩
  rw [AttrTable.record, attrLookup_modifyAttr t p keepsAll, AttrTable.modifyAttr_attrs]
  split_ifs with named
  · obtain ⟨q, tracked, isAttr'⟩ := Option.bind_eq_some_iff.mp
      (filled.record_eq_some_iff.mpr ⟨p, isAttr, named⟩)
    obtain ⟨bound, -⟩ := List.getElem?_eq_some_iff.mp (filled.indexed.found id q tracked)
    have sameId : t.ids[q]? = t.ids[p]? := by
      rw [filled.indexed.found id q tracked, AttrTable.ids, List.getElem?_map, isAttr,
        Option.map_some, named]
    obtain rfl := (List.getElem?_inj bound filled.nodup).mp sameId
    rw [tracked, Option.bind_some, List.getElem?_modify_eq, isAttr]
    rfl
  · rw [AttrTable.record]
    refine Option.bind_congr fun q tracked => ?_
    refine List.getElem?_modify_ne _ _ fun same => named ?_
    subst same
    obtain ⟨a', isAttr', isNamed⟩ := attrLookup_adId tracked
    obtain rfl := Option.some.inj (isAttr.symm.trans isAttr')
    exact isNamed

/-- A new attribute gets a record under its id; the others keep theirs. -/
theorem record_attrTrack (cfg : Config) (historyDefs : List HistoryDef) {definition : AttrDef}
    (untracked : attrLookup t definition.adId = none) {id : Nat} (other : definition.adId ≠ id) :
    (Bmon.attrTrack cfg historyDefs t definition).record id = t.record id := by
  have after := filled.attrTrack cfg historyDefs untracked
  refine Option.ext fun a => ?_
  rw [after.record_eq_some_iff, filled.record_eq_some_iff]
  refine exists_congr fun p => and_congr_left fun named => ?_
  rw [attrTrack_attrs, List.getElem?_append]
  split_ifs with older
  · rfl
  · refine iff_of_false (fun isNew => other ?_) fun isOld =>
      older (List.getElem?_eq_some_iff.mp isOld).1
    obtain rfl := List.mem_singleton.mp (List.mem_of_getElem? isNew)
    rw [(attrNew_fields cfg historyDefs t definition).2.1] at named
    exact named

/-- `attr_update` leaves the records of the other attributes. -/
theorem record_attrUpdate (cfg : Config) (attrDefs : List AttrDef)
    (historyDefs : List HistoryDef) (rx tx : UInt64) (flags : UpdateFlags) (now : Timestamp)
    {id other : Nat} (apart : id ≠ other) :
    (Bmon.attrUpdate cfg attrDefs historyDefs t id rx tx flags now).record other =
      t.record other := by
  have keeps (a : Attr) : (attrStore a rx tx flags now).aDef = a.aDef :=
    attrStore_aDef a rx tx flags now
  cases tracked : attrLookup t id with
  | some p =>
    obtain ⟨a, isAttr, named⟩ := attrLookup_adId tracked
    rw [attrUpdate_tracked_eq cfg historyDefs rx tx flags now attrDefs tracked,
      (filled.record_modifyAttr isAttr (keeps a)).2 other, if_neg (named ▸ apart)]
  | none =>
    cases known : attrDefLookupId attrDefs id with
    | none =>
      unfold Bmon.attrUpdate
      rw [tracked, known]
    | some definition =>
      obtain rfl := attrDefLookupId_adId known
      have isNew : (Bmon.attrTrack cfg historyDefs t definition).attrs[t.attrs.length]? =
          some (attrNew cfg historyDefs t definition) := by
        rw [attrTrack_attrs, List.getElem?_concat_length]
      rw [attrUpdate_untracked_eq cfg historyDefs rx tx flags now tracked known,
        ((filled.attrTrack cfg historyDefs tracked).record_modifyAttr isNew (keeps _)).2 other,
        (attrNew_fields cfg historyDefs t definition).2.1, if_neg apart,
        filled.record_attrTrack cfg historyDefs tracked apart]

end AttrTable.Filled

/-- `attr_update` stores its readings in the record of its id, or in a new one. -/
theorem record_attrUpdate_self (cfg : Config) {attrDefs : List AttrDef}
    (historyDefs : List HistoryDef) (t : AttrTable) (rx tx : UInt64) (flags : UpdateFlags)
    (now : Timestamp) {id : Nat} {definition : AttrDef}
    (known : attrDefLookupId attrDefs id = some definition) :
    (attrUpdate cfg attrDefs historyDefs t id rx tx flags now).record id =
      some (attrStore ((t.record id).getD (attrNew cfg historyDefs t definition)) rx tx flags
        now) := by
  have storesIn : StoresIn cfg attrDefs historyDefs t id
      ((t.record id).getD (attrNew cfg historyDefs t definition)) := by
    cases tracked : attrLookup t id with
    | some p =>
      obtain ⟨a, isAttr, -⟩ := attrLookup_adId tracked
      rw [record_of_lookup tracked isAttr]
      exact Or.inl ⟨p, tracked, isAttr⟩
    | none =>
      rw [record_of_untracked tracked]
      exact Or.inr ⟨definition, tracked, known, rfl⟩
  obtain ⟨p, tracked, isAttr⟩ := attrUpdate_lookup storesIn rx tx flags now
  exact record_of_lookup tracked isAttr

/-- A pass of `element_notify_update` over some records notifies each of them once, and leaves
the others. -/
theorem record_notifyAttrs {cfg : Config} {fuel : Nat} {ts : Timestamp} {order : List AttrPtr}
    {t t' : AttrTable} (filled : t.Filled) (once : order.Nodup)
    (notified : notifyAttrs cfg fuel ts order t = some t') :
    t'.Filled ∧ t'.eKeyAttr = t.eKeyAttr ∧ ∀ p : AttrPtr, ∀ a, t.attrs[p]? = some a →
      if p ∈ order then (attrNotifyUpdate cfg fuel a ts).isSome ∧
        t'.record a.aDef.adId = attrNotifyUpdate cfg fuel a ts
      else t'.record a.aDef.adId = some a := by
  induction order generalizing t with
  | nil =>
    obtain rfl := Option.some.inj notified
    refine ⟨filled, rfl, fun p a isAttr => ?_⟩
    rw [if_neg List.not_mem_nil]
    exact filled.record_eq_some_iff.mpr ⟨p, isAttr, rfl⟩
  | cons first rest inductionHypothesis =>
    obtain ⟨fresh, onceRest⟩ := List.nodup_cons.mp once
    rw [notifyAttrs] at notified
    cases found : t.attrs[first]? with
    | none =>
      rw [found] at notified
      obtain ⟨filled', keys, records⟩ := inductionHypothesis filled onceRest notified
      refine ⟨filled', keys, fun p a isAttr => ?_⟩
      have others : p ≠ first := fun same => by
        rw [same, found] at isAttr
        cases isAttr
      simpa only [List.mem_cons, others, false_or] using records p a isAttr
    | some b =>
      rw [found] at notified
      obtain ⟨b', updated, notifiedRest⟩ := Option.bind_eq_some_iff.mp notified
      have keeps : b'.aDef = b.aDef := (attrNotifyUpdate_fields updated).1
      have filledNext : (t.modifyAttr first fun _ => b').Filled :=
        (filled.record_modifyAttr found keeps).1
      obtain ⟨filled', keys, records⟩ := inductionHypothesis filledNext onceRest notifiedRest
      refine ⟨filled', keys, fun p a isAttr => ?_⟩
      by_cases same : p = first
      · subst same
        obtain rfl := Option.some.inj (found.symm.trans isAttr)
        have later := records p b' (by
          rw [AttrTable.modifyAttr_attrs, List.getElem?_modify_eq, found]
          rfl)
        rw [if_neg fresh, keeps] at later
        rw [if_pos List.mem_cons_self, updated]
        exact ⟨rfl, later⟩
      · have later := records p a (by
          rw [AttrTable.modifyAttr_attrs, List.getElem?_modify_ne _ _ (Ne.symm same), isAttr])
        simpa only [List.mem_cons, same, false_or] using later

/-- `element_notify_update` notifies the attribute under an id. -/
theorem record_notifyAll {cfg : Config} {fuel : Nat} {ts : Timestamp} {t t' : AttrTable}
    (filled : t.Filled) (notified : notifyAttrs cfg fuel ts t.hashed t = some t') :
    t'.Filled ∧ t'.eKeyAttr = t.eKeyAttr ∧ ∀ id a, t.record id = some a →
      ∃ a', attrNotifyUpdate cfg fuel a ts = some a' ∧ t'.record id = some a' := by
  have once : t.hashed.Nodup := filled.hashed_perm.nodup_iff.mpr List.nodup_range
  obtain ⟨filled', keys, records⟩ := record_notifyAttrs filled once notified
  refine ⟨filled', keys, fun id a found => ?_⟩
  obtain ⟨p, isAttr, rfl⟩ := filled.record_eq_some_iff.mp found
  have passed := records p a isAttr
  have isHashed : p ∈ t.hashed := by
    rw [filled.hashed_perm.mem_iff, List.mem_range, AttrTable.ids, List.length_map]
    exact (List.getElem?_eq_some_iff.mp isAttr).1
  rw [if_pos isHashed] at passed
  obtain ⟨a', updated⟩ := Option.isSome_iff_exists.mp passed.1
  exact ⟨a', updated, passed.2.trans updated⟩

end Bmon
