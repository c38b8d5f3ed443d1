/-
This file models the attributes of an element: the table `attr_update` keeps, and what
`attr_notify_update` and `attr_reset_counter` do to one attribute.

The records of a table are kept in the order of their allocation, and the address of a record
is its position. They are only ever freed together, with their element.
-/

import Bmon.CString
import Bmon.History
import Bmon.Rate

namespace Bmon

/-! ### The table of an element -/

/-- The address of an attribute record. -/
abbrev AttrPtr := Nat

/-- `GT_MAJOR` and `GT_MINOR`. -/
inductive GroupColumn where
  | major
  | minor
  deriving DecidableEq, Repr

/-- A node of the sorted list of an element: the head `e_attr_sorted`, or the link `a_sort_list`
of an attribute. A pointer to an attribute is the container of such a node, also where the node
is the head and the pointer shows no attribute. -/
inductive SortNode where
  | head
  | attr (p : AttrPtr)
  deriving DecidableEq, Repr

/-- The fields of `struct element` that concern its attributes. -/
structure AttrTable where
  attrs : List Attr
  eNattrs : Nat
  eAttrhash : Nat → List AttrPtr
  eAttrSorted : List AttrPtr
  eKeyAttr : GroupColumn → Option AttrDef
  eUsageAttr : Option AttrDef
  eCurrentAttr : Option SortNode

/-- The table of a freshly allocated element. -/
def AttrTable.empty : AttrTable := ⟨[], 0, fun _ => [], [], fun _ => none, none, none⟩

/-- Change one record of a table. -/
def AttrTable.modifyAttr (t : AttrTable) (p : AttrPtr) (change : Attr → Attr) : AttrTable :=
  { t with attrs := t.attrs.modify p change }

/-- `ATTR_HASH_SIZE`. -/
def attrHashSize : Nat := 32

/-- `attr_hash`. Ids are handed out by `attr_id_gen`, which counts up from one. -/
def attrHash (id : Nat) : Nat := id % attrHashSize

/-- `attr_def_lookup_id`. -/
def attrDefLookupId (attrDefs : List AttrDef) (id : Nat) : Option AttrDef :=
  attrDefs.find? fun definition => definition.adId = id

/-- `attr_lookup`. -/
def attrLookup (t : AttrTable) (id : Nat) : Option AttrPtr :=
  (t.eAttrhash (attrHash id)).find? fun p =>
    t.attrs[p]?.any fun attr => attr.aDef.adId = id

/-- `collect_history`. -/
def collectHistory (t : AttrTable) (definition : AttrDef) : Bool :=
  definition.adFlags.forceHistory || t.eKeyAttr .major = some definition ||
    t.eKeyAttr .minor = some definition

/-- `attr_start_collecting_history`. -/
def attrStartCollectingHistory (cfg : Config) (historyDefs : List HistoryDef) (a : Attr) : Attr :=
  if a.aFlags.doingHistory then
    a
  else
    let attached := historyAttach cfg historyDefs a
    { attached with aFlags := { attached.aFlags with doingHistory := true } }

/-- `attrcmp`. -/
def attrcmp (t : AttrTable) (a b : Attr) : Int :=
  if t.eKeyAttr .major = some b.aDef then
    1
  else if t.eKeyAttr .minor = some b.aDef then
    if t.eKeyAttr .major = some a.aDef then -1 else 1
  else
    strcasecmp a.aDef.adDescription.toList b.aDef.adDescription.toList

/-- The loop of `attr_update` that links a new attribute into the sorted list: before the
first attribute it compares below, at the end if there is none. -/
def attrSortedInsert (t : AttrTable) (attr : Attr) (p : AttrPtr) : List AttrPtr → List AttrPtr
  | [] => [p]
  | n :: rest =>
    if t.attrs[n]?.any fun other => attrcmp t attr other < 0 then
      p :: n :: rest
    else
      n :: attrSortedInsert t attr p rest

/-- The record `attr_update` sets up for an attribute it sees for the first time. -/
def attrNew (cfg : Config) (historyDefs : List HistoryDef) (t : AttrTable)
    (definition : AttrDef) : Attr :=
  if collectHistory t definition then
    attrStartCollectingHistory cfg historyDefs (attrAlloc definition)
  else
    attrAlloc definition

/-- The part of `attr_update` that tracks a new attribute. -/
def attrTrack (cfg : Config) (historyDefs : List HistoryDef) (t : AttrTable)
    (definition : AttrDef) : AttrTable :=
  let attr := attrNew cfg historyDefs t definition
  let p := t.attrs.length
  { t with
    attrs := t.attrs ++ [attr]
    eAttrhash := fun bucket =>
      if bucket = attrHash definition.adId then t.eAttrhash bucket ++ [p] else t.eAttrhash bucket
    eNattrs := t.eNattrs + 1
    eAttrSorted := attrSortedInsert t attr p t.eAttrSorted }

/-- The part of `attr_update` behind the label `inserted`: store the readings. -/
def attrStore (a : Attr) (rx tx : UInt64) (flags : UpdateFlags) (now : Timestamp) : Attr :=
  let a := if flags.rx then
      { a with
        aRxRate := { a.aRxRate with rCurrent := rx }
        aFlags := { a.aFlags with rxEnabled := true } }
    else a
  let a := if flags.tx then
      { a with
        aTxRate := { a.aTxRate with rCurrent := tx }
        aFlags := { a.aFlags with txEnabled := true } }
    else a
  if flags.rx || flags.tx then { a with aLastUpdate := now } else a

/-- `attr_update`. -/
def attrUpdate (cfg : Config) (attrDefs : List AttrDef) (historyDefs : List HistoryDef)
    (t : AttrTable) (id : Nat) (rx tx : UInt64) (flags : UpdateFlags) (now : Timestamp) :
    AttrTable :=
  match attrLookup t id with
  | some p => t.modifyAttr p fun a => attrStore a rx tx flags now
  | none =>
    match attrDefLookupId attrDefs id with
    | none => t
    | some definition =>
      (attrTrack cfg historyDefs t definition).modifyAttr t.attrs.length fun a =>
        attrStore a rx tx flags now

/-! ### Notifying and resetting one attribute -/

/-- The `switch` of `attr_notify_update`. -/
def attrCalcRates (cfg : Config) (a : Attr) (ts : Timestamp) : Attr :=
  match a.aDef.adType with
  | .rate | .percent =>
    { a with aRxRate := calcRateTotal a.aRxRate ts, aTxRate := calcRateTotal a.aTxRate ts }
  | .counter =>
    { a with
      aRxRate := calcCounterRate cfg a.aFlags a.aRxRate ts
      aTxRate := calcCounterRate cfg a.aFlags a.aTxRate ts }
  | .unspec => a

/-- The loop of `attr_notify_update` over the histories. -/
def attrUpdateHistories (cfg : Config) (fuel : Nat) (a : Attr) (ts : Timestamp) :
    List History → Option (List History)
  | [] => some []
  | h :: rest =>
    (historyUpdate cfg fuel a h ts).bind fun updated =>
      (attrUpdateHistories cfg fuel a ts rest).map fun others => updated.1 :: others

/-- `attr_notify_update`. -/
def attrNotifyUpdate (cfg : Config) (fuel : Nat) (a : Attr) (ts : Timestamp) : Option Attr :=
  let a := attrCalcRates cfg a ts
  if a.aFlags.doingHistory then
    (attrUpdateHistories cfg fuel a ts a.aHistoryList).map fun histories =>
      { a with aHistoryList := histories }
  else
    some a

/-- `attr_reset_counter`. -/
def attrResetCounter (a : Attr) : Attr :=
  if a.aDef.adType = .counter then
    { a with
      aRxRate := { a.aRxRate with rReset := a.aRxRate.rTotal }
      aTxRate := { a.aTxRate with rReset := a.aTxRate.rTotal } }
  else
    a

/-! ### What the operations do to each field -/

/-- The reading an update carries for a direction. -/
def readingOf (rx tx : UInt64) : Direction → UInt64
  | .rx => rx
  | .tx => tx

section Fields

variable (cfg : Config) (a : Attr) (rx tx : UInt64) (flags : UpdateFlags) (now ts : Timestamp)

@[simp] theorem attrStore_rate (direction : Direction) :
    (attrStore a rx tx flags now).rate direction =
      if flags.touches direction then
        { a.rate direction with rCurrent := readingOf rx tx direction }
      else a.rate direction := by
  unfold attrStore
  cases direction <;> cases hrx : flags.rx <;> cases htx : flags.tx <;>
    simp [Attr.rate, UpdateFlags.touches, readingOf, hrx, htx]

@[simp] theorem attrStore_aDef : (attrStore a rx tx flags now).aDef = a.aDef := by
  unfold attrStore
  split_ifs <;> rfl

/-- Storing a reading never touches the bits that say how a counter overflows. In particular
the flag for 64-bit readings leaves no trace. -/
@[simp] theorem attrStore_overflowFlags :
    (attrStore a rx tx flags now).aFlags.ignoreOverflows = a.aFlags.ignoreOverflows ∧
      (attrStore a rx tx flags now).aFlags.true64bit = a.aFlags.true64bit := by
  unfold attrStore
  split_ifs <;> exact ⟨rfl, rfl⟩

@[simp] theorem attrStore_aHistoryList :
    (attrStore a rx tx flags now).aHistoryList = a.aHistoryList := by
  unfold attrStore
  split_ifs <;> rfl

@[simp] theorem attrResetCounter_aHistoryList :
    (attrResetCounter a).aHistoryList = a.aHistoryList := by
  unfold attrResetCounter
  split_ifs <;> rfl

@[simp] theorem attrResetCounter_aDef : (attrResetCounter a).aDef = a.aDef := by
  unfold attrResetCounter
  split_ifs <;> rfl

@[simp] theorem attrResetCounter_aFlags : (attrResetCounter a).aFlags = a.aFlags := by
  unfold attrResetCounter
  split_ifs <;> rfl

theorem attrResetCounter_rate (counter : a.aDef.adType = .counter) (direction : Direction) :
    (attrResetCounter a).rate direction =
      { a.rate direction with rReset := (a.rate direction).rTotal } := by
  unfold attrResetCounter
  rw [if_pos counter]
  cases direction <;> rfl

@[simp] theorem attrCalcRates_aDef : (attrCalcRates cfg a ts).aDef = a.aDef := by
  unfold attrCalcRates
  cases a.aDef.adType <;> rfl

@[simp] theorem attrCalcRates_aFlags : (attrCalcRates cfg a ts).aFlags = a.aFlags := by
  unfold attrCalcRates
  cases a.aDef.adType <;> rfl

@[simp] theorem attrCalcRates_aHistoryList :
    (attrCalcRates cfg a ts).aHistoryList = a.aHistoryList := by
  unfold attrCalcRates
  cases a.aDef.adType <;> rfl

theorem attrCalcRates_rate (counter : a.aDef.adType = .counter) (direction : Direction) :
    (attrCalcRates cfg a ts).rate direction =
      calcCounterRate cfg a.aFlags (a.rate direction) ts := by
  unfold attrCalcRates
  rw [counter]
  cases direction <;> rfl

end Fields

/-- Notifying an attribute first calculates the rates; the histories do not change them. -/
theorem attrNotifyUpdate_fields {cfg : Config} {fuel : Nat} {a a' : Attr} {ts : Timestamp}
    (returned : attrNotifyUpdate cfg fuel a ts = some a') :
    a'.aDef = a.aDef ∧ a'.aFlags = a.aFlags ∧
      ∀ direction, a'.rate direction = (attrCalcRates cfg a ts).rate direction := by
  simp only [attrNotifyUpdate] at returned
  split at returned
  · obtain ⟨histories, -, rfl⟩ := Option.map_eq_some_iff.mp returned
    exact ⟨attrCalcRates_aDef cfg a ts, attrCalcRates_aFlags cfg a ts,
      fun direction => by cases direction <;> rfl⟩
  · obtain rfl := Option.some.inj returned
    exact ⟨attrCalcRates_aDef cfg a ts, attrCalcRates_aFlags cfg a ts, fun _ => rfl⟩

/-! ### Termination -/

/-- With positive intervals all histories of an attribute are updated. -/
theorem attrUpdateHistories_returns (cfg : Config) (a : Attr) (ts : Timestamp)
    (histories : List History)
    (positive : ∀ h ∈ histories, 0 < h.hDefinition.hdInterval) :
    ∃ enough, ∀ fuel, enough ≤ fuel →
      ∃ result, attrUpdateHistories cfg fuel a ts histories = some result := by
  induction histories with
  | nil => exact ⟨0, fun _ _ => ⟨[], rfl⟩⟩
  | cons h rest inductionHypothesis =>
    obtain ⟨first, ⟨updated, steps⟩, head⟩ :=
      historyUpdate_returns cfg a h ts (positive h List.mem_cons_self)
    obtain ⟨others, tail⟩ :=
      inductionHypothesis fun h' member => positive h' (List.mem_cons_of_mem _ member)
    refine ⟨max first others, fun fuel enough => ?_⟩
    obtain ⟨result, run⟩ := tail fuel (le_trans (le_max_right _ _) enough)
    have updatedMore := historyUpdate_mono (le_trans (le_max_left _ _) enough) head
    exact ⟨updated :: result, by
      simp only [attrUpdateHistories, updatedMore, Option.bind_some, run, Option.map_some]⟩

theorem attrUpdateHistories_mono {cfg : Config} {fuel more : Nat} (enough : fuel ≤ more)
    {a : Attr} {ts : Timestamp} {histories result : List History}
    (returned : attrUpdateHistories cfg fuel a ts histories = some result) :
    attrUpdateHistories cfg more a ts histories = some result := by
  induction histories generalizing result with
  | nil => exact returned
  | cons h rest inductionHypothesis =>
    obtain ⟨updated, head, others⟩ := Option.bind_eq_some_iff.mp returned
    obtain ⟨tail, run, rfl⟩ := Option.map_eq_some_iff.mp others
    simp only [attrUpdateHistories, historyUpdate_mono enough head, Option.bind_some,
      inductionHypothesis run, Option.map_some]

theorem attrNotifyUpdate_mono {cfg : Config} {fuel more : Nat} (enough : fuel ≤ more)
    {a a' : Attr} {ts : Timestamp} (returned : attrNotifyUpdate cfg fuel a ts = some a') :
    attrNotifyUpdate cfg more a ts = some a' := by
  simp only [attrNotifyUpdate] at returned ⊢
  split
  · rename_i doing
    rw [if_pos doing] at returned
    obtain ⟨histories, run, same⟩ := Option.map_eq_some_iff.mp returned
    rw [attrUpdateHistories_mono enough run, Option.map_some, same]
  · rename_i idle
    rwa [if_neg idle] at returned

/-- Updating the histories keeps their definitions. -/
theorem attrUpdateHistories_definitions {cfg : Config} {fuel : Nat} {a : Attr} {ts : Timestamp}
    {histories result : List History}
    (returned : attrUpdateHistories cfg fuel a ts histories = some result) :
    result.map History.hDefinition = histories.map History.hDefinition := by
  induction histories generalizing result with
  | nil =>
    obtain rfl := Option.some.inj returned
    rfl
  | cons h rest inductionHypothesis =>
    obtain ⟨⟨updated, steps⟩, head, others⟩ := Option.bind_eq_some_iff.mp returned
    obtain ⟨tail, run, rfl⟩ := Option.map_eq_some_iff.mp others
    rw [List.map_cons, List.map_cons, inductionHypothesis run, historyUpdate_hDefinition head]

/-- With positive intervals `attr_notify_update` returns. -/
theorem attrNotifyUpdate_returns (cfg : Config) (a : Attr) (ts : Timestamp)
    (positive : ∀ h ∈ a.aHistoryList, 0 < h.hDefinition.hdInterval) :
    ∃ fuel a', attrNotifyUpdate cfg fuel a ts = some a' := by
  obtain ⟨fuel, run⟩ := attrUpdateHistories_returns cfg (attrCalcRates cfg a ts) ts
    (attrCalcRates cfg a ts).aHistoryList (by rwa [attrCalcRates_aHistoryList])
  obtain ⟨histories, updated⟩ := run fuel le_rfl
  refine ⟨fuel, ?_⟩
  simp only [attrNotifyUpdate]
  split
  · exact ⟨_, by rw [updated]; rfl⟩
  · exact ⟨_, rfl⟩

/-! ### Runs of one attribute -/

/-- What happens to one attribute while the program runs. -/
inductive AttrEvent where
  | update (rx tx : UInt64) (flags : UpdateFlags) (now : Timestamp)
  | notify (ts : Timestamp)
  | reset
  deriving DecidableEq, Repr

/-- One event of a run. -/
def attrStep (cfg : Config) (fuel : Nat) (a : Attr) : AttrEvent → Option Attr
  | .update rx tx flags now => some (attrStore a rx tx flags now)
  | .notify ts => attrNotifyUpdate cfg fuel a ts
  | .reset => some (attrResetCounter a)

/-- A run of events. -/
def attrRun (cfg : Config) (fuel : Nat) : Attr → List AttrEvent → Option Attr
  | a, [] => some a
  | a, event :: events =>
    (attrStep cfg fuel a event).bind fun next => attrRun cfg fuel next events

/-- No event changes the definition of an attribute or the way it overflows. -/
theorem attrStep_fields {cfg : Config} {fuel : Nat} {a a' : Attr} {event : AttrEvent}
    (returned : attrStep cfg fuel a event = some a') :
    a'.aDef = a.aDef ∧ a'.aFlags.ignoreOverflows = a.aFlags.ignoreOverflows ∧
      a'.aFlags.true64bit = a.aFlags.true64bit := by
  cases event with
  | update rx tx flags now =>
    obtain rfl := Option.some.inj returned
    exact ⟨attrStore_aDef a rx tx flags now, attrStore_overflowFlags a rx tx flags now⟩
  | notify ts =>
    obtain ⟨sameDef, sameFlags, -⟩ := attrNotifyUpdate_fields returned
    exact ⟨sameDef, by rw [sameFlags], by rw [sameFlags]⟩
  | reset =>
    obtain rfl := Option.some.inj returned
    exact ⟨attrResetCounter_aDef a, by rw [attrResetCounter_aFlags],
      by rw [attrResetCounter_aFlags]⟩

/-- No event changes the definitions of the histories. -/
theorem attrStep_definitions {cfg : Config} {fuel : Nat} {a a' : Attr} {event : AttrEvent}
    (returned : attrStep cfg fuel a event = some a') :
    a'.aHistoryList.map History.hDefinition = a.aHistoryList.map History.hDefinition := by
  cases event with
  | update rx tx flags now =>
    obtain rfl := Option.some.inj returned
    rw [attrStore_aHistoryList]
  | notify ts =>
    simp only [attrStep, attrNotifyUpdate] at returned
    split at returned
    · obtain ⟨histories, run, rfl⟩ := Option.map_eq_some_iff.mp returned
      rw [attrUpdateHistories_definitions run, attrCalcRates_aHistoryList]
    · obtain rfl := Option.some.inj returned
      rw [attrCalcRates_aHistoryList]
  | reset =>
    obtain rfl := Option.some.inj returned
    rw [attrResetCounter_aHistoryList]

theorem attrStep_mono {cfg : Config} {fuel more : Nat} (enough : fuel ≤ more) {a a' : Attr}
    {event : AttrEvent} (returned : attrStep cfg fuel a event = some a') :
    attrStep cfg more a event = some a' := by
  cases event with
  | update rx tx flags now => exact returned
  | notify ts => exact attrNotifyUpdate_mono enough returned
  | reset => exact returned

theorem attrRun_mono {cfg : Config} {fuel more : Nat} (enough : fuel ≤ more) {a a' : Attr}
    {events : List AttrEvent} (returned : attrRun cfg fuel a events = some a') :
    attrRun cfg more a events = some a' := by
  induction events generalizing a with
  | nil => exact returned
  | cons event events inductionHypothesis =>
    obtain ⟨next, stepped, rest⟩ := Option.bind_eq_some_iff.mp returned
    simp only [attrRun, attrStep_mono enough stepped, Option.bind_some, inductionHypothesis rest]

/-- With positive history intervals every event is processed to its end. -/
theorem attrStep_returns (cfg : Config) (a : Attr)
    (positive : ∀ definition ∈ a.aHistoryList.map History.hDefinition, 0 < definition.hdInterval)
    (event : AttrEvent) : ∃ fuel a', attrStep cfg fuel a event = some a' := by
  cases event with
  | update rx tx flags now => exact ⟨0, _, rfl⟩
  | notify ts =>
    exact attrNotifyUpdate_returns cfg a ts fun h member =>
      positive _ (List.mem_map_of_mem member)
  | reset => exact ⟨0, _, rfl⟩

/-- With positive history intervals every run of events returns. -/
theorem attrRun_returns (cfg : Config) (a : Attr)
    (positive : ∀ definition ∈ a.aHistoryList.map History.hDefinition, 0 < definition.hdInterval)
    (events : List AttrEvent) : ∃ fuel a', attrRun cfg fuel a events = some a' := by
  induction events generalizing a with
  | nil => exact ⟨0, a, rfl⟩
  | cons event events inductionHypothesis =>
    obtain ⟨first, next, stepped⟩ := attrStep_returns cfg a positive event
    obtain ⟨rest, last, run⟩ :=
      inductionHypothesis next (by rwa [attrStep_definitions stepped])
    refine ⟨max first rest, last, ?_⟩
    simp only [attrRun, attrStep_mono (le_max_left first rest) stepped, Option.bind_some,
      attrRun_mono (le_max_right first rest) run]

/-! ### The table and its records -/

/-- On a tracked attribute `attr_update` only stores the readings. -/
theorem attrUpdate_tracked (cfg : Config) (attrDefs : List AttrDef)
    (historyDefs : List HistoryDef) (t : AttrTable) (id : Nat) (rx tx : UInt64)
    (flags : UpdateFlags) (now : Timestamp) (p : AttrPtr) (tracked : attrLookup t id = some p) :
    (attrUpdate cfg attrDefs historyDefs t id rx tx flags now).attrs[p]? =
      t.attrs[p]?.map fun a => attrStore a rx tx flags now := by
  unfold attrUpdate
  rw [tracked]
  exact List.getElem?_modify_eq _ _ _

/-- An attribute seen for the first time gets a new record and the readings stored in it. -/
theorem attrUpdate_new (cfg : Config) (attrDefs : List AttrDef)
    (historyDefs : List HistoryDef) (t : AttrTable) (id : Nat) (rx tx : UInt64)
    (flags : UpdateFlags) (now : Timestamp) (definition : AttrDef)
    (untracked : attrLookup t id = none)
    (known : attrDefLookupId attrDefs id = some definition) :
    (attrUpdate cfg attrDefs historyDefs t id rx tx flags now).attrs[t.attrs.length]? =
      some (attrStore (attrNew cfg historyDefs t definition) rx tx flags now) := by
  unfold attrUpdate
  rw [untracked, known]
  simp only [AttrTable.modifyAttr, attrTrack]
  rw [List.getElem?_modify_eq, List.getElem?_concat_length]
  rfl

/-- A new record starts with both rates at zero, and with the overflow bits of its
definition. -/
theorem attrNew_fields (cfg : Config) (historyDefs : List HistoryDef) (t : AttrTable)
    (definition : AttrDef) :
    (∀ direction, (attrNew cfg historyDefs t definition).rate direction = Rate.zero) ∧
      (attrNew cfg historyDefs t definition).aDef = definition ∧
      (attrNew cfg historyDefs t definition).aFlags.ignoreOverflows =
        definition.adFlags.ignoreOverflows ∧
      (attrNew cfg historyDefs t definition).aFlags.true64bit =
        definition.adFlags.true64bit := by
  simp only [attrNew, attrStartCollectingHistory]
  split_ifs <;> refine ⟨fun direction => ?_, rfl, rfl, rfl⟩ <;> cases direction <;> rfl

end Bmon
