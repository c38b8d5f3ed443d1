/-
This file asks what a slot shows that the discard loop has moved the index over.

The loop marks every slot it passes as unknown. But a store that has no array yet drops the
mark, and when the first sample allocates the array, all its slots are zero, also those the
index has passed before. So a discarded slot that nothing has been written to since is read as
unknown exactly if the array existed when the loop passed over it.
-/

import Bmon.HistoryEncoding
import Bmon.HistoryVisits

namespace Bmon

/-! ### The last entry of a slot -/

/-- The entry a visit writes to the store of a direction. -/
def HistoryVisit.entry (visit : HistoryVisit) (direction : Direction) : Option UInt64 :=
  (historyStoreData visit.before (visit.before.store direction) (visit.totals direction)
    visit.diff).2

/-- The entry written last to a slot of the store of a direction. -/
def lastEntry (visits : List HistoryVisit) (direction : Direction) (slot : Nat) :
    Option UInt64 :=
  visits.reverse.findSome? fun visit =>
    if visit.slot = slot then visit.entry direction else none

theorem lastEntry_concat (visits : List HistoryVisit) (visit : HistoryVisit)
    (direction : Direction) (slot : Nat) :
    lastEntry (visits ++ [visit]) direction slot =
      (if visit.slot = slot then visit.entry direction else none).or
        (lastEntry visits direction slot) := by
  unfold lastEntry
  rw [List.reverse_append, List.reverse_singleton, List.singleton_append, List.findSome?_cons]
  cases if visit.slot = slot then visit.entry direction else none <;> rfl

/-- Visits that write nothing to a slot leave its last entry as it was. -/
theorem lastEntry_append_of_none {earlier later : List HistoryVisit} {direction : Direction}
    {slot : Nat} (untouched : ∀ visit ∈ later, visit.slot = slot → visit.entry direction = none) :
    lastEntry (earlier ++ later) direction slot = lastEntry earlier direction slot := by
  induction later using List.reverseRecOn with
  | nil => rw [List.append_nil]
  | append_singleton later visit inductionHypothesis =>
    have skipped : (if visit.slot = slot then visit.entry direction else none) = none := by
      split
      · rename_i here
        exact untouched visit (by simp) here
      · rfl
    rw [← List.append_assoc, lastEntry_concat, skipped, Option.none_or]
    exact inductionHypothesis fun other member =>
      untouched other (List.mem_append_left _ member)

/-- A slot nothing was written to has no last entry. -/
theorem lastEntry_of_none {visits : List HistoryVisit} {direction : Direction} {slot : Nat}
    (untouched : ∀ visit ∈ visits, visit.entry direction = none) :
    lastEntry visits direction slot = none := by
  have same : lastEntry ([] ++ visits) direction slot = lastEntry [] direction slot :=
    lastEntry_append_of_none fun visit member _ => untouched visit member
  rwa [List.nil_append] at same

/-! ### What the arrays hold -/

/-- The store of a direction keeps the entries of the visits: without an array no visit has
written any, and in an array every slot holds its last entry, or the zero it was allocated
with. A visit that writes nothing comes before all that write. -/
structure StoreKeeps (h : History) (visits : List HistoryVisit) (direction : Direction) :
    Prop where
  unallocated : (h.store direction).hsData = none →
    ∀ visit ∈ visits, visit.entry direction = none
  full : ∀ data, (h.store direction).hsData = some data →
    data.length = h.hDefinition.hdSize
  slots : ∀ data, (h.store direction).hsData = some data → ∀ slot < h.hDefinition.hdSize,
    data[slot]? = some (h.hDefinition.hdType.cast ((lastEntry visits direction slot).getD 0))
  skippedFirst : visits.Pairwise fun earlier later =>
    later.entry direction = none → earlier.entry direction = none

theorem storeKeeps_alloc (cfg : Config) (definition : HistoryDef) (direction : Direction) :
    StoreKeeps (historyAlloc cfg definition) [] direction := by
  have fresh : ((historyAlloc cfg definition).store direction).hsData = none := by
    cases direction <;> rfl
  refine ⟨fun _ visit member => absurd member List.not_mem_nil, fun data stored => ?_,
    fun data stored => ?_, List.Pairwise.nil⟩
  all_goals
    rw [fresh] at stored
    cases stored

/-- Only a store without an array drops an entry, and it stays without one. -/
theorem entry_eq_none {visit : HistoryVisit} {direction : Direction}
    (dropped : visit.entry direction = none) :
    (visit.before.store direction).hsData = none ∧
      (visit.after.store direction).hsData = none := by
  unfold HistoryVisit.entry at dropped
  unfold HistoryVisit.after
  rw [historyStep_store]
  unfold historyStoreData at dropped ⊢
  split at dropped
  · rename_i skipped
    rw [if_pos skipped]
    exact ⟨skipped.1, skipped.1⟩
  · cases dropped

theorem after_hsData {visit : HistoryVisit} {direction : Direction} {delta : UInt64}
    (written : visit.entry direction = some delta) :
    (visit.after.store direction).hsData =
      some (((visit.before.store direction).hsData.getD
        (historyAllocData visit.before.hDefinition)).set visit.slot
          (visit.before.hDefinition.hdType.cast delta)) := by
  unfold HistoryVisit.after
  rw [historyStep_store]
  exact historyStoreData_hsData written

/-- The array that the next entry goes into, whether it is there or is new, keeps the last
entries. -/
theorem StoreKeeps.array {h : History} {visits : List HistoryVisit} {direction : Direction}
    (keeps : StoreKeeps h visits direction) :
    ((h.store direction).hsData.getD (historyAllocData h.hDefinition)).length =
        h.hDefinition.hdSize ∧
      ∀ slot < h.hDefinition.hdSize,
        ((h.store direction).hsData.getD (historyAllocData h.hDefinition))[slot]? =
          some (h.hDefinition.hdType.cast ((lastEntry visits direction slot).getD 0)) := by
  cases array : (h.store direction).hsData with
  | some data => exact ⟨keeps.full data array, keeps.slots data array⟩
  | none =>
    refine ⟨List.length_replicate, fun slot inside => ?_⟩
    rw [lastEntry_of_none (keeps.unallocated array), Option.getD_none, Option.getD_none,
      historyAllocData, List.getElem?_replicate, if_pos inside]
    cases h.hDefinition.hdType <;> rfl

/-- One more visit keeps the entries. -/
theorem StoreKeeps.visit {visit : HistoryVisit} {visits : List HistoryVisit}
    {direction : Direction} (keeps : StoreKeeps visit.before visits direction) :
    StoreKeeps visit.after (visits ++ [visit]) direction := by
  have same : visit.after.hDefinition = visit.before.hDefinition := rfl
  cases written : visit.entry direction with
  | none =>
    obtain ⟨before, after⟩ := entry_eq_none written
    have all := keeps.unallocated before
    refine ⟨fun _ other member => ?_, fun data stored => ?_, fun data stored => ?_, ?_⟩
    · rcases List.mem_append.mp member with earlier | last
      · exact all other earlier
      · rwa [List.mem_singleton.mp last]
    · rw [after] at stored
      cases stored
    · rw [after] at stored
      cases stored
    · refine List.pairwise_append.mpr ⟨keeps.skippedFirst, List.pairwise_singleton _ _, ?_⟩
      exact fun earlier member later _ _ => all earlier member
  | some delta =>
    have stored := after_hsData written
    have base := keeps.array
    refine ⟨fun none => ?_, fun data isData => ?_, fun data isData slot inside => ?_, ?_⟩
    · rw [stored] at none
      cases none
    · rw [stored] at isData
      rw [← Option.some.inj isData, List.length_set, base.1, same]
    · rw [stored] at isData
      rw [same] at inside ⊢
      rw [← Option.some.inj isData, lastEntry_concat, List.getElem?_set]
      by_cases here : visit.slot = slot
      · rw [if_pos here, if_pos (by rwa [base.1, here]), if_pos here, written, Option.some_or,
          Option.getD_some]
      · rw [if_neg here, if_neg here, Option.none_or]
        exact base.2 slot inside
    · refine List.pairwise_append.mpr ⟨keeps.skippedFirst, List.pairwise_singleton _ _, ?_⟩
      intro earlier _ later last dropped
      rw [List.mem_singleton.mp last, written] at dropped
      cases dropped

/-- The keeping of entries is an invariant of the visits of a run. -/
theorem storeKeeps_invariant (direction : Direction) :
    VisitInvariant fun h visits => StoreKeeps h visits direction where
  visit _ _ keeps := keeps.visit
  updatePrevTotal h a visits keeps := by
    constructor
    · simpa using keeps.unallocated
    · simpa using keeps.full
    · simpa using keeps.slots
    · exact keeps.skippedFirst
  updateTs h ts visits keeps := by
    constructor
    · simpa using keeps.unallocated
    · simpa using keeps.full
    · simpa using keeps.slots
    · exact keeps.skippedFirst

/-! ### Discarded slots -/

/-- What a visit of the discard loop writes: the mark, if there is an array. -/
theorem discardVisit_entry (h : History) (direction : Direction) :
    (discardVisit h).entry direction =
      (h.store direction).hsData.map fun _ => historyUnknown :=
  historyStoreData_unknown_entry h (h.store direction) 0

/-- A slot keeps the entry of the last visit that wrote to it. -/
theorem lastEntry_of_untouched {earlier later : List HistoryVisit} {visit : HistoryVisit}
    {direction : Direction}
    (untouched : ∀ other ∈ later, other.slot = visit.slot → other.entry direction = none) :
    lastEntry (earlier ++ visit :: later) direction visit.slot =
      (visit.entry direction).or (lastEntry earlier direction visit.slot) := by
  rw [List.append_cons, lastEntry_append_of_none untouched, lastEntry_concat, if_pos rfl]

/-- A slot the discard loop has moved the index over, and that has not been written to since,
is read as unknown exactly if the store had its array when the loop passed over the slot. This
holds after every run of `history_update` on a new history, for each direction, and the
visits it speaks of write the entries of the run. -/
theorem discarded_slot_unknown_iff {cfg : Config} {definition : HistoryDef} {fuel : Nat}
    {calls : List (Attr × Timestamp)} {h : History} {steps : List HistoryStep}
    (returned : historyRun cfg fuel (historyAlloc cfg definition) calls = some (h, steps)) :
    steps = (runVisits cfg fuel (historyAlloc cfg definition) calls).map HistoryVisit.step ∧
    ∀ direction data, (h.store direction).hsData = some data →
      ∀ earlier visit later,
        runVisits cfg fuel (historyAlloc cfg definition) calls = earlier ++ visit :: later →
        visit.discarded = true → visit.slot < definition.hdSize →
        (∀ other ∈ later, other.slot = visit.slot → other.entry direction = none) →
          (historyData h data visit.slot = some historyUnknown ↔
            (visit.before.store direction).hsData ≠ none) := by
  refine ⟨(runVisits_step returned).symm, ?_⟩
  intro direction data stored earlier visit later visits discarded inside untouched
  have keeps := (storeKeeps_invariant direction).run
    (storeKeeps_alloc cfg definition direction) returned
  rw [List.nil_append, visits] at keeps
  have same : h.hDefinition = definition := historyRun_hDefinition returned
  have member : visit ∈ runVisits cfg fuel (historyAlloc cfg definition) calls := by
    rw [visits]
    exact List.mem_append_right _ List.mem_cons_self
  have entry : visit.entry direction =
      (visit.before.store direction).hsData.map fun _ => historyUnknown := by
    rw [eq_of_discarded member discarded]
    exact discardVisit_entry visit.before direction
  have slot := keeps.slots data stored visit.slot (by rwa [same])
  rw [lastEntry_of_untouched untouched, entry] at slot
  unfold historyData
  cases array : (visit.before.store direction).hsData with
  | some old =>
    rw [array, Option.map_some, Option.some_or, Option.getD_some] at slot
    rw [slot, Option.map_some,
      show h.hDefinition.hdType.cast historyUnknown = h.hDefinition.hdType.unknown from rfl,
      if_pos rfl]
    exact iff_of_true rfl (Option.some_ne_none old)
  | none =>
    -- nothing was written before the array came, so the slot still holds its first zero
    have nothing : lastEntry earlier direction visit.slot = none := by
      refine lastEntry_of_none fun other before => ?_
      have skipped := (List.pairwise_append.mp keeps.skippedFirst).2.2 other before visit
        List.mem_cons_self
      exact skipped (by rw [entry, array, Option.map_none])
    rw [array, Option.map_none, Option.none_or, nothing, Option.getD_none] at slot
    rw [slot, Option.map_some]
    refine iff_of_false ?_ (fun allocated => allocated rfl)
    cases h.hDefinition.hdType <;> decide

/-- The history `minute` of the default configuration. -/
def minuteDef : HistoryDef := ⟨"minute", 60, .type64, 60⟩

/-- Three calls on a counter, with a gap of 1000 seconds between the last two. -/
def gapBehind : List (Attr × Timestamp) :=
  [(bytesAt 0, ⟨1, 0⟩), (bytesAt 60, ⟨61, 0⟩), (bytesAt 160, ⟨1061, 0⟩)]

/-- The visits of a run of those calls: one sample and 17 discarded slots. -/
def visitsBehind : List HistoryVisit :=
  runVisits (confInitPost {}) 20 (historyAlloc (confInitPost {}) minuteDef) gapBehind

/-- The slots of a gap behind the first sample are read as unknown. -/
theorem discarded_slot_unknown_iff_behind :
    ((historyRun (confInitPost {}) 20 (historyAlloc (confInitPost {}) minuteDef)
      gapBehind).bind fun result => result.1.hRx.hsData.bind fun data =>
        historyData result.1 data 3) = some historyUnknown := by
  have run : ((historyRun (confInitPost {}) 20 (historyAlloc (confInitPost {}) minuteDef)
      gapBehind).map fun result => result.1.hRx.hsData.isSome) = some true := by
    decide +kernel
  obtain ⟨⟨h, steps⟩, returned, allocated⟩ := Option.map_eq_some_iff.mp run
  obtain ⟨data, array⟩ := Option.isSome_iff_exists.mp allocated
  have third : visitsBehind[3]?.map (fun visit =>
      (visit.slot, visit.discarded, (visit.before.store .rx).hsData.isSome)) =
      some (3, true, true) := by
    decide +kernel
  have untouched : ∀ other ∈ visitsBehind.drop 4, other.slot = 3 →
      other.entry .rx = none := by
    decide +kernel
  obtain ⟨visit, here, facts⟩ := Option.map_eq_some_iff.mp third
  obtain ⟨slot, rest⟩ := Prod.mk.inj facts
  obtain ⟨discarded, existed⟩ := Prod.mk.inj rest
  obtain ⟨long, rfl⟩ := List.getElem?_eq_some_iff.mp here
  have split : visitsBehind = visitsBehind.take 3 ++ visitsBehind[3] :: visitsBehind.drop 4 := by
    rw [List.getElem_cons_drop, List.take_append_drop]
  have unknown := ((discarded_slot_unknown_iff returned).2 .rx data array _ _ _ split discarded
    (by rw [slot]; decide) (by rwa [slot])).mpr (Option.isSome_iff_ne_none.mp existed)
  rw [slot] at unknown
  have stored : h.hRx.hsData = some data := array
  rw [returned, Option.bind_some, stored, Option.bind_some, unknown]

/-- Three calls on a counter, with a gap of 999 seconds between the first two. -/
def gapBefore : List (Attr × Timestamp) :=
  [(bytesAt 0, ⟨1, 0⟩), (bytesAt 100, ⟨1000, 0⟩), (bytesAt 160, ⟨1060, 0⟩)]

/-- The slots of a gap before the first sample are passed by the discard loop, but read as
zero. -/
theorem gap_before_first_sample :
    (runVisits (confInitPost {}) 20 (historyAlloc (confInitPost {}) minuteDef) gapBefore).map
        (fun visit => (visit.slot, visit.discarded)) =
      (List.range 17).map (fun slot => (slot, true)) ++ [(17, false)] ∧
    ((historyRun (confInitPost {}) 20 (historyAlloc (confInitPost {}) minuteDef)
      gapBefore).bind fun result => result.1.hRx.hsData.bind fun data =>
        historyData result.1 data 3) = some 0 := by
  decide +kernel

end Bmon
