/-
This file shows what the arrays of a history hold after any run of `history_update`: the end
of the log of everything written to them.

The abstract side is the list of history steps a run made. A store that is allocated takes an
entry in every step, so its entries are the entries of the last steps, and the ring shows as
many of them as it has slots. The allocation of a store is the only place where the two
directions can differ: before it a store skips steps. `StoreMirrors` says this for one store,
and `Mirrors` for a whole history, whose two stores share the index.
-/

import Bmon.History

namespace Bmon

/-! ### One store -/

/-- The array of a store, read at the index of its history, mirrors the entries its history
steps had for it: nothing while there is no array, and the casts of the entries written since
the array was allocated, as far as they fit, once there is one. -/
def StoreMirrors (definition : HistoryDef) (index : Nat) (hsData : Option (List UInt64))
    (entries : List (Option UInt64)) : Prop :=
  match hsData with
  | none => ∃ skipped, entries = List.replicate skipped none
  | some data => data.length = definition.hdSize ∧ ∃ (skipped : Nat) (written : List UInt64),
      entries = List.replicate skipped none ++ written.map some ∧
        RingLog.Shows definition.hdSize data index (written.map definition.hdType.cast)

/-- Writing to the array mirrors one more entry. -/
theorem StoreMirrors.write {definition : HistoryDef} {index : Nat} {data : List UInt64}
    {entries : List (Option UInt64)} (mirrors : StoreMirrors definition index (some data) entries)
    (inside : index < definition.hdSize) (delta : UInt64) :
    StoreMirrors definition (RingLog.next definition.hdSize index)
      (some (data.set index (definition.hdType.cast delta))) (entries ++ [some delta]) := by
  obtain ⟨full, skipped, written, rfl, shown⟩ := mirrors
  refine ⟨by rw [List.length_set, full], skipped, written ++ [delta], ?_, ?_⟩
  · rw [List.map_append, List.map_singleton, List.append_assoc]
  · rw [List.map_append, List.map_singleton]
    exact shown.push inside full _

/-- A new array mirrors the steps skipped so far. -/
theorem storeMirrors_alloc {definition : HistoryDef} {index : Nat}
    {entries : List (Option UInt64)} (mirrors : StoreMirrors definition index none entries) :
    StoreMirrors definition index (some (historyAllocData definition)) entries := by
  obtain ⟨skipped, rfl⟩ := mirrors
  refine ⟨List.length_replicate, skipped, [], ?_, RingLog.shows_nil _ _ _⟩
  rw [List.map_nil, List.append_nil]

/-- One call of `history_store_data` mirrors the entry of the step, written or skipped. -/
theorem StoreMirrors.storeData {h : History} {hs : HistoryStore} {entries : List (Option UInt64)}
    (mirrors : StoreMirrors h.hDefinition h.hIndex hs.hsData entries)
    (inside : h.hIndex < h.hDefinition.hdSize) (total : UInt64) (diff : ℚ) :
    StoreMirrors h.hDefinition (RingLog.next h.hDefinition.hdSize h.hIndex)
      (historyStoreData h hs total diff).1.hsData
      (entries ++ [(historyStoreData h hs total diff).2]) := by
  unfold historyStoreData
  cases allocated : hs.hsData with
  | none =>
    rw [allocated] at mirrors
    by_cases known : total = historyUnknown
    · obtain ⟨skipped, rfl⟩ := mirrors
      simp only [known, and_self, if_true, allocated]
      exact ⟨skipped + 1, List.replicate_succ'.symm⟩
    · simp only [known, and_false, if_false, Option.getD_none]
      exact (storeMirrors_alloc mirrors).write inside _
  | some data =>
    rw [allocated] at mirrors
    simp only [reduceCtorEq, false_and, if_false, Option.getD_some]
    exact mirrors.write inside _

/-! ### Both stores of a history -/

/-- The index is in range and both stores mirror the steps made so far. -/
structure Mirrors (h : History) (steps : List HistoryStep) : Prop where
  inside : h.hIndex < h.hDefinition.hdSize
  store : ∀ direction, StoreMirrors h.hDefinition h.hIndex (h.store direction).hsData
    (steps.map fun step => step.entry direction)

theorem mirrors_alloc (cfg : Config) (definition : HistoryDef) (positive : 0 < definition.hdSize) :
    Mirrors (historyAlloc cfg definition) [] where
  inside := positive
  store direction := by cases direction <;> exact ⟨0, rfl⟩

/-- One history step is mirrored by both stores. -/
theorem Mirrors.step {h : History} {steps : List HistoryStep} (mirrors : Mirrors h steps)
    (totals : Direction → UInt64) (diff : ℚ) :
    Mirrors (historyStep h totals diff).1 (steps ++ [(historyStep h totals diff).2]) where
  inside := by
    rw [historyStep_hIndex, historyStep_hDefinition]
    exact RingLog.next_lt (Nat.zero_lt_of_lt mirrors.inside)
  store direction := by
    rw [historyStep_hIndex, historyStep_hDefinition, historyStep_store, List.map_append,
      List.map_singleton, historyStep_entry]
    exact (mirrors.store direction).storeData mirrors.inside _ _

theorem Mirrors.updatePrevTotal {h : History} {steps : List HistoryStep}
    (mirrors : Mirrors h steps) (a : Attr) : Mirrors (h.updatePrevTotal a) steps where
  inside := mirrors.inside
  store direction := by
    rw [updatePrevTotal_hsData]
    exact mirrors.store direction

theorem Mirrors.updateTs {h : History} {steps : List HistoryStep} (mirrors : Mirrors h steps)
    (ts : Timestamp) : Mirrors (h.updateTs ts) steps where
  inside := mirrors.inside
  store direction := by
    rw [updateTs_store]
    exact mirrors.store direction

/-- A call of `history_update` mirrors the steps it makes, whichever way it goes. -/
theorem Mirrors.update {cfg : Config} {fuel : Nat} {a : Attr} {h h' : History} {ts : Timestamp}
    {before steps : List HistoryStep} (mirrors : Mirrors h before)
    (returned : historyUpdate cfg fuel a h ts = some (h', steps)) :
    Mirrors h' (before ++ steps) := by
  rcases historyUpdate_cases returned with
    ⟨-, rfl, rfl⟩ | ⟨-, rfl, rfl⟩ | ⟨-, rfl, rfl⟩ | ⟨-, discarded, loop, rfl⟩
  · rwa [List.append_nil]
  · rw [List.append_nil]
    exact (mirrors.updatePrevTotal a).updateTs ts
  · exact (mirrors.step _ _).updateTs ts
  · have looped : Mirrors discarded (before ++ steps) :=
      discardLoop_invariant Mirrors (fun h steps mirrors => mirrors.step _ _) before mirrors loop
    exact (looped.updatePrevTotal a).updateTs ts

/-- A run mirrors all the steps it makes. -/
theorem Mirrors.run {cfg : Config} {fuel : Nat} {h h' : History}
    {calls : List (Attr × Timestamp)} {before steps : List HistoryStep}
    (mirrors : Mirrors h before) (returned : historyRun cfg fuel h calls = some (h', steps)) :
    Mirrors h' (before ++ steps) := by
  induction calls generalizing h before steps with
  | nil =>
    obtain ⟨rfl, rfl⟩ := Prod.mk.inj (Option.some.inj returned)
    rwa [List.append_nil]
  | cons call calls inductionHypothesis =>
    obtain ⟨⟨next, first⟩, updated, rest⟩ := Option.bind_eq_some_iff.mp returned
    obtain ⟨⟨final, others⟩, later, same⟩ := Option.map_eq_some_iff.mp rest
    obtain ⟨rfl, rfl⟩ := Prod.mk.inj same
    rw [← List.append_assoc]
    exact inductionHypothesis (mirrors.update updated) later

/-! ### Reading the arrays back -/

/-- The entries a list of steps wrote to the store of one direction. -/
def writtenEntries (steps : List HistoryStep) (direction : Direction) : List UInt64 :=
  steps.filterMap fun step => step.entry direction

theorem walkBack_eq (h : History) (steps : Nat) :
    h.walkBack steps = RingLog.back h.hDefinition.hdSize steps h.hIndex := rfl

/-- A store that mirrors its steps was allocated before its first entry, has taken an entry in
every step since, and its array holds the last of them behind the index. -/
theorem Mirrors.slot {h : History} {steps : List HistoryStep} (mirrors : Mirrors h steps)
    (direction : Direction) (offset : Nat)
    (short : offset < min (writtenEntries steps direction).length h.hDefinition.hdSize) :
    ∃ data step delta, (h.store direction).hsData = some data ∧
      steps.reverse[offset]? = some step ∧ step.entry direction = some delta ∧
      (writtenEntries steps direction).reverse[offset]? = some delta ∧
      data[h.walkBack (offset + 1)]? = some (h.hDefinition.hdType.cast delta) := by
  have stored := mirrors.store direction
  unfold writtenEntries at short ⊢
  rw [show (steps.filterMap fun step => step.entry direction) =
      (steps.map fun step => step.entry direction).filterMap id by
    rw [List.filterMap_map]; rfl] at short ⊢
  cases allocated : (h.store direction).hsData with
  | none =>
    rw [allocated] at stored
    obtain ⟨skipped, entries⟩ := stored
    rw [entries, List.filterMap_replicate_of_none rfl] at short
    simp at short
  | some data =>
    rw [allocated] at stored
    obtain ⟨full, skipped, written, entries, shown⟩ := stored
    have values : (steps.map fun step => step.entry direction).filterMap id = written := by
      rw [entries, List.filterMap_append, List.filterMap_replicate_of_none rfl, List.nil_append,
        List.filterMap_map]
      simp
    rw [values] at short ⊢
    obtain ⟨inLog, inRing⟩ := lt_min_iff.mp short
    have inReverse : offset < written.reverse.length := by rwa [List.length_reverse]
    -- the entry of the step so many steps ago, read through `map` and `reverse`
    have entryAt : (steps.reverse[offset]?).map (fun step => step.entry direction) =
        some (some written.reverse[offset]) := by
      rw [← List.getElem?_map, List.map_reverse, entries, List.reverse_append,
        List.getElem?_append_left (by simpa using inLog), ← List.map_reverse,
        List.getElem?_map, List.getElem?_eq_getElem inReverse, Option.map_some]
    obtain ⟨step, stepAt, stepEntry⟩ := Option.map_eq_some_iff.mp entryAt
    refine ⟨data, step, written.reverse[offset], rfl, stepAt, stepEntry,
      List.getElem?_eq_getElem inReverse, ?_⟩
    rw [walkBack_eq, shown offset (by rwa [List.length_map]) inRing, ← List.map_reverse,
      List.getElem?_map, List.getElem?_eq_getElem inReverse, Option.map_some]

/-- The array of a history refines a bounded log. After any run of `history_update` on a new
history with at least one slot the index is in range, and the walk of `fill_table` backwards
from it meets, for each direction, the casts of the entries written to that store, the newest
first. The entry met after `offset + 1` steps is that of the history step made `offset` steps
ago, whichever direction is read, and within one turn no position is met twice: the slots of
the two directions at one position belong to the same history step. With a positive interval
every run returns. -/
theorem historyRun_refines_log (cfg : Config) (definition : HistoryDef)
    (slots : 1 ≤ definition.hdSize) (calls : List (Attr × Timestamp)) :
    (0 < definition.hdInterval →
      ∃ fuel result, historyRun cfg fuel (historyAlloc cfg definition) calls = some result) ∧
    ∀ fuel h steps, historyRun cfg fuel (historyAlloc cfg definition) calls = some (h, steps) →
      h.hIndex < definition.hdSize ∧
        (∀ direction offset,
          offset < min (writtenEntries steps direction).length definition.hdSize →
            ∃ data step delta, (h.store direction).hsData = some data ∧
              steps.reverse[offset]? = some step ∧ step.entry direction = some delta ∧
              (writtenEntries steps direction).reverse[offset]? = some delta ∧
              data[h.walkBack (offset + 1)]? = some (definition.hdType.cast delta)) ∧
        ∀ first second, first < definition.hdSize → second < definition.hdSize →
          h.walkBack (first + 1) = h.walkBack (second + 1) → first = second := by
  refine ⟨fun positive => historyRun_returns cfg positive calls, fun fuel h steps returned => ?_⟩
  have mirrors : Mirrors h steps := by
    have started := (mirrors_alloc cfg definition slots).run returned
    rwa [List.nil_append] at started
  have same : h.hDefinition = definition := historyRun_hDefinition returned
  have inside := mirrors.inside
  refine ⟨by rwa [← same], fun direction offset short => ?_,
    fun first second firstShort secondShort met => ?_⟩
  · rw [← same] at short ⊢
    exact mirrors.slot direction offset short
  · rw [walkBack_eq, walkBack_eq] at met
    rw [← same] at firstShort secondShort
    exact RingLog.back_succ_injective inside firstShort secondShort met

/-- A history of two one-byte slots whose interval is the read interval. -/
def twoSlots : HistoryDef := ⟨"short", 2, .type8, 1⟩

/-- Three calls that write the samples 300 and 5 to the store for received bytes. -/
def twoSamples : List (Attr × Timestamp) :=
  [(bytesAt 0, ⟨1, 0⟩), (bytesAt 300, ⟨2, 0⟩), (bytesAt 305, ⟨3, 0⟩)]

/-- One slot behind the index of a two-slot history lies the sample written last, and two
slots behind it the one before, cut down to a byte. -/
theorem historyRun_refines_log_two :
    ∃ fuel h steps data, historyRun (confInitPost {}) fuel
        (historyAlloc (confInitPost {}) twoSlots) twoSamples = some (h, steps) ∧
      writtenEntries steps .rx = [300, 5] ∧ (h.store .rx).hsData = some data ∧
      data[h.walkBack 1]? = some 5 ∧ data[h.walkBack 2]? = some 44 := by
  obtain ⟨-, refined⟩ := historyRun_refines_log (confInitPost {}) twoSlots (by decide) twoSamples
  have entries : (historyRun (confInitPost {}) 1 (historyAlloc (confInitPost {}) twoSlots)
      twoSamples).map (fun result => writtenEntries result.2 .rx) = some [300, 5] := by
    decide +kernel
  obtain ⟨⟨h, steps⟩, returned, written⟩ := Option.map_eq_some_iff.mp entries
  obtain ⟨-, slots, -⟩ := refined 1 h steps returned
  simp only at written
  obtain ⟨data, -, newest, stored, -, -, newestAt, newestSlot⟩ :=
    slots .rx 0 (by rw [written]; decide)
  obtain ⟨data', -, older, stored', -, -, olderAt, olderSlot⟩ :=
    slots .rx 1 (by rw [written]; decide)
  rw [stored] at stored'
  obtain rfl := Option.some.inj stored'
  rw [written] at newestAt olderAt
  obtain rfl := Option.some.inj newestAt
  obtain rfl := Option.some.inj olderAt
  exact ⟨1, h, steps, data, returned, written, stored, newestSlot, olderSlot⟩

end Bmon
