/-
This file compares what `history_store_data` writes into a slot with what `history_data` reads
back from it.

A slot keeps the sample modulo two to the width of the slot, and the largest number of that
width is the mark of an unknown sample. So a sample below the mark is read back as it was
written, but a known sample whose remainder is the mark is read back as unknown, and one that
does not fit comes back smaller.
-/

import Bmon.HistoryTotals

namespace Bmon

/-! ### The width of a slot -/

/-- The bits of a slot. -/
def HistoryType.bits : HistoryType → Nat
  | .type8 => 8
  | .type16 => 16
  | .type32 => 32
  | .type64 => 64

theorem toNat_cast (type : HistoryType) (delta : UInt64) :
    (type.cast delta).toNat = delta.toNat % 2 ^ type.bits := by
  cases type
  case type64 => exact (Nat.mod_eq_of_lt delta.toNat_lt).symm
  all_goals simp [HistoryType.cast, HistoryType.bits]

theorem toNat_unknown (type : HistoryType) : type.unknown.toNat = 2 ^ type.bits - 1 := by
  cases type <;> rfl

/-- A sample is stored as the mark of an unknown one if its remainder is the largest number of
the width. -/
theorem cast_eq_unknown_iff (type : HistoryType) (delta : UInt64) :
    type.cast delta = type.unknown ↔ delta.toNat % 2 ^ type.bits = 2 ^ type.bits - 1 := by
  rw [← UInt64.toNat_inj, toNat_cast, toNat_unknown]

/-! ### Writing a slot and reading it back -/

/-- What `history_data` makes of a sample that was cast to the width of a slot. -/
def HistoryType.decode (type : HistoryType) (delta : UInt64) : UInt64 :=
  if type.cast delta = type.unknown then historyUnknown else type.cast delta

/-- Some call of `history_store_data`, on a history of that width whose array has all its
slots if there is one, writes the sample, and `history_data` reads the value back from the
slot written. -/
def ReadsBack (type : HistoryType) (delta value : UInt64) : Prop :=
  ∃ (h : History) (hs : HistoryStore) (total : UInt64) (diff : ℚ),
    h.hDefinition.hdType = type ∧ h.hIndex < h.hDefinition.hdSize ∧
      (∀ data ∈ hs.hsData, data.length = h.hDefinition.hdSize) ∧
      (historyStoreData h hs total diff).2 = some delta ∧
      ∃ data, (historyStoreData h hs total diff).1.hsData = some data ∧
        historyData h data h.hIndex = some value

/-- An entry that is written goes into the slot at the index, of the array there was or of a
new one. -/
theorem historyStoreData_hsData {h : History} {hs : HistoryStore} {total delta : UInt64}
    {diff : ℚ} (entry : (historyStoreData h hs total diff).2 = some delta) :
    (historyStoreData h hs total diff).1.hsData =
      some ((hs.hsData.getD (historyAllocData h.hDefinition)).set h.hIndex
        (h.hDefinition.hdType.cast delta)) := by
  unfold historyStoreData at entry ⊢
  split at entry
  · cases entry
  · rename_i written
    rw [if_neg written, Option.some.inj entry]

/-- The slot at the index of an array with all its slots is read back as it was written. -/
theorem historyData_set {h : History} {data : List UInt64}
    (inside : h.hIndex < h.hDefinition.hdSize) (full : data.length = h.hDefinition.hdSize)
    (delta : UInt64) :
    historyData h (data.set h.hIndex (h.hDefinition.hdType.cast delta)) h.hIndex =
      some (h.hDefinition.hdType.decode delta) := by
  rw [historyData, List.getElem?_set_self (by rwa [full]), Option.map_some]
  rfl

/-- What is read back depends on the width and the sample only. -/
theorem ReadsBack.eq_decode {type : HistoryType} {delta value : UInt64}
    (readsBack : ReadsBack type delta value) : value = type.decode delta := by
  obtain ⟨h, hs, total, diff, rfl, inside, full, entry, data, array, read⟩ := readsBack
  rw [historyStoreData_hsData entry] at array
  obtain rfl := Option.some.inj array
  have length : (hs.hsData.getD (historyAllocData h.hDefinition)).length =
      h.hDefinition.hdSize := by
    cases stored : hs.hsData with
    | none => exact List.length_replicate
    | some data => exact full data stored
  rw [historyData_set inside length] at read
  exact (Option.some.inj read).symm

/-- Every known sample can be written: as the first total of a direction, over one second. -/
theorem readsBack_decode (type : HistoryType) {delta : UInt64} (known : delta ≠ historyUnknown) :
    ReadsBack type delta (type.decode delta) := by
  let h := historyAlloc (confInitPost {}) ⟨"history", 1, type, 1⟩
  have entry : (historyStoreData h ⟨none, 0⟩ delta 1).2 = some delta := by
    rw [(historyStoreData_known h ⟨none, 0⟩ delta 1 known).2, UInt64.sub_zero]
    unfold historySample
    rw [div_one, Nat.floor_natCast, UInt64.ofNat_toNat, ite_self]
  refine ⟨h, ⟨none, 0⟩, delta, 1, rfl, Nat.zero_lt_one, ?_, entry, _,
    historyStoreData_hsData entry, ?_⟩
  · exact fun data given => absurd given (by simp)
  · exact historyData_set Nat.zero_lt_one List.length_replicate delta

/-! ### Two samples read back -/

theorem decode_of_ne {type : HistoryType} {delta : UInt64}
    (apart : delta.toNat % 2 ^ type.bits ≠ 2 ^ type.bits - 1) :
    type.decode delta = type.cast delta :=
  if_neg fun same => apart ((cast_eq_unknown_iff type delta).mp same)

/-- A sample is read back as unknown exactly if its remainder is the mark. -/
theorem decode_eq_unknown_iff (type : HistoryType) (delta : UInt64) :
    type.decode delta = historyUnknown ↔ delta.toNat % 2 ^ type.bits = 2 ^ type.bits - 1 := by
  rw [← cast_eq_unknown_iff]
  unfold HistoryType.decode
  split
  · rename_i same
    exact iff_of_true rfl same
  · rename_i apart
    refine iff_of_false (fun wide => apart ((cast_eq_unknown_iff type delta).mpr ?_)) apart
    -- only a slot of 64 bits can hold the number of an unknown sample
    have value : delta.toNat % 2 ^ type.bits = 2 ^ 64 - 1 := by
      rw [← toNat_cast, wide]
      rfl
    cases type <;> simp only [HistoryType.bits] at value ⊢ <;> omega

/-- A sample below the mark is read back as it was written. -/
theorem decode_of_lt {type : HistoryType} {delta : UInt64}
    (below : delta.toNat < 2 ^ type.bits - 1) : type.decode delta = delta := by
  have fits : delta.toNat % 2 ^ type.bits = delta.toNat := Nat.mod_eq_of_lt (by omega)
  rw [decode_of_ne (by omega), ← UInt64.toNat_inj, toNat_cast, fits]

/-- Two known samples are read back as known and in their order exactly if neither remainder,
modulo two to the width, is the mark, and the remainders are in that order. Slots of 64 bits
and samples below the mark always meet this; and every sample below the mark is read back as
it was written. -/
theorem readsBack_keeps_iff {type : HistoryType} {first second firstRead secondRead : UInt64}
    (firstKnown : first ≠ historyUnknown) (secondKnown : second ≠ historyUnknown)
    (ordered : first ≤ second) (firstBack : ReadsBack type first firstRead)
    (secondBack : ReadsBack type second secondRead) :
    ((firstRead ≠ historyUnknown ∧ secondRead ≠ historyUnknown ∧ firstRead ≤ secondRead) ↔
      first.toNat % 2 ^ type.bits ≠ 2 ^ type.bits - 1 ∧
        second.toNat % 2 ^ type.bits ≠ 2 ^ type.bits - 1 ∧
        first.toNat % 2 ^ type.bits ≤ second.toNat % 2 ^ type.bits) ∧
    ((type = .type64 ∨ second.toNat < 2 ^ type.bits - 1) →
      firstRead ≠ historyUnknown ∧ secondRead ≠ historyUnknown ∧ firstRead ≤ secondRead) ∧
    (first.toNat < 2 ^ type.bits - 1 → firstRead = first) := by
  have firstEq := firstBack.eq_decode
  have secondEq := secondBack.eq_decode
  subst firstEq secondEq
  have keeps : (type.decode first ≠ historyUnknown ∧ type.decode second ≠ historyUnknown ∧
      type.decode first ≤ type.decode second) ↔
      first.toNat % 2 ^ type.bits ≠ 2 ^ type.bits - 1 ∧
        second.toNat % 2 ^ type.bits ≠ 2 ^ type.bits - 1 ∧
        first.toNat % 2 ^ type.bits ≤ second.toNat % 2 ^ type.bits := by
    rw [ne_eq, ne_eq, decode_eq_unknown_iff, decode_eq_unknown_iff]
    refine and_congr_right fun firstApart => and_congr_right fun secondApart => ?_
    rw [decode_of_ne firstApart, decode_of_ne secondApart, UInt64.le_iff_toNat_le, toNat_cast,
      toNat_cast]
  refine ⟨keeps, fun fits => keeps.mpr ?_, decode_of_lt⟩
  have inOrder : first.toNat ≤ second.toNat := UInt64.le_iff_toNat_le.mp ordered
  rcases fits with rfl | below
  · have bound : ∀ delta : UInt64, delta ≠ historyUnknown → delta.toNat < 2 ^ 64 - 1 := by
      intro delta known
      have apart : delta.toNat ≠ 2 ^ 64 - 1 := fun same => known (UInt64.toNat_inj.mp same)
      have range := delta.toNat_lt
      omega
    have firstBound := bound first firstKnown
    have secondBound := bound second secondKnown
    simp only [HistoryType.bits]
    omega
  · rw [Nat.mod_eq_of_lt (show first.toNat < 2 ^ type.bits by omega),
      Nat.mod_eq_of_lt (show second.toNat < 2 ^ type.bits by omega)]
    omega

/-- In slots of one byte the samples 5 and 200 are read back as they are. -/
theorem readsBack_keeps_iff_bytes : ReadsBack .type8 5 5 ∧ ReadsBack .type8 200 200 ∧
    (5 : UInt64) ≠ historyUnknown ∧ (200 : UInt64) ≠ historyUnknown ∧ (5 : UInt64) ≤ 200 := by
  have five : ReadsBack .type8 5 5 := readsBack_decode .type8 (by decide)
  have more : ReadsBack .type8 200 200 := readsBack_decode .type8 (by decide)
  exact ⟨five, more, (readsBack_keeps_iff (by decide) (by decide) (by decide) five more).2.1
    (Or.inr (by decide))⟩

/-- In slots of one byte the known sample 255 is read back as unknown, and of the samples 5
and 256 the greater one is read back as the smaller. -/
theorem readsBack_byte_loses :
    ((255 : UInt64) ≠ historyUnknown ∧ ReadsBack .type8 255 historyUnknown) ∧
      (5 : UInt64) < 256 ∧ ReadsBack .type8 5 5 ∧ ReadsBack .type8 256 0 :=
  ⟨⟨by decide, readsBack_decode .type8 (by decide)⟩, by decide,
    readsBack_decode .type8 (by decide), readsBack_decode .type8 (by decide)⟩

end Bmon
