/-
This file shows that a history of a counter accounts for every increment exactly once.

Between two calls a history is anchored at the call that last set `h_last_update`: its
previous totals are the totals of that call, in both directions. A call either leaves the
record alone, so that the increments it saw are still ahead of the anchor, or moves the anchor
to itself. Every known entry written is therefore the increment since the anchor over the time
since the anchor, and a period that was given up as unknown is never part of a later entry.
-/

import Bmon.History
import Mathlib.Data.List.Pairwise

namespace Bmon

/-! ### The sample of an increment -/

/-- A sample is the whole part of the increment per second, as long as it fits the slot. -/
theorem historySample_toNat {delta : UInt64} {diff : ℚ}
    (fits : (delta.toNat : ℚ) / diff < 2 ^ 64) :
    (historySample delta diff).toNat = ⌊(delta.toNat : ℚ) / diff⌋₊ := by
  unfold historySample
  split
  · rw [UInt64.toNat_ofNat']
    refine Nat.mod_eq_of_lt ?_
    by_cases negative : (delta.toNat : ℚ) / diff < 0
    · rw [Nat.floor_of_nonpos negative.le]
      exact Nat.two_pow_pos 64
    · rw [Nat.floor_lt (not_lt.mp negative)]
      exact_mod_cast fits
  · rename_i empty
    have zero : delta.toNat = 0 := by
      have notPositive := mt UInt64.lt_iff_toNat_lt.mpr empty
      simpa using notPositive
    simp [zero]

/-! ### The anchor of a history -/

/-- The history was last set at the time `since.2`, and its previous totals are those the
attribute had then. -/
structure Anchored (h : History) (since : Attr × Timestamp) : Prop where
  last : h.hLastUpdate = since.2
  totals : ∀ direction, (h.store direction).hsPrevTotal = since.1.totals direction

/-- The labels `update_prev_total` and `update_ts` together set the anchor. -/
theorem anchored_updatePrevTotal (h : History) (a : Attr) (ts : Timestamp) :
    Anchored ((h.updatePrevTotal a).updateTs ts) (a, ts) where
  last := rfl
  totals direction := by rw [updateTs_store, updatePrevTotal_hsPrevTotal]

/-- The label `update` sets the anchor too, if both totals are known. -/
theorem anchored_step {h : History} {a : Attr} {diff : ℚ} {ts : Timestamp}
    (known : ∀ direction, a.totals direction ≠ historyUnknown) :
    Anchored ((historyStep h a.totals diff).1.updateTs ts) (a, ts) where
  last := rfl
  totals direction := by
    rw [updateTs_store, historyStep_store]
    exact (historyStoreData_known h _ _ diff (known direction)).1

/-- The discard loop writes unknown entries only. -/
theorem discardLoop_entries {fuel : Nat} {h h' : History} {timediff : ℚ}
    {steps : List HistoryStep} (returned : discardLoop fuel h timediff = some (h', steps)) :
    ∀ step ∈ steps, ∀ direction delta, step.entry direction = some delta →
      delta = historyUnknown := by
  have looped := discardLoop_invariant
    (fun _ made => ∀ step ∈ made, ∀ direction delta,
      step.entry direction = some delta → delta = historyUnknown)
    ?_ [] (by simp) returned
  · simpa using looped
  · intro current made unknown step member direction delta entry
    rcases List.mem_append.mp member with earlier | last
    · exact unknown step earlier direction delta entry
    · obtain rfl := List.mem_singleton.mp last
      rw [historyStep_entry, historyStoreData_unknown_entry] at entry
      obtain ⟨data, -, same⟩ := Option.map_eq_some_iff.mp entry
      exact same.symm

/-- What one call does to a history that has been set before: it comes too early and changes
nothing, or it moves the anchor to itself; and every known entry it writes is the sample of
the increment since the old anchor over the time since the old anchor. -/
theorem historyUpdate_anchor {cfg : Config} {fuel : Nat} {a : Attr} {h h' : History}
    {ts : Timestamp} {steps : List HistoryStep}
    (known : ∀ direction, a.totals direction ≠ historyUnknown) (later : ¬ h.isInitial)
    (returned : historyUpdate cfg fuel a h ts = some (h', steps)) :
    ((historyExit cfg a h ts = .tooEarly ∧ h' = h ∧ steps = []) ∨ Anchored h' (a, ts)) ∧
      ∀ step ∈ steps, ∀ direction delta, step.entry direction = some delta →
        delta ≠ historyUnknown →
          delta = historySample (a.totals direction - (h.store direction).hsPrevTotal)
            (timestampDiff h.hLastUpdate ts) := by
  rcases historyUpdate_cases returned with
    ⟨exit, rfl, rfl⟩ | ⟨-, rfl, rfl⟩ | ⟨-, rfl, rfl⟩ | ⟨-, discarded, loop, rfl⟩
  · exact ⟨Or.inl ⟨exit, rfl, rfl⟩, by simp⟩
  · exact ⟨Or.inr (anchored_updatePrevTotal h a ts), by simp⟩
  · refine ⟨Or.inr (anchored_step known), fun step member direction delta entry _ => ?_⟩
    obtain rfl := List.mem_singleton.mp member
    rw [historyStep_entry,
      (historyStoreData_known h _ _ _ (known direction)).2] at entry
    rw [← Option.some.inj entry, historyTimediff, if_neg later]
  · refine ⟨Or.inr (anchored_updatePrevTotal discarded a ts),
      fun step member direction delta entry sampled => ?_⟩
    exact absurd (discardLoop_entries loop step member direction delta entry) sampled

/-! ### Runs of a counter -/

/-- The calls of a run on a counter whose totals are never the unknown mark, at strictly
increasing times with a positive number of seconds. -/
structure CounterCalls (calls : List (Attr × Timestamp)) : Prop where
  counter : ∀ call ∈ calls, call.1.aDef.adType = .counter
  known : ∀ call ∈ calls, ∀ direction, call.1.totals direction ≠ historyUnknown
  positive : ∀ call ∈ calls, 0 < call.2.tvSec
  increasing : calls.Pairwise fun earlier later => earlier.2.Before later.2

theorem CounterCalls.init {calls : List (Attr × Timestamp)} {call : Attr × Timestamp}
    (valid : CounterCalls (calls ++ [call])) : CounterCalls calls where
  counter earlier member := valid.counter earlier (List.mem_append_left _ member)
  known earlier member := valid.known earlier (List.mem_append_left _ member)
  positive earlier member := valid.positive earlier (List.mem_append_left _ member)
  increasing := (List.pairwise_append.mp valid.increasing).1

/-- The calls of a run are told apart by their times. -/
theorem CounterCalls.eq_of_time {calls : List (Attr × Timestamp)} (valid : CounterCalls calls)
    {first second : Attr × Timestamp} (firstMember : first ∈ calls)
    (secondMember : second ∈ calls) (sameTime : first.2 = second.2) : first = second := by
  have apart : calls.Pairwise fun earlier later => earlier.2 ≠ later.2 :=
    valid.increasing.imp fun before => before.ne
  have symmetric : Std.Symm fun earlier later : Attr × Timestamp => earlier.2 ≠ later.2 :=
    ⟨fun _ _ => Ne.symm⟩
  by_contra different
  exact apart.forall firstMember secondMember different sameTime

/-- After its first call a history of a counter is anchored at one of the calls of its run. -/
theorem historyRun_anchored {cfg : Config} {fuel : Nat} {definition : HistoryDef}
    {calls : List (Attr × Timestamp)} (valid : CounterCalls calls) (started : calls ≠ [])
    {h : History} {steps : List HistoryStep}
    (returned : historyRun cfg fuel (historyAlloc cfg definition) calls = some (h, steps)) :
    ∃ since ∈ calls, Anchored h since := by
  induction calls using List.reverseRecOn generalizing h steps with
  | nil => exact absurd rfl started
  | append_singleton calls call inductionHypothesis =>
    obtain ⟨middle, earlier, last, run, updated, rfl⟩ := historyRun_concat returned
    have counter := valid.counter call (by simp)
    have known := valid.known call (by simp)
    by_cases first : calls = []
    · -- the first call of a counter only starts the history
      subst first
      obtain ⟨rfl, rfl⟩ := Prod.mk.inj (Option.some.inj run)
      have exit : historyExit cfg call.1 (historyAlloc cfg definition) call.2 =
          .updatePrevTotal := by
        unfold historyExit
        rw [if_pos ⟨rfl, counter⟩]
      unfold historyUpdate at updated
      rw [exit] at updated
      obtain ⟨rfl, rfl⟩ := Prod.mk.inj (Option.some.inj updated)
      exact ⟨call, by simp, anchored_updatePrevTotal _ _ _⟩
    · obtain ⟨since, member, anchored⟩ := inductionHypothesis valid.init first run
      have later : ¬ middle.isInitial := by
        unfold History.isInitial
        rw [anchored.last]
        exact (valid.init.positive since member).ne'
      rcases (historyUpdate_anchor known later updated).1 with ⟨-, rfl, -⟩ | moved
      · exact ⟨since, List.mem_append_left _ member, anchored⟩
      · exact ⟨call, by simp, moved⟩

/-- No increment of a counter is lost or counted twice. On a 64-bit history with a positive
interval every run returns; after its first call the history is anchored at the one call made
at `h_last_update`: its previous totals are the totals of that call. The next call either comes
too early and changes nothing, or moves the anchor to itself, and every known entry it writes
is the whole part of the increment since the anchor, modulo `2 ^ 64`, over the time since the
anchor, as long as that fits the slot. -/
theorem historyRun_loses_nothing (cfg : Config) (definition : HistoryDef)
    (wide : definition.hdType = .type64) (positive : 0 < definition.hdInterval)
    (calls : List (Attr × Timestamp)) (valid : CounterCalls calls) :
    (∃ fuel result, historyRun cfg fuel (historyAlloc cfg definition) calls = some result) ∧
      ∀ fuel h steps, historyRun cfg fuel (historyAlloc cfg definition) calls = some (h, steps) →
        calls ≠ [] → ∃ since ∈ calls, Anchored h since ∧
          (∀ call ∈ calls, call.2 = h.hLastUpdate → call = since) ∧
          ∀ a ts, CounterCalls (calls ++ [(a, ts)]) → ∀ h' made,
            historyUpdate cfg fuel a h ts = some (h', made) →
              ((historyExit cfg a h ts = .tooEarly ∧ h' = h ∧ made = []) ∨
                Anchored h' (a, ts)) ∧
              ∀ step ∈ made, ∀ direction delta, step.entry direction = some delta →
                delta ≠ historyUnknown →
                ((a.totals direction - since.1.totals direction).toNat : ℚ) /
                    timestampDiff since.2 ts < 2 ^ 64 →
                (definition.hdType.cast delta).toNat =
                  ⌊((a.totals direction - since.1.totals direction).toNat : ℚ) /
                    timestampDiff since.2 ts⌋₊ := by
  refine ⟨historyRun_returns cfg positive calls, fun fuel h steps returned started => ?_⟩
  obtain ⟨since, member, anchored⟩ := historyRun_anchored valid started returned
  refine ⟨since, member, anchored, fun call called sameTime => ?_,
    fun a ts next h' made updated => ?_⟩
  · rw [anchored.last] at sameTime
    exact valid.eq_of_time called member sameTime
  have known := next.known (a, ts) (by simp)
  have later : ¬ h.isInitial := by
    unfold History.isInitial
    rw [anchored.last]
    exact (valid.positive since member).ne'
  obtain ⟨moved, sampled⟩ := historyUpdate_anchor known later updated
  refine ⟨moved, fun step stepMember direction delta entry deltaKnown fits => ?_⟩
  have sample := sampled step stepMember direction delta entry deltaKnown
  rw [anchored.last, anchored.totals] at sample
  rw [wide, HistoryType.cast, sample, historySample_toNat fits]

/-- The history `second` of the default configuration, whose interval is the read interval. -/
def secondDef : HistoryDef := ⟨"second", 60, .type64, 1⟩

/-- Two calls on a counter, at 0 and at 300 bytes. -/
def twoTotals : List (Attr × Timestamp) := [(bytesAt 0, ⟨1, 0⟩), (bytesAt 300, ⟨2, 0⟩)]

/-- A third call two seconds later, at 305 bytes, writes the sample 2 of the increment 5 and
moves the anchor. -/
theorem historyRun_loses_nothing_three :
    ∃ h steps h' made, historyRun (confInitPost {}) 1
        (historyAlloc (confInitPost {}) secondDef) twoTotals = some (h, steps) ∧
      historyUpdate (confInitPost {}) 1 (bytesAt 305) h ⟨4, 0⟩ = some (h', made) ∧
      made.map HistoryStep.rx = [some 2] ∧
      Anchored h (bytesAt 300, ⟨2, 0⟩) ∧ Anchored h' (bytesAt 305, ⟨4, 0⟩) := by
  have three : CounterCalls (twoTotals ++ [(bytesAt 305, ⟨4, 0⟩)]) := by
    refine ⟨by decide, fun call member direction => ?_, by decide, by decide +kernel⟩
    cases direction <;> revert call <;> decide
  obtain ⟨-, run⟩ := historyRun_loses_nothing (confInitPost {}) secondDef rfl
    (by decide +kernel) twoTotals three.init
  have values : ((historyRun (confInitPost {}) 1 (historyAlloc (confInitPost {}) secondDef)
      twoTotals).bind fun result =>
        (historyUpdate (confInitPost {}) 1 (bytesAt 305) result.1 ⟨4, 0⟩).map fun updated =>
          (historyExit (confInitPost {}) (bytesAt 305) result.1 ⟨4, 0⟩, result.1.hLastUpdate,
            updated.2.map HistoryStep.rx)) = some (.update, ⟨2, 0⟩, [some 2]) := by
    decide +kernel
  obtain ⟨⟨h, steps⟩, returned, last⟩ := Option.bind_eq_some_iff.mp values
  obtain ⟨⟨h', made⟩, updated, same⟩ := Option.map_eq_some_iff.mp last
  obtain ⟨exit, rest⟩ := Prod.mk.inj same
  obtain ⟨time, written⟩ := Prod.mk.inj rest
  obtain ⟨since, -, anchored, only, next⟩ := run 1 h steps returned (by decide)
  obtain rfl := only (bytesAt 300, ⟨2, 0⟩) (by decide) time.symm
  obtain ⟨moved, -⟩ := next (bytesAt 305) ⟨4, 0⟩ three h' made updated
  refine ⟨h, steps, h', made, returned, updated, written, anchored, moved.resolve_left ?_⟩
  rintro ⟨early, -⟩
  simp only at exit
  rw [exit] at early
  cases early

end Bmon
