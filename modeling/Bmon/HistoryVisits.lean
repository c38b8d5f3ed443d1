/-
This file keeps, next to a run of `history_update`, the list of the visits it pays to the slots
of its history: for every history step the record it finds, what it stores there, and whether
the discard loop made it.

The steps the model returns with a run are the entries its visits write, so the visits say
nothing new about a run. They say it together with the state each step started from, which is
what the questions about a single slot or a single division are about. `VisitInvariant.run` is
the induction over the visits of a run.
-/

import Bmon.HistoryTotals

namespace Bmon

/-! ### The visits of a run -/

/-- One history step of a run: the record before it, the totals and the time it stores, and
whether the discard loop made it. -/
structure HistoryVisit where
  before : History
  totals : Direction → UInt64
  diff : ℚ
  discarded : Bool

namespace HistoryVisit

variable (visit : HistoryVisit)

/-- The slot the step moves the index over. -/
def slot : Nat := visit.before.hIndex

/-- The record after the step. -/
def after : History := (historyStep visit.before visit.totals visit.diff).1

/-- The entries of the step. -/
def step : HistoryStep := (historyStep visit.before visit.totals visit.diff).2

end HistoryVisit

/-- The visit of a round of the discard loop. -/
def discardVisit (h : History) : HistoryVisit := ⟨h, fun _ => historyUnknown, 0, true⟩

/-- The visits of the `while` loop behind the label `discard`. -/
def discardVisits : Nat → History → ℚ → List HistoryVisit
  | 0, _, _ => []
  | fuel + 1, h, timediff =>
    if timediff ≥ h.hDefinition.hdInterval / 2 then
      discardVisit h :: discardVisits fuel (discardVisit h).after
        (timediff - h.hDefinition.hdInterval)
    else []

/-- The visits of a call of `history_update`. -/
def updateVisits (cfg : Config) (fuel : Nat) (a : Attr) (h : History) (ts : Timestamp) :
    List HistoryVisit :=
  match historyExit cfg a h ts with
  | .updatePrevTotal => []
  | .tooEarly => []
  | .update => [⟨h, a.totals, historyTimediff h ts, false⟩]
  | .discard => discardVisits fuel h (historyTimediff h ts)

/-- The visits of a run of calls, up to the first that does not return. -/
def runVisits (cfg : Config) (fuel : Nat) : History → List (Attr × Timestamp) → List HistoryVisit
  | _, [] => []
  | h, call :: calls =>
    updateVisits cfg fuel call.1 h call.2 ++
      ((historyUpdate cfg fuel call.1 h call.2).elim [] fun updated =>
        runVisits cfg fuel updated.1 calls)

/-! ### The induction over the visits -/

/-- A property of a record and of the visits paid so far that every visit preserves, and that
the assignments behind `update_prev_total` and `update_ts` do not touch. -/
structure VisitInvariant (property : History → List HistoryVisit → Prop) : Prop where
  visit : ∀ visit visits, property visit.before visits → property visit.after (visits ++ [visit])
  updatePrevTotal : ∀ h a visits, property h visits → property (h.updatePrevTotal a) visits
  updateTs : ∀ h ts visits, property h visits → property (h.updateTs ts) visits

theorem VisitInvariant.discardLoop {property : History → List HistoryVisit → Prop}
    (invariant : VisitInvariant property) {fuel : Nat} {h h' : History} {timediff : ℚ}
    {steps : List HistoryStep} {visits : List HistoryVisit} (holds : property h visits)
    (returned : discardLoop fuel h timediff = some (h', steps)) :
    property h' (visits ++ discardVisits fuel h timediff) := by
  induction fuel generalizing h timediff steps visits with
  | zero => cases returned
  | succ fuel inductionHypothesis =>
    rw [Bmon.discardLoop] at returned
    rw [discardVisits]
    split at returned
    · rename_i long
      obtain ⟨⟨last, rest⟩, loop, same⟩ := Option.map_eq_some_iff.mp returned
      obtain ⟨rfl, rfl⟩ := Prod.mk.inj same
      rw [if_pos long, List.append_cons]
      exact inductionHypothesis (invariant.visit (discardVisit h) visits holds) loop
    · rename_i short
      obtain ⟨rfl, rfl⟩ := Prod.mk.inj (Option.some.inj returned)
      rwa [if_neg short, List.append_nil]

theorem VisitInvariant.update {property : History → List HistoryVisit → Prop}
    (invariant : VisitInvariant property) {cfg : Config} {fuel : Nat} {a : Attr} {h h' : History}
    {ts : Timestamp} {steps : List HistoryStep} {visits : List HistoryVisit}
    (holds : property h visits) (returned : historyUpdate cfg fuel a h ts = some (h', steps)) :
    property h' (visits ++ updateVisits cfg fuel a h ts) := by
  unfold updateVisits
  rcases historyUpdate_cases returned with
    ⟨exit, rfl, -⟩ | ⟨exit, rfl, -⟩ | ⟨exit, rfl, -⟩ | ⟨exit, discarded, loop, rfl⟩
  · rw [exit, List.append_nil]
    exact holds
  · rw [exit, List.append_nil]
    exact invariant.updateTs _ _ _ (invariant.updatePrevTotal _ _ _ holds)
  · rw [exit]
    exact invariant.updateTs _ _ _
      (invariant.visit ⟨h, a.totals, historyTimediff h ts, false⟩ visits holds)
  · rw [exit]
    exact invariant.updateTs _ _ _
      (invariant.updatePrevTotal _ _ _ (invariant.discardLoop holds loop))

/-- What every visit preserves holds at the end of a run, of all the visits of the run. -/
theorem VisitInvariant.run {property : History → List HistoryVisit → Prop}
    (invariant : VisitInvariant property) {cfg : Config} {fuel : Nat} {h h' : History}
    {calls : List (Attr × Timestamp)} {steps : List HistoryStep} {visits : List HistoryVisit}
    (holds : property h visits) (returned : historyRun cfg fuel h calls = some (h', steps)) :
    property h' (visits ++ runVisits cfg fuel h calls) := by
  induction calls generalizing h steps visits with
  | nil =>
    obtain ⟨rfl, rfl⟩ := Prod.mk.inj (Option.some.inj returned)
    rwa [runVisits, List.append_nil]
  | cons call calls inductionHypothesis =>
    obtain ⟨⟨next, first⟩, updated, rest⟩ := Option.bind_eq_some_iff.mp returned
    obtain ⟨⟨final, others⟩, later, same⟩ := Option.map_eq_some_iff.mp rest
    obtain ⟨rfl, rfl⟩ := Prod.mk.inj same
    rw [runVisits, updated, ← List.append_assoc]
    exact inductionHypothesis (invariant.update holds updated) later

/-! ### Visits and steps -/

theorem discardVisits_step {fuel : Nat} {h h' : History} {timediff : ℚ}
    {steps : List HistoryStep} (returned : discardLoop fuel h timediff = some (h', steps)) :
    (discardVisits fuel h timediff).map HistoryVisit.step = steps := by
  induction fuel generalizing h timediff steps with
  | zero => cases returned
  | succ fuel inductionHypothesis =>
    rw [discardLoop] at returned
    rw [discardVisits]
    split at returned
    · rename_i long
      obtain ⟨⟨last, rest⟩, loop, same⟩ := Option.map_eq_some_iff.mp returned
      obtain ⟨rfl, rfl⟩ := Prod.mk.inj same
      rw [if_pos long, List.map_cons]
      exact congrArg _ (inductionHypothesis loop)
    · rename_i short
      obtain ⟨rfl, rfl⟩ := Prod.mk.inj (Option.some.inj returned)
      rw [if_neg short, List.map_nil]

theorem updateVisits_step {cfg : Config} {fuel : Nat} {a : Attr} {h h' : History}
    {ts : Timestamp} {steps : List HistoryStep}
    (returned : historyUpdate cfg fuel a h ts = some (h', steps)) :
    (updateVisits cfg fuel a h ts).map HistoryVisit.step = steps := by
  unfold updateVisits
  rcases historyUpdate_cases returned with
    ⟨exit, -, rfl⟩ | ⟨exit, -, rfl⟩ | ⟨exit, -, rfl⟩ | ⟨exit, discarded, loop, -⟩ <;> rw [exit]
  · rfl
  · rfl
  · rfl
  · exact discardVisits_step loop

/-- The steps of a run are the entries its visits write. -/
theorem runVisits_step {cfg : Config} {fuel : Nat} {h h' : History}
    {calls : List (Attr × Timestamp)} {steps : List HistoryStep}
    (returned : historyRun cfg fuel h calls = some (h', steps)) :
    (runVisits cfg fuel h calls).map HistoryVisit.step = steps := by
  induction calls generalizing h steps with
  | nil =>
    obtain ⟨rfl, rfl⟩ := Prod.mk.inj (Option.some.inj returned)
    rfl
  | cons call calls inductionHypothesis =>
    obtain ⟨⟨next, first⟩, updated, rest⟩ := Option.bind_eq_some_iff.mp returned
    obtain ⟨⟨final, others⟩, later, same⟩ := Option.map_eq_some_iff.mp rest
    obtain ⟨rfl, rfl⟩ := Prod.mk.inj same
    rw [runVisits, updated, List.map_append, updateVisits_step updated]
    exact congrArg _ (inductionHypothesis later)

/-! ### The visits of the discard loop -/

theorem eq_of_mem_discardVisits {fuel : Nat} {h : History} {timediff : ℚ} {visit : HistoryVisit}
    (member : visit ∈ discardVisits fuel h timediff) : visit = discardVisit visit.before := by
  induction fuel generalizing h timediff with
  | zero => cases member
  | succ fuel inductionHypothesis =>
    rw [discardVisits] at member
    split at member
    · rcases List.mem_cons.mp member with rfl | later
      · rfl
      · exact inductionHypothesis later
    · cases member

/-- A visit the discard loop made stores unknown totals. -/
theorem eq_of_discarded {cfg : Config} {fuel : Nat} {h : History}
    {calls : List (Attr × Timestamp)} {visit : HistoryVisit}
    (member : visit ∈ runVisits cfg fuel h calls) (discarded : visit.discarded = true) :
    visit = discardVisit visit.before := by
  induction calls generalizing h with
  | nil => cases member
  | cons call calls inductionHypothesis =>
    rw [runVisits, List.mem_append] at member
    rcases member with first | rest
    · unfold updateVisits at first
      cases exit : historyExit cfg call.1 h call.2 <;> simp only [exit] at first
      case discard => exact eq_of_mem_discardVisits first
      case update =>
        obtain rfl := List.mem_singleton.mp first
        cases discarded
      all_goals exact absurd first List.not_mem_nil
    · cases returned : historyUpdate cfg fuel call.1 h call.2 with
      | none =>
        rw [returned] at rest
        exact absurd rest List.not_mem_nil
      | some result =>
        rw [returned] at rest
        exact inductionHypothesis rest

end Bmon
