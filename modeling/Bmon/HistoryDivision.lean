/-
This file follows the one division of `history_store_data`, `delta /= diff`, through the runs
of `history_update`.

The divisor is the time since the last update, and the very first update takes it to be zero.
For a counter that update only records the totals. For any other type of attribute it goes
through the same tests as every later one, and where these lead to a sample, the first total
is divided by zero. They do so when the read interval is the interval of the history, and in
one odd case of negative settings. Every later division is by the time between two calls.
-/

import Bmon.HistoryVisits

namespace Bmon

/-! ### The divisions of a visit -/

/-- The divisor of `delta /= diff`, if `history_store_data` comes to the division. -/
def storeDivisors (hs : HistoryStore) (total : UInt64) (diff : ℚ) : List ℚ :=
  if total ≠ historyUnknown ∧ 0 < total - hs.hsPrevTotal then [diff] else []

/-- The divisors of the two calls of `history_store_data` of a history step. -/
def HistoryVisit.divisors (visit : HistoryVisit) : List ℚ :=
  storeDivisors visit.before.hRx (visit.totals .rx) visit.diff ++
    storeDivisors visit.before.hTx (visit.totals .tx) visit.diff

theorem mem_storeDivisors_iff (hs : HistoryStore) (total : UInt64) (diff divisor : ℚ) :
    divisor ∈ storeDivisors hs total diff ↔
      divisor = diff ∧ total ≠ historyUnknown ∧ 0 < total - hs.hsPrevTotal := by
  unfold storeDivisors
  split
  · rename_i divides
    rw [List.mem_singleton, and_iff_left divides]
  · rename_i skipped
    exact iff_of_false List.not_mem_nil fun divided => skipped divided.2

/-- A history step divides, by the time it is given, for every direction whose total is known
and has moved. -/
theorem mem_divisors_iff (visit : HistoryVisit) (divisor : ℚ) :
    divisor ∈ visit.divisors ↔ divisor = visit.diff ∧ ∃ direction,
      visit.totals direction ≠ historyUnknown ∧
        0 < visit.totals direction - (visit.before.store direction).hsPrevTotal := by
  rw [HistoryVisit.divisors, List.mem_append, mem_storeDivisors_iff, mem_storeDivisors_iff,
    ← and_or_left]
  refine and_congr_right fun _ => ⟨?_, ?_⟩
  · rintro (rx | tx)
    · exact ⟨.rx, rx⟩
    · exact ⟨.tx, tx⟩
  · rintro ⟨direction, divides⟩
    cases direction with
    | rx => exact Or.inl divides
    | tx => exact Or.inr divides

/-- The discard loop stores unknown totals, which are never divided. -/
theorem divisors_discardVisit (h : History) : (discardVisit h).divisors = [] := by
  refine List.eq_nil_iff_forall_not_mem.mpr fun divisor divided => ?_
  obtain ⟨-, direction, known, -⟩ := (mem_divisors_iff _ _).mp divided
  exact known rfl

/-- The visits divide by positive times only. -/
def DividesPositively (visits : List HistoryVisit) : Prop :=
  ∀ visit ∈ visits, ∀ diff ∈ visit.divisors, 0 < diff

instance (visits : List HistoryVisit) : Decidable (DividesPositively visits) :=
  inferInstanceAs (Decidable (∀ visit ∈ visits, ∀ diff ∈ visit.divisors, 0 < diff))

theorem dividesPositively_nil : DividesPositively [] :=
  fun _ member => absurd member List.not_mem_nil

theorem dividesPositively_discardVisits (fuel : Nat) (h : History) (timediff : ℚ) :
    DividesPositively (discardVisits fuel h timediff) := by
  intro visit member diff divided
  rw [eq_of_mem_discardVisits member, divisors_discardVisit] at divided
  exact absurd divided List.not_mem_nil

/-- A run divides positively if its first call does and the rest does, should the call
return. -/
theorem dividesPositively_runVisits_cons (cfg : Config) (fuel : Nat) (h : History)
    (call : Attr × Timestamp) (calls : List (Attr × Timestamp)) :
    DividesPositively (runVisits cfg fuel h (call :: calls)) ↔
      DividesPositively (updateVisits cfg fuel call.1 h call.2) ∧
        ∀ h' steps, historyUpdate cfg fuel call.1 h call.2 = some (h', steps) →
          DividesPositively (runVisits cfg fuel h' calls) := by
  unfold DividesPositively
  rw [runVisits, List.forall_mem_append]
  refine and_congr_right fun _ => ?_
  cases historyUpdate cfg fuel call.1 h call.2 with
  | none => simp
  | some result => exact ⟨fun all h' steps same => by cases same; exact all,
      fun all => all result.1 result.2 rfl⟩

/-! ### Histories that have been updated before -/

/-- The history has been updated, and every call to come is later and later. -/
structure Started (h : History) (calls : List (Attr × Timestamp)) : Prop where
  notInitial : ¬h.isInitial
  later : ∀ call ∈ calls, h.hLastUpdate.Before call.2
  positive : ∀ call ∈ calls, 0 < call.2.tvSec
  increasing : calls.Pairwise fun earlier later => earlier.2.Before later.2

/-- A call that ends at its own time starts the history for the calls behind it. -/
theorem started_of_last {h : History} {call : Attr × Timestamp} {calls : List (Attr × Timestamp)}
    (last : h.hLastUpdate = call.2)
    (positive : ∀ other ∈ call :: calls, 0 < other.2.tvSec)
    (increasing : (call :: calls).Pairwise fun earlier later => earlier.2.Before later.2) :
    Started h calls where
  notInitial := by
    unfold History.isInitial
    rw [last]
    exact (positive call List.mem_cons_self).ne'
  later other member := by
    rw [last]
    exact (List.pairwise_cons.mp increasing).1 other member
  positive other member := positive other (List.mem_cons_of_mem _ member)
  increasing := (List.pairwise_cons.mp increasing).2

/-- A call that returns leaves the record alone, having come too early, or ends at its time. -/
theorem historyUpdate_last {cfg : Config} {fuel : Nat} {a : Attr} {h h' : History}
    {ts : Timestamp} {steps : List HistoryStep}
    (returned : historyUpdate cfg fuel a h ts = some (h', steps)) :
    (historyExit cfg a h ts = .tooEarly ∧ h' = h) ∨ h'.hLastUpdate = ts := by
  rcases historyUpdate_cases returned with
    ⟨exit, rfl, -⟩ | ⟨-, rfl, -⟩ | ⟨-, rfl, -⟩ | ⟨-, discarded, -, rfl⟩
  · exact Or.inl ⟨exit, rfl⟩
  · exact Or.inr rfl
  · exact Or.inr rfl
  · exact Or.inr rfl

/-- Once a history has been updated, a call divides by the time since its last update. -/
theorem dividesPositively_updateVisits {cfg : Config} {fuel : Nat} {a : Attr} {h : History}
    {ts : Timestamp} (notInitial : ¬h.isInitial) (later : h.hLastUpdate.Before ts) :
    DividesPositively (updateVisits cfg fuel a h ts) := by
  unfold updateVisits
  cases historyExit cfg a h ts with
  | updatePrevTotal => exact dividesPositively_nil
  | tooEarly => exact dividesPositively_nil
  | discard => exact dividesPositively_discardVisits _ _ _
  | update =>
    intro visit member diff divided
    obtain rfl := List.mem_singleton.mp member
    rw [((mem_divisors_iff _ _).mp divided).1, historyTimediff, if_neg notInitial]
    exact later

theorem Started.dividesPositively {cfg : Config} {fuel : Nat} {h : History}
    {calls : List (Attr × Timestamp)} (started : Started h calls) :
    DividesPositively (runVisits cfg fuel h calls) := by
  induction calls generalizing h with
  | nil => exact dividesPositively_nil
  | cons call calls inductionHypothesis =>
    refine (dividesPositively_runVisits_cons _ _ _ _ _).mpr
      ⟨dividesPositively_updateVisits started.notInitial (started.later call List.mem_cons_self),
        fun h' steps returned => inductionHypothesis ?_⟩
    rcases historyUpdate_last returned with ⟨-, rfl⟩ | last
    · exact ⟨started.notInitial,
        fun other member => started.later other (List.mem_cons_of_mem _ member),
        fun other member => started.positive other (List.mem_cons_of_mem _ member),
        (List.pairwise_cons.mp started.increasing).2⟩
    · exact started_of_last last started.positive started.increasing

/-! ### The first call -/

/-- The first call of an attribute stores a sample over a time of zero, and has something to
divide: the attribute is no counter, the read interval is that of the history (or lies below
it, and they and the variance are negative), and a total is neither zero nor unknown. -/
structure DividesByZero (cfg : Config) (definition : HistoryDef) (a : Attr) : Prop where
  noCounter : a.aDef.adType ≠ .counter
  intervals : cfg.cfgReadInterval = definition.hdInterval ∨
    (cfg.cfgReadInterval < definition.hdInterval ∧
      definition.hdInterval ≤ cfg.cfgReadInterval / 2 ∧ cfg.cfgHistoryVariance < 0)
  total : ∃ direction, a.totals direction ≠ 0 ∧ a.totals direction ≠ historyUnknown

theorem ofRat_lt_ofRat (first second : ℚ) :
    Extended.ofRat first < Extended.ofRat second ↔ first < second := by
  unfold Extended.ofRat
  rw [WithBot.coe_lt_coe, WithTop.coe_lt_coe]

/-- For a negative dividend the quotient is below zero unless the divisor is negative too. -/
theorem floatDiv_lt_zero_iff {dividend : ℚ} (negative : dividend < 0) (divisor : ℚ) :
    floatDiv dividend divisor < Extended.ofRat 0 ↔ 0 ≤ divisor := by
  unfold floatDiv
  rcases lt_trichotomy divisor 0 with below | rfl | above
  · rw [if_neg below.ne, ofRat_lt_ofRat]
    exact iff_of_false (not_lt.mpr (div_pos_of_neg_of_neg negative below).le) (not_le.mpr below)
  · rw [if_pos rfl, if_pos negative]
    exact iff_of_true (WithBot.bot_lt_coe _) le_rfl
  · rw [if_neg above.ne', ofRat_lt_ofRat]
    exact iff_of_true (div_neg_of_neg_of_pos negative above) above.le

/-- The tests on a new history, where `timediff` is zero. -/
theorem historyExit_alloc (cfg : Config) (definition : HistoryDef) (a : Attr) (ts : Timestamp) :
    historyExit cfg a (historyAlloc cfg definition) ts =
      if a.aDef.adType = .counter then .updatePrevTotal
      else if cfg.cfgReadInterval > definition.hdInterval then .discard
      else if cfg.cfgReadInterval = definition.hdInterval then .update
      else if floatDiv definition.hdInterval cfg.cfgHistoryVariance < Extended.ofRat 0 then .discard
      else if 0 < definition.hdInterval - cfg.cfgReadInterval / 2 then .tooEarly
      else .update := by
  have initial : (historyAlloc cfg definition).isInitial := rfl
  have zero : historyTimediff (historyAlloc cfg definition) ts = 0 := if_pos initial
  unfold historyExit
  rw [zero]
  by_cases counter : a.aDef.adType = .counter
  · rw [if_pos ⟨initial, counter⟩, if_pos counter]
  · rw [if_neg fun both => counter both.2, if_neg counter]
    rfl

/-- Where they lead to a sample. -/
theorem historyExit_alloc_update_iff (cfg : Config) (definition : HistoryDef) (a : Attr)
    (ts : Timestamp) :
    historyExit cfg a (historyAlloc cfg definition) ts = .update ↔
      a.aDef.adType ≠ .counter ∧ (cfg.cfgReadInterval = definition.hdInterval ∨
        (cfg.cfgReadInterval < definition.hdInterval ∧
          definition.hdInterval ≤ cfg.cfgReadInterval / 2 ∧ cfg.cfgHistoryVariance < 0)) := by
  rw [historyExit_alloc]
  by_cases counter : a.aDef.adType = .counter
  · simp [counter]
  rw [if_neg counter]
  rcases lt_trichotomy cfg.cfgReadInterval definition.hdInterval with below | same | above
  · rw [if_neg (not_lt.mpr below.le), if_neg below.ne]
    by_cases half : definition.hdInterval ≤ cfg.cfgReadInterval / 2
    · -- between the read interval and its half lie negative numbers only
      have negative : definition.hdInterval < 0 := by linarith
      have enough : ¬(0 < definition.hdInterval - cfg.cfgReadInterval / 2) := by linarith
      rw [if_neg enough]
      simp only [floatDiv_lt_zero_iff negative]
      by_cases variance : 0 ≤ cfg.cfgHistoryVariance
      · simp [variance, below.ne]
      · simp [below, half, counter, not_le.mp variance]
    · have tooShort : 0 < definition.hdInterval - cfg.cfgReadInterval / 2 := by linarith
      rw [if_pos tooShort]
      split <;> simp [below.ne, half]
  · rw [if_neg (by rw [same]; exact lt_irrefl _), if_pos same]
    simp [same, counter]
  · rw [if_pos above]
    simp [above.ne', above.le]

/-- The first call of a new history divides by zero or not at all. -/
theorem dividesPositively_alloc_iff (cfg : Config) (fuel : Nat) (definition : HistoryDef)
    (a : Attr) (ts : Timestamp) :
    DividesPositively (updateVisits cfg fuel a (historyAlloc cfg definition) ts) ↔
      ¬DividesByZero cfg definition a := by
  have taken := historyExit_alloc_update_iff cfg definition a ts
  have zero : historyTimediff (historyAlloc cfg definition) ts = 0 := if_pos rfl
  unfold updateVisits
  cases exit : historyExit cfg a (historyAlloc cfg definition) ts
  case update =>
    obtain ⟨noCounter, intervals⟩ := taken.mp exit
    have divided : ∀ divisor, divisor ∈
        HistoryVisit.divisors ⟨historyAlloc cfg definition, a.totals, 0, false⟩ ↔
        divisor = 0 ∧ ∃ direction, a.totals direction ≠ 0 ∧
          a.totals direction ≠ historyUnknown := by
      intro divisor
      rw [mem_divisors_iff]
      refine and_congr_right fun _ => exists_congr fun direction => ?_
      have fresh : ((historyAlloc cfg definition).store direction).hsPrevTotal = 0 := by
        cases direction <;> rfl
      rw [fresh, UInt64.sub_zero, UInt64.pos_iff_ne_zero, and_comm]
    rw [zero]
    constructor
    · rintro positive ⟨-, -, total⟩
      exact lt_irrefl 0 (positive _ List.mem_cons_self 0 ((divided 0).mpr ⟨rfl, total⟩))
    · intro harmless visit member diff divides
      obtain rfl := List.mem_singleton.mp member
      exact absurd ⟨noCounter, intervals, ((divided diff).mp divides).2⟩ harmless
  case discard =>
    exact iff_of_true (dividesPositively_discardVisits _ _ _)
      fun zero => absurd (taken.mpr ⟨zero.noCounter, zero.intervals⟩) (by rw [exit]; decide)
  all_goals
    exact iff_of_true dividesPositively_nil
      fun zero => absurd (taken.mpr ⟨zero.noCounter, zero.intervals⟩) (by rw [exit]; decide)

/-- Where the first call comes too early, no later first call divides by zero either. -/
theorem not_dividesByZero_of_tooEarly {cfg : Config} {definition : HistoryDef} {a : Attr}
    {ts : Timestamp} (early : historyExit cfg a (historyAlloc cfg definition) ts = .tooEarly)
    (other : Attr) : ¬DividesByZero cfg definition other := by
  rintro ⟨-, intervals, -⟩
  have noCounter : a.aDef.adType ≠ .counter := by
    intro counter
    rw [historyExit_alloc, if_pos counter] at early
    cases early
  have taken := (historyExit_alloc_update_iff cfg definition a ts).mpr ⟨noCounter, intervals⟩
  rw [early] at taken
  cases taken

/-- Every division of a run is by a positive time exactly if the first call does not divide by
zero. The calls of a run on a new history come at strictly increasing times with a positive
number of seconds. -/
theorem runVisits_dividePositively_iff (cfg : Config) (fuel : Nat) (definition : HistoryDef)
    (calls : List (Attr × Timestamp)) (positive : ∀ call ∈ calls, 0 < call.2.tvSec)
    (increasing : calls.Pairwise fun earlier later => earlier.2.Before later.2) :
    DividesPositively (runVisits cfg fuel (historyAlloc cfg definition) calls) ↔
      ∀ first ∈ calls.head?, ¬DividesByZero cfg definition first.1 := by
  induction calls with
  | nil => exact iff_of_true dividesPositively_nil (by simp)
  | cons call calls inductionHypothesis =>
    have later : ∀ h steps, historyUpdate cfg fuel call.1 (historyAlloc cfg definition) call.2 =
        some (h, steps) → DividesPositively (runVisits cfg fuel h calls) := by
      intro h steps returned
      rcases historyUpdate_last returned with ⟨early, rfl⟩ | last
      · refine (inductionHypothesis ?_ (List.pairwise_cons.mp increasing).2).mpr
          fun first _ => not_dividesByZero_of_tooEarly early first.1
        exact fun other member => positive other (List.mem_cons_of_mem _ member)
      · exact (started_of_last last positive increasing).dividesPositively
    rw [dividesPositively_runVisits_cons, and_iff_left later, dividesPositively_alloc_iff]
    simp

/-- A percentage, under the first id handed out. -/
def percentDef : AttrDef := ⟨1, "load", "Load", .percent, {}⟩

/-- A percentage attribute at so many percent. -/
def percentAt (value : UInt64) : Attr :=
  { attrAlloc percentDef with aRxRate := { Rate.zero with rTotal := value } }

/-- Two calls on a percentage. -/
def percentCalls : List (Attr × Timestamp) := [(percentAt 40, ⟨1, 0⟩), (percentAt 60, ⟨2, 0⟩)]

/-- The first total of a percentage is divided by zero in a history whose interval is the read
interval, and the increment after it by the second that has passed. -/
theorem percent_divided_by_zero :
    (∀ call ∈ percentCalls, 0 < call.2.tvSec) ∧
      (percentCalls.Pairwise fun earlier later => earlier.2.Before later.2) ∧
      (runVisits (confInitPost {}) 1 (historyAlloc (confInitPost {}) secondDef)
        percentCalls).map HistoryVisit.divisors = [[0], [1]] := by
  decide +kernel

/-- Three calls on a counter. -/
def counterCalls : List (Attr × Timestamp) :=
  [(bytesAt 0, ⟨1, 0⟩), (bytesAt 300, ⟨2, 0⟩), (bytesAt 305, ⟨4, 0⟩)]

/-- A run of a counter divides by positive times only. -/
theorem runVisits_dividePositively_iff_counter :
    (runVisits (confInitPost {}) 1 (historyAlloc (confInitPost {}) secondDef)
        counterCalls).map HistoryVisit.divisors = [[1], [2]] ∧
      DividesPositively (runVisits (confInitPost {}) 1 (historyAlloc (confInitPost {}) secondDef)
        counterCalls) := by
  refine ⟨by decide +kernel, (runVisits_dividePositively_iff (confInitPost {}) 1 secondDef _
    (by decide) (by decide +kernel)).mpr fun first member => ?_⟩
  obtain rfl := Option.some.inj member
  exact fun divides => divides.noCounter rfl

end Bmon
