/-
This file holds runs of a system that takes one step for each operation of a list. An operation
that is not possible in a state gives no step, and ends the run.
-/

import Mathlib.Data.Option.Basic
import Mathlib.Order.Basic

namespace Runs

variable {State Operation : Type*} {step : State → Operation → Option State}

/-- The state after a list of operations, if all of them are possible. -/
def run (step : State → Operation → Option State) (st : State) (ops : List Operation) :
    Option State :=
  ops.foldlM step st

theorem run_append_eq (st : State) (first second : List Operation) :
    run step st (first ++ second) =
      (run step st first).bind fun middle => run step middle second :=
  List.foldlM_append

/-- A run of operations that stand for others. -/
theorem run_map {Other : Type*} (stands : Other → Operation) (st : State) (ops : List Other) :
    run step st (ops.map stands) = run (fun st op => step st (stands op)) st ops := by
  rw [run, run, List.foldlM_map]

theorem run_append {st last : State} {first second : List Operation} :
    run step st (first ++ second) = some last ↔
      ∃ middle, run step st first = some middle ∧ run step middle second = some last := by
  rw [run_append_eq]
  exact Option.bind_eq_some_iff

/-- What every step preserves holds after every run. -/
theorem run_invariant (invariant : State → Prop)
    (preserves : ∀ st op next, invariant st → step st op = some next → invariant next)
    {st last : State} {ops : List Operation} (initial : invariant st)
    (ran : run step st ops = some last) : invariant last := by
  induction ops generalizing st with
  | nil =>
    obtain rfl := Option.some.inj ran
    exact initial
  | cons op ops inductionHypothesis =>
    obtain ⟨next, stepped, rest⟩ := Option.bind_eq_some_iff.mp ran
    exact inductionHypothesis (preserves st op next initial stepped) rest

/-- Where a relation lets every step of one system be taken by another, it lets every run be. -/
theorem run_simulation {Other : Type*} {step' : Other → Operation → Option Other}
    (relation : Other → State → Prop)
    (simulates : ∀ other st op next, relation other st → step st op = some next →
      ∃ next', step' other op = some next' ∧ relation next' next)
    {st last : State} {other : Other} {ops : List Operation} (initial : relation other st)
    (ran : run step st ops = some last) :
    ∃ last', run step' other ops = some last' ∧ relation last' last := by
  induction ops generalizing st other with
  | nil =>
    obtain rfl := Option.some.inj ran
    exact ⟨other, rfl, initial⟩
  | cons op ops inductionHypothesis =>
    obtain ⟨next, stepped, rest⟩ := Option.bind_eq_some_iff.mp ran
    obtain ⟨next', stepped', related⟩ := simulates other st op next initial stepped
    obtain ⟨last', ran', kept⟩ := inductionHypothesis related rest
    exact ⟨last', Option.bind_eq_some_iff.mpr ⟨next', stepped', ran'⟩, kept⟩

/-- Where every step advances a value that goes with the state, a run does so operation by
operation. -/
theorem run_foldl {Other : Type*} (relation : Other → State → Prop)
    (advance : Other → Operation → Other) {ops : List Operation}
    (each : ∀ other st, ∀ op ∈ ops, ∀ next, relation other st → step st op = some next →
      relation (advance other op) next)
    {st last : State} {other : Other} (initial : relation other st)
    (ran : run step st ops = some last) : relation (ops.foldl advance other) last := by
  induction ops generalizing st other with
  | nil =>
    obtain rfl := Option.some.inj ran
    exact initial
  | cons op ops inductionHypothesis =>
    obtain ⟨next, stepped, rest⟩ := Option.bind_eq_some_iff.mp ran
    exact inductionHypothesis
      (fun other st op member => each other st op (List.mem_cons_of_mem _ member))
      (each other st op List.mem_cons_self next initial stepped) rest

/-- A part of the state that only some operations change makes a run of these operations. -/
theorem run_projection {View : Type*} {part : View → Operation → Option View}
    (view : State → View) (own : Operation → Bool) (invariant : State → Prop)
    {ops : List Operation}
    (each : ∀ st, ∀ op ∈ ops, ∀ next, invariant st → step st op = some next → invariant next ∧
      if own op then part (view st) op = some (view next) else view next = view st)
    {st last : State} (initial : invariant st) (ran : run step st ops = some last) :
    run part (view st) (ops.filter own) = some (view last) := by
  induction ops generalizing st with
  | nil =>
    obtain rfl := Option.some.inj ran
    rfl
  | cons op ops inductionHypothesis =>
    obtain ⟨next, stepped, rest⟩ := Option.bind_eq_some_iff.mp ran
    obtain ⟨kept, moved⟩ := each st op List.mem_cons_self next initial stepped
    have later := inductionHypothesis
      (fun st other member => each st other (List.mem_cons_of_mem _ member)) kept rest
    rw [List.filter_cons]
    split_ifs at moved ⊢ with isOwn
    · exact Option.bind_eq_some_iff.mpr ⟨view next, moved, later⟩
    · rw [← moved]
      exact later

/-- The rule of `run_invariant` where the steps preserve a property only for some operations. -/
theorem run_invariant_of_mem (invariant : State → Prop) {ops : List Operation}
    (preserves : ∀ st, ∀ op ∈ ops, ∀ next, invariant st → step st op = some next →
      invariant next)
    {st last : State} (initial : invariant st) (ran : run step st ops = some last) :
    invariant last := by
  induction ops generalizing st with
  | nil =>
    obtain rfl := Option.some.inj ran
    exact initial
  | cons op ops inductionHypothesis =>
    obtain ⟨next, stepped, rest⟩ := Option.bind_eq_some_iff.mp ran
    exact inductionHypothesis
      (fun st op member => preserves st op (List.mem_cons_of_mem _ member))
      (preserves st op List.mem_cons_self next initial stepped) rest

/-- What every step shows of its operation holds of all operations of a run. -/
theorem run_forall_of_mem (invariant : State → Prop) {shown : Operation → Prop}
    {ops : List Operation}
    (shows : ∀ st, ∀ op ∈ ops, ∀ next, invariant st → step st op = some next →
      shown op ∧ invariant next)
    {st last : State} (initial : invariant st) (ran : run step st ops = some last) :
    (∀ op ∈ ops, shown op) ∧ invariant last := by
  induction ops generalizing st with
  | nil =>
    obtain rfl := Option.some.inj ran
    exact ⟨nofun, initial⟩
  | cons op ops inductionHypothesis =>
    obtain ⟨next, stepped, rest⟩ := Option.bind_eq_some_iff.mp ran
    obtain ⟨first, kept⟩ := shows st op List.mem_cons_self next initial stepped
    obtain ⟨others, keptLast⟩ := inductionHypothesis
      (fun st other member => shows st other (List.mem_cons_of_mem _ member)) kept rest
    exact ⟨List.forall_mem_cons.mpr ⟨first, others⟩, keptLast⟩

/-- Where every step is possible with enough fuel, so is a run. -/
theorem run_returns {step : Nat → State → Operation → Option State} (invariant : State → Prop)
    {ops : List Operation}
    (each : ∀ st, ∀ op ∈ ops, invariant st → ∃ enough next, invariant next ∧
      ∀ fuel, enough ≤ fuel → step fuel st op = some next)
    {st : State} (initial : invariant st) :
    ∃ enough last, invariant last ∧ ∀ fuel, enough ≤ fuel → run (step fuel) st ops = some last := by
  induction ops generalizing st with
  | nil => exact ⟨0, st, initial, fun _ _ => rfl⟩
  | cons op ops inductionHypothesis =>
    obtain ⟨first, middle, kept, steps⟩ := each st op List.mem_cons_self initial
    obtain ⟨second, last, keptLast, runs⟩ := inductionHypothesis
      (fun st other member => each st other (List.mem_cons_of_mem _ member)) kept
    refine ⟨max first second, last, keptLast, fun fuel enough => ?_⟩
    rw [run, List.foldlM_cons, steps fuel (Nat.le_trans (Nat.le_max_left _ _) enough)]
    exact runs fuel (Nat.le_trans (Nat.le_max_right _ _) enough)

/-- What one operation of a run establishes and its steps keep holds at its end, along with
what all steps preserve. -/
theorem run_establishes (invariant holds : State → Prop) (op : Operation)
    {ops : List Operation}
    (preserves : ∀ st op next, invariant st → step st op = some next → invariant next)
    (establishes : ∀ st next, invariant st → step st op = some next → holds next)
    (keeps : ∀ st, ∀ op ∈ ops, ∀ next, invariant st → holds st → step st op = some next →
      holds next)
    {st last : State} (member : op ∈ ops) (initial : invariant st)
    (ran : run step st ops = some last) : invariant last ∧ holds last := by
  obtain ⟨first, second, rfl⟩ := List.append_of_mem member
  obtain ⟨middle, ranFirst, ranRest⟩ := run_append.mp ran
  obtain ⟨next, stepped, ranSecond⟩ := Option.bind_eq_some_iff.mp ranRest
  have before := run_invariant invariant preserves initial ranFirst
  refine run_invariant_of_mem (fun st => invariant st ∧ holds st) ?_
    ⟨preserves _ _ _ before stepped, establishes _ _ before stepped⟩ ranSecond
  exact fun st op inSecond next both stepped => ⟨preserves st op next both.1 stepped,
    keeps st op (List.mem_append_right _ (List.mem_cons_of_mem _ inSecond)) next both.1 both.2
      stepped⟩

/-! ### What the steps of a run put out -/

/-- What the operations of a list put out one after the other, up to the first one that is not
possible. -/
def outputs {Output : Type*} (output : State → Operation → List Output)
    (step : State → Operation → Option State) : State → List Operation → List Output
  | _, [] => []
  | st, op :: ops =>
    output st op ++
      match step st op with
      | some next => outputs output step next ops
      | none => []

section Outputs

variable {Output : Type*} {output : State → Operation → List Output}

/-- Where a first part of the operations is possible, the others put out the rest. -/
theorem outputs_append {st middle : State} {first second : List Operation}
    (ran : run step st first = some middle) :
    outputs output step st (first ++ second) =
      outputs output step st first ++ outputs output step middle second := by
  induction first generalizing st with
  | nil =>
    obtain rfl := Option.some.inj ran
    rfl
  | cons op first inductionHypothesis =>
    obtain ⟨next, stepped, rest⟩ := Option.bind_eq_some_iff.mp ran
    simp only [List.cons_append, outputs, stepped]
    rw [inductionHypothesis rest, List.append_assoc]

/-- Where no operation of a list puts out more than a bound, all of them together stay below a
bound as well. -/
theorem length_outputs_le {ops : List Operation} (bound : Operation → Nat)
    (each : ∀ st, ∀ op ∈ ops, (output st op).length ≤ bound op) (st : State) :
    (outputs output step st ops).length ≤ ops.foldr (fun op total => bound op + total) 0 := by
  induction ops generalizing st with
  | nil => exact Nat.le_refl 0
  | cons op ops inductionHypothesis =>
    have rest := inductionHypothesis
      fun st other member => each st other (List.mem_cons_of_mem _ member)
    rw [outputs, List.length_append, List.foldr_cons]
    refine Nat.add_le_add (each st op List.mem_cons_self) ?_
    cases step st op with
    | some next => exact rest next
    | none => exact Nat.zero_le _

/-- What every operation shows of what it puts out holds of all that a list of them puts out. -/
theorem outputs_forall (invariant : State → Prop) {shown : Output → Prop} {ops : List Operation}
    (shows : ∀ st, ∀ op ∈ ops, invariant st → ∀ out ∈ output st op, shown out)
    (preserves : ∀ st, ∀ op ∈ ops, ∀ next, invariant st → step st op = some next →
      invariant next)
    {st : State} (initial : invariant st) : ∀ out ∈ outputs output step st ops, shown out := by
  induction ops generalizing st with
  | nil => exact fun out member => by cases member
  | cons op ops inductionHypothesis =>
    rw [outputs, List.forall_mem_append]
    refine ⟨shows st op List.mem_cons_self initial, ?_⟩
    cases stepped : step st op with
    | none => exact fun out member => by cases member
    | some next =>
      exact inductionHypothesis
        (fun st other member => shows st other (List.mem_cons_of_mem _ member))
        (fun st other member => preserves st other (List.mem_cons_of_mem _ member))
        (preserves st op List.mem_cons_self next initial stepped)

end Outputs

/-! ### Conditions on the steps of a run -/

/-- Every step of a run meets a condition on the state it starts from and its operation. -/
def Every (step : State → Operation → Option State) (holds : State → Operation → Prop) :
    State → List Operation → Prop
  | _, [] => True
  | st, op :: ops => holds st op ∧ ∀ next, step st op = some next → Every step holds next ops

/-- A condition that implies another wherever an invariant holds does so along a run, if the
steps that meet it keep the invariant. -/
theorem Every.imp_of_mem (invariant : State → Prop) {first second : State → Operation → Prop}
    {ops : List Operation}
    (implies : ∀ st, ∀ op ∈ ops, invariant st → first st op → second st op)
    (preserves : ∀ st, ∀ op ∈ ops, ∀ next, invariant st → first st op → step st op = some next →
      invariant next)
    {st : State} (initial : invariant st) (every : Every step first st ops) :
    Every step second st ops := by
  induction ops generalizing st with
  | nil => trivial
  | cons op ops inductionHypothesis =>
    refine ⟨implies st op List.mem_cons_self initial every.1, fun next stepped => ?_⟩
    exact inductionHypothesis
      (fun st other member => implies st other (List.mem_cons_of_mem _ member))
      (fun st other member => preserves st other (List.mem_cons_of_mem _ member))
      (preserves st op List.mem_cons_self next initial every.1 stepped) (every.2 next stepped)

/-- The rule of `Every.imp_of_mem` where it does not matter which operations the run has. -/
theorem Every.imp (invariant : State → Prop) {first second : State → Operation → Prop}
    (implies : ∀ st op, invariant st → first st op → second st op)
    (preserves : ∀ st op next, invariant st → first st op → step st op = some next →
      invariant next)
    {st : State} {ops : List Operation} (initial : invariant st)
    (every : Every step first st ops) : Every step second st ops :=
  Every.imp_of_mem invariant (fun st op _ => implies st op) (fun st op _ => preserves st op)
    initial every

/-- Two conditions that agree wherever an invariant holds are met by the same runs, if the steps
that meet one of them keep the invariant. -/
theorem every_congr_of_mem (invariant : State → Prop) {first second : State → Operation → Prop}
    {ops : List Operation}
    (agree : ∀ st, ∀ op ∈ ops, invariant st → (first st op ↔ second st op))
    (preserves : ∀ st, ∀ op ∈ ops, ∀ next, invariant st → second st op → step st op = some next →
      invariant next)
    {st : State} (initial : invariant st) : Every step first st ops ↔ Every step second st ops :=
  ⟨Every.imp_of_mem invariant (fun st op member holds => (agree st op member holds).mp)
      (fun st op member next holds meets =>
        preserves st op member next holds ((agree st op member holds).mp meets))
      initial,
    Every.imp_of_mem invariant (fun st op member holds => (agree st op member holds).mpr)
      preserves initial⟩

/-- The rule of `every_congr_of_mem` where it does not matter which operations the run has. -/
theorem every_congr (invariant : State → Prop) {first second : State → Operation → Prop}
    (agree : ∀ st op, invariant st → (first st op ↔ second st op))
    (preserves : ∀ st op next, invariant st → second st op → step st op = some next →
      invariant next)
    {st : State} (initial : invariant st) (ops : List Operation) :
    Every step first st ops ↔ Every step second st ops :=
  every_congr_of_mem invariant (fun st op _ => agree st op) (fun st op _ => preserves st op) initial

/-- The condition holds wherever a part of the run leads. -/
theorem Every.of_run {holds : State → Operation → Prop} {st middle : State}
    {first : List Operation} {op : Operation} {rest : List Operation}
    (every : Every step holds st (first ++ op :: rest)) (ran : run step st first = some middle) :
    holds middle op := by
  induction first generalizing st with
  | nil =>
    obtain rfl := Option.some.inj ran
    exact every.1
  | cons other first inductionHypothesis =>
    obtain ⟨next, stepped, more⟩ := Option.bind_eq_some_iff.mp ran
    exact inductionHypothesis (every.2 next stepped) more

/-- A measure that no step lowers has its first value at the end of a run just when every step
leaves it alone. -/
theorem run_measure_eq_iff {Value : Type*} [PartialOrder Value] (invariant : State → Prop)
    (measure : State → Value) {holds : State → Operation → Prop}
    (preserves : ∀ st op next, invariant st → step st op = some next → invariant next)
    (rises : ∀ st op next, invariant st → step st op = some next →
      measure st ≤ measure next ∧ (measure next = measure st ↔ holds st op))
    {st last : State} {ops : List Operation} (initial : invariant st)
    (ran : run step st ops = some last) :
    measure st ≤ measure last ∧ (measure last = measure st ↔ Every step holds st ops) := by
  induction ops generalizing st with
  | nil =>
    obtain rfl := Option.some.inj ran
    exact ⟨le_rfl, iff_of_true rfl trivial⟩
  | cons op ops inductionHypothesis =>
    obtain ⟨next, stepped, rest⟩ := Option.bind_eq_some_iff.mp ran
    obtain ⟨first, same⟩ := rises st op next initial stepped
    obtain ⟨later, sameLater⟩ := inductionHypothesis (preserves st op next initial stepped) rest
    refine ⟨first.trans later, ?_, ?_⟩
    · intro equal
      have middle : measure next = measure st := le_antisymm (equal ▸ later) first
      refine ⟨same.mp middle, fun other stepped' => ?_⟩
      obtain rfl := Option.some.inj (stepped.symm.trans stepped')
      exact sameLater.mp (equal.trans middle.symm)
    · rintro ⟨meets, more⟩
      exact (sameLater.mpr (more next stepped)).trans (same.mpr meets)

/-- Where a condition can be decided, so can whether a run meets it. -/
instance decidableEvery (step : State → Operation → Option State)
    (holds : State → Operation → Prop) [∀ st op, Decidable (holds st op)] :
    ∀ st ops, Decidable (Every step holds st ops)
  | _, [] => inferInstanceAs (Decidable True)
  | st, op :: ops =>
    match stepped : step st op with
    | none =>
      decidable_of_iff (holds st op) ⟨fun meets => ⟨meets, fun next other => by
        rw [stepped] at other
        cases other⟩, And.left⟩
    | some next =>
      have := decidableEvery step holds next ops
      decidable_of_iff (holds st op ∧ Every step holds next ops)
        ⟨fun both => ⟨both.1, fun other same => by
          rw [stepped] at same
          obtain rfl := Option.some.inj same
          exact both.2⟩, fun both => ⟨both.1, both.2 next stepped⟩⟩

/-- A run whose steps meet a condition keeps what such steps preserve. -/
theorem Every.run_invariant (invariant : State → Prop) {holds : State → Operation → Prop}
    (preserves : ∀ st op next, invariant st → holds st op → step st op = some next →
      invariant next)
    {st last : State} {ops : List Operation} (every : Every step holds st ops)
    (initial : invariant st) (ran : run step st ops = some last) : invariant last := by
  induction ops generalizing st with
  | nil =>
    obtain rfl := Option.some.inj ran
    exact initial
  | cons op ops inductionHypothesis =>
    obtain ⟨next, stepped, rest⟩ := Option.bind_eq_some_iff.mp ran
    exact inductionHypothesis (every.2 next stepped)
      (preserves st op next initial every.1 stepped) rest

end Runs
