/-
This file holds loops over a list of items whose body can leave the loop early.

A pass through the body leaves a state and an output behind, and says whether it leaves the
loop. The outputs are kept in the order of the items, so that an item that the loop does not come
to any more has none.
-/

import Bmon.Lib.Runs
import Mathlib.Data.List.Basic

/-- What a pass through the body of a loop leaves behind. -/
structure Pass (State Output : Type*) where
  state : State
  output : Output
  leaves : Bool

namespace Pass

variable {State Output Item : Type*} {body : State → Item → Option (Pass State Output)}

/-- A loop over a list of items, with the outputs of its passes. It does not come to its end
when one of the passes does not. -/
def loop (body : State → Item → Option (Pass State Output)) :
    State → List Item → Option (Pass State (List Output))
  | st, [] => some ⟨st, [], false⟩
  | st, item :: items =>
    (body st item).bind fun pass =>
      if pass.leaves then some ⟨pass.state, [pass.output], true⟩
      else (loop body pass.state items).map fun rest =>
        ⟨rest.state, pass.output :: rest.output, rest.leaves⟩

/-- A loop over a list that is not empty makes one pass, and then leaves or goes on. -/
theorem loop_cons {st : State} {item : Item} {items : List Item}
    {last : Pass State (List Output)} (looped : loop body st (item :: items) = some last) :
    ∃ pass, body st item = some pass ∧
      ((pass.leaves = true ∧ last = ⟨pass.state, [pass.output], true⟩) ∨
        (pass.leaves = false ∧ ∃ rest, loop body pass.state items = some rest ∧
          last = ⟨rest.state, pass.output :: rest.output, rest.leaves⟩)) := by
  rw [loop] at looped
  obtain ⟨pass, passed, next⟩ := Option.bind_eq_some_iff.mp looped
  refine ⟨pass, passed, ?_⟩
  cases leaves : pass.leaves with
  | true =>
    rw [leaves, if_pos rfl] at next
    exact Or.inl ⟨rfl, (Option.some.inj next).symm⟩
  | false =>
    rw [leaves, if_neg Bool.false_ne_true] at next
    obtain ⟨rest, loopedRest, rfl⟩ := Option.map_eq_some_iff.mp next
    exact Or.inr ⟨rfl, rest, loopedRest, rfl⟩

/-- What every pass over an item of the list preserves, the loop preserves. -/
theorem loop_invariant (invariant : State → Prop) {items : List Item}
    (preserves : ∀ st, ∀ item ∈ items, ∀ pass, invariant st → body st item = some pass →
      invariant pass.state)
    {st : State} {last : Pass State (List Output)} (initial : invariant st)
    (looped : loop body st items = some last) : invariant last.state := by
  induction items generalizing st last with
  | nil =>
    obtain rfl := Option.some.inj looped
    exact initial
  | cons item items inductionHypothesis =>
    obtain ⟨pass, passed, next⟩ := loop_cons looped
    have kept := preserves st item List.mem_cons_self pass initial passed
    obtain ⟨-, rfl⟩ | ⟨-, rest, loopedRest, rfl⟩ := next
    · exact kept
    · have after := inductionHypothesis
        (fun st other member => preserves st other (List.mem_cons_of_mem _ member)) kept loopedRest
      exact after

/-- Where every pass is a run of the operations in its output, so is the loop. -/
theorem loop_run {Operation System : Type*} {step : System → Operation → Option System}
    (view : State → System) (operations : Output → List Operation) (invariant : State → Prop)
    {items : List Item} (each : ∀ st, ∀ item ∈ items, ∀ pass, invariant st →
      body st item = some pass → invariant pass.state ∧
        Runs.run step (view st) (operations pass.output) = some (view pass.state))
    {st : State} {last : Pass State (List Output)} (initial : invariant st)
    (looped : loop body st items = some last) :
    Runs.run step (view st) (last.output.flatMap operations) = some (view last.state) := by
  induction items generalizing st last with
  | nil =>
    obtain rfl := Option.some.inj looped
    rfl
  | cons item items inductionHypothesis =>
    obtain ⟨pass, passed, next⟩ := loop_cons looped
    obtain ⟨kept, ran⟩ := each st item List.mem_cons_self pass initial passed
    obtain ⟨-, rfl⟩ | ⟨-, rest, loopedRest, rfl⟩ := next
    · rw [List.flatMap_singleton]
      exact ran
    · rw [List.flatMap_cons]
      exact Runs.run_append.mpr ⟨_, ran, inductionHypothesis
        (fun st other member => each st other (List.mem_cons_of_mem _ member)) kept loopedRest⟩

/-- Where every pass comes to its end with enough fuel, so does the loop. -/
theorem loop_returns (body : Nat → State → Item → Option (Pass State Output))
    (invariant : State → Prop) (items : List Item)
    (each : ∀ st, ∀ item ∈ items, invariant st → ∃ enough after leaves, invariant after ∧
      ∀ fuel, enough ≤ fuel → ∃ output, body fuel st item = some ⟨after, output, leaves⟩)
    {st : State} (initial : invariant st) :
    ∃ enough after leaves, invariant after ∧
      ∀ fuel, enough ≤ fuel → ∃ outputs, loop (body fuel) st items =
        some ⟨after, outputs, leaves⟩ := by
  induction items generalizing st with
  | nil => exact ⟨0, st, false, initial, fun _ _ => ⟨[], rfl⟩⟩
  | cons item items inductionHypothesis =>
    obtain ⟨first, middle, leaves, kept, passes⟩ := each st item List.mem_cons_self initial
    cases leaves with
    | true =>
      refine ⟨first, middle, true, kept, fun fuel enough => ?_⟩
      obtain ⟨output, passed⟩ := passes fuel enough
      exact ⟨[output], by rw [loop, passed]; rfl⟩
    | false =>
      obtain ⟨second, after, leaves, keptRest, loops⟩ := inductionHypothesis
        (fun st other member => each st other (List.mem_cons_of_mem _ member)) kept
      refine ⟨max first second, after, leaves, keptRest, fun fuel enough => ?_⟩
      obtain ⟨output, passed⟩ := passes fuel (Nat.le_trans (Nat.le_max_left _ _) enough)
      obtain ⟨outputs, looped⟩ := loops fuel (Nat.le_trans (Nat.le_max_right _ _) enough)
      exact ⟨output :: outputs, by
        rw [loop, passed, Option.bind_some, if_neg Bool.false_ne_true, looped, Option.map_some]⟩

/-- How the passes of a loop work together. Each item is ready when its pass begins, as long as
the passes over the items before it keep it so; a pass leaves the loop for the items that stop
it, its work is done then, and later passes do not undo it. -/
structure Cooperates (body : State → Item → Option (Pass State Output))
    (invariant : State → Prop) (ready : State → Item → Prop) (stops : Item → Prop)
    (done : State → Item → Output → Prop) (apart : Item → Item → Prop) : Prop where
  step : ∀ st item pass, invariant st → ready st item → body st item = some pass →
    invariant pass.state ∧ (pass.leaves = true ↔ stops item) ∧
      done pass.state item pass.output
  keeps : ∀ st item pass other, invariant st → ready st item → body st item = some pass →
    apart item other → ready st other → ready pass.state other
  stays : ∀ st item pass other output, invariant st → ready st item → body st item = some pass →
    apart other item → done st other output → done pass.state other output

section Cooperates

variable {invariant : State → Prop} {ready : State → Item → Prop} {stops : Item → Prop}
variable {done : State → Item → Output → Prop} {apart : Item → Item → Prop}
variable (cooperates : Cooperates body invariant ready stops done apart)
variable {items : List Item} (different : items.Pairwise apart) {st : State}
variable {last : Pass State (List Output)} (initial : invariant st)
variable (allReady : ∀ item ∈ items, ready st item) (looped : loop body st items = some last)

include cooperates different initial allReady looped

/-- A loop keeps its invariant and leaves early for the items that stop it, and keeps what was
done for other items before. -/
theorem Cooperates.loop_state :
    invariant last.state ∧ (last.leaves = true ↔ ∃ item ∈ items, stops item) ∧
      ∀ other output, (∀ item ∈ items, apart other item) → done st other output →
        done last.state other output := by
  induction items generalizing st last with
  | nil =>
    obtain rfl := Option.some.inj looped
    refine ⟨initial, ?_, fun _ _ _ before => before⟩
    exact iff_of_false Bool.false_ne_true fun ⟨item, member, _⟩ => by cases member
  | cons first items inductionHypothesis =>
    obtain ⟨apartFirst, differentRest⟩ := List.pairwise_cons.mp different
    obtain ⟨pass, passed, next⟩ := loop_cons looped
    have readyFirst := allReady first List.mem_cons_self
    obtain ⟨kept, leavesIff, -⟩ := cooperates.step st first pass initial readyFirst passed
    have stays : ∀ other output, (∀ item ∈ first :: items, apart other item) →
        done st other output → done pass.state other output := fun other output far =>
      cooperates.stays st first pass other output initial readyFirst passed
        (far first List.mem_cons_self)
    obtain ⟨leaves, rfl⟩ | ⟨goesOn, rest, loopedRest, rfl⟩ := next
    · exact ⟨kept, iff_of_true rfl ⟨first, List.mem_cons_self, leavesIff.mp leaves⟩, stays⟩
    · obtain ⟨keptRest, leavesRest, staysRest⟩ := inductionHypothesis differentRest kept
        (fun item member => cooperates.keeps st first pass item initial readyFirst passed
          (apartFirst item member) (allReady item (List.mem_cons_of_mem _ member))) loopedRest
      refine ⟨keptRest, leavesRest.trans ?_, fun other output far before =>
        staysRest other output (fun item member => far item (List.mem_cons_of_mem _ member))
          (stays other output far before)⟩
      have works : ¬stops first := fun stop => by
        rw [leavesIff.mpr stop] at goesOn
        cases goesOn
      simp [works]

/-- The work of a loop is done for the items up to the first that stops it. -/
theorem Cooperates.loop_output {i : Nat} {item : Item} (isItem : items[i]? = some item) :
    ((∀ j < i, ∀ other, items[j]? = some other → ¬stops other) →
      ∃ output, last.output[i]? = some output ∧ done last.state item output) ∧
    ∀ j < i, ∀ other, items[j]? = some other → stops other → last.output[i]? = none := by
  induction items generalizing st last i with
  | nil => cases isItem
  | cons first items inductionHypothesis =>
    obtain ⟨apartFirst, differentRest⟩ := List.pairwise_cons.mp different
    obtain ⟨pass, passed, next⟩ := loop_cons looped
    have readyFirst := allReady first List.mem_cons_self
    obtain ⟨kept, leavesIff, doneFirst⟩ :=
      cooperates.step st first pass initial readyFirst passed
    have readyRest : ∀ item ∈ items, ready pass.state item := fun item member =>
      cooperates.keeps st first pass item initial readyFirst passed (apartFirst item member)
        (allReady item (List.mem_cons_of_mem _ member))
    cases i with
    | zero =>
      obtain rfl := Option.some.inj isItem
      refine ⟨fun _ => ?_, fun j less => absurd less (Nat.not_lt_zero j)⟩
      obtain ⟨-, rfl⟩ | ⟨-, rest, loopedRest, rfl⟩ := next
      · exact ⟨pass.output, rfl, doneFirst⟩
      · exact ⟨pass.output, rfl, (cooperates.loop_state differentRest kept readyRest
          loopedRest).2.2 _ _ apartFirst doneFirst⟩
    | succ i =>
      obtain ⟨leaves, rfl⟩ | ⟨goesOn, rest, loopedRest, rfl⟩ := next
      · exact ⟨fun none => absurd (leavesIff.mp leaves) (none 0 (Nat.succ_pos i) first rfl),
          fun _ _ _ _ _ => rfl⟩
      · obtain ⟨reached, skipped⟩ :=
          inductionHypothesis differentRest kept readyRest loopedRest isItem
        refine ⟨fun none => reached fun j less other isOther =>
          none (j + 1) (Nat.succ_lt_succ less) other isOther, fun j less other isOther stop => ?_⟩
        cases j with
        | zero =>
          obtain rfl := Option.some.inj isOther
          rw [leavesIff.mpr stop] at goesOn
          cases goesOn
        | succ j => exact skipped j (Nat.lt_of_succ_lt_succ less) other isOther stop

end Cooperates

/-- A loop that counts: it leaves for the numbers that stop it, and its work is done for the
numbers up to the first of them. -/
theorem Cooperates.loop_range {body : State → Nat → Option (Pass State Output)} {count : Nat}
    {invariant : State → Prop} {ready : State → Nat → Prop} {stops : Nat → Prop}
    {done : State → Nat → Output → Prop}
    (cooperates : Cooperates body invariant ready stops done
      fun m n => m ≠ n ∧ m < count ∧ n < count)
    {st : State} {last : Pass State (List Output)} (initial : invariant st)
    (allReady : ∀ n < count, ready st n)
    (looped : loop body st (List.range count) = some last) :
    invariant last.state ∧ (last.leaves = true ↔ ∃ n < count, stops n) ∧
      ∀ n < count, ((∀ m < n, ¬stops m) →
          ∃ output, last.output[n]? = some output ∧ done last.state n output) ∧
        ∀ m < n, stops m → last.output[n]? = none := by
  have different : (List.range count).Pairwise fun m n => m ≠ n ∧ m < count ∧ n < count :=
    List.nodup_range.imp_of_mem fun less less' apart =>
      ⟨apart, List.mem_range.mp less, List.mem_range.mp less'⟩
  have ready : ∀ n ∈ List.range count, ready st n := fun n member =>
    allReady n (List.mem_range.mp member)
  have isNumber : ∀ {n}, n < count → (List.range count)[n]? = some n := fun less =>
    List.getElem?_range less
  obtain ⟨kept, leaves, -⟩ := cooperates.loop_state different initial ready looped
  simp only [List.mem_range] at leaves
  refine ⟨kept, leaves, fun n less => ?_⟩
  obtain ⟨reached, missed⟩ :=
    cooperates.loop_output different initial ready looped (isNumber less)
  refine ⟨fun none => reached fun m before other isOther => ?_, fun m before stop =>
    missed m before m (isNumber (Nat.lt_trans before less)) stop⟩
  rw [isNumber (Nat.lt_trans before less)] at isOther
  exact Option.some.inj isOther ▸ none m before

end Pass
