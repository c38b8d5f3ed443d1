/-
This file holds walks that descend from a node to its children, the children of its children and
so on, without remembering where they have been. A walk threads a state, and hands a context down
that it gets where it enters a node; a node that it is turned away from has nothing below.

Such a walk comes to its end just when no node below its start, or the start itself, is found
again below itself.
-/

import Bmon.Lib.Runs
import Mathlib.Data.Fintype.Card
import Mathlib.Logic.Relation

namespace Descent

/-! ### Nodes and their children -/

section Nodes

variable {Node : Type*} (children : Node → List Node)

/-- A node is a child of another one. -/
def IsChild (child node : Node) : Prop := child ∈ children node

/-- A node is reached from another one by going down any number of times. -/
def Reaches : Node → Node → Prop := Relation.ReflTransGen fun node child => child ∈ children node

/-- A node is found again below itself. -/
def Recurs (node : Node) : Prop :=
  Relation.TransGen (fun node child => child ∈ children node) node node

variable {children}

/-- What is reached from an accessible node is accessible. -/
theorem Reaches.acc {start node : Node} (reaches : Reaches children start node)
    (accessible : Acc (IsChild children) start) : Acc (IsChild children) node := by
  induction reaches with
  | refl => exact accessible
  | tail _ child inductionHypothesis => exact inductionHypothesis.inv child

/-- An accessible node is not found again below itself. -/
theorem not_recurs_of_acc {node : Node} (accessible : Acc (IsChild children) node) :
    ¬ Recurs children node := by
  induction accessible with
  | intro node _ inductionHypothesis =>
    intro recurs
    obtain ⟨child, isChild, back⟩ := Relation.TransGen.head'_iff.mp recurs
    exact inductionHypothesis child isChild (Relation.TransGen.tail' back isChild)

/-- Among finitely many nodes, those are accessible from which no node is reached that is found
again below itself. -/
theorem acc_iff {start : Node} (finite : {node | Reaches children start node}.Finite) :
    Acc (IsChild children) start ↔
      ∀ node, Reaches children start node → ¬ Recurs children node := by
  refine ⟨fun accessible node reaches => not_recurs_of_acc (reaches.acc accessible), fun free => ?_⟩
  have : Finite {node | Reaches children start node} := finite
  let below (lower upper : {node | Reaches children start node}) : Prop :=
    Relation.TransGen (fun node child => child ∈ children node) upper.1 lower.1
  have : IsTrans _ below := ⟨fun _ _ _ first second => second.trans first⟩
  have : Std.Irrefl below := ⟨fun node recurs => free node.1 node.2 recurs⟩
  have wellFounded := Finite.wellFounded_of_trans_of_irrefl below
  have accessible (node : {node | Reaches children start node}) :
      Acc (IsChild children) node.1 := by
    induction wellFounded.apply node with
    | intro node _ inductionHypothesis =>
      refine ⟨_, fun child isChild => ?_⟩
      exact inductionHypothesis ⟨child, node.2.tail isChild⟩ (Relation.TransGen.single isChild)
  exact accessible ⟨start, .refl⟩

end Nodes

/-! ### Walks -/

section Walks

variable {State Context Node : Type*}

/-- A walk through a node and all below it. It enters the node, which changes the state and gives
the context for the children, unless the walk is turned away; then it visits the children one
after the other. The fuel bounds how far down it gets. -/
def walk (enter : Nat → Context → State → Node → Option (State × Option Context))
    (children : Node → List Node) : Nat → Context → State → Node → Option State
  | 0, _, _, _ => none
  | fuel + 1, context, st, node =>
    (enter fuel context st node).bind fun entered =>
      match entered.2 with
      | none => some entered.1
      | some below =>
        Runs.run (walk enter children fuel below) entered.1 (children node)

/-- The nodes that a walk comes to, as far as it gets. -/
def visits (enter : Nat → Context → State → Node → Option (State × Option Context))
    (children : Node → List Node) : Nat → Context → State → Node → List Node
  | 0, _, _, _ => []
  | fuel + 1, context, st, node =>
    node :: match enter fuel context st node with
      | some (st, some below) =>
        Runs.outputs (visits enter children fuel below) (walk enter children fuel below) st
          (children node)
      | _ => []

/-- Some nodes can be entered: with enough fuel this gives a context, and keeps an invariant. -/
structure Enters (enter : Nat → Context → State → Node → Option (State × Option Context))
    (invariant : State → Prop) (node : Node) : Prop where
  keeps : ∀ fuel context st entered, invariant st → enter fuel context st node = some entered →
    invariant entered.1 ∧ entered.2.isSome
  returns : ∀ context st, invariant st →
    ∃ enough entered, ∀ fuel, enough ≤ fuel → enter fuel context st node = some entered

variable {enter : Nat → Context → State → Node → Option (State × Option Context)}
variable {children : Node → List Node} {invariant : State → Prop}

/-- Where a walk comes to its end, so do those through the children, all with the invariant. -/
theorem acc_of_walk {start : Node}
    (enters : ∀ node, Reaches children start node → Enters enter invariant node) {fuel : Nat}
    {context : Context} {st last : State} (initial : invariant st)
    (walked : walk enter children fuel context st start = some last) :
    Acc (IsChild children) start ∧ invariant last := by
  induction fuel generalizing start context st last with
  | zero => cases walked
  | succ fuel inductionHypothesis =>
    rw [walk] at walked
    obtain ⟨⟨st', below⟩, entered, rest⟩ := Option.bind_eq_some_iff.mp walked
    obtain ⟨kept, isSome⟩ := (enters start .refl).keeps fuel context st _ initial entered
    obtain ⟨below, rfl⟩ := Option.isSome_iff_exists.mp isSome
    obtain ⟨accessible, keptLast⟩ := Runs.run_forall_of_mem invariant
      (fun st child isChild next kept walkedChild => inductionHypothesis
        (fun node reaches => enters node (.head isChild reaches)) kept walkedChild) kept rest
    exact ⟨⟨_, accessible⟩, keptLast⟩

/-- From an accessible node a walk comes to its end, even where it is turned away from nodes below,
if each of these either way is done with at some time. -/
theorem walk_ends {start : Node} (accessible : Acc (IsChild children) start)
    (keeps : ∀ node, Reaches children start node → ∀ fuel context st entered, invariant st →
      enter fuel context st node = some entered → invariant entered.1)
    (enters : ∀ node, Reaches children start node → ∀ context st, invariant st →
      ∃ enough entered, ∀ fuel, enough ≤ fuel → enter fuel context st node = some entered)
    (context : Context) {st : State} (initial : invariant st) :
    ∃ enough last, invariant last ∧
      ∀ fuel, enough ≤ fuel → walk enter children fuel context st start = some last := by
  induction accessible generalizing context st with
  | intro start _ inductionHypothesis =>
    obtain ⟨first, ⟨st', below⟩, returns⟩ := enters start .refl context st initial
    have kept := keeps start .refl first context st _ initial (returns first le_rfl)
    cases below with
    | none =>
      refine ⟨first + 1, st', kept, fun fuel enough => ?_⟩
      obtain ⟨fuel, rfl⟩ : ∃ n, fuel = n + 1 := ⟨fuel - 1, by omega⟩
      rw [walk, returns fuel (Nat.le_of_succ_le_succ enough)]
      rfl
    | some below =>
      obtain ⟨second, last, keptLast, returnsRest⟩ := Runs.run_returns invariant
        (fun st child isChild kept => inductionHypothesis child isChild
          (fun node reaches => keeps node (.head isChild reaches))
          (fun node reaches => enters node (.head isChild reaches)) below kept) kept
      refine ⟨max first second + 1, last, keptLast, fun fuel enough => ?_⟩
      obtain ⟨fuel, rfl⟩ : ∃ n, fuel = n + 1 := ⟨fuel - 1, by omega⟩
      have more : max first second ≤ fuel := Nat.le_of_succ_le_succ enough
      rw [walk, returns fuel ((le_max_left _ _).trans more)]
      exact returnsRest fuel ((le_max_right _ _).trans more)

/-- From an accessible node a walk through nodes that can be entered comes to its end. -/
theorem walk_returns {start : Node} (accessible : Acc (IsChild children) start)
    (enters : ∀ node, Reaches children start node → Enters enter invariant node)
    (context : Context) {st : State} (initial : invariant st) :
    ∃ enough last, invariant last ∧
      ∀ fuel, enough ≤ fuel → walk enter children fuel context st start = some last :=
  walk_ends accessible
    (fun node reaches fuel context st entered kept returned =>
      ((enters node reaches).keeps fuel context st entered kept returned).1)
    (fun node reaches => (enters node reaches).returns) context initial

/-- Walks from several nodes, all below which can be entered, come to their end one after the
other just when these nodes are accessible. -/
theorem walks_return_iff {starts : List Node}
    (enters : ∀ start ∈ starts, ∀ node, Reaches children start node →
      Enters enter invariant node)
    (context : Context) {st : State} (initial : invariant st) :
    (∃ fuel, (Runs.run (walk enter children fuel context) st starts).isSome) ↔
      ∀ start ∈ starts, Acc (IsChild children) start := by
  constructor
  · rintro ⟨fuel, returned⟩
    obtain ⟨last, ran⟩ := Option.isSome_iff_exists.mp returned
    exact (Runs.run_forall_of_mem invariant (fun st start isStart next kept walked =>
      acc_of_walk (enters start isStart) kept walked) initial ran).1
  · intro accessible
    obtain ⟨enough, last, -, returns⟩ := Runs.run_returns invariant
      (fun st start isStart kept =>
        walk_returns (accessible start isStart) (enters start isStart) context kept) initial
    exact ⟨enough, Option.isSome_iff_exists.mpr ⟨last, returns enough le_rfl⟩⟩

/-! ### What a walk puts out -/

/-- What a walk puts out where it enters its nodes, as far as it gets. -/
def log {Output : Type*} (emit : Nat → Context → State → Node → List Output)
    (enter : Nat → Context → State → Node → Option (State × Option Context))
    (children : Node → List Node) : Nat → Context → State → Node → List Output
  | 0, _, _, _ => []
  | fuel + 1, context, st, node =>
    emit fuel context st node ++
      match enter fuel context st node with
      | some (st, some below) =>
        Runs.outputs (log emit enter children fuel below) (walk enter children fuel below) st
          (children node)
      | _ => []

/-- What holds of the contexts that a walk hands down, in whatever state it uses them: entering a
node leads to a later state, in which the new context is fine, and a context stays fine in later
states. -/
structure Hands (enter : Nat → Context → State → Node → Option (State × Option Context))
    (fine : Context → State → Prop) (later : State → State → Prop) : Prop where
  refl : ∀ context st, fine context st → later st st
  trans : ∀ st next last, later st next → later next last → later st last
  stays : ∀ context st next, fine context st → later st next → fine context next
  enters : ∀ fuel context st node entered, fine context st →
    enter fuel context st node = some entered →
      later st entered.1 ∧ ∀ below ∈ entered.2, fine below entered.1

section Hands

variable {fine : Context → State → Prop} {later : State → State → Prop}
variable (hands : Hands enter fine later)

include hands

/-- A walk leads to a later state. -/
theorem Hands.walk {fuel : Nat} {context : Context} {st last : State} {node : Node}
    (isFine : fine context st) (walked : walk enter children fuel context st node = some last) :
    later st last := by
  induction fuel generalizing context st last node with
  | zero => cases walked
  | succ fuel inductionHypothesis =>
    rw [Descent.walk] at walked
    obtain ⟨⟨st', below⟩, entered, rest⟩ := Option.bind_eq_some_iff.mp walked
    obtain ⟨first, fineBelow⟩ := hands.enters fuel context st node _ isFine entered
    cases below with
    | none =>
      obtain rfl := Option.some.inj rest
      exact first
    | some below =>
      have initial := fineBelow below rfl
      refine hands.trans _ _ _ first (Runs.run_invariant (fun other => later st' other)
        (fun other child next before walkedChild => ?_) (hands.refl below st' initial) rest)
      exact hands.trans _ _ _ before
        (inductionHypothesis (hands.stays below st' other initial before) walkedChild)

/-- So do walks from several nodes. -/
theorem Hands.walks {fuel : Nat} {context : Context} {st last : State} {nodes : List Node}
    (isFine : fine context st)
    (walked : Runs.run (Descent.walk enter children fuel context) st nodes = some last) :
    later st last :=
  Runs.run_invariant (fun other => later st other)
    (fun _ _ _ before walkedNode => hands.trans _ _ _ before
      (hands.walk (hands.stays context st _ isFine before) walkedNode))
    (hands.refl context st isFine) walked

variable {Output : Type*} {emit : Nat → Context → State → Node → List Output}
variable {shown : Output → Prop}
variable (shows : ∀ fuel context st node, fine context st →
  ∀ out ∈ emit fuel context st node, shown out)

include shows

/-- What holds of all that is put out where a context is fine holds of all that a walk puts out. -/
theorem Hands.log {fuel : Nat} {context : Context} {st : State} {node : Node}
    (isFine : fine context st) :
    ∀ out ∈ Descent.log emit enter children fuel context st node, shown out := by
  induction fuel generalizing context st node with
  | zero => exact fun out member => by cases member
  | succ fuel inductionHypothesis =>
    rw [Descent.log, List.forall_mem_append]
    refine ⟨shows fuel context st node isFine, ?_⟩
    split
    · next st' below entered =>
      obtain ⟨-, fineBelow⟩ := hands.enters fuel context st node _ isFine entered
      exact Runs.outputs_forall (fine below) (fun _ _ _ fineHere => inductionHypothesis fineHere)
        (fun other child _ next fineHere walked =>
          hands.stays below other next fineHere (hands.walk fineHere walked)) (fineBelow below rfl)
    · exact fun out member => by cases member

/-- So it does of all that walks from several nodes put out. -/
theorem Hands.logs {fuel : Nat} {context : Context} {st : State} {nodes : List Node}
    (isFine : fine context st) :
    ∀ out ∈ Runs.outputs (Descent.log emit enter children fuel context)
      (Descent.walk enter children fuel context) st nodes, shown out :=
  Runs.outputs_forall (fine context) (fun _ _ _ fineHere => hands.log shows fineHere)
    (fun other _ _ next fineHere walked =>
      hands.stays context other next fineHere (hands.walk fineHere walked)) isFine

end Hands

/-! ### How many nodes a walk comes to -/

variable (enter) in
/-- Where the walks from some nodes come to a bounded number of nodes each, so do all of them, one
after the other. -/
theorem outputs_bounded {nodes : List Node}
    (each : ∀ node ∈ nodes, ∃ bound, ∀ fuel context st,
      (visits enter children fuel context st node).length ≤ bound) :
    ∃ bound, ∀ fuel context st, (Runs.outputs (visits enter children fuel context)
      (walk enter children fuel context) st nodes).length ≤ bound := by
  have total : ∀ node, ∃ bound, node ∈ nodes → ∀ fuel context st,
      (visits enter children fuel context st node).length ≤ bound := fun node => by
    by_cases member : node ∈ nodes
    · obtain ⟨bound, bounded⟩ := each node member
      exact ⟨bound, fun _ => bounded⟩
    · exact ⟨0, fun other => absurd other member⟩
  choose bound bounded using total
  exact ⟨_, fun fuel context => Runs.length_outputs_le bound
    fun st node member => bounded node member fuel context st⟩

variable (enter) in
/-- From an accessible node a walk comes to a bounded number of nodes, however much fuel it has. -/
theorem visits_bounded {start : Node} (accessible : Acc (IsChild children) start) :
    ∃ bound, ∀ fuel context st, (visits enter children fuel context st start).length ≤ bound := by
  induction accessible with
  | intro start _ inductionHypothesis =>
    obtain ⟨bound, bounded⟩ := outputs_bounded enter inductionHypothesis
    refine ⟨bound + 1, fun fuel context st => ?_⟩
    cases fuel with
    | zero => exact Nat.zero_le _
    | succ fuel =>
      rw [visits, List.length_cons]
      refine Nat.succ_le_succ ?_
      split
      · exact bounded fuel _ _
      · exact Nat.zero_le _

/-- Where a walk from a node that is not accessible comes to many nodes, so do walks from several
nodes, if one of them is not accessible. -/
theorem outputs_unbounded {nodes : List Node} {count : Nat}
    (inaccessible : ¬ ∀ node ∈ nodes, Acc (IsChild children) node)
    (enters : ∀ start ∈ nodes, ∀ node, Reaches children start node → Enters enter invariant node)
    (context : Context) {st : State} (initial : invariant st)
    (many : ∀ node ∈ nodes, ¬ Acc (IsChild children) node → ∀ st, invariant st →
      ∃ enough, ∀ fuel, enough ≤ fuel →
        count ≤ (visits enter children fuel context st node).length) :
    ∃ enough, ∀ fuel, enough ≤ fuel →
      count ≤ (Runs.outputs (visits enter children fuel context)
        (walk enter children fuel context) st nodes).length := by
  -- the walks from the nodes before the first one that is not accessible come to their end
  obtain ⟨node, front, rest, rfl, isFirst, accessible⟩ :
      ∃ node front rest, nodes = front ++ node :: rest ∧ ¬ Acc (IsChild children) node ∧
        ∀ other ∈ front, Acc (IsChild children) other := by
    classical
    cases found : nodes.find? fun other => ¬ Acc (IsChild children) other with
    | none =>
      refine absurd (fun other member => ?_) inaccessible
      simpa using List.find?_eq_none.mp found other member
    | some node =>
      obtain ⟨isFirst, front, rest, split, others⟩ := List.find?_eq_some_iff_append.mp found
      exact ⟨node, front, rest, split, by simpa using isFirst,
        fun other member => by simpa using others other member⟩
  obtain ⟨first, middle, kept, passes⟩ := Runs.run_returns invariant
    (fun st other member kept => walk_returns (accessible other member)
      (enters other (List.mem_append_left _ member)) context kept) initial
  obtain ⟨second, found⟩ :=
    many node (List.mem_append_right _ List.mem_cons_self) isFirst middle kept
  refine ⟨max first second, fun fuel enough => ?_⟩
  have passed := passes fuel ((le_max_left _ _).trans enough)
  rw [Runs.outputs_append passed, Runs.outputs, List.length_append, List.length_append]
  have more := found fuel ((le_max_right _ _).trans enough)
  omega

/-- From a node that is not accessible a walk comes to any number of nodes, if it has enough
fuel. -/
theorem visits_unbounded {start : Node} (inaccessible : ¬ Acc (IsChild children) start)
    (enters : ∀ node, Reaches children start node → Enters enter invariant node)
    (context : Context) {st : State} (initial : invariant st) (count : Nat) :
    ∃ enough, ∀ fuel, enough ≤ fuel →
      count ≤ (visits enter children fuel context st start).length := by
  induction count generalizing start context st with
  | zero => exact ⟨0, fun _ _ => Nat.zero_le _⟩
  | succ count inductionHypothesis =>
    obtain ⟨first, ⟨st', below⟩, returns⟩ := (enters start .refl).returns context st initial
    obtain ⟨kept, isSome⟩ :=
      (enters start .refl).keeps first context st _ initial (returns first le_rfl)
    obtain ⟨below, rfl⟩ := Option.isSome_iff_exists.mp isSome
    have entersBelow : ∀ child ∈ children start, ∀ node, Reaches children child node →
        Enters enter invariant node := fun child isChild node reaches =>
      enters node (.head isChild reaches)
    obtain ⟨second, many⟩ := outputs_unbounded
      (fun accessible => inaccessible ⟨start, accessible⟩) entersBelow below kept
      fun child isChild inaccessibleChild st kept =>
        inductionHypothesis inaccessibleChild (entersBelow child isChild) below kept
    refine ⟨max first second + 1, fun fuel enough => ?_⟩
    obtain ⟨fuel, rfl⟩ : ∃ n, fuel = n + 1 := ⟨fuel - 1, by omega⟩
    have more : max first second ≤ fuel := Nat.le_of_succ_le_succ enough
    rw [visits, returns fuel ((le_max_left _ _).trans more), List.length_cons]
    exact Nat.succ_le_succ (many fuel ((le_max_right _ _).trans more))

/-- Walks from several nodes come to a bounded number of nodes just when these are accessible. -/
theorem outputs_bounded_iff {starts : List Node}
    (enters : ∀ start ∈ starts, ∀ node, Reaches children start node →
      Enters enter invariant node)
    (context : Context) {st : State} (initial : invariant st) :
    (∃ bound, ∀ fuel, (Runs.outputs (visits enter children fuel context)
        (walk enter children fuel context) st starts).length ≤ bound) ↔
      ∀ start ∈ starts, Acc (IsChild children) start := by
  constructor
  · rintro ⟨bound, bounded⟩
    by_contra inaccessible
    obtain ⟨enough, many⟩ := outputs_unbounded inaccessible enters context initial
      fun start isStart inaccessibleStart st kept =>
        visits_unbounded inaccessibleStart (enters start isStart) context kept (bound + 1)
    exact absurd ((many enough le_rfl).trans (bounded enough)) (Nat.not_succ_le_self bound)
  · intro accessible
    obtain ⟨bound, bounded⟩ := outputs_bounded enter fun start isStart =>
      visits_bounded enter (accessible start isStart)
    exact ⟨bound, fun fuel => bounded fuel context st⟩

end Walks

end Descent
