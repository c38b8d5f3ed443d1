/-
This file holds the turns of the main loop in which `proc` is the input module.

A read is a run over the lines that it accepts, which are those of the interfaces in the file
before the first denied one: the others leave no trace. A turn is such a run between the reset of
the flags and the sweep, and its calls are calls of the program. With the attributes defined and
positive intervals of the histories any number of turns is made, whatever the file holds in each of
them.
-/

import Bmon.InputReads
import Bmon.Lifetime
import Bmon.Evolution
import Bmon.SweepExact

namespace Bmon

/-! ### A read as a run -/

/-- The lines that a read accepts: those of the interfaces in the file up to the first that is
denied. -/
def acceptedLines (allows : CString → Bool) (content : List Char) : List ProcLine :=
  (((fgetsAll 511 content.length content).drop 2).filterMap parseProcLine).takeWhile
    fun line => allows line.name

/-- What is done for a line of an interface that is not denied. -/
def ReadContext.feedLine (ctx : ReadContext) (g : GroupPtr) (fuel : Nat) (σ : Store)
    (line : ProcLine) : Option Store :=
  (ctx.lookUp σ g line.name).bind fun looked =>
    looked.element.bind fun e =>
      Runs.run (InputOp.apply ctx.cfg) looked.store
        ((ctx.feedCalls fuel procFlags line.readings).map (InputOp.onElement e))

/-- A group in which only names are tracked that are allowed. -/
structure Store.Admits (allows : CString → Bool) (g : GroupPtr) (σ : Store) : Prop where
  wf : σ.WellFormed
  isGroup : g ∈ σ.groupList
  policies : σ.allows = allows
  permitted : ∀ name e, σ.tracked g name = some e → allows name = true

section

variable {ctx : ReadContext} {allows : CString → Bool} {g : GroupPtr} {fuel : Nat}
variable {σ σ' : Store} {line : ProcLine}

/-- An element is looked up for a line, and then fed. -/
theorem feedLine_cases (fed : ctx.feedLine g fuel σ line = some σ') :
    ∃ looked e, ctx.lookUp σ g line.name = some looked ∧ looked.element = some e ∧
      Runs.run (InputOp.apply ctx.cfg) looked.store
        ((ctx.feedCalls fuel procFlags line.readings).map (InputOp.onElement e)) = some σ' := by
  obtain ⟨looked, lookedUp, rest⟩ := Option.bind_eq_some_iff.mp fed
  obtain ⟨e, found, ran⟩ := Option.bind_eq_some_iff.mp rest
  exact ⟨looked, e, lookedUp, found, ran⟩

/-- An element that was looked up is the one that is tracked, or a new one. -/
theorem lookUp_cases {name : CString} {looked : LookUp}
    (lookedUp : ctx.lookUp σ g name = some looked) {e : ElementPtr}
    (found : looked.element = some e) :
    ∃ calls σ', ctx.setUpCalls σ' e = some calls ∧
      Runs.run (InputOp.apply ctx.cfg) σ' (calls.map (InputOp.onElement e)) = some looked.store ∧
      ((σ.tracked g name = some e ∧ σ' = σ) ∨
        (σ.tracked g name = none ∧ σ.allows name = true ∧ e = σ.nextElement ∧
          σ' = elementCreate ctx.cfg σ g name 0 none)) := by
  unfold ReadContext.lookUp at lookedUp
  simp only at lookedUp
  split at lookedUp
  · obtain rfl := Option.some.inj lookedUp
    cases found
  · next e' present =>
    obtain ⟨calls, setUp, rest⟩ := Option.bind_eq_some_iff.mp lookedUp
    obtain ⟨σ', ran, rfl⟩ := Option.map_eq_some_iff.mp rest
    obtain rfl := Option.some.inj found
    refine ⟨calls, _, setUp, ran, ?_⟩
    unfold elementLookup at present ⊢
    cases tracked : lookupElement σ g name 0 none with
    | some e' =>
      simp only [tracked] at present ⊢
      exact Or.inl ⟨tracked.trans present, trivial⟩
    | none =>
      simp only [tracked, true_and] at present ⊢
      split_ifs at present ⊢ with allowed
      exact Or.inr ⟨tracked, allowed, (Option.some.inj present).symm, rfl⟩

/-- A line changes the element that is tracked for its name, or a new one. -/
theorem feedLine_touches (fed : ctx.feedLine g fuel σ line = some σ') :
    ∃ e, (σ.tracked g line.name = some e ∧ Touches e σ σ') ∨
      (σ.tracked g line.name = none ∧ σ.allows line.name = true ∧ e = σ.nextElement ∧
        Touches e (elementLinked ctx.cfg σ g line.name 0 none) σ') := by
  obtain ⟨looked, e, lookedUp, found, ran⟩ := feedLine_cases fed
  obtain ⟨calls, middle, -, ranSetUp, either⟩ := lookUp_cases lookedUp found
  have touches := (touches_run ranSetUp).trans (touches_run ran)
  obtain ⟨tracked, rfl⟩ | ⟨absent, allowed, rfl, rfl⟩ := either
  · exact ⟨e, Or.inl ⟨tracked, touches⟩⟩
  · exact ⟨_, Or.inr ⟨absent, allowed, rfl,
      (touches_elementCreate ctx.cfg σ g line.name 0 none).trans touches⟩⟩

/-- Only the element of the line has changed afterwards. -/
theorem feedLine_feedsOnly (wf : σ.WellFormed) (isGroup : g ∈ σ.groupList)
    (fed : ctx.feedLine g fuel σ line = some σ') :
    σ.Eligible g line.name ∧ FeedsOnly g line.name σ σ' ∧ (σ'.tracked g line.name).isSome := by
  obtain ⟨looked, e, lookedUp, found, ran⟩ := feedLine_cases fed
  obtain ⟨eligible, feeds, tracked, -⟩ := lookUp_some lookedUp wf isGroup found
  have feedsMore := feedCalls_feedsOnly feeds.wf tracked ran
  exact ⟨eligible, feeds.trans feedsMore,
    Option.isSome_iff_exists.mpr ⟨e, feedsMore.kept e tracked⟩⟩

namespace Store.Admits

variable (admits : σ.Admits allows g)

include admits

theorem eligible_iff (name : CString) : σ.Eligible g name ↔ allows name = true := by
  unfold Store.Eligible
  rw [admits.policies]
  refine or_iff_right_of_imp fun tracked => ?_
  obtain ⟨e, found⟩ := Option.isSome_iff_exists.mp tracked
  exact admits.permitted name e found

/-- A line keeps the group so. -/
theorem feedLine (fed : ctx.feedLine g fuel σ line = some σ') : σ'.Admits allows g := by
  obtain ⟨eligible, feeds, -⟩ := feedLine_feedsOnly admits.wf admits.isGroup fed
  refine ⟨feeds.wf, feeds.groupList ▸ admits.isGroup, feeds.allows.trans admits.policies,
    fun name e tracked => ?_⟩
  by_cases same : name = line.name
  · rw [same]
    exact (admits.eligible_iff _).mp eligible
  · rw [(feeds.other g name fun both => same both.2).1] at tracked
    exact admits.permitted name e tracked

/-- A turn of the loop feeds the line it reads unless the interface is denied. -/
theorem procPass {buf : List Char} {pass : Pass Store (List InputOp)}
    (passed : procPass ctx g fuel σ buf = some pass) :
    match parseProcLine buf with
    | none => pass.state = σ ∧ pass.leaves = false
    | some line =>
      if allows line.name then
        ctx.feedLine g fuel σ line = some pass.state ∧ pass.leaves = false
      else pass.state = σ ∧ pass.leaves = true := by
  unfold Bmon.procPass at passed
  cases parsed : parseProcLine buf with
  | none =>
    rw [parsed] at passed
    obtain rfl := Option.some.inj passed
    exact ⟨rfl, rfl⟩
  | some line =>
    simp only [parsed] at passed ⊢
    obtain ⟨looked, lookedUp, rest⟩ := Option.bind_eq_some_iff.mp passed
    cases found : looked.element with
    | none =>
      simp only [found] at rest
      obtain rfl := Option.some.inj rest
      obtain ⟨denied, same⟩ := lookUp_none lookedUp found
      rw [if_neg (mt (admits.eligible_iff _).mpr denied)]
      exact ⟨same, rfl⟩
    | some e =>
      simp only [found] at rest
      obtain ⟨σ', ran, rfl⟩ := Option.map_eq_some_iff.mp rest
      have fed : ctx.feedLine g fuel σ line = some σ' := by
        rw [ReadContext.feedLine, lookedUp, Option.bind_some, found]
        exact ran
      rw [if_pos ((admits.eligible_iff _).mp
        (feedLine_feedsOnly admits.wf admits.isGroup fed).1)]
      exact ⟨fed, rfl⟩

/-- A read is a run over the lines that it accepts. -/
theorem procRead {content : List Char} {last : Pass Store (List (List InputOp))}
    (read : procRead ctx g fuel content σ = some last) :
    Runs.run (ctx.feedLine g fuel) σ (acceptedLines allows content) = some last.state := by
  unfold Bmon.procRead at read
  unfold acceptedLines
  generalize (fgetsAll 511 content.length content).drop 2 = bufs at read ⊢
  induction bufs generalizing σ last with
  | nil =>
    obtain rfl := Option.some.inj read
    rfl
  | cons buf bufs inductionHypothesis =>
    obtain ⟨pass, passed, next⟩ := Pass.loop_cons read
    have turn := admits.procPass passed
    cases parsed : parseProcLine buf with
    | none =>
      simp only [parsed] at turn
      obtain ⟨same, goesOn⟩ := turn
      obtain ⟨leaves, -⟩ | ⟨-, rest, loopedRest, rfl⟩ := next
      · rw [goesOn] at leaves
        cases leaves
      · rw [same] at loopedRest
        rw [List.filterMap_cons_none parsed]
        have ran := inductionHypothesis admits loopedRest
        exact ran
    | some line =>
      simp only [parsed] at turn
      rw [List.filterMap_cons_some parsed]
      split_ifs at turn with allowed
      · obtain ⟨fed, goesOn⟩ := turn
        obtain ⟨leaves, -⟩ | ⟨-, rest, loopedRest, rfl⟩ := next
        · rw [goesOn] at leaves
          cases leaves
        · rw [List.takeWhile_cons, if_pos allowed]
          have ran := inductionHypothesis (admits.feedLine fed) loopedRest
          exact Option.bind_eq_some_iff.mpr ⟨pass.state, fed, ran⟩
      · obtain ⟨same, leaves⟩ := turn
        obtain ⟨-, rfl⟩ | ⟨goesOn, -⟩ := next
        · rw [List.takeWhile_cons, if_neg allowed, ← same]
          rfl
        · rw [leaves] at goesOn
          cases goesOn

end Store.Admits

/-! ### The other parts of a turn -/

/-- A callback on the flags changes no element otherwise. -/
theorem touches_elementResetUpdateFlag (σ : Store) (g : GroupPtr) (e : ElementPtr) :
    Touches e σ (elementResetUpdateFlag σ g e) :=
  Touches.modifyElement σ e fun _ => rfl

theorem Store.Admits.touches {e : ElementPtr} (admits : σ.Admits allows g)
    (touches : Touches e σ σ') : σ'.Admits allows g where
  wf := admits.wf.sameShape touches.sameShape
  isGroup := touches.groupList ▸ admits.isGroup
  policies := touches.allows.trans admits.policies
  permitted name x tracked :=
    admits.permitted name x ((touches.lookupElement_eq g name 0 none).symm.trans tracked)

theorem Store.Admits.resetUpdateFlags (admits : σ.Admits allows g) :
    (Bmon.resetUpdateFlags σ).Admits allows g :=
  groupForeachRecursive_invariant elementResetUpdateFlag
    (fun σ g' e before => before.touches (touches_elementResetUpdateFlag σ g' e)) admits

/-- The sweep leaves the policies and the configurations. -/
theorem applyAll_allows {st : State} {effects : List Effect} (legal : LegalAll st effects) :
    (applyAll st effects).store.allows = st.store.allows := by
  induction effects generalizing st with
  | nil => rfl
  | cons effect rest inductionHypothesis =>
    refine (inductionHypothesis legal.2).trans (funext fun name => ?_)
    cases effect with
    | tick e => exact allows_congr rfl rfl rfl
    | release e =>
      obtain ⟨g, change, store⟩ := elementRelease_store legal.1.1
      rw [Effect.apply, store]
      exact allows_congr rfl rfl rfl

/-- An element at the top of a group only dies with its own time to live. -/
theorem dies_top_iff (wf : σ.WellFormed) {e : ElementPtr} (top : e ∈ σ.lists (.ofGroup g)) :
    σ.Dies e ↔ σ.eLifecycles e = some 1 := by
  rw [Store.dies_iff]
  refine or_iff_left ?_
  rintro ⟨p, parent, -⟩
  obtain ⟨place, present, above⟩ := isParent_iff.mp parent
  obtain ⟨place', present', head⟩ := wf.owned _ e top
  rw [present] at present'
  obtain rfl := Option.some.inj present'
  rw [head_eq_ofElement_iff.mpr above] at head
  cases head

/-- What a sweep does to the top of a group. -/
theorem sweep_top_elements {st : State} (wf : st.store.WellFormed)
    (isGroup : g ∈ st.store.groupList) :
    (freeUnusedElements st).store.lists (.ofGroup g) =
        (st.store.lists (.ofGroup g)).filter (fun e => st.store.eLifecycles e ≠ some 1) ∧
      ∀ e ∈ st.store.lists (.ofGroup g), st.store.eLifecycles e ≠ some 1 →
        (freeUnusedElements st).store.elements e = (st.store.elements e).map Element.tick := by
  obtain ⟨forest, represents⟩ := wf.represents
  obtain ⟨swept, legal⟩ := freeUnusedElements_eq represents
  have inForest : ∀ e ∈ st.store.lists (.ofGroup g), e ∈ allNodes st.store forest :=
    fun e member => List.mem_flatMap.mpr ⟨g, isGroup,
      (forest g).roots_subset_preorder (represents.roots g isGroup ▸ member)⟩
  have freedIff : ∀ e ∈ st.store.lists (.ofGroup g),
      (e ∈ freedBy (sweepAll st.store forest) ↔ st.store.eLifecycles e = some 1) :=
    fun e member => (represents.mem_freedBy_iff.trans (and_iff_right (inForest e member))).trans
      (dies_top_iff wf member)
  refine ⟨?_, fun e member more => represents.sweep_elements (inForest e member)
    (mt (freedIff e member).mp more)⟩
  rw [swept, applyAll_lists legal]
  exact List.filter_congr fun e member => decide_eq_decide.mpr (not_congr (freedIff e member))

/-- The sweep keeps a group that only tracks names that are allowed. -/
theorem Store.Admits.sweep {st : State} (admits : st.store.Admits allows g) :
    (freeUnusedElements st).store.Admits allows g := by
  obtain ⟨forest, represents⟩ := admits.wf.represents
  obtain ⟨swept, legal⟩ := freeUnusedElements_eq represents
  obtain ⟨lists, elements⟩ := sweep_top_elements admits.wf admits.isGroup
  refine ⟨sweep_wellFormed admits.wf, ?_, ?_, fun name e tracked => ?_⟩
  · rw [swept, applyAll_groupList legal]
    exact admits.isGroup
  · rw [swept, applyAll_allows legal, admits.policies]
  · unfold Store.tracked lookupElement at tracked
    have matched := List.find?_some tracked
    have member := List.mem_of_find?_eq_some tracked
    rw [show listOf g none = .ofGroup g from rfl, lists] at member
    obtain ⟨inList, more⟩ := List.mem_filter.mp member
    rw [elements e inList (of_decide_eq_true more), Option.any_map] at matched
    have found : (st.store.tracked g name).isSome := by
      unfold Store.tracked lookupElement
      exact List.find?_isSome.mpr ⟨e, inList, matched⟩
    obtain ⟨e', isTracked⟩ := Option.isSome_iff_exists.mp found
    exact admits.permitted name e' isTracked

end

/-! ### Turns of the main loop -/

/-- What happens in one turn of the main loop: the calls that move the selection, when the file is
read and what is in it, and what the outputs draw. -/
structure ProcCycle where
  selects : List OutputOp
  now : Timestamp
  content : List Char
  draws : List OutputOp

/-- What a read at some time uses. -/
def ReadContext.atTime (ctx : ReadContext) (now : Timestamp) : ReadContext :=
  { ctx with now := now }

/-- One turn of the main loop in which `proc` is the input module. -/
def procCycle (ctx : ReadContext) (g : GroupPtr) (fuel : Nat) (st : State) (c : ProcCycle) :
    Option State :=
  (Runs.run (step ctx.cfg) st (c.selects.map Op.output ++ [.resetUpdateFlags])).bind fun reading =>
    (procRead (ctx.atTime c.now) g fuel c.content reading.store).bind fun read =>
      Runs.run (step ctx.cfg) { reading with store := read.state }
        (.freeUnusedElements :: c.draws.map Op.output)

/-- The calls of the output modules leave the store. -/
theorem run_output (cfg : Config) (st : State) (ops : List OutputOp) :
    ∃ s, Runs.run (step cfg) st (ops.map Op.output) = some ⟨st.store, s⟩ := by
  induction ops generalizing st with
  | nil => exact ⟨st.selection, rfl⟩
  | cons op ops inductionHypothesis =>
    exact inductionHypothesis { st with selection := op.apply st.store st.selection }

/-- A turn up to the read. -/
theorem run_beforeRead (cfg : Config) (st : State) (selects : List OutputOp) :
    ∃ s, Runs.run (step cfg) st (selects.map Op.output ++ [.resetUpdateFlags]) =
      some ⟨resetUpdateFlags st.store, s⟩ := by
  obtain ⟨s, ran⟩ := run_output cfg st selects
  exact ⟨s, Runs.run_append.mpr ⟨_, ran, rfl⟩⟩

/-- The calls of an input module are calls of the program; where they create no group they leave
the selection. -/
theorem run_input {cfg : Config} {σ σ' : Store} {ops : List InputOp}
    (ran : Runs.run (InputOp.apply cfg) σ ops = some σ') (same : σ'.nextGroup = σ.nextGroup)
    (s : Selection) :
    Runs.run (step cfg) ⟨σ, s⟩ (ops.map Op.input) = some ⟨σ', s⟩ := by
  have grows : ∀ {σ σ' : Store} {op : InputOp}, op.apply cfg σ = some σ' →
      σ.nextGroup ≤ σ'.nextGroup := fun {σ σ' op} called => by
    rcases InputOp.apply_cases called with same | ⟨e, -, rfl⟩ | ⟨hdr, rfl⟩ |
      ⟨group, name, id, parent, -, -, rfl⟩
    · exact same.nextGroup.ge
    · exact le_rfl
    · exact Nat.le_succ _
    · exact (sameStanding_elementCreate cfg σ group name id parent).nextGroup.ge
  induction ops generalizing σ with
  | nil =>
    obtain rfl := Option.some.inj ran
    rfl
  | cons op ops inductionHypothesis =>
    obtain ⟨next, called, rest⟩ := Option.bind_eq_some_iff.mp ran
    have later := Runs.run_invariant (fun other : Store => next.nextGroup ≤ other.nextGroup)
      (fun _ _ _ before called => before.trans (grows called)) le_rfl rest
    have first : next.nextGroup = σ.nextGroup := le_antisymm (same ▸ later) (grows called)
    have stepped : step cfg ⟨σ, s⟩ (.input op) = some ⟨next, s⟩ := by
      rw [step, called, Option.map_some, if_pos first]
    rw [List.map_cons, Runs.run, List.foldlM_cons, stepped]
    exact inductionHypothesis rest (same.trans first.symm)

section

variable {ctx : ReadContext} {allows : CString → Bool} {g : GroupPtr} {fuel : Nat}
variable {st last : State} {c : ProcCycle}

/-- The line of an interface creates no group. -/
theorem feedLine_nextGroup {σ σ' : Store} {line : ProcLine}
    (fed : ctx.feedLine g fuel σ line = some σ') : σ'.nextGroup = σ.nextGroup := by
  obtain ⟨e, ⟨-, touches⟩ | ⟨-, -, -, touches⟩⟩ := feedLine_touches fed
  · exact touches.nextGroup
  · exact touches.nextGroup

/-- A turn feeds the lines that it accepts between the reset and the sweep, and is a cycle of the
program. -/
theorem procCycle_cases (admits : st.store.Admits allows g)
    (ran : procCycle ctx g fuel st c = some last) :
    ∃ (middle : Store) (s : Selection) (inputs : List InputOp),
      Runs.run ((ctx.atTime c.now).feedLine g fuel) (resetUpdateFlags st.store)
        (acceptedLines allows c.content) = some middle ∧
      middle.Admits allows g ∧ last.store = (freeUnusedElements ⟨middle, s⟩).store ∧
      Runs.run (step ctx.cfg) st (Cycle.ops ⟨c.selects, inputs, c.draws⟩) = some last := by
  obtain ⟨s, before⟩ := run_beforeRead ctx.cfg st c.selects
  unfold procCycle at ran
  rw [before, Option.bind_some] at ran
  obtain ⟨read, reads, after⟩ := Option.bind_eq_some_iff.mp ran
  have reset := admits.resetUpdateFlags
  have fed := reset.procRead reads
  have sameGroups := Runs.run_invariant
    (fun σ : Store => σ.nextGroup = (resetUpdateFlags st.store).nextGroup)
    (fun _ _ _ same fed => (feedLine_nextGroup fed).trans same) rfl fed
  have middle : read.state.Admits allows g :=
    Runs.run_invariant _ (fun _ _ _ admits fed => admits.feedLine fed) reset fed
  have inputs := run_input (procRead_run reset.wf reset.isGroup reads) sameGroups s
  have drawn : Runs.run (step ctx.cfg) (freeUnusedElements ⟨read.state, s⟩)
      (c.draws.map Op.output) = some last := after
  obtain ⟨s', draws⟩ := run_output ctx.cfg (freeUnusedElements ⟨read.state, s⟩) c.draws
  obtain rfl := Option.some.inj (draws.symm.trans drawn)
  refine ⟨read.state, s, read.output.flatten, fed, middle, rfl, ?_⟩
  rw [Cycle.ops, Cycle.reading, List.append_cons]
  refine Runs.run_append.mpr ⟨⟨read.state, s⟩, Runs.run_append.mpr ⟨_, before, inputs⟩, ?_⟩
  exact after

/-- A turn keeps a group that only tracks names that are allowed. -/
theorem procCycle_admits (admits : st.store.Admits allows g)
    (ran : procCycle ctx g fuel st c = some last) : last.store.Admits allows g := by
  obtain ⟨middle, s, -, -, kept, swept, -⟩ := procCycle_cases admits ran
  rw [swept]
  exact (show (State.mk middle s).store.Admits allows g from kept).sweep

/-- A group without elements tracks no name. -/
theorem admits_empty (valid : st.Valid) (isGroup : g ∈ st.store.groupList)
    (empty : st.store.lists (.ofGroup g) = []) : st.store.Admits st.store.allows g :=
  ⟨valid.store, isGroup, rfl, fun name e tracked => by
    have member := (tracked_eq_some tracked).1
    rw [empty] at member
    cases member⟩

/-! ### Termination -/

/-- Calls that leave the attributes leave the intervals. -/
theorem evolution_positiveIntervals :
    Evolution fun σ σ' => σ.PositiveIntervals → σ'.PositiveIntervals where
  trans first second positive := second (first positive)
  frees _ _ kept positive e r present := positive e r (kept e r present)
  marks _ e _ _ positive := positiveIntervals_modifyElement positive e fun _ before => before

theorem positiveIntervals_resetUpdateFlags {σ : Store} (positive : σ.PositiveIntervals) :
    (resetUpdateFlags σ).PositiveIntervals := by
  refine groupForeachRecursive_invariant elementResetUpdateFlag (fun σ _ e before => ?_) positive
  exact positiveIntervals_modifyElement before e fun _ kept => kept

theorem positiveIntervals_sweep (wf : st.store.WellFormed)
    (positive : st.store.PositiveIntervals) :
    (freeUnusedElements st).store.PositiveIntervals := by
  obtain ⟨forest, represents⟩ := wf.represents
  obtain ⟨effects, legal⟩ := freeUnusedElements_eq represents
  rw [effects]
  exact evolution_positiveIntervals.applyAll legal positive

/-- With the attributes defined and positive intervals a turn returns, and leaves the same state for
any fuel that is enough. -/
theorem procCycle_returns (defined : ctx.Defined) (intervals : ctx.PositiveIntervals)
    (invariant : (st.Valid ∧ st.store.Admits allows g) ∧ st.store.PositiveIntervals)
    (c : ProcCycle) :
    ∃ enough next, ((State.Valid next ∧ next.store.Admits allows g) ∧
        next.store.PositiveIntervals) ∧
      ∀ fuel, enough ≤ fuel → procCycle ctx g fuel st c = some next := by
  obtain ⟨⟨valid, admits⟩, positive⟩ := invariant
  have reset := admits.resetUpdateFlags
  have definedNow : (ctx.atTime c.now).Defined := ⟨defined.bytes, defined.packets⟩
  obtain ⟨enough, after, leaves, ⟨⟨wf, -⟩, kept⟩, returns⟩ := Pass.loop_returns
    (procPass (ctx.atTime c.now) g)
    (fun st => (st.WellFormed ∧ g ∈ st.groupList) ∧ st.PositiveIntervals)
    ((fgetsAll 511 c.content.length c.content).drop 2)
    (fun _ buf _ invariant => procPass_returns definedNow intervals invariant buf)
    ⟨⟨reset.wf, reset.isGroup⟩, positiveIntervals_resetUpdateFlags positive⟩
  obtain ⟨s, before⟩ := run_beforeRead ctx.cfg st c.selects
  obtain ⟨s', draws⟩ := run_output ctx.cfg (freeUnusedElements ⟨after, s⟩) c.draws
  have turns : ∀ fuel, enough ≤ fuel → procCycle ctx g fuel st c =
      some ⟨(freeUnusedElements ⟨after, s⟩).store, s'⟩ := fun fuel more => by
    obtain ⟨outputs, read⟩ := returns fuel more
    rw [procCycle, before, Option.bind_some, procRead, read]
    exact draws
  obtain ⟨-, -, inputs, -, -, -, calls⟩ := procCycle_cases admits (turns enough le_rfl)
  refine ⟨enough, _, ⟨⟨run_valid valid calls, procCycle_admits admits (turns enough le_rfl)⟩, ?_⟩,
    turns⟩
  exact positiveIntervals_sweep (show (State.mk after s).store.WellFormed from wf) kept

/-- So do any number of turns. -/
theorem procCycles_return (defined : ctx.Defined) (intervals : ctx.PositiveIntervals)
    (valid : st.Valid) (admits : st.store.Admits allows g) (positive : st.store.PositiveIntervals)
    (cycles : List ProcCycle) :
    ∃ enough last, ∀ fuel, enough ≤ fuel →
      Runs.run (procCycle ctx g fuel) st cycles = some last := by
  obtain ⟨enough, last, -, returns⟩ := Runs.run_returns
    (fun st : State => (st.Valid ∧ st.store.Admits allows g) ∧ st.store.PositiveIntervals)
    (fun _ c _ invariant => procCycle_returns defined intervals invariant c)
    ⟨⟨valid, admits⟩, positive⟩
  exact ⟨enough, last, returns⟩

end

/-! ### An interface that goes away -/

/-- Elements that live for two reads. -/
def shortLived : ReadContext := { procContext with cfg := confInitPost { lifetime := 2 } }

/-- Two interfaces in the first turn, and one of them in the next. -/
def oneLeaves : List ProcCycle :=
  [⟨[], ⟨1, 0⟩, twoInterfaces, []⟩,
    ⟨[.elementSelectLast], ⟨2, 0⟩,
      ['I', 'n', 't', 'e', 'r', '\n', 'f', 'a', 'c', 'e', '\n'] ++ onesLine eth0.chars, []⟩]

/-- The program with the group of the interfaces. -/
def interfacesStart : State := ⟨interfaceStore [], Selection.start⟩

theorem interfacesStart_valid : interfacesStart.Valid :=
  ⟨interfaceStore_wellFormed [], valid_start _⟩

theorem shortLived_defined : shortLived.Defined :=
  ⟨procContext_defined.bytes, procContext_defined.packets⟩

theorem shortLived_histories : SoundHistories shortLived.historyDefs :=
  ⟨fun _ member => (List.not_mem_nil member).elim, fun _ member => (List.not_mem_nil member).elim⟩

end Bmon
