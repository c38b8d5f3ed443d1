/-
This file shows that the interfaces that `proc` accepts do not disturb each other.

What the program keeps of one interface is its attributes and its time to live. For a single
interface the program is a small machine: a line of the interface sets it up if it is new and
feeds it, and a sweep takes one from its time to live. The machine knows nothing of the other
interfaces. Whatever else a read accepts, in whatever order, and however often interfaces come and
go, the program keeps of each interface what the machine makes of its own lines that are accepted:
the only other lines that matter to it are those of denied interfaces, which end the read.
-/

import Bmon.ProcCycles

namespace Bmon

/-! ### One interface alone -/

/-- What the program keeps of an interface. -/
structure Interface where
  eAttrs : AttrTable
  eLifecycles : UInt32
  created : Bool

def Element.interface (r : Element) : Interface := ⟨r.eAttrs, r.eLifecycles, r.eFlags.created⟩

/-- One of the key attributes of a table. -/
def AttrTable.setKeyAttr (column : GroupColumn) (definition : Option AttrDef) (t : AttrTable) :
    AttrTable :=
  { t with eKeyAttr := fun other => if other = column then definition else t.eKeyAttr other }

namespace Interface

/-- An interface that has just been created. -/
def fresh (cfg : Config) : Interface := ⟨AttrTable.empty, getLifecycles cfg, true⟩

/-- A call on an element, as far as it concerns what is kept. -/
def apply (cfg : Config) (i : Interface) : ElementOp → Option Interface
  | .lifesign => some { i with eLifecycles := 1 * getLifecycles cfg }
  | .updateInfo _ _ => some i
  | .setRxmax _ => some i
  | .setTxmax _ => some i
  | .setKeyAttr attrDefs major minor =>
    let attrs := i.eAttrs.setKeyAttr .major (attrDefLookup attrDefs major)
    some { i with
      eAttrs := if (attrDefLookup attrDefs major).isNone then attrs
        else attrs.setKeyAttr .minor (attrDefLookup attrDefs minor) }
  | .setUsageAttr attrDefs usage =>
    some { i with eAttrs := { i.eAttrs with eUsageAttr := attrDefLookup attrDefs usage } }
  | .attrUpdate attrDefs historyDefs id rx tx flags now =>
    some { i with eAttrs := attrUpdate cfg attrDefs historyDefs i.eAttrs id rx tx flags now }
  | .notifyUpdate fuel ts =>
    (notifyAttrs cfg fuel ts ((List.range attrHashSize).flatMap i.eAttrs.eAttrhash) i.eAttrs).map
      fun attrs => { i with eAttrs := attrs }
  | .setUp _ => some { i with created := false }

/-- The calls for a new interface, or nothing where `BUG` ends the program. -/
def setUpCalls (ctx : ReadContext) (i : Interface) : Option (List ElementOp) :=
  if i.created then
    if (attrDefLookup ctx.attrDefs "bytes").isSome ∧
        (attrDefLookup ctx.attrDefs "packets").isSome then
      some [.setKeyAttr ctx.attrDefs "bytes" "packets", .setUsageAttr ctx.attrDefs "bytes",
        .setUp 0]
    else
      none
  else
    some []

/-- A line of the interface. -/
def feedLine (ctx : ReadContext) (fuel : Nat) (i : Option Interface) (line : ProcLine) :
    Option (Option Interface) :=
  let i := i.getD (fresh ctx.cfg)
  (i.setUpCalls ctx).bind fun calls =>
    (Runs.run (apply ctx.cfg) i (calls ++ ctx.feedCalls fuel procFlags line.readings)).map some

/-- A sweep. -/
def sweep (i : Option Interface) : Option Interface :=
  i.bind fun i =>
    if i.eLifecycles = 1 then none else some { i with eLifecycles := i.eLifecycles - 1 }

/-- A turn of the main loop, with the time of the read and the lines of the interface. -/
def turn (ctx : ReadContext) (fuel : Nat) (i : Option Interface)
    (own : Timestamp × List ProcLine) : Option (Option Interface) :=
  (Runs.run (feedLine (ctx.atTime own.1) fuel) i own.2).map sweep

end Interface

/-- The lines of an interface that a read accepts. -/
def ownLines (allows : CString → Bool) (name : CString) (content : List Char) : List ProcLine :=
  (acceptedLines allows content).filter fun line => line.name = name

/-- What is kept of an element. -/
def Store.interface (σ : Store) (e : ElementPtr) : Option Interface :=
  (σ.elements e).map Element.interface

/-- What is kept of the interface with a name. -/
def Store.named (σ : Store) (g : GroupPtr) (name : CString) : Option Interface :=
  (σ.tracked g name).bind σ.interface

/-- Every element at the top of a group is the one that is tracked for its name. -/
def Store.TracksAll (g : GroupPtr) (σ : Store) : Prop :=
  ∀ e ∈ σ.lists (.ofGroup g), ∀ r, σ.elements e = some r → σ.tracked g r.eName = some e

/-! ### Calls on an element -/

section

variable {cfg : Config} {σ σ' : Store} {e : ElementPtr} {i : Interface}

theorem interface_modifyElement {change : Element → Element} (changed : Interface → Interface)
    (changes : ∀ r, (change r).interface = changed r.interface)
    (kept : σ.interface e = some i) :
    (σ.modifyElement e change).interface e = some (changed i) := by
  obtain ⟨r, found, rfl⟩ := Option.map_eq_some_iff.mp kept
  unfold Store.interface Store.modifyElement
  simp only
  rw [if_true, found, Option.map_some, Option.map_some, changes]

theorem interface_elementSetMax (direction : Direction) (info : String) (max : UInt64)
    (kept : σ.interface e = some i) :
    (elementSetMax direction info σ e max).interface e = some i :=
  (map_elementSetMax Element.interface (field_updateInfo Element.interface fun _ _ _ => rfl)
    (fun _ _ => rfl) direction info σ e e max).trans kept

/-- A call on an element does to what is kept what it does to the interface alone. -/
theorem ElementOp.interface {op : ElementOp} (called : op.apply cfg σ e = some σ')
    (kept : σ.interface e = some i) :
    ∃ next, i.apply cfg op = some next ∧ σ'.interface e = some next := by
  cases op with
  | lifesign =>
    obtain rfl := Option.some.inj called
    exact ⟨_, rfl, interface_modifyElement (fun i =>
      { i with eLifecycles := 1 * getLifecycles cfg }) (fun _ => rfl) kept⟩
  | updateInfo name value =>
    obtain rfl := Option.some.inj called
    exact ⟨i, rfl, interface_modifyElement id
      (fun r => field_updateInfo Element.interface (fun _ _ _ => rfl) r name value) kept⟩
  | setRxmax max =>
    obtain rfl := Option.some.inj called
    exact ⟨i, rfl, interface_elementSetMax .rx "RxMax" max kept⟩
  | setTxmax max =>
    obtain rfl := Option.some.inj called
    exact ⟨i, rfl, interface_elementSetMax .tx "TxMax" max kept⟩
  | setKeyAttr attrDefs major minor =>
    obtain rfl := Option.some.inj called
    have first : (σ.modifyElement e (Element.setKeyAttr .major
        (attrDefLookup attrDefs major))).interface e = some { i with
          eAttrs := i.eAttrs.setKeyAttr .major (attrDefLookup attrDefs major) } :=
      interface_modifyElement (fun i => { i with
        eAttrs := i.eAttrs.setKeyAttr .major (attrDefLookup attrDefs major) }) (fun _ => rfl) kept
    refine ⟨_, rfl, ?_⟩
    unfold elementSetKeyAttr
    simp only
    split_ifs
    · exact first
    · exact interface_modifyElement (fun i => { i with
        eAttrs := i.eAttrs.setKeyAttr .minor (attrDefLookup attrDefs minor) }) (fun _ => rfl) first
  | setUsageAttr attrDefs usage =>
    obtain rfl := Option.some.inj called
    exact ⟨_, rfl, interface_modifyElement (fun i => { i with
      eAttrs := { i.eAttrs with eUsageAttr := attrDefLookup attrDefs usage } })
      (fun _ => rfl) kept⟩
  | attrUpdate attrDefs historyDefs id rx tx flags now =>
    obtain rfl := Option.some.inj called
    exact ⟨_, rfl, interface_modifyElement (fun i => { i with
      eAttrs := Bmon.attrUpdate cfg attrDefs historyDefs i.eAttrs id rx tx flags now })
      (fun _ => rfl) kept⟩
  | notifyUpdate fuel ts =>
    obtain ⟨r, found, rfl⟩ := Option.map_eq_some_iff.mp kept
    rw [ElementOp.apply, elementNotifyUpdate, found] at called
    obtain ⟨attrs, notified, rfl⟩ := Option.map_eq_some_iff.mp called
    refine ⟨{ r.interface with eAttrs := attrs }, ?_, ?_⟩
    · exact Option.map_eq_some_iff.mpr ⟨attrs, notified, rfl⟩
    · exact interface_modifyElement (fun i => { i with eAttrs := attrs })
        (fun _ => rfl) kept
  | setUp level =>
    obtain rfl := Option.some.inj called
    exact ⟨_, rfl, interface_modifyElement (fun i => { i with created := false })
      (fun _ => rfl) kept⟩

/-- So do some calls. -/
theorem run_interface {ops : List ElementOp}
    (ran : Runs.run (InputOp.apply cfg) σ (ops.map (InputOp.onElement e)) = some σ')
    (kept : σ.interface e = some i) :
    ∃ next, Runs.run (Interface.apply cfg) i ops = some next ∧ σ'.interface e = some next := by
  rw [Runs.run_map] at ran
  refine Runs.run_simulation (fun i σ => Store.interface σ e = some i)
    (fun i σ op next kept stepped => ?_) kept ran
  rw [InputOp.apply] at stepped
  split_ifs at stepped
  exact ElementOp.interface stepped kept

end

/-! ### The names of a group -/

section

variable {ctx : ReadContext} {allows : CString → Bool} {g : GroupPtr} {fuel : Nat}
variable {σ σ' : Store}

/-- What is tracked in a group that tracks all its elements. -/
theorem Store.TracksAll.tracked_iff (all : σ.TracksAll g) {name : CString} {e : ElementPtr} :
    σ.tracked g name = some e ↔
      e ∈ σ.lists (.ofGroup g) ∧ (σ.elements e).map Element.eName = some name := by
  constructor
  · intro tracked
    obtain ⟨member, r, found, isName⟩ := tracked_eq_some tracked
    exact ⟨member, by rw [found, Option.map_some, isName]⟩
  · rintro ⟨member, isName⟩
    obtain ⟨r, found, rfl⟩ := Option.map_eq_some_iff.mp isName
    exact all e member r found

theorem Touches.eName_eq {e : ElementPtr} (touches : Touches e σ σ') (x : ElementPtr) :
    (σ'.elements x).map Element.eName = (σ.elements x).map Element.eName := by
  have same := congrArg (Option.map fun identity => identity.2.1) (touches.identity_eq x)
  rwa [Option.map_map, Option.map_map] at same

theorem Store.TracksAll.touches {e : ElementPtr} (all : σ.TracksAll g)
    (touches : Touches e σ σ') : σ'.TracksAll g := by
  intro x member r found
  refine (touches.lookupElement_eq g r.eName 0 none).trans (all.tracked_iff.mpr ?_)
  rw [← touches.lists, ← touches.eName_eq, found]
  exact ⟨member, rfl⟩

/-- A new element is tracked too. -/
theorem Store.TracksAll.elementCreate (all : σ.TracksAll g) (wf : σ.WellFormed) (cfg : Config)
    {name : CString} (absent : σ.tracked g name = none) :
    (elementCreate cfg σ g name 0 none).TracksAll g := by
  have touches := touches_elementCreate cfg σ g name 0 none
  intro x member r found
  have isName := touches.eName_eq x
  rw [found, Option.map_some, elements_elementLinked] at isName
  rw [touches.lists, wf.lists_elementLinked] at member
  rw [tracked_elementCreate cfg wf]
  rcases List.mem_append.mp member with old | isNew
  · rw [if_neg (wf.lt_of_mem old).ne] at isName
    rw [all.tracked_iff.mpr ⟨old, isName.symm⟩, Option.some_or]
  · rw [show listOf g none = .ofGroup g from rfl, if_pos rfl] at isNew
    obtain rfl := List.mem_singleton.mp isNew
    rw [if_pos rfl, Option.map_some] at isName
    have same : r.eName = name := Option.some.inj isName
    rw [same, absent, Option.none_or, if_pos ⟨rfl, rfl⟩]

/-- A line of an interface leaves the group so. -/
theorem Store.TracksAll.feedLine (all : σ.TracksAll g) (wf : σ.WellFormed) {line : ProcLine}
    (fed : ctx.feedLine g fuel σ line = some σ') : σ'.TracksAll g := by
  obtain ⟨looked, e, lookedUp, found, ran⟩ := feedLine_cases fed
  obtain ⟨calls, middle, -, ranSetUp, either⟩ := lookUp_cases lookedUp found
  have touches := (touches_run ranSetUp).trans (touches_run ran)
  obtain ⟨-, rfl⟩ | ⟨absent, -, rfl, rfl⟩ := either
  · exact all.touches touches
  · exact (all.elementCreate wf ctx.cfg absent).touches touches

/-- After a sweep those are tracked that it has left. -/
theorem Store.TracksAll.sweep {st : State} (all : st.store.TracksAll g)
    (wf : st.store.WellFormed) (isGroup : g ∈ st.store.groupList) :
    (freeUnusedElements st).store.TracksAll g ∧ ∀ name,
      (freeUnusedElements st).store.tracked g name =
        (st.store.tracked g name).filter fun e => st.store.eLifecycles e ≠ some 1 := by
  obtain ⟨lists, left⟩ := sweep_top_elements wf isGroup
  have names : ∀ e ∈ (freeUnusedElements st).store.lists (.ofGroup g),
      ((freeUnusedElements st).store.elements e).map Element.eName =
        (st.store.elements e).map Element.eName := fun e member => by
    rw [lists] at member
    obtain ⟨before, more⟩ := List.mem_filter.mp member
    rw [left e before (of_decide_eq_true more), Option.map_map]
    rfl
  have old : ∀ {name e}, (freeUnusedElements st).store.tracked g name = some e →
      st.store.tracked g name = some e ∧ st.store.eLifecycles e ≠ some 1 :=
    fun {name e} tracked => by
      obtain ⟨member, r, found, isName⟩ := tracked_eq_some tracked
      have same := names e member
      rw [found, Option.map_some, isName] at same
      rw [lists] at member
      obtain ⟨before, more⟩ := List.mem_filter.mp member
      exact ⟨all.tracked_iff.mpr ⟨before, same.symm⟩, of_decide_eq_true more⟩
  have tracked : ∀ name, (freeUnusedElements st).store.tracked g name =
      (st.store.tracked g name).filter fun e => st.store.eLifecycles e ≠ some 1 := fun name => by
    cases found : (freeUnusedElements st).store.tracked g name with
    | some e =>
      obtain ⟨before, more⟩ := old found
      rw [before, Option.filter_some, if_pos (decide_eq_true more)]
    | none =>
      symm
      rw [Option.filter_eq_none_iff]
      intro e before more
      -- it would still be found in the list
      unfold Store.tracked lookupElement at found
      obtain ⟨member, r, isElement, isName⟩ := tracked_eq_some before
      have matched := List.find?_some before
      refine List.find?_eq_none.mp found e ?_ ?_
      · rw [show listOf g none = .ofGroup g from rfl, lists]
        exact List.mem_filter.mpr ⟨member, more⟩
      · rw [left e member (of_decide_eq_true more), Option.any_map]
        exact matched
  refine ⟨fun e member r found => ?_, tracked⟩
  have same := names e member
  rw [found, Option.map_some] at same
  rw [lists] at member
  obtain ⟨before, more⟩ := List.mem_filter.mp member
  rw [tracked, all.tracked_iff.mpr ⟨before, same.symm⟩, Option.filter_some, if_pos more]

/-! ### One interface among others -/

/-- The calls for a new element are those for a new interface. -/
theorem setUpCalls_interface {e : ElementPtr} {i : Interface} {calls : List ElementOp}
    (setUp : ctx.setUpCalls σ e = some calls) (kept : σ.interface e = some i) :
    ∃ alone, i.setUpCalls ctx = some alone ∧
      Runs.run (Interface.apply ctx.cfg) i alone = Runs.run (Interface.apply ctx.cfg) i calls := by
  obtain ⟨r, found, rfl⟩ := Option.map_eq_some_iff.mp kept
  unfold ReadContext.setUpCalls at setUp
  simp only [found] at setUp
  unfold Interface.setUpCalls
  split_ifs at setUp with created both
  · obtain rfl := Option.some.inj setUp
    exact ⟨_, (if_pos created).trans (if_pos both), rfl⟩
  · obtain rfl := Option.some.inj setUp
    exact ⟨_, if_neg created, rfl⟩

/-- The line of an interface does to it what it does to the interface alone. -/
theorem feedLine_named_self (wf : σ.WellFormed) (isGroup : g ∈ σ.groupList) {line : ProcLine}
    (fed : ctx.feedLine g fuel σ line = some σ') :
    Interface.feedLine ctx fuel (σ.named g line.name) line =
      some (σ'.named g line.name) := by
  obtain ⟨looked, e, lookedUp, found, ran⟩ := feedLine_cases fed
  obtain ⟨-, feeds, trackedLooked, -⟩ := lookUp_some lookedUp wf isGroup found
  have tracked := (feedCalls_feedsOnly feeds.wf trackedLooked ran).kept e trackedLooked
  obtain ⟨calls, middle, setUp, ranSetUp, either⟩ := lookUp_cases lookedUp found
  have start : middle.interface e =
      some ((σ.named g line.name).getD (Interface.fresh ctx.cfg)) := by
    obtain ⟨before, rfl⟩ | ⟨absent, -, rfl, rfl⟩ := either
    · obtain ⟨-, r, isElement, -⟩ := tracked_eq_some before
      rw [Store.named, before, Option.bind_some, Store.interface, isElement]
      rfl
    · have created := map_elementCreate Element.interface
        (field_updateInfo Element.interface fun _ _ _ => rfl) (fun _ _ => rfl) ctx.cfg σ g
        line.name 0 none σ.nextElement
      rw [if_pos rfl] at created
      rw [Store.named, absent]
      exact created
  obtain ⟨i, isBefore⟩ : ∃ i, (σ.named g line.name).getD (Interface.fresh ctx.cfg) = i := ⟨_, rfl⟩
  rw [isBefore] at start
  obtain ⟨set, ranSet, afterSet⟩ := run_interface ranSetUp start
  obtain ⟨last, ranLast, afterLast⟩ := run_interface ran afterSet
  obtain ⟨alone, setUpAlone, same⟩ := setUpCalls_interface setUp start
  have ranAlone : Runs.run (Interface.apply ctx.cfg) i
      (alone ++ ctx.feedCalls fuel procFlags line.readings) = some last :=
    Runs.run_append.mpr ⟨set, same.trans ranSet, ranLast⟩
  have after : σ'.named g line.name = some last := by
    rw [Store.named, tracked, Option.bind_some, afterLast]
  rw [after]
  unfold Interface.feedLine
  simp only [isBefore, setUpAlone, Option.bind_some, ranAlone, Option.map_some]

/-- It does nothing to the others. -/
theorem feedLine_named_other (wf : σ.WellFormed) (isGroup : g ∈ σ.groupList) {line : ProcLine}
    (fed : ctx.feedLine g fuel σ line = some σ') {name : CString} (other : line.name ≠ name) :
    σ'.named g name = σ.named g name := by
  obtain ⟨-, feeds, -⟩ := feedLine_feedsOnly wf isGroup fed
  have tracked := (feeds.other g name fun both => other both.2.symm).1
  rw [Store.named, tracked, Store.named]
  refine Option.bind_congr fun x found => ?_
  have record : σ'.elements x = σ.elements x := by
    obtain ⟨e, ⟨before, touches⟩ | ⟨-, -, rfl, touches⟩⟩ := feedLine_touches fed
    · exact touches.others x (tracked_ne wf before found fun both => other both.2.symm)
    · have old := (wf.lt_of_mem (tracked_eq_some found).1).ne
      rw [touches.others x old, elements_elementLinked, if_neg old]
  rw [Store.interface, record, Store.interface]

/-- The reset of the flags does nothing to what is kept. -/
theorem resetUpdateFlags_named (all : σ.TracksAll g) (name : CString) :
    (resetUpdateFlags σ).TracksAll g ∧ (resetUpdateFlags σ).named g name = σ.named g name := by
  have each : ∀ (σ' : Store) (g' : GroupPtr) (e : ElementPtr),
      σ'.TracksAll g ∧ σ'.named g name = σ.named g name →
      (elementResetUpdateFlag σ' g' e).TracksAll g ∧
        (elementResetUpdateFlag σ' g' e).named g name = σ.named g name := fun σ' g' e before => by
    have touches := touches_elementResetUpdateFlag σ' g' e
    refine ⟨before.1.touches touches, Eq.trans ?_ before.2⟩
    have tracked : (elementResetUpdateFlag σ' g' e).tracked g name = σ'.tracked g name :=
      touches.lookupElement_eq g name 0 none
    rw [Store.named, tracked, Store.named]
    refine congrArg (Option.bind _) (funext fun x => ?_)
    exact map_modifyElement Element.interface σ' e x fun _ => rfl
  exact groupForeachRecursive_invariant elementResetUpdateFlag each ⟨all, rfl⟩

/-- The sweep does to an interface what it does to the interface alone. -/
theorem sweep_named {st : State} (all : st.store.TracksAll g) (wf : st.store.WellFormed)
    (isGroup : g ∈ st.store.groupList) (name : CString) :
    (freeUnusedElements st).store.named g name = Interface.sweep (st.store.named g name) := by
  obtain ⟨-, left⟩ := sweep_top_elements wf isGroup
  obtain ⟨-, tracked⟩ := all.sweep wf isGroup
  rw [Store.named, tracked, Store.named]
  cases found : st.store.tracked g name with
  | none => rfl
  | some e =>
    obtain ⟨member, r, isElement, -⟩ := tracked_eq_some found
    have life : st.store.eLifecycles e = some r.eLifecycles := by
      rw [Store.eLifecycles, isElement, Option.map_some]
    have kept : st.store.interface e = some r.interface := by
      rw [Store.interface, isElement, Option.map_some]
    rw [Option.filter_some, Option.bind_some, kept, Interface.sweep, Option.bind_some]
    by_cases one : r.eLifecycles = 1
    · rw [if_neg (by rw [life, one]; simp), if_pos (show r.interface.eLifecycles = 1 from one)]
      rfl
    · have more : st.store.eLifecycles e ≠ some 1 := by
        rw [life]
        exact fun same => one (Option.some.inj same)
      rw [if_pos (decide_eq_true more), if_neg (show ¬r.interface.eLifecycles = 1 from one),
        Option.bind_some, Store.interface, left e member more, isElement]
      rfl

/-- A turn of the main loop does to an interface what it does to the interface alone, with its
own lines. -/
theorem procCycle_named {st last : State} {c : ProcCycle} (admits : st.store.Admits allows g)
    (all : st.store.TracksAll g) (ran : procCycle ctx g fuel st c = some last) (name : CString) :
    last.store.TracksAll g ∧
      Interface.turn ctx fuel (st.store.named g name) (c.now, ownLines allows name c.content) =
        some (last.store.named g name) := by
  obtain ⟨middle, s, -, fed, kept, swept, -⟩ := procCycle_cases admits ran
  obtain ⟨allReset, sameReset⟩ := resetUpdateFlags_named all name
  have allMiddle := Runs.run_invariant
    (fun σ : Store => σ.Admits allows g ∧ σ.TracksAll g)
    (fun _ _ _ both fedLine => ⟨both.1.feedLine fedLine, both.2.feedLine both.1.wf fedLine⟩)
    ⟨admits.resetUpdateFlags, allReset⟩ fed
  have alone : Runs.run (Interface.feedLine (ctx.atTime c.now) fuel)
      ((resetUpdateFlags st.store).named g name) (ownLines allows name c.content) =
        some (middle.named g name) := by
    refine Runs.run_projection (fun σ : Store => σ.named g name)
      (fun line : ProcLine => decide (line.name = name)) (fun σ : Store => σ.Admits allows g)
      (fun σ line _ next before fedLine => ⟨before.feedLine fedLine, ?_⟩)
      admits.resetUpdateFlags fed
    split_ifs with same
    · obtain rfl := of_decide_eq_true same
      exact feedLine_named_self before.wf before.isGroup fedLine
    · exact feedLine_named_other before.wf before.isGroup fedLine (mt decide_eq_true same)
  have sweeps := sweep_named (show (State.mk middle s).store.TracksAll g from allMiddle.2) kept.wf
    kept.isGroup name
  rw [swept, Interface.turn, ← sameReset]
  refine ⟨((show (State.mk middle s).store.TracksAll g from allMiddle.2).sweep kept.wf
    kept.isGroup).1, ?_⟩
  rw [sweeps]
  exact congrArg (Option.map Interface.sweep) alone

/-- So do some turns, from a group without elements on. -/
theorem procCycles_named {st last : State} {cycles : List ProcCycle} (valid : st.Valid)
    (isGroup : g ∈ st.store.groupList) (empty : st.store.lists (.ofGroup g) = [])
    (ran : Runs.run (procCycle ctx g fuel) st cycles = some last) (name : CString) :
    Runs.run (Interface.turn ctx fuel) none
      (cycles.map fun c => (c.now, ownLines st.store.allows name c.content)) =
        some (last.store.named g name) := by
  have nothing : st.store.named g name = none := by
    have absent : st.store.tracked g name = none := by
      unfold Store.tracked lookupElement
      rw [show listOf g none = .ofGroup g from rfl, empty]
      rfl
    rw [Store.named, absent]
    rfl
  have all : st.store.TracksAll g := fun e member => by
    rw [empty] at member
    cases member
  obtain ⟨i, ranAlone, -, rfl⟩ : ∃ i, Runs.run (fun i c => Interface.turn ctx fuel i
        (c.now, ownLines st.store.allows name c.content)) (st.store.named g name) cycles = some i ∧
      (last.store.Admits st.store.allows g ∧ last.store.TracksAll g) ∧
        i = last.store.named g name := by
    refine Runs.run_simulation
      (fun i (next : State) => (next.store.Admits st.store.allows g ∧ next.store.TracksAll g) ∧
        i = next.store.named g name) (fun i before c after related turned => ?_)
      ⟨⟨admits_empty valid isGroup empty, all⟩, rfl⟩ ran
    obtain ⟨⟨admits, all⟩, rfl⟩ := related
    obtain ⟨kept, moved⟩ := procCycle_named admits all turned name
    exact ⟨_, moved, ⟨procCycle_admits admits turned, kept⟩, rfl⟩
  rw [Runs.run_map, ← nothing]
  exact ranAlone

end

/-- **Interfaces do not disturb each other.** In every run of the main loop with `proc` as its only
input module, whatever the file holds in each turn and whatever the outputs select, what the program
keeps of an interface is what it would keep of it if its own lines before the first denied one were
all that is read. -/
theorem proc_isolated (ctx : ReadContext) (g : GroupPtr) (fuel : Nat) (cycles : List ProcCycle)
    (st last : State) (valid : st.Valid) (isGroup : g ∈ st.store.groupList)
    (empty : st.store.lists (.ofGroup g) = [])
    (ran : Runs.run (procCycle ctx g fuel) st cycles = some last) (name : CString) :
    Runs.run (Interface.turn ctx fuel) none
      (cycles.map fun c => (c.now, ownLines st.store.allows name c.content)) =
        some (last.store.named g name) :=
  procCycles_named valid isGroup empty ran name

/-- The interface that is in both files is kept from the first one on, and the other is gone. -/
theorem proc_isolated_oneLeaves :
    ∃ last, Runs.run (procCycle shortLived 0 0) interfacesStart oneLeaves = some last ∧
      (∀ name, Runs.run (Interface.turn shortLived 0) none (oneLeaves.map fun c =>
        (c.now, ownLines interfacesStart.store.allows name c.content)) =
          some (last.store.named 0 name)) ∧
      (last.store.named 0 eth0).map Interface.eLifecycles = some 1 ∧
      (last.store.named 0 wlan0).map Interface.eLifecycles = none := by
  have run : (Runs.run (procCycle shortLived 0 0) interfacesStart oneLeaves).map (fun last =>
      ((last.store.named 0 eth0).map Interface.eLifecycles,
        (last.store.named 0 wlan0).map Interface.eLifecycles)) = some (some 1, none) := by
    decide +kernel
  obtain ⟨last, ran, kept⟩ := Option.map_eq_some_iff.mp run
  obtain ⟨first, second⟩ := Prod.mk.inj kept
  exact ⟨last, ran, proc_isolated shortLived 0 0 oneLeaves interfacesStart last
    interfacesStart_valid List.mem_cons_self rfl ran, first, second⟩

end Bmon
