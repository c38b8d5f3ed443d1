/-
This file shows that `netlink` and `proc` do not disturb each other when they have groups of their
own.

Both work on one store, and in a turn both are read before the one sweep. What a read does is in the
group of its module, and the elements of the others stay as they are. So after any number of turns
each of the two groups holds what it would hold if its module were the only one.
-/

import Bmon.NetlinkCycles

namespace Bmon

/-! ### What stays as it is -/

/-- The elements of a group, and the lists of the group and of its elements, are the same in a later
store. -/
structure Store.SameGroup (h : GroupPtr) (σ σ' : Store) : Prop where
  groupList : σ'.groupList = σ.groupList
  allows : σ'.allows = σ.allows
  top : σ'.lists (.ofGroup h) = σ.lists (.ofGroup h)
  childs : ∀ p, σ.eGroup p = some h → σ'.lists (.ofElement p) = σ.lists (.ofElement p)
  elements : ∀ x, σ.eGroup x = some h → σ'.elements x = σ.elements x

/-- Only the elements of one group are other ones in a later store. -/
def Store.WorksIn (g : GroupPtr) (σ σ' : Store) : Prop := ∀ h, h ≠ g → Store.SameGroup h σ σ'

section

variable {g h : GroupPtr} {σ σ' σ'' : Store} {allows : CString → Bool}

namespace Store.SameGroup

theorem eGroup (same : Store.SameGroup h σ σ') {x : ElementPtr} (inGroup : σ.eGroup x = some h) :
    σ'.eGroup x = some h := by
  rw [Store.eGroup, Store.place, same.elements x inGroup]
  exact inGroup

theorem trans (first : Store.SameGroup h σ σ') (second : Store.SameGroup h σ' σ'') :
    Store.SameGroup h σ σ'' where
  groupList := second.groupList.trans first.groupList
  allows := second.allows.trans first.allows
  top := second.top.trans first.top
  childs p inGroup := (second.childs p (first.eGroup inGroup)).trans (first.childs p inGroup)
  elements x inGroup := (second.elements x (first.eGroup inGroup)).trans (first.elements x inGroup)

/-- The list of the group, or of one of its elements, is the same. -/
theorem lists (same : Store.SameGroup h σ σ') {parent : Option ElementPtr}
    (above : ∀ p ∈ parent, σ.eGroup p = some h) :
    σ'.lists (listOf h parent) = σ.lists (listOf h parent) := by
  cases parent with
  | none => exact same.top
  | some p => exact same.childs p (above p rfl)

/-- The elements of the group are at the same paths. -/
theorem hasPath_iff (same : Store.SameGroup h σ σ') (wf : σ.WellFormed) {p : Option ElementPtr}
    {path : List LinkKey} : σ'.HasPath h p path ↔ σ.HasPath h p path := by
  have lists {parent : Option ElementPtr} {path : List LinkKey}
      (upper : σ.HasPath h parent path) :
      σ'.lists (listOf h parent) = σ.lists (listOf h parent) :=
    same.lists fun p isParent => (Option.mem_def.mp isParent ▸ upper).eGroup wf
  have key {parent : Option ElementPtr} {path : List LinkKey} {e : ElementPtr}
      (upper : σ.HasPath h parent path) (inList : e ∈ σ.lists (listOf h parent)) :
      σ'.key e = σ.key e := by
    obtain ⟨r, found⟩ : ∃ r, σ.elements e = some r := by
      obtain ⟨place, present, -⟩ := wf.owned _ e inList
      obtain ⟨r, found, -⟩ := place_eq_some_iff.mp present
      exact ⟨r, found⟩
    have isKey : σ.key e = some (r.eName, r.eId) := by rw [Store.key, found, Option.map_some]
    have here : σ.HasPath h (some e) _ := .child upper inList isKey
    rw [Store.key, same.elements e (here.eGroup wf), Store.key]
  constructor
  · intro here
    induction here with
    | top => exact .top
    | child _ inList isKey upperHypothesis =>
      rw [lists upperHypothesis] at inList
      exact .child upperHypothesis inList ((key upperHypothesis inList).symm.trans isKey)
  · intro here
    induction here with
    | top => exact .top
    | child upper inList isKey upperHypothesis =>
      refine .child upperHypothesis ?_ ((key upper inList).trans isKey)
      rw [lists upper]
      exact inList

end Store.SameGroup

theorem Store.WorksIn.refl (g : GroupPtr) (σ : Store) : Store.WorksIn g σ σ :=
  fun _ _ => ⟨rfl, rfl, rfl, fun _ _ => rfl, fun _ _ => rfl⟩

theorem Store.WorksIn.trans (first : Store.WorksIn g σ σ') (second : Store.WorksIn g σ' σ'') :
    Store.WorksIn g σ σ'' := fun h apart => (first h apart).trans (second h apart)

/-- Calls on an element of a group leave the others. -/
theorem Touches.worksIn {e : ElementPtr} (touches : Touches e σ σ')
    (inGroup : σ.eGroup e = some g) : Store.WorksIn g σ σ' := by
  refine fun h apart => ⟨touches.groupList, touches.allows, congrFun touches.lists _,
    fun p _ => congrFun touches.lists _, fun x inOther => touches.others x fun same => apart ?_⟩
  rw [same, inGroup] at inOther
  exact (Option.some.inj inOther).symm

/-- So does creating an element in a group. -/
theorem worksIn_elementCreate (wf : σ.WellFormed) {parent : Option ElementPtr}
    (above : ∀ p ∈ parent, σ.eGroup p = some g) (cfg : Config) (name : CString) (id : UInt32) :
    Store.WorksIn g σ (elementCreate cfg σ g name id parent) := by
  have touches := touches_elementCreate cfg σ g name id parent
  intro h apart
  have lists {head : ListHead} (other : head ≠ listOf g parent) :
      (elementCreate cfg σ g name id parent).lists head = σ.lists head := by
    rw [touches.lists, wf.lists_elementLinked, if_neg other, List.append_nil]
  refine ⟨touches.groupList, touches.allows.trans (funext fun _ => allows_congr rfl rfl rfl),
    lists fun same => ?_, fun p inOther => lists fun same => ?_, fun x inOther => ?_⟩
  · cases parent with
    | none => exact apart (ListHead.ofGroup.inj same)
    | some p => cases same
  · cases parent with
    | none => cases same
    | some p' =>
      obtain rfl := ListHead.ofElement.inj same
      rw [above p rfl] at inOther
      exact apart (Option.some.inj inOther).symm
  · obtain ⟨place, present, -⟩ := eGroup_eq_some_iff.mp inOther
    have old : x ≠ σ.nextElement := (wf.element_lt x place present).ne
    rw [touches.others x old, elements_elementLinked, if_neg old]

theorem worksIn_elementLookup (wf : σ.WellFormed) {parent : Option ElementPtr}
    (above : ∀ p ∈ parent, σ.eGroup p = some g) (cfg : Config) (name : CString) (id : UInt32)
    (creat : Bool) : Store.WorksIn g σ (elementLookup cfg σ g name id parent creat).1 := by
  obtain same | ⟨-, created⟩ := elementLookup_cases cfg σ g name id parent creat
  · rw [same]
    exact .refl g σ
  · rw [created]
    exact worksIn_elementCreate wf above cfg name id

/-! ### The tree and the table of another group -/

variable {tree : LeaseTree.Tree LinkKey} {table : List (CString × Nat)}

/-- The tree of a group is as it was where its elements are. -/
theorem Store.Branching.sameGroup (branching : σ.Branching allows h tree)
    (same : Store.SameGroup h σ σ') (wf : σ'.WellFormed) : σ'.Branching allows h tree where
  wf := wf
  isGroup := same.groupList ▸ branching.isGroup
  policies := same.allows.trans branching.policies
  permitted e key path here :=
    branching.permitted e key path ((same.hasPath_iff branching.wf).mp here)
  distinct path e e' here here' := branching.distinct path e e'
    ((same.hasPath_iff branching.wf).mp here) ((same.hasPath_iff branching.wf).mp here')
  leases path n := by
    rw [branching.leases]
    refine exists_congr fun e => ?_
    rw [same.hasPath_iff branching.wf]
    refine and_congr_right fun here => ?_
    rw [Store.sweeps, Store.eLifecycles, ← same.elements e (here.eGroup branching.wf)]
    rfl

/-- The elements in the list of a group are as they were. -/
theorem Store.SameGroup.elements_of_mem (same : Store.SameGroup h σ σ') (wf : σ.WellFormed)
    {e : ElementPtr} (inList : e ∈ σ.lists (.ofGroup h)) : σ'.elements e = σ.elements e :=
  same.elements e (wf.eGroup_of_mem inList)

/-- What is tracked in a group is as it was where its elements are. -/
theorem Store.Admits.sameGroup (admits : σ.Admits allows h) (same : Store.SameGroup h σ σ')
    (wf : σ'.WellFormed) : σ'.Admits allows h where
  wf := wf
  isGroup := same.groupList ▸ admits.isGroup
  policies := same.allows.trans admits.policies
  permitted name e tracked := by
    refine admits.permitted name e (Eq.trans ?_ tracked)
    unfold Store.tracked lookupElement
    rw [show listOf h none = .ofGroup h from rfl, same.top]
    exact List.find?_congr fun e inList => by rw [same.elements_of_mem admits.wf inList]

/-- So is the table. -/
theorem Store.Leasing.sameGroup (leasing : σ.Leasing h table) (same : Store.SameGroup h σ σ')
    (wf : σ.WellFormed) : σ'.Leasing h table := by
  refine ⟨?_, fun e member r found => ?_⟩
  · rw [← leasing.leases, Store.leases, Store.leases, same.top]
    refine List.filterMap_congr fun e inList => ?_
    rw [Store.lease, same.elements_of_mem wf inList, Store.lease]
  · rw [same.top] at member
    rw [same.elements_of_mem wf member] at found
    exact leasing.ids e member r found

end

/-! ### `netlink` -/

section

variable {nl : Netlink} {ctx : ReadContext} {allows : CString → Bool} {fuel : Nat}
variable {tree : LeaseTree.Tree LinkKey} {σ σ' : Store} {path : List LinkKey}

/-- Calls on an element at a path of a group work in the group. -/
theorem Store.HasPath.worksIn (wf : σ.WellFormed) {g : GroupPtr} {e : ElementPtr}
    (here : σ.HasPath g (some e) path) {calls : List ElementOp}
    (ran : ctx.onElement e calls σ = some σ') : Store.WorksIn g σ σ' :=
  (touches_run ran : Touches e σ σ').worksIn (here.eGroup wf)

/-- So does looking up an element below a path. -/
theorem Store.HasPath.worksIn_elementLookup (wf : σ.WellFormed) {g : GroupPtr}
    {parent : Option ElementPtr} (upper : σ.HasPath g parent path) (cfg : Config) (name : CString)
    (id : UInt32) (creat : Bool) :
    Store.WorksIn g σ (elementLookup cfg σ g name id parent creat).1 :=
  Bmon.worksIn_elementLookup wf
    (fun _ isParent => (Option.mem_def.mp isParent ▸ upper).eGroup wf) cfg name id creat

/-- Steps that renew leases and work in the group do so one after the other. -/
theorem worksIn_run {g : GroupPtr} {Operation : Type*}
    {step : Store → Operation → Option Store} {ops : List Operation}
    (branching : σ.Branching allows g tree)
    (each : ∀ tree σ', σ'.Branching allows g tree → σ.KeepsPaths g σ' → ∀ op ∈ ops, ∀ next,
      step σ' op = some next → (∃ term paths, Store.Renews allows g term tree paths σ' next) ∧
        Store.WorksIn g σ' next)
    (ran : Runs.run step σ ops = some σ') : Store.WorksIn g σ σ' := by
  obtain ⟨-, -, works⟩ := Runs.run_invariant_of_mem
    (fun other : Store => (∃ tree, other.Branching allows g tree) ∧ σ.KeepsPaths g other ∧
      Store.WorksIn g σ other)
    (fun other op member next kept stepped => by
      obtain ⟨⟨tree, before⟩, keeps, works⟩ := kept
      obtain ⟨⟨term, paths, renews⟩, more⟩ := each tree other before keeps op member next stepped
      exact ⟨⟨_, renews.branching⟩, keeps.trans renews.keeps, works.trans more⟩)
    ⟨⟨tree, branching⟩, .refl g σ, .refl g σ⟩ ran
  exact works

section Search

variable {rdata : Rdata}

theorem handleTcObj_worksIn (branching : σ.Branching allows nl.grp tree)
    (upper : σ.HasPath nl.grp (some rdata.parent) path) {kind : TcPrefix} {tc : RtnlTc}
    {result : Option ElementPtr}
    (returned : handleTcObj nl ctx fuel kind rdata σ tc = some (σ', result)) :
    Store.WorksIn nl.grp σ σ' := by
  have looks := upper.worksIn_elementLookup branching.wf ctx.cfg (tcName nl kind tc) tc.handle true
  unfold handleTcObj tcLookup at returned
  rcases branching.elementLookup ctx.cfg upper (tcName nl kind tc) tc.handle with
    ⟨-, looked⟩ | ⟨-, e, n, found, started, here, -⟩
  · simp only [looked] at returned
    obtain ⟨rfl, -⟩ := Prod.mk.inj (Option.some.inj returned)
    exact .refl _ σ
  · simp only [found] at returned
    obtain ⟨calls, -, rest⟩ := Option.bind_eq_some_iff.mp returned
    obtain ⟨last, ran, same⟩ := Option.map_eq_some_iff.mp rest
    obtain ⟨rfl, -⟩ := Prod.mk.inj same
    exact looks.trans (here.worksIn started.wf ran)

theorem findCls_worksIn (branching : σ.Branching allows nl.grp tree)
    (upper : σ.HasPath nl.grp (some rdata.parent) path) {ifindex parent : UInt32}
    (returned : findCls nl ctx fuel ifindex parent rdata σ = some σ') :
    Store.WorksIn nl.grp σ σ' := by
  unfold findCls at returned
  split at returned
  · obtain rfl := Option.some.inj returned
    exact .refl _ σ
  · refine worksIn_run branching (fun tree σ' before keeps tc _ next called => ?_) returned
    obtain ⟨⟨last, result⟩, handled, rfl⟩ := Option.map_eq_some_iff.mp called
    exact ⟨⟨_, _, (handleTcObj_renews before (keeps _ _ upper) handled).1⟩,
      handleTcObj_worksIn before (keeps _ _ upper) handled⟩

theorem tcEnter_worksIn (branching : σ.Branching allows nl.grp tree)
    (upper : σ.HasPath nl.grp (some rdata.parent) path) {node : TcNode} {below : Option Rdata}
    (returned : tcEnter nl ctx fuel rdata σ node = some (σ', below)) :
    Store.WorksIn nl.grp σ σ' := by
  cases node with
  | ofClass tc =>
    obtain ⟨⟨last, result⟩, handled, same⟩ := Option.map_eq_some_iff.mp returned
    obtain ⟨renews, hasPath, -⟩ := handleTcObj_renews branching upper handled
    have works := handleTcObj_worksIn branching upper handled
    cases result with
    | none =>
      obtain ⟨rfl, -⟩ := Prod.mk.inj same
      exact works
    | some e =>
      obtain ⟨rfl, -⟩ := Prod.mk.inj same
      split_ifs
      · have called : ElementOp.apply ctx.cfg last e (.setTxmax tc.htbRate) =
            some (elementSetTxmax last e tc.htbRate) := rfl
        exact works.trans ((ElementOp.touches called).worksIn
          ((hasPath e rfl).eGroup renews.branching.wf))
      · exact works
  | ofQdisc tc =>
    obtain ⟨⟨middle, result⟩, handled, rest⟩ := Option.bind_eq_some_iff.mp returned
    obtain ⟨renews, hasPath, -⟩ := handleTcObj_renews branching upper handled
    have works := handleTcObj_worksIn branching upper handled
    cases result with
    | none =>
      obtain ⟨rfl, -⟩ := Prod.mk.inj (Option.some.inj rest)
      exact works
    | some e =>
      obtain ⟨σ₁, foundCls, rest⟩ := Option.bind_eq_some_iff.mp rest
      obtain ⟨σ₂, foundRoot, same⟩ := Option.map_eq_some_iff.mp rest
      obtain ⟨rfl, -⟩ := Prod.mk.inj same
      have here := hasPath e rfl
      have found := findCls_renews renews.branching here foundCls
      have first := works.trans (findCls_worksIn renews.branching here foundCls)
      split_ifs at foundRoot
      · exact first.trans (findCls_worksIn found.branching (found.keeps _ _ here) foundRoot)
      · obtain rfl := Option.some.inj foundRoot
        exact first

theorem walk_worksIn {cache : QdiscCache} {classes : List RtnlTc}
    (branching : σ.Branching allows nl.grp tree)
    (upper : σ.HasPath nl.grp (some rdata.parent) path) {node : TcNode}
    (walked : Descent.walk (tcEnter nl ctx) (tcChildren cache classes) fuel rdata σ node =
      some σ') : Store.WorksIn nl.grp σ σ' := by
  induction fuel generalizing tree σ σ' path rdata node with
  | zero => cases walked
  | succ fuel inductionHypothesis =>
    rw [Descent.walk] at walked
    obtain ⟨⟨middle, below⟩, entered, rest⟩ := Option.bind_eq_some_iff.mp walked
    have works := tcEnter_worksIn branching upper entered
    rcases tcEnter_renews branching upper entered with
      ⟨-, rfl, -⟩ | ⟨-, ndata, rfl, here, renews⟩
    · obtain rfl := Option.some.inj rest
      exact works
    · refine works.trans (worksIn_run renews.branching
        (fun tree σ' before keeps other _ next walkedChild => ?_) rest)
      exact ⟨⟨_, _, walk_renews before (keeps _ _ here) walkedChild⟩,
        inductionHypothesis before (keeps _ _ here) walkedChild⟩

end Search

/-! ### Links -/

variable {link : RtnlLink}

theorem linkTc_worksIn (branching : σ.Branching allows nl.grp tree) {e : ElementPtr}
    (upper : σ.HasPath nl.grp (some e) path)
    (returned : linkTc nl ctx fuel e link σ = some σ') : Store.WorksIn nl.grp σ σ' := by
  have nothing (same : some σ = some σ') : Store.WorksIn nl.grp σ σ' := by
    rw [← Option.some.inj same]
    exact .refl _ σ
  unfold linkTc at returned
  split at returned
  · next cache isCache =>
    split_ifs at returned
    · exact nothing returned
    · cases allocated : nl.classAllocCache link.ifindex with
      | none =>
        unfold handleTc at returned
        rw [allocated] at returned
        exact nothing returned
      | some classes =>
        rw [handleTc_eq_walk allocated] at returned
        exact worksIn_run branching (fun tree σ' before keeps start _ next walked =>
          ⟨⟨_, _, walk_renews before (keeps _ _ upper) walked⟩,
            walk_worksIn before (keeps _ _ upper) walked⟩) returned
  · exact nothing returned

theorem linkUpdate_worksIn (branching : σ.Branching allows nl.grp tree) {e : ElementPtr}
    (here : σ.HasPath nl.grp (some e) path)
    (returned : linkUpdate nl ctx fuel link e σ = some σ') : Store.WorksIn nl.grp σ σ' := by
  obtain ⟨calls, -, rest⟩ := Option.bind_eq_some_iff.mp returned
  obtain ⟨first, ran, rest⟩ := Option.bind_eq_some_iff.mp rest
  obtain ⟨second, searched, ends⟩ := Option.bind_eq_some_iff.mp rest
  have touches : Touches e σ first := touches_run ran
  obtain ⟨n, updated⟩ := branching.touched here touches
  have stays := touches.keepsPaths _ _ here
  have tc := linkTc_renews updated stays searched
  have works := (here.worksIn branching.wf ran).trans (linkTc_worksIn updated stays searched)
  exact works.trans ((tc.keeps _ _ stays).worksIn tc.branching.wf ends)

theorem doLink_worksIn (branching : σ.Branching allows nl.grp tree)
    {used : Store × Option ElementPtr} (returned : doLink nl ctx fuel σ link = some used) :
    Store.WorksIn nl.grp σ used.1 := by
  have upper := hasPath_linkParent branching ctx link
  have looks := upper.worksIn_elementLookup branching.wf ctx.cfg link.name link.ifindex true
  unfold doLink at returned
  split_ifs at returned
  · obtain rfl := Option.some.inj returned
    exact .refl _ σ
  · unfold linkLookup at returned
    rcases branching.elementLookup ctx.cfg upper link.name link.ifindex with
      ⟨-, looked⟩ | ⟨-, e, n, found, started, here, -⟩
    · simp only [looked] at returned
      obtain rfl := Option.some.inj returned
      exact .refl _ σ
    · simp only [found] at returned
      obtain ⟨last, updated, rfl⟩ := Option.map_eq_some_iff.mp returned
      exact looks.trans (linkUpdate_worksIn started here updated)

theorem doLinks_worksIn (branching : σ.Branching allows nl.grp tree) {links : List RtnlLink}
    {last : Pass Store (List (Option ElementPtr))}
    (looped : doLinks nl ctx fuel σ links = some last) : Store.WorksIn nl.grp σ last.state := by
  induction links generalizing tree σ last with
  | nil =>
    obtain rfl := Option.some.inj looped
    exact .refl _ σ
  | cons link links inductionHypothesis =>
    obtain ⟨pass, passed, next⟩ := Pass.loop_cons looped
    obtain ⟨used, returned, rfl⟩ := Option.map_eq_some_iff.mp passed
    obtain ⟨leaves, -⟩ | ⟨-, rest, loopedRest, rfl⟩ := next
    · cases leaves
    · have others := inductionHypothesis (doLink_renews branching returned).branching loopedRest
      exact (doLink_worksIn branching returned).trans others

/-- A read of `netlink` works in its group. -/
theorem netlinkRead_worksIn {g : GroupPtr} {c : NetlinkCycle}
    (branching : σ.Branching allows g tree) {enabled : Bool} {read : Store × Bool}
    (returned : (if enabled then netlinkRead ctx g fuel c σ else some (σ, false)) = some read) :
    Store.WorksIn g σ read.1 := by
  unfold netlinkRead at returned
  split_ifs at returned
  · obtain ⟨pass, looped, rfl⟩ := Option.map_eq_some_iff.mp returned
    exact doLinks_worksIn (show σ.Branching allows (c.netlink g).grp tree from branching) looped
  · obtain rfl := Option.some.inj returned
    exact .refl g σ
  · obtain rfl := Option.some.inj returned
    exact .refl g σ

end

/-! ### `proc` -/

section

variable {ctx : ReadContext} {allows : CString → Bool} {g : GroupPtr} {fuel : Nat}
variable {σ σ' : Store}

theorem feedLine_worksIn (wf : σ.WellFormed) {line : ProcLine}
    (fed : ctx.feedLine g fuel σ line = some σ') : Store.WorksIn g σ σ' := by
  obtain ⟨looked, e, lookedUp, found, ran⟩ := feedLine_cases fed
  obtain ⟨calls, middle, -, ranSetUp, either⟩ := lookUp_cases lookedUp found
  have touches := (touches_run ranSetUp).trans (touches_run ran)
  obtain ⟨tracked, rfl⟩ | ⟨-, -, rfl, rfl⟩ := either
  · exact touches.worksIn (wf.eGroup_of_mem (tracked_eq_some tracked).1)
  · have created : Store.WorksIn g σ (elementCreate ctx.cfg σ g line.name 0 none) :=
      worksIn_elementCreate wf (fun p above => by cases above) ctx.cfg line.name 0
    refine created.trans (touches.worksIn ?_)
    have place : (elementCreate ctx.cfg σ g line.name 0 none).place σ.nextElement =
        some ⟨none, g⟩ := by
      rw [(sameStanding_elementCreate ctx.cfg σ g line.name 0 none).place]
      change (elementAlloc σ _).place _ = _
      rw [elementAlloc_place, if_pos rfl]
      rfl
    exact eGroup_eq_some_iff.mpr ⟨_, place, rfl⟩

/-- A read of `proc` works in its group. -/
theorem procRead_worksIn (admits : σ.Admits allows g) {content : List Char}
    {last : Pass Store (List (List InputOp))}
    (read : procRead ctx g fuel content σ = some last) : Store.WorksIn g σ last.state :=
  (Runs.run_invariant (fun other : Store => other.Admits allows g ∧ Store.WorksIn g σ other)
    (fun _ _ _ kept fed => ⟨kept.1.feedLine fed,
      kept.2.trans (feedLine_worksIn kept.1.wf fed)⟩) ⟨admits, .refl g σ⟩
    (admits.procRead read)).2

end

/-! ### Turns with both modules -/

/-- The input modules that are enabled. -/
inductive ReadModule where
  | netlink
  | proc
  deriving DecidableEq, Repr

/-- What happens in a turn in which both modules are read: as with `netlink`, and the file that
`proc` reads. -/
structure PairCycle where
  turn : NetlinkCycle
  content : List Char

/-- The same attributes and the same time for a module with another field `attrid`. -/
def ReadContext.withAttrid (ctx : ReadContext) (attrid : String → Nat) : ReadContext :=
  { ctx with attrid := attrid }

section Pair

variable (ctx : ReadContext) (attrid : String → Nat) (g g' : GroupPtr) (fuel : Nat)

/-- The read of one module in `module_foreach_run_enabled`, with the bit of `netlink` after it. -/
def moduleDo (c : PairCycle) (read : Store × Bool) : ReadModule → Option (Store × Bool)
  | .netlink => if read.2 then netlinkRead ctx g fuel c.turn read.1 else some (read.1, false)
  | .proc => (procRead ((ctx.withAttrid attrid).atTime c.turn.now) g' fuel c.content read.1).map
      fun pass => (pass.state, read.2)

/-- One turn of the main loop, with the input modules in the order of their list. -/
def pairCycle (modules : List ReadModule) (st : NetlinkState) (c : PairCycle) :
    Option NetlinkState :=
  (Runs.run (step ctx.cfg) st.program (c.turn.selects.map Op.output ++ [.resetUpdateFlags])).bind
    fun reading =>
      (Runs.run (moduleDo ctx attrid g g' fuel c) (reading.store, st.enabled) modules).bind
        fun read => (Runs.run (step ctx.cfg) { reading with store := read.1 }
          (.freeUnusedElements :: c.turn.draws.map Op.output)).map fun program =>
            ⟨program, read.2⟩

end Pair

/-- The elements of one group are a tree of leases, and those of another one a table. -/
structure Store.Both (allows : CString → Bool) (g g' : GroupPtr) (tree : LeaseTree.Tree LinkKey)
    (table : List (CString × Nat)) (σ : Store) : Prop where
  branching : σ.Branching allows g tree
  admits : σ.Admits allows g'
  leasing : σ.Leasing g' table

section

variable {ctx : ReadContext} {attrid : String → Nat} {g g' : GroupPtr} {fuel : Nat}
variable {allows : CString → Bool} {tree : LeaseTree.Tree LinkKey} {table : List (CString × Nat)}
variable {σ : Store} {st last : NetlinkState} {c : PairCycle} {modules : List ReadModule}

namespace Store.Both

theorem resetUpdateFlags (both : σ.Both allows g g' tree table) :
    (Bmon.resetUpdateFlags σ).Both allows g g' tree table :=
  ⟨both.branching.resetUpdateFlags, both.admits.resetUpdateFlags, both.leasing.resetUpdateFlags⟩

theorem sweep {st : State} (both : st.store.Both allows g g' tree table) :
    (freeUnusedElements st).store.Both allows g g' (LeaseTree.expire tree)
      (Leases.expire table) :=
  ⟨both.branching.sweep, both.admits.sweep, both.leasing.sweep both.admits.wf both.admits.isGroup⟩

/-- `netlink` renews leases of the tree and leaves the table. -/
theorem netlinkRead (both : σ.Both allows g g' tree table) (apart : g' ≠ g) {enabled : Bool}
    {read : Store × Bool} {c : NetlinkCycle}
    (returned : (if enabled then Bmon.netlinkRead ctx g fuel c σ else some (σ, false)) =
      some read) :
    read.2 = (enabled && c.resynced) ∧ read.1.Both allows g g' (LeaseTree.renew ctx.term
      ((if enabled && c.resynced then c else c.silent).touched g allows tree) tree) table := by
  obtain ⟨enabled, branching⟩ := netlinkRead_branching both.branching returned
  have same := netlinkRead_worksIn both.branching returned g' apart
  exact ⟨enabled, branching, both.admits.sameGroup same branching.wf,
    both.leasing.sameGroup same both.admits.wf⟩

/-- `proc` renews leases of the table and leaves the tree. -/
theorem procRead (both : σ.Both allows g g' tree table) (apart : g' ≠ g) {content : List Char}
    {last : Pass Store (List (List InputOp))}
    (read : Bmon.procRead ctx g' fuel content σ = some last) :
    last.state.Both allows g g' tree ((acceptedNames allows content).foldl
      (fun table name => Leases.renew ctx.term name table) table) := by
  have fed := both.admits.procRead read
  have renewed := Runs.run_foldl
    (fun table σ => σ.Admits allows g' ∧ σ.Leasing g' table)
    (fun table line => Leases.renew (sweepsLeft (getLifecycles ctx.cfg)) line.name table)
    (fun table σ line _ next kept fedLine =>
      ⟨kept.1.feedLine fedLine, kept.2.feedLine kept.1.wf fedLine⟩)
    ⟨both.admits, both.leasing⟩ fed
  have same := procRead_worksIn both.admits read g apart.symm
  rw [acceptedNames, List.foldl_map]
  exact ⟨both.branching.sameGroup same renewed.1.wf, renewed.1, renewed.2⟩

end Store.Both

theorem perm_modules (order : modules.Perm [.netlink, .proc]) :
    modules = [.netlink, .proc] ∨ modules = [.proc, .netlink] := by
  obtain ⟨first, second, rfl⟩ := List.length_eq_two.mp order.length_eq
  cases first <;> cases second
  · exact absurd order (by decide)
  · exact Or.inl rfl
  · exact Or.inr rfl
  · exact absurd order (by decide)

/-- A turn reads the modules between the reset and the sweep. -/
theorem pairCycle_cases (ran : pairCycle ctx attrid g g' fuel modules st c = some last) :
    ∃ (read : Store × Bool) (s : Selection),
      Runs.run (moduleDo ctx attrid g g' fuel c)
        (resetUpdateFlags st.program.store, st.enabled) modules = some read ∧
      last.enabled = read.2 ∧ last.program.store = (freeUnusedElements ⟨read.1, s⟩).store := by
  obtain ⟨s, before⟩ := run_beforeRead ctx.cfg st.program c.turn.selects
  unfold pairCycle at ran
  rw [before, Option.bind_some] at ran
  obtain ⟨read, reads, after⟩ := Option.bind_eq_some_iff.mp ran
  obtain ⟨program, drawn, rfl⟩ := Option.map_eq_some_iff.mp after
  obtain ⟨s', draws⟩ := run_output ctx.cfg (freeUnusedElements ⟨read.1, s⟩) c.turn.draws
  obtain rfl := Option.some.inj (draws.symm.trans drawn)
  exact ⟨read, s, reads, rfl, rfl⟩

/-- With enough fuel a read of `proc` returns. -/
theorem procRead_ends (defined : ctx.Defined) (intervals : ctx.PositiveIntervals)
    (positive : σ.PositiveIntervals) (wf : σ.WellFormed) (isGroup : g ∈ σ.groupList)
    (content : List Char) :
    ∃ enough after, Store.PositiveIntervals after ∧ ∀ fuel, enough ≤ fuel →
      (procRead ctx g fuel content σ).map Pass.state = some after := by
  obtain ⟨enough, after, leaves, ⟨-, kept⟩, returns⟩ := Pass.loop_returns (procPass ctx g)
    (fun st => (st.WellFormed ∧ g ∈ st.groupList) ∧ st.PositiveIntervals)
    ((fgetsAll 511 content.length content).drop 2)
    (fun _ buf _ invariant => procPass_returns defined intervals invariant buf)
    ⟨⟨wf, isGroup⟩, positive⟩
  refine ⟨enough, after, kept, fun fuel more => ?_⟩
  obtain ⟨outputs, looped⟩ := returns fuel more
  rw [procRead, looped]
  rfl

/-- What turns with both modules keep, if it is to make them return. -/
structure PairInvariant (ctx : ReadContext) (attrid : String → Nat) (g g' : GroupPtr)
    (modules : List ReadModule) (allows : CString → Bool) (invariant : Store → Prop) : Prop where
  branching : ∀ σ, invariant σ → ∃ tree, σ.Branching allows g tree
  admits : ∀ σ, invariant σ → σ.Admits allows g'
  reset : ∀ σ, invariant σ → invariant (resetUpdateFlags σ)
  read : ∀ fuel c read m next, invariant read.1 →
    moduleDo ctx attrid g g' fuel c read m = some next → invariant next.1
  turn : ∀ fuel c st next, invariant st.program.store →
    pairCycle ctx attrid g g' fuel modules st c = some next → invariant next.program.store

section

variable {invariant : Store → Prop}
variable (keeps : PairInvariant ctx attrid g g' modules allows invariant) (loaded : ctx.Loaded)
variable (intervals : ctx.PositiveIntervals)

include keeps loaded intervals

/-- The read of each module returns. -/
theorem moduleDo_ends (ends : c.turn.Ends) {read : Store × Bool} (kept : invariant read.1)
    (positive : read.1.PositiveIntervals) (m : ReadModule) :
    ∃ enough next, (invariant (Prod.fst next) ∧ next.1.PositiveIntervals) ∧
      ∀ fuel, enough ≤ fuel → moduleDo ctx attrid g g' fuel c read m = some next := by
  obtain ⟨enough, next, positiveNext, returns⟩ : ∃ enough next,
      Store.PositiveIntervals (Prod.fst next) ∧
        ∀ fuel, enough ≤ fuel → moduleDo ctx attrid g g' fuel c read m = some next := by
    obtain ⟨σ, enabled⟩ := read
    cases m with
    | netlink =>
      obtain ⟨tree, branching⟩ := keeps.branching σ kept
      cases enabled with
      | true => exact netlinkRead_ends loaded intervals branching positive ends
      | false => exact ⟨0, (σ, false), positive, fun _ _ => rfl⟩
    | proc =>
      have definedNow : ((ctx.withAttrid attrid).atTime c.turn.now).Defined :=
        ⟨loaded.bytes, loaded.packets⟩
      have admits := keeps.admits σ kept
      obtain ⟨enough, after, positiveAfter, returns⟩ :=
        procRead_ends definedNow intervals positive admits.wf admits.isGroup c.content
      refine ⟨enough, (after, enabled), positiveAfter, fun fuel more => ?_⟩
      obtain ⟨pass, reads, rfl⟩ := Option.map_eq_some_iff.mp (returns fuel more)
      unfold moduleDo
      rw [reads, Option.map_some]
  exact ⟨enough, next, ⟨keeps.read enough c read m next kept (returns enough le_rfl),
    positiveNext⟩, returns⟩

/-- With the attributes defined, positive intervals and searches that come to their end, a turn
returns. -/
theorem pairCycle_returns (ends : c.turn.Ends) (kept : invariant st.program.store)
    (positive : st.program.store.PositiveIntervals) :
    ∃ enough next, (invariant (NetlinkState.program next).store ∧
        next.program.store.PositiveIntervals) ∧
      ∀ fuel, enough ≤ fuel → pairCycle ctx attrid g g' fuel modules st c = some next := by
  obtain ⟨enough, read, ⟨middle, positiveRead⟩, reads⟩ : ∃ enough read,
      (invariant (Prod.fst read) ∧ read.1.PositiveIntervals) ∧ ∀ fuel, enough ≤ fuel →
        Runs.run (moduleDo ctx attrid g g' fuel c)
          (resetUpdateFlags st.program.store, st.enabled) modules = some read :=
    Runs.run_returns (fun read : Store × Bool => invariant read.1 ∧ read.1.PositiveIntervals)
      (fun _ m _ before => moduleDo_ends keeps loaded intervals ends before.1 before.2 m)
      ⟨keeps.reset _ kept, positiveIntervals_resetUpdateFlags positive⟩
  obtain ⟨s, selects⟩ := run_beforeRead ctx.cfg st.program c.turn.selects
  obtain ⟨s', draws⟩ := run_output ctx.cfg (freeUnusedElements ⟨read.1, s⟩) c.turn.draws
  have turns (fuel : Nat) (more : enough ≤ fuel) :
      pairCycle ctx attrid g g' fuel modules st c =
        some ⟨⟨(freeUnusedElements ⟨read.1, s⟩).store, s'⟩, read.2⟩ := by
    rw [pairCycle, selects, Option.bind_some, reads fuel more, Option.bind_some]
    exact Option.map_eq_some_iff.mpr ⟨_, draws, rfl⟩
  have wf : (State.mk read.1 s).store.WellFormed := (keeps.admits read.1 middle).wf
  exact ⟨enough, _, ⟨keeps.turn enough c st _ kept (turns enough le_rfl),
    positiveIntervals_sweep wf positiveRead⟩, turns⟩

/-- So do any number of turns. -/
theorem pairCycles_return (kept : invariant st.program.store)
    (positive : st.program.store.PositiveIntervals) {cycles : List PairCycle}
    (ends : ∀ c ∈ cycles, c.turn.Ends) :
    ∃ enough last, ∀ fuel, enough ≤ fuel →
      Runs.run (pairCycle ctx attrid g g' fuel modules) st cycles = some last := by
  obtain ⟨enough, last, -, returns⟩ := Runs.run_returns
    (fun st : NetlinkState => invariant st.program.store ∧ st.program.store.PositiveIntervals)
    (fun _ c member before =>
      pairCycle_returns keeps loaded intervals (ends c member) before.1 before.2)
    ⟨kept, positive⟩
  exact ⟨enough, last, returns⟩

end

end

/-- A turn in which both modules find `eth0`. -/
def pairTurn : PairCycle := ⟨htbTurn, twoInterfaces⟩

end Bmon
