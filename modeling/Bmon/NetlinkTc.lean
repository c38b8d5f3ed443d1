/-
This file shows when the search for traffic-control objects comes to its end.

`handle_qdisc` goes on to the classes whose parent is the handle of the discipline, and
`handle_class` to the classes and disciplines whose parent is the handle of the class. Nothing
remembers where the search has been, and handles are not unique: disciplines that the kernel sets
up by itself have the handle zero. The search descends from object to object, and comes to its end
just when it does not find an object again below itself.
-/

import Bmon.InputReads
import Bmon.Lib.Descent
import Bmon.Netlink
import Mathlib.Data.Set.Finite.Basic

namespace Bmon

/-! ### The objects below an object -/

/-- A discipline or a class, as the search comes to it. -/
inductive TcNode where
  | ofQdisc (tc : RtnlTc)
  | ofClass (tc : RtnlTc)

/-- Those objects the search goes on to, in their order. -/
def tcChildren (cache : QdiscCache) (classes : List RtnlTc) : TcNode → List TcNode
  | .ofQdisc tc =>
    (if tc.parent = tcHRoot then
      (classes.filter fun other => other.parent = tcHRoot).map .ofClass
    else []) ++ (classes.filter fun other => other.parent = tc.handle).map .ofClass
  | .ofClass tc =>
    (classes.filter fun other => other.parent = tc.handle).map .ofClass ++
      (cache.objects.filter fun other =>
        other.parent = tc.handle ∧ other.ifindex = tc.ifindex).map .ofQdisc

/-- The disciplines `handle_tc` starts from. -/
def tcStarts (cache : QdiscCache) (ifindex : UInt32) : List TcNode :=
  ([tcHRoot, 0, tcHIngress].filterMap (cache.getByParent ifindex)).map .ofQdisc

/-- No object that the search comes to is found again below itself. -/
def NoneRecurs (nl : Netlink) (cache : QdiscCache) (ifindex : UInt32) : Prop :=
  ∀ classes, nl.classAllocCache ifindex = some classes → ∀ start ∈ tcStarts cache ifindex,
    ∀ node, Descent.Reaches (tcChildren cache classes) start node →
      ¬ Descent.Recurs (tcChildren cache classes) node

/-- Only cached objects are found below others. -/
theorem tcChildren_mem {cache : QdiscCache} {classes : List RtnlTc} {node child : TcNode}
    (isChild : child ∈ tcChildren cache classes node) :
    child ∈ cache.objects.map .ofQdisc ++ classes.map .ofClass := by
  have ofClasses (filter : RtnlTc → Bool)
      (member : child ∈ (classes.filter filter).map TcNode.ofClass) :
      child ∈ cache.objects.map .ofQdisc ++ classes.map .ofClass := by
    obtain ⟨tc, kept, rfl⟩ := List.mem_map.mp member
    exact List.mem_append_right _ (List.mem_map_of_mem (List.mem_of_mem_filter kept))
  cases node with
  | ofQdisc tc =>
    unfold tcChildren at isChild
    rcases List.mem_append.mp isChild with member | member
    · split_ifs at member
      · exact ofClasses _ member
      · cases member
    · exact ofClasses _ member
  | ofClass tc =>
    unfold tcChildren at isChild
    rcases List.mem_append.mp isChild with member | member
    · exact ofClasses _ member
    · obtain ⟨other, kept, rfl⟩ := List.mem_map.mp member
      exact List.mem_append_left _ (List.mem_map_of_mem (List.mem_of_mem_filter kept))

/-- What is reached is the start or cached. -/
theorem tcReaches_mem {cache : QdiscCache} {classes : List RtnlTc} {start node : TcNode}
    (reaches : Descent.Reaches (tcChildren cache classes) start node) :
    node ∈ start :: (cache.objects.map .ofQdisc ++ classes.map .ofClass) := by
  rcases reaches.cases_tail with rfl | ⟨_, -, isChild⟩
  · exact List.mem_cons_self
  · exact List.mem_cons_of_mem _ (tcChildren_mem isChild)

/-- The objects are finitely many. -/
theorem finite_tcReaches (cache : QdiscCache) (classes : List RtnlTc) (start : TcNode) :
    {node | Descent.Reaches (tcChildren cache classes) start node}.Finite :=
  (List.finite_toSet _).subset fun _ => tcReaches_mem

theorem tcStarts_mem {cache : QdiscCache} {ifindex : UInt32} {start : TcNode}
    (isStart : start ∈ tcStarts cache ifindex) :
    ∃ tc ∈ cache.objects, start = .ofQdisc tc := by
  obtain ⟨tc, found, rfl⟩ := List.mem_map.mp isStart
  obtain ⟨parent, -, byParent⟩ := List.mem_filterMap.mp found
  exact ⟨tc, (cache.getByParent_mem _ _ _ byParent).1, rfl⟩

/-! ### The search is a walk -/

section Search

variable (nl : Netlink) (ctx : ReadContext)

/-- What `handle_class` and `handle_qdisc` do before they go on to other objects, with the
`struct rdata` for these. -/
def tcEnter (fuel : Nat) (rdata : Rdata) (σ : Store) : TcNode → Option (Store × Option Rdata)
  | .ofClass tc =>
    (handleTcObj nl ctx fuel .ofClass rdata σ tc).map fun handled =>
      match handled.2 with
      | none => (handled.1, none)
      | some e =>
        (if tc.kind = htb then elementSetTxmax handled.1 e tc.htbRate else handled.1,
          some (rdata.below e))
  | .ofQdisc tc =>
    (handleTcObj nl ctx fuel .ofQdisc rdata σ tc).bind fun handled =>
      match handled.2 with
      | none => some (handled.1, none)
      | some e =>
        let ndata := rdata.below e
        (findCls nl ctx fuel tc.ifindex tc.handle ndata handled.1).bind fun σ =>
          (if tc.parent = tcHRoot then findCls nl ctx fuel tc.ifindex tcHRoot ndata σ
          else some σ).map fun σ => (σ, some ndata)

/-- `handle_class` or `handle_qdisc`. -/
def handleTcNode (cache : QdiscCache) (fuel : Nat) (rdata : Rdata) (σ : Store) :
    TcNode → Option Store
  | .ofClass tc => handleClass nl ctx cache fuel rdata σ tc
  | .ofQdisc tc => handleQdisc nl ctx cache fuel rdata σ tc

/-- The calls of `handle_class` and `handle_qdisc` in `handle_tc`, as far as it gets. -/
def handleTcCalls (cache : QdiscCache) (fuel : Nat) (e : ElementPtr) (ifindex : UInt32)
    (σ : Store) : List TcNode :=
  match nl.classAllocCache ifindex with
  | none => []
  | some classes =>
    Runs.outputs (Descent.visits (tcEnter nl ctx) (tcChildren cache classes) fuel ⟨classes, e, 1⟩)
      (Descent.walk (tcEnter nl ctx) (tcChildren cache classes) fuel ⟨classes, e, 1⟩) σ
      (tcStarts cache ifindex)

end Search

section Search

variable {nl : Netlink} {ctx : ReadContext} {cache : QdiscCache} {classes : List RtnlTc}

theorem findClasses_eq (fuel : Nat) {rdata : Rdata} (sameClasses : rdata.classCache = classes)
    (parent : UInt32) (σ : Store) :
    findClasses (handleClass nl ctx cache fuel) parent rdata σ =
      Runs.run (handleTcNode nl ctx cache fuel rdata) σ
        ((classes.filter fun tc => tc.parent = parent).map .ofClass) := by
  rw [Runs.run_map, findClasses, sameClasses]
  rfl

theorem findQdiscs_eq (fuel : Nat) (ifindex parent : UInt32) (rdata : Rdata) (σ : Store) :
    findQdiscs cache (handleQdisc nl ctx cache fuel) ifindex parent rdata σ =
      Runs.run (handleTcNode nl ctx cache fuel rdata) σ
        ((cache.objects.filter fun tc => tc.parent = parent ∧ tc.ifindex = ifindex).map
          .ofQdisc) := by
  rw [Runs.run_map]
  rfl

/-- `handle_class` and `handle_qdisc` walk through the objects below. -/
theorem handleTcNode_eq_walk (fuel : Nat) {rdata : Rdata} (sameClasses : rdata.classCache = classes)
    (σ : Store) (node : TcNode) :
    handleTcNode nl ctx cache fuel rdata σ node =
      Descent.walk (tcEnter nl ctx) (tcChildren cache classes) fuel rdata σ node := by
  induction fuel generalizing rdata σ node with
  | zero => cases node <;> rfl
  | succ fuel inductionHypothesis =>
    have below {ndata : Rdata} (same : ndata.classCache = classes) :
        Descent.walk (tcEnter nl ctx) (tcChildren cache classes) fuel ndata =
          handleTcNode nl ctx cache fuel ndata :=
      funext fun σ => funext fun other => (inductionHypothesis same σ other).symm
    cases node with
    | ofClass tc =>
      show handleClass nl ctx cache (fuel + 1) rdata σ tc = _
      rw [handleClass, Descent.walk, tcEnter, Option.bind_map]
      refine congrArg _ (funext fun result => ?_)
      obtain ⟨σ', handled⟩ := result
      cases handled with
      | none => rfl
      | some e =>
        have same : (rdata.below e).classCache = classes := sameClasses
        simp only [Function.comp_apply]
        rw [below same, tcChildren, Runs.run_append_eq, findClasses_eq fuel same]
        exact congrArg _ (funext fun σ => findQdiscs_eq fuel _ _ _ σ)
    | ofQdisc tc =>
      show handleQdisc nl ctx cache (fuel + 1) rdata σ tc = _
      rw [handleQdisc, Descent.walk, tcEnter, Option.bind_assoc]
      refine congrArg _ (funext fun result => ?_)
      obtain ⟨σ', handled⟩ := result
      cases handled with
      | none => rfl
      | some e =>
        have same : (rdata.below e).classCache = classes := sameClasses
        simp only [Option.bind_assoc]
        refine congrArg _ (funext fun σ => ?_)
        have last : findClasses (handleClass nl ctx cache fuel) tc.handle (rdata.below e) = _ :=
          funext (findClasses_eq fuel same tc.handle)
        rw [Option.bind_map, last]
        split_ifs with isRoot
        · have root : findClasses (handleClass nl ctx cache fuel) tcHRoot (rdata.below e) = _ :=
            funext (findClasses_eq fuel same tcHRoot)
          rw [root, Option.bind_assoc]
          refine congrArg _ (funext fun σ => ?_)
          simp only [Function.comp_apply]
          rw [below same, tcChildren, if_pos isRoot, Runs.run_append_eq]
        · rw [Option.bind_some, Option.bind_some]
          simp only [Function.comp_apply]
          rw [below same, tcChildren, if_neg isRoot, List.nil_append]

end Search

/-! ### Entering an object -/

/-- The attributes that the module loads are defined. -/
structure ReadContext.Loaded (ctx : ReadContext) : Prop extends ReadContext.Defined ctx where
  tcBytes : (attrDefLookup ctx.attrDefs "tc_bytes").isSome
  tcPackets : (attrDefLookup ctx.attrDefs "tc_packets").isSome

/-- A store in which the search finds its way: all histories have positive intervals, and the
names that are allowed are the given ones. -/
structure Store.Searchable (σ : Store) (allowed : CString → Bool) : Prop where
  positive : σ.PositiveIntervals
  allows : σ.allows = allowed

section Enter

variable {nl : Netlink} {ctx : ReadContext} {allowed : CString → Bool} {σ σ' : Store}

/-- Setting up a new element is no loop over time. -/
theorem newElementCalls_instant {major minor : String} {level : UInt32}
    {infos : List (String × String)} {r : Element} {calls : List ElementOp}
    (setUp : ctx.newElementCalls major minor level infos r = some calls) :
    ∀ op ∈ calls, op.Instant ∧ op.PositiveIntervals := by
  unfold ReadContext.newElementCalls at setUp
  split_ifs at setUp
  · obtain rfl := Option.some.inj setUp
    intro op isCall
    simp only [List.cons_append, List.nil_append, List.mem_cons, List.mem_append, List.mem_map,
      List.not_mem_nil, or_false] at isCall
    rcases isCall with rfl | rfl | ⟨info, -, rfl⟩ | rfl <;> exact ⟨trivial, trivial⟩
  · obtain rfl := Option.some.inj setUp
    exact fun op isCall => absurd isCall List.not_mem_nil

/-- With its key attributes defined a new element is set up. -/
theorem newElementCalls_returns {major minor : String}
    (majorDefined : (attrDefLookup ctx.attrDefs major).isSome)
    (minorDefined : (attrDefLookup ctx.attrDefs minor).isSome) (level : UInt32)
    (infos : List (String × String)) (r : Element) :
    ∃ calls, ctx.newElementCalls major minor level infos r = some calls := by
  unfold ReadContext.newElementCalls
  split_ifs with created both
  · exact ⟨_, rfl⟩
  · exact absurd ⟨majorDefined, minorDefined⟩ both
  · exact ⟨_, rfl⟩

/-- An element is set up if it is new, and other calls that return are made on it. -/
theorem newElementCalls_run {major minor : String}
    (majorDefined : (attrDefLookup ctx.attrDefs major).isSome)
    (minorDefined : (attrDefLookup ctx.attrDefs minor).isSome) {e : ElementPtr}
    (feedable : σ.Feedable e) (level : UInt32) (infos : List (String × String)) (r : Element)
    {others : List ElementOp} (instant : ∀ op ∈ others, op.Instant ∧ op.PositiveIntervals) :
    ∃ calls middle, ctx.newElementCalls major minor level infos r = some calls ∧
      Store.Feedable middle e ∧ ctx.onElement e (calls ++ others) σ = some middle := by
  obtain ⟨calls, setUp⟩ := newElementCalls_returns majorDefined minorDefined level infos r
  obtain ⟨middle, updated, ran⟩ := feedable.calls ctx.cfg (calls ++ others) fun op isCall =>
    (List.mem_append.mp isCall).elim (newElementCalls_instant setUp op) (instant op)
  exact ⟨calls, middle, setUp, updated, ran⟩

/-- Calls of `attr_update` with the current definitions. -/
theorem attrUpdateCall_instant (intervals : ctx.PositiveIntervals) (name : String) (rx tx : UInt64)
    (flags : UpdateFlags) :
    (ctx.attrUpdateCall name rx tx flags).Instant ∧
      (ctx.attrUpdateCall name rx tx flags).PositiveIntervals :=
  ⟨trivial, intervals⟩

theorem tcAttrCalls_instant (intervals : ctx.PositiveIntervals) (tc : RtnlTc) :
    ∀ op ∈ tcAttrCalls ctx tc, op.Instant ∧ op.PositiveIntervals := by
  intro op isCall
  obtain ⟨entry, -, rfl⟩ := List.mem_map.mp isCall
  exact attrUpdateCall_instant intervals _ _ _ _

/-- A call on an element keeps a store searchable. -/
theorem Store.Searchable.apply (searchable : σ.Searchable allowed) {e : ElementPtr}
    {op : ElementOp} (defs : op.PositiveIntervals) (called : op.apply ctx.cfg σ e = some σ') :
    σ'.Searchable allowed :=
  ⟨ElementOp.positiveIntervals defs searchable.positive called,
    (ElementOp.touches called).allows.trans searchable.allows⟩

/-- So do several of them. -/
theorem Store.Searchable.onElement (searchable : σ.Searchable allowed) {e : ElementPtr}
    {calls : List ElementOp} (defs : ∀ op ∈ calls, op.PositiveIntervals)
    (ran : ctx.onElement e calls σ = some σ') : σ'.Searchable allowed := by
  refine Runs.run_invariant_of_mem (fun other : Store => other.Searchable allowed)
    (fun other op isCall next kept stepped => ?_) searchable ran
  obtain ⟨op, member, rfl⟩ := List.mem_map.mp isCall
  rw [InputOp.apply] at stepped
  split_ifs at stepped
  exact kept.apply (defs op member) stepped

variable (nl ctx) in
/-- So does the lookup of an object, which gives an element if its name is allowed. -/
theorem tcLookup_searchable (searchable : σ.Searchable allowed) (kind : TcPrefix) (rdata : Rdata)
    (tc : RtnlTc) :
    (tcLookup nl ctx kind rdata σ tc).1.Searchable allowed ∧
      (allowed (tcName nl kind tc) = true → (tcLookup nl ctx kind rdata σ tc).2.isSome) := by
  refine ⟨⟨positiveIntervals_elementLookup ctx.cfg searchable.positive _ _ _ _ _,
    (allows_elementLookup _ _ _ _ _ _ _).trans searchable.allows⟩, fun isAllowed => ?_⟩
  rw [← searchable.allows] at isAllowed
  exact elementLookup_allowed ctx.cfg nl.grp isAllowed tc.handle (some rdata.parent)

/-- `handle_tc_obj` keeps a store searchable, and returns an element if its name is allowed. -/
theorem handleTcObj_keeps (intervals : ctx.PositiveIntervals)
    (searchable : σ.Searchable allowed) {fuel : Nat}
    {kind : TcPrefix} {rdata : Rdata} {tc : RtnlTc} {handled : Store × Option ElementPtr}
    (returned : handleTcObj nl ctx fuel kind rdata σ tc = some handled) :
    handled.1.Searchable allowed ∧ (allowed (tcName nl kind tc) = true → handled.2.isSome) := by
  obtain ⟨kept, found⟩ := tcLookup_searchable nl ctx searchable kind rdata tc
  unfold handleTcObj at returned
  simp only at returned
  split at returned
  · next denied =>
    obtain rfl := Option.some.inj returned
    rw [denied] at found
    exact ⟨kept, found⟩
  · obtain ⟨calls, setUp, rest⟩ := Option.bind_eq_some_iff.mp returned
    obtain ⟨σ', ran, rfl⟩ := Option.map_eq_some_iff.mp rest
    obtain ⟨r, -, setUp⟩ := Option.bind_eq_some_iff.mp setUp
    refine ⟨kept.onElement (fun op isCall => ?_) ran, fun _ => rfl⟩
    rcases List.mem_append.mp isCall with member | member
    · rcases List.mem_append.mp member with member | member
      · exact (newElementCalls_instant setUp op member).2
      · exact (tcAttrCalls_instant intervals tc op member).2
    · rcases List.mem_cons.mp member with rfl | member
      · trivial
      · obtain rfl := List.mem_singleton.mp member
        trivial

variable (nl) in
/-- With enough fuel `handle_tc_obj` returns. -/
theorem handleTcObj_returns (loaded : ctx.Loaded) (intervals : ctx.PositiveIntervals)
    (searchable : σ.Searchable allowed)
    (kind : TcPrefix) (rdata : Rdata) (tc : RtnlTc) :
    ∃ enough handled, ∀ fuel, enough ≤ fuel →
      handleTcObj nl ctx fuel kind rdata σ tc = some handled := by
  obtain ⟨kept, -⟩ := tcLookup_searchable nl ctx searchable kind rdata tc
  have present (e : ElementPtr) (looked : (tcLookup nl ctx kind rdata σ tc).2 = some e) :
      ((tcLookup nl ctx kind rdata σ tc).1.elements e).isSome := elementLookup_present looked
  unfold handleTcObj
  generalize tcLookup nl ctx kind rdata σ tc = looked at kept present ⊢
  obtain ⟨σ', result⟩ := looked
  cases result with
  | none => exact ⟨0, _, fun _ _ => rfl⟩
  | some e =>
    obtain ⟨r, found⟩ : ∃ r, σ'.elements e = some r :=
      Option.isSome_iff_exists.mp (present e rfl)
    have feedable : σ'.Feedable e := ⟨present e rfl, kept.positive⟩
    obtain ⟨calls, middle, setUp, updated, ran⟩ := newElementCalls_run loaded.tcBytes
      loaded.tcPackets feedable rdata.level (tcInfos tc) r (tcAttrCalls_instant intervals tc)
    obtain ⟨enough, last, -, ends⟩ := updated.endCalls ctx.cfg ctx.now
    refine ⟨enough, (last, some e), fun fuel more => ?_⟩
    have whole : ctx.onElement e (calls ++ tcAttrCalls ctx tc ++ ctx.endCalls fuel) σ' =
        some last := by
      rw [ReadContext.onElement, List.map_append]
      exact Runs.run_append.mpr ⟨middle, ran, ends fuel more⟩
    simp only [found, Option.bind_some, setUp, whole, Option.map_some]

/-- `find_cls` keeps a store searchable. -/
theorem findCls_keeps (intervals : ctx.PositiveIntervals) (searchable : σ.Searchable allowed)
    {fuel : Nat}
    {ifindex parent : UInt32} {rdata : Rdata}
    (returned : findCls nl ctx fuel ifindex parent rdata σ = some σ') :
    σ'.Searchable allowed := by
  unfold findCls at returned
  split at returned
  · obtain rfl := Option.some.inj returned
    exact searchable
  · refine Runs.run_invariant (fun other : Store => other.Searchable allowed)
      (fun other tc next kept stepped => ?_) searchable returned
    obtain ⟨handled, found, rfl⟩ := Option.map_eq_some_iff.mp stepped
    exact (handleTcObj_keeps intervals kept found).1

variable (nl) in
/-- With enough fuel `find_cls` returns. -/
theorem findCls_returns (loaded : ctx.Loaded) (intervals : ctx.PositiveIntervals)
    (searchable : σ.Searchable allowed)
    (ifindex parent : UInt32) (rdata : Rdata) :
    ∃ enough last, Store.Searchable last allowed ∧ ∀ fuel, enough ≤ fuel →
      findCls nl ctx fuel ifindex parent rdata σ = some last := by
  have each (other : Store) (tc : RtnlTc) (kept : other.Searchable allowed) :
      ∃ enough next, Store.Searchable next allowed ∧ ∀ fuel, enough ≤ fuel →
        handleCls nl ctx fuel rdata other tc = some next := by
    obtain ⟨enough, handled, returns⟩ :=
      handleTcObj_returns nl loaded intervals kept .ofCls rdata tc
    refine ⟨enough, handled.1, (handleTcObj_keeps intervals kept (returns enough le_rfl)).1,
      fun fuel more => ?_⟩
    rw [handleCls, returns fuel more, Option.map_some]
  unfold findCls
  cases nl.clsAllocCache ifindex parent with
  | none => exact ⟨0, σ, searchable, fun _ _ => rfl⟩
  | some clsCache =>
    exact Runs.run_returns (fun other : Store => other.Searchable allowed)
      (fun other tc _ => each other tc) searchable

/-- The name of the element for an object. -/
def tcNodeName (nl : Netlink) : TcNode → CString
  | .ofQdisc tc => tcName nl .ofQdisc tc
  | .ofClass tc => tcName nl .ofClass tc

/-- Where an object is entered the store stays searchable, and if its name is allowed the search
goes on below. -/
theorem tcEnter_keeps (intervals : ctx.PositiveIntervals) (searchable : σ.Searchable allowed)
    {fuel : Nat}
    {rdata : Rdata} {node : TcNode} {entered : Store × Option Rdata}
    (returned : tcEnter nl ctx fuel rdata σ node = some entered) :
    entered.1.Searchable allowed ∧
      (allowed (tcNodeName nl node) = true → entered.2.isSome) := by
  cases node with
  | ofClass tc =>
    obtain ⟨⟨σ', result⟩, handled, rfl⟩ := Option.map_eq_some_iff.mp returned
    obtain ⟨kept, found⟩ := handleTcObj_keeps intervals searchable handled
    cases result with
    | none => exact ⟨kept, found⟩
    | some e =>
      refine ⟨?_, fun _ => rfl⟩
      simp only
      split_ifs
      · have called : ElementOp.apply ctx.cfg σ' e (.setTxmax tc.htbRate) =
            some (elementSetTxmax σ' e tc.htbRate) := rfl
        have defs : (ElementOp.setTxmax tc.htbRate).PositiveIntervals := trivial
        exact kept.apply defs called
      · exact kept
  | ofQdisc tc =>
    obtain ⟨⟨σ', result⟩, handled, rest⟩ := Option.bind_eq_some_iff.mp returned
    obtain ⟨kept, found⟩ := handleTcObj_keeps intervals searchable handled
    cases result with
    | none =>
      obtain rfl := Option.some.inj rest
      exact ⟨kept, found⟩
    | some e =>
      obtain ⟨σ₁, foundCls, rest⟩ := Option.bind_eq_some_iff.mp rest
      obtain ⟨σ₂, foundRoot, rfl⟩ := Option.map_eq_some_iff.mp rest
      have keptCls := findCls_keeps intervals kept foundCls
      refine ⟨?_, fun _ => rfl⟩
      split_ifs at foundRoot
      · exact findCls_keeps intervals keptCls foundRoot
      · obtain rfl := Option.some.inj foundRoot
        exact keptCls

variable (nl) in
/-- With enough fuel an object is entered. -/
theorem tcEnter_returns (loaded : ctx.Loaded) (intervals : ctx.PositiveIntervals)
    (searchable : σ.Searchable allowed) (rdata : Rdata)
    (node : TcNode) :
    ∃ enough entered, ∀ fuel, enough ≤ fuel →
      tcEnter nl ctx fuel rdata σ node = some entered := by
  cases node with
  | ofClass tc =>
    obtain ⟨enough, ⟨σ', result⟩, returns⟩ :=
      handleTcObj_returns nl loaded intervals searchable .ofClass rdata tc
    cases result with
    | none =>
      refine ⟨enough, (σ', none), fun fuel more => ?_⟩
      rw [tcEnter, returns fuel more]
      rfl
    | some e =>
      refine ⟨enough, (if tc.kind = htb then elementSetTxmax σ' e tc.htbRate else σ',
        some (rdata.below e)), fun fuel more => ?_⟩
      rw [tcEnter, returns fuel more]
      rfl
  | ofQdisc tc =>
    obtain ⟨first, ⟨σ', result⟩, returns⟩ :=
      handleTcObj_returns nl loaded intervals searchable .ofQdisc rdata tc
    obtain ⟨kept, -⟩ := handleTcObj_keeps intervals searchable (returns first le_rfl)
    cases result with
    | none =>
      refine ⟨first, (σ', none), fun fuel more => ?_⟩
      rw [tcEnter, returns fuel more]
      rfl
    | some e =>
      obtain ⟨second, σ₁, keptCls, foundCls⟩ :=
        findCls_returns nl loaded intervals kept tc.ifindex tc.handle (rdata.below e)
      obtain ⟨third, σ₂, -, foundRoot⟩ :=
        findCls_returns nl loaded intervals keptCls tc.ifindex tcHRoot (rdata.below e)
      refine ⟨max first (max second third),
        (if tc.parent = tcHRoot then σ₂ else σ₁, some (rdata.below e)), fun fuel more => ?_⟩
      rw [tcEnter, returns fuel ((le_max_left _ _).trans more), Option.bind_some]
      simp only
      rw [foundCls fuel ((le_max_left _ _).trans ((le_max_right _ _).trans more)),
        Option.bind_some, foundRoot fuel ((le_max_right _ _).trans ((le_max_right _ _).trans more))]
      split_ifs <;> rfl

/-- Objects with names that are allowed can be entered. -/
theorem tcEnter_enters (loaded : ctx.Loaded) (intervals : ctx.PositiveIntervals) {node : TcNode}
    (isAllowed : allowed (tcNodeName nl node) = true) :
    Descent.Enters (tcEnter nl ctx) (fun σ : Store => σ.Searchable allowed) node where
  keeps fuel rdata σ entered searchable returned := by
    obtain ⟨kept, found⟩ := tcEnter_keeps intervals searchable returned
    exact ⟨kept, found isAllowed⟩
  returns rdata σ searchable := tcEnter_returns nl loaded intervals searchable rdata node

end Enter

/-! ### When the search comes to its end -/

/-- However far the search gets, there is a bound for the number of calls. -/
def FinitelyManyCalls (nl : Netlink) (ctx : ReadContext) (cache : QdiscCache) (e : ElementPtr)
    (ifindex : UInt32) (σ : Store) : Prop :=
  ∃ bound, ∀ fuel, (handleTcCalls nl ctx cache fuel e ifindex σ).length ≤ bound

/-- The policy permits all disciplines, and all classes of the interface. -/
structure TcPermitted (nl : Netlink) (cache : QdiscCache) (ifindex : UInt32)
    (σ : Store) : Prop where
  qdiscs : ∀ tc ∈ cache.objects, σ.allows (tcName nl .ofQdisc tc) = true
  classes : ∀ classes, nl.classAllocCache ifindex = some classes →
    ∀ tc ∈ classes, σ.allows (tcName nl .ofClass tc) = true

section Ends

variable {nl : Netlink} {ctx : ReadContext} {cache : QdiscCache} {ifindex : UInt32}

/-- In terms of the descent: all starts are accessible. -/
theorem noneRecurs_iff {classes : List RtnlTc}
    (allocated : nl.classAllocCache ifindex = some classes) :
    NoneRecurs nl cache ifindex ↔
      ∀ start ∈ tcStarts cache ifindex,
        Acc (Descent.IsChild (tcChildren cache classes)) start := by
  have each (start : TcNode) := Descent.acc_iff (finite_tcReaches cache classes start)
  constructor
  · exact fun none start isStart => (each start).mpr (none classes allocated start isStart)
  · intro accessible classes' allocated' start isStart
    obtain rfl := Option.some.inj (allocated.symm.trans allocated')
    exact (each start).mp (accessible start isStart)

/-- `handle_tc` walks from its starts. -/
theorem handleTc_eq_walk {classes : List RtnlTc}
    (allocated : nl.classAllocCache ifindex = some classes) (fuel : Nat) (e : ElementPtr)
    (σ : Store) :
    handleTc nl ctx cache fuel e ifindex σ =
      Runs.run (Descent.walk (tcEnter nl ctx) (tcChildren cache classes) fuel ⟨classes, e, 1⟩) σ
        (tcStarts cache ifindex) := by
  have walks : handleTcNode nl ctx cache fuel ⟨classes, e, 1⟩ = _ :=
    funext fun σ => funext fun node => handleTcNode_eq_walk fuel rfl σ node
  rw [tcStarts, ← walks, Runs.run_map]
  unfold handleTc
  rw [allocated]
  rfl

/-- What the search comes to from its starts can be entered. -/
theorem tcStarts_enters (loaded : ctx.Loaded) (intervals : ctx.PositiveIntervals) {σ : Store}
    (permitted : TcPermitted nl cache ifindex σ) {classes : List RtnlTc}
    (allocated : nl.classAllocCache ifindex = some classes) :
    ∀ start ∈ tcStarts cache ifindex, ∀ node,
      Descent.Reaches (tcChildren cache classes) start node →
        Descent.Enters (tcEnter nl ctx) (fun other : Store => other.Searchable σ.allows) node := by
  intro start isStart node reaches
  obtain ⟨first, isQdisc, rfl⟩ := tcStarts_mem isStart
  refine tcEnter_enters loaded intervals ?_
  rcases List.mem_cons.mp (tcReaches_mem reaches) with rfl | member
  · exact permitted.qdiscs first isQdisc
  rcases List.mem_append.mp member with member | member
  · obtain ⟨tc, isCached, rfl⟩ := List.mem_map.mp member
    exact permitted.qdiscs tc isCached
  · obtain ⟨tc, isCached, rfl⟩ := List.mem_map.mp member
    exact permitted.classes classes allocated tc isCached

end Ends

/-- Where the search is permitted, its calls are finitely many just when all starts are
accessible. -/
theorem finitelyManyCalls_iff_acc {nl : Netlink} {ctx : ReadContext} {cache : QdiscCache}
    {e : ElementPtr} {ifindex : UInt32} {σ : Store} (loaded : ctx.Loaded)
    (intervals : ctx.PositiveIntervals)
    (positive : σ.PositiveIntervals) (permitted : TcPermitted nl cache ifindex σ)
    {classes : List RtnlTc} (allocated : nl.classAllocCache ifindex = some classes) :
    FinitelyManyCalls nl ctx cache e ifindex σ ↔
      ∀ start ∈ tcStarts cache ifindex,
        Acc (Descent.IsChild (tcChildren cache classes)) start := by
  have enters := tcStarts_enters loaded intervals permitted allocated
  have searchable : σ.Searchable σ.allows := ⟨positive, rfl⟩
  unfold FinitelyManyCalls handleTcCalls
  rw [allocated]
  exact Descent.outputs_bounded_iff enters _ searchable

/-- When the search comes to its end. Where `handle_tc` does not find an object again below
itself, the calls of `handle_qdisc` and `handle_class` are finitely many, from any store and
whatever the policy permits. Where all objects are permitted, the attributes of the module are
defined and the histories have positive intervals, this is also the only case: the calls are
finitely many, and `handle_tc` returns, just when no object is found again below itself. -/
theorem handleTc_finitelyManyCalls_iff (nl : Netlink) (ctx : ReadContext) (cache : QdiscCache)
    (e : ElementPtr) (ifindex : UInt32) (σ : Store) :
    (NoneRecurs nl cache ifindex → FinitelyManyCalls nl ctx cache e ifindex σ) ∧
      (ctx.Loaded → ctx.PositiveIntervals → σ.PositiveIntervals →
        TcPermitted nl cache ifindex σ →
        (FinitelyManyCalls nl ctx cache e ifindex σ ↔ NoneRecurs nl cache ifindex) ∧
        ((∃ fuel, (handleTc nl ctx cache fuel e ifindex σ).isSome) ↔
          NoneRecurs nl cache ifindex)) := by
  cases allocated : nl.classAllocCache ifindex with
  | none =>
    have noneRecurs : NoneRecurs nl cache ifindex := fun classes allocated' => by
      rw [allocated] at allocated'
      cases allocated'
    have finite : FinitelyManyCalls nl ctx cache e ifindex σ := ⟨0, fun fuel => by
      unfold handleTcCalls
      rw [allocated]
      exact le_rfl⟩
    have returned : handleTc nl ctx cache 0 e ifindex σ = some σ := by
      unfold handleTc
      rw [allocated]
    refine ⟨fun _ => finite, fun _ _ _ _ => ⟨iff_of_true finite noneRecurs,
      iff_of_true ⟨0, ?_⟩ noneRecurs⟩⟩
    rw [returned]
    rfl
  | some classes =>
    rw [noneRecurs_iff allocated]
    constructor
    · intro accessible
      obtain ⟨bound, bounded⟩ := Descent.outputs_bounded (tcEnter nl ctx) fun start isStart =>
        Descent.visits_bounded (tcEnter nl ctx) (accessible start isStart)
      refine ⟨bound, fun fuel => ?_⟩
      unfold handleTcCalls
      rw [allocated]
      exact bounded fuel _ σ
    · intro loaded intervals positive permitted
      refine ⟨finitelyManyCalls_iff_acc loaded intervals positive permitted allocated, ?_⟩
      have searchable : σ.Searchable σ.allows := ⟨positive, rfl⟩
      simp only [handleTc_eq_walk allocated]
      exact Descent.walks_return_iff (tcStarts_enters loaded intervals permitted allocated) _
        searchable

/-! ### Disciplines with the handle zero -/

/-- A cache of disciplines, with the first one that matches for each interface and parent. -/
def qdiscCacheOf (objects : List RtnlTc) : QdiscCache where
  objects := objects
  getByParent ifindex parent := objects.find? fun tc => tc.ifindex = ifindex ∧ tc.parent = parent
  getByParent_mem ifindex parent tc found := by
    have matched := List.find?_some found
    exact ⟨List.mem_of_find?_eq_some found, of_decide_eq_true matched⟩

/-- An object of the interface 1. -/
def tcObject (handle parent : UInt32) (kind : CString) : RtnlTc :=
  ⟨1, handle, parent, kind, 0, 0, 0, 0, fun _ => 0⟩

/-- The module with these objects, and no classifiers. The handles are zero, `0:1`, `1:0` or
`1:1`. -/
def netlinkOf (qdiscs classes : List RtnlTc) : Netlink where
  grp := 0
  cNotc := false
  cfgShowAll := false
  qdiscCache := some (qdiscCacheOf qdiscs)
  classAllocCache _ := some classes
  clsAllocCache _ _ := some []
  handle2str handle :=
    if handle = 0 then ⟨['n', 'o', 'n', 'e'], by decide⟩
    else if handle = 1 then ⟨[':', '0', '1'], by decide⟩
    else if handle = 0x10000 then ⟨['0', '1', ':'], by decide⟩
    else ⟨['0', '1', ':', '0', '1'], by decide⟩
  i2name _ := eth0

/-- Attributes with the names of those of `netlink`. -/
def netlinkContext : ReadContext where
  cfg := confInitPost {}
  attrDefs := (linkAttrs.map AttrMap.name ++ tcAttrs.map Prod.fst).mapIdx fun i name =>
    ⟨i + 1, name, name, .counter, {}⟩
  historyDefs := []
  attrid name := (linkAttrs.map AttrMap.name ++ tcAttrs.map Prod.fst).idxOf name + 1
  now := ⟨1, 0⟩

theorem netlinkContext_loaded : netlinkContext.Loaded :=
  ⟨⟨by decide, by decide⟩, by decide, by decide⟩

theorem netlinkContext_intervals : netlinkContext.PositiveIntervals := fun d member => by
  cases member

/-- A store with the element of the interface. -/
def linkStore : Store :=
  (elementLookup netlinkContext.cfg (interfaceStore []) 0 eth0 1 none true).1

theorem linkStore_positive : linkStore.PositiveIntervals :=
  positiveIntervals_elementLookup _ (interfaceStore_positive []) _ _ _ _ _

theorem linkStore_permitted (nl : Netlink) (cache : QdiscCache) :
    TcPermitted nl cache 1 linkStore := by
  have allows (name : CString) : linkStore.allows name = true := by
    rw [linkStore, allows_elementLookup]
    exact allows_interfaceStore name
  exact ⟨fun tc _ => allows _, fun _ _ tc _ => allows _⟩

/-- `htb 1:` at the root, and its class `1:1`. -/
def htbQdisc : RtnlTc := tcObject 0x10000 tcHRoot htb

def htbClass : RtnlTc := tcObject 0x10001 tcHRoot htb

/-- The search comes to the discipline and to its class, and returns. -/
theorem handleTc_returns_htb :
    FinitelyManyCalls (netlinkOf [htbQdisc] [htbClass]) netlinkContext (qdiscCacheOf [htbQdisc])
        0 1 linkStore ∧
      ∃ fuel, (handleTc (netlinkOf [htbQdisc] [htbClass]) netlinkContext (qdiscCacheOf [htbQdisc])
        fuel 0 1 linkStore).isSome := by
  have starts : tcStarts (qdiscCacheOf [htbQdisc]) 1 = [.ofQdisc htbQdisc] := by
    rfl
  have classEnds : Acc (Descent.IsChild (tcChildren (qdiscCacheOf [htbQdisc]) [htbClass]))
      (.ofClass htbClass) := by
    have noChild : tcChildren (qdiscCacheOf [htbQdisc]) [htbClass] (.ofClass htbClass) = [] := rfl
    refine ⟨_, fun child isChild => ?_⟩
    rw [Descent.IsChild, noChild] at isChild
    cases isChild
  have noneRecurs : NoneRecurs (netlinkOf [htbQdisc] [htbClass]) (qdiscCacheOf [htbQdisc]) 1 := by
    refine (noneRecurs_iff rfl).mpr fun start isStart => ?_
    rw [starts] at isStart
    obtain rfl := List.mem_singleton.mp isStart
    refine ⟨_, fun child isChild => ?_⟩
    obtain rfl : child = .ofClass htbClass := List.mem_singleton.mp isChild
    exact classEnds
  obtain ⟨calls, returns⟩ := (handleTc_finitelyManyCalls_iff
    (netlinkOf [htbQdisc] [htbClass]) netlinkContext (qdiscCacheOf [htbQdisc]) 0 1 linkStore).2
      netlinkContext_loaded netlinkContext_intervals linkStore_positive (linkStore_permitted _ _)
  exact ⟨calls.mpr noneRecurs, returns.mpr noneRecurs⟩

/-- `"mq"`. -/
def mq : CString := ⟨['m', 'q'], by decide⟩

/-- `"fq_codel"`. -/
def fqCodel : CString := ⟨['f', 'q', '_', 'c', 'o', 'd', 'e', 'l'], by decide⟩

/-- What the kernel sets up by itself for an interface with several queues: `mq` at the root with
the class `:1` for the first queue, and `fq_codel` below, which has a class for each of its flows.
Both disciplines have the handle zero. -/
def mqQdisc : RtnlTc := tcObject 0 tcHRoot mq

def mqClass : RtnlTc := tcObject 1 tcHRoot mq

def fqQdisc : RtnlTc := tcObject 0 1 fqCodel

def fqClass : RtnlTc := tcObject 1 0 fqCodel

/-- The first flow of `fq_codel` has the handle that the first queue of `mq` has, so that the
search finds `fq_codel` below it, and does not come to an end. -/
theorem handleTc_endless_mq :
    (netlinkOf [mqQdisc, fqQdisc] [mqClass, fqClass]).classAllocCache 1 = some [mqClass, fqClass] ∧
      TcPermitted (netlinkOf [mqQdisc, fqQdisc] [mqClass, fqClass])
        (qdiscCacheOf [mqQdisc, fqQdisc]) 1 linkStore ∧
      ¬ FinitelyManyCalls (netlinkOf [mqQdisc, fqQdisc] [mqClass, fqClass]) netlinkContext
        (qdiscCacheOf [mqQdisc, fqQdisc]) 0 1 linkStore := by
  refine ⟨rfl, linkStore_permitted _ _, fun finite => ?_⟩
  have accessible := (finitelyManyCalls_iff_acc netlinkContext_loaded netlinkContext_intervals
    linkStore_positive (linkStore_permitted _ _) rfl).mp finite (.ofQdisc mqQdisc)
    List.mem_cons_self
  have queue : TcNode.ofClass mqClass ∈
      tcChildren (qdiscCacheOf [mqQdisc, fqQdisc]) [mqClass, fqClass] (.ofQdisc mqQdisc) :=
    List.mem_cons_self
  have below : TcNode.ofQdisc fqQdisc ∈
      tcChildren (qdiscCacheOf [mqQdisc, fqQdisc]) [mqClass, fqClass] (.ofClass mqClass) :=
    List.mem_cons_self
  have flow : TcNode.ofClass fqClass ∈
      tcChildren (qdiscCacheOf [mqQdisc, fqQdisc]) [mqClass, fqClass] (.ofQdisc fqQdisc) :=
    List.mem_cons_self
  have again : TcNode.ofQdisc fqQdisc ∈
      tcChildren (qdiscCacheOf [mqQdisc, fqQdisc]) [mqClass, fqClass] (.ofClass fqClass) :=
    List.mem_cons_self
  exact Descent.not_recurs_of_acc ((accessible.inv queue).inv below) (.tail (.single flow) again)

end Bmon
