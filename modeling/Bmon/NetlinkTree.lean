/-
This file shows which elements a read of `netlink` comes to.

A link is at the top of its group, or below its master where that is at the top already. Below a
link are the disciplines, classes and classifiers that the search for traffic-control objects finds,
as far as their names are allowed. A read renews the leases of all these in the tree of the group,
and of no others.
-/

import Bmon.ElementTree

namespace Bmon

/-! ### What a read comes to -/

/-- The name and the id of the element for an object. -/
def tcKey (nl : Netlink) (kind : TcPrefix) (tc : RtnlTc) : LinkKey :=
  (tcName nl kind tc, tc.handle)

def tcNodeKey (nl : Netlink) : TcNode → LinkKey
  | .ofQdisc tc => tcKey nl .ofQdisc tc
  | .ofClass tc => tcKey nl .ofClass tc

/-- The classifiers that `find_cls` answers with for an interface and a parent. -/
def clsAt (nl : Netlink) (ifindex parent : UInt32) : List RtnlTc :=
  (nl.clsAllocCache ifindex parent).getD []

/-- The classifiers that `handle_qdisc` comes to. A class has none. -/
def tcNodeCls (nl : Netlink) : TcNode → List RtnlTc
  | .ofQdisc tc =>
    clsAt nl tc.ifindex tc.handle ++ if tc.parent = tcHRoot then clsAt nl tc.ifindex tcHRoot else []
  | .ofClass _ => []

section Touched

variable (nl : Netlink) (allows : CString → Bool)

/-- The path of an object, if its name is allowed. -/
def objTouched (kind : TcPrefix) (path : List LinkKey) (tc : RtnlTc) : Set (List LinkKey) :=
  {touched | allows (tcName nl kind tc) = true ∧ touched = tcKey nl kind tc :: path}

/-- The paths of several objects. -/
def objsTouched (kind : TcPrefix) (path : List LinkKey) (objects : List RtnlTc) :
    Set (List LinkKey) :=
  {touched | ∃ tc ∈ objects, touched ∈ objTouched nl allows kind path tc}

/-- The search comes to an object if its name is allowed, and then to its classifiers and to the
objects below. -/
inductive TcTouched (cache : QdiscCache) (classes : List RtnlTc) :
    List LinkKey → TcNode → List LinkKey → Prop where
  | self {path : List LinkKey} {node : TcNode} (allowed : allows (tcNodeName nl node) = true) :
      TcTouched cache classes path node (tcNodeKey nl node :: path)
  | cls {path touched : List LinkKey} {node : TcNode} (allowed : allows (tcNodeName nl node) = true)
      (isCls : touched ∈ objsTouched nl allows .ofCls (tcNodeKey nl node :: path)
        (tcNodeCls nl node)) :
      TcTouched cache classes path node touched
  | child {path touched : List LinkKey} {node other : TcNode}
      (allowed : allows (tcNodeName nl node) = true)
      (isChild : other ∈ tcChildren cache classes node)
      (rest : TcTouched cache classes (tcNodeKey nl node :: path) other touched) :
      TcTouched cache classes path node touched

/-- The paths that `handle_tc` comes to below the path of a link. -/
def tcTouched (path : List LinkKey) (ifindex : UInt32) : Set (List LinkKey) :=
  {touched | nl.cNotc = false ∧ ∃ cache classes, nl.qdiscCache = some cache ∧
    nl.classAllocCache ifindex = some classes ∧ ∃ start ∈ tcStarts cache ifindex,
      TcTouched nl allows cache classes path start touched}

/-- The path of a link, with some keys at the top of the group. -/
def linkPath (tops : LinkKey → Bool) (link : RtnlLink) : List LinkKey :=
  (link.name, link.ifindex) :: (Placement.place tops (linkEntry nl link)).toList

/-- The paths that `do_link` comes to. -/
def linkTouched (tops : LinkKey → Bool) (link : RtnlLink) : Set (List LinkKey) :=
  {linkPath nl tops link} ∪ tcTouched nl allows (linkPath nl tops link) link.ifindex

instance (link : RtnlLink) : Decidable (nl.Shows link) :=
  inferInstanceAs (Decidable (_ ∨ _))

/-- The paths that `do_link` comes to for some links, one after the other. A link that is down and
not to be shown is left out, and so is one that is denied. -/
def linksTouched : (LinkKey → Bool) → List RtnlLink → Set (List LinkKey)
  | _, [] => ∅
  | tops, link :: links =>
    if nl.Shows link ∧ allows link.name = true then
      linkTouched nl allows tops link ∪
        linksTouched (Placement.enter tops (linkEntry nl link)) links
    else linksTouched tops links

end Touched

/-- The keys at the top of a tree. -/
def topsOf (tree : LeaseTree.Tree LinkKey) : LinkKey → Bool := fun key => (tree [key]).isSome

section

variable {nl : Netlink} {allows : CString → Bool} {cache : QdiscCache} {classes : List RtnlTc}
variable {path touched : List LinkKey}

theorem objTouched_of_allowed {kind : TcPrefix} {tc : RtnlTc}
    (allowed : allows (tcName nl kind tc) = true) :
    objTouched nl allows kind path tc = {tcKey nl kind tc :: path} :=
  Set.ext fun _ => and_iff_right allowed

theorem objTouched_of_denied {kind : TcPrefix} {tc : RtnlTc}
    (denied : allows (tcName nl kind tc) = false) : objTouched nl allows kind path tc = ∅ :=
  Set.eq_empty_of_forall_notMem fun _ both => Bool.false_ne_true (denied.symm.trans both.1)

theorem objsTouched_nil (kind : TcPrefix) (path : List LinkKey) :
    objsTouched nl allows kind path [] = ∅ :=
  Set.eq_empty_of_forall_notMem fun _ ⟨_, member, _⟩ => List.not_mem_nil member

theorem objsTouched_append (kind : TcPrefix) (path : List LinkKey) (first second : List RtnlTc) :
    objsTouched nl allows kind path (first ++ second) =
      objsTouched nl allows kind path first ∪ objsTouched nl allows kind path second := by
  ext touched
  simp only [objsTouched, List.mem_append, or_and_right, exists_or, Set.mem_union,
    Set.mem_ofPred_eq]

/-- What the search comes to from an object with an allowed name. -/
theorem tcTouched_of_allowed {node : TcNode} (allowed : allows (tcNodeName nl node) = true) :
    {touched | TcTouched nl allows cache classes path node touched} =
      {tcNodeKey nl node :: path} ∪
        objsTouched nl allows .ofCls (tcNodeKey nl node :: path) (tcNodeCls nl node) ∪
        {touched | ∃ other ∈ tcChildren cache classes node,
          TcTouched nl allows cache classes (tcNodeKey nl node :: path) other touched} := by
  ext touched
  constructor
  · intro isTouched
    cases isTouched with
    | self _ => exact Or.inl (Or.inl rfl)
    | cls _ isCls => exact Or.inl (Or.inr isCls)
    | child _ isChild rest => exact Or.inr ⟨_, isChild, rest⟩
  · rintro ((rfl | isCls) | ⟨other, isChild, rest⟩)
    · exact .self allowed
    · exact .cls allowed isCls
    · exact .child allowed isChild rest

/-- From one with a denied name it comes to nothing. -/
theorem tcTouched_of_denied {node : TcNode} (denied : allows (tcNodeName nl node) = false) :
    {touched | TcTouched nl allows cache classes path node touched} = ∅ := by
  refine Set.eq_empty_of_forall_notMem fun touched isTouched => ?_
  have allowed : allows (tcNodeName nl node) = true := by
    cases isTouched with
    | self allowed => exact allowed
    | cls allowed _ => exact allowed
    | child allowed _ _ => exact allowed
  exact Bool.false_ne_true (denied.symm.trans allowed)

/-- All that the search comes to is below the path it starts from. -/
theorem TcTouched.length_lt {node : TcNode}
    (isTouched : TcTouched nl allows cache classes path node touched) :
    path.length < touched.length := by
  induction isTouched with
  | self _ => exact Nat.lt_succ_self _
  | cls _ isCls =>
    obtain ⟨tc, -, -, rfl⟩ := isCls
    exact Nat.lt_succ_of_lt (Nat.lt_succ_self _)
  | child _ _ _ restHypothesis => exact Nat.lt_of_succ_lt restHypothesis

theorem TcTouched.suffix {node : TcNode}
    (isTouched : TcTouched nl allows cache classes path node touched) : path <:+ touched := by
  induction isTouched with
  | self _ => exact List.suffix_cons _ _
  | cls _ isCls =>
    obtain ⟨tc, -, -, rfl⟩ := isCls
    exact (List.suffix_cons _ _).trans (List.suffix_cons _ _)
  | child _ _ _ restHypothesis => exact (List.suffix_cons _ _).trans restHypothesis

/-- What is above a path that the search comes to is such a path as well, or the one it starts
from. -/
theorem TcTouched.above {node : TcNode} {key : LinkKey}
    (isTouched : TcTouched nl allows cache classes path node (key :: touched)) :
    touched = path ∨ TcTouched nl allows cache classes path node touched := by
  generalize isPath : key :: touched = other at isTouched
  induction isTouched with
  | self _ => exact Or.inl (List.cons.inj isPath).2
  | cls allowed isCls =>
    obtain ⟨tc, -, -, rfl⟩ := isCls
    rw [(List.cons.inj isPath).2]
    exact Or.inr (.self allowed)
  | child allowed isChild _ restHypothesis =>
    rcases restHypothesis isPath with rfl | rest
    · exact Or.inr (.self allowed)
    · exact Or.inr (.child allowed isChild rest)

/-- A link that is not placed below its master is at the top. -/
theorem singleton_mem_linkTouched {tops : LinkKey → Bool} {link : RtnlLink} {key : LinkKey} :
    [key] ∈ linkTouched nl allows tops link ↔
      Placement.place tops (linkEntry nl link) = none ∧ key = (linkEntry nl link).key := by
  constructor
  · rintro (isLink | ⟨-, _, _, -, -, _, -, isTouched⟩)
    · obtain ⟨rfl, rest⟩ := List.cons.inj (show [key] = linkPath nl tops link from isLink)
      exact ⟨Option.toList_eq_nil_iff.mp rest.symm, rfl⟩
    · exact absurd isTouched.length_lt (by simp [linkPath])
  · rintro ⟨placed, rfl⟩
    refine Or.inl ?_
    show [(linkEntry nl link).key] = linkPath nl tops link
    rw [linkPath, placed]
    rfl

/-- A link that is read is at the top just if it is not placed below its master. -/
theorem topsOf_renew (term : Nat) (tree : LeaseTree.Tree LinkKey) (link : RtnlLink) :
    topsOf (LeaseTree.renew term (linkTouched nl allows (topsOf tree) link) tree) =
      Placement.enter (topsOf tree) (linkEntry nl link) := by
  funext key
  rw [topsOf, Placement.enter, Bool.eq_iff_iff, LeaseTree.isSome_renew, singleton_mem_linkTouched]
  simp only [Bool.or_eq_true, Bool.and_eq_true, decide_eq_true_iff, Option.isNone_iff_eq_none,
    topsOf, or_comm]

/-- What a read comes to is grounded in the tree. -/
theorem grounded_linkTouched (tree : LeaseTree.Tree LinkKey) (link : RtnlLink) :
    LeaseTree.Grounded tree (linkTouched nl allows (topsOf tree) link) where
  top := by
    rintro (isLink | ⟨-, _, _, -, -, _, -, isTouched⟩)
    · cases isLink
    · exact absurd isTouched.length_lt (Nat.not_lt_zero _)
  above key path := by
    rintro (isLink | ⟨tcOn, cache, classes, isCache, isClasses, start, isStart, isTouched⟩)
    · obtain ⟨rfl, rfl⟩ :=
        List.cons.inj (show key :: path = linkPath nl (topsOf tree) link from isLink)
      cases placed : Placement.place (topsOf tree) (linkEntry nl link) with
      | none => exact Or.inr (Or.inl rfl)
      | some master => exact Or.inr (Or.inr (Option.filter_eq_some_iff.mp placed).2)
    · rcases isTouched.above with rfl | above
      · exact Or.inl (Or.inl rfl)
      · exact Or.inl (Or.inr ⟨tcOn, cache, classes, isCache, isClasses, start, isStart, above⟩)

theorem grounded_linksTouched (tree : LeaseTree.Tree LinkKey) (links : List RtnlLink) :
    LeaseTree.Grounded tree (linksTouched nl allows (topsOf tree) links) := by
  induction links generalizing tree with
  | nil => exact ⟨Set.notMem_empty _, fun _ _ member => absurd member (Set.notMem_empty _)⟩
  | cons link links inductionHypothesis =>
    rw [linksTouched]
    split_ifs
    · have rest := inductionHypothesis
        (LeaseTree.renew 1 (linkTouched nl allows (topsOf tree) link) tree)
      rw [topsOf_renew] at rest
      exact (grounded_linkTouched tree link).union rest
    · exact inductionHypothesis tree

end

/-! ### The search for traffic-control objects -/

/-- What is left to an element after a lifesign. -/
def ReadContext.term (ctx : ReadContext) : Nat := sweepsLeft (getLifecycles ctx.cfg)

section

variable {nl : Netlink} {ctx : ReadContext} {allows : CString → Bool} {fuel : Nat}
variable {tree : LeaseTree.Tree LinkKey} {σ σ' : Store} {path : List LinkKey}

/-- Calls on an element that end with a lifesign renew its lease. -/
theorem Store.Branching.lifesigned (branching : σ.Branching allows nl.grp tree) {e : ElementPtr}
    (hasPath : σ.HasPath nl.grp (some e) path) {calls : List ElementOp}
    (ran : ctx.onElement e (calls ++ ctx.endCalls fuel) σ = some σ') :
    Store.Renews allows nl.grp ctx.term tree {path} σ σ' := by
  have touches : Touches e σ σ' := touches_run ran
  rw [ReadContext.endCalls, List.append_cons] at ran
  have left : σ'.sweeps e = some ctx.term := by
    rw [Store.sweeps, lifesign_last_eLifecycles ran, Option.map_some, ReadContext.term]
  exact ⟨branching.renewed hasPath touches left, touches.keepsPaths⟩

section Search

variable {rdata : Rdata}

/-- `handle_tc_obj` renews the lease of its object if its name is allowed, and changes nothing
otherwise. -/
theorem handleTcObj_renews (branching : σ.Branching allows nl.grp tree)
    (upper : σ.HasPath nl.grp (some rdata.parent) path) {kind : TcPrefix} {tc : RtnlTc}
    {result : Option ElementPtr}
    (returned : handleTcObj nl ctx fuel kind rdata σ tc = some (σ', result)) :
    Store.Renews allows nl.grp ctx.term tree (objTouched nl allows kind path tc) σ σ' ∧
      (∀ e ∈ result, σ'.HasPath nl.grp (some e) (tcKey nl kind tc :: path)) ∧
      result.isSome = allows (tcName nl kind tc) := by
  unfold handleTcObj tcLookup at returned
  rcases branching.elementLookup ctx.cfg upper (tcName nl kind tc) tc.handle with
    ⟨denied, looked⟩ | ⟨allowed, e, n, found, started, hasPath, keeps⟩
  · simp only [looked] at returned
    obtain ⟨rfl, rfl⟩ := Prod.mk.inj (Option.some.inj returned)
    rw [objTouched_of_denied denied, denied]
    exact ⟨.refl _ branching, nofun, rfl⟩
  · simp only [found] at returned
    obtain ⟨calls, -, rest⟩ := Option.bind_eq_some_iff.mp returned
    obtain ⟨last, ran, same⟩ := Option.map_eq_some_iff.mp rest
    obtain ⟨rfl, rfl⟩ := Prod.mk.inj same
    have renews := started.lifesigned hasPath ran
    rw [objTouched_of_allowed allowed, allowed]
    refine ⟨⟨?_, keeps.trans renews.keeps⟩, fun e' isElement => ?_, rfl⟩
    · rw [← LeaseTree.renew_renew_of_subset (Set.Subset.refl _) n]
      exact renews.branching
    · rw [← Option.mem_some.mp isElement]
      exact renews.keeps _ _ hasPath

/-- `find_cls` renews the leases of the classifiers with allowed names. -/
theorem findCls_renews (branching : σ.Branching allows nl.grp tree)
    (upper : σ.HasPath nl.grp (some rdata.parent) path) {ifindex parent : UInt32}
    (returned : findCls nl ctx fuel ifindex parent rdata σ = some σ') :
    Store.Renews allows nl.grp ctx.term tree
      (objsTouched nl allows .ofCls path (clsAt nl ifindex parent)) σ σ' := by
  unfold findCls at returned
  unfold clsAt
  cases allocated : nl.clsAllocCache ifindex parent with
  | none =>
    rw [allocated] at returned
    obtain rfl := Option.some.inj returned
    rw [Option.getD_none, objsTouched_nil]
    exact .refl _ branching
  | some clsCache =>
    simp only [allocated, nlCacheForeachFilter, List.filter_true] at returned
    refine Store.Renews.run branching (fun tree σ' before keeps tc _ next called => ?_) returned
    obtain ⟨⟨last, result⟩, handled, rfl⟩ := Option.map_eq_some_iff.mp called
    exact (handleTcObj_renews before (keeps _ _ upper) handled).1

/-- Entering an object renews its lease and those of its classifiers, if its name is allowed. -/
theorem tcEnter_renews (branching : σ.Branching allows nl.grp tree)
    (upper : σ.HasPath nl.grp (some rdata.parent) path) {node : TcNode} {below : Option Rdata}
    (returned : tcEnter nl ctx fuel rdata σ node = some (σ', below)) :
    (allows (tcNodeName nl node) = false ∧ below = none ∧
      Store.Renews allows nl.grp ctx.term tree ∅ σ σ') ∨
    (allows (tcNodeName nl node) = true ∧ ∃ ndata, below = some ndata ∧
      σ'.HasPath nl.grp (some ndata.parent) (tcNodeKey nl node :: path) ∧
      Store.Renews allows nl.grp ctx.term tree ({tcNodeKey nl node :: path} ∪
        objsTouched nl allows .ofCls (tcNodeKey nl node :: path) (tcNodeCls nl node)) σ σ') := by
  cases node with
  | ofClass tc =>
    obtain ⟨⟨last, result⟩, handled, same⟩ := Option.map_eq_some_iff.mp returned
    obtain ⟨renews, hasPath, isSome⟩ := handleTcObj_renews branching upper handled
    cases result with
    | none =>
      obtain ⟨rfl, rfl⟩ := Prod.mk.inj same
      have denied : allows (tcName nl .ofClass tc) = false := isSome.symm
      rw [objTouched_of_denied denied] at renews
      exact Or.inl ⟨denied, rfl, renews⟩
    | some e =>
      obtain ⟨rfl, rfl⟩ := Prod.mk.inj same
      have allowed : allows (tcName nl .ofClass tc) = true := isSome.symm
      rw [objTouched_of_allowed allowed] at renews
      have here := hasPath e rfl
      rw [tcNodeCls, objsTouched_nil, Set.union_empty]
      refine Or.inr ⟨allowed, _, rfl, ?_⟩
      split_ifs
      · -- `element_set_txmax` leaves the time to live
        have called : ElementOp.apply ctx.cfg last e (.setTxmax tc.htbRate) =
            some (elementSetTxmax last e tc.htbRate) := rfl
        have touches := ElementOp.touches called
        have life : (elementSetTxmax last e tc.htbRate).eLifecycles e = last.eLifecycles e :=
          map_elementSetMax Element.eLifecycles
            (fun r name value =>
              field_updateInfo Element.eLifecycles (fun _ _ _ => rfl) r name value)
            (fun _ _ => rfl) .tx "TxMax" last e e tc.htbRate
        exact ⟨touches.hasPath_iff.mpr here, renews.branching.unchanged touches life,
          renews.keeps.trans touches.keepsPaths⟩
      · exact ⟨here, renews⟩
  | ofQdisc tc =>
    obtain ⟨⟨middle, result⟩, handled, rest⟩ := Option.bind_eq_some_iff.mp returned
    obtain ⟨renews, hasPath, isSome⟩ := handleTcObj_renews branching upper handled
    cases result with
    | none =>
      obtain ⟨rfl, rfl⟩ := Prod.mk.inj (Option.some.inj rest)
      have denied : allows (tcName nl .ofQdisc tc) = false := isSome.symm
      rw [objTouched_of_denied denied] at renews
      exact Or.inl ⟨denied, rfl, renews⟩
    | some e =>
      have allowed : allows (tcName nl .ofQdisc tc) = true := isSome.symm
      rw [objTouched_of_allowed allowed] at renews
      obtain ⟨σ₁, foundCls, rest⟩ := Option.bind_eq_some_iff.mp rest
      obtain ⟨σ₂, foundRoot, same⟩ := Option.map_eq_some_iff.mp rest
      obtain ⟨rfl, rfl⟩ := Prod.mk.inj same
      have here := hasPath e rfl
      have found := findCls_renews renews.branching here foundCls
      have first := renews.trans found
      have atRoot {tree : LeaseTree.Tree LinkKey} (before : σ₁.Branching allows nl.grp tree) :
          Store.Renews allows nl.grp ctx.term tree (objsTouched nl allows .ofCls
            (tcKey nl .ofQdisc tc :: path)
            (if tc.parent = tcHRoot then clsAt nl tc.ifindex tcHRoot else [])) σ₁ σ₂ := by
        split_ifs at foundRoot ⊢
        · exact findCls_renews before (found.keeps _ _ here) foundRoot
        · obtain rfl := Option.some.inj foundRoot
          rw [objsTouched_nil]
          exact .refl _ before
      have second := atRoot first.branching
      refine Or.inr ⟨allowed, _, rfl, second.keeps _ _ (found.keeps _ _ here), ?_⟩
      rw [tcNodeCls, objsTouched_append, ← Set.union_assoc]
      exact first.trans second

/-- A walk from an object renews the leases of all it comes to. -/
theorem walk_renews {cache : QdiscCache} {classes : List RtnlTc}
    (branching : σ.Branching allows nl.grp tree)
    (upper : σ.HasPath nl.grp (some rdata.parent) path) {node : TcNode}
    (walked : Descent.walk (tcEnter nl ctx) (tcChildren cache classes) fuel rdata σ node =
      some σ') :
    Store.Renews allows nl.grp ctx.term tree
      {touched | TcTouched nl allows cache classes path node touched} σ σ' := by
  induction fuel generalizing tree σ σ' path rdata node with
  | zero => cases walked
  | succ fuel inductionHypothesis =>
    rw [Descent.walk] at walked
    obtain ⟨⟨middle, below⟩, entered, rest⟩ := Option.bind_eq_some_iff.mp walked
    rcases tcEnter_renews branching upper entered with
      ⟨denied, rfl, renews⟩ | ⟨allowed, ndata, rfl, here, renews⟩
    · obtain rfl := Option.some.inj rest
      rw [tcTouched_of_denied denied]
      exact renews
    · rw [tcTouched_of_allowed allowed]
      refine renews.trans (Store.Renews.run renews.branching
        (fun tree σ' before keeps other _ next walkedChild => ?_) rest)
      exact inductionHypothesis before (keeps _ _ here) walkedChild

end Search

/-! ### Links -/

variable {link : RtnlLink}

/-- The search below a link renews the leases of what it comes to. -/
theorem linkTc_renews (branching : σ.Branching allows nl.grp tree) {e : ElementPtr}
    (upper : σ.HasPath nl.grp (some e) path)
    (returned : linkTc nl ctx fuel e link σ = some σ') :
    Store.Renews allows nl.grp ctx.term tree (tcTouched nl allows path link.ifindex) σ σ' := by
  have nothing (untouched : tcTouched nl allows path link.ifindex = ∅) (same : some σ = some σ') :
      Store.Renews allows nl.grp ctx.term tree (tcTouched nl allows path link.ifindex) σ σ' := by
    rw [untouched, ← Option.some.inj same]
    exact .refl _ branching
  unfold linkTc at returned
  split at returned
  · next cache isCache =>
    split_ifs at returned with off
    · refine nothing (Set.eq_empty_of_forall_notMem fun _ ⟨tcOn, _⟩ => ?_) returned
      exact Bool.false_ne_true (tcOn.symm.trans off)
    · cases allocated : nl.classAllocCache link.ifindex with
      | none =>
        unfold handleTc at returned
        rw [allocated] at returned
        refine nothing (Set.eq_empty_of_forall_notMem fun _ ⟨_, _, _, _, isClasses, _⟩ => ?_)
          returned
        rw [allocated] at isClasses
        cases isClasses
      | some classes =>
        rw [handleTc_eq_walk allocated] at returned
        have paths : tcTouched nl allows path link.ifindex = {touched | ∃ start ∈
            tcStarts cache link.ifindex, touched ∈
              {touched | TcTouched nl allows cache classes path start touched}} := by
          ext touched
          constructor
          · rintro ⟨-, cache', classes', isCache', isClasses, reached⟩
            obtain rfl := Option.some.inj (isCache.symm.trans isCache')
            obtain rfl := Option.some.inj (allocated.symm.trans isClasses)
            exact reached
          · exact fun reached =>
              ⟨Bool.eq_false_iff.mpr off, cache, classes, isCache, allocated, reached⟩
        rw [paths]
        exact Store.Renews.run branching
          (fun tree σ' before keeps start _ next walked =>
            walk_renews before (keeps _ _ upper) walked) returned
  · next noCache =>
    refine nothing (Set.eq_empty_of_forall_notMem fun _ ⟨_, _, _, isCache, _⟩ => ?_) returned
    rw [noCache] at isCache
    cases isCache

/-- The keys at the top of the group are those at the top of the tree. -/
theorem topKeys_eq (branching : σ.Branching allows nl.grp tree) :
    topKeys nl.grp σ = topsOf tree := by
  funext key
  rw [Bool.eq_iff_iff, topKeys, topsOf, branching.isSome_iff, Option.isSome_iff_exists]
  exact exists_congr fun e => branching.lookupElement_eq_some_iff .top

/-- The element that `do_link` finds for the master of a link is above the path of the link. -/
theorem hasPath_linkParent (branching : σ.Branching allows nl.grp tree) (ctx : ReadContext)
    (link : RtnlLink) :
    σ.HasPath nl.grp (linkParent nl ctx σ link)
      (Placement.place (topsOf tree) (linkEntry nl link)).toList := by
  rw [linkParent_eq, ← topKeys_eq branching]
  cases placed : Placement.place (topKeys nl.grp σ) (linkEntry nl link) with
  | none => exact .top
  | some master =>
    obtain ⟨p, found⟩ := lookupElement_of_placed placed
    rw [Option.bind_some, found]
    exact (branching.lookupElement_eq_some_iff .top).mp found

/-- `do_link` renews the leases of a link and of what the search finds below it. -/
theorem linkUpdate_renews (branching : σ.Branching allows nl.grp tree) {e : ElementPtr}
    (here : σ.HasPath nl.grp (some e) path)
    (returned : linkUpdate nl ctx fuel link e σ = some σ') :
    Store.Renews allows nl.grp ctx.term tree
      ({path} ∪ tcTouched nl allows path link.ifindex) σ σ' := by
  obtain ⟨calls, -, rest⟩ := Option.bind_eq_some_iff.mp returned
  obtain ⟨first, ran, rest⟩ := Option.bind_eq_some_iff.mp rest
  obtain ⟨second, searched, ends⟩ := Option.bind_eq_some_iff.mp rest
  -- whatever the first calls leave of the lease, the last ones renew it
  have touches : Touches e σ first := touches_run ran
  obtain ⟨n, updated⟩ := branching.touched here touches
  have tc := linkTc_renews updated (touches.keepsPaths _ _ here) searched
  have ends : ctx.onElement e ([] ++ ctx.endCalls fuel) second = some σ' := ends
  have last := tc.branching.lifesigned (tc.keeps _ _ (touches.keepsPaths _ _ here)) ends
  have both := (tc.trans last).branching
  rw [LeaseTree.renew_renew_of_subset Set.subset_union_right, Set.union_comm] at both
  exact ⟨both, touches.keepsPaths.trans (tc.keeps.trans last.keeps)⟩

/-- `do_link` leaves out a link that is not to be shown or is denied, and renews otherwise the
leases that it comes to. -/
theorem doLink_renews (branching : σ.Branching allows nl.grp tree)
    {used : Store × Option ElementPtr} (returned : doLink nl ctx fuel σ link = some used) :
    Store.Renews allows nl.grp ctx.term tree
      (if nl.Shows link ∧ allows link.name = true then linkTouched nl allows (topsOf tree) link
        else ∅) σ used.1 := by
  unfold doLink at returned
  split_ifs at returned with hidden
  · obtain rfl := Option.some.inj returned
    have notShown : ¬nl.Shows link := fun shows => shows.elim hidden.1 fun up => up hidden.2
    rw [if_neg fun both => notShown both.1]
    exact .refl _ branching
  · have shows : nl.Shows link := by
      by_contra notShown
      obtain ⟨notAll, down⟩ := not_or.mp notShown
      exact hidden ⟨notAll, not_not.mp down⟩
    unfold linkLookup at returned
    rcases branching.elementLookup ctx.cfg (hasPath_linkParent branching ctx link) link.name
      link.ifindex with ⟨denied, looked⟩ | ⟨allowed, e, n, found, started, here, keeps⟩
    · simp only [looked] at returned
      obtain rfl := Option.some.inj returned
      rw [if_neg fun both => Bool.false_ne_true (denied.symm.trans both.2)]
      exact .refl _ branching
    · simp only [found] at returned
      obtain ⟨last, updated, rfl⟩ := Option.map_eq_some_iff.mp returned
      have renews := linkUpdate_renews started here updated
      have both := renews.branching
      rw [LeaseTree.renew_renew_of_subset Set.subset_union_left] at both
      rw [if_pos ⟨shows, allowed⟩]
      exact ⟨both, keeps.trans renews.keeps⟩

/-- A read of links renews the leases of all that it comes to. -/
theorem doLinks_renews (branching : σ.Branching allows nl.grp tree) {links : List RtnlLink}
    {last : Pass Store (List (Option ElementPtr))}
    (looped : doLinks nl ctx fuel σ links = some last) :
    Store.Renews allows nl.grp ctx.term tree (linksTouched nl allows (topsOf tree) links) σ
      last.state := by
  induction links generalizing tree σ last with
  | nil =>
    obtain rfl := Option.some.inj looped
    exact .refl _ branching
  | cons link links inductionHypothesis =>
    obtain ⟨pass, passed, next⟩ := Pass.loop_cons looped
    obtain ⟨used, returned, rfl⟩ := Option.map_eq_some_iff.mp passed
    obtain ⟨leaves, -⟩ | ⟨-, rest, loopedRest, rfl⟩ := next
    · cases leaves
    · have first := doLink_renews branching returned
      have others := inductionHypothesis first.branching loopedRest
      rw [linksTouched]
      split_ifs at first others ⊢
      · rw [topsOf_renew] at others
        exact first.trans others
      · rw [LeaseTree.renew_empty] at others
        exact ⟨others.branching, first.keeps.trans others.keeps⟩

end

end Bmon
