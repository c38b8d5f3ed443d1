/-
This file shows when the levels that `do_link` and the search below it write are the depths of
the elements.

`do_link` derives the level of a new element from its parent. The search for traffic-control
objects carries a counter down instead, which `handle_tc` starts with one, whatever element it is
called for. The two agree where the link has no parent. Where it has its master as the parent, all
that is created below the link has a level that is one less than its depth.

Every call that creates an element is looked at in the store right after it. The calls of a search
are those of the walk it is shown to be.
-/

import Bmon.Levels
import Bmon.NetlinkLinks

namespace Bmon

/-! ### What the calls use -/

/-- An element that a call uses, with the store before the call and right after it. -/
structure Used where
  element : ElementPtr
  before : Store
  after : Store

/-- The call has created the element. -/
def Used.created (used : Used) : Bool := (used.before.elements used.element).isNone

section Log

variable (nl : Netlink) (ctx : ReadContext)

/-- What `handle_tc_obj` uses. -/
def tcObjUsed (kind : TcPrefix) (fuel : Nat) (rdata : Rdata) (σ : Store) (tc : RtnlTc) :
    List Used :=
  match handleTcObj nl ctx fuel kind rdata σ tc with
  | some (σ', some e) => [⟨e, σ, σ'⟩]
  | _ => []

/-- What the calls of `handle_cls` in `find_cls` use. -/
def findClsUsed (fuel : Nat) (ifindex parent : UInt32) (rdata : Rdata) (σ : Store) : List Used :=
  match nl.clsAllocCache ifindex parent with
  | none => []
  | some clsCache =>
    Runs.outputs (tcObjUsed nl ctx .ofCls fuel rdata) (handleCls nl ctx fuel rdata) σ clsCache

/-- What `handle_class` and `handle_qdisc` use before they go on to other objects. -/
def tcEnterUsed (fuel : Nat) (rdata : Rdata) (σ : Store) : TcNode → List Used
  | .ofClass tc => tcObjUsed nl ctx .ofClass fuel rdata σ tc
  | .ofQdisc tc =>
    tcObjUsed nl ctx .ofQdisc fuel rdata σ tc ++
      match handleTcObj nl ctx fuel .ofQdisc rdata σ tc with
      | some (σ', some e) =>
        let ndata := rdata.below e
        findClsUsed nl ctx fuel tc.ifindex tc.handle ndata σ' ++
          if tc.parent = tcHRoot then
            (findCls nl ctx fuel tc.ifindex tc.handle ndata σ').elim []
              (findClsUsed nl ctx fuel tc.ifindex tcHRoot ndata)
          else []
      | _ => []

/-- What the search of `handle_tc` uses, as far as it gets. -/
def handleTcUsed (cache : QdiscCache) (fuel : Nat) (e : ElementPtr) (ifindex : UInt32)
    (σ : Store) : List Used :=
  match nl.classAllocCache ifindex with
  | none => []
  | some classes =>
    Runs.outputs
      (Descent.log (tcEnterUsed nl ctx) (tcEnter nl ctx) (tcChildren cache classes) fuel
        ⟨classes, e, 1⟩)
      (Descent.walk (tcEnter nl ctx) (tcChildren cache classes) fuel ⟨classes, e, 1⟩) σ
      (tcStarts cache ifindex)

/-- What `do_link` uses for the link itself, with the store before `handle_tc` is called. -/
def linkUsed (σ : Store) (link : RtnlLink) : List Used :=
  if ¬ nl.cfgShowAll ∧ link.flags &&& iffUp = 0 then []
  else
    let looked := linkLookup nl ctx σ link
    match looked.2 with
    | none => []
    | some e =>
      (((looked.1.elements e).bind fun r => ctx.newElementCalls "bytes" "packets"
        (linkLevel looked.1 r) (linkInfos link) r).bind fun calls =>
          ctx.onElement e (calls ++ linkAttrCalls ctx link) looked.1).elim []
            fun σ' => [⟨e, σ, σ'⟩]

/-- What the call of `handle_tc` in `do_link` uses. -/
def linkTcUsed (fuel : Nat) (σ : Store) (link : RtnlLink) : List Used :=
  (linkUsed nl ctx σ link).flatMap fun used =>
    match nl.qdiscCache with
    | some cache =>
      if nl.cNotc then [] else handleTcUsed nl ctx cache fuel used.element link.ifindex used.after
    | none => []

end Log

/-! ### One call of `handle_tc_obj` -/

/-- A search stands below an element of the group, with a level that counts how far it has come
down from an element of the given depth. -/
structure Rdata.Fits (grp : GroupPtr) (depth : Nat) (rdata : Rdata) (σ : Store) : Prop where
  levelled : σ.Levelled
  isGroup : grp ∈ σ.groupList
  group : σ.eGroup rdata.parent = some grp
  level : ∃ down, σ.HasDepth rdata.parent (depth + down) ∧ rdata.level = UInt32.ofNat (down + 1)

section

variable {nl : Netlink} {ctx : ReadContext} {depth : Nat} {rdata : Rdata} {σ σ' : Store}

theorem Rdata.Fits.stays (fits : rdata.Fits nl.grp depth σ) (grows : σ.Grows σ') :
    rdata.Fits nl.grp depth σ' := by
  obtain ⟨down, hasDepth, level⟩ := fits.level
  obtain ⟨place, present, isGroup⟩ := eGroup_eq_some_iff.mp fits.group
  exact ⟨grows.levelled, grows.groupList fits.isGroup,
    eGroup_eq_some_iff.mpr ⟨place, grows.place _ place present, isGroup⟩,
    down, grows.hasDepth hasDepth, level⟩

/-- Below an element that was used, the level and the depth are one more. -/
theorem Rdata.Fits.below (fits : rdata.Fits nl.grp depth σ) {e : ElementPtr}
    (present : σ.place e = some ⟨some rdata.parent, nl.grp⟩) :
    (rdata.below e).Fits nl.grp depth σ := by
  obtain ⟨down, hasDepth, level⟩ := fits.level
  obtain ⟨r, found, place⟩ := place_eq_some_iff.mp present
  have parent : r.eParent = some rdata.parent := congrArg Place.parent place
  refine ⟨fits.levelled, fits.isGroup, eGroup_eq_some_iff.mpr ⟨_, present, rfl⟩, down + 1,
    .ofChild found parent hasDepth, ?_⟩
  rw [Rdata.below, level]
  exact (UInt32.ofNat_add (down + 1) 1).symm

/-- The set-up of a new element ends with its level, and writes no other. -/
theorem newElementCalls_setUp {major minor : String} {level : UInt32}
    {infos : List (String × String)} {r : Element} {calls : List ElementOp}
    (setUp : ctx.newElementCalls major minor level infos r = some calls) :
    (∀ other, .setUp other ∈ calls → other = level) ∧
      (r.eFlags.created = true → ∃ front, calls = front ++ [.setUp level]) := by
  unfold ReadContext.newElementCalls at setUp
  split_ifs at setUp with created
  · obtain rfl := Option.some.inj setUp
    refine ⟨fun other member => ?_, fun _ => ⟨_, rfl⟩⟩
    simpa using member
  · obtain rfl := Option.some.inj setUp
    refine ⟨fun other member => ?_, fun isCreated => absurd isCreated created⟩
    cases member

/-- No call after the set-up writes the level. -/
theorem tcCalls_other (ctx : ReadContext) (fuel : Nat) (tc : RtnlTc) :
    ∀ op ∈ tcAttrCalls ctx tc ++ ctx.endCalls fuel, ∀ level, op ≠ .setUp level := by
  intro op isCall level isSetUp
  subst isSetUp
  rcases List.mem_append.mp isCall with member | member
  · obtain ⟨entry, -, same⟩ := List.mem_map.mp member
    cases same
  · simp [ReadContext.endCalls] at member

theorem linkCalls_other (ctx : ReadContext) (link : RtnlLink) :
    ∀ op ∈ linkAttrCalls ctx link, ∀ level, op ≠ .setUp level := by
  intro op isCall level isSetUp
  subst isSetUp
  obtain ⟨entry, -, same⟩ := List.mem_map.mp isCall
  cases same

/-- What `handle_tc_obj` uses is below the parent it is given, and gets the level it is given when
it is created. -/
theorem handleTcObj_level {kind : TcPrefix} {fuel : Nat} {tc : RtnlTc} {result : Option ElementPtr}
    (fits : rdata.Fits nl.grp depth σ)
    (returned : handleTcObj nl ctx fuel kind rdata σ tc = some (σ', result)) :
    σ.Grows σ' ∧ ∀ e ∈ result, σ'.place e = some ⟨some rdata.parent, nl.grp⟩ ∧
      (σ.elements e = none → ∃ r, σ'.elements e = some r ∧ r.eLevel = rdata.level) := by
  have held : ∀ p ∈ some rdata.parent, σ.eGroup p = some nl.grp := fun p isParent => by
    rw [← Option.mem_some.mp isParent]
    exact fits.group
  have called : (InputOp.elementLookup nl.grp (tcName nl kind tc) tc.handle (some rdata.parent)
      true).apply ctx.cfg σ = some (tcLookup nl ctx kind rdata σ tc).1 :=
    if_pos ⟨fits.isGroup, held⟩
  have grows := Store.Grows.inputOp fits.levelled rfl called
  unfold handleTcObj at returned
  simp only at returned
  split at returned
  · obtain ⟨rfl, rfl⟩ := Prod.mk.inj (Option.some.inj returned)
    exact ⟨grows, fun e isResult => by cases isResult⟩
  · next e looked =>
    obtain ⟨calls, setUp, rest⟩ := Option.bind_eq_some_iff.mp returned
    obtain ⟨last, ran, same⟩ := Option.map_eq_some_iff.mp rest
    obtain ⟨rfl, rfl⟩ := Prod.mk.inj same
    obtain ⟨r, found, setUp⟩ := Option.bind_eq_some_iff.mp setUp
    obtain ⟨onlyLevel, setsUp⟩ := newElementCalls_setUp setUp
    have present := elementLookup_place fits.levelled.wf held looked
    have ends := tcCalls_other ctx fuel tc
    rw [List.append_assoc] at ran
    have growsRest := Store.Grows.onElement grows.levelled present
      (fun level _ alone => by cases alone) ran
    refine ⟨grows.trans growsRest, fun x isResult => ?_⟩
    obtain rfl := Option.mem_some.mp isResult
    refine ⟨growsRest.place e _ present, fun absent => ?_⟩
    obtain ⟨front, rfl⟩ := setsUp (elementLookup_created looked absent found).1
    rw [List.append_assoc] at ran
    exact eLevel_calls ends ran

/-! ### The search -/

/-- Where the call has created the element, its level is its depth just if the search is below an
element at the top. -/
def Used.Right (depth : Nat) (used : Used) : Prop :=
  used.created = true → (used.after.LevelIsDepth used.element ↔ depth = 0)

/-- A counter that starts with one agrees with a depth below an element at the top only. -/
theorem ofNat_down_eq_iff (small : depth ≤ 1) (down : Nat) :
    UInt32.ofNat (down + 1) = UInt32.ofNat (depth + down + 1) ↔ depth = 0 := by
  rcases Nat.le_one_iff_eq_zero_or_eq_one.mp small with rfl | rfl
  · rw [Nat.zero_add]
    exact iff_of_true rfl rfl
  · have next : UInt32.ofNat (1 + down + 1) = UInt32.ofNat (down + 1) + 1 := by
      rw [Nat.add_comm 1 down, UInt32.ofNat_add (down + 1) 1]
      rfl
    rw [next]
    refine iff_of_false (fun same => ?_) Nat.one_ne_zero
    have zero : (0 : UInt32) = 1 := by
      rw [← UInt32.add_right_inj (UInt32.ofNat (down + 1)), UInt32.add_zero]
      exact same
    exact absurd zero (by decide)

section Search

variable (small : depth ≤ 1) (fits : rdata.Fits nl.grp depth σ)

include fits in
theorem handleCls_grows {fuel : Nat} {tc : RtnlTc}
    (returned : handleCls nl ctx fuel rdata σ tc = some σ') : σ.Grows σ' := by
  obtain ⟨⟨last, result⟩, handled, rfl⟩ := Option.map_eq_some_iff.mp returned
  exact (handleTcObj_level fits handled).1

include fits in
theorem findCls_grows {fuel : Nat} {ifindex parent : UInt32}
    (returned : findCls nl ctx fuel ifindex parent rdata σ = some σ') : σ.Grows σ' := by
  unfold findCls at returned
  split at returned
  · obtain rfl := Option.some.inj returned
    exact .refl fits.levelled
  · refine Runs.run_invariant (fun other => σ.Grows other)
      (fun other tc next grows called => ?_) (.refl fits.levelled) returned
    exact grows.trans (handleCls_grows (fits.stays grows) called)

include small fits

theorem tcObjUsed_right (kind : TcPrefix) (fuel : Nat) (tc : RtnlTc) :
    ∀ used ∈ tcObjUsed nl ctx kind fuel rdata σ tc, used.Right depth := by
  intro used isUsed created
  unfold tcObjUsed at isUsed
  split at isUsed
  · next σ' e returned =>
    obtain rfl := List.mem_singleton.mp isUsed
    obtain ⟨grows, uses⟩ := handleTcObj_level fits returned
    obtain ⟨present, level⟩ := uses e rfl
    obtain ⟨r, found, written⟩ := level (Option.isNone_iff_eq_none.mp created)
    obtain ⟨down, hasDepth, counter⟩ := fits.level
    obtain ⟨r', found', place⟩ := place_eq_some_iff.mp present
    obtain rfl := Option.some.inj (found.symm.trans found')
    have deeper := grows.hasDepth hasDepth
    have parent : r.eParent = some rdata.parent := congrArg Place.parent place
    rw [levelIsDepth_iff found (.ofChild found parent deeper), written, counter]
    exact ofNat_down_eq_iff small down
  · cases isUsed

theorem findClsUsed_right (fuel : Nat) (ifindex parent : UInt32) :
    ∀ used ∈ findClsUsed nl ctx fuel ifindex parent rdata σ, used.Right depth := by
  unfold findClsUsed
  split
  · exact fun used isUsed => by cases isUsed
  · exact Runs.outputs_forall (fun other : Store => rdata.Fits nl.grp depth other)
      (fun other tc _ fitsHere => tcObjUsed_right small fitsHere .ofCls fuel tc)
      (fun other tc _ next fitsHere called => fitsHere.stays (handleCls_grows fitsHere called)) fits

theorem tcEnterUsed_right (fuel : Nat) (node : TcNode) :
    ∀ used ∈ tcEnterUsed nl ctx fuel rdata σ node, used.Right depth := by
  cases node with
  | ofClass tc => exact tcObjUsed_right small fits .ofClass fuel tc
  | ofQdisc tc =>
    rw [tcEnterUsed, List.forall_mem_append]
    refine ⟨tcObjUsed_right small fits .ofQdisc fuel tc, ?_⟩
    split
    · next σ' e returned =>
      obtain ⟨grows, uses⟩ := handleTcObj_level fits returned
      have below := (fits.stays grows).below (uses e rfl).1
      rw [List.forall_mem_append]
      refine ⟨findClsUsed_right small below fuel tc.ifindex tc.handle, ?_⟩
      split_ifs
      · cases found : findCls nl ctx fuel tc.ifindex tc.handle (rdata.below e) σ' with
        | none => exact fun used isUsed => by cases isUsed
        | some σ'' =>
          exact findClsUsed_right small (below.stays (findCls_grows below found)) fuel tc.ifindex
            tcHRoot
      · exact fun used isUsed => by cases isUsed
    · exact fun used isUsed => by cases isUsed

end Search

/-- Entering an object keeps the place of the search, and leads to the one below the object. -/
theorem tcEnter_hands (nl : Netlink) (ctx : ReadContext) (depth : Nat) :
    Descent.Hands (tcEnter nl ctx) (fun rdata σ => rdata.Fits nl.grp depth σ) Store.Grows where
  refl rdata σ fits := .refl fits.levelled
  trans σ next last := Store.Grows.trans
  stays rdata σ next fits grows := fits.stays grows
  enters fuel rdata σ node entered fits returned := by
    cases node with
    | ofClass tc =>
      obtain ⟨⟨σ', result⟩, handled, rfl⟩ := Option.map_eq_some_iff.mp returned
      obtain ⟨grows, uses⟩ := handleTcObj_level fits handled
      cases result with
      | none => exact ⟨grows, fun below isBelow => by cases isBelow⟩
      | some e =>
        have below := (fits.stays grows).below (uses e rfl).1
        simp only
        split_ifs
        · have present : (σ'.elements e).isSome := by
            obtain ⟨r, found, -⟩ := place_eq_some_iff.mp (uses e rfl).1
            rw [found, Option.isSome_some]
          have called : (InputOp.onElement e (.setTxmax tc.htbRate)).apply ctx.cfg σ' =
              some (elementSetTxmax σ' e tc.htbRate) := if_pos present
          have rate := Store.Grows.inputOp grows.levelled rfl called
          refine ⟨grows.trans rate, fun ndata isBelow => ?_⟩
          rw [← Option.mem_some.mp isBelow]
          exact below.stays rate
        · refine ⟨grows, fun ndata isBelow => ?_⟩
          rw [← Option.mem_some.mp isBelow]
          exact below
    | ofQdisc tc =>
      obtain ⟨⟨σ', result⟩, handled, rest⟩ := Option.bind_eq_some_iff.mp returned
      obtain ⟨grows, uses⟩ := handleTcObj_level fits handled
      cases result with
      | none =>
        obtain rfl := Option.some.inj rest
        exact ⟨grows, fun below isBelow => by cases isBelow⟩
      | some e =>
        have below := (fits.stays grows).below (uses e rfl).1
        obtain ⟨σ₁, foundCls, rest⟩ := Option.bind_eq_some_iff.mp rest
        obtain ⟨σ₂, foundRoot, rfl⟩ := Option.map_eq_some_iff.mp rest
        have first := findCls_grows below foundCls
        have second : σ₁.Grows σ₂ := by
          split_ifs at foundRoot
          · exact findCls_grows (below.stays first) foundRoot
          · obtain rfl := Option.some.inj foundRoot
            exact .refl first.levelled
        refine ⟨grows.trans (first.trans second), fun ndata isBelow => ?_⟩
        rw [← Option.mem_some.mp isBelow]
        exact below.stays (first.trans second)

/-- The search that `handle_tc` starts below an element. -/
theorem handleTc_fits {e : ElementPtr} (levelled : σ.Levelled) (isGroup : nl.grp ∈ σ.groupList)
    (group : σ.eGroup e = some nl.grp) (hasDepth : σ.HasDepth e depth) (classes : List RtnlTc) :
    Rdata.Fits nl.grp depth ⟨classes, e, 1⟩ σ :=
  ⟨levelled, isGroup, group, 0, hasDepth, rfl⟩

theorem handleTc_grows {cache : QdiscCache} {fuel : Nat} {e : ElementPtr} {ifindex : UInt32}
    (levelled : σ.Levelled) (isGroup : nl.grp ∈ σ.groupList)
    (group : σ.eGroup e = some nl.grp) (hasDepth : σ.HasDepth e depth)
    (returned : handleTc nl ctx cache fuel e ifindex σ = some σ') : σ.Grows σ' := by
  cases allocated : nl.classAllocCache ifindex with
  | none =>
    unfold handleTc at returned
    rw [allocated] at returned
    obtain rfl := Option.some.inj returned
    exact .refl levelled
  | some classes =>
    rw [handleTc_eq_walk allocated] at returned
    exact (tcEnter_hands nl ctx depth).walks
      (handleTc_fits levelled isGroup group hasDepth classes) returned

theorem handleTcUsed_right {cache : QdiscCache} {fuel : Nat} {e : ElementPtr} {ifindex : UInt32}
    (small : depth ≤ 1) (levelled : σ.Levelled) (isGroup : nl.grp ∈ σ.groupList)
    (group : σ.eGroup e = some nl.grp) (hasDepth : σ.HasDepth e depth) :
    ∀ used ∈ handleTcUsed nl ctx cache fuel e ifindex σ, used.Right depth := by
  unfold handleTcUsed
  split
  · exact fun used isUsed => by cases isUsed
  · next classes _ =>
    exact (tcEnter_hands nl ctx depth).logs
      (fun fuel rdata σ node fits => tcEnterUsed_right small fits fuel node)
      (handleTc_fits levelled isGroup group hasDepth classes)

/-! ### One link -/

variable {link : RtnlLink}

/-- The element of a master is at the top of the group. -/
theorem linkParent_top (wf : σ.WellFormed) {p : ElementPtr}
    (isParent : linkParent nl ctx σ link = some p) : σ.place p = some ⟨none, nl.grp⟩ := by
  unfold linkParent at isParent
  split_ifs at isParent
  have place := elementLookup_place wf (fun p isSome => by cases isSome) isParent
  have same : (elementLookup ctx.cfg σ nl.grp (nl.i2name link.link) link.link none false).1 =
      σ := by
    unfold elementLookup
    split
    · rfl
    · exact congrArg Prod.fst (if_neg fun both => Bool.false_ne_true both.1)
  rwa [same] at place

/-- The depth of the element that `do_link` uses for a link. -/
def linkDepth (nl : Netlink) (ctx : ReadContext) (σ : Store) (link : RtnlLink) : Nat :=
  if linkParent nl ctx σ link = none then 0 else 1

theorem linkDepth_le (nl : Netlink) (ctx : ReadContext) (σ : Store) (link : RtnlLink) :
    linkDepth nl ctx σ link ≤ 1 := by
  unfold linkDepth
  split_ifs <;> decide

theorem linkDepth_eq_zero_iff :
    linkDepth nl ctx σ link = 0 ↔ linkParent nl ctx σ link = none := by
  unfold linkDepth
  by_cases alone : linkParent nl ctx σ link = none
  · exact iff_of_true (if_pos alone) alone
  · rw [if_neg alone]
    exact iff_of_false Nat.one_ne_zero alone

/-- Below its master, or at the top, an element has the depth of the link. -/
theorem hasDepth_link (wf : σ.WellFormed) (grows : σ.Grows σ') {e : ElementPtr}
    (present : σ'.place e = some ⟨linkParent nl ctx σ link, nl.grp⟩) :
    σ'.HasDepth e (linkDepth nl ctx σ link) := by
  refine .of_place present (fun p isParent => ⟨0, ?_, ?_⟩) fun alone => if_pos alone
  · exact if_neg fun alone => Option.some_ne_none p (isParent.symm.trans alone)
  · exact .of_place (grows.place p _ (linkParent_top wf isParent))
      (fun p' isParent' => by cases isParent') fun _ => rfl

variable (ctx link) in
/-- Looking up the element of a link, below its master or at the top. -/
theorem linkLookup_grows (levelled : σ.Levelled) (isGroup : nl.grp ∈ σ.groupList) :
    σ.Grows (linkLookup nl ctx σ link).1 ∧ ∀ e, (linkLookup nl ctx σ link).2 = some e →
      (linkLookup nl ctx σ link).1.place e = some ⟨linkParent nl ctx σ link, nl.grp⟩ := by
  have held : ∀ p ∈ linkParent nl ctx σ link, σ.eGroup p = some nl.grp := fun p isParent => by
    have top := linkParent_top levelled.wf (Option.mem_def.mp isParent)
    exact eGroup_eq_some_iff.mpr ⟨_, top, rfl⟩
  have called : (InputOp.elementLookup nl.grp link.name link.ifindex (linkParent nl ctx σ link)
      true).apply ctx.cfg σ = some (linkLookup nl ctx σ link).1 := if_pos ⟨isGroup, held⟩
  exact ⟨Store.Grows.inputOp levelled rfl called,
    fun e looked => elementLookup_place levelled.wf held looked⟩

/-- What `do_link` uses for the link is where its place is, and gets its depth as the level when
it is created. -/
theorem linkSetUp_level (levelled : σ.Levelled) (isGroup : nl.grp ∈ σ.groupList) {e : ElementPtr}
    {calls : List ElementOp} (looked : (linkLookup nl ctx σ link).2 = some e)
    (setUp : (((linkLookup nl ctx σ link).1.elements e).bind fun r =>
      ctx.newElementCalls "bytes" "packets" (linkLevel (linkLookup nl ctx σ link).1 r)
        (linkInfos link) r) = some calls)
    (ran : ctx.onElement e (calls ++ linkAttrCalls ctx link) (linkLookup nl ctx σ link).1 =
      some σ') :
    σ.Grows σ' ∧ σ'.place e = some ⟨linkParent nl ctx σ link, nl.grp⟩ ∧
      (σ.elements e = none → σ'.LevelIsDepth e) := by
  obtain ⟨grows, places⟩ := linkLookup_grows ctx link levelled isGroup
  have present := places e looked
  obtain ⟨r, found, setUp⟩ := Option.bind_eq_some_iff.mp setUp
  obtain ⟨onlyLevel, setsUp⟩ := newElementCalls_setUp setUp
  obtain ⟨r', found', place⟩ := place_eq_some_iff.mp present
  obtain rfl := Option.some.inj (found.symm.trans found')
  have parent : r.eParent = linkParent nl ctx σ link := congrArg Place.parent place
  have topLevel : ∀ {x : ElementPtr} {s : Element},
      (linkLookup nl ctx σ link).1.elements x = some s → s.eParent = none → s.eLevel = 0 :=
    fun {x s} isElement alone => grows.levelled.top x s.eLevel (by
      rw [isElement, Option.map_some, Element.indent, alone])
  have level : linkLevel (linkLookup nl ctx σ link).1 r =
      UInt32.ofNat (linkDepth nl ctx σ link) := by
    unfold linkLevel linkDepth
    cases isParent : linkParent nl ctx σ link with
    | none =>
      rw [parent, isParent, Option.bind_none, if_pos rfl]
      exact topLevel found (parent.trans isParent)
    | some p =>
      obtain ⟨above, foundAbove, placeAbove⟩ := place_eq_some_iff.mp
        (grows.place p _ (linkParent_top levelled.wf isParent))
      rw [parent, isParent, Option.bind_some, foundAbove, if_neg (Option.some_ne_none p)]
      simp only
      rw [topLevel foundAbove (congrArg Place.parent placeAbove)]
      rfl
  have growsRest := Store.Grows.onElement grows.levelled present (fun other isCall alone => by
    have same : other = linkLevel (linkLookup nl ctx σ link).1 r := by
      rcases List.mem_append.mp isCall with member | member
      · exact onlyLevel other member
      · exact absurd rfl (linkCalls_other ctx link _ member other)
    rw [same, level, linkDepth, if_pos alone]
    rfl) ran
  have placed := growsRest.place e _ present
  refine ⟨grows.trans growsRest, placed, fun absent => ?_⟩
  obtain ⟨front, rfl⟩ := setsUp (elementLookup_created looked absent found).1
  rw [List.append_assoc] at ran
  obtain ⟨last, foundLast, written⟩ := eLevel_calls (linkCalls_other ctx link) ran
  exact ⟨last, _, foundLast, hasDepth_link levelled.wf (grows.trans growsRest) placed,
    written.trans level⟩

/-- What `do_link` uses for the link leads to a store in which the search below it starts. -/
theorem linkUsed_level (levelled : σ.Levelled) (isGroup : nl.grp ∈ σ.groupList) {used : Used}
    (isUsed : used ∈ linkUsed nl ctx σ link) :
    used.before = σ ∧ σ.Grows used.after ∧
      used.after.place used.element = some ⟨linkParent nl ctx σ link, nl.grp⟩ ∧
      (σ.elements used.element = none → used.after.LevelIsDepth used.element) := by
  unfold linkUsed at isUsed
  split_ifs at isUsed
  · cases isUsed
  · simp only at isUsed
    split at isUsed
    · cases isUsed
    · next e looked =>
      cases setUp : ((linkLookup nl ctx σ link).1.elements e).bind fun r =>
          ctx.newElementCalls "bytes" "packets" (linkLevel (linkLookup nl ctx σ link).1 r)
            (linkInfos link) r with
      | none =>
        rw [setUp] at isUsed
        cases isUsed
      | some calls =>
        rw [setUp, Option.bind_some] at isUsed
        cases ran : ctx.onElement e (calls ++ linkAttrCalls ctx link)
            (linkLookup nl ctx σ link).1 with
        | none =>
          rw [ran] at isUsed
          cases isUsed
        | some σ' =>
          rw [ran] at isUsed
          obtain rfl := List.mem_singleton.mp isUsed
          exact ⟨rfl, linkSetUp_level levelled isGroup looked setUp ran⟩

/-- What the search below the link creates gets its depth as the level just if the link is at the
top. -/
theorem linkTcUsed_right (levelled : σ.Levelled) (isGroup : nl.grp ∈ σ.groupList) (fuel : Nat) :
    ∀ used ∈ linkTcUsed nl ctx fuel σ link, used.Right (linkDepth nl ctx σ link) := by
  intro tcUsed isTcUsed
  obtain ⟨used, isUsed, isTcUsed⟩ := List.mem_flatMap.mp isTcUsed
  obtain ⟨-, grows, present, -⟩ := linkUsed_level levelled isGroup isUsed
  split at isTcUsed
  · split_ifs at isTcUsed
    · cases isTcUsed
    · exact handleTcUsed_right (linkDepth_le nl ctx σ link) grows.levelled
        (grows.groupList isGroup) (eGroup_eq_some_iff.mpr ⟨_, present, rfl⟩)
        (hasDepth_link levelled.wf grows present) tcUsed isTcUsed
  · cases isTcUsed

/-- `do_link` frees and moves nothing, and keeps the levels at the top zero. -/
theorem doLink_grows (levelled : σ.Levelled) (isGroup : nl.grp ∈ σ.groupList) {fuel : Nat}
    {used : Store × Option ElementPtr} (returned : doLink nl ctx fuel σ link = some used) :
    σ.Grows used.1 := by
  obtain ⟨grows, places⟩ := linkLookup_grows ctx link levelled isGroup
  unfold doLink at returned
  split_ifs at returned
  · obtain rfl := Option.some.inj returned
    exact .refl levelled
  · simp only at returned
    split at returned
    · obtain rfl := Option.some.inj returned
      exact grows
    · next e looked =>
      obtain ⟨last, updated, rfl⟩ := Option.map_eq_some_iff.mp returned
      obtain ⟨calls, setUp, rest⟩ := Option.bind_eq_some_iff.mp updated
      obtain ⟨first, ran, rest⟩ := Option.bind_eq_some_iff.mp rest
      obtain ⟨second, searched, ends⟩ := Option.bind_eq_some_iff.mp rest
      obtain ⟨growsFirst, present, -⟩ := linkSetUp_level levelled isGroup looked setUp ran
      have growsSecond : first.Grows second := by
        unfold linkTc at searched
        split at searched
        · split_ifs at searched
          · obtain rfl := Option.some.inj searched
            exact .refl growsFirst.levelled
          · exact handleTc_grows growsFirst.levelled (growsFirst.groupList isGroup)
              (eGroup_eq_some_iff.mpr ⟨_, present, rfl⟩)
              (hasDepth_link levelled.wf growsFirst present) searched
        · obtain rfl := Option.some.inj searched
          exact .refl growsFirst.levelled
      have growsLast := Store.Grows.onElement growsSecond.levelled
        (growsSecond.place e _ present) (fun level isCall _ => by
          simp [ReadContext.endCalls] at isCall) ends
      exact growsFirst.trans (growsSecond.trans growsLast)

end

/-! ### Runs -/

/-- What happens in a run: any call of the program, or `do_link` for a link, with what libnl
answers in that read. -/
inductive LinkStep where
  | call (op : Op)
  | doLink (nl : Netlink) (ctx : ReadContext) (fuel : Nat) (link : RtnlLink)

/-- One step. The modules write the level of an element only below a parent, or write what it
is. The group of the module is there, as it was looked up when the module was set up. -/
def LinkStep.apply (cfg : Config) (st : State) : LinkStep → Option State
  | call op => if op.fairLevel st.store then step cfg st op else none
  | doLink nl ctx fuel link =>
    if nl.grp ∈ st.store.groupList then
      (Bmon.doLink nl ctx fuel st.store link).map fun used => { st with store := used.1 }
    else
      none

/-- The creation of an element in a call of `do_link`: the store right after it, whether the
element is for a traffic-control object below the link, and the element that `do_link` has found
for the master of the link. -/
structure Creation where
  element : ElementPtr
  after : Store
  ofTc : Bool
  master : Option ElementPtr

/-- The creations of one step. -/
def LinkStep.creations (st : State) : LinkStep → List Creation
  | call _ => []
  | doLink nl ctx fuel link =>
    if nl.grp ∈ st.store.groupList then
      let master := linkParent nl ctx st.store link
      ((linkUsed nl ctx st.store link).filter Used.created).map
          (fun used => ⟨used.element, used.after, false, master⟩) ++
        ((linkTcUsed nl ctx fuel st.store link).filter Used.created).map
          fun used => ⟨used.element, used.after, true, master⟩
    else
      []

/-- The creations of a run, as far as it gets. -/
def linkCreations (cfg : Config) : State → List LinkStep → List Creation :=
  Runs.outputs LinkStep.creations (LinkStep.apply cfg)

/-- A state in which the program and the module go on. -/
structure State.Levelled (st : State) : Prop where
  valid : st.Valid
  levelled : st.store.Levelled

theorem levelled_stateStart (titles : List GroupHdr) (cfgs : List ElementCfg)
    (allowed denied : List Policy) : (State.start titles cfgs allowed denied).Levelled :=
  ⟨valid_stateStart titles cfgs allowed denied,
    wellFormed_start titles cfgs allowed denied, fun e level isTop => by cases isTop⟩

theorem LinkStep.apply_levelled {cfg : Config} {st next : State} {linkStep : LinkStep}
    (levelled : st.Levelled) (stepped : linkStep.apply cfg st = some next) : next.Levelled := by
  cases linkStep with
  | call op =>
    rw [LinkStep.apply] at stepped
    split_ifs at stepped with fair
    exact ⟨step_valid levelled.valid stepped,
      step_levelled levelled.valid levelled.levelled fair stepped⟩
  | doLink nl ctx fuel link =>
    rw [LinkStep.apply] at stepped
    split_ifs at stepped with isGroup
    obtain ⟨used, returned, rfl⟩ := Option.map_eq_some_iff.mp stepped
    have grows := doLink_grows levelled.levelled isGroup returned
    refine ⟨⟨grows.levelled.wf, ?_⟩, grows.levelled⟩
    refine levelled.valid.selection.of_eGroup levelled.valid.store grows.levelled.wf
      (fun g member => grows.groupList member) fun g e picked => ?_
    have group := levelled.valid.store.inForest_iff.mp
      (levelled.valid.selection.gCurrent g e picked)
    obtain ⟨place, present, same⟩ := eGroup_eq_some_iff.mp group
    rw [group]
    exact eGroup_eq_some_iff.mpr ⟨place, grows.place e place present, same⟩

/-- The creations of one step have their depth as the level just where they are no
traffic-control objects below a link with a master. -/
theorem LinkStep.creations_levelIsDepth_iff {st : State} (levelled : st.Levelled)
    (linkStep : LinkStep) : ∀ creation ∈ linkStep.creations st,
      (creation.after.LevelIsDepth creation.element ↔
        (creation.ofTc = true → creation.master = none)) := by
  intro creation isCreation
  cases linkStep with
  | call op => cases isCreation
  | doLink nl ctx fuel link =>
    rw [LinkStep.creations] at isCreation
    split_ifs at isCreation with isGroup
    · rcases List.mem_append.mp isCreation with ofLink | ofTc
      · obtain ⟨used, member, rfl⟩ := List.mem_map.mp ofLink
        obtain ⟨isUsed, created⟩ := List.mem_filter.mp member
        obtain ⟨before, -, -, level⟩ := linkUsed_level levelled.levelled isGroup isUsed
        rw [Used.created, before] at created
        exact iff_of_true (level (Option.isNone_iff_eq_none.mp created)) fun isTc => by
          cases isTc
      · obtain ⟨used, member, rfl⟩ := List.mem_map.mp ofTc
        obtain ⟨isUsed, created⟩ := List.mem_filter.mp member
        have right := linkTcUsed_right levelled.levelled isGroup fuel used isUsed created
        rw [linkDepth_eq_zero_iff] at right
        exact right.trans ⟨fun alone _ => alone, fun alone => alone rfl⟩
    · cases isCreation

/-- **Levels and depths.** In every run, whatever links, disciplines, classes and classifiers
libnl answers with and whatever else the program does, an element that `do_link` creates, or the
search for traffic-control objects below it, has right after its creation its depth as the level
if and only if it is not one for a traffic-control object below a link that has its master as the
parent. -/
theorem linkCreations_levelIsDepth_iff (cfg : Config) (titles : List GroupHdr)
    (cfgs : List ElementCfg) (allowed denied : List Policy) (steps : List LinkStep) :
    ∀ creation ∈ linkCreations cfg (State.start titles cfgs allowed denied) steps,
      (creation.after.LevelIsDepth creation.element ↔
        (creation.ofTc = true → creation.master = none)) :=
  Runs.outputs_forall State.Levelled
    (fun _ linkStep _ levelled => linkStep.creations_levelIsDepth_iff levelled)
    (fun _ _ _ _ levelled stepped => LinkStep.apply_levelled levelled stepped)
    (levelled_stateStart titles cfgs allowed denied)

/-! ### A discipline below a link and below its master -/

/-- `"intf"`. -/
def intf : CString := CString.ofMemory ['i', 'n', 't', 'f']

/-- `htb 1:` at the root of an interface, with its class `1:1`. -/
def htbOf (ifindex : UInt32) : Netlink :=
  netlinkOf [{ htbQdisc with ifindex := ifindex }] [{ htbClass with ifindex := ifindex }]

/-- The module looks up its group and reads `eth0`, and then `wlan0` whose master it is, with the
discipline on one of them. -/
def htbSteps (ifindex : UInt32) : List LinkStep :=
  [.call (.input (.groupNewHdr ⟨intf, "Interfaces", []⟩)), .call (.input (.groupLookup intf true)),
    .doLink (htbOf ifindex) netlinkContext 4 (upLink eth0 1 0),
    .doLink (htbOf ifindex) netlinkContext 4 (upLink wlan0 2 1)]

/-- Below the master the class of the discipline has its depth as the level. -/
theorem linkCreations_levelIsDepth_iff_master :
    ∃ creation ∈ linkCreations (confInitPost {}) (State.start [] [] [] []) (htbSteps 1),
      (creation.after.elements creation.element).map Element.eLevel = some 2 ∧
      creation.after.LevelIsDepth creation.element := by
  have isCreation : (2, true, none, some 2) ∈
      (linkCreations (confInitPost {}) (State.start [] [] [] []) (htbSteps 1)).map fun creation =>
        (creation.element, creation.ofTc, creation.master,
          (creation.after.elements creation.element).map Element.eLevel) := by
    decide +kernel
  obtain ⟨creation, member, same⟩ := List.mem_map.mp isCreation
  simp only [Prod.mk.injEq] at same
  obtain ⟨-, -, alone, level⟩ := same
  exact ⟨creation, member, level, (linkCreations_levelIsDepth_iff (confInitPost {}) [] [] [] []
    (htbSteps 1) creation member).mpr fun _ => alone⟩

/-- Below the other link the discipline has the level of that link. -/
theorem linkCreations_slave :
    ∃ creation ∈ linkCreations (confInitPost {}) (State.start [] [] [] []) (htbSteps 2),
      (creation.after.elements creation.element).map Element.eLevel = some 1 ∧
      creation.after.HasDepth creation.element 2 ∧
      ¬creation.after.LevelIsDepth creation.element := by
  have isCreation : (2, some (1, some 1), some (some 0), some none) ∈
      (linkCreations (confInitPost {}) (State.start [] [] [] []) (htbSteps 2)).map fun creation =>
        (creation.element, (creation.after.elements creation.element).map Element.indent,
          (creation.after.elements 1).map Element.eParent,
          (creation.after.elements 0).map Element.eParent) := by
    decide +kernel
  obtain ⟨creation, member, same⟩ := List.mem_map.mp isCreation
  simp only [Prod.mk.injEq] at same
  obtain ⟨-, isDiscipline, isLink, isMaster⟩ := same
  obtain ⟨master, foundMaster, alone⟩ := Option.map_eq_some_iff.mp isMaster
  obtain ⟨link, foundLink, parentLink⟩ := Option.map_eq_some_iff.mp isLink
  obtain ⟨discipline, found, indent⟩ := Option.map_eq_some_iff.mp isDiscipline
  obtain ⟨level, parent⟩ := Prod.mk.inj indent
  have hasDepth : creation.after.HasDepth creation.element 2 :=
    .ofChild found parent (.ofChild foundLink parentLink (.atTop foundMaster alone))
  refine ⟨creation, member, by rw [found, Option.map_some, level], hasDepth, ?_⟩
  rw [levelIsDepth_iff found hasDepth, level]
  decide

end Bmon
