/-
This file shows which elements the outputs find in the group of `netlink`, after any number of turns
of the main loop.

The group is a tree of leases. A read renews those of the links and objects it comes to, and the
sweep of the same turn takes one from each and frees with an element all below it. So an element is
there just when one of the last reads came to it and all above it has been there ever since. Where a
cache cannot be brought up to date the module is disabled, and nothing is read any more.
-/

import Bmon.NetlinkTree
import Bmon.Startup

namespace Bmon

/-! ### Turns of the main loop -/

/-- What happens in one turn of the main loop: the calls that move the selection, the time, whether
the caches of links and disciplines can be brought up to date, what libnl answers and the links of
the cache then, and what the outputs draw. -/
structure NetlinkCycle where
  selects : List OutputOp
  now : Timestamp
  linkResync : Bool
  qdiscResync : Bool
  answers : Netlink
  links : List RtnlLink
  draws : List OutputOp

/-- The program with the bit `BMON_MODULE_ENABLED` of the module. -/
structure NetlinkState where
  program : State
  enabled : Bool

namespace NetlinkCycle

/-- The answers for the module with its group. -/
def netlink (g : GroupPtr) (c : NetlinkCycle) : Netlink := { c.answers with grp := g }

/-- Both calls of `nl_cache_resync` succeed. There is none for a cache that could not be
allocated. -/
def resynced (c : NetlinkCycle) : Bool :=
  c.linkResync && (c.answers.qdiscCache.isNone || c.qdiscResync)

/-- A turn in which no link is read. -/
def silent (c : NetlinkCycle) : NetlinkCycle := { c with links := [] }

end NetlinkCycle

/-- `netlink_read`, with the bit of the module after it. -/
def netlinkRead (ctx : ReadContext) (g : GroupPtr) (fuel : Nat) (c : NetlinkCycle) (σ : Store) :
    Option (Store × Bool) :=
  if c.resynced then
    (doLinks (c.netlink g) (ctx.atTime c.now) fuel σ c.links).map fun pass => (pass.state, true)
  else some (σ, false)

/-- One turn of the main loop in which `netlink` is the input module. `input_read` leaves out a
module that is disabled. -/
def netlinkCycle (ctx : ReadContext) (g : GroupPtr) (fuel : Nat) (st : NetlinkState)
    (c : NetlinkCycle) : Option NetlinkState :=
  (Runs.run (step ctx.cfg) st.program (c.selects.map Op.output ++ [.resetUpdateFlags])).bind
    fun reading =>
      (if st.enabled then netlinkRead ctx g fuel c reading.store
        else some (reading.store, false)).bind fun read =>
          (Runs.run (step ctx.cfg) { reading with store := read.1 }
            (.freeUnusedElements :: c.draws.map Op.output)).map fun program => ⟨program, read.2⟩

/-! ### The tree of the group -/

/-- The paths that a turn comes to. -/
def NetlinkCycle.touched (g : GroupPtr) (allows : CString → Bool) (c : NetlinkCycle)
    (tree : LeaseTree.Tree LinkKey) : Set (List LinkKey) :=
  linksTouched (c.netlink g) allows (topsOf tree) c.links

/-- The turns with what is read in them, with the bit of the module before them: nothing is read in
a turn in which a cache cannot be brought up to date, and in none after it. -/
def heard : Bool → List NetlinkCycle → List NetlinkCycle
  | _, [] => []
  | enabled, c :: cycles =>
    if enabled && c.resynced then c :: heard true cycles else c.silent :: heard false cycles

/-- The tree that is left after some turns, when every read renews the leases of what it comes to
and every sweep takes one from all of them. -/
noncomputable def netlinkTree (ctx : ReadContext) (g : GroupPtr) (allows : CString → Bool)
    (cycles : List NetlinkCycle) : LeaseTree.Tree LinkKey :=
  LeaseTree.after ctx.term (NetlinkCycle.touched g allows) cycles

theorem grounded_touched (g : GroupPtr) (allows : CString → Bool) (c : NetlinkCycle)
    (tree : LeaseTree.Tree LinkKey) : LeaseTree.Grounded tree (c.touched g allows tree) :=
  grounded_linksTouched tree c.links

section

variable {ctx : ReadContext} {allows : CString → Bool} {g : GroupPtr} {fuel : Nat}
variable {tree : LeaseTree.Tree LinkKey} {st last : NetlinkState} {c : NetlinkCycle}

/-- A read renews the leases of what it comes to. -/
theorem netlinkRead_branching {σ : Store} (branching : σ.Branching allows g tree) {enabled : Bool}
    {read : Store × Bool}
    (returned : (if enabled then netlinkRead ctx g fuel c σ else some (σ, false)) = some read) :
    read.2 = (enabled && c.resynced) ∧ read.1.Branching allows g (LeaseTree.renew ctx.term
      ((if enabled && c.resynced then c else c.silent).touched g allows tree) tree) := by
  have nothing (same : some (σ, false) = some read) : read.2 = false ∧ read.1.Branching allows g
      (LeaseTree.renew ctx.term (c.silent.touched g allows tree) tree) := by
    obtain rfl := Option.some.inj same
    have untouched : c.silent.touched g allows tree = ∅ := rfl
    rw [untouched, LeaseTree.renew_empty]
    exact ⟨rfl, branching⟩
  cases enabled with
  | false => exact nothing returned
  | true =>
    rw [if_pos rfl, netlinkRead] at returned
    rw [Bool.true_and]
    cases resynced : c.resynced with
    | false =>
      rw [resynced] at returned
      exact nothing returned
    | true =>
      rw [resynced, if_pos rfl] at returned
      obtain ⟨pass, looped, rfl⟩ := Option.map_eq_some_iff.mp returned
      have renews := doLinks_renews (show σ.Branching allows (c.netlink g).grp tree from branching)
        looped
      exact ⟨rfl, renews.branching⟩

/-- A turn is one of the tree. -/
theorem netlinkCycle_branching (branching : st.program.store.Branching allows g tree)
    (ran : netlinkCycle ctx g fuel st c = some last) :
    last.enabled = (st.enabled && c.resynced) ∧
      last.program.store.Branching allows g (LeaseTree.turn ctx.term
        (NetlinkCycle.touched g allows) tree
          (if st.enabled && c.resynced then c else c.silent)) := by
  obtain ⟨s, before⟩ := run_beforeRead ctx.cfg st.program c.selects
  unfold netlinkCycle at ran
  rw [before, Option.bind_some] at ran
  obtain ⟨read, returned, after⟩ := Option.bind_eq_some_iff.mp ran
  obtain ⟨program, drawn, rfl⟩ := Option.map_eq_some_iff.mp after
  obtain ⟨enabled, middle⟩ := netlinkRead_branching branching.resetUpdateFlags returned
  obtain ⟨s', draws⟩ := run_output ctx.cfg (freeUnusedElements ⟨read.1, s⟩) c.draws
  obtain rfl := Option.some.inj (draws.symm.trans drawn)
  have swept := (show (State.mk read.1 s).store.Branching allows g _ from middle).sweep
  exact ⟨enabled, swept⟩

/-- So are some turns, one after the other. -/
theorem netlinkCycles_branching {cycles : List NetlinkCycle}
    (branching : st.program.store.Branching allows g tree)
    (ran : Runs.run (netlinkCycle ctx g fuel) st cycles = some last) :
    last.program.store.Branching allows g ((heard st.enabled cycles).foldl
      (LeaseTree.turn ctx.term (NetlinkCycle.touched g allows)) tree) := by
  induction cycles generalizing st tree with
  | nil =>
    obtain rfl := Option.some.inj ran
    exact branching
  | cons c cycles inductionHypothesis =>
    obtain ⟨next, turned, rest⟩ := Option.bind_eq_some_iff.mp ran
    obtain ⟨enabled, after⟩ := netlinkCycle_branching branching turned
    have others := inductionHypothesis after rest
    rw [enabled] at others
    rw [heard]
    split_ifs at others ⊢ with reads
    · rw [reads] at others
      exact others
    · rw [Bool.eq_false_iff.mpr reads] at others
      exact others

/-! ### Termination -/

/-- No search of the turn finds an object again below itself. -/
def NetlinkCycle.Ends (c : NetlinkCycle) : Prop :=
  ∀ cache, c.answers.qdiscCache = some cache → c.answers.cNotc = false →
    ∀ link ∈ c.links, NoneRecurs c.answers cache link.ifindex

section Ends

variable {nl : Netlink} {σ : Store} {path : List LinkKey} {link : RtnlLink}
variable (loaded : ctx.Loaded) (intervals : ctx.PositiveIntervals)
variable (branching : σ.Branching allows nl.grp tree) (positive : σ.PositiveIntervals)
variable (noneRecurs : ∀ cache, nl.qdiscCache = some cache → nl.cNotc = false →
  NoneRecurs nl cache link.ifindex)

include loaded intervals positive noneRecurs in
/-- With enough fuel the search below a link comes to its end. -/
theorem linkTc_ends (e : ElementPtr) :
    ∃ enough last, Store.PositiveIntervals last ∧ ∀ fuel, enough ≤ fuel →
      linkTc nl ctx fuel e link σ = some last := by
  unfold linkTc
  cases isCache : nl.qdiscCache with
  | none => exact ⟨0, σ, positive, fun _ _ => rfl⟩
  | some cache =>
    cases off : nl.cNotc with
    | true => exact ⟨0, σ, positive, fun _ _ => rfl⟩
    | false =>
      simp only [Bool.false_eq_true, if_false]
      cases allocated : nl.classAllocCache link.ifindex with
      | none =>
        refine ⟨0, σ, positive, fun fuel _ => ?_⟩
        unfold handleTc
        rw [allocated]
      | some classes =>
        simp only [handleTc_eq_walk allocated]
        have searchable : σ.Searchable σ.allows := ⟨positive, rfl⟩
        have accessible := (noneRecurs_iff allocated).mp (noneRecurs cache isCache off)
        obtain ⟨enough, last, kept, returns⟩ := Runs.run_returns
          (fun other : Store => other.Searchable σ.allows)
          (fun other start isStart kept => Descent.walk_ends (accessible start isStart)
            (fun node _ fuel rdata other entered kept returned =>
              (tcEnter_keeps intervals kept returned).1)
            (fun node _ rdata other kept => tcEnter_returns nl loaded intervals kept rdata node)
            ⟨classes, e, 1⟩ kept) searchable
        exact ⟨enough, last, kept.positive, returns⟩

include loaded intervals branching positive noneRecurs

/-- With enough fuel the element of a link is updated. -/
theorem linkUpdate_ends {e : ElementPtr} (here : σ.HasPath nl.grp (some e) path) :
    ∃ enough last, Store.PositiveIntervals last ∧ ∀ fuel, enough ≤ fuel →
      linkUpdate nl ctx fuel link e σ = some last := by
  obtain ⟨r, found⟩ := Option.isSome_iff_exists.mp here.isSome
  obtain ⟨calls, middle, setUp, updated, ran⟩ := newElementCalls_run loaded.bytes loaded.packets
    ⟨here.isSome, positive⟩ (linkLevel σ r) (linkInfos link) r
      (linkAttrCalls_instant intervals link)
  have touches : Touches e σ middle := touches_run ran
  obtain ⟨n, kept⟩ := branching.touched here touches
  have stays := touches.keepsPaths _ _ here
  obtain ⟨first, after, positiveAfter, searches⟩ :=
    linkTc_ends loaded intervals updated.positive noneRecurs e
  have renews := linkTc_renews kept stays (searches first le_rfl)
  obtain ⟨second, last, feedable, ends⟩ := Store.Feedable.endCalls
    ⟨(renews.keeps _ _ stays).isSome, positiveAfter⟩ ctx.cfg ctx.now
  refine ⟨max first second, last, feedable.positive, fun fuel more => ?_⟩
  unfold linkUpdate
  rw [found, Option.bind_some, setUp, Option.bind_some, ran, Option.bind_some,
    searches fuel ((le_max_left _ _).trans more), Option.bind_some]
  exact ends fuel ((le_max_right _ _).trans more)

/-- With enough fuel `do_link` returns. -/
theorem doLink_ends :
    ∃ enough used, Store.PositiveIntervals used.1 ∧ ∀ fuel, enough ≤ fuel →
      doLink nl ctx fuel σ link = some used := by
  have kept : (linkLookup nl ctx σ link).1.PositiveIntervals :=
    positiveIntervals_elementLookup ctx.cfg positive _ _ _ _ _
  unfold doLink
  split_ifs with hidden
  · exact ⟨0, (σ, none), positive, fun _ _ => rfl⟩
  unfold linkLookup at kept ⊢
  rcases branching.elementLookup ctx.cfg (hasPath_linkParent branching ctx link) link.name
    link.ifindex with ⟨denied, looked⟩ | ⟨allowed, e, n, found, started, here, -⟩
  · simp only [looked]
    exact ⟨0, (σ, none), positive, fun _ _ => rfl⟩
  · simp only [found]
    obtain ⟨enough, last, keptLast, updates⟩ :=
      linkUpdate_ends loaded intervals started kept noneRecurs here
    refine ⟨enough, (last, some e), keptLast, fun fuel more => ?_⟩
    rw [updates fuel more, Option.map_some]

end Ends

/-- With enough fuel a read of links returns. -/
theorem doLinks_ends {nl : Netlink} {σ : Store} (loaded : ctx.Loaded)
    (intervals : ctx.PositiveIntervals) (branching : σ.Branching allows nl.grp tree)
    (positive : σ.PositiveIntervals) {links : List RtnlLink}
    (noneRecurs : ∀ cache, nl.qdiscCache = some cache → nl.cNotc = false →
      ∀ link ∈ links, NoneRecurs nl cache link.ifindex) :
    ∃ enough after, Store.PositiveIntervals after ∧ ∀ fuel, enough ≤ fuel →
      (doLinks nl ctx fuel σ links).map Pass.state = some after := by
  have each (other : Store) (link : RtnlLink) (member : link ∈ links)
      (kept : (∃ tree, other.Branching allows nl.grp tree) ∧ other.PositiveIntervals) :
      ∃ enough after leaves, ((∃ tree, Store.Branching allows nl.grp tree after) ∧
          Store.PositiveIntervals after) ∧ ∀ fuel, enough ≤ fuel → ∃ output,
        ((doLink nl ctx fuel other link).map fun used => ⟨used.1, used.2, false⟩) =
          some (⟨after, output, leaves⟩ : Pass Store (Option ElementPtr)) := by
    obtain ⟨⟨tree, before⟩, positive⟩ := kept
    obtain ⟨enough, used, keptUsed, returns⟩ := doLink_ends loaded intervals before positive
      fun cache isCache tcOn => noneRecurs cache isCache tcOn link member
    have renews := doLink_renews before (returns enough le_rfl)
    refine ⟨enough, used.1, false, ⟨⟨_, renews.branching⟩, keptUsed⟩, fun fuel more => ⟨used.2, ?_⟩⟩
    rw [returns fuel more, Option.map_some]
  obtain ⟨enough, after, leaves, ⟨-, kept⟩, loops⟩ := Pass.loop_returns _
    (fun other : Store => (∃ tree, other.Branching allows nl.grp tree) ∧ other.PositiveIntervals)
    links each ⟨⟨tree, branching⟩, positive⟩
  refine ⟨enough, after, kept, fun fuel more => ?_⟩
  obtain ⟨outputs, looped⟩ := loops fuel more
  rw [doLinks, looped]
  rfl

/-- With enough fuel a read returns. -/
theorem netlinkRead_ends {σ : Store} (loaded : ctx.Loaded) (intervals : ctx.PositiveIntervals)
    (branching : σ.Branching allows g tree) (positive : σ.PositiveIntervals) (ends : c.Ends) :
    ∃ enough read, Store.PositiveIntervals read.1 ∧ ∀ fuel, enough ≤ fuel →
      netlinkRead ctx g fuel c σ = some read := by
  unfold netlinkRead
  split_ifs
  · have loadedNow : (ctx.atTime c.now).Loaded :=
      ⟨⟨loaded.bytes, loaded.packets⟩, loaded.tcBytes, loaded.tcPackets⟩
    obtain ⟨enough, after, kept, reads⟩ := doLinks_ends loadedNow intervals
      (show σ.Branching allows (c.netlink g).grp tree from branching) positive ends
    refine ⟨enough, (after, true), kept, fun fuel more => ?_⟩
    obtain ⟨pass, looped, rfl⟩ := Option.map_eq_some_iff.mp (reads fuel more)
    rw [looped, Option.map_some]
  · exact ⟨0, (σ, false), positive, fun _ _ => rfl⟩

/-- With the attributes defined, positive intervals and searches that come to their end, a turn
returns. -/
theorem netlinkCycle_returns (loaded : ctx.Loaded) (intervals : ctx.PositiveIntervals)
    (branching : st.program.store.Branching allows g tree)
    (positive : st.program.store.PositiveIntervals) (ends : c.Ends) :
    ∃ enough next, Store.PositiveIntervals next.program.store ∧ ∀ fuel, enough ≤ fuel →
      netlinkCycle ctx g fuel st c = some next := by
  have reset := branching.resetUpdateFlags
  have positiveReset := positiveIntervals_resetUpdateFlags positive
  obtain ⟨enough, read, kept, reads⟩ : ∃ enough read, Store.PositiveIntervals read.1 ∧
      ∀ fuel, enough ≤ fuel → (if st.enabled then
        netlinkRead ctx g fuel c (resetUpdateFlags st.program.store)
          else some (resetUpdateFlags st.program.store, false)) = some read := by
    cases st.enabled with
    | true => exact netlinkRead_ends loaded intervals reset positiveReset ends
    | false => exact ⟨0, _, positiveReset, fun _ _ => rfl⟩
  obtain ⟨s, before⟩ := run_beforeRead ctx.cfg st.program c.selects
  obtain ⟨s', draws⟩ := run_output ctx.cfg (freeUnusedElements ⟨read.1, s⟩) c.draws
  refine ⟨enough, ⟨⟨(freeUnusedElements ⟨read.1, s⟩).store, s'⟩, read.2⟩, ?_, fun fuel more => ?_⟩
  · obtain ⟨-, middle⟩ := netlinkRead_branching reset (reads enough le_rfl)
    exact positiveIntervals_sweep (show (State.mk read.1 s).store.WellFormed from middle.wf) kept
  · rw [netlinkCycle, before, Option.bind_some, reads fuel more, Option.bind_some]
    exact Option.map_eq_some_iff.mpr ⟨_, draws, rfl⟩

/-- So do any number of turns. -/
theorem netlinkCycles_return (loaded : ctx.Loaded) (intervals : ctx.PositiveIntervals)
    (branching : st.program.store.Branching allows g tree)
    (positive : st.program.store.PositiveIntervals) {cycles : List NetlinkCycle}
    (ends : ∀ c ∈ cycles, c.Ends) :
    ∃ enough last, ∀ fuel, enough ≤ fuel →
      Runs.run (netlinkCycle ctx g fuel) st cycles = some last := by
  obtain ⟨enough, last, -, returns⟩ := Runs.run_returns
    (fun st : NetlinkState => (∃ tree, st.program.store.Branching allows g tree) ∧
      st.program.store.PositiveIntervals) (fun st c member kept => by
        obtain ⟨⟨tree, before⟩, positive⟩ := kept
        obtain ⟨enough, next, positiveNext, turns⟩ :=
          netlinkCycle_returns loaded intervals before positive (ends c member)
        obtain ⟨-, after⟩ := netlinkCycle_branching before (turns enough le_rfl)
        exact ⟨enough, next, ⟨⟨_, after⟩, positiveNext⟩, turns⟩) ⟨⟨tree, branching⟩, positive⟩
  exact ⟨enough, last, returns⟩

end

/-! ### A discipline, and a cache that fails -/

/-- Elements that live for three reads. -/
def threeSweeps : ReadContext := { netlinkContext with cfg := confInitPost { lifetime := 3 } }

theorem threeSweeps_loaded : threeSweeps.Loaded :=
  ⟨⟨netlinkContext_loaded.bytes, netlinkContext_loaded.packets⟩,
    netlinkContext_loaded.tcBytes, netlinkContext_loaded.tcPackets⟩

theorem threeSweeps_histories : SoundHistories threeSweeps.historyDefs :=
  ⟨fun _ member => (List.not_mem_nil member).elim, fun _ member => (List.not_mem_nil member).elim⟩

theorem threeSweeps_term : threeSweeps.term = 3 := by decide +kernel

/-- The program with the group of the interfaces, and the module. -/
def netlinkStart : NetlinkState := ⟨interfacesStart, true⟩

/-- `eth0` with `htb` at its root, and `wlan0` whose master it is. -/
def htbTurn : NetlinkCycle :=
  ⟨[], ⟨1, 0⟩, true, true, netlinkOf [htbQdisc] [], [upLink eth0 1 0, upLink wlan0 2 1], []⟩

/-- A turn in which the cache of the links cannot be brought up to date. -/
def failedTurn : NetlinkCycle := { htbTurn with now := ⟨2, 0⟩, linkResync := false }

/-- Nothing is below the discipline. -/
theorem htbQdisc_noneRecurs (ifindex : UInt32) :
    NoneRecurs (netlinkOf [htbQdisc] []) (qdiscCacheOf [htbQdisc]) ifindex := by
  refine (noneRecurs_iff rfl).mpr fun start isStart => ?_
  obtain ⟨tc, member, rfl⟩ := tcStarts_mem isStart
  obtain rfl := List.mem_singleton.mp member
  exact ⟨_, fun child isChild => by cases isChild⟩

theorem htbTurn_ends : htbTurn.Ends := by
  intro cache isCache tcOn link isLink
  obtain rfl := Option.some.inj isCache
  exact htbQdisc_noneRecurs link.ifindex

/-- The program makes these turns in any order. -/
theorem htbTurns_return {cycles : List NetlinkCycle}
    (turns : ∀ c ∈ cycles, c = htbTurn ∨ c = failedTurn) :
    ∃ fuel last, Runs.run (netlinkCycle threeSweeps 0 fuel) netlinkStart cycles = some last := by
  have wf : netlinkStart.program.store.WellFormed := interfaceStore_wellFormed []
  obtain ⟨enough, last, returns⟩ := netlinkCycles_return threeSweeps_loaded
    threeSweeps_histories.intervals (branching_empty wf List.mem_cons_self rfl)
    (interfaceStore_positive []) fun c (member : c ∈ cycles) => by
      rcases turns c member with rfl | rfl
      · exact htbTurn_ends
      · exact htbTurn_ends
  exact ⟨enough, last, returns enough le_rfl⟩

/-- A read of these links comes to `eth0` if it is allowed, and to the discipline. -/
theorem htbTurn_touched {allows : CString → Bool} (allowed : allows eth0 = true) (g : GroupPtr)
    (tree : LeaseTree.Tree LinkKey) :
    [(eth0, 1)] ∈ htbTurn.touched g allows tree ∧
      (allows (tcName htbTurn.answers .ofQdisc htbQdisc) = true →
        [tcKey htbTurn.answers .ofQdisc htbQdisc, (eth0, 1)] ∈ htbTurn.touched g allows tree) := by
  have shows : (htbTurn.netlink g).Shows (upLink eth0 1 0) :=
    Or.inr (by decide : iffUp &&& iffUp ≠ 0)
  have entry : NetlinkCycle.touched g allows htbTurn tree =
      linksTouched (htbTurn.netlink g) allows (topsOf tree)
        [upLink eth0 1 0, upLink wlan0 2 1] := rfl
  rw [entry, linksTouched, if_pos ⟨shows, allowed⟩]
  refine ⟨Or.inl (Or.inl rfl), fun qdiscAllowed => Or.inl (Or.inr ?_)⟩
  have start : TcNode.ofQdisc htbQdisc ∈ tcStarts (qdiscCacheOf [htbQdisc]) 1 :=
    List.mem_cons_self
  exact ⟨rfl, qdiscCacheOf [htbQdisc], [], rfl, rfl, _, start, .self qdiscAllowed⟩

/-! ### Which elements are shown -/

/-- An element is at a path of the group. -/
def Store.ShowsPath (σ : Store) (g : GroupPtr) (path : List LinkKey) : Prop :=
  ∃ e, σ.HasPath g (some e) path

/-- One of the last turns came to a path, as many as the term of a lease less one, and what is above
it has been there ever since. -/
def RecentlyTouched (ctx : ReadContext) (g : GroupPtr) (allows : CString → Bool)
    (cycles : List NetlinkCycle) (key : LinkKey) (path : List LinkKey) : Prop :=
  ∃ before c later, cycles = before ++ c :: later ∧ later.length + 1 < ctx.term ∧
    key :: path ∈ c.touched g allows (netlinkTree ctx g allows before) ∧
    ∀ further, further <+: later →
      LeaseTree.Present (netlinkTree ctx g allows (before ++ c :: further)) path

theorem netlinkTree_isSome_iff (ctx : ReadContext) (g : GroupPtr) (allows : CString → Bool)
    (cycles : List NetlinkCycle) (key : LinkKey) (path : List LinkKey) :
    (netlinkTree ctx g allows cycles (key :: path)).isSome ↔
      RecentlyTouched ctx g allows cycles key path :=
  LeaseTree.isSome_after_iff (fun c tree _ => grounded_touched g allows c tree) (sweepsLeft_pos _)
    cycles key path

/-- After the first read `eth0` is there, so it is after the turn. -/
theorem htbTurn_recent {ctx : ReadContext} {allows : CString → Bool} (long : 1 < ctx.term)
    (allowed : allows eth0 = true) (g : GroupPtr) :
    RecentlyTouched ctx g allows [htbTurn] (eth0, 1) [] :=
  ⟨[], htbTurn, [], rfl, long, (htbTurn_touched allowed g _).1, fun _ _ => Or.inl rfl⟩

section

variable {ctx : ReadContext} {g : GroupPtr} {fuel : Nat} {cycles : List NetlinkCycle}
variable {st last : NetlinkState}

/-- From a group without elements the turns lead to the tree. -/
theorem netlinkTree_branching (wf : st.program.store.WellFormed)
    (isGroup : g ∈ st.program.store.groupList)
    (empty : st.program.store.lists (.ofGroup g) = [])
    (ran : Runs.run (netlinkCycle ctx g fuel) st cycles = some last) :
    last.program.store.Branching st.program.store.allows g
      (netlinkTree ctx g st.program.store.allows (heard st.enabled cycles)) :=
  netlinkCycles_branching (branching_empty wf isGroup empty) ran

end

/-- **The elements of `netlink` are a tree of leases.** Whatever libnl answers in each turn of the
main loop, whatever the outputs select and whenever the caches cannot be brought up to date, where
`netlink` is the only input module every element of its group is at one path, at each path there is
one element at most, and the sweeps that are left to the elements are those of the tree in which
every read renews the leases of the links and objects it comes to, and every sweep takes one from
all of them and frees with an element all below it. -/
theorem netlink_leases (ctx : ReadContext) (g : GroupPtr) (fuel : Nat)
    (cycles : List NetlinkCycle) (st last : NetlinkState) (wf : st.program.store.WellFormed)
    (isGroup : g ∈ st.program.store.groupList)
    (empty : st.program.store.lists (.ofGroup g) = [])
    (ran : Runs.run (netlinkCycle ctx g fuel) st cycles = some last) :
    (∀ e, last.program.store.eGroup e = some g →
      ∃! path, last.program.store.HasPath g (some e) path) ∧
    (∀ path e e', last.program.store.HasPath g (some e) path →
      last.program.store.HasPath g (some e') path → e = e') ∧
    ∀ path n, netlinkTree ctx g st.program.store.allows (heard st.enabled cycles) path = some n ↔
      ∃ e, last.program.store.HasPath g (some e) path ∧ last.program.store.sweeps e = some n := by
  have branching := netlinkTree_branching wf isGroup empty ran
  refine ⟨fun e inGroup => ?_, branching.distinct, branching.leases⟩
  obtain ⟨path, hasPath⟩ := branching.wf.exists_hasPath inGroup
  exact ⟨path, hasPath, fun other atOther => atOther.unique branching.wf hasPath⟩

/-- A turn in which nothing is read leaves `eth0` one sweep less. -/
theorem netlinkTree_failedTurn :
    netlinkTree threeSweeps 0 interfacesStart.store.allows (heard true [htbTurn, failedTurn])
      [(eth0, 1)] = some 1 := by
  have grounded := grounded_touched 0 interfacesStart.store.allows
  have positive : 0 < threeSweeps.term := sweepsLeft_pos _
  have sound (cycles : List NetlinkCycle) : LeaseTree.Sound (LeaseTree.after threeSweeps.term
      (NetlinkCycle.touched 0 interfacesStart.store.allows) cycles) :=
    LeaseTree.sound_after (fun c tree _ => grounded c tree) positive cycles
  have heardTurns : heard true [htbTurn, failedTurn] = [htbTurn] ++ [failedTurn.silent] := rfl
  have renewed := (htbTurn_touched (allows_interfaceStore eth0) 0 (fun _ => none)).1
  rw [heardTurns, netlinkTree, LeaseTree.after_concat, LeaseTree.turn,
    LeaseTree.expire_cons_eq_some_iff ((sound [htbTurn]).renew (grounded _ _) positive)]
  refine ⟨Nat.one_pos, ?_, Or.inl rfl⟩
  have nothing : failedTurn.silent.touched 0 interfacesStart.store.allows
      (LeaseTree.after threeSweeps.term (NetlinkCycle.touched 0 interfacesStart.store.allows)
        [htbTurn]) = ∅ := rfl
  rw [nothing, LeaseTree.renew_empty]
  refine (LeaseTree.expire_cons_eq_some_iff ((sound []).renew (grounded _ _) positive)).mpr
    ⟨Nat.two_pos, ?_, Or.inl rfl⟩
  exact (LeaseTree.renew_of_mem renewed).trans (congrArg some threeSweeps_term)

/-- Two turns of the program, the second of which fails, leave one sweep to `eth0`. -/
theorem netlink_leases_failedTurn :
    ∃ fuel last e, Runs.run (netlinkCycle threeSweeps 0 fuel) netlinkStart [htbTurn, failedTurn] =
        some last ∧
      last.program.store.HasPath 0 (some e) [(eth0, 1)] ∧
      last.program.store.sweeps e = some 1 := by
  obtain ⟨fuel, last, ran⟩ :=
    htbTurns_return (show ∀ c ∈ [htbTurn, failedTurn], _ by simp)
  obtain ⟨-, -, leases⟩ := netlink_leases threeSweeps 0 fuel [htbTurn, failedTurn] netlinkStart
    last (interfaceStore_wellFormed []) List.mem_cons_self rfl ran
  obtain ⟨e, hasPath, left⟩ := (leases [(eth0, 1)] 1).mp netlinkTree_failedTurn
  exact ⟨fuel, last, e, ran, hasPath, left⟩

/-- **Which elements are shown.** Where the attributes are defined, all histories have positive
intervals and those of the configuration room for an entry, and no search finds an object again
below itself, the main loop with `netlink` as its only input module makes its turns. Afterwards an
element is at a path of the group just when one of the last reads came to that path, as many as the
time to live of an element less one, and what is above it has been there ever since. -/
theorem netlink_shown_iff (ctx : ReadContext) (g : GroupPtr) (cycles : List NetlinkCycle)
    (st : NetlinkState) (wf : st.program.store.WellFormed)
    (isGroup : g ∈ st.program.store.groupList)
    (empty : st.program.store.lists (.ofGroup g) = []) (loaded : ctx.Loaded)
    (histories : SoundHistories ctx.historyDefs)
    (positive : st.program.store.PositiveIntervals) (ends : ∀ c ∈ cycles, c.Ends) :
    ∃ enough last,
      (∀ fuel, enough ≤ fuel → Runs.run (netlinkCycle ctx g fuel) st cycles = some last) ∧
      ∀ key path, last.program.store.ShowsPath g (key :: path) ↔
        RecentlyTouched ctx g st.program.store.allows (heard st.enabled cycles) key path := by
  obtain ⟨enough, last, returns⟩ :=
    netlinkCycles_return loaded histories.intervals (branching_empty wf isGroup empty) positive ends
  refine ⟨enough, last, returns, fun key path => ?_⟩
  rw [← netlinkTree_isSome_iff]
  exact (netlinkTree_branching wf isGroup empty (returns enough le_rfl)).isSome_iff.symm

/-- The discipline is shown below `eth0`. -/
theorem netlink_shown_iff_htb :
    ∃ fuel last, Runs.run (netlinkCycle threeSweeps 0 fuel) netlinkStart [htbTurn] = some last ∧
      last.program.store.ShowsPath 0 [tcKey htbTurn.answers .ofQdisc htbQdisc, (eth0, 1)] := by
  obtain ⟨enough, last, returns, shown⟩ := netlink_shown_iff threeSweeps 0 [htbTurn] netlinkStart
    (interfaceStore_wellFormed []) List.mem_cons_self rfl threeSweeps_loaded
    threeSweeps_histories (interfaceStore_positive []) (List.forall_mem_singleton.mpr htbTurn_ends)
  have long : 1 < threeSweeps.term := by rw [threeSweeps_term]; decide
  have eth0Allowed := allows_interfaceStore eth0
  have touched := (htbTurn_touched eth0Allowed 0 fun _ => none).2 (allows_interfaceStore _)
  have above := (netlinkTree_isSome_iff _ _ _ _ _ _).mpr (htbTurn_recent long eth0Allowed 0)
  refine ⟨enough, last, returns enough le_rfl, (shown _ _).mpr
    ⟨[], htbTurn, [], rfl, long, touched, fun further isPrefix => Or.inr ?_⟩⟩
  rw [List.prefix_nil.mp isPrefix]
  exact above

/-! ### A module that is disabled -/

theorem heard_false (cycles : List NetlinkCycle) :
    heard false cycles = cycles.map NetlinkCycle.silent := by
  induction cycles with
  | nil => rfl
  | cons c cycles inductionHypothesis =>
    rw [heard, Bool.false_and, if_neg Bool.false_ne_true, inductionHypothesis, List.map_cons]

/-- From the first turn on in which a cache cannot be brought up to date nothing is read. -/
theorem heard_append (enabled : Bool) (before : List NetlinkCycle) {c : NetlinkCycle}
    (failed : c.resynced = false) (later : List NetlinkCycle) :
    heard enabled (before ++ c :: later) =
      heard enabled before ++ (c :: later).map NetlinkCycle.silent := by
  induction before generalizing enabled with
  | nil =>
    show heard enabled (c :: later) = (c :: later).map NetlinkCycle.silent
    rw [heard, failed, Bool.and_false, if_neg Bool.false_ne_true, heard_false, List.map_cons]
  | cons other before inductionHypothesis =>
    rw [List.cons_append, heard, heard]
    split_ifs <;> rw [inductionHypothesis, List.cons_append]

/-- **A module that is disabled leaves nothing behind.** In every run of the main loop with
`netlink` as its only input module in which a cache cannot be brought up to date in one turn,
whatever happens before and after it, the group of `netlink` has no elements any more when so many
turns have followed as the time to live of an element less two. -/
theorem netlink_disabled (ctx : ReadContext) (g : GroupPtr) (fuel : Nat)
    (before later : List NetlinkCycle) (c : NetlinkCycle) (st last : NetlinkState)
    (wf : st.program.store.WellFormed) (isGroup : g ∈ st.program.store.groupList)
    (empty : st.program.store.lists (.ofGroup g) = []) (failed : c.resynced = false)
    (long : ctx.term ≤ later.length + 2)
    (ran : Runs.run (netlinkCycle ctx g fuel) st (before ++ c :: later) = some last) :
    last.enabled = false ∧ ∀ e, last.program.store.eGroup e ≠ some g := by
  have branching := netlinkTree_branching wf isGroup empty ran
  constructor
  · obtain ⟨middle, ranBefore, ranRest⟩ := Runs.run_append.mp ran
    obtain ⟨next, turned, ranLater⟩ := Option.bind_eq_some_iff.mp ranRest
    have kept := netlinkCycles_branching (branching_empty wf isGroup empty) ranBefore
    obtain ⟨disabled, after⟩ := netlinkCycle_branching kept turned
    rw [failed, Bool.and_false] at disabled
    refine (Runs.run_invariant (fun other : NetlinkState => other.enabled = false ∧
      ∃ tree, other.program.store.Branching st.program.store.allows g tree)
      (fun other _ _ both stepped => ?_) ⟨disabled, _, after⟩ ranLater).1
    obtain ⟨off, tree, here⟩ := both
    obtain ⟨same, next⟩ := netlinkCycle_branching here stepped
    rw [off, Bool.false_and] at same
    exact ⟨same, _, next⟩
  · intro e inGroup
    obtain ⟨path, hasPath⟩ := branching.wf.exists_hasPath inGroup
    obtain ⟨key, path, rfl⟩ : ∃ key upper, path = key :: upper := by
      cases hasPath
      exact ⟨_, _, rfl⟩
    have isSome := branching.isSome_iff.mpr ⟨e, hasPath⟩
    rw [netlinkTree_isSome_iff, heard_append _ _ failed] at isSome
    obtain ⟨front, reading, rest, parts, recent, touched, -⟩ := isSome
    -- the turn that came to the path is none of the last ones
    have isSilent : reading ∈ (c :: later).map NetlinkCycle.silent := by
      have short : rest.length < ((c :: later).map NetlinkCycle.silent).length := by
        rw [List.length_map, List.length_cons]
        omega
      rcases List.append_eq_append_iff.mp parts with ⟨inner, -, same⟩ | ⟨inner, -, same⟩
      · rw [same]
        exact List.mem_append_right inner List.mem_cons_self
      · have lengths := congrArg List.length same
        rw [List.length_append, List.length_cons] at lengths
        obtain rfl := List.eq_nil_of_length_eq_zero (show inner.length = 0 by omega)
        rw [List.nil_append] at same
        rw [← same]
        exact List.mem_cons_self
    obtain ⟨other, -, rfl⟩ := List.mem_map.mp isSilent
    exact touched

/-- Two turns after the cache fails there is nothing left. -/
theorem netlink_disabled_failedTurns :
    ∃ fuel last, Runs.run (netlinkCycle threeSweeps 0 fuel) netlinkStart
        [htbTurn, failedTurn, failedTurn] = some last ∧
      last.enabled = false ∧ ∀ e, last.program.store.eGroup e ≠ some 0 := by
  obtain ⟨fuel, last, ran⟩ :=
    htbTurns_return (show ∀ c ∈ [htbTurn, failedTurn, failedTurn], _ by simp)
  exact ⟨fuel, last, ran, netlink_disabled threeSweeps 0 fuel [htbTurn] [failedTurn] failedTurn
    netlinkStart last (interfaceStore_wellFormed []) List.mem_cons_self rfl rfl
    threeSweeps_term.le ran⟩

/-! ### The program with `netlink` -/

/-- **The program with the module `netlink`.** Whatever the configurations hold that are accepted,
as long as the histories have positive intervals and room for an entry, with or without `use_bit`
and whatever the policy is, the program comes to its main loop, and makes its turns as long as no
search finds an object again below itself. An element is then at a path of the group just when one
of the last reads came to that path and what is above it has been there ever since. -/
theorem netlink_program (passes : List ConfSections) (conf : Definitions)
    (accepted : confPasses (defaultSections :: passes) .start = .ok conf)
    (histories : SoundHistories conf.historyDefs) (cfg : Config) (useBit : Bool)
    (policy : Option CString) (now : Timestamp) (cycles : List NetlinkCycle)
    (ends : ∀ c ∈ cycles, c.Ends) :
    ∃ start ready g, moduleInits cfg conf.units [.netlink useBit]
        ⟨conf.registry, conf.state policy⟩ = some (start, [ready]) ∧ ready.grp = some g ∧
      ∃ ctx allows enough last,
        ctx = ready.context cfg start.registry.attrDefs conf.historyDefs now ∧
        allows = (conf.state policy).store.allows ∧
        (∀ fuel, enough ≤ fuel →
          Runs.run (netlinkCycle ctx g fuel) ⟨start.state, true⟩ cycles = some last) ∧
        ∀ key path, last.program.store.ShowsPath g (key :: path) ↔
          RecentlyTouched ctx g allows (heard true cycles) key path := by
  obtain ⟨start, ready, g, initialised, isGrp, finds, -, valid, isGroup, empty, noHistories,
    policies⟩ := moduleInits_started accepted cfg policy (m := .netlink useBit) rfl
  have branching : (NetlinkState.mk start.state true).program.store.Branching _ g _ :=
    branching_empty valid.store isGroup empty
  obtain ⟨enough, last, returns⟩ :=
    netlinkCycles_return (finds.reads cfg conf.historyDefs now) histories.intervals branching
      noHistories ends
  refine ⟨start, ready, g, initialised, isGrp, _, _, enough, last, rfl, rfl, returns,
    fun key path => ?_⟩
  rw [← netlinkTree_isSome_iff, ← policies]
  exact (netlinkTree_branching valid.store isGroup empty (returns enough le_rfl)).isSome_iff.symm

/-- The program comes to the main loop after a file of the user, and shows `eth0`. -/
theorem netlink_program_userSections :
    ∃ conf start ready g ctx fuel last,
      confPasses [defaultSections, userSections] .start = .ok conf ∧
      moduleInits procContext.cfg conf.units [.netlink true]
        ⟨conf.registry, conf.state none⟩ = some (start, [ready]) ∧
      Runs.run (netlinkCycle ctx g fuel) ⟨start.state, true⟩ [htbTurn] = some last ∧
      last.program.store.ShowsPath g [(eth0, 1)] := by
  obtain ⟨conf, accepted, histories, c, -, present⟩ := userSections_accepted
  obtain ⟨start, ready, g, initialised, -, ctx, allows, enough, last, isContext, rfl, returns,
    shown⟩ := netlink_program [userSections] conf accepted histories procContext.cfg true none
      ⟨1, 0⟩ [htbTurn] (List.forall_mem_singleton.mpr htbTurn_ends)
  refine ⟨conf, start, ready, g, ctx, enough, last, accepted, initialised, returns enough le_rfl,
    (shown (eth0, 1) []).mpr ?_⟩
  obtain ⟨line, isLine, isName⟩ := List.mem_map.mp present
  have allowed : (conf.state none).store.allows eth0 = true := by
    rw [← isName]
    exact List.mem_takeWhile_imp (p := fun line : ProcLine =>
      (conf.state none).store.allows line.name) isLine
  have long : 1 < ctx.term := by
    rw [isContext]
    show 1 < sweepsLeft (getLifecycles procContext.cfg)
    decide +kernel
  exact htbTurn_recent long allowed g

end Bmon
