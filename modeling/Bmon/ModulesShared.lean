/-
This file shows what `netlink` and `proc` leave in a group that they share, as they do unless `proc`
is given another one.

An interface has one element for each of them: that of `netlink` has the index of the link as its
id, and that of `proc` the id 0. All of them are one tree of leases, in which each of the two renews
its own, and neither changes where the other puts its elements: below the links the tree agrees with
that of `netlink` alone, and beside them it holds the table of `proc` alone.
-/

import Bmon.ModulesApart

namespace Bmon

/-! ### `proc` in a tree of leases -/

/-- The paths of the interfaces that a read of `proc` accepts. -/
def procTouched (allows : CString → Bool) (content : List Char) : Set (List LinkKey) :=
  {path | ∃ line ∈ acceptedLines allows content, path = [(line.name, 0)]}

section

variable {ctx : ReadContext} {allows : CString → Bool} {g : GroupPtr} {fuel : Nat}
variable {tree : LeaseTree.Tree LinkKey} {σ σ' : Store}

/-- The group of a tree of leases tracks only names that are allowed. -/
theorem Store.Branching.admits (branching : σ.Branching allows g tree) : σ.Admits allows g :=
  ⟨branching.wf, branching.isGroup, branching.policies, fun name e tracked =>
    branching.permitted e (name, 0) [] ((branching.lookupElement_eq_some_iff .top).mp tracked)⟩

/-- A line that is accepted renews the lease of its interface. -/
theorem feedLine_renews (branching : σ.Branching allows g tree) {line : ProcLine}
    (fed : ctx.feedLine g fuel σ line = some σ') :
    Store.Renews allows g ctx.term tree {[(line.name, 0)]} σ σ' := by
  obtain ⟨looked, e, lookedUp, found, ran⟩ := feedLine_cases fed
  obtain ⟨calls, middle, -, ranSetUp, either⟩ := lookUp_cases lookedUp found
  have touches := (touches_run ranSetUp).trans (touches_run ran)
  have left : σ'.sweeps e = some ctx.term := by
    rw [Store.sweeps, feedCalls_eLifecycles ran, Option.map_some, ReadContext.term]
  obtain ⟨tracked, rfl⟩ | ⟨absent, allowed, rfl, rfl⟩ := either
  · have here := (branching.lookupElement_eq_some_iff .top).mp tracked
    exact ⟨branching.renewed here touches left, touches.keepsPaths⟩
  · have wf := branching.wf
    rw [branching.policies] at allowed
    have started := branching.created ctx.cfg .top absent allowed
    have paths {p : Option ElementPtr} {path : List LinkKey} :
        (elementCreate ctx.cfg σ g line.name 0 none).HasPath g p path ↔
          σ.HasPath g p path ∨ p = some σ.nextElement ∧ path = [(line.name, 0)] :=
      hasPath_elementCreate_iff ctx.cfg wf .top
    have renewed := started.renewed (paths.mpr (Or.inr ⟨rfl, rfl⟩)) touches left
    rw [LeaseTree.renew_renew_of_subset (Set.Subset.refl _)] at renewed
    exact ⟨renewed, fun p path before =>
      touches.keepsPaths p path (paths.mpr (Or.inl before))⟩

/-- A read of `proc` renews the leases of the interfaces it accepts. -/
theorem procRead_renews (branching : σ.Branching allows g tree) {content : List Char}
    {last : Pass Store (List (List InputOp))}
    (read : procRead ctx g fuel content σ = some last) :
    Store.Renews allows g ctx.term tree (procTouched allows content) σ last.state :=
  Store.Renews.run branching (fun _ _ before _ _ _ _ fed => feedLine_renews before fed)
    (branching.admits.procRead read)

end

/-! ### Links beside the interfaces of `proc` -/

/-- Links have an index, and the interfaces of `proc` have none. -/
def Indexed (key : LinkKey) : Prop := key.2 ≠ 0

section

variable {allows : CString → Bool} {tree : LeaseTree.Tree LinkKey}

theorem grounded_procTouched (allows : CString → Bool) (content : List Char)
    (tree : LeaseTree.Tree LinkKey) : LeaseTree.Grounded tree (procTouched allows content) where
  top := fun ⟨_, _, same⟩ => by cases same
  above _ _ := fun ⟨_, _, same⟩ => Or.inr (Or.inl (List.cons.inj same).2)

/-- The interfaces of `proc` are not below links. -/
theorem not_mem_procTouched {content : List Char} {path : List LinkKey}
    (below : LeaseTree.Below Indexed path) : path ∉ procTouched allows content := by
  rintro ⟨line, -, rfl⟩
  exact LeaseTree.below_singleton.mp below rfl

/-- A read of `proc` leaves the tree below the links. -/
theorem agreeOn_renew_procTouched (term : Nat) (content : List Char)
    (tree : LeaseTree.Tree LinkKey) :
    LeaseTree.AgreeOn Indexed (LeaseTree.renew term (procTouched allows content) tree) tree :=
  fun _ below => LeaseTree.renew_of_not_mem (not_mem_procTouched below)

/-- Where links go depends only on the links at the top. -/
theorem linksTouched_congr {nl : Netlink} {tops tops' : LinkKey → Bool}
    (agree : ∀ key, Indexed key → tops key = tops' key) (links : List RtnlLink) :
    linksTouched nl allows tops links = linksTouched nl allows tops' links := by
  induction links generalizing tops tops' with
  | nil => rfl
  | cons link links inductionHypothesis =>
    have place : Placement.place tops (linkEntry nl link) =
        Placement.place tops' (linkEntry nl link) := by
      unfold Placement.place linkEntry
      split_ifs with isTop
      · rfl
      · have same := agree (nl.i2name link.link, link.link) isTop
        rw [Option.filter_some, Option.filter_some, same]
    have enter (key : LinkKey) (isLink : Indexed key) :
        Placement.enter tops (linkEntry nl link) key =
          Placement.enter tops' (linkEntry nl link) key := by
      rw [Placement.enter, Placement.enter, place, agree key isLink]
    have path : linkPath nl tops link = linkPath nl tops' link := by
      rw [linkPath, place, linkPath]
    rw [linksTouched, linksTouched, linkTouched, linkTouched, path, inductionHypothesis enter,
      inductionHypothesis agree]

theorem touched_congr {tree' : LeaseTree.Tree LinkKey}
    (agree : LeaseTree.AgreeOn Indexed tree tree') (g : GroupPtr) (turn : NetlinkCycle) :
    turn.touched g allows tree = turn.touched g allows tree' :=
  linksTouched_congr (fun key isLink =>
    congrArg Option.isSome (agree [key] (LeaseTree.below_singleton.mpr isLink))) turn.links

/-- A link is below one with an index, or at the top. -/
theorem below_linkPath {nl : Netlink} {tops : LinkKey → Bool} {link : RtnlLink}
    (indexed : link.ifindex ≠ 0) : LeaseTree.Below Indexed (linkPath nl tops link) := by
  unfold linkPath
  cases placed : Placement.place tops (linkEntry nl link) with
  | none => exact LeaseTree.below_singleton.mpr indexed
  | some master =>
    have isMaster := (Option.filter_eq_some_iff.mp placed).1
    unfold linkEntry at isMaster
    split_ifs at isMaster with noMaster
    obtain rfl := Option.some.inj isMaster
    have atTop : LeaseTree.Below Indexed [(nl.i2name link.link, link.link)] :=
      LeaseTree.below_singleton.mpr noMaster
    exact atTop.of_suffix (List.suffix_cons _ _) (List.cons_ne_nil _ _)

/-- What reads of links come to is below links. -/
theorem below_linksTouched {nl : Netlink} {tops : LinkKey → Bool} {links : List RtnlLink}
    (indexed : ∀ link ∈ links, link.ifindex ≠ 0) {path : List LinkKey}
    (isTouched : path ∈ linksTouched nl allows tops links) : LeaseTree.Below Indexed path := by
  induction links generalizing tops with
  | nil => exact absurd isTouched (Set.notMem_empty path)
  | cons link links inductionHypothesis =>
    rw [List.forall_mem_cons] at indexed
    rw [linksTouched] at isTouched
    split_ifs at isTouched
    · rcases isTouched with (rfl | ⟨-, _, _, -, -, _, -, tc⟩) | rest
      · exact below_linkPath indexed.1
      · exact (below_linkPath indexed.1).of_suffix tc.suffix (List.cons_ne_nil _ _)
      · exact inductionHypothesis indexed.2 rest
    · exact inductionHypothesis indexed.2 isTouched

end

/-! ### Turns -/

namespace PairCycle

/-- A turn in which no link is read. -/
def silent (c : PairCycle) : PairCycle := { c with turn := c.turn.silent }

/-- The paths that the reads of both modules come to. -/
def touched (g : GroupPtr) (allows : CString → Bool) (c : PairCycle)
    (tree : LeaseTree.Tree LinkKey) : Set (List LinkKey) :=
  c.turn.touched g allows tree ∪ procTouched allows c.content

end PairCycle

/-- The turns with what is read in them, with the bit of `netlink` before them. -/
def heardPairs : Bool → List PairCycle → List PairCycle
  | _, [] => []
  | enabled, c :: cycles =>
    if enabled && c.turn.resynced then c :: heardPairs true cycles
    else c.silent :: heardPairs false cycles

/-- The tree that is left after some turns, when both modules renew the leases of what they come
to. -/
noncomputable def sharedTree (ctx : ReadContext) (g : GroupPtr) (allows : CString → Bool)
    (cycles : List PairCycle) : LeaseTree.Tree LinkKey :=
  LeaseTree.after ctx.term (PairCycle.touched g allows) cycles

section

variable {ctx : ReadContext} {attrid : String → Nat} {g : GroupPtr} {fuel : Nat}
variable {allows : CString → Bool} {tree : LeaseTree.Tree LinkKey} {σ : Store}
variable {st last : NetlinkState} {c : PairCycle} {modules : List ReadModule}

theorem grounded_pairTouched (g : GroupPtr) (allows : CString → Bool) (c : PairCycle)
    (tree : LeaseTree.Tree LinkKey) : LeaseTree.Grounded tree (c.touched g allows tree) :=
  (grounded_touched g allows c.turn tree).union
    (grounded_procTouched allows c.content (LeaseTree.renew 1 _ tree))

theorem touched_heard (reads : Bool) :
    (if reads then c else c.silent).touched g allows tree =
      (if reads then c.turn else c.turn.silent).touched g allows tree ∪
        procTouched allows c.content := by
  split_ifs <;> rfl

/-- In both orders the reads renew the leases of what they come to. -/
theorem moduleDo_shared (branching : σ.Branching allows g tree) {enabled : Bool}
    {read : Store × Bool} (order : modules.Perm [.netlink, .proc])
    (ran : Runs.run (moduleDo ctx attrid g g fuel c) (σ, enabled) modules = some read) :
    read.2 = (enabled && c.turn.resynced) ∧ read.1.Branching allows g (LeaseTree.renew ctx.term
      ((if enabled && c.turn.resynced then c else c.silent).touched g allows tree) tree) := by
  rw [touched_heard]
  rcases perm_modules order with rfl | rfl
  · obtain ⟨middle, netlink, rest⟩ := Option.bind_eq_some_iff.mp ran
    obtain ⟨last, proc, same⟩ := Option.bind_eq_some_iff.mp rest
    obtain rfl := Option.some.inj same
    obtain ⟨pass, reads, rfl⟩ := Option.map_eq_some_iff.mp proc
    obtain ⟨enabled, first⟩ := netlinkRead_branching branching netlink
    have second := (procRead_renews first reads).branching
    rw [← LeaseTree.renew_renew]
    exact ⟨enabled, second⟩
  · obtain ⟨middle, proc, rest⟩ := Option.bind_eq_some_iff.mp ran
    obtain ⟨last, netlink, same⟩ := Option.bind_eq_some_iff.mp rest
    obtain rfl := Option.some.inj same
    obtain ⟨pass, reads, rfl⟩ := Option.map_eq_some_iff.mp proc
    have first := (procRead_renews branching reads).branching
    obtain ⟨enabled, second⟩ := netlinkRead_branching first netlink
    refine ⟨enabled, ?_⟩
    -- the links go where they go without the interfaces of `proc`
    rw [Set.union_comm, ← LeaseTree.renew_renew,
      ← touched_congr (agreeOn_renew_procTouched ctx.term c.content tree)]
    exact second

/-- A turn is one of the tree. -/
theorem pairCycle_shared (branching : st.program.store.Branching allows g tree)
    (order : modules.Perm [.netlink, .proc])
    (ran : pairCycle ctx attrid g g fuel modules st c = some last) :
    last.enabled = (st.enabled && c.turn.resynced) ∧ last.program.store.Branching allows g
      (LeaseTree.turn ctx.term (PairCycle.touched g allows) tree
        (if st.enabled && c.turn.resynced then c else c.silent)) := by
  obtain ⟨read, s, reads, isEnabled, swept⟩ := pairCycle_cases ran
  obtain ⟨enabled, middle⟩ := moduleDo_shared branching.resetUpdateFlags order reads
  rw [isEnabled, swept]
  exact ⟨enabled, (show (State.mk read.1 s).store.Branching allows g _ from middle).sweep⟩

/-- So are some turns, one after the other. -/
theorem pairCycles_shared {cycles : List PairCycle}
    (branching : st.program.store.Branching allows g tree)
    (order : modules.Perm [.netlink, .proc])
    (ran : Runs.run (pairCycle ctx attrid g g fuel modules) st cycles = some last) :
    last.program.store.Branching allows g ((heardPairs st.enabled cycles).foldl
      (LeaseTree.turn ctx.term (PairCycle.touched g allows)) tree) := by
  induction cycles generalizing st tree with
  | nil =>
    obtain rfl := Option.some.inj ran
    exact branching
  | cons c cycles inductionHypothesis =>
    obtain ⟨next, turned, rest⟩ := Option.bind_eq_some_iff.mp ran
    obtain ⟨enabled, after⟩ := pairCycle_shared branching order turned
    have others := inductionHypothesis after rest
    rw [enabled] at others
    rw [heardPairs]
    split_ifs at others ⊢ with reads
    · rw [reads] at others
      exact others
    · rw [Bool.eq_false_iff.mpr reads] at others
      exact others

/-- Turns keep a tree. -/
theorem pairInvariant_shared (order : modules.Perm [.netlink, .proc]) :
    PairInvariant ctx attrid g g modules allows fun σ => ∃ tree, σ.Branching allows g tree where
  branching _ kept := kept
  admits σ := fun ⟨_, branching⟩ => branching.admits
  reset σ := fun ⟨tree, branching⟩ => ⟨tree, branching.resetUpdateFlags⟩
  read fuel c read m next := fun ⟨tree, branching⟩ returned => by
    cases m with
    | netlink => exact ⟨_, (netlinkRead_branching branching returned).2⟩
    | proc =>
      obtain ⟨pass, reads, rfl⟩ := Option.map_eq_some_iff.mp returned
      exact ⟨_, (procRead_renews branching reads).branching⟩
  turn fuel c st next := fun ⟨tree, branching⟩ ran =>
    ⟨_, (pairCycle_shared branching order ran).2⟩

end

/-! ### What each of them leaves -/

section

variable {ctx : ReadContext} {g : GroupPtr} {allows : CString → Bool} {cycles : List PairCycle}

theorem heardPairs_turn (enabled : Bool) (cycles : List PairCycle) :
    (heardPairs enabled cycles).map PairCycle.turn = heard enabled (cycles.map PairCycle.turn) := by
  induction cycles generalizing enabled with
  | nil => rfl
  | cons c cycles inductionHypothesis =>
    rw [heardPairs, List.map_cons, heard]
    split_ifs <;> exact congrArg (List.cons _) (inductionHypothesis _)

/-- The file is read in every turn. -/
theorem heardPairs_content (enabled : Bool) (cycles : List PairCycle) :
    (heardPairs enabled cycles).map PairCycle.content = cycles.map PairCycle.content := by
  induction cycles generalizing enabled with
  | nil => rfl
  | cons c cycles inductionHypothesis =>
    rw [heardPairs]
    split_ifs <;> exact congrArg (List.cons _) (inductionHypothesis _)

/-- In a turn links are read that have an index. -/
def PairCycle.LinksIndexed (c : PairCycle) : Prop := ∀ link ∈ c.turn.links, link.ifindex ≠ 0

theorem heardPairs_linksIndexed (indexed : ∀ c ∈ cycles, c.LinksIndexed) (enabled : Bool) :
    ∀ c ∈ heardPairs enabled cycles, c.LinksIndexed := by
  induction cycles generalizing enabled with
  | nil => exact fun c member => absurd member List.not_mem_nil
  | cons c cycles inductionHypothesis =>
    rw [List.forall_mem_cons] at indexed
    rw [heardPairs]
    split_ifs
    · exact List.forall_mem_cons.mpr ⟨indexed.1, inductionHypothesis indexed.2 true⟩
    · refine List.forall_mem_cons.mpr ⟨fun link member => ?_, inductionHypothesis indexed.2 false⟩
      exact absurd member List.not_mem_nil

/-- Below the links the tree is that of `netlink` alone. -/
theorem sharedTree_agreeOn (ctx : ReadContext) (g : GroupPtr) (allows : CString → Bool)
    (enabled : Bool) (cycles : List PairCycle) :
    LeaseTree.AgreeOn Indexed (sharedTree ctx g allows (heardPairs enabled cycles))
      (netlinkTree ctx g allows (heard enabled (cycles.map PairCycle.turn))) := by
  have alone : netlinkTree ctx g allows (heard enabled (cycles.map PairCycle.turn)) =
      LeaseTree.after ctx.term (fun c => NetlinkCycle.touched g allows (PairCycle.turn c))
        (heardPairs enabled cycles) := by
    rw [netlinkTree, ← heardPairs_turn, LeaseTree.after, List.foldl_map]
    rfl
  rw [alone]
  refine LeaseTree.agreeOn_after (fun c tree tree' agree path below => ?_) _
  rw [PairCycle.touched, Set.mem_union, or_iff_left (not_mem_procTouched below),
    touched_congr agree]

/-- An interface is renewed by `proc` alone, if links have an index. -/
theorem singleton_mem_touched {c : PairCycle} (indexed : c.LinksIndexed)
    (tree : LeaseTree.Tree LinkKey) (name : CString) :
    [(name, 0)] ∈ c.touched g allows tree ↔ name ∈ acceptedNames allows c.content := by
  have other : [(name, 0)] ∉ c.turn.touched g allows tree := fun isTouched =>
    LeaseTree.below_singleton.mp (below_linksTouched indexed isTouched) rfl
  rw [PairCycle.touched, Set.mem_union, or_iff_right other, acceptedNames, List.mem_map]
  constructor
  · rintro ⟨line, member, same⟩
    exact ⟨line, member, (congrArg Prod.fst (List.cons.inj same).1).symm⟩
  · rintro ⟨line, member, rfl⟩
    exact ⟨line, member, rfl⟩

/-- What is there is below a link as with `netlink` alone, or an interface as with `proc` alone. -/
theorem sharedTree_eq_some_iff (indexed : ∀ c ∈ cycles, c.LinksIndexed) (enabled : Bool)
    (path : List LinkKey) (n : Nat) :
    sharedTree ctx g allows (heardPairs enabled cycles) path = some n ↔
      netlinkTree ctx g allows (heard enabled (cycles.map PairCycle.turn)) path = some n ∨
        ∃ name, path = [(name, 0)] ∧ (name, n) ∈ Leases.rounds ctx.term
          (cycles.map fun c => acceptedNames allows c.content) := by
  have heardIndexed := heardPairs_linksIndexed indexed enabled
  have positive : 0 < ctx.term := sweepsLeft_pos _
  have grounded (c : PairCycle) (tree : LeaseTree.Tree LinkKey) (_ : LeaseTree.Sound tree) :=
    grounded_pairTouched g allows c tree
  by_cases below : LeaseTree.Below Indexed path
  · rw [sharedTree_agreeOn ctx g allows enabled cycles path below]
    refine (or_iff_left ?_).symm
    rintro ⟨name, rfl, -⟩
    exact LeaseTree.below_singleton.mp below rfl
  have noLink : netlinkTree ctx g allows (heard enabled (cycles.map PairCycle.turn)) path ≠
      some n := fun left => by
    obtain ⟨turn, member, tree, isTouched⟩ := LeaseTree.touched_of_isSome
      (fun c tree _ => grounded_touched g allows c tree) positive (Option.isSome_of_mem left)
    rw [← heardPairs_turn] at member
    obtain ⟨c, isHeard, rfl⟩ := List.mem_map.mp member
    exact below (below_linksTouched (heardIndexed c isHeard) isTouched)
  have interface (name : CString) :
      sharedTree ctx g allows (heardPairs enabled cycles) [(name, 0)] = some n ↔
        (name, n) ∈
          Leases.rounds ctx.term (cycles.map fun c => acceptedNames allows c.content) := by
    have contents : (heardPairs enabled cycles).map (fun c => acceptedNames allows c.content) =
        cycles.map fun c => acceptedNames allows c.content := by
      have mapped :=
        congrArg (List.map (acceptedNames allows)) (heardPairs_content enabled cycles)
      rw [List.map_map, List.map_map] at mapped
      exact mapped
    rw [← contents]
    exact LeaseTree.after_singleton_iff grounded positive _
      (fun c member tree => singleton_mem_touched (heardIndexed c member) tree name) n
  rw [or_iff_right noLink]
  constructor
  · intro left
    obtain ⟨c, member, tree, isTouched⟩ :=
      LeaseTree.touched_of_isSome grounded positive (Option.isSome_of_mem left)
    rcases isTouched with isLink | ⟨line, -, rfl⟩
    · exact absurd (below_linksTouched (heardIndexed c member) isLink) below
    · exact ⟨line.name, rfl, (interface line.name).mp left⟩
  · rintro ⟨name, rfl, inTable⟩
    exact (interface name).mpr inTable

end

/-- **Modules that share a group.** In every run of the main loop with `netlink` and `proc` in one
group, in whatever order they are read and whatever each of them finds, the elements of the group
are a tree of leases. Below the links it is the tree that `netlink` leaves where it is the only
module; and where all links have an index, there is nothing beside them but the interfaces of the
table that `proc` leaves where it is the only one, at the top with the id 0. Where the attributes
are defined, all histories have positive intervals and those of the configuration room for an entry,
and no search finds an object again below itself, the loop makes its turns. -/
theorem modules_shared (ctx : ReadContext) (attrid : String → Nat) (g : GroupPtr)
    (modules : List ReadModule) (order : modules.Perm [.netlink, .proc])
    (cycles : List PairCycle) (st : NetlinkState) (wf : st.program.store.WellFormed)
    (isGroup : g ∈ st.program.store.groupList)
    (empty : st.program.store.lists (.ofGroup g) = []) :
    (∀ fuel last, Runs.run (pairCycle ctx attrid g g fuel modules) st cycles = some last →
      (∀ e, last.program.store.eGroup e = some g →
        ∃! path, last.program.store.HasPath g (some e) path) ∧
      (∀ path e e', last.program.store.HasPath g (some e) path →
        last.program.store.HasPath g (some e') path → e = e') ∧
      ∀ path n, sharedTree ctx g st.program.store.allows (heardPairs st.enabled cycles) path =
          some n ↔
        ∃ e, last.program.store.HasPath g (some e) path ∧ last.program.store.sweeps e = some n) ∧
    LeaseTree.AgreeOn Indexed
      (sharedTree ctx g st.program.store.allows (heardPairs st.enabled cycles))
      (netlinkTree ctx g st.program.store.allows
        (heard st.enabled (cycles.map PairCycle.turn))) ∧
    ((∀ c ∈ cycles, c.LinksIndexed) → ∀ path n,
      sharedTree ctx g st.program.store.allows (heardPairs st.enabled cycles) path = some n ↔
        netlinkTree ctx g st.program.store.allows
            (heard st.enabled (cycles.map PairCycle.turn)) path = some n ∨
          ∃ name, path = [(name, 0)] ∧ (name, n) ∈ Leases.rounds ctx.term
            (cycles.map fun c => acceptedNames st.program.store.allows c.content)) ∧
    (ctx.Loaded → SoundHistories ctx.historyDefs → st.program.store.PositiveIntervals →
      (∀ c ∈ cycles, c.turn.Ends) →
      ∃ enough last, ∀ fuel, enough ≤ fuel →
        Runs.run (pairCycle ctx attrid g g fuel modules) st cycles = some last) := by
  have initial := branching_empty wf isGroup empty
  refine ⟨fun fuel last ran => ?_, sharedTree_agreeOn ctx g _ st.enabled cycles,
    fun indexed => sharedTree_eq_some_iff indexed st.enabled, fun loaded histories positive ends =>
    pairCycles_return (pairInvariant_shared order) loaded histories.intervals ⟨_, initial⟩ positive
      ends⟩
  have branching := pairCycles_shared initial order ran
  refine ⟨fun e inGroup => ?_, branching.distinct, branching.leases⟩
  obtain ⟨path, hasPath⟩ := branching.wf.exists_hasPath inGroup
  exact ⟨path, hasPath, fun other atOther => atOther.unique branching.wf hasPath⟩

/-- Both modules show `eth0`, each with its own element. -/
theorem modules_shared_pairTurn :
    ∃ fuel last e e', Runs.run (pairCycle threeSweeps procContext.attrid 0 0 fuel
        [.netlink, .proc]) netlinkStart [pairTurn] = some last ∧
      last.program.store.HasPath 0 (some e) [(eth0, 1)] ∧
      last.program.store.HasPath 0 (some e') [(eth0, 0)] := by
  have allowed := allows_interfaceStore eth0
  obtain ⟨kept, -, -, runs⟩ := modules_shared threeSweeps procContext.attrid 0 [.netlink, .proc]
    (by decide) [pairTurn] netlinkStart (interfaceStore_wellFormed []) List.mem_cons_self rfl
  obtain ⟨enough, last, returns⟩ := runs threeSweeps_loaded threeSweeps_histories
    (interfaceStore_positive []) (List.forall_mem_singleton.mpr htbTurn_ends)
  have ran := returns enough le_rfl
  obtain ⟨-, -, leases⟩ := kept enough last ran
  have shows (key : LinkKey)
      (touched : [key] ∈ pairTurn.touched 0 interfacesStart.store.allows fun _ => none) :
      ∃ e, last.program.store.HasPath 0 (some e) [key] := by
    have isSome : (sharedTree threeSweeps 0 interfacesStart.store.allows [pairTurn]
        [key]).isSome := by
      refine (LeaseTree.isSome_after_iff
        (fun c tree _ => grounded_pairTouched 0 interfacesStart.store.allows c tree)
        (sweepsLeft_pos _) [pairTurn] key []).mpr ⟨[], pairTurn, [], rfl, ?_, touched, ?_⟩
      · rw [show sweepsLeft _ = threeSweeps.term from rfl, threeSweeps_term]
        decide
      · exact fun _ _ => Or.inl rfl
    obtain ⟨n, left⟩ := Option.isSome_iff_exists.mp isSome
    obtain ⟨e, here, -⟩ := (leases [key] n).mp left
    exact ⟨e, here⟩
  obtain ⟨e, atLink⟩ := shows (eth0, 1) (Or.inl (htbTurn_touched allowed 0 _).1)
  obtain ⟨e', atProc⟩ := shows (eth0, 0) (Or.inr (by
    have accepted : eth0 ∈ acceptedNames interfacesStart.store.allows twoInterfaces := by
      decide +kernel
    obtain ⟨line, member, isName⟩ := List.mem_map.mp accepted
    exact ⟨line, member, by rw [isName]⟩))
  exact ⟨enough, last, e, e', ran, atLink, atProc⟩

end Bmon
