/-
This file holds circular doubly linked lists, as rings of links between nodes.

Every node has a link to the next node and one to the node before. One node of a ring is its
head, the others are its entries, and a head without entries is linked to itself. Operations
write the links of the nodes they are given, whatever these are part of. `Ring` says which list
of entries a head stands for. `Rings` says so for all heads at once, so that an operation on one
ring is known to leave the others alone.
-/

import Bmon.Lib.Neighbours

/-- The links of all nodes to the next node and to the node before. -/
structure Links (Node : Type*) where
  next : Node → Node
  prev : Node → Node

namespace Links

variable {Node : Type*}

section Operations

variable [DecidableEq Node] (links : Links Node)

/-- Write the link of a node to the next one. -/
def setNext (node target : Node) : Links Node :=
  { links with next := Function.update links.next node target }

/-- Write the link of a node to the one before. -/
def setPrev (node target : Node) : Links Node :=
  { links with prev := Function.update links.prev node target }

/-- Link a node to itself. -/
def init (node : Node) : Links Node := (links.setNext node node).setPrev node node

/-- Link a node between two others. -/
def insertBetween (node before after : Node) : Links Node :=
  (((links.setNext before node).setPrev node before).setPrev after node).setNext node after

/-- Link a node as the last entry of a head. -/
def insertLast (node head : Node) : Links Node := links.insertBetween node (links.prev head) head

/-- Link the neighbours of a node to each other. -/
def remove (node : Node) : Links Node :=
  let links := links.setPrev (links.next node) (links.prev node)
  links.setNext (links.prev node) (links.next node)

/-- The first node from some node on that meets a test, before the head is reached. -/
def search (test : Node → Bool) (head : Node) : Nat → Node → Option Node
  | 0, _ => none
  | fuel + 1, pos =>
    if pos = head then none
    else if test pos then some pos
    else search test head fuel (links.next pos)

/-- The nodes from some node on, before the head is reached. -/
def walk (head : Node) : Nat → Node → List Node
  | 0, _ => []
  | fuel + 1, pos => if pos = head then [] else pos :: walk head fuel (links.next pos)

end Operations

/-- The same nodes, read backwards. -/
def reverse (links : Links Node) : Links Node := ⟨links.prev, links.next⟩

/-! ### Rings -/

/-- Both links between two nodes. -/
def Adjacent (links : Links Node) (a b : Node) : Prop := links.next a = b ∧ links.prev b = a

/-- The entries that are linked in the ring of a head, in their order. -/
structure Ring (links : Links Node) (head : Node) (entries : List Node) : Prop where
  nodup : (head :: entries).Nodup
  chain : (head :: (entries ++ [head])).IsChain links.Adjacent

variable {links links' : Links Node} {head : Node} {entries front back : List Node}

/-- A ring is cut at any place into two chains and the links between them. -/
theorem ring_append_iff : links.Ring head (front ++ back) ↔
    (head :: (front ++ back)).Nodup ∧ (head :: front).IsChain links.Adjacent ∧
      (back ++ [head]).IsChain links.Adjacent ∧
      links.Adjacent (front.getLastD head) (back.headD head) := by
  have split : head :: (front ++ back ++ [head]) = (head :: front) ++ (back ++ [head]) := by
    rw [List.append_assoc, List.cons_append]
  have last : (head :: front).getLast? = some (front.getLastD head) := by
    rw [List.getLast?_cons, List.getLastD_eq_getLast?]
  have first : (back ++ [head]).head? = some (back.headD head) := by
    cases back <;> rfl
  have parts : (head :: (front ++ back ++ [head])).IsChain links.Adjacent ↔
      (head :: front).IsChain links.Adjacent ∧ (back ++ [head]).IsChain links.Adjacent ∧
        links.Adjacent (front.getLastD head) (back.headD head) := by
    rw [split, List.isChain_append, last, first]
    simp only [Option.mem_some_iff, forall_eq']
  exact ⟨fun ring => ⟨ring.nodup, parts.mp ring.chain⟩, fun cut => ⟨cut.1, parts.mpr cut.2⟩⟩

/-- A chain whose links inside are kept is kept. -/
theorem chain_congr {nodes : List Node} (chain : nodes.IsChain links.Adjacent)
    (nexts : ∀ a ∈ nodes.dropLast, links'.next a = links.next a)
    (prevs : ∀ b ∈ nodes.tail, links'.prev b = links.prev b) :
    nodes.IsChain links'.Adjacent := by
  induction nodes with
  | nil => exact List.isChain_nil
  | cons a rest inductionHypothesis =>
    cases rest with
    | nil => exact List.isChain_singleton a
    | cons b rest =>
      obtain ⟨⟨next, prev⟩, chainRest⟩ := List.isChain_cons_cons.mp chain
      refine List.isChain_cons_cons.mpr ⟨⟨?_, ?_⟩, inductionHypothesis chainRest ?_ ?_⟩
      · rw [nexts a List.mem_cons_self, next]
      · rw [prevs b List.mem_cons_self, prev]
      · exact fun a' member => nexts a' (List.mem_cons_of_mem _ member)
      · exact fun b' member => prevs b' (List.mem_cons_of_mem _ member)

/-- The last node of a chain without repetitions is not one of those in front of it. -/
theorem ne_getLastD (nodup : (head :: front).Nodup) {a : Node}
    (member : a ∈ (head :: front).dropLast) : a ≠ front.getLastD head := by
  have split := List.dropLast_append_getLast (List.cons_ne_nil head front)
  rw [List.getLast_eq_getLastD] at split
  rw [← split] at nodup
  exact (List.nodup_append.mp nodup).2.2 a member _ (List.mem_singleton_self _)

/-- The first node of a chain without repetitions is not one of those behind it. -/
theorem ne_headD (nodup : (head :: back).Nodup) {b : Node}
    (member : b ∈ (back ++ [head]).tail) : b ≠ back.headD head := by
  cases back with
  | nil => cases member
  | cons first rest =>
    obtain ⟨fresh, freshRest, -⟩ : head ∉ first :: rest ∧ first ∉ rest ∧ rest.Nodup := by
      simpa using nodup
    rcases List.mem_append.mp member with inRest | isHead
    · rintro rfl
      exact freshRest inRest
    · rw [List.mem_singleton.mp isHead]
      rintro rfl
      exact fresh List.mem_cons_self

/-- What is written at a cut of a ring, and at nodes outside it, keeps both chains. -/
theorem Ring.cut (links' : Links Node) (nodup : (head :: (front ++ back)).Nodup)
    (chainFront : (head :: front).IsChain links.Adjacent)
    (chainBack : (back ++ [head]).IsChain links.Adjacent)
    (nexts : ∀ a ∈ head :: (front ++ back), a ≠ front.getLastD head →
      links'.next a = links.next a)
    (prevs : ∀ b ∈ head :: (front ++ back), b ≠ back.headD head →
      links'.prev b = links.prev b) :
    (head :: front).IsChain links'.Adjacent ∧ (back ++ [head]).IsChain links'.Adjacent := by
  have nodupFront : (head :: front).Nodup :=
    nodup.sublist ((List.sublist_append_left front back).cons_cons head)
  have nodupBack : (head :: back).Nodup :=
    nodup.sublist ((List.sublist_append_right front back).cons_cons head)
  have apart : ∀ a ∈ head :: front, a ∉ back := fun a inFront inBack =>
    (List.nodup_append.mp (nodup : (head :: front ++ back).Nodup)).2.2 a inFront a inBack rfl
  have last : front.getLastD head ∈ head :: front := List.getLastD_mem_cons
  have first : back.headD head ∈ head :: back := by
    cases back with
    | nil => exact List.mem_cons_self
    | cons b rest => exact List.mem_cons_of_mem _ List.mem_cons_self
  refine ⟨chain_congr chainFront (fun a member => ?_) fun b member => ?_,
    chain_congr chainBack (fun a member => ?_) fun b member => ?_⟩
  · have inFront := List.dropLast_subset _ member
    exact nexts a (List.mem_append_left back inFront) (ne_getLastD nodupFront member)
  · have inFront : b ∈ head :: front := List.mem_cons_of_mem _ member
    refine prevs b (List.mem_append_left back inFront) fun same => ?_
    rw [← same] at first
    rcases List.mem_cons.mp first with isHead | inBack
    · exact (List.nodup_cons.mp nodupFront).1 (isHead ▸ member)
    · exact apart b inFront inBack
  · rw [List.dropLast_concat] at member
    refine nexts a (List.mem_cons_of_mem _ (List.mem_append_right _ member)) fun same => ?_
    exact apart a (same ▸ last) member
  · have inRing : b ∈ head :: (front ++ back) := by
      rcases List.mem_append.mp (List.mem_of_mem_tail member) with inBack | isHead
      · exact List.mem_cons_of_mem _ (List.mem_append_right _ inBack)
      · rw [List.mem_singleton.mp isHead]
        exact List.mem_cons_self
    exact prevs b inRing (ne_headD nodupBack member)

/-- A ring is kept where the links of its nodes are. -/
theorem Ring.congr (ring : links.Ring head entries)
    (same : ∀ node ∈ head :: entries,
      links'.next node = links.next node ∧ links'.prev node = links.prev node) :
    links'.Ring head entries := by
  refine ⟨ring.nodup, chain_congr ring.chain (fun a member => ?_) fun b member => ?_⟩
  · rw [← List.cons_append, List.dropLast_concat] at member
    exact (same a member).1
  · rcases List.mem_append.mp member with inEntries | isHead
    · exact (same b (List.mem_cons_of_mem _ inEntries)).2
    · rw [List.mem_singleton.mp isHead]
      exact (same head List.mem_cons_self).2

/-- Read backwards, a ring has its entries in reverse. -/
theorem Ring.reverse (ring : links.Ring head entries) :
    links.reverse.Ring head entries.reverse := by
  constructor
  · have nodup := List.nodup_cons.mp ring.nodup
    exact List.nodup_cons.mpr ⟨by simpa using nodup.1, List.nodup_reverse.mpr nodup.2⟩
  · have backwards := List.isChain_reverse.mpr ring.chain
    rw [List.reverse_cons, List.reverse_append, List.reverse_singleton, List.singleton_append,
      List.cons_append] at backwards
    exact backwards.imp fun a b adjacent => ⟨adjacent.2, adjacent.1⟩

/-! ### Reading a ring -/

/-- The link of an entry to the next node. -/
theorem Ring.next_entry (ring : links.Ring head entries) [DecidableEq Node] {node : Node}
    (member : node ∈ entries) : links.next node = (Neighbours.next entries node).getD head := by
  obtain ⟨front, back, rfl, fresh⟩ := List.eq_append_cons_of_mem member
  have cut := ring
  rw [List.append_cons, ring_append_iff, List.getLastD_concat] at cut
  rw [cut.2.2.2.1, Neighbours.next_append_cons fresh, List.headD_eq_head?_getD]

/-- The link of the head to the first entry. -/
theorem Ring.next_head (ring : links.Ring head entries) : links.next head = entries.headD head :=
  (ring_append_iff.mp (show links.Ring head ([] ++ entries) from ring)).2.2.2.1

theorem Ring.prev_entry (ring : links.Ring head entries) [DecidableEq Node] {node : Node}
    (member : node ∈ entries) : links.prev node = (Neighbours.prev entries node).getD head :=
  ring.reverse.next_entry (List.mem_reverse.mpr member)

/-- The link of the head to the last entry. -/
theorem Ring.prev_head (ring : links.Ring head entries) :
    links.prev head = entries.getLastD head := by
  have first := ring.reverse.next_head
  rwa [List.headD_eq_head?_getD, List.head?_reverse, ← List.getLastD_eq_getLast?] at first

/-- The links of a node lead to nodes of its ring. -/
theorem Ring.next_mem (ring : links.Ring head entries) [DecidableEq Node] {node : Node}
    (member : node ∈ head :: entries) : links.next node ∈ head :: entries := by
  rcases List.mem_cons.mp member with rfl | inEntries
  · rw [ring.next_head]
    cases entries with
    | nil => exact List.mem_cons_self
    | cons first rest => exact List.mem_cons_of_mem _ List.mem_cons_self
  · rw [ring.next_entry inEntries]
    cases after : Neighbours.next entries node with
    | none => exact List.mem_cons_self
    | some _ => exact List.mem_cons_of_mem _ (Neighbours.next_mem after)

theorem Ring.prev_mem (ring : links.Ring head entries) [DecidableEq Node] {node : Node}
    (member : node ∈ head :: entries) : links.prev node ∈ head :: entries := by
  have inside := ring.reverse.next_mem (by simpa using member)
  rwa [List.mem_cons, List.mem_reverse, ← List.mem_cons] at inside

/-- No entry is linked to itself. -/
theorem Ring.next_ne (ring : links.Ring head entries) [DecidableEq Node] {node : Node}
    (member : node ∈ entries) : links.next node ≠ node := by
  obtain ⟨fresh, nodup⟩ := List.nodup_cons.mp ring.nodup
  rw [ring.next_entry member]
  cases after : Neighbours.next entries node with
  | none =>
    rintro rfl
    exact fresh member
  | some _ => exact Neighbours.next_ne nodup after

/-- A head that is linked to itself has no entries. -/
theorem Ring.next_eq_head_iff (ring : links.Ring head entries) :
    links.next head = head ↔ entries = [] := by
  rw [ring.next_head]
  cases entries with
  | nil => exact iff_of_true rfl rfl
  | cons first rest =>
    refine iff_of_false (fun same => ?_) (List.cons_ne_nil first rest)
    exact (List.nodup_cons.mp ring.nodup).1 (same ▸ List.mem_cons_self)

/-- The links of every node lead back to it. -/
theorem Ring.prev_next (ring : links.Ring head entries) {node : Node}
    (member : node ∈ head :: entries) : links.prev (links.next node) = node := by
  rcases List.mem_cons.mp member with rfl | inEntries
  · rw [ring.next_head]
    exact (ring_append_iff.mp (show links.Ring node ([] ++ entries) from ring)).2.2.2.2
  · obtain ⟨front, back, rfl⟩ := List.append_of_mem inEntries
    rw [List.append_cons, ring_append_iff, List.getLastD_concat] at ring
    rw [ring.2.2.2.1, ring.2.2.2.2]

theorem Ring.next_prev (ring : links.Ring head entries) {node : Node}
    (member : node ∈ head :: entries) : links.next (links.prev node) = node :=
  ring.reverse.prev_next (by simpa using member)

section Loops

variable [DecidableEq Node]

theorem Ring.walk_from (ring : links.Ring head (front ++ back)) {fuel : Nat}
    (enough : back.length ≤ fuel) : links.walk head fuel (back.headD head) = back := by
  induction back generalizing front fuel with
  | nil =>
    cases fuel with
    | zero => rfl
    | succ fuel => exact if_pos rfl
  | cons node back inductionHypothesis =>
    cases fuel with
    | zero => cases enough
    | succ fuel =>
      have member : node ∈ front ++ node :: back :=
        List.mem_append_right _ List.mem_cons_self
      have apart : node ≠ head := fun same => (List.nodup_cons.mp ring.nodup).1 (same ▸ member)
      rw [List.append_cons] at ring
      have next := (ring_append_iff.mp ring).2.2.2.1
      rw [List.getLastD_concat] at next
      rw [List.headD_cons, walk, if_neg apart, next,
        inductionHypothesis ring (Nat.le_of_succ_le_succ enough)]

/-- A walk meets the entries in their order. -/
theorem Ring.walk_eq (ring : links.Ring head entries) {fuel : Nat}
    (enough : entries.length ≤ fuel) : links.walk head fuel (links.next head) = entries := by
  rw [ring.next_head]
  exact Ring.walk_from (show links.Ring head ([] ++ entries) from ring) enough

/-- A search looks at the nodes of a walk. -/
theorem search_eq_find? (links : Links Node) (test : Node → Bool) (head : Node) (fuel : Nat)
    (pos : Node) :
    links.search test head fuel pos = (links.walk head fuel pos).find? test := by
  induction fuel generalizing pos with
  | zero => rfl
  | succ fuel inductionHypothesis =>
    rw [search, walk]
    split_ifs with atHead found
    · rfl
    · rw [List.find?_cons_of_pos found]
    · rw [List.find?_cons_of_neg found, inductionHypothesis]

theorem Ring.search_eq (ring : links.Ring head entries) (test : Node → Bool) {fuel : Nat}
    (enough : entries.length ≤ fuel) :
    links.search test head fuel (links.next head) = entries.find? test := by
  rw [search_eq_find?, ring.walk_eq enough]

end Loops

/-! ### Writing a ring -/

section Writing

variable [DecidableEq Node] {node other before after : Node}

theorem next_init (links : Links Node) (node other : Node) :
    (links.init node).next other = if other = node then node else links.next other :=
  Function.update_apply _ _ _ _

theorem prev_init (links : Links Node) (node other : Node) :
    (links.init node).prev other = if other = node then node else links.prev other :=
  Function.update_apply _ _ _ _

theorem next_insertBetween (links : Links Node) (node before after other : Node) :
    (links.insertBetween node before after).next other =
      if other = node then after else if other = before then node else links.next other := by
  unfold insertBetween setNext setPrev
  simp only [Function.update_apply]

theorem prev_insertBetween (links : Links Node) (node before after other : Node) :
    (links.insertBetween node before after).prev other =
      if other = after then node else if other = node then before else links.prev other := by
  unfold insertBetween setNext setPrev
  simp only [Function.update_apply]

/-- Where a node is not linked to itself, only its neighbours are written. -/
theorem next_remove (links : Links Node) (apart : links.next node ≠ node) (other : Node) :
    (links.remove node).next other =
      if other = links.prev node then links.next node else links.next other := by
  unfold remove setNext setPrev
  simp only [Function.update_apply, if_neg apart.symm]

theorem prev_remove (links : Links Node) (node other : Node) :
    (links.remove node).prev other =
      if other = links.next node then links.prev node else links.prev other :=
  Function.update_apply _ _ _ _

/-- A node that is linked to itself is a head without entries. -/
theorem ring_init (links : Links Node) (node : Node) : (links.init node).Ring node [] := by
  refine ⟨List.nodup_singleton node, List.isChain_pair.mpr ⟨?_, ?_⟩⟩
  · rw [next_init, if_pos rfl]
  · rw [prev_init, if_pos rfl]

/-- A new node between two neighbours of a ring. -/
theorem Ring.insertBetween (ring : links.Ring head (front ++ back))
    (fresh : node ∉ head :: (front ++ back)) :
    (links.insertBetween node (front.getLastD head) (back.headD head)).Ring head
      (front ++ node :: back) := by
  obtain ⟨nodup, chainFront, chainBack, -⟩ := ring_append_iff.mp ring
  have apart : ∀ a ∈ head :: (front ++ back), a ≠ node := fun a member same =>
    fresh (same ▸ member)
  have first : back.headD head ∈ head :: (front ++ back) := by
    cases back with
    | nil => exact List.mem_cons_self
    | cons b rest => exact List.mem_cons_of_mem _ (List.mem_append_right _ List.mem_cons_self)
  have last : front.getLastD head ∈ head :: (front ++ back) := by
    rw [← List.cons_append]
    exact List.mem_append_left back List.getLastD_mem_cons
  obtain ⟨keptFront, keptBack⟩ := Ring.cut
    (links.insertBetween node (front.getLastD head) (back.headD head)) nodup chainFront chainBack
    (fun a member other => by rw [next_insertBetween, if_neg (apart a member), if_neg other])
    fun b member other => by rw [prev_insertBetween, if_neg other, if_neg (apart b member)]
  refine ring_append_iff.mpr ⟨?_, keptFront, ?_, ?_⟩
  · rw [← List.cons_append]
    exact List.nodup_middle.mpr (List.nodup_cons.mpr ⟨fresh, nodup⟩)
  · refine List.IsChain.cons keptBack fun after isFirst => ?_
    have same : after = back.headD head := by
      cases back <;> exact (Option.mem_some.mp isFirst).symm
    rw [same]
    exact ⟨by rw [next_insertBetween, if_pos rfl], by rw [prev_insertBetween, if_pos rfl]⟩
  · refine ⟨?_, ?_⟩
    · rw [next_insertBetween, if_neg (apart _ last), if_pos rfl]
      rfl
    · change (links.insertBetween _ _ _).prev node = _
      rw [prev_insertBetween, if_neg (apart _ first).symm, if_pos rfl]

/-- A new node at the end of a ring. -/
theorem Ring.insertLast (ring : links.Ring head entries) (fresh : node ∉ head :: entries) :
    (links.insertLast node head).Ring head (entries ++ [node]) := by
  rw [← List.append_nil entries] at ring fresh
  have inserted := ring.insertBetween fresh
  rwa [← ring_append_iff.mp ring |>.2.2.2.2] at inserted

/-- A ring without one of its entries. -/
theorem Ring.remove (ring : links.Ring head (front ++ node :: back)) :
    (links.remove node).Ring head (front ++ back) := by
  obtain ⟨nodup, chainFront, chainRest, adjacentFront⟩ := ring_append_iff.mp ring
  obtain ⟨-, -, chainBack, adjacentBack⟩ :=
    ring_append_iff.mp (List.append_cons front node back ▸ ring)
  rw [List.getLastD_concat] at adjacentBack
  obtain ⟨next, -⟩ := adjacentBack
  have prev : links.prev node = front.getLastD head := adjacentFront.2
  rw [← List.cons_append, List.nodup_middle, List.cons_append] at nodup
  have nodup := (List.nodup_cons.mp nodup).2
  have apart : links.next node ≠ node :=
    ring.next_ne (List.mem_append_right _ List.mem_cons_self)
  obtain ⟨keptFront, keptBack⟩ := Ring.cut (links.remove node) nodup chainFront chainBack
    (fun a member other => by rw [next_remove links apart, prev, if_neg other])
    fun b member other => by rw [prev_remove, next, if_neg other]
  refine ring_append_iff.mpr ⟨nodup, keptFront, keptBack, ?_, ?_⟩
  · rw [next_remove links apart, prev, if_pos rfl, next]
  · rw [prev_remove, next, if_pos rfl, prev]

end Writing

/-! ### All rings at once -/

/-- Which entries all heads stand for. No node is in two rings. -/
structure Rings (links : Links Node) (isHead : Node → Prop) (lists : Node → List Node) :
    Prop where
  ring : ∀ head, isHead head → links.Ring head (lists head)
  apart : ∀ head head', isHead head → isHead head' → head ≠ head' →
    ∀ node ∈ head :: lists head, node ∉ head' :: lists head'

namespace Rings

/-- The node is in no ring. -/
def Free (isHead : Node → Prop) (lists : Node → List Node) (node : Node) : Prop :=
  ∀ head, isHead head → node ∉ head :: lists head

variable {isHead isHead' : Node → Prop} {lists lists' : Node → List Node} {node : Node}
variable (rings : links.Rings isHead lists)

include rings

/-- Only the entries of heads count. -/
theorem congr (heads : ∀ head, isHead' head → isHead head)
    (same : ∀ head, isHead' head → lists' head = lists head) : links.Rings isHead' lists' where
  ring head holds := by
    rw [same head holds]
    exact rings.ring head (heads head holds)
  apart head head' holds holds' other := by
    rw [same head holds, same head' holds']
    exact rings.apart head head' (heads head holds) (heads head' holds') other

variable [DecidableEq Node]

/-- A node in no ring can be linked to itself. -/
theorem init (free : Free isHead lists node) : (links.init node).Rings isHead lists where
  ring head holds := by
    refine (rings.ring head holds).congr fun other member => ?_
    have apart : other ≠ node := fun same => free head holds (same ▸ member)
    rw [next_init, prev_init, if_neg apart, if_neg apart]
    exact ⟨rfl, rfl⟩
  apart := rings.apart

/-- A node in no ring becomes a head without entries. -/
theorem init_head (free : Free isHead lists node)
    (heads : ∀ head, isHead' head → isHead head ∨ head = node) (empty : lists' node = [])
    (same : ∀ head, isHead head → lists' head = lists head) :
    (links.init node).Rings isHead' lists' where
  ring head holds := by
    by_cases new : head = node
    · rw [new, empty]
      exact ring_init links node
    · have old := (heads head holds).resolve_right new
      rw [same head old]
      exact (rings.init free).ring head old
  apart head head' holds holds' other := by
    have old : ∀ head, isHead' head → head ≠ node → isHead head := fun head holds apart =>
      (heads head holds).resolve_right apart
    by_cases new : head = node
    · have oldOther := old head' holds' (new ▸ other.symm)
      rw [new, empty, same head' oldOther]
      intro member inFirst
      rw [List.mem_singleton.mp inFirst]
      exact free head' oldOther
    · have oldHead := old head holds new
      rw [same head oldHead]
      by_cases newOther : head' = node
      · rw [newOther, empty]
        intro member inFirst inSecond
        exact free head oldHead (List.mem_singleton.mp inSecond ▸ inFirst)
      · have oldOther := old head' holds' newOther
        rw [same head' oldOther]
        exact rings.apart head head' oldHead oldOther other

/-- A node in no ring is linked as the last entry of a head. -/
theorem insertLast {head : Node} (holds : isHead head) (free : Free isHead lists node)
    (here : lists' head = lists head ++ [node])
    (others : ∀ head', isHead head' → head' ≠ head → lists' head' = lists head') :
    (links.insertLast node head).Rings isHead lists' := by
  have last : links.prev head ∈ head :: lists head := by
    rw [(rings.ring head holds).prev_head]
    exact List.getLastD_mem_cons
  have mem_here : ∀ other, other ∈ head :: lists' head ↔
      other ∈ head :: lists head ∨ other = node := fun other => by
    rw [here, ← List.cons_append, List.mem_append, List.mem_singleton]
  refine ⟨fun head' holds' => ?_, fun first second isFirst isSecond other => ?_⟩
  · by_cases same : head' = head
    · rw [same, here]
      exact (rings.ring head holds).insertLast (free head holds)
    · rw [others head' holds' same]
      refine (rings.ring head' holds').congr fun other member => ?_
      have notNode : other ≠ node := fun equal => free head' holds' (equal ▸ member)
      have outside := rings.apart head' head holds' holds same other member
      have notHead : other ≠ head := fun equal => outside (equal ▸ List.mem_cons_self)
      have notLast : other ≠ links.prev head := fun equal => outside (equal ▸ last)
      rw [Links.insertLast, next_insertBetween, prev_insertBetween, if_neg notNode,
        if_neg notNode, if_neg notHead, if_neg notLast]
      exact ⟨rfl, rfl⟩
  · intro entry inFirst inSecond
    by_cases sameFirst : first = head
    · subst sameFirst
      rw [others second isSecond other.symm] at inSecond
      rcases (mem_here entry).mp inFirst with old | rfl
      · exact rings.apart first second isFirst isSecond other entry old inSecond
      · exact free second isSecond inSecond
    · rw [others first isFirst sameFirst] at inFirst
      by_cases sameSecond : second = head
      · subst sameSecond
        rcases (mem_here entry).mp inSecond with old | rfl
        · exact rings.apart first second isFirst isSecond other entry inFirst old
        · exact free first isFirst inFirst
      · rw [others second isSecond sameSecond] at inSecond
        exact rings.apart first second isFirst isSecond other entry inFirst inSecond

/-- An entry is taken out of its ring. -/
theorem remove {head : Node} (holds : isHead head) (member : node ∈ lists head)
    (without : ∀ head, isHead head → lists' head = (lists head).filter (· ≠ node)) :
    (links.remove node).Rings isHead lists' := by
  have subset : ∀ head, isHead head → ∀ other ∈ head :: lists' head, other ∈ head :: lists head :=
    fun head holds other inside => by
      rw [without head holds] at inside
      exact List.cons_subset_cons head (List.filter_subset_self _) inside
  refine ⟨fun head' holds' => ?_, fun first second isFirst isSecond other entry inFirst inSecond =>
    rings.apart first second isFirst isSecond other entry (subset first isFirst entry inFirst)
      (subset second isSecond entry inSecond)⟩
  obtain ⟨front, back, split⟩ := List.append_of_mem member
  have ring := rings.ring head holds
  rw [split] at ring
  by_cases same : head' = head
  · have nodup := (List.nodup_cons.mp ring.nodup).2
    rw [List.nodup_middle, List.nodup_cons, List.mem_append, not_or] at nodup
    obtain ⟨⟨notFront, notBack⟩, -⟩ := nodup
    have kept : ∀ part : List Node, node ∉ part → part.filter (· ≠ node) = part :=
      fun part absent => List.filter_eq_self.mpr fun other inside =>
        decide_eq_true fun equal => absent (equal ▸ inside)
    rw [same, without head holds, split, List.filter_append,
      List.filter_cons_of_neg (by simp), kept front notFront, kept back notBack]
    exact ring.remove
  · have inRing : node ∈ head :: lists head := List.mem_cons_of_mem _ member
    rw [without head' holds']
    have kept : (lists head').filter (· ≠ node) = lists head' := by
      refine List.filter_eq_self.mpr fun other inside => decide_eq_true ?_
      rintro rfl
      exact rings.apart head head' holds holds' (Ne.symm same) other inRing
        (List.mem_cons_of_mem _ inside)
    rw [kept]
    refine (rings.ring head' holds').congr fun other inside => ?_
    have outside := rings.apart head' head holds' holds same other inside
    have notNext : other ≠ links.next node := fun equal =>
      outside (equal ▸ (rings.ring head holds).next_mem inRing)
    have notPrev : other ≠ links.prev node := fun equal =>
      outside (equal ▸ (rings.ring head holds).prev_mem inRing)
    rw [next_remove links ((rings.ring head holds).next_ne member), prev_remove, if_neg notNext,
      if_neg notPrev]
    exact ⟨rfl, rfl⟩

end Rings

end Links
