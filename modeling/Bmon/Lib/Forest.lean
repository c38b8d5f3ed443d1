/-
This file holds ordered forests: every node has an ordered list of trees below it. A forest is
kept in the shape of its linked representation, as a first node, the forest below it, and the
forest of its later siblings.
-/

import Mathlib.Data.List.Basic
import Mathlib.Data.List.Nodup
import Mathlib.Data.List.Perm.Basic
import Mathlib.Data.List.Perm.Subperm

/-- An ordered forest. -/
inductive Forest (Node : Type*) where
  | nil
  | cons (node : Node) (childs siblings : Forest Node)

namespace Forest

variable {Node : Type*}

/-- The nodes at the top. -/
def roots : Forest Node → List Node
  | nil => []
  | cons node _ siblings => node :: siblings.roots

/-- All nodes, each before those below it. -/
def preorder : Forest Node → List Node
  | nil => []
  | cons node childs siblings => node :: (childs.preorder ++ siblings.preorder)

/-- All nodes, each after those below it. -/
def postorder : Forest Node → List Node
  | nil => []
  | cons node childs siblings => childs.postorder ++ node :: siblings.postorder

theorem postorder_perm (forest : Forest Node) : forest.postorder.Perm forest.preorder := by
  induction forest with
  | nil => exact List.Perm.refl []
  | cons node childs siblings childsHypothesis siblingsHypothesis =>
    refine List.perm_middle.trans (List.Perm.cons node ?_)
    exact childsHypothesis.append siblingsHypothesis

theorem mem_postorder_iff {forest : Forest Node} {node : Node} :
    node ∈ forest.postorder ↔ node ∈ forest.preorder :=
  forest.postorder_perm.mem_iff

theorem roots_subset_preorder (forest : Forest Node) : forest.roots ⊆ forest.preorder := by
  induction forest with
  | nil => exact List.Subset.refl []
  | cons node childs siblings _ siblingsHypothesis =>
    refine List.cons_subset_cons node ?_
    exact List.Subset.trans siblingsHypothesis (List.subset_append_right _ _)

theorem head?_preorder (forest : Forest Node) : forest.preorder.head? = forest.roots.head? := by
  cases forest <;> rfl

/-- The parts of a forest without repetitions. -/
theorem nodup_preorder_cons {node : Node} {childs siblings : Forest Node} :
    (cons node childs siblings).preorder.Nodup ↔
      (node ∉ childs.preorder ∧ node ∉ siblings.preorder) ∧ childs.preorder.Nodup ∧
        siblings.preorder.Nodup ∧ childs.preorder.Disjoint siblings.preorder := by
  rw [preorder, List.nodup_cons, List.mem_append, not_or, List.nodup_append']

theorem nodup_roots {forest : Forest Node} (nodup : forest.preorder.Nodup) :
    forest.roots.Nodup := by
  induction forest with
  | nil => exact List.nodup_nil
  | cons node childs siblings _ siblingsHypothesis =>
    obtain ⟨⟨-, fresh⟩, -, rest, -⟩ := nodup_preorder_cons.mp nodup
    exact List.nodup_cons.mpr
      ⟨fun member => fresh (siblings.roots_subset_preorder member), siblingsHypothesis rest⟩

/-! ### Cutting nodes out -/

/-- The forest without the trees below some nodes. -/
def without (cut : Node → Bool) : Forest Node → Forest Node
  | nil => nil
  | cons node childs siblings =>
    if cut node then siblings.without cut
    else cons node (childs.without cut) (siblings.without cut)

theorem roots_without (cut : Node → Bool) (forest : Forest Node) :
    (forest.without cut).roots = forest.roots.filter fun node => !cut node := by
  induction forest with
  | nil => rfl
  | cons node childs siblings _ siblingsHypothesis =>
    rw [without, roots]
    cases isCut : cut node with
    | false =>
      rw [if_neg Bool.false_ne_true, List.filter_cons_of_pos (by rw [isCut]; rfl), roots,
        siblingsHypothesis]
    | true =>
      rw [if_pos rfl, List.filter_cons_of_neg (by rw [isCut]; exact Bool.false_ne_true),
        siblingsHypothesis]

/-! ### The last branch -/

/-- The last node at the top, the last one of those below it, and so on. -/
def lastBranch : Forest Node → List Node
  | nil => []
  | cons node childs nil => node :: childs.lastBranch
  | cons _ _ (cons node childs siblings) => (cons node childs siblings).lastBranch

/-- The last branch comes last in postorder, from its end to its start. -/
theorem postorder_eq_append_lastBranch (forest : Forest Node) :
    ∃ others, forest.postorder = others ++ forest.lastBranch.reverse := by
  induction forest with
  | nil => exact ⟨[], rfl⟩
  | cons node childs siblings childsHypothesis siblingsHypothesis =>
    cases siblings with
    | nil =>
      obtain ⟨others, same⟩ := childsHypothesis
      refine ⟨others, ?_⟩
      rw [postorder, same, postorder, lastBranch, List.reverse_cons, List.append_assoc]
    | cons next below beside =>
      obtain ⟨others, same⟩ := siblingsHypothesis
      refine ⟨childs.postorder ++ node :: others, ?_⟩
      rw [postorder, same, lastBranch, List.append_assoc, List.cons_append]

theorem lastBranch_sublist (forest : Forest Node) :
    forest.lastBranch.Sublist forest.preorder := by
  induction forest with
  | nil => exact List.Sublist.refl []
  | cons node childs siblings childsHypothesis siblingsHypothesis =>
    cases siblings with
    | nil =>
      rw [lastBranch, preorder, preorder, List.append_nil]
      exact childsHypothesis.cons_cons node
    | cons next below beside =>
      rw [lastBranch, preorder, ← List.cons_append]
      exact siblingsHypothesis.trans (List.sublist_append_right _ _)

/-- The last branch ends with the last node. -/
theorem getLast?_lastBranch (forest : Forest Node) :
    forest.lastBranch.getLast? = forest.preorder.getLast? := by
  induction forest with
  | nil => rfl
  | cons node childs siblings childsHypothesis siblingsHypothesis =>
    cases siblings with
    | nil =>
      rw [lastBranch, preorder, preorder, List.append_nil, List.getLast?_cons, List.getLast?_cons,
        childsHypothesis]
    | cons next below beside =>
      rw [lastBranch, siblingsHypothesis]
      exact (List.getLast?_append_of_ne_nil (node :: childs.preorder)
        (List.cons_ne_nil next _)).symm

/-- The entries of a list without repetitions that are in a part of it are that part. -/
theorem filter_mem_sublist [DecidableEq Node] {part whole : List Node} (sub : part.Sublist whole)
    (nodup : whole.Nodup) : (whole.filter fun node => decide (node ∈ part)) = part := by
  have subset := sub.filter fun node => decide (node ∈ part)
  rw [List.filter_eq_self.mpr fun node member => decide_eq_true member] at subset
  have inPart : (whole.filter fun node => decide (node ∈ part)) ⊆ part := fun node member =>
    of_decide_eq_true (List.mem_filter.mp member).2
  exact (subset.eq_of_length_le (List.subperm_of_subset (nodup.filter _) inPart).length_le).symm

section LastLeft

variable [DecidableEq Node] {forest : Forest Node} (nodup : forest.preorder.Nodup)
variable {before after : List Node} {node : Node}
variable (split : forest.postorder = before ++ node :: after)

include nodup split

/-- A node of the last branch has only the branch above it behind it in postorder. -/
theorem getLast?_filter_of_mem (onBranch : node ∈ forest.lastBranch) :
    (forest.preorder.filter fun other => decide (other ∉ before)).getLast? = some node := by
  obtain ⟨others, behind⟩ := forest.postorder_eq_append_lastBranch
  obtain ⟨upper, lower, branch⟩ := List.append_of_mem onBranch
  have nodupPost := forest.postorder_perm.nodup_iff.mpr nodup
  rw [split] at nodupPost
  have fresh := (List.nodup_cons.mp (List.nodup_middle.mp nodupPost)).1
  rw [List.mem_append, not_or] at fresh
  have sub : (upper ++ [node]).Sublist forest.preorder := by
    have whole := forest.lastBranch_sublist
    rw [branch] at whole
    exact (((List.nil_sublist lower).cons_cons node).append_left upper).trans whole
  have parts : before ++ node :: after = others ++ lower.reverse ++ node :: upper.reverse := by
    rw [← split, behind, branch]
    simp only [List.reverse_append, List.reverse_cons, List.append_assoc, List.singleton_append]
  obtain ⟨-, -, rfl⟩ := (List.append_cons_inj_of_notMem fresh.1 fresh.2).mp parts
  have rest : (forest.preorder.filter fun other => decide (other ∉ before)) =
      forest.preorder.filter fun other => decide (other ∈ upper ++ [node]) := by
    refine List.filter_congr fun other member => decide_eq_decide.mpr ?_
    rw [← forest.mem_postorder_iff, split] at member
    constructor
    · intro notBefore
      have behind := (List.mem_append.mp member).resolve_left notBefore
      simpa [or_comm] using behind
    · intro onPart inBefore
      exact (List.nodup_append.mp nodupPost).2.2 other inBefore other
        (by simpa [or_comm] using onPart) rfl
  rw [rest, filter_mem_sublist sub nodup, List.getLast?_concat]

/-- A node that is not on the last branch comes before the end of that branch. -/
theorem getLast?_filter_ne_of_not_mem (notOnBranch : node ∉ forest.lastBranch) :
    (forest.preorder.filter fun other => decide (other ∉ before)).getLast? ≠ some node := by
  intro last
  obtain ⟨others, behind⟩ := forest.postorder_eq_append_lastBranch
  have nodupPost := forest.postorder_perm.nodup_iff.mpr nodup
  rw [split] at nodupPost
  have fresh := (List.nodup_cons.mp (List.nodup_middle.mp nodupPost)).1
  rw [List.mem_append, not_or] at fresh
  have member : node ∈ forest.postorder := by
    rw [split]
    exact List.mem_append_right _ List.mem_cons_self
  have inOthers : node ∈ others := by
    rw [behind] at member
    exact (List.mem_append.mp member).resolve_right fun inBranch =>
      notOnBranch (List.mem_reverse.mp inBranch)
  obtain ⟨front, back, rfl⟩ := List.append_of_mem inOthers
  have parts : before ++ node :: after =
      front ++ node :: (back ++ forest.lastBranch.reverse) := by
    rw [← split, behind, List.append_assoc, List.cons_append]
  obtain ⟨rfl, -, rfl⟩ := (List.append_cons_inj_of_notMem fresh.1 fresh.2).mp parts
  -- the end of the last branch is still there, and is another node
  rw [forest.mem_postorder_iff] at member
  obtain ⟨init, final, whole⟩ :=
    (List.eq_nil_or_concat forest.preorder).resolve_left (List.ne_nil_of_mem member)
  rw [List.concat_eq_append] at whole
  have isFinal : final ∈ forest.lastBranch := by
    refine List.mem_of_getLast? ?_
    rw [getLast?_lastBranch, whole, List.getLast?_concat]
  have kept : final ∉ before := fun inBefore => by
    refine (List.nodup_append.mp nodupPost).2.2 final inBefore final ?_ rfl
    exact List.mem_cons_of_mem _ (List.mem_append_right _ (List.mem_reverse.mpr isFinal))
  have still : ([final].filter fun other => decide (other ∉ before)) = [final] :=
    List.filter_eq_self.mpr fun other alone =>
      decide_eq_true (List.mem_singleton.mp alone ▸ kept)
  rw [whole, List.filter_append, still, List.getLast?_concat] at last
  exact notOnBranch (Option.some.inj last ▸ isFinal)

/-- Without the nodes before it in postorder, a node is the last one just if it is on the last
branch. -/
theorem getLast?_filter_iff :
    (forest.preorder.filter fun other => decide (other ∉ before)).getLast? = some node ↔
      node ∈ forest.lastBranch :=
  ⟨fun last => by_contra fun other => getLast?_filter_ne_of_not_mem nodup split other last,
    getLast?_filter_of_mem nodup split⟩

end LastLeft

end Forest
