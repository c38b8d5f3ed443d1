/-
This file holds the neighbours of an entry in a linked list, in terms of the list of its
entries: the next entry and the previous one, with nothing at either end. With the first and
the last entry in the place of nothing these are the cyclic neighbours of Mathlib.
-/

import Mathlib.Data.List.Cycle

namespace Neighbours

variable {Entry : Type*}

/-! ### Lists in groups -/

section Tagged

variable {Tag : Type*}

/-- The entries of several lists one after the other, each with the tag of its list. -/
def tagged (tags : List Tag) (pieces : Tag → List Entry) : List (Tag × Entry) :=
  tags.flatMap fun tag => (pieces tag).map fun entry => (tag, entry)

theorem tagged_cons (tag : Tag) (tags : List Tag) (pieces : Tag → List Entry) :
    tagged (tag :: tags) pieces =
      (pieces tag).map (fun entry => (tag, entry)) ++ tagged tags pieces := List.flatMap_cons

theorem tagged_append (front back : List Tag) (pieces : Tag → List Entry) :
    tagged (front ++ back) pieces = tagged front pieces ++ tagged back pieces :=
  List.flatMap_append

theorem mem_tagged {tags : List Tag} {pieces : Tag → List Entry} {tag : Tag} {entry : Entry} :
    (tag, entry) ∈ tagged tags pieces ↔ tag ∈ tags ∧ entry ∈ pieces tag := by
  simp [tagged]

theorem tagged_reverse (tags : List Tag) (pieces : Tag → List Entry) :
    (tagged tags pieces).reverse = tagged tags.reverse fun tag => (pieces tag).reverse := by
  rw [tagged, tagged, List.reverse_flatMap]
  simp only [Function.comp_def, List.map_reverse]

/-- The first entry is that of the first list. -/
theorem head?_tagged {tags : List Tag} {pieces : Tag → List Entry}
    (nonempty : ∀ tag ∈ tags, pieces tag ≠ []) :
    (tagged tags pieces).head? =
      tags.head?.bind fun tag => (pieces tag).head?.map fun entry => (tag, entry) := by
  cases tags with
  | nil => rfl
  | cons tag tags =>
    obtain ⟨first, rest, piece⟩ := List.exists_cons_of_ne_nil (nonempty tag List.mem_cons_self)
    rw [tagged_cons, piece]
    simp [piece]

end Tagged

/-! ### Neighbours in a list -/

variable [DecidableEq Entry]

/-- The entry after the given one, if there is one. -/
def next : List Entry → Entry → Option Entry
  | [], _ => none
  | first :: rest, entry => if first = entry then rest.head? else next rest entry

/-- The entry before the given one, if there is one. -/
def prev (entries : List Entry) (entry : Entry) : Option Entry := next entries.reverse entry

theorem next_mem {entries : List Entry} {entry after : Entry}
    (found : next entries entry = some after) : after ∈ entries := by
  induction entries with
  | nil => cases found
  | cons first rest inductionHypothesis =>
    unfold next at found
    split_ifs at found
    · exact List.mem_cons_of_mem _ (List.mem_of_mem_head? found)
    · exact List.mem_cons_of_mem _ (inductionHypothesis found)

theorem next_ne {entries : List Entry} (nodup : entries.Nodup) {entry after : Entry}
    (found : next entries entry = some after) : after ≠ entry := by
  induction entries with
  | nil => cases found
  | cons first rest inductionHypothesis =>
    obtain ⟨fresh, nodupRest⟩ := List.nodup_cons.mp nodup
    unfold next at found
    split_ifs at found with same
    · exact fun other => fresh (same.trans other.symm ▸ List.mem_of_mem_head? found)
    · exact inductionHypothesis nodupRest found

/-- An entry that no other one follows is the last one. -/
theorem getLast?_of_next {entries : List Entry} {entry : Entry} (member : entry ∈ entries)
    (final : next entries entry = none) : entries.getLast? = some entry := by
  induction entries with
  | nil => cases member
  | cons first rest inductionHypothesis =>
    unfold next at final
    split_ifs at final with same
    · rw [List.head?_eq_none_iff.mp final, same, List.getLast?_singleton]
    · have inRest := (List.mem_cons.mp member).resolve_left (Ne.symm same)
      rw [List.getLast?_cons, inductionHypothesis inRest final, Option.getD_some]

omit [DecidableEq Entry] in
/-- The last entry of a list is the first one just if there are no others. -/
theorem head?_eq_iff {entries : List Entry} (nodup : entries.Nodup) {entry : Entry}
    (last : entries.getLast? = some entry) : entries.head? = some entry ↔ entries = [entry] := by
  cases entries with
  | nil => cases last
  | cons first rest =>
    obtain ⟨fresh, -⟩ := List.nodup_cons.mp nodup
    constructor
    · intro head
      obtain rfl := Option.some.inj head
      cases rest with
      | nil => rfl
      | cons second rest =>
        rw [List.getLast?_cons_cons] at last
        exact absurd (List.mem_of_getLast? last) fresh
    · intro alone
      rw [alone, List.head?_cons]

/-- Entries other than the given one in front of a list do not matter. -/
theorem next_append_of_not_mem {front : List Entry} {entry : Entry} (fresh : entry ∉ front)
    (entries : List Entry) : next (front ++ entries) entry = next entries entry := by
  induction front with
  | nil => rfl
  | cons first rest inductionHypothesis =>
    have apart : first ≠ entry := fun same => fresh (same ▸ List.mem_cons_self)
    rw [List.cons_append, next, if_neg apart]
    exact inductionHypothesis fun member => fresh (List.mem_cons_of_mem _ member)

/-- The entry after the given one is the first of those that follow it. -/
theorem next_append_cons {front : List Entry} {entry : Entry} (fresh : entry ∉ front)
    (back : List Entry) : next (front ++ entry :: back) entry = back.head? := by
  rw [next_append_of_not_mem fresh, next, if_pos rfl]

/-- The entry before the given one is the last of those in front of it. -/
theorem prev_append_cons {back : List Entry} {entry : Entry} (fresh : entry ∉ back)
    (front : List Entry) : prev (front ++ entry :: back) entry = front.getLast? := by
  rw [prev, List.reverse_append, List.reverse_cons, List.append_assoc, List.singleton_append,
    next_append_cons (by rwa [List.mem_reverse]), List.head?_reverse]

/-- Only the first of the entries that follow a list matters for its entries. -/
theorem next_append_of_mem {front : List Entry} {entry : Entry} (member : entry ∈ front)
    (back : List Entry) : next (front ++ back) entry = next (front ++ back.head?.toList) entry := by
  induction front with
  | nil => cases member
  | cons first rest inductionHypothesis =>
    rw [List.cons_append, List.cons_append, next, next]
    split_ifs with same
    · cases rest <;> cases back <;> rfl
    · have inRest := (List.mem_cons.mp member).resolve_left (Ne.symm same)
      exact inductionHypothesis inRest

/-- Only the last of the entries in front of a list matters for its entries. -/
theorem prev_append_of_mem {back : List Entry} {entry : Entry} (member : entry ∈ back)
    (front : List Entry) :
    prev (front ++ back) entry = prev (front.getLast?.toList ++ back) entry := by
  rw [prev, prev, List.reverse_append, List.reverse_append,
    next_append_of_mem (List.mem_reverse.mpr member), List.head?_reverse]
  cases front.getLast? <;> rfl

/-- Entries other than the given one behind a list do not matter for the one before it. -/
theorem prev_append_of_not_mem {back : List Entry} {entry : Entry} (fresh : entry ∉ back)
    (entries : List Entry) : prev (entries ++ back) entry = prev entries entry := by
  rw [prev, List.reverse_append, next_append_of_not_mem (by rwa [List.mem_reverse])]
  rfl

/-- A list of one entry more. -/
theorem next_append_toList {entries : List Entry} {entry : Entry} (member : entry ∈ entries)
    (last : Option Entry) :
    next (entries ++ last.toList) entry = (next entries entry).or last := by
  induction entries with
  | nil => cases member
  | cons first rest inductionHypothesis =>
    rw [List.cons_append, next, next]
    split_ifs with same
    · cases rest <;> cases last <;> rfl
    · exact inductionHypothesis ((List.mem_cons.mp member).resolve_left (Ne.symm same))

/-- Neighbours are those of the images under an injective map. -/
theorem next_map {Image : Type*} [DecidableEq Image] {image : Entry → Image}
    (injective : Function.Injective image) (entries : List Entry) (entry : Entry) :
    next (entries.map image) (image entry) = (next entries entry).map image := by
  induction entries with
  | nil => rfl
  | cons first rest inductionHypothesis =>
    rw [List.map_cons, next, next]
    simp only [injective.eq_iff]
    split_ifs
    · rw [List.head?_map]
    · exact inductionHypothesis

theorem prev_map {Image : Type*} [DecidableEq Image] {image : Entry → Image}
    (injective : Function.Injective image) (entries : List Entry) (entry : Entry) :
    prev (entries.map image) (image entry) = (prev entries entry).map image := by
  rw [prev, ← List.map_reverse, next_map injective]
  rfl

/-- Without a default entry, `List.nextOr` is the next entry. -/
theorem nextOr_eq_getD (entries : List Entry) (entry default : Entry) :
    List.nextOr entries entry default = (next entries entry).getD default := by
  induction entries with
  | nil => rfl
  | cons first rest inductionHypothesis =>
    cases rest with
    | nil =>
      rw [List.nextOr_singleton, next]
      split_ifs <;> rfl
    | cons second rest =>
      rw [next]
      split_ifs with same
      · subst same
        exact List.nextOr_self_cons_cons rest first second default
      · rw [List.nextOr_cons_of_ne _ _ _ _ (Ne.symm same), inductionHypothesis]

/-- The cyclic successor is the next entry, or the first one. -/
theorem next_or_head? (entries : List Entry) (entry : Entry) (member : entry ∈ entries) :
    (next entries entry).or entries.head? = some (entries.next entry member) := by
  obtain ⟨first, rest, rfl⟩ := List.exists_cons_of_ne_nil (List.ne_nil_of_mem member)
  rw [List.next, nextOr_eq_getD]
  cases next (first :: rest) entry <;> rfl

/-- The cyclic predecessor is the previous entry, or the last one. -/
theorem prev_or_getLast? (entries : List Entry) (nodup : entries.Nodup) (entry : Entry)
    (member : entry ∈ entries) :
    (prev entries entry).or entries.getLast? = some (entries.prev entry member) := by
  rw [prev, ← List.head?_reverse, next_or_head? _ _ (List.mem_reverse.mpr member),
    List.next_reverse_eq_prev entries nodup entry member]

/-! ### Neighbours in lists in groups -/

section Groups

variable {Tag : Type*} [DecidableEq Tag]

/-- After the last entry of a list comes the first entry of the next list. -/
theorem next_tagged {tags : List Tag} {pieces : Tag → List Entry}
    (nonempty : ∀ tag ∈ tags, pieces tag ≠ []) {tag : Tag} {entry : Entry}
    (isTag : tag ∈ tags) (member : entry ∈ pieces tag) :
    next (tagged tags pieces) (tag, entry) =
      ((next (pieces tag) entry).map fun entry => (tag, entry)).or
        ((next tags tag).bind fun tag => (pieces tag).head?.map fun entry => (tag, entry)) := by
  obtain ⟨front, back, rfl, fresh⟩ := List.eq_append_cons_of_mem isTag
  have notFront : (tag, entry) ∉ tagged front pieces := fun inFront =>
    fresh (mem_tagged.mp inFront).1
  have inPiece : (tag, entry) ∈ (pieces tag).map fun entry => (tag, entry) :=
    List.mem_map_of_mem member
  rw [tagged_append, tagged_cons, next_append_of_not_mem notFront, next_append_of_mem inPiece,
    next_append_toList inPiece, next_map fun _ _ same => (Prod.mk.inj same).2,
    next_append_cons fresh, head?_tagged]
  exact fun other inBack =>
    nonempty other (List.mem_append_right _ (List.mem_cons_of_mem _ inBack))

/-- The cyclic successor of an entry: within its list, or the first entry of the next list. -/
theorem next_tagged_cyclic {tags : List Tag} {pieces : Tag → List Entry}
    (nonempty : ∀ tag ∈ tags, pieces tag ≠ []) {tag : Tag} {entry : Entry}
    (isTag : tag ∈ tags) (member : entry ∈ pieces tag) :
    (next (tagged tags pieces) (tag, entry)).or (tagged tags pieces).head? =
      ((next (pieces tag) entry).map fun entry => (tag, entry)).or
        (((next tags tag).or tags.head?).bind fun tag =>
          (pieces tag).head?.map fun entry => (tag, entry)) := by
  rw [next_tagged nonempty isTag member, head?_tagged nonempty, Option.or_assoc]
  congr 1
  cases after : next tags tag with
  | none => rfl
  | some other =>
    obtain ⟨first, rest, piece⟩ := List.exists_cons_of_ne_nil (nonempty other (next_mem after))
    simp [piece]

/-- The cyclic predecessor of an entry: within its list, or the last entry of the list before. -/
theorem prev_tagged_cyclic {tags : List Tag} {pieces : Tag → List Entry}
    (nonempty : ∀ tag ∈ tags, pieces tag ≠ []) {tag : Tag} {entry : Entry}
    (isTag : tag ∈ tags) (member : entry ∈ pieces tag) :
    (prev (tagged tags pieces) (tag, entry)).or (tagged tags pieces).getLast? =
      ((prev (pieces tag) entry).map fun entry => (tag, entry)).or
        (((prev tags tag).or tags.getLast?).bind fun tag =>
          (pieces tag).getLast?.map fun entry => (tag, entry)) := by
  rw [prev, ← List.head?_reverse, tagged_reverse,
    next_tagged_cyclic (fun tag inTags => ?_) (List.mem_reverse.mpr isTag)
      (List.mem_reverse.mpr member)]
  · simp only [prev, List.head?_reverse]
  · exact List.reverse_ne_nil_iff.mpr (nonempty tag (List.mem_reverse.mp inTags))

end Groups

/-! ### Tours -/

section Tours

variable {State : Type*} {step : State → State} {view : State → Option Entry}
variable {entries : List Entry}

/-- Steps to the cyclic successor walk the list from where they start. -/
theorem iterate_successor (nodup : entries.Nodup)
    (moves : ∀ s entry (member : entry ∈ entries), view s = some entry →
      view (step s) = some (entries.next entry member))
    {s : State} {i : ℕ} (inside : i < entries.length) (starts : view s = some entries[i])
    (k : ℕ) : view (step^[k] s) = entries[(i + k) % entries.length]? := by
  induction k with
  | zero =>
    rw [Nat.add_zero, Nat.mod_eq_of_lt inside, List.getElem?_eq_getElem inside]
    exact starts
  | succ k inductionHypothesis =>
    have within : (i + k) % entries.length < entries.length :=
      Nat.mod_lt _ (Nat.zero_lt_of_lt inside)
    rw [List.getElem?_eq_getElem within] at inductionHypothesis
    rw [Function.iterate_succ_apply', moves _ _ (List.getElem_mem _) inductionHypothesis,
      List.next_getElem entries nodup, ← List.getElem?_eq_getElem, Nat.mod_add_mod,
      Nat.add_assoc]

/-- As many steps as there are entries visit every entry once. -/
theorem tour_perm (nodup : entries.Nodup)
    (moves : ∀ s entry (member : entry ∈ entries), view s = some entry →
      view (step s) = some (entries.next entry member))
    {s : State} {entry : Entry} (member : entry ∈ entries) (starts : view s = some entry) :
    ((List.range entries.length).map fun k => view (step^[k] s)).Perm (entries.map some) := by
  obtain ⟨i, inside, rfl⟩ := List.getElem_of_mem member
  have rotated : (List.range entries.length).map (fun k => view (step^[k] s)) =
      (entries.rotate i).map some := by
    refine List.ext_getElem (by simp) fun k _ _ => ?_
    rw [List.getElem_map, List.getElem_range, List.getElem_map, List.getElem_rotate,
      iterate_successor nodup moves inside starts k, Nat.add_comm i k, List.getElem?_eq_getElem]
  rw [rotated]
  exact (List.rotate_perm entries i).map some

/-- As many steps as there are entries lead back to the start. -/
theorem tour_returns (nodup : entries.Nodup)
    (moves : ∀ s entry (member : entry ∈ entries), view s = some entry →
      view (step s) = some (entries.next entry member))
    {s : State} {entry : Entry} (member : entry ∈ entries) (starts : view s = some entry) :
    view (step^[entries.length] s) = view s := by
  obtain ⟨i, inside, rfl⟩ := List.getElem_of_mem member
  rw [iterate_successor nodup moves inside starts, starts, Nat.add_mod_right,
    Nat.mod_eq_of_lt inside, List.getElem?_eq_getElem inside]

end Tours

end Neighbours
