/-
This file holds a cursor that walks through the entries of several lists, one list after the
other and around again. Behind the last entry of a list it enters the next one at its first
entry; a list without entries keeps it for ever.

The walk in the other direction is the same walk through the reversed lists. Where every list has
entries, the cursor visits all of them from anywhere. Otherwise what it visits in both directions
is only the list it starts in, and only if nothing is selected there.
-/

import Bmon.Lib.Neighbours

namespace Neighbours

variable {Tag Entry : Type*} [DecidableEq Tag] [DecidableEq Entry]

/-! ### The cursor -/

/-- The cyclic successor of a tag. -/
def following (tags : List Tag) (tag : Tag) : Tag := ((next tags tag).or tags.head?).getD tag

/-- The cursor at the first entry of a list, or at nothing if the list is empty. -/
def enter (pieces : Tag → List Entry) (tag : Tag) : Tag × Option Entry := (tag, (pieces tag).head?)

/-- One step of the cursor. -/
def advance (tags : List Tag) (pieces : Tag → List Entry) : Tag × Option Entry → Tag × Option Entry
  | (tag, none) => enter pieces tag
  | (tag, some entry) =>
    ((next (pieces tag) entry).map fun after => (tag, some after)).getD
      (enter pieces (following tags tag))

theorem advance_none (tags : List Tag) (pieces : Tag → List Entry) (tag : Tag) :
    advance tags pieces (tag, none) = enter pieces tag := rfl

theorem advance_some (tags : List Tag) (pieces : Tag → List Entry) (tag : Tag) (entry : Entry) :
    advance tags pieces (tag, some entry) =
      ((next (pieces tag) entry).map fun after => (tag, some after)).getD
        (enter pieces (following tags tag)) := rfl

/-- The cursor comes to an entry after one step or more. -/
def Visits (tags : List Tag) (pieces : Tag → List Entry) (cursor : Tag × Option Entry)
    (shown : Tag × Entry) : Prop :=
  ∃ n, (advance tags pieces)^[n + 1] cursor = (shown.1, some shown.2)

theorem following_eq_next {tags : List Tag} {tag : Tag} (member : tag ∈ tags) :
    following tags tag = tags.next tag member := by
  rw [following, next_or_head? tags tag member, Option.getD_some]

theorem following_mem {tags : List Tag} {tag : Tag} (member : tag ∈ tags) :
    following tags tag ∈ tags := by
  rw [following_eq_next member]
  exact List.next_mem tags tag member

/-- The cursor leaves a list only behind its last entry, and enters the next one. -/
theorem advance_leaves {tags : List Tag} {pieces : Tag → List Entry} {cursor : Tag × Option Entry}
    (leaves : (advance tags pieces cursor).1 ≠ cursor.1) :
    (∃ entry, cursor.2 = some entry ∧ next (pieces cursor.1) entry = none) ∧
      advance tags pieces cursor = enter pieces (following tags cursor.1) := by
  obtain ⟨tag, selected⟩ := cursor
  cases selected with
  | none => exact absurd rfl leaves
  | some entry =>
    rw [advance_some] at leaves ⊢
    cases after : next (pieces tag) entry with
    | some other =>
      rw [after] at leaves
      exact absurd rfl leaves
    | none => exact ⟨⟨entry, rfl, after⟩, rfl⟩

theorem advance_mem {tags : List Tag} (pieces : Tag → List Entry) {cursor : Tag × Option Entry}
    (member : cursor.1 ∈ tags) : (advance tags pieces cursor).1 ∈ tags := by
  by_cases stays : (advance tags pieces cursor).1 = cursor.1
  · rw [stays]
    exact member
  · rw [(advance_leaves stays).2]
    exact following_mem member

/-- The cursor selects nothing only in a list without entries. -/
theorem advance_eq_none {tags : List Tag} {pieces : Tag → List Entry} {cursor : Tag × Option Entry}
    (nothing : (advance tags pieces cursor).2 = none) :
    pieces (advance tags pieces cursor).1 = [] := by
  obtain ⟨tag, selected⟩ := cursor
  cases selected with
  | none => exact List.head?_eq_none_iff.mp nothing
  | some entry =>
    rw [advance_some] at nothing ⊢
    cases after : next (pieces tag) entry with
    | some other =>
      rw [after] at nothing
      cases nothing
    | none =>
      rw [after] at nothing
      exact List.head?_eq_none_iff.mp nothing

/-- Only the list the cursor is in and the one it enters matter for a step. -/
theorem advance_congr (tags : List Tag) {pieces pieces' : Tag → List Entry}
    {cursor : Tag × Option Entry} (here : pieces' cursor.1 = pieces cursor.1) :
    (advance tags pieces' cursor).1 = (advance tags pieces cursor).1 ∧
      (pieces' (advance tags pieces cursor).1 = pieces (advance tags pieces cursor).1 →
        advance tags pieces' cursor = advance tags pieces cursor) := by
  obtain ⟨tag, selected⟩ := cursor
  simp only at here
  have entered {other : Tag} (same : pieces' other = pieces other) :
      enter pieces' other = enter pieces other := by rw [enter, enter, same]
  cases selected with
  | none => exact ⟨rfl, fun _ => entered here⟩
  | some entry =>
    rw [advance_some, advance_some, here]
    cases next (pieces tag) entry with
    | some after => exact ⟨rfl, fun _ => rfl⟩
    | none => exact ⟨rfl, entered⟩

/-- What the steps of the cursor keep holds of what it visits. -/
theorem Visits.invariant {tags : List Tag} {pieces : Tag → List Entry} {cursor : Tag × Option Entry}
    {shown : Tag × Entry} (visits : Visits tags pieces cursor shown)
    (invariant : Tag × Option Entry → Prop) (first : invariant (advance tags pieces cursor))
    (keeps : ∀ cursor, invariant cursor → invariant (advance tags pieces cursor)) :
    invariant (shown.1, some shown.2) := by
  obtain ⟨n, found⟩ := visits
  rw [Function.iterate_succ_apply] at found
  rw [← found]
  exact Function.Iterate.rec invariant first keeps n

/-- A step more. -/
theorem Visits.step {tags : List Tag} {pieces : Tag → List Entry} {cursor : Tag × Option Entry}
    {shown other : Tag × Entry} (visits : Visits tags pieces cursor shown)
    (moves : advance tags pieces (shown.1, some shown.2) = (other.1, some other.2)) :
    Visits tags pieces cursor other := by
  obtain ⟨n, found⟩ := visits
  exact ⟨n + 1, by rw [Function.iterate_succ_apply', found, moves]⟩

/-! ### Lists with entries -/

/-- Where every list has entries, the cursor visits all of them. -/
theorem visits_of_nonempty {tags : List Tag} {pieces : Tag → List Entry}
    (nodup : (tagged tags pieces).Nodup) (nonempty : ∀ tag ∈ tags, pieces tag ≠ [])
    {cursor : Tag × Option Entry} (isTag : cursor.1 ∈ tags)
    (inside : ∀ entry ∈ cursor.2, entry ∈ pieces cursor.1)
    {shown : Tag × Entry} (member : shown ∈ tagged tags pieces) :
    Visits tags pieces cursor shown := by
  let view : Tag × Option Entry → Option (Tag × Entry) :=
    fun cursor => cursor.2.map fun entry => (cursor.1, entry)
  have entered (tag : Tag) : view (enter pieces tag) =
      (pieces tag).head?.map fun entry => (tag, entry) := rfl
  have moves : ∀ cursor shown (member : shown ∈ tagged tags pieces), view cursor = some shown →
      view (advance tags pieces cursor) = some ((tagged tags pieces).next shown member) := by
    rintro ⟨tag, selected⟩ shown member seen
    obtain ⟨entry, rfl, rfl⟩ := Option.map_eq_some_iff.mp seen
    obtain ⟨isTag, inPiece⟩ := mem_tagged.mp member
    rw [← next_or_head?, next_tagged_cyclic nonempty isTag inPiece]
    rw [advance_some]
    cases next (pieces tag) entry with
    | some after => rfl
    | none =>
      rw [Option.map_none, Option.map_none, Option.none_or, Option.getD_none, entered,
        next_or_head? tags tag isTag, Option.bind_some, following_eq_next isTag]
  have first : ∃ start ∈ tagged tags pieces, view (advance tags pieces cursor) = some start := by
    obtain ⟨tag, selected⟩ := cursor
    cases selected with
    | none =>
      obtain ⟨entry, rest, piece⟩ := List.exists_cons_of_ne_nil (nonempty tag isTag)
      refine ⟨(tag, entry), mem_tagged.mpr ⟨isTag, by rw [piece]; exact List.mem_cons_self⟩, ?_⟩
      rw [advance_none, entered, piece, List.head?_cons, Option.map_some]
    | some entry =>
      have here := mem_tagged.mpr ⟨isTag, inside entry rfl⟩
      exact ⟨_, List.next_mem _ _ here, moves (tag, some entry) (tag, entry) here rfl⟩
  obtain ⟨start, isStart, seen⟩ := first
  have tour := (tour_perm nodup moves isStart seen).mem_iff.mpr (List.mem_map_of_mem member)
  obtain ⟨n, -, found⟩ := List.mem_map.mp tour
  refine ⟨n, ?_⟩
  rw [Function.iterate_succ_apply]
  obtain ⟨entry, isEntry, same⟩ := Option.map_eq_some_iff.mp found
  rw [← same, ← isEntry]

/-- Where nothing is selected in a list, the cursor visits the whole list. -/
theorem visits_of_none (tags : List Tag) (pieces : Tag → List Entry) (tag : Tag)
    (nodup : (pieces tag).Nodup) {entry : Entry} (member : entry ∈ pieces tag) :
    Visits tags pieces (tag, none) (tag, entry) := by
  have rest : ∀ back front first, pieces tag = front ++ first :: back →
      Visits tags pieces (tag, none) (tag, first) →
      ∀ other ∈ back, Visits tags pieces (tag, none) (tag, other) := by
    intro back
    induction back with
    | nil =>
      intro front first piece visits other member
      cases member
    | cons second back inductionHypothesis =>
      intro front first piece visits other member
      have fresh : first ∉ front := by
        rw [piece] at nodup
        exact fun inFront => (List.nodup_append.mp nodup).2.2 first inFront first
          List.mem_cons_self rfl
      have moves : advance tags pieces (tag, some first) = (tag, some second) := by
        rw [advance_some, piece, next_append_cons fresh, List.head?_cons, Option.map_some,
          Option.getD_some]
      have visitsSecond : Visits tags pieces (tag, none) (tag, second) := visits.step moves
      rcases List.mem_cons.mp member with rfl | inBack
      · exact visitsSecond
      · exact inductionHypothesis (front ++ [first]) second
          (by rw [piece, List.append_assoc, List.singleton_append]) visitsSecond other inBack
  obtain ⟨first, back, piece⟩ := List.exists_cons_of_ne_nil (List.ne_nil_of_mem member)
  have visitsFirst : Visits tags pieces (tag, none) (tag, first) := by
    refine ⟨0, ?_⟩
    rw [Function.iterate_one, advance_none, enter, piece, List.head?_cons]
  rw [piece] at member
  rcases List.mem_cons.mp member with rfl | inBack
  · exact visitsFirst
  · exact rest back [] first piece visitsFirst entry inBack

/-! ### A list without entries -/

/-- An empty list keeps the cursor. -/
theorem not_visits_of_empty (tags : List Tag) {pieces : Tag → List Entry} {tag : Tag}
    (isEmpty : pieces tag = []) (shown : Tag × Entry) :
    ¬ Visits tags pieces (tag, none) shown := by
  intro visits
  have stays : advance tags pieces (tag, none) = (tag, none) := by
    rw [advance_none, enter, isEmpty, List.head?_nil]
  have still := visits.invariant (· = (tag, none)) stays fun cursor same => by rw [same, stays]
  cases congrArg Prod.snd still

/-- The tag that follows one of the first tags, up to some other one. -/
theorem following_rotated {tags front back : List Tag} {tag empty other : Tag} (nodup : tags.Nodup)
    (rotated : tags.IsRotated (tag :: (front ++ empty :: back))) (member : other ∈ tag :: front) :
    following tags other ∈ front ∨ following tags other = empty := by
  have inRotated : other ∈ tag :: (front ++ empty :: back) :=
    List.mem_append_left (empty :: back) member
  have inTags : other ∈ tags := rotated.mem_iff.mpr inRotated
  have found : (next (tag :: front ++ [empty]) other).isSome := by
    have := next_append_toList member (some empty)
    rw [Option.toList_some] at this
    rw [this]
    cases next (tag :: front) other <;> rfl
  obtain ⟨after, isAfter⟩ := Option.isSome_iff_exists.mp found
  have inRest : after ∈ front ++ [empty] := by
    rw [List.cons_append, next] at isAfter
    split_ifs at isAfter
    · exact List.mem_of_mem_head? isAfter
    · exact next_mem isAfter
  have same : following tags other = after := by
    refine Option.some.inj ?_
    rw [following_eq_next inTags, List.isRotated_next_eq rotated nodup inTags, ← next_or_head?]
    have whole := next_append_of_mem member (empty :: back)
    rw [List.cons_append] at whole
    rw [whole, List.head?_cons, Option.toList_some, isAfter, Option.some_or]
  rw [same]
  exact (List.mem_append.mp inRest).imp_right List.mem_singleton.mp

theorem following_of_rotated {tags rest : List Tag} {tag after : Tag} (nodup : tags.Nodup)
    (rotated : tags.IsRotated (tag :: after :: rest)) : following tags tag = after := by
  have noneBetween : tags.IsRotated (tag :: ([] ++ after :: rest)) := rotated
  exact (following_rotated nodup noneBetween List.mem_cons_self).resolve_left List.not_mem_nil

/-- Where a cursor can be that has come onward from an entry of a list: on one of the entries
after it, or in a list in front of an empty one, or stuck in that. -/
def Within (tag empty : Tag) (rest : List Entry) (front : List Tag)
    (cursor : Tag × Option Entry) : Prop :=
  (cursor.1 = tag ∧ ∃ entry ∈ rest, cursor.2 = some entry) ∨ cursor.1 ∈ front ∨
    cursor = (empty, none)

section Within

variable {tags front back : List Tag} {pieces : Tag → List Entry} {tag empty : Tag}
  {passed rest : List Entry} (nodup : tags.Nodup)
  (rotated : tags.IsRotated (tag :: (front ++ empty :: back))) (isEmpty : pieces empty = [])

include nodup rotated isEmpty

omit [DecidableEq Entry] in
theorem within_enter {other : Tag} (member : other ∈ tag :: front) :
    Within tag empty rest front (enter pieces (following tags other)) := by
  obtain inFront | same := following_rotated nodup rotated member
  · exact Or.inr (Or.inl inFront)
  · rw [same, enter, isEmpty]
    exact Or.inr (Or.inr rfl)

/-- From an entry of the list, the next one follows it or the list is left. -/
theorem within_advance_some {entry : Entry}
    (next_mem : ∀ after, next (pieces tag) entry = some after → after ∈ rest) :
    Within tag empty rest front (advance tags pieces (tag, some entry)) := by
  rw [advance_some]
  cases found : next (pieces tag) entry with
  | some after => exact Or.inl ⟨rfl, after, next_mem after found, rfl⟩
  | none => exact within_enter nodup rotated isEmpty List.mem_cons_self

variable (piece : pieces tag = passed ++ rest) (nodupPiece : (pieces tag).Nodup)

include piece nodupPiece

theorem within_advance_start (notEmpty : pieces tag ≠ []) :
    Within tag empty rest front (advance tags pieces (tag, passed.getLast?)) := by
  cases last : passed.getLast? with
  | none =>
    obtain rfl := List.getLast?_eq_none_iff.mp last
    obtain ⟨entry, others, cons⟩ := List.exists_cons_of_ne_nil notEmpty
    refine Or.inl ⟨rfl, entry, ?_, congrArg List.head? cons⟩
    rw [← List.nil_append rest, ← piece, cons]
    exact List.mem_cons_self
  | some entry =>
    obtain ⟨before, rfl⟩ := List.getLast?_eq_some_iff.mp last
    refine within_advance_some nodup rotated isEmpty fun after found => ?_
    rw [List.append_assoc, List.singleton_append] at piece
    have fresh : entry ∉ before := by
      rw [piece] at nodupPiece
      exact fun inBefore => (List.nodup_append.mp nodupPiece).2.2 entry inBefore entry
        List.mem_cons_self rfl
    rw [piece, next_append_cons fresh] at found
    exact List.mem_of_mem_head? found

theorem Within.advance {cursor : Tag × Option Entry}
    (within : Within tag empty rest front cursor) :
    Within tag empty rest front (advance tags pieces cursor) := by
  have apart : ∀ entry ∈ rest, entry ∉ passed := fun entry inRest inPassed => by
    rw [piece] at nodupPiece
    exact (List.nodup_append.mp nodupPiece).2.2 entry inPassed entry inRest rfl
  obtain ⟨other, selected⟩ := cursor
  obtain ⟨same, entry, inRest, isEntry⟩ | inFront | stuck := within
  · obtain rfl : other = tag := same
    obtain rfl : selected = some entry := isEntry
    refine within_advance_some nodup rotated isEmpty fun after found => ?_
    rw [piece, next_append_of_not_mem (apart entry inRest)] at found
    exact next_mem found
  · cases selected with
    | none => exact Or.inr (Or.inl inFront)
    | some entry =>
      rw [advance_some]
      cases next (pieces other) entry with
      | some after => exact Or.inr (Or.inl inFront)
      | none => exact within_enter nodup rotated isEmpty (List.mem_cons_of_mem tag inFront)
  · rw [stuck]
    refine Or.inr (Or.inr ?_)
    rw [advance_none, enter, isEmpty, List.head?_nil]

end Within

/-- In front of an empty list, the cursor visits only the lists before it, and of its own list
only what follows the entry it starts from. -/
theorem Visits.ahead {tags front back : List Tag} {pieces : Tag → List Entry}
    {tag empty : Tag} (nodup : tags.Nodup)
    (rotated : tags.IsRotated (tag :: (front ++ empty :: back))) (isEmpty : pieces empty = [])
    {passed rest : List Entry} (piece : pieces tag = passed ++ rest)
    (nodupPiece : (pieces tag).Nodup) (notEmpty : pieces tag ≠ []) {shown : Tag × Entry}
    (visits : Visits tags pieces (tag, passed.getLast?) shown) :
    (shown.1 = tag ∧ shown.2 ∈ rest) ∨ shown.1 ∈ front := by
  have first := within_advance_start nodup rotated isEmpty piece nodupPiece notEmpty
  have keeps : ∀ cursor, Within tag empty rest front cursor →
      Within tag empty rest front (advance tags pieces cursor) :=
    fun _ within => within.advance nodup rotated isEmpty piece nodupPiece
  obtain ⟨same, entry, inRest, isEntry⟩ | inFront | stuck := visits.invariant _ first keeps
  · obtain rfl := Option.some.inj isEntry
    exact Or.inl ⟨same, inRest⟩
  · exact Or.inr inFront
  · cases congrArg Prod.snd stuck

omit [DecidableEq Tag] in
/-- The tags between a tag and another one, on either way around. -/
theorem exists_between {tags : List Tag} (nodup : tags.Nodup) {tag other : Tag}
    (here : tag ∈ tags) (isTag : other ∈ tags) (apart : other ≠ tag) :
    ∃ front back, tags.IsRotated (tag :: (front ++ other :: back)) ∧
      tags.reverse.IsRotated (tag :: (back.reverse ++ other :: front.reverse)) ∧
      tag ∉ front ∧ tag ∉ back ∧ ∀ between ∈ front, between ∉ back := by
  obtain ⟨first, last, rfl⟩ := List.append_of_mem here
  have around : (first ++ tag :: last).IsRotated (tag :: (last ++ first)) :=
    List.isRotated_append
  have inRest : other ∈ last ++ first :=
    (List.mem_cons.mp (around.mem_iff.mp isTag)).resolve_left apart
  obtain ⟨front, back, split⟩ := List.append_of_mem inRest
  rw [split] at around
  have nodupAround := around.nodup_iff.mp nodup
  have fresh := (List.nodup_cons.mp nodupAround).1
  refine ⟨front, back, around, ?_, fun inFront => fresh (List.mem_append_left _ inFront),
    fun inBack => fresh (List.mem_append_right _ (List.mem_cons_of_mem other inBack)),
    fun between inFront inBack => ?_⟩
  · refine around.reverse.trans ?_
    rw [List.reverse_cons, List.reverse_append, List.reverse_cons, List.append_assoc _ [other],
      List.singleton_append]
    exact List.isRotated_concat _ _
  · exact (List.nodup_append.mp (List.nodup_cons.mp nodupAround).2).2.2 between inFront between
      (List.mem_cons_of_mem other inBack) rfl

/-- Where some list is empty, the cursor visits in both directions only entries of the list it
starts in, and only if nothing is selected there. -/
theorem Visits.both {tags : List Tag} {pieces : Tag → List Entry} (nodup : tags.Nodup)
    (nodupPieces : ∀ tag ∈ tags, (pieces tag).Nodup) {empty : Tag} (isTag : empty ∈ tags)
    (isEmpty : pieces empty = []) {cursor : Tag × Option Entry} (here : cursor.1 ∈ tags)
    (inside : ∀ entry ∈ cursor.2, entry ∈ pieces cursor.1) {shown : Tag × Entry}
    (forward : Visits tags pieces cursor shown)
    (backward : Visits tags.reverse (fun tag => (pieces tag).reverse) cursor shown) :
    shown.1 = cursor.1 ∧ cursor.2 = none := by
  obtain ⟨tag, selected⟩ := cursor
  have notEmpty : pieces tag ≠ [] := by
    intro nothing
    cases selected with
    | none => exact not_visits_of_empty tags nothing shown forward
    | some entry => exact List.not_mem_nil (nothing ▸ inside entry rfl)
  obtain ⟨front, back, around, aroundBack, notFront, notBack, disjoint⟩ :=
    exists_between nodup (show tag ∈ tags from here) isTag fun same => notEmpty (same ▸ isEmpty)
  -- what lies ahead in one direction is not what lies ahead in the other
  have meet (passed rest passedBack restBack : List Entry) (isRest : pieces tag = passed ++ rest)
      (isRestBack : (pieces tag).reverse = passedBack ++ restBack)
      (fromHere : selected = passed.getLast?) (fromHereBack : selected = passedBack.getLast?) :
      shown.1 = tag ∧ shown.2 ∈ rest ∧ shown.2 ∈ restBack := by
    subst fromHere
    have onward := forward.ahead nodup around isEmpty isRest (nodupPieces tag here) notEmpty
    rw [fromHereBack] at backward
    have onwardBack := backward.ahead (List.nodup_reverse.mpr nodup) aroundBack
      (by rw [isEmpty, List.reverse_nil]) isRestBack (List.nodup_reverse.mpr (nodupPieces tag here))
      (List.reverse_ne_nil_iff.mpr notEmpty)
    rw [List.mem_reverse] at onwardBack
    obtain ⟨same, inRest⟩ | inFront := onward
    · obtain ⟨-, inRestBack⟩ | inBack := onwardBack
      · exact ⟨same, inRest, inRestBack⟩
      · exact absurd (same ▸ inBack) notBack
    · obtain ⟨same, -⟩ | inBack := onwardBack
      · exact absurd (same ▸ inFront) notFront
      · exact absurd inBack (disjoint shown.1 inFront)
  cases selected with
  | none =>
    exact ⟨(meet [] (pieces tag) [] (pieces tag).reverse (List.nil_append _).symm
      (List.nil_append _).symm rfl rfl).1, rfl⟩
  | some entry =>
    obtain ⟨passed, rest, piece⟩ := List.append_of_mem (inside entry rfl)
    have pieceBack : (pieces tag).reverse = (rest.reverse ++ [entry]) ++ passed.reverse := by
      rw [piece, List.reverse_append, List.reverse_cons]
    obtain ⟨-, inRest, inPassed⟩ := meet (passed ++ [entry]) rest (rest.reverse ++ [entry])
      passed.reverse (by rw [piece, List.append_assoc, List.singleton_append]) pieceBack
      List.getLast?_concat.symm List.getLast?_concat.symm
    have nodupPiece := nodupPieces tag here
    rw [piece] at nodupPiece
    exact absurd rfl ((List.nodup_append.mp nodupPiece).2.2 shown.2
      (List.mem_reverse.mp inPassed) shown.2 (List.mem_cons_of_mem entry inRest))

/-! ### Two tags -/

omit [DecidableEq Tag] in
/-- A list with another tag can be turned so that a tag comes first. -/
theorem exists_rotated {tags : List Tag} {tag other : Tag} (member : tag ∈ tags)
    (memberOther : other ∈ tags) (apart : other ≠ tag) :
    ∃ after rest, tags.IsRotated (tag :: after :: rest) ∧ other ∈ after :: rest := by
  obtain ⟨front, back, rfl⟩ := List.append_of_mem member
  have around : (front ++ tag :: back).IsRotated (tag :: (back ++ front)) := List.isRotated_append
  have inRest := (List.mem_cons.mp (around.mem_iff.mp memberOther)).resolve_left apart
  obtain ⟨after, rest, same⟩ := List.exists_cons_of_ne_nil (List.ne_nil_of_mem inRest)
  rw [same] at around inRest
  exact ⟨after, rest, around, inRest⟩

/-- No tag follows itself where there is another one. -/
theorem following_ne {tags : List Tag} {tag other : Tag} (nodup : tags.Nodup) (member : tag ∈ tags)
    (memberOther : other ∈ tags) (apart : other ≠ tag) : following tags tag ≠ tag := by
  obtain ⟨after, rest, rotated, -⟩ := exists_rotated member memberOther apart
  rw [following_of_rotated nodup rotated]
  have fresh := (List.nodup_cons.mp (rotated.nodup_iff.mp nodup)).1
  exact fun same => fresh (same ▸ List.mem_cons_self)

/-- Two tags follow each other just if there are no others. -/
theorem following_each_other_iff {tags : List Tag} {tag other : Tag} (nodup : tags.Nodup)
    (member : tag ∈ tags) (memberOther : other ∈ tags) (apart : other ≠ tag) :
    following tags tag = other ∧ following tags other = tag ↔ tags.length = 2 := by
  obtain ⟨after, rest, rotated, inRest⟩ := exists_rotated member memberOther apart
  have turned : tags.IsRotated (after :: (rest ++ [tag])) := by
    refine rotated.trans ?_
    rw [← List.cons_append]
    exact (List.isRotated_concat tag (after :: rest)).symm
  have length : tags.length = rest.length + 2 := rotated.perm.length_eq
  rw [following_of_rotated nodup rotated, length]
  cases rest with
  | nil =>
    obtain rfl := List.mem_singleton.mp inRest
    exact iff_of_true ⟨rfl, following_of_rotated nodup turned⟩ rfl
  | cons second rest =>
    refine iff_of_false ?_ (by rw [List.length_cons]; omega)
    rintro ⟨rfl, back⟩
    rw [following_of_rotated nodup turned] at back
    have fresh := (List.nodup_cons.mp (rotated.nodup_iff.mp nodup)).1
    exact fresh (back ▸ List.mem_cons_of_mem _ List.mem_cons_self)

end Neighbours
