/-
This file places entries in a forest in the order in which they are read. An entry goes below its
master if that is at the top already, and to the top otherwise, where it stays.

Where an entry goes depends on what is read before it. Reading the same entries once more brings
nothing new to the top, but it puts every entry where it was only if no master comes to the top
after one of its entries.
-/

import Mathlib.Data.List.Basic

namespace Placement

/-- An entry with the key of its master, if it has one. -/
structure Entry (Key : Type*) where
  key : Key
  master : Option Key

variable {Key : Type*} [DecidableEq Key]

/-- The master that an entry goes below, with some keys at the top. -/
def place (tops : Key → Bool) (entry : Entry Key) : Option Key := entry.master.filter tops

/-- The keys at the top after an entry. -/
def enter (tops : Key → Bool) (entry : Entry Key) : Key → Bool := fun key =>
  tops key || (place tops entry).isNone && decide (key = entry.key)

/-- The keys at the top after some entries. -/
def after (tops : Key → Bool) (entries : List (Entry Key)) : Key → Bool := entries.foldl enter tops

/-- Where some entries go, one after the other. -/
def places : (Key → Bool) → List (Entry Key) → List (Option Key)
  | _, [] => []
  | tops, entry :: entries => place tops entry :: places (enter tops entry) entries

/-- Masters that are at the top in the end are there before any of their entries is read. -/
def MastersFirst (tops : Key → Bool) (entries : List (Entry Key)) : Prop :=
  ∀ before entry behind, entries = before ++ entry :: behind → ∀ master,
    entry.master = some master → after tops entries master = true →
      after tops before master = true

/-! ### What is at the top -/

theorem enter_mono (tops : Key → Bool) (entry : Entry Key) {key : Key} (atTop : tops key = true) :
    enter tops entry key = true := by
  rw [enter, atTop, Bool.true_or]

/-- What is at the top stays there. -/
theorem after_mono {tops : Key → Bool} (entries : List (Entry Key)) {key : Key}
    (atTop : tops key = true) : after tops entries key = true := by
  induction entries generalizing tops with
  | nil => exact atTop
  | cons entry entries inductionHypothesis =>
    exact inductionHypothesis (enter_mono tops entry atTop)

theorem after_append (tops : Key → Bool) (first second : List (Entry Key)) :
    after tops (first ++ second) = after (after tops first) second :=
  List.foldl_append

omit [DecidableEq Key] in
/-- An entry goes to the same place with more keys at the top just when its master is none of
those that are new. -/
theorem place_eq_iff {tops more : Key → Bool} (le : ∀ key, tops key = true → more key = true)
    (entry : Entry Key) :
    place tops entry = place more entry ↔
      ∀ master, entry.master = some master → more master = true → tops master = true := by
  unfold place
  cases entry.master with
  | none => exact iff_of_true rfl fun _ => nofun
  | some master =>
    simp only [Option.filter_some, Option.some.injEq, forall_eq']
    by_cases before : tops master = true
    · rw [if_pos before, if_pos (le master before)]
      exact iff_of_true rfl fun _ => before
    · rw [if_neg before]
      by_cases later : more master = true
      · rw [if_pos later]
        exact iff_of_false nofun fun holds => before (holds later)
      · rw [if_neg later]
        exact iff_of_true rfl fun found => absurd found later

theorem length_places (tops : Key → Bool) (entries : List (Entry Key)) :
    (places tops entries).length = entries.length := by
  induction entries generalizing tops with
  | nil => rfl
  | cons entry entries inductionHypothesis => exact congrArg Nat.succ (inductionHypothesis _)

/-- An entry whose key is in the end not at the top has found a master at the top. -/
theorem isSome_place_after {tops : Key → Bool} {entries : List (Entry Key)} {entry : Entry Key}
    (member : entry ∈ entries) (below : after tops entries entry.key ≠ true) :
    (place (after tops entries) entry).isSome := by
  induction entries generalizing tops with
  | nil => cases member
  | cons first entries inductionHypothesis =>
    rcases List.mem_cons.mp member with rfl | member
    · have notNow : enter tops entry entry.key ≠ true := mt (after_mono entries) below
      rw [enter, decide_eq_true rfl, Bool.and_true, ne_eq, Bool.or_eq_true, not_or] at notNow
      have found : place tops entry ≠ none := fun none => notNow.2 (by rw [none]; rfl)
      obtain ⟨master, isMaster⟩ := Option.ne_none_iff_exists'.mp found
      obtain ⟨hasMaster, atTop⟩ := Option.filter_eq_some_iff.mp isMaster
      refine Option.isSome_iff_exists.mpr ⟨master, Option.filter_eq_some_iff.mpr ⟨hasMaster, ?_⟩⟩
      exact after_mono entries (enter_mono tops entry atTop)
    · exact inductionHypothesis member below

/-! ### Reading the entries again -/

/-- Nothing comes to the top any more where the entries that find no master are there already. -/
theorem enter_eq_self {tops : Key → Bool} {entry : Entry Key}
    (settled : tops entry.key ≠ true → (place tops entry).isSome) : enter tops entry = tops := by
  funext key
  rw [enter]
  by_cases same : key = entry.key
  · subst same
    by_cases atTop : tops entry.key = true
    · rw [atTop, Bool.true_or]
    · rw [Option.isNone_eq_false_iff.mpr (settled atTop), Bool.false_and, Bool.or_false]
  · rw [decide_eq_false same, Bool.and_false, Bool.or_false]

theorem after_eq_self {tops : Key → Bool} {entries : List (Entry Key)}
    (settled : ∀ entry ∈ entries, tops entry.key ≠ true → (place tops entry).isSome) :
    after tops entries = tops ∧ places tops entries = entries.map (place tops) := by
  induction entries with
  | nil => exact ⟨rfl, rfl⟩
  | cons entry entries inductionHypothesis =>
    obtain ⟨same, samePlaces⟩ := inductionHypothesis
      fun other member => settled other (List.mem_cons_of_mem entry member)
    have entered := enter_eq_self (settled entry List.mem_cons_self)
    rw [after, List.foldl_cons, entered, places, entered, samePlaces]
    exact ⟨same, rfl⟩

/-- Reading the entries again brings nothing new to the top. -/
theorem after_after (tops : Key → Bool) (entries : List (Entry Key)) :
    after (after tops entries) entries = after tops entries :=
  (after_eq_self fun _ => isSome_place_after).1

/-- The places of some entries are those with given keys at the top, where each entry agrees. -/
theorem places_eq_map_iff (tops final : Key → Bool) (entries : List (Entry Key)) :
    places tops entries = entries.map (place final) ↔
      ∀ before entry behind, entries = before ++ entry :: behind →
        place (after tops before) entry = place final entry := by
  induction entries generalizing tops with
  | nil => exact iff_of_true rfl fun before _ _ split => by cases before <;> cases split
  | cons first entries inductionHypothesis =>
    rw [places, List.map_cons, List.cons_eq_cons, inductionHypothesis]
    constructor
    · rintro ⟨same, others⟩ before entry behind split
      cases before with
      | nil =>
        obtain ⟨rfl, -⟩ := List.cons.inj split
        exact same
      | cons other before =>
        obtain ⟨rfl, rest⟩ := List.cons.inj split
        exact others before entry behind rest
    · intro each
      exact ⟨each [] first entries rfl, fun before entry behind split =>
        each (first :: before) entry behind (congrArg _ split)⟩

/-- Reading the entries again puts them where they were just when the masters come first. -/
theorem places_again_iff (tops : Key → Bool) (entries : List (Entry Key)) :
    places (after tops entries) entries = places tops entries ↔ MastersFirst tops entries := by
  rw [(after_eq_self fun _ => isSome_place_after).2, eq_comm, places_eq_map_iff]
  have le (before : List (Entry Key)) (entry : Entry Key) (behind : List (Entry Key))
      (split : entries = before ++ entry :: behind) :
      ∀ key, after tops before key = true → after tops entries key = true := fun key atTop => by
    rw [split, after_append]
    exact after_mono _ atTop
  exact forall_congr' fun before => forall_congr' fun entry => forall_congr' fun behind =>
    forall_congr' fun split => place_eq_iff (le before entry behind split) entry

end Placement
