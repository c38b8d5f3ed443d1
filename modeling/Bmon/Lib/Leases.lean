/-
This file is a small library on tables of leases that run out.

A round renews the leases of some keys, with a new entry at the end for a key that has none, and
then takes one from all that is left. What is left of a lease therefore only depends on how many
rounds ago it was renewed last, and a key is in the table just when that is not too long ago.
-/

import Mathlib.Data.List.Nodup
import Mathlib.Data.List.Induction
import Mathlib.Data.List.TakeDrop

namespace Leases

variable {Key : Type*} [DecidableEq Key] (term : Nat)

/-- The lease of a key is renewed, or a new one is put at the end of the table. -/
def renew (key : Key) : List (Key × Nat) → List (Key × Nat)
  | [] => [(key, term)]
  | lease :: rest => if lease.1 = key then (key, term) :: rest else lease :: renew key rest

/-- One round is taken from every lease, and those of which nothing is left are removed. -/
def expire (table : List (Key × Nat)) : List (Key × Nat) :=
  (table.filter fun lease => lease.2 ≠ 1).map fun lease => (lease.1, lease.2 - 1)

/-- A round of renewals. -/
def round (table : List (Key × Nat)) (keys : List Key) : List (Key × Nat) :=
  expire (keys.foldl (fun table key => renew term key table) table)

/-- The table after some rounds, from an empty one. -/
def rounds (history : List (List Key)) : List (Key × Nat) := history.foldl (round term) []

/-- What is left of the lease of a key, with the last round first. -/
def left (key : Key) : List (List Key) → Nat
  | [] => 0
  | keys :: earlier => (if key ∈ keys then term else left key earlier) - 1

/-- No key has two leases, and something is left of every lease. -/
structure Sound (table : List (Key × Nat)) : Prop where
  nodup : (table.map Prod.fst).Nodup
  positive : ∀ lease ∈ table, 0 < lease.2

/-! ### Renewals -/

theorem keys_renew (key : Key) (table : List (Key × Nat)) :
    (renew term key table).map Prod.fst =
      if key ∈ table.map Prod.fst then table.map Prod.fst else table.map Prod.fst ++ [key] := by
  induction table with
  | nil => rfl
  | cons lease rest inductionHypothesis =>
    rw [renew, List.map_cons]
    by_cases same : lease.1 = key
    · rw [if_pos same, if_pos (same ▸ List.mem_cons_self), List.map_cons, same]
    · rw [if_neg same, List.map_cons, inductionHypothesis]
      have other : key ≠ lease.1 := Ne.symm same
      by_cases present : key ∈ rest.map Prod.fst
      · rw [if_pos present, if_pos (List.mem_cons_of_mem _ present)]
      · rw [if_neg present,
          if_neg fun member => present ((List.mem_cons.mp member).resolve_left other)]
        rfl

/-- The leases of the other keys stay. -/
theorem mem_renew_other {key other : Key} (apart : other ≠ key) (n : Nat)
    (table : List (Key × Nat)) : (other, n) ∈ renew term key table ↔ (other, n) ∈ table := by
  have different : ∀ m, (other, n) ≠ (key, m) := fun m equal => apart (congrArg Prod.fst equal)
  induction table with
  | nil => simp [renew, apart]
  | cons lease rest inductionHypothesis =>
    rw [renew]
    split_ifs with same
    · rw [List.mem_cons, List.mem_cons, or_iff_right (different term),
        or_iff_right fun equal => apart ((congrArg Prod.fst equal).trans same)]
    · rw [List.mem_cons, List.mem_cons]
      exact or_congr_right inductionHypothesis

/-- What is left of a lease that was renewed. -/
theorem mem_renew_self {key : Key} {table : List (Key × Nat)}
    (nodup : (table.map Prod.fst).Nodup) (n : Nat) :
    (key, n) ∈ renew term key table ↔ n = term := by
  induction table with
  | nil => simp [renew]
  | cons lease rest inductionHypothesis =>
    obtain ⟨fresh, nodupRest⟩ := List.nodup_cons.mp nodup
    rw [renew]
    split_ifs with same
    · have absent : (key, n) ∉ rest := fun member =>
        fresh (same ▸ List.mem_map_of_mem (f := Prod.fst) member)
      rw [List.mem_cons, or_iff_left absent, Prod.mk.injEq, and_iff_right rfl]
    · have other : (key, n) ≠ lease := fun equal => same (congrArg Prod.fst equal).symm
      rw [List.mem_cons, or_iff_right other, inductionHypothesis nodupRest]

theorem Sound.renew {table : List (Key × Nat)} (sound : Sound table) (positive : 0 < term)
    (key : Key) : Sound (Leases.renew term key table) := by
  refine ⟨?_, fun lease member => ?_⟩
  · rw [keys_renew]
    split_ifs with present
    · exact sound.nodup
    · exact List.nodup_append.mpr ⟨sound.nodup, List.nodup_singleton key, fun other member new
        isNew equal => present (List.mem_singleton.mp isNew ▸ equal ▸ member)⟩
  · obtain ⟨other, n⟩ := lease
    by_cases same : other = key
    · rw [same, mem_renew_self term sound.nodup] at member
      rw [member]
      exact positive
    · exact sound.positive _ ((mem_renew_other term same n table).mp member)

/-- What is left after the renewals of a round. -/
theorem mem_foldl_renew {table : List (Key × Nat)} (sound : Sound table) (positive : 0 < term)
    (keys : List Key) :
    Sound (keys.foldl (fun table key => Leases.renew term key table) table) ∧
      ∀ key n, (key, n) ∈ keys.foldl (fun table key => Leases.renew term key table) table ↔
        if key ∈ keys then n = term else (key, n) ∈ table := by
  induction keys generalizing table with
  | nil => exact ⟨sound, fun key n => by rw [if_neg List.not_mem_nil]; rfl⟩
  | cons first keys inductionHypothesis =>
    obtain ⟨kept, members⟩ := inductionHypothesis (sound.renew term positive first)
    refine ⟨kept, fun key n => ?_⟩
    rw [List.foldl_cons, members]
    by_cases later : key ∈ keys
    · rw [if_pos later, if_pos (List.mem_cons_of_mem _ later)]
    · rw [if_neg later]
      by_cases same : key = first
      · rw [same, if_pos List.mem_cons_self, mem_renew_self term sound.nodup]
      · rw [mem_renew_other term same, if_neg fun member =>
          later ((List.mem_cons.mp member).resolve_left same)]

/-! ### Rounds -/

omit [DecidableEq Key] in
theorem mem_expire {table : List (Key × Nat)} (sound : Sound table) (key : Key) (n : Nat) :
    (key, n) ∈ expire table ↔ 0 < n ∧ (key, n + 1) ∈ table := by
  unfold expire
  rw [List.mem_map]
  constructor
  · rintro ⟨lease, member, equal⟩
    obtain ⟨inTable, notOne⟩ := List.mem_filter.mp member
    obtain ⟨rfl, rfl⟩ := Prod.mk.inj equal
    have positive := sound.positive lease inTable
    have more : lease.2 ≠ 1 := of_decide_eq_true notOne
    refine ⟨by omega, ?_⟩
    rwa [Nat.sub_add_cancel positive]
  · rintro ⟨positive, member⟩
    exact ⟨_, List.mem_filter.mpr ⟨member, decide_eq_true (by omega)⟩, rfl⟩

omit [DecidableEq Key] in
theorem Sound.expire {table : List (Key × Nat)} (sound : Sound table) :
    Sound (Leases.expire table) := by
  refine ⟨?_, fun lease member => ((mem_expire sound lease.1 lease.2).mp member).1⟩
  rw [Leases.expire, List.map_map]
  exact sound.nodup.sublist (List.filter_sublist.map _)

/-- The table after some rounds and one more. -/
theorem rounds_concat (history : List (List Key)) (keys : List Key) :
    rounds term (history ++ [keys]) = round term (rounds term history) keys := by
  rw [rounds, List.foldl_append]
  rfl

/-- What the table holds after some rounds. -/
theorem mem_rounds (positive : 0 < term) (history : List (List Key)) :
    Sound (rounds term history) ∧ ∀ key n,
      (key, n) ∈ rounds term history ↔ 0 < n ∧ n = left term key history.reverse := by
  induction history using List.reverseRecOn with
  | nil =>
    refine ⟨⟨List.nodup_nil, fun lease member => by cases member⟩, fun key n => ?_⟩
    refine iff_of_false List.not_mem_nil fun both => ?_
    rw [List.reverse_nil, left] at both
    omega
  | append_singleton history keys inductionHypothesis =>
    obtain ⟨sound, members⟩ := inductionHypothesis
    obtain ⟨soundMiddle, renewed⟩ := mem_foldl_renew term sound positive keys
    refine ⟨by rw [rounds_concat]; exact soundMiddle.expire, fun key n => ?_⟩
    rw [rounds_concat, round, mem_expire soundMiddle, renewed, List.reverse_concat, left]
    refine and_congr_right fun more => ?_
    split_ifs with present
    · omega
    · rw [members]
      omega

/-- When a number of rounds is left of a lease at least. -/
theorem lt_left_iff (key : Key) (recent : List (List Key)) (n : Nat) :
    n < left term key recent ↔ ∃ keys ∈ recent.take (term - 1 - n), key ∈ keys := by
  induction recent generalizing n with
  | nil => simp [left]
  | cons keys earlier inductionHypothesis =>
    rw [left]
    split_ifs with present
    · cases rounds : term - 1 - n with
      | zero =>
        rw [List.take_zero]
        exact iff_of_false (by omega) fun ⟨_, member, _⟩ => List.not_mem_nil member
      | succ more =>
        rw [List.take_succ_cons]
        exact iff_of_true (by omega) ⟨keys, List.mem_cons_self, present⟩
    · rw [Nat.lt_sub_iff_add_lt, inductionHypothesis, ← Nat.sub_sub]
      cases term - 1 - n with
      | zero => rfl
      | succ more =>
        rw [List.take_succ_cons, Nat.add_sub_cancel]
        simp [present]

/-- A key is in the table just when one of the last rounds renewed its lease. -/
theorem mem_keys_rounds_iff (positive : 0 < term) (history : List (List Key)) (key : Key) :
    key ∈ (rounds term history).map Prod.fst ↔
      ∃ keys ∈ history.reverse.take (term - 1), key ∈ keys := by
  obtain ⟨-, members⟩ := mem_rounds term positive history
  refine Iff.trans ?_ (lt_left_iff term key history.reverse 0)
  rw [List.mem_map]
  constructor
  · rintro ⟨lease, member, rfl⟩
    obtain ⟨more, same⟩ := (members lease.1 lease.2).mp member
    rwa [same] at more
  · exact fun more => ⟨(key, left term key history.reverse), (members _ _).mpr ⟨more, rfl⟩, rfl⟩

/-! ### Tables of leases that items hold -/

section Holders

variable {Item : Type*} {lease after : Item → Option (Key × Nat)} {items : List Item}

/-- An item gets a new lease where it is the first with its key. -/
theorem filterMap_renew {key : Key} {item : Item} (nodup : items.Nodup)
    (found : items.find? (fun other => (lease other).any fun held => held.1 = key) = some item)
    (renewed : after item = some (key, term)) (others : ∀ other, other ≠ item →
      after other = lease other) :
    items.filterMap after = renew term key (items.filterMap lease) := by
  induction items with
  | nil => cases found
  | cons first rest inductionHypothesis =>
    obtain ⟨fresh, nodupRest⟩ := List.nodup_cons.mp nodup
    rw [List.find?_cons] at found
    cases held : lease first with
    | none =>
      rw [held, Option.any_none] at found
      have other : first ≠ item := fun same => fresh (same ▸ List.mem_of_find?_eq_some found)
      rw [List.filterMap_cons_none held, List.filterMap_cons_none ((others _ other).trans held)]
      exact inductionHypothesis nodupRest found
    | some entry =>
      rw [held, Option.any_some] at found
      rw [List.filterMap_cons_some held, renew]
      by_cases same : entry.1 = key
      · rw [decide_eq_true same] at found
        obtain rfl := Option.some.inj found
        have apart : ∀ other ∈ rest, after other = lease other := fun other member =>
          others other fun equal => fresh (equal ▸ member)
        rw [List.filterMap_cons_some renewed, if_pos same, List.filterMap_congr apart]
      · rw [decide_eq_false same] at found
        have other : first ≠ item := fun equal => fresh (equal ▸ List.mem_of_find?_eq_some found)
        rw [List.filterMap_cons_some ((others _ other).trans held), if_neg same,
          inductionHypothesis nodupRest found]

/-- No item has the key just when the table does not. -/
theorem find?_eq_none_iff {key : Key} :
    items.find? (fun other => (lease other).any fun held => held.1 = key) = none ↔
      key ∉ (items.filterMap lease).map Prod.fst := by
  rw [List.find?_eq_none, List.mem_map]
  constructor
  · rintro none ⟨held, member, rfl⟩
    obtain ⟨item, isItem, holds⟩ := List.mem_filterMap.mp member
    exact none item isItem (by rw [holds, Option.any_some]; exact decide_eq_true rfl)
  · intro absent item isItem has
    obtain ⟨held, holds, same⟩ := (Option.any_eq_true _ _).mp has
    exact absent ⟨held, List.mem_filterMap.mpr ⟨item, isItem, holds⟩, of_decide_eq_true same⟩

/-- A key without a lease gets one at the end. -/
theorem renew_eq_append {key : Key} {table : List (Key × Nat)}
    (absent : key ∉ table.map Prod.fst) : renew term key table = table ++ [(key, term)] := by
  induction table with
  | nil => rfl
  | cons held rest inductionHypothesis =>
    obtain ⟨other, absentRest⟩ := not_or.mp (mt List.mem_cons.mpr absent)
    rw [renew, if_neg (Ne.symm other), inductionHypothesis absentRest, List.cons_append]

omit [DecidableEq Key] in
/-- The items that are left after a round hold what is left of their leases. -/
theorem filterMap_expire {stays : Item → Bool}
    (left : ∀ item ∈ items, ∀ held, lease item = some held →
      (stays item = true ↔ held.2 ≠ 1) ∧
        (stays item = true → after item = some (held.1, held.2 - 1)))
    (all : ∀ item ∈ items, (lease item).isSome) :
    (items.filter stays).filterMap after = expire (items.filterMap lease) := by
  induction items with
  | nil => rfl
  | cons item rest inductionHypothesis =>
    have others := inductionHypothesis
      (fun other member => left other (List.mem_cons_of_mem _ member))
      fun other member => all other (List.mem_cons_of_mem _ member)
    obtain ⟨held, holds⟩ := Option.isSome_iff_exists.mp (all item List.mem_cons_self)
    obtain ⟨staysIff, kept⟩ := left item List.mem_cons_self held holds
    unfold expire at others ⊢
    rw [List.filterMap_cons_some holds, List.filter_cons, List.filter_cons]
    by_cases more : held.2 ≠ 1
    · have stay := staysIff.mpr more
      rw [if_pos stay, if_pos (decide_eq_true more), List.filterMap_cons_some (kept stay), others]
      rfl
    · rw [if_neg (mt staysIff.mp more), if_neg (mt of_decide_eq_true more), others]

end Holders

end Leases
