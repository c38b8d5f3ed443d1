/-
This file is a small library on trees of leases that run out.

An entry is named by the path from it up to the top. A turn renews the leases at some paths, and
then takes one from all leases. Where nothing is left of a lease, the entry goes, and all that is
below it. So an entry is there just when a recent turn came to it, and what it is below has been
there ever since. Two trees whose turns come to the same entries below some tops agree there,
whatever they hold elsewhere; and where turns come to a top just as rounds renew a key, it has the
lease that the table of the rounds holds.
-/

import Bmon.Lib.Leases
import Mathlib.Data.List.Basic
import Mathlib.Data.Set.Insert

namespace LeaseTree

variable {Key : Type*}

/-- What is left of the lease at each path, where there is one. -/
abbrev Tree (Key : Type*) := List Key → Option Nat

/-- There is an entry at a path, or the path is that of the top. -/
def Present (tree : Tree Key) (path : List Key) : Prop := path = [] ∨ (tree path).isSome

/-- Something is left of every lease, and every entry is below an entry or at the top. -/
structure Sound (tree : Tree Key) : Prop where
  top : tree [] = none
  above : ∀ key path, (tree (key :: path)).isSome → Present tree path
  positive : ∀ path n, tree path = some n → 0 < n

/-- The paths lead to entries that are there or are below such ones. -/
structure Grounded (tree : Tree Key) (paths : Set (List Key)) : Prop where
  top : [] ∉ paths
  above : ∀ key path, key :: path ∈ paths → path ∈ paths ∨ Present tree path

open Classical in
/-- The leases at some paths are renewed, and those that are not there start. -/
noncomputable def renew (term : Nat) (paths : Set (List Key)) (tree : Tree Key) : Tree Key :=
  fun path => if path ∈ paths then some term else tree path

/-- Neither the lease at a path nor one above it is at its end. -/
def survives (tree : Tree Key) : List Key → Bool
  | [] => true
  | key :: path => decide (tree (key :: path) ≠ some 1) && survives tree path

/-- One is taken from every lease, and what is below an entry goes with it. -/
def expire (tree : Tree Key) : Tree Key := fun path =>
  if survives tree path then (tree path).map (· - 1) else none

/-! ### Renewals -/

section

variable {term : Nat} {tree : Tree Key} {paths : Set (List Key)}

theorem renew_of_mem {path : List Key} (member : path ∈ paths) :
    renew term paths tree path = some term := if_pos member

theorem renew_of_not_mem {path : List Key} (other : path ∉ paths) :
    renew term paths tree path = tree path := if_neg other

theorem renew_empty (term : Nat) (tree : Tree Key) : renew term ∅ tree = tree :=
  funext fun _ => renew_of_not_mem (Set.notMem_empty _)

/-- Of two renewals the last one counts. -/
theorem renew_renew_of_subset {first : Set (List Key)} (subset : first ⊆ paths) (other : Nat) :
    renew term paths (renew other first tree) = renew term paths tree := by
  funext path
  by_cases member : path ∈ paths
  · rw [renew_of_mem member, renew_of_mem member]
  · rw [renew_of_not_mem member, renew_of_not_mem member,
      renew_of_not_mem fun inFirst => member (subset inFirst)]

/-- One renewal after another is one of all the paths. -/
theorem renew_renew (term : Nat) (first second : Set (List Key)) (tree : Tree Key) :
    renew term second (renew term first tree) = renew term (first ∪ second) tree := by
  funext path
  by_cases inSecond : path ∈ second
  · rw [renew_of_mem inSecond, renew_of_mem (Set.mem_union_right first inSecond)]
  · rw [renew_of_not_mem inSecond]
    by_cases inFirst : path ∈ first
    · rw [renew_of_mem inFirst, renew_of_mem (Set.mem_union_left second inFirst)]
    · rw [renew_of_not_mem inFirst,
        renew_of_not_mem fun member => member.elim inFirst inSecond]

/-- Renewals one after the other are one of all their paths. -/
theorem foldl_renew {Step : Type*} (term : Nat) (paths : Step → Set (List Key))
    (steps : List Step) (tree : Tree Key) :
    steps.foldl (fun tree step => renew term (paths step) tree) tree =
      renew term {path | ∃ step ∈ steps, path ∈ paths step} tree := by
  induction steps generalizing tree with
  | nil =>
    have none : {path : List Key | ∃ step ∈ ([] : List Step), path ∈ paths step} = ∅ :=
      Set.eq_empty_of_forall_notMem fun _ ⟨_, member, _⟩ => List.not_mem_nil member
    rw [none, renew_empty]
    rfl
  | cons step steps inductionHypothesis =>
    rw [List.foldl_cons, inductionHypothesis, renew_renew]
    refine congrArg (renew term · tree) (Set.ext fun path => ?_)
    exact (List.exists_mem_cons_iff (fun step => path ∈ paths step) step steps).symm

/-- A lease that has the given term is renewed to it. -/
theorem renew_singleton_eq_self {path : List Key} (left : tree path = some term) :
    renew term {path} tree = tree := by
  funext other
  by_cases same : other = path
  · rw [same, renew_of_mem (Set.mem_singleton path), left]
  · exact renew_of_not_mem same

/-- What is renewed is there, and so is all that was. -/
theorem isSome_renew {path : List Key} :
    (renew term paths tree path).isSome ↔ path ∈ paths ∨ (tree path).isSome := by
  by_cases member : path ∈ paths
  · rw [renew_of_mem member]
    exact iff_of_true rfl (Or.inl member)
  · rw [renew_of_not_mem member, or_iff_right member]

theorem Sound.renew (sound : Sound tree) (grounded : Grounded tree paths) (positive : 0 < term) :
    Sound (LeaseTree.renew term paths tree) where
  top := (renew_of_not_mem grounded.top).trans sound.top
  above key path isSome := by
    rw [isSome_renew] at isSome
    have upper : path ∈ paths ∨ Present tree path :=
      isSome.elim (grounded.above key path) fun before => Or.inr (sound.above key path before)
    exact upper.elim (fun member => Or.inr (isSome_renew.mpr (Or.inl member)))
      (Or.imp_right fun before => isSome_renew.mpr (Or.inr before))
  positive path n left := by
    by_cases member : path ∈ paths
    · rw [renew_of_mem member] at left
      exact Option.some.inj left ▸ positive
    · rw [renew_of_not_mem member] at left
      exact sound.positive path n left

/-- Paths that are grounded in a tree are so after other renewals. -/
theorem Grounded.union {other : Set (List Key)} (first : Grounded tree paths)
    (second : Grounded (LeaseTree.renew term paths tree) other) :
    Grounded tree (paths ∪ other) where
  top := fun member => member.elim first.top second.top
  above key path member := by
    rcases member with inFirst | inSecond
    · exact (first.above key path inFirst).imp_left (Set.mem_union_left other)
    · rcases second.above key path inSecond with member | rfl | isSome
      · exact Or.inl (Set.mem_union_right paths member)
      · exact Or.inr (Or.inl rfl)
      · exact (isSome_renew.mp isSome).imp (Set.mem_union_left other) Or.inr

end

/-! ### The end of leases -/

section

variable {tree : Tree Key}

/-- What is there after a turn has survived it. -/
theorem present_expire_iff {path : List Key} :
    Present (expire tree) path ↔ Present tree path ∧ survives tree path = true := by
  cases path with
  | nil => exact iff_of_true (Or.inl rfl) ⟨Or.inl rfl, rfl⟩
  | cons key path =>
    unfold Present expire
    by_cases left : survives tree (key :: path) = true
    · rw [if_pos left, Option.isSome_map, and_iff_left left]
    · rw [if_neg left]
      simp [left]

/-- What is left of a lease after a turn. -/
theorem expire_cons_eq_some_iff {key : Key} {path : List Key} {n : Nat} (sound : Sound tree) :
    expire tree (key :: path) = some n ↔
      0 < n ∧ tree (key :: path) = some (n + 1) ∧ Present (expire tree) path := by
  rw [present_expire_iff]
  unfold expire
  constructor
  · intro left
    split_ifs at left with both
    rw [survives, Bool.and_eq_true, decide_eq_true_iff] at both
    obtain ⟨m, before, rfl⟩ := Option.map_eq_some_iff.mp left
    have positive := sound.positive _ m before
    have notOne : m ≠ 1 := fun one => both.1 (one ▸ before)
    refine ⟨by omega, by rw [before, Nat.sub_add_cancel positive], ?_, both.2⟩
    exact sound.above key path (by rw [before, Option.isSome_some])
  · rintro ⟨positive, before, -, upper⟩
    have both : survives tree (key :: path) = true := by
      rw [survives, Bool.and_eq_true, decide_eq_true_iff, before]
      exact ⟨fun one => positive.ne' (Nat.succ.inj (Option.some.inj one)), upper⟩
    rw [if_pos both, before, Option.map_some, Nat.add_sub_cancel]

theorem Sound.expire (sound : Sound tree) : Sound (LeaseTree.expire tree) where
  top := by
    rw [LeaseTree.expire, sound.top, Option.map_none]
    exact ite_self none
  above key path isSome := by
    obtain ⟨n, left⟩ := Option.isSome_iff_exists.mp isSome
    exact ((expire_cons_eq_some_iff sound).mp left).2.2
  positive path n left := by
    cases path with
    | nil =>
      rw [LeaseTree.expire, sound.top, Option.map_none, ite_self] at left
      cases left
    | cons key path => exact ((expire_cons_eq_some_iff sound).mp left).1

end

/-! ### Turns -/

section

variable {Cycle : Type*} (term : Nat) (touched : Cycle → Tree Key → Set (List Key))

/-- A turn renews what it comes to. What it comes to may depend on what is there. -/
noncomputable def turn (tree : Tree Key) (c : Cycle) : Tree Key :=
  expire (renew term (touched c tree) tree)

/-- The tree after some turns, from an empty one. -/
noncomputable def after (cycles : List Cycle) : Tree Key :=
  cycles.foldl (turn term touched) fun _ => none

variable {term touched}

theorem after_concat (cycles : List Cycle) (c : Cycle) :
    after term touched (cycles ++ [c]) = turn term touched (after term touched cycles) c := by
  rw [after, List.foldl_append]
  rfl

variable (grounded : ∀ c tree, Sound tree → Grounded tree (touched c tree)) (positive : 0 < term)

include grounded positive

theorem sound_after (cycles : List Cycle) : Sound (after term touched cycles) := by
  induction cycles using List.reverseRecOn with
  | nil => exact ⟨rfl, nofun, nofun⟩
  | append_singleton cycles c inductionHypothesis =>
    rw [after_concat]
    exact (inductionHypothesis.renew (grounded c _ inductionHypothesis) positive).expire

/-- Of a lease that is there so much is left as the turns since it was renewed have left of it,
and what it is below has been there ever since. -/
theorem exists_renewal {cycles : List Cycle} {key : Key} {path : List Key} {n : Nat}
    (left : after term touched cycles (key :: path) = some n) :
    ∃ before c later, cycles = before ++ c :: later ∧ n + later.length + 1 = term ∧
      key :: path ∈ touched c (after term touched before) ∧
      ∀ further, further <+: later →
        Present (after term touched (before ++ c :: further)) path := by
  induction cycles using List.reverseRecOn generalizing n with
  | nil => cases left
  | append_singleton cycles c inductionHypothesis =>
    have sound := sound_after grounded positive cycles
    rw [after_concat] at left
    obtain ⟨-, renewed, upper⟩ :=
      (expire_cons_eq_some_iff (sound.renew (grounded c _ sound) positive)).mp left
    by_cases now : key :: path ∈ touched c (after term touched cycles)
    · rw [renew_of_mem now] at renewed
      refine ⟨cycles, c, [], rfl, (Option.some.inj renewed).symm, now, fun further isPrefix => ?_⟩
      rw [List.prefix_nil.mp isPrefix, after_concat]
      exact upper
    · rw [renew_of_not_mem now] at renewed
      obtain ⟨before, c', later, rfl, count, then', since⟩ := inductionHypothesis renewed
      refine ⟨before, c', later ++ [c], by rw [List.append_assoc, List.cons_append],
        by rw [List.length_append, List.length_singleton]; omega, then',
        fun further isPrefix => ?_⟩
      rcases List.prefix_concat_iff.mp isPrefix with rfl | inLater
      · rw [← List.cons_append, ← List.append_assoc, after_concat]
        exact upper
      · exact since further inLater

/-- A lease that was renewed in a recent turn is there, with no less than the turns since then
have left of it, if what it is below has been there ever since. -/
theorem left_of_renewal {before later : List Cycle} {c : Cycle} {key : Key} {path : List Key}
    (recent : later.length + 1 < term)
    (renewed : key :: path ∈ touched c (after term touched before))
    (since : ∀ further, further <+: later →
      Present (after term touched (before ++ c :: further)) path) :
    ∃ n, after term touched (before ++ c :: later) (key :: path) = some n ∧
      term ≤ n + later.length + 1 := by
  induction later using List.reverseRecOn with
  | nil =>
    have sound := sound_after grounded positive before
    have upper := since [] List.prefix_rfl
    rw [after_concat] at upper ⊢
    obtain ⟨n, rfl⟩ : ∃ n, term = n + 1 := ⟨term - 1, by omega⟩
    exact ⟨n, (expire_cons_eq_some_iff (sound.renew (grounded c _ sound) positive)).mpr
      ⟨by simpa using recent, renew_of_mem renewed, upper⟩, le_rfl⟩
  | append_singleton later next inductionHypothesis =>
    rw [List.length_append, List.length_singleton] at recent ⊢
    obtain ⟨n, left, enough⟩ := inductionHypothesis (by omega)
      fun further inLater => since further (inLater.trans (List.prefix_append later [next]))
    have sound := sound_after grounded positive (before ++ c :: later)
    have upper := since (later ++ [next]) List.prefix_rfl
    rw [← List.cons_append, ← List.append_assoc, after_concat] at upper ⊢
    have kept : ∃ m, n ≤ m + 1 ∧ 0 < m ∧ renew term (touched next (after term touched
        (before ++ c :: later))) (after term touched (before ++ c :: later)) (key :: path) =
          some (m + 1) := by
      by_cases now : key :: path ∈ touched next (after term touched (before ++ c :: later))
      · obtain ⟨m, rfl⟩ : ∃ m, term = m + 1 := ⟨term - 1, by omega⟩
        obtain ⟨_, _, since', _, count, _⟩ := exists_renewal grounded positive left
        exact ⟨m, by omega, by omega, renew_of_mem now⟩
      · obtain ⟨m, rfl⟩ : ∃ m, n = m + 1 := ⟨n - 1, by omega⟩
        exact ⟨m, le_rfl, by omega, (renew_of_not_mem now).trans left⟩
    obtain ⟨m, more, positiveLeft, renewedNow⟩ := kept
    exact ⟨m, (expire_cons_eq_some_iff (sound.renew (grounded next _ sound) positive)).mpr
      ⟨positiveLeft, renewedNow, upper⟩, by omega⟩

/-- A turn has come to what is there. -/
theorem touched_of_isSome {cycles : List Cycle} {path : List Key}
    (isSome : (after term touched cycles path).isSome) :
    ∃ c ∈ cycles, ∃ tree, path ∈ touched c tree := by
  cases path with
  | nil =>
    rw [(sound_after grounded positive cycles).top] at isSome
    cases isSome
  | cons key path =>
    obtain ⟨n, left⟩ := Option.isSome_iff_exists.mp isSome
    obtain ⟨before, c, later, rfl, -, renewed, -⟩ := exists_renewal grounded positive left
    exact ⟨c, List.mem_append_right before List.mem_cons_self, _, renewed⟩

/-- **Which entries are there.** An entry is there after some turns just when one of the last of
them came to it, as many as the term of a lease less one, and what it is below has been there ever
since. -/
theorem isSome_after_iff (cycles : List Cycle) (key : Key) (path : List Key) :
    (after term touched cycles (key :: path)).isSome ↔
      ∃ before c later, cycles = before ++ c :: later ∧ later.length + 1 < term ∧
        key :: path ∈ touched c (after term touched before) ∧
        ∀ further, further <+: later →
          Present (after term touched (before ++ c :: further)) path := by
  constructor
  · intro isSome
    obtain ⟨n, left⟩ := Option.isSome_iff_exists.mp isSome
    obtain ⟨before, c, later, rfl, count, renewed, since⟩ := exists_renewal grounded positive left
    have more := (sound_after grounded positive (before ++ c :: later)).positive _ n left
    exact ⟨before, c, later, rfl, by omega, renewed, since⟩
  · rintro ⟨before, c, later, rfl, recent, renewed, since⟩
    obtain ⟨n, left, -⟩ := left_of_renewal grounded positive recent renewed since
    rw [left, Option.isSome_some]

end

/-! ### Tops and tables of leases -/

/-- A top that the turns come to just when the rounds renew a key has the same lease. -/
theorem after_singleton_iff {Cycle : Type*} {Entry : Type*} [DecidableEq Entry] {term : Nat}
    {touched : Cycle → Tree Key → Set (List Key)}
    (grounded : ∀ c tree, Sound tree → Grounded tree (touched c tree)) (positive : 0 < term)
    {top : Key} {entry : Entry} (renewed : Cycle → List Entry) {cycles : List Cycle}
    (same : ∀ c ∈ cycles, ∀ tree, [top] ∈ touched c tree ↔ entry ∈ renewed c) (n : Nat) :
    after term touched cycles [top] = some n ↔
      (entry, n) ∈ Leases.rounds term (cycles.map renewed) := by
  induction cycles using List.reverseRecOn generalizing n with
  | nil => exact iff_of_false (fun left => by cases left) List.not_mem_nil
  | append_singleton cycles c inductionHypothesis =>
    have sound := sound_after grounded positive cycles
    obtain ⟨soundTable, members⟩ := Leases.mem_foldl_renew term
      (Leases.mem_rounds term positive (cycles.map renewed)).1 positive (renewed c)
    have here := same c (List.mem_append_right cycles List.mem_cons_self)
      (after term touched cycles)
    have before := inductionHypothesis (fun c member => same c (List.mem_append_left _ member))
      (n + 1)
    rw [after_concat, turn,
      expire_cons_eq_some_iff (sound.renew (grounded c _ sound) positive),
      and_iff_left (show Present _ [] from Or.inl rfl), List.map_append, List.map_cons,
      List.map_nil, Leases.rounds_concat, Leases.round, Leases.mem_expire soundTable, members]
    refine and_congr_right fun _ => ?_
    split_ifs with member
    · rw [renew_of_mem (here.mpr member), Option.some.injEq, eq_comm]
    · rw [renew_of_not_mem (mt here.mp member), before]

/-! ### Trees that agree below some tops -/

/-- A path leads to one of the given tops. -/
def Below (tops : Key → Prop) (path : List Key) : Prop := ∀ key ∈ path.getLast?, tops key

/-- Two trees agree at the paths that lead to the given tops. -/
def AgreeOn (tops : Key → Prop) (tree tree' : Tree Key) : Prop :=
  ∀ path, Below tops path → tree path = tree' path

section

variable {tops : Key → Prop} {tree tree' : Tree Key}

theorem below_singleton {key : Key} : Below tops [key] ↔ tops key :=
  ⟨fun below => below key rfl, fun isTop _ same => Option.some.inj same ▸ isTop⟩

theorem Below.tail {key : Key} {path : List Key} (below : Below tops (key :: path)) :
    Below tops path := by
  cases path with
  | nil =>
    intro top isLast
    cases isLast
  | cons next path =>
    intro top isLast
    exact below top (List.getLast?_cons_cons.trans isLast)

/-- What is below a path leads to the same top. -/
theorem Below.of_suffix {path further : List Key} (suffix : path <:+ further) (some : path ≠ [])
    (below : Below tops path) : Below tops further := by
  obtain ⟨front, rfl⟩ := suffix
  intro top isLast
  rw [List.getLast?_append_of_ne_nil front some] at isLast
  exact below top isLast

namespace AgreeOn

variable (agree : AgreeOn tops tree tree')

include agree

theorem renew {term : Nat} {paths paths' : Set (List Key)}
    (same : ∀ path, Below tops path → (path ∈ paths ↔ path ∈ paths')) :
    AgreeOn tops (LeaseTree.renew term paths tree) (LeaseTree.renew term paths' tree') := by
  intro path below
  by_cases member : path ∈ paths
  · rw [renew_of_mem member, renew_of_mem ((same path below).mp member)]
  · rw [renew_of_not_mem member, renew_of_not_mem (mt (same path below).mpr member),
      agree path below]

theorem survives {path : List Key} (below : Below tops path) :
    LeaseTree.survives tree path = LeaseTree.survives tree' path := by
  induction path with
  | nil => rfl
  | cons key path inductionHypothesis =>
    rw [LeaseTree.survives, LeaseTree.survives, agree _ below, inductionHypothesis below.tail]

theorem expire : AgreeOn tops (LeaseTree.expire tree) (LeaseTree.expire tree') := by
  intro path below
  rw [LeaseTree.expire, agree.survives below, agree path below, LeaseTree.expire]

end AgreeOn

/-- Turns that come to the same entries below the tops leave trees that agree there. -/
theorem agreeOn_after {Cycle : Type*} {term : Nat}
    {touched touched' : Cycle → Tree Key → Set (List Key)}
    (same : ∀ c tree tree', AgreeOn tops tree tree' → ∀ path, Below tops path →
      (path ∈ touched c tree ↔ path ∈ touched' c tree')) (cycles : List Cycle) :
    AgreeOn tops (after term touched cycles) (after term touched' cycles) := by
  induction cycles using List.reverseRecOn with
  | nil => exact fun _ _ => rfl
  | append_singleton cycles c inductionHypothesis =>
    rw [after_concat, after_concat]
    exact (inductionHypothesis.renew (same c _ _ inductionHypothesis)).expire

end

end LeaseTree
