/-
This file is a small library on lists that are kept in order by insertion, with two keys that
belong to the front.

An entry is put before the first entry of the list it comes before. Among ordinary entries
that is decided by a rank. A comparison that knows the two keys only by the entry that is
already in the list keeps every entry from being put before a key, but it does not move a key
that arrives late: that is inserted by its rank. `arranged_arrange_iff` says which orders of
arrival end with the keys at the front, and `arrange_eq_of_perm` that they all end with the
same list if no two entries have one rank.
-/

import Mathlib.Data.List.Perm.Basic
import Mathlib.Data.List.Nodup
import Mathlib.Data.List.Induction
import Mathlib.Order.Lattice

namespace KeyedOrder

variable {Entry Rank : Type*} [DecidableEq Entry] [LinearOrder Rank]
variable (major minor : Entry) (rank : Entry → Rank)

/-! ### Insertion -/

/-- Whether a new entry is put before one of the list. Nothing is put before the major key,
and only the major key before the minor one. -/
def Before (new old : Entry) : Prop :=
  if old = major then False else if old = minor then new = major else rank new < rank old

instance (new old : Entry) : Decidable (Before major minor rank new old) :=
  inferInstanceAs (Decidable (if old = major then False
    else if old = minor then new = major else rank new < rank old))

/-- A new entry goes before the first entry it comes before. -/
def insert (new : Entry) : List Entry → List Entry
  | [] => [new]
  | old :: rest =>
    if Before major minor rank new old then new :: old :: rest
    else old :: insert new rest

/-- The list after entries have arrived in some order. -/
def arrange (arrivals : List Entry) : List Entry :=
  arrivals.foldl (fun list new => insert major minor rank new list) []

/-- An entry that is no key. -/
def Ordinary (entry : Entry) : Prop := entry ≠ major ∧ entry ≠ minor

instance (entry : Entry) : Decidable (Ordinary major minor entry) :=
  inferInstanceAs (Decidable (_ ∧ _))

/-- The keys of a list, as they belong to its front. -/
def keys (list : List Entry) : List Entry :=
  (if major ∈ list then [major] else []) ++
    (if minor ∈ list ∧ minor ≠ major then [minor] else [])

/-- The entries of a list that are no keys. -/
def others (list : List Entry) : List Entry :=
  list.filter fun entry => Ordinary major minor entry

/-- The keys are at the front. -/
def Front (list : List Entry) : Prop :=
  list = keys major minor list ++ others major minor list

/-- The keys are at the front, and behind them the ranks ascend. -/
structure Arranged (list : List Entry) : Prop where
  front : Front major minor list
  ascending : (others major minor list).Pairwise fun first second => rank first ≤ rank second

/-- The keys arrive in time: the major key when the minor one is there or only entries of
higher rank are, the minor key when, apart from the major one, only entries of higher rank
are. -/
structure InTime (arrivals : List Entry) : Prop where
  ofMajor : ∀ before after, arrivals = before ++ major :: after →
    minor ∈ before ∨ ∀ entry ∈ before, rank major < rank entry
  ofMinor : ∀ before after, arrivals = before ++ minor :: after →
    minor = major ∨ ∀ entry ∈ before, entry = major ∨ rank minor < rank entry

theorem arrange_concat (arrivals : List Entry) (new : Entry) :
    arrange major minor rank (arrivals ++ [new]) =
      insert major minor rank new (arrange major minor rank arrivals) := by
  rw [arrange, List.foldl_append, List.foldl_cons, List.foldl_nil]
  rfl

theorem insert_perm (new : Entry) (list : List Entry) :
    (insert major minor rank new list).Perm (new :: list) := by
  induction list with
  | nil => exact List.Perm.refl _
  | cons old rest inductionHypothesis =>
    unfold insert
    split
    · exact List.Perm.refl _
    · exact (inductionHypothesis.cons old).trans (List.Perm.swap new old rest)

/-- The list holds what has arrived. -/
theorem arrange_perm (arrivals : List Entry) :
    (arrange major minor rank arrivals).Perm arrivals := by
  induction arrivals using List.reverseRecOn with
  | nil => exact List.Perm.refl _
  | append_singleton arrivals new inductionHypothesis =>
    rw [arrange_concat]
    exact (insert_perm major minor rank new _).trans
      ((inductionHypothesis.cons new).trans (List.perm_append_singleton new arrivals).symm)

theorem mem_insert {new entry : Entry} {list : List Entry} :
    entry ∈ insert major minor rank new list ↔ entry = new ∨ entry ∈ list := by
  rw [(insert_perm major minor rank new list).mem_iff, List.mem_cons]

/-- A property the new entry lacks selects what it selected before. -/
theorem filter_insert_of_not {property : Entry → Bool} {new : Entry}
    (lacks : property new = false) (list : List Entry) :
    (insert major minor rank new list).filter property = list.filter property := by
  induction list with
  | nil => rw [insert, List.filter_cons_of_neg (by rw [lacks]; decide)]
  | cons old rest inductionHypothesis =>
    unfold insert
    split
    · rw [List.filter_cons_of_neg (by rw [lacks]; decide)]
    · rw [List.filter_cons, List.filter_cons, inductionHypothesis]

/-- Entries the new one does not come before are passed. -/
theorem insert_append {new : Entry} {passed : List Entry}
    (notBefore : ∀ old ∈ passed, ¬Before major minor rank new old) (list : List Entry) :
    insert major minor rank new (passed ++ list) =
      passed ++ insert major minor rank new list := by
  induction passed with
  | nil => rfl
  | cons old rest inductionHypothesis =>
    rw [List.cons_append, insert, if_neg (notBefore old List.mem_cons_self),
      inductionHypothesis fun other member => notBefore other (List.mem_cons_of_mem _ member),
      List.cons_append]

/-! ### The ordinary entries -/

theorem before_of_ordinary {new old : Entry} (ordinary : Ordinary major minor old) :
    Before major minor rank new old ↔ rank new < rank old := by
  unfold Before
  rw [if_neg ordinary.1, if_neg ordinary.2]

/-- No ordinary entry comes before a key. -/
theorem not_before_key {new old : Entry} (ordinary : Ordinary major minor new)
    (key : ¬Ordinary major minor old) : ¬Before major minor rank new old := by
  unfold Before
  by_cases isMajor : old = major
  · rw [if_pos isMajor]
    exact id
  · have isMinor : old = minor := by
      by_contra other
      exact key ⟨isMajor, other⟩
    rw [if_neg isMajor, if_pos isMinor]
    exact ordinary.1

theorem others_cons_of_ordinary {entry : Entry} (ordinary : Ordinary major minor entry)
    (rest : List Entry) :
    others major minor (entry :: rest) = entry :: others major minor rest :=
  List.filter_cons_of_pos (by simpa using ordinary)

theorem others_cons_of_key {entry : Entry} (key : ¬Ordinary major minor entry)
    (rest : List Entry) : others major minor (entry :: rest) = others major minor rest :=
  List.filter_cons_of_neg (by simpa using key)

/-- An ordinary entry takes its place among the ordinary entries, wherever the keys are. -/
theorem others_insert {new : Entry} (ordinary : Ordinary major minor new) (list : List Entry) :
    others major minor (insert major minor rank new list) =
      insert major minor rank new (others major minor list) := by
  induction list with
  | nil => exact others_cons_of_ordinary major minor ordinary []
  | cons old rest inductionHypothesis =>
    by_cases key : Ordinary major minor old
    · rw [others_cons_of_ordinary major minor key, insert, insert]
      split
      · rw [others_cons_of_ordinary major minor ordinary, others_cons_of_ordinary major minor key]
      · rw [others_cons_of_ordinary major minor key, inductionHypothesis]
    · rw [insert, if_neg (not_before_key major minor rank ordinary key),
        others_cons_of_key major minor key, others_cons_of_key major minor key,
        inductionHypothesis]

/-- Insertion keeps ascending ordinary entries ascending. -/
theorem ascending_insert (new : Entry) {list : List Entry}
    (ordinary : ∀ entry ∈ list, Ordinary major minor entry)
    (ascending : list.Pairwise fun first second => rank first ≤ rank second) :
    (insert major minor rank new list).Pairwise fun first second => rank first ≤ rank second := by
  induction list with
  | nil => exact List.pairwise_singleton _ _
  | cons old rest inductionHypothesis =>
    obtain ⟨least, rising⟩ := List.pairwise_cons.mp ascending
    rw [insert]
    split
    · rename_i before
      have below :=
        (before_of_ordinary major minor rank (ordinary old List.mem_cons_self)).mp before
      refine List.pairwise_cons.mpr ⟨fun entry member => ?_, ascending⟩
      rcases List.mem_cons.mp member with rfl | later
      · exact below.le
      · exact below.le.trans (least entry later)
    · rename_i notBefore
      rw [before_of_ordinary major minor rank (ordinary old List.mem_cons_self),
        not_lt] at notBefore
      refine List.pairwise_cons.mpr ⟨fun entry member => ?_,
        inductionHypothesis (fun entry member => ordinary entry (List.mem_cons_of_mem _ member))
          rising⟩
      rcases (mem_insert major minor rank).mp member with rfl | later
      · exact notBefore
      · exact least entry later

theorem ordinary_of_mem_others {list : List Entry} {entry : Entry}
    (member : entry ∈ others major minor list) : Ordinary major minor entry :=
  of_decide_eq_true (List.mem_filter.mp member).2

/-- The ordinary entries always ascend. -/
theorem ascending_arrange (arrivals : List Entry) :
    (others major minor (arrange major minor rank arrivals)).Pairwise
      fun first second => rank first ≤ rank second := by
  induction arrivals using List.reverseRecOn with
  | nil => exact List.Pairwise.nil
  | append_singleton arrivals new inductionHypothesis =>
    rw [arrange_concat]
    by_cases ordinary : Ordinary major minor new
    · rw [others_insert major minor rank ordinary]
      exact ascending_insert major minor rank new
        (fun entry => ordinary_of_mem_others major minor) inductionHypothesis
    · rw [others, filter_insert_of_not major minor rank (by simpa using ordinary)]
      exact inductionHypothesis

/-- An entry comes to the front of ascending ordinary entries exactly if its rank is below all
of theirs. -/
theorem insert_eq_cons_iff (new : Entry) {list : List Entry} (absent : new ∉ list)
    (ordinary : ∀ entry ∈ list, Ordinary major minor entry)
    (ascending : list.Pairwise fun first second => rank first ≤ rank second) :
    insert major minor rank new list = new :: list ↔ ∀ entry ∈ list, rank new < rank entry := by
  cases list with
  | nil => simp [insert]
  | cons old rest =>
    have first : Before major minor rank new old ↔ rank new < rank old :=
      before_of_ordinary major minor rank (ordinary old List.mem_cons_self)
    rw [insert]
    constructor
    · intro same
      by_cases before : Before major minor rank new old
      · have below := first.mp before
        intro entry member
        rcases List.mem_cons.mp member with rfl | later
        · exact below
        · exact lt_of_lt_of_le below ((List.pairwise_cons.mp ascending).1 entry later)
      · rw [if_neg before] at same
        exact absurd (List.cons.inj same).1.symm (List.ne_of_not_mem_cons absent)
    · intro below
      rw [if_pos (first.mpr (below old List.mem_cons_self))]

/-! ### The front -/

theorem mem_others_iff {list : List Entry} {entry : Entry} :
    entry ∈ others major minor list ↔ entry ∈ list ∧ Ordinary major minor entry := by
  rw [others, List.mem_filter, decide_eq_true_iff]

/-- Removing entries takes the keys among them from the front. -/
theorem keys_filter (property : Entry → Bool) (list : List Entry) :
    keys major minor (list.filter property) = (keys major minor list).filter property := by
  unfold keys
  rw [List.filter_append]
  congr 1
  · by_cases member : major ∈ list <;> by_cases kept : property major = true <;>
      simp [List.mem_filter, member, kept]
  · by_cases member : minor ∈ list ∧ minor ≠ major <;> by_cases kept : property minor = true <;>
      simp [List.mem_filter, member, kept]

/-- A list with its keys at the front keeps them there when entries are removed. -/
theorem Front.filter {list : List Entry} (front : Front major minor list)
    (property : Entry → Bool) : Front major minor (list.filter property) := by
  unfold Front at front ⊢
  conv_lhs => rw [front, List.filter_append]
  rw [keys_filter, others, others, List.filter_filter, List.filter_filter]
  simp only [Bool.and_comm]

/-- So a list whose keys are at the front after an insertion had them there before. -/
theorem front_of_insert {new : Entry} {list : List Entry} (absent : new ∉ list)
    (front : Front major minor (insert major minor rank new list)) : Front major minor list := by
  have removed := front.filter major minor fun entry => decide (entry ≠ new)
  rwa [filter_insert_of_not major minor rank (by simp), List.filter_eq_self.mpr] at removed
  intro entry member
  simpa using fun same : entry = new => absent (same ▸ member)

theorem keys_insert_of_ordinary {new : Entry} (ordinary : Ordinary major minor new)
    (list : List Entry) :
    keys major minor (insert major minor rank new list) = keys major minor list := by
  unfold keys
  simp only [mem_insert, ordinary.1.symm, ordinary.2.symm, false_or]

/-- An ordinary entry leaves the keys at the front. -/
theorem front_insert_of_ordinary {new : Entry} (ordinary : Ordinary major minor new)
    {list : List Entry} (front : Front major minor list) :
    Front major minor (insert major minor rank new list) := by
  unfold Front
  rw [keys_insert_of_ordinary major minor rank ordinary,
    others_insert major minor rank ordinary]
  conv_lhs => rw [front]
  refine insert_append major minor rank (fun old member => ?_) _
  refine not_before_key major minor rank ordinary fun plain => ?_
  unfold keys at member
  simp only [List.mem_append] at member
  rcases member with first | second
  · split at first
    · exact plain.1 (List.mem_singleton.mp first)
    · exact absurd first List.not_mem_nil
  · split at second
    · exact plain.2 (List.mem_singleton.mp second)
    · exact absurd second List.not_mem_nil

theorem others_insert_of_key {new : Entry} (key : ¬Ordinary major minor new)
    (list : List Entry) :
    others major minor (insert major minor rank new list) = others major minor list :=
  filter_insert_of_not major minor rank (by simpa using key) list

/-- The major key comes to the front if the minor key is there, and otherwise if its rank is
below those of all entries. -/
theorem front_insert_major_iff {list : List Entry} (absent : major ∉ list)
    (ascending : (others major minor list).Pairwise
      fun first second => rank first ≤ rank second) (front : Front major minor list) :
    Front major minor (insert major minor rank major list) ↔
      minor ∈ list ∨ ∀ entry ∈ list, rank major < rank entry := by
  have key : ¬Ordinary major minor major := fun plain => plain.1 rfl
  unfold Front at front ⊢
  rw [others_insert_of_key major minor rank key]
  by_cases present : minor ∈ list
  · have apart : minor ≠ major := fun same => absent (same ▸ present)
    refine iff_of_true ?_ (Or.inl present)
    have before : keys major minor list = [minor] := by
      simp [keys, absent, present, apart]
    have after : keys major minor (insert major minor rank major list) = [major, minor] := by
      simp [keys, mem_insert, present, apart]
    rw [after]
    conv_lhs => rw [front, before]
    rw [List.singleton_append, insert, if_pos]
    · rfl
    · unfold Before
      rw [if_neg apart, if_pos rfl]
  · have before : keys major minor list = [] := by simp [keys, absent, present]
    have after : keys major minor (insert major minor rank major list) = [major] := by
      by_cases same : minor = major <;> simp [keys, mem_insert, present, same]
    rw [before, List.nil_append] at front
    rw [after, ← front, List.singleton_append, or_iff_right present]
    refine insert_eq_cons_iff major minor rank major absent (fun entry member => ?_)
      (by rwa [← front] at ascending)
    rw [front] at member
    exact ordinary_of_mem_others major minor member

/-- The minor key comes to its place if its rank is below those of all other entries. -/
theorem front_insert_minor_iff (apart : minor ≠ major) {list : List Entry}
    (absent : minor ∉ list)
    (ascending : (others major minor list).Pairwise
      fun first second => rank first ≤ rank second) (front : Front major minor list) :
    Front major minor (insert major minor rank minor list) ↔
      ∀ entry ∈ list, entry = major ∨ rank minor < rank entry := by
  have key : ¬Ordinary major minor minor := fun plain => plain.2 rfl
  have passed : ∀ old ∈ keys major minor list, ¬Before major minor rank minor old := by
    intro old member
    simp only [keys, absent, false_and, if_false, List.append_nil] at member
    split at member
    · unfold Before
      rw [if_pos (List.mem_singleton.mp member)]
      exact id
    · exact absurd member List.not_mem_nil
  have after : keys major minor (insert major minor rank minor list) =
      keys major minor list ++ [minor] := by
    simp [keys, mem_insert, absent, apart, apart.symm]
  have place : insert major minor rank minor list =
      keys major minor list ++ insert major minor rank minor (others major minor list) := by
    conv_lhs => rw [front]
    exact insert_append major minor rank passed _
  unfold Front
  rw [others_insert_of_key major minor rank key, after, place, List.append_assoc,
    List.append_cancel_left_eq, List.singleton_append,
    insert_eq_cons_iff major minor rank minor
      (fun member => absent ((mem_others_iff major minor).mp member).1)
      (fun entry => ordinary_of_mem_others major minor) ascending]
  refine ⟨fun below entry member => ?_, fun below entry member => ?_⟩
  · by_cases isMajor : entry = major
    · exact Or.inl isMajor
    · refine Or.inr (below entry ((mem_others_iff major minor).mpr ⟨member, isMajor, ?_⟩))
      exact fun isMinor => absent (isMinor ▸ member)
  · obtain ⟨inList, ordinary⟩ := (mem_others_iff major minor).mp member
    exact (below entry inList).resolve_left ordinary.1

/-! ### Orders of arrival -/

omit [DecidableEq Entry] in
/-- What holds where an entry arrives holds of the arrivals so far, and of the last one. -/
theorem forall_split_concat (arrivals : List Entry) (new key : Entry)
    (property : List Entry → Prop) :
    (∀ before after, arrivals ++ [new] = before ++ key :: after → property before) ↔
      (∀ before after, arrivals = before ++ key :: after → property before) ∧
        (new = key → property arrivals) := by
  constructor
  · intro holds
    refine ⟨fun before after same => holds before (after ++ [new]) ?_, fun same => ?_⟩
    · rw [same, List.append_assoc, List.cons_append]
    · exact holds arrivals [] (by rw [same])
  · rintro ⟨earlier, last⟩ before after same
    rcases List.eq_nil_or_concat after with rfl | ⟨after', final, rfl⟩
    · obtain ⟨rfl, isKey⟩ := List.append_inj' same rfl
      exact last (List.singleton_inj.mp isKey)
    · rw [List.concat_eq_append, ← List.cons_append, ← List.append_assoc] at same
      obtain ⟨rfl, -⟩ := List.append_inj' same rfl
      exact earlier before after' rfl

omit [DecidableEq Entry] in
theorem inTime_concat_iff (arrivals : List Entry) (new : Entry) :
    InTime major minor rank (arrivals ++ [new]) ↔ InTime major minor rank arrivals ∧
      (new = major → minor ∈ arrivals ∨ ∀ entry ∈ arrivals, rank major < rank entry) ∧
      (new = minor →
        minor = major ∨ ∀ entry ∈ arrivals, entry = major ∨ rank minor < rank entry) := by
  have splitMajor := forall_split_concat arrivals new major fun before =>
    minor ∈ before ∨ ∀ entry ∈ before, rank major < rank entry
  have splitMinor := forall_split_concat arrivals new minor fun before =>
    minor = major ∨ ∀ entry ∈ before, entry = major ∨ rank minor < rank entry
  constructor
  · rintro ⟨ofMajor, ofMinor⟩
    obtain ⟨majorBefore, majorNow⟩ := splitMajor.mp ofMajor
    obtain ⟨minorBefore, minorNow⟩ := splitMinor.mp ofMinor
    exact ⟨⟨majorBefore, minorBefore⟩, majorNow, minorNow⟩
  · rintro ⟨⟨majorBefore, minorBefore⟩, majorNow, minorNow⟩
    exact ⟨splitMajor.mpr ⟨majorBefore, majorNow⟩, splitMinor.mpr ⟨minorBefore, minorNow⟩⟩

/-- The list has its keys at the front exactly if they arrived in time. -/
theorem front_arrange_iff {arrivals : List Entry} (distinct : arrivals.Nodup) :
    Front major minor (arrange major minor rank arrivals) ↔
      InTime major minor rank arrivals := by
  induction arrivals using List.reverseRecOn with
  | nil => exact iff_of_true rfl ⟨by simp, by simp⟩
  | append_singleton arrivals new inductionHypothesis =>
    obtain ⟨earlier, -, apart⟩ := List.nodup_append.mp distinct
    have members := arrange_perm major minor rank arrivals
    have absent : new ∉ arrange major minor rank arrivals := fun member =>
      apart new (members.mem_iff.mp member) new List.mem_cons_self rfl
    have ascending := ascending_arrange major minor rank arrivals
    rw [arrange_concat, inTime_concat_iff, ← inductionHypothesis earlier]
    simp only [← members.mem_iff]
    constructor
    · intro front
      have before := front_of_insert major minor rank absent front
      refine ⟨before, fun isMajor => ?_, fun isMinor => ?_⟩
      · subst isMajor
        exact (front_insert_major_iff new minor rank absent ascending before).mp front
      · subst isMinor
        by_cases same : new = major
        · exact Or.inl same
        · exact Or.inr
            ((front_insert_minor_iff major new rank same absent ascending before).mp front)
    · rintro ⟨before, whenMajor, whenMinor⟩
      by_cases isMajor : new = major
      · subst isMajor
        exact (front_insert_major_iff new minor rank absent ascending before).mpr
          (whenMajor rfl)
      · by_cases isMinor : new = minor
        · subst isMinor
          exact (front_insert_minor_iff major new rank isMajor absent ascending before).mpr
            ((whenMinor rfl).resolve_left isMajor)
        · exact front_insert_of_ordinary major minor rank ⟨isMajor, isMinor⟩ before

/-- After any arrivals, each of them once, the list is arranged exactly if the keys arrived in
time. -/
theorem arranged_arrange_iff {arrivals : List Entry} (distinct : arrivals.Nodup) :
    Arranged major minor rank (arrange major minor rank arrivals) ↔
      InTime major minor rank arrivals := by
  rw [← front_arrange_iff major minor rank distinct]
  exact ⟨Arranged.front, fun front => ⟨front, ascending_arrange major minor rank arrivals⟩⟩

/-- Two arranged lists of the same entries are equal if no two of these have one rank. -/
theorem Arranged.eq_of_perm {first second : List Entry}
    (firstArranged : Arranged major minor rank first)
    (secondArranged : Arranged major minor rank second) (same : first.Perm second)
    (apart : ∀ entry ∈ first, ∀ other ∈ first, rank entry = rank other → entry = other) :
    first = second := by
  have front : keys major minor first = keys major minor second := by
    unfold keys
    simp only [same.mem_iff]
  have rest : others major minor first = others major minor second := by
    refine (same.filter _).eq_of_pairwise ?_ firstArranged.ascending secondArranged.ascending
    intro entry other inFirst inSecond below above
    refine apart entry (List.mem_of_mem_filter inFirst) other
      (same.mem_iff.mpr (List.mem_of_mem_filter inSecond)) (le_antisymm below above)
  rw [firstArranged.front, secondArranged.front, front, rest]

end KeyedOrder
