/-
This file shows the elements of a group as a tree of leases.

An element is named by the path of the names and ids from it up to the top of its group. Its lease
runs for as many sweeps as its time to live leaves it. A lookup finds the element at a path or
starts its lease, a lifesign renews it, and a sweep takes one from all leases and frees with an
element all that is below it.
-/

import Bmon.Lib.LeaseTree
import Bmon.NetlinkLinks
import Bmon.ProcLeases

namespace Bmon

/-! ### Paths -/

/-- The name and the id of an element. -/
def Store.key (σ : Store) (e : ElementPtr) : Option LinkKey :=
  (σ.elements e).map fun r => (r.eName, r.eId)

/-- The number of the sweep that frees an element if nothing renews its lease. -/
def Store.sweeps (σ : Store) (e : ElementPtr) : Option Nat := (σ.eLifecycles e).map sweepsLeft

/-- The keys from an element up to the top of its group. Above all elements is the group itself. -/
inductive Store.HasPath (σ : Store) (g : GroupPtr) : Option ElementPtr → List LinkKey → Prop where
  | top : HasPath σ g none []
  | child {parent : Option ElementPtr} {path : List LinkKey} {e : ElementPtr} {key : LinkKey}
      (upper : HasPath σ g parent path) (inList : e ∈ σ.lists (listOf g parent))
      (isKey : σ.key e = some key) : HasPath σ g (some e) (key :: path)

/-- All elements of a group are at their paths in a later store as well. -/
def Store.KeepsPaths (g : GroupPtr) (σ σ' : Store) : Prop :=
  ∀ p path, σ.HasPath g p path → σ'.HasPath g p path

/-- The elements of a group are the entries of a tree of leases, and have names that are allowed. -/
structure Store.Branching (allows : CString → Bool) (g : GroupPtr)
    (tree : LeaseTree.Tree LinkKey) (σ : Store) : Prop where
  wf : σ.WellFormed
  isGroup : g ∈ σ.groupList
  policies : σ.allows = allows
  permitted : ∀ e key path, σ.HasPath g (some e) (key :: path) → allows key.1 = true
  distinct : ∀ path e e', σ.HasPath g (some e) path → σ.HasPath g (some e') path → e = e'
  leases : ∀ path n, tree path = some n ↔ ∃ e, σ.HasPath g (some e) path ∧ σ.sweeps e = some n

section

variable {g : GroupPtr} {σ σ' : Store} {path : List LinkKey}

theorem hasPath_cons_iff {e : ElementPtr} {key : LinkKey} :
    σ.HasPath g (some e) (key :: path) ↔
      ∃ parent, σ.HasPath g parent path ∧ e ∈ σ.lists (listOf g parent) ∧ σ.key e = some key :=
  ⟨fun | .child upper inList isKey => ⟨_, upper, inList, isKey⟩,
    fun ⟨_, upper, inList, isKey⟩ => .child upper inList isKey⟩

theorem listOf_injective {parent parent' : Option ElementPtr}
    (same : listOf g parent = listOf g parent') : parent = parent' := by
  cases parent <;> cases parent' <;> cases same <;> rfl

/-- The entries of a list are the elements that have their place in it. -/
theorem Store.WellFormed.mem_lists_iff (wf : σ.WellFormed) {head : ListHead} {e : ElementPtr} :
    e ∈ σ.lists head ↔ ∃ place, σ.place e = some place ∧ place.head = head := by
  refine ⟨wf.owned head e, ?_⟩
  rintro ⟨place, present, rfl⟩
  exact wf.linked e place present

namespace Store.HasPath

/-- Elements are at the same paths where neither the lists nor the keys change. -/
theorem congr {p : Option ElementPtr} (lists : σ'.lists = σ.lists) (keys : σ'.key = σ.key)
    (hasPath : σ.HasPath g p path) : σ'.HasPath g p path := by
  induction hasPath with
  | top => exact .top
  | child _ inList isKey upperHypothesis =>
    exact .child upperHypothesis (lists ▸ inList) (keys ▸ isKey)

theorem isSome {e : ElementPtr} (hasPath : σ.HasPath g (some e) path) :
    (σ.elements e).isSome := by
  cases hasPath with
  | child _ _ isKey =>
    obtain ⟨r, found, -⟩ := Option.map_eq_some_iff.mp isKey
    rw [found, Option.isSome_some]

/-- What is left to an element at a path. -/
theorem exists_sweeps {e : ElementPtr} (hasPath : σ.HasPath g (some e) path) :
    ∃ n, σ.sweeps e = some n := by
  obtain ⟨r, found⟩ := Option.isSome_iff_exists.mp hasPath.isSome
  exact ⟨sweepsLeft r.eLifecycles, by rw [Store.sweeps, Store.eLifecycles, found]; rfl⟩

/-- An element is at one path only. -/
theorem unique (wf : σ.WellFormed) {p : Option ElementPtr} {path' : List LinkKey}
    (hasPath : σ.HasPath g p path) (other : σ.HasPath g p path') : path = path' := by
  induction hasPath generalizing path' with
  | top =>
    cases other
    rfl
  | child _ inList isKey upperHypothesis =>
    cases other with
    | child upper' inList' isKey' =>
      obtain ⟨place, present, head⟩ := wf.owned _ _ inList
      obtain ⟨place', present', head'⟩ := wf.owned _ _ inList'
      obtain rfl := Option.some.inj (present.symm.trans present')
      obtain rfl := listOf_injective (head.symm.trans head')
      rw [upperHypothesis upper', Option.some.inj (isKey.symm.trans isKey')]

/-- An element at a path is in the group. -/
theorem eGroup (wf : σ.WellFormed) {e : ElementPtr} (hasPath : σ.HasPath g (some e) path) :
    σ.eGroup e = some g := by
  generalize isElement : some e = p at hasPath
  induction hasPath generalizing e with
  | top => cases isElement
  | @child parent _ _ _ upper inList _ upperHypothesis =>
    obtain rfl := Option.some.inj isElement
    cases parent with
    | none => exact wf.eGroup_of_mem inList
    | some p => exact (wf.eGroup_child inList).trans (upperHypothesis rfl)

theorem lt_next (wf : σ.WellFormed) {e : ElementPtr} (hasPath : σ.HasPath g (some e) path) :
    e < σ.nextElement := by
  cases hasPath with
  | child _ inList _ => exact wf.lt_of_mem inList

end Store.HasPath

theorem Store.KeepsPaths.refl (g : GroupPtr) (σ : Store) : Store.KeepsPaths g σ σ :=
  fun _ _ hasPath => hasPath

theorem Store.KeepsPaths.trans {σ'' : Store} (first : Store.KeepsPaths g σ σ')
    (second : Store.KeepsPaths g σ' σ'') : Store.KeepsPaths g σ σ'' :=
  fun p path hasPath => second p path (first p path hasPath)

/-- Every element of a group has a path. -/
theorem Store.WellFormed.exists_hasPath (wf : σ.WellFormed) {e : ElementPtr}
    (inGroup : σ.eGroup e = some g) : ∃ path, σ.HasPath g (some e) path := by
  induction e using Nat.strong_induction_on with
  | h e inductionHypothesis =>
    obtain ⟨⟨parent, group⟩, present, rfl⟩ := eGroup_eq_some_iff.mp inGroup
    obtain ⟨r, found, -⟩ := place_eq_some_iff.mp present
    have isKey : σ.key e = some (r.eName, r.eId) := by rw [Store.key, found, Option.map_some]
    have inList := wf.linked e _ present
    cases parent with
    | none => exact ⟨_, .child .top inList isKey⟩
    | some p =>
      obtain ⟨less, above, presentAbove, same⟩ := wf.parent e _ p present rfl
      obtain ⟨path, upper⟩ :=
        inductionHypothesis p less (eGroup_eq_some_iff.mpr ⟨above, presentAbove, same⟩)
      exact ⟨_, .child upper inList isKey⟩

/-- A group without elements is an empty tree. -/
theorem branching_empty (wf : σ.WellFormed) (isGroup : g ∈ σ.groupList)
    (empty : σ.lists (.ofGroup g) = []) : σ.Branching σ.allows g fun _ => none := by
  have none {p : Option ElementPtr} {path : List LinkKey} (hasPath : σ.HasPath g p path) :
      p = none := by
    induction hasPath with
    | top => rfl
    | child _ inList _ upperHypothesis =>
      rw [upperHypothesis, show listOf g none = .ofGroup g from rfl, empty] at inList
      cases inList
  refine ⟨wf, isGroup, rfl, fun e key path hasPath => ?_, fun path e e' hasPath => ?_,
    fun path n => iff_of_false (Option.some_ne_none n).symm ?_⟩
  · cases none hasPath
  · cases none hasPath
  · rintro ⟨e, hasPath, -⟩
    cases none hasPath

/-! ### Calls on one element -/

theorem Touches.key_eq {e : ElementPtr} (touches : Touches e σ σ') : σ'.key = σ.key := by
  funext x
  have same := congrArg (Option.map Prod.snd) (touches.identity_eq x)
  rw [Option.map_map, Option.map_map] at same
  exact same

theorem Touches.hasPath_iff {e : ElementPtr} (touches : Touches e σ σ') {p : Option ElementPtr} :
    σ'.HasPath g p path ↔ σ.HasPath g p path :=
  ⟨.congr touches.lists.symm touches.key_eq.symm, .congr touches.lists touches.key_eq⟩

theorem Touches.keepsPaths {e : ElementPtr} (touches : Touches e σ σ') :
    Store.KeepsPaths g σ σ' := fun _ _ => touches.hasPath_iff.mpr

theorem Touches.sweeps_other {e x : ElementPtr} (touches : Touches e σ σ') (other : x ≠ e) :
    σ'.sweeps x = σ.sweeps x := by
  rw [Store.sweeps, Store.sweeps, Store.eLifecycles, Store.eLifecycles, touches.others x other]

namespace Store.Branching

variable {allows : CString → Bool} {tree : LeaseTree.Tree LinkKey}
variable (branching : σ.Branching allows g tree)

include branching

/-- What is at a path, be it an element or the group. -/
theorem hasPath_unique {p p' : Option ElementPtr} (hasPath : σ.HasPath g p path)
    (other : σ.HasPath g p' path) : p = p' := by
  cases hasPath with
  | top =>
    cases other
    rfl
  | child upper inList isKey =>
    cases other with
    | child upper' inList' isKey' =>
      rw [branching.distinct _ _ _ (.child upper inList isKey) (.child upper' inList' isKey')]

/-- There is an entry in the tree just where an element is. -/
theorem isSome_iff : (tree path).isSome ↔ ∃ e, σ.HasPath g (some e) path := by
  constructor
  · intro isSome
    obtain ⟨n, left⟩ := Option.isSome_iff_exists.mp isSome
    obtain ⟨e, hasPath, -⟩ := (branching.leases path n).mp left
    exact ⟨e, hasPath⟩
  · rintro ⟨e, hasPath⟩
    obtain ⟨n, left⟩ := hasPath.exists_sweeps
    rw [(branching.leases path n).mpr ⟨e, hasPath, left⟩, Option.isSome_some]

/-- The tree holds nothing of an element but the sweeps that are left to it. -/
theorem tree_eq {e : ElementPtr} (hasPath : σ.HasPath g (some e) path) :
    tree path = σ.sweeps e := by
  obtain ⟨n, left⟩ := hasPath.exists_sweeps
  rw [left]
  exact (branching.leases path n).mpr ⟨e, hasPath, left⟩

/-- Calls on an element leave a tree of leases, with what they make of its lease. -/
theorem of_touches {e : ElementPtr} (touches : Touches e σ σ') {after : LeaseTree.Tree LinkKey}
    (leases : ∀ path n, after path = some n ↔
      ∃ x, σ.HasPath g (some x) path ∧ σ'.sweeps x = some n) :
    σ'.Branching allows g after where
  wf := branching.wf.sameShape touches.sameShape
  isGroup := touches.groupList ▸ branching.isGroup
  policies := touches.allows.trans branching.policies
  permitted x key path hasPath := branching.permitted x key path (touches.hasPath_iff.mp hasPath)
  distinct path x x' hasPath other := branching.distinct path x x'
    (touches.hasPath_iff.mp hasPath) (touches.hasPath_iff.mp other)
  leases path n := by simp only [leases path n, touches.hasPath_iff]

/-- Calls that leave the time to live leave the tree. -/
theorem unchanged {e : ElementPtr} (touches : Touches e σ σ')
    (life : σ'.eLifecycles e = σ.eLifecycles e) : σ'.Branching allows g tree := by
  have same : σ'.sweeps = σ.sweeps := funext fun x => by
    by_cases equal : x = e
    · rw [equal, Store.sweeps, life, Store.sweeps]
    · exact touches.sweeps_other equal
  refine branching.of_touches touches fun path n => ?_
  rw [same]
  exact branching.leases path n

/-- Calls on an element renew its lease to what they leave it. -/
theorem renewed {e : ElementPtr} (hasPath : σ.HasPath g (some e) path) (touches : Touches e σ σ')
    {term : Nat} (left : σ'.sweeps e = some term) :
    σ'.Branching allows g (LeaseTree.renew term {path} tree) := by
  refine branching.of_touches touches fun path' m => ?_
  by_cases same : path' = path
  · subst same
    rw [LeaseTree.renew_of_mem (Set.mem_singleton path'), ← left]
    refine ⟨fun isLeft => ⟨e, hasPath, isLeft⟩, ?_⟩
    rintro ⟨x, other, isLeft⟩
    rw [branching.distinct _ _ _ hasPath other, isLeft]
  · have other : path' ∉ ({path} : Set (List LinkKey)) := same
    rw [LeaseTree.renew_of_not_mem other, branching.leases]
    refine exists_congr fun x => and_congr_right fun other => ?_
    have notSame : x ≠ e := fun isSame => same (other.unique branching.wf (isSame ▸ hasPath))
    rw [touches.sweeps_other notSame]

/-- Whatever calls on an element leave of its lease. -/
theorem touched {e : ElementPtr} (hasPath : σ.HasPath g (some e) path) (touches : Touches e σ σ') :
    ∃ n, σ'.Branching allows g (LeaseTree.renew n {path} tree) := by
  obtain ⟨n, left⟩ := (touches.keepsPaths _ _ hasPath).exists_sweeps
  exact ⟨n, branching.renewed hasPath touches left⟩

/-- `reset_update_flags` leaves the tree. -/
theorem resetUpdateFlags : (Bmon.resetUpdateFlags σ).Branching allows g tree := by
  refine groupForeachRecursive_invariant elementResetUpdateFlag (fun σ g' e before => ?_) branching
  refine before.unchanged (touches_elementResetUpdateFlag σ g' e) ?_
  exact map_modifyElement Element.eLifecycles σ e e fun _ => rfl

end Store.Branching

/-! ### Looking up elements -/

section

variable {allows : CString → Bool} {tree : LeaseTree.Tree LinkKey}
variable {cfg : Config} {name : CString} {id : UInt32} {parent : Option ElementPtr}

theorem key_elementLinked (wf : σ.WellFormed) {x : ElementPtr} {head : ListHead}
    (inList : x ∈ σ.lists head) : (elementLinked cfg σ g name id parent).key x = σ.key x := by
  rw [Store.key, elements_elementLinked, if_neg (wf.lt_of_mem inList).ne, Store.key]

/-- Creating an element, in whatever group, leaves the others at their paths. -/
theorem Store.HasPath.elementLinked (wf : σ.WellFormed) {g' : GroupPtr} {p : Option ElementPtr}
    {path' : List LinkKey} (hasPath : σ.HasPath g p path') :
    (elementLinked cfg σ g' name id parent).HasPath g p path' := by
  induction hasPath with
  | top => exact .top
  | child _ inList isKey upperHypothesis =>
    refine .child upperHypothesis ?_ ((key_elementLinked wf inList).trans isKey)
    rw [wf.lists_elementLinked]
    exact List.mem_append_left _ inList

/-- It adds one at its path. -/
theorem hasPath_elementLinked_iff (wf : σ.WellFormed) (upper : σ.HasPath g parent path)
    {p : Option ElementPtr} {path' : List LinkKey} :
    (elementLinked cfg σ g name id parent).HasPath g p path' ↔
      σ.HasPath g p path' ∨ p = some σ.nextElement ∧ path' = (name, id) :: path := by
  have isKey : (elementLinked cfg σ g name id parent).key σ.nextElement = some (name, id) := by
    rw [Store.key, elements_elementLinked, if_pos rfl]
    rfl
  constructor
  · intro hasPath
    induction hasPath with
    | top => exact Or.inl .top
    | @child parent' _ x _ _ inList isKey' upperHypothesis =>
      rw [wf.lists_elementLinked] at inList
      rcases upperHypothesis with upper' | ⟨rfl, rfl⟩
      · rcases List.mem_append.mp inList with before | isNew
        · exact Or.inl (.child upper' before ((key_elementLinked wf before).symm.trans isKey'))
        · split_ifs at isNew with same
          · obtain rfl := List.mem_singleton.mp isNew
            obtain rfl := listOf_injective same
            rw [upper'.unique wf upper, Option.some.inj (isKey'.symm.trans isKey)]
            exact Or.inr ⟨rfl, rfl⟩
          · cases isNew
      · -- nothing is below the new element
        have notParent : listOf g (some σ.nextElement) ≠ listOf g parent := fun same => by
          obtain rfl := listOf_injective same
          exact lt_irrefl _ (upper.lt_next wf)
        rw [if_neg notParent, List.append_nil] at inList
        rw [show listOf g (some σ.nextElement) = .ofElement σ.nextElement from rfl,
          wf.lists_of_place_none wf.place_next] at inList
        cases inList
  · rintro (hasPath | ⟨rfl, rfl⟩)
    · exact hasPath.elementLinked wf
    · refine .child (upper.elementLinked wf) ?_ isKey
      rw [wf.lists_elementLinked, if_pos rfl]
      exact List.mem_append_right _ List.mem_cons_self

theorem hasPath_elementCreate_iff (cfg : Config) (wf : σ.WellFormed)
    (upper : σ.HasPath g parent path) {p : Option ElementPtr} {path' : List LinkKey} :
    (elementCreate cfg σ g name id parent).HasPath g p path' ↔
      σ.HasPath g p path' ∨ p = some σ.nextElement ∧ path' = (name, id) :: path :=
  (touches_elementCreate cfg σ g name id parent).hasPath_iff.trans
    (hasPath_elementLinked_iff wf upper)

/-- A new element has its whole time to live left, and the others what they had. -/
theorem sweeps_elementCreate (cfg : Config) (σ : Store) (g : GroupPtr) (name : CString)
    (id : UInt32) (parent : Option ElementPtr) (x : ElementPtr) :
    (elementCreate cfg σ g name id parent).sweeps x =
      if x = σ.nextElement then some (sweepsLeft (getLifecycles cfg)) else σ.sweeps x := by
  rw [Store.sweeps, elementCreate_eLifecycles]
  split_ifs <;> rfl

namespace Store.Branching

variable (branching : σ.Branching allows g tree)

include branching

/-- What is looked up below a path is the element at the path of its key. -/
theorem lookupElement_eq_some_iff (upper : σ.HasPath g parent path) {e : ElementPtr} :
    lookupElement σ g name id parent = some e ↔ σ.HasPath g (some e) ((name, id) :: path) := by
  constructor
  · intro found
    obtain ⟨inList, isKey⟩ := lookupElement_eq_some found
    exact .child upper inList isKey
  · intro hasPath
    obtain ⟨parent', upper', inList, isKey⟩ := hasPath_cons_iff.mp hasPath
    obtain rfl := branching.hasPath_unique upper upper'
    obtain ⟨r, isElement, same⟩ := Option.map_eq_some_iff.mp isKey
    obtain ⟨isName, isId⟩ := Prod.mk.inj same
    have isSome : (lookupElement σ g name id parent).isSome := by
      refine List.find?_isSome.mpr ⟨e, inList, ?_⟩
      rw [isElement, Option.any_some]
      exact decide_eq_true ⟨isName, isId⟩
    obtain ⟨e', found⟩ := Option.isSome_iff_exists.mp isSome
    obtain ⟨inList', isKey'⟩ := lookupElement_eq_some found
    rw [found, branching.distinct _ _ _ hasPath (.child upper inList' isKey')]

/-- Where nothing is found there is no element. -/
theorem not_hasPath_of_absent (upper : σ.HasPath g parent path)
    (absent : lookupElement σ g name id parent = none) (x : ElementPtr) :
    ¬σ.HasPath g (some x) ((name, id) :: path) := by
  intro here
  rw [(branching.lookupElement_eq_some_iff upper).mpr here] at absent
  cases absent

/-- Creating an element starts its lease. -/
theorem created (cfg : Config) (upper : σ.HasPath g parent path)
    (absent : lookupElement σ g name id parent = none) (allowed : allows name = true) :
    (elementCreate cfg σ g name id parent).Branching allows g
      (LeaseTree.renew (sweepsLeft (getLifecycles cfg)) {(name, id) :: path} tree) := by
  have touches := touches_elementCreate cfg σ g name id parent
  have hasPath {p : Option ElementPtr} {path' : List LinkKey} :
      (elementCreate cfg σ g name id parent).HasPath g p path' ↔
        σ.HasPath g p path' ∨ p = some σ.nextElement ∧ path' = (name, id) :: path :=
    hasPath_elementCreate_iff cfg branching.wf upper
  have fresh := branching.not_hasPath_of_absent upper absent
  refine ⟨branching.wf.elementCreate cfg g name id parent branching.isGroup fun p isParent => ?_,
    touches.groupList ▸ branching.isGroup, ?_, fun x key above here => ?_,
    fun path' x x' here here' => ?_, fun path' n => ?_⟩
  · rw [Option.mem_def.mp isParent] at upper
    exact eGroup_eq_some_iff.mp (upper.eGroup branching.wf)
  · exact touches.allows.trans ((funext fun _ => allows_congr rfl rfl rfl).trans
      branching.policies)
  · rcases hasPath.mp here with before | ⟨-, same⟩
    · exact branching.permitted x key above before
    · rw [(List.cons.inj same).1]
      exact allowed
  · rcases hasPath.mp here with before | ⟨isNew, rfl⟩
    · rcases hasPath.mp here' with before' | ⟨-, rfl⟩
      · exact branching.distinct path' x x' before before'
      · exact absurd before (fresh x)
    · rcases hasPath.mp here' with before' | ⟨isNew', -⟩
      · exact absurd before' (fresh x')
      · exact Option.some.inj (isNew.trans isNew'.symm)
  · by_cases same : path' = (name, id) :: path
    · subst same
      rw [LeaseTree.renew_of_mem (Set.mem_singleton _)]
      constructor
      · intro left
        refine ⟨σ.nextElement, hasPath.mpr (Or.inr ⟨rfl, rfl⟩), ?_⟩
        rw [sweeps_elementCreate, if_pos rfl, left]
      · rintro ⟨x, here, left⟩
        rcases hasPath.mp here with before | ⟨isNew, -⟩
        · exact absurd before (fresh x)
        · rw [sweeps_elementCreate, if_pos (Option.some.inj isNew)] at left
          exact left
    · have other : path' ∉ ({(name, id) :: path} : Set (List LinkKey)) := same
      rw [LeaseTree.renew_of_not_mem other, branching.leases]
      refine exists_congr fun x => ?_
      have old : (elementCreate cfg σ g name id parent).HasPath g (some x) path' ↔
          σ.HasPath g (some x) path' := hasPath.trans (or_iff_left fun both => same both.2)
      rw [old]
      refine and_congr_right fun before => ?_
      rw [sweeps_elementCreate, if_neg (before.lt_next branching.wf).ne]

/-- Looking up an element finds or creates the one at its path if its name is allowed, and
otherwise changes nothing. -/
theorem elementLookup (cfg : Config) (upper : σ.HasPath g parent path) (name : CString)
    (id : UInt32) :
    (allows name = false ∧ elementLookup cfg σ g name id parent true = (σ, none)) ∨
      allows name = true ∧ ∃ e n, (elementLookup cfg σ g name id parent true).2 = some e ∧
        (elementLookup cfg σ g name id parent true).1.Branching allows g
          (LeaseTree.renew n {(name, id) :: path} tree) ∧
        (elementLookup cfg σ g name id parent true).1.HasPath g (some e) ((name, id) :: path) ∧
        σ.KeepsPaths g (elementLookup cfg σ g name id parent true).1 := by
  unfold Bmon.elementLookup
  cases found : lookupElement σ g name id parent with
  | some e =>
    have hasPath := (branching.lookupElement_eq_some_iff upper).mp found
    obtain ⟨n, left⟩ := hasPath.exists_sweeps
    refine Or.inr ⟨branching.permitted e _ _ hasPath, e, n, rfl, ?_, hasPath, .refl g σ⟩
    rw [LeaseTree.renew_singleton_eq_self ((branching.tree_eq hasPath).trans left)]
    exact branching
  | none =>
    have policies := congrFun branching.policies name
    unfold Store.allows at policies
    simp only [policies, true_and]
    by_cases allowed : allows name = true
    · rw [if_pos allowed]
      have wf := branching.wf
      exact Or.inr ⟨allowed, σ.nextElement, _, rfl, branching.created cfg upper found allowed,
        (hasPath_elementCreate_iff cfg wf upper).mpr (Or.inr ⟨rfl, rfl⟩),
        fun p path' before => (hasPath_elementCreate_iff cfg wf upper).mpr (Or.inl before)⟩
    · rw [if_neg allowed]
      exact Or.inl ⟨Bool.eq_false_iff.mpr allowed, rfl⟩

end Store.Branching

end

/-! ### Sweeps -/

section

variable {st : State} {allows : CString → Bool} {tree : LeaseTree.Tree LinkKey}

/-- A child dies with its own time to live or with what is above it. -/
theorem Store.WellFormed.dies_iff (wf : σ.WellFormed) {parent : Option ElementPtr} {e : ElementPtr}
    (inList : e ∈ σ.lists (listOf g parent)) :
    σ.Dies e ↔ σ.eLifecycles e = some 1 ∨ ∃ p ∈ parent, σ.Dies p := by
  obtain ⟨place, present, head⟩ := wf.owned _ e inList
  have isParent (p : ElementPtr) : σ.IsParent p e ↔ parent = some p := by
    rw [isParent_iff]
    constructor
    · rintro ⟨place', present', above⟩
      obtain rfl := Option.some.inj (present.symm.trans present')
      have same : listOf g parent = listOf g (some p) :=
        head.symm.trans (head_eq_ofElement_iff.mpr above)
      exact listOf_injective same
    · rintro rfl
      exact ⟨place, present, head_eq_ofElement_iff.mp head⟩
  simp only [Store.dies_iff (e := e), isParent, Option.mem_def]

/-- A sweep takes one from the sweeps that are left to an element that does not die. -/
theorem Store.WellFormed.sweeps_sweep (wf : st.store.WellFormed) {e : ElementPtr}
    (isSome : (st.store.elements e).isSome) (alive : ¬st.store.Dies e) :
    (freeUnusedElements st).store.sweeps e = (st.store.sweeps e).map (· - 1) := by
  obtain ⟨r, found⟩ := Option.isSome_iff_exists.mp isSome
  have present : st.store.place e = some r.place := place_eq_some_iff.mpr ⟨r, found, rfl⟩
  have life : st.store.eLifecycles e = some r.eLifecycles := by
    rw [Store.eLifecycles, found, Option.map_some]
  have notOne : r.eLifecycles ≠ 1 := fun one =>
    alive (Store.dies_iff.mpr (Or.inl (life.trans (congrArg some one))))
  rw [Store.sweeps, Store.sweeps, sweep_eLifecycles wf present alive, life, Option.map_some,
    Option.map_some, Option.map_some, Option.map_some, sweepsLeft_sub notOne]

/-- The elements that are left are at their paths. -/
theorem hasPath_sweep_iff (wf : st.store.WellFormed) {p : Option ElementPtr} :
    (freeUnusedElements st).store.HasPath g p path ↔
      st.store.HasPath g p path ∧ ∀ e ∈ p, ¬st.store.Dies e := by
  have mem {e : ElementPtr} {head : ListHead} :
      e ∈ (freeUnusedElements st).store.lists head ↔
        e ∈ st.store.lists head ∧ ¬st.store.Dies e := by
    rw [(sweep_wellFormed wf).mem_lists_iff, wf.mem_lists_iff]
    simp only [sweep_place_eq_some_iff wf]
    exact ⟨fun ⟨place, ⟨present, alive⟩, head⟩ => ⟨⟨place, present, head⟩, alive⟩,
      fun ⟨⟨place, present, head⟩, alive⟩ => ⟨place, ⟨present, alive⟩, head⟩⟩
  have isKey {e : ElementPtr} {head : ListHead} (inList : e ∈ st.store.lists head)
      (alive : ¬st.store.Dies e) : (freeUnusedElements st).store.key e = st.store.key e := by
    obtain ⟨place, present, -⟩ := wf.owned _ e inList
    obtain ⟨forest, represents⟩ := wf.represents
    have isGroup := wf.grouped e place present
    have inForest := (wf.mem_preorder_iff represents isGroup).mpr
      (wf.inForest_iff.mpr (eGroup_eq_some_iff.mpr ⟨place, present, rfl⟩))
    rw [Store.key, represents.sweep_elements (List.mem_flatMap.mpr ⟨_, isGroup, inForest⟩)
      (mt (mem_freedBy_sweepAll wf represents).mp alive), Option.map_map]
    rfl
  constructor
  · intro hasPath
    induction hasPath with
    | top => exact ⟨.top, fun e isElement => by cases isElement⟩
    | child _ inList isKey' upperHypothesis =>
      obtain ⟨before, alive⟩ := mem.mp inList
      rw [isKey before alive] at isKey'
      refine ⟨.child upperHypothesis.1 before isKey', fun e isElement => ?_⟩
      rw [← Option.mem_some.mp isElement]
      exact alive
  · rintro ⟨hasPath, alive⟩
    induction hasPath with
    | top => exact .top
    | child _ inList isKey' upperHypothesis =>
      have left := alive _ rfl
      rw [wf.dies_iff inList, not_or] at left
      refine .child (upperHypothesis fun p isParent dying => left.2 ⟨p, isParent, dying⟩)
        (mem.mpr ⟨inList, alive _ rfl⟩) ?_
      rw [isKey inList (alive _ rfl)]
      exact isKey'

namespace Store.Branching

variable (branching : st.store.Branching allows g tree)

include branching

/-- The leases that end are those of the elements that die. -/
theorem survives_iff {p : Option ElementPtr} (hasPath : st.store.HasPath g p path) :
    LeaseTree.survives tree path = true ↔ ∀ e ∈ p, ¬st.store.Dies e := by
  induction hasPath with
  | top => exact iff_of_true rfl fun e isElement => by cases isElement
  | @child parent path e key upper inList isKey upperHypothesis =>
    have left : tree (key :: path) = some 1 ↔ st.store.eLifecycles e = some 1 := by
      rw [branching.tree_eq (.child upper inList isKey), Store.sweeps, Option.map_eq_some_iff]
      simp only [sweepsLeft_eq_one_iff, exists_eq_right]
    rw [LeaseTree.survives, Bool.and_eq_true, decide_eq_true_iff, upperHypothesis]
    simp only [Option.mem_some, forall_eq', branching.wf.dies_iff inList, not_or, not_exists,
      not_and, left, ne_eq]

/-- A sweep takes one from every lease, and with an element goes all that is below it. -/
theorem sweep : (freeUnusedElements st).store.Branching allows g (LeaseTree.expire tree) := by
  have wf := branching.wf
  have hasPath {e : ElementPtr} {path : List LinkKey} :
      (freeUnusedElements st).store.HasPath g (some e) path ↔
        st.store.HasPath g (some e) path ∧ ¬st.store.Dies e := by
    rw [hasPath_sweep_iff wf]
    simp only [Option.mem_some, forall_eq']
  obtain ⟨forest, represents⟩ := wf.represents
  obtain ⟨swept, legal⟩ := freeUnusedElements_eq represents
  refine ⟨sweep_wellFormed wf, ?_, ?_, fun e key path here => ?_, fun path e e' here here' => ?_,
    fun path n => ?_⟩
  · rw [swept, applyAll_groupList legal]
    exact branching.isGroup
  · rw [swept, applyAll_allows legal, branching.policies]
  · exact branching.permitted e key path (hasPath.mp here).1
  · exact branching.distinct path e e' (hasPath.mp here).1 (hasPath.mp here').1
  · unfold LeaseTree.expire
    have lowered {e : ElementPtr} (here : st.store.HasPath g (some e) path)
        (alive : ¬st.store.Dies e) : (tree path).map (· - 1) =
          (freeUnusedElements st).store.sweeps e := by
      rw [branching.tree_eq here, wf.sweeps_sweep here.isSome alive]
    split_ifs with left
    · constructor
      · intro isLeft
        obtain ⟨m, before, -⟩ := Option.map_eq_some_iff.mp isLeft
        obtain ⟨e, here, -⟩ := (branching.leases path m).mp before
        have alive := (branching.survives_iff here).mp left e rfl
        exact ⟨e, hasPath.mpr ⟨here, alive⟩, (lowered here alive).symm.trans isLeft⟩
      · rintro ⟨e, here, isLeft⟩
        obtain ⟨before, alive⟩ := hasPath.mp here
        exact (lowered before alive).trans isLeft
    · refine iff_of_false not_false ?_
      rintro ⟨e, here, -⟩
      obtain ⟨before, alive⟩ := hasPath.mp here
      refine left ((branching.survives_iff before).mpr fun x isElement => ?_)
      rw [← Option.mem_some.mp isElement]
      exact alive

end Store.Branching

end

end

/-! ### Renewing several leases -/

/-- From one store to a later one the leases at some paths have been renewed, and the elements have
stayed at theirs. -/
structure Store.Renews (allows : CString → Bool) (g : GroupPtr) (term : Nat)
    (tree : LeaseTree.Tree LinkKey) (paths : Set (List LinkKey)) (σ σ' : Store) : Prop where
  branching : σ'.Branching allows g (LeaseTree.renew term paths tree)
  keeps : σ.KeepsPaths g σ'

namespace Store.Renews

variable {allows : CString → Bool} {g : GroupPtr} {term : Nat} {tree : LeaseTree.Tree LinkKey}
variable {paths others : Set (List LinkKey)} {σ σ' σ'' : Store}

theorem refl (term : Nat) (branching : σ.Branching allows g tree) :
    Store.Renews allows g term tree ∅ σ σ :=
  ⟨(LeaseTree.renew_empty term tree).symm ▸ branching, .refl g σ⟩

theorem trans (first : Store.Renews allows g term tree paths σ σ')
    (second : Store.Renews allows g term (LeaseTree.renew term paths tree) others σ' σ'') :
    Store.Renews allows g term tree (paths ∪ others) σ σ'' :=
  ⟨LeaseTree.renew_renew term paths others tree ▸ second.branching,
    first.keeps.trans second.keeps⟩

/-- The steps of a run renew leases one after the other. -/
theorem run {Operation : Type*} {step : Store → Operation → Option Store}
    {ops : List Operation} {paths : Operation → Set (List LinkKey)}
    (branching : σ.Branching allows g tree)
    (each : ∀ tree σ', σ'.Branching allows g tree → σ.KeepsPaths g σ' → ∀ op ∈ ops, ∀ next,
      step σ' op = some next → Store.Renews allows g term tree (paths op) σ' next)
    (ran : Runs.run step σ ops = some σ'') :
    Store.Renews allows g term tree {path | ∃ op ∈ ops, path ∈ paths op} σ σ'' := by
  obtain ⟨last, keeps⟩ := Runs.run_foldl
    (fun tree σ' => σ'.Branching allows g tree ∧ σ.KeepsPaths g σ')
    (fun tree op => LeaseTree.renew term (paths op) tree)
    (fun tree σ' op member next both stepped =>
      have renews := each tree σ' both.1 both.2 op member next stepped
      ⟨renews.branching, both.2.trans renews.keeps⟩) ⟨branching, .refl g σ⟩ ran
  rw [LeaseTree.foldl_renew] at last
  exact ⟨last, keeps⟩

end Store.Renews

end Bmon
