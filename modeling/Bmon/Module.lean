/-
This file models the modules of a subsystem and how they are selected: `module.c`.

A module is known by its position in the list of its subsystem. Its probe is modelled by what
it returns, and what the options change inside a module is not modelled: within one call of
`module_set` a probe returns the same whenever it is called, also for a module that is asked for
twice with other options. Every module of the repository registers under a plain name, without
the separators of the module argument and other than the word `list` that `module_set` reserves;
`PlainName` is part of a module.
-/

import Bmon.ModuleConf

namespace Bmon

/-! ### Subsystems -/

/-- The bits `BMON_MODULE_*` of `m_flags`. -/
structure ModuleFlags where
  enabled : Bool := false
  isDefault : Bool := false
  auto : Bool := false
  deriving DecidableEq, Repr

/-- A name a module can be asked for by. -/
def PlainName (name : List Char) : Prop :=
  name ≠ [] ∧ ',' ∉ name ∧ ':' ∉ name ∧ strcasecmp name ['l', 'i', 's', 't'] ≠ 0

instance (name : List Char) : Decidable (PlainName name) := inferInstanceAs (Decidable (_ ∧ _))

/-- `struct bmon_module`. The probe is `none` if there is no such function. -/
structure BmonModule where
  mName : List Char
  mProbe : Option Bool
  mFlags : ModuleFlags
  plain : PlainName mName
  deriving DecidableEq

/-- The module has no probe, or one that succeeds. -/
def BmonModule.Works (m : BmonModule) : Prop := m.mProbe ≠ some false

instance (m : BmonModule) : Decidable m.Works := inferInstanceAs (Decidable (_ ≠ _))

/-- Set the bit `BMON_MODULE_ENABLED`. -/
def BmonModule.enable (m : BmonModule) : BmonModule :=
  { m with mFlags := { m.mFlags with enabled := true } }

/-- `struct bmon_subsys`. -/
structure BmonSubsys where
  sName : String
  sNmod : Int
  sModList : List BmonModule
  deriving DecidableEq

/-- `module_lookup`. -/
def moduleLookup (ss : BmonSubsys) (name : List Char) : Option Nat :=
  ss.sModList.findIdx? fun m => m.mName = name

/-- `module_configure`, with whether it returns zero. -/
def moduleConfigure (ss : BmonSubsys) (i : Nat) : BmonSubsys × Bool :=
  match ss.sModList[i]? with
  | none => (ss, false)
  | some m =>
    if m.mProbe = some false then
      (ss, false)
    else
      ({ ss with sModList := ss.sModList.modify i .enable, sNmod := ss.sNmod + 1 }, true)

/-- `__auto_load`. -/
def autoLoad (ss : BmonSubsys) (i : Nat) : BmonSubsys :=
  match ss.sModList[i]? with
  | none => ss
  | some m => if m.mFlags.auto ∧ ¬ m.mFlags.enabled then (moduleConfigure ss i).1 else ss

/-- The loop of `module_set` over the modules asked for. -/
def moduleSetLoop : List ModuleConf → BmonSubsys → Quits BmonSubsys
  | [], ss => .ok ss
  | m :: rest, ss =>
    match moduleLookup ss m.mName with
    | none => .error ("Unknown " ++ ss.sName ++ " module: " ++ String.ofList m.mName ++ "\n")
    | some i => moduleSetLoop rest (moduleConfigure ss i).1

/-- `module_foreach(ss, __auto_load)`. -/
def autoLoadAll (ss : BmonSubsys) : BmonSubsys :=
  (List.range ss.sModList.length).foldl autoLoad ss

/-- `module_set`, with the value it returns. -/
def moduleSet (ss : BmonSubsys) (name : Option (List Char)) : Quits (BmonSubsys × Int) :=
  match name with
  | none => .ok (ss, 1)
  | some name =>
    if strcasecmp name ['l', 'i', 's', 't'] = 0 then
      .ok (ss, 1)
    else do
      let confs ← parseModuleParam name
      let ss ← moduleSetLoop confs ss
      let ss := autoLoadAll ss
      if ss.sNmod = 0 then
        .error ("No working " ++ ss.sName ++ " module found\n")
      else
        .ok (ss, 0)

/-! ### What configuring does to each module -/

/-- The module at a position is enabled. -/
def Enabled (ss : BmonSubsys) (i : Nat) : Prop :=
  ∃ m, ss.sModList[i]? = some m ∧ m.mFlags.enabled = true

/-- Configuring enables the module at its position if that works. -/
theorem moduleConfigure_getElem? (ss : BmonSubsys) (i j : Nat) :
    (moduleConfigure ss i).1.sModList[j]? =
      ss.sModList[j]?.map fun m => if j = i ∧ m.Works then m.enable else m := by
  unfold moduleConfigure BmonModule.Works
  by_cases same : j = i
  · subst same
    cases present : ss.sModList[j]? with
    | none => simp [present]
    | some m =>
      by_cases failed : m.mProbe = some false
      · simp [present, failed]
      · simp [present, failed]
  · have other : (ss.sModList.modify i BmonModule.enable)[j]? = ss.sModList[j]? := by
      simp [Ne.symm same]
    split <;> try split_ifs
    all_goals simp [same, other]

/-- Automatic loading enables the module at its position if it asks for that and works. -/
theorem autoLoad_getElem? (ss : BmonSubsys) (i j : Nat) :
    (autoLoad ss i).sModList[j]? =
      ss.sModList[j]?.map fun m =>
        if j = i ∧ m.mFlags.auto = true ∧ m.mFlags.enabled = false ∧ m.Works then m.enable
        else m := by
  unfold autoLoad
  cases present : ss.sModList[i]? with
  | none =>
    simp only
    by_cases same : j = i
    · subst same
      rw [present]
      rfl
    · simp [same]
  | some m =>
    simp only
    split_ifs with wanted
    · rw [moduleConfigure_getElem?]
      by_cases same : j = i
      · subst same
        simp [present, wanted.1, wanted.2]
      · simp [same]
    · by_cases same : j = i
      · subst same
        rw [present, Option.map_some, if_neg fun asks => wanted ⟨asks.2.1, by simp [asks.2.2.1]⟩]
      · simp [same]

/-- Loading the modules of the first positions automatically. -/
theorem autoLoad_foldl_getElem? (ss : BmonSubsys) (n j : Nat) :
    ((List.range n).foldl autoLoad ss).sModList[j]? =
      ss.sModList[j]?.map fun m =>
        if j < n ∧ m.mFlags.auto = true ∧ m.mFlags.enabled = false ∧ m.Works then m.enable
        else m := by
  induction n with
  | zero => simp
  | succ n inductionHypothesis =>
    rw [List.range_succ, List.foldl_append, List.foldl_cons, List.foldl_nil, autoLoad_getElem?,
      inductionHypothesis, Option.map_map]
    congr 1
    funext m
    rcases Nat.lt_trichotomy j n with before | rfl | after
    · simp [Nat.ne_of_lt before, before, Nat.lt_succ_of_lt before]
    · simp
    · simp [Nat.ne_of_gt after, Nat.not_lt_of_gt after,
        Nat.not_lt.mpr (Nat.succ_le_of_lt after)]

/-- Automatic loading enables exactly the modules that ask for it and work. -/
theorem autoLoadAll_getElem? (ss : BmonSubsys) (j : Nat) :
    (autoLoadAll ss).sModList[j]? =
      ss.sModList[j]?.map fun m =>
        if m.mFlags.auto = true ∧ m.mFlags.enabled = false ∧ m.Works then m.enable else m := by
  rw [autoLoadAll, autoLoad_foldl_getElem?]
  cases present : ss.sModList[j]? with
  | none => rfl
  | some m =>
    have inside := (List.getElem?_eq_some_iff.mp present).1
    simp [inside]

/-! ### The number of modules -/

/-- The counter of a subsystem is zero exactly when no module is enabled. -/
def CountsEnabled (ss : BmonSubsys) : Prop :=
  0 ≤ ss.sNmod ∧ (ss.sNmod = 0 ↔ ∀ i, ¬ Enabled ss i)

/-- A module that works is enabled by configuring it. -/
theorem enabled_moduleConfigure {ss : BmonSubsys} {i : Nat} {m : BmonModule}
    (present : ss.sModList[i]? = some m) (works : m.Works) :
    Enabled (moduleConfigure ss i).1 i := by
  refine ⟨m.enable, ?_, rfl⟩
  rw [moduleConfigure_getElem?, present]
  simp [works]

theorem CountsEnabled.configure {ss : BmonSubsys} (counts : CountsEnabled ss) (i : Nat) :
    CountsEnabled (moduleConfigure ss i).1 := by
  cases present : ss.sModList[i]? with
  | none => simpa only [moduleConfigure, present] using counts
  | some m =>
    by_cases failed : m.mProbe = some false
    · simpa only [moduleConfigure, present, failed, if_true] using counts
    · have counted : (moduleConfigure ss i).1.sNmod = ss.sNmod + 1 := by
        simp only [moduleConfigure, present, failed, if_false]
      have positive := counts.1
      refine ⟨by omega, iff_of_false (by omega) fun idle => ?_⟩
      exact idle i (enabled_moduleConfigure present failed)

theorem CountsEnabled.autoLoad {ss : BmonSubsys} (counts : CountsEnabled ss) (i : Nat) :
    CountsEnabled (autoLoad ss i) := by
  unfold Bmon.autoLoad
  split
  · exact counts
  · split_ifs
    · exact counts.configure i
    · exact counts

theorem CountsEnabled.autoLoadAll {ss : BmonSubsys} (counts : CountsEnabled ss) :
    CountsEnabled (autoLoadAll ss) :=
  List.foldlRecOn _ _ counts fun _ counts i _ => counts.autoLoad i

/-! ### Selecting one module -/

/-- Asking for one module by its plain name configures it and loads the automatic ones. It
quits if there is no such module or if no module is enabled in the end. -/
theorem moduleSet_plain (ss : BmonSubsys) {name : List Char} (plain : PlainName name) :
    moduleSet ss (some name) =
      match moduleLookup ss name with
      | none => .error ("Unknown " ++ ss.sName ++ " module: " ++ String.ofList name ++ "\n")
      | some i =>
        let ss' := autoLoadAll (moduleConfigure ss i).1
        if ss'.sNmod = 0 then .error ("No working " ++ ss'.sName ++ " module found\n")
        else .ok (ss', 0) := by
  obtain ⟨given, noComma, noColon, notList⟩ := plain
  rw [moduleSet, if_neg notList, parseModuleParam_plain given noComma noColon]
  cases found : moduleLookup ss name with
  | none => simp only [bind, Except.bind, moduleSetLoop, found]
  | some i => simp only [bind, Except.bind, moduleSetLoop, found]

end Bmon
