/-
This file models `activate_default` of `input.c`, as compiled with `SYS_LINUX`, and shows when
it falls back to another module.

The function asks for `netlink`, then for `proc`, then for every module that is suitable as
default. But `input_set` never returns a failure for one of them: `module_set` quits when it
does not know the module, and when no module is enabled in the end. So the first request
decides, and another module is reached only if it is loaded automatically with that request.
-/

import Bmon.Module

namespace Bmon

/-! ### The source functions -/

/-- `"netlink"`. -/
def netlinkName : List Char := ['n', 'e', 't', 'l', 'i', 'n', 'k']

/-- `"proc"`. -/
def procName : List Char := ['p', 'r', 'o', 'c']

/-- `input_set`. -/
def inputSet (ss : BmonSubsys) (name : List Char) : Quits (BmonSubsys × Int) :=
  moduleSet ss (some name)

/-- The loop of `activate_default` over the modules that could act as default. -/
def activateAnyDefault : List BmonModule → BmonSubsys → Quits BmonSubsys
  | [], _ => .error "No input module found\n"
  | m :: rest, ss =>
    if m.mFlags.isDefault then do
      let (ss, rc) ← inputSet ss m.mName
      if rc = 0 then return ss
      activateAnyDefault rest ss
    else
      activateAnyDefault rest ss

/-- `activate_default`. -/
def activateDefault (ss : BmonSubsys) : Quits BmonSubsys :=
  if ss.sNmod = 0 then do
    let (ss, rc) ← inputSet ss netlinkName
    if rc = 0 then return ss
    let (ss, rc) ← inputSet ss procName
    if rc = 0 then return ss
    activateAnyDefault ss.sModList ss
  else
    return ss

/-! ### The modules to fall back to -/

/-- The modules `activate_default` means to try, by position and in this order: `netlink`,
`proc`, and the ones suitable as default. -/
def candidates (ss : BmonSubsys) : List Nat :=
  (moduleLookup ss netlinkName).toList ++ (moduleLookup ss procName).toList ++
    (List.range ss.sModList.length).filter fun i =>
      ss.sModList[i]?.any fun m => m.mFlags.isDefault

/-- A candidate works. -/
def CandidateWorks (ss : BmonSubsys) : Prop :=
  ∃ i ∈ candidates ss, ∃ m ∈ ss.sModList[i]?, m.Works

instance (ss : BmonSubsys) : Decidable (CandidateWorks ss) :=
  inferInstanceAs (Decidable (∃ i ∈ candidates ss, ∃ m ∈ ss.sModList[i]?, m.Works))

/-- Whenever a candidate works, a module is enabled in the end; and the program quits only if
none of them works. -/
def FallsBack (ss : BmonSubsys) : Prop :=
  (CandidateWorks ss → ∃ ss', activateDefault ss = .ok ss' ∧ ∃ i, Enabled ss' i) ∧
    ∀ message, activateDefault ss = .error message → ¬ CandidateWorks ss

/-- The user selected no module: nothing is enabled yet. -/
structure Unselected (ss : BmonSubsys) : Prop where
  count : ss.sNmod = 0
  idle : ∀ i, ¬ Enabled ss i

theorem Unselected.countsEnabled {ss : BmonSubsys} (unselected : Unselected ss) :
    CountsEnabled ss :=
  ⟨Int.le_of_eq unselected.count.symm, iff_of_true unselected.count unselected.idle⟩

/-- The first request decides. -/
theorem activateDefault_eq {ss : BmonSubsys} (unselected : Unselected ss) :
    activateDefault ss =
      match moduleLookup ss netlinkName with
      | none => .error ("Unknown " ++ ss.sName ++ " module: " ++ String.ofList netlinkName ++ "\n")
      | some i =>
        let ss' := autoLoadAll (moduleConfigure ss i).1
        if ss'.sNmod = 0 then .error ("No working " ++ ss'.sName ++ " module found\n")
        else .ok ss' := by
  rw [activateDefault, if_pos unselected.count, inputSet, moduleSet_plain ss (by decide)]
  cases moduleLookup ss netlinkName with
  | none => rfl
  | some i =>
    simp only
    split_ifs <;> rfl

/-- Asking for one module enables that one if it works, and the automatic ones that work. -/
theorem enabled_request_iff {ss : BmonSubsys} (unselected : Unselected ss) (i j : Nat) :
    Enabled (autoLoadAll (moduleConfigure ss i).1) j ↔
      ∃ m, ss.sModList[j]? = some m ∧ m.Works ∧ (j = i ∨ m.mFlags.auto = true) := by
  have idle : ∀ m, ss.sModList[j]? = some m → m.mFlags.enabled = false := fun m present =>
    Bool.eq_false_iff.mpr fun enabled => unselected.idle j ⟨m, present, enabled⟩
  unfold Enabled
  rw [autoLoadAll_getElem?, moduleConfigure_getElem?]
  cases present : ss.sModList[j]? with
  | none => simp
  | some m =>
    have off := idle m present
    by_cases works : m.Works <;> by_cases same : j = i <;> cases asks : m.mFlags.auto <;>
      simp [works, same, asks, off, BmonModule.enable]

/-- What the first request has to find: `netlink` is registered, and it works or an automatic
module does. -/
def RequestWorks (ss : BmonSubsys) : Prop :=
  ∃ netlink, moduleLookup ss netlinkName = some netlink ∧
    ∃ i, ∃ m ∈ ss.sModList[i]?, m.Works ∧ (i = netlink ∨ m.mFlags.auto = true)

/-- The first request is all there is to it. -/
theorem activateDefault_enables_iff {ss : BmonSubsys} (unselected : Unselected ss) :
    (∃ ss', activateDefault ss = .ok ss' ∧ ∃ i, Enabled ss' i) ↔ RequestWorks ss := by
  rw [activateDefault_eq unselected, RequestWorks]
  cases moduleLookup ss netlinkName with
  | none => simp
  | some netlink =>
    have counts := (unselected.countsEnabled.configure netlink).autoLoadAll
    simp only [Option.some.injEq, exists_eq_left']
    constructor
    · rintro ⟨ss', returned, i, enabled⟩
      split_ifs at returned
      obtain rfl := Except.ok.inj returned
      exact ⟨i, (enabled_request_iff unselected netlink i).mp enabled⟩
    · rintro ⟨i, works⟩
      have enabled := (enabled_request_iff unselected netlink i).mpr works
      exact ⟨_, if_neg fun empty => counts.2.mp empty i enabled, i, enabled⟩

/-- When the fallback works. As long as the user selected no module, `activate_default` enables
a module if a candidate works, and quits only when there is none, if and only if no candidate
works, or `netlink` is registered and it works itself or a module with `BMON_MODULE_AUTO`
does. -/
theorem activateDefault_fallsBack_iff (ss : BmonSubsys) (unselected : Unselected ss) :
    FallsBack ss ↔ (CandidateWorks ss → RequestWorks ss) := by
  rw [FallsBack, activateDefault_enables_iff unselected]
  refine and_iff_left_of_imp fun reaches message quits works => ?_
  obtain ⟨ss', returned, -⟩ := (activateDefault_enables_iff unselected).mpr (reaches works)
  rw [quits] at returned
  cases returned

/-- The input modules of a build with `netlink` and `proc`, and what their probes return. -/
def linuxModules (netlinkProbe procProbe : Bool) : BmonSubsys where
  sName := "input"
  sNmod := 0
  sModList := [⟨netlinkName, some netlinkProbe, { isDefault := true }, by decide⟩,
    ⟨procName, some procProbe, {}, by decide⟩]

theorem unselected_linuxModules (netlinkProbe procProbe : Bool) :
    Unselected (linuxModules netlinkProbe procProbe) where
  count := rfl
  idle i enabled := by
    obtain ⟨m, present, on⟩ := enabled
    have member := List.mem_of_getElem? present
    simp only [linuxModules, List.mem_cons, List.not_mem_nil, or_false] at member
    rcases member with rfl | rfl <;> cases on

/-- With a working `netlink` the fallback has nothing to do. -/
theorem activateDefault_fallsBack_netlink : FallsBack (linuxModules true true) :=
  (activateDefault_fallsBack_iff _ (unselected_linuxModules true true)).mpr fun _ =>
    ⟨0, by decide, 0, _, rfl, by decide, Or.inl rfl⟩

/-- When the probe of `netlink` fails and that of `proc` succeeds, the program quits instead of
falling back. -/
theorem activateDefault_quits_before_proc :
    activateDefault (linuxModules false true) = .error "No working input module found\n" ∧
      CandidateWorks (linuxModules false true) ∧ ¬ FallsBack (linuxModules false true) := by
  have quits : activateDefault (linuxModules false true) =
      .error "No working input module found\n" := by
    rw [activateDefault_eq (unselected_linuxModules false true)]
    rfl
  have works : CandidateWorks (linuxModules false true) := by decide
  exact ⟨quits, works, fun fallsBack => fallsBack.2 _ quits works⟩

/-- A working module that is loaded automatically is enough: `netlink` fails, and the request for
it loads the third module. `proc` is never asked for. -/
example : FallsBack { linuxModules false true with
    sModList := (linuxModules false true).sModList ++
      [⟨['d', 'u', 'm', 'm', 'y'], none, { auto := true }, by decide⟩] } := by
  refine ⟨fun _ => ⟨_, rfl, 2, _, rfl, rfl⟩, fun message quits => ?_⟩
  cases quits

end Bmon
