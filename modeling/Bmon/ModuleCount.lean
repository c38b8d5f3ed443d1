/-
This file follows the counter of the modules of a subsystem. `module_configure` counts every time
it enables a module, also one that is enabled already, and nothing counts back where the flag is
cleared: when a module fails to initialise, when it is shut down, and when it disables itself
while it runs. So the counter never falls behind the number of enabled modules, and once it is
ahead of it the difference stays.

Whether a probe succeeds is part of the record of a module, and may change between two calls.
-/

import Bmon.Input
import Bmon.Lib.Runs
import Mathlib.Algebra.Order.Group.Int

namespace Bmon

/-! ### Initialising and shutting down -/

/-- The two subsystems. -/
inductive SubsysKind where
  | input
  | output
  deriving DecidableEq, Repr

/-- `"curses"`. -/
def cursesName : List Char := ['c', 'u', 'r', 's', 'e', 's']

/-- `"ascii"`. -/
def asciiName : List Char := ['a', 's', 'c', 'i', 'i']

/-- `output_set`. -/
def outputSet (ss : BmonSubsys) (name : List Char) : Quits (BmonSubsys × Int) :=
  moduleSet ss (some name)

/-- The loop of `activate_default` of `output.c`. -/
def outputActivateAnyDefault : List BmonModule → BmonSubsys → Quits BmonSubsys
  | [], _ => .error "No output module found\n"
  | m :: rest, ss =>
    if m.mFlags.isDefault then do
      let (ss, rc) ← outputSet ss m.mName
      if rc = 0 then return ss
      outputActivateAnyDefault rest ss
    else
      outputActivateAnyDefault rest ss

/-- `activate_default` of `output.c`. -/
def outputActivateDefault (ss : BmonSubsys) : Quits BmonSubsys :=
  if ss.sNmod = 0 then do
    let (ss, rc) ← outputSet ss cursesName
    if rc = 0 then return ss
    let (ss, rc) ← outputSet ss asciiName
    if rc = 0 then return ss
    outputActivateAnyDefault ss.sModList ss
  else
    return ss

/-- `s_activate_default`. -/
def SubsysKind.sActivateDefault : SubsysKind → BmonSubsys → Quits BmonSubsys
  | .input => activateDefault
  | .output => outputActivateDefault

/-- Clear the bit `BMON_MODULE_ENABLED`. -/
def BmonModule.disable (m : BmonModule) : BmonModule :=
  { m with mFlags := { m.mFlags with enabled := false } }

/-- Clear the bit `BMON_MODULE_ENABLED` of some modules. -/
def disableAll (ss : BmonSubsys) (which : Nat → Bool) : BmonSubsys :=
  { ss with sModList := ss.sModList.mapIdx fun i m => if which i then m.disable else m }

/-- `module_foreach(ss, __module_init)`. The modules that fail have an `m_init`, which returns
a value other than zero. -/
def moduleInitAll (ss : BmonSubsys) (fails : Nat → Bool) : BmonSubsys := disableAll ss fails

/-- `module_foreach(ss, __module_shutdown)`. The modules that are named have an `m_shutdown`. -/
def moduleShutdownAll (ss : BmonSubsys) (shutsDown : Nat → Bool) : BmonSubsys :=
  disableAll ss shutsDown

/-- `module_register` of a module that is not registered yet. -/
def moduleRegister (ss : BmonSubsys) (m : BmonModule) : BmonSubsys :=
  { ss with sModList := ss.sModList ++ [m] }

/-! ### Runs of a subsystem -/

/-- What happens to a subsystem. `module_init` is `activateDefault` and `moduleInit`. -/
inductive SubsysOp where
  | moduleRegister (m : BmonModule)
  | moduleSet (name : Option (List Char))
  | activateDefault
  | moduleInit (fails : Nat → Bool)
  | moduleShutdown (shutsDown : Nat → Bool)
  | disable (i : Nat)
  | probes (i : Nat) (works : Bool)

/-- Where the program quits there is no state afterwards. The flags of a module that registers
do not say that it is enabled. -/
def SubsysOp.step (kind : SubsysKind) (ss : BmonSubsys) : SubsysOp → Option BmonSubsys
  | .moduleRegister m => if m.mFlags.enabled then none else some (Bmon.moduleRegister ss m)
  | .moduleSet name => (Bmon.moduleSet ss name).toOption.map Prod.fst
  | .activateDefault => (kind.sActivateDefault ss).toOption
  | .moduleInit fails => some (moduleInitAll ss fails)
  | .moduleShutdown shutsDown => some (moduleShutdownAll ss shutsDown)
  | .disable i => some (disableAll ss fun j => j = i)
  | .probes i works => some
    { ss with
      sModList := ss.sModList.modify i fun m => { m with mProbe := m.mProbe.map fun _ => works } }

/-- A subsystem before the first module registers. -/
def BmonSubsys.start (sName : String) : BmonSubsys := ⟨sName, 0, []⟩

/-- The number of modules that are enabled. -/
def BmonSubsys.enabledCount (ss : BmonSubsys) : Int :=
  (ss.sModList.countP fun m => m.mFlags.enabled : Nat)

/-- How far the counter is ahead. -/
def BmonSubsys.excess (ss : BmonSubsys) : Int := ss.sNmod - ss.enabledCount

/-! ### What the calls do to the counter -/

/-- Enabling one module of a list. -/
theorem countP_modify_enable {modules : List BmonModule} {i : Nat} {m : BmonModule}
    (present : modules[i]? = some m) :
    (modules.modify i .enable).countP (fun m => m.mFlags.enabled) +
        (if m.mFlags.enabled then 1 else 0) =
      modules.countP (fun m => m.mFlags.enabled) + 1 := by
  induction modules generalizing i with
  | nil => cases present
  | cons first rest inductionHypothesis =>
    cases i with
    | zero =>
      obtain rfl := Option.some.inj present
      rw [List.modify_zero_cons, List.countP_cons, List.countP_cons]
      simp only [BmonModule.enable, ↓reduceIte]
      omega
    | succ i =>
      have later := inductionHypothesis present
      rw [List.modify_succ_cons, List.countP_cons, List.countP_cons]
      omega

/-- Disabling some modules of a list. -/
theorem countP_disable (modules : List BmonModule) (which : Nat → Bool) :
    (modules.mapIdx fun i m => if which i then m.disable else m).countP
        (fun m => m.mFlags.enabled) ≤ modules.countP (fun m => m.mFlags.enabled) ∧
      ((modules.mapIdx fun i m => if which i then m.disable else m).countP
          (fun m => m.mFlags.enabled) = modules.countP (fun m => m.mFlags.enabled) ↔
        ∀ i m, modules[i]? = some m → m.mFlags.enabled = true → which i = false) := by
  induction modules generalizing which with
  | nil => exact ⟨le_rfl, iff_of_true rfl fun i m present => by cases present⟩
  | cons first rest inductionHypothesis =>
    obtain ⟨fewer, same⟩ := inductionHypothesis fun i => which (i + 1)
    have positions : (∀ i m, (first :: rest)[i]? = some m → m.mFlags.enabled = true →
        which i = false) ↔ (first.mFlags.enabled = true → which 0 = false) ∧
          ∀ i m, rest[i]? = some m → m.mFlags.enabled = true → which (i + 1) = false := by
      constructor
      · exact fun all => ⟨all 0 first rfl, fun i m present => all (i + 1) m present⟩
      · rintro ⟨head, tail⟩ i m present
        cases i with
        | zero =>
          obtain rfl := Option.some.inj present
          exact head
        | succ i => exact tail i m present
    rw [List.mapIdx_cons, List.countP_cons, List.countP_cons, positions, ← same]
    cases which 0 with
    | false =>
      simp only [Bool.false_eq_true, ↓reduceIte]
      exact ⟨Nat.add_le_add_right fewer _, by simp⟩
    | true =>
      cases first.mFlags.enabled with
      | false =>
        simp only [BmonModule.disable, ↓reduceIte, Bool.false_eq_true]
        exact ⟨fewer, by simp⟩
      | true =>
        simp only [BmonModule.disable, ↓reduceIte, Bool.false_eq_true]
        refine ⟨fewer.trans (Nat.le_succ _), iff_of_false ?_ fun both => ?_⟩
        · exact Nat.ne_of_lt (Nat.lt_succ_of_le fewer)
        · cases both.1 trivial

/-- Configuring a module that works counts it once more; the counter gets ahead if the module is
enabled already. -/
theorem excess_moduleConfigure {ss : BmonSubsys} {i : Nat} {m : BmonModule}
    (present : ss.sModList[i]? = some m) (works : m.Works) :
    (moduleConfigure ss i).1.excess = ss.excess + if m.mFlags.enabled then 1 else 0 := by
  have counted := countP_modify_enable present
  have configured : (moduleConfigure ss i).1 =
      { ss with sModList := ss.sModList.modify i .enable, sNmod := ss.sNmod + 1 } := by
    unfold moduleConfigure
    rw [present]
    exact congrArg Prod.fst (if_neg works)
  rw [configured]
  unfold BmonSubsys.excess BmonSubsys.enabledCount
  simp only
  split_ifs at counted ⊢ <;> omega

theorem moduleConfigure_fails {ss : BmonSubsys} {i : Nat}
    (fails : ¬ ss.sModList[i]?.any fun m => m.Works) : (moduleConfigure ss i).1 = ss := by
  unfold moduleConfigure
  cases present : ss.sModList[i]? with
  | none => rfl
  | some m =>
    rw [present, Option.any_some, decide_eq_true_eq] at fails
    exact congrArg Prod.fst (if_pos (not_not.mp fails))

/-- Automatic loading skips what is enabled. -/
theorem excess_autoLoad (ss : BmonSubsys) (i : Nat) : (autoLoad ss i).excess = ss.excess := by
  unfold autoLoad
  cases present : ss.sModList[i]? with
  | none => rfl
  | some m =>
    simp only
    split_ifs with wanted
    · by_cases works : m.Works
      · rw [excess_moduleConfigure present works, if_neg wanted.2, Int.add_zero]
      · rw [moduleConfigure_fails]
        rw [present, Option.any_some, decide_eq_true_eq]
        exact works
    · rfl

theorem excess_autoLoadAll (ss : BmonSubsys) : (autoLoadAll ss).excess = ss.excess := by
  unfold autoLoadAll
  generalize List.range ss.sModList.length = positions
  induction positions generalizing ss with
  | nil => rfl
  | cons i rest inductionHypothesis =>
    rw [List.foldl_cons, inductionHypothesis, excess_autoLoad]

/-! ### Requests for modules -/

/-- The positions of the modules asked for that work, in the order of the requests. -/
def requested (ss : BmonSubsys) (confs : List ModuleConf) : List Nat :=
  (confs.filterMap fun conf => moduleLookup ss conf.mName).filter fun i =>
    ss.sModList[i]?.any fun m => m.Works

/-- No module that works is asked for twice, or is enabled already. -/
def AsksOnce (ss : BmonSubsys) (confs : List ModuleConf) : Prop :=
  (requested ss confs).Nodup ∧ ∀ i ∈ requested ss confs, ¬ Enabled ss i

/-- Configuring changes neither names nor probes. -/
theorem requested_moduleConfigure (ss : BmonSubsys) (i : Nat) (confs : List ModuleConf) :
    requested (moduleConfigure ss i).1 confs = requested ss confs := by
  have fields (j : Nat) : (moduleConfigure ss i).1.sModList[j]?.map (fun m => (m.mName, m.mProbe)) =
      ss.sModList[j]?.map fun m => (m.mName, m.mProbe) := by
    rw [moduleConfigure_getElem?, Option.map_map]
    refine congrArg (fun f => Option.map f ss.sModList[j]?) (funext fun m => ?_)
    rw [Function.comp_apply]
    split_ifs <;> rfl
  have names : (moduleConfigure ss i).1.sModList.map (fun m => m.mName) =
      ss.sModList.map fun m => m.mName := by
    refine List.ext_getElem? fun j => ?_
    have same := congrArg (Option.map Prod.fst) (fields j)
    rw [Option.map_map, Option.map_map] at same
    rw [List.getElem?_map, List.getElem?_map]
    exact same
  have lookup (name : List Char) :
      moduleLookup (moduleConfigure ss i).1 name = moduleLookup ss name := by
    have same := congrArg (List.findIdx? fun other => other = name) names
    rwa [List.findIdx?_map, List.findIdx?_map] at same
  unfold requested
  simp only [lookup]
  refine List.filter_congr fun j _ => ?_
  have same := congrArg (Option.any fun fields => fields.2 ≠ some false) (fields j)
  rwa [Option.any_map, Option.any_map] at same

/-- What is enabled after configuring a module that works. -/
theorem enabled_moduleConfigure_iff {ss : BmonSubsys} {i : Nat} {m : BmonModule}
    (present : ss.sModList[i]? = some m) (works : m.Works) (j : Nat) :
    Enabled (moduleConfigure ss i).1 j ↔ j = i ∨ Enabled ss j := by
  unfold Enabled
  rw [moduleConfigure_getElem?]
  by_cases same : j = i
  · subst same
    rw [present]
    simp [works, BmonModule.enable]
  · simp [same]

theorem requested_cons {ss : BmonSubsys} {conf : ModuleConf} {i : Nat}
    (found : moduleLookup ss conf.mName = some i) (rest : List ModuleConf) :
    requested ss (conf :: rest) =
      if ss.sModList[i]?.any fun m => m.Works then i :: requested ss rest
      else requested ss rest := by
  have head : (conf :: rest).filterMap (fun conf => moduleLookup ss conf.mName) =
      i :: rest.filterMap fun conf => moduleLookup ss conf.mName := List.filterMap_cons_some found
  unfold requested
  rw [head, List.filter_cons]

/-- The counter gets ahead during a selection just when a module that works is asked for twice
or is enabled already. -/
theorem excess_moduleSetLoop {confs : List ModuleConf} {ss ss' : BmonSubsys}
    (returned : moduleSetLoop confs ss = .ok ss') :
    ss.excess ≤ ss'.excess ∧ (ss'.excess = ss.excess ↔ AsksOnce ss confs) := by
  induction confs generalizing ss with
  | nil =>
    obtain rfl := Except.ok.inj returned
    exact ⟨le_rfl, iff_of_true rfl ⟨List.nodup_nil, fun _ member => absurd member
      List.not_mem_nil⟩⟩
  | cons conf rest inductionHypothesis =>
    rw [moduleSetLoop] at returned
    cases found : moduleLookup ss conf.mName with
    | none =>
      rw [found] at returned
      cases returned
    | some i =>
      rw [found] at returned
      obtain ⟨later, same⟩ := inductionHypothesis returned
      unfold AsksOnce at same ⊢
      rw [requested_moduleConfigure] at same
      by_cases works : ss.sModList[i]?.any fun m => m.Works
      · obtain ⟨m, present, holds⟩ := (Option.any_eq_true _ _).mp works
        have first := excess_moduleConfigure present (of_decide_eq_true holds)
        have enabled : Enabled ss i ↔ m.mFlags.enabled = true := by
          unfold Enabled
          rw [present]
          simp
        simp only [enabled_moduleConfigure_iff present (of_decide_eq_true holds), not_or] at same
        rw [requested_cons found, if_pos works, List.nodup_cons, List.forall_mem_cons, enabled]
        refine ⟨?_, ?_⟩
        · refine le_trans ?_ later
          rw [first]
          split_ifs <;> omega
        · constructor
          · intro equal
            have idle : ¬ m.mFlags.enabled = true := fun on => by
              rw [first, if_pos on] at later
              omega
            rw [first, if_neg idle, Int.add_zero] at same
            obtain ⟨nodup, fresh⟩ := same.mp equal
            exact ⟨⟨fun member => (fresh i member).1 rfl, nodup⟩, idle,
              fun j member => (fresh j member).2⟩
          · rintro ⟨⟨new, nodup⟩, idle, fresh⟩
            rw [first, if_neg idle, Int.add_zero] at same
            exact same.mpr ⟨nodup, fun j member =>
              ⟨fun isFirst => new (isFirst ▸ member), fresh j member⟩⟩
      · rw [moduleConfigure_fails works] at later same
        rw [requested_cons found, if_neg works]
        exact ⟨later, same⟩

/-- `module_set` gets ahead just when it makes such a selection. -/
theorem excess_moduleSet {ss ss' : BmonSubsys} {name : Option (List Char)} {rc : Int}
    (returned : moduleSet ss name = .ok (ss', rc)) :
    ss.excess ≤ ss'.excess ∧
      (ss'.excess = ss.excess ↔ ∀ given ∈ name, strcasecmp given ['l', 'i', 's', 't'] ≠ 0 →
        ∀ confs, parseModuleParam given = .ok confs → AsksOnce ss confs) := by
  cases name with
  | none =>
    obtain ⟨rfl, -⟩ := Prod.mk.inj (Except.ok.inj returned)
    exact ⟨le_rfl, iff_of_true rfl fun given member => by cases member⟩
  | some given =>
    rw [moduleSet] at returned
    simp only [Option.mem_def, Option.some.injEq, forall_eq']
    by_cases isList : strcasecmp given ['l', 'i', 's', 't'] = 0
    · rw [if_pos isList] at returned
      obtain ⟨rfl, -⟩ := Prod.mk.inj (Except.ok.inj returned)
      exact ⟨le_rfl, iff_of_true rfl fun other => absurd isList other⟩
    · rw [if_neg isList] at returned
      cases parsed : parseModuleParam given with
      | error message =>
        rw [parsed] at returned
        cases returned
      | ok confs =>
        rw [parsed] at returned
        simp only [bind, Except.bind] at returned
        cases looped : moduleSetLoop confs ss with
        | error message =>
          rw [looped] at returned
          cases returned
        | ok configured =>
          rw [looped] at returned
          simp only at returned
          split_ifs at returned
          obtain ⟨rfl, -⟩ := Prod.mk.inj (Except.ok.inj returned)
          obtain ⟨later, same⟩ := excess_moduleSetLoop looped
          rw [excess_autoLoadAll, same]
          refine ⟨later, fun once _ confs' isConfs => ?_, fun all => all isList confs rfl⟩
          obtain rfl := Except.ok.inj isConfs
          exact once

/-! ### The default module -/

/-- A counter of zero that is not behind leaves nothing enabled. -/
theorem unselected_of_excess {ss : BmonSubsys} (ahead : 0 ≤ ss.excess) (zero : ss.sNmod = 0) :
    Unselected ss := by
  refine ⟨zero, fun i enabled => ?_⟩
  obtain ⟨m, present, on⟩ := enabled
  unfold BmonSubsys.excess BmonSubsys.enabledCount at ahead
  have positive : 0 < ss.sModList.countP fun m => m.mFlags.enabled :=
    List.countP_pos_iff.mpr ⟨m, List.mem_of_getElem? present, on⟩
  omega

/-- The first request decides for an output module too. -/
theorem outputActivateDefault_eq {ss : BmonSubsys} (unselected : Unselected ss) :
    outputActivateDefault ss =
      match moduleLookup ss cursesName with
      | none => .error ("Unknown " ++ ss.sName ++ " module: " ++ String.ofList cursesName ++ "\n")
      | some i =>
        let ss' := autoLoadAll (moduleConfigure ss i).1
        if ss'.sNmod = 0 then .error ("No working " ++ ss'.sName ++ " module found\n")
        else .ok ss' := by
  rw [outputActivateDefault, if_pos unselected.count, outputSet, moduleSet_plain ss (by decide)]
  cases moduleLookup ss cursesName with
  | none => rfl
  | some i =>
    simp only
    split_ifs <;> rfl

/-- Activating a default module leaves the counter as far ahead as it is. -/
theorem excess_sActivateDefault {kind : SubsysKind} {ss ss' : BmonSubsys} (ahead : 0 ≤ ss.excess)
    (returned : kind.sActivateDefault ss = .ok ss') : ss'.excess = ss.excess := by
  by_cases zero : ss.sNmod = 0
  · have unselected := unselected_of_excess ahead zero
    have request : ∃ i, ss' = autoLoadAll (moduleConfigure ss i).1 := by
      cases kind with
      | input =>
        rw [SubsysKind.sActivateDefault, activateDefault_eq unselected] at returned
        cases found : moduleLookup ss netlinkName with
        | none =>
          rw [found] at returned
          cases returned
        | some i =>
          rw [found] at returned
          simp only at returned
          split_ifs at returned
          exact ⟨i, (Except.ok.inj returned).symm⟩
      | output =>
        rw [SubsysKind.sActivateDefault, outputActivateDefault_eq unselected] at returned
        cases found : moduleLookup ss cursesName with
        | none =>
          rw [found] at returned
          cases returned
        | some i =>
          rw [found] at returned
          simp only at returned
          split_ifs at returned
          exact ⟨i, (Except.ok.inj returned).symm⟩
    obtain ⟨i, rfl⟩ := request
    rw [excess_autoLoadAll]
    by_cases works : ss.sModList[i]?.any fun m => m.Works
    · obtain ⟨m, present, holds⟩ := (Option.any_eq_true _ _).mp works
      rw [excess_moduleConfigure present (of_decide_eq_true holds),
        if_neg fun on => unselected.idle i ⟨m, present, on⟩, Int.add_zero]
    · rw [moduleConfigure_fails works]
  · have same : kind.sActivateDefault ss = .ok ss := by
      cases kind with
      | input => exact if_neg zero
      | output => exact if_neg zero
    obtain rfl := Except.ok.inj (same.symm.trans returned)
    rfl

/-! ### Every run -/

/-- The call lets the counter and the number of enabled modules move together: no module that
works is configured while it is enabled, and no enabled module fails to initialise, is shut down
or disables itself. -/
def SubsysOp.KeepsCount (ss : BmonSubsys) : SubsysOp → Prop
  | .moduleSet name => ∀ given ∈ name, strcasecmp given ['l', 'i', 's', 't'] ≠ 0 →
      ∀ confs, parseModuleParam given = .ok confs → AsksOnce ss confs
  | .moduleInit fails => ∀ i, Enabled ss i → fails i = false
  | .moduleShutdown shutsDown => ∀ i, Enabled ss i → shutsDown i = false
  | .disable i => ¬ Enabled ss i
  | _ => True

/-- Disabling modules lets the counter get ahead if one of them is enabled. -/
theorem excess_disableAll (ss : BmonSubsys) (which : Nat → Bool) :
    ss.excess ≤ (disableAll ss which).excess ∧
      ((disableAll ss which).excess = ss.excess ↔ ∀ i, Enabled ss i → which i = false) := by
  obtain ⟨fewer, same⟩ := countP_disable ss.sModList which
  have enabled : (∀ i, Enabled ss i → which i = false) ↔
      ∀ i m, ss.sModList[i]? = some m → m.mFlags.enabled = true → which i = false :=
    forall_congr' fun i => ⟨fun all m present on => all ⟨m, present, on⟩,
      fun all ⟨m, present, on⟩ => all m present on⟩
  rw [enabled, ← same]
  unfold BmonSubsys.excess BmonSubsys.enabledCount disableAll
  simp only
  omega

/-- Changing a module, but not its flags. -/
theorem countP_modify_of_flags (modules : List BmonModule) (i : Nat)
    {change : BmonModule → BmonModule} (keeps : ∀ m, (change m).mFlags = m.mFlags) :
    (modules.modify i change).countP (fun m => m.mFlags.enabled) =
      modules.countP fun m => m.mFlags.enabled := by
  induction modules generalizing i with
  | nil => rw [List.modify_nil]
  | cons first rest inductionHypothesis =>
    cases i with
    | zero => rw [List.modify_zero_cons, List.countP_cons, List.countP_cons, keeps]
    | succ i => rw [List.modify_succ_cons, List.countP_cons, List.countP_cons, inductionHypothesis]

/-- One call never lets the counter fall behind, and lets it get ahead just when it does not
keep the count. -/
theorem step_excess {kind : SubsysKind} {ss next : BmonSubsys} {op : SubsysOp}
    (ahead : 0 ≤ ss.excess) (stepped : op.step kind ss = some next) :
    ss.excess ≤ next.excess ∧ (next.excess = ss.excess ↔ op.KeepsCount ss) := by
  have unmoved {next : BmonSubsys} (same : next.excess = ss.excess) :
      ss.excess ≤ next.excess ∧ (next.excess = ss.excess ↔ True) :=
    ⟨same.ge, iff_of_true same trivial⟩
  cases op with
  | moduleRegister m =>
    rw [SubsysOp.step] at stepped
    split_ifs at stepped with off
    obtain rfl := Option.some.inj stepped
    refine unmoved ?_
    unfold BmonSubsys.excess BmonSubsys.enabledCount moduleRegister
    simp [List.countP_append, off]
  | moduleSet name =>
    rw [SubsysOp.step] at stepped
    cases returned : Bmon.moduleSet ss name with
    | error message =>
      rw [returned] at stepped
      cases stepped
    | ok result =>
      rw [returned] at stepped
      obtain rfl := Option.some.inj stepped
      exact excess_moduleSet returned
  | activateDefault =>
    rw [SubsysOp.step] at stepped
    cases returned : kind.sActivateDefault ss with
    | error message =>
      rw [returned] at stepped
      cases stepped
    | ok ss' =>
      rw [returned] at stepped
      obtain rfl := Option.some.inj stepped
      exact unmoved (excess_sActivateDefault ahead returned)
  | moduleInit fails =>
    obtain rfl := Option.some.inj stepped
    exact excess_disableAll ss fails
  | moduleShutdown shutsDown =>
    obtain rfl := Option.some.inj stepped
    exact excess_disableAll ss shutsDown
  | disable i =>
    obtain rfl := Option.some.inj stepped
    obtain ⟨fewer, same⟩ := excess_disableAll ss fun j => j = i
    refine ⟨fewer, same.trans ⟨fun all enabled => ?_, fun off j enabled => ?_⟩⟩
    · exact of_decide_eq_false (all i enabled) rfl
    · exact decide_eq_false fun isFirst => off (isFirst ▸ enabled)
  | probes i works =>
    obtain rfl := Option.some.inj stepped
    refine unmoved ?_
    exact congrArg (fun count : Nat => ss.sNmod - (count : Int))
      (countP_modify_of_flags ss.sModList i fun _ => rfl)

/-- When the counter of modules is exact. In every run of a subsystem, with any modules, any
requests for them, and any outcome of their probes and initialisations, the counter equals the
number of enabled modules just when every call lets the two move together. Then the tests of
`s_nmod` decide whether a module is enabled. -/
theorem sNmod_exact_iff (kind : SubsysKind) (sName : String) (ops : List SubsysOp)
    (ss : BmonSubsys)
    (ran : Runs.run (SubsysOp.step kind) (BmonSubsys.start sName) ops = some ss) :
    (ss.sNmod = ss.enabledCount ↔
        Runs.Every (SubsysOp.step kind) SubsysOp.KeepsCount (BmonSubsys.start sName) ops) ∧
      (ss.sNmod = ss.enabledCount → (ss.sNmod = 0 ↔ ∀ i, ¬ Enabled ss i)) := by
  have ahead := Runs.run_measure_eq_iff (fun ss : BmonSubsys => 0 ≤ ss.excess) BmonSubsys.excess
    (fun _ _ _ before stepped => before.trans (step_excess before stepped).1)
    (fun _ _ _ before stepped => step_excess before stepped) le_rfl ran
  have start : (BmonSubsys.start sName).excess = 0 := rfl
  rw [start] at ahead
  refine ⟨?_, fun exact => ⟨fun zero => (unselected_of_excess ahead.1 zero).idle, fun idle => ?_⟩⟩
  · rw [← ahead.2]
    unfold BmonSubsys.excess
    omega
  · rw [exact]
    unfold BmonSubsys.enabledCount
    rw [Int.natCast_eq_zero, List.countP_eq_zero]
    intro m member on
    obtain ⟨i, present⟩ := List.mem_iff_getElem?.mp member
    exact idle i ⟨m, present, on⟩

instance (ss : BmonSubsys) (i : Nat) : Decidable (Enabled ss i) :=
  decidable_of_iff (ss.sModList[i]?.any fun m => m.mFlags.enabled) (Option.any_eq_true _ _)

instance (ss : BmonSubsys) (confs : List ModuleConf) : Decidable (AsksOnce ss confs) :=
  inferInstanceAs (Decidable (_ ∧ _))

theorem plainName_netlink : PlainName netlinkName := by decide

theorem plainName_proc : PlainName procName := by decide

/-- Two input modules register, and the user asks for modules by name. -/
def linuxRequest (name : List Char) : List SubsysOp :=
  [.moduleRegister ⟨netlinkName, some true, { isDefault := true }, plainName_netlink⟩,
    .moduleRegister ⟨procName, some true, {}, plainName_proc⟩, .moduleSet (some name)]

/-- Asking for one module counts it. -/
theorem sNmod_exact_proc :
    ∃ ss, Runs.run (SubsysOp.step .input) (BmonSubsys.start "input") (linuxRequest procName) =
        some ss ∧ ss.sNmod = ss.enabledCount := by
  have run : (Runs.run (SubsysOp.step .input) (BmonSubsys.start "input")
      (linuxRequest procName)).isSome := by decide +kernel
  obtain ⟨ss, ran⟩ := Option.isSome_iff_exists.mp run
  refine ⟨ss, ran, (sNmod_exact_iff .input "input" _ ss ran).1.mpr ?_⟩
  refine ⟨trivial, fun first stepped => ⟨trivial, fun second stepped' => ⟨?_, fun _ _ => trivial⟩⟩⟩
  obtain rfl := Option.some.inj stepped
  obtain rfl := Option.some.inj stepped'
  intro given isName _ confs parsed
  obtain rfl := Option.some.inj isName
  rw [parseModuleParam_plain (by decide) (by decide) (by decide)] at parsed
  obtain rfl := Except.ok.inj parsed
  decide +kernel

/-- Asking for `proc` twice counts it twice. And when `netlink` fails to initialise, the counter
of its subsystem stays at one, with nothing enabled. -/
theorem sNmod_ahead :
    (Runs.run (SubsysOp.step .input) (BmonSubsys.start "input")
        (linuxRequest (procName ++ [','] ++ procName))).map
        (fun ss => (ss.sNmod, ss.enabledCount)) = some (2, 1) ∧
      (Runs.run (SubsysOp.step .input) (BmonSubsys.start "input")
        (linuxRequest netlinkName ++ [.moduleInit fun i => i = 0])).map
        (fun ss => (ss.sNmod, ss.enabledCount)) = some (1, 0) := by
  constructor <;> decide +kernel

end Bmon
