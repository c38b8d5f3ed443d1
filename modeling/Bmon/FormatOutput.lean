/-
This file follows the interfaces of `proc` to what the output `format` prints.

`format_draw` prints the fields of one element after the other, in the order of the traversal. An
element of `proc` is at the top of its group, without children, and all that can be printed of it
is what is kept of its interface, its configuration, and how many elements there are. So the text
of a turn is computed from the accepted lines of the files alone: the table of the leases says which
interfaces there are and in which order, and the machine of each says what is printed of it.
-/

import Bmon.FormatTokens
import Bmon.Limits
import Bmon.ProcTotals

namespace Bmon

/-! ### Drawing -/

/-- `draw_element`, with the records it reads. -/
def formatElement (attrDefs : List AttrDef) (m : FormatModule) (σ : Store) (g : GroupPtr)
    (e : ElementPtr) : List Char :=
  match σ.groups g, σ.elements e with
  | some group, some r => formatDrawElement attrDefs σ group e r m
  | _, _ => []

/-- What `format_draw` prints. -/
def formatText (attrDefs : List AttrDef) (m : FormatModule) (σ : Store) : List Char :=
  groupForeachRecursive (fun _ => σ) (fun text g e => text ++ formatElement attrDefs m σ g e) []

/-- The main loop with the input `proc` and the output `format`: what is printed in each turn,
until `format_draw` has counted `c_quit_after` down to zero and leaves the program. -/
def formatLoop (ctx : ReadContext) (g : GroupPtr) (fuel : Nat) (m : FormatModule) :
    Int → State → List ProcCycle → Option (List (List Char))
  | _, _, [] => some []
  | cQuitAfter, st, c :: cycles =>
    (procCycle ctx g fuel st c).bind fun st =>
      let text := formatText ctx.attrDefs m st.store
      let left := if 0 < cQuitAfter then cQuitAfter - 1 else cQuitAfter
      if 0 < cQuitAfter ∧ left = 0 then some [text]
      else (formatLoop ctx g fuel m left st cycles).map (text :: ·)

/-! ### A group of interfaces -/

/-- What is printed of an element besides its attributes and its time to live is settled by its
configuration. -/
structure Element.Settled (cfg : Config) (cfgs : List ElementCfg) (r : Element) : Prop where
  level : r.eLevel = 0
  named : r.eCfg = cfgs.findIdx? fun ec => ec.ecName = r.eName
  usage : (r.eRxUsage, r.eTxUsage) = r.usage cfg cfgs

/-- The elements are at the top of one group, which counts them, and are settled. -/
structure Store.Plain (cfg : Config) (cfgs : List ElementCfg) (group : ElementGroup)
    (g : GroupPtr) (σ : Store) : Prop where
  alone : ∀ head, head ≠ .ofGroup g → σ.lists head = []
  cfgList : σ.cfgList = cfgs
  counted : σ.groups g = some { group with gNelements := (σ.lists (.ofGroup g)).length }
  settled : ∀ e ∈ σ.lists (.ofGroup g), ∀ r, σ.elements e = some r → r.Settled cfg cfgs

section

variable {cfg : Config} {cfgs : List ElementCfg} {group : ElementGroup} {g : GroupPtr} {σ : Store}

/-- A forest without children is its roots. -/
theorem Laid.preorder_eq_roots {head : ListHead} {forest : Forest ElementPtr}
    (laid : Laid σ head forest) (childless : ∀ e, σ.lists (.ofElement e) = []) :
    forest.preorder = forest.roots := by
  induction forest generalizing head with
  | nil => rfl
  | cons e childs siblings childsHypothesis siblingsHypothesis =>
    obtain ⟨-, below, laidBelow, laidBeside⟩ := laid
    rw [childless] at below
    rw [Forest.preorder, Forest.roots, childsHypothesis laidBelow, ← below, List.nil_append,
      siblingsHypothesis laidBeside]

/-- Drawing goes along the list of the group. -/
theorem Store.Plain.formatText_eq (plain : σ.Plain cfg cfgs group g) (wf : σ.WellFormed)
    (isGroup : g ∈ σ.groupList) (attrDefs : List AttrDef) (m : FormatModule) :
    formatText attrDefs m σ =
      (σ.lists (.ofGroup g)).flatMap (formatElement attrDefs m σ g) := by
  obtain ⟨forest, represents⟩ := wf.represents
  have keeps : KeepsShape (fun _ : List Char => σ)
      fun text g e => text ++ formatElement attrDefs m σ g e := fun _ _ _ => SameShape.refl σ
  have walked : formatText attrDefs m σ = σ.groupList.flatMap fun g' =>
      (σ.lists (.ofGroup g')).flatMap (formatElement attrDefs m σ g') := by
    rw [formatText, groupForeachRecursive_eq_foldl keeps [] represents]
    simp only [List.foldl_append_eq_append]
    rw [List.nil_append, ← List.flatMap_def]
    refine List.flatMap_congr fun g' member => ?_
    rw [← List.flatMap_def, (represents.laid g' member).preorder_eq_roots
      fun e => plain.alone _ (by simp), represents.roots g' member]
  -- the other groups are empty
  have others : ∀ g' ∈ σ.groupList, g' ≠ g →
      (σ.lists (.ofGroup g')).flatMap (formatElement attrDefs m σ g') = [] := fun g' _ other => by
    rw [plain.alone (.ofGroup g') fun same => other (ListHead.ofGroup.inj same), List.flatMap_nil]
  obtain ⟨before, after, parts⟩ := List.append_of_mem isGroup
  have distinct := wf.groups_nodup
  rw [parts] at distinct others
  obtain ⟨notBefore, notAfter⟩ : g ∉ before ∧ g ∉ after := by
    rw [List.nodup_append] at distinct
    exact ⟨fun member => distinct.2.2 g member g List.mem_cons_self rfl,
      (List.nodup_cons.mp distinct.2.1).1⟩
  have noText : ∀ groups : List GroupPtr, groups ⊆ before ++ g :: after → g ∉ groups →
      groups.flatMap (fun g' =>
        (σ.lists (.ofGroup g')).flatMap (formatElement attrDefs m σ g')) = [] :=
    fun groups inList absent => List.flatMap_eq_nil_iff.mpr fun g' member =>
      others g' (inList member) fun same => absent (same ▸ member)
  rw [walked, parts, List.flatMap_append, List.flatMap_cons,
    noText before (List.subset_append_left _ _) notBefore,
    noText after (fun g' member => List.mem_append_right _ (List.mem_cons_of_mem _ member))
      notAfter, List.nil_append, List.append_nil]

end

/-! ### A read leaves the group so -/

/-- Calls that leave the configurations, and put no element on another level. -/
def ElementOp.Quiet : ElementOp → Prop
  | .updateInfo _ _ => False
  | .setRxmax _ => False
  | .setTxmax _ => False
  | .setUp level => level = 0
  | _ => True

section

variable {ctx : ReadContext} {cfg : Config} {cfgs : List ElementCfg} {group : ElementGroup}
variable {g : GroupPtr} {fuel : Nat} {σ σ' : Store} {e : ElementPtr}

/-- The level of an element and its configuration. -/
def Element.label (r : Element) : UInt32 × Option CfgPtr := (r.eLevel, r.eCfg)

/-- A quiet call leaves an element at the top of a group where it is. -/
theorem ElementOp.Quiet.keeps {op : ElementOp} (quiet : op.Quiet)
    (top : (σ.elements e).map Element.eLevel = some 0) (called : op.apply cfg σ e = some σ') :
    σ'.cfgList = σ.cfgList ∧
      (σ'.elements e).map Element.label = (σ.elements e).map Element.label := by
  cases op with
  | lifesign =>
    obtain rfl := Option.some.inj called
    exact ⟨rfl, map_modifyElement Element.label σ e e fun _ => rfl⟩
  | updateInfo name value => exact quiet.elim
  | setRxmax max => exact quiet.elim
  | setTxmax max => exact quiet.elim
  | setKeyAttr attrDefs major minor =>
    obtain rfl := Option.some.inj called
    exact elementSetKeyAttr_rule (fun σ' => σ'.cfgList = σ.cfgList ∧
      (σ'.elements e).map Element.label = (σ.elements e).map Element.label)
      (fun σ' column definition before => ⟨before.1,
        (map_modifyElement Element.label σ' e e fun r =>
          show (r.setKeyAttr column definition).label = r.label from rfl).trans before.2⟩)
      attrDefs major minor ⟨rfl, rfl⟩
  | setUsageAttr attrDefs usage =>
    obtain rfl := Option.some.inj called
    exact ⟨rfl, map_modifyElement Element.label σ e e fun _ => rfl⟩
  | attrUpdate attrDefs historyDefs id rx tx flags now =>
    obtain rfl := Option.some.inj called
    exact ⟨rfl, map_modifyElement Element.label σ e e fun _ => rfl⟩
  | notifyUpdate fuel ts =>
    obtain rfl | ⟨-, attrs, -, -, usage, rfl⟩ := elementNotifyUpdate_cases called
    · exact ⟨rfl, rfl⟩
    · exact ⟨rfl, map_modifyElement Element.label σ e e fun _ => rfl⟩
  | setUp level =>
    obtain rfl := Option.some.inj called
    obtain rfl : level = 0 := quiet
    obtain ⟨r, found, isTop⟩ := Option.map_eq_some_iff.mp top
    refine ⟨rfl, ?_⟩
    simp only [Store.modifyElement, if_true, found, Option.map_some, Element.label, isTop]
    rfl

/-- So do some quiet calls. -/
theorem run_quiet {ops : List ElementOp} (quiet : ∀ op ∈ ops, op.Quiet)
    (top : (σ.elements e).map Element.eLevel = some 0)
    (ran : Runs.run (InputOp.apply cfg) σ (ops.map (InputOp.onElement e)) = some σ') :
    σ'.cfgList = σ.cfgList ∧
      (σ'.elements e).map Element.label = (σ.elements e).map Element.label := by
  refine Runs.run_invariant_of_mem (fun other : Store => other.cfgList = σ.cfgList ∧
    (other.elements e).map Element.label = (σ.elements e).map Element.label)
    (fun other op member next before stepped => ?_) ⟨rfl, rfl⟩ ran
  obtain ⟨op, isCall, rfl⟩ := List.mem_map.mp member
  rw [InputOp.apply] at stepped
  split_ifs at stepped
  have topOther : (other.elements e).map Element.eLevel = some 0 := by
    have same := congrArg (Option.map Prod.fst) before.2
    rw [Option.map_map, Option.map_map] at same
    exact same.trans top
  obtain ⟨cfgList, label⟩ := (quiet op isCall).keeps topOther stepped
  exact ⟨cfgList.trans before.1, label.trans before.2⟩

/-- The calls of a line are quiet. -/
theorem feedCalls_quiet (flags : UpdateFlags) (readings : List Reading) :
    ∀ op ∈ ctx.feedCalls fuel flags readings, op.Quiet := by
  intro op member
  unfold ReadContext.feedCalls at member
  rcases List.mem_append.mp member with update | isLast
  · obtain ⟨reading, -, rfl⟩ := List.mem_map.mp update
    trivial
  · simp only [List.mem_cons, List.not_mem_nil, or_false] at isLast
    rcases isLast with rfl | rfl <;> trivial

theorem setUpCalls_quiet (top : (σ.elements e).map Element.eLevel = some 0)
    {calls : List ElementOp} (setUp : ctx.setUpCalls σ e = some calls) :
    ∀ op ∈ calls, op.Quiet := by
  obtain ⟨r, found, isTop⟩ := Option.map_eq_some_iff.mp top
  unfold ReadContext.setUpCalls at setUp
  rw [found] at setUp
  simp only at setUp
  split_ifs at setUp
  · obtain rfl := Option.some.inj setUp
    intro op member
    simp only [List.mem_cons, List.not_mem_nil, or_false] at member
    rcases member with rfl | rfl | rfl
    · trivial
    · trivial
    · exact isTop
  · obtain rfl := Option.some.inj setUp
    exact fun op member => by cases member

/-- After the calls of a line the usage is that of the attributes. -/
theorem feedCalls_usage {flags : UpdateFlags} {readings : List Reading}
    (ran : Runs.run (InputOp.apply ctx.cfg) σ
      ((ctx.feedCalls fuel flags readings).map (InputOp.onElement e)) = some σ')
    {r : Element} (found : σ'.elements e = some r) :
    (r.eRxUsage, r.eTxUsage) = r.usage ctx.cfg σ'.cfgList := by
  unfold ReadContext.feedCalls at ran
  rw [List.map_append] at ran
  obtain ⟨middle, -, ranLast⟩ := Runs.run_append.mp ran
  obtain ⟨notified, notify, ranLifesign⟩ := Option.bind_eq_some_iff.mp ranLast
  obtain ⟨last, lifesign, same⟩ := Option.bind_eq_some_iff.mp ranLifesign
  obtain rfl := Option.some.inj same
  rw [InputOp.apply] at notify lifesign
  split_ifs at notify with present
  split_ifs at lifesign
  obtain rfl := Option.some.inj lifesign
  obtain ⟨before, isElement⟩ := Option.isSome_iff_exists.mp present
  rw [ElementOp.apply, elementNotifyUpdate, isElement] at notify
  obtain ⟨attrs, -, rfl⟩ := Option.map_eq_some_iff.mp notify
  simp only [elementLifesign, Store.modifyElement, if_true, isElement, Option.map_some,
    Option.some.injEq] at found
  rw [← found]
  rfl

/-- A maximum that is set to what it is. -/
theorem elementSetMax_same {r : Element} (found : σ.elements e = some r) {c : CfgPtr}
    (configured : r.eCfg = some c) {ec : ElementCfg} (isCfg : σ.cfgList[c]? = some ec)
    {direction : Direction} {max : UInt64} (same : ec.setMax direction max = ec)
    (info : String) :
    (elementSetMax direction info σ e max).cfgList = σ.cfgList ∧
      ((elementSetMax direction info σ e max).elements e).map Element.eCfg = some (some c) := by
  have kept : σ.cfgList.modify c (ElementCfg.setMax direction max) = σ.cfgList := by
    refine List.ext_getElem? fun i => ?_
    rw [List.getElem?_modify]
    split_ifs with isIndex
    · rw [← isIndex, isCfg]
      exact congrArg some same
    · exact id_map _
  have ensured : elementEnsureCfg σ e r = (σ, c) := by
    unfold elementEnsureCfg
    rw [configured]
  rw [elementSetMax_of_some found, ensured, kept]
  refine ⟨rfl, ?_⟩
  refine (map_modifyElement Element.eCfg σ e e fun r =>
    field_updateInfo Element.eCfg (fun _ _ _ => rfl) r _ _).trans ?_
  rw [found, Option.map_some, configured]

/-- An element whose configuration is applied keeps it, and leaves it as it is. -/
theorem elementConfigure_same {c : CfgPtr}
    (configured : (σ.elements e).map Element.eCfg = some (some c)) {ec : ElementCfg}
    (isCfg : σ.cfgList[c]? = some ec) :
    (elementConfigure σ e (some ec)).cfgList = σ.cfgList ∧
      ((elementConfigure σ e (some ec)).elements e).map Element.eCfg = some (some c) := by
  obtain ⟨σ₁, cfgs, first, unfolded⟩ : ∃ σ₁ : Store, σ₁.cfgList = σ.cfgList ∧
      (σ₁.elements e).map Element.eCfg = some (some c) ∧ elementConfigure σ e (some ec) =
        elementSetMax .tx "TxMax" (elementSetMax .rx "RxMax" σ₁ e ec.ecRxmax) e ec.ecTxmax := by
    unfold elementConfigure
    simp only
    cases ec.ecDescription with
    | none => exact ⟨σ, rfl, configured, rfl⟩
    | some description =>
      exact ⟨elementUpdateInfo σ e "Description" description, rfl,
        (map_modifyElement Element.eCfg σ e e fun r =>
          field_updateInfo Element.eCfg (fun _ _ _ => rfl) r _ _).trans configured, rfl⟩
  obtain ⟨r₁, found₁, configured₁⟩ := Option.map_eq_some_iff.mp first
  obtain ⟨sameRx, keptRx⟩ := elementSetMax_same found₁ configured₁ (cfgs ▸ isCfg)
    (show ec.setMax .rx ec.ecRxmax = ec from rfl) "RxMax"
  obtain ⟨r₂, found₂, configured₂⟩ := Option.map_eq_some_iff.mp keptRx
  obtain ⟨sameTx, keptTx⟩ := elementSetMax_same found₂ configured₂
    ((sameRx.trans cfgs) ▸ isCfg) (show ec.setMax .tx ec.ecTxmax = ec from rfl) "TxMax"
  rw [unfolded]
  exact ⟨sameTx.trans (sameRx.trans cfgs), keptTx⟩

/-- A new element has the configuration of its name, which it leaves as it is. -/
theorem elementCreate_configured (cfg : Config) (σ : Store) (g : GroupPtr) (name : CString)
    (id : UInt32) (parent : Option ElementPtr) :
    (elementCreate cfg σ g name id parent).cfgList = σ.cfgList ∧
      ((elementCreate cfg σ g name id parent).elements σ.nextElement).map Element.eCfg =
        some (elementCfgLookup σ name) := by
  have alloc : ((elementAlloc σ (elementNew cfg g name id parent
      (elementCfgLookup σ name))).elements σ.nextElement).map Element.eCfg =
        some (elementCfgLookup σ name) := by
    unfold elementAlloc
    simp only [if_true, Option.map_some]
    rfl
  show (elementConfigure _ _ _).cfgList = _ ∧
    ((elementConfigure _ _ _).elements σ.nextElement).map Element.eCfg = _
  cases found : elementCfgLookup σ name with
  | none =>
    rw [found] at alloc
    exact ⟨rfl, alloc⟩
  | some c =>
    rw [found] at alloc
    obtain ⟨inside, -, -⟩ := List.findIdx?_eq_some_iff_getElem.mp found
    have isCfg : σ.cfgList[c]? = some σ.cfgList[c] := List.getElem?_eq_getElem inside
    rw [Option.bind_some, isCfg]
    exact elementConfigure_same alloc isCfg

/-- A group of interfaces up to one of its elements, which is about to be fed. -/
structure Store.PlainBut (e : ElementPtr) (cfg : Config) (cfgs : List ElementCfg)
    (group : ElementGroup) (g : GroupPtr) (σ : Store) : Prop where
  alone : ∀ head, head ≠ .ofGroup g → σ.lists head = []
  cfgList : σ.cfgList = cfgs
  counted : σ.groups g = some { group with gNelements := (σ.lists (.ofGroup g)).length }
  others : ∀ x ∈ σ.lists (.ofGroup g), x ≠ e → ∀ r, σ.elements x = some r → r.Settled cfg cfgs
  fed : ∃ r, σ.elements e = some r ∧ r.eLevel = 0 ∧
    r.eCfg = cfgs.findIdx? fun ec => ec.ecName = r.eName

/-- The element that is looked up for a line. -/
theorem Store.Plain.lookUp (plain : σ.Plain cfg cfgs group g) (wf : σ.WellFormed)
    {middle : Store} {name : CString}
    (either : (σ.tracked g name = some e ∧ middle = σ) ∨
      (σ.tracked g name = none ∧ σ.allows name = true ∧ e = σ.nextElement ∧
        middle = elementCreate cfg σ g name 0 none)) :
    middle.PlainBut e cfg cfgs group g := by
  obtain ⟨tracked, rfl⟩ | ⟨-, -, rfl, rfl⟩ := either
  · obtain ⟨member, r, found, -⟩ := tracked_eq_some tracked
    have settled := plain.settled e member r found
    exact ⟨plain.alone, plain.cfgList, plain.counted,
      fun x inList _ => plain.settled x inList, ⟨r, found, settled.level, settled.named⟩⟩
  · have touches := touches_elementCreate cfg σ g name 0 none
    obtain ⟨cfgList, configured⟩ := elementCreate_configured cfg σ g name 0 none
    have lists := fun head => (congrFun touches.lists head).trans
      (wf.lists_elementLinked cfg g name 0 none head)
    refine ⟨fun head other => ?_, cfgList.trans plain.cfgList, ?_, fun x member other r found => ?_,
      ?_⟩
    · rw [lists, plain.alone head other, show listOf g none = .ofGroup g from rfl, if_neg other,
        List.append_nil]
    · rw [touches.groups, lists, show listOf g none = .ofGroup g from rfl, if_pos rfl,
        List.length_append, List.length_singleton]
      refine (if_pos rfl).trans ?_
      show Option.map _ (σ.groups g) = _
      rw [plain.counted, Option.map_some]
    · rw [lists, show listOf g none = .ofGroup g from rfl, if_pos rfl] at member
      rw [touches.others x other, elements_elementLinked, if_neg other] at found
      have old := (List.mem_append.mp member).resolve_right fun isNew =>
        other (List.mem_singleton.mp isNew)
      exact plain.settled x old r found
    · have record := map_elementCreate (fun r => (r.eName, r.eLevel))
        (field_updateInfo (fun r => (r.eName, r.eLevel)) fun _ _ _ => rfl) (fun _ _ => rfl) cfg σ g
        name 0 none σ.nextElement
      rw [if_pos rfl] at record
      obtain ⟨r, found, fields⟩ := Option.map_eq_some_iff.mp record
      obtain ⟨isName, level⟩ := Prod.mk.inj fields
      rw [found, Option.map_some] at configured
      refine ⟨r, found, level, ?_⟩
      rw [Option.some.inj configured, show r.eName = name from isName, ← plain.cfgList]
      rfl

/-- The line of an interface leaves the group so. -/
theorem Store.Plain.feedLine (plain : σ.Plain ctx.cfg cfgs group g) (wf : σ.WellFormed)
    {line : ProcLine} (fed : ctx.feedLine g fuel σ line = some σ') :
    σ'.Plain ctx.cfg cfgs group g := by
  obtain ⟨looked, e, lookedUp, found, ran⟩ := feedLine_cases fed
  obtain ⟨calls, middle, setUp, ranSetUp, either⟩ := lookUp_cases lookedUp found
  obtain ⟨alone, cfgList, counted, others, r, isElement, level, named⟩ := plain.lookUp wf either
  have top : (middle.elements e).map Element.eLevel = some 0 := by
    rw [isElement, Option.map_some, level]
  obtain ⟨cfgsSetUp, labelSetUp⟩ := run_quiet (setUpCalls_quiet top setUp) top ranSetUp
  have topSetUp : (looked.store.elements e).map Element.eLevel = some 0 := by
    have same := congrArg (Option.map Prod.fst) labelSetUp
    rw [Option.map_map, Option.map_map] at same
    exact same.trans top
  obtain ⟨cfgsFed, labelFed⟩ := run_quiet (feedCalls_quiet _ _) topSetUp ran
  have touches := (touches_run ranSetUp).trans (touches_run ran)
  have sameCfgs : σ'.cfgList = cfgs := cfgsFed.trans (cfgsSetUp.trans cfgList)
  refine ⟨fun head other => ?_, sameCfgs, ?_, fun x member r' after => ?_⟩
  · rw [touches.lists, alone head other]
  · rw [touches.groups, touches.lists, counted]
  · by_cases same : x = e
    · subst same
      have label := labelFed.trans labelSetUp
      rw [after, isElement, Option.map_some, Option.map_some] at label
      obtain ⟨sameLevel, sameCfg⟩ := Prod.mk.inj (Option.some.inj label)
      have isName := touches.eName_eq x
      rw [after, isElement, Option.map_some, Option.map_some] at isName
      refine ⟨sameLevel.trans level, ?_, sameCfgs ▸ feedCalls_usage ran after⟩
      rw [Option.some.inj isName]
      exact sameCfg.trans named
    · rw [touches.lists] at member
      rw [touches.others x same] at after
      exact others x member same r' after

/-- So does the reset of the flags. -/
theorem Store.Plain.resetUpdateFlags (plain : σ.Plain cfg cfgs group g) :
    (Bmon.resetUpdateFlags σ).Plain cfg cfgs group g := by
  refine groupForeachRecursive_invariant elementResetUpdateFlag (fun σ g' e before => ?_) plain
  refine ⟨before.alone, before.cfgList, before.counted, fun x member r found => ?_⟩
  unfold elementResetUpdateFlag Store.modifyElement at found
  simp only at found
  split_ifs at found
  · obtain ⟨r', isElement, rfl⟩ := Option.map_eq_some_iff.mp found
    obtain ⟨level, named, usage⟩ := before.settled x member r' isElement
    exact ⟨level, named, usage⟩
  · exact before.settled x member r found

/-- The sweep leaves the configurations. -/
theorem applyAll_cfgList {st : State} {effects : List Effect} (legal : LegalAll st effects) :
    (applyAll st effects).store.cfgList = st.store.cfgList := by
  induction effects generalizing st with
  | nil => rfl
  | cons effect rest inductionHypothesis =>
    refine (inductionHypothesis legal.2).trans ?_
    cases effect with
    | tick e => rfl
    | release e =>
      obtain ⟨g, change, store⟩ := elementRelease_store legal.1.1
      rw [Effect.apply, store]
      rfl

/-- The elements of a forest without children that are freed are those at its top that are. -/
theorem countP_freed {st : State} {forest : GroupPtr → Forest ElementPtr}
    (wf : st.store.WellFormed) (represents : Represents st.store forest)
    (isGroup : g ∈ st.store.groupList) (childless : ∀ e, st.store.lists (.ofElement e) = [])
    {freed : List ElementPtr} (nodup : freed.Nodup) :
    freed.countP (fun e => decide (st.store.eGroup e = some g)) =
      (st.store.lists (.ofGroup g)).countP fun e => decide (e ∈ freed) := by
  rw [List.countP_eq_length_filter, List.countP_eq_length_filter]
  refine ((List.perm_ext_iff_of_nodup (nodup.filter _) (List.Nodup.filter _ ?_)).mpr
    fun e => ?_).length_eq
  · exact wf.lists_nodup _
  · have inList : e ∈ st.store.lists (.ofGroup g) ↔ st.store.eGroup e = some g := by
      rw [← wf.inForest_iff, ← wf.mem_preorder_iff represents isGroup,
        (represents.laid g isGroup).preorder_eq_roots childless, represents.roots g isGroup]
    rw [List.mem_filter, List.mem_filter, decide_eq_true_iff, decide_eq_true_iff, inList, and_comm]

/-- So does the sweep. -/
theorem Store.Plain.sweep {st : State} (plain : st.store.Plain cfg cfgs group g)
    (wf : st.store.WellFormed) (isGroup : g ∈ st.store.groupList) :
    (freeUnusedElements st).store.Plain cfg cfgs group g := by
  obtain ⟨forest, represents⟩ := wf.represents
  obtain ⟨swept, legal⟩ := freeUnusedElements_eq represents
  obtain ⟨lists, left⟩ := sweep_top_elements wf isGroup
  refine ⟨fun head other => ?_, ?_, ?_, fun e member r found => ?_⟩
  · rw [swept, applyAll_lists legal, plain.alone head other, List.filter_nil]
  · rw [swept, applyAll_cfgList legal, plain.cfgList]
  · rw [swept, applyAll_groups legal, applyAll_lists legal, plain.counted, Option.map_some,
      countP_freed wf represents isGroup (fun e => plain.alone _ (by simp)) legal.nodup_freedBy,
      ← List.countP_eq_length_filter]
    have parts := List.length_eq_countP_add_countP
      (fun e => decide (e ∈ freedBy (sweepAll st.store forest))) (l := st.store.lists (.ofGroup g))
    have kept : (st.store.lists (.ofGroup g)).countP
        (fun e => decide ¬decide (e ∈ freedBy (sweepAll st.store forest)) = true) =
        (st.store.lists (.ofGroup g)).countP
          fun e => decide (e ∉ freedBy (sweepAll st.store forest)) :=
      List.countP_congr fun e _ => by simp
    rw [parts, kept, Nat.add_sub_cancel_left]
  · rw [lists] at member
    obtain ⟨before, more⟩ := List.mem_filter.mp member
    rw [left e before (of_decide_eq_true more)] at found
    obtain ⟨r', isElement, rfl⟩ := Option.map_eq_some_iff.mp found
    obtain ⟨level, named, usage⟩ := plain.settled e before r' isElement
    exact ⟨level, named, usage⟩

/-- A turn of the main loop leaves the group so. -/
theorem procCycle_plain {allows : CString → Bool} {st last : State} {c : ProcCycle}
    (admits : st.store.Admits allows g) (plain : st.store.Plain ctx.cfg cfgs group g)
    (ran : procCycle ctx g fuel st c = some last) : last.store.Plain ctx.cfg cfgs group g := by
  obtain ⟨middle, s, -, fed, kept, swept, -⟩ := procCycle_cases admits ran
  have both := Runs.run_invariant
    (fun σ : Store => σ.Admits allows g ∧ σ.Plain (ctx.atTime c.now).cfg cfgs group g)
    (fun _ _ _ before fedLine =>
      ⟨before.1.feedLine fedLine, before.2.feedLine before.1.wf fedLine⟩)
    ⟨admits.resetUpdateFlags, plain.resetUpdateFlags⟩ fed
  rw [swept]
  exact Store.Plain.sweep (show (State.mk middle s).store.Plain ctx.cfg cfgs group g from both.2)
    kept.wf kept.isGroup

/-- So do some turns, and the group tracks all its elements. -/
theorem procCycles_plain {allows : CString → Bool} {st last : State} {cycles : List ProcCycle}
    (admits : st.store.Admits allows g) (plain : st.store.Plain ctx.cfg cfgs group g)
    (all : st.store.TracksAll g) (ran : Runs.run (procCycle ctx g fuel) st cycles = some last) :
    last.store.Admits allows g ∧ last.store.Plain ctx.cfg cfgs group g ∧
      last.store.TracksAll g :=
  Runs.run_invariant (fun st : State => st.store.Admits allows g ∧
      st.store.Plain ctx.cfg cfgs group g ∧ st.store.TracksAll g)
    (fun _ _ _ before turned => ⟨procCycle_admits before.1 turned,
      procCycle_plain before.1 before.2.1 turned,
      (procCycle_named before.1 before.2.2 turned ⟨[], by decide⟩).1⟩)
    ⟨admits, plain, all⟩ ran

end

/-! ### What is printed of an interface -/

/-- The element of an interface, where there is no other one: its configuration is the only one. -/
def Interface.element (cfg : Config) (ec : Option ElementCfg) (name : CString) (i : Interface) :
    Element :=
  let r := { elementNew cfg 0 name 0 none (some 0) with
    eAttrs := i.eAttrs
    eLifecycles := i.eLifecycles }
  { r with
    eRxUsage := (r.usage cfg ec.toList).1
    eTxUsage := (r.usage cfg ec.toList).2 }

/-- What is printed of an interface alone, in a group that counts some more. -/
def Interface.text (cfg : Config) (attrDefs : List AttrDef) (m : FormatModule)
    (group : ElementGroup) (ec : Option ElementCfg) (name : CString) (i : Interface) : List Char :=
  formatDrawElement attrDefs (Store.start [] [] [] []) group 0 (i.element cfg ec name) m

section

variable {cfg : Config} {cfgs : List ElementCfg} {group : ElementGroup} {g : GroupPtr} {σ : Store}
variable {e : ElementPtr}

/-- Fields of an element without a parent and without children are those of its record. -/
theorem getToken_alone (attrDefs : List AttrDef) (group : ElementGroup) {r : Element}
    (parent : r.eParent = none) (childless : σ.lists (.ofElement e) = []) (token : List Char) :
    getToken attrDefs σ group e r token =
      getToken attrDefs (Store.start [] [] [] []) group 0 r token := by
  unfold getToken elementToken
  rw [parent, childless]
  rfl

/-- The usage is computed from the attributes and the configuration. -/
theorem usage_congr (cfg : Config) {cfgs cfgs' : List ElementCfg} {r r' : Element}
    (attrs : r.eAttrs = r'.eAttrs)
    (configured : (r.eCfg.bind fun c => cfgs[c]?) = r'.eCfg.bind fun c => cfgs'[c]?) :
    r.usage cfg cfgs = r'.usage cfg cfgs' := by
  unfold Element.usage
  rw [attrs, configured]

theorem findIdx?_bind_getElem? {Entry : Type*} (entries : List Entry) (p : Entry → Bool) :
    ((entries.findIdx? p).bind fun i => entries[i]?) = entries.find? p := by
  induction entries with
  | nil => rfl
  | cons entry rest inductionHypothesis =>
    rw [List.findIdx?_cons, List.find?_cons]
    cases p entry with
    | true => rfl
    | false =>
      rw [← inductionHypothesis]
      cases List.findIdx? p rest <;> rfl

/-- An element of the group is printed as its interface alone. -/
theorem Store.Plain.formatElement_eq (plain : σ.Plain cfg cfgs group g) (wf : σ.WellFormed)
    (member : e ∈ σ.lists (.ofGroup g)) {r : Element} (found : σ.elements e = some r)
    (noId : r.eId = 0) (attrDefs : List AttrDef) (m : FormatModule) :
    formatElement attrDefs m σ g e =
      r.interface.text cfg attrDefs m
        { group with gNelements := (σ.lists (.ofGroup g)).length }
        (cfgs.find? fun ec => ec.ecName = r.eName) r.eName := by
  obtain ⟨level, named, usage⟩ := plain.settled e member r found
  have parent : r.eParent = none := by
    obtain ⟨place, present, head⟩ := wf.owned _ e member
    rw [Store.place, found, Option.map_some] at present
    obtain rfl := Option.some.inj present
    exact (head_eq_ofGroup_iff.mp head).1
  have alone : ∀ ec, (cfgs.find? fun ec => ec.ecName = r.eName) = ec →
      r.usage cfg cfgs = Element.usage cfg ec.toList { elementNew cfg 0 r.eName 0 none (some 0) with
        eAttrs := r.eAttrs
        eLifecycles := r.eLifecycles } := by
    rintro ec rfl
    refine usage_congr cfg rfl ?_
    rw [named, findIdx?_bind_getElem?]
    show _ = (List.find? _ cfgs).toList[0]?
    cases cfgs.find? fun ec => ec.ecName = r.eName <;> rfl
  obtain ⟨ec, isCfg⟩ : ∃ ec, (cfgs.find? fun ec => ec.ecName = r.eName) = ec := ⟨_, rfl⟩
  rw [alone ec isCfg] at usage
  obtain ⟨rx, tx⟩ := Prod.mk.inj usage
  unfold formatElement Interface.text formatDrawElement
  rw [plain.counted, found, isCfg]
  simp only
  refine congrArg (fun fields => drawElement fields m) (funext fun token => ?_)
  rw [getToken_alone attrDefs _ parent (plain.alone _ (by simp))]
  unfold getToken elementToken
  rw [level, noId, parent, rx, tx]
  rfl

end

/-! ### What is printed in a turn -/

/-- The interfaces after some turns, with the sweeps that are left to them. -/
def ReadContext.leaseTable (ctx : ReadContext) (allows : CString → Bool)
    (cycles : List ProcCycle) : List (CString × Nat) :=
  Leases.rounds (sweepsLeft (getLifecycles ctx.cfg))
    (cycles.map fun c => acceptedNames allows c.content)

/-- What is kept of an interface after some turns, from its own lines. -/
def ReadContext.interfaceAlone (ctx : ReadContext) (fuel : Nat) (allows : CString → Bool)
    (cycles : List ProcCycle) (name : CString) : Option Interface :=
  (Runs.run (Interface.turn ctx fuel) none
    (cycles.map fun c => (c.now, ownLines allows name c.content))).join

/-- The text of the interfaces after some turns, in the order of the table. -/
def ReadContext.printed (ctx : ReadContext) (fuel : Nat) (m : FormatModule)
    (group : ElementGroup) (cfgs : List ElementCfg) (allows : CString → Bool)
    (cycles : List ProcCycle) : List Char :=
  (ctx.leaseTable allows cycles).flatMap fun held =>
    (ctx.interfaceAlone fuel allows cycles held.1).elim [] fun i =>
      i.text ctx.cfg ctx.attrDefs m
        { group with gNelements := (ctx.leaseTable allows cycles).length }
        (cfgs.find? fun ec => ec.ecName = held.1) held.1

section

variable {ctx : ReadContext} {group : ElementGroup} {g : GroupPtr} {fuel : Nat}
variable {st last : State} {cycles : List ProcCycle}

theorem flatMap_filterMap {First Second Third : Type*} (entries : List First)
    (select : First → Option Second) (expand : Second → List Third) :
    (entries.filterMap select).flatMap expand =
      entries.flatMap fun entry => (select entry).elim [] expand := by
  induction entries with
  | nil => rfl
  | cons entry rest inductionHypothesis =>
    rw [List.filterMap_cons, List.flatMap_cons, ← inductionHypothesis]
    cases select entry <;> rfl

/-- A store without elements has its group so. -/
theorem plain_empty (cfg : Config) {σ : Store} (empty : ∀ head, σ.lists head = [])
    (isRecord : σ.groups g = some group) (none : group.gNelements = 0) :
    σ.Plain cfg σ.cfgList group g where
  alone head _ := empty head
  cfgList := rfl
  counted := by
    rw [empty, isRecord, List.length_nil, ← none]
  settled e member := by
    rw [empty] at member
    cases member

/-- What is printed after some turns. -/
theorem formatText_run (valid : st.Valid) (isGroup : g ∈ st.store.groupList)
    (empty : ∀ head, st.store.lists head = []) (isRecord : st.store.groups g = some group)
    (none : group.gNelements = 0) (m : FormatModule)
    (ran : Runs.run (procCycle ctx g fuel) st cycles = some last) :
    formatText ctx.attrDefs m last.store =
      ctx.printed fuel m group st.store.cfgList st.store.allows cycles := by
  have all : st.store.TracksAll g := fun e member => by
    rw [empty] at member
    cases member
  obtain ⟨admits, plain, tracks⟩ := procCycles_plain (admits_empty valid isGroup (empty _))
    (plain_empty ctx.cfg empty isRecord none) all ran
  have leasing := procCycles_leasing valid isGroup (empty _) ran
  have table : ctx.leaseTable st.store.allows cycles = last.store.leases g := leasing.leases.symm
  have isLease : ∀ e ∈ last.store.lists (.ofGroup g), ∃ r, last.store.elements e = some r ∧
      last.store.lease e = some (r.eName, sweepsLeft r.eLifecycles) := fun e member => by
    obtain ⟨place, present, -⟩ := admits.wf.owned _ e member
    obtain ⟨r, found, -⟩ := place_eq_some_iff.mp present
    exact ⟨r, found, by rw [Store.lease, found, Option.map_some]⟩
  have complete : (last.store.lists (.ofGroup g)).length = (last.store.leases g).length := by
    refine (List.filterMap_length_eq_length.mpr fun e member => ?_).symm
    obtain ⟨r, -, lease⟩ := isLease e member
    rw [lease]
    rfl
  rw [plain.formatText_eq admits.wf admits.isGroup, ReadContext.printed, table]
  conv_rhs => rw [← complete, Store.leases, flatMap_filterMap]
  refine List.flatMap_congr fun e member => ?_
  obtain ⟨r, found, lease⟩ := isLease e member
  have alone : ctx.interfaceAlone fuel st.store.allows cycles r.eName = some r.interface := by
    rw [ReadContext.interfaceAlone, procCycles_named valid isGroup (empty _) ran, Option.join_some,
      Store.named, tracks e member r found, Option.bind_some, Store.interface, found,
      Option.map_some]
  rw [plain.formatElement_eq admits.wf member found (leasing.ids e member r found), lease,
    Option.elim_some, alone, Option.elim_some]

/-- How many turns are made of some, before `format_draw` leaves the program. -/
def turnsDrawn (cQuitAfter : Int) (turns : Nat) : Nat :=
  if 0 < cQuitAfter then min cQuitAfter.toNat turns else turns

theorem turnsDrawn_succ {cQuitAfter : Int} (stays : ¬(0 < cQuitAfter ∧ cQuitAfter - 1 = 0))
    (turns : Nat) :
    turnsDrawn cQuitAfter (turns + 1) =
      turnsDrawn (if 0 < cQuitAfter then cQuitAfter - 1 else cQuitAfter) turns + 1 := by
  unfold turnsDrawn
  split_ifs <;> omega

/-- The main loop prints what each turn prints. -/
theorem formatLoop_run (valid : st.Valid) (isGroup : g ∈ st.store.groupList)
    (empty : ∀ head, st.store.lists head = []) (isRecord : st.store.groups g = some group)
    (none : group.gNelements = 0) (m : FormatModule) {before : State}
    {earlier : List ProcCycle}
    (ranEarlier : Runs.run (procCycle ctx g fuel) st earlier = some before)
    (ran : Runs.run (procCycle ctx g fuel) before cycles = some last) (cQuitAfter : Int) :
    formatLoop ctx g fuel m cQuitAfter before cycles =
      some ((List.range (turnsDrawn cQuitAfter cycles.length)).map fun k =>
        ctx.printed fuel m group st.store.cfgList st.store.allows
          (earlier ++ cycles.take (k + 1))) := by
  induction cycles generalizing before earlier cQuitAfter with
  | nil =>
    rw [formatLoop, List.length_nil, turnsDrawn, Nat.min_zero, ite_self]
    rfl
  | cons c cycles inductionHypothesis =>
    obtain ⟨next, turned, ranRest⟩ := Option.bind_eq_some_iff.mp ran
    have ranNext : Runs.run (procCycle ctx g fuel) st (earlier ++ [c]) = some next :=
      Runs.run_append.mpr ⟨before, ranEarlier, by rw [Runs.run, List.foldlM_cons, turned]; rfl⟩
    have text := formatText_run valid isGroup empty isRecord none m ranNext
    rw [formatLoop, turned, Option.bind_some]
    simp only [text]
    by_cases leaves : 0 < cQuitAfter ∧ cQuitAfter - 1 = 0
    · rw [if_pos leaves.1, if_pos leaves]
      have one : turnsDrawn cQuitAfter (c :: cycles).length = 1 := by
        rw [turnsDrawn, if_pos leaves.1, List.length_cons]
        omega
      rw [one]
      rfl
    · have stays : ¬(0 < cQuitAfter ∧
          (if 0 < cQuitAfter then cQuitAfter - 1 else cQuitAfter) = 0) := by
        split_ifs with positive
        · exact fun both => leaves ⟨positive, both.2⟩
        · exact fun both => positive both.1
      rw [if_neg stays, inductionHypothesis ranNext ranRest, List.length_cons,
        turnsDrawn_succ leaves, List.range_succ_eq_map, List.map_cons, List.map_map,
        Option.map_some]
      refine congrArg some (congrArg₂ List.cons rfl (List.map_congr_left fun k _ => ?_))
      rw [Function.comp_apply, List.take_succ_cons, List.append_assoc, List.singleton_append]

end

/-- **What is printed is computed from the files.** With the input `proc` and the output `format`
alone, where the attributes are defined and the histories of the configuration have positive
intervals and room for an entry, the main loop comes to its end whatever the file holds in each
turn. The text of a turn is that of the interfaces in the table of the leases, in its order, and
what is printed of each is what its own lines that were accepted make of it alone. The program
leaves the loop after as many turns as `quitafter` says. -/
theorem format_program (ctx : ReadContext) (g : GroupPtr) (group : ElementGroup)
    (m : FormatModule) (cQuitAfter : Int) (cycles : List ProcCycle) (st : State)
    (valid : st.Valid) (isGroup : g ∈ st.store.groupList)
    (empty : ∀ head, st.store.lists head = []) (isRecord : st.store.groups g = some group)
    (none : group.gNelements = 0) (defined : ctx.Defined)
    (histories : SoundHistories ctx.historyDefs) :
    ∃ enough, ∀ fuel, enough ≤ fuel →
      formatLoop ctx g fuel m cQuitAfter st cycles =
        some ((List.range (turnsDrawn cQuitAfter cycles.length)).map fun k =>
          ctx.printed fuel m group st.store.cfgList st.store.allows (cycles.take (k + 1))) := by
  have noHistories : st.store.PositiveIntervals := fun e r isElement => by
    have member := valid.store.linked e r.place (by rw [Store.place, isElement, Option.map_some])
    rw [empty] at member
    cases member
  obtain ⟨enough, last, returns⟩ :=
    procCycles_return defined histories.intervals valid (admits_empty valid isGroup (empty _))
      noHistories cycles
  refine ⟨enough, fun fuel more => ?_⟩
  have start : Runs.run (procCycle ctx g fuel) st [] = some st := rfl
  exact formatLoop_run valid isGroup empty isRecord none m start (returns fuel more) cQuitAfter

/-- The names of the interfaces, and what they have received. -/
def receivedFormat : FormatModule :=
  (formatProbe (FormatModule.fresh
    (CString.ofMemory "$(element:name) $(attr:rx:bytes)\\n".toList))).1

/-- The program leaves the loop after the second of two turns, and has printed what both files
hold. -/
theorem format_program_counterWraps :
    ∃ fuel, formatLoop procContext 0 fuel receivedFormat 2 interfacesStart counterWraps =
      some ([0, 1].map fun k =>
        procContext.printed fuel receivedFormat ⟨gname 0, ⟨gname 0, "Interfaces", []⟩, 0⟩ []
          interfacesStart.store.allows (counterWraps.take (k + 1))) := by
  obtain ⟨enough, prints⟩ := format_program procContext 0 _ receivedFormat 2 counterWraps
    interfacesStart interfacesStart_valid List.mem_cons_self (fun head => ite_self _)
    rfl rfl procContext_defined procContext_histories
  have both : List.range (turnsDrawn 2 counterWraps.length) = [0, 1] := by decide
  have printed := prints enough le_rfl
  rw [both] at printed
  exact ⟨enough, printed⟩

example : formatLoop procContext 0 0 receivedFormat 0 interfacesStart counterWraps =
    some ["eth0 4294967295\n".toList, "eth0 4294967301\nwlan0 7\n".toList] := by
  decide +kernel

end Bmon
