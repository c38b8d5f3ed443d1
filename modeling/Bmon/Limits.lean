/-
This file follows the limits of the elements through the program. The maxima an element is
measured against are in a configuration record, and such a record belongs to a name: it is looked
up by name when an element is created, and created under the name of an element that needs one.
Elements of the same name therefore share their maxima once they have any, wherever they are.

Setting a maximum writes the new value into the information of the one element it is called for,
where the user reads it, and into the record of all of them.
-/

import Bmon.Evolution
import Bmon.Tracked

namespace Bmon

/-! ### Configurations go by name -/

/-- `ec_rxmax` and `ec_txmax` of the configuration of an element. -/
def Store.maxima (σ : Store) (e : ElementPtr) : Option (UInt64 × UInt64) :=
  ((σ.elements e).bind Element.eCfg).bind fun c =>
    σ.cfgList[c]?.map fun ec => (ec.ecRxmax, ec.ecTxmax)

/-- Set one of two maxima. -/
def setMaximum (direction : Direction) (max : UInt64) (maxima : UInt64 × UInt64) :
    UInt64 × UInt64 :=
  match direction with
  | .rx => (max, maxima.2)
  | .tx => (maxima.1, max)

/-- The configuration of an element is the one that is found under its name. -/
def Store.CfgsByName (σ : Store) : Prop :=
  ∀ e r c, σ.elements e = some r → r.eCfg = some c → elementCfgLookup σ r.eName = some c

/-- A later store: configurations are found where they were, and an element has the
configuration of its name or the one it had. -/
structure CfgsEvolve (σ σ' : Store) : Prop where
  lookup : ∀ name c, elementCfgLookup σ name = some c → elementCfgLookup σ' name = some c
  named : ∀ e r' c, σ'.elements e = some r' → r'.eCfg = some c →
    elementCfgLookup σ' r'.eName = some c ∨
      ∃ r, σ.elements e = some r ∧ r.eName = r'.eName ∧ r.eCfg = some c

namespace CfgsEvolve

variable {σ σ' σ'' : Store}

theorem refl (σ : Store) : CfgsEvolve σ σ :=
  ⟨fun _ _ => id, fun _ r _ present configured => Or.inr ⟨r, present, rfl, configured⟩⟩

theorem trans (first : CfgsEvolve σ σ') (second : CfgsEvolve σ' σ'') : CfgsEvolve σ σ'' := by
  refine ⟨fun name c found => second.lookup name c (first.lookup name c found),
    fun e r'' c present configured => ?_⟩
  obtain found | ⟨r', present', same, configured'⟩ := second.named e r'' c present configured
  · exact Or.inl found
  · obtain found | ⟨r, present, same', configured⟩ := first.named e r' c present' configured'
    · exact Or.inl (same ▸ second.lookup _ c found)
    · exact Or.inr ⟨r, present, same'.trans same, configured⟩

theorem byName (evolve : CfgsEvolve σ σ') (byName : σ.CfgsByName) : σ'.CfgsByName := by
  intro e r' c present configured
  obtain found | ⟨r, before, same, configured'⟩ := evolve.named e r' c present configured
  · exact found
  · exact same ▸ evolve.lookup _ c (byName e r c before configured')

/-- The same configurations, and no other elements. -/
theorem of_elements (cfgList : σ'.cfgList = σ.cfgList)
    (elements : ∀ e r', σ'.elements e = some r' →
      ∃ r, σ.elements e = some r ∧ r.eName = r'.eName ∧ r.eCfg = r'.eCfg) :
    CfgsEvolve σ σ' where
  lookup name c found := by
    unfold elementCfgLookup
    rw [cfgList]
    exact found
  named e r' c present configured := by
    obtain ⟨r, before, same, cfg⟩ := elements e r' present
    exact Or.inr ⟨r, before, same, cfg.trans configured⟩

/-- One record is changed, its name and its configuration are not. -/
theorem modifyElement (σ : Store) (e : ElementPtr) {change : Element → Element}
    (name : ∀ r, (change r).eName = r.eName) (cfg : ∀ r, (change r).eCfg = r.eCfg) :
    CfgsEvolve σ (σ.modifyElement e change) := by
  refine of_elements rfl fun x r' present => ?_
  unfold Store.modifyElement at present
  simp only at present
  split_ifs at present
  · obtain ⟨r, found, rfl⟩ := Option.map_eq_some_iff.mp present
    exact ⟨r, found, (name r).symm, (cfg r).symm⟩
  · exact ⟨r', present, rfl, rfl⟩

theorem elementUpdateInfo (σ : Store) (e : ElementPtr) (name value : String) :
    CfgsEvolve σ (elementUpdateInfo σ e name value) :=
  modifyElement σ e (fun r => field_updateInfo Element.eName (fun _ _ _ => rfl) r name value)
    fun r => field_updateInfo Element.eCfg (fun _ _ _ => rfl) r name value

end CfgsEvolve

/-! ### Setting a maximum -/

/-- A configuration that is found has the name. -/
theorem ecName_of_lookup {σ : Store} {name : CString} {c : CfgPtr}
    (found : elementCfgLookup σ name = some c) :
    ∃ ec, σ.cfgList[c]? = some ec ∧ ec.ecName = name := by
  obtain ⟨bound, named, -⟩ := List.findIdx?_eq_some_iff_getElem.mp found
  exact ⟨σ.cfgList[c], List.getElem?_eq_getElem bound, of_decide_eq_true named⟩

/-- Creating a configuration finds or appends it, and leaves the others where they are. -/
theorem elementCfgCreate_spec (σ : Store) (name : CString) :
    elementCfgLookup (elementCfgCreate σ name).1 name = some (elementCfgCreate σ name).2 ∧
      (∀ other c, elementCfgLookup σ other = some c →
        elementCfgLookup (elementCfgCreate σ name).1 other = some c) ∧
      ∀ c < σ.cfgList.length, (elementCfgCreate σ name).1.cfgList[c]? = σ.cfgList[c]? := by
  unfold elementCfgCreate
  cases found : elementCfgLookup σ name with
  | some c => exact ⟨found, fun _ _ => id, fun _ _ => rfl⟩
  | none =>
    have appended (other : CString) : elementCfgLookup
        { σ with cfgList := σ.cfgList ++ [⟨name, none, 0, 0, {}⟩] } other =
        (elementCfgLookup σ other).or
          (if name = other then some σ.cfgList.length else none) := by
      unfold elementCfgLookup
      rw [List.findIdx?_append, List.findIdx?_singleton]
      by_cases same : name = other
      · simp [same]
      · simp [same]
    refine ⟨?_, fun other c known => ?_, fun c bound => List.getElem?_append_left bound⟩
    · rw [appended, found, if_pos rfl, Option.none_or]
    · rw [appended, known, Option.some_or]

/-- A changed limit changes no name. -/
theorem elementCfgLookup_setMax (σ : Store) (direction : Direction) (max : UInt64) (c : CfgPtr)
    (name : CString) : elementCfgLookup
      { σ with cfgList := σ.cfgList.modify c (ElementCfg.setMax direction max) } name =
      elementCfgLookup σ name := by
  have keeps (ec : ElementCfg) : (ec.setMax direction max).ecName = ec.ecName := by
    cases direction <;> rfl
  unfold elementCfgLookup
  simp only
  induction σ.cfgList generalizing c with
  | nil => rw [List.modify_nil]
  | cons ec rest inductionHypothesis =>
    cases c with
    | zero => rw [List.modify_zero_cons, List.findIdx?_cons, List.findIdx?_cons, keeps]
    | succ c =>
      rw [List.modify_succ_cons, List.findIdx?_cons, List.findIdx?_cons, inductionHypothesis]

theorem elementSetMax_of_some {σ : Store} {e : ElementPtr} {r : Element}
    (present : σ.elements e = some r) (direction : Direction) (info : String) (max : UInt64) :
    elementSetMax direction info σ e max =
      elementUpdateInfo { (elementEnsureCfg σ e r).1 with
        cfgList := (elementEnsureCfg σ e r).1.cfgList.modify (elementEnsureCfg σ e r).2
          (ElementCfg.setMax direction max) } e info (unitBit2str (max * 8)) := by
  unfold elementSetMax
  rw [present]

/-- The element has the configuration of its name in the end. -/
theorem elementEnsureCfg_spec {σ : Store} (byName : σ.CfgsByName) {e : ElementPtr} {r : Element}
    (present : σ.elements e = some r) :
    CfgsEvolve σ (elementEnsureCfg σ e r).1 ∧
      elementCfgLookup (elementEnsureCfg σ e r).1 r.eName = some (elementEnsureCfg σ e r).2 ∧
      (∀ other, other ≠ e → (elementEnsureCfg σ e r).1.elements other = σ.elements other) ∧
      ∀ c < σ.cfgList.length, (elementEnsureCfg σ e r).1.cfgList[c]? = σ.cfgList[c]? := by
  unfold elementEnsureCfg
  cases configured : r.eCfg with
  | some c => exact ⟨.refl σ, byName e r c present configured, fun _ _ => rfl, fun _ _ => rfl⟩
  | none =>
    obtain ⟨found, lookup, older⟩ := elementCfgCreate_spec σ r.eName
    have elements : (elementCfgCreate σ r.eName).1.elements = σ.elements := by
      rw [elementCfgCreate_cfgList]
    refine ⟨⟨lookup, fun x r' c linked cfg => ?_⟩, found, fun other different => ?_, older⟩
    · unfold Store.modifyElement at linked
      simp only [elements] at linked
      split_ifs at linked with same
      · subst same
        rw [present] at linked
        obtain rfl := Option.some.inj linked
        obtain rfl := Option.some.inj cfg
        exact Or.inl found
      · exact Or.inr ⟨r', linked, rfl, cfg⟩
    · unfold Store.modifyElement
      simp only [elements, if_neg different]

/-- What `element_set_rxmax` and `element_set_txmax` do to the maxima of another element: they
change those of the same name. -/
theorem maxima_elementSetMax {σ : Store} (byName : σ.CfgsByName) {e₁ e₂ : ElementPtr}
    {r₁ r₂ : Element} (present₁ : σ.elements e₁ = some r₁) (present₂ : σ.elements e₂ = some r₂)
    (different : e₂ ≠ e₁) (direction : Direction) (info : String) (max : UInt64) :
    (elementSetMax direction info σ e₁ max).maxima e₂ =
      if r₁.eName = r₂.eName then
        (σ.maxima e₂).map (setMaximum direction max)
      else σ.maxima e₂ := by
  obtain ⟨evolve, found, elements, older⟩ := elementEnsureCfg_spec byName present₁
  rw [elementSetMax_of_some present₁]
  unfold Store.maxima elementUpdateInfo Store.modifyElement
  simp only [if_neg different, elements e₂ different, present₂, Option.bind_some]
  cases configured : r₂.eCfg with
  | none => simp
  | some c =>
    have before := byName e₂ r₂ c present₂ configured
    obtain ⟨ec, isCfg, named⟩ := ecName_of_lookup before
    have after := older c (List.getElem?_eq_some_iff.mp isCfg).1
    rw [Option.bind_some, Option.bind_some, List.getElem?_modify, after, isCfg]
    by_cases same : r₁.eName = r₂.eName
    · have shared : (elementEnsureCfg σ e₁ r₁).2 = c := by
        rw [same] at found
        exact Option.some.inj (found.symm.trans (evolve.lookup _ c before))
      rw [if_pos same, shared]
      cases direction <;> simp [ElementCfg.setMax, setMaximum]
    · have apart : (elementEnsureCfg σ e₁ r₁).2 ≠ c := by
        intro shared
        obtain ⟨ec', isCfg', named'⟩ := ecName_of_lookup found
        rw [shared, after, isCfg] at isCfg'
        obtain rfl := Option.some.inj isCfg'
        exact same (named'.symm.trans named)
      rw [if_neg same]
      simp [apart]

/-! ### The calls of the program -/

namespace CfgsEvolve

variable {σ σ' : Store}

theorem elementSetMax (byName : σ.CfgsByName) (direction : Direction) (info : String)
    (e : ElementPtr) (max : UInt64) :
    CfgsEvolve σ (elementSetMax direction info σ e max) := by
  cases present : σ.elements e with
  | none =>
    unfold Bmon.elementSetMax
    rw [present]
    exact refl σ
  | some r =>
    rw [elementSetMax_of_some present]
    refine ((elementEnsureCfg_spec byName present).1.trans ?_).trans (elementUpdateInfo _ e _ _)
    refine ⟨fun name c found => ?_, fun x r' c linked cfg => Or.inr ⟨r', linked, rfl, cfg⟩⟩
    rw [elementCfgLookup_setMax]
    exact found

theorem elementConfigure (byName : σ.CfgsByName) (e : ElementPtr) (ec : Option ElementCfg) :
    CfgsEvolve σ (elementConfigure σ e ec) :=
  elementConfigure_rule (CfgsEvolve σ)
    (fun σ' _ _ before => before.trans (elementUpdateInfo σ' e _ _))
    (fun _ _ _ _ before => before.trans (elementSetMax (before.byName byName) _ _ e _)) ec (refl σ)

/-- A new element has the configuration of its name. -/
theorem elementCreate (byName : σ.CfgsByName) (cfg : Config) (group : GroupPtr) (name : CString)
    (id : UInt32) (parent : Option ElementPtr) :
    CfgsEvolve σ (elementCreate cfg σ group name id parent) := by
  have allocated : CfgsEvolve σ (elementAlloc σ (elementNew cfg group name id parent
      (elementCfgLookup σ name))) := by
    refine ⟨fun _ _ found => found, fun x r' c present configured => ?_⟩
    unfold elementAlloc at present
    simp only at present
    split_ifs at present
    · obtain rfl := Option.some.inj present
      exact Or.inl configured
    · exact Or.inr ⟨r', present, rfl, configured⟩
  have configured := allocated.trans (elementConfigure (allocated.byName byName) σ.nextElement
    ((elementCfgLookup σ name).bind fun c => σ.cfgList[c]?))
  exact configured.trans (of_elements rfl fun _ r' present => ⟨r', present, rfl, rfl⟩)

end CfgsEvolve

/-- A call on an element. -/
theorem ElementOp.cfgsEvolve {cfg : Config} {σ σ' : Store} (byName : σ.CfgsByName)
    {e : ElementPtr} {op : ElementOp} (called : op.apply cfg σ e = some σ') :
    CfgsEvolve σ σ' := by
  cases op with
  | lifesign =>
    obtain rfl := Option.some.inj called
    exact .modifyElement σ e (fun _ => rfl) fun _ => rfl
  | updateInfo name value =>
    obtain rfl := Option.some.inj called
    exact .elementUpdateInfo σ e name value
  | setRxmax max =>
    obtain rfl := Option.some.inj called
    exact .elementSetMax byName .rx "RxMax" e max
  | setTxmax max =>
    obtain rfl := Option.some.inj called
    exact .elementSetMax byName .tx "TxMax" e max
  | setKeyAttr attrDefs major minor =>
    obtain rfl := Option.some.inj called
    exact elementSetKeyAttr_rule (CfgsEvolve σ) (fun σ' column definition before =>
      before.trans (.modifyElement σ' e (fun _ => rfl) fun _ => rfl)) attrDefs major minor (.refl σ)
  | setUsageAttr attrDefs usage =>
    obtain rfl := Option.some.inj called
    exact .modifyElement σ e (fun _ => rfl) fun _ => rfl
  | attrUpdate attrDefs historyDefs id rx tx flags now =>
    obtain rfl := Option.some.inj called
    exact .modifyElement σ e (fun _ => rfl) fun _ => rfl
  | notifyUpdate fuel ts =>
    obtain rfl | ⟨-, attrs, -, -, usage, rfl⟩ := elementNotifyUpdate_cases called
    · exact .refl σ'
    · exact .modifyElement σ e (fun _ => rfl) fun _ => rfl
  | setUp level =>
    obtain rfl := Option.some.inj called
    exact .modifyElement σ e (fun _ => rfl) fun _ => rfl

theorem evolution_cfgsEvolve : Evolution CfgsEvolve where
  trans := CfgsEvolve.trans
  frees cfgList _ elements := .of_elements cfgList fun x r' present =>
    ⟨r', elements x r' present, rfl, rfl⟩
  marks σ e _ _ := .modifyElement σ e (fun _ => rfl) fun _ => rfl

/-- One call of the program. -/
theorem step_cfgsEvolve {cfg : Config} {st next : State} {op : Op} (valid : st.Valid)
    (byName : st.store.CfgsByName) (stepped : step cfg st op = some next) :
    CfgsEvolve st.store next.store := by
  have input (call : InputOp) (σ : Store) (called : call.apply cfg st.store = some σ) :
      CfgsEvolve st.store σ :=
    evolution_cfgsEvolve.inputOp (CfgsEvolve.elementCreate byName cfg)
      (fun _ _ _ _ called => ElementOp.cfgsEvolve byName called) called
  exact evolution_cfgsEvolve.step valid (fun call σ _ => input call σ) stepped

/-- In every state the program reaches configurations go by name. -/
theorem run_cfgsByName {cfg : Config} {titles : List GroupHdr} {cfgs : List ElementCfg}
    {allowed denied : List Policy} {ops : List Op} {st : State}
    (ran : Runs.run (step cfg) (State.start titles cfgs allowed denied) ops = some st) :
    st.store.CfgsByName :=
  (Runs.run_invariant (fun st => st.Valid ∧ st.store.CfgsByName)
    (fun _ _ _ before stepped => ⟨step_valid before.1 stepped,
      (step_cfgsEvolve before.1 before.2 stepped).byName before.2⟩)
    ⟨valid_stateStart titles cfgs allowed denied, fun _ _ _ present => by cases present⟩ ran).2

/-! ### The limits of another element -/

/-- Setting a maximum leaves that of another element alone just when the element has another
name, or has no maximum, or has the new one already. -/
theorem maxima_elementSetMax_iff {σ : Store} (byName : σ.CfgsByName) {e₁ e₂ : ElementPtr}
    {r₁ r₂ : Element} (present₁ : σ.elements e₁ = some r₁) (present₂ : σ.elements e₂ = some r₂)
    (different : e₂ ≠ e₁) (direction : Direction) (info : String) (max : UInt64) :
    (elementSetMax direction info σ e₁ max).maxima e₂ = σ.maxima e₂ ↔
      r₁.eName ≠ r₂.eName ∨
        ∀ maxima ∈ σ.maxima e₂, setMaximum direction max maxima = maxima := by
  rw [maxima_elementSetMax byName present₁ present₂ different]
  split_ifs with same
  · rw [or_iff_right (not_not.mpr same)]
    cases σ.maxima e₂ with
    | none => simp
    | some maxima => simp
  · exact iff_of_true rfl (Or.inl same)

/-- Whose limits a limit changes. In every state the program reaches, and for any two elements
in it, setting a maximum of the first leaves the maxima of the second alone just when their names
differ, or the second has no configuration, or its maximum is the new one already. -/
theorem elementSetMax_keeps_iff (cfg : Config) (titles : List GroupHdr) (cfgs : List ElementCfg)
    (allowed denied : List Policy) (ops : List Op) (st : State)
    (ran : Runs.run (step cfg) (State.start titles cfgs allowed denied) ops = some st)
    (e₁ e₂ : ElementPtr) (different : e₁ ≠ e₂) (r₁ r₂ : Element)
    (present₁ : st.store.elements e₁ = some r₁) (present₂ : st.store.elements e₂ = some r₂)
    (max : UInt64) :
    ((elementSetTxmax st.store e₁ max).maxima e₂ = st.store.maxima e₂ ↔
        r₁.eName ≠ r₂.eName ∨ ∀ maxima ∈ st.store.maxima e₂, maxima.2 = max) ∧
      ((elementSetRxmax st.store e₁ max).maxima e₂ = st.store.maxima e₂ ↔
        r₁.eName ≠ r₂.eName ∨ ∀ maxima ∈ st.store.maxima e₂, maxima.1 = max) := by
  have byName := run_cfgsByName ran
  constructor
  · refine (maxima_elementSetMax_iff byName present₁ present₂ different.symm .tx "TxMax" max).trans
      (or_congr_right (forall₂_congr fun maxima _ => ?_))
    simp only [setMaximum, Prod.ext_iff, true_and]
    exact eq_comm
  · refine (maxima_elementSetMax_iff byName present₁ present₂ different.symm .rx "RxMax" max).trans
      (or_congr_right (forall₂_congr fun maxima _ => ?_))
    simp only [setMaximum, Prod.ext_iff, and_true]
    exact eq_comm

/-- Two interfaces with a class each, of the given names; the second class has its limit. -/
def twoClasses (first second : CString) : List Op :=
  let name : CString := ⟨['e', 't', 'h'], by decide⟩
  [.input (.groupNewHdr ⟨name, "Interfaces", []⟩), .input (.groupLookup name true),
    .input (.elementLookup 0 name 0 none true), .input (.elementLookup 0 first 1 (some 0) true),
    .input (.elementLookup 0 name 1 none true), .input (.elementLookup 0 second 1 (some 2) true),
    .input (.onElement 3 (.setTxmax 2000))]

/-- The handle of a class. -/
def firstClass : CString := ⟨['1', ':', '1'], by decide⟩

/-- The handle of another class. -/
def secondClass : CString := ⟨['1', ':', '2'], by decide⟩

/-- Classes of different names have their own limits. -/
theorem elementSetMax_keeps_otherName :
    ∃ st, Runs.run (step (confInitPost {})) (State.start [] [] [] [])
        (twoClasses firstClass secondClass) = some st ∧
      (elementSetTxmax st.store 1 1000).maxima 3 = st.store.maxima 3 := by
  have run : (Runs.run (step (confInitPost {})) (State.start [] [] [] [])
      (twoClasses firstClass secondClass)).map (fun st =>
        ((st.store.elements 1).map Element.eName, (st.store.elements 3).map Element.eName)) =
      some (some firstClass, some secondClass) := by decide +kernel
  obtain ⟨st, ran, names⟩ := Option.map_eq_some_iff.mp run
  obtain ⟨first, second⟩ := Prod.mk.inj names
  obtain ⟨r₁, present₁, name₁⟩ := Option.map_eq_some_iff.mp first
  obtain ⟨r₂, present₂, name₂⟩ := Option.map_eq_some_iff.mp second
  have apart : r₁.eName ≠ r₂.eName := by
    rw [name₁, name₂]
    decide
  exact ⟨st, ran, (elementSetMax_keeps_iff (confInitPost {}) [] [] [] [] _ st ran 1 3 (by decide)
    r₁ r₂ present₁ present₂ 1000).1.mpr (Or.inl apart)⟩

/-- The same class handle on two interfaces has one limit: setting that of the first class moves
that of the second from 2000 to 1000. -/
theorem elementSetMax_moves_sameName :
    (Runs.run (step (confInitPost {})) (State.start [] [] [] [])
      (twoClasses firstClass firstClass)).map (fun st =>
        (st.store.maxima 3, (elementSetTxmax st.store 1 1000).maxima 3)) =
      some (some (0, 2000), some (0, 1000)) := by
  decide +kernel

end Bmon
