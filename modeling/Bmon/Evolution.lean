/-
This file holds a rule for relations between the store before a call of the program and the
store after it.

A call on an element and the creation of one are what such relations differ in. All other calls
leave the elements as they are, free some of them, or write their flags and their time to live.
A transitive relation that allows these holds across every step, once it holds across the calls
of the input modules.
-/

import Bmon.Program

namespace Bmon

/-- A relation between an earlier and a later store that allows elements to be freed, and their
flags and their time to live to be written. -/
structure Evolution (relation : Store → Store → Prop) : Prop where
  trans : ∀ {σ σ' σ''}, relation σ σ' → relation σ' σ'' → relation σ σ''
  frees : ∀ {σ σ' : Store}, σ'.cfgList = σ.cfgList → σ'.nextElement = σ.nextElement →
    (∀ e r, σ'.elements e = some r → σ.elements e = some r) → relation σ σ'
  marks : ∀ (σ : Store) (e : ElementPtr) (flags : Element → ElementFlags)
    (lifecycles : Element → UInt32), relation σ
      (σ.modifyElement e fun r => { r with eFlags := flags r, eLifecycles := lifecycles r })

namespace Evolution

variable {relation : Store → Store → Prop} (evolution : Evolution relation)

include evolution

/-- Everything but the elements and the configurations may change. -/
theorem of_elements {σ σ' : Store} (cfgList : σ'.cfgList = σ.cfgList)
    (nextElement : σ'.nextElement = σ.nextElement) (elements : σ'.elements = σ.elements) :
    relation σ σ' :=
  evolution.frees cfgList nextElement fun e _ present => (congrFun elements e).symm.trans present

theorem refl (σ : Store) : relation σ σ := evolution.of_elements rfl rfl rfl

/-- A call of an input module, where the relation holds across the creation of an element and
across the call on one. -/
theorem inputOp {cfg : Config} {σ σ' : Store} {op : InputOp}
    (create : ∀ group name id parent, relation σ (elementCreate cfg σ group name id parent))
    (onElement : ∀ e call σ', op = .onElement e call → call.apply cfg σ e = some σ' →
      relation σ σ')
    (called : op.apply cfg σ = some σ') : relation σ σ' := by
  cases op with
  | groupNewHdr hdr =>
    obtain rfl := Option.some.inj called
    rw [groupNewHdr_titlesList]
    exact evolution.of_elements rfl rfl rfl
  | groupNewDerivedHdr name title template =>
    obtain rfl := Option.some.inj called
    rw [groupNewDerivedHdr_titlesList]
    exact evolution.of_elements rfl rfl rfl
  | groupLookup name create =>
    obtain rfl := Option.some.inj called
    obtain same | ⟨hdr, created⟩ := groupLookup_cases σ name create
    · rw [same]
      exact evolution.refl σ
    · rw [created]
      exact evolution.of_elements rfl rfl rfl
  | elementLookup group name id parent creat =>
    rw [InputOp.apply] at called
    split_ifs at called
    obtain rfl := Option.some.inj called
    obtain same | ⟨-, created⟩ := elementLookup_cases cfg σ group name id parent creat
    · rw [same]
      exact evolution.refl σ
    · rw [created]
      exact create group name id parent
  | onElement e call =>
    rw [InputOp.apply] at called
    split_ifs at called
    exact onElement e call σ' rfl called

/-- Freeing and sweeping. -/
theorem applyAll {st : State} {effects : List Effect} (legal : LegalAll st effects) :
    relation st.store (applyAll st effects).store := by
  induction effects generalizing st with
  | nil => exact evolution.refl st.store
  | cons effect rest inductionHypothesis =>
    refine evolution.trans ?_ (inductionHypothesis legal.2)
    cases effect with
    | tick e => exact evolution.marks st.store e Element.eFlags fun r => r.eLifecycles - 1
    | release e =>
      obtain ⟨g, change, store⟩ := elementRelease_store legal.1.1
      rw [Effect.apply, store]
      refine evolution.frees rfl rfl fun x r present => ?_
      unfold Store.xfree at present
      simp only at present
      split_ifs at present
      exact present

/-- One call of the program, where the relation holds across those of the input modules. -/
theorem step {cfg : Config} {st next : State} {op : Op} (valid : st.Valid)
    (input : ∀ call σ, op = .input call → call.apply cfg st.store = some σ →
      relation st.store σ)
    (stepped : step cfg st op = some next) : relation st.store next.store := by
  cases op with
  | input call =>
    obtain ⟨σ, called, rfl⟩ := Option.map_eq_some_iff.mp stepped
    exact input call σ rfl called
  | output call =>
    obtain rfl := Option.some.inj stepped
    exact evolution.refl st.store
  | resetUpdateFlags =>
    obtain rfl := Option.some.inj stepped
    have each : ∀ (σ : Store) (g : GroupPtr) (e : ElementPtr), relation st.store σ →
        relation st.store (elementResetUpdateFlag σ g e) := fun σ _ e before =>
      evolution.trans before (evolution.marks σ e (fun r => { r.eFlags with updated := false })
        Element.eLifecycles)
    exact groupForeachRecursive_invariant elementResetUpdateFlag each (evolution.refl st.store)
  | freeUnusedElements =>
    obtain rfl := Option.some.inj stepped
    obtain ⟨forest, represents⟩ := valid.store.represents
    obtain ⟨swept, legal⟩ := freeUnusedElements_eq represents
    rw [swept]
    exact evolution.applyAll legal
  | decrement e =>
    rw [Bmon.step] at stepped
    split_ifs at stepped
    obtain rfl := Option.some.inj stepped
    exact evolution.marks st.store e Element.eFlags fun r => r.eLifecycles - 1
  | elementFree e =>
    rw [Bmon.step] at stepped
    split_ifs at stepped with present
    obtain rfl := Option.some.inj stepped
    obtain ⟨below, -, freed, legal⟩ := elementFree_effects valid.store (place_ne_none present)
    rw [freed]
    exact evolution.applyAll legal

end Evolution

end Bmon
