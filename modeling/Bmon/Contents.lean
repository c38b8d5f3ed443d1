/-
This file follows the information of the elements through the calls of the program.

What a run has written is kept beside the state as a log of the calls of `element_update_info`,
also of those that `element_set_rxmax`, `element_set_txmax` and the configuration of a new
element make. What the calls do to an element is described on its card, which holds what
identifies the element and its information; most calls do nothing to the store that goes beyond
some writes on the cards.
-/

import Bmon.Program

namespace Bmon

/-! ### The card of an element -/

/-- What identifies an element, and what is known about it. -/
structure ElementCard where
  place : Place
  name : CString
  id : UInt32
  ninfo : Nat
  infoList : List Info
  deriving DecidableEq

/-- The card of an element. -/
def Element.card (r : Element) : ElementCard :=
  ⟨r.place, r.eName, r.eId, r.eNinfo, r.eInfoList⟩

/-- The card of an element that is not freed. -/
def Store.card (σ : Store) (e : ElementPtr) : Option ElementCard := (σ.elements e).map Element.card

theorem place_eq_card (σ : Store) (e : ElementPtr) :
    σ.place e = (σ.card e).map ElementCard.place := by
  unfold Store.place Store.card
  cases σ.elements e <;> rfl

/-- The value `element_info_lookup` finds. -/
def infoValue (infoList : List Info) (name : String) : Option String :=
  (infoList.find? fun i => i.iName = name).map Info.iValue

/-- What `element_update_info` makes of a list of information. -/
def updateInfoList (name value : String) (infoList : List Info) : List Info :=
  match infoList.findIdx? fun i => i.iName = name with
  | some i => infoList.modify i fun info => { info with iValue := value }
  | none => infoList ++ [⟨name, value⟩]

/-- What `element_update_info` does to the card of an element. -/
def ElementCard.updateInfo (name value : String) (card : ElementCard) : ElementCard :=
  { card with
    ninfo := if card.infoList.any fun i => i.iName = name then card.ninfo else card.ninfo + 1
    infoList := updateInfoList name value card.infoList }

theorem card_updateInfo (name value : String) (r : Element) :
    (r.updateInfo name value).card = r.card.updateInfo name value := by
  unfold Element.updateInfo ElementCard.updateInfo updateInfoList
  cases found : r.eInfoList.findIdx? fun i => i.iName = name with
  | none =>
    have absent := List.findIdx?_eq_none_iff.mp found
    have none : (r.card.infoList.any fun i => i.iName = name) = false :=
      List.any_eq_false.mpr fun i member => by simp [absent i member]
    simp only [Element.card] at none ⊢
    simp only [none, found, Bool.false_eq_true, if_false]
    rfl
  | some i =>
    obtain ⟨bound, isName, -⟩ := List.findIdx?_eq_some_iff_getElem.mp found
    have some : (r.card.infoList.any fun i => i.iName = name) = true :=
      List.any_eq_true.mpr ⟨_, List.getElem_mem bound, isName⟩
    simp only [Element.card] at some ⊢
    simp only [some, found, if_true]
    rfl

/-! ### Lists of information -/

theorem updateInfoList_cons (name value : String) (i : Info) (rest : List Info) :
    updateInfoList name value (i :: rest) =
      if i.iName = name then { i with iValue := value } :: rest
      else i :: updateInfoList name value rest := by
  unfold updateInfoList
  rw [List.findIdx?_cons]
  by_cases same : i.iName = name
  · simp [same]
  · simp only [same, decide_false, Bool.false_eq_true, if_false]
    cases rest.findIdx? fun i => i.iName = name <;> rfl

/-- Writing a value changes no name of the list, or adds its own name at the end. -/
theorem map_iName_updateInfoList (name value : String) (infoList : List Info) :
    (updateInfoList name value infoList).map Info.iName =
      if infoList.any fun i => i.iName = name then infoList.map Info.iName
      else infoList.map Info.iName ++ [name] := by
  induction infoList with
  | nil => rfl
  | cons i rest inductionHypothesis =>
    rw [updateInfoList_cons, List.any_cons]
    by_cases same : i.iName = name
    · simp [same]
    · rw [if_neg same, List.map_cons, inductionHypothesis]
      simp only [same, decide_false, Bool.false_or]
      split_ifs <;> rfl

/-- The value that was written is found under its name, and every other as before. -/
theorem infoValue_updateInfoList (name value other : String) (infoList : List Info) :
    infoValue (updateInfoList name value infoList) other =
      if other = name then some value else infoValue infoList other := by
  unfold infoValue
  induction infoList with
  | nil =>
    by_cases same : other = name
    · simp [updateInfoList, same]
    · simp [updateInfoList, same, Ne.symm same]
  | cons i rest inductionHypothesis =>
    rw [updateInfoList_cons]
    by_cases here : i.iName = name
    · by_cases same : other = name
      · simp [here, same]
      · simp [here, same, Ne.symm same]
    · rw [if_neg here]
      by_cases found : i.iName = other
      · have apart : ¬other = name := fun equal => here (found.trans equal)
        simp [found, apart]
      · simpa [List.find?_cons, found] using inductionHypothesis

/-- The number of entries is right, and no name occurs twice. -/
structure ElementCard.Tidy (card : ElementCard) : Prop where
  ninfo : card.ninfo = card.infoList.length
  nodup : (card.infoList.map Info.iName).Nodup

theorem ElementCard.Tidy.updateInfo {card : ElementCard} (tidy : card.Tidy)
    (name value : String) : (card.updateInfo name value).Tidy := by
  have names := map_iName_updateInfoList name value card.infoList
  have length := congrArg List.length names
  rw [List.length_map] at length
  constructor
  · change (if _ then _ else _) = (updateInfoList name value card.infoList).length
    rw [length]
    split_ifs
    · rw [tidy.ninfo, List.length_map]
    · rw [tidy.ninfo, List.length_append, List.length_map, List.length_singleton]
  · change ((updateInfoList name value card.infoList).map Info.iName).Nodup
    rw [names]
    split_ifs with known
    · exact tidy.nodup
    · refine List.nodup_append.mpr ⟨tidy.nodup, List.nodup_singleton name, ?_⟩
      intro other member last isLast equal
      obtain rfl := List.mem_singleton.mp isLast
      obtain ⟨i, inList, rfl⟩ := List.mem_map.mp member
      exact known (List.any_eq_true.mpr ⟨i, inList, decide_eq_true equal⟩)

/-! ### What is written -/

/-- A call of `element_update_info`. -/
structure InfoWrite where
  element : ElementPtr
  name : String
  value : String
  deriving DecidableEq, Repr

/-- The value a log has last for a name of an element. -/
def lastWritten (log : List InfoWrite) (e : ElementPtr) (name : String) : Option String :=
  (log.reverse.find? fun w => w.element = e ∧ w.name = name).map InfoWrite.value

theorem lastWritten_concat (log : List InfoWrite) (w : InfoWrite) (e : ElementPtr)
    (name : String) :
    lastWritten (log ++ [w]) e name =
      if w.element = e ∧ w.name = name then some w.value else lastWritten log e name := by
  unfold lastWritten
  rw [List.reverse_append, List.reverse_singleton, List.singleton_append, List.find?_cons]
  split_ifs with same <;> simp [same]

/-- The writes of a call of an input module to an element. -/
def ElementOp.infoWrites (e : ElementPtr) : ElementOp → List InfoWrite
  | .updateInfo name value => [⟨e, name, value⟩]
  | .setRxmax max => [⟨e, "RxMax", unitBit2str (max * 8)⟩]
  | .setTxmax max => [⟨e, "TxMax", unitBit2str (max * 8)⟩]
  | _ => []

/-- The writes of `element_lookup` when it applies the configuration of a new element. -/
def configWrites (e : ElementPtr) (ec : Option ElementCfg) : List InfoWrite :=
  match ec with
  | none => []
  | some ec =>
    (ec.ecDescription.map fun description => InfoWrite.mk e "Description" description).toList ++
      [⟨e, "RxMax", unitBit2str (ec.ecRxmax * 8)⟩, ⟨e, "TxMax", unitBit2str (ec.ecTxmax * 8)⟩]

/-- The writes of a call of an input module. -/
def InputOp.infoWrites (σ : Store) : InputOp → List InfoWrite
  | .onElement e op => op.infoWrites e
  | .elementLookup group name id parent creat =>
    let ec := (elementCfgLookup σ name).bind fun c => σ.cfgList[c]?
    if lookupElement σ group name id parent = none ∧ creat ∧ elementAllowed σ name ec then
      configWrites σ.nextElement ec
    else []
  | _ => []

/-- The writes of a call of the program. -/
def Op.infoWrites (st : State) : Op → List InfoWrite
  | .input op => op.infoWrites st.store
  | _ => []

/-- A call of the program beside a log of all writes. -/
def loggedStep (cfg : Config) (st : State × List InfoWrite) (op : Op) :
    Option (State × List InfoWrite) :=
  (step cfg st.1 op).map fun next => (next, st.2 ++ op.infoWrites st.1)

/-! ### Calls that only write information -/

/-- One write on the card of the element it is for. -/
def ElementCard.write (card : ElementCard) (w : InfoWrite) : ElementCard :=
  card.updateInfo w.name w.value

/-- What a list of writes makes of the card of one element. -/
def ElementCard.writeAll (e : ElementPtr) (writes : List InfoWrite) (card : ElementCard) :
    ElementCard := (writes.filter fun w => w.element = e).foldl ElementCard.write card

/-- Two stores that differ by some writes, and in nothing else that is on the cards or in the
lists or the groups. -/
structure Writes (σ σ' : Store) (writes : List InfoWrite) : Prop where
  card : ∀ e, σ'.card e = (σ.card e).map (ElementCard.writeAll e writes)
  lists : σ'.lists = σ.lists
  groups : σ'.groups = σ.groups
  groupList : σ'.groupList = σ.groupList
  nextElement : σ'.nextElement = σ.nextElement

theorem writeAll_append (e : ElementPtr) (first second : List InfoWrite) (card : ElementCard) :
    card.writeAll e (first ++ second) = (card.writeAll e first).writeAll e second := by
  unfold ElementCard.writeAll
  rw [List.filter_append, List.foldl_append]

theorem writeAll_concat (e : ElementPtr) (writes : List InfoWrite) (w : InfoWrite)
    (card : ElementCard) :
    card.writeAll e (writes ++ [w]) =
      if w.element = e then (card.writeAll e writes).write w else card.writeAll e writes := by
  rw [writeAll_append]
  by_cases here : w.element = e
  · rw [if_pos here, ElementCard.writeAll, List.filter_singleton, decide_eq_true here]
    rfl
  · rw [if_neg here, ElementCard.writeAll, List.filter_singleton, decide_eq_false here]
    rfl

/-- Writes leave an element where it is, and what it is called. -/
theorem writeAll_identity (e : ElementPtr) (writes : List InfoWrite) (card : ElementCard) :
    (card.writeAll e writes).place = card.place ∧ (card.writeAll e writes).name = card.name ∧
      (card.writeAll e writes).id = card.id := by
  induction writes using List.reverseRecOn with
  | nil => exact ⟨rfl, rfl, rfl⟩
  | append_singleton writes w inductionHypothesis =>
    rw [writeAll_concat]
    split_ifs
    · exact inductionHypothesis
    · exact inductionHypothesis

/-- Writes keep the information of an element in order, with the last value for every name. -/
theorem writeAll_tidy (e : ElementPtr) (writes : List InfoWrite) {card : ElementCard}
    {log : List InfoWrite} (tidy : card.Tidy)
    (values : ∀ name, infoValue card.infoList name = lastWritten log e name) :
    (card.writeAll e writes).Tidy ∧
      ∀ name, infoValue (card.writeAll e writes).infoList name =
        lastWritten (log ++ writes) e name := by
  induction writes using List.reverseRecOn with
  | nil =>
    rw [List.append_nil]
    exact ⟨tidy, values⟩
  | append_singleton writes w inductionHypothesis =>
    obtain ⟨tidyBefore, valuesBefore⟩ := inductionHypothesis
    rw [writeAll_concat, ← List.append_assoc]
    split_ifs with here
    · refine ⟨tidyBefore.updateInfo w.name w.value, fun name => ?_⟩
      rw [lastWritten_concat, ← valuesBefore, ElementCard.write, ElementCard.updateInfo,
        infoValue_updateInfoList]
      simp only [here, true_and, eq_comm]
    · refine ⟨tidyBefore, fun name => ?_⟩
      rw [lastWritten_concat, if_neg fun both => here both.1]
      exact valuesBefore name

theorem Writes.trans {σ σ' σ'' : Store} {first second : List InfoWrite} (left : Writes σ σ' first)
    (right : Writes σ' σ'' second) : Writes σ σ'' (first ++ second) where
  card e := by
    rw [right.card, left.card, Option.map_map]
    exact congrArg (Option.map · _) (funext fun card => (writeAll_append e first second card).symm)
  lists := right.lists.trans left.lists
  groups := right.groups.trans left.groups
  groupList := right.groupList.trans left.groupList
  nextElement := right.nextElement.trans left.nextElement

theorem Writes.place {σ σ' : Store} {writes : List InfoWrite} (same : Writes σ σ' writes) :
    σ'.place = σ.place := by
  funext e
  rw [place_eq_card, place_eq_card, same.card, Option.map_map]
  exact congrArg (Option.map · _) (funext fun card => (writeAll_identity e writes card).1)

/-- Stores that differ in neither elements nor lists nor groups. -/
theorem Writes.of_eq {σ σ' : Store} (elements : σ'.elements = σ.elements)
    (lists : σ'.lists = σ.lists) (groups : σ'.groups = σ.groups)
    (groupList : σ'.groupList = σ.groupList) (nextElement : σ'.nextElement = σ.nextElement) :
    Writes σ σ' [] where
  card e := by
    unfold Store.card
    rw [elements]
    exact Option.map_id'.symm
  lists := lists
  groups := groups
  groupList := groupList
  nextElement := nextElement

/-- Linking and counting an element changes nothing that was written. -/
theorem Writes.link {σ σ' : Store} {writes : List InfoWrite} (same : Writes σ σ' writes)
    (e : ElementPtr) (head : ListHead) (g : GroupPtr) (change : ElementGroup → ElementGroup) :
    Writes ((σ.listAddTail e head).modifyGroup g change)
      ((σ'.listAddTail e head).modifyGroup g change) writes where
  card := same.card
  lists := by
    unfold Store.modifyGroup Store.listAddTail
    simp only [same.lists]
  groups := by
    unfold Store.modifyGroup Store.listAddTail
    simp only [same.groups]
  groupList := same.groupList
  nextElement := same.nextElement

theorem Writes.refl (σ : Store) : Writes σ σ [] := .of_eq rfl rfl rfl rfl rfl

/-- A change of one element that is not on its card writes nothing. -/
theorem writes_modifyElement (σ : Store) (e : ElementPtr) (change : Element → Element)
    (stays : ∀ r, (change r).card = r.card) : Writes σ (σ.modifyElement e change) [] where
  card x := (map_modifyElement Element.card σ e x stays).trans Option.map_id'.symm
  lists := rfl
  groups := rfl
  groupList := rfl
  nextElement := rfl

theorem writes_elementUpdateInfo (σ : Store) (e : ElementPtr) (name value : String) :
    Writes σ (elementUpdateInfo σ e name value) [⟨e, name, value⟩] where
  card x := by
    unfold Store.card elementUpdateInfo Store.modifyElement
    simp only
    by_cases same : x = e
    · subst same
      rw [if_pos rfl, Option.map_map, Option.map_map]
      refine congrArg (Option.map · _) (funext fun r => ?_)
      simp only [Function.comp_apply, card_updateInfo]
      simp [ElementCard.writeAll, ElementCard.write]
    · rw [if_neg same, Option.map_map]
      refine congrArg (Option.map · _) (funext fun r => ?_)
      simp [ElementCard.writeAll, Ne.symm same]
  lists := rfl
  groups := rfl
  groupList := rfl
  nextElement := rfl

theorem writes_elementSetMax (direction : Direction) (info : String) {σ : Store} {e : ElementPtr}
    (present : (σ.elements e).isSome) (max : UInt64) :
    Writes σ (elementSetMax direction info σ e max) [⟨e, info, unitBit2str (max * 8)⟩] := by
  have creates : ∀ σ' name, Writes σ σ' [] → Writes σ (elementCfgCreate σ' name).1 [] :=
    fun σ' name before => by
      rw [elementCfgCreate_cfgList]
      exact before.trans (.of_eq rfl rfl rfl rfl rfl)
  obtain ⟨absent, -⟩ | ⟨σ', before, same⟩ := elementSetMax_cases (Writes σ · []) direction creates
    (fun σ' c before => before.trans (writes_modifyElement σ' e _ fun _ => rfl))
    (fun σ' c max before => before.trans (.of_eq rfl rfl rfl rfl rfl)) info max (Writes.refl σ)
  · rw [absent] at present
    cases present
  · rw [same]
    exact before.trans (writes_elementUpdateInfo σ' e _ _)

theorem Writes.present {σ σ' : Store} {writes : List InfoWrite} (same : Writes σ σ' writes)
    {e : ElementPtr} (present : (σ.elements e).isSome) : (σ'.elements e).isSome := by
  have card := congrArg Option.isSome (same.card e)
  unfold Store.card at card
  simpa [present] using card

theorem writes_elementConfigure {σ : Store} {e : ElementPtr} (present : (σ.elements e).isSome)
    (ec : Option ElementCfg) : Writes σ (elementConfigure σ e ec) (configWrites e ec) := by
  cases ec with
  | none => exact Writes.refl σ
  | some ec =>
    have limits : ∀ {described : Store} {log : List InfoWrite}, Writes σ described log →
        Writes σ (elementSetTxmax (elementSetRxmax described e ec.ecRxmax) e ec.ecTxmax)
          (log ++ ([⟨e, "RxMax", unitBit2str (ec.ecRxmax * 8)⟩] ++
            [⟨e, "TxMax", unitBit2str (ec.ecTxmax * 8)⟩])) := fun described => by
      have rx := described.trans
        (writes_elementSetMax .rx "RxMax" (described.present present) ec.ecRxmax)
      rw [← List.append_assoc]
      exact rx.trans (writes_elementSetMax .tx "TxMax" (rx.present present) ec.ecTxmax)
    simp only [elementConfigure, configWrites]
    cases ec.ecDescription with
    | none => exact limits (Writes.refl σ)
    | some description =>
      exact limits (writes_elementUpdateInfo σ e "Description" description)

theorem ElementOp.writes {cfg : Config} {σ σ' : Store} {e : ElementPtr} {op : ElementOp}
    (present : (σ.elements e).isSome) (called : op.apply cfg σ e = some σ') :
    Writes σ σ' (op.infoWrites e) := by
  cases op with
  | updateInfo name value =>
    obtain rfl := Option.some.inj called
    exact writes_elementUpdateInfo σ e name value
  | setRxmax max =>
    obtain rfl := Option.some.inj called
    exact writes_elementSetMax .rx "RxMax" present max
  | setTxmax max =>
    obtain rfl := Option.some.inj called
    exact writes_elementSetMax .tx "TxMax" present max
  | setKeyAttr attrDefs major minor =>
    obtain rfl := Option.some.inj called
    exact elementSetKeyAttr_rule (Writes σ · []) (fun σ' column definition before =>
      before.trans (writes_modifyElement σ' e _ fun _ => rfl)) attrDefs major minor (Writes.refl σ)
  | notifyUpdate fuel ts =>
    obtain rfl | ⟨-, attrs, -, -, usage, rfl⟩ := elementNotifyUpdate_cases called
    · exact Writes.refl σ'
    · exact writes_modifyElement σ e _ fun _ => rfl
  | lifesign =>
    obtain rfl := Option.some.inj called
    exact writes_modifyElement σ e _ fun _ => rfl
  | setUsageAttr attrDefs usage =>
    obtain rfl := Option.some.inj called
    exact writes_modifyElement σ e _ fun _ => rfl
  | attrUpdate attrDefs historyDefs id rx tx flags now =>
    obtain rfl := Option.some.inj called
    exact writes_modifyElement σ e _ fun _ => rfl
  | setUp level =>
    obtain rfl := Option.some.inj called
    exact writes_modifyElement σ e _ fun _ => rfl

end Bmon
