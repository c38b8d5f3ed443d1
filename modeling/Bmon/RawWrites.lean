/-
This file shows that what the program writes to its pointers is what it does to its lists.

The functions that change a record leave all links alone. Creating a group or an element links
new heads to themselves and adds one node to one ring, and releasing an element takes one node
out of its ring. No other ring is written.
-/

import Bmon.RawReads

namespace Bmon

/-! ### Records -/

/-- Creating a configuration does not look at lists. -/
theorem elementCfgCreate_withoutLists (σ : Store) (name : CString) :
    elementCfgCreate σ.withoutLists name =
      ((elementCfgCreate σ name).1.withoutLists, (elementCfgCreate σ name).2) := by
  have lookup : elementCfgLookup σ.withoutLists name = elementCfgLookup σ name := rfl
  unfold elementCfgCreate
  rw [lookup]
  cases elementCfgLookup σ name <;> rfl

theorem elementSetMax_withoutLists (direction : Direction) (info : String) (σ : Store)
    (e : ElementPtr) (max : UInt64) : elementSetMax direction info σ.withoutLists e max =
      (elementSetMax direction info σ e max).withoutLists := by
  have records : σ.withoutLists.elements e = σ.elements e := rfl
  unfold elementSetMax
  rw [records]
  cases σ.elements e with
  | none => rfl
  | some r =>
    have ensured : elementEnsureCfg σ.withoutLists e r =
        ((elementEnsureCfg σ e r).1.withoutLists, (elementEnsureCfg σ e r).2) := by
      unfold elementEnsureCfg
      rw [elementCfgCreate_withoutLists]
      cases r.eCfg <;> rfl
    simp only [ensured]
    rfl

theorem elementConfigure_withoutLists (σ : Store) (e : ElementPtr) (ec : Option ElementCfg) :
    elementConfigure σ.withoutLists e ec = (elementConfigure σ e ec).withoutLists := by
  cases ec with
  | none => rfl
  | some ec =>
    simp only [elementConfigure, elementSetTxmax, elementSetRxmax]
    rw [← elementSetMax_withoutLists, ← elementSetMax_withoutLists]
    cases ec.ecDescription <;> rfl

theorem elementNotifyUpdate_withoutLists (cfg : Config) (fuel : Nat) (σ : Store) (e : ElementPtr)
    (ts : Timestamp) : elementNotifyUpdate cfg fuel σ.withoutLists e ts =
      (elementNotifyUpdate cfg fuel σ e ts).map Store.withoutLists := by
  have records : σ.withoutLists.elements e = σ.elements e := rfl
  unfold elementNotifyUpdate
  rw [records]
  cases σ.elements e with
  | none => rfl
  | some r =>
    simp only [Option.map_map]
    rfl

/-- What input modules do to an element does not look at lists. -/
theorem ElementOp.apply_withoutLists (cfg : Config) (σ : Store) (e : ElementPtr)
    (op : ElementOp) :
    op.apply cfg σ.withoutLists e = (op.apply cfg σ e).map Store.withoutLists := by
  cases op with
  | setRxmax max => exact congrArg some (elementSetMax_withoutLists .rx "RxMax" σ e max)
  | setTxmax max => exact congrArg some (elementSetMax_withoutLists .tx "TxMax" σ e max)
  | setKeyAttr attrDefs major minor =>
    refine congrArg some ?_
    unfold elementSetKeyAttr
    split_ifs <;> rfl
  | notifyUpdate fuel ts => exact elementNotifyUpdate_withoutLists cfg fuel σ e ts
  | _ => rfl

theorem groupNewHdr_withoutLists (σ : Store) (hdr : GroupHdr) :
    groupNewHdr σ.withoutLists hdr = (groupNewHdr σ hdr).withoutLists := by
  have lookup : groupLookupHdr σ.withoutLists hdr.ghName = groupLookupHdr σ hdr.ghName := rfl
  unfold groupNewHdr
  rw [lookup]
  split_ifs <;> rfl

theorem groupNewDerivedHdr_withoutLists (σ : Store) (name : CString) (title : String)
    (template : CString) : groupNewDerivedHdr σ.withoutLists name title template =
      (groupNewDerivedHdr σ name title template).withoutLists := by
  have lookup (name : CString) :
      groupLookupHdr σ.withoutLists name = groupLookupHdr σ name := rfl
  unfold groupNewDerivedHdr
  simp only [lookup, groupNewHdr_withoutLists]
  split_ifs
  · rfl
  · cases groupLookupHdr σ template <;> rfl

/-! ### Nodes in no ring -/

namespace Store

variable {σ σ' : Store} {head : ListNode}

theorem gElements_mem {g : GroupPtr} : .gElements g ∈ head :: σ.entries head ↔
    head = .gElements g := by
  cases head <;> simp [entries, eq_comm]

theorem eChilds_mem {e : ElementPtr} : .eChilds e ∈ head :: σ.entries head ↔
    head = .eChilds e := by
  cases head <;> simp [entries, eq_comm]

theorem gList_mem {g : GroupPtr} (isHead : σ'.IsHead head) :
    .gList g ∈ head :: σ.entries head ↔ head = .groupList ∧ g ∈ σ.groupList := by
  cases head <;> simp [entries, IsHead] at isHead ⊢

theorem eList_mem {e : ElementPtr} (isHead : σ'.IsHead head) :
    .eList e ∈ head :: σ.entries head ↔
      ∃ list : ListHead, head = list.node ∧ e ∈ σ.lists list := by
  constructor
  · intro member
    cases head with
    | groupList => simp [entries] at member
    | gList => cases isHead
    | gElements g => exact ⟨.ofGroup g, rfl, by simpa [entries] using member⟩
    | eList => cases isHead
    | eChilds p => exact ⟨.ofElement p, rfl, by simpa [entries] using member⟩
  · rintro ⟨list, rfl, member⟩
    rw [entries_node]
    exact List.mem_cons_of_mem _ (List.mem_map_of_mem member)

end Store

/-! ### Creating groups and elements -/

theorem node_listOf (group : GroupPtr) (parent : Option ElementPtr) :
    (listOf group parent).node = Raw.listOf group parent := by
  cases parent <;> rfl

namespace Memory.Shows

variable {m : Memory} {σ : Store} {s : Selection} (shows : m.Shows ⟨σ, s⟩)

include shows

/-- A change of records that keeps the shape of the store. -/
theorem sameShape {σ' : Store} (same : SameShape σ σ') :
    Memory.Shows { m with records := σ'.withoutLists } ⟨σ', s⟩ := by
  refine ⟨rfl, shows.rings.congr (fun head holds => ?_) fun head holds => ?_, shows.selection⟩
  · cases head with
    | gElements g => exact (holds : g < σ'.nextGroup).trans_eq same.nextGroup
    | eChilds e => exact (holds : e < σ'.nextElement).trans_eq same.nextElement
    | _ => exact holds
  · cases head <;> simp [Store.entries, same.lists, same.groupList]

variable (wf : σ.WellFormed)

include wf

theorem groupCreate (hdr : GroupHdr) :
    (Raw.groupCreate m hdr).Shows ⟨groupCreate σ hdr, s.setCurrent σ.nextGroup none⟩ := by
  have records : m.records.nextGroup = σ.nextGroup := by rw [shows.records]; rfl
  have fresh : σ.nextGroup ∉ σ.groupList := fun member => lt_irrefl _ (wf.group_lt _ member)
  have lists := wf.lists_groupCreate hdr
  -- first the new head, with the group not yet in the list of groups
  have allocated : (m.links.init (.gElements σ.nextGroup)).Rings
      (Bmon.groupCreate σ hdr).IsHead
      (Store.entries { Bmon.groupCreate σ hdr with groupList := σ.groupList }) := by
    refine shows.rings.init_head (fun head holds member => ?_) (fun head holds => ?_) ?_
      fun head holds => ?_
    · rw [Store.gElements_mem.mp member] at holds
      exact lt_irrefl _ (holds : σ.nextGroup < σ.nextGroup)
    · cases head with
      | gElements g =>
        rcases Nat.lt_succ_iff_lt_or_eq.mp (holds : g < σ.nextGroup + 1) with old | rfl
        · exact Or.inl old
        · exact Or.inr rfl
      | _ => exact Or.inl holds
    · change List.map _ ((Bmon.groupCreate σ hdr).lists _) = []
      rw [lists, wf.lists_of_group_not_mem fresh, List.map_nil]
    · cases head <;> simp [Store.entries, lists]
  refine ⟨?_, ?_, ?_⟩
  · unfold Raw.groupCreate
    rw [records, shows.records]
    rfl
  · unfold Raw.groupCreate
    rw [records]
    refine allocated.insertLast trivial (fun head holds member => ?_) ?_
      fun head holds other => ?_
    · exact fresh ((Store.gList_mem holds).mp member).2
    · change List.map _ (σ.groupList ++ [σ.nextGroup]) = List.map _ σ.groupList ++ _
      rw [List.map_append, List.map_singleton]
    · cases head with
      | groupList => exact absurd rfl other
      | _ => rfl
  · unfold Raw.groupCreate
    rw [records, shows.selection]

theorem elementCreate (cfg : Config) {group : GroupPtr} (name : CString) (id : UInt32)
    {parent : Option ElementPtr} (isGroup : group ∈ σ.groupList)
    (above : ∀ p ∈ parent, σ.eGroup p = some group) :
    (Raw.elementCreate cfg m group name id parent).Shows
      ⟨elementCreate cfg σ group name id parent, s⟩ := by
  have same := sameStanding_elementCreate cfg σ group name id parent
  have lists (head : ListHead) : (Bmon.elementCreate cfg σ group name id parent).lists head =
      σ.lists head ++ if head = Bmon.listOf group parent then [σ.nextElement] else [] := by
    rw [same.lists]
    exact wf.lists_alloc
      (elementNew cfg group name id parent (elementCfgLookup σ name)) head
  have notIn (head : ListHead) : σ.nextElement ∉ σ.lists head := fun member =>
    lt_irrefl _ (wf.lt_of_mem member)
  have groups : (Bmon.elementCreate cfg σ group name id parent).groupList = σ.groupList :=
    same.groupList
  have handed : (Bmon.elementCreate cfg σ group name id parent).nextElement =
      σ.nextElement + 1 := same.nextElement
  have handedGroup : (Bmon.elementCreate cfg σ group name id parent).nextGroup = σ.nextGroup :=
    same.nextGroup
  -- the links of the new element, which is not linked yet
  have alone : ((m.links.init (.eList σ.nextElement)).init (.eChilds σ.nextElement)).Rings
      (Bmon.elementCreate cfg σ group name id parent).IsHead σ.entries := by
    refine (shows.rings.init fun head holds member => ?_).init_head
      (fun head holds member => ?_) (fun head holds => ?_) ?_ fun _ _ => rfl
    · obtain ⟨list, -, inList⟩ := (Store.eList_mem holds).mp member
      exact notIn list inList
    · rw [Store.eChilds_mem.mp member] at holds
      exact lt_irrefl _ (holds : σ.nextElement < σ.nextElement)
    · cases head with
      | gElements g => exact Or.inl ((holds : g < _).trans_eq handedGroup)
      | eChilds e =>
        have less : e < σ.nextElement + 1 := (holds : e < _).trans_eq handed
        rcases Nat.lt_succ_iff_lt_or_eq.mp less with old | rfl
        · exact Or.inl old
        · exact Or.inr rfl
      | _ => exact Or.inl holds
    · change List.map _ (σ.lists (.ofElement σ.nextElement)) = []
      rw [wf.lists_of_place_none wf.place_next, List.map_nil]
  have isHead : (Bmon.elementCreate cfg σ group name id parent).IsHead
      (Raw.listOf group parent) := by
    cases parent with
    | none => exact ((wf.group_lt group isGroup).trans_eq handedGroup.symm)
    | some p =>
      obtain ⟨place, present, -⟩ := eGroup_eq_some_iff.mp (above p rfl)
      exact (Nat.lt_succ_of_lt (wf.element_lt p place present)).trans_eq handed.symm
  have records : m.records.nextElement = σ.nextElement := by rw [shows.records]; rfl
  refine ⟨?_, ?_, shows.selection⟩
  · unfold Raw.elementCreate Bmon.elementCreate
    rw [shows.records]
    exact congrArg (fun σ : Store => σ.modifyGroup group fun g =>
      { g with gNelements := g.gNelements + 1 })
        (elementConfigure_withoutLists
          (elementAlloc σ (elementNew cfg group name id parent (elementCfgLookup σ name)))
          σ.nextElement ((elementCfgLookup σ name).bind fun c => σ.cfgList[c]?))
  · unfold Raw.elementCreate
    rw [records]
    refine alone.insertLast isHead (fun head holds member => ?_) ?_ fun head holds other => ?_
    · obtain ⟨list, -, inList⟩ := (Store.eList_mem holds).mp member
      exact notIn list inList
    · rw [← node_listOf, Store.entries_node, Store.entries_node, lists, if_pos rfl, List.map_append,
        List.map_singleton]
    · cases head with
      | groupList => exact congrArg (List.map ListNode.gList) groups
      | gElements g =>
        change List.map _ ((Bmon.elementCreate cfg σ group name id parent).lists _) = _
        rw [lists, if_neg, List.append_nil]
        · rfl
        · exact fun equal => other (node_listOf group parent ▸ congrArg ListHead.node equal)
      | eChilds p =>
        change List.map _ ((Bmon.elementCreate cfg σ group name id parent).lists _) = _
        rw [lists, if_neg, List.append_nil]
        · rfl
        · exact fun equal => other (node_listOf group parent ▸ congrArg ListHead.node equal)
      | _ => rfl

/-- `group_lookup` returns the same group, and creates one where the list has none. -/
theorem groupLookup (name : CString) (create : Bool) :
    (Raw.groupLookup m name create).1.Shows ⟨(groupLookup σ name create).1,
        if (groupLookup σ name create).1.nextGroup = σ.nextGroup then s
        else s.setCurrent σ.nextGroup none⟩ ∧
      (Raw.groupLookup m name create).2 = (groupLookup σ name create).2 := by
  have length : σ.groupList.length ≤ σ.nextGroup := by
    have bounded : σ.groupList ⊆ List.range σ.nextGroup := fun g member =>
      List.mem_range.mpr (wf.group_lt g member)
    exact (wf.groups_nodup.subperm bounded).length_le.trans_eq List.length_range
  have enough : (σ.entries .groupList).length ≤ m.records.nextGroup := by
    rw [shows.records]
    exact (List.length_map _).trans_le length
  have hdrs : groupLookupHdr m.records name = groupLookupHdr σ name := by rw [shows.records]; rfl
  have searched : m.links.search (fun node => node.group.any fun g =>
        (m.records.groups g).any fun r => r.gName = name) .groupList m.records.nextGroup
        (m.links.next .groupList) =
      (σ.groupList.find? fun g => (σ.groups g).any fun r => r.gName = name).map .gList := by
    rw [(shows.rings.ring .groupList trivial).search_eq _ enough, shows.records]
    exact List.find?_map
  unfold Raw.groupLookup Bmon.groupLookup
  simp only [searched]
  cases σ.groupList.find? fun g => (σ.groups g).any fun r => r.gName = name with
  | some g => exact ⟨by simpa using shows, rfl⟩
  | none =>
    simp only [Option.map_none, hdrs]
    cases create with
    | false => exact ⟨by simpa using shows, rfl⟩
    | true =>
      simp only [if_true]
      cases groupLookupHdr σ name with
      | none => exact ⟨by simpa using shows, rfl⟩
      | some hdr =>
        have handed : (Bmon.groupCreate σ hdr).nextGroup ≠ σ.nextGroup := Nat.succ_ne_self _
        simp only [if_neg handed]
        exact ⟨shows.groupCreate wf hdr, by rw [shows.records]; rfl⟩

/-- `element_lookup` returns the same element, and creates one where the list has none. -/
theorem elementLookup (cfg : Config) {group : GroupPtr} (name : CString) (id : UInt32)
    {parent : Option ElementPtr} (creat : Bool) (isGroup : group ∈ σ.groupList)
    (above : ∀ p ∈ parent, σ.eGroup p = some group) :
    (Raw.elementLookup cfg m group name id parent creat).1.Shows
        ⟨(elementLookup cfg σ group name id parent creat).1, s⟩ ∧
      (Raw.elementLookup cfg m group name id parent creat).2 =
        (elementLookup cfg σ group name id parent creat).2 := by
  have isHead : σ.IsHead (Bmon.listOf group parent).node := by
    cases parent with
    | none => exact wf.isHead_ofGroup isGroup
    | some p =>
      obtain ⟨place, present, -⟩ := eGroup_eq_some_iff.mp (above p rfl)
      exact wf.element_lt p place present
  have searched := shows.search_elements wf isHead fun e =>
    (m.records.elements e).any fun r => r.eName = name ∧ r.eId = id
  rw [node_listOf] at searched
  have found : ((σ.lists (Bmon.listOf group parent)).find? fun e =>
      (m.records.elements e).any fun r => r.eName = name ∧ r.eId = id) =
        lookupElement σ group name id parent := by rw [shows.records]; rfl
  have cfgs : elementCfgLookup m.records name = elementCfgLookup σ name := by
    rw [shows.records]; rfl
  have list : m.records.cfgList = σ.cfgList := by rw [shows.records]; rfl
  have allowed (ec : Option ElementCfg) :
      elementAllowed m.records name ec = elementAllowed σ name ec := by
    rw [shows.records]; rfl
  unfold Raw.elementLookup Bmon.elementLookup
  simp only [searched, found]
  cases lookupElement σ group name id parent with
  | some e => exact ⟨shows, rfl⟩
  | none =>
    simp only [Option.map_none, cfgs, list, allowed]
    split_ifs
    · exact ⟨shows.elementCreate wf cfg name id isGroup above, by rw [shows.records]; rfl⟩
    · exact ⟨shows, rfl⟩

end Memory.Shows

/-! ### Releasing an element -/

namespace Memory.Shows

variable {m : Memory} {σ : Store} {s : Selection} (shows : m.Shows ⟨σ, s⟩)

include shows

/-- The repair of the selection. -/
theorem elementUnselect (wf : σ.WellFormed) (valid : s.Valid σ) {e : ElementPtr} {r : Element}
    (found : σ.elements e = some r) :
    (if m.selection.gCurrent r.eGroup = some e then
        let m := Raw.elementSelectPrev m
        if m.selection.gCurrent r.eGroup = some e then m.setCurrent r.eGroup none else m
      else m).Shows ⟨σ, (elementUnselect ⟨σ, s⟩ e).selection⟩ := by
  have prev := shows.elementSelectPrev valid wf
  unfold Bmon.elementUnselect
  simp only [found, shows.selection, prev.selection]
  split_ifs
  · exact prev.setCurrent r.eGroup none
  · exact prev
  · exact shows

/-- `list_del` of an element in the store, whose record is freed then. -/
theorem unlink (wf : σ.WellFormed) {e : ElementPtr} (present : σ.place e ≠ none) (g : GroupPtr)
    (change : ElementGroup → ElementGroup) :
    Memory.Shows { m with
        records := (m.records.modifyGroup g change).xfree e
        links := Raw.listDel m.links (.eList e) }
      ⟨((σ.listDel e).modifyGroup g change).xfree e, s⟩ := by
  obtain ⟨place, found⟩ := Option.ne_none_iff_exists'.mp present
  have linked : ListNode.eList e ∈ σ.entries place.head.node := by
    rw [σ.entries_node]
    exact List.mem_map_of_mem (wf.linked e place found)
  have without (nodes : List ElementPtr) : (nodes.filter (· ≠ e)).map ListNode.eList =
      (nodes.map ListNode.eList).filter (· ≠ .eList e) := by
    rw [List.filter_map]
    refine congrArg (List.map ListNode.eList) (List.filter_congr fun x _ => ?_)
    simp [eList_injective.eq_iff]
  have cut : (m.links.remove (.eList e)).Rings σ.IsHead fun head =>
      (σ.entries head).filter (· ≠ .eList e) :=
    shows.rings.remove (wf.isHead_place found) linked fun _ _ => rfl
  refine ⟨by rw [shows.records]; rfl, cut.congr (fun head holds => ?_) fun head holds => ?_,
    shows.selection⟩
  · cases head <;> exact holds
  cases head with
  | groupList => exact (List.filter_eq_self.mpr fun node member => by
      obtain ⟨g, -, rfl⟩ := List.mem_map.mp member
      simp).symm
  | gElements g => exact without _
  | eChilds p => exact without _
  | _ => rfl

theorem elementRelease (wf : σ.WellFormed) (valid : s.Valid σ) {e : ElementPtr}
    (present : σ.place e ≠ none) :
    (Raw.elementRelease m e).Shows (elementRelease ⟨σ, s⟩ e) := by
  obtain ⟨place, some⟩ := Option.ne_none_iff_exists'.mp present
  obtain ⟨r, found, -⟩ := place_eq_some_iff.mp some
  have records : m.records.elements e = Option.some r := by rw [shows.records]; exact found
  have repaired := shows.elementUnselect wf valid found
  have store : (Bmon.elementUnselect ⟨σ, s⟩ e).store = σ := by
    unfold Bmon.elementUnselect
    simp only [found]
    split_ifs <;> rfl
  have released := repaired.unlink wf present r.eGroup fun g =>
    { g with gNelements := g.gNelements - 1 }
  unfold Raw.elementRelease Bmon.elementRelease
  simp only [records, found]
  rw [store]
  exact released

end Memory.Shows

end Bmon
