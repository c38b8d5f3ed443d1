/-
This file follows the attributes of the elements through the program. An attribute stays in the
sorted list of its element until the element is freed, and the current attribute of an element
is in that list, or the container of its head.
-/

import Bmon.AttrSelect
import Bmon.Evolution
import Bmon.Tracked

namespace Bmon

/-! ### One table -/

/-- The sorted list holds attributes of the table, the current one among them unless it is the
container of the list head. -/
structure AttrTable.Sound (t : AttrTable) : Prop where
  listed : t.Listed
  current : ∀ p, t.eCurrentAttr = some (.attr p) → p ∈ t.eAttrSorted

/-- A table of the same element at a later time. -/
structure AttrTable.Evolves (t t' : AttrTable) : Prop where
  sound : t.Sound → t'.Sound
  sorted : t.eAttrSorted ⊆ t'.eAttrSorted

/-- A neighbour that is not the container of the head. -/
theorem elim_eq_attr {neighbour : Option AttrPtr} {p : AttrPtr}
    (found : neighbour.elim SortNode.head SortNode.attr = .attr p) : neighbour = some p := by
  cases neighbour with
  | none => cases found
  | some q => rw [SortNode.attr.inj found]

/-- The neighbours of a node are in the list. -/
theorem mem_of_next {sorted : List AttrPtr} {node : SortNode} {p : AttrPtr}
    (moved : node.next sorted = .attr p) : p ∈ sorted := by
  cases node with
  | head => exact List.mem_of_head? (elim_eq_attr moved)
  | attr q => exact Neighbours.next_mem (elim_eq_attr moved)

theorem mem_of_prev {sorted : List AttrPtr} {node : SortNode} {p : AttrPtr}
    (moved : node.prev sorted = .attr p) : p ∈ sorted := by
  cases node with
  | head => exact List.mem_of_getLast? (elim_eq_attr moved)
  | attr q => exact List.mem_reverse.mp (Neighbours.next_mem (elim_eq_attr moved))

namespace AttrTable.Evolves

variable {t t' t'' : AttrTable}

theorem refl (t : AttrTable) : t.Evolves t := ⟨id, List.Subset.refl _⟩

theorem trans (first : t.Evolves t') (second : t'.Evolves t'') : t.Evolves t'' :=
  ⟨second.sound ∘ first.sound, List.Subset.trans first.sorted second.sorted⟩

/-- Another current attribute. -/
theorem of_current (attrs : t'.attrs.length = t.attrs.length)
    (sorted : t'.eAttrSorted = t.eAttrSorted)
    (current : t.Sound → ∀ p, t'.eCurrentAttr = some (.attr p) → p ∈ t.eAttrSorted) :
    t.Evolves t' where
  sound before := by
    refine ⟨⟨sorted ▸ before.listed.nodup, fun p member => ?_⟩, fun p isCurrent => ?_⟩
    · rw [attrs]
      exact before.listed.bound p (sorted ▸ member)
    · rw [sorted]
      exact current before p isCurrent
  sorted := by rw [sorted]; exact List.Subset.refl _

/-- The same attributes, with other records. -/
theorem of_same (attrs : t'.attrs.length = t.attrs.length)
    (sorted : t'.eAttrSorted = t.eAttrSorted) (current : t'.eCurrentAttr = t.eCurrentAttr) :
    t.Evolves t' :=
  of_current attrs sorted fun before p isCurrent => before.current p (current ▸ isCurrent)

theorem modifyAttr (t : AttrTable) (p : AttrPtr) (change : Attr → Attr) :
    t.Evolves (t.modifyAttr p change) :=
  of_same (List.length_modify _ _ _) rfl rfl

theorem attrUpdate (cfg : Config) (attrDefs : List AttrDef) (historyDefs : List HistoryDef)
    (t : AttrTable) (id : Nat) (rx tx : UInt64) (flags : UpdateFlags) (now : Timestamp) :
    t.Evolves (attrUpdate cfg attrDefs historyDefs t id rx tx flags now) := by
  obtain ⟨current, sorted⟩ := attrUpdate_sorted cfg attrDefs historyDefs t id rx tx flags now
  have more : t.eAttrSorted ⊆
      (Bmon.attrUpdate cfg attrDefs historyDefs t id rx tx flags now).eAttrSorted := by
    obtain ⟨same, -⟩ | ⟨added, -⟩ := sorted
    · rw [same]
      exact List.Subset.refl _
    · exact fun p member => added.mem_iff.mpr (List.mem_cons_of_mem _ member)
  refine ⟨fun before => ⟨attrUpdate_listed before.listed cfg attrDefs historyDefs id rx tx flags
    now, fun p isCurrent => more (before.current p (current ▸ isCurrent))⟩, more⟩

theorem attrSelectFirst (t : AttrTable) : t.Evolves (attrSelectFirst t) :=
  of_current rfl rfl fun _ p isCurrent => by
    rw [attrSelectFirst_current] at isCurrent
    obtain ⟨q, first, same⟩ := Option.map_eq_some_iff.mp isCurrent
    obtain rfl := SortNode.attr.inj same
    exact List.mem_of_head? first

theorem attrSelectLast (t : AttrTable) : t.Evolves (attrSelectLast t) :=
  of_current rfl rfl fun _ p isCurrent => by
    unfold Bmon.attrSelectLast at isCurrent
    simp only at isCurrent
    split_ifs at isCurrent
    cases isCurrent

theorem attrSelectNext (t : AttrTable) : t.Evolves (attrSelectNext t) := by
  unfold Bmon.attrSelectNext
  split
  · exact attrSelectFirst t
  · split_ifs
    · exact of_current rfl rfl fun _ p moved => mem_of_next (Option.some.inj moved)
    · exact attrSelectFirst t

theorem attrSelectPrev (t : AttrTable) : t.Evolves (attrSelectPrev t) := by
  unfold Bmon.attrSelectPrev
  split
  · exact attrSelectLast t
  · split_ifs
    · exact of_current rfl rfl fun _ p moved => mem_of_prev (Option.some.inj moved)
    · exact attrSelectLast t

theorem attrCurrent (t : AttrTable) : t.Evolves (attrCurrent t) := by
  unfold Bmon.attrCurrent
  split
  · exact attrSelectFirst t
  · exact refl t

theorem notifyAttrs {cfg : Config} {fuel : Nat} {ts : Timestamp} {order : List AttrPtr}
    {t t' : AttrTable} (notified : notifyAttrs cfg fuel ts order t = some t') : t.Evolves t' := by
  induction order generalizing t with
  | nil =>
    obtain rfl := Option.some.inj notified
    exact refl t
  | cons p rest inductionHypothesis =>
    rw [Bmon.notifyAttrs] at notified
    split at notified
    · exact inductionHypothesis notified
    · obtain ⟨a, -, more⟩ := Option.bind_eq_some_iff.mp notified
      exact (modifyAttr t p fun _ => a).trans (inductionHypothesis more)

end AttrTable.Evolves

theorem sound_empty : AttrTable.empty.Sound where
  listed := ⟨List.nodup_nil, fun p member => by cases member⟩
  current p isCurrent := by cases isCurrent

/-! ### All tables -/

/-- A later store: every element is new, or its table is that of the same element later. -/
structure TablesEvolve (σ σ' : Store) : Prop where
  nextElement : σ.nextElement ≤ σ'.nextElement
  tables : ∀ e r', σ'.elements e = some r' →
    (∃ r, σ.elements e = some r ∧ r.eAttrs.Evolves r'.eAttrs) ∨
      (σ.nextElement ≤ e ∧ r'.eAttrs.Sound)

/-- All tables are sound. -/
def Store.SoundTables (σ : Store) : Prop := ∀ e r, σ.elements e = some r → r.eAttrs.Sound

namespace TablesEvolve

variable {σ σ' σ'' : Store}

theorem refl (σ : Store) : TablesEvolve σ σ :=
  ⟨le_rfl, fun _ r present => Or.inl ⟨r, present, .refl _⟩⟩

theorem trans (first : TablesEvolve σ σ') (second : TablesEvolve σ' σ'') : TablesEvolve σ σ'' := by
  refine ⟨first.nextElement.trans second.nextElement, fun e r'' present => ?_⟩
  obtain ⟨r', present', evolves⟩ | ⟨late, sound⟩ := second.tables e r'' present
  · obtain ⟨r, present, before⟩ | ⟨late, sound⟩ := first.tables e r' present'
    · exact Or.inl ⟨r, present, before.trans evolves⟩
    · exact Or.inr ⟨late, evolves.sound sound⟩
  · exact Or.inr ⟨first.nextElement.trans late, sound⟩

/-- The tables stay as they are. -/
theorem of_map (nextElement : σ'.nextElement = σ.nextElement)
    (tables : ∀ e, (σ'.elements e).map Element.eAttrs = (σ.elements e).map Element.eAttrs) :
    TablesEvolve σ σ' := by
  refine ⟨nextElement.ge, fun e r' present => Or.inl ?_⟩
  have same := tables e
  rw [present, Option.map_some] at same
  obtain ⟨r, found, equal⟩ := Option.map_eq_some_iff.mp same.symm
  exact ⟨r, found, equal ▸ .refl _⟩

/-- One element is changed. -/
theorem modifyElement (σ : Store) (e : ElementPtr) {change : Element → Element}
    (evolves : ∀ r, σ.elements e = some r → r.eAttrs.Evolves (change r).eAttrs) :
    TablesEvolve σ (σ.modifyElement e change) := by
  refine ⟨le_rfl, fun x r' present => Or.inl ?_⟩
  unfold Store.modifyElement at present
  simp only at present
  split_ifs at present with same
  · obtain ⟨r, found, rfl⟩ := Option.map_eq_some_iff.mp present
    subst same
    exact ⟨r, found, evolves r found⟩
  · exact ⟨r', present, .refl _⟩

variable (evolve : TablesEvolve σ σ')

include evolve

theorem soundTables (sound : σ.SoundTables) : σ'.SoundTables := by
  intro e r' present
  obtain ⟨r, found, evolves⟩ | ⟨-, sound⟩ := evolve.tables e r' present
  · exact evolves.sound (sound e r found)
  · exact sound

/-- An element that existed before and still does has its attributes still. -/
theorem sorted {e : ElementPtr} (old : e < σ.nextElement) {r' : Element}
    (present : σ'.elements e = some r') :
    ∃ r, σ.elements e = some r ∧ r.eAttrs.eAttrSorted ⊆ r'.eAttrs.eAttrSorted := by
  obtain ⟨r, found, evolves⟩ | ⟨late, -⟩ := evolve.tables e r' present
  · exact ⟨r, found, evolves.sorted⟩
  · exact absurd old (Nat.not_lt.mpr late)

end TablesEvolve

/-! ### The calls of the program -/

theorem eAttrs_updateInfo (r : Element) (name value : String) :
    (Element.updateInfo name value r).eAttrs = r.eAttrs :=
  field_updateInfo Element.eAttrs (fun _ _ _ => rfl) r name value

/-- A call on an element. -/
theorem ElementOp.tablesEvolve {cfg : Config} {σ σ' : Store} {e : ElementPtr} {op : ElementOp}
    (called : op.apply cfg σ e = some σ') : TablesEvolve σ σ' := by
  cases op with
  | lifesign =>
    obtain rfl := Option.some.inj called
    exact .modifyElement σ e fun r _ => .refl _
  | updateInfo name value =>
    obtain rfl := Option.some.inj called
    exact .modifyElement σ e fun r _ => eAttrs_updateInfo r name value ▸ .refl _
  | setRxmax max =>
    obtain rfl := Option.some.inj called
    exact .of_map (ElementOp.touches called).nextElement fun x => map_elementSetMax Element.eAttrs
      eAttrs_updateInfo (fun _ _ => rfl) .rx "RxMax" σ e x max
  | setTxmax max =>
    obtain rfl := Option.some.inj called
    exact .of_map (ElementOp.touches called).nextElement fun x => map_elementSetMax Element.eAttrs
      eAttrs_updateInfo (fun _ _ => rfl) .tx "TxMax" σ e x max
  | setKeyAttr attrDefs major minor =>
    obtain rfl := Option.some.inj called
    exact elementSetKeyAttr_rule (TablesEvolve σ) (fun σ' column definition before =>
      before.trans (.modifyElement σ' e fun _ _ => .of_same rfl rfl rfl)) attrDefs major minor
      (.refl σ)
  | setUsageAttr attrDefs usage =>
    obtain rfl := Option.some.inj called
    exact .modifyElement σ e fun _ _ => .of_same rfl rfl rfl
  | attrUpdate attrDefs historyDefs id rx tx flags now =>
    obtain rfl := Option.some.inj called
    exact .modifyElement σ e fun r _ => .attrUpdate cfg attrDefs historyDefs r.eAttrs id rx tx
      flags now
  | notifyUpdate fuel ts =>
    obtain rfl | ⟨r, attrs, found, notified, usage, rfl⟩ := elementNotifyUpdate_cases called
    · exact .refl σ'
    · refine .modifyElement σ e fun r' found' => ?_
      rw [found] at found'
      obtain rfl := Option.some.inj found'
      exact .notifyAttrs notified
  | setUp level =>
    obtain rfl := Option.some.inj called
    exact .modifyElement σ e fun r _ => .refl _

theorem tablesEvolve_elementCreate (cfg : Config) (σ : Store) (group : GroupPtr)
    (name : CString) (id : UInt32) (parent : Option ElementPtr) :
    TablesEvolve σ (elementCreate cfg σ group name id parent) := by
  refine ⟨?_, fun e r' present => ?_⟩
  · rw [(touches_elementCreate cfg σ group name id parent).nextElement]
    exact Nat.le_succ _
  · have tables := map_elementCreate Element.eAttrs eAttrs_updateInfo (fun _ _ => rfl) cfg σ group
      name id parent e
    rw [present, Option.map_some] at tables
    split_ifs at tables with new
    · refine Or.inr ⟨new.ge, ?_⟩
      rw [Option.some.inj tables]
      exact sound_empty
    · obtain ⟨r, found, same⟩ := Option.map_eq_some_iff.mp tables.symm
      exact Or.inl ⟨r, found, same ▸ .refl _⟩

theorem evolution_tablesEvolve : Evolution TablesEvolve where
  trans := TablesEvolve.trans
  frees _ nextElement elements :=
    ⟨nextElement.ge, fun e r' present => Or.inl ⟨r', elements e r' present, .refl _⟩⟩
  marks σ e _ _ := .modifyElement σ e fun _ _ => .refl _

/-- One call of the program. -/
theorem step_tablesEvolve {cfg : Config} {st next : State} {op : Op} (valid : st.Valid)
    (stepped : step cfg st op = some next) : TablesEvolve st.store next.store := by
  have input (call : InputOp) (σ : Store) (called : call.apply cfg st.store = some σ) :
      TablesEvolve st.store σ :=
    evolution_tablesEvolve.inputOp (tablesEvolve_elementCreate cfg st.store)
      (fun _ _ _ _ called => ElementOp.tablesEvolve called) called
  exact evolution_tablesEvolve.step valid (fun call σ _ => input call σ) stepped

end Bmon
