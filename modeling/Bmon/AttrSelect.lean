/-
This file models how the user moves through the attributes of an element, and shows when that
is a walk around the sorted list of attributes.

`attr_select_last` takes the container of the list head where it means that of the last node.
The result is a pointer that shows no attribute. Everything else is as it should be: as long as
`attr_select_last` is not run on a list that has attributes, the current attribute is one of the
list, and the two directions are the cyclic successor and the cyclic predecessor.
-/

import Bmon.AttrLookup
import Bmon.Lib.Neighbours
import Bmon.Lib.Runs

namespace Bmon

/-! ### The source functions -/

/-- `next` of a node of the sorted list. -/
def SortNode.next (sorted : List AttrPtr) : SortNode → SortNode
  | .head => sorted.head?.elim .head .attr
  | .attr p => (Neighbours.next sorted p).elim .head .attr

/-- `prev` of a node of the sorted list. -/
def SortNode.prev (sorted : List AttrPtr) : SortNode → SortNode
  | .head => sorted.getLast?.elim .head .attr
  | .attr p => (Neighbours.prev sorted p).elim .head .attr

/-- `attr_select_first` on the current element. -/
def attrSelectFirst (t : AttrTable) : AttrTable :=
  { t with
    eCurrentAttr := if t.eAttrSorted = [] then none else some (SortNode.head.next t.eAttrSorted) }

/-- `attr_select_last` on the current element. It takes the list head itself for the last
entry. -/
def attrSelectLast (t : AttrTable) : AttrTable :=
  { t with eCurrentAttr := if t.eAttrSorted = [] then none else some .head }

/-- `attr_select_next` on the current element. -/
def attrSelectNext (t : AttrTable) : AttrTable :=
  match t.eCurrentAttr with
  | none => attrSelectFirst t
  | some a =>
    if a.next t.eAttrSorted ≠ .head then { t with eCurrentAttr := some (a.next t.eAttrSorted) }
    else attrSelectFirst t

/-- `attr_select_prev` on the current element. -/
def attrSelectPrev (t : AttrTable) : AttrTable :=
  match t.eCurrentAttr with
  | none => attrSelectLast t
  | some a =>
    if a.prev t.eAttrSorted ≠ .head then { t with eCurrentAttr := some (a.prev t.eAttrSorted) }
    else attrSelectLast t

/-- `attr_current` on the current element. What it returns is the current attribute of the
table it leaves behind. -/
def attrCurrent (t : AttrTable) : AttrTable :=
  match t.eCurrentAttr with
  | none => attrSelectFirst t
  | some _ => t

/-- What may happen to the attributes of an element between two moves of the user. -/
inductive AttrSelectOp where
  | selectFirst
  | selectLast
  | selectNext
  | selectPrev
  | current
  | update (id : Nat) (rx tx : UInt64) (flags : UpdateFlags) (now : Timestamp)
  deriving DecidableEq, Repr

/-- One operation. -/
def attrSelectStep (cfg : Config) (attrDefs : List AttrDef) (historyDefs : List HistoryDef)
    (t : AttrTable) : AttrSelectOp → AttrTable
  | .selectFirst => attrSelectFirst t
  | .selectLast => attrSelectLast t
  | .selectNext => attrSelectNext t
  | .selectPrev => attrSelectPrev t
  | .current => attrCurrent t
  | .update id rx tx flags now => attrUpdate cfg attrDefs historyDefs t id rx tx flags now

/-! ### The sorted list -/

/-- The sorted list holds every attribute at most once, and nothing else. -/
structure AttrTable.Listed (t : AttrTable) : Prop where
  nodup : t.eAttrSorted.Nodup
  bound : ∀ p ∈ t.eAttrSorted, p < t.attrs.length

/-- The current attribute is nothing or an attribute of the sorted list. -/
def AttrTable.CurrentValid (t : AttrTable) : Prop :=
  ∀ node ∈ t.eCurrentAttr, ∃ p ∈ t.eAttrSorted, node = .attr p

theorem attrSortedInsert_perm (t : AttrTable) (attr : Attr) (p : AttrPtr) (sorted : List AttrPtr) :
    (attrSortedInsert t attr p sorted).Perm (p :: sorted) := by
  induction sorted with
  | nil => exact List.Perm.refl _
  | cons n rest inductionHypothesis =>
    unfold attrSortedInsert
    split
    · exact List.Perm.refl _
    · exact (inductionHypothesis.cons n).trans (List.Perm.swap p n rest)

/-- `attr_update` at most adds an attribute, and leaves the selection alone. -/
theorem attrUpdate_sorted (cfg : Config) (attrDefs : List AttrDef)
    (historyDefs : List HistoryDef) (t : AttrTable) (id : Nat) (rx tx : UInt64)
    (flags : UpdateFlags) (now : Timestamp) :
    let t' := attrUpdate cfg attrDefs historyDefs t id rx tx flags now
    t'.eCurrentAttr = t.eCurrentAttr ∧
      ((t'.eAttrSorted = t.eAttrSorted ∧ t'.attrs.length = t.attrs.length) ∨
        (t'.eAttrSorted.Perm (t.attrs.length :: t.eAttrSorted) ∧
          t'.attrs.length = t.attrs.length + 1)) := by
  unfold attrUpdate
  split
  · exact ⟨rfl, Or.inl ⟨rfl, List.length_modify _ _ _⟩⟩
  · split
    · exact ⟨rfl, Or.inl ⟨rfl, rfl⟩⟩
    · refine ⟨rfl, Or.inr ⟨attrSortedInsert_perm t _ _ _, ?_⟩⟩
      rw [AttrTable.modifyAttr_attrs, List.length_modify, attrTrack_attrs]
      exact List.length_append

theorem attrUpdate_listed {t : AttrTable} (listed : t.Listed) (cfg : Config)
    (attrDefs : List AttrDef) (historyDefs : List HistoryDef) (id : Nat) (rx tx : UInt64)
    (flags : UpdateFlags) (now : Timestamp) :
    (attrUpdate cfg attrDefs historyDefs t id rx tx flags now).Listed := by
  obtain ⟨-, ⟨same, length⟩ | ⟨more, length⟩⟩ :=
    attrUpdate_sorted cfg attrDefs historyDefs t id rx tx flags now
  · exact ⟨same ▸ listed.nodup, fun p member => length ▸ listed.bound p (same ▸ member)⟩
  · have fresh : t.attrs.length ∉ t.eAttrSorted := fun member =>
      absurd (listed.bound _ member) (lt_irrefl _)
    refine ⟨more.nodup_iff.mpr (List.nodup_cons.mpr ⟨fresh, listed.nodup⟩), fun p member => ?_⟩
    rw [length]
    rcases List.mem_cons.mp (more.mem_iff.mp member) with rfl | old
    · exact Nat.lt_succ_self _
    · exact Nat.lt_succ_of_lt (listed.bound p old)

theorem attrUpdate_currentValid {t : AttrTable} (valid : t.CurrentValid) (cfg : Config)
    (attrDefs : List AttrDef) (historyDefs : List HistoryDef) (id : Nat) (rx tx : UInt64)
    (flags : UpdateFlags) (now : Timestamp) :
    (attrUpdate cfg attrDefs historyDefs t id rx tx flags now).CurrentValid := by
  obtain ⟨current, sorted⟩ := attrUpdate_sorted cfg attrDefs historyDefs t id rx tx flags now
  intro node isCurrent
  rw [current] at isCurrent
  obtain ⟨p, member, rfl⟩ := valid node isCurrent
  refine ⟨p, ?_, rfl⟩
  obtain ⟨same, -⟩ | ⟨more, -⟩ := sorted
  · rwa [same]
  · exact more.mem_iff.mpr (List.mem_cons_of_mem _ member)

/-! ### Moves -/

/-- A move only changes which attribute is current. -/
theorem attrSelectNext_eq (t : AttrTable) :
    attrSelectNext t = { t with eCurrentAttr := (attrSelectNext t).eCurrentAttr } := by
  unfold attrSelectNext attrSelectFirst
  split
  · rfl
  · split <;> rfl

theorem attrSelectPrev_eq (t : AttrTable) :
    attrSelectPrev t = { t with eCurrentAttr := (attrSelectPrev t).eCurrentAttr } := by
  unfold attrSelectPrev attrSelectLast
  split
  · rfl
  · split <;> rfl

theorem attrSelectFirst_current (t : AttrTable) :
    (attrSelectFirst t).eCurrentAttr = t.eAttrSorted.head?.map .attr := by
  unfold attrSelectFirst
  cases sorted : t.eAttrSorted <;> simp [SortNode.next]

theorem attrSelectFirst_currentValid (t : AttrTable) : (attrSelectFirst t).CurrentValid := by
  intro node isCurrent
  rw [attrSelectFirst_current] at isCurrent
  obtain ⟨p, isFirst, rfl⟩ := Option.map_eq_some_iff.mp isCurrent
  exact ⟨p, List.mem_of_mem_head? isFirst, rfl⟩

/-- Forwards the walk is around the list. -/
theorem attrSelectNext_current {t : AttrTable} {p : AttrPtr} (member : p ∈ t.eAttrSorted)
    (isCurrent : t.eCurrentAttr = some (.attr p)) :
    (attrSelectNext t).eCurrentAttr = some (.attr (t.eAttrSorted.next p member)) := by
  have cyclic := Neighbours.next_or_head? t.eAttrSorted p member
  cases after : Neighbours.next t.eAttrSorted p with
  | none =>
    have node : (SortNode.attr p).next t.eAttrSorted = .head := by rw [SortNode.next, after]; rfl
    rw [after, Option.none_or] at cyclic
    unfold attrSelectNext
    simp only [isCurrent, node, ne_eq, not_true_eq_false, if_false]
    rw [attrSelectFirst_current, cyclic, Option.map_some]
  | some q =>
    have node : (SortNode.attr p).next t.eAttrSorted = .attr q := by
      rw [SortNode.next, after]; rfl
    rw [after, Option.some_or] at cyclic
    unfold attrSelectNext
    simp [isCurrent, node, Option.some.inj cyclic]

/-- The attribute is the first of the list exactly if nothing comes before it. -/
theorem prev_eq_none_iff {sorted : List AttrPtr} (nodup : sorted.Nodup) {p : AttrPtr}
    (member : p ∈ sorted) : Neighbours.prev sorted p = none ↔ sorted.head? = some p := by
  obtain ⟨front, back, rfl⟩ := List.append_of_mem member
  have apart : ∀ q ∈ front, q ≠ p := fun q inFront =>
    (List.nodup_append.mp nodup).2.2 q inFront p List.mem_cons_self
  have fresh : p ∉ back := (List.nodup_cons.mp (List.nodup_append.mp nodup).2.1).1
  rw [Neighbours.prev_append_cons fresh, List.getLast?_eq_none_iff]
  cases front with
  | nil => simp
  | cons q front => simpa using apart q List.mem_cons_self

/-- Backwards the walk is around the list, except from its first attribute. -/
theorem attrSelectPrev_current {t : AttrTable} (listed : t.Listed) {p : AttrPtr}
    (member : p ∈ t.eAttrSorted) (isCurrent : t.eCurrentAttr = some (.attr p)) :
    (attrSelectPrev t).eCurrentAttr =
      if t.eAttrSorted.head? = some p then some .head
      else some (.attr (t.eAttrSorted.prev p member)) := by
  have cyclic := Neighbours.prev_or_getLast? t.eAttrSorted listed.nodup p member
  have first := prev_eq_none_iff listed.nodup member
  cases before : Neighbours.prev t.eAttrSorted p with
  | none =>
    have node : (SortNode.attr p).prev t.eAttrSorted = .head := by rw [SortNode.prev, before]; rfl
    have nonempty : t.eAttrSorted ≠ [] := List.ne_nil_of_mem member
    rw [if_pos (first.mp before)]
    unfold attrSelectPrev
    simp only [isCurrent, node, ne_eq, not_true_eq_false, if_false]
    exact if_neg nonempty
  | some q =>
    have node : (SortNode.attr p).prev t.eAttrSorted = .attr q := by
      rw [SortNode.prev, before]; rfl
    have notFirst : t.eAttrSorted.head? ≠ some p := fun isFirst => by
      rw [first.mpr isFirst] at before
      cases before
    rw [before, Option.some_or] at cyclic
    rw [if_neg notFirst]
    unfold attrSelectPrev
    simp [isCurrent, node, Option.some.inj cyclic]

/-! ### Where the walk goes wrong -/

/-- The operation runs `attr_select_last` on a list that has attributes: it is that function
itself, or `attr_select_prev` with no current attribute or the first of the list. -/
def SelectsLast (t : AttrTable) (op : AttrSelectOp) : Prop :=
  t.eAttrSorted ≠ [] ∧
    (op = .selectLast ∨
      op = .selectPrev ∧
        (t.eCurrentAttr = none ∨ t.eCurrentAttr = t.eAttrSorted.head?.map .attr))

/-- What a step is to do: to leave a current attribute of the list, if any, and to move from one
to its cyclic successor or predecessor. -/
structure Walks (t : AttrTable) (op : AttrSelectOp) (t' : AttrTable) : Prop where
  valid : t'.CurrentValid
  next : op = .selectNext → ∀ p (member : p ∈ t.eAttrSorted), t.eCurrentAttr = some (.attr p) →
    t'.eCurrentAttr = some (.attr (t.eAttrSorted.next p member))
  prev : op = .selectPrev → ∀ p (member : p ∈ t.eAttrSorted), t.eCurrentAttr = some (.attr p) →
    t'.eCurrentAttr = some (.attr (t.eAttrSorted.prev p member))

/-- Once `attr_select_last` runs on a list that has attributes, the current attribute is none
of them. -/
theorem SelectsLast.current {t : AttrTable} {op : AttrSelectOp} (listed : t.Listed)
    (selectsLast : SelectsLast t op) (cfg : Config) (attrDefs : List AttrDef)
    (historyDefs : List HistoryDef) :
    (attrSelectStep cfg attrDefs historyDefs t op).eCurrentAttr = some .head := by
  obtain ⟨nonempty, rfl | ⟨rfl, current⟩⟩ := selectsLast
  · exact if_neg nonempty
  · obtain none | first := current
    · change (attrSelectPrev t).eCurrentAttr = _
      unfold attrSelectPrev
      rw [none]
      exact if_neg nonempty
    · obtain ⟨p, rest, sorted⟩ := List.exists_cons_of_ne_nil nonempty
      have isFirst : t.eAttrSorted.head? = some p := by rw [sorted]; rfl
      have isCurrent : t.eCurrentAttr = some (.attr p) := by rw [first, isFirst]; rfl
      exact (attrSelectPrev_current listed (sorted ▸ List.mem_cons_self) isCurrent).trans
        (if_pos isFirst)

/-- A step forwards stays in the list. -/
theorem attrSelectNext_currentValid {t : AttrTable} (valid : t.CurrentValid) :
    (attrSelectNext t).CurrentValid := by
  cases current : t.eCurrentAttr with
  | none =>
    unfold attrSelectNext
    rw [current]
    exact attrSelectFirst_currentValid t
  | some node =>
    obtain ⟨p, member, rfl⟩ := valid node current
    intro node' isCurrent
    rw [attrSelectNext_current member current] at isCurrent
    obtain rfl := Option.some.inj isCurrent
    rw [attrSelectNext_eq]
    exact ⟨_, List.next_mem _ _ _, rfl⟩

/-- A step backwards from any but the first attribute. -/
theorem walks_attrSelectPrev {t : AttrTable} (listed : t.Listed) (valid : t.CurrentValid)
    (notLast : ¬SelectsLast t .selectPrev) : Walks t .selectPrev (attrSelectPrev t) := by
  by_cases empty : t.eAttrSorted = []
  · have none : t.eCurrentAttr = none := by
      refine Option.eq_none_iff_forall_ne_some.mpr fun node isCurrent => ?_
      obtain ⟨p, member, -⟩ := valid node isCurrent
      simp [empty] at member
    refine ⟨fun node isCurrent => ?_, nofun, fun _ p member => by simp [empty] at member⟩
    simp [attrSelectPrev, none, attrSelectLast, empty] at isCurrent
  · have inside : ∀ p, t.eCurrentAttr = some (.attr p) → t.eAttrSorted.head? ≠ some p :=
      fun p isCurrent isFirst =>
        notLast ⟨empty, Or.inr ⟨rfl, Or.inr (by rw [isCurrent, isFirst]; rfl)⟩⟩
    have moves : ∀ p (member : p ∈ t.eAttrSorted), t.eCurrentAttr = some (.attr p) →
        (attrSelectPrev t).eCurrentAttr = some (.attr (t.eAttrSorted.prev p member)) :=
      fun p member isCurrent => (attrSelectPrev_current listed member isCurrent).trans
        (if_neg (inside p isCurrent))
    refine ⟨fun node' isCurrent' => ?_, nofun, fun _ => moves⟩
    obtain ⟨node, current⟩ : ∃ node, t.eCurrentAttr = some node :=
      Option.ne_none_iff_exists'.mp fun none => notLast ⟨empty, Or.inr ⟨rfl, Or.inl none⟩⟩
    obtain ⟨p, member, rfl⟩ := valid node current
    rw [moves p member current] at isCurrent'
    obtain rfl := Option.some.inj isCurrent'
    rw [attrSelectPrev_eq]
    exact ⟨_, List.prev_mem _ _ _, rfl⟩

/-- Every other step does what it is to do. -/
theorem walks_of_not_selectsLast {t : AttrTable} {op : AttrSelectOp} (listed : t.Listed)
    (valid : t.CurrentValid) (notLast : ¬SelectsLast t op) (cfg : Config)
    (attrDefs : List AttrDef) (historyDefs : List HistoryDef) :
    Walks t op (attrSelectStep cfg attrDefs historyDefs t op) := by
  cases op with
  | selectFirst => exact ⟨attrSelectFirst_currentValid t, nofun, nofun⟩
  | selectLast =>
    have empty : t.eAttrSorted = [] := by
      by_contra nonempty
      exact notLast ⟨nonempty, Or.inl rfl⟩
    refine ⟨?_, nofun, nofun⟩
    intro node isCurrent
    simp [attrSelectStep, attrSelectLast, empty] at isCurrent
  | selectNext =>
    exact ⟨attrSelectNext_currentValid valid,
      fun _ p member isCurrent => attrSelectNext_current member isCurrent, nofun⟩
  | selectPrev => exact walks_attrSelectPrev listed valid notLast
  | current =>
    refine ⟨?_, nofun, nofun⟩
    change (attrCurrent t).CurrentValid
    unfold attrCurrent
    split
    · exact attrSelectFirst_currentValid t
    · exact valid
  | update id rx tx flags now =>
    exact ⟨attrUpdate_currentValid valid cfg attrDefs historyDefs id rx tx flags now, nofun,
      nofun⟩

theorem attrSelectStep_listed {t : AttrTable} (listed : t.Listed) (cfg : Config)
    (attrDefs : List AttrDef) (historyDefs : List HistoryDef) (op : AttrSelectOp) :
    (attrSelectStep cfg attrDefs historyDefs t op).Listed := by
  cases op with
  | selectFirst => exact ⟨listed.nodup, listed.bound⟩
  | selectLast => exact ⟨listed.nodup, listed.bound⟩
  | selectNext =>
    change (attrSelectNext t).Listed
    rw [attrSelectNext_eq]
    exact ⟨listed.nodup, listed.bound⟩
  | selectPrev =>
    change (attrSelectPrev t).Listed
    rw [attrSelectPrev_eq]
    exact ⟨listed.nodup, listed.bound⟩
  | current =>
    change (attrCurrent t).Listed
    unfold attrCurrent
    split
    · exact ⟨listed.nodup, listed.bound⟩
    · exact listed
  | update id rx tx flags now =>
    exact attrUpdate_listed listed cfg attrDefs historyDefs id rx tx flags now

/-! ### Back and forth -/

/-- Forwards and backwards again, unless the way back is from the first attribute. -/
theorem attrSelectPrev_attrSelectNext {t : AttrTable} (listed : t.Listed) {p : AttrPtr}
    (member : p ∈ t.eAttrSorted) (isCurrent : t.eCurrentAttr = some (.attr p))
    (notLast : ¬SelectsLast (attrSelectNext t) .selectPrev) :
    attrSelectPrev (attrSelectNext t) = t := by
  have moved := attrSelectNext_current member isCurrent
  have same : (attrSelectNext t).eAttrSorted = t.eAttrSorted := by rw [attrSelectNext_eq]
  have inside : t.eAttrSorted.head? ≠ some (t.eAttrSorted.next p member) := fun isFirst =>
    notLast ⟨same ▸ List.ne_nil_of_mem member,
      Or.inr ⟨rfl, Or.inr (by rw [moved, same, isFirst]; rfl)⟩⟩
  have back := attrSelectPrev_current (t := attrSelectNext t)
    (attrSelectNext_eq t ▸ ⟨listed.nodup, listed.bound⟩)
    (p := t.eAttrSorted.next p member) (by rw [same]; exact List.next_mem _ _ _) moved
  simp only [same, if_neg inside, List.prev_next _ listed.nodup _ member] at back
  rw [attrSelectPrev_eq, back, attrSelectNext_eq, ← isCurrent]

/-- Backwards and forwards again. -/
theorem attrSelectNext_attrSelectPrev {t : AttrTable} (listed : t.Listed) {p : AttrPtr}
    (member : p ∈ t.eAttrSorted) (isCurrent : t.eCurrentAttr = some (.attr p))
    (notLast : ¬SelectsLast t .selectPrev) : attrSelectNext (attrSelectPrev t) = t := by
  have inside : t.eAttrSorted.head? ≠ some p := fun isFirst =>
    notLast ⟨List.ne_nil_of_mem member,
      Or.inr ⟨rfl, Or.inr (by rw [isCurrent, isFirst]; rfl)⟩⟩
  have moved := (attrSelectPrev_current listed member isCurrent).trans (if_neg inside)
  have same : (attrSelectPrev t).eAttrSorted = t.eAttrSorted := by rw [attrSelectPrev_eq]
  have back := attrSelectNext_current (t := attrSelectPrev t)
    (p := t.eAttrSorted.prev p member) (by rw [same]; exact List.prev_mem _ _ _) moved
  simp only [same, List.next_prev _ listed.nodup _ member] at back
  rw [attrSelectNext_eq, back, attrSelectPrev_eq, ← isCurrent]

/-! ### Runs -/

/-- When the selection walks the sorted list. Take the table of any element, and any sequence of
moves and updates. Every step leaves a current attribute of the list, if any, and moves to the
cyclic neighbours, if and only if no step runs `attr_select_last` on a list that has attributes.
In every state such a run reaches, a move forwards and a move backwards undo each other, as long
as they do not run that function either. -/
theorem attrSelect_walks_iff (cfg : Config) (attrDefs : List AttrDef)
    (historyDefs : List HistoryDef) (t : AttrTable) (listed : t.Listed) (valid : t.CurrentValid)
    (ops : List AttrSelectOp) :
    (Runs.Every (fun t op => some (attrSelectStep cfg attrDefs historyDefs t op))
        (fun t op => Walks t op (attrSelectStep cfg attrDefs historyDefs t op)) t ops ↔
      Runs.Every (fun t op => some (attrSelectStep cfg attrDefs historyDefs t op))
        (fun t op => ¬SelectsLast t op) t ops) ∧
    (Runs.Every (fun t op => some (attrSelectStep cfg attrDefs historyDefs t op))
        (fun t op => ¬SelectsLast t op) t ops →
      ∀ t', Runs.run (fun t op => some (attrSelectStep cfg attrDefs historyDefs t op)) t ops =
          some t' → ∀ p, t'.eCurrentAttr = some (.attr p) →
        (¬SelectsLast (attrSelectNext t') .selectPrev →
          attrSelectPrev (attrSelectNext t') = t') ∧
        (¬SelectsLast t' .selectPrev → attrSelectNext (attrSelectPrev t') = t')) := by
  have preserves : ∀ (t : AttrTable) (op : AttrSelectOp) (next : AttrTable),
      t.Listed ∧ t.CurrentValid → ¬SelectsLast t op →
        some (attrSelectStep cfg attrDefs historyDefs t op) = some next →
          next.Listed ∧ next.CurrentValid := by
    rintro t op next ⟨listed, valid⟩ notLast stepped
    obtain rfl := Option.some.inj stepped
    exact ⟨attrSelectStep_listed listed cfg attrDefs historyDefs op,
      (walks_of_not_selectsLast listed valid notLast cfg attrDefs historyDefs).valid⟩
  refine ⟨Runs.every_congr (fun t => t.Listed ∧ t.CurrentValid) ?_ preserves ⟨listed, valid⟩ ops,
    fun every t' ran p isCurrent => ?_⟩
  · rintro t op ⟨listed, valid⟩
    refine ⟨fun walks selectsLast => ?_, fun notLast =>
      walks_of_not_selectsLast listed valid notLast cfg attrDefs historyDefs⟩
    obtain ⟨p, -, isAttr⟩ := walks.valid _
      (selectsLast.current listed cfg attrDefs historyDefs)
    cases isAttr
  · obtain ⟨listed', valid'⟩ := every.run_invariant (fun t => t.Listed ∧ t.CurrentValid) preserves
      ⟨listed, valid⟩ ran
    obtain ⟨q, member, same⟩ := valid' _ isCurrent
    obtain rfl := SortNode.attr.inj same
    exact ⟨attrSelectPrev_attrSelectNext listed' member isCurrent,
      attrSelectNext_attrSelectPrev listed' member isCurrent⟩

/-- An element with two attributes, and nothing selected. -/
def twoAttrs : AttrTable :=
  attrUpdate (confInitPost {}) [bytesDef, packetsDef] []
    (attrUpdate (confInitPost {}) [bytesDef, packetsDef] [] AttrTable.empty 1 0 0 {} ⟨1, 0⟩)
    2 0 0 {} ⟨1, 0⟩

/-- Two steps forwards and one back. -/
theorem attrSelect_walks_twoAttrs :
    Runs.Every (fun t op => some (attrSelectStep (confInitPost {}) [] [] t op))
      (fun t op => Walks t op (attrSelectStep (confInitPost {}) [] [] t op)) twoAttrs
      [.selectFirst, .selectNext, .selectPrev] := by
  have listed : twoAttrs.Listed := ⟨by decide, by decide⟩
  have valid : twoAttrs.CurrentValid := fun node isCurrent => by cases isCurrent
  refine (attrSelect_walks_iff (confInitPost {}) [] [] twoAttrs listed valid
    [.selectFirst, .selectNext, .selectPrev]).1.mpr ?_
  refine ⟨fun last => absurd last.2 (by simp), fun _ first => ?_⟩
  obtain rfl := Option.some.inj first
  refine ⟨fun last => absurd last.2 (by simp), fun _ second => ?_⟩
  obtain rfl := Option.some.inj second
  exact ⟨fun last => absurd last.2 (by decide), fun _ _ => trivial⟩

/-- Backwards from the first attribute. -/
theorem attrSelect_backwards_leaves :
    (attrSelectStep (confInitPost {}) [] [] (attrSelectFirst twoAttrs) .selectPrev).eCurrentAttr =
        some .head ∧
      ¬Runs.Every (fun t op => some (attrSelectStep (confInitPost {}) [] [] t op))
        (fun t op => Walks t op (attrSelectStep (confInitPost {}) [] [] t op)) twoAttrs
        [.selectFirst, .selectPrev] := by
  have leaves : (attrSelectStep (confInitPost {}) [] [] (attrSelectFirst twoAttrs)
      .selectPrev).eCurrentAttr = some .head := by decide
  refine ⟨leaves, fun walks => ?_⟩
  obtain ⟨p, -, isAttr⟩ := (walks.2 _ rfl).1.valid _ leaves
  cases isAttr

end Bmon
