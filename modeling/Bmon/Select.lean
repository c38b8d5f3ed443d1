/-
This file models the selection: the current group, the selected element of every group, and
the functions of `group.c` and `element.c` that move them.

A function that returns the element or group it selected is modelled by the selection it
leaves behind, where that can be read. The loops that climb and descend take as many rounds as
pointers have been handed out.
-/

import Bmon.Store

namespace Bmon

/-- `current_group`, and `g_current` of every group. -/
structure Selection where
  currentGroup : Option GroupPtr
  gCurrent : GroupPtr → Option ElementPtr

namespace Selection

/-- Nothing is selected. -/
def start : Selection := ⟨none, fun _ => none⟩

/-- The assignment `g->g_current = e`. -/
def setCurrent (s : Selection) (g : GroupPtr) (e : Option ElementPtr) : Selection :=
  { s with gCurrent := fun p => if p = g then e else s.gCurrent p }

/-- The current group with its selected element. -/
def selected (s : Selection) : Option (GroupPtr × ElementPtr) :=
  s.currentGroup.bind fun g => (s.gCurrent g).map fun e => (g, e)

end Selection

/-! ### Groups -/

/-- `group_select_first`. -/
def groupSelectFirst (σ : Store) (s : Selection) : Selection :=
  { s with currentGroup := σ.groupList.head? }

/-- `group_select_last`. -/
def groupSelectLast (σ : Store) (s : Selection) : Selection :=
  { s with currentGroup := σ.groupList.getLast? }

/-- `group_select_next`. -/
def groupSelectNext (σ : Store) (s : Selection) : Selection :=
  match s.currentGroup with
  | none => groupSelectFirst σ s
  | some g =>
    match Neighbours.next σ.groupList g with
    | some g' => { s with currentGroup := some g' }
    | none => groupSelectFirst σ s

/-- `group_select_prev`. -/
def groupSelectPrev (σ : Store) (s : Selection) : Selection :=
  match s.currentGroup with
  | none => groupSelectLast σ s
  | some g =>
    match Neighbours.prev σ.groupList g with
    | some g' => { s with currentGroup := some g' }
    | none => groupSelectLast σ s

/-- `group_current`. -/
def groupCurrent (σ : Store) (s : Selection) : Selection :=
  match s.currentGroup with
  | none => groupSelectFirst σ s
  | some _ => s

/-! ### Elements -/

/-- `element_select_first`. -/
def elementSelectFirst (σ : Store) (s : Selection) : Selection :=
  let s := groupCurrent σ s
  match s.currentGroup with
  | none => s
  | some g => s.setCurrent g (σ.firstEntry (.ofGroup g))

/-- The loop that descends to the last child as long as there is one. -/
def lastDescendant (σ : Store) : Nat → ElementPtr → ElementPtr
  | 0, e => e
  | fuel + 1, e =>
    match σ.lastEntry (.ofElement e) with
    | some c => lastDescendant σ fuel c
    | none => e

/-- `element_select_last`. -/
def elementSelectLast (σ : Store) (s : Selection) : Selection :=
  let s := groupCurrent σ s
  match s.currentGroup with
  | none => s
  | some g =>
    s.setCurrent g ((σ.lastEntry (.ofGroup g)).map (lastDescendant σ σ.nextElement))

/-- The loop that moves upwards until there is no parent or a next entry in the list. -/
def climb (σ : Store) : Nat → ElementPtr → ElementPtr
  | 0, e => e
  | fuel + 1, e =>
    match σ.eParent e, σ.eNext e with
    | some parent, none => climb σ fuel parent
    | _, _ => e

/-- `element_select_next`. -/
def elementSelectNext (σ : Store) (s : Selection) : Selection :=
  let s := groupCurrent σ s
  match s.currentGroup with
  | none => s
  | some g =>
    match s.gCurrent g with
    | none => elementSelectFirst σ s
    | some e =>
      match σ.firstEntry (.ofElement e) with
      | some c => s.setCurrent g (some c)
      | none =>
        match σ.eNext (climb σ σ.nextElement e) with
        | none => elementSelectFirst σ (groupSelectNext σ s)
        | some n => s.setCurrent g (some n)

/-- `element_select_prev`. -/
def elementSelectPrev (σ : Store) (s : Selection) : Selection :=
  let s := groupCurrent σ s
  match s.currentGroup with
  | none => s
  | some g =>
    match s.gCurrent g with
    | none => elementSelectLast σ s
    | some e =>
      match σ.ePrev e, σ.eParent e with
      | none, none => elementSelectLast σ (groupSelectPrev σ s)
      | none, some parent => s.setCurrent g (some parent)
      | some p, _ => s.setCurrent g (some (lastDescendant σ σ.nextElement p))

/-- `element_pick_from_policy`. -/
def elementPickFromPolicy (σ : Store) (s : Selection) (g : GroupPtr) : Selection :=
  let picked := σ.allowed.findSome? fun p => (σ.lists (.ofGroup g)).find? fun e =>
    (σ.elements e).any fun r => matchMask (some p) (some r.eName) = some true
  match picked with
  | some e => s.setCurrent g (some e)
  | none => elementSelectFirst σ s

/-- `element_current`, which picks an element if none is selected yet. -/
def elementCurrent (σ : Store) (s : Selection) : Selection :=
  let s := groupCurrent σ s
  match s.currentGroup with
  | none => s
  | some g =>
    match s.gCurrent g with
    | none => elementPickFromPolicy σ s g
    | some _ => s

end Bmon
