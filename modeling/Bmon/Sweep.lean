/-
This file models the traversals of `group.c`, the freeing of elements, and the sweep
`free_unused_elements` that combines them.

The traversals follow the links as they are at the time: the next entry of a list is read
before the callback runs, the children after it. A traversal works on any data that shows a
store, so that the sweep, which changes the store, and the drawing functions, which only read
it, are instances of one definition.
-/

import Bmon.Element
import Bmon.Select

namespace Bmon

/-- The store and what is selected in it. -/
structure State where
  store : Store
  selection : Selection

/-! ### Traversals -/

/-- `__group_foreach_element`, from an entry of a list on. -/
def foreachElement {Data : Type*} (view : Data → Store) (cb : Data → GroupPtr → ElementPtr → Data)
    (g : GroupPtr) : Nat → Data → Option ElementPtr → Data
  | _, data, none => data
  | 0, data, some _ => data
  | fuel + 1, data, some e =>
    let n := (view data).eNext e
    let data := cb data g e
    let data := foreachElement view cb g fuel data ((view data).firstEntry (.ofElement e))
    foreachElement view cb g fuel data n

/-- `group_foreach_element`. -/
def groupForeachElement {Data : Type*} (view : Data → Store)
    (cb : Data → GroupPtr → ElementPtr → Data) (data : Data) (g : GroupPtr) : Data :=
  foreachElement view cb g (view data).nextElement data ((view data).firstEntry (.ofGroup g))

/-- `group_foreach_recursive`. -/
def groupForeachRecursive {Data : Type*} (view : Data → Store)
    (cb : Data → GroupPtr → ElementPtr → Data) (data : Data) : Data :=
  (view data).groupList.foldl (groupForeachElement view cb) data

/-- The elements in the order in which the outputs draw them, each with its group. -/
def displayOrder (σ : Store) : List (GroupPtr × ElementPtr) :=
  groupForeachRecursive (fun _ => σ) (fun drawn g e => drawn ++ [(g, e)]) []

/-! ### Freeing elements -/

/-- The part of `element_free` that repairs the selection. -/
def elementUnselect (st : State) (e : ElementPtr) : State :=
  match st.store.elements e with
  | none => st
  | some r =>
    if st.selection.gCurrent r.eGroup = some e then
      let s := elementSelectPrev st.store st.selection
      { st with selection :=
          if s.gCurrent r.eGroup = some e then s.setCurrent r.eGroup none else s }
    else
      st

/-- The part of `element_free` behind the loop over the children. -/
def elementRelease (st : State) (e : ElementPtr) : State :=
  match st.store.elements e with
  | none => st
  | some r =>
    let st := elementUnselect st e
    { st with
      store := ((st.store.listDel e).modifyGroup r.eGroup fun g =>
        { g with gNelements := g.gNelements - 1 }).xfree e }

/-- The loop of `element_free` over the children of an element, from one of them on. Each is
freed by `element_free`, which is this loop on its own children and then `elementRelease`. -/
def elementFreeChilds : Nat → State → Option ElementPtr → State
  | _, st, none => st
  | 0, st, some _ => st
  | fuel + 1, st, some c =>
    let cnext := st.store.eNext c
    let st := elementFreeChilds fuel st (st.store.firstEntry (.ofElement c))
    elementFreeChilds fuel (elementRelease st c) cnext

/-- `element_free`. -/
def elementFree (st : State) (e : ElementPtr) : State :=
  elementRelease
    (elementFreeChilds st.store.nextElement st (st.store.firstEntry (.ofElement e))) e

/-! ### The sweep -/

/-- The decrement in `element_check_if_dead`. -/
def Element.tick (r : Element) : Element := { r with eLifecycles := r.eLifecycles - 1 }

/-- `element_check_if_dead`. The counter is unsigned. -/
def elementCheckIfDead (st : State) (_g : GroupPtr) (e : ElementPtr) : State :=
  let st := { st with store := st.store.modifyElement e Element.tick }
  if (st.store.elements e).any fun r => r.eLifecycles ≤ 0 then elementFree st e else st

/-- `free_unused_elements`. -/
def freeUnusedElements (st : State) : State :=
  groupForeachRecursive State.store elementCheckIfDead st

/-- `element_reset_update_flag`. -/
def elementResetUpdateFlag (σ : Store) (_g : GroupPtr) (e : ElementPtr) : Store :=
  σ.modifyElement e fun r => { r with eFlags := { r.eFlags with updated := false } }

/-- `reset_update_flags`. -/
def resetUpdateFlags (σ : Store) : Store :=
  groupForeachRecursive id elementResetUpdateFlag σ

end Bmon
