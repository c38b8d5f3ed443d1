/-
This file models the program once more, on the level of its pointers: groups and elements are
linked by the `struct list_head` in their records, which the functions of `list.h` read and
write, and all loops follow these links.

The links are kept in a map from the addresses of the `struct list_head` to their contents. It
has every address, so that reading a record that is freed shows the links it had last. The other
fields of the records are those of `Bmon.Store`, without its lists: nothing here uses them.
-/

import Bmon.Lib.Ring
import Bmon.Program

namespace Bmon

/-! ### `list.h` -/

/-- The addresses of the `struct list_head` that link groups and elements: `group_list` and the
fields `g_list` and `g_elements` of a group, `e_list` and `e_childs` of an element. -/
inductive ListNode where
  | groupList
  | gList (g : GroupPtr)
  | gElements (g : GroupPtr)
  | eList (e : ElementPtr)
  | eChilds (e : ElementPtr)
  deriving DecidableEq, Repr

/-- `list_entry(ptr, struct element, e_list)`, where the pointer is to such a field. -/
def ListNode.element : ListNode → Option ElementPtr
  | eList e => some e
  | _ => none

/-- `list_entry(ptr, struct element_group, g_list)`, where the pointer is to such a field. -/
def ListNode.group : ListNode → Option GroupPtr
  | gList g => some g
  | _ => none

namespace Raw

/-- `INIT_LIST_HEAD`, and `init_list_head`. -/
def initListHead (links : Links ListNode) (list : ListNode) : Links ListNode :=
  (links.setNext list list).setPrev list list

/-- `__list_add`. -/
def listAdd (links : Links ListNode) (obj prev next : ListNode) : Links ListNode :=
  (((links.setNext prev obj).setPrev obj prev).setPrev next obj).setNext obj next

/-- `list_add_tail`. -/
def listAddTail (links : Links ListNode) (obj head : ListNode) : Links ListNode :=
  listAdd links obj (links.prev head) head

/-- `list_del`. -/
def listDel (links : Links ListNode) (obj : ListNode) : Links ListNode :=
  let links := links.setPrev (links.next obj) (links.prev obj)
  links.setNext (links.prev obj) (links.next obj)

/-- `list_empty`. -/
def listEmpty (links : Links ListNode) (head : ListNode) : Bool := links.next head = head

end Raw

/-! ### The memory -/

/-- The records without their links, the links, and what is selected. -/
structure Memory where
  records : Store
  links : Links ListNode
  selection : Selection

namespace Memory

/-- The assignment to `current_group`. -/
def selectGroup (m : Memory) (g : Option GroupPtr) : Memory :=
  { m with selection := { m.selection with currentGroup := g } }

/-- The assignment to `g->g_current`. -/
def setCurrent (m : Memory) (g : GroupPtr) (e : Option ElementPtr) : Memory :=
  { m with selection := m.selection.setCurrent g e }

end Memory

namespace Raw

/-! ### The selection -/

/-- `group_select_first`. -/
def groupSelectFirst (m : Memory) : Memory :=
  if listEmpty m.links .groupList then m.selectGroup none
  else m.selectGroup (m.links.next .groupList).group

/-- `group_select_last`. -/
def groupSelectLast (m : Memory) : Memory :=
  if listEmpty m.links .groupList then m.selectGroup none
  else m.selectGroup (m.links.prev .groupList).group

/-- `group_select_next`. -/
def groupSelectNext (m : Memory) : Memory :=
  match m.selection.currentGroup with
  | none => groupSelectFirst m
  | some g =>
    if m.links.next (.gList g) ≠ .groupList then
      m.selectGroup (m.links.next (.gList g)).group
    else
      groupSelectFirst m

/-- `group_select_prev`. -/
def groupSelectPrev (m : Memory) : Memory :=
  match m.selection.currentGroup with
  | none => groupSelectLast m
  | some g =>
    if m.links.prev (.gList g) ≠ .groupList then
      m.selectGroup (m.links.prev (.gList g)).group
    else
      groupSelectLast m

/-- `group_current`. -/
def groupCurrent (m : Memory) : Memory :=
  match m.selection.currentGroup with
  | none => groupSelectFirst m
  | some _ => m

/-- `element_select_first`. -/
def elementSelectFirst (m : Memory) : Memory :=
  let m := groupCurrent m
  match m.selection.currentGroup with
  | none => m
  | some g =>
    if listEmpty m.links (.gElements g) then m.setCurrent g none
    else m.setCurrent g (m.links.next (.gElements g)).element

/-- The loop that descends to the last child as long as there is one. -/
def lastDescendant (m : Memory) : Nat → ElementPtr → ElementPtr
  | 0, e => e
  | fuel + 1, e =>
    if listEmpty m.links (.eChilds e) then e
    else
      match (m.links.prev (.eChilds e)).element with
      | some c => lastDescendant m fuel c
      | none => e

/-- `element_select_last`. -/
def elementSelectLast (m : Memory) : Memory :=
  let m := groupCurrent m
  match m.selection.currentGroup with
  | none => m
  | some g =>
    if listEmpty m.links (.gElements g) then m.setCurrent g none
    else
      m.setCurrent g
        ((m.links.prev (.gElements g)).element.map (lastDescendant m m.records.nextElement))

/-- The loop that moves upwards until there is no parent or a next entry in the list. -/
def climb (m : Memory) : Nat → ElementPtr → ElementPtr
  | 0, e => e
  | fuel + 1, e =>
    match m.records.eParent e with
    | some parent =>
      if m.links.next (.eList e) = .eChilds parent then climb m fuel parent else e
    | none => e

/-- `element_select_next`. -/
def elementSelectNext (m : Memory) : Memory :=
  let m := groupCurrent m
  match m.selection.currentGroup with
  | none => m
  | some g =>
    match m.selection.gCurrent g with
    | none => elementSelectFirst m
    | some e =>
      if !listEmpty m.links (.eChilds e) then
        m.setCurrent g (m.links.next (.eChilds e)).element
      else
        let e := climb m m.records.nextElement e
        if m.records.eParent e = none ∧ m.links.next (.eList e) = .gElements g then
          elementSelectFirst (groupSelectNext m)
        else
          m.setCurrent g (m.links.next (.eList e)).element

/-- `element_select_prev`. -/
def elementSelectPrev (m : Memory) : Memory :=
  let m := groupCurrent m
  match m.selection.currentGroup with
  | none => m
  | some g =>
    match m.selection.gCurrent g with
    | none => elementSelectLast m
    | some e =>
      if m.records.eParent e = none ∧ m.links.prev (.eList e) = .gElements g then
        elementSelectLast (groupSelectPrev m)
      else
        match m.records.eParent e with
        | some parent =>
          if m.links.prev (.eList e) = .eChilds parent then m.setCurrent g (some parent)
          else
            m.setCurrent g
              ((m.links.prev (.eList e)).element.map (lastDescendant m m.records.nextElement))
        | none =>
          m.setCurrent g
            ((m.links.prev (.eList e)).element.map (lastDescendant m m.records.nextElement))

/-- `element_pick_from_policy`. -/
def elementPickFromPolicy (m : Memory) (g : GroupPtr) : Memory :=
  let matching (p : Policy) (node : ListNode) : Bool := node.element.any fun e =>
    (m.records.elements e).any fun r => matchMask (some p) (some r.eName) = some true
  let picked := m.records.allowed.findSome? fun p =>
    (m.links.search (matching p) (.gElements g) m.records.nextElement
      (m.links.next (.gElements g))).bind ListNode.element
  match picked with
  | some e => m.setCurrent g (some e)
  | none => elementSelectFirst m

/-- `element_current`. -/
def elementCurrent (m : Memory) : Memory :=
  let m := groupCurrent m
  match m.selection.currentGroup with
  | none => m
  | some g =>
    match m.selection.gCurrent g with
    | none => elementPickFromPolicy m g
    | some _ => m

/-! ### Groups and elements -/

/-- The part of `group_lookup` that creates the group. -/
def groupCreate (m : Memory) (hdr : GroupHdr) : Memory :=
  let g := m.records.nextGroup
  { records := { m.records with
      groups := fun p => if p = g then some ⟨hdr.ghName, hdr, 0⟩ else m.records.groups p
      nextGroup := g + 1 }
    links := listAddTail (initListHead m.links (.gElements g)) (.gList g) .groupList
    selection := m.selection.setCurrent g none }

/-- `group_lookup`, with the group it returns. -/
def groupLookup (m : Memory) (name : CString) (create : Bool) : Memory × Option GroupPtr :=
  let named (node : ListNode) : Bool := node.group.any fun g =>
    (m.records.groups g).any fun r => r.gName = name
  match m.links.search named .groupList m.records.nextGroup (m.links.next .groupList) with
  | some node => (m, node.group)
  | none =>
    if create then
      match groupLookupHdr m.records name with
      | none => (m, none)
      | some hdr => (groupCreate m hdr, some m.records.nextGroup)
    else
      (m, none)

/-- The list `element_lookup` looks in. -/
def listOf (group : GroupPtr) (parent : Option ElementPtr) : ListNode :=
  match parent with
  | some p => .eChilds p
  | none => .gElements group

/-- The part of `element_lookup` that creates the element. -/
def elementCreate (cfg : Config) (m : Memory) (group : GroupPtr) (name : CString) (id : UInt32)
    (parent : Option ElementPtr) : Memory :=
  let ec := elementCfgLookup m.records name
  let e := m.records.nextElement
  let allocated : Store := { m.records with
    elements := fun p =>
      if p = e then some (elementNew cfg group name id parent ec) else m.records.elements p
    nextElement := e + 1 }
  let links := initListHead (initListHead m.links (.eList e)) (.eChilds e)
  let configured := elementConfigure allocated e (ec.bind fun c => m.records.cfgList[c]?)
  { m with
    records := configured.modifyGroup group fun g => { g with gNelements := g.gNelements + 1 }
    links := listAddTail links (.eList e) (listOf group parent) }

/-- `element_lookup`, with the element it returns. -/
def elementLookup (cfg : Config) (m : Memory) (group : GroupPtr) (name : CString) (id : UInt32)
    (parent : Option ElementPtr) (creat : Bool) : Memory × Option ElementPtr :=
  let list := listOf group parent
  let same (node : ListNode) : Bool := node.element.any fun e =>
    (m.records.elements e).any fun r => r.eName = name ∧ r.eId = id
  match m.links.search same list m.records.nextElement (m.links.next list) with
  | some node => (m, node.element)
  | none =>
    if creat ∧ elementAllowed m.records name
        ((elementCfgLookup m.records name).bind fun c => m.records.cfgList[c]?) then
      (elementCreate cfg m group name id parent, some m.records.nextElement)
    else
      (m, none)

/-! ### Freeing elements -/

/-- The part of `element_free` behind the loop over the children. -/
def elementRelease (m : Memory) (e : ElementPtr) : Memory :=
  match m.records.elements e with
  | none => m
  | some r =>
    let m :=
      if m.selection.gCurrent r.eGroup = some e then
        let m := elementSelectPrev m
        if m.selection.gCurrent r.eGroup = some e then m.setCurrent r.eGroup none else m
      else
        m
    { m with
      records := (m.records.modifyGroup r.eGroup fun g =>
        { g with gNelements := g.gNelements - 1 }).xfree e
      links := listDel m.links (.eList e) }

/-- `list_for_each_entry_safe(c, cnext, list, e_list) element_free(c)`, from an entry on. -/
def elementFreeChilds (list : ListNode) : Nat → Memory → ListNode → ListNode → Memory
  | 0, m, _, _ => m
  | fuel + 1, m, pos, n =>
    if pos = list then m
    else
      match pos.element with
      | none => m
      | some c =>
        let first := m.links.next (.eChilds c)
        let m := elementFreeChilds (.eChilds c) fuel m first (m.links.next first)
        let m := elementRelease m c
        elementFreeChilds list fuel m n (m.links.next n)

/-- `element_free`. -/
def elementFree (m : Memory) (e : ElementPtr) : Memory :=
  let first := m.links.next (.eChilds e)
  elementRelease
    (elementFreeChilds (.eChilds e) m.records.nextElement m first (m.links.next first)) e

/-! ### Traversals -/

/-- `__group_foreach_element`, from an entry on. -/
def foreachElement (cb : Memory → GroupPtr → ElementPtr → Memory) (g : GroupPtr)
    (list : ListNode) : Nat → Memory → ListNode → ListNode → Memory
  | 0, m, _, _ => m
  | fuel + 1, m, pos, n =>
    if pos = list then m
    else
      match pos.element with
      | none => m
      | some e =>
        let m := cb m g e
        let m :=
          if !listEmpty m.links (.eChilds e) then
            let first := m.links.next (.eChilds e)
            foreachElement cb g (.eChilds e) fuel m first (m.links.next first)
          else
            m
        foreachElement cb g list fuel m n (m.links.next n)

/-- The loop of `group_foreach_recursive` over the groups, from one of them on. -/
def foreachGroup (cb : Memory → GroupPtr → ElementPtr → Memory) :
    Nat → Memory → ListNode → ListNode → Memory
  | 0, m, _, _ => m
  | fuel + 1, m, pos, n =>
    if pos = .groupList then m
    else
      match pos.group with
      | none => m
      | some g =>
        let first := m.links.next (.gElements g)
        let m := foreachElement cb g (.gElements g) m.records.nextElement m first
          (m.links.next first)
        foreachGroup cb fuel m n (m.links.next n)

/-- `group_foreach_recursive`. -/
def groupForeachRecursive (cb : Memory → GroupPtr → ElementPtr → Memory) (m : Memory) : Memory :=
  let first := m.links.next .groupList
  foreachGroup cb m.records.nextGroup m first (m.links.next first)

/-- `element_check_if_dead`. -/
def elementCheckIfDead (m : Memory) (_g : GroupPtr) (e : ElementPtr) : Memory :=
  let m := { m with records := m.records.modifyElement e Element.tick }
  if (m.records.elements e).any fun r => r.eLifecycles ≤ 0 then elementFree m e else m

/-- `free_unused_elements`. -/
def freeUnusedElements (m : Memory) : Memory := groupForeachRecursive elementCheckIfDead m

/-- `element_reset_update_flag`. -/
def elementResetUpdateFlag (m : Memory) (g : GroupPtr) (e : ElementPtr) : Memory :=
  { m with records := Bmon.elementResetUpdateFlag m.records g e }

/-- `reset_update_flags`. -/
def resetUpdateFlags (m : Memory) : Memory := groupForeachRecursive elementResetUpdateFlag m

/-! ### The program -/

/-- The calls of the input modules. What they change of an element is not a list. -/
def inputApply (cfg : Config) (m : Memory) : InputOp → Option Memory
  | .groupNewHdr hdr => some { m with records := groupNewHdr m.records hdr }
  | .groupNewDerivedHdr name title template =>
    some { m with records := groupNewDerivedHdr m.records name title template }
  | .groupLookup name create => some (groupLookup m name create).1
  | .elementLookup group name id parent creat =>
    some (elementLookup cfg m group name id parent creat).1
  | .onElement e op => (op.apply cfg m.records e).map fun records => { m with records }

/-- The calls of the output modules. -/
def outputApply (m : Memory) : OutputOp → Memory
  | .elementSelectFirst => elementSelectFirst m
  | .elementSelectLast => elementSelectLast m
  | .elementSelectNext => elementSelectNext m
  | .elementSelectPrev => elementSelectPrev m
  | .elementCurrent => elementCurrent m
  | .groupSelectFirst => groupSelectFirst m
  | .groupSelectLast => groupSelectLast m
  | .groupSelectNext => groupSelectNext m
  | .groupSelectPrev => groupSelectPrev m
  | .groupCurrent => groupCurrent m

/-- One call of the program. -/
def step (cfg : Config) (m : Memory) : Op → Option Memory
  | .input op => inputApply cfg m op
  | .output op => some (outputApply m op)
  | .resetUpdateFlags => some (resetUpdateFlags m)
  | .freeUnusedElements => some (freeUnusedElements m)
  | .decrement e => some { m with records := m.records.modifyElement e Element.tick }
  | .elementFree e => some (elementFree m e)

/-- The memory at the start of the program: `LIST_HEAD(group_list)`, with the contents of all
other addresses as they happen to be. -/
def start (titles : List GroupHdr) (cfgs : List ElementCfg) (allowed denied : List Policy)
    (garbage : Links ListNode) : Memory where
  records := Store.start titles cfgs allowed denied
  links := initListHead garbage .groupList
  selection := Selection.start

end Raw

end Bmon
