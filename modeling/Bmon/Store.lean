/-
This file holds the records of `element.h`, `element_cfg.h` and `group.h`, and the store they
live in.

Elements and groups are known by pointers. A pointer is a number that is handed out once, so
that a pointer to a freed record never points to another one. The intrusive lists are kept
apart from the records: a list head is a field of a group (`g_elements`) or of an element
(`e_childs`), and the store maps each list head to the entries linked in it, in their order.
A list head of a freed element can still be read, and shows what is linked in it. What the
user has selected (`current_group`, and `g_current` of every group) is kept apart too, in
`Bmon.Select`.
-/

import Bmon.Attr
import Bmon.Lib.Neighbours
import Bmon.Policy

namespace Bmon

/-! ### Records -/

/-- The address of an element. -/
abbrev ElementPtr := Nat

/-- The address of a group. -/
abbrev GroupPtr := Nat

/-- The position of an element configuration in `cfg_list`. -/
abbrev CfgPtr := Nat

/-- The bits `ELEMENT_CFG_*` of `ec_flags`. -/
structure CfgFlags where
  shown : Bool := false
  hidden : Bool := false
  deriving DecidableEq, Repr

/-- `struct element_cfg`. -/
structure ElementCfg where
  ecName : CString
  ecDescription : Option String
  ecRxmax : UInt64
  ecTxmax : UInt64
  ecFlags : CfgFlags
  deriving DecidableEq

/-- `struct info`. -/
structure Info where
  iName : String
  iValue : String
  deriving DecidableEq, Repr

/-- The bits `ELEMENT_FLAG_*` of `e_flags`. -/
structure ElementFlags where
  folded : Bool := false
  updated : Bool := false
  exclude : Bool := false
  created : Bool := false
  deriving DecidableEq, Repr

/-- `struct element`, without its lists of elements. A usage of `FLT_MAX` is `none`. -/
structure Element where
  eName : CString
  eId : UInt32
  eFlags : ElementFlags
  eLifecycles : UInt32
  eLevel : UInt32
  eParent : Option ElementPtr
  eGroup : GroupPtr
  eAttrs : AttrTable
  eNinfo : Nat
  eInfoList : List Info
  eRxUsage : Option ℚ
  eTxUsage : Option ℚ
  eCfg : Option CfgPtr

/-- `struct group_hdr`. -/
structure GroupHdr where
  ghName : CString
  ghTitle : String
  ghColumn : List String
  deriving DecidableEq

/-- `struct element_group`, without its list of elements and its selected element. -/
structure ElementGroup where
  gName : CString
  gHdr : GroupHdr
  gNelements : Nat
  deriving DecidableEq

/-! ### The store -/

/-- The head of a list of elements: `&g->g_elements` or `&e->e_childs`. -/
inductive ListHead where
  | ofGroup (g : GroupPtr)
  | ofElement (e : ElementPtr)
  deriving DecidableEq, Repr

/-- The element whose children a list holds, if it is not the list of a group. -/
def ListHead.owner : ListHead → Option ElementPtr
  | .ofGroup _ => none
  | .ofElement e => some e

/-- Where an element is: the fields `e_parent` and `e_group`, which never change. -/
structure Place where
  parent : Option ElementPtr
  group : GroupPtr
  deriving DecidableEq, Repr

/-- The list an element at a place is linked in. -/
def Place.head (place : Place) : ListHead :=
  match place.parent with
  | some p => .ofElement p
  | none => .ofGroup place.group

def Element.place (r : Element) : Place := ⟨r.eParent, r.eGroup⟩

/-- All records and lists, and the pointers that have not been handed out yet. -/
structure Store where
  elements : ElementPtr → Option Element
  lists : ListHead → List ElementPtr
  groups : GroupPtr → Option ElementGroup
  groupList : List GroupPtr
  nextElement : ElementPtr
  nextGroup : GroupPtr
  titlesList : List GroupHdr
  cfgList : List ElementCfg
  allowed : List Policy
  denied : List Policy

namespace Store

variable (σ : Store) (e : ElementPtr)

/-- The place of an element that is not freed. -/
def place : Option Place := (σ.elements e).map Element.place

/-- `e->e_group`. -/
def eGroup : Option GroupPtr := (σ.place e).map Place.group

/-- `e->e_parent`. -/
def eParent : Option ElementPtr := (σ.elements e).bind Element.eParent

/-- `e->e_lifecycles`. -/
def eLifecycles : Option UInt32 := (σ.elements e).map Element.eLifecycles

/-- `e->e_list.next`, or nothing where that is the list head. -/
def eNext : Option ElementPtr :=
  (σ.elements e).bind fun r => Neighbours.next (σ.lists r.place.head) e

/-- `e->e_list.prev`, or nothing where that is the list head. -/
def ePrev : Option ElementPtr :=
  (σ.elements e).bind fun r => Neighbours.prev (σ.lists r.place.head) e

/-- The first entry of a list, or nothing if the list is empty. -/
def firstEntry (head : ListHead) : Option ElementPtr := (σ.lists head).head?

/-- The last entry of a list, or nothing if the list is empty. -/
def lastEntry (head : ListHead) : Option ElementPtr := (σ.lists head).getLast?

/-- Change one element. -/
def modifyElement (change : Element → Element) : Store :=
  { σ with elements := fun p => if p = e then (σ.elements p).map change else σ.elements p }

/-- Change one group. -/
def modifyGroup (g : GroupPtr) (change : ElementGroup → ElementGroup) : Store :=
  { σ with groups := fun p => if p = g then (σ.groups p).map change else σ.groups p }

/-- `list_add_tail(&e->e_list, head)`. -/
def listAddTail (head : ListHead) : Store :=
  { σ with lists := fun h => if h = head then σ.lists h ++ [e] else σ.lists h }

/-- `list_del(&e->e_list)`: unlink the element from the list it is in. -/
def listDel : Store :=
  { σ with lists := fun h => (σ.lists h).filter (· ≠ e) }

/-- `xfree(e)`. -/
def xfree : Store :=
  { σ with elements := fun p => if p = e then none else σ.elements p }

end Store

end Bmon
