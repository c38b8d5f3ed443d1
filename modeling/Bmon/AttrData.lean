/-
This file holds the records of `include/bmon/attr.h` and `include/bmon/history.h`: what an
attribute of an element stores, direction by direction, and the histories attached to it.

The bits of `a_flags` and of the `flags` argument of `attr_update` are named Booleans. The
`float` fields are rationals; the one that is filled in by a division whose divisor may be zero
takes the infinities as well. The unit of an attribute definition is left out, as no function
modelled here reads it.
-/

import Bmon.Lib.Binary
import Bmon.Timestamp
import Mathlib.Order.WithBot

namespace Bmon

/-! ### Attribute definitions -/

/-- `ATTR_TYPE_*`. -/
inductive AttrType where
  | unspec
  | counter
  | rate
  | percent
  deriving DecidableEq, Repr

/-- The bits `ATTR_*` of `ad_flags` and `a_flags`. -/
structure AttrFlags where
  forceHistory : Bool := false
  ignoreOverflows : Bool := false
  true64bit : Bool := false
  rxEnabled : Bool := false
  txEnabled : Bool := false
  doingHistory : Bool := false
  deriving DecidableEq, Repr

/-- The bits `UPDATE_FLAG_*` of the last argument of `attr_update`. -/
structure UpdateFlags where
  rx : Bool := false
  tx : Bool := false
  is64bit : Bool := false
  deriving DecidableEq, Repr

/-- `struct attr_def`. -/
structure AttrDef where
  adId : Nat
  adName : String
  adDescription : String
  adType : AttrType
  adFlags : AttrFlags
  deriving DecidableEq, Repr

/-! ### Histories -/

/-- `HISTORY_UNKNOWN`. -/
def historyUnknown : UInt64 := 0xFFFFFFFFFFFFFFFF

/-- `HISTORY_TYPE_*`: the width of one slot. -/
inductive HistoryType where
  | type8
  | type16
  | type32
  | type64
  deriving DecidableEq, Repr

/-- `struct history_def`. -/
structure HistoryDef where
  hdName : String
  hdSize : Nat
  hdType : HistoryType
  hdInterval : ℚ
  deriving DecidableEq, Repr

/-- `struct history_store`: the array, once it is allocated, and the total of the last update. -/
structure HistoryStore where
  hsData : Option (List UInt64)
  hsPrevTotal : UInt64
  deriving DecidableEq, Repr

/-- The rounding of a `float`, as long as the exponent is in its range. It is left out where the
source's `float`s are taken as exact rationals. -/
def toFloat (x : ℚ) : ℚ := Binary.round 24 x

/-- A `float` that may be an infinity. -/
abbrev Extended := WithBot (WithTop ℚ)

/-- A rational among them. -/
def Extended.ofRat (value : ℚ) : Extended := ((value : WithTop ℚ) : WithBot (WithTop ℚ))

/-- A division of `float`s. By zero it gives an infinity; zero by zero gives no number, and no
number is above that, as none is above `⊤`. -/
def floatDiv (dividend divisor : ℚ) : Extended :=
  if divisor = 0 then (if dividend < 0 then ⊥ else ⊤)
  else Extended.ofRat (dividend / divisor)

/-- `struct history`. -/
structure History where
  hIndex : Nat
  hDefinition : HistoryDef
  hLastUpdate : Timestamp
  hMinInterval : ℚ
  hMaxInterval : Extended
  hRx : HistoryStore
  hTx : HistoryStore
  deriving DecidableEq, Repr

/-! ### Rates and attributes -/

/-- `struct rate`. -/
structure Rate where
  rTotal : UInt64
  rCurrent : UInt64
  rPrev : UInt64
  rReset : UInt64
  rRate : ℚ
  rLastCalc : Timestamp
  deriving DecidableEq, Repr

/-- A rate as `xcalloc` leaves it. -/
def Rate.zero : Rate := ⟨0, 0, 0, 0, 0, Timestamp.zero⟩

/-- `struct attr`. -/
structure Attr where
  aRxRate : Rate
  aTxRate : Rate
  aFlags : AttrFlags
  aDef : AttrDef
  aLastUpdate : Timestamp
  aHistoryList : List History
  deriving DecidableEq, Repr

/-- The zero-filled record of an attribute, with its definition and the flags of that. -/
def attrAlloc (definition : AttrDef) : Attr where
  aRxRate := Rate.zero
  aTxRate := Rate.zero
  aFlags := definition.adFlags
  aDef := definition
  aLastUpdate := Timestamp.zero
  aHistoryList := []

/-- The two directions every attribute and every history keeps apart. -/
inductive Direction where
  | rx
  | tx
  deriving DecidableEq, Repr

/-- The rate of one direction. -/
def Attr.rate (a : Attr) : Direction → Rate
  | .rx => a.aRxRate
  | .tx => a.aTxRate

/-- The store of one direction. -/
def History.store (h : History) : Direction → HistoryStore
  | .rx => h.hRx
  | .tx => h.hTx

/-- Whether an update touches a direction. -/
def UpdateFlags.touches (flags : UpdateFlags) : Direction → Bool
  | .rx => flags.rx
  | .tx => flags.tx

/-- The attribute `bytes` of the link modules, a counter, under the first id handed out. -/
def bytesDef : AttrDef := ⟨1, "bytes", "Bytes", .counter, {}⟩

/-- The attribute `packets` of the link modules, a counter, under the second id. -/
def packetsDef : AttrDef := ⟨2, "packets", "Packets", .counter, {}⟩

/-- A `bytes` attribute that has received so many bytes. -/
def bytesAt (received : UInt64) : Attr :=
  { attrAlloc bytesDef with aRxRate := { Rate.zero with rTotal := received } }

end Bmon
