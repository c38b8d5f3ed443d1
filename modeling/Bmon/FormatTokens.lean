/-
This file models `get_token` of the format module, which looks up what a placeholder of a format
string stands for, and compares the usage it prints with the usage that the other outputs print.

`element_notify_update` leaves the usage of an element, or `FLT_MAX` where it cannot be computed.
The ascii and the curses output print nothing for `FLT_MAX` and the usage otherwise. `get_token`
tests for `FLT_MAX` too, but takes the branches the other way round: it prints `FLT_MAX` where
the usage is unknown, and zero where it is known. So it prints the usage of the element only if
that is zero.

Nothing ever sets `e_description`, so its value is that of a null pointer.
-/

import Bmon.Format
import Bmon.StoreInvariant

namespace Bmon

/-! ### Numbers in texts -/

/-- The nearest integer, the even one in the middle between two. -/
def roundHalfEven (x : ℚ) : Int :=
  if x - ⌊x⌋ < 1 / 2 then ⌊x⌋
  else if 1 / 2 < x - ⌊x⌋ then ⌊x⌋ + 1
  else if ⌊x⌋ % 2 = 0 then ⌊x⌋
  else ⌊x⌋ + 1

/-- A number as `%u` prints it. -/
def formatNat (n : Nat) : List Char := Nat.toDigits 10 n

/-- A number as `%width.precf` prints it. -/
def formatFixed (width prec : Nat) (x : ℚ) : List Char :=
  let scaled := (roundHalfEven (|x| * 10 ^ prec)).toNat
  let fraction := formatNat (scaled % 10 ^ prec)
  let text := (if x < 0 then ['-'] else []) ++ formatNat (scaled / 10 ^ prec) ++
    (if prec = 0 then [] else '.' :: (List.replicate (prec - fraction.length) '0' ++ fraction))
  List.replicate (width - text.length) ' ' ++ text

/-- What a buffer of `len` bytes holds after `snprintf`. -/
def snprintf (len : Nat) (text : List Char) : List Char := text.take (len - 1)

/-- `strncasecmp`. -/
def strncasecmp (s t : List Char) (n : Nat) : Int := strcasecmp (s.take n) (t.take n)

/-! ### The fields of a format string -/

/-- `FLT_MAX`. -/
def fltMax : ℚ := 340282346638528859811704183484516925440

/-- The number `get_token` prints for a usage:
`usage == FLT_MAX ? usage : 0.0f`. -/
def tokenUsage (usage : Option ℚ) : ℚ :=
  match usage with
  | none => fltMax
  | some _ => 0

/-- The end of `get_token` for a field it does not know, with what it writes to `stderr`. -/
def unknownField (token : List Char) : Option (List Char) × Option String :=
  (some "unknown".toList, some ("Unknown field \"" ++ String.ofList token ++ "\"\n"))

section Tokens

variable (attrDefs : List AttrDef) (σ : Store) (g : ElementGroup) (e : ElementPtr) (r : Element)

/-- The branch of `get_token` for a field `group:n`. -/
def groupToken (token n : List Char) : Option (List Char) × Option String :=
  if strcasecmp n "nelements".toList = 0 then (some (snprintf 128 (formatNat g.gNelements)), none)
  else if strcasecmp n "name".toList = 0 then (some g.gName.chars, none)
  else if strcasecmp n "title".toList = 0 then (some g.gHdr.ghTitle.toList, none)
  else unknownField token

/-- The branch of `get_token` for a field `element:n`. -/
def elementToken (token n : List Char) : Option (List Char) × Option String :=
  if strcasecmp n "name".toList = 0 then (some r.eName.chars, none)
  else if strcasecmp n "description".toList = 0 then (none, none)
  else if strcasecmp n "nattrs".toList = 0 then
    (some (snprintf 128 (formatNat r.eAttrs.eNattrs)), none)
  else if strcasecmp n "lifecycles".toList = 0 then
    (some (snprintf 128 (formatNat r.eLifecycles.toNat)), none)
  else if strcasecmp n "level".toList = 0 then
    (some (snprintf 128 (formatNat r.eLevel.toNat)), none)
  else if strcasecmp n "parent".toList = 0 then
    (r.eParent.elim (some []) fun p => (σ.elements p).map fun parent => parent.eName.chars, none)
  else if strcasecmp n "id".toList = 0 then (some (snprintf 128 (formatNat r.eId.toNat)), none)
  else if strcasecmp n "rxusage".toList = 0 then
    (some (snprintf 128 (formatFixed 2 0 (tokenUsage r.eRxUsage))), none)
  else if strcasecmp n "txusage".toList = 0 then
    (some (snprintf 128 (formatFixed 2 0 (tokenUsage r.eTxUsage))), none)
  else if strcasecmp n "haschilds".toList = 0 then
    (some (snprintf 128 (formatNat (if (σ.lists (.ofElement e)).isEmpty then 0 else 1))), none)
  else unknownField token

/-- The branch of `get_token` for a field `attr:type`. -/
def attrToken (token type : List Char) : Option (List Char) × Option String :=
  match (strchr ':' type).2 with
  | none => (some "unknown".toList,
      some ("Invalid attribute field \"" ++ String.ofList type ++ "\"\n"))
  | some name =>
    match attrDefLookup attrDefs (String.ofList name) with
    | none => (some "unknown".toList,
        some ("Undefined attribute \"" ++ String.ofList name ++ "\"\n"))
    | some definition =>
      match (attrLookup r.eAttrs definition.adId).bind fun p => r.eAttrs.attrs[p]? with
      | none => (some "unknown".toList, none)
      | some a =>
        if strncasecmp type "rx:".toList 3 = 0 then
          (some (snprintf 128 (formatNat (rateGetTotal a.aRxRate).toNat)), none)
        else if strncasecmp type "tx:".toList 3 = 0 then
          (some (snprintf 128 (formatNat (rateGetTotal a.aTxRate).toNat)), none)
        else if strncasecmp type "rxrate:".toList 7 = 0 then
          (some (snprintf 128 (formatFixed 0 2 a.aRxRate.rRate)), none)
        else if strncasecmp type "txrate:".toList 7 = 0 then
          (some (snprintf 128 (formatFixed 0 2 a.aTxRate.rRate)), none)
        else unknownField token

/-- `get_token`, with what it writes to `stderr`. -/
def getToken (token : List Char) : Option (List Char) × Option String :=
  if strncasecmp token "group:".toList 6 = 0 then groupToken g token (token.drop 6)
  else if strncasecmp token "element:".toList 8 = 0 then
    elementToken σ e r token (token.drop 8)
  else if strncasecmp token "attr:".toList 5 = 0 then attrToken attrDefs r token (token.drop 5)
  else unknownField token

/-- `draw_element` of the format module, with the fields of the element. -/
def formatDrawElement (m : FormatModule) : List Char :=
  drawElement (fun token => (getToken attrDefs σ g e r token).1) m

end Tokens

/-! ### The usage in the other outputs -/

/-- What `print_list` prints for a usage. -/
def printListUsage (usage : Option ℚ) : List Char :=
  match usage with
  | none => [' ', ' ', ' ']
  | some usage => formatFixed 2 0 usage ++ ['%']

/-- What `draw_attr` prints for a usage. -/
def drawAttrUsage (usage : Option ℚ) : List Char :=
  match usage with
  | some usage => formatFixed 2 0 usage ++ ['%']
  | none => List.replicate 3 ' '

/-- The usage of one direction. -/
def Element.usageIn (r : Element) : Direction → Option ℚ
  | .rx => r.eRxUsage
  | .tx => r.eTxUsage

/-- The field that stands for the usage of one direction. -/
def usageToken : Direction → List Char
  | .rx => "element:rxusage".toList
  | .tx => "element:txusage".toList

/-- The field of a usage is printed from `tokenUsage`. -/
theorem getToken_usageToken (attrDefs : List AttrDef) (σ : Store) (g : ElementGroup)
    (e : ElementPtr) (r : Element) (direction : Direction) :
    getToken attrDefs σ g e r (usageToken direction) =
      (some (snprintf 128 (formatFixed 2 0 (tokenUsage (r.usageIn direction)))), none) := by
  cases direction <;> rfl

/-! ### What the usage is computed from -/

/-- The attribute and the configuration that `element_notify_update` computes the usage of an
element from, if it has both. -/
def Element.usageSource (cfgList : List ElementCfg) (r : Element) : Option (Attr × ElementCfg) :=
  (r.eAttrs.eUsageAttr.bind fun definition =>
    (attrLookup r.eAttrs definition.adId).bind fun p => r.eAttrs.attrs[p]?).bind fun a =>
      (r.eCfg.bind fun c => cfgList[c]?).map fun ec => (a, ec)

/-- The maximum of one direction. -/
def ElementCfg.maxOf (ec : ElementCfg) : Direction → UInt64
  | .rx => ec.ecRxmax
  | .tx => ec.ecTxmax

/-- The usage of one direction of an attribute, under a configuration. -/
def Attr.usageIn (cfg : Config) (a : Attr) (ec : ElementCfg) (direction : Direction) :
    Option ℚ :=
  if a.aDef.adType = .percent then some ((a.rate direction).rTotal.toNat : ℚ)
  else calcUsage cfg (a.rate direction).rRate (ec.maxOf direction)

theorem usageSource_eq (cfg : Config) (cfgList : List ElementCfg) (r : Element) :
    r.usage cfg cfgList = ((r.usageSource cfgList).map fun source =>
      (source.1.usageIn cfg source.2 .rx, source.1.usageIn cfg source.2 .tx)).getD
        (none, none) := by
  unfold Element.usage Element.usageSource
  cases r.eAttrs.eUsageAttr with
  | none => rfl
  | some definition =>
    cases r.eCfg.bind fun c => cfgList[c]? with
    | none => simp
    | some ec =>
      simp only [Option.bind_some, Option.map_some]
      cases (attrLookup r.eAttrs definition.adId).bind fun p => r.eAttrs.attrs[p]? with
      | none => rfl
      | some a =>
        unfold attrCalcUsage Attr.usageIn
        by_cases percent : a.aDef.adType = .percent <;> simp [percent] <;> exact ⟨rfl, rfl⟩

/-- After `element_notify_update` the usage of an element is that of its attribute under its
configuration, or is not known. -/
theorem usageIn_notified {cfg : Config} {fuel : Nat} {σ σ' : Store} {e : ElementPtr}
    {ts : Timestamp} (notified : elementNotifyUpdate cfg fuel σ e ts = some σ') {r : Element}
    (present : σ'.elements e = some r) (direction : Direction) :
    r.usageIn direction = (r.usageSource σ'.cfgList).bind fun source =>
      source.1.usageIn cfg source.2 direction := by
  have usage : (r.eRxUsage, r.eTxUsage) = r.usage cfg σ'.cfgList := by
    unfold elementNotifyUpdate at notified
    cases before : σ.elements e with
    | none =>
      rw [before] at notified
      obtain rfl := Option.some.inj notified
      rw [before] at present
      cases present
    | some old =>
      rw [before] at notified
      obtain ⟨attrs, -, rfl⟩ := Option.map_eq_some_iff.mp notified
      simp only [Store.modifyElement, if_pos, before, Option.map_some] at present
      obtain rfl := Option.some.inj present
      rfl
  rw [usageSource_eq] at usage
  cases source : r.usageSource σ'.cfgList with
  | none =>
    rw [source] at usage
    cases direction
    · exact congrArg Prod.fst usage
    · exact congrArg Prod.snd usage
  | some source' =>
    rw [source] at usage
    cases direction
    · exact congrArg Prod.fst usage
    · exact congrArg Prod.snd usage

/-- In one direction an attribute and a configuration give no usage: the percentage or the rate
is zero, or there is no maximum. -/
def Attr.Idle (cfg : Config) (a : Attr) (ec : ElementCfg) (direction : Direction) : Prop :=
  if a.aDef.adType = .percent then (a.rate direction).rTotal = 0
  else ec.maxOf direction = 0 ∨ (a.rate direction).rRate = 0 ∨ cfg.cfgRateInterval = 0

/-- Then the usage is zero or not known, and only then. -/
theorem Attr.idle_iff (cfg : Config) (a : Attr) (ec : ElementCfg) (direction : Direction) :
    a.Idle cfg ec direction ↔ ∀ usage ∈ a.usageIn cfg ec direction, usage = 0 := by
  unfold Attr.Idle Attr.usageIn calcUsage
  by_cases percent : a.aDef.adType = .percent
  · rw [if_pos percent, if_pos percent]
    simp [← UInt64.toNat_inj]
  · rw [if_neg percent, if_neg percent]
    by_cases limited : ec.maxOf direction = 0
    · simp [limited]
    · by_cases still : (a.rate direction).rRate = 0
      · simp [limited, still]
      · have counted : (ec.maxOf direction).toNat ≠ 0 := fun zero =>
          limited (UInt64.toNat_inj.mp zero)
        simp [limited, still, counted]

/-- What the format module prints for the usage of an element that `element_notify_update` has
just left: the number is the usage wherever that is known, and so the one the other two outputs
print, exactly if the attribute and the configuration of the element give no usage. -/
theorem formatUsage_iff (cfg : Config) (attrDefs : List AttrDef) (fuel : Nat) (σ σ' : Store)
    (e : ElementPtr) (ts : Timestamp) (notified : elementNotifyUpdate cfg fuel σ e ts = some σ')
    (r : Element) (present : σ'.elements e = some r) (g : ElementGroup) (direction : Direction) :
    getToken attrDefs σ' g e r (usageToken direction) =
      (some (snprintf 128 (formatFixed 2 0 (tokenUsage (r.usageIn direction)))), none) ∧
    (∀ usage, r.usageIn direction = some usage →
      printListUsage (r.usageIn direction) = formatFixed 2 0 usage ++ ['%'] ∧
      drawAttrUsage (r.usageIn direction) = formatFixed 2 0 usage ++ ['%']) ∧
    ((∀ usage, r.usageIn direction = some usage → tokenUsage (r.usageIn direction) = usage) ↔
      ∀ a ec, r.usageSource σ'.cfgList = some (a, ec) → a.Idle cfg ec direction) := by
  refine ⟨getToken_usageToken attrDefs σ' g e r direction, fun usage known => ?_, ?_⟩
  · rw [known]
    exact ⟨rfl, rfl⟩
  · rw [usageIn_notified notified present direction]
    cases source : r.usageSource σ'.cfgList with
    | none =>
      refine iff_of_true (fun usage known => ?_) (fun a ec same => ?_)
      · cases known
      · cases same
    | some given =>
      obtain ⟨a, ec⟩ := given
      rw [Option.bind_some]
      constructor
      · intro right a' ec' same
        obtain ⟨rfl, rfl⟩ := Prod.mk.inj (Option.some.inj same)
        rw [Attr.idle_iff]
        intro usage known
        have zero := right usage known
        rw [Option.mem_def.mp known] at zero
        exact zero.symm
      · intro idle usage known
        have zero := (Attr.idle_iff cfg a ec direction).mp (idle a ec rfl) usage known
        rw [known, zero]
        rfl

/-- The name of a group and its element. -/
def limitedName : CString := CString.ofMemory "eth0".toList

/-- An element with a maximum of 100 bytes a second, whose usage is that of its bytes. -/
def limitedStore : Store :=
  let σ := Store.start [⟨limitedName, "Interfaces", []⟩] [⟨limitedName, none, 100, 100, {}⟩] [] []
  let σ := (groupLookup σ limitedName true).1
  let σ := (elementLookup (confInitPost {}) σ 0 limitedName 0 none true).1
  elementSetUsageAttr [bytesDef] σ 0 "bytes"

/-- The group of the element. -/
def limitedGroup : ElementGroup := ⟨limitedName, ⟨limitedName, "Interfaces", []⟩, 1⟩

/-- One reading of the received bytes, with the notification after it. -/
def readReceived (σ : Store) (rx : UInt64) (ts : Timestamp) : Option Store :=
  elementNotifyUpdate (confInitPost {}) 1
    (elementAttrUpdate (confInitPost {}) [bytesDef] [] σ 0 1 rx 0 { rx := true, tx := true } ts)
    0 ts

/-- After the first reading there is no rate yet, and both numbers are zero. -/
theorem formatUsage_iff_idle :
    ∃ σ r, readReceived limitedStore 1000 ⟨1, 0⟩ = some σ ∧ σ.elements 0 = some r ∧
      ∀ usage, r.usageIn .rx = some usage → tokenUsage (r.usageIn .rx) = usage := by
  have idle : ((readReceived limitedStore 1000 ⟨1, 0⟩).bind fun σ => (σ.elements 0).bind fun r =>
      (r.usageSource σ.cfgList).map fun source =>
        decide (source.1.aDef.adType = .counter ∧ (source.1.rate .rx).rRate = 0)) =
      some true := by
    decide +kernel
  obtain ⟨σ, notified, rest⟩ := Option.bind_eq_some_iff.mp idle
  obtain ⟨r, present, source⟩ := Option.bind_eq_some_iff.mp rest
  obtain ⟨⟨a, ec⟩, found, still⟩ := Option.map_eq_some_iff.mp source
  obtain ⟨counter, zero⟩ := of_decide_eq_true still
  refine ⟨σ, r, notified, present, ((formatUsage_iff (confInitPost {}) [] 1 _ σ 0 ⟨1, 0⟩ notified r
    present limitedGroup .rx).2.2).mpr fun a' ec' same => ?_⟩
  obtain ⟨rfl, rfl⟩ := Prod.mk.inj (Option.some.inj (found.symm.trans same))
  unfold Attr.Idle
  rw [counter, if_neg (by decide)]
  exact Or.inr (Or.inl zero)

/-- After a second reading 50 bytes later the usage is 50 percent. The ascii output prints that,
and the format module zero. -/
theorem formatUsage_zero :
    (((readReceived limitedStore 1000 ⟨1, 0⟩).bind fun σ => readReceived σ 1050 ⟨2, 0⟩).bind
      fun σ => (σ.elements 0).map fun r => (r.eRxUsage, printListUsage r.eRxUsage,
        (getToken [] σ limitedGroup 0 r "element:rxusage".toList).1)) =
      some (some 50, "50%".toList, some " 0".toList) ∧
    ¬ ∀ (cfg : Config) (fuel : Nat) (σ σ' : Store) (e : ElementPtr) (ts : Timestamp),
      elementNotifyUpdate cfg fuel σ e ts = some σ' → ∀ r, σ'.elements e = some r →
      ∀ direction usage, r.usageIn direction = some usage →
        tokenUsage (r.usageIn direction) = usage := by
  have printed : (((readReceived limitedStore 1000 ⟨1, 0⟩).bind fun σ =>
      readReceived σ 1050 ⟨2, 0⟩).bind fun σ => (σ.elements 0).map fun r =>
        (r.eRxUsage, printListUsage r.eRxUsage,
          (getToken [] σ limitedGroup 0 r "element:rxusage".toList).1)) =
      some (some 50, "50%".toList, some " 0".toList) := by
    decide +kernel
  refine ⟨printed, fun always => ?_⟩
  obtain ⟨σ, twice, rest⟩ := Option.bind_eq_some_iff.mp printed
  obtain ⟨first, -, notified⟩ := Option.bind_eq_some_iff.mp twice
  obtain ⟨r, present, facts⟩ := Option.map_eq_some_iff.mp rest
  have usage : r.usageIn .rx = some 50 := (Prod.mk.inj facts).1
  have zero := always (confInitPost {}) 1 _ σ 0 ⟨2, 0⟩ notified r present .rx 50 usage
  rw [usage] at zero
  exact absurd (show (0 : ℚ) = 50 from zero) (by norm_num)

end Bmon
