/-
This file models how the dummy module is configured, any number of times, and asks whether its
counters lie in the array that was allocated for them.

The options are stored before the probe looks at them. The probe refuses too many devices, but
it neither puts the old numbers back nor is the module disabled, if an earlier configuration has
enabled it. The array stays that of the last configuration the probe accepted, while a read
goes by the numbers of the last configuration there was. So the counters are in the array only
as long as those numbers need no more of them.

The sizes and indices are values of `int`. They are reduced to its range as the machine does.
-/

import Bmon.DummyRead
import Bmon.ModuleConf

namespace Bmon

/-! ### Options -/

/-- A value reduced to the range of `int`. -/
def toInt32 (x : Int) : Int := x.bmod (2 ^ 32)

/-- The value of a digit in any base. -/
def digitValue (c : Char) : Nat :=
  if '0' ≤ c ∧ c ≤ '9' then c.toNat - '0'.toNat
  else if 'a' ≤ tolower c ∧ tolower c ≤ 'z' then (tolower c).toNat - 'a'.toNat + 10
  else 36

/-- The number at the start of a text. -/
def readDigits (base : Nat) : Nat → List Char → Nat
  | value, [] => value
  | value, c :: text =>
    if digitValue c < base then readDigits base (value * base + digitValue c) text else value

/-- `strtol` with the base zero: the base is in the text, and a number that does not fit becomes
the nearest that does. -/
def strtol (text : List Char) : Int :=
  let start := text.dropWhile isspace
  let unsigned := if start.head? = some '+' ∨ start.head? = some '-' then start.tail else start
  let magnitude :=
    if unsigned.head? = some '0' then
      if (unsigned.drop 1).head?.map tolower = some 'x' ∧
          (unsigned.drop 2).head?.any (fun c => decide (digitValue c < 16)) then
        readDigits 16 0 (unsigned.drop 2)
      else readDigits 8 0 unsigned
    else readDigits 10 0 unsigned
  if start.head? = some '-' then max (-(magnitude : Int)) (-2 ^ 63)
  else min (magnitude : Int) (2 ^ 63 - 1)

/-- `dummy_parse_opt`. The program ends after `help`. What `randomize` and `seed` make of the
sequence of `rand` is left to the sequence. -/
def dummyParseOpt (conf : DummyConf) (type : List Char) (value : Option (List Char)) :
    Option DummyConf :=
  let number := strtol (value.getD [])
  if strcasecmp type "rxb".toList = 0 ∧ value.isSome then
    some { conf with cRxBInc := UInt64.ofInt number }
  else if strcasecmp type "txb".toList = 0 ∧ value.isSome then
    some { conf with cTxBInc := UInt64.ofInt number }
  else if strcasecmp type "rxp".toList = 0 ∧ value.isSome then
    some { conf with cRxPInc := UInt64.ofInt number }
  else if strcasecmp type "txp".toList = 0 ∧ value.isSome then
    some { conf with cTxPInc := UInt64.ofInt number }
  else if strcasecmp type "num".toList = 0 ∧ value.isSome then
    some { conf with cNumdev := toInt32 number }
  else if strcasecmp type "randomize".toList = 0 then some { conf with cRandomize := true }
  else if strcasecmp type "seed".toList = 0 ∧ value.isSome then some conf
  else if strcasecmp type "mtu".toList = 0 ∧ value.isSome then
    some { conf with cMtu := toInt32 number }
  else if strcasecmp type "maxpps".toList = 0 ∧ value.isSome then
    some { conf with cMaxpps := toInt32 number }
  else if strcasecmp type "numgroups".toList = 0 ∧ value.isSome then
    some { conf with cNumgroups := toInt32 number }
  else if strcasecmp type "help".toList = 0 then none
  else some conf

/-! ### Configuring the module -/

/-- `MAXDEVS`. -/
def maxdevs : Int := 32

/-- `cnt_size`. -/
def DummyConf.cntSize (conf : DummyConf) : Int := toInt32 (conf.cNumgroups * conf.cNumdev * 2 * 2)

/-- The index that `cnt` adds to `cnts`. -/
def DummyConf.cntIndex (conf : DummyConf) (group dev unit direction : Nat) : Int :=
  toInt32 (group * conf.cNumdev * 2 * 2) + toInt32 (dev * 2 * 2) + toInt32 (unit * 2) + direction

/-- The module: its options, the length of the array at `cnts`, whether it is enabled, and the
store that holds the titles of its groups. -/
structure DummyModule where
  conf : DummyConf
  cnts : Option Nat
  enabled : Bool
  store : Store

theorem nul_not_mem_group (i : Nat) : nul ∉ ['g', 'r', 'o', 'u', 'p'] ++ twoDigits i := by
  rw [List.mem_append, not_or]
  exact ⟨by decide, nul_not_mem_twoDigits i⟩

/-- The names `dummy_probe` gives its groups. -/
def dummyGroupName (i : Nat) : CString where
  chars := ['g', 'r', 'o', 'u', 'p'] ++ twoDigits i
  noNul := nul_not_mem_group i

/-- `dummy_probe`, with whether it succeeds. The program ends where `xcalloc` cannot allocate a
size below zero. -/
def dummyProbe (m : DummyModule) : Option (DummyModule × Bool) :=
  if maxdevs ≤ m.conf.cNumdev then some (m, false)
  else if m.conf.cntSize < 0 then none
  else
    some ({ m with
      cnts := some m.conf.cntSize.toNat
      store := (List.range m.conf.numgroups).foldl (fun σ i => groupNewDerivedHdr σ
        (dummyGroupName i) (String.ofList (dummyGroupName i).chars) (gname 0)) m.store }, true)

/-- The loop of `module_configure` over the options. -/
def dummyParseOpts (conf : DummyConf) (attrs : List Tv) : Option DummyConf :=
  attrs.foldlM (fun conf tv => dummyParseOpt conf tv.tvType tv.tvValue) conf

/-- `module_configure` for the dummy module, with whether it returns zero. -/
def dummyConfigure (m : DummyModule) (attrs : List Tv) : Option (DummyModule × Bool) :=
  (dummyParseOpts m.conf attrs).bind fun conf =>
    (dummyProbe { m with conf := conf }).map fun probed =>
      if probed.2 then ({ probed.1 with enabled := true }, true) else (probed.1, false)

/-- Any number of configurations, one after the other. -/
def dummyConfigures (m : DummyModule) (configurations : List (List Tv)) : Option DummyModule :=
  configurations.foldlM (fun m attrs => (dummyConfigure m attrs).map Prod.fst) m

/-- The module before it is configured. -/
def DummyModule.start (σ : Store) : DummyModule := ⟨{}, none, false, σ⟩

/-! ### The array of the last accepted configuration -/

/-- The numbers of the last configuration that the probe accepts. -/
def lastAccepted : DummyConf → List (List Tv) → Option DummyConf
  | _, [] => none
  | conf, attrs :: configurations =>
    (dummyParseOpts conf attrs).bind fun conf =>
      (lastAccepted conf configurations).or
        (if conf.cNumdev < maxdevs then some conf else none)

/-- What configuring once can do: the options are stored, and the probe accepts them, allocates
the array for them and enables the module, or refuses them and leaves all else as it is. -/
theorem dummyConfigure_cases {m m' : DummyModule} {attrs : List Tv} {accepted : Bool}
    (configured : dummyConfigure m attrs = some (m', accepted)) :
    ∃ conf, dummyParseOpts m.conf attrs = some conf ∧ m'.conf = conf ∧
      ((conf.cNumdev < maxdevs ∧ accepted = true ∧ 0 ≤ conf.cntSize ∧
          m'.cnts = some conf.cntSize.toNat ∧ m'.enabled = true) ∨
        (¬ conf.cNumdev < maxdevs ∧ accepted = false ∧ m'.cnts = m.cnts ∧
          m'.enabled = m.enabled)) := by
  obtain ⟨conf, parsed, rest⟩ := Option.bind_eq_some_iff.mp configured
  obtain ⟨probed, ran, same⟩ := Option.map_eq_some_iff.mp rest
  refine ⟨conf, parsed, ?_⟩
  unfold dummyProbe at ran
  split_ifs at ran with many negative
  · obtain rfl := Option.some.inj ran
    obtain ⟨rfl, rfl⟩ := Prod.mk.inj same
    exact ⟨rfl, Or.inr ⟨not_lt.mpr many, rfl, rfl, rfl⟩⟩
  · obtain rfl := Option.some.inj ran
    obtain ⟨rfl, rfl⟩ := Prod.mk.inj same
    exact ⟨rfl, Or.inl ⟨not_le.mp many, rfl, not_lt.mp negative, rfl, rfl⟩⟩

/-- After any configurations the array is that of the last accepted one, or the old one if none
was accepted, and the module is enabled if one was. -/
theorem dummyConfigures_cnts {m m' : DummyModule} {configurations : List (List Tv)}
    (ran : dummyConfigures m configurations = some m') :
    m'.cnts = ((lastAccepted m.conf configurations).map fun conf => conf.cntSize.toNat).or m.cnts ∧
      m'.enabled = ((lastAccepted m.conf configurations).isSome || m.enabled) := by
  induction configurations generalizing m with
  | nil =>
    obtain rfl := Option.some.inj ran
    exact ⟨rfl, rfl⟩
  | cons attrs configurations inductionHypothesis =>
    rw [dummyConfigures, List.foldlM_cons] at ran
    obtain ⟨next, first, rest⟩ := Option.bind_eq_some_iff.mp ran
    obtain ⟨⟨_, accepted⟩, configured, rfl⟩ := Option.map_eq_some_iff.mp first
    obtain ⟨cnts, enabled⟩ := inductionHypothesis rest
    obtain ⟨conf, parsed, same, cases⟩ := dummyConfigure_cases configured
    rw [same] at cnts enabled
    rw [cnts, enabled, lastAccepted, parsed, Option.bind_some]
    rcases cases with ⟨few, -, -, allocated, on⟩ | ⟨many, -, kept, still⟩
    · rw [if_pos few, allocated, on]
      cases lastAccepted conf configurations <;> simp
    · rw [if_neg many, kept, still, Option.or_none]
      exact ⟨rfl, rfl⟩

/-! ### Indices -/

theorem toInt32_of_lt {x : Int} (nonneg : 0 ≤ x) (small : x < 2 ^ 31) : toInt32 x = x := by
  unfold toInt32
  rw [Int.bmod_eq_emod_of_lt (by omega)]
  omega

theorem toInt32_lt (x : Int) : toInt32 x < 2 ^ 31 := by
  have bound := @Int.bmod_lt x (2 ^ 32) (by decide)
  unfold toInt32
  omega

/-- Every index that a read computes is one of an array of this length. -/
def DummyConf.IndicesBelow (conf : DummyConf) (length : Nat) : Prop :=
  ∀ group < conf.numgroups, ∀ dev < conf.numdev, ∀ unit < 2, ∀ direction < 2,
    0 ≤ conf.cntIndex group dev unit direction ∧
      conf.cntIndex group dev unit direction < length

/-- The index is the one that the reads are modelled with, as long as both its parts are in the
range of `int`. -/
theorem cntIndex_eq {conf : DummyConf} {group dev unit direction : Nat}
    (isDevice : dev < conf.numdev) (isUnit : unit < 2)
    (groups : group * conf.numdev * 4 < 2 ^ 31) (devices : dev * 4 < 2 ^ 31) :
    conf.cntIndex group dev unit direction = conf.cnt group dev unit direction := by
  have number : conf.cNumdev = conf.numdev := by
    unfold DummyConf.numdev at isDevice ⊢
    omega
  unfold DummyConf.cntIndex DummyConf.cnt
  rw [number, ← Nat.cast_mul, toInt32_of_lt (by omega) (by omega),
    toInt32_of_lt (by omega) (by omega), toInt32_of_lt (by omega) (by omega)]
  push_cast
  ring

/-- The indices are those of an array exactly if it has room for all counters. -/
theorem indicesBelow_iff (conf : DummyConf) {length : Nat} (small : length < 2 ^ 31) :
    conf.IndicesBelow length ↔ conf.numgroups * conf.numdev * 4 ≤ length := by
  constructor
  · intro below
    by_contra much
    rw [not_le] at much
    -- the first counter behind the array, or the first whose number is no `int`
    have behind : length / 4 < conf.numgroups * conf.numdev := by omega
    have isDevice : 0 < conf.numdev := Nat.pos_of_mul_pos_left (Nat.zero_lt_of_lt behind)
    have split := Nat.div_add_mod (length / 4) conf.numdev
    have inDevices := Nat.mod_lt (length / 4) isDevice
    have inGroups : length / 4 / conf.numdev < conf.numgroups :=
      (Nat.div_lt_iff_lt_mul isDevice).mpr behind
    have product : conf.numdev * (length / 4 / conf.numdev) =
        length / 4 / conf.numdev * conf.numdev := Nat.mul_comm _ _
    have last := (below _ inGroups _ inDevices 1 (by decide) 1 (by decide)).2
    rw [cntIndex_eq inDevices (by decide) (by omega) (by omega), DummyConf.cnt] at last
    omega
  · intro room group inGroups dev isDevice unit isUnit direction isDirection
    have next : (group + 1) * conf.numdev ≤ conf.numgroups * conf.numdev :=
      Nat.mul_le_mul_right _ inGroups
    rw [Nat.add_one_mul] at next
    rw [cntIndex_eq isDevice isUnit (by omega) (by omega), DummyConf.cnt]
    omega

/-- After any number of configurations of the dummy module, some of them refused, every index
that a read computes is below the length of the array of the last accepted configuration
exactly if that array has room for the numbers in force. -/
theorem dummyConfigures_below_iff (σ : Store) (configurations : List (List Tv)) (m : DummyModule)
    (ran : dummyConfigures (DummyModule.start σ) configurations = some m)
    (enabled : m.enabled = true) :
    ∃ accepted, lastAccepted {} configurations = some accepted ∧
      m.cnts = some accepted.cntSize.toNat ∧
      (m.conf.IndicesBelow accepted.cntSize.toNat ↔
        m.conf.numgroups * m.conf.numdev * 4 ≤ accepted.cntSize.toNat) := by
  obtain ⟨cnts, isEnabled⟩ := dummyConfigures_cnts ran
  have accepts : (lastAccepted {} configurations).isSome := by
    rw [enabled] at isEnabled
    simpa [DummyModule.start] using isEnabled.symm
  obtain ⟨accepted, last⟩ := Option.isSome_iff_exists.mp accepts
  have sameConf : (DummyModule.start σ).conf = {} := rfl
  rw [sameConf, last, Option.map_some, Option.some_or] at cnts
  have small : accepted.cntSize.toNat < 2 ^ 31 := by
    have bound := toInt32_lt (accepted.cNumgroups * accepted.cNumdev * 2 * 2)
    unfold DummyConf.cntSize
    omega
  exact ⟨accepted, last, cnts, indicesBelow_iff m.conf small⟩

/-- The options `num` and `numgroups`. -/
def sizes (num numgroups : String) : List Tv :=
  [⟨"num".toList, some num.toList⟩, ⟨"numgroups".toList, some numgroups.toList⟩]

/-- A refused configuration that needs no more counters than the accepted one does no harm. -/
theorem dummyConfigures_below_iff_fewer :
    ∃ m, dummyConfigures (DummyModule.start (Store.start [] [] [] []))
        [sizes "20" "4", sizes "40" "2"] = some m ∧ m.conf.IndicesBelow 320 := by
  have run : (dummyConfigures (DummyModule.start (Store.start [] [] [] []))
      [sizes "20" "4", sizes "40" "2"]).map (fun m => (m.enabled, m.cnts, m.conf.numgroups,
        m.conf.numdev)) = some (true, some 320, 2, 40) := by
    decide +kernel
  obtain ⟨m, ran, facts⟩ := Option.map_eq_some_iff.mp run
  obtain ⟨enabled, rest⟩ := Prod.mk.inj facts
  obtain ⟨length, numbers⟩ := Prod.mk.inj rest
  obtain ⟨groups, devices⟩ := Prod.mk.inj numbers
  obtain ⟨accepted, -, array, below⟩ := dummyConfigures_below_iff _ _ m ran enabled
  have size : accepted.cntSize.toNat = 320 := Option.some.inj (array.symm.trans length)
  rw [size] at below
  exact ⟨m, ran, below.mpr (by rw [groups, devices])⟩

/-- Five devices are accepted and forty refused: the module stays enabled, and the first counter
of the eleventh device is behind the array. -/
theorem dummyConfigures_outside :
    (dummyConfigures (DummyModule.start (Store.start [] [] [] []))
      [sizes "5" "2", sizes "40" "2"]).map (fun m => (m.enabled, m.cnts, m.conf.numdev,
        m.conf.cntIndex 0 10 0 0)) = some (true, some 40, 40, 40) ∧
    ¬ ∀ (σ : Store) (configurations : List (List Tv)) (m : DummyModule),
      dummyConfigures (DummyModule.start σ) configurations = some m → m.enabled = true →
      ∃ length, m.cnts = some length ∧ m.conf.IndicesBelow length := by
  have run : (dummyConfigures (DummyModule.start (Store.start [] [] [] []))
      [sizes "5" "2", sizes "40" "2"]).map (fun m => (m.enabled, m.cnts, m.conf.numdev,
        m.conf.cntIndex 0 10 0 0)) = some (true, some 40, 40, 40) := by
    decide +kernel
  have groups : (dummyConfigures (DummyModule.start (Store.start [] [] [] []))
      [sizes "5" "2", sizes "40" "2"]).map (fun m => m.conf.numgroups) = some 2 := by
    decide +kernel
  refine ⟨run, fun always => ?_⟩
  obtain ⟨m, ran, facts⟩ := Option.map_eq_some_iff.mp run
  obtain ⟨enabled, rest⟩ := Prod.mk.inj facts
  obtain ⟨length, numbers⟩ := Prod.mk.inj rest
  obtain ⟨devices, index⟩ := Prod.mk.inj numbers
  obtain ⟨length', array, below⟩ := always _ _ m ran enabled
  obtain rfl := Option.some.inj (length.symm.trans array)
  rw [ran, Option.map_some] at groups
  have inside := (below 0 (by rw [Option.some.inj groups]; decide) 10 (by rw [devices]; decide) 0
    (by decide) 0 (by decide)).2
  rw [index] at inside
  exact absurd inside (by decide)

end Bmon
