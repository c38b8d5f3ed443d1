/-
This file models how `conf.c` reads the history definitions of a configuration file, and shows
for which of them the discard loop of `history_update` comes to an end.

The file parser hands over the sections of a file in order, each with its title and its
options. The type of a section is checked, its interval is not: an interval of zero is replaced
by the option `read_interval` of the file, and any other number is taken as it stands. Several
files are read one after another, the built-in configuration first, and a section with the name
of an earlier one overwrites its definition. So the last section of a name decides, with the
`read_interval` its own file was read under. What `-r` sets later reaches the tests of
`history_update`, but not the intervals of the definitions.
-/

import Bmon.HistoryLog
import Bmon.ModuleConf

namespace Bmon

/-! ### Reading the sections of a file -/

/-- A `history` section of a configuration file, with the defaults of `history_opts`. -/
structure HistorySection where
  title : String
  interval : ℚ := 1
  size : Int := 60
  type : String := "64bit"
  deriving DecidableEq

/-- The value of the option `read_interval` once a file is parsed, and its `history` sections. -/
structure ConfigFile where
  readInterval : ℚ := 1
  histories : List HistorySection

/-- `history_def_lookup`, as the position of the definition. -/
def historyDefLookup (defs : List HistoryDef) (name : String) : Option Nat :=
  defs.findIdx? fun definition => definition.hdName = name

/-- `history_def_alloc`, with the position of the definition. The fields of a new definition
are set before anything reads them. -/
def historyDefAlloc (defs : List HistoryDef) (name : String) : List HistoryDef × Nat :=
  match historyDefLookup defs name with
  | some p => (defs, p)
  | none => (defs ++ [⟨name, 0, .type8, 0⟩], defs.length)

/-- The comparisons of `configfile_read_history` that turn the option `type` into a width. -/
def readHistoryType (type : String) : Option HistoryType :=
  if strcasecmp type.toList "8bit".toList = 0 then some .type8
  else if strcasecmp type.toList "16bit".toList = 0 then some .type16
  else if strcasecmp type.toList "32bit".toList = 0 then some .type32
  else if strcasecmp type.toList "64bit".toList = 0 then some .type64
  else none

/-- The text `configfile_read_history` quits with. -/
def historyTypeError (type : String) (number : Nat) : String :=
  "Invalid type '" ++ type ++ "', must be \"(8|16|32|64)bit\" in history definition #" ++
    toString number ++ "\n"

/-- The interval of a section: `read_interval` if it is zero. -/
def HistorySection.hdInterval (readInterval : ℚ) (history : HistorySection) : ℚ :=
  if history.interval = 0 then readInterval else history.interval

/-- The loop of `configfile_read_history` from section `i` on. A negative size is read as zero here.
The program accepts both: it ends in `xcalloc` where it first stores in a history of negative size,
and writes behind an empty block where the size is zero. What is proved about histories that are
stored asks for a size of at least one. -/
def configfileReadHistory (readInterval : ℚ) :
    Nat → List HistorySection → List HistoryDef → Quits (List HistoryDef)
  | _, [], defs => .ok defs
  | i, history :: rest, defs =>
    let (defs, p) := historyDefAlloc defs history.title
    match readHistoryType history.type with
    | none => .error (historyTypeError history.type (i + 1))
    | some type =>
      configfileReadHistory readInterval (i + 1) rest <| defs.modify p fun definition =>
        { definition with
          hdInterval := history.hdInterval readInterval
          hdSize := history.size.toNat
          hdType := type }

/-- The calls of `configfile_read_history` of a start, one for each file. -/
def configfilesRead : List ConfigFile → List HistoryDef → Quits (List HistoryDef)
  | [], defs => .ok defs
  | file :: files, defs =>
    match configfileReadHistory file.readInterval 0 file.histories defs with
    | .error text => .error text
    | .ok defs => configfilesRead files defs

/-- The built-in configuration, `default_config`. -/
def defaultConfig : ConfigFile where
  histories := [{ title := "second" }, { title := "minute", interval := 60 },
    { title := "hour", interval := 3600 }, { title := "day", interval := 86400 }]

/-! ### The last section of a name decides -/

/-- A section with the `read_interval` it is read under. -/
abbrev ReadSection := ℚ × HistorySection

/-- The sections of a file. -/
def ConfigFile.sections (file : ConfigFile) : List ReadSection :=
  file.histories.map fun history => (file.readInterval, history)

/-- The last section of a name. -/
def lastSection (sections : List ReadSection) (name : String) : Option ReadSection :=
  sections.reverse.find? fun read => read.2.title = name

theorem lastSection_concat (sections : List ReadSection) (read : ReadSection) (name : String) :
    lastSection (sections ++ [read]) name =
      if read.2.title = name then some read else lastSection sections name := by
  unfold lastSection
  rw [List.reverse_append, List.reverse_singleton, List.singleton_append, List.find?_cons]
  by_cases same : read.2.title = name <;> simp [same]

/-- The definitions are those of the sections read so far: no two of a name, for every name
one, and each with the interval of the last section of its name. -/
structure Defines (sections : List ReadSection) (defs : List HistoryDef) : Prop where
  distinct : (defs.map HistoryDef.hdName).Nodup
  last : ∀ definition ∈ defs, ∃ read, lastSection sections definition.hdName = some read ∧
    definition.hdInterval = read.2.hdInterval read.1
  covers : ∀ name, (lastSection sections name).isSome →
    ∃ definition ∈ defs, definition.hdName = name

theorem defines_nil : Defines [] [] where
  distinct := List.nodup_nil
  last := fun definition member => absurd member List.not_mem_nil
  covers := fun name given => absurd given (by simp [lastSection])

theorem nodup_hdName_middle (before after : List HistoryDef) (found : HistoryDef) :
    ((before ++ found :: after).map HistoryDef.hdName).Nodup ↔
      found.hdName ∉ (before ++ after).map HistoryDef.hdName ∧
        ((before ++ after).map HistoryDef.hdName).Nodup := by
  rw [(List.perm_middle.map HistoryDef.hdName).nodup_iff, List.map_cons, List.nodup_cons]

/-- What `history_def_alloc` returns: the old list, or the list with one new definition at its
end, and the position of the only definition of the name. -/
theorem historyDefAlloc_cases {defs : List HistoryDef}
    (distinct : (defs.map HistoryDef.hdName).Nodup) (name : String) :
    ∃ before found after, historyDefAlloc defs name = (before ++ found :: after, before.length) ∧
      found.hdName = name ∧ (∀ other ∈ before ++ after, other.hdName ≠ name) ∧
      (before ++ after).Sublist defs ∧
      (∀ other ∈ defs, other.hdName ≠ name → other ∈ before ++ after) := by
  unfold historyDefAlloc historyDefLookup
  cases position : defs.findIdx? fun definition => definition.hdName = name with
  | none =>
    have absent := List.findIdx?_eq_none_iff.mp position
    refine ⟨defs, ⟨name, 0, .type8, 0⟩, [], rfl, rfl, fun other member => ?_, ?_,
      fun other member apart => ?_⟩
    · rw [List.append_nil] at member
      exact of_decide_eq_false (absent other member)
    · rw [List.append_nil]
    · rwa [List.append_nil]
  | some p =>
    obtain ⟨inside, found, -⟩ := List.findIdx?_eq_some_iff_getElem.mp position
    have split : defs = defs.take p ++ defs[p] :: defs.drop (p + 1) := by
      rw [List.getElem_cons_drop, List.take_append_drop]
    have named : defs[p].hdName = name := of_decide_eq_true found
    have apart : ∀ other ∈ defs.take p ++ defs.drop (p + 1), other.hdName ≠ name := by
      rw [split, nodup_hdName_middle, named] at distinct
      intro other member same
      refine distinct.1 ?_
      rw [← same]
      exact List.mem_map_of_mem member
    refine ⟨defs.take p, defs[p], defs.drop (p + 1), ?_, named, apart, ?_,
      fun other member different => ?_⟩
    · rw [← split, List.length_take_of_le (Nat.le_of_lt inside)]
    · conv_rhs => rw [split]
      exact (List.Sublist.refl _).append (List.sublist_cons_self _ _)
    · rw [split] at member
      rcases List.mem_append.mp member with early | late
      · exact List.mem_append_left _ early
      · rcases List.mem_cons.mp late with rfl | late
        · exact absurd named different
        · exact List.mem_append_right _ late

/-- Reading one more section keeps the definitions those of the sections read. -/
theorem Defines.section {sections : List ReadSection} {defs : List HistoryDef}
    (defines : Defines sections defs) (read : ReadSection) (type : HistoryType) :
    Defines (sections ++ [read])
      ((historyDefAlloc defs read.2.title).1.modify (historyDefAlloc defs read.2.title).2
        fun definition => { definition with
          hdInterval := read.2.hdInterval read.1
          hdSize := read.2.size.toNat
          hdType := type }) := by
  obtain ⟨before, found, after, allocated, named, apart, others, kept⟩ :=
    historyDefAlloc_cases defines.distinct read.2.title
  simp only [allocated, List.modify_eq_take_drop, List.take_left, List.drop_left,
    List.modifyHead_cons]
  refine ⟨?_, fun definition member => ?_, fun name given => ?_⟩
  · rw [nodup_hdName_middle]
    refine ⟨fun member => ?_, (others.map _).nodup defines.distinct⟩
    obtain ⟨other, otherMember, same⟩ := List.mem_map.mp member
    exact apart other otherMember (same.trans named)
  · by_cases other : definition ∈ before ++ after
    · obtain ⟨earlier, last, interval⟩ := defines.last definition (others.subset other)
      refine ⟨earlier, ?_, interval⟩
      rwa [lastSection_concat, if_neg fun same => apart definition other same.symm]
    · have new : definition = { found with
          hdInterval := read.2.hdInterval read.1
          hdSize := read.2.size.toNat
          hdType := type } := by
        simp only [List.mem_append, List.mem_cons] at member other
        tauto
      refine ⟨read, ?_, by rw [new]⟩
      rw [lastSection_concat, new, if_pos named.symm]
  · rw [lastSection_concat] at given
    by_cases same : read.2.title = name
    · exact ⟨_, List.mem_append_right _ List.mem_cons_self, named.trans same⟩
    · rw [if_neg same] at given
      obtain ⟨definition, member, isName⟩ := defines.covers name given
      have stays := kept definition member fun equal => same (equal.symm.trans isName)
      refine ⟨definition, ?_, isName⟩
      rcases List.mem_append.mp stays with early | late
      · exact List.mem_append_left _ early
      · exact List.mem_append_right _ (List.mem_cons_of_mem _ late)

theorem Defines.configfileReadHistory {sections : List ReadSection} {defs defs' : List HistoryDef}
    {readInterval : ℚ} {i : Nat} {histories : List HistorySection}
    (defines : Defines sections defs)
    (accepted : configfileReadHistory readInterval i histories defs = .ok defs') :
    Defines (sections ++ histories.map fun history => (readInterval, history)) defs' := by
  induction histories generalizing sections defs i with
  | nil =>
    obtain rfl := Except.ok.inj accepted
    rwa [List.map_nil, List.append_nil]
  | cons history rest inductionHypothesis =>
    rw [Bmon.configfileReadHistory] at accepted
    cases type : readHistoryType history.type with
    | none =>
      rw [type] at accepted
      cases accepted
    | some type' =>
      rw [type] at accepted
      have later := inductionHypothesis (defines.section (readInterval, history) type') accepted
      rwa [List.append_assoc, List.singleton_append] at later

/-- The definitions of a start are those of the sections of all its files. -/
theorem Defines.configfilesRead {sections : List ReadSection} {defs defs' : List HistoryDef}
    {files : List ConfigFile} (defines : Defines sections defs)
    (accepted : configfilesRead files defs = .ok defs') :
    Defines (sections ++ files.flatMap ConfigFile.sections) defs' := by
  induction files generalizing sections defs with
  | nil =>
    obtain rfl := Except.ok.inj accepted
    rwa [List.flatMap_nil, List.append_nil]
  | cons file files inductionHypothesis =>
    rw [Bmon.configfilesRead] at accepted
    cases first : Bmon.configfileReadHistory file.readInterval 0 file.histories defs with
    | error text =>
      rw [first] at accepted
      cases accepted
    | ok next =>
      rw [first] at accepted
      have later := inductionHypothesis (defines.configfileReadHistory first) accepted
      rwa [List.append_assoc] at later

/-! ### The discard loop -/

/-- The interval a section ends up with is positive: it is so in the file, or it is zero there
and the `read_interval` of the file is positive. -/
def ReadSection.Positive (read : ReadSection) : Prop :=
  0 < read.2.interval ∨ (read.2.interval = 0 ∧ 0 < read.1)

theorem hdInterval_pos_iff (read : ReadSection) :
    0 < read.2.hdInterval read.1 ↔ read.Positive := by
  unfold HistorySection.hdInterval ReadSection.Positive
  by_cases zero : read.2.interval = 0
  · simp [zero]
  · simp [zero]

/-- Without a positive interval no round of the discard loop brings it closer to its end. -/
theorem discardLoop_diverges {h : History} (notPositive : h.hDefinition.hdInterval ≤ 0)
    {timediff : ℚ} (elapsed : 0 ≤ timediff) (fuel : Nat) : discardLoop fuel h timediff = none := by
  induction fuel generalizing h timediff with
  | zero => rfl
  | succ fuel inductionHypothesis =>
    have long : timediff ≥ h.hDefinition.hdInterval / 2 := by linarith
    have more : 0 ≤ timediff - h.hDefinition.hdInterval := by linarith
    have next : discardLoop fuel (historyStep h (fun _ => historyUnknown) 0).1
        (timediff - h.hDefinition.hdInterval) = none :=
      inductionHypothesis (h := (historyStep h (fun _ => historyUnknown) 0).1) notPositive more
    rw [discardLoop, if_pos long]
    simp only [next, Option.map_none]

/-- The discard loop of an elapsed time ends exactly if the interval is positive. -/
theorem discardLoop_returns_iff (h : History) {timediff : ℚ} (elapsed : 0 ≤ timediff) :
    (∃ fuel result, discardLoop fuel h timediff = some result) ↔
      0 < h.hDefinition.hdInterval := by
  constructor
  · rintro ⟨fuel, result, returned⟩
    by_contra notPositive
    rw [discardLoop_diverges (not_lt.mp notPositive) elapsed] at returned
    cases returned
  · intro positive
    obtain ⟨rounds, bound⟩ := exists_nat_gt (timediff / h.hDefinition.hdInterval)
    have scaled := (div_lt_iff₀ positive).mp bound
    exact ⟨rounds + 1, discardLoop_returns positive timediff rounds (by linarith)⟩

/-- A call of `history_update` returns exactly if it does not take the discard path or the
interval is positive. -/
theorem historyUpdate_returns_iff (cfg : Config) (a : Attr) (h : History) (ts : Timestamp)
    (elapsed : 0 ≤ historyTimediff h ts) :
    (∃ fuel result, historyUpdate cfg fuel a h ts = some result) ↔
      (historyExit cfg a h ts = .discard → 0 < h.hDefinition.hdInterval) := by
  rw [← discardLoop_returns_iff h elapsed]
  unfold historyUpdate
  cases exit : historyExit cfg a h ts
  case discard =>
    constructor
    · rintro ⟨fuel, result, returned⟩ -
      obtain ⟨looped, loop, -⟩ := Option.map_eq_some_iff.mp returned
      exact ⟨fuel, looped, loop⟩
    · intro ends
      obtain ⟨fuel, looped, loop⟩ := ends rfl
      exact ⟨fuel, _, by simp only [loop, Option.map_some]; rfl⟩
  all_goals simp

/-- The last section of its name decides whether the discard loop of a definition ends. Of
every definition a start accepts, and for every read interval in force afterwards, the loop
ends for any elapsed time exactly if the interval of that section is positive, or is zero and
the `read_interval` of its file is positive; and a call of `history_update` returns exactly if
it does not lead to the loop or the loop ends. So every loop of every accepted definition ends
exactly if the last section of every name meets the condition. -/
theorem discardLoop_returns_iff_section {files : List ConfigFile} {defs : List HistoryDef}
    (accepted : configfilesRead files [] = .ok defs) :
    (∀ definition ∈ defs, ∃ read,
      lastSection (files.flatMap ConfigFile.sections) definition.hdName = some read ∧
      ∀ h : History, h.hDefinition = definition →
        (∀ timediff : ℚ, 0 ≤ timediff →
          ((∃ fuel result, discardLoop fuel h timediff = some result) ↔ read.Positive)) ∧
        ∀ cfg a ts, 0 ≤ historyTimediff h ts →
          ((∃ fuel result, historyUpdate cfg fuel a h ts = some result) ↔
            (historyExit cfg a h ts = .discard → read.Positive))) ∧
    ((∀ definition ∈ defs, ∀ h : History, h.hDefinition = definition →
        ∀ timediff : ℚ, 0 ≤ timediff → ∃ fuel result, discardLoop fuel h timediff = some result) ↔
      ∀ name read, lastSection (files.flatMap ConfigFile.sections) name = some read →
        read.Positive) := by
  have defines : Defines (files.flatMap ConfigFile.sections) defs :=
    defines_nil.configfilesRead accepted
  have decides : ∀ definition ∈ defs, ∃ read,
      lastSection (files.flatMap ConfigFile.sections) definition.hdName = some read ∧
        (0 < definition.hdInterval ↔ read.Positive) := by
    intro definition member
    obtain ⟨read, last, interval⟩ := defines.last definition member
    exact ⟨read, last, by rw [interval, hdInterval_pos_iff]⟩
  refine ⟨fun definition member => ?_, fun ends name read last => ?_,
    fun positive definition member h same timediff elapsed => ?_⟩
  · obtain ⟨read, last, interval⟩ := decides definition member
    refine ⟨read, last, fun h same => ⟨fun timediff elapsed => ?_, fun cfg a ts elapsed => ?_⟩⟩
    · rw [discardLoop_returns_iff h elapsed, same, interval]
    · rw [historyUpdate_returns_iff cfg a h ts elapsed, same, interval]
  · obtain ⟨definition, member, rfl⟩ := defines.covers name (by rw [last]; rfl)
    obtain ⟨read', last', interval⟩ := decides definition member
    obtain rfl := Option.some.inj (last'.symm.trans last)
    have returns := ends definition member (historyAlloc (confInitPost {}) definition) rfl 0
      (le_refl 0)
    exact interval.mp ((discardLoop_returns_iff _ (le_refl 0)).mp returns)
  · obtain ⟨read, last, interval⟩ := decides definition member
    rw [discardLoop_returns_iff h elapsed, same, interval]
    exact positive definition.hdName read last

/-- With the built-in configuration alone every discard loop ends. -/
theorem discardLoop_returns_iff_section_default :
    ∃ defs, configfilesRead [defaultConfig] [] = .ok defs ∧ defs.length = 4 ∧
      ∀ definition ∈ defs, ∀ h : History, h.hDefinition = definition →
        ∀ timediff : ℚ, 0 ≤ timediff →
          ∃ fuel result, discardLoop fuel h timediff = some result := by
  have accepted : configfilesRead [defaultConfig] [] = .ok
      [⟨"second", 60, .type64, 1⟩, ⟨"minute", 60, .type64, 60⟩, ⟨"hour", 60, .type64, 3600⟩,
        ⟨"day", 60, .type64, 86400⟩] := by
    decide +kernel
  refine ⟨_, accepted, rfl, (discardLoop_returns_iff_section accepted).2.mpr ?_⟩
  intro name read last
  have member := List.mem_reverse.mp (List.mem_of_find?_eq_some last)
  simp only [defaultConfig, ConfigFile.sections, List.flatMap_cons, List.flatMap_nil,
    List.append_nil, List.map_cons, List.map_nil, List.mem_cons, List.not_mem_nil,
    or_false] at member
  rcases member with rfl | rfl | rfl | rfl <;> exact Or.inl (by norm_num)

/-- A file whose only section has a negative interval. -/
def negativeInterval : ConfigFile where
  histories := [{ title := "second", interval := -1 }]

/-- A file that leaves the interval of its section to a `read_interval` of zero. -/
def zeroInterval : ConfigFile where
  readInterval := 0
  histories := [{ title := "second", interval := 0 }]

/-- The definition such a file leaves under the name `second`. -/
def secondOf (interval : ℚ) : HistoryDef := ⟨"second", 60, .type64, interval⟩

/-- Two updates of a byte counter, one second apart. -/
def twoUpdates : List (Attr × Timestamp) := [(bytesAt 0, ⟨1, 0⟩), (bytesAt 0, ⟨2, 0⟩)]

/-- The history after the first of them. -/
def firstUpdate (interval : ℚ) : History :=
  ((historyAlloc (confInitPost {}) (secondOf interval)).updatePrevTotal (bytesAt 0)).updateTs
    ⟨1, 0⟩

/-- Without a positive interval the second of them does not return. -/
theorem twoUpdates_diverge {interval : ℚ} (notPositive : interval ≤ 0) (fuel : Nat) :
    historyRun (confInitPost {}) fuel (historyAlloc (confInitPost {}) (secondOf interval))
      twoUpdates = none := by
  have first : historyUpdate (confInitPost {}) fuel (bytesAt 0)
      (historyAlloc (confInitPost {}) (secondOf interval)) ⟨1, 0⟩ =
      some (firstUpdate interval, []) := rfl
  have started : ¬(firstUpdate interval).isInitial := by
    change ¬((1 : Int) = 0)
    decide
  have elapsed : historyTimediff (firstUpdate interval) ⟨2, 0⟩ = 1 := by
    rw [historyTimediff, if_neg started]
    change timestampDiff ⟨1, 0⟩ ⟨2, 0⟩ = 1
    decide +kernel
  have tooLong : (confInitPost {}).cfgReadInterval >
      (firstUpdate interval).hDefinition.hdInterval :=
    lt_of_le_of_lt notPositive zero_lt_one
  have second : historyUpdate (confInitPost {}) fuel (bytesAt 0) (firstUpdate interval) ⟨2, 0⟩ =
      none := by
    rw [historyUpdate, historyExit, if_neg fun both => started both.1, if_pos tooLong]
    simp only [discardLoop_diverges (h := firstUpdate interval) notPositive
      (elapsed ▸ zero_le_one), Option.map_none]
  simp only [twoUpdates, historyRun, first, second, Option.bind_some, Option.bind_none,
    Option.map_none]

/-- Both files are accepted after the built-in configuration, and with a read interval of one
second the second update of a byte counter then never leaves the discard loop. -/
theorem discardLoop_never_returns :
    (∃ defs, configfilesRead [defaultConfig, negativeInterval] [] = .ok defs ∧
      secondOf (-1) ∈ defs ∧ ∀ fuel, historyRun (confInitPost {}) fuel
        (historyAlloc (confInitPost {}) (secondOf (-1))) twoUpdates = none) ∧
    ∃ defs, configfilesRead [defaultConfig, zeroInterval] [] = .ok defs ∧
      secondOf 0 ∈ defs ∧ ∀ fuel, historyRun (confInitPost {}) fuel
        (historyAlloc (confInitPost {}) (secondOf 0)) twoUpdates = none := by
  have negative : configfilesRead [defaultConfig, negativeInterval] [] = .ok
      [secondOf (-1), ⟨"minute", 60, .type64, 60⟩, ⟨"hour", 60, .type64, 3600⟩,
        ⟨"day", 60, .type64, 86400⟩] := by
    decide +kernel
  have zero : configfilesRead [defaultConfig, zeroInterval] [] = .ok
      [secondOf 0, ⟨"minute", 60, .type64, 60⟩, ⟨"hour", 60, .type64, 3600⟩,
        ⟨"day", 60, .type64, 86400⟩] := by
    decide +kernel
  exact ⟨⟨_, negative, List.mem_cons_self, twoUpdates_diverge (by norm_num)⟩,
    ⟨_, zero, List.mem_cons_self, twoUpdates_diverge (le_refl 0)⟩⟩

end Bmon
