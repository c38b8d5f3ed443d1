/-
This file models how the program comes to its main loop: the passes over the configurations, the
built-in one first, and the initialisation of an input module, which loads its map of attributes
and looks up the group of the interfaces.

A module ends the program with `BUG` where a unit of its map is missing or its group has no
header. No configuration can bring that about: the built-in one defines the units, a later one can
only add to them, and the header of the group of the interfaces is there from the start. Only the
user can, who may give `proc` another group. Otherwise, whatever the files hold that are accepted,
and whatever modules came before, the module finds each of its attributes under an id of its own.
-/

import Bmon.AttrMaps
import Bmon.ElementConf
import Bmon.HistoryConf
import Bmon.NetlinkTc
import Bmon.PolicyParse
import Bmon.ProcTotals

namespace Bmon

/-! ### The configurations -/

/-- The sections that the parser holds when a pass is made over them, without the layout. -/
structure ConfSections where
  units : List UnitSection
  file : ConfigFile
  attrs : List AttrSection
  elements : List ElementSection

/-- What the configurations have defined so far, and the configurations of elements. -/
structure Definitions where
  units : List UnitRecord
  historyDefs : List HistoryDef
  registry : AttrRegistry
  store : Store

/-- A pass: `configfile_read_units`, `configfile_read_history`, `configfile_read_attrs` and
`configfile_read_element_cfg`. -/
def confPass (conf : Definitions) (sections : ConfSections) : Quits Definitions :=
  match configfileReadUnits sections.units conf.units with
  | .error text => .error text
  | .ok units =>
    match configfileReadHistory sections.file.readInterval 0 sections.file.histories
        conf.historyDefs with
    | .error text => .error text
    | .ok historyDefs =>
      match configfileReadAttrs units sections.attrs conf.registry with
      | .error text => .error text
      | .ok registry =>
        .ok ⟨units, historyDefs, registry, configfileReadElementCfg conf.store sections.elements⟩

/-- The passes of a start, one after the other. -/
def confPasses : List ConfSections → Definitions → Quits Definitions
  | [], conf => .ok conf
  | sections :: passes, conf =>
    match confPass conf sections with
    | .error text => .error text
    | .ok conf => confPasses passes conf

/-- `UNIT_BYTE`. -/
def unitByte : CString := ⟨['b', 'y', 't', 'e'], by decide⟩

/-- `UNIT_NUMBER`. -/
def unitNumber : CString := ⟨['n', 'u', 'm', 'b', 'e', 'r'], by decide⟩

/-- A variant of a unit in the built-in configuration. -/
def defaultVariant (title : String) (div : List ℚ) (txt : List String) : VariantSection :=
  ⟨CString.ofMemory title.toList, div, txt.map fun name => CString.ofMemory name.toList⟩

/-- `default_config`, without the layout. -/
def defaultSections : ConfSections where
  units :=
    [⟨unitByte,
      [defaultVariant "default" [1, 1024, 1048576, 1073741824, 1099511627776]
          ["B", "KiB", "MiB", "GiB", "TiB"],
        defaultVariant "si" [1, 1000, 1000000, 1000000000, 1000000000000]
          ["B", "KB", "MB", "GB", "TB"],
        defaultVariant "bit" [1 / 8, 125, 125000, 125000000, 125000000000]
          ["b", "Kb", "Mb", "Gb", "Tb"]]⟩,
      ⟨CString.ofMemory ['b', 'i', 't'],
        ["default", "si", "bit"].map fun title =>
          defaultVariant title [1, 1000, 1000000, 1000000000, 1000000000000]
            ["b", "Kb", "Mb", "Gb", "Tb"]⟩,
      ⟨unitNumber, [defaultVariant "default" [1, 1000, 1000000, 1000000000, 1000000000000]
        ["", "K", "M", "G", "T"]]⟩,
      ⟨CString.ofMemory ['p', 'e', 'r', 'c', 'e', 'n', 't'], [defaultVariant "default" [1] ["%"]]⟩]
  file := defaultConfig
  attrs := []
  elements := []

/-- `DEFAULT_GROUP`. -/
def defaultGroup : CString := .ofMemory ['i', 'n', 't', 'f']

/-- The header that `group_init` adds. -/
def interfacesHdr : GroupHdr := ⟨defaultGroup, "Interfaces", ["RX bps", "pps", "TX bps", "pps"]⟩

/-- Before the first configuration. -/
def Definitions.start : Definitions :=
  ⟨[], [], .start, Store.start [interfacesHdr] [] [] []⟩

/-! ### The modules -/

/-- `link_attrs` of `in_proc.c`. -/
def procMap : List AttrMapEntry :=
  [⟨"bytes", "Bytes", unitByte, 0, .counter, {}⟩,
    ⟨"packets", "Packets", unitNumber, 0, .counter, {}⟩,
    ⟨"errors", "Errors", unitNumber, 0, .counter, {}⟩,
    ⟨"drop", "Dropped", unitNumber, 0, .counter, {}⟩,
    ⟨"compressed", "Compressed", unitNumber, 0, .counter, {}⟩,
    ⟨"fifoerr", "FIFO Error", unitNumber, 0, .counter, {}⟩,
    ⟨"frameerr", "Frame Error", unitNumber, 0, .counter, {}⟩,
    ⟨"mcast", "Multicast", unitNumber, 0, .counter, {}⟩]

/-- `link_attrs` of `in_netlink.c`. -/
def netlinkMap : List AttrMapEntry :=
  [⟨"bytes", "Bytes", unitByte, 0, .counter, {}⟩,
    ⟨"packets", "Packets", unitNumber, 0, .counter, {}⟩,
    ⟨"errors", "Errors", unitNumber, 0, .counter, {}⟩,
    ⟨"drop", "Dropped", unitNumber, 0, .counter, {}⟩,
    ⟨"compressed", "Compressed", unitNumber, 0, .counter, {}⟩,
    ⟨"nohandler", "No Handler", unitNumber, 0, .counter, {}⟩,
    ⟨"fifoerr", "FIFO Error", unitNumber, 0, .counter, {}⟩,
    ⟨"lenerr", "Length Error", unitNumber, 0, .counter, {}⟩,
    ⟨"overerr", "Over Error", unitNumber, 0, .counter, {}⟩,
    ⟨"crcerr", "CRC Error", unitNumber, 0, .counter, {}⟩,
    ⟨"frameerr", "Frame Error", unitNumber, 0, .counter, {}⟩,
    ⟨"misserr", "Missed Error", unitNumber, 0, .counter, {}⟩,
    ⟨"aborterr", "Abort Error", unitNumber, 0, .counter, {}⟩,
    ⟨"carrerr", "Carrier Error", unitNumber, 0, .counter, {}⟩,
    ⟨"hbeaterr", "Heartbeat Error", unitNumber, 0, .counter, {}⟩,
    ⟨"winerr", "Window Error", unitNumber, 0, .counter, {}⟩,
    ⟨"coll", "Collisions", unitNumber, 0, .counter, {}⟩,
    ⟨"mcast", "Multicast", unitNumber, 0, .counter, {}⟩,
    ⟨"ip6pkts", "Ip6Pkts", unitNumber, 0, .counter, {}⟩,
    ⟨"ip6discards", "Ip6Discards", unitNumber, 0, .counter, {}⟩,
    ⟨"ip6octets", "Ip6Octets", unitByte, 0, .counter, {}⟩,
    ⟨"ip6bcastp", "Ip6 Broadcast Packets", unitNumber, 0, .counter, {}⟩,
    ⟨"ip6bcast", "Ip6 Broadcast", unitByte, 0, .counter, {}⟩,
    ⟨"ip6mcastp", "Ip6 Multicast Packets", unitNumber, 0, .counter, {}⟩,
    ⟨"ip6mcast", "Ip6 Multicast", unitByte, 0, .counter, {}⟩,
    ⟨"ip6noroute", "Ip6 No Route", unitNumber, 0, .counter, {}⟩,
    ⟨"ip6forward", "Ip6 Forwarded", unitNumber, 0, .counter, {}⟩,
    ⟨"ip6delivers", "Ip6 Delivers", unitNumber, 0, .counter, {}⟩,
    ⟨"icmp6", "ICMPv6", unitNumber, 0, .counter, {}⟩,
    ⟨"icmp6err", "ICMPv6 Errors", unitNumber, 0, .counter, {}⟩,
    ⟨"icmp6csumerr", "ICMPv6 Checksum Errors", unitNumber, 0, .counter, {}⟩,
    ⟨"ip6inhdrerr", "Ip6 Header Error", unitNumber, 0, .counter, {}⟩,
    ⟨"ip6toobigerr", "Ip6 Too Big Error", unitNumber, 0, .counter, {}⟩,
    ⟨"ip6trunc", "Ip6 Truncated Packets", unitNumber, 0, .counter, {}⟩,
    ⟨"ip6unkproto", "Ip6 Unknown Protocol Error", unitNumber, 0, .counter, {}⟩,
    ⟨"ip6addrerr", "Ip6 Address Error", unitNumber, 0, .counter, {}⟩,
    ⟨"ip6csumerr", "Ip6 Checksum Error", unitNumber, 0, .counter, {}⟩,
    ⟨"ip6reasmtimeo", "Ip6 Reassembly Timeouts", unitNumber, 0, .counter, {}⟩,
    ⟨"ip6fragok", "Ip6 Reasm/Frag OK", unitNumber, 0, .counter, {}⟩,
    ⟨"ip6fragfail", "Ip6 Reasm/Frag Failures", unitNumber, 0, .counter, {}⟩,
    ⟨"ip6fragcreate", "Ip6 Reasm/Frag Requests", unitNumber, 0, .counter, {}⟩,
    ⟨"ip6noectpkts", "Ip6 Non-ECT Packets", unitNumber, 0, .counter, {}⟩,
    ⟨"ip6ect1pkts", "Ip6 ECT(1) Packets", unitNumber, 0, .counter, {}⟩,
    ⟨"ip6ect0pkts", "Ip6 ECT(0) Packets", unitNumber, 0, .counter, {}⟩,
    ⟨"ip6cepkts", "Ip6 CE Packets", unitNumber, 0, .counter, {}⟩]

/-- `tc_attrs` of `in_netlink.c`. -/
def netlinkTcMap : List AttrMapEntry :=
  [⟨"tc_bytes", "Bytes", unitByte, 0, .counter, {}⟩,
    ⟨"tc_packets", "Packets", unitNumber, 0, .counter, {}⟩,
    ⟨"tc_overlimits", "Overlimits", unitNumber, 0, .counter, {}⟩,
    ⟨"tc_drop", "Dropped", unitNumber, 0, .counter, {}⟩,
    ⟨"tc_bps", "Byte Rate/s", unitByte, 0, .rate, {}⟩,
    ⟨"tc_pps", "Packet Rate/s", unitNumber, 0, .rate, {}⟩,
    ⟨"tc_qlen", "Queue Length", unitNumber, 0, .rate, {}⟩,
    ⟨"tc_backlog", "Backlog", unitNumber, 0, .rate, {}⟩,
    ⟨"tc_requeues", "Requeues", unitNumber, 0, .counter, {}⟩]

/-- `netlink_use_bit`. -/
def netlinkUseBit (useBit : Bool) (map : List AttrMapEntry) : List AttrMapEntry :=
  map.map fun m =>
    if useBit ∧ m.description = "Bytes" then { m with description := "Bits" } else m

/-- `link_attrs` of `in_dummy.c`. -/
def dummyMap : List AttrMapEntry :=
  [⟨"bytes", "Bytes", unitByte, 0, .counter, {}⟩,
    ⟨"packets", "Packets", unitNumber, 0, .counter, {}⟩]

/-- The input modules that load a map: `netlink` with the option `use_bit`, where the caches of
libnl are there, `proc` with its option `group`, and `dummy`. -/
inductive InputModule where
  | netlink (useBit : Bool)
  | proc (cGroup : CString)
  | dummy

namespace InputModule

/-- The map that `m_init` loads. `netlink` loads its second map after the first. -/
def map : InputModule → List AttrMapEntry
  | netlink useBit => netlinkUseBit useBit (netlinkMap ++ netlinkTcMap)
  | proc _ => procMap
  | dummy => dummyMap

/-- The group that `m_init` looks up. -/
def group : InputModule → Option CString
  | netlink _ => some defaultGroup
  | proc cGroup => some cGroup
  | dummy => none

end InputModule

/-- What the modules share. -/
structure Starting where
  registry : AttrRegistry
  state : State

/-- What a module has loaded, and the group it puts its elements into. -/
structure Initialised where
  map : List AttrMapEntry
  grp : Option GroupPtr

/-- `proc_do_init`, `netlink_do_init` and `dummy_do_init`. There is no result where `BUG` ends the
program. -/
def moduleInit (cfg : Config) (units : List UnitRecord) (start : Starting) (m : InputModule) :
    Option (Starting × Initialised) :=
  let (registry, map, nfailed) := attrMapLoad units start.registry m.map
  if nfailed ≠ 0 then none
  else
    match m.group with
    | none => some (⟨registry, start.state⟩, ⟨map, none⟩)
    | some group =>
      (groupLookup start.state.store group true).2.bind fun grp =>
        (step cfg start.state (.input (.groupLookup group true))).map fun st =>
          (⟨registry, st⟩, ⟨map, some grp⟩)

/-- `module_init`, for the input modules that are enabled. -/
def moduleInits (cfg : Config) (units : List UnitRecord) :
    List InputModule → Starting → Option (Starting × List Initialised)
  | [], start => some (start, [])
  | m :: modules, start =>
    (moduleInit cfg units start m).bind fun first =>
      (moduleInits cfg units modules first.1).map fun rest => (rest.1, first.2 :: rest.2)

/-- The id that the map holds for a name. -/
def Initialised.attrid (ready : Initialised) (name : String) : Nat :=
  ((ready.map.find? fun m => m.name = name).map AttrMapEntry.attrid).getD 0

/-- What the reads of a module use. -/
def Initialised.context (ready : Initialised) (cfg : Config) (attrDefs : List AttrDef)
    (historyDefs : List HistoryDef) (now : Timestamp) : ReadContext where
  cfg := cfg
  attrDefs := attrDefs
  historyDefs := historyDefs
  attrid := ready.attrid
  now := now

/-! ### What the configurations leave -/

/-- A section with variants defines its unit. -/
theorem configfileReadUnits_mem {sections : List UnitSection} {units units' : List UnitRecord}
    (read : configfileReadUnits sections units = .ok units') {unit : UnitSection}
    (member : unit ∈ sections) (variants : unit.variants ≠ []) :
    unit.title ∈ units'.map UnitRecord.uName := by
  induction sections generalizing units with
  | nil => cases member
  | cons first rest inductionHypothesis =>
    rw [configfileReadUnits] at read
    split at read
    · next none =>
      rcases List.mem_cons.mp member with rfl | inRest
      · exact absurd (List.eq_nil_of_length_eq_zero none) variants
      · exact inductionHypothesis read inRest
    · cases added : unitAdd first.title (readVariants first.variants) units with
      | error text =>
        rw [added] at read
        cases read
      | ok next =>
        rw [added] at read
        rcases List.mem_cons.mp member with rfl | inRest
        · exact configfileReadUnits_keeps read _
            (unitAdd_mem (fun _ _ => readVariants_uName) added)
        · exact inductionHypothesis read inRest

/-- The sections define attributes as they give them, and remove none. -/
theorem configfileReadAttrs_attrDefs {units : List UnitRecord} {attrs : List AttrSection}
    {registry registry' : AttrRegistry}
    (read : configfileReadAttrs units attrs registry = .ok registry') :
    ∀ definition ∈ registry'.attrDefs,
      definition ∈ registry.attrDefs ∨ ∃ attr ∈ attrs, attr.title = definition.adName := by
  induction attrs generalizing registry with
  | nil =>
    rw [← Except.ok.inj read]
    exact fun definition member => Or.inl member
  | cons attr attrs inductionHypothesis =>
    rw [configfileReadAttrs] at read
    split at read
    · cases read
    · split at read
      · cases read
      · intro definition member
        rcases inductionHypothesis read definition member with before | ⟨other, inRest, named⟩
        · exact (registry.mem_add before).imp_right fun given =>
            ⟨attr, List.mem_cons_self, given.1.symm⟩
        · exact Or.inr ⟨other, List.mem_cons_of_mem _ inRest, named⟩

theorem readElementSection_store (σ : Store) (element : ElementSection) :
    ∃ cfgs, readElementSection σ element = { σ with cfgList := cfgs } := by
  unfold readElementSection elementCfgAlloc
  split <;> exact ⟨_, rfl⟩

/-- The `element` sections change the configurations of elements, and nothing else. -/
theorem configfileReadElementCfg_store (σ : Store) (elements : List ElementSection) :
    ∃ cfgs, configfileReadElementCfg σ elements = { σ with cfgList := cfgs } := by
  unfold configfileReadElementCfg
  induction elements generalizing σ with
  | nil => exact ⟨σ.cfgList, rfl⟩
  | cons element elements inductionHypothesis =>
    obtain ⟨cfgs, first⟩ := readElementSection_store σ element
    obtain ⟨cfgs', rest⟩ := inductionHypothesis (readElementSection σ element)
    rw [List.foldl_cons, rest, first]
    exact ⟨cfgs', rfl⟩

/-- What a pass does that is accepted. -/
theorem confPass_cases {conf next : Definitions} {sections : ConfSections}
    (read : confPass conf sections = .ok next) :
    configfileReadUnits sections.units conf.units = .ok next.units ∧
      configfileReadAttrs next.units sections.attrs conf.registry = .ok next.registry ∧
      next.store = configfileReadElementCfg conf.store sections.elements := by
  unfold confPass at read
  split at read
  · cases read
  · next units unitsRead =>
    split at read
    · cases read
    · split at read
      · cases read
      · next registry attrsRead =>
        obtain rfl := Except.ok.inj read
        exact ⟨unitsRead, attrsRead, rfl⟩

/-- What some passes leave of what was there before. -/
theorem confPasses_keeps {passes : List ConfSections} {conf last : Definitions}
    (read : confPasses passes conf = .ok last) :
    Keeps conf.units last.units ∧
      (∃ cfgs, last.store = { conf.store with cfgList := cfgs }) ∧
      ∀ definition ∈ last.registry.attrDefs, definition ∈ conf.registry.attrDefs ∨
        ∃ sections ∈ passes, ∃ attr ∈ sections.attrs, attr.title = definition.adName := by
  induction passes generalizing conf with
  | nil =>
    rw [← Except.ok.inj read]
    exact ⟨fun _ member => member, ⟨_, rfl⟩, fun _ member => Or.inl member⟩
  | cons sections passes inductionHypothesis =>
    rw [confPasses] at read
    split at read
    · cases read
    · next next first =>
      obtain ⟨units, attrs, store⟩ := confPass_cases first
      obtain ⟨kept, ⟨cfgs, rest⟩, added⟩ := inductionHypothesis read
      obtain ⟨cfgs', element⟩ := configfileReadElementCfg_store conf.store sections.elements
      refine ⟨fun name member => kept name (configfileReadUnits_keeps units name member),
        ⟨cfgs, ?_⟩, fun definition member => ?_⟩
      · rw [rest, store, element]
      · rcases added definition member with before | ⟨other, inPasses, given⟩
        · exact (configfileReadAttrs_attrDefs attrs definition before).imp_right fun given =>
            ⟨sections, List.mem_cons_self, given⟩
        · exact Or.inr ⟨other, List.mem_cons_of_mem _ inPasses, given⟩

/-- The built-in configuration defines the units of the modules, and they stay. -/
theorem confPasses_units {passes : List ConfSections} {conf : Definitions}
    (accepted : confPasses (defaultSections :: passes) .start = .ok conf) {name : CString}
    (isUnit : name = unitByte ∨ name = unitNumber) : (unitLookup conf.units name).isSome := by
  rw [unitLookup_isSome_iff]
  rw [confPasses] at accepted
  split at accepted
  · cases accepted
  · next next first =>
    obtain ⟨units, -, -⟩ := confPass_cases first
    refine (confPasses_keeps accepted).1 name ?_
    rcases isUnit with rfl | rfl
    · exact configfileReadUnits_mem units List.mem_cons_self (List.cons_ne_nil _ _)
    · exact configfileReadUnits_mem units
        (List.mem_cons_of_mem _ (List.mem_cons_of_mem _ List.mem_cons_self)) (List.cons_ne_nil _ _)

/-- Where the modules are initialised: `conf_init_post` has parsed the policy. -/
def Definitions.state (conf : Definitions) (policy : Option CString) : State :=
  ⟨elementParsePolicy conf.store policy, Selection.start⟩

/-- There are no elements and no groups yet, and the header of the interfaces is there. -/
theorem Definitions.state_eq {passes : List ConfSections} {conf : Definitions}
    (accepted : confPasses passes .start = .ok conf) (policy : Option CString) :
    ∃ cfgs allowed denied, conf.state policy = State.start [interfacesHdr] cfgs allowed denied := by
  obtain ⟨-, ⟨cfgs, store⟩, -⟩ := confPasses_keeps accepted
  have policies (σ : Store) (pieces : List CString) : ∃ allowed denied,
      pieces.foldl addPolicy σ = { σ with allowed := allowed, denied := denied } := by
    induction pieces generalizing σ with
    | nil => exact ⟨_, _, rfl⟩
    | cons tok pieces inductionHypothesis =>
      obtain ⟨allowed, denied, rest⟩ := inductionHypothesis (addPolicy σ tok)
      rw [List.foldl_cons, rest, addPolicy]
      split <;> exact ⟨_, _, rfl⟩
  unfold Definitions.state elementParsePolicy
  rw [store]
  cases policy with
  | none => exact ⟨cfgs, [], [], rfl⟩
  | some policy =>
    obtain ⟨allowed, denied, parsed⟩ :=
      policies { Definitions.start.store with cfgList := cfgs } policy.pieces
    refine ⟨cfgs, allowed, denied, ?_⟩
    rw [Option.elim_some, parsed]
    rfl

/-! ### What a module finds -/

/-- Whether the maps make an attribute a rate. -/
def isRate (name : String) : Bool := name ∈ ["tc_bps", "tc_pps", "tc_qlen", "tc_backlog"]

/-- All maps give an attribute of a name the same type, and no flags. -/
structure AttrMapEntry.Plain (m : AttrMapEntry) : Prop where
  type : m.type = if isRate m.name then .rate else .counter
  flags : m.flags = {}
  unit : m.unit = unitByte ∨ m.unit = unitNumber

instance (m : AttrMapEntry) : Decidable m.Plain :=
  decidable_of_iff (m.type = (if isRate m.name then .rate else .counter) ∧ m.flags = {} ∧
    (m.unit = unitByte ∨ m.unit = unitNumber))
    ⟨fun plain => ⟨plain.1, plain.2.1, plain.2.2⟩, fun plain => ⟨plain.1, plain.2, plain.3⟩⟩

/-- The option `use_bit` changes descriptions. -/
theorem netlinkUseBit_names (useBit : Bool) (map : List AttrMapEntry) :
    (netlinkUseBit useBit map).map AttrMapEntry.name = map.map AttrMapEntry.name := by
  unfold netlinkUseBit
  rw [List.map_map]
  refine List.map_congr_left fun m _ => ?_
  rw [Function.comp_apply]
  split <;> rfl

/-- The maps of the modules are plain. -/
theorem InputModule.plain (module : InputModule) {m : AttrMapEntry} (member : m ∈ module.map) :
    m.Plain := by
  cases module with
  | netlink useBit =>
    obtain ⟨m', inMap, rfl⟩ := List.mem_map.mp member
    have plain : ∀ m ∈ netlinkMap ++ netlinkTcMap, m.Plain := by decide +kernel
    split
    · exact ⟨(plain m' inMap).type, (plain m' inMap).flags, (plain m' inMap).unit⟩
    · exact plain m' inMap
  | proc cGroup =>
    have plain : ∀ m ∈ procMap, m.Plain := by decide +kernel
    exact plain m member
  | dummy =>
    have plain : ∀ m ∈ dummyMap, m.Plain := by decide +kernel
    exact plain m member

/-- What the initialisation of modules keeps. -/
structure Starting.Grows (start next : Starting) : Prop where
  attrDefs : start.registry.attrDefs ⊆ next.registry.attrDefs
  valid : next.state.Valid
  elements : next.state.store.elements = start.state.store.elements
  lists : next.state.store.lists = start.state.store.lists
  titlesList : next.state.store.titlesList = start.state.store.titlesList
  allows : next.state.store.allows = start.state.store.allows
  groups : ∀ name g, start.state.store.groupNamed name = some g →
    next.state.store.groupNamed name = some g

theorem Starting.Grows.refl {start : Starting} (valid : start.state.Valid) : start.Grows start :=
  ⟨List.Subset.refl _, valid, rfl, rfl, rfl, rfl, fun _ _ named => named⟩

theorem Starting.Grows.trans {start next last : Starting} (first : start.Grows next)
    (rest : next.Grows last) : start.Grows last where
  attrDefs := List.Subset.trans first.attrDefs rest.attrDefs
  valid := rest.valid
  elements := rest.elements.trans first.elements
  lists := rest.lists.trans first.lists
  titlesList := rest.titlesList.trans first.titlesList
  allows := rest.allows.trans first.allows
  groups name g named := rest.groups name g (first.groups name g named)

/-- A definition is one of the configuration, or as the maps give it. -/
def AttrRegistry.From (registry configured : AttrRegistry) : Prop :=
  ∀ definition ∈ registry.attrDefs, definition ∈ configured.attrDefs ∨
    definition.adType = (if isRate definition.adName then .rate else .counter) ∧
      definition.adFlags = {}

/-- A module has the id of each attribute of its map, and its group. -/
structure Initialised.Finds (ready : Initialised) (m : InputModule) (last : Starting) : Prop where
  ids : ∀ entry ∈ m.map, ∃ definition ∈ last.registry.attrDefs,
    definition.adName = entry.name ∧ definition.adId = ready.attrid entry.name
  grouped : ∀ group ∈ m.group, ∃ g, ready.grp = some g ∧
    last.state.store.groupNamed group = some g

/-- What a module has found stays where it is. -/
theorem Initialised.Finds.grows {ready : Initialised} {m : InputModule} {next last : Starting}
    (finds : ready.Finds m next) (grows : next.Grows last) : ready.Finds m last where
  ids entry member := by
    obtain ⟨definition, inList, given⟩ := finds.ids entry member
    exact ⟨definition, grows.attrDefs inList, given⟩
  grouped group isGroup := by
    obtain ⟨g, isGrp, named⟩ := finds.grouped group isGroup
    exact ⟨g, isGrp, grows.groups group g named⟩

section

variable {units : List UnitRecord} {configured : AttrRegistry} {start : Starting}

/-- A module whose group has a header is initialised. -/
theorem moduleInit_finds
    (known : ∀ name, name = unitByte ∨ name = unitNumber → (unitLookup units name).isSome)
    (valid : start.state.Valid) (origin : start.registry.From configured) (cfg : Config)
    {m : InputModule}
    (header : ∀ group ∈ m.group, (groupLookupHdr start.state.store group).isSome) :
    ∃ next ready, moduleInit cfg units start m = some (next, ready) ∧ start.Grows next ∧
      next.registry.From configured ∧ ready.Finds m next := by
  obtain ⟨succeeds, sameNames, ids⟩ := attrMapLoad_map units start.registry m.map
    fun entry member => known entry.unit (m.plain member).unit
  obtain ⟨kept, added⟩ := attrMapLoad_attrDefs units start.registry m.map
  obtain ⟨loaded, isLoaded⟩ : ∃ loaded, attrMapLoad units start.registry m.map = loaded := ⟨_, rfl⟩
  rw [isLoaded] at succeeds sameNames ids kept added
  have fromMaps : loaded.1.From configured := fun definition member => by
    rcases added definition member with old | ⟨entry, inMap, named, type, flags⟩
    · exact origin definition old
    · have plain := m.plain inMap
      exact Or.inr ⟨by rw [type, plain.type, named], flags.trans plain.flags⟩
  have found : ∀ grp, ∀ entry ∈ m.map, ∃ definition ∈ loaded.1.attrDefs,
      definition.adName = entry.name ∧
        definition.adId = Initialised.attrid ⟨loaded.2.1, grp⟩ entry.name := by
    intro grp entry member
    have inNames : entry.name ∈ loaded.2.1.map AttrMapEntry.name :=
      sameNames ▸ List.mem_map_of_mem member
    unfold Initialised.attrid
    cases found : loaded.2.1.find? fun other => other.name = entry.name with
    | none =>
      obtain ⟨other, inMap, named⟩ := List.mem_map.mp inNames
      exact absurd (decide_eq_true named) (List.find?_eq_none.mp found other inMap)
    | some other =>
      have matched := List.find?_some found
      obtain ⟨definition, inList, isName, isId⟩ := ids other (List.mem_of_find?_eq_some found)
      exact ⟨definition, inList, isName.trans (of_decide_eq_true matched), isId⟩
  cases isGroup : m.group with
  | none =>
    refine ⟨⟨loaded.1, start.state⟩, ⟨loaded.2.1, none⟩, ?_,
      ⟨kept, valid, rfl, rfl, rfl, rfl, fun _ _ named => named⟩, fromMaps,
      ⟨found none, fun group some => ?_⟩⟩
    · unfold moduleInit
      rw [isLoaded, isGroup]
      exact if_neg (not_not.mpr succeeds)
    · rw [isGroup] at some
      cases some
  | some group =>
    obtain ⟨grp, looked⟩ := groupLookup_returns (Or.inr (header group isGroup))
    obtain ⟨next, stepped⟩ : ∃ next,
        step cfg start.state (.input (.groupLookup group true)) = some next := ⟨_, rfl⟩
    have store : next.store = (groupLookup start.state.store group true).1 := by
      obtain rfl := Option.some.inj stepped
      rfl
    have finds : FindsGroup group grp start.state.store next.store :=
      groupLookup_some valid.store (Prod.ext store.symm looked)
    refine ⟨⟨loaded.1, next⟩, ⟨loaded.2.1, some grp⟩, ?_,
      ⟨kept, step_valid valid stepped, finds.elements, finds.lists, finds.titlesList, finds.allows,
        finds.old⟩, fromMaps, ⟨found _, fun other some => ⟨grp, rfl, ?_⟩⟩⟩
    · unfold moduleInit
      rw [isLoaded, isGroup]
      simp only
      rw [looked, stepped]
      exact if_neg (not_not.mpr succeeds)
    · rw [isGroup] at some
      obtain rfl := Option.some.inj some
      exact finds.named

/-- So are some modules, and what each has found stays. -/
theorem moduleInits_find (start : Starting)
    (known : ∀ name, name = unitByte ∨ name = unitNumber → (unitLookup units name).isSome)
    (valid : start.state.Valid) (origin : start.registry.From configured) (cfg : Config)
    (modules : List InputModule)
    (headers : ∀ m ∈ modules, ∀ group ∈ m.group,
      (groupLookupHdr start.state.store group).isSome) :
    ∃ last ready, moduleInits cfg units modules start = some (last, ready) ∧ start.Grows last ∧
      last.registry.From configured ∧
      List.Forall₂ (fun m ready => ready.Finds m last) modules ready := by
  induction modules generalizing start with
  | nil => exact ⟨start, [], rfl, .refl valid, origin, .nil⟩
  | cons m modules inductionHypothesis =>
    obtain ⟨next, first, initialised, grows, fromMaps, finds⟩ :=
      moduleInit_finds known valid origin cfg (headers m List.mem_cons_self)
    obtain ⟨last, rest, initialisedRest, growsRest, fromRest, findRest⟩ :=
      inductionHypothesis next grows.valid fromMaps fun other member group isGroup => by
        unfold groupLookupHdr
        rw [grows.titlesList]
        exact headers other (List.mem_cons_of_mem _ member) group isGroup
    refine ⟨last, first :: rest, ?_, grows.trans growsRest, fromRest,
      .cons (finds.grows growsRest) findRest⟩
    rw [moduleInits, initialised, Option.bind_some]
    simp only [initialisedRest, Option.map_some]

end

/-- What the results about the reads of a module ask of its attributes. -/
def InputModule.Reads : InputModule → ReadContext → Prop
  | netlink _, ctx => ctx.Loaded
  | proc _, ctx => ctx.MapsLinks ∧ ctx.Defined
  | dummy, ctx => ctx.Defined

section

variable {ready : Initialised} {m : InputModule} {last : Starting}

/-- A name of the map is defined. -/
theorem Initialised.Finds.isSome (finds : ready.Finds m last) {name : String}
    (member : name ∈ m.map.map AttrMapEntry.name) :
    (attrDefLookup last.registry.attrDefs name).isSome := by
  obtain ⟨entry, inMap, rfl⟩ := List.mem_map.mp member
  obtain ⟨definition, inList, named, -⟩ := finds.ids entry inMap
  rw [last.registry.attrDefLookup_eq_some_iff.mpr ⟨inList, named⟩]
  rfl

/-- Its id is that of a definition with this name. -/
theorem Initialised.Finds.lookupId (finds : ready.Finds m last) {name : String}
    (member : name ∈ m.map.map AttrMapEntry.name) :
    ∃ definition ∈ last.registry.attrDefs, definition.adName = name ∧
      attrDefLookupId last.registry.attrDefs (ready.attrid name) = some definition := by
  obtain ⟨entry, inMap, rfl⟩ := List.mem_map.mp member
  obtain ⟨definition, inList, named, isId⟩ := finds.ids entry inMap
  exact ⟨definition, inList, named,
    last.registry.attrDefLookupId_eq_some_iff.mpr ⟨inList, isId⟩⟩

/-- The attributes are there for the reads of the module. -/
theorem Initialised.Finds.reads (finds : ready.Finds m last) (cfg : Config)
    (historyDefs : List HistoryDef) (now : Timestamp) :
    m.Reads (ready.context cfg last.registry.attrDefs historyDefs now) := by
  cases m with
  | netlink useBit =>
    have names : (InputModule.netlink useBit).map.map AttrMapEntry.name =
        (netlinkMap ++ netlinkTcMap).map AttrMapEntry.name := netlinkUseBit_names _ _
    refine ⟨⟨finds.isSome ?_, finds.isSome ?_⟩, finds.isSome ?_, finds.isSome ?_⟩
    all_goals
      rw [names]
      decide +kernel
  | proc cGroup =>
    have inMap : ∀ entry ∈ procLinkAttrs, entry.2 ∈ procMap.map AttrMapEntry.name := by decide
    refine ⟨⟨?_, fun entry member => ?_⟩, finds.isSome (inMap (.bytes, "bytes") (by decide)),
      finds.isSome (inMap (.packets, "packets") (by decide))⟩
    · refine List.Nodup.map_on (fun entry member entry' member' same => ?_) (by decide)
      obtain ⟨definition, -, named, found⟩ := finds.lookupId (inMap entry member)
      obtain ⟨definition', -, named', found'⟩ := finds.lookupId (inMap entry' member')
      have sameDef : definition = definition' :=
        Option.some.inj (found.symm.trans ((congrArg _ same).trans found'))
      have names : ∀ entry ∈ procLinkAttrs, ∀ entry' ∈ procLinkAttrs,
          entry.2 = entry'.2 → entry = entry' := by decide
      exact names entry member entry' member' (named.symm.trans ((congrArg _ sameDef).trans named'))
    · obtain ⟨definition, -, -, found⟩ := finds.lookupId (inMap entry member)
      exact Option.isSome_iff_exists.mpr ⟨definition, found⟩
  | dummy =>
    exact ⟨finds.isSome (by decide), finds.isSome (by decide)⟩

end

/-- Where the modules are initialised, only the group of the interfaces has a header, and there are
no groups. -/
theorem groupLookupHdr_state {passes : List ConfSections} {conf : Definitions}
    (accepted : confPasses passes .start = .ok conf) (policy : Option CString) (group : CString) :
    (groupLookupHdr (conf.state policy).store group).isSome ↔ group = defaultGroup := by
  obtain ⟨cfgs, allowed, denied, isStart⟩ := Definitions.state_eq accepted policy
  have titles : (conf.state policy).store.titlesList = [interfacesHdr] := by rw [isStart]; rfl
  rw [groupLookupHdr, titles, List.find?_isSome]
  simp only [List.mem_singleton, exists_eq_left, decide_eq_true_iff]
  exact eq_comm

/-- What is there when `conf` has been read and a module has been initialised whose elements go to
the group `g`: the attributes and the group of the module, and no elements. -/
structure Definitions.Started (conf : Definitions) (policy : Option CString) (m : InputModule)
    (start : Starting) (ready : Initialised) (g : GroupPtr) : Prop where
  isGrp : ready.grp = some g
  finds : ready.Finds m start
  origin : start.registry.From conf.registry
  valid : start.state.Valid
  isGroup : g ∈ start.state.store.groupList
  empty : start.state.store.lists (.ofGroup g) = []
  noHistories : start.state.store.PositiveIntervals
  allows : start.state.store.allows = (conf.state policy).store.allows

/-- The initialisation of a module whose group is the one of the interfaces comes to its end. -/
theorem moduleInits_started {passes : List ConfSections} {conf : Definitions}
    (accepted : confPasses (defaultSections :: passes) .start = .ok conf) (cfg : Config)
    (policy : Option CString) {m : InputModule} (interfaces : m.group = some defaultGroup) :
    ∃ start ready g, moduleInits cfg conf.units [m] ⟨conf.registry, conf.state policy⟩ =
        some (start, [ready]) ∧ conf.Started policy m start ready g := by
  obtain ⟨cfgs, allowed, denied, isStart⟩ := Definitions.state_eq accepted policy
  have initial : (conf.state policy).Valid := by
    rw [isStart]
    exact valid_stateStart _ _ _ _
  obtain ⟨start, readies, initialised, grows, origin, find⟩ :=
    moduleInits_find ⟨conf.registry, conf.state policy⟩
      (fun name => confPasses_units accepted) initial (fun definition member => Or.inl member) cfg
      [m] fun other member group isGroup => by
        obtain rfl := List.mem_singleton.mp member
        exact (groupLookupHdr_state accepted policy group).mpr
          (Option.some.inj (isGroup.symm.trans interfaces))
  obtain ⟨ready, rest, finds, none, rfl⟩ := List.forall₂_cons_left_iff.mp find
  obtain rfl := List.forall₂_nil_left_iff.mp none
  obtain ⟨g, isGrp, named⟩ := finds.grouped defaultGroup interfaces
  refine ⟨start, ready, g, initialised, isGrp, finds, origin, grows.valid,
    (groupNamed_eq_some named).1, ?_, fun e r isElement => ?_, grows.allows⟩
  · rw [grows.lists, isStart]
    rfl
  · rw [grows.elements, isStart] at isElement
    cases isElement

/-! ### The program with `proc` -/

/-- A file of the user: a unit in powers of 1000, and an attribute as a rate. -/
def userSections : ConfSections where
  units := [⟨unitByte, [defaultVariant "default" [1, 1000] ["B", "KB"]]⟩]
  file := { histories := [] }
  attrs := [{ title := "drop", unit := unitNumber, type := "rate" }]
  elements := []

/-- It is accepted, and `eth0` is in the last file that is read. -/
theorem userSections_accepted :
    ∃ conf, confPasses [defaultSections, userSections] .start = .ok conf ∧
      SoundHistories conf.historyDefs ∧
      ∃ c ∈ counterWraps.reverse.take (sweepsLeft (getLifecycles procContext.cfg) - 1),
        eth0 ∈ acceptedNames (conf.state none).store.allows c.content := by
  have checked : (confPasses [defaultSections, userSections] .start).toOption.any (fun conf =>
      ((∀ d ∈ conf.historyDefs, 0 < d.hdInterval) ∧ ∀ d ∈ conf.historyDefs, 1 ≤ d.hdSize) ∧
      ∃ c ∈ counterWraps.reverse.take (sweepsLeft (getLifecycles procContext.cfg) - 1),
        eth0 ∈ acceptedNames (conf.state none).store.allows c.content) = true := by decide +kernel
  obtain ⟨conf, read, holds⟩ := (Option.any_eq_true _ _).mp checked
  cases accepted : confPasses [defaultSections, userSections] .start with
  | error text =>
    rw [accepted] at read
    cases read
  | ok conf' =>
    rw [accepted] at read
    obtain rfl := Option.some.inj read
    obtain ⟨⟨intervals, sizes⟩, present⟩ := of_decide_eq_true holds
    exact ⟨conf', rfl, ⟨intervals, sizes⟩, present⟩

end Bmon
