/-
This file follows the readings of an interface from the lines of the file to the totals that are
shown.

An interface is kept from the read that brings it until it has been missing for as many reads as
its time to live. While it is kept, each of its attributes is a machine of its own: what it holds,
histories and all, is what its readings alone make of a new attribute. So the total of a counter
is its last reading, and `2 ^ 32` for every reading below the one before it.
-/

import Bmon.AttrRecords
import Bmon.Overflow
import Bmon.ProcFormat
import Bmon.ProcInterface
import Bmon.ProcLeases

namespace Bmon

/-! ### The attributes of an interface -/

/-- What a line does to one of the attributes. -/
def ProcLine.events (line : ProcLine) (value : ProcValue) (now : Timestamp) : List AttrEvent :=
  [.update (line.rx value) (line.tx value) procFlags now, .notify now]

/-- What some lines, each with the time of its read, do to one of the attributes. -/
def lineEvents (value : ProcValue) (own : List (Timestamp × ProcLine)) : List AttrEvent :=
  own.flatMap fun line => line.2.events value line.1

/-- The lines of some reads, each with the time of its read. -/
def timedLines (reads : List (Timestamp × List ProcLine)) : List (Timestamp × ProcLine) :=
  reads.flatMap fun read => read.2.map fun line => (read.1, line)

namespace ReadContext

variable (ctx : ReadContext)

/-- Every attribute of `link_attrs` is defined, under an id of its own. -/
structure MapsLinks : Prop where
  distinct : (procLinkAttrs.map fun entry => ctx.attrid entry.2).Nodup
  known : ∀ entry ∈ procLinkAttrs, (attrDefLookupId ctx.attrDefs (ctx.attrid entry.2)).isSome

/-- The key attributes of an interface. -/
def keyAttr : GroupColumn → Option AttrDef
  | .major => attrDefLookup ctx.attrDefs "bytes"
  | .minor => attrDefLookup ctx.attrDefs "packets"

/-- An attribute of an interface that has not been read yet. -/
def newAttr (definition : AttrDef) : Attr :=
  attrNew ctx.cfg ctx.historyDefs { AttrTable.empty with eKeyAttr := ctx.keyAttr } definition

/-- The calls of `attr_update` for some entries of `link_attrs`. -/
def updateCalls (entries : List (ProcValue × String)) (now : Timestamp) (line : ProcLine) :
    List ElementOp :=
  entries.map fun entry => .attrUpdate ctx.attrDefs ctx.historyDefs (ctx.attrid entry.2)
    (line.rx entry.1) (line.tx entry.1) procFlags now

end ReadContext

/-- An interface holds what some lines make of its attributes. -/
structure Interface.Follows (ctx : ReadContext) (fuel : Nat)
    (own : List (Timestamp × ProcLine)) (i : Interface) : Prop where
  filled : i.eAttrs.Filled
  setUp : i.created = false
  keyed : i.eAttrs.eKeyAttr = ctx.keyAttr
  records : ∀ entry ∈ procLinkAttrs, ∀ definition,
    attrDefLookupId ctx.attrDefs (ctx.attrid entry.2) = some definition →
      ∃ a, attrRun ctx.cfg fuel (ctx.newAttr definition) (lineEvents entry.1 own) = some a ∧
        i.eAttrs.record (ctx.attrid entry.2) = if own = [] then none else some a

/-- The key attributes decide which histories a new attribute gets. -/
theorem attrNew_congr (cfg : Config) (historyDefs : List HistoryDef) {t t' : AttrTable}
    (same : t.eKeyAttr = t'.eKeyAttr) (definition : AttrDef) :
    attrNew cfg historyDefs t definition = attrNew cfg historyDefs t' definition := by
  unfold attrNew collectHistory
  rw [same]

/-- An attribute that has not been read yet has both rates at zero. -/
theorem ReadContext.newAttr_fields (ctx : ReadContext) (definition : AttrDef) :
    (∀ direction, (ctx.newAttr definition).rate direction = Rate.zero) ∧
      (ctx.newAttr definition).aDef = definition ∧
      (ctx.newAttr definition).aFlags.ignoreOverflows = definition.adFlags.ignoreOverflows ∧
      (ctx.newAttr definition).aFlags.true64bit = definition.adFlags.true64bit :=
  attrNew_fields ctx.cfg ctx.historyDefs _ definition

theorem attrUpdate_eKeyAttr (cfg : Config) (attrDefs : List AttrDef)
    (historyDefs : List HistoryDef) (t : AttrTable) (id : Nat) (rx tx : UInt64)
    (flags : UpdateFlags) (now : Timestamp) :
    (attrUpdate cfg attrDefs historyDefs t id rx tx flags now).eKeyAttr = t.eKeyAttr := by
  unfold attrUpdate
  split
  · rfl
  · split <;> rfl

section

variable {ctx : ReadContext} {fuel : Nat} {i next : Interface}
variable {own : List (Timestamp × ProcLine)} {now : Timestamp} {line : ProcLine}

/-- The calls of `attr_update` store each reading in the record of its attribute. -/
theorem run_updateCalls {entries : List (ProcValue × String)}
    (distinct : (entries.map fun entry => ctx.attrid entry.2).Nodup) (filled : i.eAttrs.Filled)
    (ran : Runs.run (Interface.apply ctx.cfg) i (ctx.updateCalls entries now line) = some next) :
    next.eAttrs.Filled ∧ next.created = i.created ∧ next.eAttrs.eKeyAttr = i.eAttrs.eKeyAttr ∧
      (∀ id, id ∉ entries.map (fun entry => ctx.attrid entry.2) →
        next.eAttrs.record id = i.eAttrs.record id) ∧
      ∀ entry ∈ entries, ∀ definition,
        attrDefLookupId ctx.attrDefs (ctx.attrid entry.2) = some definition →
          next.eAttrs.record (ctx.attrid entry.2) =
            some (attrStore ((i.eAttrs.record (ctx.attrid entry.2)).getD
              (attrNew ctx.cfg ctx.historyDefs i.eAttrs definition)) (line.rx entry.1)
                (line.tx entry.1) procFlags now) := by
  induction entries generalizing i with
  | nil =>
    obtain rfl := Option.some.inj ran
    exact ⟨filled, rfl, rfl, fun _ _ => rfl, fun entry member => by cases member⟩
  | cons first rest inductionHypothesis =>
    rw [ReadContext.updateCalls, List.map_cons, Runs.run, List.foldlM_cons] at ran
    obtain ⟨middle, updated, ranRest⟩ := Option.bind_eq_some_iff.mp ran
    obtain ⟨fresh, distinctRest⟩ := List.nodup_cons.mp distinct
    obtain ⟨table, isTable⟩ : ∃ table, attrUpdate ctx.cfg ctx.attrDefs ctx.historyDefs i.eAttrs
        (ctx.attrid first.2) (line.rx first.1) (line.tx first.1) procFlags now = table := ⟨_, rfl⟩
    have filledTable : table.Filled := isTable ▸ filled.attrUpdate ctx.cfg ctx.attrDefs
      ctx.historyDefs (ctx.attrid first.2) (line.rx first.1) (line.tx first.1) procFlags now
    have keysTable : table.eKeyAttr = i.eAttrs.eKeyAttr := isTable ▸ attrUpdate_eKeyAttr ..
    have frame : ∀ id, ctx.attrid first.2 ≠ id → table.record id = i.eAttrs.record id :=
      fun id apart => isTable ▸ filled.record_attrUpdate ctx.cfg ctx.attrDefs ctx.historyDefs
        (line.rx first.1) (line.tx first.1) procFlags now apart
    have isMiddle : some { i with eAttrs := table } = some middle := isTable ▸ updated
    obtain rfl := Option.some.inj isMiddle
    obtain ⟨filled', created, keys, others, stored⟩ :=
      inductionHypothesis distinctRest filledTable ranRest
    refine ⟨filled', created, keys.trans keysTable, fun id absent => ?_,
      fun entry member definition known => ?_⟩
    · rw [List.map_cons, List.mem_cons, not_or] at absent
      exact (others id absent.2).trans (frame id (Ne.symm absent.1))
    · rcases List.mem_cons.mp member with rfl | inRest
      · refine (others _ fresh).trans ?_
        rw [← isTable]
        exact record_attrUpdate_self ctx.cfg ctx.historyDefs i.eAttrs _ _ procFlags now known
      · have apart : ctx.attrid first.2 ≠ ctx.attrid entry.2 := fun same =>
          fresh (List.mem_map.mpr ⟨entry, inRest, same.symm⟩)
        rw [stored entry inRest definition known]
        simp only
        rw [frame _ apart, attrNew_congr ctx.cfg ctx.historyDefs keysTable definition]

/-- What a line does to an interface that is set up. -/
theorem Interface.Follows.feed (follows : i.Follows ctx fuel own)
    (distinct : (procLinkAttrs.map fun entry => ctx.attrid entry.2).Nodup)
    (ran : Runs.run (Interface.apply ctx.cfg) i
      ((ctx.atTime now).feedCalls fuel procFlags line.readings) = some next) :
    next.Follows ctx fuel (own ++ [(now, line)]) := by
  have calls : (ctx.atTime now).feedCalls fuel procFlags line.readings =
      ctx.updateCalls procLinkAttrs now line ++ [.notifyUpdate fuel now, .lifesign] := rfl
  rw [calls] at ran
  obtain ⟨stored, ranUpdates, ranRest⟩ := Runs.run_append.mp ran
  obtain ⟨filledStored, created, keys, -, records⟩ :=
    run_updateCalls distinct follows.filled ranUpdates
  obtain ⟨notified, ranNotify, ranLifesign⟩ := Option.bind_eq_some_iff.mp ranRest
  obtain ⟨attrs, passed, rfl⟩ := Option.map_eq_some_iff.mp ranNotify
  obtain rfl := Option.some.inj ranLifesign
  obtain ⟨filledAll, keysAll, notifies⟩ := record_notifyAll filledStored passed
  refine ⟨filledAll, created.trans follows.setUp, keysAll.trans (keys.trans follows.keyed),
    fun entry member definition known => ?_⟩
  obtain ⟨a, ranBefore, before⟩ := follows.records entry member definition known
  have start : (i.eAttrs.record (ctx.attrid entry.2)).getD
      (attrNew ctx.cfg ctx.historyDefs i.eAttrs definition) = a := by
    rw [before]
    split_ifs with none
    · rw [none] at ranBefore
      rw [Option.getD_none, ← Option.some.inj ranBefore]
      exact attrNew_congr ctx.cfg ctx.historyDefs follows.keyed definition
    · rfl
  obtain ⟨a', updated, isRecord⟩ :=
    notifies _ _ ((records entry member definition known).trans (by rw [start]))
  refine ⟨a', ?_, ?_⟩
  · rw [lineEvents, List.flatMap_append]
    refine attrRun_append.mpr ⟨a, ranBefore, ?_⟩
    show attrRun ctx.cfg fuel a (line.events entry.1 now ++ []) = some a'
    rw [List.append_nil, ProcLine.events, attrRun, attrStep, Option.bind_some, attrRun, attrStep,
      updated]
    rfl
  · rw [if_neg (List.append_ne_nil_of_right_ne_nil own (List.cons_ne_nil _ []))]
    exact isRecord

/-- A new interface that has been set up. -/
theorem Interface.follows_setUp {calls : List ElementOp}
    (setUp : (Interface.fresh ctx.cfg).setUpCalls ctx = some calls)
    (ran : Runs.run (Interface.apply ctx.cfg) (Interface.fresh ctx.cfg) calls = some i) :
    i.Follows ctx fuel [] := by
  unfold Interface.setUpCalls at setUp
  rw [if_pos (show (Interface.fresh ctx.cfg).created = true from rfl)] at setUp
  split_ifs at setUp with both
  obtain rfl := Option.some.inj setUp
  obtain rfl := Option.some.inj ran
  have major : ¬(attrDefLookup ctx.attrDefs "bytes").isNone := by
    rw [Option.isNone_iff_eq_none]
    exact Option.ne_none_iff_isSome.mpr both.1
  refine ⟨?_, rfl, ?_, fun entry member definition known => ⟨ctx.newAttr definition, rfl, ?_⟩⟩
  · simp only [Interface.fresh, if_neg major]
    exact ⟨List.nodup_nil, fun _ => rfl, List.Perm.refl _, rfl⟩
  · simp only [Interface.fresh, if_neg major]
    funext column
    cases column <;> rfl
  · simp only [Interface.fresh, if_neg major, if_true]
    rfl

/-- What is kept of an interface is what some lines make of it. -/
def FollowsLines (ctx : ReadContext) (fuel : Nat) (own : List (Timestamp × ProcLine)) :
    Option Interface → Prop
  | none => own = []
  | some i => own ≠ [] ∧ i.Follows ctx fuel own

/-- A line of the interface. -/
theorem FollowsLines.feedLine {i next : Option Interface} (follows : FollowsLines ctx fuel own i)
    (distinct : (procLinkAttrs.map fun entry => ctx.attrid entry.2).Nodup)
    (fed : Interface.feedLine (ctx.atTime now) fuel i line = some next) :
    FollowsLines ctx fuel (own ++ [(now, line)]) next := by
  obtain ⟨calls, setUp, fedCalls⟩ := Option.bind_eq_some_iff.mp fed
  obtain ⟨j, ran, rfl⟩ := Option.map_eq_some_iff.mp fedCalls
  refine ⟨List.append_ne_nil_of_right_ne_nil own (List.cons_ne_nil _ []), ?_⟩
  obtain ⟨started, ranSetUp, ranFeed⟩ := Runs.run_append.mp ran
  cases i with
  | none =>
    obtain rfl : own = [] := follows
    have new : started.Follows ctx fuel [] := Interface.follows_setUp setUp ranSetUp
    exact new.feed distinct ranFeed
  | some i =>
    obtain ⟨-, before⟩ := follows
    have none : i.setUpCalls (ctx.atTime now) = some [] := if_neg (by rw [before.setUp]; decide)
    rw [Option.getD_some, none] at setUp
    obtain rfl := Option.some.inj setUp
    obtain rfl := Option.some.inj ranSetUp
    exact before.feed distinct ranFeed

/-- The lines of a read. -/
theorem FollowsLines.run {i next : Option Interface} (follows : FollowsLines ctx fuel own i)
    (distinct : (procLinkAttrs.map fun entry => ctx.attrid entry.2).Nodup)
    {lines : List ProcLine}
    (fed : Runs.run (Interface.feedLine (ctx.atTime now) fuel) i lines = some next) :
    FollowsLines ctx fuel (own ++ lines.map fun line => (now, line)) next := by
  have turned := Runs.run_foldl (FollowsLines ctx fuel)
    (fun own line => own ++ [(now, line)])
    (fun own i line _ next before fedLine => before.feedLine distinct fedLine) follows fed
  rwa [List.foldl_append_eq_append, ← List.flatMap_def, ← List.map_eq_flatMap] at turned

/-- A sweep leaves what is kept, or nothing. -/
theorem FollowsLines.sweep {i : Option Interface} (follows : FollowsLines ctx fuel own i) :
    Interface.sweep i = none ∨ FollowsLines ctx fuel own (Interface.sweep i) := by
  cases i with
  | none => exact Or.inl rfl
  | some i =>
    rw [Interface.sweep, Option.bind_some]
    split_ifs
    · exact Or.inl rfl
    · exact Or.inr ⟨follows.1, follows.2.filled, follows.2.setUp, follows.2.keyed,
        follows.2.records⟩

/-- What is kept after some turns is what the lines make of it that were read since the
interface was last missing. -/
theorem turns_since (distinct : (procLinkAttrs.map fun entry => ctx.attrid entry.2).Nodup)
    {turns : List (Timestamp × List ProcLine)} {i : Interface}
    (ran : Runs.run (Interface.turn ctx fuel) none turns = some (some i)) :
    ∃ before since, turns = before ++ since ∧
      Runs.run (Interface.turn ctx fuel) none before = some none ∧
      (∀ further, further <+: since → further ≠ [] → ∀ kept,
        Runs.run (Interface.turn ctx fuel) none (before ++ further) = some kept → kept.isSome) ∧
      FollowsLines ctx fuel (timedLines since) (some i) := by
  induction turns using List.reverseRecOn generalizing i with
  | nil => cases ran
  | append_singleton earlier turn inductionHypothesis =>
    obtain ⟨middle, ranEarlier, ranTurn⟩ := Runs.run_append.mp ran
    obtain ⟨after, turned, same⟩ := Option.bind_eq_some_iff.mp ranTurn
    obtain rfl := Option.some.inj same
    obtain ⟨fed, ranLines, swept⟩ := Option.map_eq_some_iff.mp turned
    obtain ⟨before, since, rfl, missing, present, follows⟩ : ∃ before since,
        earlier = before ++ since ∧
        Runs.run (Interface.turn ctx fuel) none before = some none ∧
        (∀ further, further <+: since → further ≠ [] → ∀ kept,
          Runs.run (Interface.turn ctx fuel) none (before ++ further) = some kept → kept.isSome) ∧
        FollowsLines ctx fuel (timedLines since) middle := by
      cases middle with
      | none =>
        refine ⟨earlier, [], (List.append_nil _).symm, ranEarlier, fun further none some => ?_, rfl⟩
        exact absurd (List.prefix_nil.mp none) some
      | some i => exact inductionHypothesis ranEarlier
    refine ⟨before, since ++ [turn], List.append_assoc _ _ _, missing, fun further part some kept
      ranKept => ?_, ?_⟩
    · rcases List.prefix_concat_iff.mp part with rfl | inSince
      · rw [← List.append_assoc, ran] at ranKept
        rw [← Option.some.inj ranKept]
        rfl
      · exact present further inSince some kept ranKept
    · have fedAll := follows.run distinct ranLines
      rw [timedLines, List.flatMap_append, List.flatMap_singleton]
      rcases fedAll.sweep with gone | left
      · rw [swept] at gone
        cases gone
      · rw [swept] at left
        exact left

end

/-! ### When an interface was last missing -/

/-- One of the last reads accepted an interface, as many as its time to live less one. -/
def ReadContext.Recent (ctx : ReadContext) (allows : CString → Bool) (name : CString)
    (cycles : List ProcCycle) : Prop :=
  ∃ c ∈ cycles.reverse.take (sweepsLeft (getLifecycles ctx.cfg) - 1),
    name ∈ acceptedNames allows c.content

/-- The lines of an interface in some turns of the main loop. -/
def linesSince (allows : CString → Bool) (name : CString) (since : List ProcCycle) :
    List (Timestamp × ProcLine) :=
  timedLines (since.map fun c => (c.now, ownLines allows name c.content))

section

variable {ctx : ReadContext} {g : GroupPtr} {fuel : Nat} {name : CString}

/-- What is kept is in the table of the leases. -/
theorem Store.Leasing.named_isSome_iff {σ : Store} {table : List (CString × Nat)}
    (leasing : σ.Leasing g table) (name : CString) :
    (σ.named g name).isSome ↔ name ∈ table.map Prod.fst := by
  have tracked : (σ.tracked g name).isSome ↔ name ∈ table.map Prod.fst := by
    rw [← not_iff_not, Bool.not_eq_true, Option.isSome_eq_false_iff, Option.isNone_iff_eq_none,
      leasing.tracked_eq, Leases.find?_eq_none_iff, ← leasing.leases]
    rfl
  refine Iff.trans ?_ tracked
  unfold Store.named
  cases found : σ.tracked g name with
  | none => rfl
  | some e =>
    obtain ⟨-, r, isElement, -⟩ := tracked_eq_some found
    rw [Option.bind_some, Store.interface, isElement]
    rfl

/-- What is kept of an interface after some turns. -/
theorem named_isSome_iff {st last : State} {cycles : List ProcCycle} (valid : st.Valid)
    (isGroup : g ∈ st.store.groupList) (empty : st.store.lists (.ofGroup g) = [])
    (ran : Runs.run (procCycle ctx g fuel) st cycles = some last) :
    (last.store.named g name).isSome ↔ ctx.Recent st.store.allows name cycles := by
  rw [(procCycles_leasing valid isGroup empty ran).named_isSome_iff]
  refine (Leases.mem_keys_rounds_iff _ (sweepsLeft_pos _) _ name).trans ?_
  rw [← List.map_reverse, ← List.map_take]
  simp only [List.mem_map, exists_exists_and_eq_and]
  rfl

/-- What is kept of an interface is what its lines make of it since it was last missing. -/
theorem procCycles_since {st last : State} {cycles : List ProcCycle} (valid : st.Valid)
    (isGroup : g ∈ st.store.groupList) (empty : st.store.lists (.ofGroup g) = [])
    (distinct : (procLinkAttrs.map fun entry => ctx.attrid entry.2).Nodup)
    (ran : Runs.run (procCycle ctx g fuel) st cycles = some last) {i : Interface}
    (kept : last.store.named g name = some i) :
    ∃ before since, cycles = before ++ since ∧ ¬ctx.Recent st.store.allows name before ∧
      (∀ further, further <+: since → further ≠ [] →
        ctx.Recent st.store.allows name (before ++ further)) ∧
      FollowsLines ctx fuel (linesSince st.store.allows name since) (some i) := by
  have alone := procCycles_named valid isGroup empty ran name
  rw [kept] at alone
  obtain ⟨front, back, parts, missing, present, follows⟩ := turns_since distinct alone
  obtain ⟨before, since, rfl, rfl, rfl⟩ := List.map_eq_append_iff.mp parts
  -- the machine for the interface says what is kept after every part of the run
  have after : ∀ first rest, before ++ since = first ++ rest → ∃ st',
      Runs.run (procCycle ctx g fuel) st first = some st' ∧
      Runs.run (Interface.turn ctx fuel) none (first.map fun c =>
        (c.now, ownLines st.store.allows name c.content)) = some (st'.store.named g name) :=
    fun first rest equal => by
      rw [equal] at ran
      obtain ⟨st', ranFirst, -⟩ := Runs.run_append.mp ran
      exact ⟨st', ranFirst, procCycles_named valid isGroup empty ranFirst name⟩
  refine ⟨before, since, rfl, ?_, fun further part some => ?_, follows⟩
  · obtain ⟨st', ranBefore, machine⟩ := after before since rfl
    rw [← named_isSome_iff valid isGroup empty ranBefore,
      ← Option.some.inj (missing.symm.trans machine)]
    exact Bool.false_ne_true
  · obtain ⟨rest, rfl⟩ := part
    obtain ⟨st', ranFurther, machine⟩ := after (before ++ further) rest (List.append_assoc ..).symm
    rw [← named_isSome_iff valid isGroup empty ranFurther]
    rw [List.map_append] at machine
    refine present _ ⟨_, (List.map_append ..).symm⟩ (mt List.map_eq_nil_iff.mp some) _ machine

end

/-- **An attribute is the machine of its own readings.** In every run of the main loop with `proc`
as its only input module and no other calls of the outputs than those that select, what the program
holds of an attribute of an interface that is kept, its rates, totals and histories, is what its
readings alone make of a new attribute: those of the lines of the interface that were accepted since
it was last missing for as many reads as its time to live. -/
theorem proc_attr_run (ctx : ReadContext) (g : GroupPtr) (fuel : Nat) (cycles : List ProcCycle)
    (st last : State) (valid : st.Valid) (isGroup : g ∈ st.store.groupList)
    (empty : st.store.lists (.ofGroup g) = []) (maps : ctx.MapsLinks)
    (ran : Runs.run (procCycle ctx g fuel) st cycles = some last) (name : CString) (i : Interface)
    (kept : last.store.named g name = some i) :
    ∃ before since, cycles = before ++ since ∧ ¬ctx.Recent st.store.allows name before ∧
      (∀ further, further <+: since → further ≠ [] →
        ctx.Recent st.store.allows name (before ++ further)) ∧
      ∀ entry ∈ procLinkAttrs, ∃ definition a,
        attrDefLookupId ctx.attrDefs (ctx.attrid entry.2) = some definition ∧
        i.eAttrs.record (ctx.attrid entry.2) = some a ∧
        attrRun ctx.cfg fuel (ctx.newAttr definition)
          (lineEvents entry.1 (linesSince st.store.allows name since)) = some a := by
  obtain ⟨before, since, parts, missing, recent, present, follows⟩ :=
    procCycles_since valid isGroup empty maps.distinct ran kept
  refine ⟨before, since, parts, missing, recent, fun entry member => ?_⟩
  obtain ⟨definition, known⟩ := Option.isSome_iff_exists.mp (maps.known entry member)
  obtain ⟨a, ranAlone, isRecord⟩ := follows.records entry member definition known
  rw [if_neg present] at isRecord
  exact ⟨definition, a, known, isRecord, ranAlone⟩

/-! ### Totals -/

/-- The readings of one direction in some lines. -/
def lineReadings (value : ProcValue) (direction : Direction)
    (own : List (Timestamp × ProcLine)) : List UInt64 :=
  own.map fun line => readingOf (line.2.rx value) (line.2.tx value) direction

/-- How far a total runs ahead of some readings. -/
def surpluses (flags : AttrFlags) : List UInt64 → UInt64
  | [] => 0
  | [_] => 0
  | previous :: reading :: rest =>
    overflowSurplus flags previous reading + surpluses flags (reading :: rest)

/-- The flags that say how a counter overflows. -/
theorem overflowSurplus_congr {flags flags' : AttrFlags}
    (ignore : flags.ignoreOverflows = flags'.ignoreOverflows)
    (wide : flags.true64bit = flags'.true64bit) (previous reading : UInt64) :
    overflowSurplus flags previous reading = overflowSurplus flags' previous reading := by
  unfold overflowSurplus
  rw [ignore, wide]

/-- A run keeps the definition of an attribute, and the way it overflows. -/
theorem attrRun_fields {cfg : Config} {fuel : Nat} {events : List AttrEvent} {a a' : Attr}
    (ran : attrRun cfg fuel a events = some a') :
    a'.aDef = a.aDef ∧ a'.aFlags.ignoreOverflows = a.aFlags.ignoreOverflows ∧
      a'.aFlags.true64bit = a.aFlags.true64bit := by
  induction events generalizing a with
  | nil =>
    obtain rfl := Option.some.inj ran
    exact ⟨rfl, rfl, rfl⟩
  | cons event events inductionHypothesis =>
    obtain ⟨next, stepped, rest⟩ := Option.bind_eq_some_iff.mp ran
    obtain ⟨sameDef, sameIgnore, sameWide⟩ := attrStep_fields stepped
    obtain ⟨restDef, restIgnore, restWide⟩ := inductionHypothesis rest
    exact ⟨restDef.trans sameDef, restIgnore.trans sameIgnore, restWide.trans sameWide⟩

/-- A reading adds to the total by how much the counter has moved, and its surplus. -/
theorem events_total {cfg : Config} {fuel : Nat} {value : ProcValue} {now : Timestamp}
    {line : ProcLine} {a a' : Attr} (counter : a.aDef.adType = .counter)
    (ran : attrRun cfg fuel a (line.events value now) = some a') (direction : Direction) :
    (a'.rate direction).rReset = (a.rate direction).rReset ∧
      (a'.rate direction).rPrev = readingOf (line.rx value) (line.tx value) direction ∧
      (a'.rate direction).rTotal = (a.rate direction).rTotal +
        (readingOf (line.rx value) (line.tx value) direction - (a.rate direction).rPrev) +
        overflowSurplus a.aFlags (a.rate direction).rPrev
          (readingOf (line.rx value) (line.tx value) direction) := by
  obtain ⟨stored, store, notified⟩ := Option.bind_eq_some_iff.mp ran
  obtain rfl := Option.some.inj store
  obtain ⟨updated, returned, same⟩ := Option.bind_eq_some_iff.mp notified
  obtain rfl := Option.some.inj same
  obtain ⟨-, -, rates⟩ := attrNotifyUpdate_fields returned
  have touched : procFlags.touches direction = true := by cases direction <;> rfl
  obtain ⟨ignore, wide⟩ :=
    attrStore_overflowFlags a (line.rx value) (line.tx value) procFlags now
  rw [rates, attrCalcRates_rate _ _ _ ((attrStore_aDef ..).symm ▸ counter), attrStore_rate,
    if_pos touched, calcCounterRate_rReset, calcCounterRate_rPrev, calcCounterRate_rTotal,
    counterDelta_eq_surplus, overflowSurplus_congr ignore wide, UInt64.add_assoc]
  exact ⟨rfl, rfl, rfl⟩

/-- So do some readings. -/
theorem lineEvents_total {cfg : Config} {fuel : Nat} {value : ProcValue} {flags : AttrFlags}
    {own : List (Timestamp × ProcLine)} {a a' : Attr} (counter : a.aDef.adType = .counter)
    (ignore : a.aFlags.ignoreOverflows = flags.ignoreOverflows)
    (wide : a.aFlags.true64bit = flags.true64bit)
    (ran : attrRun cfg fuel a (lineEvents value own) = some a') (direction : Direction) :
    (a'.rate direction).rReset = (a.rate direction).rReset ∧
      (a'.rate direction).rTotal = (a.rate direction).rTotal +
        ((lineReadings value direction own).getLastD (a.rate direction).rPrev -
          (a.rate direction).rPrev) +
        surpluses flags ((a.rate direction).rPrev :: lineReadings value direction own) := by
  induction own generalizing a with
  | nil =>
    obtain rfl := Option.some.inj ran
    refine ⟨rfl, ?_⟩
    rw [lineReadings, List.map_nil, List.getLastD_nil, surpluses, UInt64.sub_self, UInt64.add_zero,
      UInt64.add_zero]
  | cons line rest inductionHypothesis =>
    rw [lineEvents, List.flatMap_cons] at ran
    obtain ⟨next, ranLine, ranRest⟩ := attrRun_append.mp ran
    obtain ⟨sameDef, sameIgnore, sameWide⟩ := attrRun_fields ranLine
    obtain ⟨reset, prev, total⟩ := events_total counter ranLine direction
    obtain ⟨resetRest, totalRest⟩ := inductionHypothesis (sameDef ▸ counter)
      (sameIgnore.trans ignore) (sameWide.trans wide) ranRest
    have readings : lineReadings value direction (line :: rest) =
        readingOf (line.2.rx value) (line.2.tx value) direction ::
          lineReadings value direction rest := rfl
    refine ⟨resetRest.trans reset, ?_⟩
    rw [totalRest, prev, total, readings, List.getLastD_cons, surpluses,
      overflowSurplus_congr ignore wide]
    grind

/-- The first reading of a new attribute has no surplus. -/
theorem surpluses_zero_cons (flags : AttrFlags) (readings : List UInt64) :
    surpluses flags (0 :: readings) = surpluses flags readings := by
  cases readings with
  | nil => rfl
  | cons reading rest =>
    rw [surpluses, (overflowSurplus_eq_zero_iff flags 0 reading).mpr (Or.inr UInt64.zero_le),
      UInt64.zero_add]

/-- What is kept of an interface holds, for a counter, the last reading and the surpluses of all
of them. -/
theorem Interface.Follows.total {ctx : ReadContext} {fuel : Nat} {i : Interface}
    {own : List (Timestamp × ProcLine)} (follows : i.Follows ctx fuel own) (present : own ≠ [])
    {entry : ProcValue × String} (member : entry ∈ procLinkAttrs) {definition : AttrDef}
    (known : attrDefLookupId ctx.attrDefs (ctx.attrid entry.2) = some definition) :
    ∃ a, i.eAttrs.record (ctx.attrid entry.2) = some a ∧
      (definition.adType = .counter → ∀ direction,
        ∃ reading ∈ (lineReadings entry.1 direction own).getLast?,
          rateGetTotal (a.rate direction) =
            reading + surpluses definition.adFlags (lineReadings entry.1 direction own)) := by
  obtain ⟨a, ranAlone, isRecord⟩ := follows.records entry member definition known
  rw [if_neg present] at isRecord
  refine ⟨a, isRecord, fun counter direction => ?_⟩
  obtain ⟨start, isDef, ignore, wide⟩ := ctx.newAttr_fields definition
  obtain ⟨reset, total⟩ := lineEvents_total (isDef.symm ▸ counter) ignore wide ranAlone direction
  obtain ⟨line, isLast⟩ : ∃ line, own.getLast? = some line :=
    ⟨_, List.getLast?_eq_some_getLast present⟩
  have isReading : (lineReadings entry.1 direction own).getLast? =
      some (readingOf (line.2.rx entry.1) (line.2.tx entry.1) direction) := by
    rw [lineReadings, List.getLast?_map, isLast]
    rfl
  refine ⟨_, isReading, ?_⟩
  rw [rateGetTotal, reset, total, List.getLastD_eq_getLast?, isReading, Option.getD_some,
    start direction]
  simp only [Rate.zero, UInt64.sub_zero, UInt64.zero_add, surpluses_zero_cons]

/-- **The totals that are shown.** In every run of the main loop with `proc` as its only input
module and no other calls of the outputs than those that select, the total of a counter of an
interface that is kept is the last reading of the interface that was accepted, and the surplus of
every one below the one before it: those since the interface was last missing for as many reads as
its time to live. -/
theorem proc_totals (ctx : ReadContext) (g : GroupPtr) (fuel : Nat) (cycles : List ProcCycle)
    (st last : State) (valid : st.Valid) (isGroup : g ∈ st.store.groupList)
    (empty : st.store.lists (.ofGroup g) = []) (maps : ctx.MapsLinks)
    (ran : Runs.run (procCycle ctx g fuel) st cycles = some last) (name : CString) (i : Interface)
    (kept : last.store.named g name = some i) :
    ∃ before since, cycles = before ++ since ∧ ¬ctx.Recent st.store.allows name before ∧
      (∀ further, further <+: since → further ≠ [] →
        ctx.Recent st.store.allows name (before ++ further)) ∧
      ∀ entry ∈ procLinkAttrs, ∃ definition a,
        attrDefLookupId ctx.attrDefs (ctx.attrid entry.2) = some definition ∧
        i.eAttrs.record (ctx.attrid entry.2) = some a ∧
        (definition.adType = .counter → ∀ direction, ∃ reading ∈
          (lineReadings entry.1 direction (linesSince st.store.allows name since)).getLast?,
          rateGetTotal (a.rate direction) = reading + surpluses definition.adFlags
            (lineReadings entry.1 direction (linesSince st.store.allows name since))) := by
  obtain ⟨before, since, parts, missing, recent, present, follows⟩ :=
    procCycles_since valid isGroup empty maps.distinct ran kept
  refine ⟨before, since, parts, missing, recent, fun entry member => ?_⟩
  obtain ⟨definition, known⟩ := Option.isSome_iff_exists.mp (maps.known entry member)
  obtain ⟨a, isRecord, totals⟩ := follows.total present member known
  exact ⟨definition, a, known, isRecord, totals⟩

/-! ### A counter that wraps -/

/-- The counter of `eth0` reaches its last value, and starts again. -/
def counterWraps : List ProcCycle :=
  [⟨[], ⟨1, 0⟩, printProcFile statsLayout statsHeader [receivedLine eth0 4294967295], []⟩,
    ⟨[.elementSelectLast], ⟨2, 0⟩,
      printProcFile statsLayout statsHeader [receivedLine wlan0 7, receivedLine eth0 5], []⟩]

theorem procContext_mapsLinks : procContext.MapsLinks :=
  ⟨by decide, by decide⟩

/-- What `eth0` has received in the end. -/
theorem run_counterWraps :
    ∃ last i, Runs.run (procCycle procContext 0 0) interfacesStart counterWraps = some last ∧
      last.store.named 0 eth0 = some i ∧
      (i.eAttrs.record 1).map (fun a => rateGetTotal (a.rate .rx)) = some 4294967301 := by
  have run : ((Runs.run (procCycle procContext 0 0) interfacesStart counterWraps).bind fun last =>
      (last.store.named 0 eth0).bind fun i =>
        (i.eAttrs.record 1).map fun a => rateGetTotal (a.rate .rx)) = some 4294967301 := by
    decide +kernel
  obtain ⟨last, ran, rest⟩ := Option.bind_eq_some_iff.mp run
  obtain ⟨i, kept, total⟩ := Option.bind_eq_some_iff.mp rest
  exact ⟨last, i, ran, kept, total⟩

/-- Its readings are those of the last turns. -/
theorem proc_attr_run_counterWraps :
    ∃ since a, Runs.run (procCycle procContext 0 0) interfacesStart counterWraps ≠ none ∧
      since <:+ counterWraps ∧
      attrRun procContext.cfg 0 (procContext.newAttr ⟨1, "bytes", "bytes", .counter, {}⟩)
        (lineEvents .bytes (linesSince interfacesStart.store.allows eth0 since)) = some a ∧
      rateGetTotal (a.rate .rx) = 4294967301 := by
  obtain ⟨last, i, ran, kept, total⟩ := run_counterWraps
  obtain ⟨before, since, parts, -, -, attrs⟩ := proc_attr_run procContext 0 0 counterWraps
    interfacesStart last interfacesStart_valid List.mem_cons_self rfl procContext_mapsLinks ran
    eth0 i kept
  obtain ⟨definition, a, known, isRecord, alone⟩ := attrs (.bytes, "bytes") (by decide)
  obtain rfl : ⟨1, "bytes", "bytes", .counter, {}⟩ = definition := Option.some.inj known
  have isTotal : (i.eAttrs.record 1).map (fun a => rateGetTotal (a.rate .rx)) =
      some (rateGetTotal (a.rate .rx)) := congrArg _ isRecord
  refine ⟨since, a, ?_, ⟨before, parts.symm⟩, alone, Option.some.inj (isTotal.symm.trans total)⟩
  rw [ran]
  exact Option.some_ne_none last

/-- Its total is the last reading, and one turn of the counter. -/
theorem proc_totals_counterWraps :
    ∃ since, since <:+ counterWraps ∧
      ∃ reading ∈ (lineReadings .bytes .rx
          (linesSince interfacesStart.store.allows eth0 since)).getLast?,
        reading + surpluses {} (lineReadings .bytes .rx
          (linesSince interfacesStart.store.allows eth0 since)) = 4294967301 := by
  obtain ⟨last, i, ran, kept, total⟩ := run_counterWraps
  obtain ⟨before, since, parts, -, -, attrs⟩ := proc_totals procContext 0 0 counterWraps
    interfacesStart last interfacesStart_valid List.mem_cons_self rfl procContext_mapsLinks ran
    eth0 i kept
  obtain ⟨definition, a, known, isRecord, totals⟩ := attrs (.bytes, "bytes") (by decide)
  obtain rfl : ⟨1, "bytes", "bytes", .counter, {}⟩ = definition := Option.some.inj known
  obtain ⟨reading, isLast, shown⟩ := totals rfl .rx
  have isTotal : (i.eAttrs.record 1).map (fun a => rateGetTotal (a.rate .rx)) =
      some (rateGetTotal (a.rate .rx)) := congrArg _ isRecord
  exact ⟨since, ⟨before, parts.symm⟩, reading, isLast,
    shown.symm.trans (Option.some.inj (isTotal.symm.trans total))⟩

end Bmon
