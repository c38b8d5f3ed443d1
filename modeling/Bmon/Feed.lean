/-
This file holds what the input modules do with an element that they have looked up: they set it
up if it is new, and call `attr_update` for every attribute, `element_notify_update` and
`element_lifesign`. With positive intervals of the histories all these calls return.
-/

import Bmon.AttrLookup
import Bmon.Tracked

namespace Bmon

/-! ### Feeding an element -/

/-- What a read of an input module uses: the definitions of the time, the field `attrid` of the
maps the module has loaded, by their names, and `rtiming.rt_last_read`. -/
structure ReadContext where
  cfg : Config
  attrDefs : List AttrDef
  historyDefs : List HistoryDef
  attrid : String → Nat
  now : Timestamp

/-- What looking up an element leaves behind: the store, the element unless it is denied, and the
calls that were made. -/
structure LookUp where
  store : Store
  element : Option ElementPtr
  calls : List InputOp

/-- What a module has read for one of its attributes. -/
structure Reading where
  name : String
  rx : UInt64
  tx : UInt64
  deriving DecidableEq, Repr

namespace ReadContext

variable (ctx : ReadContext)

/-- The block of `proc_read` and `dummy_read` for a new element, or nothing where `BUG` ends the
program. -/
def setUpCalls (σ : Store) (e : ElementPtr) : Option (List ElementOp) :=
  match σ.elements e with
  | none => none
  | some r =>
    if r.eFlags.created then
      if (attrDefLookup ctx.attrDefs "bytes").isSome ∧
          (attrDefLookup ctx.attrDefs "packets").isSome then
        some [.setKeyAttr ctx.attrDefs "bytes" "packets", .setUsageAttr ctx.attrDefs "bytes",
          .setUp r.eLevel]
      else
        none
    else
      some []

/-- `element_lookup`, and the block for a new element. -/
def lookUp (σ : Store) (g : GroupPtr) (name : CString) : Option LookUp :=
  let looked := elementLookup ctx.cfg σ g name 0 none true
  let call := InputOp.elementLookup g name 0 none true
  match looked.2 with
  | none => some ⟨looked.1, none, [call]⟩
  | some e =>
    (ctx.setUpCalls looked.1 e).bind fun calls =>
      (Runs.run (InputOp.apply ctx.cfg) looked.1 (calls.map (InputOp.onElement e))).map fun σ =>
        ⟨σ, some e, call :: calls.map (InputOp.onElement e)⟩

/-- The calls that feed an element: `attr_update` for every attribute of the module, then
`element_notify_update` and `element_lifesign`. -/
def feedCalls (fuel : Nat) (flags : UpdateFlags) (readings : List Reading) : List ElementOp :=
  readings.map (fun reading => .attrUpdate ctx.attrDefs ctx.historyDefs (ctx.attrid reading.name)
    reading.rx reading.tx flags ctx.now) ++ [.notifyUpdate fuel ctx.now, .lifesign]

/-- Some calls end by feeding the element that is tracked for a name. -/
def Fed (fuel : Nat) (flags : UpdateFlags) (readings : List Reading) (σ : Store) (g : GroupPtr)
    (name : CString) (calls : List InputOp) : Prop :=
  ∃ e, σ.tracked g name = some e ∧
    (ctx.feedCalls fuel flags readings).map (InputOp.onElement e) <:+ calls

end ReadContext

/-! ### What a read does -/

section

variable {ctx : ReadContext} {σ σ' : Store}

/-- Setting up an element does not mark it as updated. -/
theorem updated_setUpCalls {e : ElementPtr} {calls : List ElementOp}
    (setUp : ctx.setUpCalls σ e = some calls)
    (ran : Runs.run (InputOp.apply ctx.cfg) σ (calls.map (InputOp.onElement e)) = some σ') :
    (σ'.elements e).map (fun r => r.eFlags.updated) =
      (σ.elements e).map fun r => r.eFlags.updated := by
  refine Runs.run_invariant_of_mem
    (fun other => (other.elements e).map (fun r => r.eFlags.updated) =
      (σ.elements e).map fun r => r.eFlags.updated)
    (fun other op member next same stepped => ?_) rfl ran
  obtain ⟨op, isCall, rfl⟩ := List.mem_map.mp member
  rw [InputOp.apply] at stepped
  split_ifs at stepped
  refine Eq.trans ?_ same
  unfold ReadContext.setUpCalls at setUp
  split at setUp
  · cases setUp
  · split_ifs at setUp
    · obtain rfl := Option.some.inj setUp
      rcases List.mem_cons.mp isCall with rfl | isCall
      · obtain rfl := Option.some.inj stepped
        refine elementSetKeyAttr_rule (fun σ => (σ.elements e).map (fun r => r.eFlags.updated) =
          (other.elements e).map fun r => r.eFlags.updated) (fun σ' column definition before => ?_)
          ctx.attrDefs "bytes" "packets" rfl
        refine Eq.trans ?_ before
        exact map_modifyElement _ σ' e e fun _ => rfl
      rcases List.mem_cons.mp isCall with rfl | isCall
      · obtain rfl := Option.some.inj stepped
        exact map_modifyElement _ other e e fun _ => rfl
      · obtain rfl := List.mem_singleton.mp isCall
        obtain rfl := Option.some.inj stepped
        exact map_modifyElement _ other e e fun _ => rfl
    · obtain rfl := Option.some.inj setUp
      cases isCall

variable {g : GroupPtr} {name : CString}

section

variable {looked : LookUp} (lookedUp : ctx.lookUp σ g name = some looked)

include lookedUp

/-- The calls that look up an element are possible, one after the other. -/
theorem lookUp_run (isGroup : g ∈ σ.groupList) :
    Runs.run (InputOp.apply ctx.cfg) σ looked.calls = some looked.store := by
  have possible : InputOp.apply ctx.cfg σ (.elementLookup g name 0 none true) =
      some (elementLookup ctx.cfg σ g name 0 none true).1 := by
    rw [InputOp.apply, if_pos ⟨isGroup, fun p above => by cases above⟩]
  unfold ReadContext.lookUp at lookedUp
  simp only at lookedUp
  split at lookedUp
  · obtain rfl := Option.some.inj lookedUp
    rw [Runs.run, List.foldlM_cons, possible]
    rfl
  · obtain ⟨calls, -, rest⟩ := Option.bind_eq_some_iff.mp lookedUp
    obtain ⟨σ', ran, rfl⟩ := Option.map_eq_some_iff.mp rest
    rw [Runs.run, List.foldlM_cons, possible]
    exact ran

/-- Where an element is denied nothing has changed. -/
theorem lookUp_none (denied : looked.element = none) :
    ¬σ.Eligible g name ∧ looked.store = σ := by
  unfold ReadContext.lookUp at lookedUp
  simp only at lookedUp
  split at lookedUp
  · next absent =>
    obtain rfl := Option.some.inj lookedUp
    exact elementLookup_none (Prod.ext rfl absent)
  · obtain ⟨calls, -, rest⟩ := Option.bind_eq_some_iff.mp lookedUp
    obtain ⟨σ', -, rfl⟩ := Option.map_eq_some_iff.mp rest
    cases denied

/-- Where one is found or created, only that one has changed, and it is not marked as updated. -/
theorem lookUp_some (wf : σ.WellFormed) (isGroup : g ∈ σ.groupList) {e : ElementPtr}
    (found : looked.element = some e) :
    σ.Eligible g name ∧ FeedsOnly g name σ looked.store ∧
      looked.store.tracked g name = some e ∧
      looked.store.updated g name = σ.updated g name := by
  unfold ReadContext.lookUp at lookedUp
  simp only at lookedUp
  split at lookedUp
  · obtain rfl := Option.some.inj lookedUp
    cases found
  · next e' present =>
    obtain ⟨calls, setUp, rest⟩ := Option.bind_eq_some_iff.mp lookedUp
    obtain ⟨σ', ran, rfl⟩ := Option.map_eq_some_iff.mp rest
    obtain rfl := Option.some.inj found
    obtain ⟨eligible, feeds, tracked, updated⟩ :=
      elementLookup_some wf isGroup (Prod.ext rfl present)
    have touches := touches_run ran
    have stillTracked := (touches.lookupElement_eq g name 0 none).trans tracked
    refine ⟨eligible, feeds.trans (.of_touches feeds.wf tracked touches), stillTracked, ?_⟩
    have same := congrArg (Option.any id) (updated_setUpCalls setUp ran)
    rw [Option.any_map, Option.any_map] at same
    rw [← updated]
    unfold Store.updated Store.tracked at *
    rw [stillTracked, tracked, Option.any_some, Option.any_some]
    exact same

end

/-- Setting up an element is no lifesign. -/
theorem lookUp_calls {looked : LookUp} (lookedUp : ctx.lookUp σ g name = some looked)
    (e : ElementPtr) : InputOp.onElement e .lifesign ∉ looked.calls := by
  unfold ReadContext.lookUp at lookedUp
  simp only at lookedUp
  split at lookedUp
  · obtain rfl := Option.some.inj lookedUp
    simp
  · obtain ⟨calls, setUp, rest⟩ := Option.bind_eq_some_iff.mp lookedUp
    obtain ⟨σ', -, rfl⟩ := Option.map_eq_some_iff.mp rest
    unfold ReadContext.setUpCalls at setUp
    split at setUp
    · cases setUp
    · split_ifs at setUp <;>
      · obtain rfl := Option.some.inj setUp
        simp

/-- Feeding an element ends with its lifesign. -/
theorem ReadContext.Fed.lifesign {fuel : Nat} {flags : UpdateFlags} {readings : List Reading}
    {calls : List InputOp} (fed : ctx.Fed fuel flags readings σ g name calls) :
    ∃ e, InputOp.onElement e .lifesign ∈ calls := by
  obtain ⟨e, -, suffix⟩ := fed
  refine ⟨e, suffix.subset (List.mem_map_of_mem ?_)⟩
  exact List.mem_append_right _ (List.mem_cons_of_mem _ List.mem_cons_self)

/-- Feeding an element that is tracked changes only that one. -/
theorem feedCalls_feedsOnly (wf : σ.WellFormed) {e : ElementPtr}
    (tracked : σ.tracked g name = some e) {fuel : Nat} {flags : UpdateFlags}
    {readings : List Reading}
    (ran : Runs.run (InputOp.apply ctx.cfg) σ
      ((ctx.feedCalls fuel flags readings).map (InputOp.onElement e)) = some σ') :
    FeedsOnly g name σ σ' :=
  .of_touches wf tracked (touches_run ran)

/-- What was fed is still so where the element stays tracked. -/
theorem ReadContext.Fed.mono {g' : GroupPtr} {name' : CString} {fuel : Nat}
    {flags : UpdateFlags} {readings : List Reading} {calls : List InputOp}
    (fed : ctx.Fed fuel flags readings σ g name calls) (feeds : FeedsOnly g' name' σ σ') :
    ctx.Fed fuel flags readings σ' g name calls :=
  fed.imp fun _ both => ⟨feeds.tracked_of_some both.1, both.2⟩

end

/-! ### Termination -/

/-- The histories of all attributes of an element have positive intervals. -/
def AttrTable.PositiveIntervals (t : AttrTable) : Prop := ∀ a ∈ t.attrs, a.PositiveIntervals

/-- The histories of all elements have positive intervals. -/
def Store.PositiveIntervals (σ : Store) : Prop :=
  ∀ e r, σ.elements e = some r → r.eAttrs.PositiveIntervals

theorem positiveIntervals_modifyAttr {t : AttrTable} (positive : t.PositiveIntervals)
    (p : AttrPtr) (change : Attr → Attr) (keeps : ∀ a, a.PositiveIntervals →
      (change a).PositiveIntervals) : (t.modifyAttr p change).PositiveIntervals := by
  intro a member
  rw [AttrTable.modifyAttr_attrs] at member
  obtain ⟨i, isAttr⟩ := List.mem_iff_getElem?.mp member
  rw [List.getElem?_modify] at isAttr
  obtain ⟨before, found, rfl⟩ := Option.map_eq_some_iff.mp isAttr
  have old := positive before (List.mem_of_getElem? found)
  split_ifs
  · exact keeps before old
  · exact old

theorem positiveIntervals_attrUpdate (cfg : Config) (attrDefs : List AttrDef)
    {historyDefs : List HistoryDef} (defs : ∀ d ∈ historyDefs, 0 < d.hdInterval)
    {t : AttrTable} (positive : t.PositiveIntervals) (id : Nat) (rx tx : UInt64)
    (flags : UpdateFlags) (now : Timestamp) :
    (attrUpdate cfg attrDefs historyDefs t id rx tx flags now).PositiveIntervals := by
  have stored : ∀ a : Attr, a.PositiveIntervals →
      (attrStore a rx tx flags now).PositiveIntervals := fun a before => by
    unfold Attr.PositiveIntervals
    rw [attrStore_aHistoryList]
    exact before
  unfold attrUpdate
  split
  · exact positiveIntervals_modifyAttr positive _ _ stored
  · split
    · exact positive
    · refine positiveIntervals_modifyAttr (fun a member => ?_) _ _ stored
      rw [attrTrack_attrs] at member
      rcases List.mem_append.mp member with old | new
      · exact positive a old
      · rw [List.mem_singleton.mp new]
        exact attrNew_positiveIntervals cfg t _ defs

/-- `attr_notify_update` keeps the histories of an attribute. -/
theorem positiveIntervals_attrNotifyUpdate {cfg : Config} {fuel : Nat} {a a' : Attr}
    {ts : Timestamp} (positive : a.PositiveIntervals)
    (notified : attrNotifyUpdate cfg fuel a ts = some a') : a'.PositiveIntervals := by
  have stepped : attrStep cfg fuel a (.notify ts) = some a' := notified
  unfold Attr.PositiveIntervals
  rw [attrStep_definitions stepped]
  exact positive

/-- So does the loop of `element_notify_update`. -/
theorem positiveIntervals_notifyAttrs {cfg : Config} {fuel : Nat} {ts : Timestamp}
    {order : List AttrPtr} {t after : AttrTable} (positive : t.PositiveIntervals)
    (notified : notifyAttrs cfg fuel ts order t = some after) : after.PositiveIntervals := by
  induction order generalizing t with
  | nil =>
    obtain rfl := Option.some.inj notified
    exact positive
  | cons p rest inductionHypothesis =>
    rw [notifyAttrs] at notified
    cases isAttr : t.attrs[p]? with
    | none =>
      rw [isAttr] at notified
      exact inductionHypothesis positive notified
    | some a =>
      simp only [isAttr] at notified
      obtain ⟨a', notifiedAttr, others⟩ := Option.bind_eq_some_iff.mp notified
      have new := positiveIntervals_attrNotifyUpdate
        (positive a (List.mem_of_getElem? isAttr)) notifiedAttr
      exact inductionHypothesis
        (positiveIntervals_modifyAttr positive p (fun _ => a') fun _ _ => new) others

/-- With positive intervals `element_notify_update` gets through the attributes. -/
theorem notifyAttrs_returns (cfg : Config) (ts : Timestamp) (order : List AttrPtr)
    {t : AttrTable} (positive : t.PositiveIntervals) :
    ∃ enough after, AttrTable.PositiveIntervals after ∧
      ∀ fuel, enough ≤ fuel → notifyAttrs cfg fuel ts order t = some after := by
  induction order generalizing t with
  | nil => exact ⟨0, t, positive, fun _ _ => rfl⟩
  | cons p rest inductionHypothesis =>
    cases isAttr : t.attrs[p]? with
    | none =>
      obtain ⟨enough, after, kept, returns⟩ := inductionHypothesis positive
      refine ⟨enough, after, kept, fun fuel more => ?_⟩
      rw [notifyAttrs, isAttr]
      exact returns fuel more
    | some a =>
      have old := positive a (List.mem_of_getElem? isAttr)
      obtain ⟨first, a', stepped⟩ := attrStep_returns cfg a old (.notify ts)
      have notified : attrNotifyUpdate cfg first a ts = some a' := stepped
      have new := positiveIntervals_attrNotifyUpdate old notified
      obtain ⟨second, after, kept, returns⟩ := inductionHypothesis
        (positiveIntervals_modifyAttr positive p (fun _ => a') fun _ _ => new)
      refine ⟨max first second, after, kept, fun fuel more => ?_⟩
      have notifiedMore := attrNotifyUpdate_mono ((le_max_left _ _).trans more) notified
      rw [notifyAttrs, isAttr]
      simp only [notifiedMore, Option.bind_some]
      exact returns fuel ((le_max_right _ _).trans more)

theorem positiveIntervals_modifyElement {σ : Store} (positive : σ.PositiveIntervals)
    (e : ElementPtr) {change : Element → Element}
    (keeps : ∀ r, r.eAttrs.PositiveIntervals → (change r).eAttrs.PositiveIntervals) :
    (σ.modifyElement e change).PositiveIntervals := by
  intro x r isElement
  unfold Store.modifyElement at isElement
  simp only at isElement
  split_ifs at isElement
  · obtain ⟨before, found, rfl⟩ := Option.map_eq_some_iff.mp isElement
    exact keeps before (positive x before found)
  · exact positive x r isElement

/-- What does not change the attributes of any element keeps the intervals positive. -/
theorem positiveIntervals_of_eAttrs {σ σ' : Store} (positive : σ.PositiveIntervals)
    (same : ∀ e, (σ'.elements e).map Element.eAttrs = (σ.elements e).map Element.eAttrs) :
    σ'.PositiveIntervals := by
  intro e r isElement
  have attrs := same e
  rw [isElement, Option.map_some] at attrs
  obtain ⟨before, found, equal⟩ := Option.map_eq_some_iff.mp attrs.symm
  rw [← equal]
  exact positive e before found

/-- The histories that a call may create have positive intervals. -/
def ElementOp.PositiveIntervals : ElementOp → Prop
  | attrUpdate _ historyDefs _ _ _ _ _ => ∀ d ∈ historyDefs, 0 < d.hdInterval
  | _ => True

theorem ElementOp.positiveIntervals {cfg : Config} {σ σ' : Store} {e : ElementPtr}
    {op : ElementOp} (defs : op.PositiveIntervals) (positive : σ.PositiveIntervals)
    (called : op.apply cfg σ e = some σ') : σ'.PositiveIntervals := by
  have maxima := map_elementSetMax Element.eAttrs
    (field_updateInfo Element.eAttrs fun _ _ _ => rfl) fun _ _ => rfl
  cases op with
  | lifesign =>
    obtain rfl := Option.some.inj called
    exact positiveIntervals_modifyElement positive e fun _ before => before
  | updateInfo name value =>
    obtain rfl := Option.some.inj called
    exact positiveIntervals_of_eAttrs positive fun x => map_modifyElement Element.eAttrs σ e x
      fun r => field_updateInfo Element.eAttrs (fun _ _ _ => rfl) r name value
  | setRxmax max =>
    obtain rfl := Option.some.inj called
    exact positiveIntervals_of_eAttrs positive fun x => maxima .rx "RxMax" σ e x max
  | setTxmax max =>
    obtain rfl := Option.some.inj called
    exact positiveIntervals_of_eAttrs positive fun x => maxima .tx "TxMax" σ e x max
  | setKeyAttr attrDefs major minor =>
    obtain rfl := Option.some.inj called
    exact elementSetKeyAttr_rule Store.PositiveIntervals (fun σ' column definition before =>
      positiveIntervals_modifyElement before e fun _ old => old) attrDefs major minor positive
  | setUsageAttr attrDefs usage =>
    obtain rfl := Option.some.inj called
    exact positiveIntervals_modifyElement positive e fun _ before => before
  | attrUpdate attrDefs historyDefs id rx tx flags now =>
    obtain rfl := Option.some.inj called
    exact positiveIntervals_modifyElement positive e fun r before =>
      positiveIntervals_attrUpdate cfg attrDefs defs before id rx tx flags now
  | notifyUpdate fuel ts =>
    obtain rfl | ⟨r, attrs, found, notified, usage, rfl⟩ := elementNotifyUpdate_cases called
    · exact positive
    · have new := positiveIntervals_notifyAttrs (positive e r found) notified
      exact positiveIntervals_modifyElement positive e fun _ _ => new
  | setUp level =>
    obtain rfl := Option.some.inj called
    exact positiveIntervals_modifyElement positive e fun _ before => before

/-- An element that can be fed: it is in the store, and all histories have positive intervals. -/
structure Store.Feedable (σ : Store) (e : ElementPtr) : Prop where
  present : (σ.elements e).isSome
  positive : σ.PositiveIntervals

/-- A call that returns without a loop over time. -/
def ElementOp.Instant : ElementOp → Prop
  | notifyUpdate _ _ => False
  | _ => True

theorem ElementOp.Instant.apply {op : ElementOp} (instant : op.Instant) (cfg : Config)
    (σ : Store) (e : ElementPtr) : ∃ σ', op.apply cfg σ e = some σ' := by
  cases op with
  | notifyUpdate fuel ts => exact instant.elim
  | _ => exact ⟨_, rfl⟩

namespace Store.Feedable

variable {σ : Store} {e : ElementPtr} (feedable : σ.Feedable e)

include feedable

theorem modifyElement (change : Element → Element)
    (keeps : ∀ r, r.eAttrs.PositiveIntervals → (change r).eAttrs.PositiveIntervals) :
    (σ.modifyElement e change).Feedable e :=
  ⟨(isSome_modifyElement σ e e change).trans feedable.present,
    positiveIntervals_modifyElement feedable.positive e keeps⟩

/-- After a call on an element it can still be fed. -/
theorem apply {cfg : Config} {op : ElementOp} {σ' : Store} (defs : op.PositiveIntervals)
    (called : op.apply cfg σ e = some σ') : σ'.Feedable e := by
  have same := congrArg Option.isSome (ElementOp.touches called).identity
  rw [Option.isSome_map, Option.isSome_map, feedable.present] at same
  exact ⟨same, ElementOp.positiveIntervals defs feedable.positive called⟩

/-- A call on the element is possible. -/
theorem call (cfg : Config) {op : ElementOp} (ops : List ElementOp) {next : Store}
    (called : op.apply cfg σ e = some next) :
    Runs.run (InputOp.apply cfg) σ ((op :: ops).map (InputOp.onElement e)) =
      Runs.run (InputOp.apply cfg) next (ops.map (InputOp.onElement e)) := by
  change (InputOp.apply cfg σ (.onElement e op)).bind _ = _
  rw [InputOp.apply, if_pos feedable.present, called]
  rfl

/-- Calls without a loop over time return. -/
theorem calls (cfg : Config) (ops : List ElementOp)
    (instant : ∀ op ∈ ops, op.Instant ∧ op.PositiveIntervals) :
    ∃ σ', σ'.Feedable e ∧
      Runs.run (InputOp.apply cfg) σ (ops.map (InputOp.onElement e)) = some σ' := by
  induction ops generalizing σ with
  | nil => exact ⟨σ, feedable, rfl⟩
  | cons op ops inductionHypothesis =>
    obtain ⟨first, defs⟩ := instant op List.mem_cons_self
    obtain ⟨next, called⟩ := first.apply cfg σ e
    obtain ⟨σ', kept, ran⟩ := inductionHypothesis (feedable.apply defs called)
      fun other member => instant other (List.mem_cons_of_mem _ member)
    exact ⟨σ', kept, (feedable.call cfg ops called).trans ran⟩

end Store.Feedable

/-- What `element_notify_update` makes of an element, with its attributes updated. -/
def Element.notified (cfg : Config) (cfgList : List ElementCfg) (attrs : AttrTable)
    (r : Element) : Element :=
  let r := { r with eFlags := { r.eFlags with updated := true }, eAttrs := attrs }
  let usage := r.usage cfg cfgList
  { r with eRxUsage := usage.1, eTxUsage := usage.2 }

/-- The attributes every element is set up with are defined. -/
structure ReadContext.Defined (ctx : ReadContext) : Prop where
  bytes : (attrDefLookup ctx.attrDefs "bytes").isSome
  packets : (attrDefLookup ctx.attrDefs "packets").isSome

/-- Every history that is configured has a positive interval. -/
def ReadContext.PositiveIntervals (ctx : ReadContext) : Prop :=
  ∀ d ∈ ctx.historyDefs, 0 < d.hdInterval

/-- Histories with positive intervals and room for an entry. The configuration is asked for
neither. With another interval the loops of `history_update` need not end, and without room there is
no block to write to: the allocation of a negative size ends the program, and one of size zero gives
a block that is empty. -/
structure SoundHistories (historyDefs : List HistoryDef) : Prop where
  intervals : ∀ d ∈ historyDefs, 0 < d.hdInterval
  sizes : ∀ d ∈ historyDefs, 1 ≤ d.hdSize

/-- With these attributes defined an element is set up. -/
theorem setUpCalls_returns {ctx : ReadContext} (defined : ctx.Defined) {σ : Store}
    {e : ElementPtr} (feedable : σ.Feedable e) :
    ∃ calls σ', ctx.setUpCalls σ e = some calls ∧
      Runs.run (InputOp.apply ctx.cfg) σ (calls.map (InputOp.onElement e)) = some σ' ∧
      σ'.Feedable e := by
  obtain ⟨r, found⟩ := Option.isSome_iff_exists.mp feedable.present
  unfold ReadContext.setUpCalls
  simp only [found]
  split_ifs with created both
  · have instant : ∀ op ∈ [ElementOp.setKeyAttr ctx.attrDefs "bytes" "packets",
        .setUsageAttr ctx.attrDefs "bytes", .setUp r.eLevel],
        op.Instant ∧ op.PositiveIntervals := by
      simp [ElementOp.Instant, ElementOp.PositiveIntervals]
    obtain ⟨σ', kept, ran⟩ := feedable.calls ctx.cfg _ instant
    exact ⟨_, σ', rfl, ran, kept⟩
  · exact absurd ⟨defined.bytes, defined.packets⟩ both
  · exact ⟨[], σ, rfl, rfl, feedable⟩

/-- Elements that are created have no histories yet. -/
theorem positiveIntervals_elementLookup (cfg : Config) {σ : Store} (positive : σ.PositiveIntervals)
    (g : GroupPtr) (name : CString) (id : UInt32) (parent : Option ElementPtr) (creat : Bool) :
    (elementLookup cfg σ g name id parent creat).1.PositiveIntervals := by
  obtain same | ⟨-, created⟩ := elementLookup_cases cfg σ g name id parent creat
  · rw [same]
    exact positive
  · rw [created]
    intro x r isElement
    have attrs := map_elementCreate Element.eAttrs
      (field_updateInfo Element.eAttrs fun _ _ _ => rfl) (fun _ _ => rfl) cfg σ g name id parent x
    rw [isElement, Option.map_some] at attrs
    split_ifs at attrs
    · rw [Option.some.inj attrs]
      exact fun a member => by cases member
    · obtain ⟨before, found, same⟩ := Option.map_eq_some_iff.mp attrs.symm
      rw [← same]
      exact positive x before found

/-- With the attributes defined the lookup returns. -/
theorem lookUp_returns {ctx : ReadContext} (defined : ctx.Defined) {σ : Store}
    (wf : σ.WellFormed) (positive : σ.PositiveIntervals) {g : GroupPtr}
    (isGroup : g ∈ σ.groupList) (name : CString) :
    ∃ looked, ctx.lookUp σ g name = some looked ∧ looked.store.PositiveIntervals ∧
      ∀ e, looked.element = some e → looked.store.Feedable e := by
  have kept := positiveIntervals_elementLookup ctx.cfg positive g name 0 none true
  unfold ReadContext.lookUp
  simp only
  split
  · exact ⟨_, rfl, kept, fun e found => by cases found⟩
  · next e present =>
    obtain ⟨-, -, tracked, -⟩ := elementLookup_some wf isGroup (Prod.ext rfl present)
    obtain ⟨-, r, found, -⟩ := tracked_eq_some tracked
    obtain ⟨calls, σ', setUp, ran, feedable⟩ :=
      setUpCalls_returns defined ⟨Option.isSome_iff_exists.mpr ⟨r, found⟩, kept⟩
    rw [setUp, Option.bind_some, ran, Option.map_some]
    refine ⟨_, rfl, feedable.positive, fun e' same => ?_⟩
    obtain rfl := Option.some.inj same
    exact feedable

/-- With positive intervals `element_notify_update` and `element_lifesign` return. -/
theorem Store.Feedable.endCalls {σ : Store} {e : ElementPtr} (feedable : σ.Feedable e)
    (cfg : Config) (now : Timestamp) :
    ∃ enough σ', σ'.Feedable e ∧ ∀ fuel, enough ≤ fuel → Runs.run (InputOp.apply cfg) σ
      ([.notifyUpdate fuel now, .lifesign].map (InputOp.onElement e)) = some σ' := by
  obtain ⟨r, found⟩ := Option.isSome_iff_exists.mp feedable.present
  obtain ⟨enough, attrs, positive, returns⟩ := notifyAttrs_returns cfg now
    ((List.range attrHashSize).flatMap r.eAttrs.eAttrhash) (feedable.positive e r found)
  have notified : ∀ fuel, enough ≤ fuel → ElementOp.apply cfg σ e (.notifyUpdate fuel now) =
      some (σ.modifyElement e (Element.notified cfg σ.cfgList attrs)) := fun fuel more => by
    rw [ElementOp.apply, elementNotifyUpdate, found]
    simp only [returns fuel more, Option.map_some]
    rfl
  have kept := feedable.modifyElement (Element.notified cfg σ.cfgList attrs) fun _ _ => positive
  have alive : (elementLifesign cfg _ e 1).Feedable e :=
    kept.modifyElement _ fun _ before => before
  refine ⟨enough, _, alive, fun fuel more => ?_⟩
  rw [feedable.call cfg _ (notified fuel more), kept.call cfg _ rfl]
  rfl

/-- With positive intervals an element is fed. -/
theorem feedCalls_returns {ctx : ReadContext} (intervals : ctx.PositiveIntervals)
    {σ : Store} {e : ElementPtr} (feedable : σ.Feedable e) (flags : UpdateFlags)
    (readings : List Reading) :
    ∃ enough σ', σ'.Feedable e ∧ ∀ fuel, enough ≤ fuel → Runs.run (InputOp.apply ctx.cfg) σ
      ((ctx.feedCalls fuel flags readings).map (InputOp.onElement e)) = some σ' := by
  obtain ⟨middle, updated, ran⟩ := feedable.calls ctx.cfg
    (readings.map fun reading => .attrUpdate ctx.attrDefs ctx.historyDefs
      (ctx.attrid reading.name) reading.rx reading.tx flags ctx.now) fun op isCall => by
        obtain ⟨reading, -, rfl⟩ := List.mem_map.mp isCall
        exact ⟨trivial, intervals⟩
  obtain ⟨enough, σ', kept, returns⟩ := updated.endCalls ctx.cfg ctx.now
  refine ⟨enough, σ', kept, fun fuel more => ?_⟩
  rw [ReadContext.feedCalls, List.map_append]
  exact Runs.run_append.mpr ⟨middle, ran, returns fuel more⟩

end Bmon
