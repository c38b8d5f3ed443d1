/-
This file shows when the keys of the curses output act on something that is there.

The copies `current_element` and `current_attr` are those of the last full drawing, so that a key
is safe if and only if an element was shown then and no sweep has freed it since. As long as the
terminal is large enough every sweep is followed by a full drawing, and it is enough that an
element is selected when the key is pressed.
-/

import Bmon.Curses
import Bmon.Navigation

namespace Bmon

/-! ### Runs -/

/-- The program with its curses output, and the state at the last full drawing. -/
structure Watched where
  state : CursesState
  lastFull : Option State

/-- One step, watching the drawings. -/
def watchedStep (cfg : Config) (historyDefs : List HistoryDef) (conf : CursesConf) (w : Watched)
    (op : CursesOp) : Option Watched :=
  (cursesStep cfg historyDefs conf w.state op).map fun next => ⟨next,
    match op with
    | .draw screen => if screen.Fits then some w.state.program else w.lastFull
    | _ => w.lastFull⟩

/-- The start of the program, with the options of the user. -/
def CursesState.start (options : CursesState) (program : State) : CursesState :=
  { options with
    program := program
    phase := .keys
    currentElement := none
    currentAttr := none
    listLength := 0
    printHelp := false
    quitMode := false }

/-- The attribute is in the list of an element that is in the store. -/
def Store.HoldsAttr (σ : Store) (a : ElementPtr × SortNode) : Prop :=
  ∃ p r, a.2 = .attr p ∧ σ.elements a.1 = some r ∧ p ∈ r.eAttrs.eAttrSorted

/-- Where `handle_input` dereferences `current_element` or `current_attr`, the pointer shows
something that is in the store. -/
def ActsOnLive (w : Watched) : CursesOp → Prop
  | .key .resetCounters => w.state.phase = .keys →
    ∃ e, w.state.currentElement = some e ∧ (w.state.program.store.elements e).isSome
  | .key .collectHistory => w.state.phase = .keys →
    ∀ a, w.state.currentAttr = some a → w.state.program.store.HoldsAttr a
  | _ => True

/-- For the key `r`, an element was selected at the last full drawing, and has not been freed
since. For the key `h`, if an attribute was selected then, it was not the container of the list
head, and its element has not been freed since. -/
def ShownUnfreed (w : Watched) : CursesOp → Prop
  | .key .resetCounters => w.state.phase = .keys →
    ∃ e, w.lastFull.bind shownElement = some e ∧ (w.state.program.store.elements e).isSome
  | .key .collectHistory => w.state.phase = .keys →
    ∀ a, w.lastFull.bind shownAttr = some a →
      a.2 ≠ .head ∧ (w.state.program.store.elements a.1).isSome
  | _ => True

/-- The terminal is large enough at every drawing; the key `r` is pressed after a drawing and
while an element is selected, and the key `h` while the selected attribute is not the container
of the list head. -/
def Careful (w : Watched) : CursesOp → Prop
  | .draw screen => screen.Fits
  | .key .resetCounters => w.lastFull.isSome ∧ (shownElement w.state.program).isSome
  | .key .collectHistory => (shownAttr w.state.program).map Prod.snd ≠ some .head
  | _ => True

instance (w : Watched) (op : CursesOp) : Decidable (Careful w op) := by
  unfold Careful
  split <;> infer_instance

/-! ### What is shown -/

/-- The element that is selected is in the store. -/
theorem shownElement_present {st : State} (valid : st.Valid) {e : ElementPtr}
    (shown : shownElement st = some e) : (st.store.elements e).isSome := by
  obtain ⟨⟨g, e'⟩, selected, rfl⟩ := Option.map_eq_some_iff.mp shown
  obtain ⟨-, picked⟩ := selected_eq_some_iff.mp selected
  have valid' := valid.selection.elementCurrent
  have group := valid.store.inForest_iff.mp (valid'.gCurrent g e' picked)
  obtain ⟨place, present, -⟩ := eGroup_eq_some_iff.mp group
  obtain ⟨r, found, -⟩ := place_eq_some_iff.mp present
  exact Option.isSome_iff_exists.mpr ⟨r, found⟩

/-- Functions on the table of the selected element keep the program valid. -/
theorem onCurrentAttrs_valid {st : State} (valid : st.Valid) (change : AttrTable → AttrTable) :
    (onCurrentAttrs change st).Valid := by
  have current : State.Valid { st with selection := elementCurrent st.store st.selection } :=
    ⟨valid.store, valid.selection.elementCurrent⟩
  unfold onCurrentAttrs
  split
  · exact current
  · exact current.sameShape (sameShape_modifyElement st.store _ _ fun _ => rfl)

theorem onCurrentAttrs_tablesEvolve (st : State) {change : AttrTable → AttrTable}
    (evolves : ∀ t : AttrTable, t.Evolves (change t)) :
    TablesEvolve st.store (onCurrentAttrs change st).store := by
  unfold onCurrentAttrs
  split
  · exact .refl _
  · exact .modifyElement st.store _ fun r _ => evolves r.eAttrs

/-- Selecting the current element again selects the same one. -/
theorem selected_elementCurrent_again {σ : Store} {s : Selection} {picked : GroupPtr × ElementPtr}
    (selected : (elementCurrent σ s).selected = some picked) (σ' : Store) :
    (elementCurrent σ' (elementCurrent σ s)).selected = some picked := by
  obtain ⟨g, e⟩ := picked
  obtain ⟨current, isCurrent⟩ := selected_eq_some_iff.mp selected
  generalize elementCurrent σ s = s' at current isCurrent
  have same : elementCurrent σ' s' = s' := by
    simp only [elementCurrent, groupCurrent_of_some current, current, isCurrent]
  rw [same]
  exact selected_eq_some_iff.mpr ⟨current, isCurrent⟩

/-- What is selected when an element is picked depends on the store and the group only. -/
theorem selected_elementPickFromPolicy_congr {σ : Store} {s s' : Selection} {g : GroupPtr}
    (current : s.currentGroup = some g) (current' : s'.currentGroup = some g) :
    (elementPickFromPolicy σ s g).selected = (elementPickFromPolicy σ s' g).selected := by
  unfold elementPickFromPolicy
  simp only
  split
  · rw [selected_setCurrent current, selected_setCurrent current']
  · rw [selected_elementSelectFirst current, selected_elementSelectFirst current']

/-- Picking an element stays in the current group. -/
theorem currentGroup_elementPickFromPolicy {σ : Store} {s : Selection} {g : GroupPtr}
    (current : s.currentGroup = some g) :
    (elementPickFromPolicy σ s g).currentGroup = some g := by
  unfold elementPickFromPolicy
  simp only
  split
  · exact current
  · simp only [elementSelectFirst, groupCurrent_of_some current, current]
    exact current

/-- Where nothing can be selected, nothing is selected the next time. -/
theorem selected_elementCurrent_none {σ : Store} {s : Selection}
    (unselected : (elementCurrent σ s).selected = none) :
    (elementCurrent σ (elementCurrent σ s)).selected = none := by
  cases current : (groupCurrent σ s).currentGroup with
  | none =>
    have first : elementCurrent σ s = groupCurrent σ s := by
      simp only [elementCurrent, current]
    rw [first]
    simp only [elementCurrent, groupCurrent_idem, current]
    rw [Selection.selected, current]
    rfl
  | some g =>
    cases picked : (groupCurrent σ s).gCurrent g with
    | some e =>
      have same : elementCurrent σ s = groupCurrent σ s := by
        simp only [elementCurrent, current, picked]
      rw [same, selected_eq_some_iff.mpr ⟨current, picked⟩] at unselected
      cases unselected
    | none =>
      have picks : elementCurrent σ s = elementPickFromPolicy σ (groupCurrent σ s) g := by
        simp only [elementCurrent, current, picked]
      have sameGroup : (elementCurrent σ s).currentGroup = some g := by
        rw [picks]
        exact currentGroup_elementPickFromPolicy current
      have empty : (elementCurrent σ s).gCurrent g = none := by
        rw [Selection.selected, sameGroup, Option.bind_some] at unselected
        exact Option.map_eq_none_iff.mp unselected
      have again : elementCurrent σ (elementCurrent σ s) =
          elementPickFromPolicy σ (elementCurrent σ s) g := by
        rw [elementCurrent]
        simp only [groupCurrent_of_some sameGroup, sameGroup, empty]
      rw [again, selected_elementPickFromPolicy_congr sameGroup current, ← picks]
      exact unselected

/-- After a full drawing the same element is selected. -/
theorem shownElement_onCurrentAttrs (change : AttrTable → AttrTable) (st : State) :
    shownElement (onCurrentAttrs change st) = shownElement st := by
  cases shown : shownElement st with
  | none =>
    have selected := Option.map_eq_none_iff.mp shown
    have same : (onCurrentAttrs change st).store = st.store := by
      unfold onCurrentAttrs
      rw [shown]
    unfold shownElement
    rw [same]
    change (elementCurrent st.store (elementCurrent st.store st.selection)).selected.map _ = _
    rw [selected_elementCurrent_none selected]
    rfl
  | some e =>
    obtain ⟨picked, selected, rfl⟩ := Option.map_eq_some_iff.mp shown
    unfold shownElement
    change (elementCurrent _ (elementCurrent st.store st.selection)).selected.map _ = _
    rw [selected_elementCurrent_again selected]
    rfl

theorem attrCurrent_again (t : AttrTable) : attrCurrent (attrCurrent t) = attrCurrent t := by
  cases current : t.eCurrentAttr with
  | some node =>
    have same : attrCurrent t = t := by
      unfold attrCurrent
      rw [current]
    rw [same, same]
  | none =>
    have first : attrCurrent t = attrSelectFirst t := by
      unfold attrCurrent
      rw [current]
    rw [first]
    unfold attrCurrent
    split
    · rfl
    · rfl

/-- After a full drawing the same attribute is selected. -/
theorem shownAttr_onCurrentAttrs (st : State) :
    shownAttr (onCurrentAttrs attrCurrent st) = shownAttr st := by
  unfold shownAttr
  rw [shownElement_onCurrentAttrs]
  cases shown : shownElement st with
  | none => rfl
  | some e =>
    have store : (onCurrentAttrs attrCurrent st).store =
        st.store.modifyElement e fun r => { r with eAttrs := attrCurrent r.eAttrs } := by
      unfold onCurrentAttrs
      rw [shown]
    rw [Option.bind_some, Option.bind_some, store]
    unfold Store.modifyElement
    simp only [if_true]
    cases st.store.elements e with
    | none => rfl
    | some r =>
      rw [Option.map_some, Option.bind_some, Option.bind_some]
      simp only [attrCurrent_again]

/-! ### What the steps keep -/

/-- The copies are those of the last full drawing, and a copied attribute that is not the
container of a list head stays in the list of its element while that is in the store. -/
structure Watched.Kept (w : Watched) : Prop where
  valid : w.state.program.Valid
  tables : w.state.program.store.SoundTables
  element : w.state.currentElement = w.lastFull.bind shownElement
  attr : w.state.currentAttr = w.lastFull.bind shownAttr
  listed : ∀ e p, w.state.currentAttr = some (e, .attr p) →
    e < w.state.program.store.nextElement ∧
      ∀ r, w.state.program.store.elements e = some r → p ∈ r.eAttrs.eAttrSorted

/-- Moving the selection any number of times keeps it valid. -/
theorem valid_iterate {σ : Store} {move : Selection → Selection}
    (moves : ∀ s : Selection, s.Valid σ → (move s).Valid σ) {s : Selection} (valid : s.Valid σ)
    (n : Nat) : (move^[n] s).Valid σ := by
  induction n with
  | zero => exact valid
  | succ n inductionHypothesis =>
    rw [Function.iterate_succ_apply']
    exact moves _ inductionHypothesis

/-- A callback on every attribute changes their records only. -/
theorem elementForeachAttr_evolves (cb : Attr → Attr) (r : Element) :
    r.eAttrs.Evolves (elementForeachAttr cb r).eAttrs := by
  have each : ∀ (attrs : List AttrPtr) (t : AttrTable),
      t.Evolves (attrs.foldl (fun t p => t.modifyAttr p cb) t) := by
    intro attrs
    induction attrs with
    | nil => exact .refl
    | cons p attrs inductionHypothesis =>
      exact fun t => (AttrTable.Evolves.modifyAttr t p cb).trans (inductionHypothesis _)
  exact each r.eAttrs.eAttrSorted r.eAttrs

/-- What a step that does not draw does: it leaves the copies. -/
structure LeavesCopies (st next : CursesState) : Prop where
  element : next.currentElement = st.currentElement
  attr : next.currentAttr = st.currentAttr
  valid : next.program.Valid
  tables : TablesEvolve st.program.store next.program.store

/-- A step that does not draw keeps the invariant. -/
theorem Watched.Kept.leavesCopies {w : Watched} (kept : w.Kept) {next : CursesState}
    (leaves : LeavesCopies w.state next) : Watched.Kept ⟨next, w.lastFull⟩ where
  valid := leaves.valid
  tables := leaves.tables.soundTables kept.tables
  element := leaves.element.trans kept.element
  attr := leaves.attr.trans kept.attr
  listed e p copied := by
    obtain ⟨old, listed⟩ := kept.listed e p (leaves.attr ▸ copied)
    refine ⟨old.trans_le leaves.tables.nextElement, fun r' present => ?_⟩
    obtain ⟨r, found, more⟩ := leaves.tables.sorted old present
    exact more (listed r found)

namespace LeavesCopies

variable {st : CursesState}

/-- A change of the settings only. -/
theorem settings {next : CursesState} (valid : st.program.Valid)
    (program : next.program = st.program) (element : next.currentElement = st.currentElement)
    (attr : next.currentAttr = st.currentAttr) : LeavesCopies st next :=
  ⟨element, attr, program ▸ valid, program ▸ .refl _⟩

theorem select {s : Selection} (valid : st.program.Valid) (moved : s.Valid st.program.store) :
    LeavesCopies st { st with program := { st.program with selection := s } } :=
  ⟨rfl, rfl, ⟨valid.store, moved⟩, .refl _⟩

theorem attrs {change : AttrTable → AttrTable} (valid : st.program.Valid)
    (evolves : ∀ t : AttrTable, t.Evolves (change t)) :
    LeavesCopies st { st with program := onCurrentAttrs change st.program } :=
  ⟨rfl, rfl, onCurrentAttrs_valid valid change, onCurrentAttrs_tablesEvolve st.program evolves⟩

/-- A change of the attributes of one element. -/
theorem modifyElement {change : Element → Element} (valid : st.program.Valid) (e : ElementPtr)
    (stays : ∀ r : Element, (change r).place = r.place)
    (evolves : ∀ r : Element, r.eAttrs.Evolves (change r).eAttrs) :
    LeavesCopies st { st with program :=
      { st.program with store := st.program.store.modifyElement e change } } :=
  ⟨rfl, rfl, valid.sameShape (sameShape_modifyElement st.program.store e change stays),
    .modifyElement st.program.store e fun r _ => evolves r⟩

end LeavesCopies

/-- Every key leaves the copies. -/
theorem handleInput_leavesCopies {cfg : Config} {historyDefs : List HistoryDef}
    {st next : CursesState} {key : Key} {handled : Bool} (valid : st.program.Valid)
    (pressed : handleInput cfg historyDefs st key = some (next, handled)) :
    LeavesCopies st next := by
  cases key with
  | q =>
    obtain ⟨rfl, -⟩ := Prod.mk.inj (Option.some.inj pressed)
    split_ifs <;> exact .settings valid rfl rfl rfl
  | y =>
    rw [handleInput] at pressed
    split_ifs at pressed
    obtain ⟨rfl, -⟩ := Prod.mk.inj (Option.some.inj pressed)
    exact .settings valid rfl rfl rfl
  | collectHistory =>
    rw [handleInput] at pressed
    split at pressed
    · obtain ⟨rfl, -⟩ := Prod.mk.inj (Option.some.inj pressed)
      exact .settings valid rfl rfl rfl
    · next a copied =>
      obtain ⟨program, started, equal⟩ := Option.map_eq_some_iff.mp pressed
      obtain ⟨rfl, -⟩ := Prod.mk.inj equal
      obtain ⟨e, node⟩ := a
      cases node with
      | head => cases started
      | attr p =>
        obtain ⟨_, -, rfl⟩ := Option.map_eq_some_iff.mp started
        exact .modifyElement valid e (fun _ => rfl) fun r => .modifyAttr r.eAttrs p _
  | resetCounters =>
    obtain ⟨program, reset, equal⟩ := Option.map_eq_some_iff.mp pressed
    obtain ⟨rfl, -⟩ := Prod.mk.inj equal
    obtain ⟨e, -, found⟩ := Option.bind_eq_some_iff.mp reset
    obtain ⟨_, -, rfl⟩ := Option.map_eq_some_iff.mp found
    exact .modifyElement valid e (fun _ => rfl) (elementForeachAttr_evolves attrResetCounter)
  | ppage =>
    obtain ⟨rfl, -⟩ := Prod.mk.inj (Option.some.inj pressed)
    exact .select valid (valid_iterate (fun s moved => moved.elementSelectPrev valid.store)
      valid.selection _)
  | npage =>
    obtain ⟨rfl, -⟩ := Prod.mk.inj (Option.some.inj pressed)
    exact .select valid (valid_iterate (fun s moved => moved.elementSelectNext valid.store)
      valid.selection _)
  | down =>
    obtain ⟨rfl, -⟩ := Prod.mk.inj (Option.some.inj pressed)
    exact .select valid (valid.selection.elementSelectNext valid.store)
  | up =>
    obtain ⟨rfl, -⟩ := Prod.mk.inj (Option.some.inj pressed)
    exact .select valid (valid.selection.elementSelectPrev valid.store)
  | left =>
    obtain ⟨rfl, -⟩ := Prod.mk.inj (Option.some.inj pressed)
    exact .attrs valid .attrSelectPrev
  | right =>
    obtain ⟨rfl, -⟩ := Prod.mk.inj (Option.some.inj pressed)
    exact .attrs valid .attrSelectNext
  | nextGroup =>
    obtain ⟨rfl, -⟩ := Prod.mk.inj (Option.some.inj pressed)
    exact .select valid valid.selection.groupSelectNext
  | prevGroup =>
    obtain ⟨rfl, -⟩ := Prod.mk.inj (Option.some.inj pressed)
    exact .select valid valid.selection.groupSelectPrev
  | _ =>
    obtain ⟨rfl, -⟩ := Prod.mk.inj (Option.some.inj pressed)
    exact .settings valid rfl rfl rfl

/-- On a terminal that is too small nothing is drawn. -/
theorem cursesDraw_small (conf : CursesConf) {screen : Screen} (small : ¬screen.Fits)
    (st : CursesState) : cursesDraw conf screen st = st := by
  rw [Screen.Fits, not_and_or, not_le, not_le] at small
  unfold cursesDraw
  obtain rows | cols := small
  · rw [if_pos rows]
  · rw [if_pos cols, ite_self]

/-- A full drawing makes the copies. -/
theorem cursesDraw_full (conf : CursesConf) {screen : Screen} (fits : screen.Fits)
    (st : CursesState) :
    (cursesDraw conf screen st).program = onCurrentAttrs attrCurrent st.program ∧
      (cursesDraw conf screen st).currentElement = shownElement st.program ∧
      (cursesDraw conf screen st).currentAttr = shownAttr st.program := by
  unfold cursesDraw
  rw [if_neg (not_lt.mpr fits.1), if_neg (not_lt.mpr fits.2)]
  simp only
  split <;> exact ⟨rfl, rfl, rfl⟩

/-- An attribute that is shown, if it is not the container of the list head, is in the list of
its element after the drawing. -/
theorem shownAttr_listed {st : State} (valid : st.Valid) (tables : st.store.SoundTables)
    {e : ElementPtr} {p : AttrPtr} (shown : shownAttr st = some (e, .attr p)) :
    e < (onCurrentAttrs attrCurrent st).store.nextElement ∧
      ∀ r, (onCurrentAttrs attrCurrent st).store.elements e = some r →
        p ∈ r.eAttrs.eAttrSorted := by
  obtain ⟨e', shownE, found⟩ := Option.bind_eq_some_iff.mp shown
  obtain ⟨r, present, current⟩ := Option.bind_eq_some_iff.mp found
  obtain ⟨node, isCurrent, same⟩ := Option.map_eq_some_iff.mp current
  obtain ⟨rfl, rfl⟩ := Prod.mk.inj same
  have store : (onCurrentAttrs attrCurrent st).store =
      st.store.modifyElement e' fun r => { r with eAttrs := attrCurrent r.eAttrs } := by
    unfold onCurrentAttrs
    rw [shownE]
  rw [store]
  have placed : st.store.place e' = some r.place := by
    rw [Store.place, present]
    rfl
  refine ⟨valid.store.element_lt e' r.place placed, fun r' present' => ?_⟩
  change (if e' = e' then (st.store.elements e').map _ else _) = some r' at present'
  rw [if_pos rfl, present, Option.map_some] at present'
  obtain rfl := Option.some.inj present'
  exact ((AttrTable.Evolves.attrCurrent r.eAttrs).sound (tables e' r present)).current p isCurrent

variable {cfg : Config} {historyDefs : List HistoryDef} {conf : CursesConf}

/-- A key that is not handled changes nothing. -/
theorem handleInput_unhandled {st next : CursesState} {key : Key}
    (pressed : handleInput cfg historyDefs st key = some (next, false)) : next = st := by
  cases key with
  | y =>
    rw [handleInput] at pressed
    split_ifs at pressed
    exact (Prod.mk.inj (Option.some.inj pressed)).1.symm
  | collectHistory =>
    rw [handleInput] at pressed
    split at pressed
    · exact (Prod.mk.inj (Option.some.inj pressed)).1.symm
    · obtain ⟨_, -, equal⟩ := Option.map_eq_some_iff.mp pressed
      cases (Prod.mk.inj equal).2
  | resetCounters =>
    obtain ⟨_, -, equal⟩ := Option.map_eq_some_iff.mp pressed
    cases (Prod.mk.inj equal).2
  | other => exact (Prod.mk.inj (Option.some.inj pressed)).1.symm
  | _ => cases (Prod.mk.inj (Option.some.inj pressed)).2

/-- A step of the main loop draws, or leaves the copies; and it only comes back to the keys
without a drawing from a key that changes nothing. -/
theorem cursesStep_cases {st next : CursesState} {op : CursesOp} (valid : st.program.Valid)
    (stepped : cursesStep cfg historyDefs conf st op = some next) :
    (∃ screen, op = .draw screen ∧ next = { cursesDraw conf screen st with phase := .keys }) ∨
      ((∀ screen, op ≠ .draw screen) ∧ LeavesCopies st next ∧
        (next.phase = .keys → st.phase = .keys ∧ next.program = st.program)) := by
  have called : ∀ {call : Op} {program : State}, step cfg st.program call = some program →
      ∀ phase, LeavesCopies st { st with program := program, phase := phase } :=
    fun stepped _ => ⟨rfl, rfl, step_valid valid stepped, step_tablesEvolve valid stepped⟩
  cases op with
  | draw screen =>
    rw [cursesStep] at stepped
    split_ifs at stepped
    exact Or.inl ⟨screen, rfl, (Option.some.inj stepped).symm⟩
  | key key =>
    rw [cursesStep] at stepped
    split_ifs at stepped with atKeys
    obtain ⟨⟨pressed, handled⟩, isPressed, rfl⟩ := Option.map_eq_some_iff.mp stepped
    have leaves := handleInput_leavesCopies valid isPressed
    refine Or.inr ⟨fun _ => nofun, ⟨leaves.element, leaves.attr, leaves.valid, leaves.tables⟩,
      fun stays => ⟨atKeys, ?_⟩⟩
    cases handled with
    | true => cases stays
    | false => rw [handleInput_unhandled isPressed]
  | resetUpdateFlags =>
    rw [cursesStep] at stepped
    split_ifs at stepped
    obtain ⟨program, calls, rfl⟩ := Option.map_eq_some_iff.mp stepped
    exact Or.inr ⟨fun _ => nofun, called calls _, nofun⟩
  | input op =>
    rw [cursesStep] at stepped
    split_ifs at stepped with reading
    obtain ⟨program, calls, rfl⟩ := Option.map_eq_some_iff.mp stepped
    refine Or.inr ⟨fun _ => nofun, called calls _, fun stays => ?_⟩
    change st.phase = .keys at stays
    rw [reading] at stays
    cases stays
  | freeUnusedElements =>
    rw [cursesStep] at stepped
    split_ifs at stepped
    obtain ⟨program, calls, rfl⟩ := Option.map_eq_some_iff.mp stepped
    exact Or.inr ⟨fun _ => nofun, called calls _, nofun⟩

/-- Every step keeps the invariant. -/
theorem watchedStep_kept {w next : Watched} {op : CursesOp} (kept : w.Kept)
    (stepped : watchedStep cfg historyDefs conf w op = some next) : next.Kept := by
  obtain ⟨state, moved, rfl⟩ := Option.map_eq_some_iff.mp stepped
  obtain ⟨screen, rfl, rfl⟩ | ⟨noDraw, leaves, -⟩ := cursesStep_cases kept.valid moved
  · simp only
    split_ifs with fits
    · obtain ⟨program, element, attr⟩ := cursesDraw_full conf fits w.state
      have evolves := onCurrentAttrs_tablesEvolve w.state.program
        AttrTable.Evolves.attrCurrent
      refine ⟨?_, ?_, element, attr, fun e p copied => ?_⟩
      · change (cursesDraw conf screen w.state).program.Valid
        rw [program]
        exact onCurrentAttrs_valid kept.valid attrCurrent
      · change (cursesDraw conf screen w.state).program.store.SoundTables
        rw [program]
        exact evolves.soundTables kept.tables
      · change e < (cursesDraw conf screen w.state).program.store.nextElement ∧ ∀ r,
          (cursesDraw conf screen w.state).program.store.elements e = some r → _
        rw [program]
        exact shownAttr_listed kept.valid kept.tables (attr.symm.trans copied)
    · rw [cursesDraw_small conf fits]
      exact kept.leavesCopies ⟨rfl, rfl, kept.valid, .refl _⟩
  · cases op with
    | draw screen => exact absurd rfl (noDraw screen)
    | _ => exact kept.leavesCopies leaves

theorem watchedKept_start (options : CursesState) (titles : List GroupHdr) (cfgs : List ElementCfg)
    (allowed denied : List Policy) :
    Watched.Kept ⟨options.start (State.start titles cfgs allowed denied), none⟩ where
  valid := valid_stateStart titles cfgs allowed denied
  tables e r present := by cases present
  element := rfl
  attr := rfl
  listed e p copied := by cases copied

/-- Under the invariant a key is safe if and only if what was shown has not been freed. -/
theorem actsOnLive_iff {w : Watched} (kept : w.Kept) (op : CursesOp) :
    ActsOnLive w op ↔ ShownUnfreed w op := by
  cases op with
  | key key =>
    cases key with
    | resetCounters =>
      unfold ActsOnLive ShownUnfreed
      rw [kept.element]
    | collectHistory =>
      unfold ActsOnLive ShownUnfreed
      rw [← kept.attr]
      refine imp_congr_right fun _ => forall₂_congr fun a copied => ?_
      constructor
      · rintro ⟨p, r, isAttr, present, -⟩
        refine ⟨fun isHead => ?_, Option.isSome_iff_exists.mpr ⟨r, present⟩⟩
        rw [isAttr] at isHead
        cases isHead
      · rintro ⟨noHead, present⟩
        obtain ⟨e, node⟩ := a
        obtain ⟨r, found⟩ := Option.isSome_iff_exists.mp present
        cases node with
        | head => exact absurd rfl noHead
        | attr p => exact ⟨p, r, rfl, found, (kept.listed e p copied).2 r found⟩
    | _ => exact Iff.rfl
  | _ => exact Iff.rfl

/-! ### Terminals that are large enough -/

/-- At the keys, once the screen has been drawn, the copies are those of the selection. -/
structure Watched.Fresh (w : Watched) : Prop extends w.Kept where
  element_eq : w.state.phase = .keys → w.lastFull.isSome →
    w.state.currentElement = shownElement w.state.program
  attr_eq : w.state.phase = .keys → w.lastFull.isSome →
    w.state.currentAttr = shownAttr w.state.program

/-- As long as the terminal is large enough the copies are those of the selection. -/
theorem watchedStep_fresh {w next : Watched} {op : CursesOp} (fresh : w.Fresh)
    (careful : Careful w op) (stepped : watchedStep cfg historyDefs conf w op = some next) :
    next.Fresh := by
  have kept := watchedStep_kept fresh.toKept stepped
  obtain ⟨state, moved, rfl⟩ := Option.map_eq_some_iff.mp stepped
  obtain ⟨screen, rfl, rfl⟩ | ⟨noDraw, leaves, stays⟩ := cursesStep_cases fresh.valid moved
  · obtain ⟨program, element, attr⟩ := cursesDraw_full conf careful w.state
    refine ⟨kept, fun _ _ => ?_, fun _ _ => ?_⟩
    · change (cursesDraw conf screen w.state).currentElement =
        shownElement (cursesDraw conf screen w.state).program
      rw [element, program, shownElement_onCurrentAttrs]
    · change (cursesDraw conf screen w.state).currentAttr =
        shownAttr (cursesDraw conf screen w.state).program
      rw [attr, program, shownAttr_onCurrentAttrs]
  · have element : state.phase = .keys → w.lastFull.isSome →
        state.currentElement = shownElement state.program := fun atKeys full => by
      obtain ⟨before, same⟩ := stays atKeys
      rw [leaves.element, same]
      exact fresh.element_eq before full
    have attr : state.phase = .keys → w.lastFull.isSome →
        state.currentAttr = shownAttr state.program := fun atKeys full => by
      obtain ⟨before, same⟩ := stays atKeys
      rw [leaves.attr, same]
      exact fresh.attr_eq before full
    cases op with
    | draw screen => exact absurd rfl (noDraw screen)
    | _ => exact ⟨kept, element, attr⟩

/-- A careful key acts on something that is there. -/
theorem Watched.Fresh.actsOnLive {w : Watched} (fresh : w.Fresh) {op : CursesOp}
    (careful : Careful w op) : ActsOnLive w op := by
  cases op with
  | key key =>
    cases key with
    | resetCounters =>
      intro atKeys
      obtain ⟨full, selected⟩ := careful
      obtain ⟨e, shown⟩ := Option.isSome_iff_exists.mp selected
      exact ⟨e, (fresh.element_eq atKeys full).trans shown,
        shownElement_present fresh.valid shown⟩
    | collectHistory =>
      intro atKeys a copied
      cases full : w.lastFull with
      | none =>
        rw [fresh.attr, full] at copied
        cases copied
      | some drawn =>
        have shown := (fresh.attr_eq atKeys (by rw [full]; rfl)).symm.trans copied
        obtain ⟨e, shownE, found⟩ := Option.bind_eq_some_iff.mp shown
        obtain ⟨r, present, current⟩ := Option.bind_eq_some_iff.mp found
        obtain ⟨node, -, rfl⟩ := Option.map_eq_some_iff.mp current
        cases node with
        | head =>
          unfold Careful at careful
          rw [shown] at careful
          exact absurd rfl careful
        | attr p => exact ⟨p, r, rfl, present, (fresh.listed e p copied).2 r present⟩
    | _ => trivial
  | _ => trivial

/-- **When the keys act on something that is there.** In every run of the main loop in which the
terminal is large enough, `r` is pressed only after a drawing and while an element is selected, and
`h` only while the selected attribute is not the container of the list head, `handle_input` only
uses pointers that show something in the store. In any run, whatever the sizes of the terminal, the
keys and the calls of the input modules, that is so if and only if every element whose counters are
reset was selected at the last full drawing and not freed since, and every attribute whose history
is started was one then, with an element that was not freed since. -/
theorem keys_actOnLive_iff (cfg : Config) (historyDefs : List HistoryDef) (conf : CursesConf)
    (options : CursesState) (titles : List GroupHdr) (cfgs : List ElementCfg)
    (allowed denied : List Policy) (ops : List CursesOp) :
    let start : Watched := ⟨options.start (State.start titles cfgs allowed denied), none⟩
    (Runs.Every (watchedStep cfg historyDefs conf) Careful start ops →
      Runs.Every (watchedStep cfg historyDefs conf) ActsOnLive start ops) ∧
    (Runs.Every (watchedStep cfg historyDefs conf) ActsOnLive start ops ↔
      Runs.Every (watchedStep cfg historyDefs conf) ShownUnfreed start ops) := by
  have kept := watchedKept_start options titles cfgs allowed denied
  refine ⟨fun careful => ?_, ?_⟩
  · exact Runs.Every.imp Watched.Fresh (fun w op fresh careful => fresh.actsOnLive careful)
      (fun w op next fresh careful stepped => watchedStep_fresh fresh careful stepped)
      { toKept := kept
        element_eq := fun _ full => by cases full
        attr_eq := fun _ full => by cases full } careful
  · exact Runs.every_congr Watched.Kept (fun w op kept => actsOnLive_iff kept op)
      (fun w op next kept _ stepped => watchedStep_kept kept stepped) kept ops

/-- The variables of `out_curses.c` before the options of the user. -/
def defaultOptions : CursesState := { program := State.start [] [] [] [] }

/-- The start with these options. -/
def firstWatched : Watched := ⟨defaultOptions.start (State.start [] [] [] []), none⟩

/-- Two elements are created, one with an attribute, and drawn. -/
def firstShown : List CursesOp :=
  .resetUpdateFlags :: parentAndChild.map .input ++
    [.input (.onElement 0 (.attrUpdate [bytesDef] [] 1 5 5 {} ⟨1, 0⟩)), .freeUnusedElements,
      .draw ⟨24, 80⟩]

/-- Both keys after a drawing. -/
theorem keys_actOnLive_shown :
    Runs.Every (watchedStep (confInitPost {}) [] {}) ActsOnLive firstWatched
      (firstShown ++ [.key .resetCounters, .draw ⟨24, 80⟩, .key .collectHistory]) := by
  refine (keys_actOnLive_iff (confInitPost {}) [] {} defaultOptions [] [] [] [] _).1 ?_
  decide +kernel

/-- The key `r` before the first drawing has no element; and when the terminal shrinks before
the element that was drawn expires, both keys act on what was freed. -/
theorem keys_actOnFreed :
    ¬Runs.Every (watchedStep (confInitPost {}) [] {}) ActsOnLive firstWatched
      [.key .resetCounters] ∧
    ∀ key ∈ [Key.resetCounters, Key.collectHistory],
      ¬Runs.Every (watchedStep (confInitPost { lifetime := 2 }) [] {}) ActsOnLive firstWatched
        (firstShown ++ [.resetUpdateFlags, .freeUnusedElements, .draw ⟨3, 80⟩] ++ [.key key]) := by
  refine ⟨fun every => ?_, fun key isKey every => ?_⟩
  · obtain ⟨e, shown, -⟩ := every.1 rfl
    cases shown
  · have run : (Runs.run (watchedStep (confInitPost { lifetime := 2 }) [] {}) firstWatched
        (firstShown ++ [.resetUpdateFlags, .freeUnusedElements, .draw ⟨3, 80⟩])).map (fun w =>
          (w.state.phase, w.state.currentElement, w.state.currentAttr,
            (w.state.program.store.elements 0).isSome)) =
        some (.keys, some 0, some (0, .attr 0), false) := by decide +kernel
    obtain ⟨w, ran, facts⟩ := Option.map_eq_some_iff.mp run
    obtain ⟨atKeys, rest⟩ := Prod.mk.inj facts
    obtain ⟨element, rest⟩ := Prod.mk.inj rest
    obtain ⟨attr, freed⟩ := Prod.mk.inj rest
    have acts := every.of_run ran
    rcases List.mem_pair.mp isKey with rfl | rfl
    · obtain ⟨e, shown, present⟩ := acts atKeys
      obtain rfl := Option.some.inj (element.symm.trans shown)
      rw [freed] at present
      cases present
    · obtain ⟨p, r, -, present, -⟩ := acts atKeys (0, .attr 0) attr
      rw [present] at freed
      cases freed

end Bmon
