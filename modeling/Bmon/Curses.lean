/-
This file models the part of `out_curses.c` between the keys of the user and the program: the
copies `current_element` and `current_attr` that `curses_draw` makes of the selection, and
`handle_input`, which uses them for two of its keys. It runs inside the main loop of `bmon.c`.

The copies are as old as the last full drawing. Nothing is shown before the first one; on a
terminal that is too small `curses_draw` returns before it makes them, while the sweep goes on
freeing elements; and without any element there is nothing to copy. The key `r` does not even ask
whether there is an element.
-/

import Bmon.AttrTables
import Bmon.Sweep

namespace Bmon

/-! ### Drawing -/

/-- What `getmaxyx` reports. -/
structure Screen where
  rows : Int
  cols : Int
  deriving DecidableEq, Repr

/-- The options of the module that do not change any more. -/
structure CursesConf where
  gcWidth : Int := 60
  gcHeight : Int := 6
  cListMin : Int := 6

/-- Where the main loop is: in the loop of `curses_pre`, at the drawing after a key that was
handled, between `reset_update_flags` and the end of `input_read`, or at `output_draw`. -/
inductive Phase where
  | keys
  | redraw
  | reading
  | drawing
  deriving DecidableEq, Repr

/-- The program with the variables of `out_curses.c`. An attribute is given with its element. -/
structure CursesState where
  program : State
  phase : Phase := .keys
  currentElement : Option ElementPtr := none
  currentAttr : Option (ElementPtr × SortNode) := none
  listLength : Int := 0
  printHelp : Bool := false
  quitMode : Bool := false
  cShowGraph : Bool := true
  cNgraph : Int := 1
  cShowDetails : Bool := false
  cShowList : Bool := true
  cShowInfo : Bool := false

/-- The element that `element_current` returns. -/
def shownElement (st : State) : Option ElementPtr :=
  (elementCurrent st.store st.selection).selected.map Prod.snd

/-- Run one of the functions `attr_current`, `attr_select_next` and so on: `element_current`, and
then the function on the table of that element. -/
def onCurrentAttrs (change : AttrTable → AttrTable) (st : State) : State :=
  { store := match shownElement st with
      | none => st.store
      | some e => st.store.modifyElement e fun r => { r with eAttrs := change r.eAttrs }
    selection := elementCurrent st.store st.selection }

/-- The attribute that `attr_current` returns. -/
def shownAttr (st : State) : Option (ElementPtr × SortNode) :=
  (shownElement st).bind fun e =>
    (st.store.elements e).bind fun r =>
      (attrCurrent r.eAttrs).eCurrentAttr.map fun node => (e, node)

namespace CursesState

variable (conf : CursesConf) (screen : Screen) (st : CursesState) (r : Element)

/-- `lines_required_for_list`. -/
def linesRequiredForList : Int :=
  if st.cShowList then
    st.program.store.groupList.length + (displayOrder st.program.store).length
  else 1

/-- `lines_required_for_graph`, for the current element. The program counts lines in an `int`, so
this is what it computes as long as all lines together are less than `2 ^ 31`: only the options for
the number and the height of the graphs can ask for more. -/
def linesRequiredForGraph : Int :=
  if st.cShowGraph then
    let ngraph := min (r.eAttrs.eAttrSorted.length : Int) st.cNgraph
    let graphDisplay := if screen.cols > 2 * (conf.gcWidth + 10) then 1 else 2
    ngraph * (graphDisplay * (conf.gcHeight + 2)) + 1
  else 1

/-- The lines of entries that stand side by side in columns. -/
def linesInColumns (entries : Nat) : Int :=
  let columns := if screen.cols.tdiv 40 = 0 then 1 else screen.cols.tdiv 40
  (entries : Int).tdiv columns + if (entries : Int).tmod columns = 0 then 0 else 1

/-- `lines_required_for_details`, for the current element. -/
def linesRequiredForDetails : Int :=
  if st.cShowDetails then 1 + 1 + linesInColumns screen r.eAttrs.eNattrs else 1

/-- `lines_required_for_info`, for the current element. -/
def linesRequiredForInfo : Int :=
  if st.cShowInfo then 1 + linesInColumns screen r.eNinfo else 1

end CursesState

/-! ### The layout of the sections -/

/-- The lines that `draw_content` has and the lines that the sections ask for. -/
structure ContentLines where
  linesAvailable : Int
  listReq : Nat
  graphReq : Int
  detailsReq : Int
  infoReq : Int
  deriving DecidableEq, Repr

/-- What `draw_content` has settled on when it comes to its label `draw`. -/
structure ContentLayout where
  listLength : Int
  disableGraph : Bool := false
  disableDetails : Bool := false
  disableInfo : Bool := false
  deriving DecidableEq, Repr

namespace ContentLines

variable (lines : ContentLines)

/-- The variable `total_req` of `draw_content`, where it is in the range of `int`. -/
def totalReq : Int := lines.listReq + lines.graphReq + lines.detailsReq + lines.infoReq

/-- The part of `draw_content` before its label `draw`. Nothing if it goes on to the message
about the minimum of lines instead. -/
def settle (conf : CursesConf) (st : CursesState) : Option ContentLayout :=
  if lines.totalReq ≤ lines.linesAvailable then some { listLength := lines.listReq }
  else if st.cShowList ∧
      conf.cListMin ≤ lines.linesAvailable - (lines.totalReq - lines.listReq) then
    some { listLength := lines.linesAvailable - (lines.totalReq - lines.listReq) }
  else if st.cShowInfo ∧
      conf.cListMin ≤ lines.linesAvailable - (lines.totalReq - lines.infoReq + 1) then
    some {
      listLength := lines.linesAvailable - (lines.totalReq - lines.infoReq + 1)
      disableInfo := true }
  else if st.cShowDetails ∧
      conf.cListMin ≤ lines.linesAvailable - (lines.totalReq - lines.detailsReq + 1) then
    some {
      listLength := lines.linesAvailable - (lines.totalReq - lines.detailsReq + 1)
      disableDetails := true }
  else if conf.cListMin ≤ lines.linesAvailable - 1 - 1 - 1 then
    some {
      listLength := lines.linesAvailable - 1 - 1 - 1
      disableGraph := true
      disableDetails := true
      disableInfo := true }
  else none

end ContentLines

namespace CursesState

variable (conf : CursesConf) (screen : Screen) (st : CursesState) (r : Element)

/-- The lines of a drawing of the current element. -/
def contentLines : ContentLines where
  linesAvailable := screen.rows - 1 - 1
  listReq := (st.linesRequiredForList).toNat
  graphReq := st.linesRequiredForGraph conf screen r
  detailsReq := st.linesRequiredForDetails screen r
  infoReq := st.linesRequiredForInfo screen r

/-- What `draw_content` leaves in `list_length`. Before the message about the minimum of lines it is
that of the last alternative. -/
def contentListLength : Int :=
  ((st.contentLines conf screen r).settle conf st).elim (screen.rows - 1 - 1 - 1 - 1 - 1)
    ContentLayout.listLength

end CursesState

/-- The terminal is large enough for `curses_draw` to go beyond its first checks. -/
def Screen.Fits (screen : Screen) : Prop := 4 ≤ screen.rows ∧ 48 ≤ screen.cols

instance (screen : Screen) : Decidable screen.Fits := inferInstanceAs (Decidable (_ ∧ _))

/-- `curses_draw`. -/
def cursesDraw (conf : CursesConf) (screen : Screen) (st : CursesState) : CursesState :=
  if screen.rows < 4 then st
  else if screen.cols < 48 then st
  else
    let drawn : CursesState := { st with
      program := onCurrentAttrs attrCurrent st.program
      currentElement := shownElement st.program
      currentAttr := shownAttr st.program }
    match (shownElement st.program).bind drawn.program.store.elements with
    | none => drawn
    | some r => { drawn with listLength := drawn.contentListLength conf screen r }

/-! ### Keys -/

/-- The keys that `handle_input` knows: the letters are named after what they do. -/
inductive Key where
  | q
  | escape
  | y
  | n
  | clear
  | help
  | toggleGraph
  | toggleDetails
  | toggleList
  | toggleInfo
  | collectHistory
  | ppage
  | npage
  | down
  | up
  | left
  | right
  | nextGroup
  | prevGroup
  | fewerGraphs
  | moreGraphs
  | nextHistory
  | resetCounters
  | other
  deriving DecidableEq, Repr

/-- `element_foreach_attr` with a callback that changes the attributes. -/
def elementForeachAttr (cb : Attr → Attr) (r : Element) : Element :=
  { r with eAttrs := r.eAttrs.eAttrSorted.foldl (fun t p => t.modifyAttr p cb) r.eAttrs }

/-- `reset_counters`. Not possible without an element that is in the store. -/
def resetCounters (st : CursesState) : Option State :=
  st.currentElement.bind fun e =>
    (st.program.store.elements e).map fun _ =>
      { st.program with
        store := st.program.store.modifyElement e (elementForeachAttr attrResetCounter) }

/-- `attr_start_collecting_history` on an attribute of an element. Not possible for the container
of a list head, or when the element is not in the store. -/
def startCollectingHistory (cfg : Config) (historyDefs : List HistoryDef) (st : State) :
    ElementPtr × SortNode → Option State
  | (_, .head) => none
  | (e, .attr p) =>
    ((st.store.elements e).bind fun r => r.eAttrs.attrs[p]?).map fun _ =>
      { st with store := st.store.modifyElement e fun r =>
          { r with eAttrs :=
              r.eAttrs.modifyAttr p (attrStartCollectingHistory cfg historyDefs) } }

/-- `handle_input`: the state afterwards and what the function returns, or nothing where it
exits or uses a pointer that shows nothing. -/
def handleInput (cfg : Config) (historyDefs : List HistoryDef) (st : CursesState) :
    Key → Option (CursesState × Bool)
  | .q =>
    some (if st.printHelp then { st with printHelp := false }
      else { st with quitMode := !st.quitMode }, true)
  | .escape => some ({ st with quitMode := false, printHelp := false }, true)
  | .y => if st.quitMode then none else some (st, false)
  | .n => some ({ st with quitMode := false }, true)
  | .clear => some (st, true)
  | .help => some ({ st with printHelp := !st.printHelp }, true)
  | .toggleGraph =>
    some ({ st with
      cShowGraph := !st.cShowGraph
      cNgraph := if !st.cShowGraph ∧ st.cNgraph = 0 then 1 else st.cNgraph }, true)
  | .toggleDetails => some ({ st with cShowDetails := !st.cShowDetails }, true)
  | .toggleList => some ({ st with cShowList := !st.cShowList }, true)
  | .toggleInfo => some ({ st with cShowInfo := !st.cShowInfo }, true)
  | .collectHistory =>
    match st.currentAttr with
    | none => some (st, false)
    | some a => (startCollectingHistory cfg historyDefs st.program a).map fun program =>
      ({ st with program := program }, true)
  | .ppage =>
    some (select ((elementSelectPrev st.program.store)^[(st.listLength - 1).toNat]), true)
  | .npage =>
    some (select ((elementSelectNext st.program.store)^[(st.listLength - 1).toNat]), true)
  | .down => some (select (elementSelectNext st.program.store), true)
  | .up => some (select (elementSelectPrev st.program.store), true)
  | .left => some ({ st with program := onCurrentAttrs attrSelectPrev st.program }, true)
  | .right => some ({ st with program := onCurrentAttrs attrSelectNext st.program }, true)
  | .nextGroup => some (select (groupSelectNext st.program.store), true)
  | .prevGroup => some (select (groupSelectPrev st.program.store), true)
  | .fewerGraphs =>
    some ({ st with cNgraph := if st.cNgraph - 1 ≤ 1 then 1 else st.cNgraph - 1 }, true)
  | .moreGraphs =>
    some ({ st with cNgraph := if st.cNgraph + 1 > 32 then 32 else st.cNgraph + 1 }, true)
  | .nextHistory => some (st, true)
  | .resetCounters => (resetCounters st).map fun program => ({ st with program := program }, true)
  | .other => some (st, false)
where
  /-- Move the selection. -/
  select (move : Selection → Selection) : CursesState :=
    { st with program := { st.program with selection := move st.program.selection } }

/-! ### The main loop -/

/-- What happens in the main loop with this output: a key, a call of `curses_draw` with the size
of the terminal then, and the calls of a reading. -/
inductive CursesOp where
  | key (key : Key)
  | draw (screen : Screen)
  | resetUpdateFlags
  | input (op : InputOp)
  | freeUnusedElements

/-- One step of the main loop, possible where the loop is. -/
def cursesStep (cfg : Config) (historyDefs : List HistoryDef) (conf : CursesConf)
    (st : CursesState) : CursesOp → Option CursesState
  | .key key =>
    if st.phase = .keys then
      (handleInput cfg historyDefs st key).map fun handled =>
        { handled.1 with phase := if handled.2 then .redraw else .keys }
    else none
  | .draw screen =>
    if st.phase = .redraw ∨ st.phase = .drawing then
      some { cursesDraw conf screen st with phase := .keys }
    else none
  | .resetUpdateFlags =>
    if st.phase = .keys then
      (step cfg st.program .resetUpdateFlags).map fun program =>
        { st with program := program, phase := .reading }
    else none
  | .input op =>
    if st.phase = .reading then
      (step cfg st.program (.input op)).map fun program => { st with program := program }
    else none
  | .freeUnusedElements =>
    if st.phase = .reading then
      (step cfg st.program .freeUnusedElements).map fun program =>
        { st with program := program, phase := .drawing }
    else none

end Bmon
