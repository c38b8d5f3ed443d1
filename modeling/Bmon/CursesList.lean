/-
This file asks whether the selected element is on the screen.

One traversal counts the lines of the element list and remembers the one of the selected element.
`draw_content` centres a window of `list_length` lines on it, and a second traversal draws the
lines in the window. The second one counts on its own: `NEXT_ROW` returns from the drawing
function when the screen is full, before the line has been counted, and from `draw_group` before
the elements of the group. As long as the list is no longer than the screen this never happens
before the selected line. It is longer only if the graphs ask for a negative number of lines, as
the options `ngraph` and `gheight` can make them do.
-/

import Bmon.CursesLayout
import Bmon.Navigation

namespace Bmon

/-! ### Counting the lines -/

/-- The counter `lines` and the variable `selection_offset`. -/
structure ListCount where
  lines : Nat := 0
  selectionOffset : Nat := 0
  deriving DecidableEq, Repr

/-- `count_element_lines`. -/
def countElementLines (currentElement : ElementPtr) (count : ListCount) (_ : GroupPtr)
    (e : ElementPtr) : ListCount where
  lines := count.lines + 1
  selectionOffset := if e = currentElement then count.lines else count.selectionOffset

/-- `count_group_lines`. -/
def countGroupLines (σ : Store) (currentElement : ElementPtr) (count : ListCount)
    (g : GroupPtr) : ListCount :=
  groupForeachElement (fun _ => σ) (countElementLines currentElement)
    { count with lines := count.lines + 1 } g

/-- The part of `lines_required_for_list` for a list that is shown. -/
def countListLines (σ : Store) (currentElement : ElementPtr) : ListCount :=
  σ.groupList.foldl (countGroupLines σ currentElement) {}

/-! ### The window -/

/-- The variables `offset`, `list_length` and `rows`. -/
structure ListWindow where
  offset : Int
  listLength : Int
  rows : Int
  deriving DecidableEq, Repr

/-- The part of `draw_content` behind its label `draw` that sets `offset`. The difference is one
of unsigned numbers, and is stored in an `int`. Nothing if the function comes to `BUG`. -/
def contentOffset (selectionOffset : Nat) (listReq listLength : Int) : Option Int :=
  if selectionOffset ≠ 0 ∧ 0 < listLength then
    let offset := ((selectionOffset : Int) - listLength.tdiv 2).bmod (2 ^ 32)
    let offset := if offset < 0 then 0 else offset
    let offset := if listReq - listLength < offset then listReq - listLength else offset
    if listReq ≤ offset then none else some offset
  else some 0

/-- `line_visible`. -/
def ListWindow.lineVisible (window : ListWindow) (line : Int) : Prop :=
  window.offset ≤ line ∧ line < window.offset + window.listLength

instance instDecidableLineVisible (window : ListWindow) (line : Int) :
    Decidable (window.lineVisible line) :=
  inferInstanceAs (Decidable (_ ∧ _))

/-! ### Drawing the lines -/

/-- A line of the list: the title of a group or an element. -/
inductive ListLine where
  | title (g : GroupPtr)
  | element (e : ElementPtr)
  deriving DecidableEq, Repr

/-- The variable `row` and the counter `line`, with a record of the calls of `draw_element`, each
with the line that it found, and of the lines that were put on the screen, each with its row. -/
structure ListDrawing where
  row : Int := 0
  line : Int := 0
  reached : List (ElementPtr × Int) := []
  drawn : List (ListLine × Int) := []
  deriving DecidableEq, Repr

/-- `NEXT_ROW` returns after it has counted the row. -/
def ListWindow.full (window : ListWindow) (row : Int) : Prop :=
  window.rows - 1 ≤ row + 1

instance instDecidableFull (window : ListWindow) (row : Int) : Decidable (window.full row) :=
  inferInstanceAs (Decidable (_ ≤ _))

/-- `draw_element`. -/
def ListWindow.drawElement (window : ListWindow) (drawing : ListDrawing) (_ : GroupPtr)
    (e : ElementPtr) : ListDrawing :=
  let drawing := { drawing with reached := drawing.reached ++ [(e, drawing.line)] }
  if window.lineVisible drawing.line then
    if window.full drawing.row then { drawing with row := drawing.row + 1 }
    else { drawing with
      row := drawing.row + 1
      line := drawing.line + 1
      drawn := drawing.drawn ++ [(.element e, drawing.row + 1)] }
  else { drawing with line := drawing.line + 1 }

/-- `draw_group`. -/
def ListWindow.drawGroup (window : ListWindow) (σ : Store) (drawing : ListDrawing)
    (g : GroupPtr) : ListDrawing :=
  if window.lineVisible drawing.line then
    if window.full drawing.row then { drawing with row := drawing.row + 1 }
    else groupForeachElement (fun _ => σ) window.drawElement { drawing with
      row := drawing.row + 1
      line := drawing.line + 1
      drawn := drawing.drawn ++ [(.title g, drawing.row + 1)] } g
  else groupForeachElement (fun _ => σ) window.drawElement
    { drawing with line := drawing.line + 1 } g

/-- `draw_element_list`, on a screen where the header is in row 0. -/
def ListWindow.drawElementList (window : ListWindow) (σ : Store) : ListDrawing :=
  σ.groupList.foldl (window.drawGroup σ) {}

/-! ### Where the selected element is -/

section Lines

variable {σ : Store} {forest : GroupPtr → Forest ElementPtr}

/-- The lines of some groups. -/
def listLines (forest : GroupPtr → Forest ElementPtr) (groups : List GroupPtr) : List ListLine :=
  groups.flatMap fun g => .title g :: (forest g).preorder.map .element

theorem listLines_cons (forest : GroupPtr → Forest ElementPtr) (g : GroupPtr)
    (groups : List GroupPtr) :
    (listLines forest (g :: groups)).length =
      (forest g).preorder.length + 1 + (listLines forest groups).length := by
  unfold listLines
  rw [List.flatMap_cons, List.length_append, List.length_cons, List.length_map]

theorem listLines_append (forest : GroupPtr → Forest ElementPtr)
    (groups others : List GroupPtr) :
    (listLines forest (groups ++ others)).length =
      (listLines forest groups).length + (listLines forest others).length := by
  unfold listLines
  rw [List.flatMap_append, List.length_append]

/-- A traversal of a group that leaves the store alone runs the callback on the nodes of the
group. -/
theorem Represents.groupForeachElement_eq {Data : Type*} (represents : Represents σ forest)
    {g : GroupPtr} (member : g ∈ σ.groupList) (cb : Data → GroupPtr → ElementPtr → Data)
    (data : Data) :
    groupForeachElement (fun _ => σ) cb data g =
      (forest g).preorder.foldl (fun data e => cb data g e) data := by
  have keeps : KeepsShape (fun _ => σ) cb := fun _ _ _ => SameShape.refl σ
  rw [groupForeachElement, Store.firstEntry, represents.roots g member]
  exact foreachElement_eq_foldl keeps g (represents.hangs member) (represents.length_le member)

/-- Where an element stands in the list: what comes before and after it in its group, and which
groups come before and after that one. -/
structure Stands (σ : Store) (forest : GroupPtr → Forest ElementPtr) (e : ElementPtr)
    (earlier : List GroupPtr) (g : GroupPtr) (later : List GroupPtr)
    (before after : List ElementPtr) : Prop where
  groups : σ.groupList = earlier ++ g :: later
  nodes : (forest g).preorder = before ++ e :: after
  notBefore : e ∉ before
  notAfter : e ∉ after
  notEarlier : ∀ g' ∈ earlier, e ∉ (forest g').preorder
  notLater : ∀ g' ∈ later, e ∉ (forest g').preorder

theorem Represents.stands (represents : Represents σ forest) {g : GroupPtr} {e : ElementPtr}
    (shown : (g, e) ∈ displayOrder σ) :
    ∃ earlier later before after, Stands σ forest e earlier g later before after := by
  obtain ⟨isGroup, member⟩ := represents.mem_displayOrder.mp shown
  obtain ⟨earlier, later, groups⟩ := List.append_of_mem isGroup
  obtain ⟨before, after, nodes⟩ := List.append_of_mem member
  have once := represents.nodup
  unfold allNodes at once
  rw [groups, List.flatMap_append, List.flatMap_cons, nodes] at once
  simp only [List.nodup_append, List.nodup_cons, List.mem_append, List.mem_cons,
    List.mem_flatMap] at once
  exact ⟨earlier, later, before, after, groups, nodes, by grind, by grind,
    fun g' early inGroup => by grind, fun g' late inGroup => by grind⟩

theorem Stands.inList {e : ElementPtr} {earlier later : List GroupPtr} {g : GroupPtr}
    {before after : List ElementPtr} (stands : Stands σ forest e earlier g later before after) :
    earlier ⊆ σ.groupList ∧ g ∈ σ.groupList ∧ later ⊆ σ.groupList := by
  rw [stands.groups]
  simp

/-! ### What the counting finds -/

section Count

variable {currentElement : ElementPtr}

theorem countElements_lines (g : GroupPtr) (nodes : List ElementPtr) (count : ListCount) :
    (nodes.foldl (fun count e => countElementLines currentElement count g e) count).lines =
      count.lines + nodes.length := by
  induction nodes generalizing count with
  | nil => rfl
  | cons e nodes inductionHypothesis =>
    calc _ = count.lines + 1 + nodes.length := by rw [List.foldl_cons, inductionHypothesis]; rfl
      _ = count.lines + (e :: nodes).length := by rw [List.length_cons]; omega

theorem countElements_other (g : GroupPtr) {nodes : List ElementPtr}
    (others : currentElement ∉ nodes) (count : ListCount) :
    (nodes.foldl (fun count e => countElementLines currentElement count g e)
      count).selectionOffset = count.selectionOffset := by
  induction nodes generalizing count with
  | nil => rfl
  | cons e nodes inductionHypothesis =>
    rw [List.mem_cons, not_or] at others
    obtain ⟨other, others⟩ := others
    rw [List.foldl_cons, inductionHypothesis others]
    exact if_neg (Ne.symm other)

theorem countGroups_lines (represents : Represents σ forest) {groups : List GroupPtr}
    (inList : groups ⊆ σ.groupList) (currentElement : ElementPtr) (count : ListCount) :
    (groups.foldl (countGroupLines σ currentElement) count).lines =
      count.lines + (listLines forest groups).length := by
  induction groups generalizing count with
  | nil => rfl
  | cons g groups inductionHypothesis =>
    obtain ⟨member, inList⟩ := List.cons_subset.mp inList
    rw [List.foldl_cons, inductionHypothesis inList, countGroupLines,
      represents.groupForeachElement_eq member, countElements_lines, listLines_cons]
    dsimp only
    omega

theorem countGroups_other (represents : Represents σ forest) {groups : List GroupPtr}
    (inList : groups ⊆ σ.groupList)
    (others : ∀ g ∈ groups, currentElement ∉ (forest g).preorder) (count : ListCount) :
    (groups.foldl (countGroupLines σ currentElement) count).selectionOffset =
      count.selectionOffset := by
  induction groups generalizing count with
  | nil => rfl
  | cons g groups inductionHypothesis =>
    obtain ⟨member, inList⟩ := List.cons_subset.mp inList
    rw [List.foldl_cons, inductionHypothesis inList fun g' inRest =>
        others g' (List.mem_cons_of_mem _ inRest), countGroupLines,
      represents.groupForeachElement_eq member,
      countElements_other g (others g List.mem_cons_self)]

/-- The line that is remembered is the one in which the element stands. -/
theorem Stands.selectionOffset_eq (represents : Represents σ forest) {g : GroupPtr}
    {earlier later : List GroupPtr} {before after : List ElementPtr}
    (stands : Stands σ forest currentElement earlier g later before after) :
    (countListLines σ currentElement).selectionOffset =
      (listLines forest earlier).length + 1 + before.length := by
  have inList := stands.inList
  rw [countListLines, stands.groups, List.foldl_append, List.foldl_cons,
    countGroups_other represents inList.2.2 stands.notLater, countGroupLines,
    represents.groupForeachElement_eq inList.2.1, stands.nodes, List.foldl_append,
    List.foldl_cons, countElements_other g stands.notAfter]
  have counted := countGroups_lines represents inList.1 currentElement {}
  rw [countElementLines, if_pos rfl, countElements_lines, counted]
  dsimp only
  omega

/-- The lines that are counted are those of all groups. -/
theorem countListLines_lines (represents : Represents σ forest) (currentElement : ElementPtr) :
    (countListLines σ currentElement).lines = (listLines forest σ.groupList).length := by
  have counted := countGroups_lines represents (List.Subset.refl _) currentElement {}
  rw [countListLines, counted]
  exact Nat.zero_add _

/-- The line is one of them, and not the first. -/
theorem Stands.selectionOffset_lt (represents : Represents σ forest) {g : GroupPtr}
    {earlier later : List GroupPtr} {before after : List ElementPtr}
    (stands : Stands σ forest currentElement earlier g later before after) :
    0 < (countListLines σ currentElement).selectionOffset ∧
      (countListLines σ currentElement).selectionOffset <
        (countListLines σ currentElement).lines := by
  rw [countListLines_lines represents, stands.selectionOffset_eq represents, stands.groups,
    listLines_append, listLines_cons, stands.nodes, List.length_append, List.length_cons]
  omega

/-- They are what the list asks for. -/
theorem linesRequiredForList_eq {st : CursesState} (represents : Represents st.program.store forest)
    (listShown : st.cShowList = true) (currentElement : ElementPtr) :
    st.linesRequiredForList = (countListLines st.program.store currentElement).lines := by
  have lengths : ∀ groups : List GroupPtr, (listLines forest groups).length =
      groups.length + (groups.flatMap fun g => (forest g).preorder.map fun e => (g, e)).length := by
    intro groups
    induction groups with
    | nil => rfl
    | cons g groups inductionHypothesis =>
      rw [listLines_cons, inductionHypothesis, List.flatMap_cons, List.length_append,
        List.length_map, List.length_cons]
      omega
  rw [CursesState.linesRequiredForList, if_pos listShown, countListLines_lines represents,
    displayOrder_eq represents, lengths]
  omega

end Count

/-! ### Where the window is -/

/-- The first line on the screen: half a window before the selected one, moved into the list. -/
def windowTop (selectionOffset listReq listLength : Int) : Int :=
  max 0 (min (selectionOffset - listLength / 2) (listReq - listLength))

/-- The first limit of the offset gives way to the second one, so that a window that is longer
than the list begins above it. -/
theorem contentOffset_eq {selectionOffset : Nat} {listReq listLength : Int}
    (below : 0 < selectionOffset) (inList : (selectionOffset : Int) < listReq)
    (positive : 0 < listLength) (countable : listReq < 2 ^ 31) (ranged : listLength < 2 ^ 31) :
    contentOffset selectionOffset listReq listLength =
      some (min (max (selectionOffset - listLength / 2) 0) (listReq - listLength)) := by
  have half : listLength.tdiv 2 = listLength / 2 := Int.tdiv_eq_ediv_of_nonneg positive.le
  have signed : ((selectionOffset : Int) - listLength / 2).bmod (2 ^ 32) =
      selectionOffset - listLength / 2 := Int.bmod_eq_of_le (by omega) (by omega)
  unfold contentOffset
  rw [if_pos ⟨below.ne', positive⟩, half, signed]
  grind

/-! ### What the drawing reaches -/

section Draw

variable {window : ListWindow} {drawing : ListDrawing} {line : Int}

/-- The line can be drawn: it is not below the window, nor below the screen. -/
def ListWindow.Reaches (window : ListWindow) (line : Int) : Prop :=
  line < window.offset + window.listLength ∧ line - max 0 window.offset + 3 ≤ window.rows

theorem ListWindow.Reaches.of_le {other : Int} (reaches : window.Reaches line)
    (le : other ≤ line) : window.Reaches other :=
  ⟨le.trans_lt reaches.1, by have last := reaches.2; omega⟩

/-- All lines before this one have been counted, and those in the window drawn. -/
structure Steady (window : ListWindow) (line : Int) (drawing : ListDrawing) : Prop where
  nonneg : 0 ≤ line
  counted : drawing.line = line
  row : drawing.row = max 0 (line - max 0 window.offset)

theorem Steady.not_full (steady : Steady window line drawing) (reaches : window.Reaches line)
    (visible : window.lineVisible line) : ¬ window.full drawing.row := by
  have row := steady.row
  have nonneg := steady.nonneg
  have last := reaches.2
  unfold ListWindow.lineVisible at visible
  unfold ListWindow.full
  omega

theorem Steady.row_succ (steady : Steady window line drawing) (visible : window.lineVisible line) :
    drawing.row + 1 = max 0 (line + 1 - max 0 window.offset) := by
  have row := steady.row
  have nonneg := steady.nonneg
  unfold ListWindow.lineVisible at visible
  omega

theorem Steady.row_same (steady : Steady window line drawing) (reaches : window.Reaches line)
    (hidden : ¬ window.lineVisible line) :
    drawing.row = max 0 (line + 1 - max 0 window.offset) := by
  have row := steady.row
  have nonneg := steady.nonneg
  have last := reaches.1
  unfold ListWindow.lineVisible at hidden
  omega

theorem Steady.drawElement (steady : Steady window line drawing) (reaches : window.Reaches line)
    (g : GroupPtr) (e : ElementPtr) :
    Steady window (line + 1) (window.drawElement drawing g e) := by
  have counted := steady.counted
  have nonneg : 0 ≤ line + 1 := by have before := steady.nonneg; omega
  unfold ListWindow.drawElement
  subst counted
  dsimp only
  by_cases visible : window.lineVisible drawing.line
  · have room := steady.not_full reaches visible
    rw [if_pos visible, if_neg room]
    exact ⟨nonneg, rfl, steady.row_succ visible⟩
  · rw [if_neg visible]
    exact ⟨nonneg, rfl, steady.row_same reaches visible⟩

theorem Steady.drawElements (g : GroupPtr) (nodes : List ElementPtr) {line : Int}
    {drawing : ListDrawing} (steady : Steady window line drawing)
    (reaches : window.Reaches (line + nodes.length)) :
    Steady window (line + nodes.length)
      (nodes.foldl (fun drawing e => window.drawElement drawing g e) drawing) := by
  induction nodes generalizing line drawing with
  | nil => simpa using steady
  | cons e nodes inductionHypothesis =>
    rw [List.length_cons, Nat.cast_succ, add_comm (nodes.length : Int), ← add_assoc] at reaches ⊢
    exact inductionHypothesis (steady.drawElement (reaches.of_le (by omega)) g e) reaches

/-- `draw_group` counts the title and goes on to the elements. -/
theorem Steady.drawGroup_eq (steady : Steady window line drawing)
    (reaches : window.Reaches line) (represents : Represents σ forest) {g : GroupPtr}
    (member : g ∈ σ.groupList) :
    ∃ titled, Steady window (line + 1) titled ∧ titled.reached = drawing.reached ∧
      window.drawGroup σ drawing g =
        (forest g).preorder.foldl (fun drawing e => window.drawElement drawing g e)
          titled := by
  have counted := steady.counted
  have nonneg : 0 ≤ line + 1 := by have before := steady.nonneg; omega
  unfold ListWindow.drawGroup
  subst counted
  by_cases visible : window.lineVisible drawing.line
  · have room := steady.not_full reaches visible
    rw [if_pos visible, if_neg room, represents.groupForeachElement_eq member]
    exact ⟨{ drawing with
      row := drawing.row + 1
      line := drawing.line + 1
      drawn := drawing.drawn ++ [(.title g, drawing.row + 1)] },
      ⟨nonneg, rfl, steady.row_succ visible⟩, rfl, rfl⟩
  · rw [if_neg visible, represents.groupForeachElement_eq member]
    exact ⟨{ drawing with line := drawing.line + 1 },
      ⟨nonneg, rfl, steady.row_same reaches visible⟩, rfl, rfl⟩

theorem Steady.drawGroups (represents : Represents σ forest) {groups : List GroupPtr}
    (inList : groups ⊆ σ.groupList) {line : Int} {drawing : ListDrawing}
    (steady : Steady window line drawing)
    (reaches : window.Reaches (line + (listLines forest groups).length)) :
    Steady window (line + (listLines forest groups).length)
      (groups.foldl (window.drawGroup σ) drawing) := by
  induction groups generalizing line drawing with
  | nil => simpa [listLines] using steady
  | cons g groups inductionHypothesis =>
    obtain ⟨member, inList⟩ := List.cons_subset.mp inList
    have length : line + ((listLines forest (g :: groups)).length : Int) =
        line + 1 + (forest g).preorder.length + (listLines forest groups).length := by
      rw [listLines_cons]
      omega
    rw [length] at reaches ⊢
    obtain ⟨titled, steadyTitled, -, drawn⟩ :=
      steady.drawGroup_eq (reaches.of_le (by omega)) represents member
    rw [List.foldl_cons, drawn]
    exact inductionHypothesis inList (steadyTitled.drawElements g _ (reaches.of_le (by omega)))
      reaches

/-! ### What the records keep -/

theorem mem_reached_drawElement {g : GroupPtr} {e : ElementPtr} {call : ElementPtr × Int} :
    call ∈ (window.drawElement drawing g e).reached ↔
      call ∈ drawing.reached ∨ call = (e, drawing.line) := by
  unfold ListWindow.drawElement
  dsimp only
  split_ifs <;> simp

theorem drawElements_reached (g : GroupPtr) {e : ElementPtr} {nodes : List ElementPtr}
    (others : e ∉ nodes) (drawing : ListDrawing) :
    (e, line) ∈ (nodes.foldl (fun drawing e => window.drawElement drawing g e)
      drawing).reached ↔ (e, line) ∈ drawing.reached := by
  induction nodes generalizing drawing with
  | nil => rfl
  | cons node nodes inductionHypothesis =>
    rw [List.mem_cons, not_or] at others
    rw [List.foldl_cons, inductionHypothesis others.2, mem_reached_drawElement]
    refine or_iff_left fun same => others.1 ?_
    exact (Prod.mk.inj same).1

theorem drawGroups_reached (represents : Represents σ forest) {e : ElementPtr}
    {groups : List GroupPtr} (inList : groups ⊆ σ.groupList)
    (others : ∀ g ∈ groups, e ∉ (forest g).preorder) (drawing : ListDrawing) :
    (e, line) ∈ (groups.foldl (window.drawGroup σ) drawing).reached ↔
      (e, line) ∈ drawing.reached := by
  induction groups generalizing drawing with
  | nil => rfl
  | cons g groups inductionHypothesis =>
    obtain ⟨member, inList⟩ := List.cons_subset.mp inList
    have other := others g List.mem_cons_self
    rw [List.foldl_cons, inductionHypothesis inList fun g' inRest =>
      others g' (List.mem_cons_of_mem _ inRest)]
    unfold ListWindow.drawGroup
    rw [represents.groupForeachElement_eq member, represents.groupForeachElement_eq member]
    split_ifs
    · rfl
    · rw [drawElements_reached g other]
    · rw [drawElements_reached g other]

/-- What is true of every drawing is true after some more groups, if the title and the elements
of a group preserve it. -/
theorem drawGroups_invariant (invariant : ListDrawing → Prop)
    (cut : ∀ drawing, invariant drawing → window.lineVisible drawing.line →
      invariant { drawing with row := drawing.row + 1 })
    (title : ∀ drawing g, invariant drawing → window.lineVisible drawing.line →
      ¬ window.full drawing.row → invariant { drawing with
        row := drawing.row + 1
        line := drawing.line + 1
        drawn := drawing.drawn ++ [(.title g, drawing.row + 1)] })
    (hidden : ∀ drawing, invariant drawing → ¬ window.lineVisible drawing.line →
      invariant { drawing with line := drawing.line + 1 })
    (element : ∀ drawing g e, invariant drawing → invariant (window.drawElement drawing g e))
    (groups : List GroupPtr) {drawing : ListDrawing} (initial : invariant drawing) :
    invariant (groups.foldl (window.drawGroup σ) drawing) := by
  induction groups generalizing drawing with
  | nil => exact initial
  | cons g groups inductionHypothesis =>
    refine inductionHypothesis ?_
    unfold ListWindow.drawGroup
    split_ifs with visible full
    · exact cut drawing initial visible
    · exact foreachElement_invariant element g (title drawing g initial visible full) _
    · exact foreachElement_invariant element g (hidden drawing initial visible) _

/-- What has been drawn stays on the screen. -/
theorem drawElement_keeps {shown : ListLine × Int} (g : GroupPtr) (e : ElementPtr)
    (drawn : shown ∈ drawing.drawn) : shown ∈ (window.drawElement drawing g e).drawn := by
  unfold ListWindow.drawElement
  dsimp only
  split_ifs
  · exact drawn
  · exact List.mem_append_left _ drawn
  · exact drawn

theorem drawElements_keeps {shown : ListLine × Int} (g : GroupPtr) (nodes : List ElementPtr)
    (drawn : shown ∈ drawing.drawn) :
    shown ∈ (nodes.foldl (fun drawing e => window.drawElement drawing g e) drawing).drawn := by
  induction nodes generalizing drawing with
  | nil => exact drawn
  | cons e nodes inductionHypothesis => exact inductionHypothesis (drawElement_keeps g e drawn)

theorem drawGroups_keeps {shown : ListLine × Int} (groups : List GroupPtr)
    (drawn : shown ∈ drawing.drawn) :
    shown ∈ (groups.foldl (window.drawGroup σ) drawing).drawn :=
  drawGroups_invariant (fun drawing => shown ∈ drawing.drawn) (fun _ drawn _ => drawn)
    (fun _ _ drawn _ _ => List.mem_append_left _ drawn) (fun _ drawn _ => drawn)
    (fun _ g e drawn => drawElement_keeps g e drawn) groups drawn

/-- The rows that are used are at least the lines of the window that are counted, and an element
on the screen stands at least as low as the line on which it was reached. -/
structure Placed (window : ListWindow) (drawing : ListDrawing) : Prop where
  nonneg : 0 ≤ drawing.row
  counted : min drawing.line (window.offset + window.listLength) - max 0 window.offset ≤
    drawing.row
  shown : ∀ e row, (ListLine.element e, row) ∈ drawing.drawn → ∃ line,
    (e, line) ∈ drawing.reached ∧ line - max 0 window.offset + 1 ≤ row ∧ row < window.rows - 1

theorem Placed.drawElement (placed : Placed window drawing) (g : GroupPtr) (e : ElementPtr) :
    Placed window (window.drawElement drawing g e) := by
  obtain ⟨nonneg, counted, shown⟩ := placed
  have kept : ∀ e' row, (ListLine.element e', row) ∈ drawing.drawn → ∃ line,
      (e', line) ∈ drawing.reached ++ [(e, drawing.line)] ∧
        line - max 0 window.offset + 1 ≤ row ∧ row < window.rows - 1 := by
    intro e' row drawn
    obtain ⟨line, reached, placed⟩ := shown e' row drawn
    exact ⟨line, List.mem_append_left _ reached, placed⟩
  unfold ListWindow.drawElement
  dsimp only
  split_ifs with visible full
  all_goals unfold ListWindow.lineVisible at visible
  · exact ⟨by dsimp only; omega, by dsimp only; omega, kept⟩
  · refine ⟨by dsimp only; omega, by dsimp only; omega, fun e' row drawn => ?_⟩
    unfold ListWindow.full at full
    rcases List.mem_append.mp drawn with drawn | drawn
    · exact kept e' row drawn
    · obtain ⟨same, rfl⟩ := Prod.mk.inj (List.mem_singleton.mp drawn)
      obtain rfl := ListLine.element.inj same
      exact ⟨drawing.line, by simp, by omega, by omega⟩
  · exact ⟨nonneg, by dsimp only; omega, kept⟩

theorem placed_drawElementList (σ : Store) (window : ListWindow) :
    Placed window (window.drawElementList σ) := by
  refine drawGroups_invariant (Placed window) (fun drawing placed visible => ?_)
    (fun drawing g placed visible full => ?_) (fun drawing placed hidden => ?_)
    (fun _ g e placed => placed.drawElement g e) _ ?_
  · obtain ⟨nonneg, counted, shown⟩ := placed
    exact ⟨by dsimp only; omega, by dsimp only; omega, shown⟩
  · obtain ⟨nonneg, counted, shown⟩ := placed
    unfold ListWindow.lineVisible at visible
    refine ⟨by dsimp only; omega, by dsimp only; omega, fun e row drawn => ?_⟩
    rcases List.mem_append.mp drawn with drawn | drawn
    · exact shown e row drawn
    · cases List.mem_singleton.mp drawn
  · obtain ⟨nonneg, counted, shown⟩ := placed
    unfold ListWindow.lineVisible at hidden
    exact ⟨nonneg, by dsimp only; omega, shown⟩
  · exact ⟨le_refl 0, by dsimp only; omega, fun _ _ drawn => absurd drawn List.not_mem_nil⟩

/-- The drawing reaches the element on one line only, and puts it on the screen. -/
def ListDrawing.Shows (drawing : ListDrawing) (e : ElementPtr) (line : Int) : Prop :=
  (∀ reached, (e, reached) ∈ drawing.reached ↔ reached = line) ∧
    ∃ row, (.element e, row) ∈ drawing.drawn

/-- The line of the selected element can be drawn. Then the drawing comes to it on this line. -/
theorem Stands.shows (represents : Represents σ forest) {e : ElementPtr} {g : GroupPtr}
    {earlier later : List GroupPtr} {before after : List ElementPtr}
    (stands : Stands σ forest e earlier g later before after)
    (visible : window.lineVisible (countListLines σ e).selectionOffset)
    (reaches : window.Reaches (countListLines σ e).selectionOffset) :
    (window.drawElementList σ).Shows e (countListLines σ e).selectionOffset := by
  have inList := stands.inList
  have position : ((countListLines σ e).selectionOffset : Int) =
      0 + (listLines forest earlier).length + 1 + before.length := by
    rw [stands.selectionOffset_eq represents]
    omega
  generalize ((countListLines σ e).selectionOffset : Int) = line at *
  have start : Steady window 0 {} := ⟨le_refl 0, rfl, by dsimp only; omega⟩
  have toGroup := start.drawGroups represents inList.1 (reaches.of_le (by omega))
  obtain ⟨titled, steadyTitled, reachedTitled, drawnGroup⟩ :=
    toGroup.drawGroup_eq (reaches.of_le (by omega)) represents inList.2.1
  have toElement := steadyTitled.drawElements g before (reaches.of_le (by omega))
  rw [← position] at toElement
  have notYet : ∀ reached, (e, reached) ∉
      (before.foldl (fun drawing e => window.drawElement drawing g e) titled).reached := by
    intro reached
    rw [drawElements_reached g stands.notBefore, reachedTitled,
      drawGroups_reached represents inList.1 stands.notEarlier]
    exact List.not_mem_nil
  have drawnList : window.drawElementList σ = later.foldl (window.drawGroup σ)
      (after.foldl (fun drawing e => window.drawElement drawing g e)
        (window.drawElement
          (before.foldl (fun drawing e => window.drawElement drawing g e) titled) g e)) := by
    rw [ListWindow.drawElementList, stands.groups, List.foldl_append, List.foldl_cons, drawnGroup,
      stands.nodes, List.foldl_append, List.foldl_cons]
  generalize before.foldl (fun drawing e => window.drawElement drawing g e) titled = arrived
    at *
  rw [drawnList]
  refine ⟨fun reached => ?_, ?_⟩
  · rw [drawGroups_reached represents inList.2.2 stands.notLater,
      drawElements_reached g stands.notAfter, mem_reached_drawElement,
      or_iff_right (notYet reached), toElement.counted]
    simp
  · have drawn : (.element e, arrived.row + 1) ∈
        (window.drawElement arrived g e).drawn := by
      unfold ListWindow.drawElement
      dsimp only
      rw [if_pos (by rw [toElement.counted]; exact visible),
        if_neg (toElement.not_full reaches visible)]
      simp
    exact ⟨arrived.row + 1, drawGroups_keeps later (drawElements_keeps g after drawn)⟩

/-- So it does only then: an element that is on the screen has a row for each line before it. -/
theorem Stands.shows_iff (represents : Represents σ forest) {e : ElementPtr} {g : GroupPtr}
    {earlier later : List GroupPtr} {before after : List ElementPtr}
    (stands : Stands σ forest e earlier g later before after)
    (visible : window.lineVisible (countListLines σ e).selectionOffset) :
    (window.drawElementList σ).Shows e (countListLines σ e).selectionOffset ↔
      (countListLines σ e).selectionOffset - max 0 window.offset + 3 ≤ window.rows := by
  constructor
  · rintro ⟨reachedOnce, row, drawn⟩
    obtain ⟨line, reached, low, onScreen⟩ :=
      (placed_drawElementList σ window).shown e row drawn
    obtain rfl := (reachedOnce line).mp reached
    omega
  · intro room
    exact stands.shows represents visible ⟨visible.2, room⟩

end Draw

/-! ### The drawing of the content -/

/-- The graphs ask for at least a line if their options are not negative. -/
theorem linesRequiredForGraph_pos (conf : CursesConf) (screen : Screen) (st : CursesState)
    (r : Element) (graphs : 0 ≤ st.cNgraph) (height : -2 ≤ conf.gcHeight) :
    1 ≤ st.linesRequiredForGraph conf screen r := by
  have count : 0 ≤ min (r.eAttrs.eAttrSorted.length : Int) st.cNgraph :=
    le_min (by omega) graphs
  have nonneg : 0 ≤ (if screen.cols > 2 * (conf.gcWidth + 10) then (1 : Int) else 2) := by
    split <;> omega
  unfold CursesState.linesRequiredForGraph
  dsimp only
  generalize (if screen.cols > 2 * (conf.gcWidth + 10) then (1 : Int) else 2) = display at *
  have lines := mul_nonneg count (mul_nonneg nonneg (by omega : 0 ≤ conf.gcHeight + 2))
  split <;> omega

theorem linesInColumns_nonneg {screen : Screen} (fits : screen.Fits) (entries : Nat) :
    0 ≤ CursesState.linesInColumns screen entries := by
  have wide := fits.2
  have columns : 0 ≤ screen.cols.tdiv 40 := Int.tdiv_nonneg (by omega) (by omega)
  have divisor : 0 ≤ (if screen.cols.tdiv 40 = 0 then 1 else screen.cols.tdiv 40) := by
    split <;> omega
  unfold CursesState.linesInColumns
  generalize (if screen.cols.tdiv 40 = 0 then 1 else screen.cols.tdiv 40) = columns at *
  have rows : 0 ≤ (entries : Int).tdiv columns := Int.tdiv_nonneg (by omega) divisor
  dsimp only
  split <;> omega

/-- The list is no longer than the lines that are available, unless the graphs ask for a
negative number of lines. -/
theorem settle_listLength_le {conf : CursesConf} {screen : Screen} {st : CursesState} {r : Element}
    {layout : ContentLayout} (fits : screen.Fits) (graphs : 0 ≤ st.cNgraph)
    (height : -2 ≤ conf.gcHeight)
    (settled : (st.contentLines conf screen r).settle conf st = some layout) :
    layout.listLength ≤ screen.rows - 2 := by
  have graph : 1 ≤ (st.contentLines conf screen r).graphReq :=
    linesRequiredForGraph_pos conf screen st r graphs height
  have details : 1 ≤ (st.contentLines conf screen r).detailsReq := by
    have columns := linesInColumns_nonneg fits r.eAttrs.eNattrs
    unfold CursesState.contentLines CursesState.linesRequiredForDetails
    dsimp only
    split <;> omega
  have info : 1 ≤ (st.contentLines conf screen r).infoReq := by
    have columns := linesInColumns_nonneg fits r.eNinfo
    unfold CursesState.contentLines CursesState.linesRequiredForInfo
    dsimp only
    split <;> omega
  have available : (st.contentLines conf screen r).linesAvailable = screen.rows - 2 := by
    unfold CursesState.contentLines
    dsimp only
    omega
  generalize st.contentLines conf screen r = lines at *
  unfold ContentLines.settle ContentLines.totalReq at settled
  split_ifs at settled <;> grind

end Lines

/-- Wherever the selected element stands, its line is in the window that `draw_content` places,
and `BUG` is not reached. The drawing comes to the element on this line and puts it on the screen
exactly if fewer than `rows - 2` lines come before it on the screen. With graph options that are
not negative it always does. -/
theorem selection_shown_iff {st : CursesState} {forest : GroupPtr → Forest ElementPtr}
    (represents : Represents st.program.store forest) {g : GroupPtr} {e : ElementPtr}
    (listed : (g, e) ∈ displayOrder st.program.store) (listShown : st.cShowList = true)
    {conf : CursesConf} {screen : Screen} (fits : screen.Fits) {r : Element}
    {layout : ContentLayout}
    (settled : (st.contentLines conf screen r).settle conf st = some layout)
    (positive : 0 < layout.listLength) (countable : st.linesRequiredForList < 2 ^ 31)
    (ranged : layout.listLength < 2 ^ 31) :
    ∃ offset : Int,
      contentOffset (countListLines st.program.store e).selectionOffset st.linesRequiredForList
          layout.listLength = some offset ∧
        offset ≤ (countListLines st.program.store e).selectionOffset ∧
        (countListLines st.program.store e).selectionOffset < offset + layout.listLength ∧
        offset < st.linesRequiredForList ∧
        ((ListWindow.drawElementList ⟨offset, layout.listLength, screen.rows⟩
            st.program.store).Shows e (countListLines st.program.store e).selectionOffset ↔
          (countListLines st.program.store e).selectionOffset -
              windowTop (countListLines st.program.store e).selectionOffset
                st.linesRequiredForList layout.listLength + 3 ≤ screen.rows) ∧
        (0 ≤ st.cNgraph → -2 ≤ conf.gcHeight →
          (ListWindow.drawElementList ⟨offset, layout.listLength, screen.rows⟩
            st.program.store).Shows e (countListLines st.program.store e).selectionOffset) := by
  obtain ⟨earlier, later, before, after, stands⟩ := represents.stands listed
  obtain ⟨below, inList⟩ := stands.selectionOffset_lt represents
  rw [linesRequiredForList_eq represents listShown e] at countable ⊢
  have inList : ((countListLines st.program.store e).selectionOffset : Int) <
      (countListLines st.program.store e).lines := by exact_mod_cast inList
  refine ⟨_, contentOffset_eq below inList positive countable ranged, by omega, by omega,
    by omega, ?_⟩
  have visible : ListWindow.lineVisible
      ⟨min (max ((countListLines st.program.store e).selectionOffset - layout.listLength / 2) 0)
        ((countListLines st.program.store e).lines - layout.listLength), layout.listLength,
        screen.rows⟩ (countListLines st.program.store e).selectionOffset :=
    ⟨by dsimp only; omega, by dsimp only; omega⟩
  have exact := stands.shows_iff represents visible
  dsimp only at exact
  unfold windowTop
  refine ⟨exact.trans (by omega), fun graphs height => exact.mpr ?_⟩
  have length := settle_listLength_le fits graphs height settled
  omega

/-- The two groups, with the element of the second one selected. -/
def lastSelected : CursesState where
  program := ⟨twoGroups, ⟨some 1, fun _ => some 2⟩⟩

/-- On a terminal of twenty-four rows the last element of the two groups is on the screen. -/
theorem selection_shown_iff_last :
    (ListWindow.drawElementList ⟨0, 5, 24⟩ twoGroups).Shows 2
      (countListLines twoGroups 2).selectionOffset := by
  have settles : (twoGroups.elements 2).map (fun r =>
      (lastSelected.contentLines {} ⟨24, 80⟩ r).settle {} lastSelected) =
      some (some { listLength := 5 }) := by decide +kernel
  obtain ⟨r, -, settled⟩ := Option.map_eq_some_iff.mp settles
  obtain ⟨offset, computed, -, -, -, -, shows⟩ :=
    @selection_shown_iff lastSelected _ represents_twoGroups 1 2 (by decide +kernel) rfl {} ⟨24, 80⟩
      (by decide) r _ settled (by decide) (by decide +kernel) (by decide)
  have start : contentOffset (countListLines twoGroups 2).selectionOffset
      lastSelected.linesRequiredForList 5 = some 0 := by decide +kernel
  obtain rfl := Option.some.inj (computed.symm.trans start)
  exact shows (by decide) (by decide)

/-- On a terminal of five rows with the option `ngraph=-5` the list of the two groups is taken to
fit, but the drawing does not come to the last element any more. -/
theorem selection_not_reached :
    (twoGroups.elements 2).map (fun r =>
        (({ lastSelected with cNgraph := -5 }).contentLines {} ⟨5, 80⟩ r).settle {}
          { lastSelected with cNgraph := -5 }) = some (some { listLength := 5 }) ∧
      countListLines twoGroups 2 = ⟨5, 4⟩ ∧ contentOffset 4 5 5 = some 0 ∧
      (ListWindow.drawElementList ⟨0, 5, 5⟩ twoGroups).reached = [(0, 1), (1, 2)] := by
  decide +kernel

end Bmon
