/-
This file asks what `draw_content` does with the lines of a section that it hides.

When the sections ask for more lines than the terminal has, the function tries four layouts in
turn: a shorter list, no information, no details, and the list alone. A section that is hidden
keeps one line for its heading, and the list should get the others. The first and the last
alternative give it all of them. The two in between subtract from the lines available what the
list asks for as well, so that they give the list that much less than there is, and mostly end in
the last alternative although hiding one section would do.
-/

import Bmon.Curses

namespace Bmon

/-! ### Layouts that fill the terminal -/

namespace ContentLines

variable (lines : ContentLines)

/-- The lines below the list: what the enabled sections ask for, and one line for each of the
others. -/
def linesBelow (disableGraph disableDetails disableInfo : Bool) : Int :=
  (if disableGraph then 1 else lines.graphReq) +
    (if disableDetails then 1 else lines.detailsReq) +
    (if disableInfo then 1 else lines.infoReq)

/-- A layout leaves no line of the terminal unused and uses none twice. -/
def Fills (layout : ContentLayout) : Prop :=
  layout.listLength +
      lines.linesBelow layout.disableGraph layout.disableDetails layout.disableInfo =
    lines.linesAvailable

/-- The layout that disables some sections and gives the list all that is left. -/
def hide (disableGraph disableDetails disableInfo : Bool) : ContentLayout where
  listLength := lines.linesAvailable - lines.linesBelow disableGraph disableDetails disableInfo
  disableGraph := disableGraph
  disableDetails := disableDetails
  disableInfo := disableInfo

theorem hide_fills (disableGraph disableDetails disableInfo : Bool) :
    lines.Fills (lines.hide disableGraph disableDetails disableInfo) :=
  sub_add_cancel _ _

/-- The alternatives of `draw_content` in their order: a section that is not shown cannot be
hidden. -/
def alternatives (st : CursesState) : List ContentLayout :=
  [lines.hide false false false] ++
    (if st.cShowInfo then [lines.hide false false true] else []) ++
    (if st.cShowDetails then [lines.hide false true false] else []) ++
    [lines.hide true true true]

/-- The first of them that leaves at least `c_list_min` lines for the list. -/
def firstSufficient (conf : CursesConf) (st : CursesState) : Option ContentLayout :=
  (lines.alternatives st).find? fun layout => decide (conf.cListMin ≤ layout.listLength)

theorem fills_of_firstSufficient {conf : CursesConf} {st : CursesState} {layout : ContentLayout}
    (first : lines.firstSufficient conf st = some layout) : lines.Fills layout := by
  have listed : layout ∈ lines.alternatives st := List.mem_of_find?_eq_some first
  unfold alternatives at listed
  simp only [List.mem_append, List.mem_ite_nil_right, List.mem_singleton] at listed
  rcases listed with ((rfl | ⟨-, rfl⟩) | ⟨-, rfl⟩) | rfl
  all_goals exact lines.hide_fills _ _ _

end ContentLines

/-! ### Where the lines go -/

namespace ContentLines

variable {lines : ContentLines} {conf : CursesConf} {st : CursesState}

theorem shortened_eq (lines : ContentLines) :
    lines.linesAvailable - (lines.totalReq - lines.listReq) =
      (lines.hide false false false).listLength := by
  unfold totalReq hide linesBelow
  simp only [Bool.false_eq_true, if_false]
  omega

/-- Shortening the list takes exactly what the other sections leave. -/
theorem settle_shorten (listShown : st.cShowList = true)
    (tight : lines.linesAvailable < lines.totalReq)
    (enough : conf.cListMin ≤ (lines.hide false false false).listLength) :
    lines.settle conf st = some (lines.hide false false false) := by
  unfold settle
  rw [if_neg (not_le.mpr tight), shortened_eq, if_pos ⟨listShown, enough⟩]
  rfl

/-- When that is not enough, the two alternatives in the middle give the list as many lines
fewer than there are as the list asks for. -/
theorem settle_hide (tight : lines.linesAvailable < lines.totalReq)
    (short : (lines.hide false false false).listLength < conf.cListMin) :
    lines.settle conf st =
      if st.cShowInfo ∧
          conf.cListMin + lines.listReq ≤ (lines.hide false false true).listLength then
        some { lines.hide false false true with
          listLength := (lines.hide false false true).listLength - lines.listReq }
      else if st.cShowDetails ∧
          conf.cListMin + lines.listReq ≤ (lines.hide false true false).listLength then
        some { lines.hide false true false with
          listLength := (lines.hide false true false).listLength - lines.listReq }
      else if conf.cListMin ≤ (lines.hide true true true).listLength then
        some (lines.hide true true true)
      else none := by
  have withoutInfo : lines.linesAvailable - (lines.totalReq - lines.infoReq + 1) =
      (lines.hide false false true).listLength - lines.listReq := by
    unfold totalReq hide linesBelow
    simp only [Bool.false_eq_true, if_false, if_true]
    omega
  have withoutDetails : lines.linesAvailable - (lines.totalReq - lines.detailsReq + 1) =
      (lines.hide false true false).listLength - lines.listReq := by
    unfold totalReq hide linesBelow
    simp only [Bool.false_eq_true, if_false, if_true]
    omega
  have alone : lines.linesAvailable - 1 - 1 - 1 = (lines.hide true true true).listLength := by
    unfold hide linesBelow
    simp only [if_true]
    omega
  unfold settle
  rw [if_neg (not_le.mpr tight), shortened_eq, withoutInfo, withoutDetails, alone,
    if_neg (not_and.mpr fun _ => not_le.mpr short)]
  simp only [le_sub_iff_add_le]
  rfl

/-- The alternatives in the middle, one test after the other. -/
theorem firstSufficient_hide (short : (lines.hide false false false).listLength < conf.cListMin) :
    lines.firstSufficient conf st =
      if st.cShowInfo ∧ conf.cListMin ≤ (lines.hide false false true).listLength then
        some (lines.hide false false true)
      else if st.cShowDetails ∧ conf.cListMin ≤ (lines.hide false true false).listLength then
        some (lines.hide false true false)
      else if conf.cListMin ≤ (lines.hide true true true).listLength then
        some (lines.hide true true true)
      else none := by
  unfold firstSufficient alternatives
  cases st.cShowInfo <;> cases st.cShowDetails <;>
    simp [List.find?_cons, not_le.mpr short] <;> grind

theorem firstSufficient_shorten
    (enough : conf.cListMin ≤ (lines.hide false false false).listLength) :
    lines.firstSufficient conf st = some (lines.hide false false false) := by
  unfold firstSufficient alternatives
  simp [enough]

/-- With the list shown and not enough lines for everything, every layout that `draw_content`
settles on fills the terminal and is the first sufficient alternative exactly in three cases: a
shorter list is sufficient, or the list asks for no line, or neither hiding the information nor
hiding the details would be sufficient. -/
theorem settle_firstSufficient_iff (listShown : st.cShowList = true)
    (tight : lines.linesAvailable < lines.totalReq) :
    ((∀ layout, lines.settle conf st = some layout → lines.Fills layout) ∧
        lines.settle conf st = lines.firstSufficient conf st) ↔
      conf.cListMin ≤ (lines.hide false false false).listLength ∨ lines.listReq = 0 ∨
        ¬ (st.cShowInfo = true ∧ conf.cListMin ≤ (lines.hide false false true).listLength) ∧
          ¬ (st.cShowDetails = true ∧
            conf.cListMin ≤ (lines.hide false true false).listLength) := by
  have fills : lines.settle conf st = lines.firstSufficient conf st →
      ∀ layout, lines.settle conf st = some layout → lines.Fills layout :=
    fun same layout settled => lines.fills_of_firstSufficient (same.symm.trans settled)
  rw [and_iff_right_of_imp fills]
  by_cases enough : conf.cListMin ≤ (lines.hide false false false).listLength
  · rw [settle_shorten listShown tight enough, firstSufficient_shorten enough]
    exact iff_of_true rfl (Or.inl enough)
  rw [settle_hide tight (not_le.mp enough), firstSufficient_hide (not_le.mp enough),
    or_iff_right enough]
  constructor
  · intro same
    by_contra missed
    rw [not_or] at missed
    obtain ⟨someList, hidden⟩ := missed
    -- The first sufficient alternative hides one section only. The code hides another one or
    -- all, or it hides that one and gives the list less.
    split_ifs at same <;> grind [hide]
  · rintro (noList | ⟨withInfo, withDetails⟩)
    · simp [noList]
    · rw [if_neg withInfo, if_neg withDetails, if_neg, if_neg]
      · exact fun tested => withDetails ⟨tested.1, by omega⟩
      · exact fun tested => withInfo ⟨tested.1, by omega⟩

/-- On a terminal of forty rows a list of ten lines, a graph of seventeen, the details in twelve
and two of information go together: the list is cut down to seven lines. -/
theorem settle_firstSufficient_iff_shorten :
    (⟨38, 10, 17, 12, 2⟩ : ContentLines).settle {}
        { program := State.start [] [] [] [], cShowDetails := true, cShowInfo := true } =
      some { listLength := 7 } := by
  have settled := ((@settle_firstSufficient_iff ⟨38, 10, 17, 12, 2⟩ {}
    { program := State.start [] [] [] [], cShowDetails := true, cShowInfo := true }
    (by decide) (by decide)).mpr (Or.inl (by decide))).2
  exact settled.trans (by decide)

/-- With twenty lines of information and no details the information is hidden, and the list gets
nine of the nineteen lines that are left. With twelve lines of details and five of information,
hiding the information would leave eight lines for the list, but everything else is hidden. -/
theorem settle_leaves_lines :
    (⟨38, 10, 17, 1, 20⟩ : ContentLines).settle {}
          { program := State.start [] [] [] [], cShowInfo := true } =
        some { listLength := 9, disableInfo := true } ∧
      ¬ (⟨38, 10, 17, 1, 20⟩ : ContentLines).Fills { listLength := 9, disableInfo := true } ∧
      (⟨38, 10, 17, 12, 5⟩ : ContentLines).settle {}
          { program := State.start [] [] [] [], cShowDetails := true, cShowInfo := true } =
        some {
          listLength := 35
          disableGraph := true
          disableDetails := true
          disableInfo := true } ∧
      (⟨38, 10, 17, 12, 5⟩ : ContentLines).firstSufficient {}
          { program := State.start [] [] [] [], cShowDetails := true, cShowInfo := true } =
        some { listLength := 8, disableInfo := true } := by
  refine ⟨by decide, ?_, by decide, by decide⟩
  unfold Fills
  decide

end ContentLines

end Bmon
