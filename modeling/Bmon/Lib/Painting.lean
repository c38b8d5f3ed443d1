/-
This file is a small library on tables of characters that lie row after row in one piece of
memory, and on the bars of a chart that are painted into them.

A loop writes one value to chosen positions of the table, and all other positions stay as they
are. The position of a cell determines its row and its column. A column of a chart is filled up to
a height: the rows that a test chooses are the lowest ones, as many as the test chooses in all, if
the test chooses with every row the rows below it.
-/

import Mathlib.Data.Nat.Count
import Mathlib.Data.Vector.Basic

namespace Painting

/-! ### Positions -/

/-- The position of a cell in a table with rows of some size. -/
def position (rowSize row col : Nat) : Nat := row * rowSize + col

theorem position_inj {rowSize row col row' col' : Nat} (inRow : col < rowSize)
    (inRow' : col' < rowSize) :
    position rowSize row col = position rowSize row' col' ↔ row = row' ∧ col = col' := by
  have positive : 0 < rowSize := Nat.zero_lt_of_lt inRow
  unfold position
  constructor
  · intro same
    have rows := congrArg (· / rowSize) same
    have cols := congrArg (· % rowSize) same
    simp only [Nat.mul_comm _ rowSize, Nat.mul_add_div positive, Nat.mul_add_mod,
      Nat.div_eq_of_lt inRow, Nat.div_eq_of_lt inRow', Nat.mod_eq_of_lt inRow,
      Nat.mod_eq_of_lt inRow', Nat.add_zero] at rows cols
    exact ⟨rows, cols⟩
  · rintro ⟨rfl, rfl⟩
    rfl

theorem position_lt {rowSize rows row col : Nat} (inTable : row < rows) (inRow : col < rowSize) :
    position rowSize row col < rows * rowSize := by
  unfold position
  calc row * rowSize + col < (row + 1) * rowSize := by rw [Nat.succ_mul]; omega
    _ ≤ rows * rowSize := Nat.mul_le_mul_right _ inTable

/-! ### Writing one value -/

variable {Cell : Type*} {size : Nat}

/-- Write a cell to the chosen positions, one after the other. -/
def paint (pos : Nat → Nat) (chosen : Nat → Prop) [DecidablePred chosen] (cell : Cell)
    (steps : Nat) (table : Vector Cell size) : Vector Cell size :=
  (List.range steps).foldl
    (fun table t => if chosen t then table.setIfInBounds (pos t) cell else table) table

section Paint

variable {pos : Nat → Nat} {chosen : Nat → Prop} [DecidablePred chosen] {cell : Cell}
  {steps : Nat} {table : Vector Cell size}

theorem paint_succ :
    paint pos chosen cell (steps + 1) table =
      if chosen steps then (paint pos chosen cell steps table).setIfInBounds (pos steps) cell
      else paint pos chosen cell steps table := by
  unfold paint
  rw [List.range_succ, List.foldl_append, List.foldl_cons, List.foldl_nil]

/-- A position that is not chosen keeps its cell. -/
theorem getElem?_paint_of_ne {k : Nat} (others : ∀ t < steps, chosen t → pos t ≠ k) :
    (paint pos chosen cell steps table)[k]? = table[k]? := by
  induction steps with
  | zero => rfl
  | succ steps inductionHypothesis =>
    have before := inductionHypothesis fun t less => others t (Nat.lt_succ_of_lt less)
    rw [paint_succ]
    split
    · rename_i last
      rw [Vector.getElem?_setIfInBounds_ne (others steps (Nat.lt_succ_self steps) last), before]
    · exact before

/-- A chosen position has the new cell. -/
theorem getElem?_paint_of_chosen {t : Nat} (inLoop : t < steps) (picked : chosen t)
    (inTable : pos t < size) : (paint pos chosen cell steps table)[pos t]? = some cell := by
  induction steps with
  | zero => exact absurd inLoop (Nat.not_lt_zero t)
  | succ steps inductionHypothesis =>
    rw [paint_succ]
    by_cases last : chosen steps ∧ pos steps = pos t
    · rw [if_pos last.1, ← last.2, Vector.getElem?_setIfInBounds_self]
      simp [last.2, inTable]
    · have before : (paint pos chosen cell steps table)[pos t]? = some cell := by
        refine inductionHypothesis (lt_of_le_of_ne (Nat.le_of_lt_succ inLoop) ?_)
        rintro rfl
        exact last ⟨picked, rfl⟩
      split
      · rename_i also
        rw [Vector.getElem?_setIfInBounds_ne fun same => last ⟨also, same⟩, before]
      · exact before

end Paint

/-! ### Bars -/

/-- A test that chooses with every row the rows below it chooses the lowest ones. -/
theorem chosen_iff_lt_count {chosen : Nat → Prop} [DecidablePred chosen]
    (downward : ∀ row below, below ≤ row → chosen row → chosen below) {rows row : Nat}
    (inTable : row < rows) : chosen row ↔ row < Nat.count chosen rows := by
  constructor
  · intro picked
    have all : Nat.count chosen (row + 1) = row + 1 :=
      Nat.count_iff_forall.mpr fun below less =>
        downward row below (Nat.le_of_lt_succ less) picked
    calc row < row + 1 := Nat.lt_succ_self row
      _ = Nat.count chosen (row + 1) := all.symm
      _ ≤ Nat.count chosen rows := Nat.count_monotone chosen inTable
  · intro counted
    by_contra skipped
    have none : ∀ more, Nat.count chosen (row + more) = Nat.count chosen row := by
      intro more
      induction more with
      | zero => rfl
      | succ more inductionHypothesis =>
        have above : ¬ chosen (row + more) := fun picked =>
          skipped (downward _ row (Nat.le_add_right row more) picked)
        rw [← Nat.add_assoc, Nat.count_succ, if_neg above, inductionHypothesis, Nat.add_zero]
    obtain ⟨more, rfl⟩ := Nat.exists_eq_add_of_le inTable.le
    rw [none more] at counted
    exact absurd counted (Nat.not_lt.mpr (Nat.count_le chosen))

end Painting
