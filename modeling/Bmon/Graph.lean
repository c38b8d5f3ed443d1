/-
This file models `graph.c` and what it uses of `unit.c`, and shows that a graph draws the history
that it is filled from.

A table is one piece of memory with its rows one after the other, the lowest first, each with a
terminator. `fill_table` walks backwards through the slots of the history twice: once for the
largest value, and once to draw a column for every value. The values are drawn to scale and
rounded: a row is filled from the middle of its share on.
-/

import Bmon.CString
import Bmon.HistoryLog
import Bmon.Lib.Painting

namespace Bmon

/-! ### Units -/

/-- `struct fraction`. -/
structure Fraction where
  fDivisor : ℚ
  fName : CString

/-- `struct unit`, with the three lists of `u_div`. -/
structure UnitRecord where
  uName : CString
  uDivDefault : List Fraction
  uDivSi : List Fraction
  uDivBit : List Fraction

/-- The options `use_bit` and `use_si` and the variable `cfg_unit_exp`. -/
structure UnitConf where
  useBit : Bool := false
  useSi : Bool := false
  cfgUnitExp : Int := -1

/-- `DYNAMIC_EXP`. -/
def dynamicExp : Int := -1

/-- `get_flist`. -/
def getFlist (conf : UnitConf) (unit : UnitRecord) : List Fraction :=
  let div := if conf.useBit then unit.uDivBit else if conf.useSi then unit.uDivSi
    else unit.uDivDefault
  if div.isEmpty then unit.uDivDefault else div

/-- `unit_divisor`: the divisor and its name. The value is compared as a `float`, as the divisors
are. -/
def unitDivisor (conf : UnitConf) (hint : UInt64) (unit : UnitRecord) : ℚ × CString :=
  let found :=
    if conf.cfgUnitExp = dynamicExp then
      (getFlist conf unit).reverse.find? fun f => decide (f.fDivisor ≤ toFloat hint.toNat)
    else if 0 < conf.cfgUnitExp then (getFlist conf unit)[(conf.cfgUnitExp - 1).toNat]?
    else none
  match found with
  | some f => (f.fDivisor, f.fName)
  | none => (1, CString.ofMemory [])

/-! ### Graphs -/

/-- `struct graph_cfg`. -/
structure GraphCfg where
  gcHeight : Nat
  gcWidth : Nat
  gcBackground : Char
  gcForeground : Char
  gcNoise : Char
  gcUnknown : Char
  gcUnit : UnitRecord

section Positions

variable (cfg : GraphCfg)

/-- `graph_row_size`. -/
def graphRowSize : Nat := cfg.gcWidth + 1

/-- `table_size`. -/
def tableSize : Nat := cfg.gcHeight * graphRowSize cfg

/-- `at_row`, for a position in a table. -/
def atRow (col nrow : Nat) : Nat := col + nrow * graphRowSize cfg

/-- `at_col`. -/
def atCol (row ncol : Nat) : Nat := row + ncol

/-- `tbl_pos`. -/
def tblPos (tbl nrow ncol : Nat) : Nat := atCol (atRow cfg tbl nrow) ncol

end Positions

/-- `struct graph_table`. Once it is allocated the table has the size for its configuration. -/
structure GraphTable (cfg : GraphCfg) where
  gtTable : Option (Vector Char (tableSize cfg)) := none
  gtYUnit : Option CString := none
  gtScale : Option (Vector Extended cfg.gcHeight) := none

/-- `struct graph`. -/
structure Graph where
  gCfg : GraphCfg
  gRx : GraphTable gCfg
  gTx : GraphTable gCfg

/-- The table of one direction. -/
def Graph.table (g : Graph) : Direction → GraphTable g.gCfg
  | .rx => g.gRx
  | .tx => g.gTx

/-- The background, and a terminator at the end of each row. -/
def blankTable (cfg : GraphCfg) : Vector Char (tableSize cfg) :=
  Painting.paint (fun i => tblPos cfg 0 i cfg.gcWidth) (fun _ => True) nul cfg.gcHeight
    (Vector.replicate (tableSize cfg) cfg.gcBackground)

/-- The first walk of `fill_table`, from the index `n` on: the largest peak. Nothing if it reads
outside the array. -/
def findPeak (h : History) (slots : List UInt64) : Nat → Nat → UInt64 → Option UInt64
  | 0, _, max => some max
  | cols + 1, n, max =>
    let n := prevHistoryIndex h.hDefinition n
    (historyData h slots n).bind fun v =>
      findPeak h slots cols n (if v ≠ historyUnknown ∧ max < v then v else max)

/-- The entry `gt_scale[t]` before it is divided. -/
def graphScale (step : ℚ) (t : Nat) : ℚ := ((t + 1 : Nat) : ℚ) * step

/-- The body of the second walk for a column and its value. -/
def fillColumn (cfg : GraphCfg) (step : ℚ) (v : UInt64) (col : Nat)
    (table : Vector Char (tableSize cfg)) : Vector Char (tableSize cfg) :=
  if v = historyUnknown then
    Painting.paint (atRow cfg col) (fun _ => True) cfg.gcUnknown cfg.gcHeight table
  else if 0 < v then
    Painting.paint (atRow cfg col) (fun t => graphScale step t - step / 2 ≤ v.toNat)
      cfg.gcForeground cfg.gcHeight (table.setIfInBounds (atRow cfg col 0) cfg.gcNoise)
  else table

/-- The second walk of `fill_table`, from the column `i` and the index `n` on. -/
def fillColumns (cfg : GraphCfg) (h : History) (slots : List UInt64) (step : ℚ) :
    Nat → Nat → Nat → Vector Char (tableSize cfg) → Option (Vector Char (tableSize cfg))
  | 0, _, _, table => some table
  | cols + 1, i, n, table =>
    let n := prevHistoryIndex h.hDefinition n
    (historyData h slots n).bind fun v =>
      fillColumns cfg h slots step cols (i + 1) n (fillColumn cfg step v (atCol 0 i) table)

/-- `fill_table`, for the history and one of its stores, if there is a history. Nothing if the
function comes to `BUG` or reads outside the array. -/
def fillTable (units : UnitConf) {cfg : GraphCfg} (tbl : GraphTable cfg) :
    Option (History × HistoryStore) → Option (GraphTable cfg)
  | none => some (blank tbl)
  | some (h, data) =>
    match data.hsData with
    | none => some (blank tbl)
    | some slots =>
      if h.hDefinition.hdSize < cfg.gcWidth then none
      else
        (findPeak h slots cfg.gcWidth h.hIndex 0).bind fun max =>
          let step := (max.toNat : ℚ) / cfg.gcHeight
          let scale := Vector.ofFn fun i : Fin cfg.gcHeight => graphScale step i
          (fillColumns cfg h slots step cfg.gcWidth 0 h.hIndex (blankTable cfg)).bind fun table =>
            let n := cfg.gcHeight / 3 * 2
            let n := if cfg.gcHeight ≤ n then cfg.gcHeight - 1 else n
            scale[n]?.map fun hint =>
              let v := unitDivisor units (UInt64.ofNat ⌊hint⌋₊) cfg.gcUnit
              { gtTable := some table
                gtYUnit := some v.2
                gtScale := some (scale.map fun value => floatDiv value v.1) }
where
  /-- The table before the first look at the history. -/
  blank (tbl : GraphTable cfg) : GraphTable cfg :=
    { tbl with
      gtTable := some (blankTable cfg)
      gtScale := some (tbl.gtScale.getD (Vector.replicate _ (Extended.ofRat 0))) }

/-- `graph_alloc`. Nothing if the function comes to `BUG`. -/
def graphAlloc (h : Option History) (cfg : GraphCfg) : Option Graph :=
  if cfg.gcHeight = 0 then none
  else
    let width := match h with
      | none => cfg.gcWidth
      | some h =>
        if h.hDefinition.hdSize < cfg.gcWidth ∨ cfg.gcWidth = 0 then h.hDefinition.hdSize
        else cfg.gcWidth
    if width = 0 then none else some ⟨{ cfg with gcWidth := width }, {}, {}⟩

/-- `graph_refill`. -/
def graphRefill (units : UnitConf) (g : Graph) (h : Option History) : Option Graph :=
  (fillTable units g.gRx (h.map fun h => (h, h.hRx))).bind fun rx =>
    (fillTable units g.gTx (h.map fun h => (h, h.hTx))).map fun tx => ⟨g.gCfg, rx, tx⟩

/-! ### What the history shows -/

/-- The index of a history is in range, and an array that is allocated has all its slots. -/
structure History.Sound (h : History) : Prop where
  inside : h.hIndex < h.hDefinition.hdSize
  full : ∀ direction slots, (h.store direction).hsData = some slots →
    slots.length = h.hDefinition.hdSize

/-- So it is for every history that has been updated since it was allocated. -/
theorem Mirrors.sound {h : History} {steps : List HistoryStep} (mirrors : Mirrors h steps) :
    h.Sound := by
  refine ⟨mirrors.inside, fun direction slots allocated => ?_⟩
  have stored := mirrors.store direction
  rw [allocated] at stored
  exact stored.1

/-- The value that a column shows. -/
def shownValue (h : History) (slots : List UInt64) (col : Nat) : UInt64 :=
  (historyData h slots (h.walkBack (col + 1))).getD historyUnknown

section Shown

variable {h : History} {slots : List UInt64} {cols : Nat}

/-- The walk of `fill_table` comes to the slots of the latest entries. -/
theorem walkBack_slot (inside : h.hIndex < h.hDefinition.hdSize) {col : Nat}
    (short : col < h.hDefinition.hdSize) :
    h.walkBack (col + 1) = (((h.hIndex : Int) - 1 - col) % h.hDefinition.hdSize).toNat := by
  rw [walkBack_eq, RingLog.back_eq inside (by omega)]
  split_ifs with below
  · rw [Int.emod_eq_of_lt (by omega) (by omega)]
    omega
  · have wrapped : ((h.hIndex : Int) - 1 - col) % h.hDefinition.hdSize =
        (h.hIndex : Int) - 1 - col + h.hDefinition.hdSize := by
      rw [← Int.add_emod_right, Int.emod_eq_of_lt (by omega) (by omega)]
    omega

theorem historyData_shown (inside : h.hIndex < h.hDefinition.hdSize)
    (full : slots.length = h.hDefinition.hdSize) {col : Nat}
    (short : col < h.hDefinition.hdSize) :
    historyData h slots (h.walkBack (col + 1)) = some (shownValue h slots col) := by
  have inArray : h.walkBack (col + 1) < slots.length := by
    rw [walkBack_slot inside short, full]
    have nonneg := Int.emod_nonneg ((h.hIndex : Int) - 1 - col)
      (by omega : (h.hDefinition.hdSize : Int) ≠ 0)
    have less := Int.emod_lt_of_pos ((h.hIndex : Int) - 1 - col)
      (by omega : 0 < (h.hDefinition.hdSize : Int))
    omega
  unfold shownValue historyData
  rw [List.getElem?_eq_getElem inArray, Option.map_some, Option.getD_some]

theorem prevHistoryIndex_walkBack (h : History) (steps : Nat) :
    prevHistoryIndex h.hDefinition (h.walkBack steps) = h.walkBack (steps + 1) :=
  (Function.iterate_succ_apply' _ _ _).symm

/-- The largest known value in some columns, or zero. -/
structure IsPeak (h : History) (slots : List UInt64) (cols : Nat) (peak : UInt64) : Prop where
  atLeast : ∀ col < cols, shownValue h slots col ≠ historyUnknown →
    shownValue h slots col ≤ peak
  attained : peak = 0 ∨ ∃ col < cols, shownValue h slots col = peak ∧ peak ≠ historyUnknown

theorem isPeak_zero (h : History) (slots : List UInt64) : IsPeak h slots 0 0 where
  atLeast col short := absurd short (Nat.not_lt_zero col)
  attained := Or.inl rfl

theorem IsPeak.succ {peak : UInt64} (isPeak : IsPeak h slots cols peak) :
    IsPeak h slots (cols + 1)
      (if shownValue h slots cols ≠ historyUnknown ∧ peak < shownValue h slots cols then
        shownValue h slots cols else peak) := by
  constructor
  · intro col short known
    rcases Nat.lt_succ_iff_lt_or_eq.mp short with before | rfl
    · have atLeast := isPeak.atLeast col before known
      split
      · rename_i larger
        exact UInt64.le_trans atLeast (UInt64.le_of_lt larger.2)
      · exact atLeast
    · split
      · exact UInt64.le_refl _
      · rename_i smaller
        exact UInt64.not_lt.mp fun larger => smaller ⟨known, larger⟩
  · split
    · rename_i larger
      exact Or.inr ⟨cols, Nat.lt_succ_self cols, rfl, larger.1⟩
    · rcases isPeak.attained with zero | ⟨col, before, value, known⟩
      · exact Or.inl zero
      · exact Or.inr ⟨col, Nat.lt_succ_of_lt before, value, known⟩

/-- The first walk finds the largest known value. -/
theorem findPeak_isPeak (inside : h.hIndex < h.hDefinition.hdSize)
    (full : slots.length = h.hDefinition.hdSize) {start : Nat} {max : UInt64}
    (short : start + cols ≤ h.hDefinition.hdSize) (isPeak : IsPeak h slots start max) :
    ∃ peak, findPeak h slots cols (h.walkBack start) max = some peak ∧
      IsPeak h slots (start + cols) peak := by
  induction cols generalizing start max with
  | zero => exact ⟨max, rfl, isPeak⟩
  | succ cols inductionHypothesis =>
    obtain ⟨peak, found, isPeak⟩ := inductionHypothesis (by omega) isPeak.succ
    refine ⟨peak, ?_, by rwa [Nat.add_right_comm] at isPeak⟩
    rw [findPeak, prevHistoryIndex_walkBack, historyData_shown inside full (by omega)]
    exact found

end Shown

/-! ### What a column shows -/

section Columns

variable {cfg : GraphCfg} {peak v : UInt64} {row col : Nat}

/-- A value comes up to the middle of the share of a row. -/
def GraphCfg.Fills (cfg : GraphCfg) (peak v : UInt64) (row : Nat) : Prop :=
  ((row : ℚ) + 1 / 2) * peak.toNat / cfg.gcHeight ≤ v.toNat

instance instDecidablePredFills (cfg : GraphCfg) (peak v : UInt64) :
    DecidablePred (cfg.Fills peak v) :=
  fun _ => inferInstanceAs (Decidable (_ ≤ _))

/-- The cell of a graph in a row, for a value. -/
def graphCell (cfg : GraphCfg) (peak v : UInt64) (row : Nat) : Char :=
  if v = historyUnknown then cfg.gcUnknown
  else if v = 0 then cfg.gcBackground
  else if cfg.Fills peak v row then cfg.gcForeground
  else if row = 0 then cfg.gcNoise
  else cfg.gcBackground

theorem tblPos_eq (cfg : GraphCfg) (row col : Nat) :
    tblPos cfg 0 row col = Painting.position (graphRowSize cfg) row col := by
  unfold tblPos atCol atRow Painting.position
  omega

theorem atRow_eq (cfg : GraphCfg) (row col : Nat) :
    atRow cfg col row = Painting.position (graphRowSize cfg) row col := by
  unfold atRow Painting.position
  omega

/-- The test of `fill_table` is the one for the middle of the share. -/
theorem fills_iff (cfg : GraphCfg) (peak v : UInt64) (row : Nat) :
    graphScale ((peak.toNat : ℚ) / cfg.gcHeight) row - (peak.toNat : ℚ) / cfg.gcHeight / 2 ≤
      v.toNat ↔ cfg.Fills peak v row := by
  have middle : graphScale ((peak.toNat : ℚ) / cfg.gcHeight) row -
      (peak.toNat : ℚ) / cfg.gcHeight / 2 =
      ((row : ℚ) + 1 / 2) * peak.toNat / cfg.gcHeight := by
    unfold graphScale
    push_cast
    ring
  rw [middle]
  rfl

theorem blankTable_cell (inTable : row < cfg.gcHeight) (inRow : col < cfg.gcWidth) :
    (blankTable cfg)[tblPos cfg 0 row col]? = some cfg.gcBackground := by
  have rowSize : cfg.gcWidth < graphRowSize cfg := Nat.lt_succ_self _
  have inside : tblPos cfg 0 row col < tableSize cfg := by
    rw [tblPos_eq]
    exact Painting.position_lt inTable (inRow.trans rowSize)
  unfold blankTable
  rw [Painting.getElem?_paint_of_ne, Vector.getElem?_replicate, if_pos inside]
  intro i _ _ same
  rw [tblPos_eq, tblPos_eq, Painting.position_inj rowSize (inRow.trans rowSize)] at same
  omega

theorem blankTable_end (inTable : row < cfg.gcHeight) :
    (blankTable cfg)[tblPos cfg 0 row cfg.gcWidth]? = some nul := by
  have inside : tblPos cfg 0 row cfg.gcWidth < tableSize cfg := by
    rw [tblPos_eq]
    exact Painting.position_lt inTable (Nat.lt_succ_self _)
  have written : (blankTable cfg)[(fun i => tblPos cfg 0 i cfg.gcWidth) row]? = some nul :=
    Painting.getElem?_paint_of_chosen inTable trivial inside
  exact written

/-- The body of the second walk draws one column and leaves the others alone. -/
theorem fillColumn_other {table : Vector Char (tableSize cfg)} {step : ℚ} {i : Nat}
    (inRow : i < graphRowSize cfg) (inRow' : col < graphRowSize cfg)
    (other : col ≠ i) :
    (fillColumn cfg step v i table)[tblPos cfg 0 row col]? = table[tblPos cfg 0 row col]? := by
  have apart : ∀ t, atRow cfg i t ≠ tblPos cfg 0 row col := by
    intro t same
    rw [atRow_eq, tblPos_eq, Painting.position_inj inRow inRow'] at same
    exact other same.2.symm
  unfold fillColumn
  split_ifs
  · exact Painting.getElem?_paint_of_ne fun t _ _ => apart t
  · rw [Painting.getElem?_paint_of_ne fun t _ _ => apart t,
      Vector.getElem?_setIfInBounds_ne (apart 0)]
  · rfl

theorem fillColumn_same {table : Vector Char (tableSize cfg)}
    (inRow : col < graphRowSize cfg) (inTable : row < cfg.gcHeight)
    (blank : table[tblPos cfg 0 row col]? = some cfg.gcBackground) :
    (fillColumn cfg ((peak.toNat : ℚ) / cfg.gcHeight) v col table)[tblPos cfg 0 row col]? =
      some (graphCell cfg peak v row) := by
  have same : tblPos cfg 0 row col = atRow cfg col row := by rw [tblPos_eq, atRow_eq]
  have inside : atRow cfg col row < tableSize cfg := by
    rw [atRow_eq]
    exact Painting.position_lt inTable inRow
  have rowOf : ∀ t, atRow cfg col t = atRow cfg col row → t = row := by
    intro t equal
    rw [atRow_eq, atRow_eq, Painting.position_inj inRow inRow] at equal
    exact equal.1
  rw [same] at blank ⊢
  unfold fillColumn graphCell
  by_cases unknown : v = historyUnknown
  · rw [if_pos unknown, if_pos unknown]
    exact Painting.getElem?_paint_of_chosen inTable trivial inside
  rw [if_neg unknown, if_neg unknown]
  by_cases zero : v = 0
  · rw [if_neg (by simp [zero]), if_pos zero, blank]
  rw [if_pos (UInt64.pos_iff_ne_zero.mpr zero), if_neg zero]
  by_cases fills : cfg.Fills peak v row
  · rw [if_pos fills]
    exact Painting.getElem?_paint_of_chosen inTable ((fills_iff cfg peak v row).mpr fills) inside
  · rw [if_neg fills, Painting.getElem?_paint_of_ne fun t _ chosen equal => by
      obtain rfl := rowOf t equal
      exact fills ((fills_iff cfg peak v t).mp chosen)]
    by_cases bottom : row = 0
    · subst bottom
      rw [if_pos rfl, Vector.getElem?_setIfInBounds_self, if_pos inside]
    · rw [if_neg bottom, Vector.getElem?_setIfInBounds_ne fun equal => bottom (rowOf 0 equal).symm,
        blank]

/-- The second walk draws all columns from one on. -/
theorem fillColumns_cells {h : History} {slots : List UInt64} {cols start : Nat}
    {table : Vector Char (tableSize cfg)}
    (inside : h.hIndex < h.hDefinition.hdSize) (full : slots.length = h.hDefinition.hdSize)
    (short : start + cols ≤ h.hDefinition.hdSize) (inRow : start + cols ≤ cfg.gcWidth)
    (blank : ∀ row < cfg.gcHeight, ∀ col, start ≤ col → col < start + cols →
      table[tblPos cfg 0 row col]? = some cfg.gcBackground) :
    ∃ filled, fillColumns cfg h slots ((peak.toNat : ℚ) / cfg.gcHeight) cols start
        (h.walkBack start) table = some filled ∧
      ∀ row < cfg.gcHeight, ∀ col ≤ cfg.gcWidth, filled[tblPos cfg 0 row col]? =
        if start ≤ col ∧ col < start + cols then
          some (graphCell cfg peak (shownValue h slots col) row)
        else table[tblPos cfg 0 row col]? := by
  induction cols generalizing start table with
  | zero => exact ⟨table, rfl, fun row inTable col _ => by rw [if_neg (by omega)]⟩
  | succ cols inductionHypothesis =>
    have drawn : ∀ row < cfg.gcHeight, ∀ col ≤ cfg.gcWidth,
        (fillColumn cfg ((peak.toNat : ℚ) / cfg.gcHeight) (shownValue h slots start) start
          table)[tblPos cfg 0 row col]? =
          if col = start then some (graphCell cfg peak (shownValue h slots col) row)
          else table[tblPos cfg 0 row col]? := by
      intro row inTable col inRow'
      split
      · rename_i same
        subst same
        exact fillColumn_same (by unfold graphRowSize; omega) inTable
          (blank row inTable col le_rfl (by omega))
      · rename_i other
        exact fillColumn_other (by unfold graphRowSize; omega) (by unfold graphRowSize; omega)
          other
    have blankAfter : ∀ row < cfg.gcHeight, ∀ col, start + 1 ≤ col → col < start + 1 + cols →
        (fillColumn cfg ((peak.toNat : ℚ) / cfg.gcHeight) (shownValue h slots start) start
          table)[tblPos cfg 0 row col]? = some cfg.gcBackground := by
      intro row inTable col after before
      rw [drawn row inTable col (by omega), if_neg (by omega),
        blank row inTable col (by omega) (by omega)]
    obtain ⟨filled, returned, cells⟩ := inductionHypothesis (by omega) (by omega) blankAfter
    refine ⟨filled, ?_, fun row inTable col inRow' => ?_⟩
    · rw [fillColumns, prevHistoryIndex_walkBack, historyData_shown inside full (by omega),
        atCol, Nat.zero_add]
      exact returned
    · rw [cells row inTable col inRow', drawn row inTable col inRow']
      split_ifs <;> first | rfl | omega

end Columns

/-! ### Bars -/

section Bars

variable {cfg : GraphCfg} {peak v w : UInt64} {row : Nat}

/-- The number of rows that a value fills. -/
def barHeight (cfg : GraphCfg) (peak v : UInt64) : Nat :=
  if v = historyUnknown ∨ v = 0 then 0 else Nat.count (cfg.Fills peak v) cfg.gcHeight

theorem GraphCfg.Fills.of_le {below : Nat} (fills : cfg.Fills peak v row) (le : below ≤ row) :
    cfg.Fills peak v below := by
  unfold GraphCfg.Fills at fills ⊢
  refine le_trans ?_ fills
  gcongr

/-- A value fills the lowest rows. -/
theorem graphCell_bar (known : v ≠ historyUnknown) (inTable : row < cfg.gcHeight) :
    graphCell cfg peak v row =
      if row < barHeight cfg peak v then cfg.gcForeground
      else if v ≠ 0 ∧ row = 0 then cfg.gcNoise
      else cfg.gcBackground := by
  unfold graphCell barHeight
  rw [if_neg known]
  by_cases zero : v = 0
  · simp [zero]
  have filled : cfg.Fills peak v row ↔ row < Nat.count (cfg.Fills peak v) cfg.gcHeight :=
    Painting.chosen_iff_lt_count (fun _ _ le fills => fills.of_le le) inTable
  simp only [known, zero, or_self, if_false, ne_eq, not_false_eq_true, true_and, filled]

/-- With a foreground of its own the filled rows are those of the foreground. -/
theorem count_foreground (background : cfg.gcForeground ≠ cfg.gcBackground)
    (noise : cfg.gcForeground ≠ cfg.gcNoise) (unknown : cfg.gcForeground ≠ cfg.gcUnknown)
    (peak v : UInt64) :
    Nat.count (fun row => graphCell cfg peak v row = cfg.gcForeground) cfg.gcHeight =
      barHeight cfg peak v := by
  have cell : ∀ row, graphCell cfg peak v row = cfg.gcForeground ↔
      ¬ (v = historyUnknown ∨ v = 0) ∧ cfg.Fills peak v row := by
    intro row
    unfold graphCell
    split_ifs <;> simp_all [Ne.symm background, Ne.symm noise, Ne.symm unknown]
  unfold barHeight
  simp only [cell]
  split_ifs with none
  · simp [none]
  · simp [none]

/-- A larger value does not fill fewer rows. -/
theorem barHeight_mono (le : v ≤ w) (known : w ≠ historyUnknown) :
    barHeight cfg peak v ≤ barHeight cfg peak w := by
  have smaller : v.toNat ≤ w.toNat := UInt64.le_iff_toNat_le.mp le
  unfold barHeight
  by_cases zero : v = historyUnknown ∨ v = 0
  · rw [if_pos zero]
    exact Nat.zero_le _
  have positive : w ≠ 0 := by
    rintro rfl
    exact zero (Or.inr (UInt64.toNat_inj.mp (Nat.le_zero.mp smaller)))
  rw [if_neg zero, if_neg (not_or.mpr ⟨known, positive⟩)]
  refine Nat.count_mono_left ?_
  intro row _ fills
  unfold GraphCfg.Fills at fills ⊢
  exact fills.trans (by exact_mod_cast smaller)

/-- The largest value fills all rows. -/
theorem barHeight_peak (positive : peak ≠ 0) (known : peak ≠ historyUnknown) :
    barHeight cfg peak peak = cfg.gcHeight := by
  unfold barHeight
  rw [if_neg (not_or.mpr ⟨known, positive⟩)]
  refine Nat.count_iff_forall.mpr fun row inTable => ?_
  have rows : (0 : ℚ) < cfg.gcHeight := by
    exact_mod_cast Nat.zero_lt_of_lt inTable
  have share : (row : ℚ) + 1 / 2 ≤ cfg.gcHeight := by
    have next : (row : ℚ) + 1 ≤ cfg.gcHeight := by exact_mod_cast inTable
    linarith
  unfold GraphCfg.Fills
  rw [div_le_iff₀ rows, mul_comm (peak.toNat : ℚ)]
  gcongr

end Bars

/-! ### The whole graph -/

/-- The table draws the columns of a history: behind the last one each row ends, and each column
shows the slot that is as many slots behind the index. -/
structure Draws (cfg : GraphCfg) (h : History) (slots : List UInt64) (peak : UInt64)
    (table : Vector Char (tableSize cfg)) : Prop where
  terminated : ∀ row < cfg.gcHeight, table[tblPos cfg 0 row cfg.gcWidth]? = some nul
  shown : ∀ col < cfg.gcWidth,
    historyData h slots (((h.hIndex : Int) - 1 - col) % h.hDefinition.hdSize).toNat =
      some (shownValue h slots col)
  cells : ∀ col < cfg.gcWidth, ∀ row < cfg.gcHeight,
    table[tblPos cfg 0 row col]? = some (graphCell cfg peak (shownValue h slots col) row)

/-- A known value is drawn as a bar from the lowest row on. A larger value has no shorter bar, and
the largest one reaches the top. -/
structure Bars (cfg : GraphCfg) (peak : UInt64) : Prop where
  block : ∀ v row, v ≠ historyUnknown → row < cfg.gcHeight →
    graphCell cfg peak v row =
      if row < barHeight cfg peak v then cfg.gcForeground
      else if v ≠ 0 ∧ row = 0 then cfg.gcNoise
      else cfg.gcBackground
  number : cfg.gcForeground ≠ cfg.gcBackground → cfg.gcForeground ≠ cfg.gcNoise →
    cfg.gcForeground ≠ cfg.gcUnknown → ∀ v,
      Nat.count (fun row => graphCell cfg peak v row = cfg.gcForeground) cfg.gcHeight =
        barHeight cfg peak v
  monotone : ∀ v w, v ≤ w → w ≠ historyUnknown → barHeight cfg peak v ≤ barHeight cfg peak w
  top : peak ≠ 0 → barHeight cfg peak peak = cfg.gcHeight

theorem IsPeak.bars {h : History} {slots : List UInt64} {cols : Nat} {peak : UInt64}
    (isPeak : IsPeak h slots cols peak) (cfg : GraphCfg) : Bars cfg peak where
  block _ _ known inTable := graphCell_bar known inTable
  number background noise unknown v := count_foreground background noise unknown peak v
  monotone _ _ le known := barHeight_mono le known
  top positive := by
    obtain ⟨-, -, -, known⟩ := isPeak.attained.resolve_left positive
    exact barHeight_peak positive known

theorem fillTable_draws (units : UnitConf) {cfg : GraphCfg} (tbl : GraphTable cfg) {h : History}
    {data : HistoryStore} {slots : List UInt64} (inside : h.hIndex < h.hDefinition.hdSize)
    (allocated : data.hsData = some slots) (full : slots.length = h.hDefinition.hdSize)
    (height : 1 ≤ cfg.gcHeight) (short : cfg.gcWidth ≤ h.hDefinition.hdSize) :
    ∃ filled table peak, fillTable units tbl (some (h, data)) = some filled ∧
      filled.gtTable = some table ∧ IsPeak h slots cfg.gcWidth peak ∧
      Draws cfg h slots peak table := by
  have all : 0 + cfg.gcWidth ≤ h.hDefinition.hdSize := by omega
  obtain ⟨peak, found, isPeak⟩ := findPeak_isPeak inside full all (isPeak_zero h slots)
  rw [Nat.zero_add] at isPeak
  have blank : ∀ row < cfg.gcHeight, ∀ col, 0 ≤ col → col < 0 + cfg.gcWidth →
      (blankTable cfg)[tblPos cfg 0 row col]? = some cfg.gcBackground :=
    fun row inTable col _ before => blankTable_cell inTable (by omega)
  obtain ⟨table, filled, cells⟩ := @fillColumns_cells cfg peak h slots cfg.gcWidth 0
    (blankTable cfg) inside full all (by omega) blank
  have drawn : (fillTable units tbl (some (h, data))).map GraphTable.gtTable =
      some (some table) := by
    rw [fillTable, allocated]
    dsimp only
    rw [if_neg (by omega), show h.hIndex = h.walkBack 0 from rfl, found, Option.bind_some, filled,
      Option.bind_some]
    have inScale : (if cfg.gcHeight ≤ cfg.gcHeight / 3 * 2 then cfg.gcHeight - 1
        else cfg.gcHeight / 3 * 2) < cfg.gcHeight := by
      split <;> omega
    rw [Vector.getElem?_eq_getElem inScale]
    rfl
  obtain ⟨result, returned, same⟩ := Option.map_eq_some_iff.mp drawn
  refine ⟨result, table, peak, returned, same, isPeak, ?_, ?_, ?_⟩
  · intro row inTable
    rw [cells row inTable cfg.gcWidth le_rfl, if_neg (by omega), blankTable_end inTable]
  · intro col inRow
    rw [← walkBack_slot inside (by omega), historyData_shown inside full (by omega)]
  · intro col inRow row inTable
    rw [cells row inTable col inRow.le, if_pos (by omega)]

/-- A store without an array does no harm, and one with an array is drawn. -/
theorem fillTable_returns (units : UnitConf) {cfg : GraphCfg} (tbl : GraphTable cfg) {h : History}
    (sound : h.Sound) (height : 1 ≤ cfg.gcHeight) (short : cfg.gcWidth ≤ h.hDefinition.hdSize)
    (direction : Direction) :
    ∃ filled, fillTable units tbl (some (h, h.store direction)) = some filled ∧
      ∀ slots, (h.store direction).hsData = some slots → ∃ table peak,
        filled.gtTable = some table ∧ IsPeak h slots cfg.gcWidth peak ∧
          Draws cfg h slots peak table := by
  cases allocated : (h.store direction).hsData with
  | none =>
    refine ⟨fillTable.blank tbl, ?_, fun slots other => by cases other⟩
    rw [fillTable, allocated]
  | some slots =>
    obtain ⟨filled, table, peak, returned, drawn⟩ := fillTable_draws units tbl sound.inside
      allocated (sound.full direction slots allocated) height short
    refine ⟨filled, returned, fun slots' same => ?_⟩
    obtain rfl := Option.some.inj same
    exact ⟨table, peak, drawn⟩

/-- A graph that is filled draws its history: every row is followed by its terminator, a column
shows the slot that is as many slots behind the index, an unknown value as the unknown
character, a zero as the background, and every other value to the scale of the largest one. -/
theorem graphRefill_draws (units : UnitConf) {g : Graph} {h : History} (sound : h.Sound)
    (height : 1 ≤ g.gCfg.gcHeight) (short : g.gCfg.gcWidth ≤ h.hDefinition.hdSize) :
    ∃ rx tx, graphRefill units g (some h) = some ⟨g.gCfg, rx, tx⟩ ∧
      ∀ direction slots, (h.store direction).hsData = some slots → ∃ table peak,
        (Graph.table ⟨g.gCfg, rx, tx⟩ direction).gtTable = some table ∧
          IsPeak h slots g.gCfg.gcWidth peak ∧ Draws g.gCfg h slots peak table ∧
          Bars g.gCfg peak := by
  obtain ⟨rx, returnedRx, drawnRx⟩ := fillTable_returns units g.gRx sound height short .rx
  obtain ⟨tx, returnedTx, drawnTx⟩ := fillTable_returns units g.gTx sound height short .tx
  refine ⟨rx, tx, ?_, fun direction slots allocated => ?_⟩
  · rw [graphRefill, Option.map_some, Option.map_some]
    rw [show h.hRx = h.store .rx from rfl, show h.hTx = h.store .tx from rfl, returnedRx,
      Option.bind_some, returnedTx]
    rfl
  · cases direction with
    | rx =>
      obtain ⟨table, peak, same, isPeak, draws⟩ := drawnRx slots allocated
      exact ⟨table, peak, same, isPeak, draws, isPeak.bars _⟩
    | tx =>
      obtain ⟨table, peak, same, isPeak, draws⟩ := drawnTx slots allocated
      exact ⟨table, peak, same, isPeak, draws, isPeak.bars _⟩

/-- `graph_alloc` fits the width to the history. -/
theorem graphAlloc_fits {h : History} {cfg : GraphCfg} {g : Graph}
    (allocated : graphAlloc (some h) cfg = some g) :
    1 ≤ g.gCfg.gcHeight ∧ 1 ≤ g.gCfg.gcWidth ∧ g.gCfg.gcWidth ≤ h.hDefinition.hdSize := by
  unfold graphAlloc at allocated
  dsimp only at allocated
  generalize fitted : (if h.hDefinition.hdSize < cfg.gcWidth ∨ cfg.gcWidth = 0 then
    h.hDefinition.hdSize else cfg.gcWidth) = width at allocated
  have atMost : width ≤ h.hDefinition.hdSize := by
    rw [← fitted]
    split <;> omega
  split_ifs at allocated with noHeight noWidth
  obtain rfl := Option.some.inj allocated
  exact ⟨Nat.one_le_iff_ne_zero.mpr noHeight, Nat.one_le_iff_ne_zero.mpr noWidth, atMost⟩

/-- A history of four slots of a byte, with a six, an unknown value, a one and a zero. -/
def fourSlots : History :=
  { historyAlloc (confInitPost {}) ⟨"short", 4, .type8, 1⟩ with
    hRx := ⟨some [6, 255, 1, 0], 0⟩ }

/-- A graph of two rows for it, with the characters that the curses output has by default. -/
def twoRows : Graph where
  gCfg := ⟨2, 4, '.', '|', ':', '?', ⟨CString.ofMemory [], [], [], []⟩⟩
  gRx := {}
  gTx := {}

/-- The newest value is on the left, and the six on the right fills both rows. -/
theorem graphRefill_draws_four :
    (∃ rx tx, graphRefill {} twoRows (some fourSlots) = some ⟨twoRows.gCfg, rx, tx⟩ ∧
      ∃ table, rx.gtTable = some table ∧ table[tblPos twoRows.gCfg 0 1 4]? = some nul) ∧
      ((graphRefill {} twoRows (some fourSlots)).bind fun g => g.gRx.gtTable.map Vector.toList) =
        some ['.', ':', '?', '|', nul, '.', '.', '?', '|', nul] := by
  have sound : fourSlots.Sound := by
    refine ⟨by decide, fun direction slots allocated => ?_⟩
    cases direction with
    | rx =>
      obtain rfl := Option.some.inj allocated
      rfl
    | tx => cases allocated
  have allocated : graphAlloc (some fourSlots) twoRows.gCfg = some twoRows := rfl
  obtain ⟨height, -, short⟩ := graphAlloc_fits allocated
  obtain ⟨rx, tx, refilled, drawn⟩ := graphRefill_draws {} (g := twoRows) sound height short
  obtain ⟨table, peak, same, -, draws, -⟩ := drawn .rx [6, 255, 1, 0] rfl
  exact ⟨⟨rx, tx, refilled, table, same, draws.terminated 1 (by decide)⟩, by decide +kernel⟩

end Bmon
