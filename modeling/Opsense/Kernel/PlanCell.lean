import Opsense.Kernel.GridSound
import Opsense.Lib.Traverse

/-!
# A plan between two calls

`PlanCell` of `opsense-rhai/src/orders.rs`: a grid is written down as what its reads give, and is rebuilt from it through the
constructor that sorts the levels and the builders that count the columns of the weights. The rebuilt grid is read as the first one
where these change nothing (`TradingGrid.Storable`).
-/

namespace Opsense

namespace TradingGrid

variable {F : Type}

def longWinCount (g : TradingGrid F) (j : Nat) : Nat := g.orderLongWinCnt.getD j 0

def longLostCount (g : TradingGrid F) (j : Nat) : Nat := g.orderLongLostCnt.getD j 0

def shortWinCount (g : TradingGrid F) (j : Nat) : Nat := g.orderShortWinCnt.getD j 0

def shortLostCount (g : TradingGrid F) (j : Nat) : Nat := g.orderShortLostCnt.getD j 0

end TradingGrid

structure PlanCell (F : Type) where
  levels : List F
  slPct : F
  maxCandles : Nat
  weights : List (List F)
  longWinP : List F
  shortWinP : List F
  longWinCnt : List Nat
  longLostCnt : List Nat
  shortWinCnt : List Nat
  shortLostCnt : List Nat

namespace PlanCell

variable {F : Type} [Scalar F]

/-- The cell of a grid with the weights that have been read of it. -/
def ofWeights (g : TradingGrid F) (weights : List (List F)) : PlanCell F :=
  let n := g.numLevels
  { levels := g.levels
    slPct := g.stoplossPct
    maxCandles := g.maxCandles
    weights := weights
    longWinP := (List.range n).map g.longWinPct
    shortWinP := (List.range n).map g.shortWinPct
    longWinCnt := (List.range n).map g.longWinCount
    longLostCnt := (List.range n).map g.longLostCount
    shortWinCnt := (List.range n).map g.shortWinCount
    shortLostCnt := (List.range n).map g.shortLostCount }

/-- `PlanCell::of`, which panics where a weight is not found. -/
def of (g : TradingGrid F) : Option (PlanCell F) :=
  ((List.range g.numLevels).mapM fun j => (List.range g.weightCols).mapM fun t => g.indexWeight j t).map (ofWeights g)

def toGrid (cell : PlanCell F) : Option (TradingGrid F) :=
  (TradingGrid.fromLevels cell.levels).map fun g =>
    (((((g.withSlPct cell.slPct).withMaxCandles cell.maxCandles).withWeightMatrix cell.weights).withLongWinP
      cell.longWinP).withShortWinP cell.shortWinP).withOutcomeCounts cell.longWinCnt cell.longLostCnt cell.shortWinCnt
      cell.shortLostCnt

end PlanCell

namespace TradingGrid

/-- The reads of a grid give what they give of another one. -/
structure SameReads {F : Type} [Scalar F] (g g' : TradingGrid F) : Prop where
  levels : g'.levels = g.levels
  stoplossPct : g'.stoplossPct = g.stoplossPct
  maxCandles : g'.maxCandles = g.maxCandles
  weight : ∀ j < g.numLevels, ∀ t, g'.indexWeight j t = g.indexWeight j t
  winPct : ∀ j < g.numLevels, g'.longWinPct j = g.longWinPct j ∧ g'.shortWinPct j = g.shortWinPct j
  counts : ∀ j < g.numLevels, (g'.longWinCount j = g.longWinCount j ∧ g'.longLostCount j = g.longLostCount j) ∧
    g'.shortWinCount j = g.shortWinCount j ∧ g'.shortLostCount j = g.shortLostCount j

/-- The levels ascend, the window is not of one candle, and every row of weights has a weight and does not change from the last
column of the window on. -/
structure Storable (g : TradingGrid Double) : Prop where
  ascending : g.levels.Pairwise Double.Le
  candles : g.maxCandles ≠ 1
  rows : ∀ row ∈ g.weights, row ≠ []
  flat : ∀ row ∈ g.weights, ∀ (t : Nat) (w : Double), g.weightCols ≤ t → row[t]? = some w → row[g.weightCols - 1]? = some w

variable {F : Type} {g : TradingGrid F}

theorem weightCols_pos (g : TradingGrid F) : 0 < g.weightCols := by
  unfold weightCols
  split_ifs with h
  · exact h
  · exact Nat.one_pos

theorem exists_row {j : Nat} (hj : j < g.numLevels) : ∃ row ∈ g.weights, g.weights[j]? = some row := by
  have hlt : j < g.weights.length := g.weights_length.symm ▸ hj
  exact ⟨_, List.getElem_mem hlt, List.getElem?_eq_getElem hlt⟩

theorem lt_of_row {j : Nat} {row : List F} (hrow : g.weights[j]? = some row) : j < g.numLevels := by
  obtain ⟨hj, -⟩ := List.getElem?_eq_some_iff.mp hrow
  exact hj.trans_eq g.weights_length

/-- A weight of a level is that of its row. -/
theorem indexWeight_eq {j : Nat} {row : List F} (hrow : g.weights[j]? = some row) (t : Nat) :
    g.indexWeight j t = row[Min.min t (row.length - 1)]? := by
  unfold indexWeight
  rw [hrow, Option.bind_some]

theorem indexWeight_weight [Scalar F] {j : Nat} {row : List F} (hrow : g.weights[j]? = some row) (hne : row ≠ []) (t : Nat) :
    g.indexWeight j t = some (g.weight j t) := by
  have hlen := List.length_pos_of_ne_nil hne
  have hlt : Min.min t (row.length - 1) < row.length := by omega
  unfold weight
  simp [indexWeight_eq hrow, hrow, hlt]

theorem withLongWinP_eq {p : List F} (h : p.length = g.longWinP.length) : g.withLongWinP p = { g with longWinP := p } := if_pos h

theorem withShortWinP_eq {p : List F} (h : p.length = g.shortWinP.length) : g.withShortWinP p = { g with shortWinP := p } :=
  if_pos h

theorem withWeightMatrix_eq {rows : List (List F)} (h : rows.length = g.levels.length) :
    g.withWeightMatrix rows =
      { g with
        maxCandles := if 1 < (rows.headD []).length then (rows.headD []).length else 0
        weights := rows
        weights_length := h } :=
  dif_pos (h.trans g.weights_length.symm)

end TradingGrid

namespace PlanCell

open TradingGrid

variable {F : Type} [Scalar F] {g : TradingGrid F}

/-- The weights that are written down. -/
def readWeights (g : TradingGrid F) : List (List F) :=
  (List.range g.numLevels).map fun j => (List.range g.weightCols).map fun t => g.weight j t

theorem of_eq (h : ∀ row ∈ g.weights, row ≠ []) : of g = some (ofWeights g (readWeights g)) := by
  have hread : ∀ j ∈ List.range g.numLevels, ((List.range g.weightCols).mapM fun t => g.indexWeight j t) =
      some ((List.range g.weightCols).map fun t => g.weight j t) := by
    intro j hj
    obtain ⟨row, hmem, hrow⟩ := exists_row (List.mem_range.mp hj)
    exact mapM_eq_map fun t _ => indexWeight_weight hrow (h row hmem) t
  unfold of
  rw [mapM_eq_map hread]
  rfl

/-- A grid with an empty row is not written down. -/
theorem rows_of_eq {cell : PlanCell F} (h : of g = some cell) : ∀ row ∈ g.weights, row ≠ [] := by
  rintro row hmem rfl
  obtain ⟨j, hrow⟩ := List.mem_iff_getElem?.mp hmem
  have hnone : of g = none := by
    unfold of
    rw [Option.map_eq_none_iff, mapM_none]
    refine ⟨j, List.mem_range.mpr (lt_of_row hrow), mapM_none.mpr ⟨0, List.mem_range.mpr g.weightCols_pos, ?_⟩⟩
    rw [indexWeight_eq hrow]
    rfl
  rw [hnone] at h
  cases h

/-- What is rebuilt from the cell of a grid. -/
theorem toGrid_ofWeights {rows : List (List F)} (hrows : rows.length = g.numLevels) :
    ∃ g', (ofWeights g rows).toGrid = some g' ∧ g'.levels = sorted g.levels ∧ g'.slPct = g.slPct ∧
      g'.maxCandles = (if 1 < (rows.headD []).length then (rows.headD []).length else 0) ∧ g'.weights = rows ∧
      (g'.longWinP = (List.range g.numLevels).map g.longWinPct ∧ g'.shortWinP = (List.range g.numLevels).map g.shortWinPct) ∧
      (g'.orderLongWinCnt = (List.range g.numLevels).map g.longWinCount ∧
        g'.orderLongLostCnt = (List.range g.numLevels).map g.longLostCount) ∧
      g'.orderShortWinCnt = (List.range g.numLevels).map g.shortWinCount ∧
        g'.orderShortLostCnt = (List.range g.numLevels).map g.shortLostCount := by
  have hlen : ∀ {A : Type} (f : Nat → A), ((List.range g.numLevels).map f).length = (sorted g.levels).length := by
    intro A f
    rw [List.length_map, List.length_range, sorted_length]
    rfl
  have hdefault : ∀ {A : Type} (f : Nat → A) (x : A),
      ((List.range g.numLevels).map f).length = (List.replicate (sorted g.levels).length x).length := by
    intro A f x
    rw [hlen, List.length_replicate]
  unfold toGrid fromLevels ofWeights
  dsimp only
  rw [dif_neg (not_lt.mpr g.two_le), Option.map_some, withWeightMatrix_eq, withLongWinP_eq, withShortWinP_eq]
  · refine ⟨_, rfl, rfl, rfl, rfl, rfl, ⟨rfl, rfl⟩, ⟨?_, ?_⟩, ?_, ?_⟩ <;> exact if_pos (hlen _)
  -- every builder is given as many values as there are levels
  · exact hdefault _ _
  · exact hdefault _ _
  · exact hrows.trans (sorted_length g.levels).symm

theorem headD_readWeights (g : TradingGrid F) : ((readWeights g).headD []).length = g.weightCols := by
  have hpos : 0 < g.numLevels := zero_lt_two.trans_le g.two_le
  obtain ⟨n, hn⟩ := Nat.exists_eq_succ_of_ne_zero hpos.ne'
  unfold readWeights
  rw [hn]
  simp [List.range_succ_eq_map]

/-- The number of columns the weights are written down in is read back, but for one column. -/
theorem maxCandles_readWeights (g : TradingGrid F) :
    (if 1 < ((readWeights g).headD []).length then ((readWeights g).headD []).length else 0) = g.maxCandles ↔ g.maxCandles ≠ 1 := by
  rw [headD_readWeights]
  unfold weightCols
  split_ifs <;> omega

/-- The weights that are read of the columns are those of the row when it does not change from the last of them on. -/
theorem weight_readWeights {j : Nat} {row : List F} (hrow : g.weights[j]? = some row) (hne : row ≠ []) :
    (∀ t, g.weight j (Min.min t (g.weightCols - 1)) = g.weight j t) ↔
      ∀ (t : Nat) (w : F), g.weightCols ≤ t → row[t]? = some w → row[g.weightCols - 1]? = some w := by
  have hcols := g.weightCols_pos
  have hread : ∀ t, row[Min.min t (row.length - 1)]? = some (g.weight j t) := by
    intro t
    rw [← indexWeight_eq hrow, indexWeight_weight hrow hne]
  constructor
  · intro h t w ht hw
    obtain ⟨hlt, -⟩ := List.getElem?_eq_some_iff.mp hw
    have hlast := hread (g.weightCols - 1)
    have hat := hread t
    rw [min_eq_left (by omega)] at hlast hat
    have heq := h t
    rw [min_eq_right (by omega)] at heq
    rw [hlast, heq, ← hat, hw]
  · intro h t
    rcases Nat.lt_or_ge t g.weightCols with hlt | hge
    · rw [min_eq_left (by omega)]
    rw [min_eq_right (by omega)]
    refine Option.some.inj ?_
    rw [← hread, ← hread]
    rcases Nat.lt_or_ge g.weightCols row.length with hshort | hlong
    · rw [min_eq_left (by omega), h (Min.min t (row.length - 1)) (g.weight j t) (by omega) (hread t), hread t]
    · rw [min_eq_right (by omega), min_eq_right (by omega)]

theorem indexWeight_readWeights {g' : TradingGrid F} (h : g'.weights = readWeights g) {j : Nat} (hj : j < g.numLevels) (t : Nat) :
    g'.indexWeight j t = some (g.weight j (Min.min t (g.weightCols - 1))) := by
  have hcols := g.weightCols_pos
  have hrow : g'.weights[j]? = some ((List.range g.weightCols).map fun t => g.weight j t) := by
    rw [h]
    unfold readWeights
    rw [List.getElem?_map, List.getElem?_range hj, Option.map_some]
  rw [indexWeight_eq hrow, List.length_map, List.length_range, List.getElem?_map, List.getElem?_range (by omega), Option.map_some]

/-- The reads of the levels before a count. -/
theorem getD_map_range {A : Type} (f : Nat → A) (d : A) {n j : Nat} (hj : j < n) : ((List.range n).map f).getD j d = f j := by
  simp [List.getD_eq_getElem?_getD, hj]

end PlanCell

namespace TradingGrid

open PlanCell

variable {g : TradingGrid Double}

/-- The levels are left as they are exactly when they ascend. -/
theorem sorted_eq_iff {levels : List Double} (hnan : ∀ x ∈ levels, x ≠ .nan) :
    sorted levels = levels ↔ levels.Pairwise Double.Le := by
  constructor
  · intro h
    rw [← h]
    exact sorted_pairwise hnan
  · intro h
    refine List.mergeSort_of_pairwise (h.imp_of_mem fun {a b} ha hb hab => ?_)
    rw [bne_iff_ne, Ne, Double.cmpOrEqual_eq_gt (hnan a ha) (hnan b hb), not_not]
    exact hab

/-- A grid of numbers is read as before after it has been written down and rebuilt, exactly when it is storable. -/
theorem roundTrip_iff (hnan : ∀ x ∈ g.levels, x ≠ .nan) :
    (∃ cell g', PlanCell.of g = some cell ∧ cell.toGrid = some g' ∧ g.SameReads g') ↔ g.Storable := by
  have hlength : (readWeights g).length = g.numLevels := by
    unfold readWeights
    rw [List.length_map, List.length_range]
  obtain ⟨g', hg', hlevels, hsl, hmax, hweights, ⟨hlong, hshort⟩, ⟨hlongwin, hlonglost⟩, hshortwin, hshortlost⟩ :=
    toGrid_ofWeights hlength
  constructor
  · rintro ⟨cell, g'', hof, hto, hsame⟩
    have hrows := rows_of_eq hof
    rw [of_eq hrows, Option.some.injEq] at hof
    rw [← hof, hg', Option.some.injEq] at hto
    subst hto
    refine ⟨(sorted_eq_iff hnan).mp (hlevels.symm.trans hsame.levels), ?_, hrows, ?_⟩
    · exact (maxCandles_readWeights g).mp (hmax.symm.trans hsame.maxCandles)
    · intro row hmem
      obtain ⟨j, hrow⟩ := List.mem_iff_getElem?.mp hmem
      refine (weight_readWeights hrow (hrows row hmem)).mp fun t => Option.some.inj ?_
      rw [← indexWeight_readWeights hweights (lt_of_row hrow), ← indexWeight_weight hrow (hrows row hmem)]
      exact hsame.weight j (lt_of_row hrow) t
  · intro h
    refine ⟨_, g', of_eq h.rows, hg', ?_⟩
    refine ⟨hlevels.trans ((sorted_eq_iff hnan).mpr h.ascending), hsl, hmax.trans ((maxCandles_readWeights g).mpr h.candles), ?_, ?_, ?_⟩
    · intro j hj t
      obtain ⟨row, hmem, hrow⟩ := exists_row hj
      rw [indexWeight_readWeights hweights hj, indexWeight_weight hrow (h.rows row hmem),
        (weight_readWeights hrow (h.rows row hmem)).mpr (h.flat row hmem)]
    · intro j hj
      unfold longWinPct shortWinPct
      rw [hlong, hshort, getD_map_range _ _ hj, getD_map_range _ _ hj]
      exact ⟨rfl, rfl⟩
    · intro j hj
      unfold longWinCount longLostCount shortWinCount shortLostCount
      rw [hlongwin, hlonglost, hshortwin, hshortlost, getD_map_range _ _ hj, getD_map_range _ _ hj, getD_map_range _ _ hj,
        getD_map_range _ _ hj]
      exact ⟨⟨rfl, rfl⟩, rfl, rfl⟩

/-- Two levels, and a window. -/
theorem exists_window (max_candles : Nat) :
    ∃ g, (GridConstructor.fromLevels [Double.fin 100, .fin 110]).run.map (fun g => g.withMaxCandles max_candles) = some g ∧
      g.levels = [.fin 100, .fin 110] ∧ g.maxCandles = max_candles ∧ g.Sound := by
  have hsorted : sorted [Double.fin 100, .fin 110] = [.fin 100, .fin 110] := (sorted_eq_iff (by decide)).mpr (by decide +kernel)
  have hrun : (GridConstructor.fromLevels [Double.fin 100, .fin 110]).run =
      some (fillDefaults (sorted [Double.fin 100, .fin 110]) ((sorted_length [Double.fin 100, .fin 110]).symm ▸ le_rfl)) := by
    unfold GridConstructor.run fromLevels
    dsimp only
    rw [dif_neg (by decide)]
  have hfinite : (GridConstructor.fromLevels [Double.fin 100, .fin 110]).Finite := by
    intro x hx
    rcases List.mem_pair.mp hx with rfl | rfl <;> rfl
  have hsound := GridConstructor.constructor_sound hfinite trivial hrun
  refine ⟨_, by rw [hrun, Option.map_some], hsorted, rfl, ?_⟩
  exact @GridBuilder.apply_sound id (fun x _ => x) _ hsound (.withMaxCandles max_candles) trivial

/-- The grid that `from_levels` makes of two levels, with a window of two candles. -/
theorem roundTrip_twoLevels :
    ∃ g : TradingGrid Double, g.levels = [.fin 100, .fin 110] ∧ g.maxCandles = 2 ∧
      ((∃ cell g', PlanCell.of g = some cell ∧ cell.toGrid = some g' ∧ g.SameReads g') ↔ g.Storable) := by
  obtain ⟨g, -, hlevels, hmax, -⟩ := exists_window 2
  have hnan : ∀ x ∈ g.levels, x ≠ .nan := by
    rw [hlevels]
    decide
  exact ⟨g, hlevels, hmax, roundTrip_iff hnan⟩

/-- A window of one candle comes back without a bound. -/
theorem one_candle_not_restored :
    ∃ g cell g', (GridConstructor.fromLevels [Double.fin 100, .fin 110]).run.map (fun g => g.withMaxCandles 1) = some g ∧
      PlanCell.of g = some cell ∧ cell.toGrid = some g' ∧ g.maxCandles = 1 ∧ g'.maxCandles = 0 := by
  obtain ⟨g, hg, -, hmax, hsound⟩ := exists_window 1
  have hlength : (readWeights g).length = g.numLevels := by
    unfold readWeights
    rw [List.length_map, List.length_range]
  obtain ⟨g', hg', -, -, hmax', -⟩ := toGrid_ofWeights hlength
  refine ⟨g, _, g', hg, of_eq hsound.rows, hg', hmax, ?_⟩
  rw [hmax', headD_readWeights]
  simp [weightCols, hmax]

end TradingGrid

end Opsense
