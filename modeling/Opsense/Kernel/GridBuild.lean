import Opsense.Kernel.Grid
import Opsense.Lib.Double

/-!
# How a grid is built

The constructors and builders of `TradingGrid` in `opsense-qlib/src/grid.rs`. Every vector of a grid is replaced by one of the
same length, which the fields of `TradingGrid` record. The levels are ascending where the constructor is given a step above zero
and no width that overflows, and every level keeps a row of weights that is not empty where no empty row is handed in.
-/

namespace Opsense

namespace TradingGrid

variable {F : Type} [Scalar F]

/-- A grid of the levels with the defaults of `fill_defaults`. -/
def fillDefaults (levels : List F) (h : 2 ≤ levels.length) : TradingGrid F where
  levels := levels
  slPct := 0.05
  maxCandles := 0
  weights := List.replicate levels.length [1.0 / Scalar.ofNat levels.length]
  longWinP := List.replicate levels.length 0.5
  shortWinP := List.replicate levels.length 0.5
  orderLongWinCnt := List.replicate levels.length 0
  orderLongLostCnt := List.replicate levels.length 0
  orderShortWinCnt := List.replicate levels.length 0
  orderShortLostCnt := List.replicate levels.length 0
  two_le := h
  weights_length := List.length_replicate
  counts_length := ⟨List.length_replicate, List.length_replicate, List.length_replicate, List.length_replicate⟩

/-- The prices `start + j * step`. -/
def prices (levels : Nat) (start step : F) : List F := (List.range levels).map fun j => start + Scalar.ofNat j * step

omit [Scalar F] in
theorem two_le_of_not {levels : Nat} {p : Prop} (h : ¬(levels < 2 ∨ p)) : 2 ≤ levels := not_lt.mp fun hlt => h (.inl hlt)

theorem prices_length (levels : Nat) (start step : F) : (prices levels start step).length = levels := by simp [prices]

/-- `TradingGrid::new` -/
def new (levels : Nat) (min max : F) : Option (TradingGrid F) :=
  if h : levels < 2 ∨ Scalar.partialCmp max min ≠ some .gt then none
  else
    let step := (max - min) / Scalar.ofNat (levels - 1)
    some (fillDefaults (prices levels min step) ((prices_length levels min step).symm ▸ two_le_of_not h))

def fromStep (levels : Nat) (start step : F) : Option (TradingGrid F) :=
  if h : levels < 2 ∨ Scalar.partialCmp step 0.0 = some .eq then none
  else some (fillDefaults (prices levels start step) ((prices_length levels start step).symm ▸ two_le_of_not h))

def centered (levels : Nat) (center step : F) : Option (TradingGrid F) :=
  if levels < 2 ∨ Scalar.le step 0.0 then none
  else
    let half := Scalar.ofNat (levels - 1) / 2.0
    let start := center - half * step
    fromStep levels start step

/-- The levels as `from_levels` sorts them. -/
def sorted (levels : List F) : List F := levels.mergeSort fun a b => Scalar.cmpOrEqual a b != .gt

theorem sorted_length (levels : List F) : (sorted levels).length = levels.length := List.length_mergeSort _

def fromLevels (levels : List F) : Option (TradingGrid F) :=
  if h : levels.length < 2 then none
  else some (fillDefaults (sorted levels) ((sorted_length levels).symm ▸ not_lt.mp h))

/-- The weight of level `j` at candle `t`, by the two indices `weight` makes. -/
def indexWeight (g : TradingGrid F) (j t : Nat) : Option F :=
  (g.weights[j]?).bind fun row => row[Min.min t (row.length - 1)]?

/-- The number of columns a row of weights is given. -/
def weightCols (g : TradingGrid F) : Nat := if 0 < g.maxCandles then g.maxCandles else 1

/-- The weights of one column for every level, in as many columns as the grid has. -/
def expand (g : TradingGrid F) (base : List F) (h : base.length = g.levels.length) : TradingGrid F :=
  { g with weights := base.map fun w => List.replicate g.weightCols w, weights_length := (List.length_map _).trans h }

/-- The sum of the weights. -/
def sum (ws : List F) : F := ws.foldl (· + ·) 0.0

def weightsUniform (g : TradingGrid F) : List F := List.replicate g.levels.length (1.0 / Scalar.ofNat g.levels.length)

def weightsLinear (g : TradingGrid F) (ascending : Bool) : List F :=
  let n : F := Scalar.ofNat g.levels.length
  let raw := (List.range g.levels.length).map fun j => if ascending then Scalar.ofNat (j + 1) else n - Scalar.ofNat j
  raw.map (· / sum raw)

/-- `exp` is `f64::exp`. -/
def weightsNormal (exp : F → F) (g : TradingGrid F) (sharpness : F) : List F :=
  let k : F := Scalar.ofNat g.levels.length
  let center := (k - 1.0) / 2.0
  let std_dev := k / Scalar.max sharpness 1.0
  let w := (List.range g.levels.length).map fun j =>
    let z := (Scalar.ofNat j - center) / std_dev
    exp ((0.0 - 0.5) * z * z)
  if Scalar.gt (sum w) 0.0 then w.map (· / sum w) else w

/-- `f64::clamp` to `[0, 1]`. -/
def clampUnit (x : F) : F := if Scalar.lt x 0.0 then 0.0 else if Scalar.gt x 1.0 then 1.0 else x

/-- `powf` is `f64::powf`. -/
def weightsTrend (powf : F → F → F) (g : TradingGrid F) (direction strength : F) : List F :=
  let k : F := Scalar.ofNat g.levels.length
  let p := 1.0 + clampUnit strength * 4.0
  let raw := (List.range g.levels.length).map fun j =>
    if Scalar.gt direction 0.0 then powf (k - Scalar.ofNat j) p
    else if Scalar.lt direction 0.0 then powf (Scalar.ofNat j + 1.0) p
    else 1.0
  raw.map (· / sum raw)

theorem weightsUniform_length (g : TradingGrid F) : g.weightsUniform.length = g.levels.length := List.length_replicate

theorem weightsLinear_length (g : TradingGrid F) (ascending : Bool) : (g.weightsLinear ascending).length = g.levels.length := by
  simp [weightsLinear]

theorem weightsNormal_length (exp : F → F) (g : TradingGrid F) (sharpness : F) :
    (weightsNormal exp g sharpness).length = g.levels.length := by
  unfold weightsNormal
  dsimp only
  split_ifs <;> simp

theorem weightsTrend_length (powf : F → F → F) (g : TradingGrid F) (direction strength : F) :
    (weightsTrend powf g direction strength).length = g.levels.length := by
  simp [weightsTrend]

def withSlPct (g : TradingGrid F) (sl_pct : F) : TradingGrid F := { g with slPct := sl_pct }

def withWeights (g : TradingGrid F) (base : List F) : TradingGrid F :=
  if h : base.length = g.weights.length then g.expand base (h.trans g.weights_length) else g

/-- The number of columns is that of the first row. -/
def withWeightMatrix (g : TradingGrid F) (rows : List (List F)) : TradingGrid F :=
  if h : rows.length = g.weights.length then
    { g with
      maxCandles := if 1 < (rows.headD []).length then (rows.headD []).length else 0
      weights := rows
      weights_length := h.trans g.weights_length }
  else g

def withWeightsNormal (exp : F → F) (g : TradingGrid F) (sharpness : F) : TradingGrid F :=
  g.expand (weightsNormal exp g sharpness) (weightsNormal_length exp g sharpness)

def withWeightsUniform (g : TradingGrid F) : TradingGrid F := g.expand g.weightsUniform g.weightsUniform_length

def withWeightsLinear (g : TradingGrid F) (ascending : Bool) : TradingGrid F :=
  g.expand (g.weightsLinear ascending) (g.weightsLinear_length ascending)

def withWeightsTrend (powf : F → F → F) (g : TradingGrid F) (direction strength : F) : TradingGrid F :=
  g.expand (weightsTrend powf g direction strength) (weightsTrend_length powf g direction strength)

def withLongWinP (g : TradingGrid F) (long_win_p : List F) : TradingGrid F :=
  if long_win_p.length = g.longWinP.length then { g with longWinP := long_win_p } else g

def withShortWinP (g : TradingGrid F) (short_win_p : List F) : TradingGrid F :=
  if short_win_p.length = g.shortWinP.length then { g with shortWinP := short_win_p } else g

def withWinProbabilities (g : TradingGrid F) (long_win_p short_win_p : List F) : TradingGrid F :=
  if long_win_p.length = g.longWinP.length ∧ short_win_p.length = g.shortWinP.length then
    { g with longWinP := long_win_p, shortWinP := short_win_p }
  else g

/-- `Vec::resize` -/
def resize (row : List F) (n : Nat) (x : F) : List F := row.take n ++ List.replicate (n - row.length) x

/-- The rows are filled up with their last weight. -/
def withMaxCandles (g : TradingGrid F) (max_candles : Nat) : TradingGrid F :=
  { g with
    maxCandles := max_candles
    weights :=
      if g.weightCols < max_candles then g.weights.map fun row => resize row max_candles (row.getLast?.getD 0.0) else g.weights
    weights_length := by
      split_ifs
      · exact (List.length_map _).trans g.weights_length
      · exact g.weights_length }

/-- The counters, or zeros when they are not as many as the levels. -/
def takeCounts (n : Nat) (v : List Nat) : List Nat := if v.length = n then v else List.replicate n 0

theorem takeCounts_length (n : Nat) (v : List Nat) : (takeCounts n v).length = n := by
  unfold takeCounts
  split_ifs with h
  · exact h
  · exact List.length_replicate

def withOutcomeCounts (g : TradingGrid F) (long_win long_lost short_win short_lost : List Nat) : TradingGrid F :=
  let n := g.levels.length
  { g with
    orderLongWinCnt := takeCounts n long_win
    orderLongLostCnt := takeCounts n long_lost
    orderShortWinCnt := takeCounts n short_win
    orderShortLostCnt := takeCounts n short_lost
    counts_length := ⟨takeCounts_length _ _, takeCounts_length _ _, takeCounts_length _ _, takeCounts_length _ _⟩ }

end TradingGrid

/-- A call of a constructor; a number of levels is a `usize`. -/
inductive GridConstructor (F : Type) where
  | new (levels : UInt64) (min max : F)
  | fromStep (levels : UInt64) (start step : F)
  | centered (levels : UInt64) (center step : F)
  | fromLevels (levels : List F)

def GridConstructor.run {F : Type} [Scalar F] : GridConstructor F → Option (TradingGrid F)
  | .new levels min max => TradingGrid.new levels.toNat min max
  | .fromStep levels start step => TradingGrid.fromStep levels.toNat start step
  | .centered levels center step => TradingGrid.centered levels.toNat center step
  | .fromLevels levels => TradingGrid.fromLevels levels

/-- A call that changes a grid. -/
inductive GridBuilder (F : Type) where
  | recordTradeOutcome (level : Nat) (is_long : Bool) (pnl_pct : F)
  | withOutcomeCounts (long_win long_lost short_win short_lost : List Nat)
  | withSlPct (sl_pct : F)
  | withWeights (base : List F)
  | withWeightMatrix (rows : List (List F))
  | withWeightsNormal (sharpness : F)
  | withWeightsUniform
  | withWeightsLinear (ascending : Bool)
  | withWeightsTrend (direction strength : F)
  | withLongWinP (long_win_p : List F)
  | withShortWinP (short_win_p : List F)
  | withMaxCandles (max_candles : Nat)
  | withWinProbabilities (long_win_p short_win_p : List F)

def GridBuilder.apply {F : Type} [Scalar F] (exp : F → F) (powf : F → F → F) (g : TradingGrid F) : GridBuilder F → TradingGrid F
  | .recordTradeOutcome level is_long pnl_pct => g.recordTradeOutcome level is_long pnl_pct
  | .withOutcomeCounts long_win long_lost short_win short_lost => g.withOutcomeCounts long_win long_lost short_win short_lost
  | .withSlPct sl_pct => g.withSlPct sl_pct
  | .withWeights base => g.withWeights base
  | .withWeightMatrix rows => g.withWeightMatrix rows
  | .withWeightsNormal sharpness => .withWeightsNormal exp g sharpness
  | .withWeightsUniform => g.withWeightsUniform
  | .withWeightsLinear ascending => g.withWeightsLinear ascending
  | .withWeightsTrend direction strength => .withWeightsTrend powf g direction strength
  | .withLongWinP long_win_p => g.withLongWinP long_win_p
  | .withShortWinP short_win_p => g.withShortWinP short_win_p
  | .withMaxCandles max_candles => g.withMaxCandles max_candles
  | .withWinProbabilities long_win_p short_win_p => g.withWinProbabilities long_win_p short_win_p

end Opsense
