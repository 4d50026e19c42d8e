import Opsense.Graph.Binding
import Opsense.Kernel.Rebuild

/-!
# A grid from the outputs of a model

`Graph::setup` and `blend_realized_win_rates` of `opsense-qlib/src/graph/mod.rs`. The outputs of the model are `f32` values,
converted to doubles. A direction of the market, its strength and seven numbers give each level two probabilities; those of the
trades that were won before are blended in. There is `none` for a panic.
-/

namespace Opsense

namespace Graph

variable {F : Type} [Extrema F]

/-- `f64::clamp`, which panics where the bounds are not in order. -/
def clamp (x lo hi : F) : Option F :=
  if Scalar.le lo hi then some (if Scalar.lt x lo then lo else if Scalar.gt x hi then hi else x) else none

/-- The direction of the market and its strength. -/
def direction (market_bias : F) : Option (F × F) :=
  let epsilon : F := 1e-9
  if Scalar.gt market_bias (0.5 + epsilon) then (clamp ((market_bias - 0.5) * 2.0) 0.0 1.0).map fun strength => (1.0, strength)
  else if Scalar.lt market_bias (0.5 - epsilon) then
    (clamp (Extrema.abs (market_bias - 0.5) * 2.0) 0.0 1.0).map fun strength => (0.0 - 1.0, strength)
  else some (0.0, 0.0)

/-- A number of the first output, with what stands for it when it is missing (an `f32`) and when it is not finite. -/
def output (outputs : List (List F)) (i : Nat) (missing default : F) : F := finiteOr ((outputs.headD [])[i]?.getD missing) default

def marketBias (outputs : List (List F)) : F := output outputs 0 0.5 0.5

def atr (outputs : List (List F)) : F := finiteOr ((outputs[1]?.bind List.head?).getD 0.0) 0.0

/-- What the probabilities are computed of. -/
structure Odds (F : Type) where
  prob_base : F
  bias_scale : F
  level_trend : F
  prob_max : F
  prob_min : F
  prob_short_max : F
  prob_short_min : F

def odds (outputs : List (List F)) : Odds F where
  prob_base := output outputs 1 0.5 0.5
  bias_scale := output outputs 2 0.2199999988079071044921875 0.22
  level_trend := output outputs 3 0.0500000007450580596923828125 0.05
  prob_max := output outputs 4 0.7799999713897705078125 0.78
  prob_min := output outputs 5 0.3499999940395355224609375 0.35
  prob_short_max := output outputs 6 0.64999997615814208984375 0.65
  prob_short_min := output outputs 7 0.2199999988079071044921875 0.22

/-- The probabilities of a level before they are clamped. -/
def Odds.lean (o : Odds F) (direction strength : F) (k j : Nat) : F × F :=
  let t := Scalar.ofNat j / Scalar.ofNat (Max.max k 2 - 1)
  let bias := strength * o.bias_scale
  if Scalar.gt direction 0.0 then (o.prob_base + bias + (1.0 - t) * o.level_trend, o.prob_base - bias - t * o.level_trend)
  else if Scalar.lt direction 0.0 then (o.prob_base + bias + (1.0 - t) * o.level_trend, o.prob_base - bias - t * o.level_trend)
  else (o.prob_base, o.prob_base)

/-- The probabilities of a level. -/
def Odds.level (o : Odds F) (direction strength : F) (k j : Nat) : Option (F × F) := do
  let p := o.lean direction strength k j
  let long_win ← clamp p.1 (Extrema.min o.prob_min o.prob_max) (Scalar.max o.prob_min o.prob_max)
  let short_win ← clamp p.2 (Extrema.min o.prob_short_min o.prob_short_max) (Scalar.max o.prob_short_min o.prob_short_max)
  return (long_win, short_win)

/-! ## The trades that were won before -/

/-- A sum of `usize`. -/
def addUsize (checks : Bool) (a b : Nat) : Option Nat := if checks ∧ 2 ^ 64 ≤ a + b then none else some ((a + b) % 2 ^ 64)

structure Tally where
  long_wins : Nat
  long_total : Nat
  short_wins : Nat
  short_total : Nat

/-- Count the trades of a level. -/
def Tally.add (checks : Bool) (t : Tally) (level : TradingGrid F × Nat) : Option Tally := do
  let g := level.1
  let j := level.2
  let long_wins ← addUsize checks t.long_wins (g.longWinCount j)
  let long ← addUsize checks (g.longWinCount j) (g.longLostCount j)
  let long_total ← addUsize checks t.long_total long
  let short_wins ← addUsize checks t.short_wins (g.shortWinCount j)
  let short ← addUsize checks (g.shortWinCount j) (g.shortLostCount j)
  let short_total ← addUsize checks t.short_total short
  return ⟨long_wins, long_total, short_wins, short_total⟩

/-- The levels of all grids. -/
def levelsOf (grids : List (TradingGrid F)) : List (TradingGrid F × Nat) :=
  grids.flatMap fun g => (List.range g.numLevels).map fun j => (g, j)

def tally (checks : Bool) (grids : List (TradingGrid F)) : Option Tally := (levelsOf grids).foldlM (Tally.add checks) ⟨0, 0, 0, 0⟩

/-- The rate of the trades that were won, when there are enough of them. -/
def realized (min_samples wins total : Nat) : Option F :=
  if min_samples ≤ total then some (Scalar.ofNat wins / Scalar.ofNat total) else none

def blend (alpha : F) (realized : Option F) (p : F) : F :=
  match realized with
  | some r => (1.0 - alpha) * p + alpha * r
  | none => p

def blendRealizedWinRates (checks : Bool) (long_win short_win : List F) (grids : List (TradingGrid F)) (alpha : F)
    (min_samples : Nat) : Option (List F × List F) := do
  let t ← tally checks grids
  return (long_win.map (blend alpha (realized min_samples t.long_wins t.long_total)),
    short_win.map (blend alpha (realized min_samples t.short_wins t.short_total)))

/-! ## The grid -/

/-- The levels of the grid around the last close, without the trades. -/
def frame (last_close atr : F) (grid_levels : Nat) : Option (TradingGrid F) :=
  let half_width := 2.0 * atr / 2.0
  TradingGrid.new (Max.max 2 (Min.min grid_levels 64)) (last_close - half_width) (last_close + half_width)

/-- `exp` is `f64::exp`, and `powf` is `f64::powf`. -/
def setup (exp : F → F) (powf : F → F → F) (checks : Bool) (last_close : F) (outputs : List (List F)) (grids : List (TradingGrid F))
    (grid_levels : Nat) (sl_pct : F) : Option (List (TradingGrid F)) :=
  if Scalar.le (atr outputs) 0.0 || !Scalar.isFinite last_close || Scalar.le last_close 0.0 then some []
  else do
    let d ← direction (marketBias outputs)
    match frame last_close (atr outputs) grid_levels with
    | none => return []
    | some tg =>
      let tg := (if Scalar.partialCmp d.1 0.0 = some .eq then TradingGrid.withWeightsNormal exp tg 4.0
        else TradingGrid.withWeightsTrend powf tg d.1 d.2).withSlPct sl_pct
      let probs ← (List.range tg.numLevels).mapM fun j => (odds outputs).level d.1 d.2 tg.numLevels j
      let wins ← blendRealizedWinRates checks (probs.map Prod.fst) (probs.map Prod.snd) grids 0.2 5
      return [((tg.withSlPct 0.008).withMaxCandles 48).withWinProbabilities wins.1 wins.2]

end Graph

end Opsense
