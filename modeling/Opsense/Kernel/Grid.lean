import Mathlib.Data.List.Sort
import Opsense.Lib.Scalar
import Opsense.Lib.Checked

/-!
# Candles and trading grids

`CandleStick` and `TradingGrid` of `opsense-qlib`, with the reads the kernel makes of a grid, and the two searches of
`opsense-mlib/src/binarysearch.rs` that find the levels a candle touches. A grid has at least two levels, and a row of weights
and one counter of each kind for each of them, as every constructor of the source leaves it, so the bounds of a grid always exist.
-/

namespace Opsense

/-- A candle; `t` is its opening time in seconds. -/
structure CandleStick (F : Type) where
  t : Int
  o : F
  h : F
  l : F
  c : F
  v : F
deriving DecidableEq, Repr

/-! ## Binary search -/

/-- The loop of `lower_bound` and `upper_bound` on the positions from `left` to `right`: it goes right of the middle element
when `goRight` says so. -/
def bisect {T : Type} (goRight : T → Bool) (arr : List T) : Nat → Nat → Nat → Nat
  | 0, left, _ => left
  | fuel + 1, left, right =>
    if left < right then
      let mid := left + (right - left) / 2
      if (arr[mid]?.map goRight).getD false then bisect goRight arr fuel (mid + 1) right
      else bisect goRight arr fuel left mid
    else left

theorem bisect_le {T : Type} {goRight : T → Bool} {arr : List T} :
    ∀ {fuel left right : Nat}, left ≤ right → bisect goRight arr fuel left right ≤ right := by
  intro fuel
  induction fuel with
  | zero =>
    intro left right h
    exact h
  | succ fuel ih =>
    intro left right h
    unfold bisect
    dsimp only
    split_ifs
    · exact ih (by omega)
    · exact (ih (by omega)).trans (by omega)
    · exact h

def lowerBound {T K : Type} (arr : List T) (target : K) (comparator : K → T → Ordering) : Nat :=
  bisect (fun x => comparator target x == .gt) arr arr.length 0 arr.length

def upperBound {T K : Type} (arr : List T) (target : K) (comparator : K → T → Ordering) : Nat :=
  bisect (fun x => comparator target x != .lt) arr arr.length 0 arr.length

/-! ## Grids -/

/-- A trading grid: levels in ascending order, the weights of each level over time, win probabilities and outcome counters. -/
structure TradingGrid (F : Type) where
  levels : List F
  /-- Stop-loss distance as a fraction of the entry price. -/
  slPct : F
  /-- The number of candles the grid is good for, 0 for no limit. -/
  maxCandles : Nat
  weights : List (List F)
  longWinP : List F
  shortWinP : List F
  orderLongWinCnt : List Nat
  orderLongLostCnt : List Nat
  orderShortWinCnt : List Nat
  orderShortLostCnt : List Nat
  two_le : 2 ≤ levels.length
  weights_length : weights.length = levels.length
  counts_length : orderLongWinCnt.length = levels.length ∧ orderLongLostCnt.length = levels.length ∧
    orderShortWinCnt.length = levels.length ∧ orderShortLostCnt.length = levels.length
deriving DecidableEq

namespace TradingGrid

variable {F : Type} [Scalar F]

def numLevels (g : TradingGrid F) : Nat := g.levels.length

omit [Scalar F] in
theorem levels_ne_nil (g : TradingGrid F) : g.levels ≠ [] := by
  intro h
  have := g.two_le
  rw [h] at this
  exact absurd this (by simp)

/-- The lowest level. -/
def min (g : TradingGrid F) : F := g.levels.head g.levels_ne_nil

/-- The highest level. -/
def max (g : TradingGrid F) : F := g.levels.getLast g.levels_ne_nil

/-- The price of level `j`. The source panics past the last level; no caller asks for one. -/
def levelPrice (g : TradingGrid F) (j : Nat) : F := g.levels.getD j g.max

/-- The weight of level `j` at candle `t` of the review window, the last column once the window has run past them. -/
def weight (g : TradingGrid F) (j t : Nat) : F :=
  let row := g.weights.getD j []
  row.getD (Min.min t (row.length - 1)) 0.0

def longWinPct (g : TradingGrid F) (j : Nat) : F := g.longWinP.getD j 0.0

def shortWinPct (g : TradingGrid F) (j : Nat) : F := g.shortWinP.getD j 0.0

/-- Count the outcome of a trade at a level; a level without a counter is not counted. -/
def recordTradeOutcome (g : TradingGrid F) (level : Nat) (is_long : Bool) (pnl_pct : F) : TradingGrid F :=
  if Scalar.gt pnl_pct 0.0 then
    if is_long then
      { g with orderLongWinCnt := g.orderLongWinCnt.modify level (· + 1), counts_length := by simpa using g.counts_length }
    else
      { g with orderShortWinCnt := g.orderShortWinCnt.modify level (· + 1), counts_length := by simpa using g.counts_length }
  else if is_long then
    { g with orderLongLostCnt := g.orderLongLostCnt.modify level (· + 1), counts_length := by simpa using g.counts_length }
  else
    { g with orderShortLostCnt := g.orderShortLostCnt.modify level (· + 1), counts_length := by simpa using g.counts_length }

def stoplossPct (g : TradingGrid F) : F := g.slPct

def slLong (g : TradingGrid F) (j : Nat) : F := g.levelPrice j * (1.0 - g.slPct)

def slShort (g : TradingGrid F) (j : Nat) : F := g.levelPrice j * (1.0 + g.slPct)

/-- Take-profit of a long order: the next level up, or the level itself at the top. -/
def tpAbove (g : TradingGrid F) (j : Nat) : F := (g.levels[j + 1]?).getD (g.levelPrice j)

/-- Take-profit of a short order: the next level down, or the level itself at the bottom. -/
def tpBelow (g : TradingGrid F) (j : Nat) : F :=
  match j with
  | 0 => g.levelPrice 0
  | i + 1 => (g.levels[i]?).getD (g.levelPrice (i + 1))

/-- Take-profit by the ratio of reward to risk: the first level away from `j` that reaches it, if one does. -/
def tpForRr (g : TradingGrid F) (j : Nat) (target_rr : F) (long : Bool) : Option F :=
  match g.levels[j]? with
  | none => none
  | some entry =>
    let risk := entry * g.slPct
    if !Scalar.isFinite risk || Scalar.le risk 0.0 || !Scalar.isFinite target_rr || Scalar.le target_rr 0.0 then none
    else if long then (g.levels.drop (j + 1)).find? fun tp => Scalar.ge ((tp - entry) / risk) target_rr
    else (g.levels.take j).reverse.find? fun tp => Scalar.ge ((entry - tp) / risk) target_rr

end TradingGrid

/-- The positions of the levels a candle with the given low and high covers. -/
def touchedLevels {F : Type} [Scalar F] (levels : List F) (low high : F) : Nat × Nat :=
  (lowerBound levels low Scalar.cmpOrEqual, upperBound levels high Scalar.cmpOrEqual)

end Opsense
