import Opsense.Kernel.LevelBudget

/-!
# The size of an order and its odds

`calculate_order_size` of `opsense-qlib/src/portfolio.rs` takes the odds of an order to be one to its stop distance. The odds of the
order are its reward to its risk, and the two are the same exactly if the take-profit is as far from the entry price as zero is
(`sizing_iff`).
-/

namespace Opsense

section

variable {F : Type} [Scalar F]

/-- The win probability an order of the level is sized by. -/
def winPct (p : Opening F) (grid : TradingGrid F) (il : Nat) : F :=
  if grid.isLong il then grid.longWinPct il * grid.weight il p.id else grid.shortWinPct il * grid.weight il p.id

/-- The stop of an order of the level. -/
def stopPrice (grid : TradingGrid F) (il : Nat) : F := if grid.isLong il then grid.slLong il else grid.slShort il

/-- A level that gives an order has a take-profit, and the order has the prices of the level and a size above zero. -/
theorem considerLevel_order {p : Opening F} {ig il : Nat} {grid : TradingGrid F} {ts : Nat} {order : Order F}
    (h : considerLevel p ig grid il = .placed ts order) :
    takeProfit p grid il (grid.isLong il) = some order.tpPrice ∧ order.gridIndex = ig ∧ order.levelIndex = il ∧
      order.entryPrice = grid.levelPrice il ∧ order.slPrice = stopPrice grid il ∧
      order.size = calculateOrderSize (winPct p grid il) grid.slPct p.kellyFraction p.baseCapital ∧ ¬Scalar.le order.size 0.0 = true := by
  unfold considerLevel at h
  dsimp only at h
  split at h
  case h_1 => cases h
  case h_2 tp htp =>
    unfold winPct stopPrice TradingGrid.isLong
    split_ifs at h with hlong hfee hsize hfee hsize <;> rw [OrderEvent.placed.injEq] at h <;> obtain ⟨-, rfl⟩ := h
    · rw [hlong] at htp ⊢
      exact ⟨htp, rfl, rfl, rfl, rfl, rfl, hsize⟩
    · rw [Bool.not_eq_true] at hlong
      rw [hlong] at htp ⊢
      exact ⟨htp, rfl, rfl, rfl, rfl, rfl, hsize⟩

end

/-! ## Where an order comes from -/

/-- A placed order is that of a level of the grid it names. -/
theorem placed_level {F : Type} [Scalar F] {p : Opening F} {candle : CandleStick F} {plan : List (TradingGrid F)}
    {orders : List (Order F)} {ts : Nat} {order : Order F} (h : OrderEvent.placed ts order ∈ (openOrders p candle plan orders).2) :
    ∃ grid, plan[order.gridIndex]? = some grid ∧ considerLevel p order.gridIndex grid order.levelIndex = .placed ts order := by
  obtain ⟨grid, ig, il, hgrid, hevent⟩ := openOrders_level _ h
  obtain ⟨-, rfl, rfl, -⟩ := considerLevel_order hevent.symm
  exact ⟨grid, hgrid, hevent.symm⟩

/-! ## Odds -/

namespace Order

/-- The distance of the take-profit. -/
def reward (order : Order ℚ) : ℚ := |order.tpPrice - order.entryPrice|

/-- The distance of the stop. -/
def risk (order : Order ℚ) : ℚ := |order.entryPrice - order.slPrice|

/-- The order is sized by its own odds, and its win probability is more than enough for them. -/
structure FollowsOdds (p : Opening ℚ) (win_p : ℚ) (order : Order ℚ) : Prop where
  size : order.size = p.baseCapital * p.kellyFraction * (win_p * (order.reward / order.risk) - (1 - win_p)) / (order.reward / order.risk)
  enough : order.risk / (order.reward + order.risk) < win_p

end Order

/-- The take-profit of the level is as far from its price as zero is. -/
def RewardIsEntry (p : Opening ℚ) (grid : TradingGrid ℚ) (il : Nat) : Prop :=
  grid.levelPrice il ≠ 0 ∧ ∃ tp, takeProfit p grid il (grid.isLong il) = some tp ∧ |tp - grid.levelPrice il| = |grid.levelPrice il|

/-- A size above zero. -/
theorem size_of_pos {win_p sl_pct fraction base_capital : ℚ} (h : 0 < calculateOrderSize win_p sl_pct fraction base_capital)
    (hfraction : 0 < fraction) :
    win_p < 1 ∧ 0 < sl_pct ∧ 0 < win_p - (1 - win_p) * sl_pct ∧
      calculateOrderSize win_p sl_pct fraction base_capital = base_capital * fraction * (win_p - (1 - win_p) * sl_pct) := by
  have hsl := sl_pos_of_size h
  unfold calculateOrderSize at h ⊢
  split_ifs at h ⊢ with hguard
  · rw [Scalar.zero_rat] at h
    exact absurd h (lt_irrefl _)
  simp only [Bool.or_eq_true, not_or, Scalar.ge_rat, decide_eq_true_eq, Scalar.one_rat] at hguard
  have hmax : ∀ x : ℚ, Scalar.max x 0.0 = max x 0 := by
    intro x
    rw [Scalar.zero_rat]
    change (if x ≤ 0 then 0 else x) = max x 0
    rw [max_def]
  have hkelly : (win_p * (1 / sl_pct) - (1 - win_p)) / (1 / sl_pct) = win_p - (1 - win_p) * sl_pct := by
    field_simp
  dsimp only at h ⊢
  rw [Scalar.one_rat, hmax, hkelly] at h ⊢
  have hpos : 0 < (win_p - (1 - win_p) * sl_pct) * fraction := by
    by_contra hle
    rw [max_eq_right (not_lt.mp hle), mul_zero] at h
    exact absurd h (lt_irrefl _)
  refine ⟨not_le.mp hguard.1.2, hsl, (mul_pos_iff_of_pos_right hfraction).mp hpos, ?_⟩
  rw [max_eq_left hpos.le]
  ring

/-- A size that the stop distance alone gives is the one that the odds give exactly if they are one to the stop distance. -/
theorem kelly_eq_iff {win_p sl b c : ℚ} (hwin : win_p < 1) (hsl : 0 < sl) (hc : 0 < c) (hpos : 0 < win_p - (1 - win_p) * sl) :
    c * (win_p - (1 - win_p) * sl) = c * (win_p * b - (1 - win_p)) / b ↔ b = 1 / sl := by
  have hlose : 0 < 1 - win_p := sub_pos.mpr hwin
  constructor
  · intro heq
    have hb : b ≠ 0 := by
      rintro rfl
      rw [div_zero] at heq
      exact absurd heq (mul_pos hc hpos).ne'
    have hodds : c * (win_p * b - (1 - win_p)) / b = c * (win_p - (1 - win_p) / b) := by
      field_simp
    rw [hodds] at heq
    have hfraction := mul_left_cancel₀ hc.ne' heq
    have hrisk : (1 - win_p) * sl = (1 - win_p) * (1 / b) := by
      rw [mul_one_div]
      linarith
    rw [mul_left_cancel₀ hlose.ne' hrisk, one_div_one_div]
  · rintro rfl
    field_simp

/-- The odds are one to the stop distance exactly if the reward is the price. -/
theorem odds_eq_iff {reward price sl : ℚ} (hsl : 0 < sl) : reward / (price * sl) = 1 / sl ↔ price ≠ 0 ∧ reward = price := by
  by_cases hprice : price = 0
  · simp [hprice, hsl.ne]
  · rw [div_eq_div_iff (mul_ne_zero hprice hsl.ne') hsl.ne', one_mul, mul_left_inj' hsl.ne']
    simp [hprice]

/-- The stop of a level is its stop distance away, on whichever side. -/
theorem abs_sub_stopPrice (grid : TradingGrid ℚ) (il : Nat) :
    |grid.levelPrice il - stopPrice grid il| = |grid.levelPrice il * grid.slPct| := by
  unfold stopPrice TradingGrid.slLong TradingGrid.slShort
  rw [Scalar.one_rat]
  split_ifs
  · congr 1
    ring
  · rw [← abs_neg]
    congr 1
    ring

/-- A placed order is sized by its odds exactly if its take-profit is as far from its price as zero is. -/
theorem sizing_iff {p : Opening ℚ} (hfraction : 0 < p.kellyFraction ∧ p.kellyFraction ≤ 1) (hbase : 0 < p.baseCapital)
    {candle : CandleStick ℚ} {plan : List (TradingGrid ℚ)} {orders : List (Order ℚ)} {ts : Nat} {order : Order ℚ}
    (h : OrderEvent.placed ts order ∈ (openOrders p candle plan orders).2) : ∃ grid, plan[order.gridIndex]? = some grid ∧
      (order.FollowsOdds p (winPct p grid order.levelIndex) ↔ RewardIsEntry p grid order.levelIndex) := by
  obtain ⟨grid, hgrid, hevent⟩ := placed_level h
  obtain ⟨htp, -, -, hentry, hstop, hsize, hpositive⟩ := considerLevel_order hevent
  refine ⟨grid, hgrid, ?_⟩
  rw [Scalar.le_rat, Scalar.zero_rat, decide_eq_true_eq, not_le] at hpositive
  rw [hsize] at hpositive
  obtain ⟨hwin, hsl, hkelly, hvalue⟩ := size_of_pos hpositive hfraction.1
  have hrisk : order.risk = |grid.levelPrice order.levelIndex| * grid.slPct := by
    rw [Order.risk, hentry, hstop, abs_sub_stopPrice, abs_mul, abs_of_pos hsl]
  have hreward : order.reward = |order.tpPrice - grid.levelPrice order.levelIndex| := by rw [Order.reward, hentry]
  have hcondition : RewardIsEntry p grid order.levelIndex ↔
      |grid.levelPrice order.levelIndex| ≠ 0 ∧ order.reward = |grid.levelPrice order.levelIndex| := by
    rw [hreward]
    simp only [RewardIsEntry, htp, Option.some.injEq, exists_eq_left', abs_ne_zero]
  rw [hcondition]
  have hsame := kelly_eq_iff (b := order.reward / order.risk) hwin hsl (mul_pos hbase hfraction.1) hkelly
  rw [← hvalue, ← hsize, hrisk, odds_eq_iff hsl] at hsame
  constructor
  · intro hfollows
    rw [← hrisk] at hsame
    exact hsame.mp hfollows.size
  · intro hodds
    refine ⟨?_, ?_⟩
    · rw [hrisk]
      exact hsame.mpr hodds
    · rw [hrisk, hodds.2]
      have hentry_pos : 0 < |grid.levelPrice order.levelIndex| := lt_of_le_of_ne (abs_nonneg _) hodds.1.symm
      rw [div_lt_iff₀ (by positivity)]
      nlinarith [mul_pos hentry_pos hkelly]

/-- What is opened with: the whole Kelly fraction of a capital of 1000, without a ratio of reward to risk. -/
def wholeFraction : Opening ℚ := ⟨0, 0, .ofRate (1 / 1000), 1, 1000, 0, 0⟩

/-- The order of the lower of two levels at 100 and 110. -/
def lowerOrder : Order ℚ := ⟨.long, 100, 425 / 2, 95, 110, 0, 0, none, none, 0⟩

theorem sizing_iff_lower :
    OrderEvent.placed 0 lowerOrder ∈ (openOrders wholeFraction (flatCandle 100) (TradingGrid.new (F := ℚ) 2 100 110).toList []).2 ∧
    ∃ grid, (TradingGrid.new (F := ℚ) 2 100 110).toList[0]? = some grid ∧
      (lowerOrder.FollowsOdds wholeFraction (winPct wholeFraction grid 0) ↔ RewardIsEntry wholeFraction grid 0) := by
  have hplaced : OrderEvent.placed 0 lowerOrder ∈
      (openOrders wholeFraction (flatCandle 100) (TradingGrid.new (F := ℚ) 2 100 110).toList []).2 := by decide +kernel
  exact ⟨hplaced, sizing_iff ⟨by norm_num [wholeFraction], by norm_num [wholeFraction]⟩ (by norm_num [wholeFraction]) hplaced⟩

/-- Its reward is 10 and its risk is 5, so that a win probability of a quarter is not enough; it is placed with a fifth of the
capital. -/
theorem lower_order_placed : ∃ grid, TradingGrid.new (F := ℚ) 2 100 110 = some grid ∧
    OrderEvent.placed 0 lowerOrder ∈ (openOrders wholeFraction (flatCandle 100) [grid] []).2 ∧ winPct wholeFraction grid 0 = 1 / 4 ∧
      lowerOrder.reward = 10 ∧ lowerOrder.risk = 5 ∧ ¬lowerOrder.FollowsOdds wholeFraction (winPct wholeFraction grid 0) := by
  refine ⟨_, rfl, by decide +kernel, by decide +kernel, by decide +kernel, by decide +kernel, ?_⟩
  intro hfollows
  exact absurd hfollows.enough (by decide +kernel)

end Opsense
