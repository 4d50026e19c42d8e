import Opsense.Kernel.Order
import Opsense.Lib.Drawdown

/-!
# The report of an order history

`convert_order_history_into_report` of `opsense-qlib/src/portfolio.rs` over exact rationals. A division by zero gives no report,
the square root is a function that nothing is assumed of, and a ratio without a loss is infinite. One fold over the orders keeps
the drawdown and the streak of `Opsense.Lib.Drawdown`, and what the other statistics are quotients of.
-/

namespace Opsense

structure Report where
  totalTrades : Nat
  winRate : ℚ
  netPnlPct : ℚ
  totalReturn : ℚ
  profitFactor : WithTop ℚ
  expectancy : ℚ
  sharpeRatio : ℚ
  sortinoRatio : ℚ
  calmarRatio : ℚ
  maxDrawdownPct : ℚ
  maxConsecutiveLosses : Nat
  avgWinPct : ℚ
  avgLossPct : ℚ
  winLossRatio : WithTop ℚ
  longTrades : Nat
  longWinRate : ℚ
  shortTrades : Nat
  shortWinRate : ℚ
  netPnlAbs : ℚ

/-- `Report::default` -/
def Report.default : Report := ⟨0, 0, 0, 0, 0, 0, 0, 0, 0, 0, 0, 0, 0, 0, 0, 0, 0, 0, 0⟩

/-- The accumulators of the loop over the orders. -/
structure Tally where
  peakEquity : ℚ
  maxDrawdown : ℚ
  currentEquity : ℚ
  consecutiveLosses : Nat
  maxConsecutiveLosses : Nat
  pnlList : List ℚ
  longTrades : Nat
  longWins : Nat
  shortTrades : Nat
  shortWins : Nat
  grossProfit : ℚ
  grossLoss : ℚ
  wins : Nat
  totalPnl : ℚ
  netPnlAbs : ℚ

namespace Tally

def start : Tally := ⟨0, 0, 0, 0, 0, [], 0, 0, 0, 0, 0, 0, 0, 0, 0⟩

/-- One round of the loop; an order without a profit is passed over. -/
def record (t : Tally) (order : Order ℚ) : Tally :=
  match order.pnlPct with
  | none => t
  | some pnl =>
    let current := t.currentEquity + pnl
    let long := order.dtype = .long
    let short := order.dtype = .short
    { peakEquity := if t.peakEquity < current then current else t.peakEquity
      maxDrawdown := if t.peakEquity < current then t.maxDrawdown else max t.maxDrawdown (t.peakEquity - current)
      currentEquity := current
      consecutiveLosses := if 0 < pnl then 0 else t.consecutiveLosses + 1
      maxConsecutiveLosses := if 0 < pnl then t.maxConsecutiveLosses else max t.maxConsecutiveLosses (t.consecutiveLosses + 1)
      pnlList := t.pnlList ++ [pnl]
      longTrades := if long then t.longTrades + 1 else t.longTrades
      longWins := if long ∧ 0 < pnl then t.longWins + 1 else t.longWins
      shortTrades := if short then t.shortTrades + 1 else t.shortTrades
      shortWins := if short ∧ 0 < pnl then t.shortWins + 1 else t.shortWins
      grossProfit := if 0 < pnl then t.grossProfit + pnl else t.grossProfit
      grossLoss := if 0 < pnl then t.grossLoss else t.grossLoss + |pnl|
      wins := if 0 < pnl then t.wins + 1 else t.wins
      totalPnl := t.totalPnl + pnl
      netPnlAbs := t.netPnlAbs + order.size * pnl }

def totalTrades (t : Tally) : Nat := t.pnlList.length

def losses (t : Tally) : Nat := t.totalTrades - t.wins

end Tally

def tally (orders : List (Order ℚ)) : Tally := orders.foldl Tally.record .start

/-- `a / b`, and nothing when `b` is zero. -/
def quotient (a b : ℚ) : Option ℚ := if b = 0 then none else some (a / b)

/-- The quotient by a divisor above zero, and else the value that is given for it. -/
def quotientOr {α : Type} (value : ℚ → α) (a b : ℚ) (other : α) : Option α :=
  if 0 < b then (quotient a b).map value else some other

/-- `sqrt` is the square root of a double. -/
def convertOrderHistoryIntoReport (sqrt : ℚ → ℚ) (orders : List (Order ℚ)) : Option Report :=
  if orders.isEmpty then some .default
  else do
    let t := tally orders
    let total_trades : ℚ := t.totalTrades
    let win_rate ← quotient t.wins total_trades
    let avg_win ← quotientOr id t.grossProfit t.wins 0
    let avg_loss ← quotientOr id t.grossLoss t.losses 0
    let profit_factor ← quotientOr WithTop.some t.grossProfit t.grossLoss ⊤
    let win_loss_ratio ← quotientOr WithTop.some avg_win avg_loss ⊤
    let expectancy := win_rate * avg_win - (1 - win_rate) * avg_loss
    let mean_pnl ← quotient t.totalPnl total_trades
    let variance ← quotient (t.pnlList.map fun p => (p - mean_pnl) ^ 2).sum total_trades
    let std_dev := sqrt variance
    let downside ← quotient ((t.pnlList.filter (· < 0)).map (· ^ 2)).sum total_trades
    let downside_std_dev := sqrt downside
    let sqrt_trades := sqrt total_trades
    let sharpe_ratio ← quotientOr (· * sqrt_trades) mean_pnl std_dev 0
    let sortino_ratio ← quotientOr (· * sqrt_trades) mean_pnl downside_std_dev 0
    let calmar_ratio ← quotientOr id t.totalPnl t.maxDrawdown 0
    let long_win_rate ← quotientOr (· * 100) t.longWins t.longTrades 0
    let short_win_rate ← quotientOr (· * 100) t.shortWins t.shortTrades 0
    pure
      { totalTrades := t.totalTrades
        winRate := win_rate * 100
        netPnlPct := t.totalPnl * 100
        totalReturn := t.totalPnl * 100
        profitFactor := profit_factor
        expectancy := expectancy * 100
        sharpeRatio := sharpe_ratio
        sortinoRatio := sortino_ratio
        calmarRatio := calmar_ratio
        maxDrawdownPct := t.maxDrawdown * 100
        maxConsecutiveLosses := t.maxConsecutiveLosses
        avgWinPct := avg_win * 100
        avgLossPct := avg_loss * 100
        winLossRatio := win_loss_ratio
        longTrades := t.longTrades
        longWinRate := long_win_rate
        shortTrades := t.shortTrades
        shortWinRate := short_win_rate
        netPnlAbs := t.netPnlAbs }

/-! ## What the report claims -/

/-- The profits of the closed orders. -/
def closedPnls (orders : List (Order ℚ)) : List ℚ := orders.filterMap Order.pnlPct

/-- The statistics of a report are those of the profits. -/
structure Report.Faithful (orders : List (Order ℚ)) (r : Report) : Prop where
  trades : r.totalTrades = (closedPnls orders).length
  drawdown : ∃ d, r.maxDrawdownPct = d * 100 ∧
    IsGreatest {e | ∃ i j, i ≤ j ∧ j ≤ (closedPnls orders).length ∧ e = equity (closedPnls orders) i - equity (closedPnls orders) j} d
  streak : IsGreatest {n | ∃ run, run <:+: closedPnls orders ∧ (∀ p ∈ run, ¬0 < p) ∧ n = run.length} r.maxConsecutiveLosses
  expectancy : r.expectancy = (closedPnls orders).sum / (closedPnls orders).length * 100

namespace Tally

/-- What the loop keeps of the profits it has seen. -/
structure Tracks (l : List ℚ) (t : Tally) : Prop where
  pnls : t.pnlList = l
  total : t.totalPnl = l.sum
  equity : Drawdown.Tracks l ⟨t.currentEquity, t.peakEquity, t.maxDrawdown⟩
  streak : Streak.Tracks (fun p : ℚ => !decide (0 < p)) l ⟨t.consecutiveLosses, t.maxConsecutiveLosses⟩
  wins : t.wins = l.countP fun p : ℚ => decide (0 < p)
  balance : t.grossProfit - t.grossLoss = l.sum
  profit : t.wins = 0 → t.grossProfit = 0
  loss : t.wins = l.length → t.grossLoss = 0

theorem start_tracks : Tracks [] start :=
  ⟨rfl, rfl, Drawdown.start_tracks, Streak.start_tracks _, rfl, sub_self _, fun _ => rfl, fun _ => rfl⟩

theorem Tracks.record {l : List ℚ} {t : Tally} (h : Tracks l t) {order : Order ℚ} {pnl : ℚ} (hpnl : order.pnlPct = some pnl) :
    Tracks (l ++ [pnl]) (t.record order) := by
  have hle : t.wins ≤ l.length := h.wins ▸ List.countP_le_length
  have hequity := h.equity.step pnl
  have hstreak := h.streak.step pnl
  unfold Drawdown.step at hequity
  unfold Streak.step at hstreak
  dsimp only at hequity hstreak
  unfold Tally.record
  rw [hpnl]
  dsimp only
  refine ⟨by rw [h.pnls], by rw [h.total, List.sum_append, List.sum_singleton], ?_, ?_, ?_, ?_, ?_, ?_⟩ <;> dsimp only
  · split_ifs at hequity ⊢ <;> exact hequity
  · by_cases hwin : 0 < pnl
    · simpa [hwin] using hstreak
    · simpa [hwin] using hstreak
  · by_cases hwin : 0 < pnl <;> simp [hwin, h.wins]
  · have hsum : (l ++ [pnl]).sum = t.grossProfit - t.grossLoss + pnl := by rw [List.sum_append, List.sum_singleton, h.balance]
    rw [hsum]
    split_ifs with hwin
    · ring
    · rw [abs_of_nonpos (not_lt.mp hwin)]
      ring
  · split_ifs with hwin
    · exact fun hzero => hzero.elim
    · exact h.profit
  · rw [List.length_append, List.length_singleton]
    split_ifs with hwin
    · exact fun heq => h.loss (Nat.succ.inj heq)
    · omega

end Tally

theorem tally_tracks (orders : List (Order ℚ)) : (tally orders).Tracks (closedPnls orders) := by
  induction orders using List.reverseRecOn with
  | nil => exact Tally.start_tracks
  | append_singleton orders order ih =>
    have hfold : tally (orders ++ [order]) = (tally orders).record order := by
      unfold tally
      rw [List.foldl_append, List.foldl_cons, List.foldl_nil]
    have hclosed : closedPnls (orders ++ [order]) = closedPnls orders ++ order.pnlPct.toList := by
      unfold closedPnls
      rw [List.filterMap_append]
      cases h : order.pnlPct <;> simp [h]
    rw [hfold, hclosed]
    cases h : order.pnlPct with
    | none =>
      have hsame : (tally orders).record order = tally orders := by
        unfold Tally.record
        rw [h]
      rw [hsame, Option.toList_none, List.append_nil]
      exact ih
    | some pnl => exact ih.record h

theorem tally_wins_le (orders : List (Order ℚ)) : (tally orders).wins ≤ (closedPnls orders).length := by
  rw [(tally_tracks orders).wins]
  exact List.countP_le_length

theorem tally_totalTrades (orders : List (Order ℚ)) : (tally orders).totalTrades = (closedPnls orders).length := by
  unfold Tally.totalTrades
  rw [(tally_tracks orders).pnls]

theorem quotient_eq {a b : ℚ} (h : b ≠ 0) : quotient a b = some (a / b) := if_neg h

theorem quotientOr_eq {α : Type} {value : ℚ → α} {a b : ℚ} {other : α} :
    quotientOr value a b other = some (if 0 < b then value (a / b) else other) := by
  unfold quotientOr
  split_ifs with h
  · rw [quotient_eq h.ne', Option.map_some]
  · rfl

variable {orders : List (Order ℚ)}

/-- The two averages, weighted by how often they are met, give the mean. -/
theorem expectancy_eq (h : closedPnls orders ≠ []) {win_rate avg_win avg_loss : ℚ}
    (hrate : win_rate = (tally orders).wins / (tally orders).totalTrades)
    (hwin : avg_win = if 0 < ((tally orders).wins : ℚ) then (tally orders).grossProfit / (tally orders).wins else 0)
    (hloss : avg_loss = if 0 < ((tally orders).losses : ℚ) then (tally orders).grossLoss / (tally orders).losses else 0) :
    win_rate * avg_win - (1 - win_rate) * avg_loss = (closedPnls orders).sum / (closedPnls orders).length := by
  have ht := tally_tracks orders
  have hle := tally_wins_le orders
  have htotal := tally_totalTrades orders
  have hpos : (0 : ℚ) < (closedPnls orders).length := Nat.cast_pos.mpr (List.length_pos_of_ne_nil h)
  have hlosses : ((tally orders).losses : ℚ) = (closedPnls orders).length - (tally orders).wins := by
    unfold Tally.losses
    rw [htotal, Nat.cast_sub hle]
  have hprofit : win_rate * avg_win = (tally orders).grossProfit / (closedPnls orders).length := by
    rw [hrate, hwin, htotal]
    split_ifs with hsome
    · field_simp
    · rw [ht.profit (by simpa using hsome), mul_zero, zero_div]
  have hlost : (1 - win_rate) * avg_loss = (tally orders).grossLoss / (closedPnls orders).length := by
    rw [hrate, hloss, htotal]
    split_ifs with hsome
    · rw [hlosses] at hsome ⊢
      field_simp
    · have heq : (tally orders).wins = (closedPnls orders).length := by
        rw [hlosses, sub_pos, Nat.cast_lt] at hsome
        omega
      rw [ht.loss heq, mul_zero, zero_div]
  rw [hprofit, hlost, ← sub_div, ht.balance]

/-- A history with a profit has a report. -/
theorem exists_report (sqrt : ℚ → ℚ) (h : closedPnls orders ≠ []) :
    ∃ r, convertOrderHistoryIntoReport sqrt orders = some r ∧ r.Faithful orders := by
  have hne : orders.isEmpty = false := by
    rw [List.isEmpty_eq_false_iff]
    rintro rfl
    exact h rfl
  have htotal := tally_totalTrades orders
  have hpos : ((tally orders).totalTrades : ℚ) ≠ 0 := by
    rw [htotal]
    exact Nat.cast_ne_zero.mpr (List.length_pos_of_ne_nil h).ne'
  have ht := tally_tracks orders
  unfold convertOrderHistoryIntoReport
  simp only [hne, Bool.false_eq_true, if_false, quotient_eq hpos, quotientOr_eq, Option.bind_eq_bind, Option.bind_some, Option.pure_def]
  refine ⟨_, rfl, htotal, ⟨_, rfl, ht.equity.drop⟩, ?_, ?_⟩ <;> dsimp only
  · simpa using ht.streak.longest
  · exact congrArg (· * 100) (expectancy_eq h rfl rfl rfl)

theorem report_empty : Report.default.Faithful [] := by
  refine ⟨rfl, ⟨0, (zero_mul _).symm, Drawdown.start_tracks.drop⟩, ?_, ?_⟩
  · refine ⟨⟨[], List.infix_rfl, nofun, rfl⟩, ?_⟩
    rintro n ⟨run, hrun, -, rfl⟩
    rw [List.infix_nil.mp hrun]
    exact le_rfl
  · simp [Report.default, closedPnls]

/-- Orders without any profit are divided by their number, which is zero. -/
theorem report_none (sqrt : ℚ → ℚ) (hne : orders ≠ []) (h : closedPnls orders = []) :
    convertOrderHistoryIntoReport sqrt orders = none := by
  have htotal : ((tally orders).totalTrades : ℚ) = 0 := by
    rw [tally_totalTrades, h, List.length_nil, Nat.cast_zero]
  unfold convertOrderHistoryIntoReport
  rw [if_neg (by simpa using hne)]
  dsimp only
  rw [htotal]
  rfl

/-- The report is made without a division by zero and says what the profits are, and every closed order is a win or a loss,
exactly when the history is empty or has a closed order. -/
theorem report_iff (sqrt : ℚ → ℚ) (orders : List (Order ℚ)) :
    ((∃ r, convertOrderHistoryIntoReport sqrt orders = some r ∧ r.Faithful orders) ∧
        (tally orders).wins + (tally orders).losses = (closedPnls orders).length) ↔
      orders = [] ∨ ∃ order ∈ orders, order.pnlPct.isSome := by
  have houtcomes : (tally orders).wins + (tally orders).losses = (closedPnls orders).length := by
    have hle := tally_wins_le orders
    unfold Tally.losses
    rw [tally_totalTrades]
    omega
  have hclosed : closedPnls orders = [] ↔ ¬∃ order ∈ orders, order.pnlPct.isSome := by
    unfold closedPnls
    simp [List.filterMap_eq_nil_iff]
  constructor
  · rintro ⟨⟨r, hr, -⟩, -⟩
    by_cases hempty : orders = []
    · exact .inl hempty
    · refine .inr (not_not.mp fun hnot => ?_)
      rw [report_none sqrt hempty (hclosed.mpr hnot)] at hr
      cases hr
  · rintro (rfl | hsome)
    · exact ⟨⟨_, rfl, report_empty⟩, houtcomes⟩
    · exact ⟨exists_report sqrt fun h => hclosed.mp h hsome, houtcomes⟩

/-- One order that has not been closed. -/
theorem open_order_divides_by_zero :
    convertOrderHistoryIntoReport id
      [{ dtype := .long, entryPrice := 100, size := 1, slPrice := 95, tpPrice := 110, gridIndex := 0, levelIndex := 0,
         pnlPct := none, exitPrice := none, unlockSeq := 0 }] = none := by
  decide +kernel

end Opsense
