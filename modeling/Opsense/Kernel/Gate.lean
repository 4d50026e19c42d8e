import Opsense.Kernel.GridBuild
import Opsense.Kernel.Order

/-!
# The entry gate and the ledger

An order is placed when its expected profit is above the fee of a round trip, and it is written down with the profit it leaves
with. Over exact rationals the two agree on every order whose entry price is positive, and on no other one (`gate_iff`): below zero
the stop of a long order is above its entry. Such an order needs levels that descend below zero.
-/

namespace Opsense

namespace Scalar

@[simp] theorem le_rat (a b : ℚ) : le a b = decide (a ≤ b) := by
  have hcmp : partialCmp a b = some (if a < b then .lt else if a = b then .eq else .gt) := rfl
  unfold le
  rw [hcmp]
  split_ifs with hlt heq
  · simp [hlt.le]
  · simp [heq]
  · have : ¬a ≤ b := fun hle => (lt_or_eq_of_le hle).elim hlt heq
    simp [this]

@[simp] theorem lt_rat (a b : ℚ) : lt a b = decide (a < b) := by
  have hcmp : partialCmp a b = some (if a < b then .lt else if a = b then .eq else .gt) := rfl
  unfold lt
  rw [hcmp]
  split_ifs with hlt heq <;> simp [hlt]

@[simp] theorem ge_rat (a b : ℚ) : ge a b = decide (b ≤ a) := by
  have hcmp : partialCmp a b = some (if a < b then .lt else if a = b then .eq else .gt) := rfl
  unfold ge
  rw [hcmp]
  split_ifs with hlt heq
  · simp [hlt]
  · simp [heq]
  · simpa using not_lt.mp hlt

@[simp] theorem gt_rat (a b : ℚ) : gt a b = decide (b < a) := by
  have hcmp : partialCmp a b = some (if a < b then .lt else if a = b then .eq else .gt) := rfl
  unfold gt
  rw [hcmp]
  split_ifs with hlt heq
  · simp [hlt.le]
  · simp [heq]
  · simpa using lt_of_le_of_ne (not_lt.mp hlt) (Ne.symm heq)

theorem not_le_rat {a b : ℚ} (h : ¬le a b = true) : b < a := by
  rw [le_rat, decide_eq_true_eq] at h
  exact not_le.mp h

theorem zero_rat : (0.0 : ℚ) = 0 := by norm_num

theorem one_rat : (1.0 : ℚ) = 1 := by norm_num

end Scalar

/-! ## What a placed order has passed -/

/-- An order of a level that the gate lets pass. -/
structure Gated (p : Opening ℚ) (grid : TradingGrid ℚ) (il : Nat) (order : Order ℚ) : Prop where
  entry : order.entryPrice = grid.levelPrice il
  sl_pos : 0 < grid.slPct
  side : order.dtype = .long ∧ order.slPrice = order.entryPrice * (1 - grid.slPct) ∧
      p.fee.roundTripRate < (order.tpPrice - order.entryPrice) / order.entryPrice ∧
      takeProfit p grid il true = some order.tpPrice ∨
    order.dtype = .short ∧ order.slPrice = order.entryPrice * (1 + grid.slPct) ∧
      p.fee.roundTripRate < (order.entryPrice - order.tpPrice) / order.entryPrice ∧
      takeProfit p grid il false = some order.tpPrice

/-- A size is above zero only for a stop distance above zero. -/
theorem sl_pos_of_size {win_p sl_pct fraction base_capital : ℚ} (h : 0 < calculateOrderSize win_p sl_pct fraction base_capital) :
    0 < sl_pct := by
  unfold calculateOrderSize at h
  split_ifs at h with hzero
  · rw [Scalar.zero_rat] at h
    exact absurd h (lt_irrefl _)
  · by_contra hle
    have hsl : Scalar.le sl_pct 0.0 = true := by
      rw [Scalar.le_rat, Scalar.zero_rat]
      exact decide_eq_true (not_lt.mp hle)
    exact hzero (by rw [hsl, Bool.or_true])

variable {order : Order ℚ}

theorem considerLevel_gated {p : Opening ℚ} {ig il : Nat} {grid : TradingGrid ℚ} {ts : Nat}
    (h : considerLevel p ig grid il = .placed ts order) : Gated p grid il order := by
  unfold considerLevel at h
  dsimp only at h
  split at h
  case h_1 => cases h
  case h_2 tp htp =>
    split_ifs at h with hlong hfee hsize hfee hsize
    · rw [OrderEvent.placed.injEq] at h
      obtain ⟨-, rfl⟩ := h
      rw [hlong] at htp
      have hsl := sl_pos_of_size (Scalar.zero_rat ▸ Scalar.not_le_rat hsize)
      refine ⟨rfl, hsl, .inl ⟨rfl, ?_, Scalar.not_le_rat hfee, htp⟩⟩
      dsimp only
      unfold TradingGrid.slLong
      rw [Scalar.one_rat]
    · rw [OrderEvent.placed.injEq] at h
      obtain ⟨-, rfl⟩ := h
      rw [Bool.not_eq_true] at hlong
      rw [hlong] at htp
      have hsl := sl_pos_of_size (Scalar.zero_rat ▸ Scalar.not_le_rat hsize)
      refine ⟨rfl, hsl, .inr ⟨rfl, ?_, Scalar.not_le_rat hfee, htp⟩⟩
      dsimp only
      unfold TradingGrid.slShort
      rw [Scalar.one_rat]

section Events

variable {F : Type} [Scalar F] {p : Opening F}

theorem openLevel_events {ig : Nat} {grid : TradingGrid F} {taken lo : Nat} (levels : List Nat) :
    ∀ st : List (Order F) × List (OrderEvent F), ∀ e ∈ (levels.foldl (openLevel p ig grid taken lo) st).2,
      e ∈ st.2 ∨ ∃ il, e = considerLevel p ig grid il := by
  induction levels with
  | nil => exact fun st e he => .inl he
  | cons il levels ih =>
    intro st e he
    rcases ih _ e he with he | he
    · unfold openLevel at he
      dsimp only at he
      split_ifs at he
      · exact .inl he
      · rcases List.mem_append.mp he with he | he
        · exact .inl he
        · exact .inr ⟨il, List.mem_singleton.mp he⟩
    · exact .inr he

variable {candle : CandleStick F}

theorem openGrid_events {st : List (Order F) × List (OrderEvent F)} {g : TradingGrid F × Nat} :
    ∀ e ∈ (openGrid p candle st g).2, e ∈ st.2 ∨ ∃ il, e = considerLevel p g.2 g.1 il := by
  intro e he
  unfold openGrid at he
  dsimp only at he
  split_ifs at he
  · exact .inl he
  · exact .inl he
  · exact openLevel_events _ _ e he

theorem foldl_openGrid_events (gs : List (TradingGrid F × Nat)) :
    ∀ st : List (Order F) × List (OrderEvent F), ∀ e ∈ (gs.foldl (openGrid p candle) st).2,
      e ∈ st.2 ∨ ∃ g ∈ gs, ∃ il, e = considerLevel p g.2 g.1 il := by
  induction gs with
  | nil => exact fun st e he => .inl he
  | cons g gs ih =>
    intro st e he
    rcases ih _ e he with he | ⟨g', hg', il, heq⟩
    · rcases openGrid_events e he with he | ⟨il, heq⟩
      · exact .inl he
      · exact .inr ⟨g, List.mem_cons_self, il, heq⟩
    · exact .inr ⟨g', List.mem_cons_of_mem _ hg', il, heq⟩

/-- Every event is that of a level of a grid of the plan. -/
theorem openOrders_level {plan : List (TradingGrid F)} {orders : List (Order F)} :
    ∀ e ∈ (openOrders p candle plan orders).2, ∃ grid ig il, plan[ig]? = some grid ∧ e = considerLevel p ig grid il := by
  intro e he
  rcases foldl_openGrid_events _ _ e he with he | ⟨g, hg, il, heq⟩
  · cases he
  · exact ⟨g.1, g.2, il, List.mem_zipIdx_iff_getElem?.mp hg, heq⟩

theorem openOrders_events {plan : List (TradingGrid F)} {orders : List (Order F)} :
    ∀ e ∈ (openOrders p candle plan orders).2, ∃ grid ∈ plan, ∃ ig il, e = considerLevel p ig grid il := by
  intro e he
  obtain ⟨grid, ig, il, hgrid, heq⟩ := openOrders_level e he
  exact ⟨grid, List.mem_of_getElem? hgrid, ig, il, heq⟩

end Events

/-! ## What the ledger says -/

namespace Order

/-- The candle touches the stop of the order. -/
def HitsStop (order : Order ℚ) (candle : CandleStick ℚ) : Prop :=
  match order.dtype with
  | .long => candle.l ≤ order.slPrice
  | .short => order.slPrice ≤ candle.h
  | .unknown => False

/-- The candle touches the take-profit of the order. -/
def HitsTarget (order : Order ℚ) (candle : CandleStick ℚ) : Prop :=
  match order.dtype with
  | .long => order.tpPrice ≤ candle.h
  | .short => candle.l ≤ order.tpPrice
  | .unknown => False

/-- The price of the stop, or the opening price of a candle that opens behind it. -/
def stopExit (order : Order ℚ) (candle : CandleStick ℚ) : ℚ :=
  if order.dtype = .short then max candle.o order.slPrice else min candle.o order.slPrice

/-- The ledger has a gain for every exit at the take-profit and a loss for every exit at the stop, which comes first. -/
structure Agrees (order : Order ℚ) (fee : Fee ℚ) : Prop where
  target : ∀ {candle seq exit pnl}, checkOrderExit order candle fee seq = some (exit, pnl) → order.HitsTarget candle →
    ¬order.HitsStop candle → 0 < pnl
  stop : ∀ {candle seq exit pnl}, checkOrderExit order candle fee seq = some (exit, pnl) → order.HitsStop candle → pnl < 0
  both : ∀ {candle seq exit pnl}, checkOrderExit order candle fee seq = some (exit, pnl) → order.HitsStop candle →
    order.HitsTarget candle → exit = order.stopExit candle

end Order

/-- How a long order leaves. -/
theorem long_exit (hlong : order.dtype = .long) {candle : CandleStick ℚ} {fee : Fee ℚ} {seq : Nat} {exit pnl : ℚ}
    (h : checkOrderExit order candle fee seq = some (exit, pnl)) :
    pnl = fee.netPnlPct ((exit - order.entryPrice) / order.entryPrice) ∧
      (candle.l ≤ order.slPrice ∧ exit = min candle.o order.slPrice ∨
        order.slPrice < candle.l ∧ order.tpPrice ≤ candle.h ∧ exit = max candle.o order.tpPrice) := by
  unfold checkOrderExit at h
  rw [hlong] at h
  simp only [Scalar.le_rat, Scalar.ge_rat, Scalar.lt_rat, Scalar.gt_rat, Bool.or_eq_true, decide_eq_true_eq] at h
  split_ifs at h with hseq hhit hstop hopen hopen <;> obtain ⟨rfl, rfl⟩ := Prod.mk.inj (Option.some.inj h) <;> refine ⟨rfl, ?_⟩
  · exact .inl ⟨hstop, (min_eq_left hopen.le).symm⟩
  · exact .inl ⟨hstop, (min_eq_right (not_lt.mp hopen)).symm⟩
  · exact .inr ⟨not_le.mp hstop, hhit.resolve_left hstop, (max_eq_left hopen.le).symm⟩
  · exact .inr ⟨not_le.mp hstop, hhit.resolve_left hstop, (max_eq_right (not_lt.mp hopen)).symm⟩

/-- How a short order leaves. -/
theorem short_exit (hshort : order.dtype = .short) {candle : CandleStick ℚ} {fee : Fee ℚ} {seq : Nat} {exit pnl : ℚ}
    (h : checkOrderExit order candle fee seq = some (exit, pnl)) :
    pnl = fee.netPnlPct ((order.entryPrice - exit) / order.entryPrice) ∧
      (order.slPrice ≤ candle.h ∧ exit = max candle.o order.slPrice ∨
        candle.h < order.slPrice ∧ candle.l ≤ order.tpPrice ∧ exit = min candle.o order.tpPrice) := by
  unfold checkOrderExit at h
  rw [hshort] at h
  simp only [Scalar.le_rat, Scalar.ge_rat, Scalar.lt_rat, Scalar.gt_rat, Bool.or_eq_true, decide_eq_true_eq] at h
  split_ifs at h with hseq hhit hstop hopen hopen <;> obtain ⟨rfl, rfl⟩ := Prod.mk.inj (Option.some.inj h) <;> refine ⟨rfl, ?_⟩
  · exact .inl ⟨hstop, (max_eq_left hopen.le).symm⟩
  · exact .inl ⟨hstop, (max_eq_right (not_lt.mp hopen)).symm⟩
  · exact .inr ⟨not_le.mp hstop, hhit.resolve_left hstop, (min_eq_left hopen.le).symm⟩
  · exact .inr ⟨not_le.mp hstop, hhit.resolve_left hstop, (min_eq_right (not_lt.mp hopen)).symm⟩

theorem netPnlPct_eq (rate gross : ℚ) : (Fee.ofRate rate).netPnlPct gross = gross - rate * 2 := by
  have htwo : (2.0 : ℚ) = 2 := by norm_num
  unfold Fee.ofRate
  dsimp only
  rw [htwo]

theorem roundTripRate_eq (rate : ℚ) : (Fee.ofRate rate).roundTripRate = rate * 2 := by
  have htwo : (2.0 : ℚ) = 2 := by norm_num
  unfold Fee.ofRate
  dsimp only
  rw [htwo]

/-- Beyond the take-profit of a long order there is more than the fee to gain, and behind its stop there is a loss. -/
theorem agrees_long {rate sl : ℚ} (hlong : order.dtype = .long) (hpos : 0 < order.entryPrice) (hrate : 0 ≤ rate) (hsl : 0 < sl)
    (hstop : order.slPrice = order.entryPrice * (1 - sl)) (hgate : rate * 2 < (order.tpPrice - order.entryPrice) / order.entryPrice) :
    order.Agrees (.ofRate rate) := by
  have hbelow : order.slPrice < order.entryPrice := by
    rw [hstop]
    nlinarith
  constructor <;> intro candle seq exit pnl hexit <;> obtain ⟨rfl, hhow⟩ := long_exit hlong hexit <;>
    simp only [Order.HitsStop, Order.HitsTarget, hlong]
  · intro _ hnot
    rcases hhow with ⟨hle, -⟩ | ⟨-, -, rfl⟩
    · exact absurd hle hnot
    · have hmore : (order.tpPrice - order.entryPrice) / order.entryPrice ≤
          (max candle.o order.tpPrice - order.entryPrice) / order.entryPrice :=
        div_le_div_of_nonneg_right (sub_le_sub_right (le_max_right _ _) _) hpos.le
      rw [netPnlPct_eq]
      linarith
  · intro hhit
    rcases hhow with ⟨-, rfl⟩ | ⟨hlt, -⟩
    · have hless : (min candle.o order.slPrice - order.entryPrice) / order.entryPrice < 0 :=
        div_neg_of_neg_of_pos (sub_neg.mpr ((min_le_right _ _).trans_lt hbelow)) hpos
      rw [netPnlPct_eq]
      linarith
    · exact absurd hhit (not_le.mpr hlt)
  · intro hhit _
    rcases hhow with ⟨-, rfl⟩ | ⟨hlt, -⟩
    · simp [Order.stopExit, hlong]
    · exact absurd hhit (not_le.mpr hlt)

theorem agrees_short {rate sl : ℚ} (hshort : order.dtype = .short) (hpos : 0 < order.entryPrice) (hrate : 0 ≤ rate) (hsl : 0 < sl)
    (hstop : order.slPrice = order.entryPrice * (1 + sl)) (hgate : rate * 2 < (order.entryPrice - order.tpPrice) / order.entryPrice) :
    order.Agrees (.ofRate rate) := by
  have habove : order.entryPrice < order.slPrice := by
    rw [hstop]
    nlinarith
  constructor <;> intro candle seq exit pnl hexit <;> obtain ⟨rfl, hhow⟩ := short_exit hshort hexit <;>
    simp only [Order.HitsStop, Order.HitsTarget, hshort]
  · intro _ hnot
    rcases hhow with ⟨hle, -⟩ | ⟨-, -, rfl⟩
    · exact absurd hle hnot
    · have hmore : (order.entryPrice - order.tpPrice) / order.entryPrice ≤
          (order.entryPrice - min candle.o order.tpPrice) / order.entryPrice :=
        div_le_div_of_nonneg_right (sub_le_sub_left (min_le_right _ _) _) hpos.le
      rw [netPnlPct_eq]
      linarith
  · intro hhit
    rcases hhow with ⟨-, rfl⟩ | ⟨hlt, -⟩
    · have hless : (order.entryPrice - max candle.o order.slPrice) / order.entryPrice < 0 :=
        div_neg_of_neg_of_pos (sub_neg.mpr (habove.trans_le (le_max_right _ _))) hpos
      rw [netPnlPct_eq]
      linarith
    · exact absurd hhit (not_le.mpr hlt)
  · intro hhit _
    rcases hhow with ⟨-, rfl⟩ | ⟨hlt, -⟩
    · simp [Order.stopExit, hshort]
    · exact absurd hhit (not_le.mpr hlt)

/-- A candle that stays at one price. -/
def flatCandle (x : ℚ) : CandleStick ℚ := ⟨0, x, x, x, x, 0⟩

/-- Below zero the take-profit of a long order is below its entry and its stop is above it: a candle above both closes the order
at its take-profit, with a loss. -/
theorem loss_of_neg_long {rate sl : ℚ} (hlong : order.dtype = .long) (hneg : order.entryPrice < 0) (hrate : 0 ≤ rate) (hsl : 0 < sl)
    (hstop : order.slPrice = order.entryPrice * (1 - sl)) (hgate : rate * 2 < (order.tpPrice - order.entryPrice) / order.entryPrice) :
    ¬order.Agrees (.ofRate rate) := by
  have htp : order.tpPrice < order.entryPrice := by
    by_contra hle
    have := div_nonpos_of_nonneg_of_nonpos (sub_nonneg.mpr (not_lt.mp hle)) hneg.le
    linarith
  have habove : order.entryPrice < order.slPrice := by
    rw [hstop]
    nlinarith
  intro h
  have hexit : checkOrderExit order (flatCandle (order.slPrice + 1)) (.ofRate rate) order.unlockSeq =
      some (order.slPrice + 1, (Fee.ofRate rate).netPnlPct ((order.slPrice + 1 - order.entryPrice) / order.entryPrice)) := by
    unfold checkOrderExit flatCandle
    rw [hlong, if_neg (lt_irrefl _)]
    simp only [Scalar.le_rat, Scalar.ge_rat, Scalar.lt_rat, Scalar.gt_rat]
    simp [show ¬order.slPrice + 1 ≤ order.slPrice by linarith, show order.tpPrice ≤ order.slPrice + 1 by linarith,
      show order.tpPrice < order.slPrice + 1 by linarith]
  have hgain := h.target hexit (by simp only [Order.HitsTarget, hlong, flatCandle]; linarith)
    (by simp only [Order.HitsStop, hlong, flatCandle]; linarith)
  have hloss := div_neg_of_pos_of_neg (show 0 < order.slPrice + 1 - order.entryPrice by linarith) hneg
  rw [netPnlPct_eq] at hgain
  linarith

theorem loss_of_neg_short {rate sl : ℚ} (hshort : order.dtype = .short) (hneg : order.entryPrice < 0) (hrate : 0 ≤ rate) (hsl : 0 < sl)
    (hstop : order.slPrice = order.entryPrice * (1 + sl)) (hgate : rate * 2 < (order.entryPrice - order.tpPrice) / order.entryPrice) :
    ¬order.Agrees (.ofRate rate) := by
  have htp : order.entryPrice < order.tpPrice := by
    by_contra hle
    have := div_nonpos_of_nonneg_of_nonpos (sub_nonneg.mpr (not_lt.mp hle)) hneg.le
    linarith
  have hbelow : order.slPrice < order.entryPrice := by
    rw [hstop]
    nlinarith
  intro h
  have hexit : checkOrderExit order (flatCandle (order.slPrice - 1)) (.ofRate rate) order.unlockSeq =
      some (order.slPrice - 1, (Fee.ofRate rate).netPnlPct ((order.entryPrice - (order.slPrice - 1)) / order.entryPrice)) := by
    unfold checkOrderExit flatCandle
    rw [hshort, if_neg (lt_irrefl _)]
    simp only [Scalar.le_rat, Scalar.ge_rat, Scalar.lt_rat, Scalar.gt_rat]
    simp [show ¬order.slPrice ≤ order.slPrice - 1 by linarith, show order.slPrice - 1 ≤ order.tpPrice by linarith,
      show order.slPrice - 1 < order.tpPrice by linarith]
  have hgain := h.target hexit (by simp only [Order.HitsTarget, hshort, flatCandle]; linarith)
    (by simp only [Order.HitsStop, hshort, flatCandle]; linarith)
  have hloss := div_neg_of_pos_of_neg (show 0 < order.entryPrice - (order.slPrice - 1) by linarith) hneg
  rw [netPnlPct_eq] at hgain
  linarith

/-- The ledger agrees with the gate on an order at a price above zero. -/
theorem Gated.agrees {p : Opening ℚ} {rate : ℚ} (hfee : p.fee = .ofRate rate) (hrate : 0 ≤ rate) {grid : TradingGrid ℚ} {il : Nat}
    (h : Gated p grid il order) (hpos : 0 < order.entryPrice) : order.Agrees p.fee := by
  have hside := h.side
  rw [hfee, roundTripRate_eq] at hside
  rw [hfee]
  rcases hside with ⟨hlong, hstop, hgate, -⟩ | ⟨hshort, hstop, hgate, -⟩
  · exact agrees_long hlong hpos hrate h.sl_pos hstop hgate
  · exact agrees_short hshort hpos hrate h.sl_pos hstop hgate

theorem Gated.not_agrees {p : Opening ℚ} {rate : ℚ} (hfee : p.fee = .ofRate rate) (hrate : 0 ≤ rate) {grid : TradingGrid ℚ} {il : Nat}
    (h : Gated p grid il order) (hle : order.entryPrice ≤ 0) : ¬order.Agrees p.fee := by
  have hside := h.side
  rw [hfee, roundTripRate_eq] at hside
  rw [hfee]
  rcases hle.lt_or_eq with hneg | hzero
  · rcases hside with ⟨hlong, hstop, hgate, -⟩ | ⟨hshort, hstop, hgate, -⟩
    · exact loss_of_neg_long hlong hneg hrate h.sl_pos hstop hgate
    · exact loss_of_neg_short hshort hneg hrate h.sl_pos hstop hgate
  · -- nothing is gained of a price of zero
    rw [hzero, div_zero, div_zero] at hside
    rcases hside with ⟨-, -, hgate, -⟩ | ⟨-, -, hgate, -⟩ <;> linarith

/-- The ledger agrees with the gate on a placed order exactly when its entry price is positive. -/
theorem gate_iff {p : Opening ℚ} {rate : ℚ} (hfee : p.fee = .ofRate rate) (hrate : 0 ≤ rate) {candle : CandleStick ℚ}
    {plan : List (TradingGrid ℚ)} {orders : List (Order ℚ)} {ts : Nat} {order : Order ℚ}
    (h : OrderEvent.placed ts order ∈ (openOrders p candle plan orders).2) : order.Agrees p.fee ↔ 0 < order.entryPrice := by
  obtain ⟨grid, -, ig, il, hevent⟩ := openOrders_events _ h
  have hgated := considerLevel_gated hevent.symm
  constructor
  · intro hagrees
    by_contra hle
    exact hgated.not_agrees hfee hrate (not_lt.mp hle) hagrees
  · exact hgated.agrees hfee hrate

/-- The order at the lower of two levels. -/
theorem gate_twoLevels :
    ∃ order : Order ℚ,
      OrderEvent.placed 0 order ∈ (openOrders ⟨0, 0, .ofRate (1 / 1000), 1, 1000, 0, 0⟩ (flatCandle 100)
        (TradingGrid.new (F := ℚ) 2 100 110).toList []).2 ∧
      (order.Agrees (.ofRate (1 / 1000)) ↔ 0 < order.entryPrice) := by
  have hplaced : OrderEvent.placed 0 ⟨.long, 100, 425 / 2, 95, 110, 0, 0, none, none, 0⟩ ∈
      (openOrders ⟨0, 0, .ofRate (1 / 1000), 1, 1000, 0, 0⟩ (flatCandle 100) (TradingGrid.new (F := ℚ) 2 100 110).toList []).2 := by
    decide +kernel
  exact ⟨_, hplaced, gate_iff rfl (by norm_num) hplaced⟩

/-- Levels that descend below zero: the order at -2 is placed with a take-profit of -3, and a candle at -0.9 closes it there with
a loss of more than a half. -/
theorem negative_level_loses :
    ∃ order : Order ℚ,
      OrderEvent.placed 0 order ∈ (openOrders ⟨0, 0, .ofRate (1 / 1000), 1, 1000, 0, 0⟩ ⟨0, -2, -1, -3, -2, 1⟩
        (TradingGrid.fromStep (F := ℚ) 3 (-1) (-1)).toList []).2 ∧
      order.HitsTarget (flatCandle (-9 / 10)) ∧ ¬order.HitsStop (flatCandle (-9 / 10)) ∧
      checkOrderExit order (flatCandle (-9 / 10)) (.ofRate (1 / 1000)) 0 = some (-9 / 10, -552 / 1000) := by
  have hplaced : OrderEvent.placed 0 ⟨.long, -2, 125, -19 / 10, -3, 0, 1, none, none, 0⟩ ∈
      (openOrders ⟨0, 0, .ofRate (1 / 1000), 1, 1000, 0, 0⟩ ⟨0, -2, -1, -3, -2, 1⟩
        (TradingGrid.fromStep (F := ℚ) 3 (-1) (-1)).toList []).2 := by
    decide +kernel
  refine ⟨_, hplaced, ?_, ?_, by decide +kernel⟩
  · simp only [Order.HitsTarget, flatCandle]
    norm_num
  · simp only [Order.HitsStop, flatCandle]
    norm_num

/-! ## Ascending levels -/

namespace TradingGrid

variable {grid : TradingGrid ℚ} {j : Nat}

theorem levelPrice_eq {x : ℚ} (h : grid.levels[j]? = some x) : grid.levelPrice j = x := by
  unfold levelPrice
  rw [List.getD_eq_getElem?_getD, h, Option.getD_some]

end TradingGrid

end Opsense
