import Opsense.Kernel.Invariant

/-!
# The level an outcome is counted at

An order keeps the grid and the level it was opened at as positions in the plan, and the plan may be replaced while it is
open. When it closes, its outcome is counted at these positions in the plan that is in force by then. It is counted at a level
of the price the order was opened at exactly when the plan in force still has this price there.
-/

namespace Opsense

section Attribution

variable {F : Type} [Scalar F]

/-! ## Counting an outcome -/

/-- The counters an outcome is counted in. -/
def TradingGrid.outcomeCnt (g : TradingGrid F) (is_long : Bool) (pnl_pct : F) : List Nat :=
  if Scalar.gt pnl_pct 0.0 then if is_long then g.orderLongWinCnt else g.orderShortWinCnt
  else if is_long then g.orderLongLostCnt else g.orderShortLostCnt

namespace TradingGrid

theorem outcomeCnt_length (g : TradingGrid F) (is_long : Bool) (pnl_pct : F) :
    (g.outcomeCnt is_long pnl_pct).length = g.levels.length := by
  obtain ⟨h1, h2, h3, h4⟩ := g.counts_length
  unfold outcomeCnt
  split_ifs <;> assumption

theorem outcomeCnt_record (g : TradingGrid F) (level : Nat) (is_long : Bool) (pnl_pct : F) :
    (g.recordTradeOutcome level is_long pnl_pct).outcomeCnt is_long pnl_pct =
      (g.outcomeCnt is_long pnl_pct).modify level (· + 1) := by
  unfold outcomeCnt recordTradeOutcome
  split_ifs <;> rfl

@[simp] theorem levels_record (g : TradingGrid F) (level : Nat) (is_long : Bool) (pnl_pct : F) :
    (g.recordTradeOutcome level is_long pnl_pct).levels = g.levels := by
  unfold recordTradeOutcome
  split_ifs <;> rfl

/-- Nothing is counted past the last level. -/
theorem record_of_le (g : TradingGrid F) {level : Nat} (is_long : Bool) (pnl_pct : F) (h : g.levels.length ≤ level) :
    g.recordTradeOutcome level is_long pnl_pct = g := by
  obtain ⟨h1, h2, h3, h4⟩ := g.counts_length
  have hsame : ∀ counts : List Nat, counts.length = g.levels.length → counts.modify level (· + 1) = counts := by
    intro counts hlen
    exact List.modify_eq_self (hlen ▸ h)
  unfold recordTradeOutcome
  split_ifs
  · simp only [hsame _ h1]
  · simp only [hsame _ h3]
  · simp only [hsame _ h2]
  · simp only [hsame _ h4]

/-- An outcome counted at a level is counted at no other. -/
theorem record_inj {g : TradingGrid F} {level level' : Nat} {is_long : Bool} {pnl_pct : F} (hlt : level' < g.levels.length)
    (h : g.recordTradeOutcome level is_long pnl_pct = g.recordTradeOutcome level' is_long pnl_pct) : level = level' := by
  have hcnt := congrArg (fun g => (g.outcomeCnt is_long pnl_pct)[level']?) h
  have hlevel : level' < (g.outcomeCnt is_long pnl_pct).length := by rwa [outcomeCnt_length]
  rw [outcomeCnt_record, outcomeCnt_record, List.getElem?_modify, List.getElem?_modify, List.getElem?_eq_getElem hlevel] at hcnt
  by_contra hne
  simp [hne] at hcnt

theorem record_ne {g : TradingGrid F} {level : Nat} {is_long : Bool} {pnl_pct : F} (hlt : level < g.levels.length) :
    g.recordTradeOutcome level is_long pnl_pct ≠ g := by
  intro h
  have hlast := h.trans (g.record_of_le is_long pnl_pct (le_refl g.levels.length)).symm
  obtain rfl := record_inj hlt hlast.symm
  exact lt_irrefl _ hlt

end TradingGrid

/-- The price of the level that an order is at in a plan. -/
def priceAt (plan : List (TradingGrid F)) (o : Order F) : Option F := plan[o.gridIndex]?.bind fun grid => grid.levels[o.levelIndex]?

/-- An order at the price `p` closes: its outcome is counted at a level of this price, or nowhere if the plan has none. -/
def Attributed (plan plan' : List (TradingGrid F)) (o : Order F) (pnl_pct p : F) : Prop :=
  (∃ ig il grid, plan[ig]? = some grid ∧ grid.levels[il]? = some p ∧
    plan' = plan.set ig (grid.recordTradeOutcome il (o.dtype == .long) pnl_pct)) ∨
  ((∀ grid ∈ plan, p ∉ grid.levels) ∧ plan' = plan)

omit [Scalar F] in
theorem getElem?_modify_some {plan : List (TradingGrid F)} {ig : Nat} {grid : TradingGrid F} (h : plan[ig]? = some grid) (i : Nat)
    (f : TradingGrid F → TradingGrid F) : (plan.modify i f)[ig]? = some (if i = ig then f grid else grid) := by
  rw [List.getElem?_modify, h]
  split_ifs <;> rfl

/-- The outcome is counted where the order is. -/
theorem attributed_modify_iff (plan : List (TradingGrid F)) (o : Order F) (pnl_pct p : F) :
    Attributed plan (plan.modify o.gridIndex fun grid => grid.recordTradeOutcome o.levelIndex (o.dtype == .long) pnl_pct) o pnl_pct p ↔
      priceAt plan o = some p ∨ (priceAt plan o = none ∧ ∀ grid ∈ plan, p ∉ grid.levels) := by
  have hset : ∀ {grid}, plan[o.gridIndex]? = some grid →
      (plan.modify o.gridIndex fun grid => grid.recordTradeOutcome o.levelIndex (o.dtype == .long) pnl_pct) =
        plan.set o.gridIndex (grid.recordTradeOutcome o.levelIndex (o.dtype == .long) pnl_pct) := by
    intro grid hgrid
    rw [List.modify_eq_set_getElem?, hgrid]
    rfl
  unfold priceAt
  constructor
  · rintro (⟨ig, il, grid, hgrid, hlevel, heq⟩ | ⟨hnone, heq⟩)
    · -- only one grid differs from the plan before, and in it only the counter of one level
      have hlt : il < grid.levels.length := (List.getElem?_eq_some_iff.mp hlevel).1
      have hat := congrArg (fun plan => plan[ig]?) heq
      rw [List.getElem?_set_self (List.getElem?_eq_some_iff.mp hgrid).1, getElem?_modify_some hgrid] at hat
      have hig : o.gridIndex = ig := by
        by_contra hne
        rw [if_neg hne] at hat
        exact TradingGrid.record_ne hlt (Option.some.inj hat).symm
      rw [if_pos hig] at hat
      have hil := TradingGrid.record_inj hlt (Option.some.inj hat)
      exact Or.inl (by rw [hig, hgrid, hil]; exact hlevel)
    · refine Or.inr ⟨?_, hnone⟩
      cases hgrid : plan[o.gridIndex]? with
      | none => rfl
      | some grid =>
        refine List.getElem?_eq_none_iff.mpr (le_of_not_gt fun hlt => ?_)
        have hat := congrArg (fun plan => plan[o.gridIndex]?) heq
        rw [getElem?_modify_some hgrid, if_pos rfl, hgrid] at hat
        exact TradingGrid.record_ne hlt (Option.some.inj hat)
  · rintro (hsome | ⟨hnone, hnowhere⟩)
    · obtain ⟨grid, hgrid, hlevel⟩ := Option.bind_eq_some_iff.mp hsome
      exact Or.inl ⟨o.gridIndex, o.levelIndex, grid, hgrid, hlevel, hset hgrid⟩
    · refine Or.inr ⟨hnowhere, ?_⟩
      cases hgrid : plan[o.gridIndex]? with
      | none => exact List.modify_eq_self (List.getElem?_eq_none_iff.mp hgrid)
      | some grid =>
        rw [hgrid] at hnone
        rw [hset hgrid, grid.record_of_le _ _ (List.getElem?_eq_none_iff.mp hnone)]
        obtain ⟨hlt, rfl⟩ := List.getElem?_eq_some_iff.mp hgrid
        exact List.set_getElem_self hlt

/-! ## The levels of a plan through a candle -/

/-- The exits of a candle leave the levels of the plan. -/
theorem exitOrders_levels (candle : CandleStick F) (fee : Fee F) (current_seq : Nat) (orders : List (Order F))
    (plan : List (TradingGrid F)) (history : List (Order F)) :
    (exitOrders candle fee current_seq orders plan history).plan.map (·.levels) = plan.map (·.levels) := by
  unfold exitOrders
  suffices h : ∀ x : Exits F, (orders.foldl (exitOrder candle fee current_seq) x).plan.map (·.levels) = x.plan.map (·.levels) from
    h ⟨[], plan, history⟩
  induction orders with
  | nil => exact fun x => rfl
  | cons o orders ih =>
    intro x
    rw [List.foldl_cons, ih]
    unfold exitOrder
    cases checkOrderExit o candle fee current_seq with
    | none => rfl
    | some r =>
      refine List.ext_getElem? fun i => ?_
      simp only [List.getElem?_map, List.getElem?_modify]
      cases x.plan[i]? with
      | none => rfl
      | some grid =>
        simp only [Option.map_eq_map, Option.map_some]
        split_ifs
        · simp
        · rfl

omit [Scalar F] in
theorem priceAt_eq (plan : List (TradingGrid F)) (o : Order F) :
    priceAt plan o = (plan.map (·.levels))[o.gridIndex]?.bind fun levels => levels[o.levelIndex]? := by
  rw [priceAt, List.getElem?_map, Option.bind_map]
  rfl

omit [Scalar F] in
theorem mem_levels_congr {plan plan' : List (TradingGrid F)} (h : plan.map (·.levels) = plan'.map (·.levels)) (p : F) :
    (∀ grid ∈ plan, p ∉ grid.levels) ↔ ∀ grid ∈ plan', p ∉ grid.levels := by
  have hall : ∀ plan : List (TradingGrid F), (∀ grid ∈ plan, p ∉ grid.levels) ↔ ∀ levels ∈ plan.map (·.levels), p ∉ levels :=
    fun plan => by simp
  rw [hall, hall, h]

/-- An order a level gives has the price of the level. -/
theorem considerLevel_entryPrice {p : Opening F} {ig il : Nat} {grid : TradingGrid F} {o : Order F}
    (h : (considerLevel p ig grid il).placedOrder? = some o) : o.entryPrice = grid.levelPrice il := by
  unfold considerLevel at h
  dsimp only at h
  cases htp : takeProfit p grid il (Scalar.le (grid.levelPrice il) ((grid.min + grid.max) / 2.0)) with
  | none =>
    rw [htp] at h
    nomatch h
  | some tp =>
    rw [htp] at h
    dsimp only at h
    split_ifs at h
    all_goals first
      | exact (Option.some.inj h) ▸ rfl
      | nomatch h

/-- An order that a candle opens has the price of its level. -/
theorem openOrders_priceAt (p : Opening F) (candle : CandleStick F) (plan : List (TradingGrid F)) (orders : List (Order F)) :
    ∀ o ∈ (openOrders p candle plan orders).2.filterMap OrderEvent.placedOrder?, priceAt plan o = some o.entryPrice := by
  unfold openOrders
  suffices h : ∀ (gs : List (TradingGrid F × Nat)) (st : List (Order F) × List (OrderEvent F)), gs ⊆ plan.zipIdx →
      (∀ o ∈ st.2.filterMap OrderEvent.placedOrder?, priceAt plan o = some o.entryPrice) →
      ∀ o ∈ (gs.foldl (openGrid p candle) st).2.filterMap OrderEvent.placedOrder?, priceAt plan o = some o.entryPrice from
    h plan.zipIdx (orders, []) (List.Subset.refl _) (by simp)
  intro gs
  induction gs with
  | nil => exact fun _ _ h => h
  | cons g gs ih =>
    intro st hgs hst
    obtain ⟨hg, hgs⟩ := List.cons_subset.mp hgs
    refine ih _ hgs ?_
    obtain ⟨grid, ig⟩ := g
    have hgrid : plan[ig]? = some grid := List.mk_mem_zipIdx_iff_getElem?.mp hg
    unfold openGrid
    dsimp only
    split_ifs
    · exact hst
    · exact hst
    · -- the levels a candle touches are levels of the grid
      have hhi : (touchedLevels grid.levels candle.l candle.h).2 ≤ grid.levels.length := bisect_le (Nat.zero_le _)
      generalize takenLevels st.1 ig _ _ = taken
      have hlt : ∀ il ∈ List.range' (touchedLevels grid.levels candle.l candle.h).1
          ((touchedLevels grid.levels candle.l candle.h).2 - (touchedLevels grid.levels candle.l candle.h).1),
          il < grid.levels.length := by
        intro il hil
        have := List.mem_range'_1.mp hil
        omega
      generalize List.range' _ _ = levels at hlt
      generalize (touchedLevels grid.levels candle.l candle.h).1 = lo
      induction levels generalizing st with
      | nil => exact hst
      | cons il levels ihl =>
        refine ihl _ (fun o ho => ?_) fun il' hil' => hlt il' (List.mem_cons_of_mem _ hil')
        unfold openLevel at ho
        split_ifs at ho
        · exact hst o ho
        · rw [List.filterMap_append] at ho
          rcases List.mem_append.mp ho with ho | ho
          · exact hst o ho
          · have hplaced : (considerLevel p ig grid il).placedOrder? = some o := by simpa using ho
            obtain ⟨hig, hil⟩ := Prod.mk.inj (considerLevel_placed hplaced).1
            have hlevel := hlt il List.mem_cons_self
            rw [priceAt, hig, hil, hgrid, considerLevel_entryPrice hplaced]
            simp [TradingGrid.levelPrice, hlevel]

/-! ## Every run -/

/-- The order was opened in a run, at a level of this price of the plan at the time. -/
def OpenedAt (t : List (Callbacks F × Outcome F)) (o : Order F) (p : F) : Prop :=
  ∃ x ∈ t, o ∈ x.2.placed ∧ o ∈ x.2.session.orders ∧ priceAt x.2.session.plan o = some p

/-- In one call, every order that closes is attributed by the price it was opened at. The orders close one after another. -/
def Attributes (pf : Portfolio F) (t : List (Callbacks F × Outcome F)) (s : Session F) (cb : Callbacks F) : Prop :=
  ∀ candle, takesUp cb s = some candle → ∀ before o after, s.orders = before ++ o :: after →
    ∀ r, checkOrderExit o candle pf.fee (s.candleSeq + 1) = some r → ∀ p, OpenedAt t o p →
      Attributed (exitOrders candle pf.fee (s.candleSeq + 1) before (rebuildDue cb s).1.plan s.history).plan
        (exitOrders candle pf.fee (s.candleSeq + 1) (before ++ [o]) (rebuildDue cb s).1.plan s.history).plan o r.2 p

/-- The plan in force has the price of every order that leaves at its place still, or has it nowhere and nothing at this place. -/
def KeepsPlaces (pf : Portfolio F) (s : Session F) (cb : Callbacks F) : Prop :=
  ∀ candle, takesUp cb s = some candle → ∀ o ∈ s.orders, (checkOrderExit o candle pf.fee (s.candleSeq + 1)).isSome →
    priceAt (rebuildDue cb s).1.plan o = some o.entryPrice ∨
    (priceAt (rebuildDue cb s).1.plan o = none ∧ ∀ grid ∈ (rebuildDue cb s).1.plan, o.entryPrice ∉ grid.levels)

/-- Every open order was opened at its price, and every order at no other. -/
structure Priced (s : Session F) (t : List (Callbacks F × Outcome F)) : Prop where
  opened : ∀ o ∈ s.orders, OpenedAt t o o.entryPrice
  price : ∀ o p, OpenedAt t o p → p = o.entryPrice

/-- What a call that opens orders leaves: the orders are those there were and those placed, which have the price of their level. -/
theorem forward_opens (pf : Portfolio F) (cb : Callbacks F) (s : Session F) :
    (∀ o ∈ (forward pf cb s).session.orders, o ∈ s.orders ∨ o ∈ (forward pf cb s).placed) ∧
    ∀ o ∈ (forward pf cb s).session.orders, o ∈ (forward pf cb s).placed →
      priceAt (forward pf cb s).session.plan o = some o.entryPrice := by
  obtain ⟨horders, -, -, -, -⟩ := rebuildDue_frame cb s
  rcases forward_cases pf cb s with hwait | ⟨candle, candles, -, -, -, -, heq⟩
  · have hwaits := forward_waits pf hwait.1
    rw [hwaits.placed, hwaits.orders]
    exact ⟨fun o ho => Or.inl ho, fun o _ ho => absurd ho List.not_mem_nil⟩
  · rw [heq]
    rcases processCandle_cases pf cb (rebuildDue cb s).1 (rebuildDue cb s).2.1 candle with ⟨-, hsession⟩ | ⟨-, hdone⟩
    · rw [hsession]
      exact ⟨fun o ho => absurd ho List.not_mem_nil, fun o ho => absurd ho List.not_mem_nil⟩
    · have hopens := openOrders_opens (opening pf cb (rebuildDue cb s).1 candle) candle
        (exits pf (rebuildDue cb s).1 candle).plan (exits pf (rebuildDue cb s).1 candle).orders
      have hprices := openOrders_priceAt (opening pf cb (rebuildDue cb s).1 candle) candle
        (exits pf (rebuildDue cb s).1 candle).plan (exits pf (rebuildDue cb s).1 candle).orders
      rw [hdone]
      unfold Outcome.placed
      dsimp only
      rw [List.filterMap_append, (rebuildDue_sent cb s).1, List.nil_append, (announcements_orders pf cb _ candle).1]
      refine ⟨fun o ho => ?_, fun o _ ho => hprices o ho⟩
      rw [hopens.added] at ho
      rcases List.mem_append.mp ho with ho | ho
      · rw [exits_orders, horders] at ho
        exact Or.inl (List.mem_of_mem_filter ho)
      · exact Or.inr ho

theorem Priced.step {pf : Portfolio F} {s : Session F} {t : List (Callbacks F × Outcome F)} (h : Priced s t) (cb : Callbacks F) :
    Priced (forward pf cb s).session (t ++ [(cb, forward pf cb s)]) := by
  obtain ⟨horders, hprices⟩ := forward_opens pf cb s
  constructor
  · intro o ho
    rcases horders o ho with hold | hnew
    · obtain ⟨x, hx, hopened⟩ := h.opened o hold
      exact ⟨x, List.mem_append_left _ hx, hopened⟩
    · exact ⟨(cb, forward pf cb s), List.mem_append_right _ (List.mem_singleton_self _), hnew, ho, hprices o ho hnew⟩
  · rintro o p ⟨x, hx, hplaced, hopen, hprice⟩
    rcases List.mem_append.mp hx with hx | hx
    · exact h.price o p ⟨x, hx, hplaced, hopen, hprice⟩
    · obtain rfl := List.mem_singleton.mp hx
      exact Option.some.inj (hprice.symm.trans (hprices o hopen hplaced))

theorem priced_run (pf : Portfolio F) (as : List (Callbacks F)) : Priced ((kernel pf).state as) ((kernel pf).trace as) := by
  induction as using List.reverseRecOn with
  | nil =>
    refine ⟨fun o ho => absurd ho List.not_mem_nil, fun o p h => ?_⟩
    obtain ⟨x, hx, -⟩ := h
    exact absurd hx List.not_mem_nil
  | append_singleton as cb ih =>
    rw [Machine.state_snoc, Machine.trace_snoc]
    exact ih.step cb

/-- One call attributes by the price exactly when the plan in force has the prices at their places. -/
theorem attributes_iff {pf : Portfolio F} {s : Session F} {t : List (Callbacks F × Outcome F)} (h : Priced s t) (cb : Callbacks F) :
    Attributes pf t s cb ↔ KeepsPlaces pf s cb := by
  have hexit : ∀ candle before o after r, s.orders = before ++ o :: after →
      checkOrderExit o candle pf.fee (s.candleSeq + 1) = some r →
      (Attributed (exitOrders candle pf.fee (s.candleSeq + 1) before (rebuildDue cb s).1.plan s.history).plan
        (exitOrders candle pf.fee (s.candleSeq + 1) (before ++ [o]) (rebuildDue cb s).1.plan s.history).plan o r.2 o.entryPrice ↔
      priceAt (rebuildDue cb s).1.plan o = some o.entryPrice ∨
      (priceAt (rebuildDue cb s).1.plan o = none ∧ ∀ grid ∈ (rebuildDue cb s).1.plan, o.entryPrice ∉ grid.levels)) := by
    intro candle before o after r _ hr
    have hlevels := exitOrders_levels candle pf.fee (s.candleSeq + 1) before (rebuildDue cb s).1.plan s.history
    have hlast : (exitOrders candle pf.fee (s.candleSeq + 1) (before ++ [o]) (rebuildDue cb s).1.plan s.history).plan =
        (exitOrders candle pf.fee (s.candleSeq + 1) before (rebuildDue cb s).1.plan s.history).plan.modify o.gridIndex
          fun grid => grid.recordTradeOutcome o.levelIndex (o.dtype == .long) r.2 := by
      unfold exitOrders
      rw [List.foldl_append, List.foldl_cons, List.foldl_nil]
      unfold exitOrder
      rw [hr]
    rw [hlast, attributed_modify_iff, priceAt_eq, hlevels, ← priceAt_eq, mem_levels_congr hlevels]
  constructor
  · intro hattr candle htake o ho hleaves
    obtain ⟨before, after, hsplit⟩ := List.append_of_mem ho
    obtain ⟨r, hr⟩ := Option.isSome_iff_exists.mp hleaves
    exact (hexit candle before o after r hsplit hr).mp (hattr candle htake before o after hsplit r hr _ (h.opened o ho))
  · intro hkeeps candle htake before o after hsplit r hr p hp
    have ho : o ∈ s.orders := by
      rw [hsplit]
      exact List.mem_append_right _ List.mem_cons_self
    obtain rfl := h.price o p hp
    exact (hexit candle before o after r hsplit hr).mpr (hkeeps candle htake o ho (Option.isSome_iff_exists.mpr ⟨r, hr⟩))

/-- In a run, every order that closes is counted at a level of the price it was opened at, or nowhere when the plan has no such
level, exactly when at every close the plan in force has this price at the place of the order, or neither a level there nor
this price anywhere. -/
theorem attribution_iff (pf : Portfolio F) (as : List (Callbacks F)) :
    (∀ pre cb, pre ++ [cb] <+: as → Attributes pf ((kernel pf).trace pre) ((kernel pf).state pre) cb) ↔
      (kernel pf).Along (KeepsPlaces pf) as :=
  forall_congr' fun pre => forall_congr' fun cb => imp_congr_right fun _ => attributes_iff (priced_run pf pre) cb

end Attribution

/-- Three levels that are each higher than those before. -/
def raisedLevels : TradingGrid ℚ :=
  { threeLevels with levels := [110, 160, 210], two_le := by decide, weights_length := by decide, counts_length := by decide }

/-- A call that takes up a candle on which an order opens at 150. -/
def opensAt150 : Callbacks ℚ := { quietCallbacks [minuteCandle 60 140 160] with next := fun t => t + 1 }

/-- A call that replaces the plan and takes up a candle on which the order closes. -/
def closesRaised : Callbacks ℚ := { quietCallbacks [minuteCandle 120 150 200] with rebuild := fun _ _ => .ok [raisedLevels] }

/-- An order opened at 150 is counted at 160 in the next plan. -/
theorem outcome_moves_to_other_price :
    ¬∀ pre cb, pre ++ [cb] <+: [opensAt150, closesRaised] →
      Attributes minutePortfolio ((kernel minutePortfolio).trace pre) ((kernel minutePortfolio).state pre) cb := by
  intro h
  have hkeeps := (attributes_iff (priced_run minutePortfolio [opensAt150]) closesRaised).mp
    (h [opensAt150] closesRaised (List.prefix_refl _))
  have htake : takesUp closesRaised ((kernel minutePortfolio).state [opensAt150]) = some (minuteCandle 120 150 200) := by
    decide +kernel
  have hplaces : ∃ o ∈ ((kernel minutePortfolio).state [opensAt150]).orders,
      (checkOrderExit o (minuteCandle 120 150 200) minutePortfolio.fee
        (((kernel minutePortfolio).state [opensAt150]).candleSeq + 1)).isSome ∧ o.entryPrice = 150 ∧
      priceAt (rebuildDue closesRaised ((kernel minutePortfolio).state [opensAt150])).1.plan o = some 160 := by
    decide +kernel
  obtain ⟨o, ho, hleaves, hentry, hprice⟩ := hplaces
  have hplace := hkeeps _ htake o ho hleaves
  rw [hentry, hprice] at hplace
  rcases hplace with hsame | ⟨hnone, -⟩
  · exact absurd (Option.some.inj hsame) (by norm_num)
  · nomatch hnone

end Opsense
