import Opsense.Kernel.Grid

/-!
# Orders

The orders of `opsense-qlib/src/portfolio.rs`: when an open order leaves (`checkOrderExit`), which orders a candle opens on a
plan (`openOrders`), and the events both are announced with. The bit set of taken levels is a natural number read by
`Nat.testBit`.
-/

namespace Opsense

inductive OrderType where
  | unknown
  | long
  | short
deriving DecidableEq, Repr

structure Order (F : Type) where
  dtype : OrderType
  entryPrice : F
  size : F
  slPrice : F
  tpPrice : F
  gridIndex : Nat
  levelIndex : Nat
  pnlPct : Option F
  exitPrice : Option F
  /-- The order may be closed from this candle number on. -/
  unlockSeq : Nat
deriving DecidableEq, Repr

inductive OrderEvent (F : Type) where
  | placed (ts : Nat) (order : Order F)
  | closed (ts : Nat) (order : Order F)
  /-- The levels of each grid of a new plan. -/
  | rebuilt (ts : Nat) (grids : List (List F))
  | rejected (ts grid level : Nat) (reason : String)
deriving DecidableEq, Repr

/-- The trait `Fee`, by the two methods the kernel calls. -/
structure Fee (F : Type) where
  roundTripRate : F
  netPnlPct : F → F

/-- A fee with the trait's default methods. -/
def Fee.ofRate {F : Type} [Scalar F] (rate : F) : Fee F where
  roundTripRate := rate * 2.0
  netPnlPct gross_pnl_pct := gross_pnl_pct - rate * 2.0

section Orders

variable {F : Type} [Scalar F]

/-! ## Leaving -/

/-- The price and the net profit an order leaves with on a candle, if it leaves. -/
def checkOrderExit (order : Order F) (candle : CandleStick F) (fee : Fee F) (current_seq : Nat) : Option (F × F) :=
  if current_seq < order.unlockSeq then none
  else
    match order.dtype with
    | .unknown => none
    | .long =>
      let hit_sl := Scalar.le candle.l order.slPrice
      let hit_tp := Scalar.ge candle.h order.tpPrice
      if hit_sl || hit_tp then
        let exit_price :=
          if hit_sl then if Scalar.lt candle.o order.slPrice then candle.o else order.slPrice
          else if Scalar.gt candle.o order.tpPrice then candle.o else order.tpPrice
        some (exit_price, fee.netPnlPct ((exit_price - order.entryPrice) / order.entryPrice))
      else none
    | .short =>
      let hit_sl := Scalar.ge candle.h order.slPrice
      let hit_tp := Scalar.le candle.l order.tpPrice
      if hit_sl || hit_tp then
        let exit_price :=
          if hit_sl then if Scalar.gt candle.o order.slPrice then candle.o else order.slPrice
          else if Scalar.lt candle.o order.tpPrice then candle.o else order.tpPrice
        some (exit_price, fee.netPnlPct ((order.entryPrice - exit_price) / order.entryPrice))
      else none

/-- The order with the outcome it leaves with. -/
def Order.withOutcome (order : Order F) (exit_price pnl_pct : F) : Order F :=
  { order with exitPrice := some exit_price, pnlPct := some pnl_pct }

/-- The order as it was placed. -/
def Order.placedAs (order : Order F) : Order F := { order with exitPrice := none, pnlPct := none }

/-- What the exits of a candle leave: the orders still open, the plan with the outcomes counted, and the history. -/
structure Exits (F : Type) where
  orders : List (Order F)
  plan : List (TradingGrid F)
  history : List (Order F)

/-- One round of `orders.retain_mut`. -/
def exitOrder (candle : CandleStick F) (fee : Fee F) (current_seq : Nat) (x : Exits F) (order : Order F) : Exits F :=
  match checkOrderExit order candle fee current_seq with
  | none => { x with orders := x.orders ++ [order] }
  | some (exit_price, pnl_pct) =>
    { x with
      plan := x.plan.modify order.gridIndex fun grid =>
        grid.recordTradeOutcome order.levelIndex (order.dtype == .long) pnl_pct
      history := x.history ++ [order.withOutcome exit_price pnl_pct] }

/-- Close every order that leaves on the candle, in the order they were placed. -/
def exitOrders (candle : CandleStick F) (fee : Fee F) (current_seq : Nat) (orders : List (Order F))
    (plan : List (TradingGrid F)) (history : List (Order F)) : Exits F :=
  orders.foldl (exitOrder candle fee current_seq) ⟨[], plan, history⟩

/-! ## Opening -/

/-- The size of an order by the Kelly criterion. -/
def calculateOrderSize (win_p sl_pct fraction base_capital : F) : F :=
  if Scalar.le win_p 0.0 || Scalar.ge win_p 1.0 || Scalar.le sl_pct 0.0 then 0.0
  else
    let b := 1.0 / sl_pct
    let q := 1.0 - win_p
    let kelly := (win_p * b - q) / b
    base_capital * Scalar.max (kelly * fraction) 0.0

/-- What orders are opened with on a candle. -/
structure Opening (F : Type) where
  ts : Nat
  /-- The number of the candle in its review window. -/
  id : Nat
  fee : Fee F
  kellyFraction : F
  baseCapital : F
  unlockSeq : Nat
  minRr : F

/-- The take-profit of an order: by the ratio of reward to risk where one is asked for, else the next level. -/
def takeProfit (p : Opening F) (grid : TradingGrid F) (il : Nat) (is_long : Bool) : Option F :=
  if Scalar.gt p.minRr 0.0 then grid.tpForRr il p.minRr is_long
  else some (if is_long then grid.tpAbove il else grid.tpBelow il)

/-- What a touched level without an open order gives: an order, or the reason why there is none. -/
def considerLevel (p : Opening F) (ig : Nat) (grid : TradingGrid F) (il : Nat) : OrderEvent F :=
  let entry_price := grid.levelPrice il
  let is_long := Scalar.le entry_price ((grid.min + grid.max) / 2.0)
  let dtype := if is_long then OrderType.long else OrderType.short
  let win_p := if is_long then grid.longWinPct il * grid.weight il p.id else grid.shortWinPct il * grid.weight il p.id
  let sl_price := if is_long then grid.slLong il else grid.slShort il
  match takeProfit p grid il is_long with
  | none => .rejected p.ts ig il
      ("không có bậc nào đạt min_rr " ++ Scalar.fixed 4 p.minRr ++ " (risk " ++ Scalar.fixed 6 grid.stoplossPct ++
        ", cần reward " ++ Scalar.fixed 6 (grid.stoplossPct * p.minRr) ++ ")")
  | some tp_price =>
    let expected_profit_pct :=
      if is_long then (tp_price - entry_price) / entry_price else (entry_price - tp_price) / entry_price
    if Scalar.le expected_profit_pct p.fee.roundTripRate then
      .rejected p.ts ig il ("expected_profit_pct " ++ Scalar.fixed 6 expected_profit_pct ++ " <= roundtrip fee " ++
        Scalar.fixed 6 p.fee.roundTripRate)
    else
      let size := calculateOrderSize win_p grid.stoplossPct p.kellyFraction p.baseCapital
      if Scalar.le size 0.0 then
        .rejected p.ts ig il ("win_p=" ++ Scalar.fixed 4 win_p ++ " → calculate_order_size=0 (skip placing)")
      else
        .placed p.ts
          { dtype, entryPrice := entry_price, size, slPrice := sl_price, tpPrice := tp_price, gridIndex := ig,
            levelIndex := il, pnlPct := none, exitPrice := none, unlockSeq := p.unlockSeq }

/-- The order an event places. -/
def OrderEvent.placedOrder? : OrderEvent F → Option (Order F)
  | .placed _ order => some order
  | _ => none

/-- The levels from `lo` to `hi` that have an open order, as bits relative to `lo`. -/
def takenLevels (orders : List (Order F)) (ig lo hi : Nat) : Nat :=
  orders.foldl (fun taken o =>
    if o.gridIndex = ig ∧ lo ≤ o.levelIndex ∧ o.levelIndex < hi then taken ||| 1 <<< (o.levelIndex - lo) else taken) 0

/-- The orders and events after a level was considered. -/
def openLevel (p : Opening F) (ig : Nat) (grid : TradingGrid F) (taken lo : Nat)
    (st : List (Order F) × List (OrderEvent F)) (il : Nat) : List (Order F) × List (OrderEvent F) :=
  if taken.testBit (il - lo) then st
  else
    let event := considerLevel p ig grid il
    (st.1 ++ event.placedOrder?.toList, st.2 ++ [event])

/-- The orders and events after a grid was considered. -/
def openGrid (p : Opening F) (candle : CandleStick F) (st : List (Order F) × List (OrderEvent F))
    (g : TradingGrid F × Nat) : List (Order F) × List (OrderEvent F) :=
  let (grid, ig) := g
  if Scalar.lt candle.h grid.min || Scalar.gt candle.l grid.max then st
  else
    let (lo, hi) := touchedLevels grid.levels candle.l candle.h
    if lo ≥ hi then st
    else (List.range' lo (hi - lo)).foldl (openLevel p ig grid (takenLevels st.1 ig lo hi) lo) st

/-- Open orders at the levels a candle touches that have none: the open orders after it, and the events. -/
def openOrders (p : Opening F) (candle : CandleStick F) (plan : List (TradingGrid F)) (orders : List (Order F)) :
    List (Order F) × List (OrderEvent F) :=
  plan.zipIdx.foldl (openGrid p candle) (orders, [])

/-! ## What the exits of a candle do -/

/-- The order as it is recorded, if it leaves on the candle. -/
def leaves (candle : CandleStick F) (fee : Fee F) (current_seq : Nat) (order : Order F) : Option (Order F) :=
  (checkOrderExit order candle fee current_seq).map fun r => order.withOutcome r.1 r.2

/-- The orders that stay are the ones that do not leave, the history grows by the ones that do, and the plan keeps its
grids. -/
theorem exitOrders_spec (candle : CandleStick F) (fee : Fee F) (current_seq : Nat) (orders : List (Order F))
    (plan : List (TradingGrid F)) (history : List (Order F)) :
    (exitOrders candle fee current_seq orders plan history).orders =
      orders.filter (fun o => (leaves candle fee current_seq o).isNone) ∧
    (exitOrders candle fee current_seq orders plan history).history =
      history ++ orders.filterMap (leaves candle fee current_seq) ∧
    (exitOrders candle fee current_seq orders plan history).plan.length = plan.length := by
  unfold exitOrders
  suffices h : ∀ x : Exits F, (orders.foldl (exitOrder candle fee current_seq) x).orders =
      x.orders ++ orders.filter (fun o => (leaves candle fee current_seq o).isNone) ∧
      (orders.foldl (exitOrder candle fee current_seq) x).history =
        x.history ++ orders.filterMap (leaves candle fee current_seq) ∧
      (orders.foldl (exitOrder candle fee current_seq) x).plan.length = x.plan.length from h ⟨[], plan, history⟩
  induction orders with
  | nil => intro x; simp
  | cons o orders ih =>
    intro x
    rw [List.foldl_cons]
    obtain ⟨h1, h2, h3⟩ := ih (exitOrder candle fee current_seq x o)
    rw [h1, h2, h3]
    unfold exitOrder
    cases hexit : checkOrderExit o candle fee current_seq with
    | none => simp [leaves, hexit]
    | some r => simp [leaves, hexit]

/-! ## What opening orders does -/

omit [Scalar F] in
theorem testBit_takenLevels (orders : List (Order F)) (ig lo hi b : Nat) :
    (takenLevels orders ig lo hi).testBit b = true ↔
      ∃ o ∈ orders, o.gridIndex = ig ∧ lo ≤ o.levelIndex ∧ o.levelIndex < hi ∧ o.levelIndex - lo = b := by
  unfold takenLevels
  suffices h : ∀ acc : Nat, (orders.foldl (fun taken o =>
      if o.gridIndex = ig ∧ lo ≤ o.levelIndex ∧ o.levelIndex < hi then taken ||| 1 <<< (o.levelIndex - lo) else taken)
        acc).testBit b = true ↔ acc.testBit b = true ∨
      ∃ o ∈ orders, o.gridIndex = ig ∧ lo ≤ o.levelIndex ∧ o.levelIndex < hi ∧ o.levelIndex - lo = b by
    simpa using h 0
  induction orders with
  | nil => intro acc; simp
  | cons o orders ih =>
    intro acc
    rw [List.foldl_cons, ih]
    by_cases hc : o.gridIndex = ig ∧ lo ≤ o.levelIndex ∧ o.levelIndex < hi
    · rw [if_pos hc, Nat.testBit_or, Nat.one_shiftLeft, Nat.testBit_two_pow]
      simp only [Bool.or_eq_true, decide_eq_true_eq, List.mem_cons, exists_eq_or_imp, hc, true_and, or_assoc]
    · rw [if_neg hc]
      have hnot : ¬(o.gridIndex = ig ∧ lo ≤ o.levelIndex ∧ o.levelIndex < hi ∧ o.levelIndex - lo = b) :=
        fun h => hc ⟨h.1, h.2.1, h.2.2.1⟩
      simp only [List.mem_cons, exists_eq_or_imp, hnot, false_or]

/-- The grid and the level an order is at. -/
def Order.place (o : Order F) : Nat × Nat := (o.gridIndex, o.levelIndex)

/-- A level gives a new order at that level, or a rejection. -/
theorem considerLevel_cases (p : Opening F) (ig il : Nat) (grid : TradingGrid F) :
    (∃ o, considerLevel p ig grid il = .placed p.ts o ∧ o.place = (ig, il) ∧ o.unlockSeq = p.unlockSeq ∧ o.placedAs = o) ∨
    ∃ reason, considerLevel p ig grid il = .rejected p.ts ig il reason := by
  unfold considerLevel
  simp only
  cases takeProfit p grid il (Scalar.le (grid.levelPrice il) ((grid.min + grid.max) / 2.0)) with
  | none => exact Or.inr ⟨_, rfl⟩
  | some tp =>
    simp only
    split_ifs
    all_goals first
      | exact Or.inr ⟨_, rfl⟩
      | exact Or.inl ⟨_, rfl, rfl, rfl, rfl⟩

/-- An order a level gives is at that level and new. -/
theorem considerLevel_placed {p : Opening F} {ig il : Nat} {grid : TradingGrid F} {o : Order F}
    (h : (considerLevel p ig grid il).placedOrder? = some o) :
    o.place = (ig, il) ∧ o.unlockSeq = p.unlockSeq ∧ o.placedAs = o := by
  rcases considerLevel_cases p ig il grid with ⟨o', heq, hspec⟩ | ⟨reason, heq⟩
  · rw [heq] at h
    obtain rfl := Option.some.inj h
    exact hspec
  · rw [heq] at h
    nomatch h

/-- From one state of orders and events to a later one: the new orders are the ones the new events announce as placed, each
without an outcome and locked until `unlockSeq`, and nothing else is announced but rejections. -/
structure Opens (p : Opening F) (st st' : List (Order F) × List (OrderEvent F)) (events : List (OrderEvent F)) : Prop where
  announced : st'.2 = st.2 ++ events
  added : st'.1 = st.1 ++ events.filterMap OrderEvent.placedOrder?
  fresh : ∀ o ∈ events.filterMap OrderEvent.placedOrder?, o.unlockSeq = p.unlockSeq ∧ o.placedAs = o
  kinds : ∀ e ∈ events, (∃ o, e = .placed p.ts o) ∨ ∃ ig il reason, e = .rejected p.ts ig il reason

omit [Scalar F] in
theorem Opens.refl (p : Opening F) (st : List (Order F) × List (OrderEvent F)) : Opens p st st [] :=
  ⟨by simp, by simp, by simp, by simp⟩

omit [Scalar F] in
theorem Opens.trans {p : Opening F} {st st' st'' : List (Order F) × List (OrderEvent F)} {e e' : List (OrderEvent F)}
    (h : Opens p st st' e) (h' : Opens p st' st'' e') : Opens p st st'' (e ++ e') := by
  refine ⟨?_, ?_, ?_, ?_⟩
  · rw [h'.announced, h.announced, List.append_assoc]
  · rw [h'.added, h.added, List.filterMap_append, List.append_assoc]
  · intro o ho
    rw [List.filterMap_append, List.mem_append] at ho
    exact ho.elim (h.fresh o) (h'.fresh o)
  · intro ev hev
    exact (List.mem_append.mp hev).elim (h.kinds ev) (h'.kinds ev)

theorem openLevel_opens (p : Opening F) (ig : Nat) (grid : TradingGrid F) (taken lo il : Nat)
    (st : List (Order F) × List (OrderEvent F)) : ∃ e, Opens p st (openLevel p ig grid taken lo st il) e := by
  unfold openLevel
  split_ifs
  · exact ⟨[], Opens.refl p st⟩
  · refine ⟨[considerLevel p ig grid il], rfl, ?_, ?_, ?_⟩
    · cases h : (considerLevel p ig grid il).placedOrder? <;> simp [h]
    · intro o ho
      obtain ⟨ev, hev, hpo⟩ := List.mem_filterMap.mp ho
      obtain rfl := List.mem_singleton.mp hev
      exact (considerLevel_placed hpo).2
    · intro ev hev
      obtain rfl := List.mem_singleton.mp hev
      rcases considerLevel_cases p ig il grid with ⟨o, ho, -⟩ | ⟨reason, hr⟩
      · exact Or.inl ⟨o, ho⟩
      · exact Or.inr ⟨ig, il, reason, hr⟩

omit [Scalar F] in
/-- A fold of steps that open orders opens orders. -/
theorem foldl_opens {ι : Type} (p : Opening F)
    {f : List (Order F) × List (OrderEvent F) → ι → List (Order F) × List (OrderEvent F)}
    (hf : ∀ st a, ∃ e, Opens p st (f st a) e) : ∀ (l : List ι) st, ∃ e, Opens p st (l.foldl f st) e
  | [], st => ⟨[], Opens.refl p st⟩
  | a :: l, st => by
    obtain ⟨e, he⟩ := hf st a
    obtain ⟨e', he'⟩ := foldl_opens p hf l (f st a)
    exact ⟨e ++ e', he.trans he'⟩

theorem openGrid_opens (p : Opening F) (candle : CandleStick F) (st : List (Order F) × List (OrderEvent F))
    (g : TradingGrid F × Nat) : ∃ e, Opens p st (openGrid p candle st g) e := by
  unfold openGrid
  simp only
  split_ifs
  · exact ⟨[], Opens.refl p st⟩
  · exact ⟨[], Opens.refl p st⟩
  · exact foldl_opens p (fun st il => openLevel_opens p g.2 g.1 _ _ il st) _ st

theorem openOrders_opens (p : Opening F) (candle : CandleStick F) (plan : List (TradingGrid F)) (orders : List (Order F)) :
    Opens p (orders, []) (openOrders p candle plan orders) (openOrders p candle plan orders).2 := by
  obtain ⟨e, he⟩ := foldl_opens p (fun st g => openGrid_opens p candle st g) plan.zipIdx (orders, [])
  have hev : (openOrders p candle plan orders).2 = e := by
    unfold openOrders
    rw [he.announced, List.nil_append]
  rw [hev]
  exact he

/-! ## One order a level -/

/-- The orders are at different places. -/
def OnePerLevel (orders : List (Order F)) : Prop := (orders.map Order.place).Nodup

/-- Going through levels that are pairwise different keeps the orders at different places, when a level that has an order is
marked as taken. -/
theorem foldl_openLevel_onePerLevel (p : Opening F) (ig : Nat) (grid : TradingGrid F) (taken lo : Nat) :
    ∀ (levels : List Nat) (st : List (Order F) × List (OrderEvent F)), levels.Nodup → OnePerLevel st.1 →
      (∀ il ∈ levels, (ig, il) ∈ st.1.map Order.place → taken.testBit (il - lo) = true) →
      OnePerLevel (levels.foldl (openLevel p ig grid taken lo) st).1
  | [], _, _, hone, _ => hone
  | il :: levels, st, hnd, hone, htaken => by
    obtain ⟨hil, hnd⟩ := List.nodup_cons.mp hnd
    rw [List.foldl_cons]
    refine foldl_openLevel_onePerLevel p ig grid taken lo levels _ hnd ?_ ?_
    · unfold openLevel
      split_ifs with hbit
      · exact hone
      · have hfree : (ig, il) ∉ st.1.map Order.place := fun hmem => hbit (htaken il List.mem_cons_self hmem)
        cases hpo : (considerLevel p ig grid il).placedOrder? with
        | none => simpa [hpo] using hone
        | some o =>
          unfold OnePerLevel
          simp only [hpo, Option.toList_some, List.map_append, List.map_cons, List.map_nil, (considerLevel_placed hpo).1]
          refine List.nodup_append.mpr ⟨hone, List.nodup_singleton _, fun a ha b hb => ?_⟩
          rw [List.mem_singleton] at hb
          subst hb
          exact fun e => hfree (e ▸ ha)
    · intro il' hil' hmem
      refine htaken il' (List.mem_cons_of_mem _ hil') ?_
      unfold openLevel at hmem
      split_ifs at hmem
      · exact hmem
      · simp only [List.map_append, List.mem_append] at hmem
        refine hmem.resolve_right fun hnew => ?_
        obtain ⟨o, ho, hplace⟩ := List.mem_map.mp hnew
        rw [Option.mem_toList] at ho
        have heq := (considerLevel_placed ho).1.symm.trans hplace
        exact hil ((Prod.mk.inj heq).2 ▸ hil')

theorem openGrid_onePerLevel (p : Opening F) (candle : CandleStick F) (st : List (Order F) × List (OrderEvent F))
    (g : TradingGrid F × Nat) (h : OnePerLevel st.1) : OnePerLevel (openGrid p candle st g).1 := by
  unfold openGrid
  simp only
  split_ifs
  · exact h
  · exact h
  · refine foldl_openLevel_onePerLevel p g.2 g.1 _ _ _ st List.nodup_range' h fun il hil hmem => ?_
    obtain ⟨o, ho, hplace⟩ := List.mem_map.mp hmem
    obtain ⟨hg, hl⟩ := Prod.mk.inj hplace
    obtain ⟨hlo, hhi⟩ := List.mem_range'_1.mp hil
    exact (testBit_takenLevels _ _ _ _ _).mpr ⟨o, ho, hg, by omega, by omega, by rw [hl]⟩

/-- Opening orders keeps them at different places. -/
theorem openOrders_onePerLevel (p : Opening F) (candle : CandleStick F) (plan : List (TradingGrid F))
    {orders : List (Order F)} (h : OnePerLevel orders) : OnePerLevel (openOrders p candle plan orders).1 := by
  unfold openOrders
  suffices hgen : ∀ (gs : List (TradingGrid F × Nat)) (st : List (Order F) × List (OrderEvent F)),
      OnePerLevel st.1 → OnePerLevel (gs.foldl (openGrid p candle) st).1 from hgen _ _ h
  intro gs
  induction gs with
  | nil => exact fun _ h => h
  | cons g gs ih => exact fun st h => ih _ (openGrid_onePerLevel p candle st g h)

end Orders

end Opsense
