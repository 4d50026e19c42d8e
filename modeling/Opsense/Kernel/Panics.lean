import Opsense.Kernel.Forward
import Opsense.Kernel.PlanCell

/-!
# What a call of the kernel can panic at

`forward` with its panics: the index into a row of weights, and the sums where a build checks them for overflow. Without the
checks sums wrap. Each part is described by when it does not panic and by what it gives then.
-/

namespace Opsense

open Partial

namespace TradingGrid

variable {F : Type} [Scalar F]

/-- The counter that the outcome of a trade is counted by. -/
def outcomeCounter (g : TradingGrid F) (level : Nat) (is_long : Bool) (pnl_pct : F) : Option Nat :=
  if Scalar.gt pnl_pct 0.0 then
    if is_long then g.orderLongWinCnt[level]? else g.orderShortWinCnt[level]?
  else if is_long then g.orderLongLostCnt[level]? else g.orderShortLostCnt[level]?

omit [Scalar F] in
/-- The counters as `usize`s. -/
def wrapCounts (g : TradingGrid F) : TradingGrid F :=
  { g with
    orderLongWinCnt := g.orderLongWinCnt.map (· % 2 ^ 64)
    orderLongLostCnt := g.orderLongLostCnt.map (· % 2 ^ 64)
    orderShortWinCnt := g.orderShortWinCnt.map (· % 2 ^ 64)
    orderShortLostCnt := g.orderShortLostCnt.map (· % 2 ^ 64)
    counts_length := by simpa using g.counts_length }

omit [Scalar F] in
/-- What the opening of orders indexes: the levels and the weights. -/
def shape (g : TradingGrid F) : List F × List (List F) := (g.levels, g.weights)

theorem shape_recordTradeOutcome (g : TradingGrid F) (level : Nat) (is_long : Bool) (pnl_pct : F) :
    (g.recordTradeOutcome level is_long pnl_pct).shape = g.shape := by
  unfold recordTradeOutcome
  split_ifs <;> rfl

/-- An outcome is counted at its own level. -/
theorem outcomeCounter_recordTradeOutcome (g : TradingGrid F) {level level' : Nat} (h : level ≠ level') (is_long is_long' : Bool)
    (pnl_pct pnl_pct' : F) : (g.recordTradeOutcome level is_long pnl_pct).outcomeCounter level' is_long' pnl_pct' =
      g.outcomeCounter level' is_long' pnl_pct' := by
  unfold recordTradeOutcome outcomeCounter
  split_ifs <;> simp [h]

end TradingGrid

section Panics

variable {F : Type} [Scalar F]

/-! ## Closing -/

/-- The counter of the order's outcome is at the end of its type, if the order leaves. -/
def Overflows (candle : CandleStick F) (fee : Fee F) (current_seq : Nat) (plan : List (TradingGrid F)) (order : Order F) : Prop :=
  ((checkOrderExit order candle fee current_seq).bind fun r => plan[order.gridIndex]?.bind fun grid =>
    grid.outcomeCounter order.levelIndex (order.dtype == .long) r.2) = some (2 ^ 64 - 1)

instance (candle : CandleStick F) (fee : Fee F) (current_seq : Nat) (plan : List (TradingGrid F)) (order : Order F) :
    Decidable (Overflows candle fee current_seq plan order) := inferInstanceAs (Decidable (_ = _))

/-- One round of `orders.retain_mut`, with counters that wrap. -/
def exitOrderWrapping (candle : CandleStick F) (fee : Fee F) (current_seq : Nat) (x : Exits F) (order : Order F) : Exits F :=
  let x' := exitOrder candle fee current_seq x order
  if Overflows candle fee current_seq x.plan order then { x' with plan := x'.plan.map TradingGrid.wrapCounts } else x'

/-- One round of `orders.retain_mut`, with its panic. -/
def exitOrderChecked (checks : Bool) (candle : CandleStick F) (fee : Fee F) (current_seq : Nat) (x : Exits F) (order : Order F) :
    Except Panic (Exits F) :=
  if checks = true ∧ Overflows candle fee current_seq x.plan order then .error .overflow
  else .ok (exitOrderWrapping candle fee current_seq x order)

def exitOrdersChecked (checks : Bool) (candle : CandleStick F) (fee : Fee F) (current_seq : Nat) (orders : List (Order F))
    (plan : List (TradingGrid F)) (history : List (Order F)) : Except Panic (Exits F) :=
  orders.foldlM (exitOrderChecked checks candle fee current_seq) ⟨[], plan, history⟩

/-! ## Opening -/

/-- A touched level takes its weight by the two indices, and is considered with it. -/
def openLevelChecked (p : Opening F) (ig : Nat) (grid : TradingGrid F) (taken lo : Nat) (st : List (Order F) × List (OrderEvent F))
    (il : Nat) : Except Panic (List (Order F) × List (OrderEvent F)) :=
  if ¬taken.testBit (il - lo) ∧ grid.indexWeight il p.id = none then .error .index else .ok (openLevel p ig grid taken lo st il)

def openGridChecked (p : Opening F) (candle : CandleStick F) (st : List (Order F) × List (OrderEvent F)) (g : TradingGrid F × Nat) :
    Except Panic (List (Order F) × List (OrderEvent F)) :=
  let (grid, ig) := g
  if Scalar.lt candle.h grid.min || Scalar.gt candle.l grid.max then .ok st
  else
    let (lo, hi) := touchedLevels grid.levels candle.l candle.h
    if lo ≥ hi then .ok st
    else (List.range' lo (hi - lo)).foldlM (openLevelChecked p ig grid (takenLevels st.1 ig lo hi) lo) st

def openOrdersChecked (p : Opening F) (candle : CandleStick F) (plan : List (TradingGrid F)) (orders : List (Order F)) :
    Except Panic (List (Order F) × List (OrderEvent F)) :=
  plan.zipIdx.foldlM (openGridChecked p candle) (orders, [])

/-! ## A call -/

/-- The last part of `forward`, with its panics. -/
def processCandleChecked (checks : Bool) (pf : Portfolio F) (cb : Callbacks F) (s : Session F) (sent : List (OrderEvent F))
    (candle : CandleStick F) : Except Panic (Outcome F) := do
  let current_seq ← addU64 checks s.candleSeq 1
  let x ← exitOrdersChecked checks candle pf.fee current_seq s.orders s.plan s.history
  let taken : Session F := { s with candleSeq := current_seq, history := x.history, plan := [], orders := [] }
  match notifyAll cb.notify sent.length ((x.history.drop s.history.length).map (OrderEvent.closed candle.t.toNat)) with
  | (sent₁, .error e) => .ok ⟨taken, .error e, sent ++ sent₁, some candle⟩
  | (sent₁, .ok ()) => do
    let unlock_seq ← addU64 checks current_seq pf.settlement
    let (orders, events) ← openOrdersChecked { opening pf cb s candle with unlockSeq := unlock_seq } candle x.plan x.orders
    match notifyAll cb.notify (sent.length + sent₁.length) events with
    | (sent₂, .error e) => .ok ⟨taken, .error e, sent ++ sent₁ ++ sent₂, some candle⟩
    | (sent₂, .ok ()) => do
      let candle_id ← addU64 checks s.candleId 1
      .ok ⟨{ taken with
          plan := x.plan
          orders := orders
          candleId := candle_id
          candleTs := candle.t
          nextTs := pf.calendar.next candle.t.toNat pf.resolutionForTest },
        .ok true, sent ++ sent₁ ++ sent₂, some candle⟩

/-- `Portfolio::forward` with its panics. -/
def forwardChecked (checks : Bool) (pf : Portfolio F) (cb : Callbacks F) (s : Session F) : Except Panic (Outcome F) :=
  let current := s.nextTs
  match rebuildDue cb s with
  | (s, sent, .error e) => .ok ⟨s, .error e, sent, none⟩
  | (s, sent, .ok ()) =>
    match cb.fetch current (Max.max s.reviewAt current) with
    | .error e => .ok ⟨s, .error e, sent, none⟩
    | .ok candles =>
      match candles.find? (newer s) with
      | none => .ok ⟨{ s with nextTs := pf.calendar.next current pf.resolutionForTest }, .ok false, sent, none⟩
      | some candle => processCandleChecked checks pf cb s sent candle

/-! ## When closing panics -/

/-- The exits of a candle, with counters that wrap. -/
def exitOrdersWrapping (candle : CandleStick F) (fee : Fee F) (current_seq : Nat) (orders : List (Order F))
    (plan : List (TradingGrid F)) (history : List (Order F)) : Exits F :=
  orders.foldl (exitOrderWrapping candle fee current_seq) ⟨[], plan, history⟩

variable {candle : CandleStick F} {fee : Fee F} {current_seq : Nat} {orders history : List (Order F)}
  {plan : List (TradingGrid F)}

theorem exitOrderWrapping_of_not {x : Exits F} {order : Order F} (h : ¬Overflows candle fee current_seq x.plan order) :
    exitOrderWrapping candle fee current_seq x order = exitOrder candle fee current_seq x order := if_neg h

/-- An exit counts an outcome at the place of its order only. -/
theorem overflows_exitOrder {x : Exits F} {order order' : Order F} (hplace : order.place ≠ order'.place) :
    Overflows candle fee current_seq (exitOrder candle fee current_seq x order).plan order' ↔
      Overflows candle fee current_seq x.plan order' := by
  unfold exitOrder
  cases checkOrderExit order candle fee current_seq with
  | none => rfl
  | some r =>
    unfold Overflows
    dsimp only
    cases checkOrderExit order' candle fee current_seq with
    | none => rfl
    | some r' =>
      rw [Option.bind_some, Option.bind_some, List.getElem?_modify]
      cases x.plan[order'.gridIndex]? with
      | none => rfl
      | some grid =>
        simp only [Option.map_eq_map, Option.map_some, Option.bind_some]
        by_cases hgrid : order.gridIndex = order'.gridIndex
        · have hlevel : order.levelIndex ≠ order'.levelIndex := fun h => hplace (Prod.ext hgrid h)
          rw [if_pos hgrid, grid.outcomeCounter_recordTradeOutcome hlevel]
        · rw [if_neg hgrid]

/-- Of orders at different places each is counted once, so it is the counters before the candle that may overflow. -/
theorem along_exitOrderWrapping (hone : OnePerLevel orders) (x : Exits F) :
    Along (exitOrderWrapping candle fee current_seq) (fun x order => ¬Overflows candle fee current_seq x.plan order) x orders ↔
      ∀ order ∈ orders, ¬Overflows candle fee current_seq x.plan order := by
  induction orders generalizing x with
  | nil => exact ⟨fun _ => by simp, fun _ => trivial⟩
  | cons order orders ih =>
    obtain ⟨hnew, hone⟩ := List.nodup_cons.mp hone
    have hother : ∀ order' ∈ orders, order.place ≠ order'.place := fun order' h heq => hnew (List.mem_map.mpr ⟨order', h, heq.symm⟩)
    rw [Along, List.forall_mem_cons]
    refine and_congr_right fun h => ?_
    rw [exitOrderWrapping_of_not h, ih hone]
    exact forall₂_congr fun order' h' => not_congr (overflows_exitOrder (hother order' h'))

/-- With overflow checks the exits panic where an order that leaves has a counter at the end of its type. -/
theorem gives_exitOrdersChecked (checks : Bool) (candle : CandleStick F) (fee : Fee F) (current_seq : Nat) (plan : List (TradingGrid F))
    (history : List (Order F)) (hone : OnePerLevel orders) :
    Gives (exitOrdersChecked checks candle fee current_seq orders plan history)
      (checks = true → ∀ order ∈ orders, ¬Overflows candle fee current_seq plan order)
      (exitOrdersWrapping candle fee current_seq orders plan history) := by
  refine (gives_foldlM (fun x order => gives_refuse _ Panic.overflow _) _ orders).congr ?_
  cases checks with
  | false => exact ⟨nofun, fun _ => along_of_forall (fun x order => by simp) _ _⟩
  | true =>
    simp only [true_and, true_imp_iff]
    exact along_exitOrderWrapping hone ⟨[], plan, history⟩

omit [Scalar F] in
theorem shape_modify {plan : List (TradingGrid F)} {f : TradingGrid F → TradingGrid F} (hf : ∀ g, (f g).shape = g.shape) (i : Nat) :
    (plan.modify i f).map TradingGrid.shape = plan.map TradingGrid.shape := by
  refine List.ext_getElem? fun j => ?_
  rw [List.getElem?_map, List.getElem?_map, List.getElem?_modify]
  cases plan[j]? with
  | none => rfl
  | some g =>
    simp only [Option.map_eq_map, Option.map_some]
    split_ifs
    · rw [hf]
    · rfl

/-- An exit leaves the shape of the plan, and keeps or records its order. -/
theorem exitOrderWrapping_spec (candle : CandleStick F) (fee : Fee F) (current_seq : Nat) (x : Exits F) (order : Order F) :
    (exitOrderWrapping candle fee current_seq x order).orders = (exitOrder candle fee current_seq x order).orders ∧
    (exitOrderWrapping candle fee current_seq x order).history = (exitOrder candle fee current_seq x order).history ∧
    (exitOrderWrapping candle fee current_seq x order).plan.map TradingGrid.shape = x.plan.map TradingGrid.shape := by
  have hshape : (exitOrder candle fee current_seq x order).plan.map TradingGrid.shape = x.plan.map TradingGrid.shape := by
    unfold exitOrder
    cases checkOrderExit order candle fee current_seq with
    | none => rfl
    | some r => exact shape_modify (fun g => g.shape_recordTradeOutcome _ _ _) _
  unfold exitOrderWrapping
  dsimp only
  split_ifs
  · refine ⟨rfl, rfl, ?_⟩
    rw [← hshape, List.map_map]
    rfl
  · exact ⟨rfl, rfl, hshape⟩

/-- The orders that stay are those that do not leave, and the plan keeps its shape. -/
theorem exitOrdersWrapping_spec (candle : CandleStick F) (fee : Fee F) (current_seq : Nat) (orders : List (Order F))
    (plan : List (TradingGrid F)) (history : List (Order F)) :
    (exitOrdersWrapping candle fee current_seq orders plan history).orders =
      orders.filter (fun order => (leaves candle fee current_seq order).isNone) ∧
    (exitOrdersWrapping candle fee current_seq orders plan history).plan.map TradingGrid.shape = plan.map TradingGrid.shape := by
  have hfold : ∀ (orders : List (Order F)) (x y : Exits F), x.orders = y.orders → x.history = y.history →
      (orders.foldl (exitOrderWrapping candle fee current_seq) x).orders = (orders.foldl (exitOrder candle fee current_seq) y).orders ∧
      (orders.foldl (exitOrderWrapping candle fee current_seq) x).plan.map TradingGrid.shape = x.plan.map TradingGrid.shape := by
    intro orders
    induction orders with
    | nil => exact fun x y horders _ => ⟨horders, rfl⟩
    | cons order orders ih =>
      intro x y horders hhistory
      obtain ⟨h1, h2, h3⟩ := exitOrderWrapping_spec candle fee current_seq x order
      have hsame : (exitOrder candle fee current_seq x order).orders = (exitOrder candle fee current_seq y order).orders ∧
          (exitOrder candle fee current_seq x order).history = (exitOrder candle fee current_seq y order).history := by
        unfold exitOrder
        cases checkOrderExit order candle fee current_seq <;> simp [horders, hhistory]
      obtain ⟨hrest, hshape⟩ := ih (exitOrderWrapping candle fee current_seq x order) (exitOrder candle fee current_seq y order)
        (h1.trans hsame.1) (h2.trans hsame.2)
      exact ⟨hrest, hshape.trans h3⟩
  obtain ⟨horders, hshape⟩ := hfold orders ⟨[], plan, history⟩ ⟨[], plan, history⟩ rfl rfl
  exact ⟨horders.trans (exitOrders_spec candle fee current_seq orders plan history).1, hshape⟩

/-! ## When opening panics -/

/-- The candle touches the level. -/
def Touches (candle : CandleStick F) (grid : TradingGrid F) (il : Nat) : Prop :=
  ¬(Scalar.lt candle.h grid.min || Scalar.gt candle.l grid.max) ∧ (touchedLevels grid.levels candle.l candle.h).1 ≤ il ∧
    il < (touchedLevels grid.levels candle.l candle.h).2

/-- No level that the candle touches and that has no order has an empty row of weights. -/
def Weighted (candle : CandleStick F) (orders : List (Order F)) (g : TradingGrid F × Nat) : Prop :=
  ∀ il, Touches candle g.1 il → (∀ o ∈ orders, o.place ≠ (g.2, il)) → g.1.weights[il]? ≠ some []

theorem Touches.lt {grid : TradingGrid F} {il : Nat} (h : Touches candle grid il) : il < grid.levels.length :=
  h.2.2.trans_le (bisect_le (Nat.zero_le _))

omit [Scalar F] in
/-- A level has a weight at every candle unless its row is empty. -/
theorem isSome_indexWeight {grid : TradingGrid F} {il : Nat} (h : il < grid.levels.length) (id : Nat) :
    (grid.indexWeight il id).isSome ↔ grid.weights[il]? ≠ some [] := by
  obtain ⟨row, -, hrow⟩ := TradingGrid.exists_row h
  rw [TradingGrid.indexWeight_eq hrow, hrow, isSome_getElem?, Ne, Option.some.injEq, ← List.length_eq_zero_iff]
  omega

theorem gives_openLevelChecked (p : Opening F) (ig : Nat) (grid : TradingGrid F) (taken lo : Nat)
    (st : List (Order F) × List (OrderEvent F)) (il : Nat) : Gives (openLevelChecked p ig grid taken lo st il)
      (¬taken.testBit (il - lo) → (grid.indexWeight il p.id).isSome) (openLevel p ig grid taken lo st il) := by
  refine (gives_refuse _ Panic.index _).congr ?_
  rw [not_and, Option.isSome_iff_ne_none]

theorem gives_openGridChecked (p : Opening F) (candle : CandleStick F) (st : List (Order F) × List (OrderEvent F))
    (g : TradingGrid F × Nat) :
    Gives (openGridChecked p candle st g) (Weighted candle st.1 g) (openGrid p candle st g) := by
  obtain ⟨grid, ig⟩ := g
  unfold openGridChecked openGrid Weighted Touches
  dsimp only
  split_ifs with hskip hempty
  · exact (gives_ok st).congr ⟨fun _ il h => absurd hskip h.1, fun _ => trivial⟩
  · exact (gives_ok st).congr ⟨fun _ il h => by omega, fun _ => trivial⟩
  · refine (gives_foldlM (gives_openLevelChecked p ig grid _ _) st _).congr ?_
    rw [along_const]
    constructor
    · rintro h il ⟨-, hlo, hhi⟩ hfree
      have htouch : Touches candle grid il := ⟨hskip, hlo, hhi⟩
      refine (isSome_indexWeight htouch.lt p.id).mp (h il (List.mem_range'_1.mpr ⟨hlo, by omega⟩) fun hbit => ?_)
      obtain ⟨o, ho, hgrid, hge, hlt, hlevel⟩ := (testBit_takenLevels _ _ _ _ _).mp hbit
      exact hfree o ho (Prod.ext hgrid (show o.levelIndex = il by omega))
    · intro h il hil hbit
      obtain ⟨hlo, hhi⟩ := List.mem_range'_1.mp hil
      have htouch : Touches candle grid il := ⟨hskip, hlo, by omega⟩
      refine (isSome_indexWeight htouch.lt p.id).mpr (h il htouch fun o ho hplace => hbit ?_)
      obtain ⟨hgrid, hlevel⟩ := Prod.mk.inj hplace
      exact (testBit_takenLevels _ _ _ _ _).mpr ⟨o, ho, hgrid, by omega, by omega, by rw [hlevel]⟩

/-- The orders that a grid opens are its own. -/
theorem mem_openGrid {p : Opening F} {st : List (Order F) × List (OrderEvent F)} {g : TradingGrid F × Nat} {o : Order F} :
    o ∈ (openGrid p candle st g).1 → o ∈ st.1 ∨ o.gridIndex = g.2 := by
  have hlevel : ∀ (levels : List Nat) (taken lo : Nat) (st : List (Order F) × List (OrderEvent F)),
      o ∈ (levels.foldl (openLevel p g.2 g.1 taken lo) st).1 → o ∈ st.1 ∨ o.gridIndex = g.2 := by
    intro levels taken lo
    induction levels with
    | nil => exact fun st h => Or.inl h
    | cons il levels ih =>
      intro st h
      refine (ih _ h).elim (fun hmem => ?_) Or.inr
      unfold openLevel at hmem
      split_ifs at hmem
      · exact Or.inl hmem
      · refine (List.mem_append.mp hmem).imp_right fun hnew => ?_
        exact congrArg Prod.fst (considerLevel_placed (Option.mem_toList.mp hnew)).1
  unfold openGrid
  dsimp only
  split_ifs
  · exact Or.inl
  · exact Or.inl
  · exact hlevel _ _ _ st

theorem weighted_openGrid {p : Opening F} {st : List (Order F) × List (OrderEvent F)} {g g' : TradingGrid F × Nat}
    (h : g.2 ≠ g'.2) : Weighted candle (openGrid p candle st g).1 g' ↔ Weighted candle st.1 g' := by
  obtain ⟨e, he⟩ := openGrid_opens p candle st g
  refine forall_congr' fun il => imp_congr_right fun _ => imp_congr_left ⟨fun hfree o ho => ?_, fun hfree o ho hplace => ?_⟩
  · refine hfree o ?_
    rw [he.added]
    exact List.mem_append_left _ ho
  · rcases mem_openGrid ho with hold | hgrid
    · exact hfree o hold hplace
    · exact h (hgrid.symm.trans (congrArg Prod.fst hplace))

theorem along_openGrid (p : Opening F) (candle : CandleStick F) {gs : List (TradingGrid F × Nat)}
    (hgs : (gs.map Prod.snd).Nodup) (st : List (Order F) × List (OrderEvent F)) :
    Along (openGrid p candle) (fun st g => Weighted candle st.1 g) st gs ↔ ∀ g ∈ gs, Weighted candle st.1 g := by
  induction gs generalizing st with
  | nil => exact ⟨fun _ => by simp, fun _ => trivial⟩
  | cons g gs ih =>
    obtain ⟨hnew, hgs⟩ := List.nodup_cons.mp hgs
    rw [Along, List.forall_mem_cons, ih hgs]
    refine and_congr_right fun _ => forall₂_congr fun g' hg' => weighted_openGrid fun heq => hnew ?_
    exact List.mem_map.mpr ⟨g', hg', heq.symm⟩

/-- Opening panics where a level that the candle touches and that has no order before has no weight. -/
theorem gives_openOrdersChecked (p : Opening F) (candle : CandleStick F) (plan : List (TradingGrid F)) (orders : List (Order F)) :
    Gives (openOrdersChecked p candle plan orders) (∀ g ∈ plan.zipIdx, Weighted candle orders g)
      (openOrders p candle plan orders) :=
  (gives_foldlM (gives_openGridChecked p candle) _ _).congr
    (along_openGrid p candle (List.nodup_zipIdx_map_snd plan) (orders, []))

/-! ## When a call panics -/

omit [Scalar F] in
/-- The answers with a consumer of events that takes all of them. -/
def Callbacks.quiet (cb : Callbacks F) : Callbacks F := { cb with notify := fun _ _ => .ok () }

omit [Scalar F] in
theorem notifyAll_quiet (cb : Callbacks F) (i : Nat) (events : List (OrderEvent F)) :
    notifyAll cb.quiet.notify i events = (events, .ok ()) := by
  induction events generalizing i with
  | nil => rfl
  | cons event events ih =>
    rw [notifyAll_cons, ih]
    rfl

theorem weighted_congr {orders : List (Order F)} {g g' : TradingGrid F} (h : g.shape = g'.shape) (ig : Nat) :
    Weighted candle orders (g, ig) ↔ Weighted candle orders (g', ig) := by
  obtain ⟨hlevels, hweights⟩ := Prod.mk.inj h
  unfold Weighted Touches TradingGrid.min TradingGrid.max
  simp only [hlevels, hweights]

/-- Only the shape of a plan tells which weights are there. -/
theorem forall_weighted_congr {orders : List (Order F)} {plan plan' : List (TradingGrid F)}
    (h : plan.map TradingGrid.shape = plan'.map TradingGrid.shape) :
    (∀ g ∈ plan.zipIdx, Weighted candle orders g) ↔ ∀ g ∈ plan'.zipIdx, Weighted candle orders g := by
  have hone : ∀ {plan plan' : List (TradingGrid F)}, plan.map TradingGrid.shape = plan'.map TradingGrid.shape →
      (∀ g ∈ plan.zipIdx, Weighted candle orders g) → ∀ g ∈ plan'.zipIdx, Weighted candle orders g := by
    rintro plan plan' hshape hall ⟨grid', ig⟩ hmem
    rw [List.mem_zipIdx_iff_getElem?] at hmem
    have hat := congrArg (·[ig]?) hshape
    simp only [List.getElem?_map, hmem, Option.map_some, Option.map_eq_some_iff] at hat
    obtain ⟨grid, hgrid, heq⟩ := hat
    exact (weighted_congr heq ig).mp (hall (grid, ig) (List.mem_zipIdx_iff_getElem?.mpr hgrid))
  exact ⟨hone h, hone h.symm⟩

/-- The candle is processed without a panic: with overflow checks the numbers and the counters have room, and each level that is
touched and has no order left has a weight. -/
structure CandleSafe (checks : Bool) (pf : Portfolio F) (s : Session F) (candle : CandleStick F) : Prop where
  numbers : checks = true → s.candleSeq + 1 + pf.settlement < 2 ^ 64 ∧ s.candleId + 1 < 2 ^ 64
  counters : checks = true → ∀ order ∈ s.orders, ¬Overflows candle pf.fee (s.candleSeq + 1) s.plan order
  weights : ∀ g ∈ s.plan.zipIdx, Weighted candle
    (s.orders.filter fun order => (leaves candle pf.fee ((s.candleSeq + 1) % 2 ^ 64) order).isNone) g

variable {pf : Portfolio F}

theorem processCandleChecked_ok_iff {checks : Bool} {cb : Callbacks F} {s : Session F} {sent : List (OrderEvent F)}
    (hone : OnePerLevel s.orders) :
    (∃ o, processCandleChecked checks pf cb.quiet s sent candle = .ok o) ↔ CandleSafe checks pf s candle := by
  unfold processCandleChecked
  rcases gives_addU64 checks s.candleSeq 1 with ⟨hseq, heq⟩ | ⟨hseq, e, heq⟩
  swap
  · rw [heq, error_bind]
    exact ⟨nofun, fun h => absurd (fun hc => by have := (h.numbers hc).1; omega) hseq⟩
  rw [heq, ok_bind]
  have hmod : checks = true → (s.candleSeq + 1) % 2 ^ 64 = s.candleSeq + 1 := fun hc => Nat.mod_eq_of_lt (hseq hc)
  rcases gives_exitOrdersChecked checks candle pf.fee ((s.candleSeq + 1) % 2 ^ 64) s.plan s.history hone with ⟨hexit, heq⟩ | ⟨hexit, e, heq⟩
  swap
  · rw [heq, error_bind]
    refine ⟨nofun, fun h => absurd (fun hc => ?_) hexit⟩
    rw [hmod hc]
    exact h.counters hc
  rw [heq, ok_bind]
  dsimp only
  rw [notifyAll_quiet]
  dsimp only
  rcases gives_addU64 checks ((s.candleSeq + 1) % 2 ^ 64) pf.settlement with ⟨hunlock, heq⟩ | ⟨hunlock, e, heq⟩
  swap
  · rw [heq, error_bind]
    refine ⟨nofun, fun h => absurd (fun hc => ?_) hunlock⟩
    rw [hmod hc]
    exact (h.numbers hc).1
  rw [heq, ok_bind]
  obtain ⟨horders, hshape⟩ := exitOrdersWrapping_spec candle pf.fee ((s.candleSeq + 1) % 2 ^ 64) s.orders s.plan s.history
  rcases gives_openOrdersChecked
    { opening pf cb.quiet s candle with unlockSeq := ((s.candleSeq + 1) % 2 ^ 64 + pf.settlement) % 2 ^ 64 } candle
    (exitOrdersWrapping candle pf.fee ((s.candleSeq + 1) % 2 ^ 64) s.orders s.plan s.history).plan
    (exitOrdersWrapping candle pf.fee ((s.candleSeq + 1) % 2 ^ 64) s.orders s.plan s.history).orders with
    ⟨hopen, heq⟩ | ⟨hopen, e, heq⟩ <;> rw [forall_weighted_congr hshape, horders] at hopen
  swap
  · rw [heq, error_bind]
    exact ⟨nofun, fun h => absurd h.weights hopen⟩
  rw [heq, ok_bind]
  dsimp only
  rw [notifyAll_quiet]
  dsimp only
  rcases gives_addU64 checks s.candleId 1 with ⟨hid, heq⟩ | ⟨hid, e, heq⟩
  · rw [heq, ok_bind]
    refine ⟨fun _ => ⟨fun hc => ⟨?_, hid hc⟩, fun hc => ?_, hopen⟩, fun _ => ⟨_, rfl⟩⟩
    · rw [← hmod hc]
      exact hunlock hc
    · rw [← hmod hc]
      exact hexit hc
  · rw [heq, error_bind]
    exact ⟨nofun, fun h => absurd (fun hc => (h.numbers hc).2) hid⟩

/-- A call panics only at the candle it takes up. -/
theorem forwardChecked_ok_iff {checks : Bool} {cb : Callbacks F} {s : Session F} (hone : OnePerLevel s.orders) :
    (∃ o, forwardChecked checks pf cb.quiet s = .ok o) ↔
      ∀ candle, takesUp cb.quiet s = some candle → CandleSafe checks pf (rebuildDue cb.quiet s).1 candle := by
  have horders := (rebuildDue_frame cb.quiet s).1
  unfold forwardChecked takesUp
  dsimp only
  rcases hdue : rebuildDue cb.quiet s with ⟨s', sent, e | ⟨⟩⟩
  · exact ⟨fun _ candle h => (nomatch h), fun _ => ⟨_, rfl⟩⟩
  · rw [hdue] at horders
    dsimp only
    cases cb.quiet.fetch s.nextTs (Max.max s'.reviewAt s.nextTs) with
    | error e => exact ⟨fun _ candle h => (nomatch h), fun _ => ⟨_, rfl⟩⟩
    | ok candles =>
      dsimp only
      cases candles.find? (newer s') with
      | none => exact ⟨fun _ candle h => (nomatch h), fun _ => ⟨_, rfl⟩⟩
      | some candle =>
        dsimp only at horders ⊢
        rw [processCandleChecked_ok_iff (horders ▸ hone)]
        exact ⟨fun h candle' heq => Option.some.inj heq ▸ h, fun h => h candle rfl⟩

end Panics

end Opsense
