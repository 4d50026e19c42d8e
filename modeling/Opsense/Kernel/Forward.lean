import Opsense.Kernel.Order
import Opsense.Lib.Machine

/-!
# The kernel

`Portfolio::forward`: one call moves a `Session` by at most one candle. The strategy, the source of candles and the consumer
of events are callbacks; a call is a function of the session and of what the callbacks answer (`Callbacks`), as `forward`
asks for one review time, one plan and one batch of candles, and sends its events in order.

`plan` and `orders` leave the session while a candle is processed and come back at the end, so a call that fails in between
leaves the session without them (`takeOut`).
-/

namespace Opsense

/-- The state of one run. -/
structure Session (F : Type) where
  orders : List (Order F)
  history : List (Order F)
  plan : List (TradingGrid F)
  /-- The time of the next rebuild, 0 before the first. -/
  reviewAt : Nat
  /-- The number of candles processed. -/
  candleSeq : Nat
  /-- The number of candles processed since the last rebuild. -/
  candleId : Nat
  /-- The time of the last candle processed. -/
  candleTs : Int
  /-- The time the next candle is asked for from, 0 before the first. -/
  nextTs : Nat
deriving DecidableEq

/-- A session before its first candle. -/
def Session.new {F : Type} : Session F :=
  { orders := [], history := [], plan := [], reviewAt := 0, candleSeq := 0, candleId := 0, candleTs := 0, nextTs := 0 }

/-- The trait `Calendar`. -/
structure Calendar where
  next : Nat → String → Nat
  settlementCandles : Nat

/-- The parts of `Portfolio` and its configuration that `forward` reads. -/
structure Portfolio (F : Type) where
  fee : Fee F
  calendar : Calendar
  resolutionForTest : String
  settlementCandles : Nat
  minRr : F

/-- What the callbacks of one call of `forward` answer: the strategy's next review time and its plan (or error) for a time
and an old plan, the candles (or error) of a half-open range, and whether the `i`-th notification of the call succeeds. -/
structure Callbacks (F : Type) where
  params : Nat → F
  next : Nat → Nat
  rebuild : Nat → List (TradingGrid F) → Except String (List (TradingGrid F))
  fetch : Nat → Nat → Except String (List (CandleStick F))
  notify : Nat → OrderEvent F → Except String Unit

/-- What a call leaves: the session, what it returned, the events it sent (a failed one last), and the candle it took up. -/
structure Outcome (F : Type) where
  session : Session F
  result : Except String Bool
  sent : List (OrderEvent F)
  candle : Option (CandleStick F)

section Forward

variable {F : Type} [Scalar F]

omit [Scalar F] in
/-- Send events in order, from notification `i` of the call, up to the first that fails. -/
def notifyAll (notify : Nat → OrderEvent F → Except String Unit) :
    Nat → List (OrderEvent F) → List (OrderEvent F) × Except String Unit
  | _, [] => ([], .ok ())
  | i, event :: events =>
    match notify i event with
    | .error e => ([event], .error e)
    | .ok () => let r := notifyAll notify (i + 1) events; (event :: r.1, r.2)

/-- The settlement in candles: the configured one, or the market's. -/
def Portfolio.settlement (pf : Portfolio F) : Nat :=
  if pf.settlementCandles > 0 then pf.settlementCandles else pf.calendar.settlementCandles

/-- The first part of `forward`: rebuild the plan when the review is due. -/
def rebuildDue (cb : Callbacks F) (s : Session F) : Session F × List (OrderEvent F) × Except String Unit :=
  let current := s.nextTs
  if s.reviewAt ≤ current then
    match cb.rebuild current s.plan with
    | .error e => ({ s with reviewAt := cb.next current }, [], .error e)
    | .ok plan =>
      let s := { s with reviewAt := cb.next current, plan := plan }
      let event := OrderEvent.rebuilt current (plan.map (·.levels))
      match cb.notify 0 event with
      | .error e => (s, [event], .error e)
      | .ok () => ({ s with candleId := 0 }, [event], .ok ())
  else (s, [], .ok ())

/-- The candle a batch is searched for: the first one newer than the last candle processed. -/
def newer (s : Session F) (c : CandleStick F) : Bool := s.candleTs.toNat < asU64 c.t

/-- The session while a candle is processed: the exits are recorded, the plan and the open orders are out of it. -/
def takeOut (s : Session F) (x : Exits F) : Session F :=
  { s with candleSeq := s.candleSeq + 1, history := x.history, plan := [], orders := [] }

/-- What the orders of a candle are opened with. -/
def opening (pf : Portfolio F) (cb : Callbacks F) (s : Session F) (candle : CandleStick F) : Opening F where
  ts := candle.t.toNat
  id := s.candleId
  fee := pf.fee
  kellyFraction := cb.params 0
  baseCapital := cb.params 1
  -- the sum wraps
  unlockSeq := (s.candleSeq + 1 + pf.settlement) % 2 ^ 64
  minRr := pf.minRr

/-- The exits of a candle. -/
def exits (pf : Portfolio F) (s : Session F) (candle : CandleStick F) : Exits F :=
  exitOrders candle pf.fee (s.candleSeq + 1) s.orders s.plan s.history

/-- The last part of `forward`: close, open and announce on one candle. `sent` are the events sent so far. -/
def processCandle (pf : Portfolio F) (cb : Callbacks F) (s : Session F) (sent : List (OrderEvent F))
    (candle : CandleStick F) : Outcome F :=
  let x := exits pf s candle
  let taken := takeOut s x
  let closed := (x.history.drop s.history.length).map (OrderEvent.closed candle.t.toNat)
  match notifyAll cb.notify sent.length closed with
  | (sent₁, .error e) => ⟨taken, .error e, sent ++ sent₁, some candle⟩
  | (sent₁, .ok ()) =>
    let (orders, events) := openOrders (opening pf cb s candle) candle x.plan x.orders
    match notifyAll cb.notify (sent.length + sent₁.length) events with
    | (sent₂, .error e) => ⟨taken, .error e, sent ++ sent₁ ++ sent₂, some candle⟩
    | (sent₂, .ok ()) =>
      ⟨{ taken with
          plan := x.plan
          orders := orders
          candleId := s.candleId + 1
          candleTs := candle.t
          nextTs := pf.calendar.next candle.t.toNat pf.resolutionForTest },
        .ok true, sent ++ sent₁ ++ sent₂, some candle⟩

/-- One call of the kernel: rebuild if due, ask for the candles up to the next review, and process the first new one. Without
one the cursor moves on by the calendar. -/
def forward (pf : Portfolio F) (cb : Callbacks F) (s : Session F) : Outcome F :=
  let current := s.nextTs
  match rebuildDue cb s with
  | (s, sent, .error e) => ⟨s, .error e, sent, none⟩
  | (s, sent, .ok ()) =>
    match cb.fetch current (Max.max s.reviewAt current) with
    | .error e => ⟨s, .error e, sent, none⟩
    | .ok candles =>
      match candles.find? (newer s) with
      | none => ⟨{ s with nextTs := pf.calendar.next current pf.resolutionForTest }, .ok false, sent, none⟩
      | some candle => processCandle pf cb s sent candle

/-- The kernel as a machine: an action is what the callbacks of a call answer, its output the outcome of the call. -/
def kernel (pf : Portfolio F) : Machine (Session F) (Callbacks F) (Outcome F) where
  init := Session.new
  step s cb := ((forward pf cb s).session, forward pf cb s)

/-! ## What a call can do -/

/-- The candle a call takes up: its rebuild and its fetch succeed and bring one that is newer than the last. -/
def takesUp (cb : Callbacks F) (s : Session F) : Option (CandleStick F) :=
  match rebuildDue cb s with
  | (_, _, .error _) => none
  | (s', _, .ok ()) =>
    match cb.fetch s.nextTs (Max.max s'.reviewAt s.nextTs) with
    | .error _ => none
    | .ok candles => candles.find? (newer s')

omit [Scalar F] in
/-- What a rebuild writes: the review time always, the plan when there is one, the candle number when it was announced. -/
theorem rebuildDue_cases (cb : Callbacks F) (s : Session F) :
    (s.nextTs < s.reviewAt ∧ rebuildDue cb s = (s, [], .ok ())) ∨
    (s.reviewAt ≤ s.nextTs ∧ ∃ e, cb.rebuild s.nextTs s.plan = .error e ∧
      rebuildDue cb s = ({ s with reviewAt := cb.next s.nextTs }, [], .error e)) ∨
    (s.reviewAt ≤ s.nextTs ∧ ∃ plan, cb.rebuild s.nextTs s.plan = .ok plan ∧
      ((∃ e, cb.notify 0 (.rebuilt s.nextTs (plan.map (·.levels))) = .error e ∧
        rebuildDue cb s = ({ s with reviewAt := cb.next s.nextTs, plan := plan },
          [.rebuilt s.nextTs (plan.map (·.levels))], .error e)) ∨
      (cb.notify 0 (.rebuilt s.nextTs (plan.map (·.levels))) = .ok () ∧
        rebuildDue cb s = ({ s with reviewAt := cb.next s.nextTs, plan := plan, candleId := 0 },
          [.rebuilt s.nextTs (plan.map (·.levels))], .ok ())))) := by
  unfold rebuildDue
  by_cases hdue : s.reviewAt ≤ s.nextTs
  · rw [if_pos hdue]
    cases hr : cb.rebuild s.nextTs s.plan with
    | error e => exact Or.inr (Or.inl ⟨hdue, e, rfl, rfl⟩)
    | ok plan =>
      refine Or.inr (Or.inr ⟨hdue, plan, rfl, ?_⟩)
      simp only
      cases hn : cb.notify 0 (.rebuilt s.nextTs (plan.map (·.levels))) with
      | error e => exact Or.inl ⟨e, rfl, rfl⟩
      | ok u => exact Or.inr ⟨rfl, rfl⟩
  · rw [if_neg hdue]
    exact Or.inl ⟨by omega, rfl⟩

omit [Scalar F] in
/-- A rebuild leaves the orders, the history and the cursor alone. -/
theorem rebuildDue_frame (cb : Callbacks F) (s : Session F) :
    (rebuildDue cb s).1.orders = s.orders ∧ (rebuildDue cb s).1.history = s.history ∧
    (rebuildDue cb s).1.candleSeq = s.candleSeq ∧ (rebuildDue cb s).1.candleTs = s.candleTs ∧
    (rebuildDue cb s).1.nextTs = s.nextTs := by
  rcases rebuildDue_cases cb s with ⟨-, h⟩ | ⟨-, e, -, h⟩ | ⟨-, plan, -, ⟨e, -, h⟩ | ⟨-, h⟩⟩ <;> rw [h] <;>
    exact ⟨rfl, rfl, rfl, rfl, rfl⟩

/-- A call ends without a candle, or processes the one it took up. -/
theorem forward_cases (pf : Portfolio F) (cb : Callbacks F) (s : Session F) :
    (takesUp cb s = none ∧ (forward pf cb s).candle = none ∧ (forward pf cb s).sent = (rebuildDue cb s).2.1 ∧
      (((∃ e, (forward pf cb s).result = .error e ∧ ((rebuildDue cb s).2.2 = .error e ∨ (rebuildDue cb s).2.2 = .ok () ∧
          cb.fetch s.nextTs (Max.max (rebuildDue cb s).1.reviewAt s.nextTs) = .error e)) ∧
        (forward pf cb s).session = (rebuildDue cb s).1) ∨
      ((rebuildDue cb s).2.2 = .ok () ∧ (forward pf cb s).result = .ok false ∧
        (∃ candles, cb.fetch s.nextTs (Max.max (rebuildDue cb s).1.reviewAt s.nextTs) = .ok candles ∧
          candles.find? (newer (rebuildDue cb s).1) = none) ∧
        (forward pf cb s).session =
          { (rebuildDue cb s).1 with nextTs := pf.calendar.next s.nextTs pf.resolutionForTest }))) ∨
    (∃ candle candles, takesUp cb s = some candle ∧ (rebuildDue cb s).2.2 = .ok () ∧
      cb.fetch s.nextTs (Max.max (rebuildDue cb s).1.reviewAt s.nextTs) = .ok candles ∧
      candles.find? (newer (rebuildDue cb s).1) = some candle ∧
      forward pf cb s = processCandle pf cb (rebuildDue cb s).1 (rebuildDue cb s).2.1 candle) := by
  unfold forward takesUp
  dsimp only
  rcases rebuildDue cb s with ⟨s', sent, e | ⟨⟩⟩
  · exact Or.inl ⟨rfl, rfl, rfl, Or.inl ⟨⟨e, rfl, Or.inl rfl⟩, rfl⟩⟩
  · dsimp only
    cases hf : cb.fetch s.nextTs (Max.max s'.reviewAt s.nextTs) with
    | error e => exact Or.inl ⟨rfl, rfl, rfl, Or.inl ⟨⟨e, rfl, Or.inr ⟨rfl, rfl⟩⟩, rfl⟩⟩
    | ok candles =>
      dsimp only
      cases hc : candles.find? (newer s') with
      | none => exact Or.inl ⟨rfl, rfl, rfl, Or.inr ⟨rfl, rfl, ⟨candles, rfl, hc⟩, rfl⟩⟩
      | some candle => exact Or.inr ⟨candle, candles, rfl, rfl, rfl, hc, rfl⟩

/-- The events a candle announces: the closed orders, then the placed and the rejected ones. -/
def announcements (pf : Portfolio F) (cb : Callbacks F) (s : Session F) (candle : CandleStick F) : List (OrderEvent F) :=
  (s.orders.filterMap (leaves candle pf.fee (s.candleSeq + 1))).map (OrderEvent.closed candle.t.toNat) ++
    (openOrders (opening pf cb s candle) candle (exits pf s candle).plan (exits pf s candle).orders).2

omit [Scalar F] in
theorem notifyAll_cons (notify : Nat → OrderEvent F → Except String Unit) (i : Nat) (event : OrderEvent F)
    (events : List (OrderEvent F)) : notifyAll notify i (event :: events) =
      match notify i event with
      | .error e => ([event], .error e)
      | .ok () => (event :: (notifyAll notify (i + 1) events).1, (notifyAll notify (i + 1) events).2) := rfl

omit [Scalar F] in
/-- When no event is refused, all are sent. -/
theorem notifyAll_ok {notify : Nat → OrderEvent F → Except String Unit} :
    ∀ {events : List (OrderEvent F)} {i : Nat} {sent : List (OrderEvent F)},
      notifyAll notify i events = (sent, .ok ()) → sent = events
  | [], _, _, h => (Prod.mk.inj h).1.symm
  | event :: events, i, sent, h => by
    rw [notifyAll_cons] at h
    cases hn : notify i event with
    | error e => rw [hn] at h; nomatch h
    | ok u =>
      rw [hn] at h
      obtain ⟨hsent, hok⟩ := Prod.mk.inj h
      have hrest : (notifyAll notify (i + 1) events).1 = events := notifyAll_ok (Prod.ext rfl hok)
      rw [← hsent, hrest]

omit [Scalar F] in
/-- Sending fails when one of the events is refused. -/
theorem notifyAll_error_iff {notify : Nat → OrderEvent F → Except String Unit} :
    ∀ {events : List (OrderEvent F)} {i : Nat}, (∃ e, (notifyAll notify i events).2 = .error e) ↔
      ∃ k event e, events[k]? = some event ∧ notify (i + k) event = .error e
  | [], i => by simp [notifyAll]
  | event :: events, i => by
    rw [notifyAll_cons]
    cases hn : notify i event with
    | error e => exact ⟨fun _ => ⟨0, event, e, rfl, hn⟩, fun _ => ⟨e, rfl⟩⟩
    | ok u =>
      simp only
      rw [notifyAll_error_iff]
      constructor
      · rintro ⟨k, ev, e, hk, he⟩
        exact ⟨k + 1, ev, e, hk, by rwa [← Nat.add_assoc, Nat.add_right_comm]⟩
      · rintro ⟨k, ev, e, hk, he⟩
        rcases k with _ | k
        · obtain rfl := Option.some.inj hk
          rw [Nat.add_zero, hn] at he
          nomatch he
        · exact ⟨k, ev, e, hk, by rwa [Nat.add_right_comm, Nat.add_assoc]⟩

omit [Scalar F] in
theorem notifyAll_append (notify : Nat → OrderEvent F → Except String Unit) (events' : List (OrderEvent F)) :
    ∀ (events : List (OrderEvent F)) (i : Nat), (notifyAll notify i (events ++ events')).2 =
      match (notifyAll notify i events).2 with
      | .error e => .error e
      | .ok () => (notifyAll notify (i + events.length) events').2
  | [], i => rfl
  | event :: events, i => by
    rw [List.cons_append, notifyAll_cons, notifyAll_cons]
    cases hn : notify i event with
    | error e => rfl
    | ok u =>
      simp only
      rw [notifyAll_append notify events' events (i + 1), List.length_cons, Nat.add_right_comm, Nat.add_assoc]

/-- The history a candle leaves. -/
theorem exits_history (pf : Portfolio F) (s : Session F) (candle : CandleStick F) :
    (exits pf s candle).history = s.history ++ s.orders.filterMap (leaves candle pf.fee (s.candleSeq + 1)) :=
  (exitOrders_spec _ _ _ _ _ _).2.1

/-- The orders a candle does not close. -/
theorem exits_orders (pf : Portfolio F) (s : Session F) (candle : CandleStick F) :
    (exits pf s candle).orders = s.orders.filter fun o => (leaves candle pf.fee (s.candleSeq + 1) o).isNone :=
  (exitOrders_spec _ _ _ _ _ _).1

/-- A candle ends in an error when one of its events is refused, with the session as it was taken out, and else in the whole
of the step. -/
theorem processCandle_cases (pf : Portfolio F) (cb : Callbacks F) (s : Session F) (sent : List (OrderEvent F))
    (candle : CandleStick F) :
    ((∃ e, (notifyAll cb.notify sent.length (announcements pf cb s candle)).2 = .error e ∧
      (processCandle pf cb s sent candle).result = .error e) ∧
      (processCandle pf cb s sent candle).session = takeOut s (exits pf s candle)) ∨
    ((notifyAll cb.notify sent.length (announcements pf cb s candle)).2 = .ok () ∧
      processCandle pf cb s sent candle =
      ⟨{ takeOut s (exits pf s candle) with
          plan := (exits pf s candle).plan
          orders := (openOrders (opening pf cb s candle) candle (exits pf s candle).plan (exits pf s candle).orders).1
          candleId := s.candleId + 1
          candleTs := candle.t
          nextTs := pf.calendar.next candle.t.toNat pf.resolutionForTest },
        .ok true, sent ++ announcements pf cb s candle, some candle⟩) := by
  unfold announcements processCandle
  simp only [exits_history, List.drop_left, notifyAll_append]
  set closed := (s.orders.filterMap (leaves candle pf.fee (s.candleSeq + 1))).map (OrderEvent.closed candle.t.toNat)
  cases hc : notifyAll cb.notify sent.length closed with
  | mk sent₁ r₁ =>
    rcases r₁ with e | ⟨⟩
    · exact Or.inl ⟨⟨e, rfl, rfl⟩, rfl⟩
    · rw [notifyAll_ok hc]
      simp only
      cases ho : notifyAll cb.notify (sent.length + closed.length) (openOrders (opening pf cb s candle) candle
          (exits pf s candle).plan (exits pf s candle).orders).2 with
      | mk sent₂ r₂ =>
        rcases r₂ with e | ⟨⟩
        · exact Or.inl ⟨⟨e, rfl, rfl⟩, rfl⟩
        · exact Or.inr ⟨rfl, by simp [notifyAll_ok ho]⟩

end Forward

/-! ## A small market -/

/-- Three levels that mostly win. -/
def threeLevels : TradingGrid ℚ where
  levels := [100, 150, 200]
  slPct := 0.1
  maxCandles := 0
  weights := [[1], [1], [1]]
  longWinP := [0.9, 0.9, 0.9]
  shortWinP := [0.9, 0.9, 0.9]
  orderLongWinCnt := [0, 0, 0]
  orderLongLostCnt := [0, 0, 0]
  orderShortWinCnt := [0, 0, 0]
  orderShortLostCnt := [0, 0, 0]
  two_le := by decide
  weights_length := by decide
  counts_length := by decide

/-- A portfolio without fees on a market of one-minute candles. -/
def minutePortfolio : Portfolio ℚ where
  fee := .ofRate 0
  calendar := { next := fun t _ => t + 60, settlementCandles := 0 }
  resolutionForTest := "1m"
  settlementCandles := 0
  minRr := 0

/-- A candle that opens at its low and closes at its high. -/
def minuteCandle (t : Int) (l h : ℚ) : CandleStick ℚ := { t, o := l, h, l, c := h, v := 1 }

/-- Callbacks that rebuild to `threeLevels`, know the given candles and refuse no event. -/
def quietCallbacks (candles : List (CandleStick ℚ)) : Callbacks ℚ where
  params _ := 1
  next t := t + 600
  rebuild _ _ := .ok [threeLevels]
  fetch _ _ := .ok candles
  notify _ _ := .ok ()

end Opsense
