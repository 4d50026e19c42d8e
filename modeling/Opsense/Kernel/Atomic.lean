import Opsense.Kernel.Forward

/-!
# Failed calls of the kernel

What a call of `forward` that returns an error leaves of the open orders and of the plan. A failed rebuild, a failed fetch and
a refused `Rebuilt` event leave both where they were. A refused `Closed`, `Placed` or `Rejected` event ends the call while the
plan and the orders are out of the session, and drops them.
-/

namespace Opsense

section Atomic

variable {F : Type} [Scalar F]

/-- The order is in the history, with the outcome it left with. -/
def Recorded (o : Order F) (history : List (Order F)) : Prop := ∃ p q, o.withOutcome p q ∈ history

/-- What a failed call should keep: each order that was open is still open or recorded, and the session still has a plan when
the plan in force at the failing step was not empty. -/
structure Keeps (cb : Callbacks F) (s s' : Session F) : Prop where
  orders : ∀ o ∈ s.orders, o ∈ s'.orders ∨ Recorded o s'.history
  plan : (rebuildDue cb s).1.plan ≠ [] → s'.plan ≠ []

/-- The consumer refuses one of the events a candle announces. -/
def Refused (pf : Portfolio F) (cb : Callbacks F) (s : Session F) (candle : CandleStick F) : Prop :=
  ∃ k event e, (announcements pf cb (rebuildDue cb s).1 candle)[k]? = some event ∧
    cb.notify ((rebuildDue cb s).2.1.length + k) event = .error e

/-- An order leaves no matter what outcome is written on it. -/
theorem leaves_isSome_of_placedAs {candle : CandleStick F} {fee : Fee F} {current_seq : Nat} {o o' : Order F}
    (h : o.placedAs = o'.placedAs) :
    (leaves candle fee current_seq o).isSome = (leaves candle fee current_seq o').isSome := by
  have hexit : ∀ x : Order F, checkOrderExit x candle fee current_seq = checkOrderExit x.placedAs candle fee current_seq :=
    fun _ => rfl
  unfold leaves
  rw [Option.isSome_map, Option.isSome_map, hexit o, hexit o', h]

/-- After the exits of a candle an order is recorded when it was before, or when it leaves on the candle. -/
theorem recorded_exits (pf : Portfolio F) (s : Session F) (candle : CandleStick F) {o : Order F} (ho : o ∈ s.orders) :
    Recorded o (exits pf s candle).history ↔
      (leaves candle pf.fee (s.candleSeq + 1) o).isSome = true ∨ Recorded o s.history := by
  rw [exits_history]
  constructor
  · rintro ⟨p, q, hmem⟩
    rcases List.mem_append.mp hmem with hold | hnew
    · exact Or.inr ⟨p, q, hold⟩
    · obtain ⟨o', -, hleave⟩ := List.mem_filterMap.mp hnew
      obtain ⟨r, -, heq⟩ := Option.map_eq_some_iff.mp hleave
      have hplaced : o.placedAs = o'.placedAs := (congrArg Order.placedAs heq).symm
      refine Or.inl ?_
      rw [leaves_isSome_of_placedAs hplaced, hleave]
      rfl
  · rintro (hleave | ⟨p, q, hmem⟩)
    · obtain ⟨o', ho'⟩ := Option.isSome_iff_exists.mp hleave
      obtain ⟨r, -, heq⟩ := Option.map_eq_some_iff.mp ho'
      refine ⟨r.1, r.2, List.mem_append_right _ (List.mem_filterMap.mpr ⟨o, ho, ?_⟩)⟩
      rw [ho', heq]
    · exact ⟨p, q, List.mem_append_left _ hmem⟩

omit [Scalar F] in
/-- A session that has its orders, its history and its plan keeps them. -/
theorem keeps_rebuildDue (cb : Callbacks F) (s : Session F) : Keeps cb s (rebuildDue cb s).1 := by
  obtain ⟨horders, -⟩ := rebuildDue_frame cb s
  refine ⟨fun o ho => Or.inl ?_, fun h => h⟩
  rw [horders]
  exact ho

/-- A session that was taken out keeps what it should when there was no plan, and every order leaves or was recorded. -/
theorem keeps_takeOut (pf : Portfolio F) (cb : Callbacks F) (s : Session F) (candle : CandleStick F) :
    Keeps cb s (takeOut (rebuildDue cb s).1 (exits pf (rebuildDue cb s).1 candle)) ↔
      (rebuildDue cb s).1.plan = [] ∧
      ∀ o ∈ s.orders, (leaves candle pf.fee (s.candleSeq + 1) o).isSome = true ∨ Recorded o s.history := by
  obtain ⟨horders, hhistory, hseq, -⟩ := rebuildDue_frame cb s
  have hrec : ∀ o ∈ s.orders, (Recorded o (exits pf (rebuildDue cb s).1 candle).history ↔
      (leaves candle pf.fee (s.candleSeq + 1) o).isSome = true ∨ Recorded o s.history) := by
    intro o ho
    rw [recorded_exits pf _ candle (horders ▸ ho), hseq, hhistory]
  constructor
  · intro hkeeps
    refine ⟨?_, fun o ho => ?_⟩
    · rcases hplan : (rebuildDue cb s).1.plan with _ | ⟨g, gs⟩
      · rfl
      · exact absurd rfl (hkeeps.plan (by rw [hplan]; exact List.cons_ne_nil _ _))
    · rcases hkeeps.orders o ho with hopen | hrecorded
      · nomatch hopen
      · exact (hrec o ho).mp hrecorded
  · rintro ⟨hplan, hall⟩
    exact ⟨fun o ho => Or.inr ((hrec o ho).mpr (hall o ho)), fun h => absurd hplan h⟩

/-- A call keeps what it should when it fails, exactly when the events of a candle are not refused while there is something to
lose: a plan, or an order that neither leaves on the candle nor is recorded. -/
theorem forward_keeps_iff (pf : Portfolio F) (cb : Callbacks F) (s : Session F) :
    ((∃ e, (forward pf cb s).result = .error e) → Keeps cb s (forward pf cb s).session) ↔
      ∀ candle, takesUp cb s = some candle → Refused pf cb s candle →
        (rebuildDue cb s).1.plan = [] ∧
        ∀ o ∈ s.orders, (leaves candle pf.fee (s.candleSeq + 1) o).isSome = true ∨ Recorded o s.history := by
  rcases forward_cases pf cb s with ⟨hnone, -, -, ⟨-, hsession⟩ | ⟨-, hresult, -⟩⟩ | ⟨candle, candles, htake, -, -, -, heq⟩
  · rw [hnone, hsession]
    exact ⟨fun _ _ h => (nomatch h), fun _ _ => keeps_rebuildDue cb s⟩
  · rw [hnone, hresult]
    exact ⟨fun _ _ h => (nomatch h), fun _ h => (nomatch h.choose_spec)⟩
  · have hrefused : (∃ e, (notifyAll cb.notify (rebuildDue cb s).2.1.length
        (announcements pf cb (rebuildDue cb s).1 candle)).2 = .error e) ↔ Refused pf cb s candle := notifyAll_error_iff
    rw [heq, htake]
    rcases processCandle_cases pf cb (rebuildDue cb s).1 (rebuildDue cb s).2.1 candle with
      ⟨⟨e, herror, hresult⟩, hsession⟩ | ⟨hok, hdone⟩
    · rw [hsession, hresult, keeps_takeOut]
      constructor
      · intro h candle' hcandle _
        obtain rfl := Option.some.inj hcandle
        exact h ⟨e, rfl⟩
      · intro h _
        exact h candle rfl (hrefused.mp ⟨e, herror⟩)
    · rw [hdone]
      refine ⟨fun _ candle' hcandle href => ?_, fun _ h => (nomatch h.choose_spec)⟩
      obtain rfl := Option.some.inj hcandle
      obtain ⟨e, he⟩ := hrefused.mpr href
      rw [hok] at he
      nomatch he

end Atomic

/-! ## A refused event that drops a position -/

/-- A session with the grid in force and a long order open at its lowest level. -/
def openSession : Session ℚ :=
  { Session.new with
    orders := [{ dtype := .long, entryPrice := 100, size := 1, slPrice := 90, tpPrice := 200, gridIndex := 0,
                 levelIndex := 0, pnlPct := none, exitPrice := none, unlockSeq := 0 }]
    plan := [threeLevels]
    reviewAt := 600
    candleSeq := 1
    candleTs := 60
    nextTs := 120 }

/-- The next candle reaches the middle level but not the take-profit, and the consumer refuses every event. -/
def refusingCallbacks : Callbacks ℚ where
  params _ := 1
  next t := t + 600
  rebuild _ plan := .ok plan
  fetch _ _ := .ok [minuteCandle 120 110 160]
  notify _ _ := .error "queue closed"

/-- The refused event is the order placed at the middle level; the open order does not leave on the candle, but it and the grid
are gone from the session. -/
theorem refused_event_drops_orders :
    ¬((∃ e, (forward minutePortfolio refusingCallbacks openSession).result = .error e) →
      Keeps refusingCallbacks openSession (forward minutePortfolio refusingCallbacks openSession).session) := by
  have hresult : (forward minutePortfolio refusingCallbacks openSession).result = .error "queue closed" := by
    decide +kernel
  have hsession : (forward minutePortfolio refusingCallbacks openSession).session.orders = [] ∧
      (forward minutePortfolio refusingCallbacks openSession).session.history = [] := by decide +kernel
  intro h
  rcases (h ⟨_, hresult⟩).orders _ (List.mem_singleton_self _) with hopen | ⟨p, q, hrecorded⟩
  · rw [hsession.1] at hopen
    nomatch hopen
  · rw [hsession.2] at hrecorded
    nomatch hrecorded

end Opsense
