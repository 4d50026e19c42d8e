import Opsense.Kernel.Recovery

/-!
# What a recovered session survives

The next call of the kernel on a session from the station. It panics at an empty row of weights, which no check of a plan row looks for,
and, with overflow checks, where a number of the rows is at the end of its type; and a review that an unreadable plan forces is put off by
a cursor that comes after the plan (`robust_iff`).
-/

namespace Opsense

namespace Recovery

open Partial

section Robust

variable {F : Type} [Scalar F]

/-- A plan row that cannot be read is newer than every one that can. -/
def NewestUnreadable (rd : Reading F) (obs : List Observation) : Prop :=
  ∃ o ∈ obs, Unreadable rd o ∧ ∀ o' ∈ obs, IsPlan o' → (planOf rd o').isSome → o'.ts < o.ts

/-- The rows give a session that the next call does not panic on, at whose time the review is due where the newest plan cannot be read.
The call is that of `feed`, at the time of its candle and with a consumer that takes every event. -/
def Robust (checks : Bool) (rd : Reading F) (entries : HashOrder F) (pf : Portfolio F) (cb : Callbacks F) (now : Nat)
    (obs : List Observation) : Prop :=
  ∃ st, fromObservations checks rd entries obs = .ok st ∧
    (∃ o, forwardChecked checks pf cb.quiet { st.session with nextTs := now } = .ok o) ∧
    (NewestUnreadable rd obs → st.session.reviewAt ≤ now)

/-- The session that the rows say, at the time of a candle. -/
def before (rd : Reading F) (entries : HashOrder F) (now : Nat) (obs : List Observation) : Session F :=
  { recovered rd entries obs with nextTs := now }

/-- Of plan rows, no cell asks for more candles than a list can have. With overflow checks there are ids for the order rows. The candle
that the call takes up, after a rebuild if the review is due, finds a weight in each row that it reads, and with overflow checks room in
the numbers and counters. Where the newest plan cannot be read, no cursor since the last such plan puts the review off. -/
structure Safe (checks : Bool) (rd : Reading F) (entries : HashOrder F) (pf : Portfolio F) (cb : Callbacks F) (now : Nat)
    (obs : List Observation) : Prop where
  cells : ∀ o ∈ obs, IsPlan o → CellsFit rd o
  ids : checks = true → IdsFit 1 obs
  candle : ∀ candle, takesUp cb.quiet (before rd entries now obs) = some candle →
    CandleSafe checks pf (rebuildDue cb.quiet (before rd entries now obs)).1 candle
  review : NewestUnreadable rd obs → ∀ o ∈ sinceUnreadable rd obs, IsCursor o → parseLabel o "next_review" ≤ now

/-- Rows are recovered from robustly exactly where they are safe. -/
theorem robust_iff (checks : Bool) (rd : Reading F) (entries : HashOrder F) (pf : Portfolio F) (cb : Callbacks F) (now : Nat)
    (obs : List Observation) : Robust checks rd entries pf cb now obs ↔ Safe checks rd entries pf cb now obs := by
  have hgives := gives_fromObservations checks rd entries obs
  have hsession := session_state rd entries obs
  have hstep : (∃ o, forwardChecked checks pf cb.quiet (before rd entries now obs) = .ok o) ↔
      ∀ candle, takesUp cb.quiet (before rd entries now obs) = some candle →
        CandleSafe checks pf (rebuildDue cb.quiet (before rd entries now obs)).1 candle :=
    forwardChecked_ok_iff (recovered_onePerLevel rd entries obs)
  have hreview : (recovered rd entries obs).reviewAt ≤ now ↔
      ∀ o ∈ sinceUnreadable rd obs, IsCursor o → parseLabel o "next_review" ≤ now :=
    greatest_le.trans (and_iff_right (Nat.zero_le now))
  constructor
  · rintro ⟨st, hst, hcall, hdue⟩
    obtain ⟨hcells, hids⟩ := hgives.exists_iff.mp ⟨st, hst⟩
    rw [hgives.eq hst, hsession] at hcall hdue
    exact ⟨hcells, hids, hstep.mp hcall, fun h => hreview.mp (hdue h)⟩
  · intro h
    refine ⟨_, hgives.eq_ok ⟨h.cells, h.ids⟩, ?_, ?_⟩
    · rw [hsession]
      exact hstep.mpr h.candle
    · rw [hsession]
      exact fun hnewest => hreview.mpr (h.review hnewest)

end Robust

/-! ## A review that is put off -/

/-- A plan row whose text is cut off. -/
def cutOff : Observation :=
  ⟨100, "BTCUSDT", .metric, .summary, 0, ⟨[("cells", "["), ("kind", "plan")], by decide⟩, none⟩

/-- The cursor of the same candle. -/
def cursorAfter : Observation :=
  ⟨100, "BTCUSDT", .metric, .summary, 0,
    ⟨[("candle_id", "0"), ("candle_seq", "1"), ("kind", "trading_step"), ("next_review", "1000")], by decide⟩, none⟩

/-- The text is not JSON, and nothing else is read. -/
def readNothing : Reading Double := ⟨fun _ => .fin 0, fun _ => none, fun _ => 0, fun _ => none⟩

/-- A calendar of minutes without a fee. -/
def plain : Portfolio Double := ⟨.ofRate (.fin 0), ⟨fun t _ => t + 60, 0⟩, "1m", 0, .fin 0⟩

/-- Answers without a candle. -/
def silent : Callbacks Double := ⟨fun _ => .fin 0, fun t => t + 900, fun _ _ => .ok [], fun _ _ => .ok [], fun _ _ => .ok ()⟩

theorem reviewAt_cursorAfter : parseLabel cursorAfter "next_review" = 1000 := by
  have hget : cursorAfter.labels.get "next_review" = some "1000" := by decide
  have hdigits : "1000".toList = Nat.toDigits 10 1000 := by decide
  rw [parseLabel, hget, Option.bind_some, hdigits, parseU64_toDigits (by decide), Option.getD_some]

variable {o : Observation}

/-- A cursor that comes last decides the review after a plan row. -/
theorem reviewAt_recovered {F : Type} [Scalar F] (rd : Reading F) (entries : HashOrder F) (ho : IsPlan o) :
    (recovered rd entries [o, cursorAfter]).reviewAt = 1000 := by
  have hcursor : IsCursor cursorAfter := by decide
  change greatest 0 (parseLabel · "next_review") (sinceUnreadable rd ([o] ++ [cursorAfter])) = 1000
  rw [sinceUnreadable_snoc, if_neg fun h => h.1.not_cursor hcursor, greatest_snoc, if_pos hcursor, reviewAt_cursorAfter]
  have hnone : greatest 0 (parseLabel · "next_review") (sinceUnreadable rd [o]) = 0 := by
    change greatest 0 (parseLabel · "next_review") (sinceUnreadable rd ([] ++ [o])) = 0
    rw [sinceUnreadable_snoc]
    split_ifs
    · rfl
    · rw [greatest_snoc, if_neg ho.not_cursor]
      rfl
  rw [hnone]
  rfl

/-- Where the only plan cannot be read, the cursor that was written with it puts the review off. -/
theorem review_put_off (entries : HashOrder Double) :
    ¬Robust false readNothing entries plain silent 160 [cutOff, cursorAfter] := by
  rintro ⟨st, hst, -, hdue⟩
  have hnewest : NewestUnreadable readNothing [cutOff, cursorAfter] := by
    refine ⟨cutOff, by simp, by decide, fun o ho hplan hread => ?_⟩
    have hnone : planOf readNothing o = none := by
      rw [planOf, Option.bind_eq_none_iff]
      intro cells hcells
      obtain ⟨text, -, htext⟩ := Option.bind_eq_some_iff.mp hcells
      cases htext
    rw [hnone] at hread
    cases hread
  have hreview := hdue hnewest
  rw [(gives_fromObservations _ _ _ _).eq hst, session_state, reviewAt_recovered _ _ (by decide)] at hreview
  exact absurd hreview (by decide)

/-! ## A row without a weight -/

/-- Two levels with an empty row of weights each. -/
def emptyRows : PlanCell Double := PlanCell.ofWeights (TradingGrid.fillDefaults [.fin 100, .fin 110] le_rfl) [[], []]

/-- The text of these. -/
def emptyText : String :=
  "[\x7b\"levels\":[100.0,110.0],\"sl_pct\":0.05,\"max_candles\":0,\"weights\":[[],[]],\"long_win_p\":[0.5,0.5]," ++
    "\"short_win_p\":[0.5,0.5],\"long_win_cnt\":[0,0],\"long_lost_cnt\":[0,0],\"short_win_cnt\":[0,0],\"short_lost_cnt\":[0,0]\x7d]"

def emptyPlan : Observation :=
  ⟨100, "BTCUSDT", .metric, .summary, 0, ⟨[("cells", emptyText), ("kind", "plan")], by decide⟩, none⟩

def readEmpty : Reading Double := { readNothing with cells := fun text => if text = emptyText then some [emptyRows] else none }

/-- A candle that touches both levels. -/
def touching : CandleStick Double := ⟨160, .fin 105, .fin 112, .fin 95, .fin 105, .fin 1⟩

def bringing : Callbacks Double := { silent with fetch := fun _ _ => .ok [touching] }

/-- The plan is read, with its empty rows. -/
theorem emptyPlan_read :
    ∃ grid : TradingGrid Double, planOf readEmpty emptyPlan = some [grid] ∧ grid.shape = ([.fin 100, .fin 110], [[], []]) := by
  have hlength : ([[], []] : List (List Double)).length = (TradingGrid.fillDefaults [Double.fin 100, .fin 110] le_rfl).numLevels := rfl
  obtain ⟨grid, hgrid, hlevels, -, -, hweights, -⟩ := PlanCell.toGrid_ofWeights hlength
  have hsorted : TradingGrid.sorted [Double.fin 100, .fin 110] = [.fin 100, .fin 110] :=
    (TradingGrid.sorted_eq_iff (by decide)).mpr (by decide +kernel)
  refine ⟨grid, ?_, Prod.ext (hlevels.trans hsorted) hweights⟩
  have hcells : (emptyPlan.labels.get "cells").bind readEmpty.cells = some [emptyRows] := by
    simp [Labels.get, emptyPlan, readEmpty]
  have hmap : [emptyRows].filterMap PlanCell.toGrid = [grid] := List.filterMap_cons_some hgrid
  rw [planOf, hcells, Option.bind_some, hmap]
  rfl

/-- A plan that is followed by a cursor of its candle is the one in force. -/
theorem plan_recovered {F : Type} [Scalar F] {rd : Reading F} (entries : HashOrder F) (ho : IsPlan o) {grids : List (TradingGrid F)}
    (hread : planOf rd o = some grids) :
    (recovered rd entries [o, cursorAfter]).plan = grids := by
  have hcursor : IsCursor cursorAfter := by decide
  have hfirst : ¬Unreadable rd o := fun h => by
    rw [Unreadable, hread] at h
    cases h.2
  have hsince : sinceUnreadable rd ([] ++ [o] ++ [cursorAfter]) = [o] ++ [cursorAfter] := by
    rw [sinceUnreadable_snoc, if_neg fun h => h.1.not_cursor hcursor, sinceUnreadable_snoc, if_neg hfirst]
    rfl
  have hnewest : Log.newest Observation.ts [o] = some o := rfl
  change ((Log.newest Observation.ts ((sinceUnreadable rd ([] ++ [o] ++ [cursorAfter])).filter IsPlan)).bind (planOf rd)).getD [] = grids
  rw [hsince, List.filter_append, List.filter_cons_of_pos (by simpa using ho), List.filter_cons_of_neg (by decide), List.filter_nil,
    List.append_nil, hnewest, Option.bind_some, hread, Option.getD_some]

/-- The last candle is that of the cursor. -/
theorem candleTs_recovered {F : Type} [Scalar F] (rd : Reading F) (entries : HashOrder F) (ho : IsPlan o) :
    (recovered rd entries [o, cursorAfter]).candleTs = 100 := by
  have hcursor : IsCursor cursorAfter := by decide
  change greatest 0 Observation.ts ([] ++ [o] ++ [cursorAfter]) = 100
  rw [greatest_snoc, if_pos hcursor, greatest_snoc, if_neg ho.not_cursor]
  rfl

/-- Without order rows there are no orders. -/
theorem orders_recovered {F : Type} [Scalar F] (rd : Reading F) (entries : HashOrder F) (ho : IsPlan o) :
    (recovered rd entries [o, cursorAfter]).orders = [] := by
  have hrows : orderRows rd 1 [o, cursorAfter] = [] := by
    rw [orderRows, if_neg ho.not_order, orderRows, if_neg (by decide), orderRows]
  have hempty : entries.list (openedBy ∅ []).entries = [] := by
    rw [← Multiset.coe_eq_zero, entries.coe_list]
    rfl
  unfold recovered
  dsimp only
  rw [hrows, hempty]
  rfl

theorem touches_first {grid : TradingGrid Double} (h : grid.levels = [.fin 100, .fin 110]) : Touches touching grid 0 := by
  unfold Touches TradingGrid.min TradingGrid.max
  simp only [h, List.head_cons, List.getLast_cons_cons, List.getLast_singleton]
  decide +kernel

/-- A session of a plan with such rows, and without orders, takes the candle up and panics at it. -/
theorem call_panics {s : Session Double} {grid : TradingGrid Double} (hplan : s.plan = [grid]) (horders : s.orders = [])
    (hshape : grid.shape = ([.fin 100, .fin 110], [[], []])) (hreview : s.reviewAt = 1000) (hts : s.candleTs = 100) :
    ¬∃ o, forwardChecked false plain bringing.quiet { s with nextTs := 160 } = .ok o := by
  intro hcall
  have hdue : rebuildDue bringing.quiet { s with nextTs := 160 } = ({ s with nextTs := 160 }, [], .ok ()) :=
    if_neg (by
      dsimp only
      rw [hreview]
      decide)
  have htake : takesUp bringing.quiet { s with nextTs := 160 } = some touching := by
    unfold takesUp
    rw [hdue]
    dsimp only
    change [touching].find? _ = some touching
    rw [List.find?_cons_of_pos]
    unfold newer
    dsimp only
    rw [hts, asU64_of_nonneg (by decide) (by decide)]
    decide
  have hsafe := (forwardChecked_ok_iff (by rw [OnePerLevel, horders]; exact List.nodup_nil)).mp hcall touching htake
  rw [hdue] at hsafe
  obtain ⟨hlevels, hweights⟩ := Prod.mk.inj hshape
  have hweighted := hsafe.weights (grid, 0) (by simp [hplan])
  refine hweighted 0 (touches_first hlevels) (by simp [horders]) ?_
  rw [hweights]
  rfl

/-- The plan is taken over with its empty rows, and the first candle at a level of it panics. -/
theorem empty_row_read (entries : HashOrder Double) : ¬Robust false readEmpty entries plain bringing 160 [emptyPlan, cursorAfter] := by
  rintro ⟨st, hst, hcall, -⟩
  rw [(gives_fromObservations _ _ _ _).eq hst, session_state] at hcall
  have hplan : IsPlan emptyPlan := by decide
  obtain ⟨grid, hread, hshape⟩ := emptyPlan_read
  exact call_panics (plan_recovered entries hplan hread) (orders_recovered readEmpty entries hplan) hshape
    (reviewAt_recovered readEmpty entries hplan) (candleTs_recovered readEmpty entries hplan) hcall

/-- Neither does a call go without a panic on all rows, nor is a review due after every plan that cannot be read. -/
theorem recovery_not_robust :
    ¬Robust false readNothing ⟨Multiset.toList, Multiset.coe_toList⟩ plain silent 160 [cutOff, cursorAfter] ∧
      ¬Robust false readEmpty ⟨Multiset.toList, Multiset.coe_toList⟩ plain bringing 160 [emptyPlan, cursorAfter] :=
  ⟨review_put_off _, empty_row_read _⟩

end Recovery

end Opsense
