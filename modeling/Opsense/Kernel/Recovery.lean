import Opsense.Kernel.Panics
import Opsense.Lib.Groups
import Opsense.Lib.Newest
import Opsense.Station.Block

/-!
# A session from the station

`State::from_observations` of `opsense-rhai/src/orders.rs`: the rows of the station are gone through once, each a cursor, a plan,
an order or none of these. The faults it reports are left out. What it leaves is described by the rows (`recovered`): the plan is the
newest one since the last that could not be read, and the review time the latest one since then.
-/

namespace Opsense

open Partial

/-- How values and texts are read. The numbers of a JSON text are finite. -/
structure Reading (F : Type) where
  /-- The number of its bits. -/
  real : UInt64 → F
  /-- `str::parse::<f64>` -/
  num : String → Option F
  /-- The cast of an `f64` to a `u64` or `usize`. -/
  toU64 : F → Nat
  /-- `serde_json::from_str::<Vec<PlanCell>>` -/
  cells : String → Option (List (PlanCell F))

namespace Recovery

variable {F : Type} [Scalar F]

/-! ## Rows -/

/-- `labels.kind` of a cursor, whatever its signal is. -/
def IsCursor (o : Observation) : Prop := o.labels.get "kind" = some "trading_step"

def IsPlan (o : Observation) : Prop := o.signal = .summary ∧ o.labels.get "kind" = some "plan"

/-- A row that is no cursor and carries an order. -/
def IsOrder (o : Observation) : Prop := ¬IsCursor o ∧ o.signal = .order

instance : DecidablePred IsCursor := fun _ => inferInstanceAs (Decidable (_ = _))

instance : DecidablePred IsPlan := fun _ => inferInstanceAs (Decidable (_ ∧ _))

instance : DecidablePred IsOrder := fun _ => inferInstanceAs (Decidable (_ ∧ _))

theorem IsPlan.not_cursor {o : Observation} (h : IsPlan o) : ¬IsCursor o := by
  intro hcursor
  have := h.2.symm.trans hcursor
  exact absurd (Option.some.inj this) (by decide)

theorem IsPlan.not_order {o : Observation} (h : IsPlan o) : ¬IsOrder o := by
  intro horder
  have := h.1.symm.trans horder.2
  cases this

/-- `parse_u64` -/
def parseLabel (o : Observation) (key : String) : Nat := ((o.labels.get key).bind fun v => parseU64 v.toList).getD 0

/-- `tail_num`: the number after the last dash. -/
def tailNum (id : String) : Nat := (parseU64 (id.toList.rtakeWhile (· ≠ '-'))).getD 0

/-- The id of an order row: that of its label, or the next one. -/
def rowId (next_id : Nat) (o : Observation) : String :=
  (o.labels.get "order_id").getD ("o" ++ toString o.ts ++ "-" ++ toString next_id)

def orderOf (rd : Reading F) (o : Observation) : Option (Order F) :=
  let num (key : String) : F := ((o.labels.get key).bind rd.num).getD 0.0
  let dtype :=
    if o.labels.get "dtype" = some "long" then some OrderType.long
    else if o.labels.get "dtype" = some "short" then some OrderType.short
    else none
  dtype.bind fun dtype =>
    let entry := rd.real o.value
    if Scalar.le entry 0.0 then none
    else some
      { dtype, entryPrice := entry, size := num "size", slPrice := num "sl", tpPrice := num "tp"
        gridIndex := rd.toU64 (Scalar.max (num "grid") 0.0), levelIndex := rd.toU64 (Scalar.max (num "level") 0.0)
        pnlPct := (o.labels.get "pnl_pct").bind rd.num, exitPrice := (o.labels.get "exit_price").bind rd.num
        unlockSeq := rd.toU64 (Scalar.max (num "unlock_seq") 0.0) }

/-- `plan_of_observation`, of a plan row. -/
def planOf (rd : Reading F) (o : Observation) : Option (List (TradingGrid F)) :=
  ((o.labels.get "cells").bind rd.cells).bind fun cells =>
    let grids := cells.filterMap PlanCell.toGrid
    if grids.isEmpty then none else some grids

/-- The longest list of `f64`s: of `isize::MAX` bytes. -/
def maxLen : Nat := (2 ^ 63 - 1) / 8

/-- No row of weights of a cell is made too long: a cell with levels asks for its candles in `with_max_candles`. -/
def CellsFit (rd : Reading F) (o : Observation) : Prop :=
  ∀ cell ∈ ((o.labels.get "cells").bind rd.cells).getD [], 2 ≤ cell.levels.length → cell.maxCandles ≤ maxLen

omit [Scalar F] in
instance (rd : Reading F) : DecidablePred (CellsFit rd) := fun _ => inferInstanceAs (Decidable (∀ _ ∈ _, _))

/-! ## The loop -/

end Recovery

/-- The variables of the loop of `from_observations`. -/
structure Recovery (F : Type) where
  opened : Finmap fun _ : Nat × Nat => String × Order F
  closedIds : List String
  history : List (Order F)
  candleSeq : Nat
  candleTs : Int
  nextId : Nat
  reviewAt : Nat
  candleId : Nat
  plan : List (TradingGrid F)
  planTs : Int

namespace Recovery

variable {F : Type} [Scalar F]

omit [Scalar F] in
def new : Recovery F :=
  { opened := ∅, closedIds := [], history := [], candleSeq := 0, candleTs := 0, nextId := 1, reviewAt := 0, candleId := 0, plan := []
    planTs := -2 ^ 63 }

/-- One pass of the loop, of which the sum of ids wraps. -/
def absorb (rd : Reading F) (r : Recovery F) (o : Observation) : Recovery F :=
  if IsCursor o then
    { r with
      candleSeq := max r.candleSeq (parseLabel o "candle_seq")
      candleTs := max r.candleTs o.ts
      reviewAt := max r.reviewAt (parseLabel o "next_review")
      candleId := max r.candleId (parseLabel o "candle_id") }
  else if IsPlan o then
    match planOf rd o with
    | some grids => if r.plan.isEmpty ∨ r.planTs ≤ o.ts then { r with plan := grids, planTs := o.ts } else r
    | none => { r with plan := [], planTs := -2 ^ 63, reviewAt := 0 }
  else if o.signal ≠ .order then r
  else
    let id := rowId r.nextId o
    let r := { r with nextId := max r.nextId ((tailNum id + 1) % 2 ^ 64) }
    match orderOf rd o with
    | none => r
    | some order =>
      if o.labels.get "status" = some "closed" then { r with closedIds := r.closedIds ++ [id], history := r.history ++ [order] }
      else { r with opened := r.opened.insert order.place (id, order) }

/-- One pass of the loop, with its panics. -/
def absorbChecked (checks : Bool) (rd : Reading F) (r : Recovery F) (o : Observation) : Except Panic (Recovery F) :=
  if IsPlan o ∧ ¬CellsFit rd o then .error .capacity
  else if checks = true ∧ IsOrder o ∧ 2 ^ 64 ≤ tailNum (rowId r.nextId o) + 1 then .error .overflow
  else .ok (absorb rd r o)

/-- The order in which a `HashMap` gives its entries, which is not fixed. -/
structure HashOrder (F : Type) where
  list : Multiset (Σ _ : Nat × Nat, String × Order F) → List (Σ _ : Nat × Nat, String × Order F)
  coe_list : ∀ entries, (list entries : Multiset _) = entries

structure State (F : Type) where
  session : Session F
  openIds : List ((Nat × Nat) × String)
  nextId : Nat

/-- The end of `from_observations`. -/
def state (entries : HashOrder F) (r : Recovery F) : State F :=
  let live := (entries.list r.opened.entries).filter fun entry => entry.2.1 ∉ r.closedIds
  { session :=
      { (Session.new : Session F) with
        orders := live.map fun entry => entry.2.2
        history := r.history
        plan := r.plan
        reviewAt := r.reviewAt
        candleSeq := r.candleSeq
        candleId := r.candleId
        candleTs := r.candleTs }
    openIds := live.map fun entry => (entry.1, entry.2.1)
    nextId := r.nextId }

def fromObservations (checks : Bool) (rd : Reading F) (entries : HashOrder F) (obs : List Observation) : Except Panic (State F) :=
  (obs.foldlM (absorbChecked checks rd) new).map (state entries)

/-! ## When the loop panics -/

/-- The row is absorbed without a panic. -/
def RowFits (checks : Bool) (rd : Reading F) (r : Recovery F) (o : Observation) : Prop :=
  (IsPlan o → CellsFit rd o) ∧ (checks = true → IsOrder o → tailNum (rowId r.nextId o) + 1 < 2 ^ 64)

theorem gives_absorbChecked (checks : Bool) (rd : Reading F) (r : Recovery F) (o : Observation) :
    Gives (absorbChecked checks rd r o) (RowFits checks rd r o) (absorb rd r o) := by
  unfold absorbChecked RowFits
  by_cases hplan : IsPlan o ∧ ¬CellsFit rd o
  · rw [if_pos hplan]
    exact Or.inr ⟨fun h => hplan.2 (h.1 hplan.1), _, rfl⟩
  · rw [if_neg hplan]
    refine (gives_refuse _ Panic.overflow _).congr ?_
    rw [not_and, not_not] at hplan
    rw [not_and, not_and, not_le]
    exact ⟨fun h => ⟨hplan, h⟩, fun h => h.2⟩

variable {o : Observation}

/-- The number of an id that is made up is the next one. -/
theorem tailNum_rowId {n : Nat} (hn : n < 2 ^ 64) (h : o.labels.get "order_id" = none) : tailNum (rowId n o) = n := by
  have hdigits : ∀ c ∈ (Nat.toDigits 10 n).reverse, decide (c ≠ '-') = true := by
    intro c hc
    rw [decide_eq_true_iff]
    rintro rfl
    have := Nat.isDigit_of_mem_toDigits (by decide) (by decide) (List.mem_reverse.mp hc)
    exact absurd this (by decide)
  have htext : (rowId n o).toList = ("o" ++ toString o.ts).toList ++ '-' :: Nat.toDigits 10 n := by
    have hrepr : (toString n).toList = Nat.toDigits 10 n := Nat.toList_repr
    rw [rowId, h, Option.getD_none, String.toList_append, String.toList_append, hrepr, List.append_assoc]
    rfl
  have htail : (rowId n o).toList.rtakeWhile (· ≠ '-') = Nat.toDigits 10 n := by
    rw [htext, List.rtakeWhile, List.reverse_append, List.reverse_cons, List.append_assoc, List.takeWhile_append_of_pos hdigits,
      List.singleton_append, List.takeWhile_cons_of_neg (by decide), List.append_nil, List.reverse_reverse]
  rw [tailNum, htail, parseU64_toDigits hn, Option.getD_some]

/-- An order row without an id. -/
def Unnamed (o : Observation) : Prop := IsOrder o ∧ o.labels.get "order_id" = none

instance : DecidablePred Unnamed := fun _ => inferInstanceAs (Decidable (_ ∧ _))

/-- From the next id on there is one for every row: each row without an id takes one, and a row with an id takes all up to its own. -/
structure IdsFit (next_id : Nat) (obs : List Observation) : Prop where
  unnamed : next_id + obs.countP Unnamed < 2 ^ 64
  named : ∀ o rest id, o :: rest <:+ obs → IsOrder o → o.labels.get "order_id" = some id →
    tailNum id + 1 + rest.countP Unnamed < 2 ^ 64

theorem idsFit_cons {n : Nat} {obs : List Observation} : IdsFit n (o :: obs) ↔
    n + (o :: obs).countP Unnamed < 2 ^ 64 ∧
      (IsOrder o → ∀ id, o.labels.get "order_id" = some id → tailNum id + 1 + obs.countP Unnamed < 2 ^ 64) ∧
      ∀ o rest id, o :: rest <:+ obs → IsOrder o → o.labels.get "order_id" = some id →
        tailNum id + 1 + rest.countP Unnamed < 2 ^ 64 := by
  constructor
  · intro h
    exact ⟨h.unnamed, fun horder id hid => h.named o obs id (List.suffix_refl _) horder hid,
      fun o' rest id hsuffix => h.named o' rest id (hsuffix.trans (List.suffix_cons o obs))⟩
  · rintro ⟨hunnamed, hfirst, hrest⟩
    refine ⟨hunnamed, fun o' rest id hsuffix horder hid => ?_⟩
    rcases List.suffix_cons_iff.mp hsuffix with heq | hsuffix
    · obtain ⟨rfl, rfl⟩ := List.cons.inj heq
      exact hfirst horder id hid
    · exact hrest o' rest id hsuffix horder hid

theorem nextId_absorb (rd : Reading F) (r : Recovery F) (o : Observation) : (absorb rd r o).nextId =
    if IsOrder o then max r.nextId ((tailNum (rowId r.nextId o) + 1) % 2 ^ 64) else r.nextId := by
  unfold absorb
  by_cases hcursor : IsCursor o
  · rw [if_pos hcursor, if_neg fun h => h.1 hcursor]
  rw [if_neg hcursor]
  by_cases hplan : IsPlan o
  · rw [if_pos hplan, if_neg hplan.not_order]
    cases planOf rd o with
    | none => rfl
    | some grids =>
      dsimp only
      split_ifs <;> rfl
  rw [if_neg hplan]
  by_cases horder : o.signal = .order
  · rw [if_neg (not_not.mpr horder), if_pos ⟨hcursor, horder⟩]
    cases orderOf rd o with
    | none => rfl
    | some order =>
      dsimp only
      split_ifs <;> rfl
  · rw [if_pos horder, if_neg fun h => horder h.2]

/-- The rows are absorbed without a panic where the cells fit and, with overflow checks, the ids do. -/
theorem along_absorb (checks : Bool) (rd : Reading F) {obs : List Observation} {r : Recovery F} (hr : r.nextId < 2 ^ 64) :
    Along (absorb rd) (RowFits checks rd) r obs ↔
      (∀ o ∈ obs, IsPlan o → CellsFit rd o) ∧ (checks = true → IdsFit r.nextId obs) := by
  induction obs generalizing r with
  | nil => exact ⟨fun _ => ⟨by simp, fun _ => ⟨by simpa using hr, fun _ _ _ h => by simp at h⟩⟩, fun _ => trivial⟩
  | cons o obs ih =>
    have hnext : (absorb rd r o).nextId < 2 ^ 64 := by
      rw [nextId_absorb]
      split_ifs
      · exact max_lt hr (Nat.mod_lt _ (Nat.two_pow_pos 64))
      · exact hr
    rw [Along, ih hnext, List.forall_mem_cons, RowFits, nextId_absorb, idsFit_cons]
    have hids : (checks = true → IsOrder o → tailNum (rowId r.nextId o) + 1 < 2 ^ 64) ∧ (checks = true →
        IdsFit (if IsOrder o then max r.nextId ((tailNum (rowId r.nextId o) + 1) % 2 ^ 64) else r.nextId) obs) ↔
        (checks = true → r.nextId + (o :: obs).countP Unnamed < 2 ^ 64 ∧
          (IsOrder o → ∀ id, o.labels.get "order_id" = some id → tailNum id + 1 + obs.countP Unnamed < 2 ^ 64) ∧
          ∀ o rest id, o :: rest <:+ obs → IsOrder o → o.labels.get "order_id" = some id →
            tailNum id + 1 + rest.countP Unnamed < 2 ^ 64) := by
      rw [← imp_and]
      refine imp_congr_right fun _ => ?_
      by_cases horder : IsOrder o
      · rw [if_pos horder]
        cases hid : o.labels.get "order_id" with
        | none =>
          rw [tailNum_rowId hr hid, List.countP_cons_of_pos (by simpa using ⟨horder, hid⟩)]
          constructor
          · rintro ⟨hlt, hfit⟩
            have hunnamed := hfit.unnamed
            rw [Nat.mod_eq_of_lt (hlt horder)] at hunnamed
            exact ⟨by omega, fun _ id heq => (by cases heq), hfit.named⟩
          · rintro ⟨hunnamed, -, hnamed⟩
            refine ⟨fun _ => by omega, ?_, hnamed⟩
            rw [Nat.mod_eq_of_lt (by omega)]
            omega
        | some id =>
          have hrow : rowId r.nextId o = id := by rw [rowId, hid, Option.getD_some]
          rw [hrow, List.countP_cons_of_neg (by simp [Unnamed, hid])]
          constructor
          · rintro ⟨hlt, hfit⟩
            have hunnamed := hfit.unnamed
            rw [Nat.mod_eq_of_lt (hlt horder)] at hunnamed
            refine ⟨by omega, fun _ id' heq => ?_, hfit.named⟩
            rw [← Option.some.inj heq]
            omega
          · rintro ⟨hunnamed, hfirst, hnamed⟩
            have := hfirst horder id rfl
            refine ⟨fun _ => by omega, ?_, hnamed⟩
            rw [Nat.mod_eq_of_lt (by omega)]
            omega
      · rw [if_neg horder, List.countP_cons_of_neg (by simp [Unnamed, horder])]
        exact ⟨fun h => ⟨h.2.unnamed, fun h' => absurd h' horder, h.2.named⟩, fun h => ⟨fun h' => absurd h' horder, h.1, h.2.2⟩⟩
    rw [← hids]
    tauto

theorem gives_fromObservations (checks : Bool) (rd : Reading F) (entries : HashOrder F) (obs : List Observation) :
    Gives (fromObservations checks rd entries obs) ((∀ o ∈ obs, IsPlan o → CellsFit rd o) ∧ (checks = true → IdsFit 1 obs))
      (state entries (obs.foldl (absorb rd) new)) := by
  have hloop := (gives_foldlM (gives_absorbChecked checks rd) new obs).congr (along_absorb checks rd (show 1 < 2 ^ 64 by decide))
  rcases hloop with ⟨hok, heq⟩ | ⟨hnot, e, heq⟩
  · exact Or.inl ⟨hok, by rw [fromObservations, heq]; rfl⟩
  · exact Or.inr ⟨hnot, e, by rw [fromObservations, heq]; rfl⟩

/-! ## What the rows say -/

/-- A plan row that cannot be read. -/
def Unreadable (rd : Reading F) (o : Observation) : Prop := IsPlan o ∧ (planOf rd o).isNone

instance (rd : Reading F) : DecidablePred (Unreadable rd) := fun _ => inferInstanceAs (Decidable (_ ∧ _))

/-- The rows since the last plan that could not be read. -/
def sinceUnreadable (rd : Reading F) (obs : List Observation) : List Observation := obs.rtakeWhile fun o => ¬Unreadable rd o

/-- The greatest of what the cursors say. -/
def greatest {A : Type} [LinearOrder A] (least : A) (read : Observation → A) (obs : List Observation) : A :=
  ((obs.filter IsCursor).map read).foldl max least

/-- The newest plan since the last that could not be read, or none. -/
def planInForce (rd : Reading F) (obs : List Observation) : List (TradingGrid F) :=
  ((Log.newest Observation.ts ((sinceUnreadable rd obs).filter IsPlan)).bind (planOf rd)).getD []

omit [Scalar F] in
/-- An order row that was read, with its id. -/
structure OrderRow (F : Type) where
  id : String
  order : Order F
  closed : Bool

/-- The orders of the rows, from the next id on. -/
def orderRows (rd : Reading F) : Nat → List Observation → List (OrderRow F)
  | _, [] => []
  | next_id, o :: obs =>
    if IsOrder o then
      let id := rowId next_id o
      ((orderOf rd o).map fun order => ⟨id, order, o.labels.get "status" = some "closed"⟩).toList ++
        orderRows rd (max next_id ((tailNum id + 1) % 2 ^ 64)) obs
    else orderRows rd next_id obs

omit [Scalar F] in
/-- The last order that was opened at each place. -/
def openedBy (opened : Finmap fun _ : Nat × Nat => String × Order F) (rows : List (OrderRow F)) :
    Finmap fun _ : Nat × Nat => String × Order F :=
  Groups.collect (fun _ row => (row.id, row.order)) (fun row => row.order.place) opened (rows.filter fun row => !row.closed)

/-- The session that the rows say. -/
def recovered (rd : Reading F) (entries : HashOrder F) (obs : List Observation) : Session F :=
  let rows := orderRows rd 1 obs
  let closed := rows.filter OrderRow.closed
  { orders := ((entries.list (openedBy ∅ rows).entries).filter fun entry => entry.2.1 ∉ closed.map OrderRow.id).map fun entry => entry.2.2
    history := closed.map OrderRow.order
    plan := planInForce rd obs
    reviewAt := greatest 0 (parseLabel · "next_review") (sinceUnreadable rd obs)
    candleSeq := greatest 0 (parseLabel · "candle_seq") obs
    candleId := greatest 0 (parseLabel · "candle_id") obs
    candleTs := greatest 0 Observation.ts obs
    nextTs := 0 }

/-! ## The loop finds what the rows say -/

variable {rd : Reading F}

theorem absorb_cursor (h : IsCursor o) (r : Recovery F) : absorb rd r o =
    { r with
      candleSeq := max r.candleSeq (parseLabel o "candle_seq")
      candleTs := max r.candleTs o.ts
      reviewAt := max r.reviewAt (parseLabel o "next_review")
      candleId := max r.candleId (parseLabel o "candle_id") } := if_pos h

theorem absorb_plan (h : IsPlan o) {grids : List (TradingGrid F)} (hgrids : planOf rd o = some grids) (r : Recovery F) :
    absorb rd r o = if r.plan.isEmpty ∨ r.planTs ≤ o.ts then { r with plan := grids, planTs := o.ts } else r := by
  rw [absorb, if_neg h.not_cursor, if_pos h, hgrids]

theorem absorb_unreadable (h : Unreadable rd o) (r : Recovery F) :
    absorb rd r o = { r with plan := [], planTs := -2 ^ 63, reviewAt := 0 } := by
  rw [absorb, if_neg h.1.not_cursor, if_pos h.1, Option.isNone_iff_eq_none.mp h.2]

theorem absorb_order (h : IsOrder o) (r : Recovery F) : absorb rd r o =
    let id := rowId r.nextId o
    let r := { r with nextId := max r.nextId ((tailNum id + 1) % 2 ^ 64) }
    match orderOf rd o with
    | none => r
    | some order =>
      if o.labels.get "status" = some "closed" then { r with closedIds := r.closedIds ++ [id], history := r.history ++ [order] }
      else { r with opened := r.opened.insert order.place (id, order) } := by
  rw [absorb, if_neg h.1, if_neg fun hplan => IsPlan.not_order hplan h, if_neg (not_not.mpr h.2)]

theorem absorb_other (hcursor : ¬IsCursor o) (hplan : ¬IsPlan o) (horder : ¬IsOrder o) (r : Recovery F) : absorb rd r o = r := by
  rw [absorb, if_neg hcursor, if_neg hplan, if_pos fun h => horder ⟨hcursor, h⟩]

/-- An order row changes the orders and the next id only. -/
theorem absorb_order_frame (rd : Reading F) (h : IsOrder o) (r : Recovery F) :
    (absorb rd r o).candleSeq = r.candleSeq ∧ (absorb rd r o).candleTs = r.candleTs ∧ (absorb rd r o).reviewAt = r.reviewAt ∧
      (absorb rd r o).candleId = r.candleId ∧ (absorb rd r o).plan = r.plan ∧ (absorb rd r o).planTs = r.planTs := by
  rw [absorb_order h]
  cases orderOf rd o with
  | none => exact ⟨rfl, rfl, rfl, rfl, rfl, rfl⟩
  | some order =>
    dsimp only
    split_ifs <;> exact ⟨rfl, rfl, rfl, rfl, rfl, rfl⟩

theorem greatest_snoc {A : Type} [LinearOrder A] (least : A) (read : Observation → A) (obs : List Observation) (o : Observation) :
    greatest least read (obs ++ [o]) = if IsCursor o then max (greatest least read obs) (read o) else greatest least read obs := by
  unfold greatest
  rw [List.filter_append]
  split_ifs with h
  · rw [List.filter_cons_of_pos (by simpa using h), List.filter_nil, List.map_append, List.foldl_append]
    rfl
  · rw [List.filter_cons_of_neg (by simpa using h), List.filter_nil, List.append_nil]

theorem greatest_le {A : Type} [LinearOrder A] {least bound : A} {read : Observation → A} {obs : List Observation} :
    greatest least read obs ≤ bound ↔ least ≤ bound ∧ ∀ o ∈ obs, IsCursor o → read o ≤ bound := by
  induction obs using List.reverseRecOn with
  | nil => simp [greatest]
  | append_singleton obs o ih =>
    rw [greatest_snoc]
    simp only [List.mem_append, List.mem_singleton, or_imp, forall_and, forall_eq]
    split_ifs with h
    · rw [max_le_iff, ih]
      simp only [h, true_imp_iff, and_assoc]
    · rw [ih]
      simp only [h, false_imp_iff, and_true]

theorem sinceUnreadable_snoc (rd : Reading F) (obs : List Observation) (o : Observation) :
    sinceUnreadable rd (obs ++ [o]) = if Unreadable rd o then [] else sinceUnreadable rd obs ++ [o] := by
  unfold sinceUnreadable
  rw [List.rtakeWhile_concat]
  by_cases h : Unreadable rd o <;> simp [h]

theorem IsPlan.exists_planOf (h : IsPlan o) (hread : ¬Unreadable rd o) :
    ∃ grids, planOf rd o = some grids := by
  cases hgrids : planOf rd o with
  | none => exact absurd ⟨h, by rw [hgrids]; rfl⟩ hread
  | some grids => exact ⟨grids, rfl⟩

theorem planOf_ne_nil {grids : List (TradingGrid F)} (h : planOf rd o = some grids) :
    grids ≠ [] := by
  unfold planOf at h
  obtain ⟨cells, -, hcells⟩ := Option.bind_eq_some_iff.mp h
  dsimp only at hcells
  split_ifs at hcells with hempty
  rw [← Option.some.inj hcells]
  simpa using hempty

/-- The numbers of the loop. -/
theorem absorbed_numbers (rd : Reading F) (obs : List Observation) :
    (obs.foldl (absorb rd) new).candleSeq = greatest 0 (parseLabel · "candle_seq") obs ∧
    (obs.foldl (absorb rd) new).candleTs = greatest 0 Observation.ts obs ∧
    (obs.foldl (absorb rd) new).candleId = greatest 0 (parseLabel · "candle_id") obs ∧
    (obs.foldl (absorb rd) new).reviewAt = greatest 0 (parseLabel · "next_review") (sinceUnreadable rd obs) := by
  induction obs using List.reverseRecOn with
  | nil => exact ⟨rfl, rfl, rfl, rfl⟩
  | append_singleton obs o ih =>
    obtain ⟨hseq, hts, hid, hreview⟩ := ih
    rw [List.foldl_concat, sinceUnreadable_snoc, greatest_snoc, greatest_snoc, greatest_snoc]
    by_cases hcursor : IsCursor o
    · have hread : ¬Unreadable rd o := fun h => h.1.not_cursor hcursor
      rw [absorb_cursor hcursor, if_pos hcursor, if_pos hcursor, if_pos hcursor, if_neg hread, greatest_snoc, if_pos hcursor, ← hseq,
        ← hts, ← hid, ← hreview]
      exact ⟨rfl, rfl, rfl, rfl⟩
    rw [if_neg hcursor, if_neg hcursor, if_neg hcursor]
    by_cases hunreadable : Unreadable rd o
    · rw [absorb_unreadable hunreadable, if_pos hunreadable]
      exact ⟨hseq, hts, hid, rfl⟩
    rw [if_neg hunreadable, greatest_snoc, if_neg hcursor]
    by_cases hplan : IsPlan o
    · obtain ⟨grids, hgrids⟩ := hplan.exists_planOf hunreadable
      rw [absorb_plan hplan hgrids]
      split_ifs <;> exact ⟨hseq, hts, hid, hreview⟩
    by_cases horder : IsOrder o
    · obtain ⟨h1, h2, h3, h4, -, -⟩ := absorb_order_frame rd horder (obs.foldl (absorb rd) new)
      exact ⟨h1.trans hseq, h2.trans hts, h4.trans hid, h3.trans hreview⟩
    · rw [absorb_other hcursor hplan horder]
      exact ⟨hseq, hts, hid, hreview⟩

/-- The plan of the loop is that of the newest row since the last that could not be read. -/
theorem absorbed_plan (rd : Reading F) (obs : List Observation) : (obs.foldl (absorb rd) new).plan = planInForce rd obs := by
  suffices h : (Log.newest Observation.ts ((sinceUnreadable rd obs).filter IsPlan)).elim ((obs.foldl (absorb rd) new).plan = [])
      fun row => planOf rd row = some (obs.foldl (absorb rd) new).plan ∧ (obs.foldl (absorb rd) new).planTs = row.ts by
    unfold planInForce
    cases hrow : Log.newest Observation.ts ((sinceUnreadable rd obs).filter IsPlan) with
    | none =>
      rw [hrow] at h
      exact h
    | some row =>
      rw [hrow, Option.elim_some] at h
      rw [Option.bind_some, h.1, Option.getD_some]
  induction obs using List.reverseRecOn with
  | nil => rfl
  | append_singleton obs o ih =>
    rw [List.foldl_concat, sinceUnreadable_snoc]
    generalize obs.foldl (absorb rd) new = r at ih ⊢
    by_cases hunreadable : Unreadable rd o
    · rw [absorb_unreadable hunreadable, if_pos hunreadable]
      rfl
    rw [if_neg hunreadable, List.filter_append]
    by_cases hplan : IsPlan o
    · obtain ⟨grids, hgrids⟩ := hplan.exists_planOf hunreadable
      rw [absorb_plan hplan hgrids, List.filter_cons_of_pos (by simpa using hplan), List.filter_nil, Log.newest_snoc]
      cases hrow : Log.newest Observation.ts ((sinceUnreadable rd obs).filter IsPlan) with
      | none =>
        rw [hrow] at ih
        rw [if_pos (Or.inl (by rw [show r.plan = [] from ih]; rfl))]
        exact ⟨hgrids, rfl⟩
      | some row =>
        rw [hrow] at ih
        obtain ⟨hrowplan, hts⟩ := ih
        have hne : ¬r.plan.isEmpty := by simpa using planOf_ne_nil hrowplan
        rw [Log.newer]
        by_cases hle : row.ts ≤ o.ts
        · rw [if_pos (Or.inr (hts ▸ hle)), if_pos hle]
          exact ⟨hgrids, rfl⟩
        · rw [if_neg (not_or.mpr ⟨hne, hts ▸ hle⟩), if_neg hle]
          exact ⟨hrowplan, hts⟩
    · rw [List.filter_cons_of_neg (by simpa using hplan), List.filter_nil, List.append_nil]
      have hframe : (absorb rd r o).plan = r.plan ∧ (absorb rd r o).planTs = r.planTs := by
        by_cases hcursor : IsCursor o
        · rw [absorb_cursor hcursor]
          exact ⟨rfl, rfl⟩
        by_cases horder : IsOrder o
        · exact (absorb_order_frame rd horder r).2.2.2.2
        · rw [absorb_other hcursor hplan horder]
          exact ⟨rfl, rfl⟩
      rw [hframe.1, hframe.2]
      exact ih

/-- The orders of the loop. -/
theorem absorbed_orders (rd : Reading F) (obs : List Observation) (r : Recovery F) :
    (obs.foldl (absorb rd) r).history = r.history ++ ((orderRows rd r.nextId obs).filter OrderRow.closed).map OrderRow.order ∧
    (obs.foldl (absorb rd) r).closedIds = r.closedIds ++ ((orderRows rd r.nextId obs).filter OrderRow.closed).map OrderRow.id ∧
    (obs.foldl (absorb rd) r).opened = openedBy r.opened (orderRows rd r.nextId obs) := by
  induction obs generalizing r with
  | nil => exact ⟨(List.append_nil _).symm, (List.append_nil _).symm, rfl⟩
  | cons o obs ih =>
    obtain ⟨hhistory, hclosed, hopened⟩ := ih (absorb rd r o)
    rw [List.foldl_cons, hhistory, hclosed, hopened, orderRows, nextId_absorb]
    by_cases horder : IsOrder o
    · rw [if_pos horder, if_pos horder, absorb_order horder]
      cases hread : orderOf rd o with
      | none => exact ⟨rfl, rfl, rfl⟩
      | some order =>
        by_cases hstatus : o.labels.get "status" = some "closed"
        · simp [hstatus, openedBy]
        · simp [hstatus, openedBy, Groups.collect, Groups.push]
    · rw [if_neg horder, if_neg horder]
      have hframe : (absorb rd r o).history = r.history ∧ (absorb rd r o).closedIds = r.closedIds ∧
          (absorb rd r o).opened = r.opened := by
        by_cases hcursor : IsCursor o
        · rw [absorb_cursor hcursor]
          exact ⟨rfl, rfl, rfl⟩
        by_cases hunreadable : Unreadable rd o
        · rw [absorb_unreadable hunreadable]
          exact ⟨rfl, rfl, rfl⟩
        by_cases hplan : IsPlan o
        · obtain ⟨grids, hgrids⟩ := hplan.exists_planOf hunreadable
          rw [absorb_plan hplan hgrids]
          split_ifs <;> exact ⟨rfl, rfl, rfl⟩
        · rw [absorb_other hcursor hplan horder]
          exact ⟨rfl, rfl, rfl⟩
      rw [hframe.1, hframe.2.1, hframe.2.2]
      exact ⟨rfl, rfl, rfl⟩

/-- The session of `from_observations` is the one that the rows say. -/
theorem session_state (rd : Reading F) (entries : HashOrder F) (obs : List Observation) :
    (state entries (obs.foldl (absorb rd) new)).session = recovered rd entries obs := by
  obtain ⟨hseq, hts, hid, hreview⟩ := absorbed_numbers rd obs
  obtain ⟨hhistory, hclosed, hopened⟩ := absorbed_orders rd obs new
  unfold state recovered
  dsimp only [Session.new]
  rw [hseq, hts, hid, hreview, hhistory, hclosed, hopened, absorbed_plan]
  rfl

/-- The orders that are recovered are at different places. -/
theorem recovered_onePerLevel (rd : Reading F) (entries : HashOrder F) (obs : List Observation) :
    OnePerLevel (recovered rd entries obs).orders := by
  have hplace : ∀ (rows : List (OrderRow F)) (opened : Finmap fun _ : Nat × Nat => String × Order F),
      (∀ k v, opened.lookup k = some v → v.2.place = k) →
      ∀ k v, (Groups.collect (fun _ row => (row.id, row.order)) (fun row => row.order.place) opened rows).lookup k = some v →
        v.2.place = k := by
    intro rows
    induction rows with
    | nil => exact fun opened h => h
    | cons row rows ih =>
      intro opened h
      refine ih _ fun k v hv => ?_
      rw [Groups.lookup_push] at hv
      split_ifs at hv with hk
      · rw [← Option.some.inj hv]
        exact hk
      · exact h k v hv
  have hkey : ∀ entry ∈ (openedBy (F := F) ∅ (orderRows rd 1 obs)).entries, entry.2.2.place = entry.1 := by
    rintro ⟨k, v⟩ hmem
    exact hplace _ ∅ (fun k v h => by rw [Finmap.lookup_empty] at h; cases h) k v (Finmap.lookup_eq_some_iff.mpr hmem)
  have hlist := entries.coe_list (openedBy ∅ (orderRows rd 1 obs)).entries
  have hnodup := (openedBy (F := F) ∅ (orderRows rd 1 obs)).nodupKeys
  rw [← hlist, Multiset.coe_nodupKeys] at hnodup
  unfold OnePerLevel recovered
  dsimp only
  rw [List.map_map]
  have hmap : ∀ entry ∈ (entries.list (openedBy ∅ (orderRows rd 1 obs)).entries).filter fun entry =>
      entry.2.1 ∉ ((orderRows rd 1 obs).filter OrderRow.closed).map OrderRow.id, (Order.place ∘ fun entry => entry.2.2) entry = entry.1 := by
    intro entry hentry
    refine hkey entry ?_
    rw [← hlist]
    exact (List.mem_filter.mp hentry).1
  rw [List.map_congr_left hmap]
  exact List.Nodup.sublist (List.Sublist.map _ List.filter_sublist) hnodup

end Recovery

end Opsense
