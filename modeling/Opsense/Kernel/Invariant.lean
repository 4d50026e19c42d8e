import Opsense.Kernel.Forward

/-!
# The session over whole runs

What holds of a session and of the events sent so far in every run of the kernel from a fresh session in which no event is
refused (`Laws`).

Two things break the laws, and the runs are those in which neither happens (`Regular`): the search for the next candle casts
its time to `u64`, so that a candle from before 1970 passes for one of the far future, and the number of the candle that
unlocks an order wraps.
-/

namespace Opsense

section Invariant

variable {F : Type}

/-! ## The events of a run -/

/-- The order an event closes. -/
def OrderEvent.closedOrder? : OrderEvent F → Option (Order F)
  | .closed _ order => some order
  | _ => none

/-- The orders a call announces as placed. -/
def Outcome.placed (out : Outcome F) : List (Order F) := out.sent.filterMap OrderEvent.placedOrder?

/-- The orders a call announces as closed. -/
def Outcome.closed (out : Outcome F) : List (Order F) := out.sent.filterMap OrderEvent.closedOrder?

/-- The orders placed in a run, each with the number of the candle it was placed on. -/
def placements (t : List (Callbacks F × Outcome F)) : List (Nat × Order F) :=
  t.flatMap fun x => x.2.placed.map fun o => (x.2.session.candleSeq, o)

/-- The orders closed in a run, each with the number of the candle it was closed on. -/
def closings (t : List (Callbacks F × Outcome F)) : List (Nat × Order F) :=
  t.flatMap fun x => x.2.closed.map fun o => (x.2.session.candleSeq, o)

/-- The candles processed in a run. -/
def processed (t : List (Callbacks F × Outcome F)) : List (CandleStick F) := t.filterMap fun x => x.2.candle

theorem placements_snoc (t : List (Callbacks F × Outcome F)) (cb : Callbacks F) (out : Outcome F) :
    placements (t ++ [(cb, out)]) = placements t ++ out.placed.map fun o => (out.session.candleSeq, o) := by
  simp [placements]

theorem closings_snoc (t : List (Callbacks F × Outcome F)) (cb : Callbacks F) (out : Outcome F) :
    closings (t ++ [(cb, out)]) = closings t ++ out.closed.map fun o => (out.session.candleSeq, o) := by
  simp [closings]

theorem processed_snoc (t : List (Callbacks F × Outcome F)) (cb : Callbacks F) (out : Outcome F) :
    processed (t ++ [(cb, out)]) = processed t ++ out.candle.toList := by
  unfold processed
  rw [List.filterMap_append]
  cases h : out.candle <;> simp [h]

variable [Scalar F]

/-! ## What a call does -/

/-- The number an order is unlocked at when the candle numbered `seq` is processed, without the wrap. -/
def unlockAt (pf : Portfolio F) (seq : Nat) : Nat := seq + pf.settlement

/-- The effect of a call that processes a candle. -/
structure Advances (pf : Portfolio F) (cb : Callbacks F) (s : Session F) (candle : CandleStick F) (out : Outcome F) :
    Prop where
  took : out.candle = some candle
  newer : s.candleTs.toNat < asU64 candle.t
  announced : out.placed = (announcements pf cb (rebuildDue cb s).1 candle).filterMap OrderEvent.placedOrder?
  closed : out.closed = s.orders.filterMap (leaves candle pf.fee (s.candleSeq + 1))
  history : out.session.history = s.history ++ out.closed
  orders : out.session.orders =
    s.orders.filter (fun o => (leaves candle pf.fee (s.candleSeq + 1) o).isNone) ++ out.placed
  placed : ∀ o ∈ out.placed, o.unlockSeq = unlockAt pf (s.candleSeq + 1) % 2 ^ 64 ∧ o.placedAs = o
  onePerLevel : OnePerLevel s.orders → OnePerLevel out.session.orders
  candleSeq : out.session.candleSeq = s.candleSeq + 1
  candleTs : out.session.candleTs = candle.t

/-- The effect of a call that processes none. -/
structure Waits (s : Session F) (out : Outcome F) : Prop where
  took : out.candle = none
  closed : out.closed = []
  placed : out.placed = []
  history : out.session.history = s.history
  orders : out.session.orders = s.orders
  candleSeq : out.session.candleSeq = s.candleSeq
  candleTs : out.session.candleTs = s.candleTs

omit [Scalar F] in
/-- A rebuild announces no order. -/
theorem rebuildDue_sent (cb : Callbacks F) (s : Session F) :
    (rebuildDue cb s).2.1.filterMap OrderEvent.placedOrder? = [] ∧
    (rebuildDue cb s).2.1.filterMap OrderEvent.closedOrder? = [] := by
  rcases rebuildDue_cases cb s with ⟨-, h⟩ | ⟨-, e, -, h⟩ | ⟨-, plan, -, ⟨e, -, h⟩ | ⟨-, h⟩⟩ <;> rw [h] <;>
    exact ⟨rfl, rfl⟩

variable {cb : Callbacks F} {s : Session F}

theorem forward_waits (pf : Portfolio F) (h : takesUp cb s = none) :
    Waits s (forward pf cb s) := by
  obtain ⟨horders, hhistory, hseq, hts, -⟩ := rebuildDue_frame cb s
  obtain ⟨hplaced, hclosed⟩ := rebuildDue_sent cb s
  rcases forward_cases pf cb s with ⟨-, htook, hsent, ⟨-, hsession⟩ | ⟨-, -, -, hsession⟩⟩ | ⟨candle, -, htake, -⟩
  · exact ⟨htook, by rw [Outcome.closed, hsent, hclosed], by rw [Outcome.placed, hsent, hplaced], by rw [hsession, hhistory],
      by rw [hsession, horders], by rw [hsession, hseq], by rw [hsession, hts]⟩
  · exact ⟨htook, by rw [Outcome.closed, hsent, hclosed], by rw [Outcome.placed, hsent, hplaced], by rw [hsession, hhistory],
      by rw [hsession, horders], by rw [hsession, hseq], by rw [hsession, hts]⟩
  · rw [h] at htake
    nomatch htake

/-- The orders placed and closed by the announcements of a candle. -/
theorem announcements_orders (pf : Portfolio F) (cb : Callbacks F) (s : Session F) (candle : CandleStick F) :
    (announcements pf cb s candle).filterMap OrderEvent.placedOrder? =
      (openOrders (opening pf cb s candle) candle (exits pf s candle).plan (exits pf s candle).orders).2.filterMap
        OrderEvent.placedOrder? ∧
    (announcements pf cb s candle).filterMap OrderEvent.closedOrder? =
      s.orders.filterMap (leaves candle pf.fee (s.candleSeq + 1)) := by
  have hopens := openOrders_opens (opening pf cb s candle) candle (exits pf s candle).plan (exits pf s candle).orders
  have hnone : (openOrders (opening pf cb s candle) candle (exits pf s candle).plan (exits pf s candle).orders).2.filterMap
      OrderEvent.closedOrder? = [] := by
    refine List.filterMap_eq_nil_iff.mpr fun e he => ?_
    rcases hopens.kinds e he with ⟨o, rfl⟩ | ⟨ig, il, reason, rfl⟩ <;> rfl
  have hclosings : (s.orders.filterMap (leaves candle pf.fee (s.candleSeq + 1))).filterMap
      (OrderEvent.placedOrder? ∘ OrderEvent.closed candle.t.toNat) = [] := List.filterMap_eq_nil_iff.mpr fun _ _ => rfl
  unfold announcements
  rw [List.filterMap_append, List.filterMap_append, hnone, List.filterMap_map, List.filterMap_map, List.append_nil, hclosings,
    List.nil_append]
  exact ⟨rfl, List.filterMap_some⟩

variable {candle : CandleStick F}

theorem forward_advances (pf : Portfolio F) (hquiet : ∀ i e, cb.notify i e = .ok ()) (h : takesUp cb s = some candle) :
    Advances pf cb s candle (forward pf cb s) := by
  obtain ⟨horders, hhistory, hseq, hts, -⟩ := rebuildDue_frame cb s
  obtain ⟨hplaced, hclosed⟩ := rebuildDue_sent cb s
  rcases forward_cases pf cb s with ⟨hnone, -⟩ | ⟨candle', candles, htake, -, -, hfind, heq⟩
  · rw [h] at hnone
    nomatch hnone
  · obtain rfl := Option.some.inj (h.symm.trans htake)
    rcases processCandle_cases pf cb (rebuildDue cb s).1 (rebuildDue cb s).2.1 candle with
      ⟨⟨e, herror, -⟩, -⟩ | ⟨-, hdone⟩
    · obtain ⟨k, ev, e', -, he⟩ := notifyAll_error_iff.mp ⟨e, herror⟩
      rw [hquiet] at he
      nomatch he
    · obtain ⟨haplaced, haclosed⟩ := announcements_orders pf cb (rebuildDue cb s).1 candle
      have hopens := openOrders_opens (opening pf cb (rebuildDue cb s).1 candle) candle
        (exits pf (rebuildDue cb s).1 candle).plan (exits pf (rebuildDue cb s).1 candle).orders
      have hannounced : (forward pf cb s).placed =
          (announcements pf cb (rebuildDue cb s).1 candle).filterMap OrderEvent.placedOrder? := by
        rw [Outcome.placed, heq, hdone, List.filterMap_append, hplaced, List.nil_append]
      have hsplaced : (forward pf cb s).placed = (openOrders (opening pf cb (rebuildDue cb s).1 candle) candle
          (exits pf (rebuildDue cb s).1 candle).plan (exits pf (rebuildDue cb s).1 candle).orders).2.filterMap
          OrderEvent.placedOrder? := by
        rw [hannounced, haplaced]
      have hsclosed : (forward pf cb s).closed = s.orders.filterMap (leaves candle pf.fee (s.candleSeq + 1)) := by
        rw [Outcome.closed, heq, hdone, List.filterMap_append, hclosed, haclosed, List.nil_append, horders, hseq]
      have hsorders : (forward pf cb s).session.orders =
          s.orders.filter (fun o => (leaves candle pf.fee (s.candleSeq + 1) o).isNone) ++ (forward pf cb s).placed := by
        rw [hsplaced, ← horders, ← hseq, ← exits_orders, ← hopens.added, heq, hdone]
      refine ⟨?_, ?_, hannounced, hsclosed, ?_, hsorders, ?_, ?_, ?_, ?_⟩
      · rw [heq, hdone]
      · have := List.find?_some hfind
        rw [← hts]
        exact of_decide_eq_true this
      · rw [hsclosed, heq, hdone, ← hhistory, ← horders, ← hseq]
        exact exits_history pf _ candle
      · intro o ho
        rw [hsplaced] at ho
        have := hopens.fresh o ho
        rw [← hseq]
        exact this
      · intro hone
        have hstay : OnePerLevel (exits pf (rebuildDue cb s).1 candle).orders := by
          rw [exits_orders, horders]
          exact hone.sublist (List.Sublist.map _ List.filter_sublist)
        rw [heq, hdone]
        exact openOrders_onePerLevel _ candle _ hstay
      · rw [heq, hdone, ← hseq]
        rfl
      · rw [heq, hdone]

/-! ## The laws -/

/-- What holds of a session and of the trace that led to it. -/
structure Laws (pf : Portfolio F) (s : Session F) (t : List (Callbacks F × Outcome F)) : Prop where
  /-- The orders placed are pairwise different, and each of them is open or in the history, once. -/
  accounted : ((placements t).map Prod.snd).Nodup ∧
    (s.orders ++ s.history.map Order.placedAs).Perm ((placements t).map Prod.snd)
  /-- The history lists the closed orders as they were closed. -/
  recorded : s.history = (closings t).map Prod.snd
  onePerLevel : OnePerLevel s.orders
  /-- An order placed on a candle is closed no earlier than `settlement` candles later. -/
  settled : ∀ p ∈ placements t, ∀ q ∈ closings t, q.2.placedAs = p.2 → p.1 + pf.settlement ≤ q.1
  ascending : ((processed t).map CandleStick.t).Pairwise (· < ·)
  cursor : s.candleTs = ((processed t).map CandleStick.t).getLastD 0
  counted : s.candleSeq = (processed t).length

/-- A call takes up no candle from before 1970, and where it places an order the number that unlocks it does not wrap. -/
structure Regular (pf : Portfolio F) (s : Session F) (cb : Callbacks F) : Prop where
  time : ∀ candle, takesUp cb s = some candle → 0 ≤ candle.t ∧ candle.t < 2 ^ 63
  unlock : ∀ candle, takesUp cb s = some candle →
    (announcements pf cb (rebuildDue cb s).1 candle).filterMap OrderEvent.placedOrder? ≠ [] →
    unlockAt pf (s.candleSeq + 1) < 2 ^ 64

/-- The invariant: the laws, with what carries them from one call to the next. -/
structure Kept (pf : Portfolio F) (s : Session F) (t : List (Callbacks F × Outcome F)) : Prop where
  laws : Laws pf s t
  fresh : ∀ o ∈ s.orders, o.placedAs = o
  unlock : ∀ p ∈ placements t, p.2.unlockSeq = unlockAt pf p.1 ∧ p.1 ≤ s.candleSeq
  unlocked : ∀ q ∈ closings t, q.2.unlockSeq ≤ q.1
  past : 0 ≤ s.candleTs ∧ ∀ c ∈ processed t, c.t ≤ s.candleTs

/-- An order leaves with nothing changed but its outcome, and not before it is unlocked. -/
theorem leaves_spec {fee : Fee F} {current_seq : Nat} {o o' : Order F} (h : leaves candle fee current_seq o = some o') :
    o'.placedAs = o.placedAs ∧ o'.unlockSeq ≤ current_seq := by
  unfold leaves at h
  obtain ⟨r, hexit, rfl⟩ := Option.map_eq_some_iff.mp h
  refine ⟨rfl, ?_⟩
  unfold checkOrderExit at hexit
  split at hexit
  · nomatch hexit
  · change o.unlockSeq ≤ current_seq
    omega

/-- The orders that stay and those that leave are the orders there were. -/
theorem stay_leave_perm (candle : CandleStick F) (fee : Fee F) (current_seq : Nat) {orders : List (Order F)}
    (hfresh : ∀ o ∈ orders, o.placedAs = o) :
    (orders.filter (fun o => (leaves candle fee current_seq o).isNone) ++
      (orders.filterMap (leaves candle fee current_seq)).map Order.placedAs).Perm orders := by
  induction orders with
  | nil => exact List.Perm.refl _
  | cons o orders ih =>
    have ih := ih fun x hx => hfresh x (List.mem_cons_of_mem _ hx)
    cases hleave : leaves candle fee current_seq o with
    | none =>
      rw [List.filter_cons_of_pos (by rw [hleave]; rfl), List.filterMap_cons_none hleave]
      exact ih.cons o
    | some o' =>
      have hplaced : o'.placedAs = o := (leaves_spec hleave).1.trans (hfresh o List.mem_cons_self)
      rw [List.filter_cons_of_neg (by rw [hleave]; exact Bool.false_ne_true), List.filterMap_cons_some hleave,
        List.map_cons, hplaced]
      exact List.perm_middle.trans (ih.cons o)

omit [Scalar F] in
theorem Kept.init (pf : Portfolio F) : Kept pf Session.new ([] : List (Callbacks F × Outcome F)) := by
  refine ⟨⟨⟨List.nodup_nil, List.Perm.refl _⟩, rfl, List.nodup_nil, ?_, List.Pairwise.nil, rfl, rfl⟩, ?_, ?_, ?_, ?_, ?_⟩
  · intro p hp
    nomatch hp
  · intro o ho
    nomatch ho
  · intro p hp
    nomatch hp
  · intro q hq
    nomatch hq
  · exact le_refl 0
  · intro c hc
    nomatch hc

variable {out : Outcome F} {pf : Portfolio F} {t : List (Callbacks F × Outcome F)}

omit [Scalar F] in
/-- A call that processes no candle keeps the invariant. -/
theorem Kept.waits (hk : Kept pf s t) (hw : Waits s out) : Kept pf out.session (t ++ [(cb, out)]) := by
  have hplacements : placements (t ++ [(cb, out)]) = placements t := by
    rw [placements_snoc, hw.placed, List.map_nil, List.append_nil]
  have hclosings : closings (t ++ [(cb, out)]) = closings t := by
    rw [closings_snoc, hw.closed, List.map_nil, List.append_nil]
  have hprocessed : processed (t ++ [(cb, out)]) = processed t := by
    rw [processed_snoc, hw.took, Option.toList_none, List.append_nil]
  refine ⟨⟨?_, ?_, ?_, ?_, ?_, ?_, ?_⟩, ?_, ?_, ?_, ?_⟩
  · rw [hplacements, hw.orders, hw.history]
    exact hk.laws.accounted
  · rw [hclosings, hw.history]
    exact hk.laws.recorded
  · rw [hw.orders]
    exact hk.laws.onePerLevel
  · rw [hplacements, hclosings]
    exact hk.laws.settled
  · rw [hprocessed]
    exact hk.laws.ascending
  · rw [hprocessed, hw.candleTs]
    exact hk.laws.cursor
  · rw [hprocessed, hw.candleSeq]
    exact hk.laws.counted
  · rw [hw.orders]
    exact hk.fresh
  · rw [hplacements, hw.candleSeq]
    exact hk.unlock
  · rw [hclosings]
    exact hk.unlocked
  · rw [hprocessed, hw.candleTs]
    exact hk.past

/-- The orders placed on a candle are unlocked by a number of their own, unless it wraps. -/
theorem Advances.unlockSeq (ha : Advances pf cb s candle out)
    (hunlock : (announcements pf cb (rebuildDue cb s).1 candle).filterMap OrderEvent.placedOrder? ≠ [] → unlockAt pf (s.candleSeq + 1) < 2 ^ 64) :
    ∀ o ∈ out.placed, o.unlockSeq = unlockAt pf (s.candleSeq + 1) := by
  intro o ho
  rw [(ha.placed o ho).1]
  refine Nat.mod_eq_of_lt (hunlock ?_)
  rw [← ha.announced]
  exact List.ne_nil_of_mem ho

/-- The orders there are after a candle, open or recorded, are those there were before it and those placed on it. -/
theorem Advances.perm (ha : Advances pf cb s candle out) (hfresh : ∀ o ∈ s.orders, o.placedAs = o) :
    (out.session.orders ++ out.session.history.map Order.placedAs).Perm
      (s.orders ++ s.history.map Order.placedAs ++ out.placed) := by
  have hstay := stay_leave_perm candle pf.fee (s.candleSeq + 1) hfresh
  rw [← ha.closed] at hstay
  rw [ha.orders, ha.history, List.map_append]
  set stay := s.orders.filter fun o => (leaves candle pf.fee (s.candleSeq + 1) o).isNone
  calc stay ++ out.placed ++ (s.history.map Order.placedAs ++ out.closed.map Order.placedAs)
      _ |>.Perm (stay ++ out.placed ++ (out.closed.map Order.placedAs ++ s.history.map Order.placedAs)) :=
        List.perm_append_comm.append_left _
      _ |>.Perm (stay ++ (out.placed ++ (out.closed.map Order.placedAs ++ s.history.map Order.placedAs))) := by
        rw [List.append_assoc]
      _ |>.Perm (stay ++ (out.closed.map Order.placedAs ++ s.history.map Order.placedAs ++ out.placed)) :=
        List.perm_append_comm.append_left _
      _ |>.Perm (stay ++ out.closed.map Order.placedAs ++ s.history.map Order.placedAs ++ out.placed) := by
        simp only [List.append_assoc, List.Perm.refl]
      _ |>.Perm (s.orders ++ s.history.map Order.placedAs ++ out.placed) :=
        (hstay.append_right _).append_right _

/-- The orders placed on a candle differ from each other and from those placed before. -/
theorem Kept.placed_nodup (hk : Kept pf s t) (ha : Advances pf cb s candle out)
    (hunlock : ∀ o ∈ out.placed, o.unlockSeq = unlockAt pf (s.candleSeq + 1)) :
    ((placements t).map Prod.snd ++ out.placed).Nodup := by
  have hplaces : OnePerLevel out.placed := by
    have hone := ha.onePerLevel hk.laws.onePerLevel
    rw [ha.orders] at hone
    exact hone.sublist (List.Sublist.map _ (List.sublist_append_right _ _))
  refine List.nodup_append.mpr ⟨hk.laws.accounted.1, List.Nodup.of_map _ hplaces, fun o ho o' ho' heq => ?_⟩
  obtain ⟨p, hp, rfl⟩ := List.mem_map.mp ho
  obtain ⟨hold, hle⟩ := hk.unlock p hp
  have hnew := hunlock o' ho'
  rw [← heq, hold] at hnew
  unfold unlockAt at hnew
  omega

/-- A call that processes a candle keeps the invariant, when the candle's time is not negative and nothing wraps. -/
theorem Kept.advances (hk : Kept pf s t) (ha : Advances pf cb s candle out) (htime : 0 ≤ candle.t ∧ candle.t < 2 ^ 63)
    (hunlock : ∀ o ∈ out.placed, o.unlockSeq = unlockAt pf (s.candleSeq + 1)) :
    Kept pf out.session (t ++ [(cb, out)]) := by
  have hplacements : placements (t ++ [(cb, out)]) = placements t ++ out.placed.map fun o => (s.candleSeq + 1, o) := by
    rw [placements_snoc, ha.candleSeq]
  have hclosings : closings (t ++ [(cb, out)]) = closings t ++ out.closed.map fun o => (s.candleSeq + 1, o) := by
    rw [closings_snoc, ha.candleSeq]
  have hprocessed : processed (t ++ [(cb, out)]) = processed t ++ [candle] := by
    rw [processed_snoc, ha.took, Option.toList_some]
  have hsnd : ∀ l : List (Order F), (l.map fun o => (s.candleSeq + 1, o)).map Prod.snd = l := by
    intro l
    rw [List.map_map]
    exact List.map_id l
  have hlater : s.candleTs < candle.t := by
    have hnewer := ha.newer
    rw [asU64_of_nonneg htime.1 htime.2] at hnewer
    omega
  have hunlocks : ∀ p ∈ placements (t ++ [(cb, out)]), p.2.unlockSeq = unlockAt pf p.1 ∧ p.1 ≤ out.session.candleSeq := by
    intro p hp
    rw [hplacements] at hp
    rw [ha.candleSeq]
    rcases List.mem_append.mp hp with hp | hp
    · obtain ⟨hold, hle⟩ := hk.unlock p hp
      exact ⟨hold, by omega⟩
    · obtain ⟨o, ho, rfl⟩ := List.mem_map.mp hp
      exact ⟨hunlock o ho, le_refl _⟩
  have hunlockeds : ∀ q ∈ closings (t ++ [(cb, out)]), q.2.unlockSeq ≤ q.1 := by
    intro q hq
    rw [hclosings] at hq
    rcases List.mem_append.mp hq with hq | hq
    · exact hk.unlocked q hq
    · obtain ⟨o', ho', rfl⟩ := List.mem_map.mp hq
      rw [ha.closed] at ho'
      obtain ⟨o, -, hleave⟩ := List.mem_filterMap.mp ho'
      exact (leaves_spec hleave).2
  refine ⟨⟨⟨?_, ?_⟩, ?_, ?_, ?_, ?_, ?_, ?_⟩, ?_, hunlocks, hunlockeds, ?_, ?_⟩
  · rw [hplacements, List.map_append, hsnd]
    exact hk.placed_nodup ha hunlock
  · rw [hplacements, List.map_append, hsnd]
    exact (ha.perm hk.fresh).trans (hk.laws.accounted.2.append_right _)
  · rw [ha.history, hclosings, List.map_append, hsnd, hk.laws.recorded]
  · exact ha.onePerLevel hk.laws.onePerLevel
  · intro p hp q hq heq
    have hsame : q.2.placedAs.unlockSeq = p.2.unlockSeq := congrArg Order.unlockSeq heq
    change q.2.unlockSeq = p.2.unlockSeq at hsame
    have hp := (hunlocks p hp).1
    have hq := hunlockeds q hq
    unfold unlockAt at hp
    omega
  · rw [hprocessed, List.map_append]
    refine List.pairwise_append.mpr ⟨hk.laws.ascending, List.pairwise_singleton _ _, fun a hat b hb => ?_⟩
    obtain ⟨c, hc, rfl⟩ := List.mem_map.mp hat
    obtain rfl := List.mem_singleton.mp hb
    exact lt_of_le_of_lt (hk.past.2 c hc) hlater
  · rw [hprocessed, ha.candleTs, List.map_append]
    exact (List.getLastD_concat ..).symm
  · rw [hprocessed, ha.candleSeq, List.length_append, hk.laws.counted]
    rfl
  · intro o ho
    rw [ha.orders] at ho
    rcases List.mem_append.mp ho with hstay | hnew
    · exact hk.fresh o (List.mem_of_mem_filter hstay)
    · exact (ha.placed o hnew).2
  · rw [ha.candleTs]
    exact htime.1
  · intro c hc
    rw [hprocessed] at hc
    rw [ha.candleTs]
    rcases List.mem_append.mp hc with hc | hc
    · have := hk.past.2 c hc
      omega
    · obtain rfl := List.mem_singleton.mp hc
      exact le_refl _

/-! ## Every run -/

/-- One call in which no event is refused keeps the invariant, when it does not reach a slip. -/
theorem Kept.step (hk : Kept pf s t) (hquiet : ∀ i e, cb.notify i e = .ok ()) (hregular : Regular pf s cb) :
    Kept pf (forward pf cb s).session (t ++ [(cb, forward pf cb s)]) := by
  cases htake : takesUp cb s with
  | none => exact hk.waits (forward_waits pf htake)
  | some candle =>
    have ha := forward_advances pf hquiet htake
    exact hk.advances ha (hregular.time candle htake) (ha.unlockSeq (hregular.unlock candle htake))

/-- The history only grows by appending, also in a call that fails. -/
theorem history_prefix (pf : Portfolio F) (cb : Callbacks F) (s : Session F) :
    s.history <+: (forward pf cb s).session.history := by
  obtain ⟨-, hhistory, -⟩ := rebuildDue_frame cb s
  cases htake : takesUp cb s with
  | none =>
    rw [(forward_waits pf htake).history]
  | some candle =>
    rcases forward_cases pf cb s with ⟨hnone, -⟩ | ⟨candle, -, -, -, -, -, heq⟩
    · rw [htake] at hnone
      nomatch hnone
    · have hexits : s.history <+: (exits pf (rebuildDue cb s).1 candle).history := by
        rw [exits_history, hhistory]
        exact List.prefix_append _ _
      rw [heq]
      rcases processCandle_cases pf cb (rebuildDue cb s).1 (rebuildDue cb s).2.1 candle with ⟨-, hsession⟩ | ⟨-, hdone⟩
      · rw [hsession]
        exact hexits
      · rw [hdone]
        exact hexits

/-- A failed rebuild ends the call and moves the review time, and changes nothing else. -/
theorem forward_of_rebuild_error (pf : Portfolio F) {e : String} (hdue : s.reviewAt ≤ s.nextTs) (h : cb.rebuild s.nextTs s.plan = .error e) :
    (forward pf cb s).session = { s with reviewAt := cb.next s.nextTs } ∧ (forward pf cb s).result = .error e := by
  have hrebuild : rebuildDue cb s = ({ s with reviewAt := cb.next s.nextTs }, [], .error e) := by
    unfold rebuildDue
    rw [if_pos hdue, h]
  simp only [forward, hrebuild, and_self]

/-- In every run of the kernel in which no event is refused and no call reaches a slip, the laws hold of the session and the
trace; the history only grows by appending, and a failed rebuild changes nothing but the review time. -/
theorem run_laws (pf : Portfolio F) (as : List (Callbacks F)) (hquiet : ∀ cb ∈ as, ∀ i e, cb.notify i e = .ok ())
    (hregular : (kernel pf).Along (Regular pf) as) :
    Laws pf ((kernel pf).state as) ((kernel pf).trace as) ∧
    (∀ cb, ((kernel pf).state as).history <+: ((kernel pf).state (as ++ [cb])).history) ∧
    (∀ cb e, ((kernel pf).state as).reviewAt ≤ ((kernel pf).state as).nextTs →
      cb.rebuild ((kernel pf).state as).nextTs ((kernel pf).state as).plan = .error e →
      (kernel pf).state (as ++ [cb]) =
        { (kernel pf).state as with reviewAt := cb.next ((kernel pf).state as).nextTs }) := by
  have hkept : Kept pf ((kernel pf).state as) ((kernel pf).trace as) := by
    induction as using List.reverseRecOn with
    | nil => exact Kept.init pf
    | append_singleton as cb ih =>
      rw [Machine.state_snoc, Machine.trace_snoc]
      exact (ih (fun cb hcb => hquiet cb (List.mem_append_left _ hcb)) hregular.init).step
        (hquiet cb (List.mem_append_right _ (List.mem_singleton_self cb))) hregular.last
  refine ⟨hkept.laws, fun cb => ?_, fun cb e hdue he => ?_⟩
  · rw [Machine.state_snoc]
    exact history_prefix pf cb _
  · rw [Machine.state_snoc]
    exact (forward_of_rebuild_error pf hdue he).1

end Invariant

/-- The laws hold of a run over two candles, the first of which opens an order and the second closes it. -/
theorem run_laws_open_close :
    Laws minutePortfolio
      ((kernel minutePortfolio).state [quietCallbacks [minuteCandle 60 140 160], quietCallbacks [minuteCandle 120 150 200]])
      ((kernel minutePortfolio).trace [quietCallbacks [minuteCandle 60 140 160], quietCallbacks [minuteCandle 120 150 200]]) := by
  refine (run_laws minutePortfolio _ ?_ ?_).1
  · intro cb hcb i e
    rcases List.mem_cons.mp hcb with rfl | hcb
    · rfl
    · obtain rfl := List.mem_singleton.mp hcb
      rfl
  · refine Machine.along_snoc.mpr ⟨Machine.along_snoc.mpr ⟨Machine.Along.nil, ?_⟩, ?_⟩
    · have htake : takesUp (quietCallbacks [minuteCandle 60 140 160]) ((kernel minutePortfolio).state []) =
          some (minuteCandle 60 140 160) := by decide +kernel
      refine ⟨fun candle h => ?_, fun _ _ _ => by decide +kernel⟩
      obtain rfl := Option.some.inj (htake.symm.trans h)
      decide
    · have htake : takesUp (quietCallbacks [minuteCandle 120 150 200])
          ((kernel minutePortfolio).state [quietCallbacks [minuteCandle 60 140 160]]) =
          some (minuteCandle 120 150 200) := by decide +kernel
      refine ⟨fun candle h => ?_, fun _ _ _ => by decide +kernel⟩
      obtain rfl := Option.some.inj (htake.symm.trans h)
      decide

/-- A candle from before 1970 is taken up after a later one. -/
theorem negative_time_goes_back :
    let as := [quietCallbacks [minuteCandle 60 140 160], quietCallbacks [minuteCandle (-60) 140 160]]
    (∀ cb ∈ as, ∀ i e, cb.notify i e = .ok ()) ∧
    ¬Laws minutePortfolio ((kernel minutePortfolio).state as) ((kernel minutePortfolio).trace as) := by
  intro as
  refine ⟨?_, fun h => ?_⟩
  · intro cb hcb i e
    rcases List.mem_cons.mp hcb with rfl | hcb
    · rfl
    · obtain rfl := List.mem_singleton.mp hcb
      rfl
  · have htimes : (processed ((kernel minutePortfolio).trace as)).map CandleStick.t = [60, -60] := by decide +kernel
    have hascending := h.ascending
    rw [htimes] at hascending
    exact absurd hascending (by decide)

end Opsense
