import Opsense.Components.Tick2Candle

/-!
# What a message does to the open bars

The priced ticks of a batch join their bars (`foldl_take`), the bars whose bucket is over are taken out and written
(`foldl_writeBar`), and both together are `Received`.
-/

namespace Opsense

theorem clampI64_mono {a b : Int} (h : a ≤ b) : clampI64 a ≤ clampI64 b := by
  unfold clampI64
  omega

namespace Bar

/-- The bar of a bucket, when it has a price. -/
def ofPrices (ps : List Price) : Option Bar := if ps = [] then none else some (of ps)

theorem push_of (ps : List Price) (p : Price) : (of ps).push p = of (ps ++ [p]) := by
  cases ps with
  | nil => rfl
  | cons q ps =>
    have hlast : (q :: ps ++ [p]).getLast? = some p := List.getLast?_concat
    have hhigh : (q :: ps ++ [p]).max? = some (max (((q :: ps).max?).getD p) p) := by
      rw [List.cons_append, List.max?_cons', List.max?_cons', List.foldl_append]
      rfl
    have hlow : (q :: ps ++ [p]).min? = some (min (((q :: ps).min?).getD p) p) := by
      rw [List.cons_append, List.min?_cons', List.min?_cons', List.foldl_append]
      rfl
    unfold push of
    rw [hlast, hhigh, hlow, List.length_append]
    rfl

theorem of_isComplete {ps : List Price} (h : ps ≠ []) : (of ps).isComplete = true := by
  cases ps with
  | nil => exact absurd rfl h
  | cons p ps => simp [isComplete, of]

theorem foldl_push (ps : List Price) (ts : List (Int × Price)) :
    ts.foldl (fun bar t => some ((bar.getD empty).push t.2)) (ofPrices ps) = ofPrices (ps ++ ts.map Prod.snd) := by
  induction ts generalizing ps with
  | nil => simp
  | cons t ts ih =>
    have hstep : some (((ofPrices ps).getD empty).push t.2) = ofPrices (ps ++ [t.2]) := by
      have hne : ps ++ [t.2] ≠ [] := by simp
      rw [ofPrices, ofPrices, if_neg hne]
      by_cases h : ps = []
      · rw [h]
        rfl
      · rw [if_neg h, Option.getD_some, push_of]
    rw [List.foldl_cons, hstep, ih, List.map_cons, List.append_assoc]
    rfl

end Bar

namespace Tick2Candle

variable (parse : String → Option UInt64) (node : Tick2Candle)

/-- The times and prices of the priced ticks. -/
def priced (os : List Observation) : List (Int × Price) :=
  os.filterMap fun o => (tickPrice parse o).map fun price => (node.secs o, price)

/-- The bucket of a priced tick. -/
def bucket (t : Int × Price) : Int := bucketOf t.1 node.step

/-- A bucket is over at a time. -/
def Over (b m : Int) : Prop := clampI64 (b + stepSecs node.step) ≤ m

instance (b m : Int) : Decidable (node.Over b m) := by
  unfold Over; infer_instance

/-- The largest time of the priced ticks, from the start of the epoch on. -/
def clock (m : Int) (ts : List (Int × Price)) : Int := ts.foldl (fun m t => max m t.1) m

/-- The bars after priced ticks. -/
def bars (opened : Finmap fun _ : Int => Bar) (ts : List (Int × Price)) : Finmap fun _ : Int => Bar :=
  Groups.collect (fun bar t => (bar.getD .empty).push t.2) node.bucket opened ts

/-- The observations written for a bar that is taken out. -/
def rowsOf (b : Int) : Option Bar → List Observation
  | none => []
  | some bar => if bar.isComplete then barObservations b bar node.symbol node.resolution else []

variable {parse node}

theorem priced_append (os os' : List Observation) : node.priced parse (os ++ os') = node.priced parse os ++ node.priced parse os' :=
  List.filterMap_append

theorem clock_append (m : Int) (ts ts' : List (Int × Price)) : clock m (ts ++ ts') = clock (clock m ts) ts' := List.foldl_append

/-- The clock has reached a time when it began there or a priced tick has. -/
theorem le_clock {x m : Int} {ts : List (Int × Price)} : x ≤ clock m ts ↔ x ≤ m ∨ ∃ t ∈ ts, x ≤ t.1 := by
  induction ts generalizing m with
  | nil => simp [clock]
  | cons t ts ih =>
    have hstep : clock m (t :: ts) = clock (max m t.1) ts := rfl
    rw [hstep, ih]
    simp only [le_max_iff, List.mem_cons, exists_eq_or_imp, or_assoc]

theorem Over.mono {b b' m m' : Int} (h : node.Over b m) (hb : b' ≤ b) (hm : m ≤ m') : node.Over b' m' :=
  le_trans (le_trans (clampI64_mono (by omega)) h) hm

/-- A bucket that is over at a time at which a later one is not. -/
theorem Over.lt {b b' m : Int} (h : node.Over b m) (h' : ¬node.Over b' m) : b < b' := by
  by_contra hle
  exact h' (h.mono (not_lt.mp hle) (le_refl m))

/-- The priced ticks of a batch join their bars. -/
theorem foldl_take (s : Running) (batch : List Observation) :
    batch.foldl (node.take parse) s =
      ⟨node.bars s.opened (node.priced parse batch), clock s.max_ts_secs (node.priced parse batch)⟩ := by
  induction batch generalizing s with
  | nil => rfl
  | cons o batch ih =>
    rw [List.foldl_cons, ih]
    unfold take priced
    rw [List.filterMap_cons]
    cases tickPrice parse o <;> rfl

/-- The bars that are taken out are written in their order. -/
theorem foldl_writeBar (bs : List Int) (hnodup : bs.Nodup) (s : Running) (rows : List Observation) :
    bs.foldl node.writeBar (s, rows) =
      ({ s with opened := Groups.remove s.opened bs }, rows ++ bs.flatMap fun b => node.rowsOf b (s.opened.lookup b)) := by
  induction bs generalizing s rows with
  | nil => simp [Groups.remove]
  | cons b bs ih =>
    obtain ⟨hnot, hnodup⟩ := List.nodup_cons.mp hnodup
    -- the bars of the other buckets are as before
    have hothers : (bs.flatMap fun b' => node.rowsOf b' ((s.opened.erase b).lookup b')) =
        bs.flatMap fun b' => node.rowsOf b' (s.opened.lookup b') := by
      refine List.flatMap_congr fun b' hb' => ?_
      rw [Finmap.lookup_erase_ne (ne_of_mem_of_not_mem hb' hnot)]
    have hstep : Groups.remove s.opened (b :: bs) = Groups.remove (s.opened.erase b) bs := rfl
    rw [List.foldl_cons, List.flatMap_cons, hstep]
    cases hbar : s.opened.lookup b with
    | none =>
      have herase : s.opened.erase b = s.opened := by
        refine Finmap.ext_lookup fun b' => ?_
        by_cases heq : b' = b
        · rw [heq, Finmap.lookup_erase, hbar]
        · rw [Finmap.lookup_erase_ne heq]
      have hwrite : node.writeBar (s, rows) b = (s, rows) := by
        unfold writeBar
        dsimp only
        rw [hbar]
      rw [hwrite, ih hnodup, herase]
      rfl
    | some bar =>
      have hwrite : node.writeBar (s, rows) b = ({ s with opened := s.opened.erase b }, rows ++ node.rowsOf b (some bar)) := by
        unfold writeBar rowsOf
        dsimp only
        rw [hbar]
        by_cases hcomplete : bar.isComplete
        · simp only [if_pos hcomplete]
        · simp only [if_neg hcomplete, List.append_nil]
      rw [hwrite, ih hnodup, List.append_assoc]
      dsimp only
      rw [hothers]

/-- No bar of a bucket that is over is open. -/
def Running.Closed (s : Running) (node : Tick2Candle) : Prop := ∀ b, node.Over b s.max_ts_secs → s.opened.lookup b = none

/-- What a message does. -/
structure Received (parse : String → Option UInt64) (node : Tick2Candle) (s : Running) (batch : List Observation)
    (r : Running × List Observation) : Prop where
  clock : r.1.max_ts_secs = clock s.max_ts_secs (node.priced parse batch)
  opened : ∀ b, r.1.opened.lookup b =
    if node.Over b r.1.max_ts_secs then none else (node.bars s.opened (node.priced parse batch)).lookup b
  rows : r.2 = ((node.bars s.opened (node.priced parse batch)).keys.filter fun b => node.Over b r.1.max_ts_secs).sort.flatMap
    fun b => node.rowsOf b ((node.bars s.opened (node.priced parse batch)).lookup b)

theorem mem_due {s : Running} {b : Int} : b ∈ node.due s ↔ b ∈ s.opened ∧ node.Over b s.max_ts_secs := by
  unfold due
  rw [Finset.mem_sort, Finset.mem_filter, Finmap.mem_keys]
  rfl

theorem received {s : Running} (hclosed : s.Closed node) (batch : List Observation) :
    Received parse node s batch (node.receive parse s batch) := by
  by_cases hbatch : batch = []
  · have hnone : (s.opened.keys.filter fun b => node.Over b s.max_ts_secs) = ∅ := by
      refine Finset.filter_eq_empty_iff.mpr fun b hb hover => ?_
      exact Finmap.lookup_eq_none.mp (hclosed b hover) (Finmap.mem_keys.mp hb)
    subst hbatch
    refine ⟨rfl, fun b => ?_, ?_⟩
    · split_ifs with hover
      · exact hclosed b hover
      · rfl
    · have hrows : (node.receive parse s []).2 = [] := rfl
      have hstate : (node.receive parse s []).1 = s := rfl
      have hbars : node.bars s.opened (node.priced parse []) = s.opened := rfl
      rw [hrows, hstate, hbars, hnone, Finset.sort_empty, List.flatMap_nil]
  · have hreceive : node.receive parse s batch =
        (node.due (batch.foldl (node.take parse) s)).foldl node.writeBar (batch.foldl (node.take parse) s, []) := if_neg hbatch
    have hnodup : (node.due (batch.foldl (node.take parse) s)).Nodup := Finset.sort_nodup _ _
    rw [hreceive, foldl_writeBar _ hnodup, foldl_take]
    refine ⟨rfl, fun b => ?_, List.nil_append _⟩
    dsimp only
    rw [Groups.lookup_remove]
    by_cases hover : node.Over b (Tick2Candle.clock s.max_ts_secs (node.priced parse batch))
    · rw [if_pos hover]
      split_ifs with hdue
      · rfl
      · refine Finmap.lookup_eq_none.mpr fun hmem => hdue (mem_due.mpr ⟨hmem, hover⟩)
    · rw [if_neg hover, if_neg fun hdue => hover (mem_due.mp hdue).2]

theorem Received.closed {s : Running} {batch : List Observation} {r : Running × List Observation}
    (h : Received parse node s batch r) : r.1.Closed node := by
  intro b hover
  rw [h.opened, if_pos hover]

/-- No bar of a bucket that is over is left by a message. -/
theorem state_closed (batches : List (List Observation)) : ((node.machine parse).state batches).Closed node := by
  induction batches using List.reverseRecOn with
  | nil =>
    intro b _
    exact Finmap.lookup_empty b
  | append_singleton batches batch ih =>
    rw [Machine.state_snoc]
    exact (received ih batch).closed

variable (parse node)

theorem received_last (batches : List (List Observation)) (batch : List Observation) :
    Received parse node ((node.machine parse).state batches) batch
      ((node.machine parse).state (batches ++ [batch]), (node.machine parse).out ((node.machine parse).state batches) batch) := by
  rw [Machine.state_snoc]
  exact received (state_closed batches) batch

theorem written_snoc (batches : List (List Observation)) (batch : List Observation) :
    node.written parse (batches ++ [batch]) =
      node.written parse batches ++ (node.machine parse).out ((node.machine parse).state batches) batch := by
  unfold written
  rw [Machine.trace_snoc, List.flatMap_append]
  simp

/-- The clock of a node is the largest time of its priced ticks. -/
theorem state_clock (batches : List (List Observation)) :
    ((node.machine parse).state batches).max_ts_secs = clock 0 (node.priced parse batches.flatten) := by
  induction batches using List.reverseRecOn with
  | nil => rfl
  | append_singleton batches batch ih =>
    rw [(received_last parse node batches batch).clock, ih, List.flatten_append, List.flatten_singleton, priced_append, clock_append]

end Tick2Candle

end Opsense
