import Opsense.Components.Candles

/-!
# One candle for a bucket

A bucket is written with every message after which it is over and that finds its bar open or gives it a priced tick
(`count_snoc`). It is written twice exactly when a priced tick comes to it in a message after the one with which it was written.
-/

namespace Opsense

namespace Tick2Candle

variable {parse : String → Option UInt64} {node : Tick2Candle}

theorem push_isComplete (bar : Bar) (price : Price) : (bar.push price).isComplete = true := by
  unfold Bar.push Bar.isComplete
  split_ifs with hnone
  · simp
  · rw [Bool.not_eq_true, Option.isNone_eq_false_iff] at hnone
    simp [hnone]

/-- Every open bar has a price. -/
def Running.Complete (s : Running) : Prop := ∀ b bar, s.opened.lookup b = some bar → bar.isComplete = true

theorem bars_complete {s : Running} (hs : s.Complete) (ts : List (Int × Price)) {b : Int} {bar : Bar}
    (h : (node.bars s.opened ts).lookup b = some bar) : bar.isComplete = true := by
  rw [bars_lookup] at h
  rcases List.eq_nil_or_concat (ts.filter fun t => node.bucket t = b) with hnil | ⟨ts', t, hconcat⟩
  · rw [hnil] at h
    exact hs b bar h
  · rw [hconcat, List.concat_eq_append, List.foldl_append] at h
    exact Option.some.inj h ▸ push_isComplete _ _

theorem state_complete (batches : List (List Observation)) : ((node.machine parse).state batches).Complete := by
  induction batches using List.reverseRecOn with
  | nil =>
    intro b bar h
    have hnone : ((node.machine parse).state []).opened.lookup b = none := Finmap.lookup_empty b
    rw [hnone] at h
    cases h
  | append_singleton batches batch ih =>
    intro b bar h
    rw [(received_last parse node batches batch).opened] at h
    split_ifs at h
    exact bars_complete ih _ h

theorem mem_bars {opened : Finmap fun _ : Int => Bar} {os : List Observation} {b : Int} :
    b ∈ node.bars opened (node.priced parse os) ↔ b ∈ opened ∨ b ∈ node.buckets parse os := by
  rw [← Finmap.lookup_isSome, bars_lookup, ← Finmap.lookup_isSome, mem_buckets]
  unfold pricesIn
  rw [Ne, List.map_eq_nil_iff]
  rcases List.eq_nil_or_concat ((node.priced parse os).filter fun t => node.bucket t = b) with hnil | ⟨ts, t, hconcat⟩
  · rw [hnil]
    simp
  · rw [hconcat, List.concat_eq_append, List.foldl_append]
    simp

theorem buckets_append (os os' : List Observation) :
    node.buckets parse (os ++ os') = node.buckets parse os ∪ node.buckets parse os' := by
  unfold buckets
  rw [priced_append, List.map_append, List.toFinset_append]

/-- The bars that are open after a run: those of the buckets that are not over. -/
theorem mem_opened {batches : List (List Observation)} {b : Int} : b ∈ ((node.machine parse).state batches).opened ↔
    b ∈ node.buckets parse batches.flatten ∧ ¬node.Over b (clock 0 (node.priced parse batches.flatten)) := by
  induction batches using List.reverseRecOn with
  | nil =>
    have hnone : ((node.machine parse).state []).opened = ∅ := rfl
    have hbuckets : node.buckets parse [] = ∅ := rfl
    rw [hnone, List.flatten_nil, hbuckets]
    simp [Finmap.notMem_empty]
  | append_singleton batches batch ih =>
    have hlast := received_last parse node batches batch
    have hclock := state_clock parse node (batches ++ [batch])
    have hopened := hlast.opened b
    dsimp only at hopened
    rw [hclock] at hopened
    rw [← Finmap.lookup_isSome, hopened, List.flatten_append, List.flatten_singleton]
    split_ifs with hover
    · simp [hover]
    · -- a bucket that is not over has not been over before
      have hbefore : ¬node.Over b (clock 0 (node.priced parse batches.flatten)) := fun hbefore => hover (hbefore.append batch)
      rw [Finmap.lookup_isSome, mem_bars, ih, buckets_append, Finset.mem_union]
      simp only [hbefore, hover, not_false_eq_true, and_true]

variable (parse node)

/-- How many observations of a bucket are written. -/
def count (batches : List (List Observation)) (b : Int) : Nat := (node.written parse batches).countP fun o => o.ts = b

variable {parse node}

/-- The candles of different buckets, counted by the observations of one. -/
theorem countP_flatMap {bs : List Int} (hnodup : bs.Nodup) {rows : Int → List Observation}
    (hrows : ∀ b ∈ bs, ∃ bar, rows b = barObservations b bar node.symbol node.resolution) (b : Int) :
    (bs.flatMap rows).countP (fun o => o.ts = b) = if b ∈ bs then OHLCV_FIELDS.length else 0 := by
  induction bs with
  | nil => simp
  | cons b' bs ih =>
    obtain ⟨hnot, hnodup⟩ := List.nodup_cons.mp hnodup
    obtain ⟨bar, hbar⟩ := hrows b' List.mem_cons_self
    have hlength : (rows b').length = OHLCV_FIELDS.length := by
      rw [hbar]
      rfl
    rw [List.flatMap_cons, List.countP_append, ih hnodup fun b hb => hrows b (List.mem_cons_of_mem _ hb)]
    by_cases heq : b = b'
    · have hall : (rows b').countP (fun o => o.ts = b) = (rows b').length := by
        refine List.countP_eq_length.mpr fun o ho => ?_
        rw [hbar] at ho
        simpa [heq] using barObservations_ts ho
      rw [hall, hlength, heq, if_neg hnot, if_pos List.mem_cons_self, Nat.add_zero]
    · have hnone : (rows b').countP (fun o => o.ts = b) = 0 := by
        refine List.countP_eq_zero.mpr fun o ho => ?_
        rw [hbar] at ho
        simpa [barObservations_ts ho] using Ne.symm heq
      rw [hnone, Nat.zero_add]
      simp [heq]

variable (parse node) in
/-- A bucket is written with a message after which it is over, when its bar was open or it gets a priced tick. -/
theorem count_snoc (batches : List (List Observation)) (batch : List Observation) (b : Int) :
    node.count parse (batches ++ [batch]) b = node.count parse batches b +
      if node.Over b (clock 0 (node.priced parse (batches.flatten ++ batch))) ∧
        (b ∈ ((node.machine parse).state batches).opened ∨ b ∈ node.buckets parse batch) then OHLCV_FIELDS.length else 0 := by
  have hlast := received_last parse node batches batch
  have hclock := state_clock parse node (batches ++ [batch])
  rw [List.flatten_append, List.flatten_singleton] at hclock
  have hrows := hlast.rows
  simp only [hclock] at hrows
  unfold count
  rw [written_snoc, List.countP_append, hrows, countP_flatMap (Finset.sort_nodup _ _)]
  · simp only [Finset.mem_sort, Finset.mem_filter, Finmap.mem_keys, mem_bars, and_comm]
  · -- every bar that is taken out has a price
    intro b hb
    have hmem := Finmap.mem_keys.mp (Finset.mem_filter.mp ((Finset.mem_sort _).mp hb)).1
    obtain ⟨bar, hbar⟩ := Option.isSome_iff_exists.mp (Finmap.lookup_isSome.mpr hmem)
    refine ⟨bar, ?_⟩
    rw [hbar]
    unfold rowsOf
    dsimp only
    rw [if_pos (bars_complete (state_complete batches) _ hbar)]

variable (parse node) in
/-- A bucket with a priced tick has been written when it is over, and else not. -/
theorem count_pos_iff (batches : List (List Observation)) (b : Int) :
    (node.count parse batches b = 0 ∨ OHLCV_FIELDS.length ≤ node.count parse batches b) ∧
      (node.count parse batches b ≠ 0 ↔
        b ∈ node.buckets parse batches.flatten ∧ node.Over b (clock 0 (node.priced parse batches.flatten))) := by
  induction batches using List.reverseRecOn with
  | nil =>
    have hcount : node.count parse [] b = 0 := rfl
    have hbuckets : node.buckets parse [] = ∅ := rfl
    rw [hcount, List.flatten_nil, hbuckets]
    simp
  | append_singleton batches batch ih =>
    obtain ⟨hcount, hiff⟩ := ih
    rw [count_snoc, List.flatten_append, List.flatten_singleton]
    have hmono : node.Over b (clock 0 (node.priced parse batches.flatten)) →
        node.Over b (clock 0 (node.priced parse (batches.flatten ++ batch))) := fun hover => hover.append batch
    have hfields : OHLCV_FIELDS.length ≠ 0 := by decide
    simp only [mem_opened, buckets_append, Finset.mem_union]
    split_ifs with hwrite
    · refine ⟨.inr (Nat.le_add_left _ _), ⟨fun _ => ⟨?_, hwrite.1⟩, fun _ => by omega⟩⟩
      exact hwrite.2.imp_left And.left
    · rw [Nat.add_zero]
      refine ⟨hcount, hiff.trans ⟨fun h => ⟨.inl h.1, hmono h.2⟩, ?_⟩⟩
      rintro ⟨hmem, hover⟩
      by_contra hbefore
      refine hwrite ⟨hover, hmem.imp_left fun hold => ⟨hold, fun hb => hbefore ⟨hold, hb⟩⟩⟩

variable (parse node)

/-- At most one candle is written for a bucket, and none for the bucket of the first tick. -/
structure WritesOnce (batches : List (List Observation)) : Prop where
  once : ∀ b, node.count parse batches b ≤ OHLCV_FIELDS.length
  first : ∀ o ∈ batches.flatten.head?, ∀ row ∈ node.written parse batches, row.ts ≠ bucketOf (node.secs o) node.step

/-- No priced tick of a message comes to a bucket with a priced tick that was over before the message, and the bucket of the first
tick is not over in the end, unless it has no priced tick. -/
structure InTime (batches : List (List Observation)) : Prop where
  late : ∀ before batch, before ++ [batch] <+: batches → ∀ t ∈ node.priced parse batch,
    node.bucket t ∈ node.buckets parse before.flatten → ¬node.Over (node.bucket t) (clock 0 (node.priced parse before.flatten))
  first : ∀ o ∈ batches.flatten.head?, bucketOf (node.secs o) node.step ∈ node.buckets parse batches.flatten →
    ¬node.Over (bucketOf (node.secs o) node.step) (clock 0 (node.priced parse batches.flatten))

variable {parse node}

theorem count_mono (before rest : List (List Observation)) (b : Int) :
    node.count parse before b ≤ node.count parse (before ++ rest) b := by
  induction rest using List.reverseRecOn with
  | nil => rw [List.append_nil]
  | append_singleton rest batch ih =>
    rw [← List.append_assoc, count_snoc]
    omega

/-- No bucket is written twice exactly when no priced tick comes to a bucket that has been written. -/
theorem once_iff (batches : List (List Observation)) : (∀ b, node.count parse batches b ≤ OHLCV_FIELDS.length) ↔
    ∀ before batch, before ++ [batch] <+: batches → ∀ t ∈ node.priced parse batch,
      node.bucket t ∈ node.buckets parse before.flatten →
        ¬node.Over (node.bucket t) (clock 0 (node.priced parse before.flatten)) := by
  constructor
  · rintro honce before batch ⟨rest, rfl⟩ t ht hmem hover
    have hbefore := ((count_pos_iff parse node before (node.bucket t)).1.resolve_left
      ((count_pos_iff parse node before (node.bucket t)).2.mpr ⟨hmem, hover⟩))
    have hover' : node.Over (node.bucket t) (clock 0 (node.priced parse (before.flatten ++ batch))) := hover.append batch
    have hbatch : node.bucket t ∈ node.buckets parse batch := List.mem_toFinset.mpr (List.mem_map_of_mem ht)
    have hcount := count_snoc parse node before batch (node.bucket t)
    rw [if_pos ⟨hover', .inr hbatch⟩] at hcount
    have hle := (count_mono (before ++ [batch]) rest (node.bucket t)).trans (honce (node.bucket t))
    have hfields : 0 < OHLCV_FIELDS.length := by decide
    omega
  · intro hlate b
    induction batches using List.reverseRecOn with
    | nil => exact Nat.zero_le _
    | append_singleton batches batch ih =>
      have hold := ih fun before batch' hpre => hlate before batch' (hpre.trans (List.prefix_append _ _))
      rw [count_snoc]
      split_ifs with hwrite
      · -- it has not been written before
        have hzero : node.count parse batches b = 0 := by
          by_contra hne
          obtain ⟨hmem, hover⟩ := (count_pos_iff parse node batches b).2.mp hne
          rcases hwrite.2 with hopen | hbatch
          · exact (mem_opened.mp hopen).2 hover
          · obtain ⟨t, ht, rfl⟩ := List.mem_map.mp (List.mem_toFinset.mp hbatch)
            exact hlate batches batch (List.prefix_refl _) t ht hmem hover
        rw [hzero, Nat.zero_add]
      · exact hold

end Tick2Candle

/-- A run writes at most one candle for a bucket, and none for the bucket of its first tick, exactly when its ticks are in time. -/
theorem candles_once_iff (parse : String → Option UInt64) (node : Tick2Candle) (batches : List (List Observation)) :
    Tick2Candle.WritesOnce parse node batches ↔ Tick2Candle.InTime parse node batches := by
  have hfirst : (∀ o ∈ batches.flatten.head?, ∀ row ∈ node.written parse batches,
      row.ts ≠ Tick2Candle.bucketOf (node.secs o) node.step) ↔ ∀ o ∈ batches.flatten.head?,
        Tick2Candle.bucketOf (node.secs o) node.step ∈ node.buckets parse batches.flatten →
          ¬node.Over (Tick2Candle.bucketOf (node.secs o) node.step) (Tick2Candle.clock 0 (node.priced parse batches.flatten)) := by
    refine forall₂_congr fun o _ => ?_
    have hwritten := (Tick2Candle.count_pos_iff parse node batches
      (Tick2Candle.bucketOf (node.secs o) node.step)).2
    rw [← not_and, ← hwritten, not_not]
    unfold Tick2Candle.count
    rw [List.countP_eq_zero]
    simp
  constructor
  · intro h
    exact ⟨(Tick2Candle.once_iff batches).mp h.once, hfirst.mp h.first⟩
  · intro h
    exact ⟨(Tick2Candle.once_iff batches).mpr h.late, hfirst.mpr h.first⟩

/-- Two ticks a minute apart: the bucket of the first one is written when the second one comes. -/
theorem first_bucket_written : ¬Tick2Candle.WritesOnce (fun _ => none) ⟨"", "BTC", 1000⟩
    [[⟨30, "BTC", .metric, .raw, 1, ⟨[], List.Pairwise.nil⟩, none⟩, ⟨90, "BTC", .metric, .raw, 1, ⟨[], List.Pairwise.nil⟩, none⟩]] := by
  intro h
  have hover : (0 : Int) ∈ Tick2Candle.buckets (fun _ => none) ⟨"", "BTC", 1000⟩
        [⟨30, "BTC", .metric, .raw, 1, ⟨[], List.Pairwise.nil⟩, none⟩, ⟨90, "BTC", .metric, .raw, 1, ⟨[], List.Pairwise.nil⟩, none⟩] ∧
      Tick2Candle.Over ⟨"", "BTC", 1000⟩ 0 (Tick2Candle.clock 0 (Tick2Candle.priced (fun _ => none) ⟨"", "BTC", 1000⟩
        [⟨30, "BTC", .metric, .raw, 1, ⟨[], List.Pairwise.nil⟩, none⟩, ⟨90, "BTC", .metric, .raw, 1, ⟨[], List.Pairwise.nil⟩, none⟩])) := by
    decide +kernel
  have hcount := (Tick2Candle.count_pos_iff (fun _ => none) ⟨"", "BTC", 1000⟩ [_] 0).2.mpr (by
    rw [List.flatten_singleton]
    exact hover)
  obtain ⟨row, hrow, hts⟩ := List.countP_pos_iff.mp (Nat.pos_of_ne_zero hcount)
  refine h.first _ rfl row hrow ?_
  rw [of_decide_eq_true hts]
  decide +kernel

end Opsense
