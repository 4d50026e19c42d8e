import Opsense.Components.Bars

/-!
# Candles do not depend on the batches

Where no priced tick comes to a bucket that is over (`Punctual`), what is written after every message is one candle for every
bucket that is over (`written_eq`). Ticks in the order of their times are such a stream when they are not before the epoch.
-/

namespace Opsense

namespace Tick2Candle

variable (parse : String → Option UInt64) (node : Tick2Candle)

/-- The prices of a bucket. -/
def pricesIn (os : List Observation) (b : Int) : List Price :=
  ((node.priced parse os).filter fun t => node.bucket t = b).map Prod.snd

/-- The buckets with a priced tick. -/
def buckets (os : List Observation) : Finset Int := ((node.priced parse os).map node.bucket).toFinset

/-- The candle of a bucket. -/
def candle (os : List Observation) (b : Int) : List Observation :=
  barObservations b (Bar.of (node.pricesIn parse os b)) node.symbol node.resolution

/-- No priced tick comes to a bucket that is over. -/
def Punctual (os : List Observation) : Prop :=
  ∀ seen later, seen ++ later = os → ∀ t ∈ node.priced parse later, ¬node.Over (node.bucket t) (clock 0 (node.priced parse seen))

variable {parse node}

theorem pricesIn_append (os os' : List Observation) (b : Int) :
    node.pricesIn parse (os ++ os') b = node.pricesIn parse os b ++ node.pricesIn parse os' b := by
  unfold pricesIn
  rw [priced_append, List.filter_append, List.map_append]

variable {b : Int} {os : List Observation}

theorem pricesIn_eq_nil :
    node.pricesIn parse os b = [] ↔ ∀ t ∈ node.priced parse os, node.bucket t ≠ b := by
  unfold pricesIn
  rw [List.map_eq_nil_iff, List.filter_eq_nil_iff]
  simp

theorem mem_buckets : b ∈ node.buckets parse os ↔ node.pricesIn parse os b ≠ [] := by
  rw [Ne, pricesIn_eq_nil]
  unfold buckets
  rw [List.mem_toFinset, List.mem_map]
  push Not
  rfl

theorem Punctual.init {os os' : List Observation} (h : Punctual parse node (os ++ os')) : Punctual parse node os := by
  intro seen later hsplit t ht
  refine h seen (later ++ os') (by rw [← hsplit, List.append_assoc]) t ?_
  rw [priced_append]
  exact List.mem_append_left _ ht

/-- The candles of the buckets that are over by the clock. -/
def closed (parse : String → Option UInt64) (node : Tick2Candle) (os : List Observation) : List Observation :=
  (Groups.inOrder ((node.buckets parse os).filter fun b => node.Over b (clock 0 (node.priced parse os)))).flatMap
    (node.candle parse os)

theorem bars_lookup (opened : Finmap fun _ : Int => Bar) (ts : List (Int × Price)) (b : Int) :
    (node.bars opened ts).lookup b =
      (ts.filter fun t => node.bucket t = b).foldl (fun bar t => some ((bar.getD .empty).push t.2)) (opened.lookup b) :=
  Groups.lookup_collect _

/-- The bars that are open: those of the buckets that are not over. -/
def Keeps (parse : String → Option UInt64) (node : Tick2Candle) (s : Running) (os : List Observation) : Prop :=
  ∀ b, s.opened.lookup b =
    if node.Over b (clock 0 (node.priced parse os)) then none else Bar.ofPrices (node.pricesIn parse os b)

theorem Keeps.bars {s : Running} {os batch : List Observation} (hs : Keeps parse node s os)
    (h : Punctual parse node (os ++ batch)) (b : Int) : (node.bars s.opened (node.priced parse batch)).lookup b =
      if node.Over b (clock 0 (node.priced parse os)) then none else Bar.ofPrices (node.pricesIn parse (os ++ batch) b) := by
  rw [bars_lookup, hs b]
  split_ifs with hover
  · -- nothing joins a bucket that is over
    have hnone : ((node.priced parse batch).filter fun t => node.bucket t = b) = [] := by
      refine List.filter_eq_nil_iff.mpr fun t ht hb => ?_
      refine h os batch rfl t ht ?_
      rw [of_decide_eq_true hb]
      exact hover
    rw [hnone]
    rfl
  · rw [Bar.foldl_push, pricesIn_append]
    rfl

theorem rowsOf_ofPrices (h : b ∈ node.buckets parse os) :
    node.rowsOf b (Bar.ofPrices (node.pricesIn parse os b)) = node.candle parse os b := by
  have hne := mem_buckets.mp h
  rw [Bar.ofPrices, if_neg hne]
  unfold rowsOf
  dsimp only
  rw [if_pos (Bar.of_isComplete hne)]
  rfl

theorem clock_le (parse : String → Option UInt64) (node : Tick2Candle) (os batch : List Observation) :
    clock 0 (node.priced parse os) ≤ clock 0 (node.priced parse (os ++ batch)) := by
  rw [priced_append, clock_append]
  exact le_clock.mpr (.inl (le_refl _))

theorem Over.append (h : node.Over b (clock 0 (node.priced parse os))) (batch : List Observation) :
    node.Over b (clock 0 (node.priced parse (os ++ batch))) := h.mono (le_refl b) (clock_le parse node os batch)

/-- The buckets that are over with a batch come after those that were over before it. -/
theorem Keeps.closed_append {s : Running} {os batch : List Observation} (hs : Keeps parse node s os)
    (h : Punctual parse node (os ++ batch)) {max_ts_secs : Int} (hclock : max_ts_secs = clock 0 (node.priced parse (os ++ batch))) :
    closed parse node os ++ ((node.bars s.opened (node.priced parse batch)).keys.filter fun b => node.Over b max_ts_secs).sort.flatMap
        (fun b => node.rowsOf b ((node.bars s.opened (node.priced parse batch)).lookup b)) = closed parse node (os ++ batch) := by
  obtain ⟨second, hsecond⟩ : ∃ second, second = (node.bars s.opened (node.priced parse batch)).keys.filter fun b =>
    node.Over b max_ts_secs := ⟨_, rfl⟩
  obtain ⟨first, hfirst⟩ : ∃ first, first = (node.buckets parse os).filter fun b =>
    node.Over b (clock 0 (node.priced parse os)) := ⟨_, rfl⟩
  have hbars := hs.bars h
  have hmem : ∀ b, b ∈ second ↔ b ∈ node.buckets parse (os ++ batch) ∧ ¬node.Over b (clock 0 (node.priced parse os)) ∧
      node.Over b (clock 0 (node.priced parse (os ++ batch))) := by
    intro b
    rw [hsecond, Finset.mem_filter, Finmap.mem_keys, hclock, ← Finmap.lookup_isSome, hbars, mem_buckets]
    unfold Bar.ofPrices
    split_ifs with hbefore hnil <;> simp [*]
  have hold : ∀ b, node.Over b (clock 0 (node.priced parse os)) → node.pricesIn parse batch b = [] := by
    intro b hover
    refine pricesIn_eq_nil.mpr fun t ht heq => h os batch rfl t ht ?_
    rw [heq]
    exact hover
  have hall : ((node.buckets parse (os ++ batch)).filter fun b => node.Over b (clock 0 (node.priced parse (os ++ batch)))) =
      first ∪ second := by
    ext b
    rw [Finset.mem_union, hmem, hfirst, Finset.mem_filter, Finset.mem_filter, mem_buckets, mem_buckets, pricesIn_append]
    constructor
    · rintro ⟨hprices, hover⟩
      by_cases hbefore : node.Over b (clock 0 (node.priced parse os))
      · rw [hold b hbefore, List.append_nil] at hprices
        exact .inl ⟨hprices, hbefore⟩
      · exact .inr ⟨hprices, hbefore, hover⟩
    · rintro (⟨hprices, hbefore⟩ | ⟨hprices, -, hover⟩)
      · exact ⟨List.append_ne_nil_of_left_ne_nil hprices _, hbefore.append batch⟩
      · exact ⟨hprices, hover⟩
  have hlt : ∀ a ∈ first, ∀ b ∈ second, a < b := by
    intro a ha b hb
    rw [hfirst, Finset.mem_filter] at ha
    exact Over.lt ha.2 ((hmem b).mp hb).2.1
  unfold closed Groups.inOrder
  rw [hall, ← Groups.sort_filter_append rfl hlt, List.flatMap_append, ← hfirst, ← hsecond]
  congr 1
  · refine List.flatMap_congr fun b hb => ?_
    have hb := (Finset.mem_sort _).mp hb
    rw [hfirst, Finset.mem_filter] at hb
    unfold candle
    rw [pricesIn_append, hold b hb.2, List.append_nil]
  · refine List.flatMap_congr fun b hb => ?_
    have hb := (hmem b).mp ((Finset.mem_sort _).mp hb)
    rw [hbars, if_neg hb.2.1, rowsOf_ofPrices hb.1]

/-- What is open and what has been written, where no priced tick comes late. -/
theorem written_eq {batches : List (List Observation)} (h : Punctual parse node batches.flatten) :
    Keeps parse node ((node.machine parse).state batches) batches.flatten ∧
      node.written parse batches = closed parse node batches.flatten := by
  induction batches using List.reverseRecOn with
  | nil =>
    refine ⟨fun b => ?_, ?_⟩
    · have hnone : ((node.machine parse).state []).opened.lookup b = none := Finmap.lookup_empty b
      have hprices : Bar.ofPrices (node.pricesIn parse [] b) = none := rfl
      rw [hnone, List.flatten_nil, hprices, ite_self]
    · have hnone : ((node.buckets parse []).filter fun b => node.Over b (clock 0 (node.priced parse []))) = ∅ := rfl
      have hclosed : closed parse node [] = [] := by
        unfold closed Groups.inOrder
        rw [hnone, Finset.sort_empty, List.flatMap_nil]
      rw [List.flatten_nil, hclosed]
      rfl
  | append_singleton batches batch ih =>
    rw [List.flatten_append, List.flatten_singleton] at h ⊢
    obtain ⟨hkeeps, hwritten⟩ := ih h.init
    have hlast := received_last parse node batches batch
    have hclock : ((node.machine parse).state (batches ++ [batch])).max_ts_secs =
        clock 0 (node.priced parse (batches.flatten ++ batch)) := by
      rw [state_clock, List.flatten_append, List.flatten_singleton]
    constructor
    · intro b
      rw [hlast.opened, hclock, hkeeps.bars h]
      split_ifs with hover hbefore
      · rfl
      · exact absurd (hbefore.append batch) hover
      · rfl
    · have hrows := hlast.rows
      dsimp only at hrows
      rw [written_snoc, hwritten, hrows]
      exact hkeeps.closed_append h hclock

/-! ## The ticks in the order of their times -/

theorem width_pos (step : Nat) : 0 < width step := lt_of_lt_of_le Int.one_pos (le_max_right _ _)

theorem stepSecs_eq {step : Nat} (h : step ≠ 0) : stepSecs step = width step := by
  unfold width stepSecs
  split_ifs <;> omega

theorem stepSecs_zero : stepSecs 0 = 0 := rfl

theorem bucketOf_le (ts : Int) (step : Nat) : bucketOf ts step ≤ ts := Int.ediv_mul_le ts (width_pos step).ne'

theorem lt_bucketOf (ts : Int) (step : Nat) : ts < bucketOf ts step + width step := by
  have h := Int.lt_ediv_add_one_mul_self ts (width_pos step)
  rw [Int.add_mul, Int.one_mul] at h
  exact h

/-- A bucket before the epoch ends by it. -/
theorem bucketOf_neg {ts : Int} (h : ts < 0) (step : Nat) : bucketOf ts step + width step ≤ 0 := by
  have hdiv : ts / width step + 1 ≤ 0 := Int.ediv_neg_of_neg_of_pos h (width_pos step)
  have hmul := Int.mul_le_mul_of_nonneg_right hdiv (width_pos step).le
  rw [Int.add_mul, Int.one_mul, Int.zero_mul] at hmul
  exact hmul

theorem tsToSecs_mono {a b : Int} (h : a ≤ b) (unit_ms : Nat) : tsToSecs a unit_ms ≤ tsToSecs b unit_ms := by
  refine Int.tdiv_le_tdiv (by decide) (clampI64_mono (Int.mul_le_mul_of_nonneg_right h ?_))
  exact le_trans Int.one_nonneg (le_max_right _ _)

theorem tsToSecs_lt (raw : Int) (unit_ms : Nat) : tsToSecs raw unit_ms < I64_MAX := by
  have hclamp : clampI64 (raw * max (if unit_ms < 2 ^ 63 then (unit_ms : Int) else 1) 1) ≤ I64_MAX := by
    unfold clampI64 I64_MAX
    omega
  exact lt_of_le_of_lt (Int.tdiv_le_tdiv (by decide) hclamp) (by decide)

theorem mem_priced {t : Int × Price} :
    t ∈ node.priced parse os ↔ ∃ o ∈ os, tickPrice parse o = some t.2 ∧ node.secs o = t.1 := by
  unfold priced
  rw [List.mem_filterMap]
  refine exists_congr fun o => and_congr_right fun _ => ?_
  cases tickPrice parse o with
  | none => simp
  | some price => simp [Prod.ext_iff, and_comm]

theorem over_clock : node.Over b (clock 0 (node.priced parse os)) ↔
    b + stepSecs node.step ≤ 0 ∨ ∃ t ∈ node.priced parse os, b + stepSecs node.step ≤ t.1 := by
  rw [← le_clock]
  have hnonneg : 0 ≤ clock 0 (node.priced parse os) := le_clock.mpr (.inl (le_refl 0))
  have hlt : clock 0 (node.priced parse os) < I64_MAX := by
    by_contra hle
    rcases le_clock.mp (not_lt.mp hle) with h | ⟨t, ht, h⟩
    · exact absurd h (by decide)
    · obtain ⟨o, -, -, hsecs⟩ := mem_priced.mp ht
      have hle : I64_MAX ≤ node.secs o := by rwa [hsecs]
      exact absurd (tsToSecs_lt o.ts node.unit_ms) (not_lt.mpr hle)
  -- the sum does not saturate at a time that a tick can have
  unfold Over clampI64
  unfold I64_MAX at hlt ⊢
  omega

variable (parse node)

/-- The candles that should be written: one for every bucket with a priced tick that ends by the largest time seen. -/
def candles (os : List Observation) : List Observation :=
  (Groups.inOrder ((node.buckets parse os).filter fun b => ∃ o ∈ os, b + width node.step ≤ node.secs o)).flatMap
    (node.candle parse os)

/-- However the ticks are cut into batches, after every batch the candles are written that should be, and none of them is of a
bucket with a tick that is still to come. -/
def IndependentOfBatches (ticks : List Observation) : Prop :=
  ∀ batches : List (List Observation), batches.flatten = ticks → ∀ bs, bs <+: batches →
    node.written parse bs = node.candles parse bs.flatten ∧
      ∀ later, bs.flatten ++ later = ticks → ∀ o ∈ node.written parse bs, ∀ t ∈ node.priced parse later, node.bucket t ≠ o.ts

/-- The length of a bucket is not a multiple of `2 ^ 64`, no priced tick is before the epoch, and no bucket is over by an
observation without a price alone. -/
structure Timely (ticks : List Observation) : Prop where
  length : node.step = 0 → node.priced parse ticks = []
  epoch : ∀ t ∈ node.priced parse ticks, 0 ≤ t.1
  ended : ∀ seen, seen <+: ticks → ∀ t ∈ node.priced parse seen, ∀ o ∈ seen, node.bucket t + width node.step ≤ node.secs o →
    ∃ t' ∈ node.priced parse seen, node.bucket t + width node.step ≤ t'.1

variable {parse node}

theorem barObservations_ts {bar : Bar} {symbol resolution : String} {o : Observation} (h : o ∈ barObservations b bar symbol resolution) :
    o.ts = b := by
  unfold barObservations at h
  obtain ⟨field, -, rfl⟩ := List.mem_map.mp h
  rfl

variable (parse node) in
/-- The buckets whose candles are written can be read off the observations. -/
theorem mem_of_flatMap_candle (os : List Observation) {bs : List Int} :
    b ∈ bs ↔ ∃ o ∈ bs.flatMap (node.candle parse os), o.ts = b := by
  constructor
  · intro hb
    obtain ⟨o, hcandle⟩ : ∃ o, o ∈ node.candle parse os b := ⟨_, List.mem_cons_self⟩
    exact ⟨o, List.mem_flatMap.mpr ⟨b, hb, hcandle⟩, barObservations_ts hcandle⟩
  · rintro ⟨o, ho, rfl⟩
    obtain ⟨b, hb, ho⟩ := List.mem_flatMap.mp ho
    exact barObservations_ts ho ▸ hb

variable {seen later : List Observation}

/-- In the order of their times, a tick is not before one that has been seen. -/
theorem priced_le (h : (seen ++ later).Pairwise fun a b => a.ts ≤ b.ts) {t : Int × Price} (ht : t ∈ node.priced parse later)
    {o : Observation} (ho : o ∈ seen) : node.secs o ≤ t.1 := by
  obtain ⟨o', ho', -, hsecs⟩ := mem_priced.mp ht
  rw [← hsecs]
  exact tsToSecs_mono ((List.pairwise_append.mp h).2.2 o ho o' ho') node.unit_ms

variable {ticks : List Observation}

theorem Timely.stepSecs (h : Timely parse node ticks) {t : Int × Price} (ht : t ∈ node.priced parse ticks) :
    stepSecs node.step = width node.step := by
  refine stepSecs_eq fun hzero => ?_
  rw [h.length hzero] at ht
  exact absurd ht List.not_mem_nil

theorem Timely.punctual (hsorted : ticks.Pairwise fun a b => a.ts ≤ b.ts) (h : Timely parse node ticks) :
    Punctual parse node ticks := by
  rintro seen later rfl t ht hover
  have hmem : t ∈ node.priced parse (seen ++ later) := priced_append seen later ▸ List.mem_append_right _ ht
  have hepoch := h.epoch t hmem
  have hlt : t.1 < node.bucket t + width node.step := lt_bucketOf t.1 node.step
  rw [over_clock, h.stepSecs hmem] at hover
  rcases hover with hover | ⟨t', ht', hover⟩
  · omega
  · obtain ⟨o', ho', -, hsecs⟩ := mem_priced.mp ht'
    have hle := priced_le hsorted ht ho'
    omega

/-- The buckets that are over by the clock are those that end by the largest time seen. -/
theorem Timely.closed_eq (h : Timely parse node (seen ++ later)) :
    closed parse node seen = node.candles parse seen := by
  have hmem : ∀ t ∈ node.priced parse seen, t ∈ node.priced parse (seen ++ later) := by
    intro t ht
    rw [priced_append]
    exact List.mem_append_left _ ht
  have hfilter : (node.buckets parse seen).filter (fun b => node.Over b (clock 0 (node.priced parse seen))) =
      (node.buckets parse seen).filter fun b => ∃ o ∈ seen, b + width node.step ≤ node.secs o := by
    refine Finset.filter_congr fun b hb => ?_
    obtain ⟨t, ht, rfl⟩ := List.mem_map.mp (List.mem_toFinset.mp hb)
    rw [over_clock, h.stepSecs (hmem t ht)]
    constructor
    · rintro (hover | ⟨t', ht', hover⟩)
      · have hepoch := h.epoch t (hmem t ht)
        have hlt : t.1 < node.bucket t + width node.step := lt_bucketOf t.1 node.step
        omega
      · obtain ⟨o', ho', -, hsecs⟩ := mem_priced.mp ht'
        exact ⟨o', ho', hsecs ▸ hover⟩
    · rintro ⟨o, ho, hover⟩
      exact .inr (h.ended seen (List.prefix_append _ _) t ht o ho hover)
  unfold closed candles Groups.inOrder
  rw [hfilter]

theorem Timely.independent (hsorted : ticks.Pairwise fun a b => a.ts ≤ b.ts) (h : Timely parse node ticks) :
    IndependentOfBatches parse node ticks := by
  rintro batches rfl bs ⟨rest, rfl⟩
  rw [List.flatten_append] at h hsorted ⊢
  have hpunctual := h.punctual hsorted
  have hwritten := (written_eq hpunctual.init).2
  refine ⟨hwritten.trans h.closed_eq, ?_⟩
  intro later hlater o ho t ht heq
  rw [hwritten] at ho
  have hover := (Finset.mem_sort _).mp ((mem_of_flatMap_candle parse node _).mpr ⟨o, ho, rfl⟩)
  refine hpunctual bs.flatten later hlater t ht ?_
  rw [heq]
  exact (Finset.mem_filter.mp hover).2

/-- What a node writes for its first message. -/
theorem written_one (os : List Observation) : node.written parse [os] = closed parse node os := by
  have hlast := received_last parse node [] os
  have hclock : ((node.machine parse).state [os]).max_ts_secs = clock 0 (node.priced parse os) := by
    rw [state_clock, List.flatten_singleton]
  have hbars : ∀ b, (node.bars Running.start.opened (node.priced parse os)).lookup b = Bar.ofPrices (node.pricesIn parse os b) := by
    intro b
    have hnone : Running.start.opened.lookup b = Bar.ofPrices [] := Finmap.lookup_empty b
    rw [bars_lookup, hnone, Bar.foldl_push]
    rfl
  have hrows := hlast.rows
  dsimp only [List.nil_append, Machine.state_nil] at hrows
  have hwritten : node.written parse [os] = (node.machine parse).out (node.machine parse).init os := by
    have hsnoc := written_snoc parse node [] os
    exact hsnoc
  have hkeys : (node.bars Running.start.opened (node.priced parse os)).keys = node.buckets parse os := by
    ext b
    rw [Finmap.mem_keys, ← Finmap.lookup_isSome, hbars, mem_buckets]
    unfold Bar.ofPrices
    split_ifs with hnil <;> simp [hnil]
  have hstart : (node.machine parse).init = Running.start := rfl
  simp only [hclock, hstart, hkeys] at hrows
  rw [hwritten, hstart, hrows]
  unfold closed Groups.inOrder
  refine List.flatMap_congr fun b hb => ?_
  have hb := (Finset.mem_filter.mp ((Finset.mem_sort _).mp hb)).1
  rw [hbars, rowsOf_ofPrices hb]

/-- Where the candles do not depend on the batches, a bucket is over by the clock exactly when it ends by the largest time seen. -/
theorem IndependentOfBatches.over_iff (h : IndependentOfBatches parse node (seen ++ later)) (hb : b ∈ node.buckets parse seen) :
    node.Over b (clock 0 (node.priced parse seen)) ↔ ∃ o ∈ seen, b + width node.step ≤ node.secs o := by
  have hwritten := (h [seen, later] (by simp) [seen] (List.prefix_append [seen] [later])).1
  rw [written_one, List.flatten_singleton] at hwritten
  have hclosed : b ∈ ((node.buckets parse seen).filter fun b => node.Over b (clock 0 (node.priced parse seen))).sort ↔
      b ∈ ((node.buckets parse seen).filter fun b => ∃ o ∈ seen, b + width node.step ≤ node.secs o).sort := by
    rw [mem_of_flatMap_candle parse node seen, mem_of_flatMap_candle parse node seen]
    unfold closed candles Groups.inOrder at hwritten
    rw [hwritten]
  rw [Finset.mem_sort, Finset.mem_sort, Finset.mem_filter, Finset.mem_filter] at hclosed
  simpa only [hb, true_and] using hclosed

/-- The first priced tick of a stream. -/
theorem exists_first_priced (h : node.priced parse ticks ≠ []) :
    ∃ before o later price, ticks = before ++ o :: later ∧ node.priced parse before = [] ∧ tickPrice parse o = some price := by
  induction ticks with
  | nil => exact absurd rfl h
  | cons o ticks ih =>
    cases hprice : tickPrice parse o with
    | some price => exact ⟨[], o, ticks, price, rfl, rfl, hprice⟩
    | none =>
      have hskip : ∀ os, node.priced parse (o :: os) = node.priced parse os := by
        intro os
        unfold priced
        rw [List.filterMap_cons, hprice]
        rfl
      rw [hskip] at h
      obtain ⟨before, o', later, price, rfl, hbefore, hprice'⟩ := ih h
      exact ⟨o :: before, o', later, price, rfl, (hskip before).trans hbefore, hprice'⟩

/-- The first priced tick is not before the epoch, and its bucket has a length. -/
theorem IndependentOfBatches.first (hsorted : ticks.Pairwise fun a b => a.ts ≤ b.ts) (h : IndependentOfBatches parse node ticks)
    (hpriced : node.priced parse ticks ≠ []) :
    node.step ≠ 0 ∧ ∀ t ∈ node.priced parse ticks, 0 ≤ t.1 := by
  obtain ⟨before, o, later, price, rfl, hbefore, hprice⟩ := exists_first_priced hpriced
  have hsplit : before ++ o :: later = (before ++ [o]) ++ later := by simp
  have hone : node.priced parse (before ++ [o]) = [(node.secs o, price)] := by
    rw [priced_append, hbefore, List.nil_append]
    simp [priced, hprice]
  rw [hsplit] at h
  have hmem : bucketOf (node.secs o) node.step ∈ node.buckets parse (before ++ [o]) := by
    unfold buckets
    rw [hone]
    exact List.mem_toFinset.mpr List.mem_cons_self
  have hlt : node.secs o < bucketOf (node.secs o) node.step + width node.step := lt_bucketOf _ _
  -- its bucket does not end by its time
  have hopen : ¬∃ o' ∈ before ++ [o], bucketOf (node.secs o) node.step + width node.step ≤ node.secs o' := by
    rintro ⟨o', ho', hover⟩
    have hle : o'.ts ≤ o.ts := by
      rcases List.mem_append.mp ho' with ho' | ho'
      · exact (List.pairwise_append.mp hsorted).2.2 o' ho' o List.mem_cons_self
      · rw [List.mem_singleton.mp ho']
    have hsecs : node.secs o' ≤ node.secs o := tsToSecs_mono hle node.unit_ms
    omega
  rw [← h.over_iff hmem, over_clock, hone] at hopen
  push Not at hopen
  obtain ⟨hzero, hover⟩ := hopen
  have hover := hover _ List.mem_cons_self
  dsimp only at hover
  have hstep : node.step ≠ 0 := by
    intro hstep
    have hle := bucketOf_le (node.secs o) node.step
    rw [hstep, stepSecs_zero] at hover
    rw [hstep] at hle
    omega
  refine ⟨hstep, ?_⟩
  have hepoch : 0 ≤ node.secs o := by
    by_contra hneg
    have hend := bucketOf_neg (not_le.mp hneg) node.step
    rw [stepSecs_eq hstep] at hzero
    omega
  intro t ht
  have hcons : before ++ o :: later = before ++ ([o] ++ later) := rfl
  rw [hcons, priced_append, hbefore, List.nil_append, priced_append] at ht
  rcases List.mem_append.mp ht with ht | ht
  · obtain ⟨o', ho', -, hsecs⟩ := mem_priced.mp ht
    rw [← hsecs, List.mem_singleton.mp ho']
    exact hepoch
  · have hle := priced_le (hsplit ▸ hsorted) ht (List.mem_append_right before (List.mem_singleton_self o))
    exact hepoch.trans hle

theorem IndependentOfBatches.timely (hsorted : ticks.Pairwise fun a b => a.ts ≤ b.ts) (h : IndependentOfBatches parse node ticks) :
    Timely parse node ticks := by
  by_cases hpriced : node.priced parse ticks = []
  · refine ⟨fun _ => hpriced, ?_, ?_⟩
    · rw [hpriced]
      exact fun t ht => absurd ht List.not_mem_nil
    · rintro seen ⟨later, rfl⟩ t ht
      rw [priced_append, List.append_eq_nil_iff] at hpriced
      rw [hpriced.1] at ht
      exact absurd ht List.not_mem_nil
  · obtain ⟨hstep, hepoch⟩ := h.first hsorted hpriced
    refine ⟨fun hzero => absurd hzero hstep, hepoch, ?_⟩
    rintro seen ⟨later, rfl⟩ t ht o ho hover
    have hmem : node.bucket t ∈ node.buckets parse seen := List.mem_toFinset.mpr (List.mem_map_of_mem ht)
    have hclock := (h.over_iff hmem).mpr ⟨o, ho, hover⟩
    rw [over_clock, stepSecs_eq hstep] at hclock
    rcases hclock with hzero | hclock
    · have hnonneg := hepoch t (priced_append seen later ▸ List.mem_append_left _ ht)
      have hlt : t.1 < node.bucket t + width node.step := lt_bucketOf t.1 node.step
      omega
    · exact hclock

end Tick2Candle

/-- The candles of ticks in the order of their times do not depend on the batches exactly when the ticks are timely. -/
theorem candles_independent_iff (parse : String → Option UInt64) (node : Tick2Candle) (ticks : List Observation)
    (h : ticks.Pairwise fun a b => a.ts ≤ b.ts) :
    Tick2Candle.IndependentOfBatches parse node ticks ↔ Tick2Candle.Timely parse node ticks :=
  ⟨fun hi => hi.timely h, fun ht => ht.independent h⟩

/-- Two ticks a minute apart, both with a price. -/
theorem candles_independent_iff_twoTicks :
    Tick2Candle.IndependentOfBatches (fun _ => none) ⟨"", "BTC", 1000⟩
        [⟨0, "BTC", .metric, .raw, 1, ⟨[], List.Pairwise.nil⟩, none⟩, ⟨60, "BTC", .metric, .raw, 1, ⟨[], List.Pairwise.nil⟩, none⟩] ↔
      Tick2Candle.Timely (fun _ => none) ⟨"", "BTC", 1000⟩
        [⟨0, "BTC", .metric, .raw, 1, ⟨[], List.Pairwise.nil⟩, none⟩, ⟨60, "BTC", .metric, .raw, 1, ⟨[], List.Pairwise.nil⟩, none⟩] :=
  candles_independent_iff _ _ _ (by decide)

/-- A tick without a price a minute after one with a price: its bucket ends by the largest time seen, and its candle is not
written. -/
theorem unpriced_tick_ends_no_bucket :
    [(⟨0, "BTC", .metric, .raw, 1, ⟨[], List.Pairwise.nil⟩, none⟩ : Observation),
      ⟨60, "BTC", .metric, .raw, 0, ⟨[], List.Pairwise.nil⟩, none⟩].Pairwise (fun a b => a.ts ≤ b.ts) ∧
    ¬Tick2Candle.IndependentOfBatches (fun _ => none) ⟨"", "BTC", 1000⟩
      [⟨0, "BTC", .metric, .raw, 1, ⟨[], List.Pairwise.nil⟩, none⟩, ⟨60, "BTC", .metric, .raw, 0, ⟨[], List.Pairwise.nil⟩, none⟩] := by
  refine ⟨by decide, fun h => ?_⟩
  have hmem : (0 : Int) ∈ Tick2Candle.buckets (fun _ => none) ⟨"", "BTC", 1000⟩
      [⟨0, "BTC", .metric, .raw, 1, ⟨[], List.Pairwise.nil⟩, none⟩, ⟨60, "BTC", .metric, .raw, 0, ⟨[], List.Pairwise.nil⟩, none⟩] := by
    decide +kernel
  rw [← List.append_nil (_ :: _)] at h
  have hover := h.over_iff hmem
  revert hover
  decide +kernel

end Opsense
