import Opsense.Kernel.Grid
import Opsense.Lib.Query
import Opsense.Station.Config
import Opsense.Storage.ClearCrash

/-!
# Three backends for points

`TimeseriesStorage` in memory (`in_memory.rs`), in SQLite (`sqlite.rs`) and over Parquet files (`parquet.rs`), with the queries of
the trait. The first answers by the order of the appends, the second by the time as a signed number, and the third keeps one point
for each time. So the three agree, and answer what the trait says, along every run that appends to a series at rising times
(`backends_agree`). SQLite sorts points of one time as it likes (`OrderBy`).
-/

namespace Opsense

/-- A change of the points, with the millisecond of the flush it may cause. -/
inductive TsUpdate where
  | append (a : Append) (stamp : Nat)
  | clearSeries (series : Bytes) (stamp : Nat)
  | clearAllSeries
deriving DecidableEq

/-! ## What is appended and not cleared -/

def heldStep (log : List Append) : TsUpdate → List Append
  | .append a _ => log ++ [a]
  | .clearSeries series _ => log.filter fun a => a.series ≠ series
  | .clearAllSeries => []

def held : Machine (List Append) TsUpdate Unit := ⟨[], fun log u => (heldStep log u, ())⟩

/-- The points of a series, in the order of the appends. -/
def pointsOf (log : List Append) (series : Bytes) : List (Nat × Bytes) := (appended log series).map Append.point

/-- An append comes after all points of its series, at a time that a signed number holds. -/
def Later (log : List Append) : TsUpdate → Prop
  | .append a _ => a.ts < 2 ^ 63 ∧ ∀ p ∈ pointsOf log a.series, p.1 < a.ts
  | _ => True

instance (log : List Append) : ∀ u, Decidable (Later log u)
  | .append a _ => inferInstanceAs (Decidable (a.ts < 2 ^ 63 ∧ ∀ p ∈ pointsOf log a.series, p.1 < a.ts))
  | .clearSeries _ _ => isTrue trivial
  | .clearAllSeries => isTrue trivial

/-- The times and the limit of a query are those that SQLite takes as they are; a series has fewer points than a limit can say. -/
def Query.Fits (pts : List (Nat × Bytes)) : Query Nat → Prop
  | .range start_ts end_ts => start_ts < 2 ^ 63 ∧ end_ts < 2 ^ 63
  | .latest limit => limit < 2 ^ 64 ∧ pts.length < 2 ^ 63
  | _ => True

theorem pointsOf_snoc (log : List Append) (a : Append) (series : Bytes) :
    pointsOf (log ++ [a]) series = pointsOf log series ++ if a.series = series then [a.point] else [] := by
  unfold pointsOf appended
  rw [List.filter_append, List.map_append]
  by_cases h : a.series = series <;> simp [h]

/-- A clearing leaves the other series. -/
theorem appended_cleared (log : List Append) (cleared series : Bytes) :
    appended (log.filter fun a => a.series ≠ cleared) series = if series = cleared then [] else appended log series := by
  unfold appended
  rw [List.filter_filter]
  split_ifs with h
  · refine List.filter_eq_nil_iff.mpr fun a _ => ?_
    simp [h]
  · refine List.filter_congr fun a _ => ?_
    by_cases ha : a.series = series
    · simp [ha, h]
    · simp [ha]

theorem pointsOf_cleared (log : List Append) (cleared series : Bytes) :
    pointsOf (log.filter fun a => a.series ≠ cleared) series = if series = cleared then [] else pointsOf log series := by
  unfold pointsOf
  rw [appended_cleared]
  split_ifs <;> rfl

/-- The points of every series are in the order of their times, which fit a signed number. -/
structure InTime (log : List Append) : Prop where
  rising : ∀ series, Query.Rising (pointsOf log series)
  fits : ∀ a ∈ log, a.ts < 2 ^ 63

theorem InTime.step {log : List Append} (h : InTime log) (u : TsUpdate) (hlater : Later log u) : InTime (heldStep log u) := by
  cases u with
  | append a stamp =>
    refine ⟨fun series => ?_, fun b hb => ?_⟩
    · rw [heldStep, pointsOf_snoc]
      split_ifs with hseries
      · subst hseries
        exact Query.rising_snoc (h.rising _) hlater.2
      · rw [List.append_nil]
        exact h.rising series
    · rcases List.mem_append.mp hb with hb | hb
      · exact h.fits b hb
      · rw [List.mem_singleton.mp hb]
        exact hlater.1
  | clearSeries cleared stamp =>
    refine ⟨fun series => ?_, fun b hb => h.fits b (List.mem_filter.mp hb).1⟩
    rw [heldStep, pointsOf_cleared]
    split_ifs
    · exact List.Pairwise.nil
    · exact h.rising series
  | clearAllSeries => exact ⟨fun series => List.Pairwise.nil, fun b hb => absurd hb List.not_mem_nil⟩

theorem inTime (us : List TsUpdate) (hlater : held.Along Later us) : InTime (held.state us) :=
  Machine.invariant_of_along (M := held) (I := InTime) (C := Later)
    ⟨fun _ => List.Pairwise.nil, fun _ hb => absurd hb List.not_mem_nil⟩ (fun _ u h hu => h.step u hu) us hlater

/-! ## In memory -/

namespace InMemoryStorage

def range (d : InMemoryStorage) (series : Bytes) (start_ts end_ts : Nat) : List (Nat × Bytes) :=
  match d.timeseries.lookup series with
  | some pts => pts.filter fun p => start_ts ≤ p.1 ∧ p.1 ≤ end_ts
  | none => []

def first (d : InMemoryStorage) (series : Bytes) : Option (Nat × Bytes) := (d.timeseries.lookup series).bind List.head?

def last (d : InMemoryStorage) (series : Bytes) : Option (Nat × Bytes) := (d.timeseries.lookup series).bind List.getLast?

def clearSeries (d : InMemoryStorage) (series : Bytes) : InMemoryStorage := ⟨d.timeseries.erase series⟩

def query (d : InMemoryStorage) (series : Bytes) : Query Nat → List (Nat × Bytes)
  | .range start_ts end_ts => d.range series start_ts end_ts
  | .latest limit => d.latest series limit
  | .first => (d.first series).toList
  | .last => (d.last series).toList

def update (d : InMemoryStorage) : TsUpdate → InMemoryStorage
  | .append a _ => d.append a
  | .clearSeries series _ => d.clearSeries series
  | .clearAllSeries => d.clearAllSeries

def machine : Machine InMemoryStorage TsUpdate Unit := ⟨new, fun d u => (d.update u, ())⟩

/-- A query is answered by position. -/
theorem query_eq (d : InMemoryStorage) (series : Bytes) (q : Query Nat) :
    d.query series q = Query.read ((d.timeseries.lookup series).getD []) q := by
  cases q <;> simp only [query, range, latest, first, last, Query.read] <;> cases d.timeseries.lookup series <;> simp

theorem lookup_run (us : List TsUpdate) (series : Bytes) :
    ((machine.state us).timeseries.lookup series).getD [] = pointsOf (held.state us) series := by
  induction us using List.reverseRecOn with
  | nil => rfl
  | append_singleton us u ih =>
    rw [Machine.state_snoc, Machine.state_snoc]
    generalize machine.state us = d at ih
    generalize held.state us = log at ih
    change ((d.update u).timeseries.lookup series).getD [] = pointsOf (heldStep log u) series
    cases u with
    | append a stamp => rw [heldStep, pointsOf_snoc, ← ih, update, lookup_append]
    | clearSeries cleared stamp =>
      rw [heldStep, pointsOf_cleared, ← ih, update, clearSeries]
      split_ifs with h
      · rw [h, AList.lookup_erase]
        rfl
      · rw [AList.lookup_erase_ne h]
    | clearAllSeries => rfl

end InMemoryStorage

/-! ## SQLite -/

/-- The table `ts_points`: series, time and value, in the order of the insertions. -/
structure SqlitePoints where
  rows : List (Bytes × Int × Bytes)
deriving DecidableEq

namespace SqlitePoints

variable (order : OrderBy Int Bytes)

/-- `LIMIT`, which a negative number turns off. -/
def limited (limit : Int) (rows : List (Int × Bytes)) : List (Int × Bytes) := if limit < 0 then rows else rows.take limit.toNat

/-- A row as a point. -/
def point (row : Int × Bytes) : Nat × Bytes := (asU64 row.1, row.2)

def ofSeries (s : SqlitePoints) (series : Bytes) : List (Int × Bytes) := (s.rows.filter fun r => r.1 = series).map Prod.snd

def append (s : SqlitePoints) (a : Append) : SqlitePoints := ⟨s.rows ++ [(a.series, asI64 a.ts, a.value)]⟩

def range (s : SqlitePoints) (series : Bytes) (start_ts end_ts : Nat) : List (Nat × Bytes) :=
  (order.asc ((s.ofSeries series).filter fun r => asI64 start_ts ≤ r.1 ∧ r.1 ≤ asI64 end_ts)).map point

def latest (s : SqlitePoints) (series : Bytes) (limit : Nat) : List (Nat × Bytes) :=
  ((limited (asI64 limit) (order.desc (s.ofSeries series))).map point).reverse

def first (s : SqlitePoints) (series : Bytes) : Option (Nat × Bytes) := (order.asc (s.ofSeries series)).head?.map point

def last (s : SqlitePoints) (series : Bytes) : Option (Nat × Bytes) := (order.desc (s.ofSeries series)).head?.map point

def clearSeries (s : SqlitePoints) (series : Bytes) : SqlitePoints := ⟨s.rows.filter fun r => r.1 ≠ series⟩

def clearAllSeries (_ : SqlitePoints) : SqlitePoints := ⟨[]⟩

def query (s : SqlitePoints) (series : Bytes) : Query Nat → List (Nat × Bytes)
  | .range start_ts end_ts => s.range order series start_ts end_ts
  | .latest limit => s.latest order series limit
  | .first => (s.first order series).toList
  | .last => (s.last order series).toList

def update (s : SqlitePoints) : TsUpdate → SqlitePoints
  | .append a _ => s.append a
  | .clearSeries series _ => s.clearSeries series
  | .clearAllSeries => s.clearAllSeries

def machine : Machine SqlitePoints TsUpdate Unit := ⟨⟨[]⟩, fun s u => (s.update u, ())⟩

theorem rows_run (us : List TsUpdate) :
    (machine.state us).rows = (held.state us).map fun a => (a.series, asI64 a.ts, a.value) := by
  induction us using List.reverseRecOn with
  | nil => rfl
  | append_singleton us u ih =>
    rw [Machine.state_snoc, Machine.state_snoc]
    generalize machine.state us = s at ih
    generalize held.state us = log at ih
    change (s.update u).rows = (heldStep log u).map _
    cases u with
    | append a stamp =>
      rw [heldStep, List.map_append, ← ih]
      rfl
    | clearSeries cleared stamp =>
      rw [heldStep, update, clearSeries, ih, List.filter_map]
      rfl
    | clearAllSeries => rfl

/-- A point as a row. -/
def row (p : Nat × Bytes) : Int × Bytes := (p.1, p.2)

theorem point_row {p : Nat × Bytes} (h : p.1 < 2 ^ 63) : point (row p) = p := by
  unfold point row
  rw [asU64_of_nonneg (Int.natCast_nonneg p.1) (by exact_mod_cast h)]
  rfl

/-- The rows of a series are its points with signed times. -/
theorem ofSeries_run {us : List TsUpdate} (h : InTime (held.state us)) (series : Bytes) :
    (machine.state us).ofSeries series = (pointsOf (held.state us) series).map row := by
  unfold ofSeries pointsOf appended
  rw [rows_run, List.filter_map, List.map_map, List.map_map]
  refine List.map_congr_left fun a ha => ?_
  have hfits := asI64_of_lt (h.fits a (List.mem_filter.mp ha).1)
  simp [hfits, Append.point, row]

theorem query_run {us : List TsUpdate} (h : InTime (held.state us)) (series : Bytes) {q : Query Nat}
    (hq : q.Fits (pointsOf (held.state us) series)) :
    (machine.state us).query order series q = Query.read (pointsOf (held.state us) series) q := by
  have hrows := ofSeries_run h series
  have hfits : ∀ p ∈ pointsOf (held.state us) series, p.1 < 2 ^ 63 := by
    intro p hp
    obtain ⟨a, ha, rfl⟩ := List.mem_map.mp hp
    exact h.fits a (List.mem_filter.mp ha).1
  have hrising : Query.Rising ((pointsOf (held.state us) series).map row) :=
    List.pairwise_map.mpr ((h.rising series).imp fun hlt => Int.ofNat_lt.mpr hlt)
  generalize pointsOf (held.state us) series = pts at hrows hfits hrising hq
  have hback : ∀ sub : List (Nat × Bytes), sub ⊆ pts → (sub.map row).map point = sub := by
    intro sub hsub
    rw [List.map_map]
    conv_rhs => rw [← List.map_id sub]
    exact List.map_congr_left fun p hp => point_row (hfits p (hsub hp))
  have hasc : order.asc (pts.map row) = pts.map row := hrising.eq_of_perm (order.asc_perm _) (order.asc_sorted _)
  have hdesc : order.desc (pts.map row) = (pts.map row).reverse := hrising.eq_reverse (order.desc_perm _) (order.desc_sorted _)
  cases q with
  | range start_ts end_ts =>
    obtain ⟨hstart, hend⟩ := hq
    obtain ⟨sub, hsub⟩ : ∃ sub, sub = pts.filter fun p => start_ts ≤ p.1 ∧ p.1 ≤ end_ts := ⟨_, rfl⟩
    have hsame : ((pts.map row).filter fun r => asI64 start_ts ≤ r.1 ∧ r.1 ≤ asI64 end_ts) = sub.map row := by
      rw [List.filter_map, asI64_of_lt hstart, asI64_of_lt hend, hsub]
      simp [Function.comp_def, row]
    have hsorted : order.asc (sub.map row) = sub.map row := by
      rw [← hsame]
      exact (hrising.filter _).eq_of_perm (order.asc_perm _) (order.asc_sorted _)
    have hsubset : sub ⊆ pts := hsub ▸ List.filter_subset_self _
    rw [query, range, hrows, hsame, hsorted, hback sub hsubset, Query.read, hsub]
  | latest limit =>
    rw [query, latest, hrows, hdesc, limited, Query.read]
    split_ifs with hneg
    · have hlimit : pts.length ≤ limit := by
        by_contra hlt
        rw [asI64_of_lt (by have := hq.2; omega)] at hneg
        omega
      rw [← List.map_reverse, List.reverse_reverse, hback _ (List.Subset.refl _), Nat.sub_eq_zero_of_le hlimit, List.drop_zero]
    · have hlimit : limit < 2 ^ 63 := by
        by_contra hge
        exact hneg (asI64_neg (not_lt.mp hge) hq.1)
      rw [asI64_of_lt hlimit, Int.toNat_natCast, List.take_reverse, ← List.map_reverse, List.reverse_reverse, List.length_map,
        ← List.map_drop, hback _ (List.drop_subset _ _)]
  | first =>
    have hhead := congrArg List.head? (hback pts (List.Subset.refl _))
    rw [List.head?_map] at hhead
    rw [query, first, hrows, hasc, hhead, Query.read]
  | last =>
    have hlast := congrArg List.getLast? (hback pts (List.Subset.refl _))
    rw [List.getLast?_map] at hlast
    rw [query, last, hrows, hdesc, List.head?_reverse, hlast, Query.read]

end SqlitePoints

/-! ## Over Parquet files -/

namespace Lakehouse

def range (s : Lakehouse) (series : Bytes) (start_ts end_ts : Nat) : List (Nat × Bytes) :=
  ((s.points series).filter fun p => start_ts ≤ p.1 ∧ p.1 ≤ end_ts).insertionSort fun p q => p.1 ≤ q.1

def first (s : Lakehouse) (series : Bytes) : Option (Nat × Bytes) :=
  ((s.points series).insertionSort fun p q => p.1 ≤ q.1).head?

def last (s : Lakehouse) (series : Bytes) : Option (Nat × Bytes) :=
  ((s.points series).insertionSort fun p q => q.1 ≤ p.1).head?

def query (s : Lakehouse) (series : Bytes) : Query Nat → List (Nat × Bytes)
  | .range start_ts end_ts => s.range series start_ts end_ts
  | .latest limit => s.latest series limit
  | .first => (s.first series).toList
  | .last => (s.last series).toList

/-- A query is answered from the sorted points. -/
theorem query_eq (s : Lakehouse) (series : Bytes) (q : Query Nat) :
    s.query series q = OrderBy.sortByKey.read (s.points series) q := by
  cases q <;> rfl

theorem lastValue_cleared (log : List Append) (cleared : Bytes) (key : Bytes × Nat) :
    lastValue (log.filter fun a => a.series ≠ cleared) key = if key.1 = cleared then none else lastValue log key := by
  unfold lastValue
  rw [appended_cleared]
  split_ifs <;> rfl

/-- Where no time is repeated, the value appended last for a time is the only one. -/
theorem lastValue_eq_some {log : List Append} {series : Bytes} (h : Query.Rising (pointsOf log series)) {p : Nat × Bytes} :
    lastValue log (series, p.1) = some p.2 ↔ p ∈ pointsOf log series := by
  unfold lastValue
  dsimp only
  rw [Option.map_eq_some_iff]
  constructor
  · rintro ⟨a, hlast, hvalue⟩
    obtain ⟨ha, htime⟩ := List.mem_filter.mp (List.mem_of_getLast? hlast)
    exact List.mem_map.mpr ⟨a, ha, Prod.ext (of_decide_eq_true htime) hvalue⟩
  · intro hp
    obtain ⟨a, ha, rfl⟩ := List.mem_map.mp hp
    cases hlast : ((appended log series).filter fun b => b.ts = a.point.1).getLast? with
    | none =>
      have hin : a ∈ (appended log series).filter fun b => b.ts = a.point.1 := List.mem_filter.mpr ⟨ha, by simp [Append.point]⟩
      rw [List.getLast?_eq_none_iff.mp hlast] at hin
      cases hin
    | some b =>
      obtain ⟨hb, htime⟩ := List.mem_filter.mp (List.mem_of_getLast? hlast)
      have hsame := h.eq_of_time (List.mem_map_of_mem hb) (List.mem_map_of_mem ha) (of_decide_eq_true htime)
      exact ⟨b, rfl, congrArg Prod.snd hsame⟩

end Lakehouse

namespace Store

variable (flush_threshold block_secs : Nat)

def update (s : Store) : TsUpdate → Store
  | .append a stamp => s.append flush_threshold block_secs a stamp
  | .clearSeries series stamp => s.clearSeries block_secs stamp series
  | .clearAllSeries => s.clearAllSeries

def points : Machine Store TsUpdate Unit := ⟨new, fun s u => (s.update flush_threshold block_secs u, ())⟩

/-- An append that flushes, flushes to new files. -/
def FreshUpdate (s : Store) : TsUpdate → Prop
  | .append a stamp => Lakehouse.FreshFlush flush_threshold block_secs s.inner.lake (a, stamp)
  | _ => True

instance (s : Store) : ∀ u, Decidable (FreshUpdate flush_threshold block_secs s u)
  | .append a stamp => inferInstanceAs (Decidable ((s.inner.lake.bufferPoint a).Full flush_threshold →
      (s.inner.lake.bufferPoint a).Fresh block_secs stamp))
  | .clearSeries _ _ => isTrue trivial
  | .clearAllSeries => isTrue trivial

variable {flush_threshold block_secs}

/-- After a clearing the series has no answers, and the others have those they had. -/
theorem answer_clearSeries {s : Store} (h : s.inner.lake.RowsApart) (block_secs stamp : Nat) (series : Bytes) :
    (s.clearSeries block_secs stamp series).inner.lake.RowsApart ∧
      ∀ key, (s.clearSeries block_secs stamp series).inner.lake.answer key =
        if key.1 = series then none else s.inner.lake.answer key := by
  have hmanifest : (s.keptLake series).ts_manifest = [] := (putPoints_rest _ _).1
  have hfresh : (s.keptLake series).Fresh block_secs stamp := by
    intro b _ hb
    rw [hmanifest] at hb
    cases hb
  obtain ⟨hapart, hanswer⟩ := Lakehouse.answer_flush (apart_keptLake h series) hfresh
  rw [clearSeries_lake]
  refine ⟨hapart, fun key => ?_⟩
  rw [hanswer, Lakehouse.answer_eq (apart_keptLake h series), keptLake_lookup, hmanifest]
  exact Option.or_none

theorem answer_clearAllSeries {s : Store} (h : s.inner.lake.RowsApart) :
    s.clearAllSeries.inner.lake.RowsApart ∧ ∀ key, s.clearAllSeries.inner.lake.answer key = none := by
  have hapart : s.clearAllSeries.inner.lake.RowsApart := apart_removed h s.inner.lake.ts_manifest
  refine ⟨hapart, fun key => ?_⟩
  rw [Lakehouse.answer_eq hapart]
  rfl

/-- Along a run whose flushes write new files each key has the value that was appended last, since its series was cleared. -/
theorem answer_update (us : List TsUpdate)
    (hfresh : (points flush_threshold block_secs).Along (FreshUpdate flush_threshold block_secs) us) :
    ((points flush_threshold block_secs).state us).inner.lake.RowsApart ∧
      ∀ key, ((points flush_threshold block_secs).state us).inner.lake.answer key = Lakehouse.lastValue (held.state us) key := by
  induction us using List.reverseRecOn with
  | nil => exact ⟨fun rel => List.nodup_nil, fun key => rfl⟩
  | append_singleton us u ih =>
    obtain ⟨happart, hanswer⟩ := ih hfresh.init
    have hlast := hfresh.last
    rw [Machine.state_snoc, Machine.state_snoc]
    generalize (points flush_threshold block_secs).state us = s at happart hanswer hlast
    generalize held.state us = log at hanswer
    change (s.update flush_threshold block_secs u).inner.lake.RowsApart ∧
      ∀ key, (s.update flush_threshold block_secs u).inner.lake.answer key = Lakehouse.lastValue (heldStep log u) key
    cases u with
    | append a stamp =>
      obtain ⟨happart', hanswer'⟩ := answer_append happart hlast
      refine ⟨happart', fun key => ?_⟩
      rw [update, hanswer', hanswer, heldStep, Lakehouse.lastValue_snoc]
    | clearSeries cleared stamp =>
      obtain ⟨happart', hanswer'⟩ := answer_clearSeries happart block_secs stamp cleared
      refine ⟨happart', fun key => ?_⟩
      rw [update, hanswer', hanswer, heldStep, Lakehouse.lastValue_cleared]
    | clearAllSeries =>
      obtain ⟨happart', hanswer'⟩ := answer_clearAllSeries happart
      exact ⟨happart', hanswer'⟩

theorem query_run {us : List TsUpdate} (h : InTime (held.state us))
    (hfresh : (points flush_threshold block_secs).Along (FreshUpdate flush_threshold block_secs) us) (series : Bytes) (q : Query Nat) :
    ((points flush_threshold block_secs).state us).inner.lake.query series q = Query.read (pointsOf (held.state us) series) q := by
  have hanswer := (answer_update us hfresh).2
  generalize (points flush_threshold block_secs).state us = s at hanswer
  have hperm : (s.inner.lake.points series).Perm (pointsOf (held.state us) series) := by
    have hnodup : (s.inner.lake.points series).Nodup := List.Nodup.of_map _ (nodup_points s.inner.lake series)
    have hnodup' : (pointsOf (held.state us) series).Nodup :=
      (h.rising series).imp fun hlt heq => absurd (congrArg Prod.fst heq) hlt.ne
    refine (List.perm_ext_iff_of_nodup hnodup hnodup').mpr fun p => ?_
    rw [Lakehouse.mem_points, hanswer, Lakehouse.lastValue_eq_some (h.rising series)]
  rw [Lakehouse.query_eq]
  exact OrderBy.sortByKey.read_eq (h.rising series) hperm q

end Store

/-! ## The three together -/

/-- Along a run that appends to a series at rising times, and whose flushes write new files, the three backends answer every query
alike, and correctly. -/
theorem backends_agree (order : OrderBy Int Bytes) (flush_threshold block_secs : Nat) (us : List TsUpdate)
    (hlater : held.Along Later us)
    (hfresh : (Store.points flush_threshold block_secs).Along (Store.FreshUpdate flush_threshold block_secs) us)
    (series : Bytes) (q : Query Nat) (hq : q.Fits (pointsOf (held.state us) series)) :
    let answer := (InMemoryStorage.machine.state us).query series q
    Query.Correct (pointsOf (held.state us) series) q answer ∧
      (SqlitePoints.machine.state us).query order series q = answer ∧
      ((Store.points flush_threshold block_secs).state us).inner.lake.query series q = answer := by
  have htime := inTime us hlater
  dsimp only
  rw [InMemoryStorage.query_eq, InMemoryStorage.lookup_run, SqlitePoints.query_run order htime series hq,
    Store.query_run htime hfresh series q]
  exact ⟨Query.correct_read (htime.rising series) q, rfl, rfl⟩

/-- Two series, one of which is cleared; every second point is flushed. -/
def twoSeries : List TsUpdate :=
  [.append ⟨[115], 1, [97]⟩ 1, .append ⟨[116], 1, [98]⟩ 2, .clearSeries [116] 3, .append ⟨[115], 2, [99]⟩ 4,
    .append ⟨[116], 1, [100]⟩ 5]

theorem backends_agree_twoSeries : (Store.points 2 3600).Along (Store.FreshUpdate 2 3600) twoSeries ∧
    Query.Correct (pointsOf (held.state twoSeries) [115]) (.latest 1) ((InMemoryStorage.machine.state twoSeries).query [115] (.latest 1)) ∧
      (SqlitePoints.machine.state twoSeries).query OrderBy.sortByKey [115] (.latest 1) =
        (InMemoryStorage.machine.state twoSeries).query [115] (.latest 1) ∧
      ((Store.points 2 3600).state twoSeries).inner.lake.query [115] (.latest 1) =
        (InMemoryStorage.machine.state twoSeries).query [115] (.latest 1) := by
  have hfresh : (Store.points 2 3600).Along (Store.FreshUpdate 2 3600) twoSeries :=
    Machine.along_iff_alongFrom.mpr (by decide +kernel)
  exact ⟨hfresh, backends_agree OrderBy.sortByKey 2 3600 twoSeries (Machine.along_iff_alongFrom.mpr (by decide +kernel)) hfresh [115]
    (.latest 1) ⟨by decide, by decide +kernel⟩⟩

/-- A late point: the in-memory backend returns it as the latest one, the two others do not. -/
theorem late_point_is_latest_in_memory :
    (InMemoryStorage.machine.state [.append ⟨[115], 2, [97]⟩ 1, .append ⟨[115], 1, [98]⟩ 2]).query [115] (.latest 1) =
      [(1, [98])] ∧
    (SqlitePoints.machine.state [.append ⟨[115], 2, [97]⟩ 1, .append ⟨[115], 1, [98]⟩ 2]).query OrderBy.sortByKey [115] (.latest 1) =
      [(2, [97])] ∧
    ((Store.points 0 3600).state [.append ⟨[115], 2, [97]⟩ 1, .append ⟨[115], 1, [98]⟩ 2]).inner.lake.query [115] (.latest 1) =
      [(2, [97])] := by
  decide +kernel

end Opsense
