import Opsense.Lib.Checked
import Opsense.Lib.Scalar
import Opsense.Lib.Tables

/-!
# Analysis grids

`AnalysisGrid` of `opsense-mlib/src/grid.rs`: the cells of a range of values, and how many points each cell has in each bucket of
time (`occupancy`). Differences of timestamps panic past the end of the type, or wrap in a build without overflow checks, and a
negative quotient becomes a large bucket number. `occupancy_iff` says when no difference is past the end, the table is no larger than
a list may be, and every point is in the bucket of the side it falls on.
-/

namespace Opsense

open Partial Tables

structure AnalysisGrid (F : Type) where
  step : F
  offset : F
  min : F
  max : F
  maxBit : Nat
deriving DecidableEq

namespace AnalysisGrid

variable {F : Type} [Rounding F]

/-- The number of cells. -/
def numCells (g : AnalysisGrid F) : Nat := Max.max (Rounding.toNat (Rounding.ceil ((g.max - g.offset) / g.step))) 1

/-- The cell of a value. -/
def cell (g : AnalysisGrid F) (y : F) : Nat :=
  if Scalar.le y g.min then 0
  else if Scalar.ge y g.max then g.numCells - 1
  else Rounding.toNat (Rounding.floor ((y - g.offset) / g.step))

/-- The number of buckets that the differences up to `span` take. -/
def numBuckets (interval_secs span : Int) : Nat := satAddU64 (asU64 (span.tdiv interval_secs)) 1

/-- The bucket of a difference to the first timestamp. -/
def bucket (interval_secs : Int) (num_buckets : Nat) (d : Int) : Nat := Min.min (asU64 (d.tdiv interval_secs)) (num_buckets - 1)

/-- The cell that a value is counted in. -/
def clampedCell (g : AnalysisGrid F) (y : F) : Nat := Min.min (g.cell y) (g.numCells - 1)

/-- `result[bucket][cell] += 1` -/
def countAt (result : List (List Nat)) (bucket cell : Nat) : Except Panic (List (List Nat)) :=
  if ¬(bucket < result.length ∧ cell < (result[bucket]?.getD []).length) then .error .index
  else .ok (result.modify bucket fun row => row.modify cell (· + 1))

/-- The first timestamp. -/
def tStart (data : List (Int × F)) : Int := (data.head?.map Prod.fst).getD 0

/-- The last timestamp. -/
def tEnd (data : List (Int × F)) : Int := (data.getLast?.map Prod.fst).getD 0

/-- One point is counted. -/
def countPoint (checks : Bool) (g : AnalysisGrid F) (interval_secs t_start : Int) (num_buckets : Nat) (result : List (List Nat))
    (p : Int × F) : Except Panic (List (List Nat)) := do
  let d ← subI64 checks p.1 t_start
  countAt result (bucket interval_secs num_buckets d) (g.clampedCell p.2)

/-- How many points each cell has in each bucket. -/
def occupancy (checks : Bool) (g : AnalysisGrid F) (data : List (Int × F)) (interval_secs : Int) : Except Panic (List (List Nat)) :=
  if data.isEmpty ∨ interval_secs ≤ 0 then .ok []
  else do
    let t_start := tStart data
    let t_end := tEnd data
    let span ← subI64 checks t_end t_start
    let num_buckets := numBuckets interval_secs span
    let row ← vec 8 g.numCells 0
    let result ← vec 24 num_buckets row
    data.foldlM (countPoint checks g interval_secs t_start num_buckets) result

/-! ## What occupancy gives -/

/-- A difference as the code has it, which wraps. -/
def wrapped (a b : Int) : Int := Int.bmod (a - b) (2 ^ 64)

/-- The number of buckets of a row of points. -/
def buckets (data : List (Int × F)) (interval_secs : Int) : Nat := numBuckets interval_secs (wrapped (tEnd data) (tStart data))

/-- The bucket that a point is counted in. -/
def pointBucket (data : List (Int × F)) (interval_secs : Int) (p : Int × F) : Nat :=
  bucket interval_secs (buckets data interval_secs) (wrapped p.1 (tStart data))

/-- The counts of the points. -/
def counts (g : AnalysisGrid F) (data : List (Int × F)) (interval_secs : Int) : List (List Nat) :=
  tabulate (buckets data interval_secs) fun b => tabulate g.numCells fun c =>
    data.countP fun p => pointBucket data interval_secs p = b ∧ g.clampedCell p.2 = c

/-- The table is no larger than a list may be. -/
def Capable (g : AnalysisGrid F) (num_buckets : Nat) : Prop := g.numCells * 8 < 2 ^ 63 ∧ num_buckets * 24 < 2 ^ 63

theorem numCells_pos (g : AnalysisGrid F) : 0 < g.numCells := lt_of_lt_of_le Nat.one_pos (Nat.le_max_right _ _)

theorem clampedCell_lt (g : AnalysisGrid F) (y : F) : g.clampedCell y < g.numCells :=
  lt_of_le_of_lt (Nat.min_le_right _ _) (Nat.sub_lt g.numCells_pos Nat.one_pos)

theorem numBuckets_pos (interval_secs span : Int) : 0 < numBuckets interval_secs span := by
  unfold numBuckets satAddU64
  omega

theorem bucket_lt (interval_secs : Int) {num_buckets : Nat} (h : 0 < num_buckets) (d : Int) :
    bucket interval_secs num_buckets d < num_buckets :=
  lt_of_le_of_lt (Nat.min_le_right _ _) (Nat.sub_lt h Nat.one_pos)

theorem gives_countAt (result : List (List Nat)) (bucket cell : Nat) :
    Gives (countAt result bucket cell) (bucket < result.length ∧ cell < (result[bucket]?.getD []).length)
      (result.modify bucket fun row => row.modify cell (· + 1)) :=
  (gives_refuse _ Panic.index _).congr not_not

/-- A table of `n` rows of `m` counters. -/
def Shaped (n m : Nat) (result : List (List Nat)) : Prop := result.length = n ∧ ∀ i < n, (result[i]?.getD []).length = m

theorem shaped_replicate (n m : Nat) : Shaped n m (List.replicate n (List.replicate m 0)) := by
  refine ⟨List.length_replicate, ?_⟩
  intro i hi
  simp [hi]

theorem Shaped.modify {n m : Nat} {result : List (List Nat)} (h : Shaped n m result) (b c : Nat) :
    Shaped n m (result.modify b fun row => row.modify c (· + 1)) := by
  refine ⟨by simpa using h.1, ?_⟩
  intro i hi
  have hlen := h.2 i hi
  have hlt : i < result.length := h.1 ▸ hi
  rw [List.getElem?_eq_getElem hlt] at hlen
  rw [List.getElem?_modify, List.getElem?_eq_getElem hlt]
  split_ifs <;> simpa using hlen

/-- Every point has a counter. -/
theorem along_countPoint (checks : Bool) (g : AnalysisGrid F) (interval_secs t_start : Int) {n : Nat} (hn : 0 < n)
    {result : List (List Nat)} (h : Shaped n g.numCells result) (data : List (Int × F)) :
    Along (fun result p => result.modify (bucket interval_secs n (wrapped p.1 t_start)) fun row =>
        row.modify (g.clampedCell p.2) (· + 1))
      (fun result p => (checks = true → FitsI64 (p.1 - t_start)) ∧
        bucket interval_secs n (wrapped p.1 t_start) < result.length ∧
          g.clampedCell p.2 < (result[bucket interval_secs n (wrapped p.1 t_start)]?.getD []).length) result data ↔
      ∀ p ∈ data, checks = true → FitsI64 (p.1 - t_start) := by
  refine along_iff_of_invariant (Shaped n g.numCells) h (fun s hs p _ => hs.modify _ _) ?_
  intro s hs p _
  have hb := bucket_lt interval_secs hn (wrapped p.1 t_start)
  rw [and_iff_left_iff_imp]
  intro _
  exact ⟨hs.1 ▸ hb, by rw [hs.2 _ hb]; exact g.clampedCell_lt p.2⟩

/-- With a positive interval the points are counted, where nothing is past its end. -/
theorem gives_occupancy (checks : Bool) (g : AnalysisGrid F) {data : List (Int × F)} (hdata : data ≠ []) {interval_secs : Int}
    (hpos : 0 < interval_secs) :
    Gives (g.occupancy checks data interval_secs)
      ((checks = true → FitsI64 (tEnd data - tStart data)) ∧ Capable g (buckets data interval_secs) ∧
        ∀ p ∈ data, checks = true → FitsI64 (p.1 - tStart data))
      (g.counts data interval_secs) := by
  unfold occupancy
  rw [if_neg (by simp [hdata, hpos])]
  have hn : 0 < buckets data interval_secs := numBuckets_pos _ _
  have hpoint : ∀ result p, Gives (countPoint checks g interval_secs (tStart data) (buckets data interval_secs) result p) _ _ :=
    fun result p => (gives_subI64 checks p.1 (tStart data)).bind (gives_countAt result _ _)
  have hfold := gives_foldlM hpoint (List.replicate (buckets data interval_secs) (List.replicate g.numCells 0)) data
  have halong := along_countPoint checks g interval_secs (tStart data) hn (shaped_replicate _ _) data
  have hcounts : g.counts data interval_secs = _ := (foldl_count_rows _ _ _ _ _).symm
  rw [hcounts]
  refine ((gives_subI64 checks (tEnd data) (tStart data)).bind ((gives_vec 8 g.numCells 0).bind
    ((gives_vec 24 (buckets data interval_secs) _).bind (hfold.congr halong)))).congr ?_
  unfold Capable
  tauto

theorem occupancy_of_not_pos (checks : Bool) (g : AnalysisGrid F) {data : List (Int × F)} {interval_secs : Int}
    (h : data = [] ∨ interval_secs ≤ 0) : g.occupancy checks data interval_secs = .ok [] := by
  unfold occupancy
  rw [if_pos (by simpa using h)]

/-! ## Which bucket a point is in -/

theorem asU64_tdiv_of_nonneg {d i : Int} (hd : 0 ≤ d) (hlt : d < 2 ^ 63) (hi : 0 < i) : asU64 (d.tdiv i) = (d / i).toNat := by
  rw [Int.tdiv_eq_ediv_of_nonneg hd]
  have hle : d / i ≤ d := Int.ediv_le_self _ hd
  exact asU64_of_nonneg (Int.ediv_nonneg hd hi.le) (by omega)

theorem tdiv_of_small {d i : Int} (hlt : -i < d) (hd : d < 0) : d.tdiv i = 0 := by
  rw [← neg_neg d, Int.neg_tdiv, Int.tdiv_eq_zero_of_lt (by omega) (by omega), neg_zero]

/-- A difference of an interval or more in the wrong direction is a large number. -/
theorem le_asU64_tdiv {d i : Int} (hi : 0 < i) (hd : d ≤ -i) (hle : -2 ^ 63 ≤ d) : 2 ^ 63 ≤ asU64 (d.tdiv i) := by
  have hneg : d.tdiv i = -((-d) / i) := by
    rw [← neg_neg d, Int.neg_tdiv, neg_neg, Int.tdiv_eq_ediv_of_nonneg (by omega)]
  have hone : 1 ≤ (-d) / i := by
    rw [Int.le_ediv_iff_mul_le hi]
    omega
  have hself : (-d) / i ≤ -d := Int.ediv_le_self _ (by omega)
  unfold asU64
  rw [hneg]
  omega

theorem fitsI64_wrapped (a b : Int) : FitsI64 (wrapped a b) := by
  have hge : -((2 ^ 64 : Nat) / 2 : Int) ≤ wrapped a b := Int.le_bmod (by decide)
  have hlt : wrapped a b < ((2 ^ 64 : Nat) + 1 : Int) / 2 := Int.bmod_lt (by decide)
  constructor <;> omega

theorem numBuckets_of_lt {i span : Int} (hi : 0 < i) (hlt : -i < span) (hfit : span < 2 ^ 63) :
    numBuckets i span = (span.tdiv i).toNat + 1 := by
  unfold numBuckets satAddU64
  rcases lt_or_ge span 0 with hneg | hnonneg
  · rw [tdiv_of_small hlt hneg]
    rfl
  · have hle : span / i ≤ span := Int.ediv_le_self _ hnonneg
    rw [asU64_tdiv_of_nonneg hnonneg hfit hi, Int.tdiv_eq_ediv_of_nonneg hnonneg]
    omega

/-- A row of points that ends an interval or more before it starts takes more buckets than a list may have. -/
theorem lt_of_capable {i span : Int} (hi : 0 < i) (hfit : FitsI64 span) (h : numBuckets i span * 24 < 2 ^ 63) : -i < span := by
  by_contra hle
  have hlarge := le_asU64_tdiv hi (by omega) hfit.1
  unfold numBuckets satAddU64 at h
  omega

/-- The bucket of a timestamp: of those outside of the range of the row, the one at the end on which they fall. -/
def sideBucket (interval_secs t_start t_end : Int) (num_buckets : Nat) (ts : Int) : Nat :=
  if ts < t_start then 0 else if t_end < ts then num_buckets - 1 else ((ts - t_start) / interval_secs).toNat

/-- A timestamp is in its bucket unless it is an interval or more before the first one, and there is more than one bucket. -/
theorem bucket_eq_sideBucket_iff {i t_start t_end ts : Int} (hi : 0 < i) (hspan : -i < t_end - t_start)
    (hfit : t_end - t_start < 2 ^ 63) (hts : FitsI64 (ts - t_start)) {n : Nat} (hn : n = numBuckets i (t_end - t_start)) :
    bucket i n (ts - t_start) = sideBucket i t_start t_end n ts ↔ -i < ts - t_start ∨ n = 1 := by
  have hnum := numBuckets_of_lt hi hspan hfit
  unfold bucket sideBucket
  split_ifs with hlt hgt
  · rcases lt_or_ge (-i) (ts - t_start) with hsmall | hlarge
    · rw [tdiv_of_small hsmall (by omega)]
      simp [hsmall, asU64]
    · have hhuge := le_asU64_tdiv hi hlarge hts.1
      have htdiv : (t_end - t_start).tdiv i < 2 ^ 63 := by
        rcases lt_or_ge (t_end - t_start) 0 with hneg | hnonneg
        · rw [tdiv_of_small hspan hneg]
          decide
        · exact lt_of_le_of_lt (Int.tdiv_le_self _ hnonneg) hfit
      omega
  · have hd : 0 ≤ ts - t_start := by omega
    rw [asU64_tdiv_of_nonneg hd hts.2 hi]
    have hle : (t_end - t_start).tdiv i ≤ (ts - t_start) / i := by
      rcases lt_or_ge (t_end - t_start) 0 with hneg | hnonneg
      · rw [tdiv_of_small hspan hneg]
        exact Int.ediv_nonneg hd hi.le
      · rw [Int.tdiv_eq_ediv_of_nonneg hnonneg]
        exact Int.ediv_le_ediv hi (by omega)
    omega
  · have hd : 0 ≤ ts - t_start := by omega
    have hle : (ts - t_start) / i ≤ (t_end - t_start) / i := Int.ediv_le_ediv hi (by omega)
    rw [asU64_tdiv_of_nonneg hd hts.2 hi]
    rw [Int.tdiv_eq_ediv_of_nonneg (by omega)] at hnum
    omega

/-! ## Where no point is lost -/

section Occupancy

variable (g : AnalysisGrid F) (data : List (Int × F)) (interval_secs : Int)

/-- The table counts every point in the bucket of the side on which its timestamp falls, and nothing else. -/
structure KeepsPoints (occ : List (List Nat)) : Prop where
  clamped : ∀ b < occ.length, ∀ c < g.numCells, (occ[b]?.getD [])[c]?.getD 0 =
    data.countP fun p => sideBucket interval_secs (tStart data) (tEnd data) occ.length p.1 = b ∧ g.clampedCell p.2 = c
  sum : 0 < interval_secs → (occ.map List.sum).sum = data.length

/-- Nothing overflows: a build that checks gives a table, and one that does not gives the same. -/
def NeverLoses : Prop := ∃ occ, (∀ checks, g.occupancy checks data interval_secs = .ok occ) ∧ KeepsPoints g data interval_secs occ

/-- No timestamp is further from the first one than an `i64` reaches, the last one is not an interval before the first, the table is
no larger than a list may be, and no timestamp is an interval before the first one, if there is more than one bucket. -/
structure Near : Prop where
  fits : ∀ p ∈ data, FitsI64 (p.1 - tStart data)
  span : -interval_secs < tEnd data - tStart data
  capable : Capable g (((tEnd data - tStart data).tdiv interval_secs).toNat + 1)
  before : (∀ p ∈ data, -interval_secs < p.1 - tStart data) ∨ tEnd data - tStart data < interval_secs

end Occupancy

variable {g : AnalysisGrid F} {data : List (Int × F)} {interval_secs : Int}

omit [Rounding F] in
theorem exists_tEnd (hdata : data ≠ []) : ∃ p ∈ data, p.1 = tEnd data := by
  refine ⟨data.getLast hdata, List.getLast_mem hdata, ?_⟩
  simp [tEnd, List.getLast?_eq_getLast_of_ne_nil hdata]

omit [Rounding F] in
theorem pointBucket_lt (p : Int × F) : pointBucket data interval_secs p < buckets data interval_secs :=
  bucket_lt _ (numBuckets_pos _ _) _

@[simp] theorem length_counts : (g.counts data interval_secs).length = buckets data interval_secs := length_tabulate _ _

theorem counts_entry {b c : Nat} (hb : b < buckets data interval_secs) (hc : c < g.numCells) :
    ((g.counts data interval_secs)[b]?.getD [])[c]?.getD 0 =
      data.countP fun p => pointBucket data interval_secs p = b ∧ g.clampedCell p.2 = c := by
  rw [counts, getD_tabulate _ _ hb, getD_tabulate _ _ hc]

/-- No point is lost in any case. -/
theorem sum_counts : ((g.counts data interval_secs).map List.sum).sum = data.length :=
  sum_count_rows (pointBucket data interval_secs) (fun p => g.clampedCell p.2) fun p _ => ⟨pointBucket_lt p, g.clampedCell_lt p.2⟩

/-- The counts are those of the sides exactly if every point is in the bucket of its side, where the points that are not belong to
the first one. -/
theorem keepsPoints_counts_iff {side : Int × F → Nat}
    (hside : side = fun p => sideBucket interval_secs (tStart data) (tEnd data) (buckets data interval_secs) p.1)
    (hfirst : ∀ p ∈ data, pointBucket data interval_secs p ≠ side p → side p = 0) :
    KeepsPoints g data interval_secs (g.counts data interval_secs) ↔ ∀ p ∈ data, pointBucket data interval_secs p = side p := by
  subst hside
  constructor
  · intro h p hp
    by_contra hne
    have hb : 0 < buckets data interval_secs := numBuckets_pos _ _
    have hclamped := h.clamped 0 (by simpa using hb) (g.clampedCell p.2) (g.clampedCell_lt p.2)
    rw [counts_entry hb (g.clampedCell_lt p.2), length_counts] at hclamped
    have hzero := hfirst p hp hne
    refine absurd hclamped (ne_of_lt (countP_lt ?_ hp ?_ ?_))
    · intro q hq
      have := hfirst q hq
      simp only [decide_eq_true_eq]
      rintro ⟨hpoint, hcell⟩
      refine ⟨?_, hcell⟩
      by_contra hside
      exact hside (this (by rw [hpoint]; exact Ne.symm hside))
    · simpa using hzero
    · rw [hzero] at hne
      simp [hne]
  · intro h
    refine ⟨?_, fun _ => sum_counts⟩
    intro b hb c hc
    rw [length_counts] at hb ⊢
    rw [counts_entry hb hc]
    apply List.countP_congr
    intro p hp
    rw [h p hp]

omit [Rounding F] in
theorem buckets_eq (h : FitsI64 (tEnd data - tStart data)) :
    buckets data interval_secs = numBuckets interval_secs (tEnd data - tStart data) := by
  rw [buckets, wrapped, bmod_of_fitsI64 h]

omit [Rounding F] in
theorem pointBucket_eq {p : Int × F} (h : FitsI64 (p.1 - tStart data)) :
    pointBucket data interval_secs p = bucket interval_secs (buckets data interval_secs) (p.1 - tStart data) := by
  rw [pointBucket, wrapped, bmod_of_fitsI64 h]

theorem numBuckets_eq_one_iff {i span : Int} (hi : 0 < i) (hlt : -i < span) (hfit : span < 2 ^ 63) :
    numBuckets i span = 1 ↔ span < i := by
  rw [numBuckets_of_lt hi hlt hfit]
  rcases lt_or_ge span 0 with hneg | hnonneg
  · rw [tdiv_of_small hlt hneg]
    simp
    omega
  · have hdiv : span / i < 1 ↔ span < i := by
      rw [Int.ediv_lt_iff_lt_mul hi, one_mul]
    rw [Int.tdiv_eq_ediv_of_nonneg hnonneg]
    have := Int.ediv_nonneg hnonneg hi.le
    omega

/-- Where no difference overflows, the points are on their sides if none is an interval before the first timestamp, or there is one
bucket only. -/
theorem keepsPoints_iff (hdata : data ≠ []) (hpos : 0 < interval_secs) (hfits : ∀ p ∈ data, FitsI64 (p.1 - tStart data))
    (hspan : -interval_secs < tEnd data - tStart data) : KeepsPoints g data interval_secs (g.counts data interval_secs) ↔
      (∀ p ∈ data, -interval_secs < p.1 - tStart data) ∨ tEnd data - tStart data < interval_secs := by
  obtain ⟨last, hlast, hend⟩ := exists_tEnd hdata
  have hfit : FitsI64 (tEnd data - tStart data) := hend ▸ hfits last hlast
  have hbuckets : buckets data interval_secs = numBuckets interval_secs (tEnd data - tStart data) := buckets_eq hfit
  have hiff : ∀ p ∈ data, pointBucket data interval_secs p =
      sideBucket interval_secs (tStart data) (tEnd data) (buckets data interval_secs) p.1 ↔
        -interval_secs < p.1 - tStart data ∨ tEnd data - tStart data < interval_secs := by
    intro p hp
    rw [pointBucket_eq (hfits p hp), bucket_eq_sideBucket_iff hpos hspan hfit.2 (hfits p hp) hbuckets, hbuckets,
      numBuckets_eq_one_iff hpos hspan hfit.2]
  rw [keepsPoints_counts_iff rfl]
  · rw [forall₂_congr hiff]
    by_cases hone : tEnd data - tStart data < interval_secs <;> simp [hone]
  · intro p hp hne
    have hlow := mt (hiff p hp).mpr hne
    unfold sideBucket
    rw [if_pos (by omega)]

/-- Points are counted on their side exactly where the row is near enough to its first timestamp. -/
theorem occupancy_iff (g : AnalysisGrid F) (data : List (Int × F)) (interval_secs : Int) :
    NeverLoses g data interval_secs ↔ data = [] ∨ interval_secs ≤ 0 ∨ Near g data interval_secs := by
  by_cases hnone : data = [] ∨ interval_secs ≤ 0
  · refine iff_of_true ⟨[], fun checks => occupancy_of_not_pos checks g hnone, by simp, ?_⟩ (by tauto)
    intro hpos
    rcases hnone with rfl | hle
    · rfl
    · omega
  obtain ⟨hdata, hle⟩ := not_or.mp hnone
  have hpos : 0 < interval_secs := not_le.mp hle
  have hgives (checks : Bool) := gives_occupancy checks g hdata hpos
  obtain ⟨last, hlast, hend⟩ := exists_tEnd hdata
  constructor
  · rintro ⟨occ, hocc, hkeeps⟩
    obtain ⟨hfit, hcapable, hfits⟩ := (hgives true).exists_iff.mp ⟨occ, hocc true⟩
    have hspan := hfit rfl
    rw [buckets_eq hspan] at hcapable
    have hlt := lt_of_capable hpos hspan hcapable.2
    rw [numBuckets_of_lt hpos hlt hspan.2] at hcapable
    rw [(hgives true).eq (hocc true)] at hkeeps
    have hfits' : ∀ p ∈ data, FitsI64 (p.1 - tStart data) := fun p hp => hfits p hp rfl
    exact Or.inr (Or.inr ⟨hfits', hlt, hcapable, (keepsPoints_iff hdata hpos hfits' hlt).mp hkeeps⟩)
  · rintro (hempty | hnonpos | hnear)
    · exact absurd hempty hdata
    · exact absurd hnonpos hle
    · have hspan : FitsI64 (tEnd data - tStart data) := hend ▸ hnear.fits last hlast
      refine ⟨g.counts data interval_secs, ?_, (keepsPoints_iff hdata hpos hnear.fits hnear.span).mpr hnear.before⟩
      intro checks
      refine (hgives checks).eq_ok ⟨fun _ => hspan, ?_, fun p hp _ => hnear.fits p hp⟩
      rw [buckets_eq hspan, numBuckets_of_lt hpos hnear.span hspan.2]
      exact hnear.capable

/-- A grid of one cell of width 10. -/
def tenGrid : AnalysisGrid ℚ := ⟨10, 0, 0, 10, 4⟩

/-- A point a minute before the first one is counted in the last minute. -/
theorem earlier_point_in_last_bucket : ¬NeverLoses tenGrid [(0, 5), (-60, 5), (60, 5)] 60 := by
  rintro ⟨occ, hocc, hkeeps⟩
  have hval : tenGrid.occupancy true [(0, 5), (-60, 5), (60, 5)] 60 = .ok [[1], [2]] := by decide +kernel
  have heq : occ = [[1], [2]] := Except.ok.inj ((hocc true).symm.trans hval)
  subst heq
  have hclamped := hkeeps.clamped 0 (by decide) 0 (by decide +kernel)
  revert hclamped
  decide +kernel

end AnalysisGrid

end Opsense
