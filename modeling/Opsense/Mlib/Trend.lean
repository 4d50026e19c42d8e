import Opsense.Lib.LeastSquares
import Opsense.Lib.Checked

/-!
# Trend analysis

`TrendAnalysis::new` of `opsense-mlib/src/trend.rs`, with exact arithmetic: the line fitted to the finite points, the quantile of the
residuals around it, and the direction. Time is counted in seconds since the first finite point, with a subtraction that saturates. A
value that is not finite is `none`. The square root is a parameter.
-/

namespace Opsense

open LeastSquares

structure TrendConfig where
  minSamples : Nat
  amplitudeQuantile : ℚ
  minAmplitude : ℚ
  significance : ℚ

inductive Direction where
  | rising
  | falling
  | flat
deriving DecidableEq, Repr

structure TrendAnalysis where
  originTs : Int
  slopePerSec : ℚ
  /-- The value at `originTs`. -/
  intercept : ℚ
  r2 : ℚ
  residualStd : ℚ
  direction : Direction
  /-- Half the width of the band. -/
  amplitude : ℚ
  valueRange : ℚ
  anchorTs : Int
  anchorValue : ℚ
  spanSecs : Int
  samples : Nat
deriving DecidableEq

/-- `f64::EPSILON` -/
def F64_EPSILON : ℚ := 1 / 2 ^ 52

/-- The interpolated quantile of a sorted row. -/
def quantile (sorted : List ℚ) (q : ℚ) : ℚ :=
  match sorted with
  | [] => 0
  | [x] => x
  | sorted =>
    let pos := max 0 (min q 1) * (sorted.length - 1 : Nat)
    let frac := pos - ⌊pos⌋
    let lo := ⌊pos⌋₊
    let hi := ⌈pos⌉₊
    if lo = hi then sorted[lo]?.getD 0 else sorted[lo]?.getD 0 + (sorted[hi]?.getD 0 - sorted[lo]?.getD 0) * frac

namespace TrendAnalysis

/-- `t.saturating_sub(origin_ts)` -/
def seconds (origin_ts t : Int) : Int := clampI64 (t - origin_ts)

/-- The finite points. -/
def finite (points : List (Int × Option ℚ)) : List (Int × ℚ) := points.filterMap fun p => p.2.map fun v => (p.1, v)

/-- A point by the seconds since the origin. -/
def relative (origin_ts : Int) (p : Int × ℚ) : ℚ × ℚ := (seconds origin_ts p.1, p.2)

def directionOf (config : TrendConfig) (slope amplitude : ℚ) (span_secs : Int) : Direction :=
  let drift_total := slope * span_secs
  let threshold := max config.significance 0 * amplitude
  if threshold < drift_total then .rising else if drift_total < -threshold then .falling else .flat

/-- The trend of points that are spread over time, by the seconds since the origin. -/
def fit (sqrt : ℚ → ℚ) (config : TrendConfig) (origin_ts span_secs : Int) (last : Int × ℚ) (pts : List (ℚ × ℚ)) : TrendAnalysis :=
  let slope := LeastSquares.slope pts
  let intercept := LeastSquares.intercept pts
  let ss_tot := (pts.map fun p => (p.2 - meanY pts) * (p.2 - meanY pts)).sum
  let ss_res := (pts.map fun p => residual intercept slope p * residual intercept slope p).sum
  let abs_res := (pts.map fun p => |residual intercept slope p|).mergeSort
  let amplitude := max (quantile abs_res config.amplitudeQuantile) (max config.minAmplitude 0)
  let values := pts.map Prod.snd
  { originTs := origin_ts
    slopePerSec := slope
    intercept := intercept
    r2 := if F64_EPSILON < ss_tot then 1 - ss_res / ss_tot else 0
    residualStd := sqrt (max (ss_res / max ((pts.length : ℚ) - 2) 1) 0)
    direction := directionOf config slope amplitude span_secs
    amplitude := amplitude
    valueRange := max (values.max?.getD 0 - values.min?.getD 0) 0
    anchorTs := clampI64 (origin_ts + span_secs)
    anchorValue := last.2
    spanSecs := span_secs
    samples := pts.length }

def new (sqrt : ℚ → ℚ) (points : List (Int × Option ℚ)) (config : TrendConfig) : Option TrendAnalysis := do
  let origin_ts ← (points.find? fun p => p.2.isSome).map Prod.fst
  let pts := (finite points).map (relative origin_ts)
  if pts.length < max config.minSamples 2 then none
  else
    let last ← (finite points).getLast?
    let span_secs := seconds origin_ts last.1
    if span_secs ≤ 0 then none
    else if sxx pts ≤ F64_EPSILON then none
    else some (fit sqrt config origin_ts span_secs last pts)

/-- The line at `ts`. -/
def valueAt (t : TrendAnalysis) (ts : Int) : ℚ := t.intercept + t.slopePerSec * seconds t.originTs ts

end TrendAnalysis

/-! ## The quantile -/

/-- Of a sorted row, the elements up to a position are at most the one there. -/
theorem succ_le_countP {l : List ℚ} (hl : l.Pairwise (· ≤ ·)) {k : Nat} {x v : ℚ} (hk : l[k]? = some x) (hv : x ≤ v) :
    k + 1 ≤ l.countP (· ≤ v) := by
  obtain ⟨hlt, hx⟩ := List.getElem?_eq_some_iff.mp hk
  have hall : (l.take (k + 1)).countP (· ≤ v) = (l.take (k + 1)).length := by
    rw [List.countP_eq_length]
    intro y hy
    obtain ⟨j, hj, rfl⟩ := List.mem_take_iff_getElem.mp hy
    have hle : l[j] ≤ l[k] := by
      rcases Nat.lt_or_eq_of_le (by omega : j ≤ k) with hjk | rfl
      · exact List.pairwise_iff_getElem.mp hl j k _ hlt hjk
      · exact le_rfl
    simpa using (hle.trans hx.le).trans hv
  rw [← List.take_append_drop (k + 1) l, List.countP_append, hall, List.length_take]
  omega

/-- The quantile of a sorted row is no less than the element below its position. -/
theorem le_quantile {l : List ℚ} (hl : l.Pairwise (· ≤ ·)) (htwo : 2 ≤ l.length) (q : ℚ) :
    ∃ x, l[⌊max 0 (min q 1) * (l.length - 1 : Nat)⌋₊]? = some x ∧ x ≤ quantile l q := by
  rcases l with - | ⟨a, - | ⟨b, rest⟩⟩
  · simp at htwo
  · simp at htwo
  · have hpos : 0 ≤ max 0 (min q 1) * ((a :: b :: rest).length - 1 : Nat) := by positivity
    have hle : max 0 (min q 1) * ((a :: b :: rest).length - 1 : Nat) ≤ ((a :: b :: rest).length - 1 : Nat) :=
      mul_le_of_le_one_left (by positivity) (max_le zero_le_one (min_le_right _ _))
    simp only [quantile]
    generalize max 0 (min q 1) * ((a :: b :: rest).length - 1 : Nat) = pos at hpos hle
    have hfloor : ⌊pos⌋₊ < (a :: b :: rest).length := by
      have := (Nat.floor_le hpos).trans hle
      have : ⌊pos⌋₊ ≤ (a :: b :: rest).length - 1 := by exact_mod_cast this
      simp only [List.length_cons] at this ⊢
      omega
    have hceil : ⌈pos⌉₊ < (a :: b :: rest).length := by
      have : ⌈pos⌉₊ ≤ (a :: b :: rest).length - 1 := Nat.ceil_le.mpr hle
      simp only [List.length_cons] at this ⊢
      omega
    refine ⟨(a :: b :: rest)[⌊pos⌋₊], List.getElem?_eq_getElem hfloor, ?_⟩
    rw [List.getElem?_eq_getElem hfloor, List.getElem?_eq_getElem hceil, Option.getD_some, Option.getD_some]
    split_ifs with heq
    · exact le_rfl
    · have hlt : ⌊pos⌋₊ < ⌈pos⌉₊ := lt_of_le_of_ne (Nat.floor_le_ceil pos) heq
      have hsorted := List.pairwise_iff_getElem.mp hl _ _ hfloor hceil hlt
      have hfrac : 0 ≤ pos - ⌊pos⌋ := Int.fract_nonneg pos
      nlinarith [mul_nonneg (sub_nonneg.mpr hsorted) hfrac]

namespace TrendAnalysis

/-! ## When a trend is fitted -/

theorem origin_eq (points : List (Int × Option ℚ)) :
    (points.find? fun p => p.2.isSome).map Prod.fst = (finite points).head?.map Prod.fst := by
  unfold finite
  induction points with
  | nil => rfl
  | cons p points ih =>
    obtain ⟨t, v⟩ := p
    cases v with
    | none => simpa using ih
    | some v => simp

theorem pairwise_finite {points : List (Int × Option ℚ)} (h : points.Pairwise fun p q => p.1 ≤ q.1) :
    (finite points).Pairwise fun p q => p.1 ≤ q.1 := by
  refine List.Pairwise.filterMap _ ?_ h
  intro p q hle p' hp q' hq
  obtain ⟨v, -, rfl⟩ := Option.map_eq_some_iff.mp hp
  obtain ⟨w, -, rfl⟩ := Option.map_eq_some_iff.mp hq
  exact hle

theorem seconds_pos_iff (origin_ts t : Int) : 0 < seconds origin_ts t ↔ origin_ts < t := by
  unfold seconds clampI64 I64_MAX
  omega

theorem seconds_self (t : Int) : seconds t t = 0 := by
  simp [seconds, clampI64, I64_MAX]

/-- The time of the points is spread, if the last one is later than the first one. -/
theorem epsilon_lt_sxx {first last : Int × ℚ} {rest : List (Int × ℚ)} (hlast : (first :: rest).getLast? = some last)
    (hlt : first.1 < last.1) : F64_EPSILON < sxx ((first :: rest).map (relative first.1)) := by
  have hmem : last ∈ rest := by
    rcases List.mem_cons.mp (List.mem_of_getLast? hlast) with rfl | hmem
    · exact absurd hlt (lt_irrefl _)
    · exact hmem
  have hsub : List.Sublist [relative first.1 first, relative first.1 last] ((first :: rest).map (relative first.1)) := by
    rw [List.map_cons]
    exact (List.singleton_sublist.mpr (List.mem_map_of_mem hmem)).cons_cons _
  refine lt_of_lt_of_le ?_ (le_sxx hsub)
  have hone : (1 : ℚ) ≤ (seconds first.1 last.1 : ℚ) := by exact_mod_cast (seconds_pos_iff _ _).mpr hlt
  simp only [relative, seconds_self, F64_EPSILON]
  norm_num
  nlinarith

/-- The points of a sorted row share one timestamp if the last one is not later than the first one. -/
theorem share_iff {first last : Int × ℚ} {rest : List (Int × ℚ)} (hsorted : (first :: rest).Pairwise fun p q => p.1 ≤ q.1)
    (hlast : (first :: rest).getLast? = some last) :
    (∀ p ∈ first :: rest, ∀ q ∈ first :: rest, p.1 = q.1) ↔ last.1 ≤ first.1 := by
  have hbounds : ∀ p ∈ first :: rest, first.1 ≤ p.1 ∧ p.1 ≤ last.1 := by
    intro p hp
    have : Std.Refl fun p q : Int × ℚ => p.1 ≤ q.1 := ⟨fun p => le_rfl⟩
    have hle := hsorted.rel_getLast hp
    rw [List.getLast?_eq_getLast_of_ne_nil (by simp)] at hlast
    rw [Option.some.inj hlast] at hle
    exact ⟨hsorted.rel_head hp, hle⟩
  constructor
  · intro h
    exact (h last (List.mem_of_getLast? hlast) first List.mem_cons_self).le
  · intro hle p hp q hq
    have := hbounds p hp
    have := hbounds q hq
    omega

/-- Why there is no trend: too few finite points, or all at one time. -/
def Refused (points : List (Int × Option ℚ)) (config : TrendConfig) : Prop :=
  (finite points).length < max config.minSamples 2 ∨ ∀ p ∈ finite points, ∀ q ∈ finite points, p.1 = q.1

variable {sqrt : ℚ → ℚ} {points : List (Int × Option ℚ)} {config : TrendConfig}

/-- A trend is the line of least squares with a band no narrower than the quantile of the residuals, unless it is refused. -/
theorem new_cases (hsorted : points.Pairwise fun p q => p.1 ≤ q.1) :
    (Refused points config ∧ new sqrt points config = none) ∨
      ∃ t pts, pts = (finite points).map (relative t.originTs) ∧ ¬Refused points config ∧ new sqrt points config = some t ∧
        2 ≤ pts.length ∧ sxx pts ≠ 0 ∧ t.slopePerSec = slope pts ∧ t.intercept = LeastSquares.intercept pts ∧
        quantile (pts.map fun p => |residual (LeastSquares.intercept pts) (slope pts) p|).mergeSort config.amplitudeQuantile ≤
          t.amplitude := by
  have hfinite := pairwise_finite hsorted
  unfold Refused new
  rw [origin_eq]
  cases hfs : finite points with
  | nil =>
    refine Or.inl ⟨Or.inl ?_, rfl⟩
    simp
  | cons first rest =>
    rw [hfs] at hfinite
    have hlast : (first :: rest).getLast? = some _ := List.getLast?_eq_getLast_of_ne_nil (List.cons_ne_nil first rest)
    have hshare := share_iff hfinite hlast
    rw [hshare, hlast]
    simp only [List.head?_cons, Option.map_some, Option.bind_eq_bind, Option.bind_some, List.length_map]
    split_ifs with hfew hspan heps
    · exact Or.inl ⟨Or.inl hfew, rfl⟩
    · rw [← not_lt, seconds_pos_iff, not_lt] at hspan
      exact Or.inl ⟨Or.inr hspan, rfl⟩
    · rw [← not_lt] at hspan
      have hlt := (seconds_pos_iff _ _).mp (not_not.mp hspan)
      exact absurd (epsilon_lt_sxx hlast hlt) heps.not_gt
    · rw [not_le, seconds_pos_iff] at hspan
      rw [not_le] at heps
      refine Or.inr ⟨_, _, rfl, ?_, rfl, ?_, ?_, rfl, rfl, le_max_left _ _⟩
      · rw [not_or, not_le]
        exact ⟨hfew, hspan⟩
      · simp only [List.length_map]
        omega
      · exact (lt_trans (by norm_num [F64_EPSILON]) heps).ne'

/-- The residuals of the line of a trend. -/
theorem residual_relative (t : TrendAnalysis) (a b : ℚ) (p : Int × ℚ) :
    residual a b (relative t.originTs p) = p.2 - (a + b * seconds t.originTs p.1) := rfl

/-- What a trend is among all lines, in the seconds since the origin and, where they do not saturate, in time itself: none has a smaller
sum of squared residuals. And how many points are in the band around it. -/
structure FitsBest (points : List (Int × Option ℚ)) (config : TrendConfig) (t : TrendAnalysis) : Prop where
  seconds : ∀ a b : ℚ, ((finite points).map fun p => (p.2 - t.valueAt p.1) ^ 2).sum ≤
    ((finite points).map fun p => (p.2 - (a + b * seconds t.originTs p.1)) ^ 2).sum
  time : (∀ p ∈ finite points, ∀ q ∈ finite points, p.1 - q.1 ≤ I64_MAX) → ∀ a b : ℚ,
    ((finite points).map fun p => (p.2 - t.valueAt p.1) ^ 2).sum ≤ ((finite points).map fun p => (p.2 - (a + b * p.1)) ^ 2).sum
  band : ⌊max 0 (min config.amplitudeQuantile 1) * ((finite points).length - 1 : Nat)⌋₊ + 1 ≤
    (finite points).countP fun p => |p.2 - t.valueAt p.1| ≤ t.amplitude

/-- Where the points are less than the largest number of seconds apart, seconds since one of them do not saturate. -/
theorem seconds_eq {fs : List (Int × ℚ)} (h : ∀ p ∈ fs, ∀ q ∈ fs, p.1 - q.1 ≤ I64_MAX) {p q : Int × ℚ} (hp : p ∈ fs) (hq : q ∈ fs) :
    TrendAnalysis.seconds q.1 p.1 = p.1 - q.1 := by
  have := h p hp q hq
  have := h q hq p hp
  unfold TrendAnalysis.seconds clampI64 I64_MAX at *
  omega

theorem new_origin {t : TrendAnalysis} (h : new sqrt points config = some t) : ∃ q ∈ finite points, q.1 = t.originTs := by
  unfold new at h
  rw [origin_eq] at h
  cases hfs : finite points with
  | nil =>
    rw [hfs] at h
    cases h
  | cons first rest =>
    have hlast : (first :: rest).getLast? = some _ := List.getLast?_eq_getLast_of_ne_nil (List.cons_ne_nil first rest)
    rw [hfs, hlast] at h
    simp only [List.head?_cons, Option.map_some, Option.bind_eq_bind, Option.bind_some] at h
    split_ifs at h
    exact ⟨first, List.mem_cons_self, congrArg originTs (Option.some.inj h)⟩

theorem trend_spec (hsorted : points.Pairwise fun p q => p.1 ≤ q.1) :
    (∀ t, new sqrt points config = some t → FitsBest points config t) ∧ (new sqrt points config = none ↔ Refused points config) := by
  rcases @new_cases sqrt _ config hsorted with ⟨hrefused, hnone⟩ | ⟨t, pts, hpts, hnot, hsome, htwo, hsxx, hslope, hintercept, hquantile⟩
  · refine ⟨?_, iff_of_true hnone hrefused⟩
    intro t ht
    rw [hnone] at ht
    cases ht
  refine ⟨?_, iff_of_false (by rw [hsome]; simp) hnot⟩
  intro t' ht'
  obtain rfl : t = t' := Option.some.inj (hsome.symm.trans ht')
  have hlength : (pts.length : ℚ) ≠ 0 := by
    have : pts.length ≠ 0 := by omega
    exact_mod_cast this
  have hvalue : ∀ p : Int × ℚ, residual (LeastSquares.intercept pts) (slope pts) (relative t.originTs p) = p.2 - t.valueAt p.1 := by
    intro p
    rw [residual_relative, valueAt, hslope, hintercept]
  have hmap : ∀ f : ℚ × ℚ → ℚ, pts.map f = (finite points).map fun p => f (relative t.originTs p) := by
    intro f
    rw [hpts, List.map_map]
    rfl
  have hbest : ∀ a b : ℚ, ((finite points).map fun p => (p.2 - t.valueAt p.1) ^ 2).sum ≤
      ((finite points).map fun p => (p.2 - (a + b * seconds t.originTs p.1)) ^ 2).sum := by
    intro a b
    have hle := sum_sq_le (residuals_sum hlength) (residuals_cross hlength hsxx) a b
    rw [hmap, hmap] at hle
    simp only [hvalue] at hle
    exact hle
  refine ⟨hbest, ?_, ?_⟩
  · intro hspan a b
    obtain ⟨q, hq, horigin⟩ := new_origin hsome
    refine (hbest (a + b * t.originTs) b).trans (le_of_eq ?_)
    refine congrArg List.sum (List.map_congr_left fun p hp => ?_)
    rw [← horigin, seconds_eq hspan hp hq]
    push_cast
    ring
  · have hsort := List.pairwise_mergeSort' (r := (· ≤ ·)) (pts.map fun p => |residual (LeastSquares.intercept pts) (slope pts) p|)
    obtain ⟨x, hx, hle⟩ := le_quantile hsort (by simpa using htwo) config.amplitudeQuantile
    have hcount := succ_le_countP hsort hx (hle.trans hquantile)
    rw [(List.mergeSort_perm _ _).countP_eq, List.length_mergeSort, hmap, List.countP_map, List.length_map] at hcount
    simp only [hvalue] at hcount
    exact hcount

/-- Two points on a line, ten seconds apart. -/
theorem trend_spec_line :
    (∀ t, new id [(0, some 1), (10, some 2)] ⟨2, 19 / 20, 0, 2⟩ = some t → FitsBest [(0, some 1), (10, some 2)] ⟨2, 19 / 20, 0, 2⟩ t) ∧
      (new id [(0, some 1), (10, some 2)] ⟨2, 19 / 20, 0, 2⟩ = none ↔ Refused [(0, some 1), (10, some 2)] ⟨2, 19 / 20, 0, 2⟩) :=
  trend_spec (by simp)

/-- Points over the whole range of timestamps, evenly spaced on a line. -/
def wholeRange : List (Int × Option ℚ) := [(-9223372036854775808, some 0), (0, some 1), (9223372036854775807, some 2)]

/-- Their seconds saturate, and the fitted line is not the one that they are nearly on. -/
theorem saturated_seconds_not_best : ∃ t, new (fun _ => 7071 / 10000) wholeRange ⟨3, 19 / 20, 0, 2⟩ = some t ∧
    ((finite wholeRange).map fun p => (p.2 - (1 + 1 / 9223372036854775808 * (p.1 : ℚ))) ^ 2).sum <
      ((finite wholeRange).map fun p => (p.2 - t.valueAt p.1) ^ 2).sum := by
  refine ⟨fit (fun _ => 7071 / 10000) ⟨3, 19 / 20, 0, 2⟩ (-9223372036854775808) 9223372036854775807 (9223372036854775807, 2)
    [(0, 0), (9223372036854775807, 1), (9223372036854775807, 2)], ?_, by decide +kernel⟩
  have hpts : (finite wholeRange).map (relative (-9223372036854775808)) =
      [(0, 0), (9223372036854775807, 1), (9223372036854775807, 2)] := by decide +kernel
  have hsxx : ¬sxx [(0, 0), (9223372036854775807, 1), (9223372036854775807, (2 : ℚ))] ≤ F64_EPSILON := by decide +kernel
  have hseconds : seconds (-9223372036854775808) 9223372036854775807 = 9223372036854775807 := by decide +kernel
  have hlast : (finite wholeRange).getLast? = some (9223372036854775807, 2) := by decide +kernel
  have horigin : (wholeRange.find? fun p => p.2.isSome).map Prod.fst = some (-9223372036854775808) := by decide +kernel
  unfold new
  rw [horigin, hlast]
  simp only [Option.bind_eq_bind, Option.bind_some, hpts, hseconds]
  rw [if_neg (by decide), if_neg (by decide), if_neg hsxx]

end TrendAnalysis

end Opsense
