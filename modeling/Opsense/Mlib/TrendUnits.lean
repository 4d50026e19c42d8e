import Opsense.Mlib.Trend

/-!
# Trends and units

The projections of `opsense-mlib/src/trend.rs`, and what a trend says about the same points in other units (`units_irrelevant`): later
or earlier, with the values shifted, scaled or negated.
-/

namespace Opsense

open LeastSquares

/-- The other direction. -/
def Direction.swap : Direction → Direction
  | .rising => .falling
  | .falling => .rising
  | .flat => .flat

/-- The configuration for values that are scaled. -/
def TrendConfig.scale (c : ℚ) (config : TrendConfig) : TrendConfig := { config with minAmplitude := config.minAmplitude * c }

namespace TrendAnalysis

def slopePerHour (t : TrendAnalysis) : ℚ := t.slopePerSec * 3600

/-- The hours until the trend, from the last point on, is at `target`. -/
def hoursUntil (t : TrendAnalysis) (target : ℚ) : Option ℚ :=
  if t.direction ≠ .rising then none
  else
    let slope_hour := t.slopePerHour
    if slope_hour ≤ 0 then none
    else
      let need := target - t.anchorValue
      if need ≤ 0 then some 0 else some (need / slope_hour)

def hoursTo (t : TrendAnalysis) (target : ℚ) : Option ℚ := t.hoursUntil target

def hoursToUpperEnvelope (t : TrendAnalysis) (target : ℚ) : Option ℚ := t.hoursUntil (target - t.amplitude)

/-! ## Points in other units -/

/-- A point later by `d`, with its value scaled and shifted. -/
def rescale (d : Int) (c s : ℚ) (p : Int × Option ℚ) : Int × Option ℚ := (p.1 + d, p.2.map fun v => c * v + s)

/-- A finite point later by `d`, with its value scaled and shifted. -/
def rescaleFinite (d : Int) (c s : ℚ) (p : Int × ℚ) : Int × ℚ := (p.1 + d, c * p.2 + s)

theorem finite_rescale (d : Int) (c s : ℚ) (points : List (Int × Option ℚ)) :
    finite (points.map (rescale d c s)) = (finite points).map (rescaleFinite d c s) := by
  unfold finite
  rw [List.filterMap_map, List.map_filterMap]
  refine congrArg (List.filterMap · points) (funext fun p => ?_)
  cases hv : p.2 <;> simp [rescale, rescaleFinite, hv]

theorem seconds_add (origin_ts t d : Int) : seconds (origin_ts + d) (t + d) = seconds origin_ts t := by
  simp [seconds]

theorem relative_rescale (d : Int) (c s : ℚ) (origin_ts : Int) (p : Int × ℚ) :
    relative (origin_ts + d) (rescaleFinite d c s p) = affine c s (relative origin_ts p) := by
  simp [relative, rescaleFinite, affine, seconds_add]

/-! ## The fitted trend -/

theorem quantile_mul (c : ℚ) (l : List ℚ) (q : ℚ) : quantile (l.map (c * ·)) q = c * quantile l q := by
  rcases l with - | ⟨a, - | ⟨b, rest⟩⟩
  · simp [quantile]
  · simp [quantile]
  · have hget : ∀ n : Nat, ((a :: b :: rest).map (c * ·))[n]?.getD 0 = c * ((a :: b :: rest)[n]?).getD 0 := by
      intro n
      rw [List.getElem?_map]
      cases (a :: b :: rest)[n]? <;> simp
    have hlength : ((a :: b :: rest).map (c * ·)).length = (a :: b :: rest).length := List.length_map _
    simp only [List.map_cons] at hget hlength
    simp only [quantile, List.map_cons, hget, hlength]
    split_ifs
    · rfl
    · ring

/-- The band is scaled with the residuals. -/
theorem sorted_mul {c : ℚ} (hc : 0 < c) (l : List ℚ) : (l.map (c * ·)).mergeSort = l.mergeSort.map (c * ·) := by
  symm
  refine List.map_mergeSort fun a _ b _ => ?_
  simp [mul_le_mul_iff_right₀ hc]

variable {sqrt : ℚ → ℚ} {config : TrendConfig} {pts : List (ℚ × ℚ)} {c : ℚ}

theorem residuals_affine (hpts : pts ≠ []) (c s : ℚ) :
    ((pts.map (affine c s)).map fun p => |residual (LeastSquares.intercept (pts.map (affine c s))) (slope (pts.map (affine c s))) p|) =
      (pts.map fun p => |residual (LeastSquares.intercept pts) (slope pts) p|).map (|c| * ·) := by
  have hlength : (pts.length : ℚ) ≠ 0 := by simpa using hpts
  simp [residual_affine hlength, Function.comp_def, abs_mul]

theorem amplitude_affine (hpts : pts ≠ []) (hc : c ≠ 0) (s : ℚ) (o o' span : Int) (last last' : Int × ℚ) :
    (fit sqrt (config.scale |c|) o' span last' (pts.map (affine c s))).amplitude = |c| * (fit sqrt config o span last pts).amplitude := by
  have hpos : 0 < |c| := abs_pos.mpr hc
  simp only [fit, residuals_affine hpts, sorted_mul hpos, quantile_mul, TrendConfig.scale]
  rw [mul_max_of_nonneg _ _ hpos.le, mul_max_of_nonneg _ _ hpos.le, mul_zero, mul_comm config.minAmplitude]

theorem amplitude_nonneg (o span : Int) (last : Int × ℚ) (pts : List (ℚ × ℚ)) : 0 ≤ (fit sqrt config o span last pts).amplitude :=
  (le_max_right _ _).trans (le_max_right _ _)

/-- The direction of a line that is steeper by a factor, in a band that is wider by it. A factor below 0 turns it around. -/
theorem directionOf_mul {slope amplitude : ℚ} (hc : c ≠ 0) (hamplitude : 0 ≤ amplitude) (span : Int) :
    directionOf (config.scale |c|) (c * slope) (|c| * amplitude) span =
      if 0 < c then directionOf config slope amplitude span else (directionOf config slope amplitude span).swap := by
  have hthreshold : 0 ≤ max config.significance 0 * amplitude := by positivity
  simp only [directionOf, TrendConfig.scale]
  obtain ⟨k, hk⟩ : ∃ k, k = max config.significance 0 := ⟨_, rfl⟩
  simp only [← hk] at hthreshold ⊢
  rcases lt_or_gt_of_ne hc with hneg | hpos
  · rw [abs_of_neg hneg, if_neg hneg.not_gt]
    have hrising : k * (-c * amplitude) < c * slope * span ↔ slope * span < -(k * amplitude) := by
      rw [show k * (-c * amplitude) = c * -(k * amplitude) by ring, mul_assoc, mul_lt_mul_left_of_neg hneg]
    have hfalling : c * slope * span < -(k * (-c * amplitude)) ↔ k * amplitude < slope * span := by
      rw [show -(k * (-c * amplitude)) = c * (k * amplitude) by ring, mul_assoc, mul_lt_mul_left_of_neg hneg]
    simp only [hrising, hfalling]
    split_ifs with hlow hhigh
    · linarith
    · rfl
    · rfl
    · rfl
  · rw [abs_of_pos hpos, if_pos hpos]
    have hrising : k * (c * amplitude) < c * slope * span ↔ k * amplitude < slope * span := by
      rw [show k * (c * amplitude) = c * (k * amplitude) by ring, mul_assoc, mul_lt_mul_iff_right₀ hpos]
    have hfalling : c * slope * span < -(k * (c * amplitude)) ↔ slope * span < -(k * amplitude) := by
      rw [show -(k * (c * amplitude)) = c * -(k * amplitude) by ring, mul_assoc, mul_lt_mul_iff_right₀ hpos]
    simp only [hrising, hfalling]

theorem direction_affine (hpts : pts ≠ []) (hc : c ≠ 0) (s : ℚ) (o o' span : Int) (last last' : Int × ℚ) :
    (fit sqrt (config.scale |c|) o' span last' (pts.map (affine c s))).direction =
      if 0 < c then (fit sqrt config o span last pts).direction else (fit sqrt config o span last pts).direction.swap := by
  have hamplitude := @amplitude_affine sqrt config pts c hpts hc s o o' span last last'
  have hlength : (pts.length : ℚ) ≠ 0 := by simpa using hpts
  have hnonneg : 0 ≤ (fit sqrt config o span last pts).amplitude := amplitude_nonneg o span last pts
  have hdirection := @directionOf_mul config c (slope pts) _ hc hnonneg span
  rw [← hamplitude, ← slope_affine hlength c s] at hdirection
  exact hdirection

/-- What `new` says about the points in other units. -/
theorem new_rescale {points : List (Int × Option ℚ)} {t : TrendAnalysis} (h : new sqrt points config = some t) (d : Int) (hc : c ≠ 0)
    (s : ℚ) : ∃ t', new sqrt (points.map (rescale d c s)) (config.scale |c|) = some t' ∧
      t'.direction = (if 0 < c then t.direction else t.direction.swap) ∧ t'.slopePerSec = c * t.slopePerSec ∧
      t'.amplitude = |c| * t.amplitude ∧ t'.anchorValue = c * t.anchorValue + s := by
  unfold new at h ⊢
  rw [origin_eq] at h ⊢
  rw [finite_rescale]
  cases hfs : finite points with
  | nil =>
    rw [hfs] at h
    cases h
  | cons first rest =>
    have hlast : (first :: rest).getLast? = some _ := List.getLast?_eq_getLast_of_ne_nil (List.cons_ne_nil first rest)
    rw [hfs, hlast] at h
    rw [List.getLast?_map, hlast]
    simp only [List.head?_cons, List.map_cons, Option.map_some, Option.bind_eq_bind, Option.bind_some] at h ⊢
    simp only [← List.map_cons] at h ⊢
    have hpts : ((first :: rest).map (rescaleFinite d c s)).map (relative (rescaleFinite d c s first).1) =
        ((first :: rest).map (relative first.1)).map (affine c s) := by
      rw [List.map_map, List.map_map]
      exact List.map_congr_left fun p _ => relative_rescale d c s first.1 p
    have hspan : ∀ p : Int × ℚ, seconds (rescaleFinite d c s first).1 (rescaleFinite d c s p).1 = seconds first.1 p.1 :=
      fun p => seconds_add _ _ _
    have hsamples : (config.scale |c|).minSamples = config.minSamples := rfl
    simp only [hpts, hspan, hsamples, sxx_affine, List.length_map] at h ⊢
    split_ifs at h with hfew hspan' hsxx
    rw [if_neg hfew, if_neg hspan', if_neg hsxx, ← Option.some.inj h]
    have hne : (first :: rest).map (relative first.1) ≠ [] := by simp
    have hlength : (((first :: rest).map (relative first.1)).length : ℚ) ≠ 0 := by
      rw [Nat.cast_ne_zero, List.length_map]
      exact Nat.succ_ne_zero _
    exact ⟨_, rfl, direction_affine hne hc s _ _ _ _ _, slope_affine hlength c s, amplitude_affine hne hc s _ _ _ _ _, rfl⟩

/-! ## The projections -/

/-- The projections of a trend in other units. -/
theorem hoursUntil_scale {t t' : TrendAnalysis} {s : ℚ} (hc : 0 < c) (hdirection : t'.direction = t.direction)
    (hslope : t'.slopePerSec = c * t.slopePerSec) (hanchor : t'.anchorValue = c * t.anchorValue + s) (target : ℚ) :
    t'.hoursUntil (c * target + s) = t.hoursUntil target := by
  have hneed : c * target + s - t'.anchorValue = c * (target - t.anchorValue) := by
    rw [hanchor]
    ring
  have hhour : t'.slopePerHour = c * t.slopePerHour := by
    rw [slopePerHour, hslope, mul_assoc]
    rfl
  have hnonpos : ∀ x : ℚ, c * x ≤ 0 ↔ x ≤ 0 := fun x => by
    rw [← not_lt, ← not_lt, mul_pos_iff_of_pos_left hc]
  simp only [hoursUntil, hdirection, hneed, hhour, hnonpos, mul_div_mul_left _ _ hc.ne']

theorem new_amplitude_nonneg {points : List (Int × Option ℚ)} {t : TrendAnalysis} (h : new sqrt points config = some t) :
    0 ≤ t.amplitude := by
  simp only [new, Option.bind_eq_bind, Option.bind_eq_some_iff] at h
  obtain ⟨o, -, h⟩ := h
  rw [Option.ite_none_left_eq_some, Option.bind_eq_some_iff] at h
  obtain ⟨-, last, -, h⟩ := h
  rw [Option.ite_none_left_eq_some, Option.ite_none_left_eq_some] at h
  obtain ⟨-, -, h⟩ := h
  rw [← Option.some.inj h]
  exact amplitude_nonneg _ _ _ _

/-- A lower target is there no later. -/
theorem hoursUntil_mono {t : TrendAnalysis} {low high a b : ℚ} (hle : low ≤ high) (ha : t.hoursUntil low = some a)
    (hb : t.hoursUntil high = some b) : a ≤ b := by
  simp only [hoursUntil, Option.ite_none_left_eq_some, not_le] at ha hb
  obtain ⟨-, hslope, ha⟩ := ha
  obtain ⟨-, -, hb⟩ := hb
  split_ifs at ha hb with hlow hhigh hhigh
  · rw [← Option.some.inj ha, ← Option.some.inj hb]
  · rw [not_le] at hhigh
    rw [← Option.some.inj ha, ← Option.some.inj hb]
    exact (div_pos hhigh hslope).le
  · linarith
  · rw [← Option.some.inj ha, ← Option.some.inj hb]
    gcongr

/-- A trend of the same points in other units says the same. -/
structure SameTrend (c s : ℚ) (t t' : TrendAnalysis) : Prop where
  direction : t'.direction = t.direction
  slope : t'.slopePerSec = c * t.slopePerSec
  amplitude : t'.amplitude = c * t.amplitude
  hours_to : ∀ target, t'.hoursTo (c * target + s) = t.hoursTo target
  hours_to_upper_envelope : ∀ target, t'.hoursToUpperEnvelope (c * target + s) = t.hoursToUpperEnvelope target

theorem units_irrelevant {points : List (Int × Option ℚ)} {t : TrendAnalysis} (h : new sqrt points config = some t) :
    (∀ (d : Int) (c s : ℚ), 0 < c →
      ∃ t', new sqrt (points.map (rescale d c s)) (config.scale c) = some t' ∧ SameTrend c s t t') ∧
    (∃ t', new sqrt (points.map fun p => (p.1, p.2.map fun v => -v)) config = some t' ∧ t'.direction = t.direction.swap) ∧
    ∀ target a b, t.hoursToUpperEnvelope target = some a → t.hoursTo target = some b → a ≤ b := by
  refine ⟨?_, ?_, ?_⟩
  · intro d c s hc
    obtain ⟨t', ht', hdirection, hslope, hamplitude, hanchor⟩ := new_rescale h d hc.ne' s
    rw [abs_of_pos hc] at ht' hamplitude
    rw [if_pos hc] at hdirection
    have hhours := hoursUntil_scale hc hdirection hslope hanchor
    refine ⟨t', ht', hdirection, hslope, hamplitude, hhours, ?_⟩
    intro target
    rw [hoursToUpperEnvelope, hoursToUpperEnvelope, ← hhours, hamplitude]
    exact congrArg t'.hoursUntil (by ring)
  · obtain ⟨t', ht', hdirection, -⟩ := new_rescale h 0 (c := -1) (by norm_num) 0
    refine ⟨t', ?_, ?_⟩
    · have hconfig : config.scale |-1| = config := by simp [TrendConfig.scale]
      rw [hconfig] at ht'
      rw [← ht']
      refine congrArg (new sqrt · config) (List.map_congr_left fun p _ => ?_)
      simp [rescale]
    · rw [hdirection, if_neg (by norm_num)]
  · intro target a b ha hb
    exact hoursUntil_mono (by linarith [new_amplitude_nonneg h]) ha hb

/-- Two points on a line, ten seconds apart. -/
theorem units_irrelevant_line : ∃ t, new id [(0, some 1), (10, some 2)] ⟨2, 19 / 20, 0, 2⟩ = some t ∧
    (∀ (d : Int) (c s : ℚ), 0 < c → ∃ t',
      new id ([(0, some 1), (10, some 2)].map (rescale d c s)) (TrendConfig.scale c ⟨2, 19 / 20, 0, 2⟩) = some t' ∧
        SameTrend c s t t') ∧
    (∃ t', new id ([(0, some 1), (10, some 2)].map fun p => (p.1, p.2.map fun v => -v)) ⟨2, 19 / 20, 0, 2⟩ = some t' ∧
      t'.direction = t.direction.swap) ∧
    ∀ target a b, t.hoursToUpperEnvelope target = some a → t.hoursTo target = some b → a ≤ b := by
  have hnew : new id [(0, some 1), (10, some 2)] ⟨2, 19 / 20, 0, 2⟩ =
      some (fit id ⟨2, 19 / 20, 0, 2⟩ 0 10 (10, 2) [(0, 1), (10, 2)]) := by
    have hsxx : ¬sxx [(0, 1), (10, (2 : ℚ))] ≤ F64_EPSILON := by decide +kernel
    have hfinite : finite [(0, some 1), (10, some 2)] = [(0, 1), (10, 2)] := rfl
    have hpts : [(0, 1), (10, (2 : ℚ))].map (relative 0) = [(0, 1), (10, 2)] := by decide +kernel
    have hseconds : seconds 0 10 = 10 := by decide
    unfold new
    rw [origin_eq, hfinite]
    simp only [List.head?_cons, Option.map_some, List.getLast?_cons_cons, List.getLast?_singleton, Option.bind_eq_bind, Option.bind_some,
      hpts, hseconds]
    rw [if_neg (by decide), if_neg (by decide), if_neg hsxx]
  exact ⟨_, hnew, units_irrelevant hnew⟩

end TrendAnalysis

end Opsense
