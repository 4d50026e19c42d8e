import Opsense.Graph.Setup

/-!
# What is decoded

`setup` does not panic, and its probabilities lie between 0 and 1 where the bounds do, whatever the model gives: what is not finite
is replaced, and no sum of `f32` values overflows a double. The probabilities follow the market bias where it is not bearish
(`decode_sound`).
-/

namespace Opsense

namespace Double

theorem abs_fin (q : ℚ) : Extrema.abs (fin q) = fin |q| := by
  have habs : Extrema.abs (fin q) = if (if q = 0 then none else some (decide (q < 0))) = some true then fin (-q) else fin q := rfl
  rw [habs]
  rcases lt_trichotomy q 0 with hq | rfl | hq
  · rw [if_neg hq.ne, abs_of_neg hq]
    simp [hq]
  · simp
  · rw [if_neg hq.ne', abs_of_pos hq]
    simp [hq.le]

theorem min_fin (p q : ℚ) : Extrema.min (fin p) (fin q) = fin (Min.min p q) := by
  have hmin : Extrema.min (fin p) (fin q) = if partialCmp (fin q) (fin p) = some .lt then fin q else fin p := rfl
  rw [hmin]
  by_cases h : q < p
  · rw [if_pos (partialCmp_lt.mpr h), min_eq_right h.le]
  · rw [if_neg (partialCmp_lt.not.mpr h), min_eq_left (not_lt.mp h)]

end Double

namespace Graph

open Double

/-- A finite `f32`, which is a double below a power of two. -/
def Single (x : Double) : Prop := ∃ q, x = fin q ∧ |q| ≤ 2 ^ 128 ∧ IsDouble q

/-- An output of the model. -/
def IsOutput (x : Double) : Prop := x.isFinite = true → Single x

theorem single_ofRat {q : ℚ} (h : |q| ≤ 2 ^ 128) : Single (ofRat q) := by
  obtain ⟨hlo, hhi⟩ := abs_le.mp h
  have hpow : IsDouble (2 ^ 128) := isDouble_two_pow (by decide)
  obtain ⟨r, hr, hmagnitude⟩ := (between_ofRat hpow.neg hpow hlo hhi).magnitude
  exact ⟨r, hr, hmagnitude, isDouble_of_ofRat hr⟩

theorem single_output {outputs : List (List Double)} (hout : ∀ o ∈ outputs, ∀ v ∈ o, IsOutput v) (i : Nat)
    {missing default : Double} (hmissing : Single missing) (hdefault : Single default) :
    Single (output outputs i missing default) := by
  unfold output finiteOr
  split_ifs with hfinite
  · cases hv : (outputs.headD [])[i]? with
    | none => exact hmissing
    | some v =>
      rw [hv] at hfinite
      refine hout (outputs.headD []) ?_ v (List.mem_of_getElem? hv) hfinite
      cases outputs with
      | nil => cases hv
      | cons o outputs => exact List.mem_cons_self
  · exact hdefault

/-- The numbers that the probabilities are computed of are finite. -/
structure Odds.Singles (o : Odds Double) : Prop where
  prob_base : Single o.prob_base
  bias_scale : Single o.bias_scale
  level_trend : Single o.level_trend
  prob_max : Single o.prob_max
  prob_min : Single o.prob_min
  prob_short_max : Single o.prob_short_max
  prob_short_min : Single o.prob_short_min

theorem singles_odds {outputs : List (List Double)} (hout : ∀ o ∈ outputs, ∀ v ∈ o, IsOutput v) : (odds outputs).Singles := by
  constructor <;> exact single_output hout _ (single_ofRat (by norm_num)) (single_ofRat (by norm_num))

theorem single_marketBias {outputs : List (List Double)} (hout : ∀ o ∈ outputs, ∀ v ∈ o, IsOutput v) :
    Single (marketBias outputs) :=
  single_output hout 0 (single_ofRat (by norm_num)) (single_ofRat (by norm_num))

theorem clamp_fin {x lo hi : ℚ} (h : lo ≤ hi) : clamp (fin x) (fin lo) (fin hi) = some (fin (max lo (min x hi))) := by
  have hle : Scalar.le (fin lo) (fin hi) = true := le_fin.mpr h
  unfold clamp
  rw [if_pos hle]
  by_cases hlow : x < lo
  · rw [if_pos (lt_fin.mpr hlow), min_eq_left (hlow.le.trans h), max_eq_left hlow.le]
  · rw [if_neg (lt_fin.not.mpr hlow)]
    by_cases hhigh : hi < x
    · rw [if_pos (gt_fin.mpr hhigh), min_eq_right hhigh.le, max_eq_right h]
    · rw [if_neg (gt_fin.not.mpr hhigh), min_eq_left (not_lt.mp hhigh), max_eq_right (not_lt.mp hlow)]

/-! ## The direction of the market -/

/-- The market bias is above the neutral band. -/
def Bullish (market_bias : Double) : Prop := Scalar.gt market_bias (0.5 + 1e-9) = true

/-- The market bias is below the neutral band. -/
def Bearish (market_bias : Double) : Prop := Scalar.lt market_bias (0.5 - 1e-9) = true

instance (market_bias : Double) : Decidable (Bearish market_bias) := inferInstanceAs (Decidable (_ = _))

/-- The neutral band is around a half. -/
theorem exists_band : ∃ lo hi : ℚ, (0.5 - 1e-9 : Double) = fin lo ∧ (0.5 + 1e-9 : Double) = fin hi ∧ lo ≤ 1 / 2 ∧ 1 / 2 ≤ hi := by
  have hepsilon : (1e-9 : Double) = ofRat (OfScientific.ofScientific 1 true 9) := rfl
  obtain ⟨e, he, hnonneg, hle⟩ := between_ofRat isDouble_zero isDouble_half (q := OfScientific.ofScientific 1 true 9) (by norm_num)
    (by norm_num)
  rw [hepsilon, he, half_eq, fin_sub_fin, fin_add_fin]
  obtain ⟨lo, hlo, -, hlow⟩ := between_ofRat isDouble_zero isDouble_half (q := 1 / 2 - e) (by linarith) (by linarith)
  obtain ⟨hi, hhi, hhigh, -⟩ := between_ofRat isDouble_half isDouble_one (q := 1 / 2 + e) (by linarith) (by linarith)
  exact ⟨lo, hi, hlo, hhi, hlow, hhigh⟩

theorem half_lt_of_bullish {m : ℚ} (h : Bullish (fin m)) : 1 / 2 < m := by
  obtain ⟨lo, hi, -, hhi, -, hhigh⟩ := exists_band
  unfold Bullish at h
  rw [hhi] at h
  exact hhigh.trans_lt (gt_fin.mp h)

theorem lt_half_of_bearish {m : ℚ} (h : Bearish (fin m)) : m < 1 / 2 := by
  obtain ⟨lo, hi, hlo, -, hlow, -⟩ := exists_band
  unfold Bearish at h
  rw [hlo] at h
  exact (lt_fin.mp h).trans_le hlow

theorem bullish_mono {m m' : ℚ} (hle : m ≤ m') (h : Bullish (fin m)) : Bullish (fin m') := by
  obtain ⟨lo, hi, -, hhi, -⟩ := exists_band
  unfold Bullish at h ⊢
  rw [hhi] at h ⊢
  exact gt_fin.mpr ((gt_fin.mp h).trans_le hle)

theorem bearish_anti {m m' : ℚ} (hle : m ≤ m') (h : Bearish (fin m')) : Bearish (fin m) := by
  obtain ⟨lo, hi, hlo, -⟩ := exists_band
  unfold Bearish at h ⊢
  rw [hlo] at h ⊢
  exact lt_fin.mpr (hle.trans_lt (lt_fin.mp h))

theorem direction_neutral {m : Double} (h : ¬Bullish m) (h' : ¬Bearish m) : direction m = some (0.0, 0.0) := by
  unfold Bullish at h
  unfold Bearish at h'
  unfold direction
  dsimp only
  rw [if_neg h, if_neg h']

/-- The distance of a market bias from a half. -/
theorem exists_distance {m : ℚ} (hm : |m| ≤ 2 ^ 128) : ∃ d : ℚ, fin m - 0.5 = fin d ∧ |d| ≤ 2 ^ 129 := by
  have hhalf : |(1 / 2 : ℚ)| ≤ 2 ^ 128 := by norm_num
  rw [half_eq]
  exact (between_sub (by decide) hm hhalf).magnitude

theorem exists_doubled {d : ℚ} (hd : |d| ≤ 2 ^ 129) : ∃ x : ℚ, fin d * 2.0 = fin x := by
  have hdouble : |d * 2| ≤ 2 ^ 130 := by
    rw [abs_mul, abs_two]
    calc |d| * 2 ≤ 2 ^ 129 * 2 := mul_le_mul_of_nonneg_right hd two_pos.le
      _ = 2 ^ 130 := by norm_num
  obtain ⟨hlo, hhi⟩ := abs_le.mp hdouble
  have hpow : IsDouble (2 ^ 130) := isDouble_two_pow (by decide)
  obtain ⟨x, hx, -⟩ := between_ofRat hpow.neg hpow hlo hhi
  exact ⟨x, by rw [two_eq, fin_mul_fin, hx]⟩

/-- A strength that is clamped. -/
theorem clamp_unit (x : ℚ) : clamp (fin x) (0.0 : Double) 1.0 = some (fin (max 0 (min x 1))) := by
  rw [zero_eq, one_eq]
  exact clamp_fin zero_le_one

/-- A bullish market has the strength of the distance from a half, doubled and clamped. -/
theorem direction_bullish {m : ℚ} (hm : |m| ≤ 2 ^ 128) (h : Bullish (fin m)) :
    ∃ x : ℚ, (fin m - 0.5) * 2.0 = fin x ∧ direction (fin m) = some (1.0, fin (max 0 (min x 1))) := by
  obtain ⟨d, hd, hmagnitude⟩ := exists_distance hm
  obtain ⟨x, hx⟩ := exists_doubled hmagnitude
  refine ⟨x, by rw [hd, hx], ?_⟩
  unfold Bullish at h
  unfold direction
  dsimp only
  rw [if_pos h, hd, hx, clamp_unit, Option.map_some]

theorem direction_bearish {m : ℚ} (hm : |m| ≤ 2 ^ 128) (h : Bearish (fin m)) :
    ∃ s : ℚ, 0 ≤ s ∧ s ≤ 1 ∧ direction (fin m) = some (0.0 - 1.0, fin s) := by
  obtain ⟨d, hd, hmagnitude⟩ := exists_distance hm
  obtain ⟨x, hx⟩ := exists_doubled ((abs_abs d).trans_le hmagnitude)
  have hbull : ¬Bullish (fin m) := fun hbull => absurd (lt_half_of_bearish h) (not_lt.mpr (half_lt_of_bullish hbull).le)
  refine ⟨max 0 (min x 1), le_max_left _ _, max_le zero_le_one (min_le_right _ _), ?_⟩
  unfold Bearish at h
  unfold Bullish at hbull
  unfold direction
  dsimp only
  rw [if_neg hbull, if_pos h, hd, abs_fin, hx, clamp_unit, Option.map_some]

/-- In whatever direction, the strength is between 0 and 1. -/
theorem exists_direction {m : ℚ} (hm : |m| ≤ 2 ^ 128) :
    ∃ (d : Double) (s : ℚ), 0 ≤ s ∧ s ≤ 1 ∧ direction (fin m) = some (d, fin s) := by
  by_cases hbull : Bullish (fin m)
  · obtain ⟨x, -, hdirection⟩ := direction_bullish hm hbull
    exact ⟨_, _, le_max_left _ _, max_le zero_le_one (min_le_right _ _), hdirection⟩
  · by_cases hbear : Bearish (fin m)
    · obtain ⟨s, hnonneg, hle, hdirection⟩ := direction_bearish hm hbear
      exact ⟨_, s, hnonneg, hle, hdirection⟩
    · exact ⟨0.0, 0, le_rfl, zero_le_one, by rw [direction_neutral hbull hbear, zero_eq]⟩

/-- The strength of a bullish market follows the market bias. -/
theorem strength_mono {m m' x x' : ℚ} (hm : |m| ≤ 2 ^ 128) (hm' : |m'| ≤ 2 ^ 128) (hle : m ≤ m')
    (hx : (fin m - 0.5) * 2.0 = fin x) (hx' : (fin m' - 0.5) * 2.0 = fin x') : x ≤ x' := by
  obtain ⟨d, hd, -⟩ := exists_distance hm
  obtain ⟨d', hd', -⟩ := exists_distance hm'
  have hdistance : d ≤ d' := by
    rw [half_eq, fin_sub_fin] at hd hd'
    rw [← le_fin, ← hd, ← hd']
    exact ofRat_mono (by linarith)
  rw [hd, two_eq, fin_mul_fin] at hx
  rw [hd', two_eq, fin_mul_fin] at hx'
  rw [← le_fin, ← hx, ← hx']
  exact ofRat_mono (by linarith)

/-! ## The probabilities of a level -/

variable {k j : Nat}

/-- The place of a level in the grid, between 0 and 1. -/
theorem exists_place (hj : j < k) (hk : k ≤ 64) :
    ∃ t u : ℚ, (Scalar.ofNat j / Scalar.ofNat (max k 2 - 1) : Double) = fin t ∧ (1.0 - fin t : Double) = fin u ∧ 0 ≤ t ∧ t ≤ 1 ∧
      0 ≤ u ∧ u ≤ 1 := by
  obtain ⟨t, ht, hnonneg, hle⟩ := between_rate (a := j) (b := max k 2 - 1) (by omega) (by omega) (by omega)
  obtain ⟨u, hu, hnonneg', hle'⟩ := between_ofRat isDouble_zero isDouble_one (q := 1 - t) (by linarith) (by linarith)
  exact ⟨t, u, ht, by rw [one_eq, fin_sub_fin, hu], hnonneg, hle, hnonneg', hle'⟩

/-- The direction is up or down. -/
def Directed (d : Double) : Prop := Scalar.gt d 0.0 = true ∨ Scalar.lt d 0.0 = true

variable {d : Double} {o : Odds Double}

theorem lean_directed (hd : Directed d) (s : Double) {t u : ℚ} (ht : (Scalar.ofNat j / Scalar.ofNat (max k 2 - 1) : Double) = fin t)
    (hu : (1.0 - fin t : Double) = fin u) :
    o.lean d s k j =
      (o.prob_base + s * o.bias_scale + fin u * o.level_trend, o.prob_base - s * o.bias_scale - fin t * o.level_trend) := by
  unfold Odds.lean
  dsimp only
  rw [ht, hu]
  rcases hd with hup | hdown
  · rw [if_pos hup]
  · split_ifs
    · rfl
    · rfl

theorem lean_neutral (o : Odds Double) (s : Double) (k j : Nat) : o.lean 0.0 s k j = (o.prob_base, o.prob_base) := by
  unfold Odds.lean
  dsimp only
  have hgt : ¬Scalar.gt (0.0 : Double) 0.0 = true := by decide +kernel
  have hlt : ¬Scalar.lt (0.0 : Double) 0.0 = true := by decide +kernel
  rw [if_neg hgt, if_neg hlt]

/-- The probabilities of a level are finite before they are clamped. -/
theorem exists_lean (ho : o.Singles) (hj : j < k) (hk : k ≤ 64) (d : Double) {s : ℚ} (hs : 0 ≤ s) (hs1 : s ≤ 1) :
    ∃ p q : ℚ, o.lean d (fin s) k j = (fin p, fin q) := by
  obtain ⟨t, u, ht, hu, ht0, ht1, hu0, hu1⟩ := exists_place hj hk
  obtain ⟨base, hbase, hbase128, -⟩ := ho.prob_base
  obtain ⟨scale, hscale, hscale128, -⟩ := ho.bias_scale
  obtain ⟨trend, htrend, htrend128, -⟩ := ho.level_trend
  by_cases hd : Directed d
  · obtain ⟨b, hb, hb128⟩ := (between_mul (by decide) hs hs1 hscale128).magnitude
    obtain ⟨c, hc, hc128⟩ := (between_mul (by decide) hu0 hu1 htrend128).magnitude
    obtain ⟨c', hc', hc'128⟩ := (between_mul (by decide) ht0 ht1 htrend128).magnitude
    obtain ⟨p, hp, hp129⟩ := (between_add (by decide) hbase128 hb128).magnitude
    obtain ⟨q, hq, hq129⟩ := (between_sub (by decide) hbase128 hb128).magnitude
    have hgrow : (2 : ℚ) ^ 128 ≤ 2 ^ (128 + 1) := by norm_num
    obtain ⟨long, hlong, -⟩ := between_add (by decide) hp129 (hc128.trans hgrow)
    obtain ⟨short, hshort, -⟩ := between_sub (by decide) hq129 (hc'128.trans hgrow)
    refine ⟨long, short, ?_⟩
    rw [lean_directed hd _ ht hu, hbase, hscale, htrend, hb, hc, hc', hp, hq, hlong, hshort]
  · obtain ⟨hup, hdown⟩ := not_or.mp hd
    refine ⟨base, base, ?_⟩
    unfold Odds.lean
    dsimp only
    rw [if_neg hup, if_neg hdown, hbase]

/-- With a direction, the probabilities follow the strength. -/
theorem lean_mono (ho : o.Singles) (hj : j < k) (hk : k ≤ 64) {d d' : Double} (hd : Directed d) (hd' : Directed d')
    (hscale : Le (fin 0) o.bias_scale) {s s' : ℚ} (hs : 0 ≤ s) (hle : s ≤ s') (hs1 : s' ≤ 1) :
    Le (o.lean d (fin s) k j).1 (o.lean d' (fin s') k j).1 ∧ Le (o.lean d' (fin s') k j).2 (o.lean d (fin s) k j).2 := by
  obtain ⟨t, u, ht, hu, ht0, ht1, hu0, hu1⟩ := exists_place hj hk
  obtain ⟨base, hbase, hbase128, -⟩ := ho.prob_base
  obtain ⟨scale, heq, hscale128, -⟩ := ho.bias_scale
  obtain ⟨trend, htrend, htrend128, -⟩ := ho.level_trend
  rw [heq, le_fin] at hscale
  obtain ⟨b, hb, -⟩ := (between_mul (by decide) hs (hle.trans hs1) hscale128).magnitude
  obtain ⟨b', hb', -⟩ := (between_mul (by decide) (hs.trans hle) hs1 hscale128).magnitude
  obtain ⟨c, hc, -⟩ := (between_mul (by decide) hu0 hu1 htrend128).magnitude
  obtain ⟨c', hc', -⟩ := (between_mul (by decide) ht0 ht1 htrend128).magnitude
  have hbias : b ≤ b' := by
    rw [← le_fin, ← hb, ← hb', fin_mul_fin, fin_mul_fin]
    exact ofRat_mono (mul_le_mul_of_nonneg_right hle hscale)
  rw [lean_directed hd _ ht hu, lean_directed hd' _ ht hu, hbase, heq, htrend, hb, hb', hc, hc']
  refine ⟨add_mono_right (add_mono (le_fin.mpr hbias)), sub_mono ?_⟩
  rw [fin_sub_fin, fin_sub_fin]
  exact ofRat_mono (by linarith)

/-- With a direction, and a trend that is not below zero, the probabilities lie on the two sides of the base. -/
theorem lean_sides (ho : o.Singles) (hj : j < k) (hk : k ≤ 64) (hd : Directed d) (hscale : Le (fin 0) o.bias_scale)
    (htrend : Le (fin 0) o.level_trend) {s : ℚ} (hs : 0 ≤ s) (hs1 : s ≤ 1) :
    Le o.prob_base (o.lean d (fin s) k j).1 ∧ Le (o.lean d (fin s) k j).2 o.prob_base := by
  obtain ⟨t, u, ht, hu, ht0, ht1, hu0, hu1⟩ := exists_place hj hk
  obtain ⟨base, hbase, hbase128, hdouble⟩ := ho.prob_base
  obtain ⟨scale, heq, hscale128, -⟩ := ho.bias_scale
  obtain ⟨trend, htrend_eq, htrend128, -⟩ := ho.level_trend
  rw [heq, le_fin] at hscale
  rw [htrend_eq, le_fin] at htrend
  obtain ⟨b, hb, hb128⟩ := (between_mul (by decide) hs hs1 hscale128).magnitude
  obtain ⟨c, hc, -⟩ := (between_mul (by decide) hu0 hu1 htrend128).magnitude
  obtain ⟨c', hc', -⟩ := (between_mul (by decide) ht0 ht1 htrend128).magnitude
  obtain ⟨p, hp, -⟩ := (between_add (by decide) hbase128 hb128).magnitude
  obtain ⟨q, hq, -⟩ := (between_sub (by decide) hbase128 hb128).magnitude
  have hb0 := mul_nonneg_of_fin hs hscale hb
  rw [lean_directed hd _ ht hu, hbase, heq, htrend_eq, hb, hc, hc']
  constructor
  · refine le_trans (le_add hdouble hb0) ?_
    rw [hp]
    exact le_add (isDouble_of_ofRat hp) (mul_nonneg_of_fin hu0 htrend hc)
  · refine le_trans ?_ (sub_le hdouble hb0)
    rw [hq]
    exact sub_le (isDouble_of_ofRat ((fin_sub_fin _ _).symm.trans hq)) (mul_nonneg_of_fin ht0 htrend hc')

/-- Between 0 and 1. -/
def InUnit (x : Double) : Prop := Le (fin 0) x ∧ Le x (fin 1)

instance (x : Double) : Decidable (InUnit x) := inferInstanceAs (Decidable (_ ∧ _))

/-- The bounds of the probabilities are between 0 and 1. -/
structure Odds.BoundsInUnit (o : Odds Double) : Prop where
  prob_max : InUnit o.prob_max
  prob_min : InUnit o.prob_min
  prob_short_max : InUnit o.prob_short_max
  prob_short_min : InUnit o.prob_short_min

/-- A number that is clamped between two bounds, in whatever order they are given. -/
theorem exists_clamped {lo hi : Double} (hlo : Single lo) (hhi : Single hi) (p : ℚ) :
    ∃ r : ℚ, clamp (fin p) (Extrema.min lo hi) (Scalar.max lo hi) = some (fin r) ∧ (InUnit lo → InUnit hi → InUnit (fin r)) := by
  obtain ⟨a, rfl, -⟩ := hlo
  obtain ⟨b, rfl, -⟩ := hhi
  rw [min_fin, max_fin, clamp_fin min_le_max]
  refine ⟨_, rfl, ?_⟩
  rintro ⟨ha0, ha1⟩ ⟨hb0, hb1⟩
  rw [le_fin] at ha0 ha1 hb0 hb1
  refine ⟨le_fin.mpr ((le_min ha0 hb0).trans (le_max_left _ _)), le_fin.mpr (max_le (min_le_of_left_le ha1) ?_)⟩
  exact (min_le_right _ _).trans (max_le ha1 hb1)

theorem clamp_mono {lo hi : Double} (hlo : Single lo) (hhi : Single hi) {p p' : ℚ} {r r' : Double} (h : p ≤ p')
    (hr : clamp (fin p) (Extrema.min lo hi) (Scalar.max lo hi) = some r)
    (hr' : clamp (fin p') (Extrema.min lo hi) (Scalar.max lo hi) = some r') : Le r r' := by
  obtain ⟨a, rfl, -⟩ := hlo
  obtain ⟨b, rfl, -⟩ := hhi
  rw [min_fin, max_fin, clamp_fin min_le_max, Option.some.injEq] at hr hr'
  rw [← hr, ← hr']
  exact le_fin.mpr (max_le_max_left _ (min_le_min_right _ h))

/-- The probabilities of a level are found, and are between 0 and 1 where the bounds are. -/
theorem exists_level (ho : o.Singles) (hj : j < k) (hk : k ≤ 64) (d : Double) {s : ℚ} (hs : 0 ≤ s) (hs1 : s ≤ 1) :
    ∃ l r : ℚ, o.level d (fin s) k j = some (fin l, fin r) ∧ (o.BoundsInUnit → InUnit (fin l) ∧ InUnit (fin r)) := by
  obtain ⟨p, q, hlean⟩ := exists_lean ho hj hk d hs hs1
  obtain ⟨l, hl, hlunit⟩ := exists_clamped ho.prob_min ho.prob_max p
  obtain ⟨r, hr, hrunit⟩ := exists_clamped ho.prob_short_min ho.prob_short_max q
  refine ⟨l, r, ?_, fun h => ⟨hlunit h.prob_min h.prob_max, hrunit h.prob_short_min h.prob_short_max⟩⟩
  unfold Odds.level
  simp only [Option.bind_eq_bind, hlean, hl, hr, Option.bind_some, Option.pure_def]

/-- Where the numbers before they are clamped are in order, so are the probabilities. -/
theorem level_mono (ho : o.Singles) (hj : j < k) (hk : k ≤ 64) {d d' : Double} {s s' : ℚ} (hs : 0 ≤ s) (hs1 : s ≤ 1) (hs' : 0 ≤ s')
    (hs1' : s' ≤ 1) (h : Le (o.lean d (fin s) k j).1 (o.lean d' (fin s') k j).1 ∧ Le (o.lean d' (fin s') k j).2 (o.lean d (fin s) k j).2)
    {p p' : Double × Double} (hp : o.level d (fin s) k j = some p) (hp' : o.level d' (fin s') k j = some p') :
    Le p.1 p'.1 ∧ Le p'.2 p.2 := by
  obtain ⟨a, b, hlean⟩ := exists_lean ho hj hk d hs hs1
  obtain ⟨a', b', hlean'⟩ := exists_lean ho hj hk d' hs' hs1'
  rw [hlean, hlean', le_fin, le_fin] at h
  unfold Odds.level at hp hp'
  simp only [Option.bind_eq_bind, hlean, hlean', Option.bind_eq_some_iff, Option.pure_def, Option.some.injEq] at hp hp'
  obtain ⟨l, hl, r, hr, rfl⟩ := hp
  obtain ⟨l', hl', r', hr', rfl⟩ := hp'
  exact ⟨clamp_mono ho.prob_min ho.prob_max h.1 hl hl', clamp_mono ho.prob_short_min ho.prob_short_max h.2 hr' hr⟩

/-! ## The trades that were won before -/

/-- The trades that were counted at the levels of the grids. -/
def longTotal (grids : List (TradingGrid Double)) : Nat :=
  ((levelsOf grids).map fun l => l.1.longWinCount l.2 + l.1.longLostCount l.2).sum

def shortTotal (grids : List (TradingGrid Double)) : Nat :=
  ((levelsOf grids).map fun l => l.1.shortWinCount l.2 + l.1.shortLostCount l.2).sum

/-- The trades of each side are fewer than a word counts. -/
def Counted (grids : List (TradingGrid Double)) : Prop := longTotal grids < 2 ^ 64 ∧ shortTotal grids < 2 ^ 64

instance (grids : List (TradingGrid Double)) : Decidable (Counted grids) := inferInstanceAs (Decidable (_ ∧ _))

theorem addUsize_eq {checks : Bool} {a b : Nat} (h : a + b < 2 ^ 64) : addUsize checks a b = some (a + b) := by
  unfold addUsize
  rw [if_neg (fun hover => absurd h (not_lt.mpr hover.2)), Nat.mod_eq_of_lt h]

/-- The trades that were won are some of those that were counted. -/
def Tally.Ok (t : Tally) : Prop :=
  (t.long_wins ≤ t.long_total ∧ t.long_total < 2 ^ 64) ∧ t.short_wins ≤ t.short_total ∧ t.short_total < 2 ^ 64

theorem foldlM_tally {checks : Bool} {levels : List (TradingGrid Double × Nat)} {t : Tally} (ht : t.Ok)
    (hlong : t.long_total + (levels.map fun l => l.1.longWinCount l.2 + l.1.longLostCount l.2).sum < 2 ^ 64)
    (hshort : t.short_total + (levels.map fun l => l.1.shortWinCount l.2 + l.1.shortLostCount l.2).sum < 2 ^ 64) :
    ∃ t' : Tally, levels.foldlM (Tally.add checks) t = some t' ∧ t'.Ok := by
  induction levels generalizing t with
  | nil => exact ⟨t, rfl, ht⟩
  | cons l levels ih =>
    rw [List.map_cons, List.sum_cons] at hlong hshort
    obtain ⟨⟨hlw, hlt⟩, hsw, hst⟩ := ht
    have hadd : Tally.add checks t l = some ⟨t.long_wins + l.1.longWinCount l.2,
        t.long_total + (l.1.longWinCount l.2 + l.1.longLostCount l.2), t.short_wins + l.1.shortWinCount l.2,
        t.short_total + (l.1.shortWinCount l.2 + l.1.shortLostCount l.2)⟩ := by
      unfold Tally.add
      dsimp only
      rw [addUsize_eq (by omega), addUsize_eq (a := l.1.longWinCount l.2) (by omega), addUsize_eq (a := t.short_wins) (by omega),
        addUsize_eq (a := l.1.shortWinCount l.2) (by omega)]
      simp only [Option.bind_eq_bind, Option.bind_some, Option.pure_def]
      rw [addUsize_eq (by omega), Option.bind_some, addUsize_eq (by omega), Option.bind_some]
    rw [List.foldlM_cons, hadd, Option.bind_eq_bind, Option.bind_some]
    refine ih ?_ ?_ ?_
    · exact ⟨⟨by dsimp only; omega, by dsimp only; omega⟩, by dsimp only; omega, by dsimp only; omega⟩
    · dsimp only
      omega
    · dsimp only
      omega

theorem exists_tally (checks : Bool) {grids : List (TradingGrid Double)} (h : Counted grids) :
    ∃ t, tally checks grids = some t ∧ t.Ok :=
  foldlM_tally ⟨⟨le_rfl, by decide⟩, le_rfl, by decide⟩ (by rw [Nat.zero_add]; exact h.1) (by rw [Nat.zero_add]; exact h.2)

/-- The parts of a rate and of what it is blended with are doubles that add up to 1. -/
theorem exists_parts : ∃ a b : ℚ, (1.0 - 0.2 : Double) = fin a ∧ (0.2 : Double) = fin b ∧ 0 ≤ a ∧ 0 ≤ b ∧ IsDouble a ∧ IsDouble b ∧
    ofRat (a + b) = fin 1 := by
  refine ⟨3602879701896397 / 2 ^ 52, 3602879701896397 / 2 ^ 54, by decide +kernel, by decide +kernel, by norm_num, by norm_num,
    ?_, ?_, by decide +kernel⟩
  · unfold IsDouble
    decide +kernel
  · unfold IsDouble
    decide +kernel

theorem between_realized {min_samples wins total : Nat} (hmin : 0 < min_samples) (h : wins ≤ total ∧ total < 2 ^ 64) {r : Double}
    (hr : realized min_samples wins total = some r) : Between 0 1 r := by
  unfold realized at hr
  split_ifs at hr with henough
  rw [← Option.some.inj hr]
  exact between_rate h.1 (hmin.trans_le henough) h.2.le

/-- A rate of trades, where there is one. -/
def Rate (rate : Option Double) : Prop := ∀ r, rate = some r → Between 0 1 r

theorem blend_unit {rate : Option Double} (hrate : Rate rate) {p : ℚ} (hp : InUnit (fin p)) : InUnit (blend 0.2 rate (fin p)) := by
  cases rate with
  | none => exact hp
  | some x =>
    obtain ⟨r, rfl, hr0, hr1⟩ := hrate x rfl
    obtain ⟨a, b, ha, hb, ha0, hb0, hadouble, hbdouble, hone⟩ := exists_parts
    have hp0 : 0 ≤ p := le_fin.mp hp.1
    have hp1 : p ≤ 1 := le_fin.mp hp.2
    obtain ⟨c, hc, hc0, hca⟩ := between_ofRat isDouble_zero hadouble (mul_nonneg ha0 hp0) (mul_le_of_le_one_right ha0 hp1)
    obtain ⟨d, hd, hd0, hdb⟩ := between_ofRat isDouble_zero hbdouble (mul_nonneg hb0 hr0) (mul_le_of_le_one_right hb0 hr1)
    unfold blend
    dsimp only
    rw [ha, hb, fin_mul_fin, fin_mul_fin, hc, hd, fin_add_fin]
    constructor
    · rw [← isDouble_zero]
      exact ofRat_mono (add_nonneg hc0 hd0)
    · rw [← hone]
      exact ofRat_mono (add_le_add hca hdb)

theorem blend_mono {rate : Option Double} (hrate : Rate rate) {p p' : ℚ} (h : p ≤ p') :
    Le (blend 0.2 rate (fin p)) (blend 0.2 rate (fin p')) := by
  cases rate with
  | none => exact le_fin.mpr h
  | some x =>
    obtain ⟨r, rfl, hr0, hr1⟩ := hrate x rfl
    obtain ⟨a, b, ha, hb, ha0, hb0, -, hbdouble, -⟩ := exists_parts
    obtain ⟨d, hd, -⟩ := between_ofRat isDouble_zero hbdouble (mul_nonneg hb0 hr0) (mul_le_of_le_one_right hb0 hr1)
    unfold blend
    dsimp only
    rw [ha, hb, fin_mul_fin b r, hd, fin_mul_fin, fin_mul_fin]
    exact add_mono_right (ofRat_mono (mul_le_mul_of_nonneg_left h ha0))

/-! ## The grid -/

theorem frame_levels {last_close atr : Double} {n : Nat} {tg : TradingGrid Double} (h : frame last_close atr n = some tg) :
    tg.numLevels ≤ 64 ∧ tg.longWinP.length = tg.numLevels ∧ tg.shortWinP.length = tg.numLevels := by
  unfold frame TradingGrid.new at h
  dsimp only at h
  split_ifs at h
  rw [← Option.some.inj h]
  unfold TradingGrid.numLevels TradingGrid.fillDefaults
  dsimp only
  rw [TradingGrid.prices_length]
  exact ⟨by omega, List.length_replicate, List.length_replicate⟩

/-- A grid that is decoded: each level has the probabilities that are blended. -/
structure Decoded (o : Odds Double) (d : Double) (s : ℚ) (t : Tally) (tg : TradingGrid Double) : Prop where
  levels : tg.numLevels ≤ 64
  probs : ∀ j < tg.numLevels, ∃ p, o.level d (fin s) tg.numLevels j = some p ∧
    tg.longWinPct j = blend 0.2 (realized 5 t.long_wins t.long_total) p.1 ∧
      tg.shortWinPct j = blend 0.2 (realized 5 t.short_wins t.short_total) p.2

variable {exp : Double → Double} {powf : Double → Double → Double} {checks : Bool} {last_close sl_pct : Double}
  {outputs : List (List Double)} {grids : List (TradingGrid Double)} {grid_levels : Nat}

theorem numLevels_withWinProbabilities (g : TradingGrid Double) (long_win_p short_win_p : List Double) :
    (g.withWinProbabilities long_win_p short_win_p).numLevels = g.numLevels := by
  unfold TradingGrid.withWinProbabilities
  split_ifs
  · rfl
  · rfl

/-- With the probabilities of all levels, a grid is decoded. -/
theorem decoded_withWinProbabilities {s : ℚ} {t : Tally} (tg : TradingGrid Double) {probs : List (Double × Double)}
    (h64 : tg.numLevels ≤ 64) (hlong : tg.longWinP.length = tg.numLevels) (hshort : tg.shortWinP.length = tg.numLevels)
    (hprobs : (List.range tg.numLevels).mapM (fun j => o.level d (fin s) tg.numLevels j) = some probs) :
    Decoded o d s t (tg.withWinProbabilities ((probs.map Prod.fst).map (blend 0.2 (realized 5 t.long_wins t.long_total)))
      ((probs.map Prod.snd).map (blend 0.2 (realized 5 t.short_wins t.short_total)))) := by
  have hpairs := mapM_some hprobs
  have hlength : probs.length = tg.numLevels := by
    rw [← hpairs.length_eq, List.length_range]
  unfold TradingGrid.withWinProbabilities
  rw [if_pos (by simp [hlong, hshort, hlength])]
  refine ⟨h64, fun j hj => ?_⟩
  have hj' : j < tg.numLevels := hj
  have hprob := hpairs.get (i := j) (by simpa using hj') (by rwa [hlength])
  rw [List.get_eq_getElem, List.get_eq_getElem, List.getElem_range] at hprob
  refine ⟨_, hprob, ?_, ?_⟩
  · simp [TradingGrid.longWinPct, hlength, hj']
  · simp [TradingGrid.shortWinPct, hlength, hj']

/-- What is done without a grid. -/
def Idle (last_close : Double) (outputs : List (List Double)) (grid_levels : Nat) : Prop :=
  (Scalar.le (atr outputs) 0.0 || !Scalar.isFinite last_close || Scalar.le last_close 0.0) = true ∨
    frame last_close (atr outputs) grid_levels = none

theorem setup_idle (hout : ∀ o ∈ outputs, ∀ v ∈ o, IsOutput v) (h : Idle last_close outputs grid_levels) :
    setup exp powf checks last_close outputs grids grid_levels sl_pct = some [] := by
  unfold setup
  split_ifs with hearly
  · rfl
  · obtain ⟨m, hm, hm128, -⟩ := single_marketBias hout
    obtain ⟨d, s, -, -, hd⟩ := exists_direction hm128
    rw [hm, hd, h.resolve_left hearly]
    rfl

/-- Else there is one grid, which is decoded. -/
theorem setup_decoded (exp : Double → Double) (powf : Double → Double → Double) (sl_pct : Double)
    (hout : ∀ o ∈ outputs, ∀ v ∈ o, IsOutput v) {t : Tally} (ht : tally checks grids = some t) (h : ¬Idle last_close outputs grid_levels)
    {s : ℚ} (hd : direction (marketBias outputs) = some (d, fin s)) (hs : 0 ≤ s) (hs1 : s ≤ 1) :
    ∃ tg₀ tg : TradingGrid Double, frame last_close (atr outputs) grid_levels = some tg₀ ∧ tg.numLevels = tg₀.numLevels ∧
      setup exp powf checks last_close outputs grids grid_levels sl_pct = some [tg] ∧ Decoded (odds outputs) d s t tg := by
  obtain ⟨hearly, hframe⟩ := not_or.mp h
  obtain ⟨tg₀, htg₀⟩ := Option.ne_none_iff_exists'.mp hframe
  obtain ⟨h64, hlong, hshort⟩ := frame_levels htg₀
  obtain ⟨tg₁, htg₁, hnum, hlong₁, hshort₁⟩ : ∃ tg₁ : TradingGrid Double,
      tg₁ = ((if Scalar.partialCmp d 0.0 = some .eq then TradingGrid.withWeightsNormal exp tg₀ 4.0
        else TradingGrid.withWeightsTrend powf tg₀ d (fin s)).withSlPct sl_pct) ∧ tg₁.numLevels = tg₀.numLevels ∧
        tg₁.longWinP = tg₀.longWinP ∧ tg₁.shortWinP = tg₀.shortWinP := by
    refine ⟨_, rfl, ?_⟩
    split_ifs
    · exact ⟨rfl, rfl, rfl⟩
    · exact ⟨rfl, rfl, rfl⟩
  have hlevel : ∀ j ∈ List.range tg₁.numLevels, ∃ p, (odds outputs).level d (fin s) tg₁.numLevels j = some p := by
    intro j hj
    obtain ⟨l, r, hlevel, -⟩ := exists_level (singles_odds hout) (List.mem_range.mp hj) (hnum.trans_le h64) d hs hs1
    exact ⟨_, hlevel⟩
  obtain ⟨probs, hprobs⟩ := exists_mapM hlevel
  refine ⟨tg₀, _, htg₀, ?_, ?_,
    decoded_withWinProbabilities ((tg₁.withSlPct 0.008).withMaxCandles 48) (hnum.trans_le h64) ?_ ?_ hprobs⟩
  · rw [numLevels_withWinProbabilities]
    exact hnum
  · unfold setup
    rw [if_neg hearly, hd, htg₀]
    simp only [Option.bind_eq_bind, Option.bind_some, Option.pure_def, ← htg₁, hprobs]
    unfold blendRealizedWinRates
    rw [ht]
    rfl
  · exact (congrArg List.length hlong₁).trans (hlong.trans hnum.symm)
  · exact (congrArg List.length hshort₁).trans (hshort.trans hnum.symm)

/-! ## Another market bias -/

/-- The outputs that differ in the market bias only. -/
structure SameBut (outputs outputs' : List (List Double)) : Prop where
  first : (outputs.headD []).tail = (outputs'.headD []).tail
  rest : outputs.tail = outputs'.tail

variable {outputs' : List (List Double)}

theorem SameBut.output_eq (h : SameBut outputs outputs') (i : Nat) (missing default : Double) :
    output outputs (i + 1) missing default = output outputs' (i + 1) missing default := by
  unfold output
  rw [← List.getElem?_tail, ← List.getElem?_tail, h.first]

theorem SameBut.odds_eq (h : SameBut outputs outputs') : odds outputs = odds outputs' := by
  unfold odds
  rw [h.output_eq 0, h.output_eq 1, h.output_eq 2, h.output_eq 3, h.output_eq 4, h.output_eq 5, h.output_eq 6]

theorem SameBut.atr_eq (h : SameBut outputs outputs') : atr outputs = atr outputs' := by
  unfold atr
  rw [← List.getElem?_tail (i := 0), ← List.getElem?_tail (i := 0), h.rest]

/-- Above the bearish directions, the probabilities follow the market bias. -/
theorem lean_follows (ho : o.Singles) (hscale : Le (fin 0) o.bias_scale) {m m' : ℚ} (hm : |m| ≤ 2 ^ 128) (hm' : |m'| ≤ 2 ^ 128)
    (hle : m ≤ m') (hbear : ¬Bearish (fin m)) (htrend : Bullish (fin m) ∨ Le (fin 0) o.level_trend) {d d' : Double} {s s' : ℚ}
    (hd : direction (fin m) = some (d, fin s)) (hd' : direction (fin m') = some (d', fin s')) (hj : j < k) (hk : k ≤ 64) :
    Le (o.lean d (fin s) k j).1 (o.lean d' (fin s') k j).1 ∧ Le (o.lean d' (fin s') k j).2 (o.lean d (fin s) k j).2 := by
  have hup : Directed (1.0 : Double) := .inl (by decide +kernel)
  by_cases hbull : Bullish (fin m)
  · obtain ⟨x, hx, hdirection⟩ := direction_bullish hm hbull
    obtain ⟨x', hx', hdirection'⟩ := direction_bullish hm' (bullish_mono hle hbull)
    have hstrength := strength_mono hm hm' hle hx hx'
    rw [hdirection, Option.some.injEq, Prod.mk.injEq, fin.injEq] at hd
    rw [hdirection', Option.some.injEq, Prod.mk.injEq, fin.injEq] at hd'
    obtain ⟨rfl, rfl⟩ := hd
    obtain ⟨rfl, rfl⟩ := hd'
    exact lean_mono ho hj hk hup hup hscale (le_max_left _ _) (max_le_max_left _ (min_le_min_right _ hstrength))
      (max_le zero_le_one (min_le_right _ _))
  · rw [direction_neutral hbull hbear, Option.some.injEq, Prod.mk.injEq] at hd
    obtain ⟨rfl, -⟩ := hd
    obtain ⟨base, hbase, -⟩ := ho.prob_base
    have hrefl : Le o.prob_base o.prob_base := by
      rw [hbase]
      exact le_fin.mpr le_rfl
    rw [lean_neutral]
    by_cases hbull' : Bullish (fin m')
    · obtain ⟨x', -, hdirection'⟩ := direction_bullish hm' hbull'
      rw [hdirection', Option.some.injEq, Prod.mk.injEq, fin.injEq] at hd'
      obtain ⟨rfl, rfl⟩ := hd'
      exact lean_sides ho hj hk hup hscale (htrend.resolve_left hbull) (le_max_left _ _) (max_le zero_le_one (min_le_right _ _))
    · rw [direction_neutral hbull' (fun h => hbear (bearish_anti hle h)), Option.some.injEq, Prod.mk.injEq] at hd'
      obtain ⟨rfl, -⟩ := hd'
      rw [lean_neutral]
      exact ⟨hrefl, hrefl⟩

/-- Both probabilities of each level are between 0 and 1. -/
def ProbsInUnit (tg : TradingGrid Double) : Prop := ∀ j < tg.numLevels, InUnit (tg.longWinPct j) ∧ InUnit (tg.shortWinPct j)

/-- At no level is a long trade less likely to be won, or a short one more likely. -/
def NoLess (tg tg' : TradingGrid Double) : Prop :=
  tg'.numLevels = tg.numLevels ∧
    ∀ j < tg.numLevels, Le (tg.longWinPct j) (tg'.longWinPct j) ∧ Le (tg'.shortWinPct j) (tg.shortWinPct j)

theorem rate_realized {wins total : Nat} (h : wins ≤ total ∧ total < 2 ^ 64) : Rate (realized 5 wins total) :=
  fun _ hr => between_realized (by decide) h hr

theorem Decoded.probsInUnit (ho : o.Singles) {s : ℚ} (hs : 0 ≤ s) (hs1 : s ≤ 1) {t : Tally} (ht : t.Ok) {tg : TradingGrid Double}
    (h : Decoded o d s t tg) (hbounds : o.BoundsInUnit) : ProbsInUnit tg := by
  intro j hj
  obtain ⟨l, r, hlevel, hunit⟩ := exists_level ho hj h.levels d hs hs1
  obtain ⟨p, hp, hlong, hshort⟩ := h.probs j hj
  rw [hlevel, Option.some.injEq] at hp
  rw [hlong, hshort, ← hp]
  exact ⟨blend_unit (rate_realized ht.1) (hunit hbounds).1, blend_unit (rate_realized ht.2) (hunit hbounds).2⟩

theorem Decoded.noLess (ho : o.Singles) {d d' : Double} {s s' : ℚ} (hs : 0 ≤ s) (hs1 : s ≤ 1) (hs' : 0 ≤ s') (hs1' : s' ≤ 1) {t : Tally}
    (ht : t.Ok) {tg tg' : TradingGrid Double} (h : Decoded o d s t tg) (h' : Decoded o d' s' t tg') (hnum : tg'.numLevels = tg.numLevels)
    (hlean : ∀ j < tg.numLevels, Le (o.lean d (fin s) tg.numLevels j).1 (o.lean d' (fin s') tg.numLevels j).1 ∧ Le (o.lean d' (fin s') tg.numLevels j).2 (o.lean d (fin s) tg.numLevels j).2) :
    NoLess tg tg' := by
  refine ⟨hnum, fun j hj => ?_⟩
  obtain ⟨l, r, hlevel, -⟩ := exists_level ho hj h.levels d hs hs1
  obtain ⟨l', r', hlevel', -⟩ := exists_level ho hj h.levels d' hs' hs1'
  obtain ⟨p, hp, hlong, hshort⟩ := h.probs j hj
  obtain ⟨p', hp', hlong', hshort'⟩ := h'.probs j (hj.trans_eq hnum.symm)
  rw [hnum] at hp'
  obtain ⟨hl, hr⟩ := level_mono ho hj h.levels hs hs1 hs' hs1' (hlean j hj) hp hp'
  rw [hlevel, Option.some.injEq] at hp
  rw [hlevel', Option.some.injEq] at hp'
  rw [← hp, ← hp'] at hl hr
  rw [hlong, hshort, hlong', hshort', ← hp, ← hp']
  exact ⟨blend_mono (rate_realized ht.1) (le_fin.mp hl), blend_mono (rate_realized ht.2) (le_fin.mp hr)⟩

/-- Whatever the model gives, `setup` does not panic. The probabilities lie between 0 and 1 when the bounds do, and they follow the
market bias from a bullish one upward, and from a neutral one when the trend of the levels is not below zero. -/
theorem decode_sound (exp : Double → Double) (powf : Double → Double → Double) (checks : Bool) (last_close sl_pct : Double)
    (outputs : List (List Double)) (grids : List (TradingGrid Double)) (grid_levels : Nat)
    (hout : ∀ o ∈ outputs, ∀ v ∈ o, IsOutput v) (hcount : Counted grids) :
    ∃ tgs, setup exp powf checks last_close outputs grids grid_levels sl_pct = some tgs ∧
      ((odds outputs).BoundsInUnit → ∀ tg ∈ tgs, ProbsInUnit tg) ∧
      ∀ outputs' : List (List Double), (∀ o ∈ outputs', ∀ v ∈ o, IsOutput v) → SameBut outputs outputs' →
        Le (fin 0) (odds outputs).bias_scale → Le (marketBias outputs) (marketBias outputs') → ¬Bearish (marketBias outputs) →
        Bullish (marketBias outputs) ∨ Le (fin 0) (odds outputs).level_trend →
        ∃ tgs', setup exp powf checks last_close outputs' grids grid_levels sl_pct = some tgs' ∧ List.Forall₂ NoLess tgs tgs' := by
  obtain ⟨t, htally, ht⟩ := exists_tally checks hcount
  by_cases hidle : Idle last_close outputs grid_levels
  · refine ⟨[], setup_idle hout hidle, by simp, ?_⟩
    intro outputs' hout' hsame hscale hle hbear htrend
    refine ⟨[], setup_idle hout' ?_, .nil⟩
    unfold Idle at hidle ⊢
    rwa [← hsame.atr_eq]
  · obtain ⟨m, hm, hm128, -⟩ := single_marketBias hout
    obtain ⟨d, s, hs, hs1, hd⟩ := exists_direction hm128
    obtain ⟨tg₀, tg, htg₀, hnum, hsetup, hdecoded⟩ := setup_decoded exp powf sl_pct hout htally hidle
      (hm ▸ hd) hs hs1
    have hsingles := singles_odds hout
    refine ⟨[tg], hsetup, by simpa using hdecoded.probsInUnit hsingles hs hs1 ht, ?_⟩
    intro outputs' hout' hsame hscale hle hbear htrend
    obtain ⟨m', hm', hm128', -⟩ := single_marketBias hout'
    obtain ⟨d', s', hs', hs1', hd'⟩ := exists_direction hm128'
    have hidle' : ¬Idle last_close outputs' grid_levels := by
      unfold Idle at hidle ⊢
      rwa [← hsame.atr_eq]
    obtain ⟨tg₀', tg', htg₀', hnum', hsetup', hdecoded'⟩ := setup_decoded exp powf sl_pct hout' htally hidle'
      (hm' ▸ hd') hs' hs1'
    rw [← hsame.atr_eq, htg₀, Option.some.injEq] at htg₀'
    rw [← hsame.odds_eq] at hdecoded'
    rw [hm, hm'] at hle
    rw [hm] at hbear htrend
    refine ⟨[tg'], hsetup', .cons ?_ .nil⟩
    refine hdecoded.noLess hsingles hs hs1 hs' hs1' ht hdecoded' ?_ ?_
    · rw [hnum, hnum', htg₀']
    · intro j hj
      exact lean_follows hsingles hscale hm128 hm128' (le_fin.mp hle) hbear htrend hd hd' hj hdecoded.levels

/-- A market bias that is not a number is neutral. -/
theorem decode_sound_nan : ∃ tgs, setup id (fun x _ => x) true (fin 100) [[nan], [fin 1]] [] 2 (fin (1 / 20)) = some tgs ∧
    (∀ tg ∈ tgs, ProbsInUnit tg) ∧
    ∃ tgs', setup id (fun x _ => x) true (fin 100) [[fin (3 / 4)], [fin 1]] [] 2 (fin (1 / 20)) = some tgs' ∧
      List.Forall₂ NoLess tgs tgs' := by
  have hnan : IsOutput nan := fun h => absurd h Bool.false_ne_true
  have hbias : IsOutput (fin (3 / 4)) := fun _ => ⟨3 / 4, rfl, by norm_num, by unfold IsDouble; decide +kernel⟩
  have hatr : IsOutput (fin 1) := fun _ => ⟨1, rfl, by norm_num, isDouble_one⟩
  obtain ⟨tgs, htgs, hunit, hmono⟩ := decode_sound id (fun x _ => x) true (fin 100) (fin (1 / 20)) [[nan], [fin 1]] [] 2
    (by simp [hnan, hatr]) (by decide)
  refine ⟨tgs, htgs, hunit ⟨by decide +kernel, by decide +kernel, by decide +kernel, by decide +kernel⟩, ?_⟩
  exact hmono [[fin (3 / 4)], [fin 1]] (by simp [hbias, hatr]) ⟨rfl, rfl⟩ (by decide +kernel) (by decide +kernel)
    (by decide +kernel) (.inr (by decide +kernel))

/-- A grid with more trades than a word counts. -/
def wonOften : TradingGrid Double where
  levels := [fin 1, fin 2]
  slPct := fin 0
  maxCandles := 0
  weights := [[fin 1], [fin 1]]
  longWinP := [fin 0, fin 0]
  shortWinP := [fin 0, fin 0]
  orderLongWinCnt := [2 ^ 63, 2 ^ 63]
  orderLongLostCnt := [0, 0]
  orderShortWinCnt := [0, 0]
  orderShortLostCnt := [0, 0]
  two_le := by decide
  weights_length := rfl
  counts_length := by decide

/-- The stop distance is not the one that is given. From a bearish market bias to a neutral one the probability of a long trade
falls, and so it does from a neutral one upward when the trend of the levels is below zero. The trades before may be too many to
count. -/
theorem decode_departs :
    (setup id (fun x _ => x) true (fin 100) [[fin (3 / 4)], [fin 1]] [] 2 (fin (1 / 20))).map
      (List.map TradingGrid.slPct) = some [0.008] ∧
    (0.008 : Double) ≠ fin (1 / 20) ∧
    (setup id (fun x _ => x) true (fin 100) [[fin (1 / 4)], [fin 1]] [] 2 (fin (1 / 20))).map
      (List.map fun tg => Scalar.gt (tg.longWinPct 0) 0.65) = some [true] ∧
    (setup id (fun x _ => x) true (fin 100) [[fin (1 / 2)], [fin 1]] [] 2 (fin (1 / 20))).map
      (List.map fun tg => Scalar.lt (tg.longWinPct 0) 0.65) = some [true] ∧
    (setup id (fun x _ => x) true (fin 100) [[0.5, 0.5, 0.25, fin (-1 / 2)], [fin 1]] [] 2 (fin (1 / 20))).map
      (List.map fun tg => Scalar.gt (tg.longWinPct 0) 0.4) = some [true] ∧
    (setup id (fun x _ => x) true (fin 100) [[0.75, 0.5, 0.25, fin (-1 / 2)], [fin 1]] [] 2 (fin (1 / 20))).map
      (List.map fun tg => Scalar.lt (tg.longWinPct 0) 0.4) = some [true] ∧
    setup id (fun x _ => x) true (fin 100) [[fin (1 / 2)], [fin 1]] [wonOften] 2 (fin (1 / 20)) = none := by
  decide +kernel

end Graph

end Opsense
