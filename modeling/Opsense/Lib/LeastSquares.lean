import Mathlib

/-!
# Least squares

The straight line through a row of points with the least sum of squared residuals. A line whose residuals add up to 0, and to 0 when
each is weighted by its abscissa, is such a line (`sum_sq_le`); the line through the means with the slope of the mixed and the squared
deviations is one (`residuals_sum`, `residuals_cross`).
-/

namespace Opsense

namespace LeastSquares

variable {F : Type*} [Field F]

/-- How far a point is above the line. -/
def residual (intercept slope : F) (p : F × F) : F := p.2 - (intercept + slope * p.1)

def meanX (pts : List (F × F)) : F := (pts.map Prod.fst).sum / pts.length

def meanY (pts : List (F × F)) : F := (pts.map Prod.snd).sum / pts.length

/-- The squared deviations of the abscissas. -/
def sxx (pts : List (F × F)) : F := (pts.map fun p => (p.1 - meanX pts) * (p.1 - meanX pts)).sum

/-- The mixed deviations. -/
def sxy (pts : List (F × F)) : F := (pts.map fun p => (p.1 - meanX pts) * (p.2 - meanY pts)).sum

def slope (pts : List (F × F)) : F := sxy pts / sxx pts

def intercept (pts : List (F × F)) : F := meanY pts - slope pts * meanX pts

theorem sum_map_sub_const (f : F × F → F) (c : F) (pts : List (F × F)) :
    (pts.map fun p => f p - c).sum = (pts.map f).sum - pts.length * c := by
  induction pts with
  | nil => simp
  | cons p pts ih =>
    simp only [List.map_cons, List.sum_cons, ih, List.length_cons]
    push_cast
    ring

theorem sum_map_sub (f g : F × F → F) (pts : List (F × F)) :
    (pts.map fun p => f p - g p).sum = (pts.map f).sum - (pts.map g).sum := by
  induction pts with
  | nil => simp
  | cons p pts ih =>
    simp only [List.map_cons, List.sum_cons, ih]
    ring

/-- A residual by the deviations from the means. -/
theorem residual_eq (pts : List (F × F)) (p : F × F) :
    residual (intercept pts) (slope pts) p = (p.2 - meanY pts) - slope pts * (p.1 - meanX pts) := by
  unfold residual intercept
  ring

variable {pts : List (F × F)}

/-- The deviations from a mean add up to 0. -/
theorem deviations_sum (hlength : (pts.length : F) ≠ 0) :
    (pts.map fun p => p.1 - meanX pts).sum = 0 ∧ (pts.map fun p => p.2 - meanY pts).sum = 0 := by
  rw [sum_map_sub_const Prod.fst, sum_map_sub_const Prod.snd]
  unfold meanX meanY
  constructor <;> field_simp <;> ring

theorem residuals_sum (hlength : (pts.length : F) ≠ 0) : (pts.map (residual (intercept pts) (slope pts))).sum = 0 := by
  have hresidual : (pts.map (residual (intercept pts) (slope pts))) =
      pts.map fun p => (p.2 - meanY pts) - slope pts * (p.1 - meanX pts) :=
    List.map_congr_left fun p _ => residual_eq pts p
  obtain ⟨hx, hy⟩ := deviations_sum hlength
  rw [hresidual, sum_map_sub, List.sum_map_mul_left, hx, hy]
  ring

theorem residuals_cross (hlength : (pts.length : F) ≠ 0) (hsxx : sxx pts ≠ 0) :
    (pts.map fun p => p.1 * residual (intercept pts) (slope pts) p).sum = 0 := by
  have hcross : ∀ p, p.1 * residual (intercept pts) (slope pts) p =
      ((p.1 - meanX pts) * (p.2 - meanY pts) - slope pts * ((p.1 - meanX pts) * (p.1 - meanX pts))) -
        -(meanX pts) * residual (intercept pts) (slope pts) p := by
    intro p
    rw [residual_eq]
    ring
  rw [List.map_congr_left fun p _ => hcross p, sum_map_sub, sum_map_sub, List.sum_map_mul_left, List.sum_map_mul_left,
    residuals_sum hlength]
  have hslope : slope pts * sxx pts = sxy pts := div_mul_cancel₀ _ hsxx
  have hsums : (pts.map fun p => (p.1 - meanX pts) * (p.2 - meanY pts)).sum -
      slope pts * (pts.map fun p => (p.1 - meanX pts) * (p.1 - meanX pts)).sum = 0 := by
    rw [sub_eq_zero]
    exact hslope.symm
  rw [hsums]
  ring

/-- The squared residuals of another line, by those of this one. -/
theorem sum_sq_add (i s a b : F) (pts : List (F × F)) : (pts.map fun p => residual a b p ^ 2).sum =
    (pts.map fun p => residual i s p ^ 2).sum +
      2 * ((i - a) * (pts.map (residual i s)).sum + (s - b) * (pts.map fun p => p.1 * residual i s p).sum) +
        (pts.map fun p => (i - a + (s - b) * p.1) ^ 2).sum := by
  induction pts with
  | nil => simp
  | cons p pts ih =>
    simp only [List.map_cons, List.sum_cons, ih]
    unfold residual
    ring

/-! ## Other units of the ordinates -/

/-- A point whose ordinate is scaled and shifted. -/
def affine (c s : F) (p : F × F) : F × F := (p.1, c * p.2 + s)

theorem meanX_affine (c s : F) (pts : List (F × F)) : meanX (pts.map (affine c s)) = meanX pts := by
  simp [meanX, affine, Function.comp_def]

theorem sum_affine (c s : F) (f : F × F → F) (pts : List (F × F)) :
    (pts.map fun p => c * f p + s).sum = c * (pts.map f).sum + pts.length * s := by
  induction pts with
  | nil => simp
  | cons p pts ih =>
    simp only [List.map_cons, List.sum_cons, ih, List.length_cons]
    push_cast
    ring

theorem meanY_affine (hlength : (pts.length : F) ≠ 0) (c s : F) : meanY (pts.map (affine c s)) = c * meanY pts + s := by
  simp only [meanY, List.map_map, Function.comp_def, affine, sum_affine, List.length_map]
  field_simp

theorem sxx_affine (c s : F) (pts : List (F × F)) : sxx (pts.map (affine c s)) = sxx pts := by
  simp only [sxx, meanX_affine, List.map_map]
  rfl

theorem sxy_affine (hlength : (pts.length : F) ≠ 0) (c s : F) : sxy (pts.map (affine c s)) = c * sxy pts := by
  simp only [sxy, meanX_affine, meanY_affine hlength, List.map_map]
  rw [← List.sum_map_mul_left]
  refine congrArg List.sum (List.map_congr_left fun p _ => ?_)
  simp only [Function.comp, affine]
  ring

theorem slope_affine (hlength : (pts.length : F) ≠ 0) (c s : F) : slope (pts.map (affine c s)) = c * slope pts := by
  simp only [slope, sxx_affine, sxy_affine hlength, mul_div_assoc]

/-- The residuals of the line through the points are scaled with them. -/
theorem residual_affine (hlength : (pts.length : F) ≠ 0) (c s : F) (p : F × F) :
    residual (intercept (pts.map (affine c s))) (slope (pts.map (affine c s))) (affine c s p) =
      c * residual (intercept pts) (slope pts) p := by
  rw [residual_eq, residual_eq, meanX_affine, meanY_affine hlength, slope_affine hlength]
  simp only [affine]
  ring

variable [LinearOrder F] [IsStrictOrderedRing F]

/-- No line has a smaller sum of squared residuals than one whose residuals balance. -/
theorem sum_sq_le {i s : F} (hsum : (pts.map (residual i s)).sum = 0) (hcross : (pts.map fun p => p.1 * residual i s p).sum = 0)
    (a b : F) : (pts.map fun p => residual i s p ^ 2).sum ≤ (pts.map fun p => residual a b p ^ 2).sum := by
  have hnonneg : 0 ≤ (pts.map fun p => (i - a + (s - b) * p.1) ^ 2).sum := by
    apply List.sum_nonneg
    intro x hx
    obtain ⟨p, -, rfl⟩ := List.mem_map.mp hx
    exact sq_nonneg _
  rw [sum_sq_add i s a b, hsum, hcross]
  linarith

/-- The squared deviations of points of which two are apart. -/
theorem le_sxx {p q : F × F} (h : List.Sublist [p, q] pts) : (q.1 - p.1) ^ 2 / 2 ≤ sxx pts := by
  have hsum : (([p, q].map fun p => (p.1 - meanX pts) * (p.1 - meanX pts)).sum) ≤ sxx pts := by
    refine (h.map _).sum_le_sum fun x hx => ?_
    obtain ⟨r, -, rfl⟩ := List.mem_map.mp hx
    exact mul_self_nonneg _
  simp only [List.map_cons, List.map_nil, List.sum_cons, List.sum_nil] at hsum
  nlinarith [sq_nonneg ((p.1 - meanX pts) + (q.1 - meanX pts))]

end LeastSquares

end Opsense
