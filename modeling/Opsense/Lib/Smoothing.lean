import Mathlib

/-!
# Smoothed means of a series

The mean with exponentially decaying weights, and the mean of Wilder, which starts with the plain mean of the first values and then moves a
part of the way to each further one. Both are unrolled into sums with fixed weights (`expSum_eq_expMean_iff`, `wilder_eq_sum`).
-/

namespace Opsense

variable {F : Type*} [Field F]

/-- The sum of a series, the newest value whole and each older one with a further power of the ratio. -/
def expSum (r : F) (n : Nat) (x : Nat → F) : F := ∑ j ∈ Finset.range n, r ^ j * x (n - 1 - j)

/-- The mean with exponentially decaying weights. -/
def expMean (r : F) (n : Nat) (x : Nat → F) : F := expSum r n x / ∑ j ∈ Finset.range n, r ^ j

/-- Wilder's mean of the values from 1 to a number: the plain mean of the first, which then moves to each further value by one part in a
period. -/
def wilder (period : Nat) (x : Nat → F) : Nat → F
  | 0 => 0
  | n + 1 =>
    if n + 1 ≤ period then (∑ i ∈ Finset.range (n + 1), x (i + 1)) / ((n + 1 : Nat) : F)
    else (wilder period x n * (period - 1) + x (n + 1)) / period

theorem expSum_eq (r k : F) (n : Nat) (x : Nat → F) :
    ∑ j ∈ Finset.range n, x j * (k * r ^ (n - 1 - j)) = k * expSum r n x := by
  unfold expSum
  rw [← Finset.sum_range_reflect, Finset.mul_sum]
  refine Finset.sum_congr rfl fun j hj => ?_
  have hj' := Finset.mem_range.mp hj
  rw [show n - 1 - (n - 1 - j) = j by omega]
  ring

section

variable [LinearOrder F] [IsStrictOrderedRing F]

theorem geomSum_pos {r : F} (hr : 0 ≤ r) {n : Nat} (hn : 0 < n) : 0 < ∑ j ∈ Finset.range n, r ^ j :=
  Finset.sum_pos' (fun _ _ => by positivity) ⟨0, Finset.mem_range.mpr hn, by simp⟩

/-- The sum with weights that would sum to one over an endless series is the mean only when the older values have no weight, or the sum is
zero. -/
theorem expSum_eq_expMean_iff {r : F} (hr : 0 ≤ r) (hr₁ : r < 1) {n : Nat} (hn : 0 < n) (x : Nat → F) :
    (1 - r) * expSum r n x = expMean r n x ↔ r = 0 ∨ expSum r n x = 0 := by
  have hpos := geomSum_pos hr hn
  have hgeom : (1 - r) * ∑ j ∈ Finset.range n, r ^ j = 1 - r ^ n := mul_neg_geom_sum r n
  unfold expMean
  rw [eq_div_iff hpos.ne', mul_right_comm, hgeom]
  constructor
  · intro h
    have hzero : r ^ n * expSum r n x = 0 := by linear_combination -h
    rcases mul_eq_zero.mp hzero with hpow | hsum
    · exact .inl (pow_eq_zero_iff hn.ne' |>.mp hpow)
    · exact .inr hsum
  · rintro (rfl | hsum)
    · rw [zero_pow hn.ne']
      ring
    · rw [hsum]
      ring

end

theorem wilder_eq_mean {period n : Nat} (h : n ≤ period) (x : Nat → F) : wilder period x n = (∑ i ∈ Finset.range n, x (i + 1)) / n := by
  cases n with
  | zero => simp [wilder]
  | succ n => rw [wilder, if_pos h]

/-- Wilder's mean of more values than a period, as a sum with fixed weights. -/
theorem wilder_eq_sum [CharZero F] {period n : Nat} (hperiod : 0 < period) (h : period ≤ n) (x : Nat → F) :
    wilder period x n = ∑ i ∈ Finset.range n,
      x (i + 1) * (1 / period * (1 - 1 / period) ^ (if i < period then n - period else n - 1 - i)) := by
  have hne : (period : F) ≠ 0 := Nat.cast_ne_zero.mpr hperiod.ne'
  induction n, h using Nat.le_induction with
  | base =>
    rw [wilder_eq_mean le_rfl, Finset.sum_div]
    refine Finset.sum_congr rfl fun i hi => ?_
    rw [if_pos (Finset.mem_range.mp hi), Nat.sub_self, pow_zero]
    ring
  | succ n hn ih =>
    -- each weight loses a further part, and the new value has the weight of one
    rw [wilder, if_neg (by omega), ih, Finset.sum_range_succ, if_neg (by omega), Nat.add_sub_cancel, Nat.sub_self, pow_zero]
    have hterm : ∀ i ∈ Finset.range n,
        x (i + 1) * (1 / period * (1 - 1 / period) ^ (if i < period then n + 1 - period else n - i)) =
          x (i + 1) * (1 / period * (1 - 1 / period) ^ (if i < period then n - period else n - 1 - i)) * (1 - 1 / period) := by
      intro i hi
      have hi' := Finset.mem_range.mp hi
      have hexp : (if i < period then n + 1 - period else n - i) = (if i < period then n - period else n - 1 - i) + 1 := by
        split <;> omega
      rw [hexp, pow_succ]
      ring
    rw [Finset.sum_congr rfl hterm, ← Finset.sum_mul]
    field_simp

end Opsense
