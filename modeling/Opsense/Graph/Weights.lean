import Opsense.Graph.Ops
import Opsense.Lib.Smoothing

/-!
# What the weights weigh

A window times a column of weights, for each of the vectors of `graph/ctx.rs`: the last value, a part of the sum of the newest values, a
sum that decays with the age of a value, and the mean of Wilder of the values after the first.
-/

namespace Opsense

/-- The product of a window with a column of weights is a function of the window. -/
def Weighs (w : List ℚ) (ws : Nat) (value : (Nat → ℚ) → ℚ) : Prop :=
  w.length = ws ∧ ∀ x : Nat → ℚ, ∑ j ∈ Finset.range ws, x j * w.getD j 0 = value x

/-- The sum of the newest values of a window. -/
def newestSum (m ws : Nat) (x : Nat → ℚ) : ℚ := ∑ j ∈ Finset.range m, x (ws - 1 - j)

variable {ws period : Nat} {w : List ℚ}

theorem floats_eq_some {value : ℚ} (h : floats value ws = some w) : w = List.replicate ws value := by
  unfold floats at h
  split at h
  · exact (Option.some.inj h).symm
  · cases h

theorem getD_mapIdx_replicate {value : ℚ} {f : Nat → ℚ → ℚ} {j : Nat} (hj : j < ws) :
    ((List.replicate ws value).mapIdx f).getD j 0 = f j value := by
  simp [List.getD_eq_getElem?_getD, hj]

theorem weighs_mapIdx (value : ℚ) (f : Nat → ℚ → ℚ) :
    Weighs ((List.replicate ws value).mapIdx f) ws fun x => ∑ j ∈ Finset.range ws, x j * f j value := by
  refine ⟨by simp, fun x => Finset.sum_congr rfl fun j hj => ?_⟩
  rw [getD_mapIdx_replicate (Finset.mem_range.mp hj)]

theorem Weighs.congr {value value' : (Nat → ℚ) → ℚ} (h : Weighs w ws value) (heq : ∀ x, value x = value' x) : Weighs w ws value' :=
  ⟨h.1, fun x => (h.2 x).trans (heq x)⟩

theorem weighs_extractW (hws : 0 < ws) (h : extractW ws = some w) : Weighs w ws fun x => x (ws - 1) := by
  unfold extractW at h
  obtain ⟨zero, hzero, h⟩ := Option.bind_eq_some_iff.mp h
  rw [if_pos hws, floats_eq_some hzero] at h
  cases h
  refine ⟨by simp, fun x => ?_⟩
  have hterm : ∀ j ∈ Finset.range ws, x j * ((List.replicate ws 0).set (ws - 1) 1).getD j 0 = if j = ws - 1 then x j else 0 := by
    intro j hj
    have hj' := Finset.mem_range.mp hj
    rw [List.getD_eq_getElem?_getD, List.getElem?_set]
    by_cases hlast : j = ws - 1
    · rw [if_pos hlast.symm, if_pos hlast, List.length_replicate, if_pos (by omega)]
      simp
    · rw [if_neg (Ne.symm hlast), if_neg hlast, List.getElem?_replicate, if_pos hj']
      simp
  rw [Finset.sum_congr rfl hterm, Finset.sum_ite_eq', if_pos (Finset.mem_range.mpr (by omega))]

theorem weighs_smaWeights (hperiod : 0 < period) (h : smaWeights ws period = some w) :
    Weighs w ws fun x => newestSum (min period ws) ws x / period := by
  unfold smaWeights at h
  rw [if_neg hperiod.ne'] at h
  obtain ⟨zero, hzero, h⟩ := Option.bind_eq_some_iff.mp h
  rw [floats_eq_some hzero] at h
  cases h
  refine (weighs_mapIdx 0 _).congr fun x => ?_
  have hfilter : (Finset.range ws).filter (· < period) = Finset.range (min period ws) := by
    ext j
    simp [and_comm]
  unfold newestSum
  rw [← Finset.sum_range_reflect, ← hfilter, Finset.sum_filter, Finset.sum_div]
  refine Finset.sum_congr rfl fun j hj => ?_
  have hj' := Finset.mem_range.mp hj
  by_cases hnew : j < period
  · rw [if_pos hnew, if_pos (by omega)]
    ring
  · rw [if_neg hnew, if_neg (by omega)]
    simp

/-- The exponents of a window fit an `i32`. -/
def FitsExponents (ws : Nat) : Prop := ws ≤ 2 ^ 31

/-- The part of a value that is left when the next one comes. -/
def decay (period : Nat) : ℚ := 1 - 2 / (period + 1)

theorem weighs_emaWeights (hperiod : 0 < period) (hfits : FitsExponents ws) (h : emaWeights ws period = some w) :
    Weighs w ws fun x => (1 - decay period) * expSum (decay period) ws x := by
  unfold emaWeights at h
  rw [if_neg hperiod.ne'] at h
  obtain ⟨zero, hzero, h⟩ := Option.bind_eq_some_iff.mp h
  rw [floats_eq_some hzero] at h
  cases h
  refine (weighs_mapIdx 0 _).congr fun x => ?_
  rw [← expSum_eq]
  refine Finset.sum_congr rfl fun j hj => ?_
  have hj' := Finset.mem_range.mp hj
  unfold FitsExponents at hfits
  rw [asI32_of_lt (by omega), zpow_natCast]
  unfold decay
  ring

theorem weighs_rsiWeights (hws : 0 < ws) (hperiod : 0 < period) (hfits : FitsExponents ws) (h : rsiWeights ws period = some w) :
    Weighs w ws fun x => wilder period x (ws - 1) := by
  unfold FitsExponents at hfits
  obtain ⟨n, rfl⟩ : ∃ n, ws = n + 1 := ⟨ws - 1, by omega⟩
  unfold rsiWeights at h
  rw [if_neg hperiod.ne'] at h
  simp only [Nat.add_sub_cancel] at h ⊢
  by_cases hn : n = 0
  · rw [if_pos hn] at h
    cases floats_eq_some h
    subst hn
    exact ⟨rfl, fun x => by simp [wilder]⟩
  rw [if_neg hn] at h
  obtain ⟨zero, hzero, h⟩ := Option.bind_eq_some_iff.mp h
  rw [floats_eq_some hzero] at h
  by_cases hshort : n ≤ period
  · rw [if_pos hshort] at h
    cases h
    refine (weighs_mapIdx 0 _).congr fun x => ?_
    rw [wilder_eq_mean hshort, Finset.sum_range_succ', Finset.sum_div]
    rw [if_neg (by omega), mul_zero, add_zero]
    refine Finset.sum_congr rfl fun i hi => ?_
    have hi' := Finset.mem_range.mp hi
    rw [if_pos ⟨by omega, by omega⟩]
    ring
  · rw [if_neg hshort] at h
    cases h
    refine (weighs_mapIdx 0 _).congr fun x => ?_
    rw [wilder_eq_sum hperiod (by omega), Finset.sum_range_succ']
    rw [if_neg (by omega), if_neg (by omega), mul_zero, add_zero]
    refine Finset.sum_congr rfl fun i hi => ?_
    have hi' := Finset.mem_range.mp hi
    by_cases hseed : i < period
    · rw [if_pos hseed, if_pos ⟨by omega, by omega⟩, asI32_of_lt (by omega), zpow_natCast]
    · rw [if_neg hseed, if_neg (by omega), if_pos ⟨by omega, by omega⟩, asI32_of_lt (by omega), zpow_natCast]
      rw [show n - (i + 1) = n - 1 - i by omega]

end Opsense
