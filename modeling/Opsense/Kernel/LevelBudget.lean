import Opsense.Kernel.Gate

/-!
# The number of levels of a grid

`min_profitable_step` and `max_levels_for_profit` of `opsense-qlib/src/grid.rs`, next to the entry gate. The number of levels is chosen
by the step that pays the fee at the lowest price, and the gate asks each level for the fee at its own price: the levels all pass it
exactly if the part of a step that the width has left over outweighs the fee on the whole width (`budget_iff`).
-/

namespace Opsense

open Partial

namespace TradingGrid

variable {F : Type}

/-- The step that pays the fee of a round trip at a price. -/
def minProfitableStep [Scalar F] (fee_rate at_price : F) : F := 2.0 * fee_rate * at_price

def maxLevelsForProfit [Rounding F] (checks : Bool) (min max fee_rate : F) : Except Panic Nat :=
  let width := max - min
  let min_step := minProfitableStep fee_rate min
  if Scalar.le min_step 0.0 || Scalar.le width (min_step * 1.001) then .ok 2
  else do
    let k ← addU64 checks (Rounding.toNat (Rounding.floor (width / min_step))) 1
    .ok (Max.max k 2)

/-- A level is one for long orders: it is not above the middle. -/
def isLong [Scalar F] (grid : TradingGrid F) (il : Nat) : Bool := Scalar.le (grid.levelPrice il) ((grid.min + grid.max) / 2.0)

/-- The next level away from the middle that an order of this level takes its profit at. -/
def adjacentTp [Scalar F] (grid : TradingGrid F) (il : Nat) : F := if grid.isLong il then grid.tpAbove il else grid.tpBelow il

/-- `expected_profit_pct` of an order with the next level as its take-profit. -/
def adjacentProfit [Scalar F] (grid : TradingGrid F) (il : Nat) : F :=
  let entry_price := grid.levelPrice il
  if grid.isLong il then (grid.adjacentTp il - entry_price) / entry_price else (entry_price - grid.adjacentTp il) / entry_price

/-- The next level that an order takes its profit at. -/
def HasNeighbour [Scalar F] (grid : TradingGrid F) (il : Nat) : Prop := if grid.isLong il then il + 1 < grid.numLevels else 0 < il

/-- The level passes the gate with the next level as its take-profit. -/
def PassesGate (fee : Fee ℚ) (grid : TradingGrid ℚ) (il : Nat) : Prop := fee.roundTripRate < grid.adjacentProfit il

/-! ## The levels of a uniform grid -/

section Uniform

variable {n : Nat} {min max : ℚ} {grid : TradingGrid ℚ}

/-- The uniform grid with `n` steps. -/
structure Uniform (grid : TradingGrid ℚ) (n : Nat) (min step : ℚ) : Prop where
  levels : grid.levels = prices (n + 1) min step
  step_pos : 0 < step

theorem uniform_of_new (hn : 1 ≤ n) (hlt : min < max) (h : new (n + 1) min max = some grid) :
    grid.Uniform n min ((max - min) / n) := by
  unfold new at h
  split_ifs at h
  have hpos : (0 : ℚ) < n := by exact_mod_cast hn
  rw [← Option.some.inj h]
  exact ⟨rfl, div_pos (sub_pos.mpr hlt) hpos⟩

variable {step : ℚ} {il : Nat}

theorem Uniform.get? (h : grid.Uniform n min step) (hil : il ≤ n) : grid.levels[il]? = some (min + il * step) := by
  have hnat : (Scalar.ofNat il : ℚ) = il := rfl
  rw [h.levels, prices, List.getElem?_map, List.getElem?_range (by omega), Option.map_some, hnat]

theorem Uniform.levelPrice (h : grid.Uniform n min step) (hil : il ≤ n) : grid.levelPrice il = min + il * step :=
  levelPrice_eq (h.get? hil)

theorem Uniform.min_eq (h : grid.Uniform n min step) : grid.min = min := by
  have hhead := h.get? (Nat.zero_le n)
  rw [← List.head?_eq_getElem?, List.head?_eq_some_head grid.levels_ne_nil] at hhead
  rw [TradingGrid.min, Option.some.inj hhead]
  simp

theorem Uniform.max_eq (h : grid.Uniform n min step) : grid.max = min + n * step := by
  have hlength : grid.levels.length = n + 1 := by rw [h.levels, prices_length]
  have hlast := h.get? le_rfl
  have hpred : n = grid.levels.length - 1 := by omega
  rw [TradingGrid.max, List.getLast_eq_getElem]
  refine Option.some.inj ((List.getElem?_eq_getElem _).symm.trans ?_)
  rwa [← hpred]

/-- Every level has the profit of one step at its own price. -/
theorem Uniform.adjacentProfit (h : grid.Uniform n min step) (hil : il ≤ n) (hneighbour : grid.HasNeighbour il) :
    grid.adjacentProfit il = step / (min + il * step) := by
  have hlength : grid.numLevels = n + 1 := by rw [numLevels, h.levels, prices_length]
  unfold HasNeighbour at hneighbour
  unfold TradingGrid.adjacentProfit adjacentTp
  cases hlong : grid.isLong il with
  | true =>
    rw [hlong, if_pos rfl, hlength] at hneighbour
    simp only [if_true, tpAbove, h.get? (show il + 1 ≤ n by omega), h.levelPrice hil, Option.getD_some]
    push_cast
    ring
  | false =>
    rw [hlong, if_neg Bool.false_ne_true] at hneighbour
    obtain ⟨i, rfl⟩ : ∃ i, il = i + 1 := ⟨il - 1, by omega⟩
    simp only [Bool.false_eq_true, if_false, tpBelow, h.get? (show i ≤ n by omega), h.levelPrice hil, Option.getD_some]
    push_cast
    ring

/-- The lowest level is for long orders. -/
theorem Uniform.hasNeighbour_zero (h : grid.Uniform n min step) (hn : 1 ≤ n) : grid.HasNeighbour 0 := by
  have hlong : grid.isLong 0 = true := by
    have hprice := h.levelPrice (Nat.zero_le n)
    have hpos : (0 : ℚ) ≤ n * step := mul_nonneg n.cast_nonneg h.step_pos.le
    simp only [isLong, hprice, h.min_eq, h.max_eq, Scalar.le_rat, decide_eq_true_eq]
    norm_num
    linarith
  have hlength : grid.numLevels = n + 1 := by rw [numLevels, h.levels, prices_length]
  rw [HasNeighbour, if_pos hlong, hlength]
  omega

/-- The highest level is for short orders. -/
theorem Uniform.hasNeighbour_last (h : grid.Uniform n min step) (hn : 1 ≤ n) : grid.HasNeighbour n := by
  have hshort : ¬grid.isLong n = true := by
    have hprice := h.levelPrice le_rfl
    have hpos : (0 : ℚ) < n * step := mul_pos (by exact_mod_cast hn) h.step_pos
    simp only [isLong, hprice, h.min_eq, h.max_eq, Scalar.le_rat, decide_eq_true_eq, not_le]
    norm_num
    linarith
  rw [HasNeighbour, if_neg hshort]
  omega

variable {rate : ℚ}

/-- A level passes the gate if a step pays the fee at its price. -/
theorem Uniform.passesGate_iff (h : grid.Uniform n min step) (hmin : 0 < min) (hil : il ≤ n) (hneighbour : grid.HasNeighbour il) :
    PassesGate (.ofRate rate) grid il ↔ rate * 2 * (min + il * step) < step := by
  have hprice : 0 < min + il * step := by
    have := h.step_pos
    positivity
  rw [PassesGate, roundTripRate_eq, h.adjacentProfit hil hneighbour, lt_div_iff₀ hprice]

/-- The levels all pass if the highest one does. -/
theorem Uniform.all_pass_iff (h : grid.Uniform n min step) (hmin : 0 < min) (hrate : 0 < rate) (hn : 1 ≤ n) :
    (∀ il < n + 1, grid.HasNeighbour il → PassesGate (.ofRate rate) grid il) ↔ rate * 2 * (min + n * step) < step := by
  constructor
  · intro hall
    exact (h.passesGate_iff hmin le_rfl (h.hasNeighbour_last hn)).mp (hall n (Nat.lt_succ_self n) (h.hasNeighbour_last hn))
  · intro hlast il hil hneighbour
    have hle : (il : ℚ) ≤ n := by exact_mod_cast Nat.lt_succ_iff.mp hil
    refine (h.passesGate_iff hmin (Nat.lt_succ_iff.mp hil) hneighbour).mpr (lt_of_le_of_lt ?_ hlast)
    have := h.step_pos
    gcongr

end Uniform

/-! ## The budget -/

variable {checks : Bool} {min max rate : ℚ} {k : Nat}

/-- A number of levels above the least one is that of the whole steps that pay the fee at the lowest price. -/
theorem maxLevels_eq (hk : maxLevelsForProfit checks min max rate = .ok k) (htwo : 2 < k) :
    0 < rate * 2 * min ∧ k = ⌊(max - min) / (rate * 2 * min)⌋₊ + 1 ∧ 2 ≤ ⌊(max - min) / (rate * 2 * min)⌋₊ := by
  have hstep : minProfitableStep rate min = rate * 2 * min := by
    have htwo : (2.0 : ℚ) = 2 := by norm_num
    rw [minProfitableStep, htwo, mul_comm 2 rate]
  unfold maxLevelsForProfit at hk
  rw [hstep] at hk
  dsimp only at hk
  split_ifs at hk with hnarrow
  · cases hk
    omega
  · have hpos : 0 < rate * 2 * min := by
      by_contra hle
      refine hnarrow ?_
      rw [Scalar.le_rat, Scalar.zero_rat, decide_eq_true (not_lt.mp hle), Bool.true_or]
    have hfloor : Rounding.toNat (Rounding.floor ((max - min) / (rate * 2 * min))) =
        Min.min ⌊(max - min) / (rate * 2 * min)⌋₊ (2 ^ 64 - 1) := by
      change Min.min ⌊((⌊(max - min) / (rate * 2 * min)⌋ : Int) : ℚ)⌋₊ _ = _
      rw [← Int.floor_toNat, Int.floor_intCast, Int.floor_toNat]
    rw [hfloor] at hk
    rcases gives_addU64 checks (Min.min ⌊(max - min) / (rate * 2 * min)⌋₊ (2 ^ 64 - 1)) 1 with ⟨hfits, heq⟩ | ⟨-, e, heq⟩
    · rw [heq, ok_bind] at hk
      have hk := Except.ok.inj hk
      refine ⟨hpos, ?_⟩
      omega
    · rw [heq, error_bind] at hk
      cases hk

/-- Every level that orders are opened from passes the gate, and with more levels the lowest one does not. -/
structure BudgetAgrees (rate min max : ℚ) (k : Nat) : Prop where
  passes : ∀ grid, new k min max = some grid → ∀ il < k, grid.HasNeighbour il → PassesGate (.ofRate rate) grid il
  most : ∀ k', k < k' → ∀ grid, new k' min max = some grid → ¬PassesGate (.ofRate rate) grid 0

theorem new_isSome {n : Nat} (hn : 1 ≤ n) (hlt : min < max) : ∃ grid, new (n + 1) min max = some grid := by
  have hcmp : Scalar.partialCmp max min = some .gt := by
    change some (if max < min then Ordering.lt else if max = min then .eq else .gt) = _
    rw [if_neg hlt.not_gt, if_neg hlt.ne']
  unfold new
  rw [dif_neg (by rw [hcmp]; simp; omega)]
  exact ⟨_, rfl⟩

/-- The fee at the highest price is paid by one of `n` steps of a width exactly if what is left over of the width is enough. -/
theorem pays_iff {rate min max x n : ℚ} (hpos : 0 < 2 * rate * min) (hn : 0 < n) (hwidth : max - min = x * (2 * rate * min)) :
    rate * 2 * (min + n * ((max - min) / n)) < (max - min) / n ↔ 2 * rate * n * x < x - n := by
  have hdiff : max - min - rate * 2 * max * n = (x - n - 2 * rate * n * x) * (2 * rate * min) := by
    have hmax : max = min + x * (2 * rate * min) := by linarith
    rw [hmax]
    ring
  rw [mul_div_cancel₀ _ hn.ne', lt_div_iff₀ hn, add_sub_cancel, ← sub_pos, hdiff, mul_pos_iff_of_pos_right hpos, sub_pos]

/-- The budget agrees with the gate exactly if the width has enough left over after its whole steps. -/
theorem budget_iff (hmin : 0 < min) (hlt : min < max) (hrate : 0 < rate) (hk : maxLevelsForProfit checks min max rate = .ok k)
    (htwo : 2 < k) : BudgetAgrees rate min max k ↔
      2 * rate * ⌊(max - min) / (2 * rate * min)⌋ * ((max - min) / (2 * rate * min)) < Int.fract ((max - min) / (2 * rate * min)) := by
  obtain ⟨hpos, hlevels, hmany⟩ := maxLevels_eq hk htwo
  rw [mul_comm rate 2] at hpos hlevels hmany
  obtain ⟨x, hx⟩ : ∃ x, x = (max - min) / (2 * rate * min) := ⟨_, rfl⟩
  rw [← hx] at hlevels hmany ⊢
  have hwidth : max - min = x * (2 * rate * min) := by rw [hx, div_mul_cancel₀ _ hpos.ne']
  have hxpos : 0 ≤ x := by
    rw [hx]
    exact (div_pos (sub_pos.mpr hlt) hpos).le
  obtain ⟨n, hn⟩ : ∃ n, n = ⌊x⌋₊ := ⟨_, rfl⟩
  rw [← hn] at hlevels hmany
  subst hlevels
  have hfloor : (⌊x⌋ : ℚ) = n := by
    rw [hn]
    exact_mod_cast (Int.natCast_floor_eq_floor hxpos).symm
  have hnpos : (0 : ℚ) < n := by exact_mod_cast (by omega : 0 < n)
  obtain ⟨grid, hgrid⟩ := new_isSome (by omega : 1 ≤ n) hlt
  have hall := (uniform_of_new (by omega) hlt hgrid).all_pass_iff hmin hrate (by omega)
  have hfract : rate * 2 * (min + n * ((max - min) / n)) < (max - min) / n ↔ 2 * rate * ⌊x⌋ * x < Int.fract x := by
    rw [Int.fract, hfloor]
    exact pays_iff hpos hnpos hwidth
  constructor
  · intro hagrees
    exact hfract.mp (hall.mp (hagrees.passes grid hgrid))
  · intro hcondition
    refine ⟨?_, ?_⟩
    · intro grid' hgrid'
      rw [hgrid] at hgrid'
      rw [← Option.some.inj hgrid']
      exact hall.mpr (hfract.mpr hcondition)
    · intro k' hk' grid' hgrid' hpasses
      obtain ⟨n', rfl⟩ : ∃ n', k' = n' + 1 := ⟨k' - 1, by omega⟩
      have huniform := uniform_of_new (by omega) hlt hgrid'
      have hn' : (0 : ℚ) < n' := by exact_mod_cast (by omega : 0 < n')
      rw [huniform.passesGate_iff hmin (Nat.zero_le _) (huniform.hasNeighbour_zero (by omega)), lt_div_iff₀ hn', hwidth] at hpasses
      have hmore : x < n' := by
        have : ⌊x⌋₊ < n' := by omega
        exact (Nat.floor_lt hxpos).mp this
      simp only [Nat.cast_zero, zero_mul, add_zero] at hpasses
      nlinarith

/-- A width of two steps and a half that pay the fee at the lowest price. -/
theorem budget_iff_wide : maxLevelsForProfit (F := ℚ) true 100 (1005 / 10) (1 / 1000) = .ok 3 ∧
    (BudgetAgrees (1 / 1000) 100 (1005 / 10) 3 ↔
    2 * (1 / 1000) * ⌊((1005 / 10 : ℚ) - 100) / (2 * (1 / 1000) * 100)⌋ * ((1005 / 10 - 100) / (2 * (1 / 1000) * 100)) <
      Int.fract (((1005 / 10 : ℚ) - 100) / (2 * (1 / 1000) * 100))) := by
  have hk : maxLevelsForProfit (F := ℚ) true 100 (1005 / 10) (1 / 1000) = .ok 3 := by decide +kernel
  exact ⟨hk, budget_iff (by norm_num) (by norm_num) (by norm_num) hk (by norm_num)⟩

/-- The prices from 100 to 101, with a fee of one in a thousand: the width is five whole steps, six levels are chosen, and every one of
them is rejected. -/
theorem whole_steps_rejected : maxLevelsForProfit (F := ℚ) true 100 101 (1 / 1000) = .ok 6 ∧
    (∃ grid, new (F := ℚ) 6 100 101 = some grid ∧ grid.HasNeighbour 0 ∧
      ∀ il < 6, grid.HasNeighbour il → ¬PassesGate (.ofRate (1 / 1000)) grid il) ∧ ¬BudgetAgrees (1 / 1000) 100 101 6 := by
  obtain ⟨grid, hgrid⟩ := new_isSome (n := 5) (by norm_num) (by norm_num : (100 : ℚ) < 101)
  have huniform := uniform_of_new (by norm_num) (by norm_num) hgrid
  have hzero := huniform.hasNeighbour_zero (by norm_num)
  have hrejected : ∀ il < 6, grid.HasNeighbour il → ¬PassesGate (.ofRate (1 / 1000)) grid il := by
    intro il hil hneighbour
    rw [huniform.passesGate_iff (by norm_num) (by omega) hneighbour, not_lt]
    norm_num
    linarith
  refine ⟨by decide +kernel, ⟨grid, hgrid, hzero, hrejected⟩, ?_⟩
  intro hagrees
  exact hrejected 0 (by norm_num) hzero (hagrees.passes grid hgrid 0 (by norm_num) hzero)

end TradingGrid

end Opsense
