import Opsense.Mlib.AnalysisGrid

/-!
# The sieve of analysis grids

`AnalysisGrid::with_config` of `opsense-mlib/src/grid.rs`: the range of the values is halved level by level, until the crossings
between neighbouring values jump, or a cell becomes smaller than the floor. Over exact rationals the crossings never decrease from a
level to the next (`crossings_succ_le`), and a floor that is reached earlier leaves a coarser grid (`sieve_mono`). The shifts of the
source are those of fewer than 64 bits.
-/

namespace Opsense

structure SieveConfig (F : Type) where
  deltaMultiplier : F
  minAbsDelta : F
  /-- The floor of the step, as a fraction of the price in the middle. -/
  minStepFrac : Option F

namespace SieveConfig

variable {F : Type} [Scalar F]

def default : SieveConfig F := ⟨1.3, 0.02, none⟩

/-- The step is below the floor. -/
def belowFloor (config : SieveConfig F) (min max step : F) : Bool :=
  match config.minStepFrac with
  | none => false
  | some frac => Scalar.lt step (frac * ((min + max) / 2.0))

end SieveConfig

namespace AnalysisGrid

variable {F : Type} [Rounding F]

/-- The cell of a value at the finest level. -/
def fineCell (min max : F) (max_bit : Nat) (y : F) : Nat :=
  if Scalar.le y min then 0
  else if Scalar.ge y max then 2 ^ max_bit - 1
  else Rounding.toNat ((y - min) / (max - min) * Scalar.ofNat (2 ^ max_bit))

def absDiff (a b : Nat) : Nat := if a < b then b - a else a - b

/-- The cells between two neighbours, once their numbers are shifted. -/
def crossing (shift : Nat) (pair : Nat × Nat) : Nat := absDiff (pair.1 >>> shift) (pair.2 >>> shift)

/-- The crossings of a level. -/
def crossingsAt (checks : Bool) (cells : List Nat) (shift : Nat) : Except Panic Nat :=
  (cells.zip cells.tail).foldlM (fun c pair => addU64 checks c (crossing shift pair)) 0

/-- The best grid so far, and the crossings of the level before. -/
structure SieveState (F : Type) where
  best : AnalysisGrid F
  prevCross : Nat
  prevDelta : F

/-- The grid of a level. -/
def levelGrid (min max : F) (max_bit level : Nat) : AnalysisGrid F := ⟨(max - min) / Scalar.ofNat (2 ^ level), min, min, max, max_bit⟩

/-- The crossings jump. -/
def jumps (config : SieveConfig F) (level : Nat) (delta prev_delta : F) : Bool :=
  2 ≤ level && Scalar.gt delta (prev_delta * config.deltaMultiplier) && Scalar.ge delta config.minAbsDelta && Scalar.gt prev_delta 0.0

/-- The loop over the levels. -/
def sieve (checks : Bool) (cells : List Nat) (min max : F) (max_bit : Nat) (config : SieveConfig F) :
    List Nat → SieveState F → Except Panic (AnalysisGrid F)
  | [], s => .ok s.best
  | level :: levels, s =>
    let grid := levelGrid min max max_bit level
    if Scalar.le grid.step 0.0 || !Scalar.isFinite grid.step then sieve checks cells min max max_bit config levels s
    else if config.belowFloor min max grid.step then .ok s.best
    else do
      let crossings ← crossingsAt checks cells (max_bit - level)
      let delta ←
        if level = 0 then .ok 0.0
        else do
          let d ← subU64 checks crossings s.prevCross
          .ok (Scalar.ofNat d / Scalar.ofNat (Max.max (cells.length - 1) 1))
      if jumps config level delta s.prevDelta then .ok s.best
      else sieve checks cells min max max_bit config levels ⟨grid, crossings, delta⟩

def withConfig (checks : Bool) (values : List F) (min max : F) (max_bit : Nat) (config : SieveConfig F) : Except Panic (AnalysisGrid F) :=
  if Scalar.le (max - min) 0.0 ∨ values.length = 0 then .ok ⟨1.0, min, min, max, max_bit⟩
  else
    sieve checks (values.map (fineCell min max max_bit)) min max max_bit config (List.range (max_bit + 1))
      ⟨⟨max - min, min, min, max, max_bit⟩, 0, 0.0⟩

/-! ## Crossings -/

/-- The number of crossings of a level. -/
def crossings (cells : List Nat) (shift : Nat) : Nat := ((cells.zip cells.tail).map (crossing shift)).sum

/-- Two neighbours are no further apart once their cells are joined in pairs. -/
theorem crossing_succ_le (shift : Nat) (pair : Nat × Nat) : crossing (shift + 1) pair ≤ crossing shift pair := by
  unfold crossing absDiff
  rw [Nat.shiftRight_succ, Nat.shiftRight_succ]
  split_ifs <;> omega

theorem crossings_succ_le (cells : List Nat) (shift : Nat) : crossings cells (shift + 1) ≤ crossings cells shift :=
  List.sum_le_sum fun pair _ => crossing_succ_le shift pair

theorem crossings_antitone (cells : List Nat) : Antitone (crossings cells) := antitone_nat_of_succ_le (crossings_succ_le cells)

/-- Cells below a bound are closer to each other than the bound. -/
theorem crossings_zero_le {cells : List Nat} {n : Nat} (h : ∀ c ∈ cells, c < n) : crossings cells 0 ≤ cells.length * n := by
  have hlength : (cells.zip cells.tail).length ≤ cells.length := by simp
  refine le_trans ?_ (Nat.mul_le_mul_right n hlength)
  unfold crossings
  rw [← List.length_map (crossing 0), ← smul_eq_mul]
  apply List.sum_le_card_nsmul
  intro k hk
  obtain ⟨pair, hpair, rfl⟩ := List.mem_map.mp hk
  obtain ⟨h1, h2⟩ := List.of_mem_zip hpair
  have := h _ h1
  have := h _ (List.mem_of_mem_tail h2)
  unfold crossing absDiff
  simp only [Nat.shiftRight_zero]
  split_ifs <;> omega

/-- Where the crossings are in range, no sum overflows. -/
theorem crossingsAt_eq (checks : Bool) {cells : List Nat} {shift : Nat} (h : crossings cells shift < 2 ^ 64) :
    crossingsAt checks cells shift = .ok (crossings cells shift) := by
  have hfold : ∀ (pairs : List (Nat × Nat)) (c : Nat), c + (pairs.map (crossing shift)).sum < 2 ^ 64 →
      pairs.foldlM (fun c pair => addU64 checks c (crossing shift pair)) c = .ok (c + (pairs.map (crossing shift)).sum) := by
    intro pairs
    induction pairs with
    | nil =>
      intro c _
      rfl
    | cons pair pairs ih =>
      intro c hc
      rw [List.map_cons, List.sum_cons] at hc ⊢
      rw [List.foldlM_cons, addU64_eq (by omega), Partial.ok_bind, ih _ (by omega)]
      congr 1
      omega
  unfold crossingsAt
  rw [hfold _ 0 (by rw [Nat.zero_add]; exact h), Nat.zero_add]
  rfl

/-! ## Over exact rationals -/

section Exact

variable {checks : Bool} {cells : List Nat} {min max : ℚ} {max_bit : Nat} {config : SieveConfig ℚ}

theorem levelGrid_step (level : Nat) : (levelGrid min max max_bit level).step = (max - min) / 2 ^ level := by
  simp [levelGrid, Scalar.ofNat]

theorem belowFloor_iff (step : ℚ) :
    config.belowFloor min max step = true ↔ ∃ frac, config.minStepFrac = some frac ∧ step < frac * ((min + max) / 2) := by
  unfold SieveConfig.belowFloor
  cases config.minStepFrac with
  | none => simp
  | some frac =>
    rw [lt_rat_iff]
    norm_num

/-- The cells of the values have fewer bits than asked for. -/
theorem fineCell_lt (hlt : min < max) (y : ℚ) : fineCell min max max_bit y < 2 ^ max_bit := by
  have hpow : (0 : Nat) < 2 ^ max_bit := by positivity
  unfold fineCell
  split_ifs with hlow hhigh
  · exact hpow
  · omega
  · rw [le_rat_iff, not_le] at hlow
    rw [ge_rat_iff, not_le] at hhigh
    have hpos : 0 < max - min := sub_pos.mpr hlt
    have hfrac : (y - min) / (max - min) < 1 := (div_lt_one hpos).mpr (by linarith)
    refine lt_of_le_of_lt (Nat.min_le_left _ _) ?_
    rw [Nat.floor_lt (mul_nonneg (div_nonneg (by linarith) hpos.le) (by simp [Scalar.ofNat]))]
    have hscale : (0 : ℚ) < 2 ^ max_bit := by positivity
    simpa [Scalar.ofNat] using mul_lt_mul_of_pos_right hfrac hscale

/-- The difference of the crossings of two levels, as a fraction of the segments. -/
def delta (cells : List Nat) (max_bit level prev_cross : Nat) : ℚ :=
  if level = 0 then 0.0 else (crossings cells (max_bit - level) - prev_cross : Nat) / (Max.max (cells.length - 1) 1 : Nat)

/-- The state after a level. -/
def nextState (cells : List Nat) (min max : ℚ) (max_bit level : Nat) (s : SieveState ℚ) : SieveState ℚ :=
  ⟨levelGrid min max max_bit level, crossings cells (max_bit - level), delta cells max_bit level s.prevCross⟩

/-- A level of the sieve, where the crossings of no level are fewer than those before. -/
theorem sieve_cons (hlt : min < max) (hcells : crossings cells 0 < 2 ^ 64) {level : Nat} (levels : List Nat) {s : SieveState ℚ}
    (hcross : s.prevCross ≤ crossings cells (max_bit - level)) :
    sieve checks cells min max max_bit config (level :: levels) s =
      if config.belowFloor min max ((max - min) / 2 ^ level) then .ok s.best
      else if jumps config level (delta cells max_bit level s.prevCross) s.prevDelta then .ok s.best
      else sieve checks cells min max max_bit config levels (nextState cells min max max_bit level s) := by
  have hpos : 0 < (max - min) / 2 ^ level := div_pos (sub_pos.mpr hlt) (by positivity)
  have hbound : crossings cells (max_bit - level) < 2 ^ 64 := lt_of_le_of_lt (crossings_antitone cells (Nat.zero_le _)) hcells
  have hstep : (Scalar.le ((max - min) / 2 ^ level) (0.0 : ℚ) || !Scalar.isFinite ((max - min) / 2 ^ level)) = false := by
    have hle : Scalar.le ((max - min) / 2 ^ level) (0.0 : ℚ) = false := by
      have hzero : (0.0 : ℚ) = 0 := by norm_num
      rwa [Bool.eq_false_iff, ne_eq, le_rat_iff, not_le, hzero]
    rw [hle]
    rfl
  rw [sieve]
  simp only [levelGrid_step]
  rw [hstep, if_neg Bool.false_ne_true]
  by_cases hfloor : config.belowFloor min max ((max - min) / 2 ^ level) = true
  · rw [if_pos hfloor, if_pos hfloor]
  · rw [if_neg hfloor, if_neg hfloor, crossingsAt_eq checks hbound, Partial.ok_bind]
    by_cases hzero : level = 0
    · rw [if_pos hzero, Partial.ok_bind, nextState, delta, if_pos hzero]
    · rw [if_neg hzero, subU64_eq hcross hbound, Partial.ok_bind, Partial.ok_bind, nextState, delta, if_neg hzero]
      rfl

theorem step_antitone (hlt : min < max) : Antitone fun level : Nat => (max - min) / 2 ^ level := by
  intro k level hle
  exact div_le_div_of_nonneg_left (sub_pos.mpr hlt).le (by positivity) (pow_le_pow_right₀ (by norm_num) hle)

/-- What the sieve keeps: the crossings so far are no more than those to come, the best step is one of the levels, and no level to come
is coarser. -/
structure Keeps (cells : List Nat) (min max : ℚ) (max_bit level : Nat) (s : SieveState ℚ) : Prop where
  cross : s.prevCross ≤ crossings cells (max_bit - level)
  best : ∃ k ≤ max_bit, s.best.step = (max - min) / 2 ^ k
  coarse : ∀ k, level ≤ k → (max - min) / 2 ^ k ≤ s.best.step

theorem keeps_start (cells : List Nat) (hlt : min < max) : Keeps cells min max max_bit 0 ⟨⟨max - min, min, min, max, max_bit⟩, 0, 0.0⟩ := by
  refine ⟨Nat.zero_le _, ⟨0, Nat.zero_le _, by simp⟩, ?_⟩
  intro k _
  simpa using step_antitone hlt (Nat.zero_le k)

theorem Keeps.next {level : Nat} {s : SieveState ℚ} (hlt : min < max) (hlevel : level ≤ max_bit) :
    Keeps cells min max max_bit (level + 1) (nextState cells min max max_bit level s) := by
  refine ⟨crossings_antitone cells (by omega), ⟨level, hlevel, levelGrid_step level⟩, ?_⟩
  intro k hk
  rw [nextState, levelGrid_step]
  exact step_antitone hlt (by omega : level ≤ k)

/-- The sieve ends with the step of a level, and no coarser one than it had. -/
theorem sieve_spec (hlt : min < max) (hcells : crossings cells 0 < 2 ^ 64) {level n : Nat} (hn : level + n = max_bit + 1)
    {s : SieveState ℚ} (hs : Keeps cells min max max_bit level s) :
    ∃ g, sieve checks cells min max max_bit config (List.range' level n) s = .ok g ∧
      (∃ k ≤ max_bit, g.step = (max - min) / 2 ^ k) ∧ g.step ≤ s.best.step := by
  induction n generalizing level s with
  | zero => exact ⟨s.best, rfl, hs.best, le_rfl⟩
  | succ n ih =>
    rw [List.range'_succ, sieve_cons hlt hcells _ hs.cross]
    split_ifs
    · exact ⟨s.best, rfl, hs.best, le_rfl⟩
    · exact ⟨s.best, rfl, hs.best, le_rfl⟩
    · obtain ⟨g, hg, hstep, hle⟩ := ih (by omega) (Keeps.next (s := s) hlt (by omega : level ≤ max_bit))
      refine ⟨g, hg, hstep, hle.trans ?_⟩
      rw [nextState, levelGrid_step]
      exact hs.coarse level le_rfl

/-- Where every step below the one floor is below the other, the sieve does not end finer with the other. -/
theorem sieve_mono {frac frac' : Option ℚ} (hlt : min < max) (hcells : crossings cells 0 < 2 ^ 64)
    (hfloor : ∀ step, 0 < step → SieveConfig.belowFloor { config with minStepFrac := frac } min max step = true →
      SieveConfig.belowFloor { config with minStepFrac := frac' } min max step = true)
    {level n : Nat} (hn : level + n = max_bit + 1) {s : SieveState ℚ} (hs : Keeps cells min max max_bit level s) {g g' : AnalysisGrid ℚ}
    (hg : sieve checks cells min max max_bit { config with minStepFrac := frac } (List.range' level n) s = .ok g)
    (hg' : sieve checks cells min max max_bit { config with minStepFrac := frac' } (List.range' level n) s = .ok g') :
    g.step ≤ g'.step := by
  induction n generalizing level s with
  | zero =>
    obtain rfl := Except.ok.inj hg
    obtain rfl := Except.ok.inj hg'
    exact le_rfl
  | succ n ih =>
    obtain ⟨g₀, hg₀, -, hle⟩ := @sieve_spec checks _ _ _ _ { config with minStepFrac := frac } hlt hcells _ _ hn _ hs
    obtain rfl := Except.ok.inj (hg.symm.trans hg₀)
    rw [List.range'_succ, sieve_cons hlt hcells _ hs.cross] at hg hg'
    by_cases hbelow' : SieveConfig.belowFloor { config with minStepFrac := frac' } min max ((max - min) / 2 ^ level) = true
    · rw [if_pos hbelow'] at hg'
      obtain rfl := Except.ok.inj hg'
      exact hle
    · have hbelow := mt (hfloor _ (div_pos (sub_pos.mpr hlt) (by positivity))) hbelow'
      rw [if_neg hbelow] at hg
      rw [if_neg hbelow'] at hg'
      -- the jump does not look at the floor
      have hjumps : jumps { config with minStepFrac := frac' } level (delta cells max_bit level s.prevCross) s.prevDelta =
          jumps { config with minStepFrac := frac } level (delta cells max_bit level s.prevCross) s.prevDelta := rfl
      rw [hjumps] at hg'
      split_ifs at hg hg'
      · obtain rfl := Except.ok.inj hg
        obtain rfl := Except.ok.inj hg'
        exact le_rfl
      · exact ih (by omega) (Keeps.next hlt (by omega)) hg hg'

/-- A floor that is raised is reached by no fewer steps, where the price in the middle is not negative or the fraction was not; a
negative price turns it around. -/
theorem belowFloor_mono {a b : ℚ} (hab : a ≤ b) {step : ℚ} (hstep : 0 < step) :
    (0 ≤ min + max ∨ 0 ≤ a → SieveConfig.belowFloor { config with minStepFrac := some a } min max step = true →
      SieveConfig.belowFloor { config with minStepFrac := some b } min max step = true) ∧
    (min + max ≤ 0 → SieveConfig.belowFloor { config with minStepFrac := some b } min max step = true →
      SieveConfig.belowFloor { config with minStepFrac := some a } min max step = true) := by
  simp only [belowFloor_iff, Option.some.injEq, exists_eq_left']
  constructor
  · intro hor hlt
    rcases le_or_gt 0 (min + max) with hmid | hmid
    · exact hlt.trans_le (mul_le_mul_of_nonneg_right hab (by linarith))
    · rcases hor with hmid' | ha
      · linarith
      · have := mul_nonpos_of_nonneg_of_nonpos ha (by linarith : (min + max) / 2 ≤ 0)
        linarith
  · intro hmid hlt
    exact hlt.trans_le (mul_le_mul_of_nonpos_right hab (by linarith))

/-- The crossings of the levels of the values never decrease, and the grid is of a level; without values it has step 1. Without a floor
it is at least as fine as with one. A floor that is raised never makes it finer, where the price in the middle is not negative or the
fraction was not; where that price is not positive it never makes it coarser. -/
structure Sieves (checks : Bool) (values : List ℚ) (min max : ℚ) (max_bit : Nat) (config : SieveConfig ℚ) : Prop where
  crossings_le : ∀ level < max_bit, crossings (values.map (fineCell min max max_bit)) (max_bit - level) ≤
    crossings (values.map (fineCell min max max_bit)) (max_bit - (level + 1))
  step : ∃ g, withConfig checks values min max max_bit config = .ok g ∧ (values = [] → g.step = 1) ∧
    (values ≠ [] → ∃ k ≤ max_bit, g.step = (max - min) / 2 ^ k)
  unfloored : ∀ frac g g', withConfig checks values min max max_bit { config with minStepFrac := none } = .ok g →
    withConfig checks values min max max_bit { config with minStepFrac := frac } = .ok g' → g.step ≤ g'.step
  raised : ∀ a b g g', a ≤ b → withConfig checks values min max max_bit { config with minStepFrac := some a } = .ok g →
    withConfig checks values min max max_bit { config with minStepFrac := some b } = .ok g' →
      (0 ≤ min + max ∨ 0 ≤ a → g.step ≤ g'.step) ∧ (min + max ≤ 0 → g'.step ≤ g.step)

theorem withConfig_of_nil : withConfig checks ([] : List ℚ) min max max_bit config = .ok ⟨1.0, min, min, max, max_bit⟩ := by
  unfold withConfig
  rw [if_pos (Or.inr List.length_nil)]

theorem withConfig_of_ne_nil (hlt : min < max) {values : List ℚ} (hvalues : values ≠ []) :
    withConfig checks values min max max_bit config = sieve checks (values.map (fineCell min max max_bit)) min max max_bit config
      (List.range' 0 (max_bit + 1)) ⟨⟨max - min, min, min, max, max_bit⟩, 0, 0.0⟩ := by
  have hpos : ¬Scalar.le (max - min) (0.0 : ℚ) = true := by
    have hzero : (0.0 : ℚ) = 0 := by norm_num
    rw [le_rat_iff, hzero, not_le]
    exact sub_pos.mpr hlt
  unfold withConfig
  rw [if_neg (by simp [hpos, hvalues]), List.range_eq_range']

theorem withConfig_sieves (hlt : min < max) {values : List ℚ} (hbits : values.length * 2 ^ max_bit < 2 ^ 64) :
    Sieves checks values min max max_bit config := by
  have hcells : crossings (values.map (fineCell min max max_bit)) 0 < 2 ^ 64 := by
    refine lt_of_le_of_lt (crossings_zero_le (n := 2 ^ max_bit) ?_) (by rwa [List.length_map])
    intro c hc
    obtain ⟨y, -, rfl⟩ := List.mem_map.mp hc
    exact fineCell_lt hlt y
  have hstart := @keeps_start min max max_bit (values.map (fineCell min max max_bit)) hlt
  have hone : (1.0 : ℚ) = 1 := by norm_num
  have hmono {config' : SieveConfig ℚ} {frac frac' : Option ℚ} {g g' : AnalysisGrid ℚ}
      (hfloor : ∀ step, 0 < step → SieveConfig.belowFloor { config' with minStepFrac := frac } min max step = true →
        SieveConfig.belowFloor { config' with minStepFrac := frac' } min max step = true)
      (hg : withConfig checks values min max max_bit { config' with minStepFrac := frac } = .ok g)
      (hg' : withConfig checks values min max max_bit { config' with minStepFrac := frac' } = .ok g') : g.step ≤ g'.step := by
    by_cases hvalues : values = []
    · subst hvalues
      rw [withConfig_of_nil] at hg hg'
      rw [← Except.ok.inj hg, ← Except.ok.inj hg']
    · rw [withConfig_of_ne_nil hlt hvalues] at hg hg'
      exact sieve_mono hlt hcells hfloor (by omega) hstart hg hg'
  refine ⟨fun level _ => crossings_antitone _ (by omega), ?_, ?_, ?_⟩
  · by_cases hvalues : values = []
    · subst hvalues
      exact ⟨_, withConfig_of_nil, fun _ => hone, fun h => absurd rfl h⟩
    · obtain ⟨g, hg, hstep, -⟩ := @sieve_spec checks _ _ _ _ config hlt hcells _ _ (Nat.zero_add (max_bit + 1)) _ hstart
      exact ⟨g, (withConfig_of_ne_nil hlt hvalues).trans hg, fun h => absurd h hvalues, fun _ => hstep⟩
  · intro frac g g' hg hg'
    refine hmono (fun step _ hbelow => ?_) hg hg'
    simp [SieveConfig.belowFloor] at hbelow
  · intro a b g g' hab hg hg'
    exact ⟨fun hor => hmono (fun step hstep => (belowFloor_mono hab hstep).1 hor) hg hg',
      fun hmid => hmono (fun step hstep => (belowFloor_mono hab hstep).2 hmid) hg' hg⟩

end Exact

/-- Two values with four levels. -/
theorem withConfig_sieves_two : Sieves true [1, 2] 0 4 3 SieveConfig.default :=
  withConfig_sieves (by norm_num) (by norm_num)

/-- Without values the step is 1, which is no part of a range of 3; and below zero a higher floor makes the grid finer. -/
theorem sieve_of_no_values_and_below_zero :
    (∃ g, withConfig true ([] : List ℚ) 0 3 4 SieveConfig.default = .ok g ∧ ¬∃ k ≤ 4, g.step = (3 - 0) / 2 ^ k) ∧
      ∃ g g', withConfig true [-3] (-4 : ℚ) (-2) 1 { SieveConfig.default with minStepFrac := some (-10) } = .ok g ∧
        withConfig true [-3] (-4 : ℚ) (-2) 1 { SieveConfig.default with minStepFrac := some 0 } = .ok g' ∧ g'.step < g.step := by
  refine ⟨⟨⟨1, 0, 0, 3, 4⟩, by decide +kernel, ?_⟩, ⟨2, -4, -4, -2, 1⟩, ⟨1, -4, -4, -2, 1⟩, by decide +kernel, by decide +kernel, by norm_num⟩
  rintro ⟨k, hk, heq⟩
  interval_cases k <;> norm_num at heq

end AnalysisGrid

end Opsense
