import Opsense.Kernel.Gate
import Opsense.Kernel.PlanCell

/-!
# A plan rebuilt from a script

`GridPlan::to_grid` and `to_grids` of `opsense-qlib/src/plan.rs`: the grids that the cells of a script describe, each with the outcome
counters of the previous grid that its prices overlap most. No cell knows of the others: a counter is not counted twice, whatever was
counted, exactly if no two cells take the counters of one grid (`rebuild_iff`).
-/

namespace Opsense

/-- Scalars with the lesser of two and the magnitude. -/
class Extrema (F : Type) extends Scalar F where
  /-- `min`, which returns the other argument when one is not a number. -/
  min : F → F → F
  abs : F → F

instance : Extrema ℚ where
  min a b := if a ≤ b then a else b
  abs q := if q < 0 then -q else q

instance : Extrema Double where
  min := Double.min
  abs x := if x.sign? = some true then x.neg else x

/-- A cell of the plan that a script returns. -/
structure GridPlan (F : Type) where
  levels : List F
  slPct : Option F := none
  maxCandles : Option Nat := none
  weights : Option (List F) := none
  weightSharpness : Option F := none
  longWin : Option (List F) := none
  shortWin : Option (List F) := none

/-- The outcome counters of a grid, by level. -/
structure CellStats (F : Type) where
  longWin : List Nat
  longLost : List Nat
  shortWin : List Nat
  shortLost : List Nat
  levels : List F

def CellStats.of {F : Type} [Scalar F] (grid : TradingGrid F) : CellStats F :=
  let n := grid.numLevels
  { longWin := (List.range n).map grid.longWinCount
    longLost := (List.range n).map grid.longLostCount
    shortWin := (List.range n).map grid.shortWinCount
    shortLost := (List.range n).map grid.shortLostCount
    levels := (List.range n).map grid.levelPrice }

namespace GridPlan

variable {F : Type} [Extrema F]

/-- The best previous grid so far: its index, its overlap and the distance of its middle. -/
structure Best (F : Type) where
  idx : Nat
  overlap : F
  dist : F

def overlap (grid old : TradingGrid F) : F := Extrema.min grid.max old.max - Scalar.max grid.min old.min

/-- The distance of the middles. -/
def dist (grid old : TradingGrid F) : F := Extrema.abs ((old.min + old.max) / 2.0 - (grid.min + grid.max) / 2.0)

/-- One round of the search for the previous grid. At first any overlap above zero is better. -/
def matchStep (grid : TradingGrid F) (best : Option (Best F)) (old : TradingGrid F × Nat) : Option (Best F) :=
  let overlap := overlap grid old.1
  if Scalar.le overlap 0.0 then best
  else
    let dist := dist grid old.1
    match best with
    | none => if Scalar.gt overlap 0.0 then some ⟨old.2, overlap, dist⟩ else none
    | some b =>
      if Scalar.gt overlap b.overlap || (Scalar.partialCmp overlap b.overlap == some .eq && Scalar.lt dist b.dist) then
        some ⟨old.2, overlap, dist⟩
      else best

/-- The previous grid that overlaps a grid most, of several the one with the nearest middle. -/
def bestMatch (grid : TradingGrid F) (prev_grids : List (TradingGrid F)) : Option Nat :=
  (prev_grids.zipIdx.foldl (matchStep grid) none).map Best.idx

/-- The grid of a cell, before it gets its counters. -/
def dress (exp : F → F) (plan : GridPlan F) : Option (TradingGrid F) := do
  let levels := plan.levels.filter fun v => Scalar.isFinite v && Scalar.gt v 0.0
  let grid ← TradingGrid.fromLevels levels
  let grid := match plan.slPct with
    | some sl => grid.withSlPct sl
    | none => grid
  let grid := match plan.maxCandles with
    | some mc => grid.withMaxCandles mc
    | none => grid
  let grid := match plan.weights with
    | some w => if w.length = grid.numLevels then grid.withWeights w else grid
    | none => match plan.weightSharpness with
      | some sharp => TradingGrid.withWeightsNormal exp grid sharp
      | none => grid
  let k := grid.numLevels
  let clamp_probs := fun v : Option (List F) => (v.filter fun p => p.length = k).map (List.map TradingGrid.clampUnit)
  match clamp_probs plan.longWin, clamp_probs plan.shortWin with
  | some lw, some sw => some (grid.withWinProbabilities lw sw)
  | _, _ => some grid

/-- A grid with the counters of the previous grid that it overlaps most. -/
def carry (grid : TradingGrid F) (prev_grids : List (TradingGrid F)) : TradingGrid F :=
  match (bestMatch grid prev_grids).bind (prev_grids[·]?) with
  | none => grid
  | some old_grid =>
    let stats := CellStats.of old_grid
    grid.withOutcomeCounts stats.longWin stats.longLost stats.shortWin stats.shortLost

def toGrid (exp : F → F) (plan : GridPlan F) (prev : Option (List (TradingGrid F))) : Option (TradingGrid F) :=
  (dress exp plan).map fun grid => match prev with
    | some prev_grids => carry grid prev_grids
    | none => grid

def toGrids (exp : F → F) (plans : List (GridPlan F)) (prev : List (TradingGrid F)) : List (TradingGrid F) :=
  plans.filterMap fun p => p.toGrid exp (some prev)

end GridPlan

/-! ## Counters -/

inductive Counter where
  | longWin
  | longLost
  | shortWin
  | shortLost
deriving DecidableEq, Repr

namespace TradingGrid

variable {F : Type}

/-- The counter of each level. -/
def counts (g : TradingGrid F) : Counter → List Nat
  | .longWin => g.orderLongWinCnt
  | .longLost => g.orderLongLostCnt
  | .shortWin => g.orderShortWinCnt
  | .shortLost => g.orderShortLostCnt

theorem map_getD_range (l : List Nat) : (List.range l.length).map (fun j => l.getD j 0) = l := by
  refine List.ext_getElem (by simp) fun j _ hj => ?_
  simp [List.getD_eq_getElem?_getD, hj]

/-- The counters that are handed on to a grid. -/
theorem counts_withOutcomeCounts [Scalar F] (g old : TradingGrid F) (c : Counter) :
    (g.withOutcomeCounts (CellStats.of old).longWin (CellStats.of old).longLost (CellStats.of old).shortWin
      (CellStats.of old).shortLost).counts c =
      if old.levels.length = g.levels.length then old.counts c else List.replicate g.levels.length 0 := by
  have hread : ∀ l : List Nat, l.length = old.levels.length → (List.range old.numLevels).map (fun j => l.getD j 0) = l := by
    intro l hl
    rw [numLevels, ← hl, map_getD_range]
  have htake : ∀ l : List Nat, l.length = old.levels.length →
      takeCounts g.levels.length ((List.range old.numLevels).map fun j => l.getD j 0) =
        if old.levels.length = g.levels.length then l else List.replicate g.levels.length 0 := by
    intro l hl
    rw [hread l hl, takeCounts, hl]
  cases c with
  | longWin => exact htake _ old.counts_length.1
  | longLost => exact htake _ old.counts_length.2.1
  | shortWin => exact htake _ old.counts_length.2.2.1
  | shortLost => exact htake _ old.counts_length.2.2.2

/-- The counter of the levels of the grids, summed. -/
def total (c : Counter) (gs : List (TradingGrid F)) : Nat := (gs.map fun g => (g.counts c).sum).sum

/-- The counter of the grid at an index, summed. -/
def countAt (c : Counter) (gs : List (TradingGrid F)) (i : Nat) : Nat := ((gs[i]?.map fun g => g.counts c).getD []).sum

theorem total_eq_range (c : Counter) (gs : List (TradingGrid F)) :
    total c gs = ((List.range gs.length).map (countAt c gs)).sum := by
  have hmap : (List.range gs.length).map (countAt c gs) = gs.map fun g => (g.counts c).sum := by
    refine List.ext_getElem (by simp) fun i _ hi => ?_
    rw [List.length_map] at hi
    simp [countAt, hi]
  rw [total, hmap]

/-- One count at the lowest of the levels, or none. -/
def marks (n : Nat) (marked : Bool) : List Nat := if marked then 1 :: List.replicate (n - 1) 0 else List.replicate n 0

theorem marks_length {n : Nat} (h : 0 < n) (marked : Bool) : (marks n marked).length = n := by
  cases marked
  · simp [marks]
  · simp [marks, Nat.sub_add_cancel h]

theorem marks_sum (n : Nat) (marked : Bool) : (marks n marked).sum = if marked then 1 else 0 := by
  cases marked <;> simp [marks]

/-- The plan with one count in every counter of one of its grids, and no other. -/
def mark (i : Nat) (gs : List (TradingGrid F)) : List (TradingGrid F) :=
  gs.mapIdx fun j g =>
    let n := g.levels.length
    g.withOutcomeCounts (marks n (j == i)) (marks n (j == i)) (marks n (j == i)) (marks n (j == i))

theorem mark_levels (i : Nat) (gs : List (TradingGrid F)) : (mark i gs).map levels = gs.map levels := by
  refine List.ext_getElem (by simp [mark]) fun j _ _ => ?_
  simp [mark, withOutcomeCounts]

theorem countAt_mark {i j : Nat} {gs : List (TradingGrid F)} (hj : j < gs.length) (c : Counter) :
    countAt c (mark i gs) j = if j = i then 1 else 0 := by
  have hlength := marks_length (zero_lt_two.trans_le gs[j].two_le) (j == i)
  have hcounts : ((mark i gs)[j]?.map fun g => g.counts c) = some (marks gs[j].levels.length (j == i)) := by
    unfold mark
    rw [List.getElem?_mapIdx, List.getElem?_eq_getElem hj, Option.map_some, Option.map_some]
    cases c <;> exact congrArg some (if_pos hlength)
  rw [countAt, hcounts, Option.getD_some, marks_sum]
  simp

/-- Every index of a marked plan counts as often as it is the marked one. -/
theorem sum_countAt_mark {i : Nat} {gs : List (TradingGrid F)} (c : Counter) :
    ∀ {l : List Nat}, (∀ j ∈ l, j < gs.length) → (l.map (countAt c (mark i gs))).sum = l.count i := by
  intro l
  induction l with
  | nil =>
    intro _
    rfl
  | cons j l ih =>
    intro hlt
    rw [List.map_cons, List.sum_cons, ih fun k hk => hlt k (List.mem_cons_of_mem j hk), countAt_mark (hlt j List.mem_cons_self),
      List.count_cons, Nat.add_comm]
    simp

/-- The levels are those of exactly one grid, the one at the index. -/
def OnlyAt (gs : List (TradingGrid F)) (i : Nat) (ls : List F) : Prop := ∀ j : Nat, gs[j]?.map levels = some ls ↔ j = i

theorem getElem?_levels {gs gs' : List (TradingGrid F)} (h : gs'.map levels = gs.map levels) (i : Nat) :
    gs'[i]?.map levels = gs[i]?.map levels := by
  rw [← List.getElem?_map, h, List.getElem?_map]

theorem onlyAt_congr {gs gs' : List (TradingGrid F)} (h : gs'.map levels = gs.map levels) (i : Nat) (ls : List F) :
    OnlyAt gs' i ls ↔ OnlyAt gs i ls := by
  unfold OnlyAt
  simp only [getElem?_levels h]

/-- No level has a count. -/
def Fresh (g : TradingGrid F) : Prop := ∀ c, g.counts c = List.replicate g.levels.length 0

theorem fillDefaults_fresh [Scalar F] (levels : List F) (h : 2 ≤ levels.length) : Fresh (fillDefaults levels h) := by
  intro c
  cases c <;> rfl

theorem Fresh.same {g g' : TradingGrid F} (h : Fresh g) (hlevels : g'.levels = g.levels) (hcounts : g'.counts = g.counts) :
    Fresh g' := by
  intro c
  rw [hlevels, hcounts]
  exact h c

theorem withWeights_fresh {g : TradingGrid F} (h : Fresh g) (base : List F) : Fresh (g.withWeights base) := by
  unfold withWeights
  split_ifs
  · exact h.same rfl rfl
  · exact h

theorem withWinProbabilities_fresh {g : TradingGrid F} (h : Fresh g) (long_win_p short_win_p : List F) :
    Fresh (g.withWinProbabilities long_win_p short_win_p) := by
  unfold withWinProbabilities
  split_ifs
  · exact h.same rfl rfl
  · exact h

end TradingGrid

namespace GridPlan

open TradingGrid

variable {F : Type} [Extrema F]

/-! ## The grid that a cell takes the counters of -/

/-- The previous grid that a cell takes the counters of: the one that its grid matches best, if it has as many levels. -/
def takes (exp : F → F) (prev : List (TradingGrid F)) (cell : GridPlan F) : Option Nat :=
  (dress exp cell).bind fun grid => (bestMatch grid prev).filter fun i => prev[i]?.map numLevels = some grid.numLevels

variable {grid : TradingGrid F}

/-- The search looks at the levels of the grids only. -/
theorem matchStep_congr {best : Option (Best F)} {old old' : TradingGrid F} (h : old'.levels = old.levels) (i : Nat) :
    matchStep grid best (old', i) = matchStep grid best (old, i) := by
  have hmin : old'.min = old.min := by simp [TradingGrid.min, h]
  have hmax : old'.max = old.max := by simp [TradingGrid.max, h]
  have hoverlap : overlap grid old' = overlap grid old := by simp only [overlap, hmin, hmax]
  have hdist : dist grid old' = dist grid old := by simp only [dist, hmin, hmax]
  unfold matchStep
  dsimp only
  rw [hoverlap, hdist]

theorem foldl_matchStep_congr (grid : TradingGrid F) : ∀ {prev prev' : List (TradingGrid F)} (n : Nat) (best : Option (Best F)),
    prev'.map TradingGrid.levels = prev.map TradingGrid.levels →
      (prev'.zipIdx n).foldl (matchStep grid) best = (prev.zipIdx n).foldl (matchStep grid) best := by
  intro prev
  induction prev with
  | nil =>
    intro prev' n best h
    rw [List.map_eq_nil_iff.mp h]
  | cons old prev ih =>
    intro prev' n best h
    cases prev' with
    | nil => simp at h
    | cons old' prev' =>
      rw [List.map_cons, List.map_cons, List.cons.injEq] at h
      rw [List.zipIdx_cons, List.zipIdx_cons, List.foldl_cons, List.foldl_cons, matchStep_congr h.1, ih _ _ h.2]

theorem bestMatch_congr (grid : TradingGrid F) {prev prev' : List (TradingGrid F)}
    (h : prev'.map TradingGrid.levels = prev.map TradingGrid.levels) : bestMatch grid prev' = bestMatch grid prev := by
  unfold bestMatch
  rw [foldl_matchStep_congr grid 0 none h]

theorem takes_congr (exp : F → F) {prev prev' : List (TradingGrid F)} (h : prev'.map TradingGrid.levels = prev.map TradingGrid.levels) :
    takes exp prev' = takes exp prev := by
  funext cell
  have hlength : ∀ i : Nat, prev'[i]?.map numLevels = prev[i]?.map numLevels := by
    intro i
    have hi := congrArg (Option.map List.length) (getElem?_levels h i)
    rwa [Option.map_map, Option.map_map] at hi
  unfold takes
  simp only [bestMatch_congr _ h, hlength]

variable {cell : GridPlan F} {exp : F → F} {prev : List (TradingGrid F)}

theorem takes_lt {i : Nat} (h : takes exp prev cell = some i) :
    i < prev.length := by
  unfold takes at h
  obtain ⟨grid, -, hgrid⟩ := Option.bind_eq_some_iff.mp h
  have hlevels := of_decide_eq_true (Option.filter_eq_some_iff.mp hgrid).2
  obtain ⟨old, hold, -⟩ := Option.map_eq_some_iff.mp hlevels
  exact (List.getElem?_eq_some_iff.mp hold).1

/-! ## What a rebuilt grid counts -/

/-- A grid has no counts before it takes those of another one. -/
theorem dress_fresh (h : dress exp cell = some grid) : Fresh grid := by
  unfold dress at h
  obtain ⟨g₀, hlevels, h⟩ := Option.bind_eq_some_iff.mp h
  extract_lets g₁ g₂ g₃ k clamp_probs at h
  have h₀ : Fresh g₀ := by
    unfold fromLevels at hlevels
    split_ifs at hlevels
    rw [← Option.some.inj hlevels]
    exact fillDefaults_fresh _ _
  have h₁ : Fresh g₁ := by
    unfold g₁
    cases cell.slPct with
    | none => exact h₀
    | some sl => exact h₀.same rfl rfl
  have h₂ : Fresh g₂ := by
    unfold g₂
    cases cell.maxCandles with
    | none => exact h₁
    | some mc => exact h₁.same rfl rfl
  have h₃ : Fresh g₃ := by
    unfold g₃
    cases cell.weights with
    | some w =>
      dsimp only
      split_ifs
      · exact withWeights_fresh h₂ w
      · exact h₂
    | none =>
      cases cell.weightSharpness with
      | none => exact h₂
      | some sharp => exact h₂.same rfl rfl
  cases hlong : clamp_probs cell.longWin with
  | none =>
    rw [hlong] at h
    exact Option.some.inj h ▸ h₃
  | some lw =>
    cases hshort : clamp_probs cell.shortWin with
    | none =>
      rw [hlong, hshort] at h
      exact Option.some.inj h ▸ h₃
    | some sw =>
      rw [hlong, hshort] at h
      exact Option.some.inj h ▸ withWinProbabilities_fresh h₃ lw sw

/-- What a rebuilt grid counts. -/
theorem counts_toGrid (h : cell.toGrid exp (some prev) = some grid) (c : Counter) : grid.counts c =
      ((takes exp prev cell).bind (prev[·]?)).elim (List.replicate grid.levels.length 0) fun old => old.counts c := by
  obtain ⟨g, hdress, hcarry⟩ := Option.map_eq_some_iff.mp h
  dsimp only at hcarry
  unfold takes
  rw [hdress, Option.bind_some]
  unfold carry at hcarry
  cases hbest : bestMatch g prev with
  | none =>
    rw [hbest] at hcarry
    subst hcarry
    exact dress_fresh hdress c
  | some i =>
    rw [hbest, Option.bind_some] at hcarry
    cases hold : prev[i]? with
    | none =>
      rw [hold] at hcarry
      subst hcarry
      simpa [Option.filter_some, hold] using dress_fresh hdress c
    | some old =>
      rw [hold] at hcarry
      subst hcarry
      dsimp only
      rw [counts_withOutcomeCounts]
      by_cases hlength : old.levels.length = g.levels.length
      · simp [Option.filter_some, hold, numLevels, hlength]
      · simp [Option.filter_some, hold, numLevels, hlength, withOutcomeCounts]

theorem toGrid_levels (h : cell.toGrid exp (some prev) = some grid) : ∃ g, dress exp cell = some g ∧ grid.levels = g.levels := by
  obtain ⟨g, hdress, hcarry⟩ := Option.map_eq_some_iff.mp h
  refine ⟨g, hdress, ?_⟩
  rw [← hcarry]
  dsimp only
  unfold carry
  cases (bestMatch g prev).bind (prev[·]?) with
  | none => rfl
  | some old => rfl

/-- The sum of a counter of a rebuilt grid. -/
theorem sum_toGrid (h : cell.toGrid exp (some prev) = some grid) (c : Counter) :
    (grid.counts c).sum = ((takes exp prev cell).map (countAt c prev)).getD 0 := by
  rw [counts_toGrid h c]
  cases takes exp prev cell with
  | none => simp
  | some i => cases hold : prev[i]? <;> simp [countAt, hold]

theorem takes_none (h : cell.toGrid exp (some prev) = none) :
    takes exp prev cell = none := by
  unfold takes
  rw [Option.map_eq_none_iff.mp h]
  rfl

/-- The rebuilt plan counts what the cells take. -/
theorem total_toGrids (exp : F → F) (prev : List (TradingGrid F)) (c : Counter) (cells : List (GridPlan F)) :
    total c (toGrids exp cells prev) = ((cells.filterMap (takes exp prev)).map (countAt c prev)).sum := by
  unfold total toGrids
  induction cells with
  | nil => rfl
  | cons cell cells ih =>
    cases hgrid : cell.toGrid exp (some prev) with
    | none =>
      rw [List.filterMap_cons, hgrid, List.filterMap_cons_none (takes_none hgrid)]
      exact ih
    | some grid =>
      rw [List.filterMap_cons, hgrid, List.map_cons, List.sum_cons, ih, sum_toGrid hgrid c]
      cases htakes : takes exp prev cell with
      | none => rw [List.filterMap_cons_none htakes, Option.map_none, Option.getD_none, Nat.zero_add]
      | some i => rw [List.filterMap_cons_some htakes, List.map_cons, List.sum_cons, Option.map_some, Option.getD_some]

/-! ## Every counter once -/

/-- What a rebuild owes to the counters of the previous plan. -/
structure CountsOnce (exp : F → F) (cells : List (GridPlan F)) (prev : List (TradingGrid F)) : Prop where
  conserved : ∀ c, total c (toGrids exp cells prev) ≤ total c prev
  /-- A cell with the levels of exactly one previous grid gets its counters. -/
  carried : ∀ cell ∈ cells, ∀ grid, cell.toGrid exp (some prev) = some grid → ∀ (i : Nat) (old : TradingGrid F),
    prev[i]? = some old → OnlyAt prev i grid.levels → ∀ c, grid.counts c = old.counts c

/-- No two cells take the counters of one grid. -/
def TakenOnce (exp : F → F) (cells : List (GridPlan F)) (prev : List (TradingGrid F)) : Prop :=
  (cells.filterMap (takes exp prev)).Nodup

/-- A cell with the levels of exactly one previous grid takes its counters. -/
def TakesItsOwn (exp : F → F) (cells : List (GridPlan F)) (prev : List (TradingGrid F)) : Prop :=
  ∀ cell ∈ cells, ∀ grid, dress exp cell = some grid → ∀ i, OnlyAt prev i grid.levels → takes exp prev cell = some i

variable {cells : List (GridPlan F)}

theorem lt_of_mem_takes {i : Nat} (h : i ∈ cells.filterMap (takes exp prev)) : i < prev.length := by
  obtain ⟨cell, -, htakes⟩ := List.mem_filterMap.mp h
  exact takes_lt htakes

theorem takenOnce_of_conserved
    (h : ∀ prev' : List (TradingGrid F), prev'.map TradingGrid.levels = prev.map TradingGrid.levels → total .longWin (toGrids exp cells prev') ≤ total .longWin prev') :
    TakenOnce exp cells prev := by
  refine List.nodup_iff_count_le_one.mpr fun i => ?_
  have hmark := mark_levels i prev
  have hlength : (mark i prev).length = prev.length := by simpa using congrArg List.length hmark
  have hle := h _ hmark
  rw [total_toGrids, takes_congr exp hmark, sum_countAt_mark _ fun j => lt_of_mem_takes, total_eq_range, hlength,
    sum_countAt_mark _ fun j => List.mem_range.mp] at hle
  exact hle.trans (List.nodup_iff_count_le_one.mp List.nodup_range i)

/-- What is taken once is counted at most once. -/
theorem conserved_of_takenOnce (h : TakenOnce exp cells prev) (c : Counter) : total c (toGrids exp cells prev) ≤ total c prev := by
  obtain ⟨l, hperm, hsub⟩ := List.subperm_of_subset h fun i hi => List.mem_range.mpr (lt_of_mem_takes hi)
  rw [total_toGrids, total_eq_range, ← (hperm.map (countAt c prev)).sum_eq]
  exact (hsub.map (countAt c prev)).sum_le_sum fun _ _ => Nat.zero_le _

theorem takesItsOwn_of_carried
    (h : ∀ prev' : List (TradingGrid F), prev'.map TradingGrid.levels = prev.map TradingGrid.levels → CountsOnce exp cells prev') :
    TakesItsOwn exp cells prev := by
  intro cell hcell grid hdress i hown
  have hmark := mark_levels i prev
  obtain ⟨old, hold, -⟩ := Option.map_eq_some_iff.mp ((hown i).mpr rfl)
  have hi := (List.getElem?_eq_some_iff.mp hold).1
  obtain ⟨rebuilt, hrebuilt⟩ : ∃ rebuilt, cell.toGrid exp (some (mark i prev)) = some rebuilt :=
    ⟨_, by rw [toGrid, hdress, Option.map_some]⟩
  obtain ⟨g, hg, hlevels⟩ := toGrid_levels hrebuilt
  rw [hdress, Option.some.injEq] at hg
  subst hg
  have hlt : i < (mark i prev).length := by simpa [mark] using hi
  rw [← hlevels, ← onlyAt_congr hmark] at hown
  have hcarried := (h _ hmark).carried cell hcell rebuilt hrebuilt i _ (List.getElem?_eq_getElem hlt) hown .longWin
  have hsum := sum_toGrid hrebuilt .longWin
  have hone := countAt_mark (i := i) hi .longWin
  rw [countAt, List.getElem?_eq_getElem hlt, Option.map_some, Option.getD_some, if_pos rfl, ← hcarried, hsum,
    takes_congr exp hmark] at hone
  -- the only grid with a count is the one the cell should take
  cases htakes : takes exp prev cell with
  | none => simp [htakes] at hone
  | some k =>
    rw [htakes, Option.map_some, Option.getD_some, countAt_mark (takes_lt htakes)] at hone
    simp only [ite_eq_left_iff, zero_ne_one, imp_false, not_not] at hone
    rw [hone]

theorem carried_of_takesItsOwn (h : TakesItsOwn exp cells prev) :
    ∀ cell ∈ cells, ∀ grid, cell.toGrid exp (some prev) = some grid → ∀ (i : Nat) (old : TradingGrid F),
      prev[i]? = some old → OnlyAt prev i grid.levels → ∀ c, grid.counts c = old.counts c := by
  intro cell hcell grid hgrid i old hold hown c
  obtain ⟨g, hdress, hlevels⟩ := toGrid_levels hgrid
  rw [hlevels] at hown
  rw [counts_toGrid hgrid c, h cell hcell g hdress i hown, Option.bind_some, hold, Option.elim_some]

/-- Whatever a previous plan counts, a rebuild counts it once and carries it to the cell with the same levels, exactly if no two cells
take the counters of one grid and a cell takes those of the one grid with its levels. -/
theorem rebuild_iff (exp : F → F) (cells : List (GridPlan F)) (prev : List (TradingGrid F)) :
    (∀ prev' : List (TradingGrid F), prev'.map TradingGrid.levels = prev.map TradingGrid.levels → CountsOnce exp cells prev') ↔
      TakenOnce exp cells prev ∧ TakesItsOwn exp cells prev := by
  constructor
  · intro h
    exact ⟨takenOnce_of_conserved fun prev' hlevels => (h prev' hlevels).conserved _, takesItsOwn_of_carried h⟩
  · rintro ⟨honce, hown⟩ prev' hlevels
    have htakes := takes_congr exp hlevels
    refine ⟨conserved_of_takenOnce ?_, carried_of_takesItsOwn ?_⟩
    · rw [TakenOnce, htakes]
      exact honce
    · intro cell hcell grid hdress i hi
      rw [htakes]
      exact hown cell hcell grid hdress i ((onlyAt_congr hlevels i _).mp hi)

/-! ## Nested ranges -/

/-- The grid of a cell of ascending prices above zero. -/
theorem dress_ascending (exp : Double → Double) {ls : List Double} (h : 2 ≤ ls.length)
    (hpos : ∀ v ∈ ls, (Scalar.isFinite v && Scalar.gt v 0.0) = true) (hascending : ls.Pairwise Double.Le) :
    dress exp { levels := ls } = some (fillDefaults ls h) := by
  have hnan : ∀ v ∈ ls, v ≠ .nan := by
    rintro v hv rfl
    exact absurd (hpos _ hv) (by decide)
  have hfilter : ls.filter (fun v => Scalar.isFinite v && Scalar.gt v 0.0) = ls := List.filter_eq_self.mpr hpos
  have hlevels : fromLevels ls = some (fillDefaults ls h) := by
    unfold fromLevels
    rw [dif_neg (not_lt.mpr h)]
    simp only [(sorted_eq_iff hnan).mpr hascending]
  unfold dress
  dsimp only
  rw [hfilter, hlevels]
  rfl

def outerLevels : List Double := [.fin 98, .fin 100, .fin 102]

def innerLevels : List Double := [.fin 99, .fin 100, .fin 101]

/-- Two grids around one middle, with as many levels. One long trade has been won at the lowest level of the outer one. -/
def nested : List (TradingGrid Double) :=
  [(fillDefaults outerLevels (by decide)).recordTradeOutcome 0 true (.fin 1), fillDefaults innerLevels (by decide)]

/-- Rebuilt as it is, the plan counts the trade in both of its grids. -/
theorem rebuild_counts_twice :
    total .longWin nested = 1 ∧ total .longWin (toGrids id [{ levels := outerLevels }, { levels := innerLevels }] nested) = 2 ∧
      ¬CountsOnce id [{ levels := outerLevels }, { levels := innerLevels }] nested := by
  have hbefore : total .longWin nested = 1 := by decide +kernel
  have houter := dress_ascending id (by decide : 2 ≤ outerLevels.length) (by decide +kernel) (by decide +kernel)
  have hinner := dress_ascending id (by decide : 2 ≤ innerLevels.length) (by decide +kernel) (by decide +kernel)
  have hcarry : toGrids id [{ levels := outerLevels }, { levels := innerLevels }] nested =
      [carry (fillDefaults outerLevels (by decide)) nested, carry (fillDefaults innerLevels (by decide)) nested] := by
    simp [toGrids, toGrid, houter, hinner]
  have hafter : total .longWin (toGrids id [{ levels := outerLevels }, { levels := innerLevels }] nested) = 2 := by
    rw [hcarry]
    decide +kernel
  refine ⟨hbefore, hafter, ?_⟩
  intro honce
  have hle := honce.conserved .longWin
  rw [hbefore, hafter] at hle
  exact absurd hle (by decide)

end GridPlan

end Opsense
