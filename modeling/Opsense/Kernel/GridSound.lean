import Opsense.Kernel.GridBuild
import Opsense.Lib.Magnitude

/-!
# Grids that can be read

What a grid of doubles needs so that every read of it finds its element (`TradingGrid.Sound`), and the calls that lead to such
grids only.
-/

namespace Opsense

namespace Double

/-- The prices with a step that is not below zero are ascending. -/
theorem prices_ascending {levels : ℕ} (hlevels : levels < 2 ^ 64) {s d : ℚ} (hd : 0 ≤ d) :
    (TradingGrid.prices levels (fin s) (fin d)).Pairwise Le := by
  unfold TradingGrid.prices
  rw [List.pairwise_map]
  refine (List.pairwise_lt_range).imp_of_mem ?_
  intro i j _ hj hlt
  have hj := List.mem_range.mp hj
  refine add_mono ?_
  rw [ofNat_eq (by omega), ofNat_eq (by omega)]
  refine ofRat_mono (mul_le_mul_of_nonneg_right ?_ hd)
  exact roundMag_mono i.cast_nonneg (Nat.cast_le.mpr hlt.le)

/-- The quotient of a rounded number and one that is at least one. -/
theorem ofRat_div {x n : ℚ} (hx : 0 ≤ x) (h : roundMag x < bound) (hn : 1 ≤ n) :
    ∃ r, 0 ≤ r ∧ ofRat (roundMag x / n) = fin r := by
  have hnonneg := roundMag_nonneg hx
  have hdiv : 0 ≤ roundMag x / n := div_nonneg hnonneg (zero_le_one.trans hn)
  have hle : roundMag (roundMag x / n) ≤ roundMag x := by
    calc roundMag (roundMag x / n) ≤ roundMag (roundMag x) := roundMag_mono hdiv (div_le_self hnonneg hn)
      _ = roundMag x := roundMag_roundMag hx
  exact ⟨_, roundMag_nonneg hdiv, ofRat_of_lt hdiv (hle.trans_lt h)⟩

/-- A number that is rounded to a finite double. -/
theorem roundMag_lt_of_isFinite {q : ℚ} (hq : 0 ≤ q) (h : (ofRat q).isFinite = true) : roundMag q < bound := by
  unfold ofRat ofRounded at h
  rw [if_neg (not_lt.mpr hq)] at h
  by_contra hle
  rw [if_pos (not_lt.mp hle)] at h
  cases h

/-- The step of `new` is a finite double that is not below zero. -/
theorem exists_step {a b : ℚ} (hab : a < b) (h : (fin b - fin a).isFinite = true) {n : ℕ} (hn : 1 ≤ n) (hle : n ≤ 2 ^ 64) :
    ∃ r, 0 ≤ r ∧ (fin b - fin a) / Scalar.ofNat n = fin r := by
  have hpos : 0 ≤ b + -a := by linarith
  have hsub : fin b - fin a = ofRat (b + -a) := rfl
  rw [hsub] at h ⊢
  have hlt := roundMag_lt_of_isFinite hpos h
  have hone : 1 ≤ roundMag (n : ℚ) := by
    have hmono : roundMag 1 ≤ roundMag (n : ℚ) := roundMag_mono zero_le_one (Nat.one_le_cast.mpr hn)
    have hone : roundMag 1 = 1 := roundMag_two_zpow (k := 0) (by decide)
    rwa [hone] at hmono
  obtain ⟨r, hr, hdiv⟩ := ofRat_div hpos hlt hone
  refine ⟨r, hr, ?_⟩
  rw [ofNat_eq hle, ofRat_of_lt hpos hlt, ← hdiv]
  exact if_neg (zero_lt_one.trans_le hone).ne'

end Double

namespace TradingGrid

/-- Ascending levels, and for every level a row of weights that is not empty, two probabilities and four counters. -/
structure Sound (g : TradingGrid Double) : Prop where
  ascending : g.levels.Pairwise Double.Le
  weights : g.weights.length = g.levels.length
  rows : ∀ row ∈ g.weights, row ≠ []
  probabilities : g.longWinP.length = g.levels.length ∧ g.shortWinP.length = g.levels.length
  counts : g.orderLongWinCnt.length = g.levels.length ∧ g.orderLongLostCnt.length = g.levels.length ∧
    g.orderShortWinCnt.length = g.levels.length ∧ g.orderShortLostCnt.length = g.levels.length

variable {g : TradingGrid Double}

/-- The reads of a level find their elements. -/
theorem Sound.indexWeight (h : g.Sound) {j : Nat} (hj : j < g.numLevels) (t : Nat) : (g.indexWeight j t).isSome := by
  unfold TradingGrid.indexWeight
  obtain ⟨row, hrow⟩ : ∃ row, g.weights[j]? = some row := ⟨_, List.getElem?_eq_getElem (h.weights.symm ▸ hj)⟩
  have hne := h.rows row (List.mem_of_getElem? hrow)
  have hlen := List.length_pos_of_ne_nil hne
  rw [hrow, Option.bind_some, List.getElem?_eq_getElem (by omega)]
  rfl

theorem fillDefaults_sound {levels : List Double} (h : 2 ≤ levels.length) (hascending : levels.Pairwise Double.Le) :
    (fillDefaults levels h).Sound where
  ascending := hascending
  weights := List.length_replicate
  rows := by
    intro row hrow
    rw [List.eq_of_mem_replicate hrow]
    exact List.cons_ne_nil _ _
  probabilities := ⟨List.length_replicate, List.length_replicate⟩
  counts := ⟨List.length_replicate, List.length_replicate, List.length_replicate, List.length_replicate⟩

/-- The sorted levels are ascending when all of them are numbers. -/
theorem sorted_pairwise {levels : List Double} (h : ∀ x ∈ levels, x ≠ .nan) : (sorted levels).Pairwise Double.Le := by
  -- the order of the sort is total on the numbers only
  obtain ⟨xs, rfl⟩ : ∃ xs : List { x : Double // x ≠ .nan }, levels = xs.map Subtype.val :=
    ⟨levels.attachWith _ h, (List.attachWith_map_subtype_val _).symm⟩
  have hle : ∀ a b : { x : Double // x ≠ .nan }, (Scalar.cmpOrEqual a.1 b.1 != .gt) = true ↔ Double.Le a.1 b.1 := by
    intro a b
    rw [bne_iff_ne, Ne, Double.cmpOrEqual_eq_gt a.2 b.2, not_not]
  have hmap : sorted (xs.map Subtype.val) =
      (xs.mergeSort fun a b => Scalar.cmpOrEqual a.1 b.1 != .gt).map Subtype.val := by
    unfold sorted
    rw [List.map_mergeSort]
    intros
    rfl
  rw [hmap, List.pairwise_map]
  refine (List.pairwise_mergeSort ?_ ?_ xs).imp fun {a b} hab => (hle a b).mp hab
  · intro a b c hab hbc
    exact (hle a c).mpr (Double.le_trans ((hle a b).mp hab) ((hle b c).mp hbc))
  · intro a b
    rw [Bool.or_eq_true, hle, hle]
    exact Double.le_total a.2 b.2

/-- The sorted levels are ascending when all of them are finite. -/
theorem sorted_ascending {levels : List Double} (h : ∀ x ∈ levels, x.isFinite = true) : (sorted levels).Pairwise Double.Le := by
  refine sorted_pairwise fun x hx => ?_
  rintro rfl
  cases h _ hx

theorem expand_sound (h : g.Sound) (base : List Double) (hbase : base.length = g.levels.length) : (g.expand base hbase).Sound where
  ascending := h.ascending
  weights := (List.length_map _).trans hbase
  rows := by
    intro row hrow
    obtain ⟨w, -, rfl⟩ := List.mem_map.mp hrow
    refine List.ne_nil_of_length_pos ?_
    rw [List.length_replicate]
    unfold weightCols
    split_ifs with hpos
    · exact hpos
    · exact Nat.one_pos
  probabilities := h.probabilities
  counts := h.counts

end TradingGrid

namespace GridConstructor

/-- The arguments are finite. -/
def Finite : GridConstructor Double → Prop
  | .new _ min max => min.isFinite = true ∧ max.isFinite = true
  | .fromStep _ start step => start.isFinite = true ∧ step.isFinite = true
  | .centered _ center step => center.isFinite = true ∧ step.isFinite = true
  | .fromLevels levels => ∀ x ∈ levels, x.isFinite = true

/-- The width or the start does not overflow, and the step is above zero. -/
def Upward : GridConstructor Double → Prop
  | .new _ min max => (max - min).isFinite = true
  | .fromStep _ _ step => Scalar.gt step 0.0 = true
  | .centered levels center step => (center - Scalar.ofNat (levels.toNat - 1) / 2.0 * step).isFinite = true
  | .fromLevels _ => True

end GridConstructor

namespace GridBuilder

/-- No empty row of weights is handed in. -/
def RowsFilled : GridBuilder Double → Prop
  | .withWeightMatrix rows => ∀ row ∈ rows, row ≠ []
  | _ => True

variable {exp : Double → Double} {powf : Double → Double → Double} {g : TradingGrid Double}

/-- A call keeps a grid that can be read. -/
theorem apply_sound (h : g.Sound) {b : GridBuilder Double} (hb : b.RowsFilled) : (b.apply exp powf g).Sound := by
  cases b with
  | recordTradeOutcome level is_long pnl_pct =>
    unfold apply TradingGrid.recordTradeOutcome
    dsimp only
    split_ifs <;> exact ⟨h.ascending, h.weights, h.rows, h.probabilities, by simpa using h.counts⟩
  | withOutcomeCounts long_win long_lost short_win short_lost =>
    exact ⟨h.ascending, h.weights, h.rows, h.probabilities, (g.withOutcomeCounts long_win long_lost short_win short_lost).counts_length⟩
  | withSlPct sl_pct => exact ⟨h.ascending, h.weights, h.rows, h.probabilities, h.counts⟩
  | withWeights base =>
    unfold apply TradingGrid.withWeights
    dsimp only
    split_ifs with hlen
    · exact TradingGrid.expand_sound h base _
    · exact h
  | withWeightMatrix rows =>
    unfold apply TradingGrid.withWeightMatrix
    dsimp only
    split_ifs with hlen
    · exact ⟨h.ascending, hlen.trans h.weights, hb, h.probabilities, h.counts⟩
    · exact ⟨h.ascending, hlen.trans h.weights, hb, h.probabilities, h.counts⟩
    · exact h
  | withWeightsNormal sharpness => exact TradingGrid.expand_sound h _ (TradingGrid.weightsNormal_length exp g sharpness)
  | withWeightsUniform => exact TradingGrid.expand_sound h _ g.weightsUniform_length
  | withWeightsLinear ascending => exact TradingGrid.expand_sound h _ (g.weightsLinear_length ascending)
  | withWeightsTrend direction strength =>
    exact TradingGrid.expand_sound h _ (TradingGrid.weightsTrend_length powf g direction strength)
  | withLongWinP long_win_p =>
    unfold apply TradingGrid.withLongWinP
    dsimp only
    split_ifs with hlen
    · exact ⟨h.ascending, h.weights, h.rows, ⟨hlen.trans h.probabilities.1, h.probabilities.2⟩, h.counts⟩
    · exact h
  | withShortWinP short_win_p =>
    unfold apply TradingGrid.withShortWinP
    dsimp only
    split_ifs with hlen
    · exact ⟨h.ascending, h.weights, h.rows, ⟨h.probabilities.1, hlen.trans h.probabilities.2⟩, h.counts⟩
    · exact h
  | withMaxCandles max_candles =>
    refine ⟨h.ascending, (g.withMaxCandles max_candles).weights_length, ?_, h.probabilities, h.counts⟩
    unfold apply TradingGrid.withMaxCandles
    dsimp only
    split_ifs with hmore
    · -- the rows are as long as the columns that are asked for
      intro row hrow
      obtain ⟨row', -, rfl⟩ := List.mem_map.mp hrow
      refine List.ne_nil_of_length_pos ?_
      unfold TradingGrid.resize
      rw [List.length_append, List.length_take, List.length_replicate]
      omega
    · exact h.rows
  | withWinProbabilities long_win_p short_win_p =>
    unfold apply TradingGrid.withWinProbabilities
    dsimp only
    split_ifs with hlen
    · exact ⟨h.ascending, h.weights, h.rows, ⟨hlen.1.trans h.probabilities.1, hlen.2.trans h.probabilities.2⟩, h.counts⟩
    · exact h

end GridBuilder

namespace GridConstructor

theorem fromStep_sound {levels : UInt64} {s d : ℚ} (hd : 0 ≤ d) {g : TradingGrid Double}
    (hg : TradingGrid.fromStep levels.toNat (.fin s) (.fin d) = some g) : g.Sound := by
  unfold TradingGrid.fromStep at hg
  split_ifs at hg
  rw [← Option.some.inj hg]
  exact TradingGrid.fillDefaults_sound _ (Double.prices_ascending levels.toNat_lt hd)

theorem exists_fin {x : Double} (h : x.isFinite = true) : ∃ q, x = .fin q := by
  cases x with
  | fin q => exact ⟨q, rfl⟩
  | _ => cases h

/-- A constructor that goes upward makes a grid that can be read. -/
theorem constructor_sound {c : GridConstructor Double} (hfinite : c.Finite) (hup : c.Upward) {g : TradingGrid Double} (hg : c.run = some g) :
    g.Sound := by
  cases c with
  | new levels min max =>
    obtain ⟨⟨a, rfl⟩, ⟨b, rfl⟩⟩ := And.intro (exists_fin hfinite.1) (exists_fin hfinite.2)
    unfold run TradingGrid.new at hg
    dsimp only at hg
    split_ifs at hg with hnot
    push Not at hnot
    have hlt := levels.toNat_lt
    obtain ⟨r, hr, hstep⟩ := Double.exists_step (Double.partialCmp_gt.mp hnot.2) hup (n := levels.toNat - 1) (by omega) (by omega)
    rw [← Option.some.inj hg]
    refine TradingGrid.fillDefaults_sound _ ?_
    rw [hstep]
    exact Double.prices_ascending hlt hr
  | fromStep levels start step =>
    obtain ⟨⟨s, rfl⟩, ⟨d, rfl⟩⟩ := And.intro (exists_fin hfinite.1) (exists_fin hfinite.2)
    have hpos : 0 < d := by
      have hgt : Scalar.partialCmp (Double.fin d) 0.0 = some .gt := by simpa [Upward, Scalar.gt] using hup
      rw [Double.zero_eq] at hgt
      exact Double.partialCmp_gt.mp hgt
    exact fromStep_sound hpos.le hg
  | centered levels center step =>
    obtain ⟨d, rfl⟩ := exists_fin hfinite.2
    unfold run TradingGrid.centered at hg
    dsimp only at hg
    split_ifs at hg with hnot
    have hpos : 0 ≤ d := by
      push Not at hnot
      have hle := hnot.2
      rw [Double.zero_eq] at hle
      exact (not_le.mp fun h => hle (Double.le_fin.mpr h)).le
    obtain ⟨s, hs⟩ := exists_fin hup
    rw [hs] at hg
    exact fromStep_sound hpos hg
  | fromLevels levels =>
    unfold run TradingGrid.fromLevels at hg
    dsimp only at hg
    split_ifs at hg with hshort
    rw [← Option.some.inj hg]
    exact TradingGrid.fillDefaults_sound _ (TradingGrid.sorted_ascending hfinite)

end GridConstructor

/-- The grids that finite arguments lead to can be read, where the constructor goes upward and no empty row of weights is handed
in. -/
theorem grid_sound (exp : Double → Double) (powf : Double → Double → Double) {c : GridConstructor Double}
    {bs : List (GridBuilder Double)} {g : TradingGrid Double} (hfinite : c.Finite) (hup : c.Upward) (hrows : ∀ b ∈ bs, b.RowsFilled)
    (hg : c.run.map (bs.foldl (GridBuilder.apply exp powf)) = some g) :
    g.Sound ∧ ∀ j < g.numLevels, ∀ t, (g.indexWeight j t).isSome := by
  obtain ⟨g₀, hrun, rfl⟩ := Option.map_eq_some_iff.mp hg
  have hsound : (bs.foldl (GridBuilder.apply exp powf) g₀).Sound := by
    have hstart := GridConstructor.constructor_sound hfinite hup hrun
    clear hg hrun
    induction bs generalizing g₀ with
    | nil => exact hstart
    | cons b bs ih =>
      exact ih (fun b' hb' => hrows b' (List.mem_cons_of_mem _ hb')) _
        (GridBuilder.apply_sound hstart (hrows b List.mem_cons_self))
  exact ⟨hsound, fun j hj t => hsound.indexWeight hj t⟩

/-- Two levels handed in from above, and a wider window. -/
theorem grid_sound_twoLevels :
    ∃ g, ((GridConstructor.fromLevels [Double.fin 110, .fin 100]).run.map
        ([GridBuilder.withMaxCandles 3].foldl (GridBuilder.apply (fun x => x) fun x _ => x))) = some g ∧
      g.Sound ∧ ∀ j < g.numLevels, ∀ t, (g.indexWeight j t).isSome := by
  have hfinite : (GridConstructor.fromLevels [Double.fin 110, .fin 100]).Finite := by
    intro x hx
    rcases List.mem_pair.mp hx with rfl | rfl <;> rfl
  have hrows : ∀ b ∈ [GridBuilder.withMaxCandles (F := Double) 3], b.RowsFilled := by
    intro b hb
    rw [List.mem_singleton.mp hb]
    trivial
  exact ⟨_, rfl, grid_sound (fun x => x) (fun x _ => x) hfinite trivial hrows rfl⟩

/-- A step below zero is taken and the levels descend; a matrix of empty rows is taken and a weight is not found. -/
theorem finite_arguments_break_grid :
    (∃ g, (GridConstructor.fromStep 2 (Double.fin 100) (.fin (-1))).run = some g ∧ ¬g.Sound) ∧
      ∃ g, ((GridConstructor.new 2 (Double.fin 100) (.fin 110)).run.map
        ([GridBuilder.withWeightMatrix [[], []]].foldl (GridBuilder.apply (fun x => x) fun x _ => x))) = some g ∧
      (0 < g.numLevels ∧ g.indexWeight 0 0 = none) := by
  constructor
  · have hlevels : (GridConstructor.fromStep 2 (Double.fin 100) (.fin (-1))).run.map TradingGrid.levels =
        some [.fin 100, .fin 99] := by
      decide +kernel
    obtain ⟨g, hg, hlevels⟩ := Option.map_eq_some_iff.mp hlevels
    refine ⟨g, hg, fun h => ?_⟩
    have hascending := h.ascending
    rw [hlevels] at hascending
    revert hascending
    decide +kernel
  · have hweights : ((GridConstructor.new 2 (Double.fin 100) (.fin 110)).run.map
        ([GridBuilder.withWeightMatrix [[], []]].foldl (GridBuilder.apply (fun x => x) fun x _ => x))).map TradingGrid.weights =
          some [[], []] := by
      decide +kernel
    obtain ⟨g, hg, hweights⟩ := Option.map_eq_some_iff.mp hweights
    refine ⟨g, hg, lt_of_lt_of_le zero_lt_two g.two_le, ?_⟩
    unfold TradingGrid.indexWeight
    rw [hweights]
    rfl

end Opsense
