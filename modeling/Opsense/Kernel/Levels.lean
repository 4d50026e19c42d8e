import Opsense.Kernel.GridSound

/-!
# The levels a candle touches

`touched_levels` of `opsense-qlib/src/portfolio.rs` takes the levels between two bounds it searches for; scanning all the levels
finds the same ones exactly on the grids whose levels ascend (`TradingGrid.touched_iff`). One fact about the search carries this:
where the answers along a list fall from yes to no, it ends at the first no (`bisect_partition`).
-/

namespace Opsense

/-- Where the answers fall from yes to no, the search divides the list into them. The elements left and right of the part that is
searched are known. -/
theorem bisect_partition {T : Type} {goRight : T → Bool} {arr : List T}
    (hmono : arr.Pairwise fun a b => goRight b = true → goRight a = true) :
    ∀ {fuel left right : Nat}, right ≤ left + fuel → right ≤ arr.length →
      (∀ (i : Nat) (x : T), i < left → arr[i]? = some x → goRight x = true) →
      (∀ (i : Nat) (x : T), right ≤ i → arr[i]? = some x → goRight x = false) →
      ∀ (i : Nat) (x : T), arr[i]? = some x → (i < bisect goRight arr fuel left right ↔ goRight x = true) := by
  have hearlier : ∀ {i j : Nat} {x y : T}, i ≤ j → arr[i]? = some x → arr[j]? = some y → goRight y = true → goRight x = true := by
    intro i j x y hij hi hj hy
    obtain ⟨hilt, rfl⟩ := List.getElem?_eq_some_iff.mp hi
    obtain ⟨hjlt, rfl⟩ := List.getElem?_eq_some_iff.mp hj
    rcases hij.eq_or_lt with rfl | hlt
    · exact hy
    · exact List.pairwise_iff_getElem.mp hmono i j hilt hjlt hlt hy
  intro fuel
  induction fuel with
  | zero =>
    intro left right hfuel _ hbelow habove i x hx
    refine ⟨fun hi => hbelow i x hi hx, fun hgo => ?_⟩
    by_contra hge
    have hno := habove i x (by simp only [bisect] at hge; omega) hx
    rw [hno] at hgo
    cases hgo
  | succ fuel ih =>
    intro left right hfuel hright hbelow habove i x hx
    unfold bisect
    split
    case isTrue hlt =>
      obtain ⟨y, hy⟩ : ∃ y, arr[left + (right - left) / 2]? = some y := ⟨_, List.getElem?_eq_getElem (by omega)⟩
      dsimp only
      rw [hy, Option.map_some, Option.getD_some]
      split
      case isTrue hgo =>
        refine ih (by omega) hright ?_ habove i x hx
        intro k z hk hz
        exact hearlier (by omega) hz hy hgo
      case isFalse hgo =>
        refine ih (by omega) (by omega) hbelow ?_ i x hx
        intro k z hk hz
        exact Bool.eq_false_iff.mpr fun hz' => hgo (hearlier hk hy hz hz')
    case isFalse hge =>
      refine ⟨fun hi => hbelow i x hi hx, fun hgo => ?_⟩
      by_contra hle
      have hno := habove i x (by omega) hx
      rw [hno] at hgo
      cases hgo

/-- Nothing is known of the elements outside of the whole list. -/
theorem bisect_all {T : Type} {goRight : T → Bool} {arr : List T}
    (hmono : arr.Pairwise fun a b => goRight b = true → goRight a = true) {i : Nat} {x : T} (hx : arr[i]? = some x) :
    i < bisect goRight arr arr.length 0 arr.length ↔ goRight x = true := by
  refine bisect_partition hmono (Nat.le_add_left _ _) le_rfl ?_ ?_ i x hx
  · intro k z hk
    exact absurd hk (Nat.not_lt_zero k)
  · intro k z hk hz
    rw [List.getElem?_eq_none hk] at hz
    cases hz

/-! ## The scan -/

/-- The levels within the range of a candle, one after the other. -/
def scanLevels {F : Type} [Scalar F] (levels : List F) (low high : F) : List Nat :=
  (List.range levels.length).filter fun i => (levels[i]?).any fun level => Scalar.le low level && Scalar.le level high

/-- The positions from the one bound to the other. -/
def touchedList {F : Type} [Scalar F] (levels : List F) (low high : F) : List Nat :=
  List.range' (touchedLevels levels low high).1 ((touchedLevels levels low high).2 - (touchedLevels levels low high).1)

theorem mem_touchedList {F : Type} [Scalar F] {levels : List F} {low high : F} {i : Nat} :
    i ∈ touchedList levels low high ↔
      lowerBound levels low Scalar.cmpOrEqual ≤ i ∧ i < upperBound levels high Scalar.cmpOrEqual := by
  unfold touchedList touchedLevels
  rw [List.mem_range'_1]
  omega

theorem mem_scanLevels {levels : List Double} {low high : Double} {i : Nat} :
    i ∈ scanLevels levels low high ↔ ∃ level, levels[i]? = some level ∧ Double.Le low level ∧ Double.Le level high := by
  unfold scanLevels
  rw [List.mem_filter, List.mem_range]
  constructor
  · rintro ⟨hi, hany⟩
    rw [List.getElem?_eq_getElem hi, Option.any_some, Bool.and_eq_true] at hany
    exact ⟨_, List.getElem?_eq_getElem hi, hany⟩
  · rintro ⟨level, hlevel, hlow, hhigh⟩
    obtain ⟨hi, -⟩ := List.getElem?_eq_some_iff.mp hlevel
    refine ⟨hi, ?_⟩
    rw [hlevel, Option.any_some, Bool.and_eq_true]
    exact ⟨hlow, hhigh⟩

/-- Both lists are in ascending order, so they are equal when they have the same positions. -/
theorem touchedList_eq_iff {levels : List Double} {low high : Double} :
    touchedList levels low high = scanLevels levels low high ↔
      ∀ i, i ∈ touchedList levels low high ↔ i ∈ scanLevels levels low high := by
  constructor
  · intro h i
    rw [h]
  · intro h
    refine List.Pairwise.eq_of_mem_iff (r := (· < ·)) ?_ ?_ fun i => h i
    · exact List.pairwise_lt_range'
    · exact List.pairwise_lt_range.filter _

namespace TradingGrid

variable {levels : List Double} {low high : Double}

/-- Two levels of which the earlier one is not below the later one: a candle between them covers both, and the part from the
first bound of a candle at the upper one to the second bound still holds the lower one. -/
theorem le_of_touched {i j : Nat} {a b : Double} (ha : levels[i]? = some a) (hb : levels[j]? = some b) (hij : i < j)
    (h : ∀ low high : Double, Double.Le low high → touchedList levels low high = scanLevels levels low high)
    (hle : Double.Le b a) : Double.Le a b := by
  obtain ⟨hbnan, hanan⟩ := Double.ne_nan_of_le hle
  have hmem : ∀ k, k ∈ touchedList levels b a ↔ k ∈ scanLevels levels b a := touchedList_eq_iff.mp (h b a hle)
  have hself : ∀ k, k ∈ touchedList levels a a ↔ k ∈ scanLevels levels a a := touchedList_eq_iff.mp (h a a (Double.le_refl hanan))
  have hj := (mem_touchedList.mp ((hmem j).mpr (mem_scanLevels.mpr ⟨b, hb, Double.le_refl hbnan, hle⟩))).2
  have hi := (mem_touchedList.mp ((hself i).mpr (mem_scanLevels.mpr ⟨a, ha, Double.le_refl hanan, Double.le_refl hanan⟩))).1
  obtain ⟨level, hlevel, hlow, -⟩ := mem_scanLevels.mp ((hself j).mp (mem_touchedList.mpr ⟨hi.trans hij.le, hj⟩))
  rw [hb, Option.some.injEq] at hlevel
  rwa [hlevel]

/-- A candle without bounds covers every level. -/
theorem ne_nan_of_touched {i : Nat} {a : Double} (ha : levels[i]? = some a)
    (h : ∀ low high : Double, Double.Le low high → touchedList levels low high = scanLevels levels low high) : a ≠ .nan := by
  have hlow : ∀ x : Double, (Scalar.cmpOrEqual .negInf x == .gt) = false := by
    intro x
    cases x <;> rfl
  have hhigh : ∀ x : Double, (Scalar.cmpOrEqual .posInf x != .lt) = true := by
    intro x
    cases x <;> rfl
  have hmono : levels.Pairwise fun x y : Double =>
      (Scalar.cmpOrEqual .negInf y == .gt) = true → (Scalar.cmpOrEqual .negInf x == .gt) = true := by
    refine List.pairwise_of_forall fun x y hgt => ?_
    rw [hlow] at hgt
    cases hgt
  have hi : i ∈ touchedList levels .negInf .posInf := by
    rw [mem_touchedList]
    constructor
    · refine not_lt.mp fun hlt => ?_
      have hgt := (bisect_all hmono ha).mp hlt
      rw [hlow] at hgt
      cases hgt
    · exact (bisect_all (List.pairwise_of_forall fun x _ _ => hhigh x) ha).mpr (hhigh a)
  obtain ⟨level, hlevel, hle, -⟩ := mem_scanLevels.mp ((touchedList_eq_iff.mp (h .negInf .posInf rfl) i).mp hi)
  rw [ha, Option.some.injEq] at hlevel
  rw [hlevel]
  exact (Double.ne_nan_of_le hle).2

/-- Ascending levels, of which there are at least two, are numbers. -/
theorem ne_nan_of_ascending (hlen : 2 ≤ levels.length) (h : levels.Pairwise Double.Le) : ∀ x ∈ levels, x ≠ .nan := by
  match levels, hlen, h with
  | a :: b :: rest, _, h =>
    have hab := List.rel_of_pairwise_cons h List.mem_cons_self
    intro x hx
    rcases List.mem_cons.mp hx with rfl | hx
    · exact (Double.ne_nan_of_le hab).1
    · exact (Double.ne_nan_of_le (List.rel_of_pairwise_cons h hx)).2

theorem touched_of_ascending (hlen : 2 ≤ levels.length) (h : levels.Pairwise Double.Le) (hle : Double.Le low high) :
    touchedList levels low high = scanLevels levels low high := by
  obtain ⟨hlow, hhigh⟩ := Double.ne_nan_of_le hle
  have hnan := ne_nan_of_ascending hlen h
  have hbelow : levels.Pairwise fun x y : Double =>
      (Scalar.cmpOrEqual low y == .gt) = true → (Scalar.cmpOrEqual low x == .gt) = true := by
    refine h.imp_of_mem fun {x y} hx hy hxy => ?_
    rw [beq_iff_eq, beq_iff_eq, Double.cmpOrEqual_eq_gt hlow (hnan y hy), Double.cmpOrEqual_eq_gt hlow (hnan x hx)]
    exact fun hnot hlx => hnot (Double.le_trans hlx hxy)
  have habove : levels.Pairwise fun x y : Double =>
      (Scalar.cmpOrEqual high y != .lt) = true → (Scalar.cmpOrEqual high x != .lt) = true := by
    refine h.imp_of_mem fun {x y} hx hy hxy => ?_
    rw [bne_iff_ne, bne_iff_ne, Double.cmpOrEqual_ne_lt hhigh (hnan y hy), Double.cmpOrEqual_ne_lt hhigh (hnan x hx)]
    exact Double.le_trans hxy
  refine touchedList_eq_iff.mpr fun i => ?_
  rw [mem_touchedList, mem_scanLevels]
  by_cases hi : i < levels.length
  · have hx : levels[i]? = some levels[i] := List.getElem?_eq_getElem hi
    have hnanx := hnan _ (List.getElem_mem hi)
    have hlower : i < lowerBound levels low Scalar.cmpOrEqual ↔ ¬Double.Le low levels[i] := by
      rw [← Double.cmpOrEqual_eq_gt hlow hnanx, ← beq_iff_eq]
      exact bisect_all hbelow hx
    have hupper : i < upperBound levels high Scalar.cmpOrEqual ↔ Double.Le levels[i] high := by
      rw [← Double.cmpOrEqual_ne_lt hhigh hnanx, ← bne_iff_ne]
      exact bisect_all habove hx
    rw [hupper, ← not_lt, hlower, not_not]
    simp [hx]
  · have hnone : levels[i]? = none := List.getElem?_eq_none (not_lt.mp hi)
    have hupper : upperBound levels high Scalar.cmpOrEqual ≤ levels.length := bisect_le (Nat.zero_le _)
    refine iff_of_false (fun hmem => absurd (hmem.2.trans_le hupper) hi) ?_
    rintro ⟨level, hlevel, -⟩
    rw [hnone] at hlevel
    cases hlevel

/-- The search finds what the scan finds for every candle exactly when the levels ascend. -/
theorem touched_iff (g : TradingGrid Double) :
    (∀ low high : Double, Double.Le low high → touchedList g.levels low high = scanLevels g.levels low high) ↔
      g.levels.Pairwise Double.Le := by
  constructor
  · intro h
    refine List.pairwise_iff_getElem.mpr fun i j hi hj hij => ?_
    have ha : g.levels[i]? = some g.levels[i] := List.getElem?_eq_getElem hi
    have hb : g.levels[j]? = some g.levels[j] := List.getElem?_eq_getElem hj
    rcases Double.le_total (ne_nan_of_touched ha h) (ne_nan_of_touched hb h) with hle | hle
    · exact hle
    · exact le_of_touched ha hb hij h hle
  · intro h low high hle
    exact touched_of_ascending g.two_le h hle

end TradingGrid

/-- A step below zero makes levels that descend, and a candle around the first of them finds none. -/
theorem descending_levels_not_touched :
    ∃ g, (GridConstructor.fromStep 3 (Double.fin 10) (.fin (-1))).run = some g ∧
      Double.Le (.fin (19 / 2)) (.fin (21 / 2)) ∧
      touchedList g.levels (.fin (19 / 2)) (.fin (21 / 2)) = [] ∧ scanLevels g.levels (.fin (19 / 2)) (.fin (21 / 2)) = [0] := by
  have hlevels : (GridConstructor.fromStep 3 (Double.fin 10) (.fin (-1))).run.map TradingGrid.levels =
      some [.fin 10, .fin 9, .fin 8] := by
    decide +kernel
  obtain ⟨g, hg, hlevels⟩ := Option.map_eq_some_iff.mp hlevels
  refine ⟨g, hg, by decide +kernel, ?_⟩
  rw [hlevels]
  decide +kernel

end Opsense
