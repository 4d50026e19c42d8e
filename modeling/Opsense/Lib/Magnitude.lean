import Opsense.Lib.Double

/-!
# Doubles that stay finite

Sums and products of doubles keep the order, as rounding does. What lies between two doubles is rounded to something between them
(`between_ofRat`), so that a bound on the numbers bounds what is computed of them.
-/

namespace Opsense

namespace Double

/-! ## Order -/

variable {p q : ℚ}

theorem partialCmp_gt : Scalar.partialCmp (fin p) (fin q) = some .gt ↔ q < p := by
  have hcmp : Scalar.partialCmp (fin p) (fin q) = some (if p < q then .lt else if p = q then .eq else .gt) := rfl
  rw [hcmp]
  split_ifs with hlt heq
  · simpa using hlt.le
  · simpa using heq.le
  · simpa using lt_of_le_of_ne (not_lt.mp hlt) (Ne.symm heq)

theorem lt_fin : Scalar.lt (fin p) (fin q) = true ↔ p < q := by
  have hcmp : Scalar.partialCmp (fin p) (fin q) = some (if p < q then .lt else if p = q then .eq else .gt) := rfl
  unfold Scalar.lt
  rw [hcmp]
  split_ifs with hlt heq <;> simp [hlt]

theorem gt_fin : Scalar.gt (fin p) (fin q) = true ↔ q < p := by
  unfold Scalar.gt
  rw [beq_iff_eq]
  exact partialCmp_gt

theorem partialCmp_lt : partialCmp (fin p) (fin q) = some .lt ↔ p < q := by
  rw [← lt_fin]
  unfold Scalar.lt
  rw [beq_iff_eq]
  rfl

theorem max_fin (p q : ℚ) : Scalar.max (fin p) (fin q) = fin (Max.max p q) := by
  have hmax : Scalar.max (fin p) (fin q) = if partialCmp (fin p) (fin q) = some .lt then fin q else fin p := rfl
  rw [hmax]
  by_cases h : p < q
  · rw [if_pos (partialCmp_lt.mpr h), max_eq_right h.le]
  · rw [if_neg (partialCmp_lt.not.mpr h), max_eq_left (not_lt.mp h)]

theorem add_mono {s : ℚ} {x y : Double} (h : Le x y) : Le (fin s + x) (fin s + y) := by
  cases x <;> cases y <;> first
    | exact absurd h Bool.false_ne_true
    | rfl
    | exact ofRat_mono (add_le_add_right (le_fin.mp h) s)
    | exact le_posInf (ofRat_ne_nan _)
    | exact negInf_le (ofRat_ne_nan _)

theorem add_mono_right {s : ℚ} {x y : Double} (h : Le x y) : Le (x + fin s) (y + fin s) := by
  have hcomm : ∀ z : Double, z + fin s = fin s + z := by
    intro z
    cases z with
    | fin q => exact congrArg ofRat (add_comm q s)
    | _ => rfl
  rw [hcomm x, hcomm y]
  exact add_mono h

theorem sub_mono {s : ℚ} {x y : Double} (h : Le x y) : Le (x - fin s) (y - fin s) := add_mono_right (s := -s) h

theorem fin_add_fin (p q : ℚ) : fin p + fin q = ofRat (p + q) := rfl

theorem fin_sub_fin (p q : ℚ) : fin p - fin q = ofRat (p - q) := by
  rw [sub_eq_add_neg]
  rfl

theorem fin_mul_fin (p q : ℚ) : fin p * fin q = ofRat (p * q) := rfl

theorem fin_div_fin (h : q ≠ 0) : fin p / fin q = ofRat (p / q) := if_neg h

/-! ## Doubles -/

theorem neg_neg_eq (x : Double) : x.neg.neg = x := by
  cases x with
  | fin q => exact congrArg fin (neg_neg q)
  | _ => rfl

theorem ofRounded_neg (r : ℚ) : ofRounded (-r) = (ofRounded r).neg := by
  have hbound := bound_pos
  unfold ofRounded
  split_ifs <;> first | rfl | (exfalso; linarith)

/-- Rounding does not look at the sign. -/
theorem ofRat_neg (q : ℚ) : ofRat (-q) = (ofRat q).neg := by
  unfold ofRat
  rcases lt_trichotomy q 0 with hq | rfl | hq
  · rw [if_neg (by linarith), if_pos hq, ofRounded_neg, neg_neg_eq]
  · simp [roundMag_zero, ← ofRounded_neg]
  · rw [if_pos (by linarith), if_neg (by linarith), neg_neg, ofRounded_neg]

/-- A rational that is a double. -/
def IsDouble (q : ℚ) : Prop := ofRat q = fin q

theorem IsDouble.neg {q : ℚ} (h : IsDouble q) : IsDouble (-q) := by
  unfold IsDouble
  rw [ofRat_neg, h]
  rfl

theorem isDouble_of_roundMag {q : ℚ} (hq : 0 ≤ q) (h : roundMag q = q) (hlt : q < bound) : IsDouble q := by
  unfold IsDouble
  rw [ofRat_of_lt hq (h.symm ▸ hlt), h]

theorem isDouble_zero : IsDouble 0 := isDouble_of_roundMag le_rfl roundMag_zero bound_pos

theorem isDouble_two_pow {n : ℕ} (h : n ≤ 1023) : IsDouble (2 ^ n) := by
  refine isDouble_of_roundMag (pow_pos two_pos n).le ?_ (pow_lt_pow_right₀ one_lt_two (by omega))
  have hround := roundMag_two_zpow (k := n) (by omega)
  rwa [zpow_natCast] at hround

theorem isDouble_one : IsDouble 1 := by
  have hone := isDouble_two_pow (n := 0) (by decide)
  rwa [pow_zero] at hone

theorem half_eq : (0.5 : Double) = fin (1 / 2) := by decide +kernel

theorem isDouble_half : IsDouble (1 / 2) := by
  unfold IsDouble
  decide +kernel

theorem one_eq : (1.0 : Double) = fin 1 := by decide +kernel

theorem two_eq : (2.0 : Double) = fin 2 := by decide +kernel

theorem ofRounded_eq_fin {q r : ℚ} (h : ofRounded q = fin r) : q = r ∧ q < bound := by
  unfold ofRounded at h
  split_ifs at h with hle hge
  exact ⟨fin.inj h, not_le.mp hle⟩

/-- What a rational is rounded to is a double. -/
theorem isDouble_of_ofRat {q r : ℚ} (h : ofRat q = fin r) : IsDouble r := by
  have hpos : ∀ {q r : ℚ}, 0 ≤ q → ofRat q = fin r → IsDouble r := by
    intro q r hq h
    unfold ofRat at h
    rw [if_neg (not_lt.mpr hq)] at h
    obtain ⟨rfl, hlt⟩ := ofRounded_eq_fin h
    exact isDouble_of_roundMag (roundMag_nonneg hq) (roundMag_roundMag hq) hlt
  rcases le_or_gt 0 q with hq | hq
  · exact hpos hq h
  · have hneg : ofRat (-q) = fin (-r) := by
      rw [ofRat_neg, h]
      rfl
    have hdouble := (hpos (neg_pos.mpr hq).le hneg).neg
    rwa [neg_neg] at hdouble

/-- A number that is not below zero is added to a double. -/
theorem le_add (hp : IsDouble p) (hq : 0 ≤ q) : Le (fin p) (fin p + fin q) := by
  rw [fin_add_fin, ← hp]
  exact ofRat_mono (by linarith)

theorem sub_le (hp : IsDouble p) (hq : 0 ≤ q) : Le (fin p - fin q) (fin p) := by
  rw [fin_sub_fin, ← hp]
  exact ofRat_mono (by linarith)

/-- A finite double between two numbers. -/
def Between (lo hi : ℚ) (x : Double) : Prop := ∃ q, x = fin q ∧ lo ≤ q ∧ q ≤ hi

/-- What lies between two doubles is rounded to a double between them. -/
theorem between_ofRat {lo hi q : ℚ} (hlo : IsDouble lo) (hhi : IsDouble hi) (h : lo ≤ q) (h' : q ≤ hi) :
    Between lo hi (ofRat q) := by
  have hle : Le (fin lo) (ofRat q) := hlo ▸ ofRat_mono h
  have hge : Le (ofRat q) (fin hi) := hhi ▸ ofRat_mono h'
  cases hq : ofRat q with
  | fin r =>
    rw [hq] at hle hge
    exact ⟨r, rfl, le_fin.mp hle, le_fin.mp hge⟩
  | nan => exact absurd hq (ofRat_ne_nan q)
  | negInf =>
    rw [hq] at hle
    exact absurd hle Bool.false_ne_true
  | posInf =>
    rw [hq] at hge
    exact absurd hge Bool.false_ne_true

/-- The sum of two doubles up to a power of two. -/
theorem between_add {n : ℕ} (hn : n + 1 ≤ 1023) (hp : |p| ≤ 2 ^ n) (hq : |q| ≤ 2 ^ n) :
    Between (-2 ^ (n + 1)) (2 ^ (n + 1)) (fin p + fin q) := by
  rw [fin_add_fin]
  have hsum : |p + q| ≤ 2 ^ (n + 1) := by
    calc |p + q| ≤ |p| + |q| := abs_add_le p q
      _ ≤ 2 ^ n + 2 ^ n := add_le_add hp hq
      _ = 2 ^ (n + 1) := by ring
  obtain ⟨hlo, hhi⟩ := abs_le.mp hsum
  exact between_ofRat (isDouble_two_pow hn).neg (isDouble_two_pow hn) hlo hhi

theorem between_sub {n : ℕ} (hn : n + 1 ≤ 1023) (hp : |p| ≤ 2 ^ n) (hq : |q| ≤ 2 ^ n) :
    Between (-2 ^ (n + 1)) (2 ^ (n + 1)) (fin p - fin q) := by
  have hneg : fin p - fin q = fin p + fin (-q) := rfl
  rw [hneg]
  exact between_add hn hp (by rwa [abs_neg])

/-- A part of a double up to a power of two. -/
theorem between_mul {n : ℕ} (hn : n ≤ 1023) {c q : ℚ} (hc : 0 ≤ c) (hc' : c ≤ 1) (hq : |q| ≤ 2 ^ n) :
    Between (-2 ^ n) (2 ^ n) (fin c * fin q) := by
  rw [fin_mul_fin]
  have hmul : |c * q| ≤ 2 ^ n := by
    rw [abs_mul, abs_of_nonneg hc]
    exact (mul_le_of_le_one_left (abs_nonneg q) hc').trans hq
  obtain ⟨hlo, hhi⟩ := abs_le.mp hmul
  exact between_ofRat (isDouble_two_pow hn).neg (isDouble_two_pow hn) hlo hhi

/-- A part of a number that is not below zero. -/
theorem mul_nonneg_of_fin {c q r : ℚ} (hc : 0 ≤ c) (hq : 0 ≤ q) (h : fin c * fin q = fin r) : 0 ≤ r := by
  have hle : Le (ofRat 0) (ofRat (c * q)) := ofRat_mono (mul_nonneg hc hq)
  rw [isDouble_zero, ← fin_mul_fin, h] at hle
  exact le_fin.mp hle

/-- A quotient of two counts of which one is part of the other. -/
theorem between_rate {a b : ℕ} (hab : a ≤ b) (hb : 0 < b) (hfits : b ≤ 2 ^ 64) :
    Between 0 1 ((Scalar.ofNat a : Double) / Scalar.ofNat b) := by
  have hone : 1 ≤ roundMag (b : ℚ) := by
    have hmono : roundMag 1 ≤ roundMag (b : ℚ) := roundMag_mono zero_le_one (Nat.one_le_cast.mpr hb)
    have hround : roundMag 1 = 1 := roundMag_two_zpow (k := 0) (by decide)
    rwa [hround] at hmono
  have hpos : 0 < roundMag (b : ℚ) := zero_lt_one.trans_le hone
  have hle : roundMag (a : ℚ) ≤ roundMag (b : ℚ) := roundMag_mono a.cast_nonneg (Nat.cast_le.mpr hab)
  rw [ofNat_eq (hab.trans hfits), ofNat_eq hfits, fin_div_fin hpos.ne']
  exact between_ofRat isDouble_zero isDouble_one (div_nonneg (roundMag_nonneg a.cast_nonneg) hpos.le) ((div_le_one hpos).mpr hle)

theorem Between.magnitude {n : ℕ} {x : Double} (h : Between (-2 ^ n) (2 ^ n) x) : ∃ q, x = fin q ∧ |q| ≤ 2 ^ n := by
  obtain ⟨q, hx, hlo, hhi⟩ := h
  exact ⟨q, hx, abs_le.mpr ⟨hlo, hhi⟩⟩

end Double

end Opsense
