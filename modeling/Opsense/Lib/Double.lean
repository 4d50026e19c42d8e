import Mathlib
import Opsense.Lib.Scalar

/-!
# Doubles

IEEE 754 binary64 over the rationals: the result of an operation on finite numbers is the exact result, rounded to the nearest
double, of two the one with an even significand (`Double.ofRat`). The two zeros are one, and a finite number may carry any
rational, of which the doubles are some. Rounding keeps the order (`roundMag_mono`) and what has been rounded is left as it is
(`roundMag_roundMag`).
-/

namespace Opsense

/-- The nearest integer, of two the even one. -/
def roundEven (x : ℚ) : ℤ :=
  let below := ⌊x⌋
  if x - below < 1 / 2 then below
  else if 1 / 2 < x - below then below + 1
  else if below % 2 = 0 then below else below + 1

theorem roundEven_intCast (n : ℤ) : roundEven n = n := by
  unfold roundEven
  simp

theorem roundEven_mono {x y : ℚ} (h : x ≤ y) : roundEven x ≤ roundEven y := by
  have hfloor := Int.floor_le_floor h
  have hx : roundEven x ≤ ⌊x⌋ + 1 := by
    unfold roundEven
    dsimp only
    split_ifs <;> omega
  have hy : ⌊y⌋ ≤ roundEven y := by
    unfold roundEven
    dsimp only
    split_ifs <;> omega
  rcases lt_or_eq_of_le hfloor with hlt | heq
  · omega
  · unfold roundEven
    rw [heq]
    dsimp only
    split_ifs <;> first | omega | linarith

theorem roundEven_nonneg {x : ℚ} (h : 0 ≤ x) : 0 ≤ roundEven x := by
  have := roundEven_mono h
  rwa [← Int.cast_zero, roundEven_intCast] at this

/-- The exponent of the last place of a double near `x`. -/
def exponentOf (x : ℚ) : ℤ := max (Int.log 2 x - 52) (-1074)

/-- The multiple of the last place that is nearest to a magnitude, without a bound on its exponent. -/
def roundMag (x : ℚ) : ℚ := roundEven (x / 2 ^ exponentOf x) * 2 ^ exponentOf x

theorem two_zpow_pos (k : ℤ) : (0 : ℚ) < 2 ^ k := zpow_pos two_pos k

/-- A multiple of the last place is left as it is. -/
theorem roundMag_mul {x : ℚ} {m k : ℤ} (hx : x = m * 2 ^ k) (hk : exponentOf x ≤ k) : roundMag x = x := by
  obtain ⟨n, hn⟩ := Int.le.dest hk
  have hdiv : x / 2 ^ exponentOf x = ((m * 2 ^ n : ℤ) : ℚ) := by
    rw [div_eq_iff (two_zpow_pos _).ne']
    push_cast
    rw [mul_assoc, ← zpow_natCast, ← zpow_add₀ two_ne_zero, add_comm, hn]
    exact hx
  unfold roundMag
  rw [hdiv, roundEven_intCast, ← hdiv, div_mul_cancel₀ _ (two_zpow_pos _).ne']

theorem roundMag_zero : roundMag 0 = 0 := by
  unfold roundMag
  rw [zero_div, ← Int.cast_zero, roundEven_intCast, Int.cast_zero, zero_mul]

theorem roundMag_nonneg {x : ℚ} (h : 0 ≤ x) : 0 ≤ roundMag x :=
  mul_nonneg (Int.cast_nonneg (roundEven_nonneg (div_nonneg h (two_zpow_pos _).le))) (two_zpow_pos _).le

/-- A multiple of the last place that is not below a magnitude is not below what it is rounded to. -/
theorem roundMag_le {x : ℚ} {n : ℕ} (h : x ≤ 2 ^ (exponentOf x + n)) : roundMag x ≤ 2 ^ (exponentOf x + n) := by
  have hpow : (2 : ℚ) ^ (exponentOf x + n) = ((2 ^ n : ℤ) : ℚ) * 2 ^ exponentOf x := by
    push_cast
    rw [zpow_add₀ two_ne_zero, mul_comm, zpow_natCast]
  rw [hpow] at h ⊢
  have hdiv := roundEven_mono ((div_le_iff₀ (two_zpow_pos _)).mpr h)
  rw [roundEven_intCast] at hdiv
  exact mul_le_mul_of_nonneg_right (Int.cast_le.mpr hdiv) (two_zpow_pos _).le

theorem le_roundMag {x : ℚ} {n : ℕ} (h : 2 ^ (exponentOf x + n) ≤ x) : 2 ^ (exponentOf x + n) ≤ roundMag x := by
  have hpow : (2 : ℚ) ^ (exponentOf x + n) = ((2 ^ n : ℤ) : ℚ) * 2 ^ exponentOf x := by
    push_cast
    rw [zpow_add₀ two_ne_zero, mul_comm, zpow_natCast]
  rw [hpow] at h ⊢
  have hdiv := roundEven_mono ((le_div_iff₀ (two_zpow_pos _)).mpr h)
  rw [roundEven_intCast] at hdiv
  exact mul_le_mul_of_nonneg_right (Int.cast_le.mpr hdiv) (two_zpow_pos _).le

theorem lt_two_zpow_exponentOf (x : ℚ) : x < 2 ^ (exponentOf x + 53) := by
  have hlt := Int.lt_zpow_succ_log_self (b := 2) Nat.one_lt_two x
  refine hlt.trans_le ?_
  rw [Nat.cast_ofNat]
  refine zpow_le_zpow_right₀ one_le_two ?_
  have := le_max_left (Int.log 2 x - 52) (-1074)
  unfold exponentOf
  omega

theorem exponentOf_mono {x y : ℚ} (hx : 0 < x) (h : x ≤ y) : exponentOf x ≤ exponentOf y :=
  max_le_max_right _ (Int.sub_le_sub_right (Int.log_mono_right hx h) 52)

/-- The magnitudes from a power of two on that has a larger last place. -/
theorem two_zpow_le_of_exponentOf {x y : ℚ} (hy : 0 < y) (h : exponentOf x < exponentOf y) : 2 ^ (exponentOf y + 52) ≤ y := by
  have hle := Int.zpow_log_le_self (b := 2) Nat.one_lt_two hy
  rw [Nat.cast_ofNat] at hle
  have hexp : exponentOf y = Int.log 2 y - 52 := by
    unfold exponentOf at h ⊢
    omega
  rwa [hexp, sub_add_cancel]

/-- Rounding keeps the order. -/
theorem roundMag_mono {x y : ℚ} (hx : 0 ≤ x) (h : x ≤ y) : roundMag x ≤ roundMag y := by
  rcases hx.eq_or_lt with rfl | hx
  · rw [roundMag_zero]
    exact roundMag_nonneg h
  rcases (exponentOf_mono hx h).eq_or_lt with heq | hlt
  · unfold roundMag
    rw [heq]
    have hdiv := roundEven_mono (div_le_div_of_nonneg_right h (two_zpow_pos (exponentOf y)).le)
    exact mul_le_mul_of_nonneg_right (Int.cast_le.mpr hdiv) (two_zpow_pos _).le
  · -- a power of two is between them
    have hy := le_roundMag (n := 52) (two_zpow_le_of_exponentOf (hx.trans_le h) hlt)
    have hbetween : x ≤ 2 ^ (exponentOf x + 53) := (lt_two_zpow_exponentOf x).le
    calc roundMag x ≤ 2 ^ (exponentOf x + 53) := roundMag_le (n := 53) hbetween
      _ ≤ 2 ^ (exponentOf y + 52) := zpow_le_zpow_right₀ one_le_two (by omega)
      _ ≤ roundMag y := hy

/-- What has been rounded is left as it is. -/
theorem roundMag_roundMag {x : ℚ} (hx : 0 ≤ x) : roundMag (roundMag x) = roundMag x := by
  rcases (roundMag_nonneg hx).eq_or_lt with hzero | hpos
  · rw [← hzero, roundMag_zero]
  rcases le_or_gt (exponentOf (roundMag x)) (exponentOf x) with hle | hgt
  · exact roundMag_mul (m := roundEven (x / 2 ^ exponentOf x)) rfl hle
  · -- it is the power of two above
    have hlow := two_zpow_le_of_exponentOf hpos hgt
    have hhigh : roundMag x ≤ 2 ^ (exponentOf x + 53) := roundMag_le (n := 53) (lt_two_zpow_exponentOf x).le
    have hexp : exponentOf (roundMag x) + 52 ≤ exponentOf x + 53 :=
      (zpow_le_zpow_iff_right₀ one_lt_two).mp (hlow.trans hhigh)
    have heq : exponentOf (roundMag x) = exponentOf x + 1 := by omega
    have hpow : roundMag x = 2 ^ (exponentOf x + 53) := by
      refine le_antisymm hhigh ?_
      rw [heq, add_assoc] at hlow
      exact hlow
    refine roundMag_mul (m := 1) (k := exponentOf x + 53) ?_ (by omega)
    rw [Int.cast_one, one_mul, hpow]

theorem exponentOf_two_zpow {k : ℤ} (h : -1074 ≤ k) : exponentOf (2 ^ k) ≤ k := by
  have hlog : Int.log 2 ((2 : ℚ) ^ k) = k := by
    have := Int.log_zpow (R := ℚ) (b := 2) Nat.one_lt_two k
    rwa [Nat.cast_ofNat] at this
  unfold exponentOf
  omega

theorem roundMag_two_zpow {k : ℤ} (h : -1074 ≤ k) : roundMag (2 ^ k) = 2 ^ k := by
  refine roundMag_mul (m := 1) (k := k) ?_ (exponentOf_two_zpow h)
  rw [Int.cast_one, one_mul]

/-- A double; `fin` carries its value. -/
inductive Double where
  | nan
  | negInf
  | fin (q : ℚ)
  | posInf
deriving DecidableEq

namespace Double

/-- The bound of the finite doubles. -/
def bound : ℚ := 2 ^ 1024

theorem bound_pos : 0 < bound := pow_pos two_pos 1024

/-- A rounded value as a double. -/
def ofRounded (q : ℚ) : Double := if bound ≤ q then posInf else if q ≤ -bound then negInf else fin q

/-- The double nearest to a rational. -/
def ofRat (q : ℚ) : Double := ofRounded (if q < 0 then -roundMag (-q) else roundMag q)

def isFinite : Double → Bool
  | fin _ => true
  | _ => false

/-- The infinity with the sign of a number that is not zero. -/
def infOf (negative : Bool) : Double := if negative then negInf else posInf

/-- The sign of a number; not-a-number and zero have none. -/
def sign? : Double → Option Bool
  | nan => none
  | negInf => some true
  | posInf => some false
  | fin q => if q = 0 then none else some (q < 0)

def neg : Double → Double
  | nan => nan
  | negInf => posInf
  | fin q => fin (-q)
  | posInf => negInf

def add : Double → Double → Double
  | fin p, fin q => ofRat (p + q)
  | nan, _ | _, nan | negInf, posInf | posInf, negInf => nan
  | negInf, _ | _, negInf => negInf
  | posInf, _ | _, posInf => posInf

def sub (a b : Double) : Double := add a (neg b)

/-- An infinity with a number that has a sign is an infinity. -/
def infMul (a b : Double) : Double :=
  match a.sign?, b.sign? with
  | some s, some t => infOf (s != t)
  | _, _ => nan

def mul : Double → Double → Double
  | fin p, fin q => ofRat (p * q)
  | a, b => infMul a b

/-- The zero is one above zero. -/
def div : Double → Double → Double
  | fin p, fin q =>
    if q = 0 then (match (fin p).sign? with
      | some s => infOf s
      | none => nan)
    else ofRat (p / q)
  | nan, _ | _, nan => nan
  | fin _, _ => fin 0
  | a, fin q => if q < 0 then neg a else a
  | _, _ => nan

def partialCmp : Double → Double → Option Ordering
  | nan, _ | _, nan => none
  | fin p, fin q => some (if p < q then .lt else if p = q then .eq else .gt)
  | negInf, negInf | posInf, posInf => some .eq
  | negInf, _ | _, posInf => some .lt
  | _, negInf | posInf, _ => some .gt

def max : Double → Double → Double
  | nan, b => b
  | a, nan => a
  | a, b => if partialCmp a b = some .lt then b else a

def min : Double → Double → Double
  | nan, b => b
  | a, nan => a
  | a, b => if partialCmp b a = some .lt then b else a

/-- The double of its bits: a sign, eleven bits of an exponent and 52 bits of a significand. -/
def ofBits (bits : UInt64) : Double :=
  let n := bits.toNat
  let exponent := n / 2 ^ 52 % 2 ^ 11
  let fraction := n % 2 ^ 52
  if exponent = 2047 then
    if fraction ≠ 0 then nan else infOf (2 ^ 63 ≤ n)
  else
    let significand := if exponent = 0 then fraction else fraction + 2 ^ 52
    let magnitude : ℚ := (significand * 2 ^ (exponent - 1) : ℕ) / (2 ^ 1074 : ℕ)
    fin (if n < 2 ^ 63 then magnitude else -magnitude)

def fixed (decimals : Nat) : Double → String
  | nan => "NaN"
  | negInf => "-inf"
  | fin q => ratFixed decimals q
  | posInf => "inf"

instance : Scalar Double where
  add := add
  sub := sub
  mul := mul
  div := div
  ofScientific m negative e := ofRat (OfScientific.ofScientific m negative e)
  partialCmp := partialCmp
  isFinite := isFinite
  max := max
  ofNat n := ofRat n
  fixed := fixed

/-! ## Order -/

/-- `a <= b` -/
def Le (a b : Double) : Prop := Scalar.le a b = true

instance (a b : Double) : Decidable (Le a b) := by
  unfold Le; infer_instance

@[simp] theorem le_fin {p q : ℚ} : Le (fin p) (fin q) ↔ p ≤ q := by
  have hcmp : Scalar.partialCmp (fin p) (fin q) = some (if p < q then .lt else if p = q then .eq else .gt) := rfl
  unfold Le Scalar.le
  rw [hcmp]
  split_ifs with hlt heq
  · simp [hlt.le]
  · simp [heq]
  · have : ¬p ≤ q := fun hle => (lt_or_eq_of_le hle).elim hlt heq
    simp [this]

theorem le_posInf {a : Double} (h : a ≠ nan) : Le a posInf := by
  cases a
  · exact absurd rfl h
  all_goals rfl

theorem negInf_le {a : Double} (h : a ≠ nan) : Le negInf a := by
  cases a
  · exact absurd rfl h
  all_goals rfl

theorem le_refl {a : Double} (h : a ≠ nan) : Le a a := by
  cases a
  · exact absurd rfl h
  · rfl
  · exact le_fin.mpr le_rfl
  · rfl

theorem le_trans {a b c : Double} (hab : Le a b) (hbc : Le b c) : Le a c := by
  cases a <;> cases b <;> cases c <;> first
    | exact absurd hab Bool.false_ne_true
    | exact absurd hbc Bool.false_ne_true
    | rfl
    | exact le_fin.mpr ((le_fin.mp hab).trans (le_fin.mp hbc))

theorem ne_nan_of_le {a b : Double} (h : Le a b) : a ≠ nan ∧ b ≠ nan := by
  cases a <;> cases b <;> first
    | exact absurd h Bool.false_ne_true
    | exact ⟨nofun, nofun⟩

theorem le_total {a b : Double} (ha : a ≠ nan) (hb : b ≠ nan) : Le a b ∨ Le b a := by
  cases a <;> cases b <;> first
    | exact absurd rfl ha
    | exact absurd rfl hb
    | exact .inl rfl
    | exact .inr rfl
    | exact (LinearOrder.le_total _ _).imp le_fin.mpr le_fin.mpr

theorem cmpOrEqual_fin (p q : ℚ) :
    Scalar.cmpOrEqual (fin p) (fin q) = if p < q then .lt else if p = q then .eq else .gt := rfl

theorem cmpOrEqual_eq_gt {a b : Double} (ha : a ≠ nan) (hb : b ≠ nan) : Scalar.cmpOrEqual a b = .gt ↔ ¬Le a b := by
  cases a <;> cases b <;> first
    | exact absurd rfl ha
    | exact absurd rfl hb
    | exact iff_of_true rfl Bool.false_ne_true
    | exact iff_of_false Ordering.noConfusion fun h => h rfl
    | skip
  rw [cmpOrEqual_fin, le_fin]
  split_ifs with hlt heq
  · simpa using hlt.le
  · simpa using heq.le
  · simpa using lt_of_le_of_ne (not_lt.mp hlt) (Ne.symm heq)

theorem cmpOrEqual_ne_lt {a b : Double} (ha : a ≠ nan) (hb : b ≠ nan) : Scalar.cmpOrEqual a b ≠ .lt ↔ Le b a := by
  cases a <;> cases b <;> first
    | exact absurd rfl ha
    | exact absurd rfl hb
    | exact iff_of_true Ordering.noConfusion rfl
    | exact iff_of_false (fun h => h rfl) Bool.false_ne_true
    | skip
  rw [cmpOrEqual_fin, le_fin]
  split_ifs with hlt heq
  · simpa using hlt
  · simpa using heq.ge
  · simpa using not_lt.mp hlt

theorem ofRounded_mono {p q : ℚ} (h : p ≤ q) : Le (ofRounded p) (ofRounded q) := by
  have hbound := bound_pos
  unfold ofRounded
  split_ifs <;> first | exact le_fin.mpr h | rfl | (exfalso; linarith)

/-- Rounding keeps the order. -/
theorem ofRat_mono {p q : ℚ} (h : p ≤ q) : Le (ofRat p) (ofRat q) := by
  refine ofRounded_mono ?_
  split_ifs with hp hq hq
  · have := roundMag_mono (x := -q) (by linarith) (neg_le_neg h)
    linarith
  · have := roundMag_nonneg (x := -p) (by linarith)
    have := roundMag_nonneg (x := q) (by linarith)
    linarith
  · linarith
  · exact roundMag_mono (not_lt.mp hp) h

theorem ofRat_ne_nan (q : ℚ) : ofRat q ≠ nan := by
  unfold ofRat ofRounded
  split_ifs <;> simp

theorem ofRat_of_lt {q : ℚ} (hq : 0 ≤ q) (h : roundMag q < bound) : ofRat q = fin (roundMag q) := by
  have hnonneg := roundMag_nonneg hq
  have hbound : ¬roundMag q ≤ -bound := by linarith
  unfold ofRat ofRounded
  rw [if_neg (not_lt.mpr hq), if_neg (not_le.mpr h), if_neg hbound]

/-- The number of a level is a finite double. -/
theorem ofNat_eq {n : ℕ} (h : n ≤ 2 ^ 64) : (Scalar.ofNat n : Double) = fin (roundMag n) := by
  refine ofRat_of_lt n.cast_nonneg ?_
  have hle : roundMag (n : ℚ) ≤ roundMag (2 ^ (64 : ℤ)) := by
    refine roundMag_mono n.cast_nonneg ?_
    calc (n : ℚ) ≤ ((2 ^ 64 : ℕ) : ℚ) := Nat.cast_le.mpr h
      _ = 2 ^ (64 : ℤ) := by norm_num
  rw [roundMag_two_zpow (by decide)] at hle
  refine hle.trans_lt ?_
  exact pow_lt_pow_right₀ one_lt_two (by decide)

theorem zero_eq : (0.0 : Double) = fin 0 := by
  have hzero : (0.0 : Double) = ofRat (OfScientific.ofScientific 0 true 1) := rfl
  have hrat : (OfScientific.ofScientific 0 true 1 : ℚ) = 0 := by norm_num
  rw [hzero, hrat, ofRat_of_lt le_rfl (roundMag_zero.symm ▸ bound_pos), roundMag_zero]

end Double

end Opsense
