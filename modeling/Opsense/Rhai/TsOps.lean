import Opsense.Lib.Checked
import Opsense.Lib.Double

/-!
# Operators on time series

`ts_moving_avg`, `ts_resample`, `ts_quantile`, `ts_p95` and `ts_p99` of `opsense-rhai/src/ts_ops.rs`, in a build with overflow checks and
in one without. A quantile unwraps a comparison that not-a-number does not have, and a bucket is found from the first point and counted
from the last. They return, and lose no point, exactly where the points are in one range from the first on (`loses_nothing_iff`).
-/

namespace Opsense

open Partial

namespace TsOps

abbrev I64 := { n : Int // FitsI64 n }

/-- A value of a script. -/
inductive Dynamic where
  | int (n : I64)
  | unsigned (n : Nat)
  | float (x : Double)
  | map (fields : List (String × Dynamic))
  | other

structure Point where
  ts : I64
  value : Double
deriving DecidableEq

/-- The time of an observation map. -/
def Dynamic.ts? : Dynamic → Option I64
  | int n => some n
  | _ => none

def Dynamic.value? : Dynamic → Option Double
  | float x => some x
  | int n => some (.ofRat n.val)
  | unsigned n => some (Scalar.ofNat n)
  | _ => none

def Dynamic.point? : Dynamic → Option Point
  | map fields =>
    match (fields.lookup "ts").bind ts?, (fields.lookup "value").bind value? with
    | some ts, some value => some ⟨ts, value⟩
    | _, _ => none
  | _ => none

def parsePoints (points : List Dynamic) : List Point := points.filterMap Dynamic.point?

def extractValues (points : List Dynamic) : List Double := (parsePoints points).map Point.value

def sum (values : List Double) : Double := values.foldl Double.add (.fin 0)

def mean (values : List Double) : Double := Double.div (sum values) (Scalar.ofNat values.length)

def aggregate (values : List Double) (agg : String) : Double :=
  if values = [] then .fin 0
  else if agg = "min" then values.foldl Double.min .posInf
  else if agg = "max" then values.foldl Double.max .negInf
  else if agg = "sum" then sum values
  else if agg = "count" then Scalar.ofNat values.length
  else mean values

/-! ## Quantiles -/

inductive QuantilePanic where
  /-- `unwrap` of a comparison with not-a-number. -/
  | unwrap
  | index

/-- A value takes its place among those that are sorted, behind none that is not less. -/
def insertSorted (x : Double) : List Double → Except QuantilePanic (List Double)
  | [] => .ok [x]
  | y :: ys =>
    match Double.partialCmp x y with
    | none => .error .unwrap
    | some .gt => (insertSorted x ys).map (y :: ·)
    | some _ => .ok (x :: y :: ys)

/-- `sort_by` with `partial_cmp` and `unwrap`. A sort compares every value with another one. -/
def sortValues : List Double → Except QuantilePanic (List Double)
  | [] => .ok []
  | x :: xs => sortValues xs >>= insertSorted x

/-- `floor() as usize` -/
def floorUsize : Double → Nat
  | .fin q => min ⌊q⌋.toNat (2 ^ 64 - 1)
  | .posInf => 2 ^ 64 - 1
  | _ => 0

def abs : Double → Double
  | .fin q => .fin |q|
  | .negInf => .posInf
  | x => x

def EPSILON : Double := .fin (1 / 2 ^ 52)

def at? (sorted : List Double) (i : Nat) : Except QuantilePanic Double :=
  match sorted[i]? with
  | some x => .ok x
  | none => .error .index

def quantileSorted (sorted : List Double) (q : Double) : Except QuantilePanic Double :=
  match sorted with
  | [] => .ok (.fin 0)
  | [x] => .ok x
  | _ =>
    let pos := Double.mul q (Scalar.ofNat (sorted.length - 1))
    let idx := floorUsize pos
    if Scalar.lt (abs (Double.sub q (.fin (1 / 2)))) EPSILON = true then
      let frac := Double.sub pos (Scalar.ofNat idx)
      if idx + 1 < sorted.length then do
        let below ← at? sorted idx
        let above ← at? sorted (idx + 1)
        .ok (Double.add below (Double.mul frac (Double.sub above below)))
      else at? sorted idx
    else at? sorted (min idx (sorted.length - 1))

/-- `clamp(0.0, 1.0)` -/
def clamp (q : Double) : Double :=
  if Scalar.lt q (.fin 0) = true then .fin 0 else if Scalar.gt q (.fin 1) = true then .fin 1 else q

/-- The quantile of what is extracted; none is the unit. -/
def quantileOf (points : List Dynamic) (q : Double) : Except QuantilePanic (Option Double) :=
  if extractValues points = [] then .ok none
  else do
    let sorted ← sortValues (extractValues points)
    let quantile ← quantileSorted sorted q
    .ok (some quantile)

def tsQuantile (points : List Dynamic) (q : Double) : Except QuantilePanic (Option Double) := quantileOf points (clamp q)

def tsP95 (points : List Dynamic) : Except QuantilePanic (Option Double) := quantileOf points 0.95

def tsP99 (points : List Dynamic) : Except QuantilePanic (Option Double) := quantileOf points 0.99

/-! ## Windows and buckets -/

/-- An operation on `i64`s with its exact result: past the end it panics in a build with overflow checks, and wraps in one without. -/
def opI64 (checks : Bool) (exact : Int) : Except Panic Int :=
  if checks = true ∧ ¬FitsI64 exact then .error .overflow else .ok (Int.bmod exact (2 ^ 64))

/-- A pass of the loop of `ts_moving_avg`. -/
def movingStep (checks : Bool) (p : List Point) (ws : Int) (out : List (Int × Double)) (i : Point × Nat) :
    Except Panic (List (Int × Double)) := do
  let cutoff ← opI64 checks (i.1.ts - ws)
  let window_vals := ((p.take (i.2 + 1)).filter fun x => cutoff ≤ x.ts).map Point.value
  .ok (out ++ [(i.1.ts.val, if window_vals = [] then .fin 0 else mean window_vals)])

def tsMovingAvg (checks : Bool) (points : List Dynamic) (window_secs : I64) : Except Panic (List (Int × Double)) :=
  let p := parsePoints points
  if p = [] ∨ window_secs.val ≤ 0 then .ok [] else p.zipIdx.foldlM (movingStep checks p window_secs) []

/-- A point goes to its bucket. -/
def place (checks : Bool) (t0 bs : Int) (buckets : List (List Double)) (p : Point) : Except Panic (List (List Double)) := do
  let d ← opI64 checks (p.ts - t0)
  let idx := asU64 (d.tdiv bs)
  if buckets.length ≤ idx then .error .index else .ok (buckets.modify idx (· ++ [p.value]))

/-- A bucket with points is put out with its time. -/
def putOut (checks : Bool) (t0 bs : Int) (out : List (Int × List Double)) (b : List Double × Nat) :
    Except Panic (List (Int × List Double)) :=
  if b.1 = [] then .ok out
  else do
    let d ← opI64 checks (asI64 b.2 * bs)
    let ts ← opI64 checks (t0 + d)
    .ok (out ++ [(ts, b.1)])

/-- The buckets of `ts_resample` that have points, with their times. A vector has three words. -/
def resampled (checks : Bool) (p : List Point) (bs : Int) : Except Panic (List (Int × List Double)) :=
  match p.head?, p.getLast? with
  | some first, some last =>
    if bs ≤ 0 then .ok []
    else do
      let d ← opI64 checks (last.ts - first.ts)
      let n ← opI64 checks (d.tdiv bs + 1)
      let buckets ← vec 24 (asU64 n) []
      let buckets ← p.foldlM (place checks first.ts bs) buckets
      buckets.zipIdx.foldlM (putOut checks first.ts bs) []
  | _, _ => .ok []

def tsResample (checks : Bool) (points : List Dynamic) (bucket_secs : I64) (agg : String) : Except Panic (List (Int × Double)) :=
  (resampled checks (parsePoints points) bucket_secs).map fun out => out.map fun b => (b.1, aggregate b.2 agg)

/-! ## A quantile is there where a comparison is -/

theorem partialCmp_eq_none {x y : Double} : Double.partialCmp x y = none ↔ x = .nan ∨ y = .nan := by
  cases x <;> cases y <;> simp [Double.partialCmp]

/-- A value that is a number takes its place among numbers. -/
theorem insertSorted_ok {x : Double} (hx : x ≠ .nan) (ys : List Double) (hys : .nan ∉ ys) :
    ∃ sorted, insertSorted x ys = .ok sorted ∧ sorted.Perm (x :: ys) := by
  induction ys with
  | nil => exact ⟨[x], rfl, .rfl⟩
  | cons y ys ih =>
    obtain ⟨hy, hys⟩ : Double.nan ≠ y ∧ Double.nan ∉ ys := by simpa using hys
    obtain ⟨sorted, hsorted, hperm⟩ := ih hys
    unfold insertSorted
    cases hcmp : Double.partialCmp x y with
    | none => exact absurd (partialCmp_eq_none.mp hcmp) (by simp [hx, hy.symm])
    | some o =>
      cases o with
      | gt => exact ⟨y :: sorted, by simp [hsorted, Except.map], (hperm.cons y).trans (.swap x y ys)⟩
      | lt => exact ⟨x :: y :: ys, rfl, .rfl⟩
      | eq => exact ⟨x :: y :: ys, rfl, .rfl⟩

theorem sortValues_ok {values : List Double} (h : .nan ∉ values) : ∃ sorted, sortValues values = .ok sorted ∧ sorted.Perm values := by
  induction values with
  | nil => exact ⟨[], rfl, .rfl⟩
  | cons x xs ih =>
    obtain ⟨hx, hxs⟩ : Double.nan ≠ x ∧ Double.nan ∉ xs := by simpa using h
    obtain ⟨sorted, hsorted, hperm⟩ := ih hxs
    obtain ⟨sorted', hsorted', hperm'⟩ := insertSorted_ok hx.symm sorted fun hmem => hxs (hperm.mem_iff.mp hmem)
    refine ⟨sorted', ?_, hperm'.trans (hperm.cons x)⟩
    rw [sortValues, hsorted, ok_bind, hsorted']

/-- What takes its place is compared with the first. -/
theorem ne_nan_of_insertSorted {x y : Double} {ys sorted : List Double} (h : insertSorted x (y :: ys) = .ok sorted) :
    x ≠ .nan ∧ y ≠ .nan := by
  unfold insertSorted at h
  rw [← not_or, ← partialCmp_eq_none]
  intro hcmp
  rw [hcmp] at h
  cases h

/-- Values are sorted where there is no comparison to unwrap, or it is of numbers. -/
theorem sortValues_iff (values : List Double) : (∃ sorted, sortValues values = .ok sorted) ↔ values.length ≤ 1 ∨ .nan ∉ values := by
  constructor
  · intro h
    induction values with
    | nil => simp
    | cons x xs ih =>
      obtain ⟨sorted, hsorted⟩ := h
      obtain ⟨rest, hrest, hins⟩ := bind_eq_ok.mp hsorted
      match xs with
      | [] => simp
      | y :: xs =>
        refine .inr ?_
        rcases ih ⟨rest, hrest⟩ with hlen | hnan
        · obtain rfl : xs = [] := by simpa using hlen
          obtain rfl : [y] = rest := Except.ok.inj hrest
          obtain ⟨hx, hy⟩ := ne_nan_of_insertSorted hins
          simp [hx.symm, hy.symm]
        · obtain ⟨sorted', hsorted', hperm⟩ := sortValues_ok hnan
          obtain rfl : sorted' = rest := Except.ok.inj (hsorted'.symm.trans hrest)
          match sorted' with
          | [] => exact absurd hperm.symm (by simp)
          | z :: zs => exact fun hmem => (List.mem_cons.mp hmem).elim (fun heq => (ne_nan_of_insertSorted hins).1 heq.symm) hnan
  · rintro (hlen | hnan)
    · match values with
      | [] => exact ⟨[], rfl⟩
      | [x] => exact ⟨[x], rfl⟩
    · obtain ⟨sorted, hsorted, -⟩ := sortValues_ok hnan
      exact ⟨sorted, hsorted⟩

/-- Rounding adds no more than an eighth. -/
theorem roundMag_le_eighth {x : ℚ} (h : 1 / 2 ≤ x) : roundMag x ≤ 9 / 8 * x := by
  have hx : 0 < x := by linarith
  have hpos := two_zpow_pos (exponentOf x)
  have hplace : (2 : ℚ) ^ exponentOf x ≤ x / 8 := by
    have hlog : -1 ≤ Int.log 2 x := (Int.zpow_le_iff_le_log one_lt_two hx).mp (by norm_num; linarith)
    have hexp : exponentOf x ≤ Int.log 2 x - 3 := by
      unfold exponentOf
      omega
    calc (2 : ℚ) ^ exponentOf x ≤ 2 ^ (Int.log 2 x - 3) := zpow_le_zpow_right₀ one_le_two hexp
      _ = 2 ^ Int.log 2 x / 8 := by
        rw [zpow_sub₀ two_ne_zero]
        norm_num
      _ ≤ x / 8 := by
        have := Int.zpow_log_le_self (b := 2) one_lt_two hx
        push_cast at this
        linarith
  have hround : (roundEven (x / 2 ^ exponentOf x) : ℚ) ≤ x / 2 ^ exponentOf x + 1 := by
    have hfloor := Int.floor_le (x / 2 ^ exponentOf x)
    unfold roundEven
    dsimp only
    split_ifs <;> push_cast <;> linarith
  calc roundMag x ≤ (x / 2 ^ exponentOf x + 1) * 2 ^ exponentOf x := mul_le_mul_of_nonneg_right hround hpos.le
    _ = x + 2 ^ exponentOf x := by rw [add_mul, div_mul_cancel₀ _ hpos.ne', one_mul]
    _ ≤ 9 / 8 * x := by linarith

theorem floorUsize_mono {a b : Double} (h : Double.Le a b) : floorUsize a ≤ floorUsize b := by
  cases a with
  | fin p =>
    cases b with
    | fin q =>
      have := Int.floor_le_floor (Double.le_fin.mp h)
      simp only [floorUsize]
      omega
    | posInf => exact min_le_right _ _
    | _ => simp [Double.Le, Scalar.le, Scalar.partialCmp, Double.partialCmp] at h
  | posInf => cases b <;> simp [Double.Le, Scalar.le, Scalar.partialCmp, Double.partialCmp, floorUsize] at h ⊢
  | _ => exact Nat.zero_le _

/-- A number that is nearly a half. -/
theorem eq_fin_of_half {q : Double} (h : Scalar.lt (abs (Double.sub q (.fin (1 / 2)))) EPSILON = true) :
    ∃ r : ℚ, q = .fin r ∧ r ≤ 9 / 16 := by
  cases q with
  | fin r =>
    refine ⟨r, rfl, ?_⟩
    by_contra hr
    have hsixteenth : Double.ofRat (1 / 16) = .fin (1 / 16) := by
      have hround : roundMag (1 / 16) = 1 / 16 := roundMag_mul (m := 1) (k := -4) (by norm_num) (by
        have := exponentOf_two_zpow (k := -4) (by decide)
        norm_num at this ⊢
        exact this)
      rw [Double.ofRat_of_lt (by norm_num) ?_, hround]
      rw [hround]
      exact (by norm_num : (1 / 16 : ℚ) < 1).trans_le (one_le_pow₀ one_le_two)
    have hle : Double.Le (.fin (1 / 16)) (Double.ofRat (r + -(1 / 2))) := by
      rw [← hsixteenth]
      exact Double.ofRat_mono (by linarith)
    simp only [Double.sub, Double.neg, Double.add] at h
    cases hsub : Double.ofRat (r + -(1 / 2)) with
    | fin t =>
      rw [hsub] at h hle
      have hlt : |t| < 1 / 2 ^ 52 := by
        by_contra hnot
        simp [abs, EPSILON, Scalar.lt, Scalar.partialCmp, Double.partialCmp] at h
        exact hnot (by simpa using h)
      have := le_abs_self t
      have := Double.le_fin.mp hle
      norm_num at hlt
      linarith
    | _ =>
      rw [hsub] at h
      simp [abs, EPSILON, Scalar.lt, Scalar.partialCmp, Double.partialCmp] at h
  | _ => simp [Double.sub, Double.neg, Double.add, abs, EPSILON, Scalar.lt, Scalar.partialCmp, Double.partialCmp] at h

/-- The middle of values is one of them. -/
theorem middle_le {q : Double} {n : Nat} (hn : 0 < n) (h : Scalar.lt (abs (Double.sub q (.fin (1 / 2)))) EPSILON = true) :
    floorUsize (Double.mul q (Scalar.ofNat n)) ≤ n := by
  obtain ⟨r, rfl, hr⟩ := eq_fin_of_half h
  rcases lt_or_ge (2 ^ 64) n with hlarge | hsmall
  · refine le_trans ?_ hlarge.le
    unfold floorUsize
    split <;> omega
  · have hn' : (1 : ℚ) ≤ n := by exact_mod_cast hn
    have hround := roundMag_le_eighth (x := n) (by linarith)
    rw [Double.ofNat_eq hsmall]
    have hle : r * roundMag n ≤ 81 / 128 * n := by nlinarith [roundMag_nonneg (x := n) (by linarith)]
    have htop := roundMag_le_eighth (x := 81 / 128 * n) (by linarith)
    have hbound : roundMag (81 / 128 * n) ≤ n := by linarith
    refine (floorUsize_mono (Double.ofRat_mono hle)).trans ?_
    rw [Double.ofRat_of_lt (by linarith) (hbound.trans_lt ?_)]
    · have := Int.floor_le_floor hbound
      rw [Int.floor_natCast] at this
      simp only [floorUsize]
      omega
    · have : (n : ℚ) ≤ 2 ^ 64 := by exact_mod_cast hsmall
      exact this.trans_lt (pow_lt_pow_right₀ one_lt_two (by decide))

variable {i : Nat}

theorem at?_ok {sorted : List Double} (h : i < sorted.length) : ∃ x, at? sorted i = .ok x :=
  ⟨sorted[i], by rw [at?, List.getElem?_eq_getElem h]⟩

/-- A quantile of sorted values is read within them. -/
theorem quantileSorted_ok (sorted : List Double) (q : Double) : ∃ x, quantileSorted sorted q = .ok x := by
  match sorted with
  | [] => exact ⟨_, rfl⟩
  | [x] => exact ⟨x, rfl⟩
  | x :: y :: ys =>
    have hlen : (x :: y :: ys).length = ys.length + 1 + 1 := rfl
    simp only [quantileSorted]
    split_ifs with hhalf hnext
    · obtain ⟨below, hbelow⟩ := at?_ok (Nat.lt_of_succ_lt hnext)
      obtain ⟨above, habove⟩ := at?_ok hnext
      rw [hbelow, ok_bind, habove]
      exact ⟨_, rfl⟩
    · have hmiddle := middle_le (n := ys.length + 1) (by omega) hhalf
      exact at?_ok (by rw [hlen] at hnext ⊢; simp only [Nat.add_sub_cancel] at hnext ⊢; omega)
    · exact at?_ok (by omega)

theorem quantileOf_iff (points : List Dynamic) (q : Double) :
    (∃ x, quantileOf points q = .ok x) ↔ (extractValues points).length ≤ 1 ∨ .nan ∉ extractValues points := by
  rw [← sortValues_iff]
  unfold quantileOf
  split_ifs with hempty
  · rw [hempty]
    exact ⟨fun _ => ⟨[], rfl⟩, fun _ => ⟨none, rfl⟩⟩
  · constructor
    · rintro ⟨x, hx⟩
      obtain ⟨sorted, hsorted, -⟩ := bind_eq_ok.mp hx
      exact ⟨sorted, hsorted⟩
    · rintro ⟨sorted, hsorted⟩
      obtain ⟨x, hx⟩ := quantileSorted_ok sorted q
      rw [hsorted, ok_bind, hx]
      exact ⟨some x, rfl⟩

/-! ## A window begins within the times there are -/

theorem gives_opI64 (checks : Bool) (exact : Int) :
    Gives (opI64 checks exact) (checks = true → FitsI64 exact) (Int.bmod exact (2 ^ 64)) :=
  (gives_refuse _ Panic.overflow _).congr (by rw [not_and, not_not])

theorem tsMovingAvg_iff (checks : Bool) (points : List Dynamic) (window_secs : I64) :
    (∃ out, tsMovingAvg checks points window_secs = .ok out) ↔
      (checks = true → 0 < window_secs.val → ∀ p ∈ parsePoints points, -2 ^ 63 ≤ p.ts.val - window_secs.val) := by
  unfold tsMovingAvg
  dsimp only
  split_ifs with h
  · refine ⟨fun _ _ hpos => ?_, fun _ => ⟨[], rfl⟩⟩
    rw [h.resolve_right (not_le.mpr hpos)]
    simp
  · obtain ⟨-, hpos⟩ := not_or.mp h
    have hstep : ∀ out i, ∃ out', Gives (movingStep checks (parsePoints points) window_secs out i)
        (checks = true → FitsI64 (i.1.ts - window_secs)) out' := by
      intro out i
      unfold movingStep
      rcases gives_opI64 checks (i.1.ts - window_secs) with ⟨hok, heq⟩ | ⟨hnot, e, heq⟩ <;> rw [heq]
      · exact ⟨_, .inl ⟨hok, rfl⟩⟩
      · exact ⟨out, .inr ⟨hnot, e, rfl⟩⟩
    choose step hstep using hstep
    rw [(gives_foldlM hstep [] (parsePoints points).zipIdx).exists_iff, along_const]
    have hfits : ∀ p : Point, FitsI64 (p.ts - window_secs) ↔ -2 ^ 63 ≤ p.ts.val - window_secs.val := by
      intro p
      have := p.ts.property.2
      unfold FitsI64
      omega
    simp only [hfits]
    constructor
    · intro hall hchecks _ p hp
      obtain ⟨i, hi⟩ := List.mem_iff_getElem?.mp hp
      exact hall (p, i) (List.mem_zipIdx_iff_getElem?.mpr hi) hchecks
    · intro hall i hi hchecks
      exact hall hchecks (not_le.mp hpos) i.1 (List.mem_of_getElem? (List.mem_zipIdx_iff_getElem?.mp hi))

/-! ## Buckets -/

/-- The bucket that a point goes to. -/
def idxOf (t0 bs : Int) (p : Point) : Nat := asU64 ((Int.bmod (p.ts - t0) (2 ^ 64)).tdiv bs)

/-- The values of a bucket. -/
def bucket (ps : List Point) (t0 bs : Int) (i : Nat) : List Double := (ps.filter fun p => idxOf t0 bs p = i).map Point.value

theorem gives_place (checks : Bool) (t0 bs : Int) (buckets : List (List Double)) (p : Point) : Gives (place checks t0 bs buckets p)
    ((checks = true → FitsI64 (p.ts - t0)) ∧ idxOf t0 bs p < buckets.length) (buckets.modify (idxOf t0 bs p) (· ++ [p.value])) :=
  (gives_opI64 checks (p.ts - t0)).bind ((gives_refuse _ Panic.index _).congr Nat.not_le)

/-- Every point is in its bucket. -/
theorem foldl_modify (t0 bs : Int) (n : Nat) (ps : List Point) :
    ps.foldl (fun buckets p => buckets.modify (idxOf t0 bs p) (· ++ [p.value])) (List.replicate n []) =
      (List.range n).map (bucket ps t0 bs) := by
  induction ps using List.reverseRecOn with
  | nil => exact (List.eq_replicate_iff.mpr ⟨by simp, by simp [bucket]⟩).symm
  | append_singleton ps p ih =>
    rw [List.foldl_append, ih]
    refine List.ext_getElem? fun i => ?_
    rw [List.foldl_cons, List.foldl_nil, List.getElem?_modify, List.getElem?_map, List.getElem?_map]
    rcases lt_or_ge i n with hi | hi
    · rw [List.getElem?_range hi]
      by_cases h : idxOf t0 bs p = i <;> simp [bucket, h]
    · rw [List.getElem?_eq_none (by simpa using hi)]
      rfl

/-- The time of a bucket. -/
def startOf (t0 bs : Int) (i : Nat) : Int := Int.bmod (t0 + Int.bmod (asI64 i * bs) (2 ^ 64)) (2 ^ 64)

/-- The buckets with points, and their times. -/
def groups (ps : List Point) (t0 bs : Int) (n : Nat) : List (Int × List Double) :=
  ((List.range n).filter fun i => bucket ps t0 bs i ≠ []).map fun i => (startOf t0 bs i, bucket ps t0 bs i)

/-- The time of a bucket fits. -/
def StartFits (t0 bs : Int) (i : Nat) : Prop := FitsI64 (asI64 i * bs) ∧ FitsI64 (t0 + Int.bmod (asI64 i * bs) (2 ^ 64))

theorem gives_putOut (checks : Bool) (t0 bs : Int) (out : List (Int × List Double)) (b : List Double × Nat) :
    Gives (putOut checks t0 bs out b) (b.1 ≠ [] → checks = true → StartFits t0 bs b.2)
      (if b.1 = [] then out else out ++ [(startOf t0 bs b.2, b.1)]) := by
  unfold putOut
  split_ifs with h
  · exact (gives_ok out).congr (by simp [h])
  · refine ((gives_opI64 checks _).bind ((gives_opI64 checks _).bind (gives_ok (out ++ [(startOf t0 bs b.2, b.1)])))).congr ?_
    simp [h, StartFits, imp_and]

/-- The buckets are filled where every point has one. -/
theorem gives_filled (checks : Bool) (ps : List Point) (t0 bs : Int) (n : Nat) :
    Gives (ps.foldlM (place checks t0 bs) (List.replicate n []))
      (∀ p ∈ ps, (checks = true → FitsI64 (p.ts - t0)) ∧ idxOf t0 bs p < n) ((List.range n).map (bucket ps t0 bs)) := by
  have hfill := gives_foldlM (gives_place checks t0 bs) (List.replicate n []) ps
  rw [foldl_modify] at hfill
  refine hfill.congr (along_iff_of_invariant (fun buckets => buckets.length = n) (by simp) ?_ ?_)
  · intro buckets hlen p _
    rwa [List.length_modify]
  · intro buckets hlen p _
    rw [hlen]

theorem gives_groups (checks : Bool) (ps : List Point) (t0 bs : Int) (n : Nat) :
    Gives (((List.range n).map (bucket ps t0 bs)).zipIdx.foldlM (putOut checks t0 bs) [])
      (∀ i < n, bucket ps t0 bs i ≠ [] → checks = true → StartFits t0 bs i) (groups ps t0 bs n) := by
  have hzip : ((List.range n).map (bucket ps t0 bs)).zipIdx = (List.range n).map fun i => (bucket ps t0 bs i, i) :=
    List.ext_getElem (by simp) (by simp)
  have hval : ∀ (is : List Nat) (out : List (Int × List Double)), (is.map fun i => (bucket ps t0 bs i, i)).foldl
      (fun out b => if b.1 = [] then out else out ++ [(startOf t0 bs b.2, b.1)]) out =
        out ++ (is.filter fun i => bucket ps t0 bs i ≠ []).map fun i => (startOf t0 bs i, bucket ps t0 bs i) := by
    intro is
    induction is with
    | nil => simp
    | cons i is ih =>
      intro out
      rw [List.map_cons, List.foldl_cons, ih]
      by_cases h : bucket ps t0 bs i = [] <;> simp [h]
  have hout := gives_foldlM (gives_putOut checks t0 bs) [] ((List.range n).map (bucket ps t0 bs)).zipIdx
  rw [along_const, hzip, hval, List.nil_append] at hout
  rw [hzip]
  exact hout.congr (by simp)

/-- What is put out, and when. -/
theorem gives_resampled (checks : Bool) {ps : List Point} {first last : Point} (hfirst : ps.head? = some first)
    (hlast : ps.getLast? = some last) {bs d : Int} {n : Nat} (hbs : 0 < bs) (hd : d = Int.bmod (last.ts - first.ts) (2 ^ 64))
    (hn : n = asU64 (Int.bmod (d.tdiv bs + 1) (2 ^ 64))) :
    Gives (resampled checks ps bs)
      ((checks = true → FitsI64 (last.ts - first.ts)) ∧ (checks = true → FitsI64 (d.tdiv bs + 1)) ∧ n * 24 < 2 ^ 63 ∧
        (∀ p ∈ ps, (checks = true → FitsI64 (p.ts - first.ts)) ∧ idxOf first.ts bs p < n) ∧
        ∀ i < n, bucket ps first.ts bs i ≠ [] → checks = true → StartFits first.ts bs i)
      (groups ps first.ts bs n) := by
  subst hd hn
  unfold resampled
  rw [hfirst, hlast]
  dsimp only
  rw [if_neg (not_le.mpr hbs)]
  exact (gives_opI64 checks _).bind ((gives_opI64 checks _).bind ((gives_vec 24 _ []).bind
    ((gives_filled checks ps _ bs _).bind (gives_groups checks ps _ bs _))))

/-! ## No point is lost -/

/-- The buckets are in ascending order, hold exactly the points that fall into them, and all points between them. -/
structure Exact (ps : List Point) (bs : Int) (out : List (Int × List Double)) : Prop where
  ascending : out.Pairwise fun a b => a.1 < b.1
  falls : ∀ b ∈ out, b.2 = (ps.filter fun p => b.1 ≤ p.ts.val ∧ p.ts.val < b.1 + bs).map Point.value
  count : (out.map fun b => b.2.length).sum = ps.length

/-- Every point is in the range that the first point begins and in the bucket of the last one or before it, of which there are not more
than fit. -/
def Spread (ps : List Point) (bs : Int) : Prop :=
  ∀ first ∈ ps.head?, ∀ last ∈ ps.getLast?, 0 < bs ∧
    (∀ p ∈ ps, first.ts.val ≤ p.ts ∧ p.ts - first.ts.val < 2 ^ 63 ∧ (p.ts - first.ts.val) / bs ≤ (last.ts - first.ts.val) / bs) ∧
    ((last.ts - first.ts.val) / bs + 1) * 24 < 2 ^ 63

/-- What the operators promise. -/
def LosesNothing (checks : Bool) (points : List Dynamic) (window bucket_secs : I64) (agg : String) (q : Double) : Prop :=
  (∃ out, tsMovingAvg checks points window = .ok out) ∧ (∃ x, tsQuantile points q = .ok x) ∧ (∃ x, tsP95 points = .ok x) ∧
    (∃ x, tsP99 points = .ok x) ∧
    ∃ out, tsResample checks points bucket_secs agg = .ok (out.map fun b => (b.1, aggregate b.2 agg)) ∧
      resampled checks (parsePoints points) bucket_secs = .ok out ∧ Exact (parsePoints points) bucket_secs out

variable {ps : List Point} {first last : Point} {bs : Int} {n : Nat}

theorem length_groups (h : ∀ p ∈ ps, idxOf first.ts bs p < n) : ((groups ps first.ts bs n).map fun b => b.2.length).sum = ps.length := by
  have hempty : ∀ is : List Nat, (((is.filter fun i => bucket ps first.ts bs i ≠ []).map fun i =>
      (startOf first.ts bs i, bucket ps first.ts bs i)).map fun b => b.2.length).sum =
        (is.map fun i => (ps.map (idxOf first.ts bs)).count i).sum := by
    intro is
    induction is with
    | nil => rfl
    | cons i is ih =>
      have hcount : (ps.map (idxOf first.ts bs)).count i = (bucket ps first.ts bs i).length := by
        rw [bucket, List.length_map, ← List.countP_eq_length_filter, List.count, List.countP_map]
        exact List.countP_congr fun p _ => by simp
      by_cases hi : bucket ps first.ts bs i = []
      · simp_all
      · simp_all
  have hall := Multiset.sum_count_eq_card (s := Finset.range n) (m := (ps.map (idxOf first.ts bs) : List Nat)) (by simpa using h)
  rw [groups, hempty]
  rw [← Finset.sum_map_val, Finset.range_val, Multiset.range, Multiset.map_coe, Multiset.sum_coe] at hall
  simpa using hall

/-- The points of a bucket, of those from the first on. -/
theorem idxOf_iff {p : Point} (hbs : 0 < bs) (hle : first.ts.val ≤ p.ts) (hlt : p.ts - first.ts.val < 2 ^ 63) :
    (idxOf first.ts bs p : Int) = (p.ts - first.ts.val) / bs ∧
      (idxOf first.ts bs p = i ↔ first.ts.val + i * bs ≤ p.ts.val ∧ p.ts.val < first.ts.val + i * bs + bs) := by
  have hpos : 0 ≤ p.ts.val - first.ts.val := by omega
  have hself := Int.ediv_le_self bs hpos
  have hdiv := Int.ediv_nonneg hpos hbs.le
  have heq : (idxOf first.ts bs p : Int) = (p.ts - first.ts.val) / bs := by
    unfold idxOf
    rw [bmod_of_fitsI64 ⟨by omega, hlt⟩, Int.tdiv_eq_ediv_of_nonneg hpos, asU64_of_nonneg hdiv (by omega)]
    omega
  have hlow := Int.le_ediv_iff_mul_le (a := (i : Int)) (b := p.ts - first.ts.val) hbs
  have hhigh := Int.ediv_lt_iff_lt_mul (a := p.ts - first.ts.val) (b := (i : Int) + 1) hbs
  rw [add_mul, one_mul] at hhigh
  exact ⟨heq, by omega⟩

/-- The time of a bucket that begins no later than the last point. -/
theorem startOf_eq (hbs : 0 < bs) (hle : first.ts.val + i * bs ≤ last.ts) (hlt : last.ts - first.ts.val < 2 ^ 63) :
    startOf first.ts bs i = first.ts + i * bs ∧ StartFits first.ts bs i := by
  have hi : (i : Int) ≤ i * bs := le_mul_of_one_le_right (by omega) hbs
  have hfirst := first.ts.property
  have hlast := last.ts.property
  unfold FitsI64 at hfirst hlast
  have hprod : FitsI64 (i * bs) := by unfold FitsI64; omega
  have hstart : FitsI64 (first.ts + i * bs) := by unfold FitsI64; omega
  unfold startOf StartFits
  rw [asI64_of_lt (by omega), bmod_of_fitsI64 hprod, bmod_of_fitsI64 hstart]
  exact ⟨rfl, hprod, hstart⟩

/-- Where the times are in range, nothing wraps. -/
theorem exact_of_spread (checks : Bool) (hfirst : ps.head? = some first) (hlast : ps.getLast? = some last) (h : Spread ps bs) :
    ∃ out, resampled checks ps bs = .ok out ∧ Exact ps bs out := by
  obtain ⟨hbs, hps, hcap⟩ := h first hfirst last hlast
  obtain ⟨hle, hlt, -⟩ := hps last (List.mem_of_getLast? hlast)
  have hfits : ∀ p ∈ ps, FitsI64 (p.ts - first.ts) := fun p hp => ⟨by have := hps p hp; omega, (hps p hp).2.1⟩
  have hdiv := Int.ediv_nonneg (show 0 ≤ last.ts.val - first.ts.val by omega) hbs.le
  obtain ⟨n, hn⟩ := Int.eq_ofNat_of_zero_le hdiv
  have hidx : ∀ p ∈ ps, idxOf first.ts bs p < n + 1 := by
    intro p hp
    obtain ⟨hle, hlt, hbucket⟩ := hps p hp
    have := (idxOf_iff (i := 0) hbs hle hlt).1
    omega
  have hstart : ∀ i < n + 1, startOf first.ts bs i = first.ts + i * bs ∧ StartFits first.ts bs i := by
    intro i hi
    have := (Int.le_ediv_iff_mul_le hbs).mp (show (i : Int) ≤ (last.ts - first.ts.val) / bs by omega)
    exact startOf_eq hbs (by omega) hlt
  refine ⟨groups ps first.ts bs (n + 1), (gives_resampled checks hfirst hlast hbs (d := last.ts - first.ts) ?_ ?_).eq_ok
    ⟨fun _ => hfits last (List.mem_of_getLast? hlast), fun _ => ?_, by omega, fun p hp => ⟨fun _ => hfits p hp, hidx p hp⟩,
      fun i hi _ _ => (hstart i hi).2⟩, ?_, ?_, length_groups hidx⟩
  · rw [bmod_of_fitsI64 (hfits last (List.mem_of_getLast? hlast))]
  · rw [Int.tdiv_eq_ediv_of_nonneg (by omega), hn, bmod_of_fitsI64 ⟨by omega, by omega⟩, asU64_of_nonneg (by omega) (by omega)]
    omega
  · rw [Int.tdiv_eq_ediv_of_nonneg (by omega), hn]
    exact ⟨by omega, by omega⟩
  · unfold groups
    rw [List.pairwise_map]
    refine (List.pairwise_lt_range.filter _).imp_of_mem ?_
    intro i j hi hj hij
    rw [(hstart i (by simpa using (List.mem_filter.mp hi).1)).1, (hstart j (by simpa using (List.mem_filter.mp hj).1)).1]
    have := mul_lt_mul_of_pos_right (Int.ofNat_lt.mpr hij) hbs
    simp only at this ⊢
    omega
  · intro b hb
    obtain ⟨i, hi, rfl⟩ := List.mem_map.mp hb
    have hin : i < n + 1 := by simpa using (List.mem_filter.mp hi).1
    dsimp only
    rw [(hstart i hin).1]
    refine congrArg (List.map Point.value) (List.filter_congr fun p hp => ?_)
    obtain ⟨hle, hlt, -⟩ := hps p hp
    exact decide_eq_decide.mpr (idxOf_iff hbs hle hlt).2

/-- What is put out exactly has the points of its buckets: where those that should be in a bucket are, no others are. -/
theorem falls_of_exact {out : List (Int × List Double)} (h : Exact ps bs out)
    (hmem : (startOf first.ts bs i, bucket ps first.ts bs i) ∈ out)
    (hin : ∀ p ∈ ps, startOf first.ts bs i ≤ p.ts.val → p.ts.val < startOf first.ts bs i + bs → idxOf first.ts bs p = i) :
    ∀ p ∈ ps, idxOf first.ts bs p = i → startOf first.ts bs i ≤ p.ts.val ∧ p.ts.val < startOf first.ts bs i + bs := by
  have hlen := congrArg List.length (h.falls _ hmem)
  unfold bucket at hlen
  rw [List.length_map, List.length_map] at hlen
  have hsub : (ps.filter fun p => decide (startOf first.ts bs i ≤ p.ts.val ∧ p.ts.val < startOf first.ts bs i + bs)).Sublist
      (ps.filter fun p => decide (idxOf first.ts bs p = i)) := by
    have hboth : (ps.filter fun p => decide (startOf first.ts bs i ≤ p.ts.val ∧ p.ts.val < startOf first.ts bs i + bs)) =
        (ps.filter fun p => decide (idxOf first.ts bs p = i)).filter fun p =>
          decide (startOf first.ts bs i ≤ p.ts.val ∧ p.ts.val < startOf first.ts bs i + bs) := by
      rw [List.filter_filter]
      refine List.filter_congr fun p hp => ?_
      have := hin p hp
      rw [← Bool.decide_and, decide_eq_decide]
      tauto
    rw [hboth]
    exact List.filter_sublist
  intro p hp hidx
  have hmem : p ∈ ps.filter fun p => decide (idxOf first.ts bs p = i) := by simp [hp, hidx]
  rw [← hsub.eq_of_length hlen.symm] at hmem
  simpa using (List.mem_filter.mp hmem).2

theorem bucket_ne_nil {p : Point} (hp : p ∈ ps) (hidx : idxOf first.ts bs p = i) : bucket ps first.ts bs i ≠ [] :=
  List.ne_nil_of_mem (List.mem_map_of_mem (a := p) (by simp [hp, hidx]))

theorem mem_groups (hi : i < n) {p : Point} (hp : p ∈ ps) (hidx : idxOf first.ts bs p = i) :
    (startOf first.ts bs i, bucket ps first.ts bs i) ∈ groups ps first.ts bs n :=
  List.mem_map.mpr ⟨i, List.mem_filter.mpr ⟨List.mem_range.mpr hi, by simpa using bucket_ne_nil hp hidx⟩, rfl⟩

theorem startOf_zero : startOf first.ts bs 0 = first.ts := by
  have hfits : Int.bmod first.ts (2 ^ 64) = first.ts := bmod_of_fitsI64 first.ts.property
  unfold startOf asI64
  rw [Nat.cast_zero, Int.zero_bmod, zero_mul, Int.zero_bmod, add_zero, hfits]

theorem idxOf_first : idxOf first.ts bs first = 0 := by
  unfold idxOf asU64
  rw [sub_self, Int.zero_bmod, Int.zero_tdiv, Int.zero_emod, Int.toNat_zero]

/-- A point of a bucket, counted from the first one with a difference that may have wrapped. -/
theorem wrapped_of_idx {p : Point} (hbs : 0 < bs) (h : idxOf first.ts bs p = i) (hpos : 0 < i) (hi : i < 2 ^ 62) :
    ∃ w : Int, i * bs ≤ w ∧ w < i * bs + bs ∧ w < 2 ^ 63 ∧ (p.ts - first.ts.val = w ∨ p.ts - first.ts.val = w - 2 ^ 64) := by
  have hw := Int.bmod_add_bdiv (p.ts - first.ts.val) (2 ^ 64)
  have hlt := Int.bmod_lt (x := p.ts - first.ts.val) (m := 2 ^ 64) (by decide)
  have hge := Int.le_bmod (x := p.ts - first.ts.val) (m := 2 ^ 64) (by decide)
  unfold idxOf at h
  generalize Int.bmod (p.ts - first.ts.val) (2 ^ 64) = w at *
  have hp := p.ts.property
  have hf := first.ts.property
  unfold FitsI64 at hp hf
  have hwpos : 0 ≤ w := by
    by_contra hneg
    -- a negative quotient is no small index
    have hquot : -w.tdiv bs = (-w) / bs := by rw [← Int.neg_tdiv, Int.tdiv_eq_ediv_of_nonneg (by omega)]
    have := Int.ediv_le_self bs (show 0 ≤ -w by omega)
    have := Int.ediv_nonneg (show 0 ≤ -w by omega) hbs.le
    unfold asU64 at h
    omega
  rw [Int.tdiv_eq_ediv_of_nonneg hwpos] at h
  have hself := Int.ediv_le_self bs hwpos
  have hdiv := Int.ediv_nonneg hwpos hbs.le
  rw [asU64_of_nonneg hdiv (by omega)] at h
  have hlow := Int.le_ediv_iff_mul_le (a := (i : Int)) (b := w) hbs
  have hhigh := Int.ediv_lt_iff_lt_mul (a := w) (b := (i : Int) + 1) hbs
  rw [add_mul, one_mul] at hhigh
  exact ⟨w, by omega, by omega, by omega, by omega⟩

/-- Every point comes within the range after the first one. -/
theorem range_of_exact (hbs : 0 < bs) (hfit : bs < 2 ^ 63) (hcap : n * 24 < 2 ^ 63) (hidx : ∀ p ∈ ps, idxOf first.ts bs p < n)
    (hfirst : first ∈ ps) (h : Exact ps bs (groups ps first.ts bs n)) {p : Point} (hp : p ∈ ps) :
    first.ts.val ≤ p.ts ∧ p.ts - first.ts.val < 2 ^ 63 := by
  have hmem := mem_groups (hidx first hfirst) hfirst rfl
  rw [idxOf_first] at hmem
  rcases Nat.eq_zero_or_pos (idxOf first.ts bs p) with hzero | hpos
  · have := falls_of_exact h hmem (by
      intro p' _ hle hlt
      rw [startOf_zero] at hle hlt
      exact (idxOf_iff hbs hle (by omega)).2.mpr (by simpa using ⟨hle, hlt⟩)) p hp hzero
    rw [startOf_zero] at this
    omega
  · have hmem' := mem_groups (hidx p hp) hp rfl
    have hlt := hidx p hp
    obtain ⟨w, hlow, hhigh, hmax, hw | hw⟩ := wrapped_of_idx hbs rfl hpos (by omega)
    · have : (0 : Int) ≤ idxOf first.ts bs p * bs := by positivity
      omega
    · -- a time before the first one wraps to a bucket after it, whose own time is before the first one or after the point
      exfalso
      have hlater : startOf first.ts bs 0 < startOf first.ts bs (idxOf first.ts bs p) := by
        have hsorted := h.ascending
        unfold groups at hsorted
        rw [List.pairwise_map] at hsorted
        obtain ⟨m, rfl⟩ : ∃ m, n = m + 1 := ⟨n - 1, by omega⟩
        rw [List.range_succ_eq_map, List.filter_cons_of_pos (by simpa using bucket_ne_nil hfirst idxOf_first), List.pairwise_cons]
          at hsorted
        refine hsorted.1 _ (List.mem_filter.mpr ⟨List.mem_map.mpr ⟨idxOf first.ts bs p - 1, ?_, by omega⟩, ?_⟩)
        · exact List.mem_range.mpr (by omega)
        · simpa using bucket_ne_nil hp rfl
      have hprod : (idxOf first.ts bs p : Int) ≤ idxOf first.ts bs p * bs := le_mul_of_one_le_right (by omega) hbs
      have hp' := p.ts.property
      have hf := first.ts.property
      unfold FitsI64 at hp' hf
      have hstart : startOf first.ts bs (idxOf first.ts bs p) = Int.bmod (first.ts + idxOf first.ts bs p * bs) (2 ^ 64) := by
        unfold startOf
        have hfits : FitsI64 (idxOf first.ts bs p * bs) := ⟨by omega, by omega⟩
        rw [asI64_of_lt (by omega), bmod_of_fitsI64 hfits]
      rw [startOf_zero, hstart] at hlater
      by_cases hfits : FitsI64 (first.ts + idxOf first.ts bs p * bs)
      · rw [bmod_of_fitsI64 hfits] at hstart
        have := falls_of_exact h hmem' (by
          intro p' _ hle hlt
          have := p'.ts.property.2
          rw [hstart] at hle hlt
          exact (idxOf_iff hbs (by omega) (by omega)).2.mpr ⟨hle, hlt⟩) p hp rfl
        omega
      · have hwrap := Int.sub_bmod_right (first.ts + idxOf first.ts bs p * bs) (2 ^ 64)
        unfold FitsI64 at hfits
        rw [← hwrap, bmod_of_fitsI64 ⟨by omega, by omega⟩] at hlater
        omega

theorem spread_of_exact (checks : Bool) (hfirst : ps.head? = some first) (hlast : ps.getLast? = some last) (hbs : 0 < bs)
    (hfit : bs < 2 ^ 63) {out : List (Int × List Double)} (hout : resampled checks ps bs = .ok out) (h : Exact ps bs out) :
    Spread ps bs := by
  have hgives := gives_resampled checks hfirst hlast hbs rfl rfl
  obtain ⟨-, -, hcap, hidx, -⟩ := hgives.exists_iff.mp ⟨out, hout⟩
  obtain rfl := hgives.eq hout
  generalize hn : asU64 _ = n at hcap hidx h
  have hrange := fun p hp => range_of_exact (p := p) hbs hfit hcap (fun p hp => (hidx p hp).2) (List.mem_of_head? hfirst) h hp
  obtain ⟨hle, hlt⟩ := hrange last (List.mem_of_getLast? hlast)
  have hself := Int.ediv_le_self bs (show 0 ≤ last.ts.val - first.ts.val by omega)
  have hdiv := Int.ediv_nonneg (show 0 ≤ last.ts.val - first.ts.val by omega) hbs.le
  have hcount : (n : Int) = (last.ts.val - first.ts) / bs + 1 := by
    rw [bmod_of_fitsI64 ⟨by omega, hlt⟩, Int.tdiv_eq_ediv_of_nonneg (by omega)] at hn
    rcases lt_or_ge ((last.ts.val - first.ts) / bs + 1) (2 ^ 63) with hsmall | hlarge
    · rw [bmod_of_fitsI64 ⟨by omega, hsmall⟩, asU64_of_nonneg (by omega) hsmall] at hn
      omega
    · -- the number of buckets that does not fit is too large either way
      have : (last.ts.val - first.ts) / bs + 1 = 2 ^ 63 := by omega
      rw [this] at hn
      have : asU64 (Int.bmod (2 ^ 63) (2 ^ 64)) = 2 ^ 63 := by decide
      omega
  intro first' hfirst' last' hlast'
  obtain rfl : first = first' := Option.some.inj (hfirst.symm.trans hfirst')
  obtain rfl : last = last' := Option.some.inj (hlast.symm.trans hlast')
  refine ⟨hbs, fun p hp => ?_, by omega⟩
  obtain ⟨hle, hlt⟩ := hrange p hp
  have := (idxOf_iff (i := 0) hbs hle hlt).1
  have := (hidx p hp).2
  exact ⟨hle, hlt, by omega⟩

/-- The buckets are exact where the points are in range. -/
theorem exact_iff (checks : Bool) (ps : List Point) (bs : I64) :
    (∃ out, resampled checks ps bs = .ok out ∧ Exact ps bs out) ↔ Spread ps bs := by
  cases ps with
  | nil =>
    have hempty : Exact [] bs.val [] := ⟨.nil, by simp, rfl⟩
    have hnone : Spread [] bs := by simp [Spread]
    exact iff_of_true ⟨[], rfl, hempty⟩ hnone
  | cons first ps =>
    obtain ⟨last, hlast⟩ : ∃ last, (first :: ps).getLast? = some last := ⟨_, List.getLast?_eq_some_getLast (by simp)⟩
    refine ⟨?_, fun h => exact_of_spread checks rfl hlast h⟩
    rintro ⟨out, hout, h⟩
    rcases le_or_gt bs.val 0 with hle | hpos
    · -- a width that is not positive gives no bucket
      have hcount := h.count
      rw [resampled, hlast] at hout
      simp only [List.head?_cons, if_pos hle, Except.ok.injEq] at hout
      simp [← hout] at hcount
    · exact spread_of_exact checks rfl hlast hpos bs.property.2 hout h

/-- The operators return and lose nothing exactly where no quantile has to compare not-a-number, no window begins before the first time
there is in a build with overflow checks, and the points are in the range that the first one begins and the last one ends. -/
theorem loses_nothing_iff (checks : Bool) (points : List Dynamic) (window bucket_secs : I64) (agg : String) (q : Double) :
    LosesNothing checks points window bucket_secs agg q ↔
      ((parsePoints points).length ≤ 1 ∨ ∀ p ∈ parsePoints points, p.value ≠ .nan) ∧
      (checks = true → 0 < window.val → ∀ p ∈ parsePoints points, -2 ^ 63 ≤ p.ts.val - window.val) ∧
      Spread (parsePoints points) bucket_secs := by
  have hvalues : ((extractValues points).length ≤ 1 ∨ .nan ∉ extractValues points) ↔
      ((parsePoints points).length ≤ 1 ∨ ∀ p ∈ parsePoints points, p.value ≠ .nan) := by
    simp [extractValues]
  have hexact := exact_iff checks (parsePoints points) bucket_secs
  have hout : (∃ out, tsResample checks points bucket_secs agg = .ok (out.map fun b => (b.1, aggregate b.2 agg)) ∧
      resampled checks (parsePoints points) bucket_secs = .ok out ∧ Exact (parsePoints points) bucket_secs out) ↔
        ∃ out, resampled checks (parsePoints points) bucket_secs = .ok out ∧ Exact (parsePoints points) bucket_secs out := by
    refine exists_congr fun out => and_iff_right_of_imp fun h => ?_
    rw [tsResample, h.1]
    rfl
  unfold LosesNothing
  rw [hout, hexact, tsMovingAvg_iff, tsQuantile, tsP95, tsP99, quantileOf_iff, quantileOf_iff, quantileOf_iff, hvalues]
  tauto

/-- A point before the first one has no bucket. -/
theorem unsorted_points_panic : ¬LosesNothing false
    [.map [("ts", .int ⟨100, by decide⟩), ("value", .float (.fin 1))], .map [("ts", .int ⟨0, by decide⟩), ("value", .float (.fin 1))]]
    ⟨1, by decide⟩ ⟨60, by decide⟩ "avg" (.fin 0) := by
  intro h
  obtain ⟨-, -, -, -, out, -, hout, hexact⟩ := h
  have hspread := (exact_iff false _ _).mp ⟨out, hout, hexact⟩ ⟨⟨100, by decide⟩, .fin 1⟩ rfl ⟨⟨0, by decide⟩, .fin 1⟩ rfl
  exact absurd (hspread.2.1 ⟨⟨0, by decide⟩, .fin 1⟩ (List.mem_of_getLast? rfl)).1 (by decide)

end TsOps

end Opsense
