import Mathlib

/-!
# Tensors of two axes

The operators of ONNX on tensors of two axes, with exact arithmetic: a product of matrices, operators on the entries of tensors of one
shape, a quotient, which has no value where a divisor is zero, and the reductions of rows. What they do to a row, a column and a scalar is
said by the lemmas on `row`, `col` and `scalar`.
-/

namespace Opsense

structure Tensor (F : Type*) where
  rows : Nat
  cols : Nat
  entry : Fin rows → Fin cols → F

namespace Tensor

variable {F : Type*}

/-- A window of values. -/
def row (n : Nat) (x : Nat → F) : Tensor F := ⟨1, n, fun _ j => x j⟩

/-- A column of weights. -/
def col (n : Nat) (w : Nat → F) : Tensor F := ⟨n, 1, fun i _ => w i⟩

def scalar (v : F) : Tensor F := ⟨1, 1, fun _ _ => v⟩

theorem scalar_inj {v w : F} : scalar v = scalar w ↔ v = w := by
  refine ⟨fun h => ?_, congrArg scalar⟩
  have hentry : (scalar v).entry = (scalar w).entry := eq_of_heq (Tensor.mk.inj h).2.2
  exact congrFun (congrFun hentry (0 : Fin 1)) (0 : Fin 1)

/-- `MatMul` -/
def matMul [NonUnitalNonAssocSemiring F] (a b : Tensor F) : Option (Tensor F) :=
  if h : a.cols = b.rows then some ⟨a.rows, b.cols, Matrix.of a.entry * Matrix.of fun k => b.entry (k.cast h)⟩ else none

/-- An operator on the entries. -/
def map (f : F → F) (a : Tensor F) : Tensor F := ⟨a.rows, a.cols, fun i j => f (a.entry i j)⟩

/-- An operator on the entries of two tensors of one shape. -/
def zip (f : F → F → F) (a b : Tensor F) : Option (Tensor F) :=
  if h : a.rows = b.rows ∧ a.cols = b.cols then
    some ⟨a.rows, a.cols, fun i j => f (a.entry i j) (b.entry (i.cast h.1) (j.cast h.2))⟩
  else none

def div [Field F] [DecidableEq F] (a b : Tensor F) : Option (Tensor F) :=
  if ∀ i j, b.entry i j ≠ 0 then zip (· / ·) a b else none

/-- A reduction of the rows, which are kept as rows of one entry. -/
def reduce (f : List F → Option F) (a : Tensor F) : Option (Tensor F) :=
  if h : ∀ i, (f (List.ofFn (a.entry i))).isSome then some ⟨a.rows, 1, fun i _ => (f (List.ofFn (a.entry i))).get (h i)⟩ else none

/-- The entries in the order of the rows. -/
def ofData [Zero F] (rows cols : Nat) (data : List F) : Option (Tensor F) :=
  if data.length = rows * cols then some ⟨rows, cols, fun i j => data.getD (i * cols + j) 0⟩ else none

theorem matMul_row_col [NonUnitalNonAssocSemiring F] (n : Nat) (x w : Nat → F) :
    matMul (row n x) (col n w) = some (scalar (∑ j ∈ Finset.range n, x j * w j)) := by
  have hcols : (row n x).cols = (col n w).rows := rfl
  unfold matMul
  rw [dif_pos hcols, ← Fin.sum_univ_eq_sum_range fun j => x j * w j]
  rfl

@[simp] theorem map_row (f : F → F) (n : Nat) (x : Nat → F) : map f (row n x) = row n fun j => f (x j) := rfl

@[simp] theorem zip_row (f : F → F → F) (n : Nat) (x y : Nat → F) : zip f (row n x) (row n y) = some (row n fun j => f (x j) (y j)) := by
  have hshape : (row n x).rows = (row n y).rows ∧ (row n x).cols = (row n y).cols := ⟨rfl, rfl⟩
  unfold zip
  rw [dif_pos hshape]
  rfl

@[simp] theorem zip_scalar (f : F → F → F) (a b : F) : zip f (scalar a) (scalar b) = some (scalar (f a b)) := by
  have hshape : (scalar a).rows = (scalar b).rows ∧ (scalar a).cols = (scalar b).cols := ⟨rfl, rfl⟩
  unfold zip
  rw [dif_pos hshape]
  rfl

theorem div_scalar [Field F] [DecidableEq F] (a b : F) : div (scalar a) (scalar b) = if b = 0 then none else some (scalar (a / b)) := by
  have hentry : (∀ i j, (scalar b).entry i j ≠ 0) ↔ ¬b = 0 := ⟨fun h => h (0 : Fin 1) (0 : Fin 1), fun h _ _ => h⟩
  unfold div
  rw [zip_scalar]
  by_cases h : b = 0
  · rw [if_pos h, if_neg fun hne => hentry.mp hne h]
  · rw [if_neg h, if_pos (hentry.mpr h)]

theorem reduce_row (f : List F → Option F) (n : Nat) (x : Nat → F) :
    reduce f (row n x) = (f ((List.range n).map x)).map scalar := by
  have hrow : List.ofFn (fun j : Fin n => x j) = (List.range n).map x := by
    rw [List.ofFn_eq_map, ← List.map_coe_finRange_eq_range, List.map_map]
    rfl
  have hsome : (∀ i, (f (List.ofFn ((row n x).entry i))).isSome) ↔ (f ((List.range n).map x)).isSome := by
    rw [← hrow]
    exact ⟨fun h => h (0 : Fin 1), fun h _ => h⟩
  unfold reduce
  cases h : f ((List.range n).map x) with
  | none =>
    rw [h] at hsome
    rw [dif_neg fun hall => Bool.false_ne_true (hsome.mp hall)]
    rfl
  | some v =>
    rw [h] at hsome
    have hget : ∀ i hi, (f (List.ofFn ((row n x).entry i))).get hi = v := by
      intro i hi
      have hf : f (List.ofFn ((row n x).entry i)) = some v := (congrArg f hrow).trans h
      simp only [hf, Option.get_some]
    rw [dif_pos (hsome.mpr rfl)]
    simp only [hget]
    rfl

theorem ofData_col [Zero F] {n : Nat} {data : List F} (h : data.length = n) : ofData n 1 data = some (col n fun i => data.getD i 0) := by
  unfold ofData col
  rw [if_pos (by rw [h, Nat.mul_one])]
  simp

theorem ofData_row [Zero F] {n : Nat} {data : List F} (h : data.length = n) : ofData 1 n data = some (row n fun i => data.getD i 0) := by
  unfold ofData row
  rw [if_pos (by rw [h, Nat.one_mul])]
  simp

end Tensor

end Opsense
