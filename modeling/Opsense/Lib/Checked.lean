import Mathlib
import Opsense.Lib.Partial

/-!
# Arithmetic of machine integers, with its panics

Casts between signed and unsigned numbers wrap. Of a sum, a difference or a product that does not fit its type, a build with overflow
checks panics; one without them wraps.
-/

namespace Opsense

/-! ## Casts -/

/-- `as i64` of a `u64`. -/
def asI64 (n : Nat) : Int := Int.bmod n (2 ^ 64)

/-- A time that fits a signed number, as one. -/
theorem asI64_of_lt {n : Nat} (h : n < 2 ^ 63) : asI64 n = n := by
  unfold asI64
  rw [Int.bmod_def, Int.emod_eq_of_lt (by omega) (by omega), if_pos (by omega)]

theorem asI64_neg {n : Nat} (h : 2 ^ 63 ≤ n) (hlt : n < 2 ^ 64) : asI64 n < 0 := by
  unfold asI64
  rw [Int.bmod_def, Int.emod_eq_of_lt (by omega) (by omega), if_neg (by omega)]
  omega

/-- The cast of an `i64` to `u64`: a negative number becomes a large one. -/
def asU64 (t : Int) : Nat := (t % 2 ^ 64).toNat

theorem asU64_of_nonneg {t : Int} (h : 0 ≤ t) (hlt : t < 2 ^ 63) : asU64 t = t.toNat := by
  unfold asU64
  rw [Int.emod_eq_of_lt h (by omega)]

def I64_MAX : Int := 2 ^ 63 - 1

/-- The `i64` an operation saturates at. -/
def clampI64 (x : Int) : Int := max (-2 ^ 63) (min x I64_MAX)

/-- `as i32` of a `usize`. -/
def asI32 (n : Nat) : Int := Int.bmod n (2 ^ 32)

theorem asI32_of_lt {n : Nat} (h : n < 2 ^ 31) : asI32 n = n := by
  unfold asI32
  rw [Int.bmod_def, Int.emod_eq_of_lt (by omega) (by omega), if_pos (by omega)]

/-! ## Operations that may panic -/

open Partial

inductive Panic where
  /-- An index past the end of a list. -/
  | index
  /-- A sum past the end of its type. -/
  | overflow
  /-- A list of more bytes than there may be. -/
  | capacity
deriving DecidableEq, Repr

/-- A sum of `u64` or `usize`: past the end it panics in a build with overflow checks, and wraps in one without. -/
def addU64 (checks : Bool) (a b : Nat) : Except Panic Nat :=
  if checks = true ∧ 2 ^ 64 ≤ a + b then .error .overflow else .ok ((a + b) % 2 ^ 64)

theorem gives_addU64 (checks : Bool) (a b : Nat) :
    Gives (addU64 checks a b) (checks = true → a + b < 2 ^ 64) ((a + b) % 2 ^ 64) :=
  (gives_refuse _ Panic.overflow _).congr (by rw [not_and, Nat.not_le])

theorem addU64_eq {checks : Bool} {a b : Nat} (h : a + b < 2 ^ 64) : addU64 checks a b = .ok (a + b) := by
  rw [(gives_addU64 checks a b).eq_ok fun _ => h, Nat.mod_eq_of_lt h]

/-- A difference of `u64` or `usize`. -/
def subU64 (checks : Bool) (a b : Nat) : Except Panic Nat :=
  if checks = true ∧ a < b then .error .overflow else .ok ((a + 2 ^ 64 - b) % 2 ^ 64)

theorem subU64_eq {checks : Bool} {a b : Nat} (h : b ≤ a) (ha : a < 2 ^ 64) : subU64 checks a b = .ok (a - b) := by
  rw [subU64, if_neg (by omega)]
  congr 1
  omega

/-- A product of `u64` or `usize`. -/
def mulU64 (checks : Bool) (a b : Nat) : Except Panic Nat :=
  if checks = true ∧ 2 ^ 64 ≤ a * b then .error .overflow else .ok (a * b % 2 ^ 64)

theorem gives_mulU64 (checks : Bool) (a b : Nat) :
    Gives (mulU64 checks a b) (checks = true → a * b < 2 ^ 64) (a * b % 2 ^ 64) :=
  (gives_refuse _ Panic.overflow _).congr (by rw [not_and, Nat.not_le])

/-- A number of 64 bits. -/
def FitsI64 (n : Int) : Prop := -2 ^ 63 ≤ n ∧ n < 2 ^ 63

instance (n : Int) : Decidable (FitsI64 n) := inferInstanceAs (Decidable (_ ∧ _))

/-- A difference of `i64`. -/
def subI64 (checks : Bool) (a b : Int) : Except Panic Int :=
  if checks = true ∧ ¬FitsI64 (a - b) then .error .overflow else .ok (Int.bmod (a - b) (2 ^ 64))

theorem bmod_of_fitsI64 {n : Int} (h : FitsI64 n) : Int.bmod n (2 ^ 64) = n :=
  Int.bmod_eq_of_le_mul_two (by have := h.1; omega) (by have := h.2; omega)

theorem gives_subI64 (checks : Bool) (a b : Int) :
    Gives (subI64 checks a b) (checks = true → FitsI64 (a - b)) (Int.bmod (a - b) (2 ^ 64)) :=
  (gives_refuse _ Panic.overflow _).congr (by rw [not_and, not_not])

/-- `saturating_add` of `usize` -/
def satAddU64 (a b : Nat) : Nat := min (a + b) (2 ^ 64 - 1)

/-- `vec![x; n]` of elements of `bytes` bytes. -/
def vec {α : Type} (bytes n : Nat) (x : α) : Except Panic (List α) :=
  if 2 ^ 63 ≤ n * bytes then .error .capacity else .ok (List.replicate n x)

theorem gives_vec {α : Type} (bytes n : Nat) (x : α) : Gives (vec bytes n x) (n * bytes < 2 ^ 63) (List.replicate n x) :=
  (gives_refuse _ Panic.capacity _).congr Nat.not_le

end Opsense
