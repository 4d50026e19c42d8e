import Mathlib.Data.Rat.Floor

/-!
# Scalars

The kernel computes with `f64`. Where it does not matter how a double rounds, the arithmetic is a class without laws: what is
proved over every instance holds of IEEE 754 doubles, with their not-a-number, and of every other arithmetic. Comparisons go through `partialCmp`, as `<`, `<=`, `>` and `>=` of a
`PartialOrd` do. The rational instance is for evaluating the model. Scalars that are rounded and cast have `floor`, `ceil` and the cast
to an unsigned integer besides. The cast saturates at both ends, and is 0 of what is not a number.
-/

namespace Opsense

/-- The operations of `f64` that the program uses. -/
class Scalar (F : Type) extends Add F, Sub F, Mul F, Div F, OfScientific F where
  /-- `partial_cmp` -/
  partialCmp : F → F → Option Ordering
  isFinite : F → Bool
  /-- `max`, which returns the other argument when one is not a number. -/
  max : F → F → F
  /-- The conversion from an unsigned integer. -/
  ofNat : Nat → F
  /-- The text with a fixed number of decimals. -/
  fixed : Nat → F → String

namespace Scalar

variable {F : Type} [Scalar F]

/-- `<` -/
def lt (a b : F) : Bool := partialCmp a b == some .lt

/-- `<=` -/
def le (a b : F) : Bool := partialCmp a b == some .lt || partialCmp a b == some .eq

/-- `>` -/
def gt (a b : F) : Bool := partialCmp a b == some .gt

/-- `>=` -/
def ge (a b : F) : Bool := partialCmp a b == some .gt || partialCmp a b == some .eq

/-- `partial_cmp(..).unwrap_or(Equal)`, the order the levels of a grid are sorted and searched by. -/
def cmpOrEqual (a b : F) : Ordering := (partialCmp a b).getD .eq

end Scalar

/-- A rational as text, rounded toward zero. -/
def ratFixed (n : Nat) (q : ℚ) : String :=
  let scaled := (q.num.natAbs * 10 ^ n) / q.den
  let digits := toString (scaled % 10 ^ n)
  let sign := if q < 0 then "-" else ""
  let point := if n = 0 then "" else "." ++ String.ofList (List.replicate (n - digits.length) '0') ++ digits
  sign ++ toString (scaled / 10 ^ n) ++ point

instance : Scalar ℚ where
  partialCmp a b := some (if a < b then .lt else if a = b then .eq else .gt)
  isFinite _ := true
  max a b := if a ≤ b then b else a
  ofNat n := n
  fixed := ratFixed

/-! ## Rounding and casts -/

class Rounding (F : Type) extends Scalar F where
  floor : F → F
  ceil : F → F
  /-- `as usize` and `as u64` -/
  toNat : F → Nat

instance : Rounding ℚ where
  floor q := (⌊q⌋ : Int)
  ceil q := (⌈q⌉ : Int)
  toNat q := Min.min ⌊q⌋₊ (2 ^ 64 - 1)

/-! ## Exact comparisons -/

section Exact

variable {a b : ℚ}

theorem lt_rat_iff : Scalar.lt a b = true ↔ a < b := by
  rcases lt_trichotomy a b with h | rfl | h
  · simp [Scalar.lt, Scalar.partialCmp, h]
  · simp [Scalar.lt, Scalar.partialCmp]
  · simp [Scalar.lt, Scalar.partialCmp, h.not_gt, h.ne']

theorem le_rat_iff : Scalar.le a b = true ↔ a ≤ b := by
  rcases lt_trichotomy a b with h | rfl | h
  · simp [Scalar.le, Scalar.partialCmp, h, h.le]
  · simp [Scalar.le, Scalar.partialCmp]
  · simp [Scalar.le, Scalar.partialCmp, h, h.not_gt, h.ne']

theorem ge_rat_iff : Scalar.ge a b = true ↔ b ≤ a := by
  rcases lt_trichotomy a b with h | rfl | h
  · simp [Scalar.ge, Scalar.partialCmp, h]
  · simp [Scalar.ge, Scalar.partialCmp]
  · simp [Scalar.ge, Scalar.partialCmp, h.le, h.not_gt, h.ne']

end Exact

end Opsense
