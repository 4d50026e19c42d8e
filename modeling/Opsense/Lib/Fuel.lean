import Mathlib.Data.Nat.Basic
import Mathlib.Order.Basic

/-!
# Computations with fuel

A computation is given some fuel and may run out of it. It `Gives` a result when it does so with enough fuel, and it `Hangs` when it
runs out of any. What a computation comes to, and whether it comes to anything, is `Settles`; the rules are for a
step that takes fuel and for one computation after another.
-/

namespace Opsense

/-- A computation that may fail. -/
abbrev Fueled (ε β : Type) := Nat → Option (Except ε β)

namespace Fueled

variable {ε β γ : Type}

/-- One computation after another, on the same fuel. -/
def andThen (f : Fueled ε β) (k : β → Fueled ε γ) : Fueled ε γ := fun fuel =>
  match f fuel with
  | none => none
  | some (.error e) => some (.error e)
  | some (.ok b) => k b fuel

/-- With enough fuel that is the result, and with less it is that or none. -/
structure Gives (f : Fueled ε β) (r : Except ε β) : Prop where
  enough : ∃ enough, ∀ fuel, enough ≤ fuel → f fuel = some r
  only : ∀ fuel, f fuel = none ∨ f fuel = some r

/-- No fuel is enough. -/
def Hangs (f : Fueled ε β) : Prop := ∀ fuel, f fuel = none

/-- The computation gives a value of some kind, or it fails and was not to hang, or it hangs and was to. -/
inductive Settles (f : Fueled ε β) (ok : β → Prop) (hangs : Bool) : Prop where
  | ok {b : β} : ok b → f.Gives (.ok b) → Settles f ok hangs
  | error {e : ε} : f.Gives (.error e) → hangs = false → Settles f ok hangs
  | hangs : f.Hangs → hangs = true → Settles f ok hangs

variable {f g : Fueled ε β} {k : β → Fueled ε γ} {r : Except ε β} {ok ok' : β → Prop} {hangs : Bool}

theorem Gives.step (h : f.Gives r) (hzero : g 0 = none) (hstep : ∀ fuel, g (fuel + 1) = f fuel) : g.Gives r := by
  obtain ⟨enough, henough⟩ := h.enough
  constructor
  · refine ⟨enough + 1, fun fuel hfuel => ?_⟩
    obtain ⟨fuel, rfl⟩ := Nat.exists_eq_add_of_le' (Nat.le_of_add_left_le hfuel)
    rw [hstep, henough fuel (by omega)]
  · intro fuel
    cases fuel with
    | zero => exact Or.inl hzero
    | succ fuel =>
      rw [hstep]
      exact h.only fuel

theorem Hangs.step (h : f.Hangs) (hzero : g 0 = none) (hstep : ∀ fuel, g (fuel + 1) = f fuel) : g.Hangs
  | 0 => hzero
  | fuel + 1 => (hstep fuel).trans (h fuel)

theorem gives_now (hzero : g 0 = none) (hstep : ∀ fuel, g (fuel + 1) = some r) : g.Gives r := by
  constructor
  · refine ⟨1, fun fuel hfuel => ?_⟩
    obtain ⟨fuel, rfl⟩ := Nat.exists_eq_add_of_le' hfuel
    exact hstep fuel
  · intro fuel
    cases fuel with
    | zero => exact Or.inl hzero
    | succ fuel => exact Or.inr (hstep fuel)

/-- A step that takes fuel settles as what follows it. -/
theorem Settles.step (h : Settles f ok hangs) (hzero : g 0 = none) (hstep : ∀ fuel, g (fuel + 1) = f fuel) :
    Settles g ok hangs := by
  cases h with
  | ok hb hf => exact .ok hb (hf.step hzero hstep)
  | error hf hnot => exact .error (hf.step hzero hstep) hnot
  | hangs hf hhangs => exact .hangs (hf.step hzero hstep) hhangs

theorem Settles.congr (h : Settles f ok hangs) (heq : ∀ fuel, g fuel = f fuel) : Settles g ok hangs := by
  rw [show g = f from funext heq]
  exact h

theorem Settles.mono (h : Settles f ok hangs) (hok : ∀ b, ok b → ok' b) : Settles f ok' hangs := by
  cases h with
  | ok hb hf => exact .ok (hok _ hb) hf
  | error hf hnot => exact .error hf hnot
  | hangs hf hhangs => exact .hangs hf hhangs

theorem Gives.andThen {b : β} {r : Except ε γ} (hf : f.Gives (.ok b)) (hk : (k b).Gives r) : (f.andThen k).Gives r := by
  obtain ⟨enough, hf₁⟩ := hf.enough
  obtain ⟨enough', hk₁⟩ := hk.enough
  constructor
  · refine ⟨max enough enough', fun fuel hfuel => ?_⟩
    unfold Fueled.andThen
    rw [hf₁ fuel (by omega)]
    exact hk₁ fuel (by omega)
  · intro fuel
    unfold Fueled.andThen
    rcases hf.only fuel with h | h
    · rw [h]
      exact Or.inl rfl
    · rw [h]
      exact hk.only fuel

theorem Gives.andThen_error {e : ε} (hf : f.Gives (.error e)) : (f.andThen k).Gives (.error e) := by
  obtain ⟨enough, hf₁⟩ := hf.enough
  constructor
  · refine ⟨enough, fun fuel hfuel => ?_⟩
    unfold Fueled.andThen
    rw [hf₁ fuel hfuel]
  · intro fuel
    unfold Fueled.andThen
    rcases hf.only fuel with h | h
    · rw [h]
      exact Or.inl rfl
    · rw [h]
      exact Or.inr rfl

theorem Gives.andThen_hangs {b : β} (hf : f.Gives (.ok b)) (hk : (k b).Hangs) : (f.andThen k).Hangs := by
  intro fuel
  unfold Fueled.andThen
  rcases hf.only fuel with h | h
  · rw [h]
  · rw [h]
    exact hk fuel

theorem Hangs.andThen (hf : f.Hangs) : (f.andThen k).Hangs := by
  intro fuel
  unfold Fueled.andThen
  rw [hf fuel]

/-- What follows a computation decides how both settle. -/
theorem Settles.andThen {ok' : γ → Prop} (h : Settles f ok hangs) (hk : ∀ b, ok b → Settles (k b) ok' hangs) :
    Settles (f.andThen k) ok' hangs := by
  cases h with
  | @ok b hb hf =>
    cases hk b hb with
    | ok hc hg => exact .ok hc (hf.andThen hg)
    | error hg hnot => exact .error (hf.andThen hg) hnot
    | hangs hg hhangs => exact .hangs (hf.andThen_hangs hg) hhangs
  | error hf hnot => exact .error hf.andThen_error hnot
  | hangs hf hhangs => exact .hangs hf.andThen hhangs

/-- A computation that is not to hang when it gives a value comes to something exactly when it is not to hang. -/
theorem Settles.halts_iff (h : Settles f ok hangs) (hok : ∀ b, ok b → hangs = false) : (∃ fuel, f fuel ≠ none) ↔ hangs = false := by
  have hgives : ∀ r, f.Gives r → ∃ fuel, f fuel ≠ none := by
    intro r hr
    obtain ⟨enough, henough⟩ := hr.enough
    exact ⟨enough, by simp [henough enough (le_refl _)]⟩
  cases h with
  | ok hb hf => exact iff_of_true (hgives _ hf) (hok _ hb)
  | error hf hnot => exact iff_of_true (hgives _ hf) hnot
  | hangs hf hhangs =>
    refine iff_of_false ?_ (by simp [hhangs])
    rintro ⟨fuel, hfuel⟩
    exact hfuel (hf fuel)

end Fueled

end Opsense
