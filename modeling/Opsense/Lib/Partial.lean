import Mathlib.Data.List.Basic
import Mathlib.Tactic.SplitIfs

/-!
# Computations that may stop

A validation is a row of checks of which the first that fails gives its reason. It succeeds exactly when every check does. A computation
with errors is described by when it does not stop and by what it gives then (`Partial.Gives`). Descriptions compose as the computations
do: one after another, and along a list.
-/

namespace Opsense

/-! ## Checks in a row -/

/-- A check, with the reason that is given when it fails. -/
def refuse {ε : Type} (bad : Prop) [Decidable bad] (reason : ε) : Except ε Unit := if bad then .error reason else .ok ()

@[simp] theorem refuse_eq_ok {ε : Type} {bad : Prop} [Decidable bad] {reason : ε} : refuse bad reason = .ok () ↔ ¬bad := by
  unfold refuse
  split_ifs with h <;> simp [h]

theorem bind_eq_ok {ε α β : Type} {x : Except ε α} {f : α → Except ε β} {b : β} :
    (x >>= f) = .ok b ↔ ∃ a, x = .ok a ∧ f a = .ok b := by
  cases x with
  | error e =>
    constructor
    · intro h
      cases h
    · rintro ⟨_, h, _⟩
      cases h
  | ok a =>
    constructor
    · exact fun h => ⟨a, rfl, h⟩
    · rintro ⟨a', h, hf⟩
      rwa [← Except.ok.inj h] at hf

/-- A check is followed by the others. -/
theorem bind_unit_eq_ok {ε β : Type} {x : Except ε Unit} {f : Unit → Except ε β} {b : β} :
    (x >>= f) = .ok b ↔ x = .ok () ∧ f () = .ok b := by
  rw [bind_eq_ok]
  exact ⟨fun ⟨_, h⟩ => h, fun h => ⟨(), h⟩⟩

/-- The check of every element. -/
theorem forM_eq_ok {ε α : Type} {check : α → Except ε Unit} {l : List α} : l.forM check = .ok () ↔ ∀ a ∈ l, check a = .ok () := by
  induction l with
  | nil => exact ⟨fun _ a ha => absurd ha List.not_mem_nil, fun _ => rfl⟩
  | cons a l ih =>
    have hcons : (a :: l).forM check = (check a >>= fun _ => l.forM check) := rfl
    rw [hcons, bind_unit_eq_ok, ih, List.forall_mem_cons]

/-! ## When a computation does not stop, and what it gives -/

namespace Partial

variable {ε α β σ : Type}

/-- The computation gives `a` where `ok` holds, and stops with an error elsewhere. -/
def Gives (x : Except ε α) (ok : Prop) (a : α) : Prop := (ok ∧ x = .ok a) ∨ (¬ok ∧ ∃ e, x = .error e)

variable {x : Except ε α} {ok p q : Prop} {a : α} {b : β}

theorem gives_ok (a : α) : Gives (.ok a : Except ε α) True a := Or.inl ⟨trivial, rfl⟩

theorem gives_refuse (bad : Prop) [Decidable bad] (e : ε) (a : α) : Gives (if bad then .error e else .ok a) (¬bad) a := by
  by_cases h : bad
  · rw [if_pos h]
    exact Or.inr ⟨not_not.mpr h, e, rfl⟩
  · rw [if_neg h]
    exact Or.inl ⟨h, rfl⟩

theorem Gives.congr (h : Gives x p a) (hpq : p ↔ q) : Gives x q a := by
  unfold Gives
  rwa [← hpq]

/-- A computation gives something exactly where it does not stop. -/
theorem Gives.exists_iff (h : Gives x ok a) : (∃ a, x = .ok a) ↔ ok := by
  rcases h with ⟨hok, rfl⟩ | ⟨hnot, e, rfl⟩
  · exact ⟨fun _ => hok, fun _ => ⟨a, rfl⟩⟩
  · exact ⟨nofun, fun hok => absurd hok hnot⟩

theorem Gives.eq (h : Gives x ok a) {a' : α} (hx : x = .ok a') : a' = a := by
  rcases h with ⟨-, heq⟩ | ⟨-, e, heq⟩ <;> rw [heq] at hx
  · exact (Except.ok.inj hx).symm
  · cases hx

theorem Gives.eq_ok (h : Gives x ok a) (hok : ok) : x = .ok a := by
  rcases h with ⟨-, heq⟩ | ⟨hnot, -⟩
  · exact heq
  · exact absurd hok hnot

theorem ok_bind (a : α) (f : α → Except ε β) : ((.ok a : Except ε α) >>= f) = f a := rfl

theorem error_bind (e : ε) (f : α → Except ε β) : ((.error e : Except ε α) >>= f) = .error e := rfl

/-- One computation after another. -/
theorem Gives.bind {f : α → Except ε β} (h : Gives x p a) (hf : Gives (f a) q b) : Gives (x >>= f) (p ∧ q) b := by
  rcases h with ⟨hp, rfl⟩ | ⟨hp, e, rfl⟩
  · rcases hf with ⟨hq, heq⟩ | ⟨hq, e, heq⟩
    · exact Or.inl ⟨⟨hp, hq⟩, heq⟩
    · exact Or.inr ⟨fun h => hq h.2, e, heq⟩
  · exact Or.inr ⟨fun h => hp h.1, e, rfl⟩

/-- The condition holds of every element, asked of the state that the elements before it lead to. -/
def Along (step : σ → α → σ) (ok : σ → α → Prop) : σ → List α → Prop
  | _, [] => True
  | s, a :: as => ok s a ∧ Along step ok (step s a) as

theorem along_of_forall {step : σ → α → σ} {ok : σ → α → Prop} (h : ∀ s a, ok s a) (s : σ) (as : List α) : Along step ok s as := by
  induction as generalizing s with
  | nil => trivial
  | cons a as ih => exact ⟨h s a, ih _⟩

/-- A condition that does not look at the state. -/
theorem along_const {step : σ → α → σ} {ok : α → Prop} (s : σ) (as : List α) :
    Along step (fun _ a => ok a) s as ↔ ∀ a ∈ as, ok a := by
  induction as generalizing s with
  | nil => exact ⟨fun _ => by simp, fun _ => trivial⟩
  | cons a as ih => rw [Along, ih, List.forall_mem_cons]

/-- A condition that a state is only looked at for what all states of the pass have in common. -/
theorem along_iff_of_invariant {step : σ → α → σ} {ok : σ → α → Prop} {ok' : α → Prop} (inv : σ → Prop)
    {s : σ} {as : List α} (hinv : inv s) (hstep : ∀ s, inv s → ∀ a ∈ as, inv (step s a)) (hok : ∀ s, inv s → ∀ a ∈ as, (ok s a ↔ ok' a)) :
    Along step ok s as ↔ ∀ a ∈ as, ok' a := by
  induction as generalizing s with
  | nil => exact ⟨fun _ => by simp, fun _ => trivial⟩
  | cons a as ih =>
    have hrest := ih (hstep s hinv a List.mem_cons_self) (fun s hs b hb => hstep s hs b (List.mem_cons_of_mem _ hb))
      fun s hs b hb => hok s hs b (List.mem_cons_of_mem _ hb)
    rw [Along, hrest, hok s hinv a List.mem_cons_self, List.forall_mem_cons]

/-- A row of computations. -/
theorem gives_foldlM {f : σ → α → Except ε σ} {step : σ → α → σ} {ok : σ → α → Prop} (h : ∀ s a, Gives (f s a) (ok s a) (step s a))
    (s : σ) (as : List α) : Gives (as.foldlM f s) (Along step ok s as) (as.foldl step s) := by
  induction as generalizing s with
  | nil => exact gives_ok s
  | cons a as ih => exact (h s a).bind (ih (step s a))

end Partial

end Opsense
