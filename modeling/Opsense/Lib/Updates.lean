import Mathlib

/-!
# Writes one after another

A list of writes is applied to a store, one entry at a time, and may stop after any of them. What was written then is the old
store or the new one, whenever it stops, exactly when no more than one entry changes and this one takes no third content on
the way (`cuts_iff`).

Steps that are taken a second time change nothing when each of them resets the state or is undone by none of the others
(`Settling`).
-/

namespace Opsense

namespace Updates

variable {ε ν : Type*} [DecidableEq ε]

/-- The store after the writes. -/
def run (f : ε → ν) (ws : List (ε × ν)) : ε → ν := ws.foldl (fun f w => Function.update f w.1 w.2) f

/-- At most one entry changes, and what is written to it is what it held or what it holds in the end. -/
def OneEntry (f : ε → ν) (ws : List (ε × ν)) : Prop :=
  ∃ e₀, ∀ w ∈ ws, w.2 = f w.1 ∨ (w.1 = e₀ ∧ w.2 = run f ws e₀)

@[simp] theorem run_nil (f : ε → ν) : run f [] = f := rfl

@[simp] theorem run_snoc (f : ε → ν) (ws : List (ε × ν)) (w : ε × ν) : run f (ws ++ [w]) = Function.update (run f ws) w.1 w.2 := by
  simp [run]

variable {ws : List (ε × ν)}

/-- Writes of what is there change nothing. -/
theorem run_same {f : ε → ν} (h : ∀ w ∈ ws, w.2 = f w.1) : run f ws = f := by
  induction ws using List.reverseRecOn with
  | nil => rfl
  | append_singleton ws w ih =>
    rw [run_snoc, ih fun w hw => h w (List.mem_append_left _ hw), h w (by simp), Function.update_eq_self]

/-- When no write so far changed the store, every one wrote what was there. -/
theorem same_of_cuts {f : ε → ν} (h : ∀ k, run f (ws.take k) = f) : ∀ w ∈ ws, w.2 = f w.1 := by
  induction ws using List.reverseRecOn with
  | nil => nofun
  | append_singleton ws w ih =>
    have hinit : ∀ k, run f (ws.take k) = f := by
      intro k
      have hk := h (min k ws.length)
      rwa [List.take_append_of_le_length (min_le_right _ _), ← List.take_eq_take_min] at hk
    have hws : run f ws = f := by
      have := hinit ws.length
      rwa [List.take_length] at this
    intro w' hw'
    rcases List.mem_append.mp hw' with hin | hlast
    · exact ih hinit w' hin
    · obtain rfl := List.mem_singleton.mp hlast
      have hall := h (ws ++ [w']).length
      rw [List.take_length, run_snoc, hws] at hall
      have := congrFun hall w'.1
      rwa [Function.update_self] at this

/-- A store that is written to one entry only differs there only. -/
theorem run_oneEntry {f : ε → ν} {e₀ : ε} {v : ν} (h : ∀ w ∈ ws, w.2 = f w.1 ∨ (w.1 = e₀ ∧ w.2 = v)) :
    run f ws = f ∨ run f ws = Function.update f e₀ v := by
  induction ws using List.reverseRecOn with
  | nil => exact Or.inl rfl
  | append_singleton ws w ih =>
    rw [run_snoc]
    rcases ih fun w hw => h w (List.mem_append_left _ hw) with hrun | hrun
    · rw [hrun]
      rcases h w (by simp) with hsame | ⟨he, hv⟩
      · rw [hsame, Function.update_eq_self]
        exact Or.inl rfl
      · rw [he, hv]
        exact Or.inr rfl
    · rw [hrun]
      by_cases he : w.1 = e₀
      · rw [he, Function.update_idem]
        rcases h w (by simp) with hsame | ⟨-, hv⟩
        · rw [hsame, he, Function.update_eq_self]
          exact Or.inl rfl
        · rw [hv]
          exact Or.inr rfl
      · have hsame := (h w (by simp)).resolve_right fun hw => he hw.1
        rw [Function.update_comm (Ne.symm he), hsame, Function.update_eq_self]
        exact Or.inr rfl

/-- What a write leaves at its own entry right after it. -/
theorem run_take_succ (f : ε → ν) {j : Nat} (hj : j < ws.length) :
    run f (ws.take (j + 1)) = Function.update (run f (ws.take j)) ws[j].1 ws[j].2 := by
  rw [List.take_succ_eq_append_getElem hj, run_snoc]

/-- The first write that changes the store, when some write does. -/
theorem exists_first_change {f : ε → ν} (h : ¬∀ k, run f (ws.take k) = f) :
    ∃ j, ∃ hj : j < ws.length, run f (ws.take j) = f ∧ Function.update f ws[j].1 ws[j].2 ≠ f := by
  classical
  have hex : ∃ k, run f (ws.take k) ≠ f := not_forall.mp h
  obtain ⟨j, hj⟩ : ∃ j, Nat.find hex = j + 1 := by
    refine Nat.exists_eq_succ_of_ne_zero fun hzero => ?_
    have hfind := Nat.find_spec hex
    rw [hzero] at hfind
    exact hfind rfl
  have hbefore : run f (ws.take j) = f := not_not.mp (Nat.find_min hex (by omega))
  have hafter := Nat.find_spec hex
  rw [hj] at hafter
  by_cases hlt : j < ws.length
  · rw [run_take_succ f hlt, hbefore] at hafter
    exact ⟨j, hlt, hbefore, hafter⟩
  · rw [List.take_of_length_le (by omega)] at hafter hbefore
    exact absurd hbefore hafter

/-- Stopped anywhere, the writes leave the old store or the new one, exactly when no more than one entry changes. -/
theorem cuts_iff [Nonempty ε] (f : ε → ν) (ws : List (ε × ν)) :
    (∀ k, run f (ws.take k) = f ∨ run f (ws.take k) = run f ws) ↔ OneEntry f ws := by
  constructor
  · intro h
    by_cases hall : ∀ k, run f (ws.take k) = f
    · exact ⟨Classical.arbitrary ε, fun w hw => Or.inl (same_of_cuts hall w hw)⟩
    · obtain ⟨j, hj, hbefore, hchange⟩ := exists_first_change hall
      -- the store right after the first change is already the new one
      have hnew : run f ws = Function.update f ws[j].1 ws[j].2 := by
        have hcut := h (j + 1)
        rw [run_take_succ f hj, hbefore] at hcut
        exact (hcut.resolve_left hchange).symm
      refine ⟨ws[j].1, fun w hw => ?_⟩
      obtain ⟨i, hi, rfl⟩ := List.mem_iff_getElem.mp hw
      have hwrite : run f (ws.take (i + 1)) ws[i].1 = ws[i].2 := by
        rw [run_take_succ f hi, Function.update_self]
      rcases h (i + 1) with hcut | hcut
      · left
        rw [← hwrite, hcut]
      · by_cases he : ws[i].1 = ws[j].1
        · right
          refine ⟨he, ?_⟩
          rw [← hwrite, hcut, he]
        · left
          rw [← hwrite, hcut, hnew, Function.update_of_ne he]
  · rintro ⟨e₀, h⟩ k
    rcases run_oneEntry fun w hw => h w (List.mem_of_mem_take hw) with hcut | hcut
    · exact Or.inl hcut
    · right
      rw [hcut]
      refine (funext fun e => ?_)
      by_cases he : e = e₀
      · rw [he, Function.update_self]
      · rcases run_oneEntry h with hrun | hrun
        · rw [hrun, Function.update_of_ne he]
        · rw [hrun, Function.update_of_ne he, Function.update_of_ne he]

end Updates

section Settling

variable {σ α : Type*} {step : σ → α → σ}

/-- The step leaves the same state whatever the state before. -/
def Resets (step : σ → α → σ) (a : α) : Prop := ∀ x y, step x a = step y a

/-- Every step resets the state, or leaves a state that it does not change and that no step leaves but one that resets. -/
def Settling (step : σ → α → σ) : Prop :=
  ∀ a, Resets step a ∨
    ((∀ x, step (step x a) a = step x a) ∧ ∀ b x, ¬Resets step b → step x a = x → step (step x b) a = step x b)

/-- After a step that resets, it does not matter what was before. -/
theorem foldl_of_resets {as : List α} (h : ∃ a ∈ as, Resets step a) (x y : σ) : as.foldl step x = as.foldl step y := by
  obtain ⟨a, ha, hreset⟩ := h
  obtain ⟨pre, post, rfl⟩ := List.append_of_mem ha
  rw [List.foldl_append, List.foldl_append, List.foldl_cons, List.foldl_cons, hreset]

theorem Settling.settled (h : Settling step) {as : List α} (has : ∀ a ∈ as, ¬Resets step a) (x : σ) :
    ∀ a ∈ as, step (as.foldl step x) a = as.foldl step x := by
  induction as using List.reverseRecOn with
  | nil => exact fun a ha => absurd ha List.not_mem_nil
  | append_singleton as b ih =>
    intro a ha
    have hb := has b (List.mem_append_right _ (List.mem_singleton_self b))
    obtain ⟨hidem, hkept⟩ := (h a).resolve_left (has a ha)
    rw [List.foldl_append, List.foldl_cons, List.foldl_nil]
    rcases List.mem_append.mp ha with hin | hlast
    · exact hkept b _ hb (ih (fun a ha => has a (List.mem_append_left _ ha)) a hin)
    · obtain rfl := List.mem_singleton.mp hlast
      exact hidem _

/-- Settling steps taken a second time change nothing. -/
theorem Settling.foldl_foldl (h : Settling step) (as : List α) (x : σ) :
    as.foldl step (as.foldl step x) = as.foldl step x := by
  by_cases hreset : ∃ a ∈ as, Resets step a
  · exact foldl_of_resets hreset _ _
  · push Not at hreset
    have hfixed := h.settled hreset x
    generalize as.foldl step x = y at hfixed
    clear hreset
    induction as with
    | nil => rfl
    | cons a as ih =>
      rw [List.foldl_cons, hfixed a List.mem_cons_self]
      exact ih fun a ha => hfixed a (List.mem_cons_of_mem _ ha)

/-- Steps that are named by others settle as well. -/
theorem Settling.comap {β : Type*} (h : Settling step) (f : β → α) : Settling fun x b => step x (f b) := by
  intro b
  rcases h (f b) with hreset | ⟨hidem, hkept⟩
  · exact Or.inl hreset
  · exact Or.inr ⟨hidem, fun b' x => hkept (f b') x⟩

end Settling

end Opsense
