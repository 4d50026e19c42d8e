import Mathlib.Data.List.Basic
import Mathlib.Data.List.Flatten

/-!
# Walks with choices

A step leads from a place to some places, one after another. A walk takes the steps of a list, from all the places that were
reached by the ones before (`Choices.walk`), which is what the walks from each place alone give (`Choices.walk_eq`). Of two walks one of
which reaches a part of what the other one reaches, they are the same exactly when they are so everywhere
(`flatMap_eq_iff_of_sublist`).
-/

namespace Opsense

namespace Choices

variable {ι α β : Type*}

/-- The places that a list of steps leads to. -/
def walk (step : ι → α → List α) : List ι → List α → List α
  | [], places => places
  | i :: is, places =>
    let next := places.flatMap (step i)
    if next = [] then [] else walk step is next

/-- The places that a list of steps leads to from one place. -/
def ends (step : ι → α → List α) : List ι → α → List α
  | [], a => [a]
  | i :: is, a => (step i a).flatMap (ends step is)

theorem walk_eq (step : ι → α → List α) (is : List ι) (places : List α) : walk step is places = places.flatMap (ends step is) := by
  induction is generalizing places with
  | nil => simp [walk, ends]
  | cons i is ih =>
    rw [walk]
    split_ifs with hnext
    · symm
      rw [List.flatMap_eq_nil_iff] at hnext ⊢
      intro a ha
      rw [ends, hnext a ha]
      rfl
    · rw [ih, List.flatMap_assoc]
      rfl

theorem flatMap_eq_iff_of_sublist {f g : α → List β} {as : List α} (h : ∀ a ∈ as, (f a).Sublist (g a)) :
    as.flatMap f = as.flatMap g ↔ ∀ a ∈ as, f a = g a := by
  refine ⟨fun heq => ?_, fun hall => List.flatMap_congr hall⟩
  induction as with
  | nil => simp
  | cons a as ih =>
    have hrest : ∀ a' ∈ as, (f a').Sublist (g a') := fun a' ha' => h a' (List.mem_cons_of_mem _ ha')
    have hfirst := h a List.mem_cons_self
    rw [List.flatMap_cons, List.flatMap_cons] at heq
    -- neither part is longer than its counterpart, so that none is shorter
    have hlength := congrArg List.length heq
    rw [List.length_append, List.length_append] at hlength
    have hle := hfirst.length_le
    have hle' := (List.Sublist.flatMap_right as hrest).length_le
    have hsame : f a = g a := hfirst.eq_of_length (by omega)
    refine List.forall_mem_cons.mpr ⟨hsame, ih hrest ?_⟩
    rw [hsame] at heq
    exact List.append_cancel_left heq

end Choices

end Opsense
