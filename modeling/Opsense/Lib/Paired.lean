import Mathlib

/-!
# Two sets that are updated one after the other

A key is put into one set and then into the other, or taken out of the one and then of the other, by operations that stand between
their two updates for a while. The sets agree on every key that no operation stands between its updates of (`Paired`), as long as the
last operation to finish with a key finds the first set as it has left it.
-/

namespace Opsense

/-- The sets agree but on the keys of which one set is updated and the other not yet. -/
def Paired {κ : Type*} (left right : Set κ) (pending : List κ) : Prop := ∀ k ∉ pending, (k ∈ right ↔ k ∈ left)

namespace Paired

variable {κ : Type*} {left left' right right' : Set κ} {pending pending' : List κ} {k : κ}

theorem of_perm (h : Paired left right pending) (hpending : pending'.Perm pending) : Paired left right pending' :=
  fun k hk => h k (mt hpending.mem_iff.mpr hk)

/-- An operation updates the first set. -/
theorem begins (h : Paired left right pending) (hleft : ∀ k' ≠ k, (k' ∈ left' ↔ k' ∈ left)) : Paired left' right (k :: pending) := by
  intro k' hk'
  obtain ⟨hne, hk'⟩ := List.ne_and_not_mem_of_not_mem_cons hk'
  rw [hleft k' hne]
  exact h k' hk'

/-- An operation updates the second set; what it makes of it matters when no other stands between its updates of the key. -/
theorem finishes_iff (h : Paired left right (k :: pending)) (hright : ∀ k' ≠ k, (k' ∈ right' ↔ k' ∈ right)) :
    Paired left right' pending ↔ k ∈ pending ∨ (k ∈ right' ↔ k ∈ left) := by
  refine ⟨fun hpaired => or_iff_not_imp_left.mpr (hpaired k), fun hk k' hk' => ?_⟩
  by_cases heq : k' = k
  · subst heq
    exact hk.resolve_left hk'
  · rw [hright k' heq]
    exact h k' (List.not_mem_cons_of_ne_of_not_mem heq hk')

end Paired

end Opsense
