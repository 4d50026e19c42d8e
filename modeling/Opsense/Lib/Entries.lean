import Mathlib

/-!
# The entries of a list by their places

What is at a place after an entry was added at the end (`getElem?_snoc`) or replaced (`getElem?_replaced`), and a list as one of its
entries and the others (`mem_iff_eraseIdx`, `filterMap_perm_eraseIdx`).
-/

namespace Opsense

/-- An entry of a list with one more at its end. -/
theorem getElem?_snoc {α : Type*} {as : List α} {a b : α} {i : Nat} (h : (as ++ [a])[i]? = some b) :
    as[i]? = some b ∨ i = as.length ∧ b = a := by
  rcases Nat.lt_trichotomy i as.length with hlt | rfl | hgt
  · rw [List.getElem?_append_left hlt] at h
    exact Or.inl h
  · rw [List.getElem?_concat_length] at h
    exact Or.inr ⟨rfl, (Option.some.inj h).symm⟩
  · rw [List.getElem?_eq_none (by simp; omega)] at h
    cases h

/-- An entry of a list with one of them replaced. -/
theorem getElem?_replaced {α : Type*} {as : List α} {a b : α} {i j : Nat} (h : (as.set i a)[j]? = some b) :
    as[j]? = some b ∨ j = i ∧ b = a := by
  by_cases heq : i = j
  · subst heq
    have hlt : i < as.length := by
      have := (List.getElem?_eq_some_iff.mp h).1
      rwa [List.length_set] at this
    rw [List.getElem?_set_self hlt] at h
    exact Or.inr ⟨rfl, (Option.some.inj h).symm⟩
  · rw [List.getElem?_set_ne heq] at h
    exact Or.inl h

/-- What is collected from a list, with that of one element in front. -/
theorem filterMap_perm_eraseIdx {α β : Type*} (f : α → Option β) {l : List α} {n : Nat} {a : α} (h : l[n]? = some a) :
    (l.filterMap f).Perm ((f a).toList ++ (l.eraseIdx n).filterMap f) := by
  obtain ⟨hn, rfl⟩ := List.getElem?_eq_some_iff.mp h
  refine ((List.getElem_cons_eraseIdx_perm hn).symm.filterMap f).trans (.of_eq ?_)
  cases hf : f l[n] with
  | none => exact List.filterMap_cons_none hf
  | some b => exact List.filterMap_cons_some hf

/-- The same when this element is changed. -/
theorem filterMap_set_perm {α β : Type*} (f : α → Option β) {l : List α} {n : Nat} {a : α} (h : l[n]? = some a) (b : α) :
    ((l.set n b).filterMap f).Perm ((f b).toList ++ (l.eraseIdx n).filterMap f) := by
  obtain ⟨hn, rfl⟩ := List.getElem?_eq_some_iff.mp h
  have hset := filterMap_perm_eraseIdx f (List.getElem?_set_self (a := b) hn)
  rwa [List.eraseIdx_set_eq] at hset

/-- The elements of a list are one of them and the others. -/
theorem mem_iff_eraseIdx {α : Type*} {l : List α} {n : Nat} {a : α} (h : l[n]? = some a) (x : α) :
    x ∈ l ↔ x = a ∨ x ∈ l.eraseIdx n := by
  obtain ⟨hn, rfl⟩ := List.getElem?_eq_some_iff.mp h
  rw [← (List.getElem_cons_eraseIdx_perm hn).mem_iff, List.mem_cons]

theorem mem_set_iff_eraseIdx {α : Type*} {l : List α} {n : Nat} {a : α} (h : l[n]? = some a) (b x : α) :
    x ∈ l.set n b ↔ x = b ∨ x ∈ l.eraseIdx n := by
  obtain ⟨hn, rfl⟩ := List.getElem?_eq_some_iff.mp h
  rw [mem_iff_eraseIdx (List.getElem?_set_self (a := b) hn), List.eraseIdx_set_eq]

end Opsense
