import Mathlib.Data.List.Forall2

/-!
# Reads that all succeed

`mapM` of a function that may fail: it fails when the function does for one of the elements, and else it gives what the function
gives for each of them, which may know its index.
-/

namespace Opsense

theorem mapM_none {α β : Type} {f : α → Option β} {l : List α} : l.mapM f = none ↔ ∃ a ∈ l, f a = none := by
  induction l with
  | nil => simp
  | cons a l ih =>
    rw [List.mapM_cons]
    cases hf : f a with
    | none => simp [hf]
    | some b => cases hl : l.mapM f <;> simp [hf, hl] at ih ⊢ <;> exact ih

theorem mapM_some {α β : Type} {f : α → Option β} {l : List α} {bs : List β} (h : l.mapM f = some bs) :
    List.Forall₂ (fun a b => f a = some b) l bs := by
  induction l generalizing bs with
  | nil =>
    obtain rfl : [] = bs := Option.some.inj h
    exact List.Forall₂.nil
  | cons a l ih =>
    rw [List.mapM_cons] at h
    obtain ⟨b, hb, h⟩ := Option.bind_eq_some_iff.mp h
    obtain ⟨rest, hrest, h⟩ := Option.bind_eq_some_iff.mp h
    obtain rfl : b :: rest = bs := Option.some.inj h
    exact List.Forall₂.cons hb (ih hrest)

theorem mem_mapM {α β : Type} {f : α → Option β} {l : List α} {bs : List β} (h : l.mapM f = some bs) {b : β} (hb : b ∈ bs) :
    ∃ a ∈ l, f a = some b := by
  have hpairs := mapM_some h
  clear h
  induction hpairs with
  | nil => exact absurd hb List.not_mem_nil
  | @cons a b' l bs hab _ ih =>
    rcases List.mem_cons.mp hb with rfl | hb
    · exact ⟨a, by simp, hab⟩
    · obtain ⟨a', ha', heq⟩ := ih hb
      exact ⟨a', List.mem_cons_of_mem _ ha', heq⟩

theorem mapM_eq_map {α β : Type} {f : α → Option β} {g : α → β} {l : List α} (h : ∀ a ∈ l, f a = some (g a)) :
    l.mapM f = some (l.map g) := by
  induction l with
  | nil => rfl
  | cons a l ih =>
    rw [List.mapM_cons, h a List.mem_cons_self, ih fun b hb => h b (List.mem_cons_of_mem _ hb)]
    rfl

theorem exists_mapM {α β : Type} {f : α → Option β} {l : List α} (h : ∀ a ∈ l, ∃ b, f a = some b) : ∃ bs, l.mapM f = some bs := by
  rw [← Option.ne_none_iff_exists', ne_eq, mapM_none]
  rintro ⟨a, ha, hnone⟩
  obtain ⟨b, hb⟩ := h a ha
  rw [hb] at hnone
  cases hnone

/-! ## Elements with their indices -/

theorem mapM_zipIdx_some {α β : Type} {f : α × Nat → Option β} {l : List α} {bs : List β} (h : l.zipIdx.mapM f = some bs) :
    bs.length = l.length ∧ ∀ i b, bs[i]? = some b → ∃ a, l[i]? = some a ∧ f (a, i) = some b := by
  have hpairs := mapM_some h
  have hlength : bs.length = l.length := by rw [← hpairs.length_eq, List.length_zipIdx]
  refine ⟨hlength, fun i b hb => ?_⟩
  obtain ⟨hi, rfl⟩ := List.getElem?_eq_some_iff.mp hb
  have hi' : i < l.length := lt_of_lt_of_eq hi hlength
  refine ⟨l[i], List.getElem?_eq_getElem hi', ?_⟩
  have hpair := hpairs.get (i := i) (by simpa using hi') hi
  simpa using hpair

theorem exists_mapM_zipIdx {α β : Type} {f : α × Nat → Option β} {l : List α} (h : ∀ i a, l[i]? = some a → ∃ b, f (a, i) = some b) :
    ∃ bs, l.zipIdx.mapM f = some bs :=
  exists_mapM fun a ha => h a.2 a.1 (List.mk_mem_zipIdx_iff_getElem?.mp ha)

end Opsense
