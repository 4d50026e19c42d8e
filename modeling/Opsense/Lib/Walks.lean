import Mathlib

/-!
# Walks, and a queue that follows them

A queue from which an item is taken in each step, and to which its successors are added or not, is empty after as many steps as walks
start at its items (`queue_drained`).
-/

namespace Opsense

variable {α σ : Type*} (next : α → List α)

/-- The ends of the walks of some steps from the items of a list, once for each walk. -/
def walks (k : Nat) (l : List α) : List α := (fun l => l.flatMap next)^[k] l

/-- The number of walks of fewer steps than some. -/
def walkCount (k : Nat) (l : List α) : Nat := ((List.range k).map fun j => (walks next j l).length).sum

variable {next}

theorem walks_succ (k : Nat) (l : List α) : walks next (k + 1) l = walks next k (l.flatMap next) := Function.iterate_succ_apply _ k l

theorem walks_succ' (k : Nat) (l : List α) : walks next (k + 1) l = (walks next k l).flatMap next :=
  Function.iterate_succ_apply' _ k l

theorem walks_append (k : Nat) (l m : List α) : walks next k (l ++ m) = walks next k l ++ walks next k m := by
  induction k generalizing l m with
  | zero => rfl
  | succ k ih => rw [walks_succ, walks_succ, walks_succ, List.flatMap_append, ih]

theorem walks_perm {l m : List α} (h : l.Perm m) (k : Nat) : (walks next k l).Perm (walks next k m) := by
  induction k generalizing l m with
  | zero => exact h
  | succ k ih => exact ih (h.flatMap_right next)

theorem walkCount_perm {l m : List α} (h : l.Perm m) (k : Nat) : walkCount next k l = walkCount next k m := by
  unfold walkCount
  simp only [(walks_perm h _).length_eq]

theorem walkCount_append (k : Nat) (l m : List α) : walkCount next k (l ++ m) = walkCount next k l + walkCount next k m := by
  unfold walkCount
  simp only [walks_append, List.length_append, List.sum_map_add]

theorem walkCount_succ (k : Nat) (l : List α) : walkCount next (k + 1) l = l.length + walkCount next k (l.flatMap next) := by
  unfold walkCount
  rw [List.range_succ_eq_map, List.map_cons, List.sum_cons, List.map_map]
  simp only [Function.comp_def, Nat.succ_eq_add_one, walks_succ]
  rfl

theorem walkCount_succ' (k : Nat) (l : List α) : walkCount next (k + 1) l = walkCount next k l + (walks next k l).length := by
  unfold walkCount
  rw [List.range_succ, List.map_append, List.sum_append, List.map_singleton, List.sum_singleton]

theorem walks_eq_nil_of_le {j k : Nat} {l : List α} (h : walks next j l = []) (hjk : j ≤ k) : walks next k l = [] := by
  induction hjk with
  | refl => exact h
  | step _ ih => rw [Nat.succ_eq_add_one, walks_succ', ih, List.flatMap_nil]

/-- Where there are no more walks than steps, none is as long. -/
theorem walks_eq_nil {k : Nat} {l : List α} (h : walkCount next (k + 1) l ≤ k) : walks next k l = [] := by
  by_contra hne
  have hone : ∀ x ∈ (List.range (k + 1)).map (fun j => (walks next j l).length), 1 ≤ x := by
    intro x hx
    obtain ⟨j, hj, rfl⟩ := List.mem_map.mp hx
    refine List.length_pos_iff.mpr fun hnil => hne ?_
    exact walks_eq_nil_of_le hnil (Nat.lt_succ_iff.mp (List.mem_range.mp hj))
  have hsum := List.length_le_sum_of_one_le _ hone
  rw [List.length_map, List.length_range] at hsum
  unfold walkCount at h
  omega

theorem walks_nil (k : Nat) : walks next k [] = [] := by
  induction k with
  | zero => rfl
  | succ k ih => rw [walks_succ, List.flatMap_nil, ih]

theorem walkCount_nil (k : Nat) : walkCount next k [] = 0 := by
  induction k with
  | zero => rfl
  | succ k ih => rw [walkCount_succ, List.flatMap_nil, ih, List.length_nil]

/-- Where the walks from an item end, one fewer starts at its successors than at the item. -/
theorem walkCount_singleton {k : Nat} {a : α} (h : walks next k [a] = []) :
    walks next k (next a) = [] ∧ walkCount next k [a] = 1 + walkCount next k (next a) := by
  have hflat : [a].flatMap next = next a := List.flatMap_singleton _ _
  have hsucc := @walkCount_succ α next k [a]
  rw [walkCount_succ', h, hflat, List.length_nil, List.length_singleton] at hsucc
  refine ⟨?_, hsucc⟩
  rw [← hflat, ← walks_succ, walks_succ', h, List.flatMap_nil]

/-- A queue is empty after as many steps as walks start at its items. -/
theorem queue_drained {queue : σ → List α} {step : σ → σ} (hnil : ∀ s, queue s = [] → queue (step s) = [])
    (hcons : ∀ s a q, queue s = a :: q → queue (step s) = q ∨ queue (step s) = q ++ next a) {m n : Nat} {s : σ}
    (hwalks : walks next m (queue s) = []) (hcount : walkCount next m (queue s) ≤ n) : queue (step^[n] s) = [] := by
  induction n generalizing s with
  | zero =>
    cases m with
    | zero => exact hwalks
    | succ m =>
      rw [walkCount_succ] at hcount
      have hlen : (queue s).length = 0 := by omega
      exact List.length_eq_zero_iff.mp hlen
  | succ n ih =>
    rw [Function.iterate_succ_apply]
    cases hq : queue s with
    | nil =>
      have hstep := hnil s hq
      refine ih ?_ ?_ <;> rw [hstep]
      · exact walks_nil m
      · rw [walkCount_nil]
        exact Nat.zero_le n
    | cons a q =>
      rw [hq, ← List.singleton_append, walks_append, List.append_eq_nil_iff] at hwalks
      rw [hq, ← List.singleton_append, walkCount_append] at hcount
      obtain ⟨hnext, hless⟩ := walkCount_singleton hwalks.1
      rcases hcons s a q hq with hstep | hstep
      · refine ih ?_ ?_ <;> rw [hstep]
        · exact hwalks.2
        · omega
      · refine ih ?_ ?_ <;> rw [hstep]
        · rw [walks_append, hwalks.2, hnext, List.append_nil]
        · rw [walkCount_append]
          omega

end Opsense
