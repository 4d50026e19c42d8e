import Mathlib

/-!
# Reading points by time

A series of points is read over a range of times, at its end, or at its first or last point. What an answer may be says nothing
about points of one time (`Query.Correct`). Where the times of a series rise, its order is the only one there is: reading it by
position (`Query.read`), or after sorting it in whatever way (`OrderBy.read`), gives one answer, and it is correct.
-/

namespace Opsense

inductive Query (τ : Type*) where
  | range (start_ts end_ts : τ)
  | latest (limit : Nat)
  | first
  | last
deriving DecidableEq, Repr

namespace Query

variable {τ α : Type*} [LinearOrder τ] {pts out : List (τ × α)}

/-- What a query may be answered with. -/
def Correct (pts : List (τ × α)) : Query τ → List (τ × α) → Prop
  | range start_ts end_ts, out =>
    out.Pairwise (fun p q => p.1 ≤ q.1) ∧ out.Perm (pts.filter fun p => start_ts ≤ p.1 ∧ p.1 ≤ end_ts)
  | latest limit, out =>
    ∃ rest, (rest ++ out).Perm pts ∧ out.length = min limit pts.length ∧ ∀ p ∈ out, ∀ q ∈ rest, q.1 ≤ p.1
  | first, out => (pts = [] ∧ out = []) ∨ ∃ p ∈ pts, out = [p] ∧ ∀ q ∈ pts, p.1 ≤ q.1
  | last, out => (pts = [] ∧ out = []) ∨ ∃ p ∈ pts, out = [p] ∧ ∀ q ∈ pts, q.1 ≤ p.1

/-- The answer by position. -/
def read (pts : List (τ × α)) : Query τ → List (τ × α)
  | range start_ts end_ts => pts.filter fun p => start_ts ≤ p.1 ∧ p.1 ≤ end_ts
  | latest limit => pts.drop (pts.length - limit)
  | first => pts.head?.toList
  | last => pts.getLast?.toList

/-- The times of the points rise. -/
def Rising (pts : List (τ × α)) : Prop := pts.Pairwise fun p q => p.1 < q.1

theorem Rising.sorted (h : Rising pts) : pts.Pairwise fun p q => p.1 ≤ q.1 := h.imp le_of_lt

theorem rising_snoc {p : τ × α} (h : Rising pts) (hp : ∀ q ∈ pts, q.1 < p.1) : Rising (pts ++ [p]) := by
  refine List.pairwise_append.mpr ⟨h, List.pairwise_singleton _ _, ?_⟩
  intro q hq p' hp'
  rw [List.mem_singleton.mp hp']
  exact hp q hq

/-- Points whose times rise are apart. -/
theorem Rising.eq_of_time (h : Rising pts) {p q : τ × α} (hp : p ∈ pts) (hq : q ∈ pts) (htime : p.1 = q.1) : p = q := by
  have hnodup : (pts.map Prod.fst).Nodup := List.pairwise_map.mpr (h.imp fun hlt => hlt.ne)
  exact List.inj_on_of_nodup_map hnodup hp hq htime

/-- Sorted, the points are as they are. -/
theorem Rising.eq_of_perm (h : Rising pts) (hperm : out.Perm pts) (hsorted : out.Pairwise fun p q => p.1 ≤ q.1) : out = pts := by
  refine hperm.eq_of_pairwise (fun p q hp hq hpq hqp => ?_) hsorted h.sorted
  exact h.eq_of_time (hperm.mem_iff.mp hp) hq (le_antisymm hpq hqp)

theorem Rising.eq_reverse (h : Rising pts) (hperm : out.Perm pts) (hsorted : out.Pairwise fun p q => q.1 ≤ p.1) :
    out = pts.reverse := by
  rw [← h.eq_of_perm ((List.reverse_perm out).trans hperm) (List.pairwise_reverse.mpr hsorted), List.reverse_reverse]

theorem Rising.filter (h : Rising pts) (f : τ × α → Bool) : Rising (pts.filter f) := List.Pairwise.filter f h

/-- Where the times rise, the answer by position is correct. -/
theorem correct_read (h : Rising pts) (q : Query τ) : Correct pts q (read pts q) := by
  cases q with
  | range start_ts end_ts => exact ⟨(h.filter _).sorted, .refl _⟩
  | latest limit =>
    refine ⟨pts.take (pts.length - limit), ?_, ?_, ?_⟩
    · rw [read, List.take_append_drop]
    · rw [read, List.length_drop]
      omega
    · intro p hp q hq
      have hsplit := h.sorted
      rw [← List.take_append_drop (pts.length - limit) pts] at hsplit
      exact (List.pairwise_append.mp hsplit).2.2 q hq p hp
  | first =>
    cases pts with
    | nil => exact .inl ⟨rfl, rfl⟩
    | cons p pts =>
      refine .inr ⟨p, List.mem_cons_self, rfl, ?_⟩
      intro q hq
      rcases List.mem_cons.mp hq with rfl | hq
      · exact le_rfl
      · exact (List.pairwise_cons.mp h.sorted).1 q hq
  | last =>
    rcases List.eq_nil_or_concat pts with rfl | ⟨before, p, rfl⟩
    · exact .inl ⟨rfl, rfl⟩
    · rw [List.concat_eq_append] at h ⊢
      refine .inr ⟨p, List.mem_append_right _ List.mem_cons_self, by simp [read], ?_⟩
      intro q hq
      rcases List.mem_append.mp hq with hq | hq
      · exact (List.pairwise_append.mp h.sorted).2.2 q hq p List.mem_cons_self
      · rw [List.mem_singleton.mp hq]

end Query

/-- Sorting by time, either way; points of one time come in any order. -/
structure OrderBy (τ α : Type*) [LinearOrder τ] where
  asc : List (τ × α) → List (τ × α)
  desc : List (τ × α) → List (τ × α)
  asc_perm : ∀ pts, (asc pts).Perm pts
  asc_sorted : ∀ pts, (asc pts).Pairwise fun p q => p.1 ≤ q.1
  desc_perm : ∀ pts, (desc pts).Perm pts
  desc_sorted : ∀ pts, (desc pts).Pairwise fun p q => q.1 ≤ p.1

namespace OrderBy

variable {τ α : Type*} [LinearOrder τ]

theorem sorted_asc (pts : List (τ × α)) : (pts.insertionSort fun p q => p.1 ≤ q.1).Pairwise fun p q => p.1 ≤ q.1 := by
  have : Std.Total fun p q : τ × α => p.1 ≤ q.1 := ⟨fun p q => le_total p.1 q.1⟩
  have : IsTrans (τ × α) fun p q => p.1 ≤ q.1 := ⟨fun _ _ _ => le_trans⟩
  exact List.pairwise_insertionSort _ _

theorem sorted_desc (pts : List (τ × α)) : (pts.insertionSort fun p q => q.1 ≤ p.1).Pairwise fun p q => q.1 ≤ p.1 := by
  have : Std.Total fun p q : τ × α => q.1 ≤ p.1 := ⟨fun p q => le_total q.1 p.1⟩
  have : IsTrans (τ × α) fun p q => q.1 ≤ p.1 := ⟨fun _ _ _ hpq hqr => hqr.trans hpq⟩
  exact List.pairwise_insertionSort _ _

/-- `sort_by_key`, which leaves points of one time as they stand. -/
def sortByKey : OrderBy τ α where
  asc pts := pts.insertionSort fun p q => p.1 ≤ q.1
  desc pts := pts.insertionSort fun p q => q.1 ≤ p.1
  asc_perm pts := List.perm_insertionSort _ pts
  asc_sorted := sorted_asc
  desc_perm pts := List.perm_insertionSort _ pts
  desc_sorted := sorted_desc

variable (order : OrderBy τ α)

/-- The answer from the sorted points. -/
def read (pts : List (τ × α)) : Query τ → List (τ × α)
  | .range start_ts end_ts => order.asc (pts.filter fun p => start_ts ≤ p.1 ∧ p.1 ≤ end_ts)
  | .latest limit => ((order.desc pts).take limit).reverse
  | .first => (order.asc pts).head?.toList
  | .last => (order.desc pts).head?.toList

/-- Where the times rise, it does not matter how points are sorted. -/
theorem read_eq {pts pts' : List (τ × α)} (h : Query.Rising pts) (hperm : pts'.Perm pts) (q : Query τ) :
    order.read pts' q = Query.read pts q := by
  have hasc : order.asc pts' = pts := h.eq_of_perm ((order.asc_perm pts').trans hperm) (order.asc_sorted pts')
  have hdesc : order.desc pts' = pts.reverse := h.eq_reverse ((order.desc_perm pts').trans hperm) (order.desc_sorted pts')
  cases q with
  | range start_ts end_ts => exact (h.filter _).eq_of_perm ((order.asc_perm _).trans (hperm.filter _)) (order.asc_sorted _)
  | latest limit => rw [read, hdesc, List.take_reverse, List.reverse_reverse, Query.read]
  | first => rw [read, hasc, Query.read]
  | last => rw [read, hdesc, List.head?_reverse, Query.read]

end OrderBy

end Opsense
