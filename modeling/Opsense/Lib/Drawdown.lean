import Mathlib

/-!
# Statistics of a sequence, kept as it grows

The largest drop of the sums of a sequence from one point to a later one (`Drawdown`), and the longest run of its elements with a
property (`Streak`). Both are kept by a fold that sees each element once.
-/

namespace Opsense

/-- The sum of the first elements. -/
def equity {α : Type*} [AddMonoid α] (l : List α) (k : ℕ) : α := (l.take k).sum

theorem equity_append {α : Type*} [AddMonoid α] {l : List α} {p : α} {k : ℕ} (hk : k ≤ l.length) : equity (l ++ [p]) k = equity l k := by
  unfold equity
  rw [List.take_append_of_le_length hk]

theorem equity_length {α : Type*} [AddMonoid α] (l : List α) : equity l l.length = l.sum := by
  unfold equity
  rw [List.take_length]

/-- The sum so far, the largest sum so far and the largest drop so far. -/
structure Drawdown (α : Type*) where
  current : α
  peak : α
  drop : α

namespace Drawdown

variable {α : Type*} [AddCommGroup α] [LinearOrder α]

def start : Drawdown α := ⟨0, 0, 0⟩

def step (d : Drawdown α) (p : α) : Drawdown α :=
  let current := d.current + p
  if d.peak < current then { d with current, peak := current } else { d with current, drop := max d.drop (d.peak - current) }

/-- What the fold keeps. -/
structure Tracks (l : List α) (d : Drawdown α) : Prop where
  current : d.current = l.sum
  peak : IsGreatest {e | ∃ i ≤ l.length, e = equity l i} d.peak
  drop : IsGreatest {e | ∃ i j, i ≤ j ∧ j ≤ l.length ∧ e = equity l i - equity l j} d.drop

theorem start_tracks : Tracks ([] : List α) start := by
  have hequity : ∀ k, equity ([] : List α) k = 0 := by
    intro k
    simp [equity]
  refine ⟨rfl, ⟨⟨0, le_rfl, (hequity 0).symm⟩, ?_⟩, ⟨0, 0, le_rfl, le_rfl, by rw [hequity, sub_zero]; rfl⟩, ?_⟩
  · rintro e ⟨i, -, rfl⟩
    rw [hequity]
    exact le_rfl
  · rintro e ⟨i, j, -, -, rfl⟩
    rw [hequity, hequity, sub_zero]
    exact le_rfl

variable [IsOrderedAddMonoid α]

/-- The drops to the new point are measured from the peak. -/
theorem Tracks.step {l : List α} {d : Drawdown α} (h : Tracks l d) (p : α) : Tracks (l ++ [p]) (d.step p) := by
  have hlength : (l ++ [p]).length = l.length + 1 := List.length_append
  have hlast : equity (l ++ [p]) (l.length + 1) = d.current + p := by
    rw [← hlength, equity_length, List.sum_append, List.sum_singleton, h.current]
  have hcurrent : d.current + p = (l ++ [p]).sum := by
    rw [List.sum_append, List.sum_singleton, h.current]
  obtain ⟨⟨peak, hpeak, hpeakeq⟩, hpeakmax⟩ := h.peak
  obtain ⟨⟨i, j, hij, hj, hdrop⟩, hdropmax⟩ := h.drop
  have hdropnonneg : 0 ≤ d.drop := hdropmax ⟨0, 0, le_rfl, Nat.zero_le _, (sub_self _).symm⟩
  have hold : ∀ {e : α}, (∃ i j, i ≤ j ∧ j ≤ l.length ∧ e = equity (l ++ [p]) i - equity (l ++ [p]) j) → e ≤ d.drop := by
    rintro e ⟨i, j, hij, hj, rfl⟩
    rw [equity_append (hij.trans hj), equity_append hj]
    exact hdropmax ⟨i, j, hij, hj, rfl⟩
  have holdmem : ∃ i j, i ≤ j ∧ j ≤ (l ++ [p]).length ∧ d.drop = equity (l ++ [p]) i - equity (l ++ [p]) j := by
    refine ⟨i, j, hij, by omega, ?_⟩
    rw [equity_append (hij.trans hj), equity_append hj, hdrop]
  have hbefore : ∀ {k}, k ≤ l.length → equity (l ++ [p]) k ≤ d.peak := by
    intro k hk
    rw [equity_append hk]
    exact hpeakmax ⟨k, hk, rfl⟩
  unfold Drawdown.step
  dsimp only
  split
  case isTrue hlt =>
    refine ⟨hcurrent, ⟨⟨l.length + 1, hlength.ge, hlast.symm⟩, ?_⟩, holdmem, ?_⟩
    · rintro e ⟨k, hk, rfl⟩
      rcases Nat.lt_or_ge l.length k with hgt | hle
      · obtain rfl : k = l.length + 1 := by omega
        exact hlast.le
      · exact (hbefore hle).trans hlt.le
    · rintro e ⟨i, j, hij, hj, rfl⟩
      rcases Nat.lt_or_ge l.length j with hgt | hle
      · obtain rfl : j = l.length + 1 := by omega
        refine le_trans (sub_nonpos.mpr ?_) hdropnonneg
        rw [hlast]
        rcases Nat.lt_or_ge l.length i with hgt' | hle'
        · obtain rfl : i = l.length + 1 := by omega
          exact hlast.le
        · exact (hbefore hle').trans hlt.le
      · exact hold ⟨i, j, hij, hle, rfl⟩
  case isFalse hge =>
    have hle := not_lt.mp hge
    refine ⟨hcurrent, ⟨⟨peak, by omega, ?_⟩, ?_⟩, ?_, ?_⟩
    · rw [equity_append hpeak, hpeakeq]
    · rintro e ⟨k, hk, rfl⟩
      rcases Nat.lt_or_ge l.length k with hgt | hle'
      · obtain rfl : k = l.length + 1 := by omega
        exact hlast.le.trans hle
      · exact hbefore hle'
    · rcases le_total d.drop (d.peak - (d.current + p)) with hnew | hnew
      · rw [max_eq_right hnew]
        refine ⟨peak, l.length + 1, by omega, hlength.ge, ?_⟩
        rw [hlast, equity_append hpeak, hpeakeq]
      · rw [max_eq_left hnew]
        exact holdmem
    · rintro e ⟨i, j, hij, hj, rfl⟩
      rcases Nat.lt_or_ge l.length j with hgt | hle'
      · obtain rfl : j = l.length + 1 := by omega
        refine le_max_of_le_right ?_
        rw [hlast]
        refine sub_le_sub_right ?_ _
        rcases Nat.lt_or_ge l.length i with hgt' | hle''
        · obtain rfl : i = l.length + 1 := by omega
          exact hlast.le.trans hle
        · exact hbefore hle''
      · exact le_max_of_le_left (hold ⟨i, j, hij, hle', rfl⟩)

end Drawdown

/-- The length of the run at the end, and of the longest run. -/
structure Streak where
  current : ℕ
  longest : ℕ

namespace Streak

variable {α : Type*} (p : α → Bool)

def step (s : Streak) (a : α) : Streak :=
  if p a then ⟨s.current + 1, max s.longest (s.current + 1)⟩ else { s with current := 0 }

/-- What the fold keeps: the longest run that ends the list, and the longest run of the list. -/
structure Tracks (l : List α) (s : Streak) : Prop where
  current : IsGreatest {n | ∃ run, run <:+ l ∧ (∀ a ∈ run, p a = true) ∧ n = run.length} s.current
  longest : IsGreatest {n | ∃ run, run <:+: l ∧ (∀ a ∈ run, p a = true) ∧ n = run.length} s.longest

theorem start_tracks : Tracks p [] ⟨0, 0⟩ := by
  refine ⟨⟨⟨[], List.suffix_rfl, nofun, rfl⟩, ?_⟩, ⟨[], List.infix_rfl, nofun, rfl⟩, ?_⟩
  · rintro n ⟨run, hrun, -, rfl⟩
    rw [List.suffix_nil.mp hrun]
    exact le_rfl
  · rintro n ⟨run, hrun, -, rfl⟩
    rw [List.infix_nil.mp hrun]
    exact le_rfl

variable {p}

theorem Tracks.step {l : List α} {s : Streak} (h : Tracks p l s) (a : α) : Tracks p (l ++ [a]) (s.step p a) := by
  obtain ⟨⟨run, hsuffix, hrun, hlen⟩, hmax⟩ := h.current
  obtain ⟨⟨best, hinfix, hbest, hlongest⟩, hbestmax⟩ := h.longest
  have hinfix' : best <:+: l ++ [a] := hinfix.trans (List.prefix_append l [a]).isInfix
  unfold Streak.step
  split
  case isTrue ha =>
    have hnew : run ++ [a] <:+ l ++ [a] := List.suffix_concat_iff.mpr (.inr ⟨run, rfl, hsuffix⟩)
    have hall : ∀ x ∈ run ++ [a], p x = true := by
      intro x hx
      rcases List.mem_append.mp hx with hx | hx
      · exact hrun x hx
      · rwa [List.mem_singleton.mp hx]
    have hbound : ∀ t, t <:+ l ++ [a] → (∀ x ∈ t, p x = true) → t.length ≤ s.current + 1 := by
      intro t ht hp
      rcases List.suffix_concat_iff.mp ht with rfl | ⟨rest, rfl, hrest⟩
      · exact Nat.zero_le _
      · rw [List.length_append, List.length_singleton]
        exact Nat.succ_le_succ (hmax ⟨rest, hrest, fun x hx => hp x (List.mem_append_left _ hx), rfl⟩)
    refine ⟨⟨⟨run ++ [a], hnew, hall, by simp [hlen]⟩, ?_⟩, ?_, ?_⟩
    · rintro n ⟨t, ht, hp, rfl⟩
      exact hbound t ht hp
    · rcases le_total s.longest (s.current + 1) with hle | hle
      · rw [max_eq_right hle]
        exact ⟨run ++ [a], hnew.isInfix, hall, by simp [hlen]⟩
      · rw [max_eq_left hle]
        exact ⟨best, hinfix', hbest, hlongest⟩
    · rintro n ⟨t, ht, hp, rfl⟩
      rcases List.infix_concat_iff.mp ht with ht | ht
      · exact le_max_of_le_right (hbound t ht hp)
      · exact le_max_of_le_left (hbestmax ⟨t, ht, hp, rfl⟩)
  case isFalse ha =>
    have hempty : ∀ t, t <:+ l ++ [a] → (∀ x ∈ t, p x = true) → t.length = 0 := by
      intro t ht hp
      rcases List.suffix_concat_iff.mp ht with rfl | ⟨rest, rfl, -⟩
      · rfl
      · exact absurd (hp a (List.mem_append_right _ List.mem_cons_self)) ha
    refine ⟨⟨⟨[], List.nil_suffix, nofun, rfl⟩, ?_⟩, ⟨best, hinfix', hbest, hlongest⟩, ?_⟩
    · rintro n ⟨t, ht, hp, rfl⟩
      exact (hempty t ht hp).le
    · rintro n ⟨t, ht, hp, rfl⟩
      rcases List.infix_concat_iff.mp ht with ht | ht
      · rw [hempty t ht hp]
        exact Nat.zero_le _
      · exact hbestmax ⟨t, ht, hp, rfl⟩

end Streak

end Opsense
