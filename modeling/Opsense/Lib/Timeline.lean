import Mathlib

/-!
# Lists in ascending order of time

Entries have a time, and a list is in order when every entry is before the next one. In such a list the entries before a
time are its first ones, so a part of it can be cut out by two searches (`slice_eq_window`), parts that adjoin join
(`window_append`), and two lists one of which has all entries of the other are merged into that one (`merge_eq`).
-/

namespace Opsense

/-- `partition_point`: how many of the first entries meet the condition. -/
def partitionPoint {α : Type*} (pred : α → Bool) (l : List α) : Nat := (l.takeWhile pred).length

theorem take_partitionPoint {α : Type*} (pred : α → Bool) (l : List α) : l.take (partitionPoint pred l) = l.takeWhile pred := by
  induction l with
  | nil => rfl
  | cons a l ih =>
    unfold partitionPoint at ih ⊢
    by_cases ha : pred a = true
    · rw [List.takeWhile_cons_of_pos ha, List.length_cons, List.take_succ_cons, ih]
    · rw [List.takeWhile_cons_of_neg ha, List.length_nil, List.take_zero]

theorem partitionPoint_congr {α : Type*} {p q : α → Bool} {l : List α} (h : ∀ a ∈ l, p a = q a) :
    partitionPoint p l = partitionPoint q l := by
  unfold partitionPoint
  induction l with
  | nil => rfl
  | cons a l ih =>
    have hl := ih fun b hb => h b (List.mem_cons_of_mem _ hb)
    rw [List.takeWhile_cons, List.takeWhile_cons, h a (by simp)]
    cases q a
    · rfl
    · simpa using hl

namespace Timeline

variable {α τ : Type*} [LinearOrder τ] {time : α → τ}

/-- Every entry is before the next one. -/
def Ordered (time : α → τ) (l : List α) : Prop := l.Pairwise fun a b => time a < time b

/-- The entries from one time on and before another. -/
def window (time : α → τ) (l : List α) (a b : τ) : List α := l.filter fun x => a ≤ time x ∧ time x < b

variable {l : List α} {a b c : τ} {x : α}

theorem mem_window : x ∈ window time l a b ↔ x ∈ l ∧ a ≤ time x ∧ time x < b := by
  simp [window]

theorem Ordered.filter (h : Ordered time l) (p : α → Bool) : Ordered time (l.filter p) := List.Pairwise.filter p h

theorem takeWhile_before (h : Ordered time l) (b : τ) :
    l.takeWhile (fun x => time x < b) = l.filter fun x => time x < b := by
  induction l with
  | nil => rfl
  | cons y l ih =>
    obtain ⟨hy, hl⟩ := List.pairwise_cons.mp h
    by_cases hyb : time y < b
    · rw [List.takeWhile_cons_of_pos (by simpa using hyb), List.filter_cons_of_pos (by simpa using hyb), ih hl]
    · -- none of the later entries is before the time either
      have hnone : l.filter (fun x => time x < b) = [] := by
        refine List.filter_eq_nil_iff.mpr fun z hz => ?_
        have hle := (not_lt.mp hyb).trans (hy z hz).le
        simpa using hle
      rw [List.takeWhile_cons_of_neg (by simpa using hyb), List.filter_cons_of_neg (by simpa using hyb), hnone]

theorem drop_before (h : Ordered time l) (a : τ) :
    l.drop (partitionPoint (fun x => time x < a) l) = l.filter fun x => a ≤ time x := by
  induction l with
  | nil => rfl
  | cons y l ih =>
    obtain ⟨hy, hl⟩ := List.pairwise_cons.mp h
    unfold partitionPoint at ih ⊢
    by_cases hya : time y < a
    · rw [List.takeWhile_cons_of_pos (by simpa using hya), List.length_cons, List.drop_succ_cons, ih hl,
        List.filter_cons_of_neg (by simpa using hya)]
    · have hall : (y :: l).filter (fun x => a ≤ time x) = y :: l := by
        refine List.filter_eq_self.mpr fun z hz => ?_
        rcases List.mem_cons.mp hz with rfl | hz
        · simpa using hya
        · have hle := (not_lt.mp hya).trans (hy z hz).le
          simpa using hle
      rw [List.takeWhile_cons_of_neg (by simpa using hya), List.length_nil, List.drop_zero, hall]

/-- What lies between the places of two times is the window of these times. -/
theorem slice_eq_window (h : Ordered time l) (hab : a ≤ b) :
    (l.take (partitionPoint (fun x => time x < b) l)).drop (partitionPoint (fun x => time x < a) l) = window time l a b := by
  have hstart : partitionPoint (fun x => time x < a) l =
      partitionPoint (fun x => time x < a) (l.filter fun x => time x < b) := by
    unfold partitionPoint
    rw [takeWhile_before h, takeWhile_before (h.filter _), List.filter_filter]
    refine congrArg _ (List.filter_congr fun x _ => ?_)
    by_cases hxa : time x < a
    · simp [hxa, hxa.trans_le hab]
    · simp [hxa]
  rw [take_partitionPoint, takeWhile_before h, hstart, drop_before (h.filter _), List.filter_filter]
  unfold window
  simp

theorem window_append (h : Ordered time l) (hab : a ≤ b) (hbc : b ≤ c) :
    window time l a b ++ window time l b c = window time l a c := by
  induction l with
  | nil => rfl
  | cons y l ih =>
    obtain ⟨hy, hl⟩ := List.pairwise_cons.mp h
    have htail := ih hl
    simp only [window, Bool.decide_and] at htail ⊢
    by_cases hyb : time y < b
    · by_cases hya : a ≤ time y
      · simp [hya, hyb, hyb.trans_le hbc, not_le.mpr hyb, htail]
      · simp [hya, hyb, not_le.mpr hyb, htail]
    · -- the entry begins the second part
      have hby := not_lt.mp hyb
      have hnone : l.filter (fun x => decide (a ≤ time x) && decide (time x < b)) = [] := by
        refine List.filter_eq_nil_iff.mpr fun z hz hzb => hyb ?_
        have hlt : time z < b := of_decide_eq_true (Bool.and_eq_true_iff.mp hzb).2
        exact (hy z hz).trans hlt
      rw [hnone, List.nil_append] at htail
      simp [hyb, hby, hab.trans hby, hnone, List.filter_cons, htail]

/-! ## Merging -/

/-- `dedup_by_key`: of entries of one time that follow each other the first is kept. -/
def dedup (time : α → τ) (l : List α) : List α := l.destutter fun x y => time x ≠ time y

/-- `sort_by_key` -/
def sort (time : α → τ) (l : List α) : List α := l.insertionSort fun x y => time x ≤ time y

theorem dedup_ordered (h : Ordered time l) : dedup time l = l := by
  refine List.destutter_of_isChain _ _ (List.Pairwise.isChain ?_)
  exact List.Pairwise.imp (fun hlt => hlt.ne) h

theorem sort_ordered (h : Ordered time l) : sort time l = l := by
  refine List.Pairwise.insertionSort_eq ?_
  exact List.Pairwise.imp (fun hlt => hlt.le) h

theorem mem_dedup_of_mem {l : List α} (hone : ∀ x ∈ l, ∀ y ∈ l, time x = time y → x = y) {x : α} (hx : x ∈ l) :
    x ∈ dedup time l := by
  have hcons : ∀ (l : List α) (z : α), (∀ x ∈ z :: l, ∀ y ∈ z :: l, time x = time y → x = y) → x ∈ z :: l →
      x ∈ List.destutter' (fun x y => time x ≠ time y) z l := by
    intro l
    induction l with
    | nil => intro z _ hx; simpa using hx
    | cons y l ih =>
      intro z hone hx
      by_cases hzy : time z = time y
      · have heq : z = y := hone z (by simp) y (by simp) hzy
        subst heq
        rw [List.destutter'_cons_neg _ (by simp)]
        exact ih z (fun x hx y hy => hone x (List.mem_cons_of_mem _ hx) y (List.mem_cons_of_mem _ hy)) (by simpa using hx)
      · rw [List.destutter'_cons_pos _ hzy]
        rcases List.mem_cons.mp hx with rfl | hx
        · simp
        · exact List.mem_cons_of_mem _
            (ih y (fun x hx y hy => hone x (List.mem_cons_of_mem _ hx) y (List.mem_cons_of_mem _ hy)) hx)
  unfold dedup
  cases l with
  | nil => exact absurd hx List.not_mem_nil
  | cons z l => exact hcons l z hone hx

theorem pairwise_sort (l : List α) : (sort time l).Pairwise fun x y => time x ≤ time y := by
  have : Std.Total fun x y : α => time x ≤ time y := ⟨fun x y => le_total (time x) (time y)⟩
  have : IsTrans α fun x y => time x ≤ time y := ⟨fun x y z => le_trans⟩
  exact List.pairwise_insertionSort _ _

theorem ordered_dedup (l : List α) : Ordered time (dedup time (sort time l)) := by
  have hle : (dedup time (sort time l)).Pairwise fun x y => time x ≤ time y := (pairwise_sort l).sublist (List.destutter_sublist _ _)
  have hne : (dedup time (sort time l)).IsChain fun x y => time x ≠ time y := List.isChain_destutter _ _
  have hchain : (dedup time (sort time l)).IsChain fun x y => time x < time y := by
    refine List.isChain_iff_getElem.mpr fun i hi => ?_
    exact lt_of_le_of_ne (hle.isChain.getElem i hi) (hne.getElem i hi)
  have : IsTrans α fun x y => time x < time y := ⟨fun x y z => lt_trans⟩
  exact hchain.pairwise

/-- Sorting and reducing what is there and what is new gives what is new, when that has all of what is there. -/
theorem merge_eq {old fresh : List α} (h : Ordered time fresh) (hsub : ∀ x ∈ old, x ∈ fresh) :
    dedup time (sort time (old ++ fresh)) = fresh := by
  have hmem : ∀ x, x ∈ sort time (old ++ fresh) ↔ x ∈ fresh := by
    intro x
    unfold sort
    rw [List.mem_insertionSort, List.mem_append]
    exact ⟨fun hx => hx.elim (hsub x) id, Or.inr⟩
  have hone : ∀ x ∈ sort time (old ++ fresh), ∀ y ∈ sort time (old ++ fresh), time x = time y → x = y := by
    intro x hx y hy hxy
    have hnodup : (fresh.map time).Nodup := List.pairwise_map.mpr (List.Pairwise.imp (fun hlt => hlt.ne) h)
    exact List.inj_on_of_nodup_map hnodup ((hmem x).mp hx) ((hmem y).mp hy) hxy
  have : Std.Irrefl fun x y : α => time x < time y := ⟨fun x => lt_irrefl _⟩
  have : Std.Asymm fun x y : α => time x < time y := ⟨fun x y => lt_asymm⟩
  refine List.Pairwise.eq_of_mem_iff (ordered_dedup _) h fun x => ?_
  rw [← hmem]
  exact ⟨fun hx => (List.destutter_sublist _ _).subset hx, mem_dedup_of_mem hone⟩

end Timeline

end Opsense
