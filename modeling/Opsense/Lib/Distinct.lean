import Mathlib

/-!
# The distinct entries of a log in the order of time

Entries have a time and a kind, and entries of one kind have one time. `distinct` sorts a log by time and keeps the first
entry of every kind. Sorting keeps the order in which entries of one time came, so it does not matter whether a log is
sorted and reduced as it grows or at its end (`distinct_distinct_append`), and entries whose kinds a log has already add
nothing to it (`distinct_append_old`).
-/

namespace Opsense

namespace Log

variable {α κ τ : Type*} [DecidableEq κ] [LinearOrder τ] (kind : α → κ) (time : α → τ)

/-- The first entry of every kind that was not seen before. -/
def keepFirst (seen : List κ) : List α → List α
  | [] => []
  | a :: as => if kind a ∈ seen then keepFirst seen as else a :: keepFirst (kind a :: seen) as

/-- The entries in the order of their times. -/
def byTime (log : List α) : List α := log.insertionSort fun a b => time a ≤ time b

/-- The first entry of every kind, in the order of their times. -/
def distinct (log : List α) : List α := keepFirst kind [] (byTime time log)

variable {kind time}

/-! ## Sorting -/

section Sorting

omit [DecidableEq κ]

theorem mem_byTime {log : List α} {a : α} : a ∈ byTime time log ↔ a ∈ log := List.mem_insertionSort _

theorem pairwise_byTime (log : List α) : (byTime time log).Pairwise fun a b => time a ≤ time b := by
  have : Std.Total fun a b : α => time a ≤ time b := ⟨fun a b => le_total (time a) (time b)⟩
  have : IsTrans α fun a b => time a ≤ time b := ⟨fun a b c => le_trans⟩
  exact List.pairwise_insertionSort _ _

/-- Entries of one time stay in their order. -/
theorem filter_byTime (log : List α) (t : τ) :
    (byTime time log).filter (fun a => time a = t) = log.filter fun a => time a = t := by
  have hinsert : ∀ (a : α) (l : List α), (l.orderedInsert (fun a b => time a ≤ time b) a).filter (fun a => time a = t) =
      (a :: l).filter fun a => time a = t := by
    intro a l
    induction l with
    | nil => rfl
    | cons b l ih =>
      rw [List.orderedInsert_cons]
      split_ifs with hle
      · rfl
      · -- the entry is put behind one of another time
        rw [List.filter_cons, ih]
        by_cases ha : time a = t <;> by_cases hb : time b = t <;> simp_all
  unfold byTime
  induction log with
  | nil => rfl
  | cons a log ih => rw [List.insertionSort_cons, hinsert, List.filter_cons, List.filter_cons, ih]

/-- Lists in the order of time are the same when their entries of every time are. -/
theorem eq_of_filter {as bs : List α} (has : as.Pairwise fun a b => time a ≤ time b) (hbs : bs.Pairwise fun a b => time a ≤ time b)
    (h : ∀ t, as.filter (fun a => time a = t) = bs.filter fun a => time a = t) : as = bs := by
  induction as generalizing bs with
  | nil =>
    cases bs with
    | nil => rfl
    | cons b bs =>
      have hb := h (time b)
      simp at hb
  | cons a as ih =>
    cases bs with
    | nil =>
      have ha := h (time a)
      simp at ha
    | cons b bs =>
      obtain ⟨hale, has⟩ := List.pairwise_cons.mp has
      obtain ⟨hble, hbs'⟩ := List.pairwise_cons.mp hbs
      have hmem : ∀ c, c ∈ a :: as ↔ c ∈ b :: bs := by
        intro c
        have hc := congrArg (c ∈ ·) (h (time c))
        simpa using hc
      have htime : time a = time b := by
        refine le_antisymm ?_ ?_
        · rcases List.mem_cons.mp ((hmem b).mpr (by simp)) with heq | hin
          · exact heq ▸ le_refl _
          · exact hale b hin
        · rcases List.mem_cons.mp ((hmem a).mp (by simp)) with heq | hin
          · exact heq ▸ le_refl _
          · exact hble a hin
      have hhead := h (time a)
      rw [List.filter_cons_of_pos (by simp), List.filter_cons_of_pos (by simp [htime])] at hhead
      obtain ⟨rfl, htail⟩ := List.cons_eq_cons.mp hhead
      refine congrArg _ (ih has hbs' fun t => ?_)
      have ht := h t
      by_cases hat : time a = t
      · rwa [← hat]
      · rwa [List.filter_cons_of_neg (by simpa using hat), List.filter_cons_of_neg (by simpa using hat)] at ht

end Sorting

/-! ## Keeping the first -/

variable {seen : List κ}

theorem keepFirst_old {a : α} (h : kind a ∈ seen) (as : List α) :
    keepFirst kind seen (a :: as) = keepFirst kind seen as := if_pos h

theorem keepFirst_new {a : α} (h : kind a ∉ seen) (as : List α) :
    keepFirst kind seen (a :: as) = a :: keepFirst kind (kind a :: seen) as := if_neg h

theorem keepFirst_congr {seen seen' : List κ} {as : List α} (h : ∀ a ∈ as, kind a ∈ seen ↔ kind a ∈ seen') :
    keepFirst kind seen as = keepFirst kind seen' as := by
  induction as generalizing seen seen' with
  | nil => rfl
  | cons a as ih =>
    have ha := h a (by simp)
    have has : ∀ b ∈ as, kind b ∈ seen ↔ kind b ∈ seen' := fun b hb => h b (List.mem_cons_of_mem _ hb)
    have hmore : ∀ b ∈ as, kind b ∈ kind a :: seen ↔ kind b ∈ kind a :: seen' := fun b hb => by simp [has b hb]
    unfold keepFirst
    rw [ih has, ih hmore]
    simp only [ha]

theorem keepFirst_sublist (seen : List κ) (as : List α) : List.Sublist (keepFirst kind seen as) as := by
  induction as generalizing seen with
  | nil => exact List.Sublist.slnil
  | cons a as ih =>
    unfold keepFirst
    split_ifs
    · exact (ih seen).cons a
    · exact (ih _).cons_cons a

/-- Every kind is kept that was not seen before. -/
theorem mem_kinds_keepFirst {as : List α} {k : κ} :
    k ∈ (keepFirst kind seen as).map kind ↔ k ∉ seen ∧ k ∈ as.map kind := by
  induction as generalizing seen with
  | nil => simp [keepFirst]
  | cons a as ih =>
    unfold keepFirst
    split_ifs with hseen
    · rw [ih, List.map_cons, List.mem_cons]
      constructor
      · rintro ⟨h1, h2⟩
        exact ⟨h1, Or.inr h2⟩
      · rintro ⟨h1, rfl | h2⟩
        · exact absurd hseen h1
        · exact ⟨h1, h2⟩
    · rw [List.map_cons, List.mem_cons, ih, List.map_cons, List.mem_cons, List.mem_cons, not_or]
      constructor
      · rintro (rfl | ⟨⟨-, h1⟩, h2⟩)
        · exact ⟨hseen, Or.inl rfl⟩
        · exact ⟨h1, Or.inr h2⟩
      · rintro ⟨h1, rfl | h2⟩
        · exact Or.inl rfl
        · by_cases hk : k = kind a
          · exact Or.inl hk
          · exact Or.inr ⟨⟨hk, h1⟩, h2⟩

/-- Every kind is kept once. -/
theorem nodup_kinds_keepFirst (seen : List κ) (as : List α) : ((keepFirst kind seen as).map kind).Nodup := by
  induction as generalizing seen with
  | nil => exact List.nodup_nil
  | cons a as ih =>
    unfold keepFirst
    split_ifs
    · exact ih seen
    · refine List.nodup_cons.mpr ⟨fun hmem => ?_, ih _⟩
      exact (mem_kinds_keepFirst.mp hmem).1 List.mem_cons_self

theorem keepFirst_append (seen : List κ) (as bs : List α) :
    keepFirst kind seen (as ++ bs) = keepFirst kind seen as ++ keepFirst kind (as.map kind ++ seen) bs := by
  induction as generalizing seen with
  | nil => rfl
  | cons a as ih =>
    rw [List.cons_append]
    by_cases hseen : kind a ∈ seen
    · rw [keepFirst_old hseen, keepFirst_old hseen, ih]
      refine congrArg _ (keepFirst_congr fun b _ => ?_)
      simp only [List.map_cons, List.cons_append, List.mem_cons, List.mem_append]
      constructor
      · exact Or.inr
      · rintro (heq | h)
        · exact Or.inr (heq ▸ hseen)
        · exact h
    · rw [keepFirst_new hseen, keepFirst_new hseen, ih, List.cons_append]
      refine congrArg _ (congrArg _ (keepFirst_congr fun b _ => ?_))
      simp only [List.map_cons, List.cons_append, List.mem_cons, List.mem_append]
      tauto

theorem keepFirst_all_old {as : List α} (h : ∀ a ∈ as, kind a ∈ seen) : keepFirst kind seen as = [] := by
  induction as with
  | nil => rfl
  | cons a as ih =>
    rw [keepFirst_old (h a (by simp))]
    exact ih fun b hb => h b (List.mem_cons_of_mem _ hb)

theorem keepFirst_keepFirst (seen : List κ) (as : List α) :
    keepFirst kind seen (keepFirst kind seen as) = keepFirst kind seen as := by
  induction as generalizing seen with
  | nil => rfl
  | cons a as ih =>
    by_cases hseen : kind a ∈ seen
    · rw [keepFirst_old hseen, ih]
    · rw [keepFirst_new hseen, keepFirst_new hseen, ih]

/-- Entries that are reduced already are as good as they were before. -/
theorem keepFirst_keepFirst_append (seen : List κ) (as bs : List α) :
    keepFirst kind seen (keepFirst kind seen as ++ bs) = keepFirst kind seen (as ++ bs) := by
  rw [keepFirst_append, keepFirst_append, keepFirst_keepFirst]
  refine congrArg _ (keepFirst_congr fun b _ => ?_)
  rw [List.mem_append, List.mem_append, mem_kinds_keepFirst]
  tauto

theorem mem_keepFirst_between {as bs : List α} {a : α} (has : a ∉ as) (hbs : a ∉ bs) :
    a ∈ keepFirst kind seen (as ++ a :: bs) ↔ kind a ∉ seen ∧ ∀ b ∈ as, kind b ≠ kind a := by
  have hfirst : a ∉ keepFirst kind seen as := fun h => has ((keepFirst_sublist _ _).mem h)
  rw [keepFirst_append, List.mem_append, or_iff_right hfirst]
  by_cases hseen : kind a ∈ as.map kind ++ seen
  · rw [keepFirst_old hseen]
    refine iff_of_false (fun h => hbs ((keepFirst_sublist _ _).mem h)) fun ⟨hnew, hother⟩ => ?_
    rcases List.mem_append.mp hseen with h | h
    · obtain ⟨b, hb, heq⟩ := List.mem_map.mp h
      exact hother b hb heq
    · exact hnew h
  · rw [keepFirst_new hseen]
    refine iff_of_true List.mem_cons_self ⟨fun h => hseen (List.mem_append_right _ h), fun b hb heq => ?_⟩
    exact hseen (List.mem_append_left _ (heq ▸ List.mem_map_of_mem hb))

omit [DecidableEq κ] in
theorem mem_of_pair_sublist {as bs : List α} {a b : α} (hbs : a ∉ bs)
    (h : List.Sublist [b, a] (as ++ a :: bs)) : b ∈ as := by
  obtain ⟨l, l', heq, hl, hl'⟩ := List.sublist_append_iff.mp h
  match l, heq with
  | [], heq =>
    obtain rfl : [b, a] = l' := heq
    have hmem : a ∈ bs := by
      cases hl' with
      | cons _ h => exact h.mem (by simp)
      | cons_cons _ h => exact h.mem (by simp)
    exact absurd hmem hbs
  | c :: l, heq =>
    obtain ⟨rfl, -⟩ := List.cons_eq_cons.mp heq
    exact hl.mem List.mem_cons_self

/-- The kinds of one time are seen apart from the others. -/
theorem filter_keepFirst (hkind : ∀ a b, kind a = kind b → time a = time b) (t : τ) (seen : List κ) (as : List α) :
    (keepFirst kind seen as).filter (fun a => time a = t) = keepFirst kind seen (as.filter fun a => time a = t) := by
  induction as generalizing seen with
  | nil => rfl
  | cons a as ih =>
    by_cases ht : time a = t
    · rw [List.filter_cons_of_pos (l := as) (by simpa using ht)]
      by_cases hseen : kind a ∈ seen
      · rw [keepFirst_old hseen, keepFirst_old hseen, ih]
      · rw [keepFirst_new hseen, keepFirst_new hseen, List.filter_cons_of_pos (by simpa using ht), ih]
    · rw [List.filter_cons_of_neg (l := as) (by simpa using ht)]
      by_cases hseen : kind a ∈ seen
      · rw [keepFirst_old hseen, ih]
      · rw [keepFirst_new hseen, List.filter_cons_of_neg (by simpa using ht), ih]
        refine keepFirst_congr fun b hb => ?_
        have hbt : time b = t := of_decide_eq_true (List.mem_filter.mp hb).2
        have hne : kind b ≠ kind a := fun heq => ht ((hkind _ _ heq).symm.trans hbt)
        simp [hne]

/-! ## Distinct entries -/

theorem pairwise_distinct (log : List α) : (distinct kind time log).Pairwise fun a b => time a ≤ time b :=
  (pairwise_byTime log).sublist (keepFirst_sublist _ _)

theorem nodup_kinds_distinct (log : List α) : ((distinct kind time log).map kind).Nodup := nodup_kinds_keepFirst _ _

theorem mem_of_mem_distinct {log : List α} {a : α} (h : a ∈ distinct kind time log) : a ∈ log :=
  mem_byTime.mp ((keepFirst_sublist _ _).mem h)

theorem mem_kinds_distinct {log : List α} {k : κ} : k ∈ (distinct kind time log).map kind ↔ k ∈ log.map kind := by
  unfold distinct
  rw [mem_kinds_keepFirst]
  simp [mem_byTime]

theorem distinct_eq_nil {log : List α} : distinct kind time log = [] ↔ log = [] := by
  constructor
  · intro h
    refine List.eq_nil_iff_forall_not_mem.mpr fun a ha => ?_
    have hkind : kind a ∈ (distinct kind time log).map kind := mem_kinds_distinct.mpr (List.mem_map_of_mem ha)
    rw [h] at hkind
    exact absurd hkind List.not_mem_nil
  · rintro rfl
    rfl

variable (hkind : ∀ a b, kind a = kind b → time a = time b)

include hkind

theorem filter_distinct (log : List α) (t : τ) :
    (distinct kind time log).filter (fun a => time a = t) = keepFirst kind [] (log.filter fun a => time a = t) := by
  unfold distinct
  rw [filter_keepFirst hkind, filter_byTime]

/-- A log may be sorted and reduced as it grows. -/
theorem distinct_distinct_append (as bs : List α) :
    distinct kind time (distinct kind time as ++ bs) = distinct kind time (as ++ bs) := by
  refine eq_of_filter (pairwise_distinct _) (pairwise_distinct _) fun t => ?_
  rw [filter_distinct hkind, filter_distinct hkind, List.filter_append, List.filter_append, filter_distinct hkind,
    keepFirst_keepFirst_append]

/-- Entries of kinds that the log has add nothing. -/
theorem distinct_append_old {as bs : List α} (h : ∀ b ∈ bs, kind b ∈ as.map kind) :
    distinct kind time (as ++ bs) = distinct kind time as := by
  refine eq_of_filter (pairwise_distinct _) (pairwise_distinct _) fun t => ?_
  rw [filter_distinct hkind, filter_distinct hkind, List.filter_append, keepFirst_append]
  refine (congrArg _ (keepFirst_all_old fun b hb => ?_)).trans (List.append_nil _)
  obtain ⟨hb, ht⟩ := List.mem_filter.mp hb
  obtain ⟨a, ha, heq⟩ := List.mem_map.mp (h b hb)
  have hat : time a = t := (hkind a b heq).trans (of_decide_eq_true ht)
  rw [List.append_nil, ← heq]
  exact List.mem_map_of_mem (List.mem_filter.mpr ⟨ha, decide_eq_true hat⟩)

/-- An entry that a log has once is dropped when one of its kind stands before it. -/
theorem mem_distinct_iff_before [DecidableEq α] {log : List α} {a : α}
    (h : log.count a = 1) : a ∈ distinct kind time log ↔ ∀ b, List.Sublist [b, a] log → kind b ≠ kind a := by
  have hcount : (log.filter fun b => time b = time a).count a = 1 := by rw [List.count_filter (by simp), h]
  obtain ⟨as, bs, hlog, has⟩ := List.eq_append_cons_of_mem (List.count_pos_iff.mp (hcount ▸ Nat.one_pos))
  have hbs : a ∉ bs := by
    rw [hlog, List.count_append, List.count_cons_self, List.count_eq_zero_of_not_mem has] at hcount
    exact List.count_eq_zero.mp (by omega)
  have hmem : a ∈ distinct kind time log ↔ a ∈ (distinct kind time log).filter fun b => time b = time a := by
    rw [List.mem_filter]
    simp
  rw [hmem, filter_distinct hkind, hlog, mem_keepFirst_between has hbs]
  constructor
  · rintro ⟨-, hother⟩ b hb heq
    refine hother b (mem_of_pair_sublist hbs ?_) heq
    have hsub := hb.filter fun b => decide (time b = time a)
    have hpair : [b, a].filter (fun b => decide (time b = time a)) = [b, a] := by simp [hkind b a heq]
    rwa [hpair, hlog] at hsub
  · refine fun hother => ⟨List.not_mem_nil, fun b hb => hother b ?_⟩
    have hsub : List.Sublist [b, a] (as ++ a :: bs) :=
      (List.singleton_sublist.mpr hb).append (List.singleton_sublist.mpr List.mem_cons_self)
    exact (hlog ▸ hsub).trans List.filter_sublist

end Log

end Opsense
