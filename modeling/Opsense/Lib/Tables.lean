import Mathlib

/-!
# Tables

A list with one entry for each number below a bound, whose entries are changed one after another. An entry is what its own changes
make of it (`foldl_modify`): a counter counts the items of its number (`foldl_count`), and a table of rows is a table of what its
rows collect (`foldl_count_rows`). A sparse row lists the items that were counted, each once (`Bumped`).
-/

namespace Opsense

namespace Tables

variable {α β : Type*}

/-- The table of a function. -/
def tabulate (n : Nat) (f : Nat → β) : List β := (List.range n).map f

@[simp] theorem length_tabulate (n : Nat) (f : Nat → β) : (tabulate n f).length = n := by
  simp [tabulate]

theorem getElem?_tabulate (n : Nat) (f : Nat → β) (i : Nat) : (tabulate n f)[i]? = if i < n then some (f i) else none := by
  by_cases h : i < n
  · simp [tabulate, h]
  · simp [tabulate, h]

theorem getD_tabulate {n : Nat} (f : Nat → β) {i : Nat} (d : β) (h : i < n) : (tabulate n f)[i]?.getD d = f i := by
  rw [getElem?_tabulate, if_pos h, Option.getD_some]

theorem tabulate_congr {n : Nat} {f g : Nat → β} (h : ∀ i < n, f i = g i) : tabulate n f = tabulate n g := by
  apply List.map_congr_left
  intro i hi
  exact h i (List.mem_range.mp hi)

theorem replicate_eq_tabulate (n : Nat) (b : β) : List.replicate n b = tabulate n fun _ => b := by
  simp [tabulate]

theorem modify_tabulate (n i : Nat) (f : Nat → β) (g : β → β) :
    (tabulate n f).modify i g = tabulate n fun j => if j = i then g (f j) else f j := by
  apply List.ext_getElem?
  intro j
  rw [List.getElem?_modify, getElem?_tabulate, getElem?_tabulate]
  by_cases hj : j < n
  · rcases eq_or_ne j i with rfl | hne
    · simp [hj]
    · simp [hj, hne, Ne.symm hne]
  · simp [hj]

/-- An entry is what its own changes make of it. -/
theorem foldl_modify (key : α → Nat) (change : α → β → β) (n : Nat) (f : Nat → β) (as : List α) :
    as.foldl (fun t a => t.modify (key a) (change a)) (tabulate n f) =
      tabulate n fun i => (as.filter fun a => key a = i).foldl (fun b a => change a b) (f i) := by
  induction as generalizing f with
  | nil => rfl
  | cons a as ih =>
    rw [List.foldl_cons, modify_tabulate, ih]
    apply tabulate_congr
    intro i _
    rcases eq_or_ne i (key a) with rfl | hne
    · simp
    · simp [hne, Ne.symm hne]

theorem foldl_succ (n : Nat) (as : List α) : as.foldl (fun k _ => k + 1) n = n + as.length := by
  induction as generalizing n with
  | nil => rfl
  | cons a as ih =>
    rw [List.foldl_cons, ih, List.length_cons]
    omega

/-- A counter counts the items of its number. -/
theorem foldl_count (key : α → Nat) (n : Nat) (as : List α) :
    as.foldl (fun t a => t.modify (key a) (· + 1)) (List.replicate n 0) = tabulate n fun i => as.countP fun a => key a = i := by
  rw [replicate_eq_tabulate, foldl_modify key fun _ => (· + 1)]
  apply tabulate_congr
  intro i _
  rw [foldl_succ, Nat.zero_add, List.countP_eq_length_filter]

/-- The counters of a table of rows. -/
theorem foldl_count_rows (row col : α → Nat) (n m : Nat) (as : List α) :
    as.foldl (fun t a => t.modify (row a) fun r => r.modify (col a) (· + 1)) (List.replicate n (List.replicate m 0)) =
      tabulate n fun i => tabulate m fun j => as.countP fun a => row a = i ∧ col a = j := by
  rw [replicate_eq_tabulate n, foldl_modify row fun (a : α) (r : List Nat) => r.modify (col a) (· + 1)]
  apply tabulate_congr
  intro i _
  rw [foldl_count]
  apply tabulate_congr
  intro j _
  rw [List.countP_filter]
  apply List.countP_congr
  intro a _
  simp [and_comm]

/-- One more item, with the property of one of the counters. -/
theorem modify_count {n i : Nat} {p : Nat → α → Bool} (as : List α) {a : α} (h : ∀ c < n, p c a = decide (c = i)) :
    (tabulate n fun c => as.countP (p c)).modify i (· + 1) = tabulate n fun c => (as ++ [a]).countP (p c) := by
  rw [modify_tabulate]
  apply tabulate_congr
  intro c hc
  rw [List.countP_append, List.countP_singleton, h c hc]
  by_cases hci : c = i <;> simp [hci]

/-- One more item, with the property of none of the counters. -/
theorem count_of_not {n : Nat} {p : Nat → α → Bool} (as : List α) {a : α} (h : ∀ c < n, p c a = false) :
    (tabulate n fun c => as.countP (p c)) = tabulate n fun c => (as ++ [a]).countP (p c) := by
  apply tabulate_congr
  intro c hc
  simp [h c hc]

theorem sum_modify_succ {t : List Nat} {i : Nat} (h : i < t.length) : (t.modify i (· + 1)).sum = t.sum + 1 := by
  induction t generalizing i with
  | nil => simp at h
  | cons x t ih =>
    cases i with
    | zero =>
      simp
      omega
    | succ i =>
      simp only [List.modify_succ_cons, List.sum_cons, ih (by simpa using h)]
      omega

/-- Every item is counted by one counter. -/
theorem sum_count (key : α → Nat) {n : Nat} {as : List α} (h : ∀ a ∈ as, key a < n) :
    (tabulate n fun i => as.countP fun a => key a = i).sum = as.length := by
  induction as using List.reverseRecOn with
  | nil => simp [tabulate]
  | append_singleton as a ih =>
    have hlt : key a < n := h a (List.mem_append_right _ (List.mem_singleton_self a))
    rw [← modify_count (p := fun i a => key a = i) as fun c _ => decide_eq_decide.mpr eq_comm, sum_modify_succ (by simpa using hlt),
      ih fun b hb => h b (List.mem_append_left _ hb), List.length_append, List.length_singleton]

/-- Every item is counted by one counter of one row. -/
theorem sum_count_rows (row col : α → Nat) {n m : Nat} {as : List α} (h : ∀ a ∈ as, row a < n ∧ col a < m) :
    ((tabulate n fun i => tabulate m fun j => as.countP fun a => row a = i ∧ col a = j).map List.sum).sum = as.length := by
  rw [← sum_count row fun a ha => (h a ha).1, tabulate, List.map_map]
  congr 1
  apply List.map_congr_left
  intro i _
  have hrow := sum_count col fun a (ha : a ∈ as.filter fun a => row a = i) => (h a (List.mem_of_mem_filter ha)).2
  rw [List.countP_eq_length_filter, ← hrow]
  refine congrArg List.sum (tabulate_congr fun j _ => ?_)
  rw [List.countP_filter]
  apply List.countP_congr
  intro a _
  simp [and_comm]

/-- More items have a property than one that implies it, where an item has only the former. -/
theorem countP_lt {p q : α → Bool} {as : List α} (h : ∀ a ∈ as, p a → q a) {a : α} (ha : a ∈ as) (hq : q a) (hp : ¬p a) :
    as.countP p < as.countP q := by
  have hfilter : as.countP p = (as.filter q).countP p := by
    rw [List.countP_filter]
    apply List.countP_congr
    intro b hb
    have := h b hb
    simp
    tauto
  have hlength : as.countP q = (as.filter q).length := List.countP_eq_length_filter
  rw [hfilter, hlength, List.countP_lt_length_iff]
  exact ⟨a, List.mem_filter.mpr ⟨ha, hq⟩, by simpa using hp⟩

/-! ## Sparse rows -/

section Sparse

variable [DecidableEq α]

/-- An item is counted: by its own counter if it has one, else by a new one. -/
def bump (row : List (α × Nat)) (a : α) : List (α × Nat) :=
  match row with
  | [] => [(a, 1)]
  | (b, count) :: row => if b = a then (b, count + 1) :: row else (b, count) :: bump row a

theorem mem_bump_fst (row : List (α × Nat)) (a b : α) : b ∈ (bump row a).map Prod.fst ↔ b = a ∨ b ∈ row.map Prod.fst := by
  induction row with
  | nil => simp [bump]
  | cons x row ih =>
    obtain ⟨c, count⟩ := x
    unfold bump
    split_ifs with hc
    · subst hc
      simp
    · rw [List.map_cons, List.mem_cons, ih, List.map_cons, List.mem_cons]
      tauto

theorem nodup_bump {row : List (α × Nat)} (h : (row.map Prod.fst).Nodup) (a : α) : ((bump row a).map Prod.fst).Nodup := by
  induction row with
  | nil => simp [bump]
  | cons x row ih =>
    obtain ⟨c, count⟩ := x
    obtain ⟨hnot, hrow⟩ := List.nodup_cons.mp h
    unfold bump
    split_ifs with hc
    · exact List.nodup_cons.mpr ⟨hnot, hrow⟩
    · refine List.nodup_cons.mpr ⟨?_, ih hrow⟩
      intro hmem
      rcases (mem_bump_fst row a c).mp hmem with heq | hmem
      · exact hc heq
      · exact hnot hmem

/-- What the counters of the items with a property add up to. -/
def total (p : α → Bool) (row : List (α × Nat)) : Nat := ((row.filter fun x => p x.1).map Prod.snd).sum

theorem total_bump (p : α → Bool) (row : List (α × Nat)) (a : α) : total p (bump row a) = total p row + if p a then 1 else 0 := by
  induction row with
  | nil => cases hp : p a <;> simp [bump, total, hp]
  | cons x row ih =>
    obtain ⟨c, count⟩ := x
    unfold total at ih ⊢
    unfold bump
    split_ifs with hc hp hp
    · subst hc
      simp [hp]
      omega
    · subst hc
      simp [hp]
    all_goals
      cases hpc : p c <;> simp [hpc, hp] at ih ⊢ <;> omega

/-- The row of the items. -/
def bumped (as : List α) : List (α × Nat) := as.foldl bump []

theorem nodup_bumped (as : List α) : ((bumped as).map Prod.fst).Nodup := by
  induction as using List.reverseRecOn with
  | nil => simp [bumped]
  | append_singleton as a ih =>
    rw [bumped, List.foldl_append]
    exact nodup_bump ih a

theorem total_bumped (p : α → Bool) (as : List α) : total p (bumped as) = as.countP p := by
  induction as using List.reverseRecOn with
  | nil => simp [bumped, total]
  | append_singleton as a ih =>
    rw [bumped, List.foldl_append, List.foldl_cons, List.foldl_nil, total_bump]
    rw [bumped] at ih
    rw [ih, List.countP_append, List.countP_singleton]

end Sparse

/-- Items that no counter is for are not counted. -/
theorem sum_count_le (key : α → Option Nat) (n : Nat) (as : List α) :
    (tabulate n fun i => as.countP fun a => key a = some i).sum ≤ as.countP fun a => (key a).isSome := by
  have hlt : ∀ k ∈ (as.filterMap key).filter (· < n), id k < n := by simp
  have hsum := sum_count id hlt
  have hcount : ∀ i < n, (((as.filterMap key).filter (· < n)).countP fun k => id k = i) = as.countP fun a => key a = some i := by
    intro i hi
    rw [List.countP_filter, List.countP_filterMap]
    apply List.countP_congr
    intro a _
    cases key a with
    | none => simp
    | some k =>
      simp
      omega
  rw [tabulate_congr hcount] at hsum
  rw [hsum, ← List.length_filterMap_eq_countP]
  exact List.length_filter_le _ _

end Tables

end Opsense
