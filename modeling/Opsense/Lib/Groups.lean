import Mathlib

/-!
# Groups by key

Items join the group of their key one after another, and groups are taken out in the order of their keys. A group is the fold of
its items (`lookup_collect`); the groups taken out in two turns, the second of keys above the first, are those of one turn
(`sort_filter_append`). What is summed up by groups is the sum over all items (`sum_inOrder`).
-/

namespace Opsense

namespace Groups

variable {κ α β : Type*} [DecidableEq κ]

/-- An item joins the group of its key. -/
def push (join : Option β → α → β) (key : α → κ) (groups : Finmap fun _ : κ => β) (a : α) : Finmap fun _ : κ => β :=
  groups.insert (key a) (join (groups.lookup (key a)) a)

/-- The items join their groups. -/
def collect (join : Option β → α → β) (key : α → κ) (groups : Finmap fun _ : κ => β) (as : List α) : Finmap fun _ : κ => β :=
  as.foldl (push join key) groups

/-- Groups are taken out. -/
def remove (groups : Finmap fun _ : κ => β) (ks : List κ) : Finmap fun _ : κ => β := ks.foldl (fun groups k => groups.erase k) groups

variable {join : Option β → α → β} {key : α → κ} {groups : Finmap fun _ : κ => β} {k : κ}

theorem lookup_push (a : α) :
    (push join key groups a).lookup k = if key a = k then some (join (groups.lookup k) a) else groups.lookup k := by
  unfold push
  split_ifs with h
  · rw [← h, Finmap.lookup_insert]
  · exact Finmap.lookup_insert_of_ne _ (Ne.symm h)

/-- A group is the fold of its items. -/
theorem lookup_collect (as : List α) : (collect join key groups as).lookup k =
    (as.filter fun a => key a = k).foldl (fun group a => some (join group a)) (groups.lookup k) := by
  induction as generalizing groups with
  | nil => rfl
  | cons a as ih =>
    have hstep : collect join key groups (a :: as) = collect join key (push join key groups a) as := rfl
    rw [hstep, ih, lookup_push]
    by_cases h : key a = k
    · rw [if_pos h, List.filter_cons_of_pos (by simpa using h), List.foldl_cons]
    · rw [if_neg h, List.filter_cons_of_neg (by simpa using h)]

theorem lookup_remove (ks : List κ) : (remove groups ks).lookup k = if k ∈ ks then none else groups.lookup k := by
  induction ks generalizing groups with
  | nil => simp [remove]
  | cons k' ks ih =>
    have hstep : remove groups (k' :: ks) = remove (groups.erase k') ks := rfl
    rw [hstep, ih]
    by_cases hk : k = k'
    · subst hk
      simp
    · rw [Finmap.lookup_erase_ne hk]
      simp [hk]

/-- The keys of a set in ascending order. -/
def inOrder [LinearOrder κ] (ks : Finset κ) : List κ := ks.sort

/-- Keys taken out in two turns, the second of keys above the first, come in the order of one turn. -/
theorem sort_filter_append [LinearOrder κ] {first second all : Finset κ} (hall : all = first ∪ second)
    (hlt : ∀ a ∈ first, ∀ b ∈ second, a < b) : first.sort ++ second.sort = all.sort := by
  refine List.Perm.eq_of_pairwise (fun a b _ _ => le_antisymm) ?_ (Finset.pairwise_sort _ _) ?_
  · rw [List.pairwise_append]
    refine ⟨Finset.pairwise_sort _ _, Finset.pairwise_sort _ _, ?_⟩
    intro a ha b hb
    exact (hlt a ((Finset.mem_sort _).mp ha) b ((Finset.mem_sort _).mp hb)).le
  · refine (List.perm_ext_iff_of_nodup ?_ (Finset.sort_nodup _ _)).mpr ?_
    · refine List.nodup_append.mpr ⟨Finset.sort_nodup _ _, Finset.sort_nodup _ _, ?_⟩
      intro a ha b hb heq
      exact (heq ▸ hlt a ((Finset.mem_sort _).mp ha) b ((Finset.mem_sort _).mp hb)).false
    · intro a
      simp [hall]

/-- What the items of all groups add up to is what the items add up to. -/
theorem sum_inOrder [LinearOrder κ] {γ : Type*} [AddCommMonoid γ] (key : α → κ) (amount : α → γ) {ks : Finset κ} {as : List α}
    (h : ∀ a ∈ as, key a ∈ ks) :
    ((inOrder ks).map fun k => ((as.filter fun a => key a = k).map amount).sum).sum = (as.map amount).sum := by
  have hsort (f : κ → γ) : ((inOrder ks).map f).sum = ∑ k ∈ ks, f k := by
    rw [inOrder, ← List.sum_toFinset f (Finset.sort_nodup ks _), Finset.sort_toFinset]
  rw [hsort]
  induction as with
  | nil => simp
  | cons a as ih =>
    have hone : ∀ k, (((a :: as).filter fun a => key a = k).map amount).sum =
        (if key a = k then amount a else 0) + ((as.filter fun a => key a = k).map amount).sum := by
      intro k
      by_cases hk : key a = k
      · rw [List.filter_cons_of_pos (by simpa using hk), if_pos hk, List.map_cons, List.sum_cons]
      · rw [List.filter_cons_of_neg (by simpa using hk), if_neg hk, zero_add]
    rw [Finset.sum_congr rfl fun k _ => hone k, Finset.sum_add_distrib, ih fun b hb => h b (List.mem_cons_of_mem _ hb),
      Finset.sum_ite_eq, if_pos (h a List.mem_cons_self), List.map_cons, List.sum_cons]

/-- Ascending keys of which none lies between two that are one width apart, and all are there in between, follow one another at
that width. -/
theorem isChain_of_width {w : Int} (hw : 0 < w) {ks : List Int} (hks : ks.Pairwise (· < ·)) (hgap : ∀ a ∈ ks, ∀ b ∈ ks, a < b → a + w ≤ b)
    (hfull : ∀ a ∈ ks, ∀ b ∈ ks, a < b → a + w ∈ ks) : ks.IsChain fun a b => a < b ∧ b = a + w := by
  induction ks with
  | nil => exact .nil
  | cons a ks ih =>
    obtain ⟨ha, hks⟩ := List.pairwise_cons.mp hks
    have htail : ks.IsChain fun a b => a < b ∧ b = a + w := by
      refine ih hks (fun x hx y hy => hgap x (List.mem_cons_of_mem _ hx) y (List.mem_cons_of_mem _ hy)) fun x hx y hy hxy => ?_
      rcases List.mem_cons.mp (hfull x (List.mem_cons_of_mem _ hx) y (List.mem_cons_of_mem _ hy) hxy) with heq | hmem
      · have := ha x hx
        omega
      · exact hmem
    cases ks with
    | nil => exact .singleton a
    | cons b ks =>
      have hab := ha b List.mem_cons_self
      have hle := hgap a List.mem_cons_self b (by simp) hab
      refine .cons_cons ⟨hab, ?_⟩ htail
      -- the key one width on is the next one, since none is nearer
      have hmem := hfull a List.mem_cons_self b (by simp) hab
      rw [List.mem_cons, List.mem_cons] at hmem
      rcases hmem with h | h | h
      · omega
      · exact h.symm
      · have := (List.pairwise_cons.mp hks).1 _ h
        omega

end Groups

end Opsense
