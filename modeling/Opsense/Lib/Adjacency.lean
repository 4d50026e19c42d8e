import Mathlib

/-!
# Two tables of links

A table gives every node a list of nodes. Two tables are `Converse` when an edge stands in one of them exactly when it stands
in the other one the other way round, and no list has a node twice. The rules say what the changes of the tables leave in a row: a
node is linked with others or no longer (`linkAll`, `unlinkAll`), and some nodes leave both tables (`leave`).
-/

namespace Opsense

/-- A table of the nodes that a node is linked with. -/
abbrev Adjacency (α : Type*) := AList fun _ : α => List α

namespace Adjacency

variable {α : Type*} [DecidableEq α]

/-- The nodes that a node is linked with; a node that has no entry is linked with none. -/
def row (t : Adjacency α) (i : α) : List α := (t.lookup i).getD []

/-- `entry(k).or_default()`, then push unless it is there. -/
def link (t : Adjacency α) (k v : α) : Adjacency α := t.insert k (if v ∈ t.row k then t.row k else t.row k ++ [v])

/-- `get_mut(k)`, then retain what is different. -/
def unlink (t : Adjacency α) (k v : α) : Adjacency α :=
  match t.lookup k with
  | some outs => t.insert k (outs.filter fun x => x ≠ v)
  | none => t

/-- Link some nodes with one. -/
def linkAll (t : Adjacency α) (ks : List α) (v : α) : Adjacency α := ks.foldl (fun t k => t.link k v) t

/-- Take a node out of the lists of some nodes. -/
def unlinkAll (t : Adjacency α) (ks : List α) (v : α) : Adjacency α := ks.foldl (fun t k => t.unlink k v) t

variable {t : Adjacency α} {i j k v : α} {ks : List α}

theorem row_insert (t : Adjacency α) (k : α) (l : List α) (i : α) : row (t.insert k l) i = if i = k then l else t.row i := by
  unfold row
  split_ifs with h
  · rw [h, AList.lookup_insert]
    rfl
  · rw [AList.lookup_insert_ne h]

theorem row_erase (t : Adjacency α) (k i : α) : row (t.erase k) i = if i = k then [] else t.row i := by
  unfold row
  split_ifs with h
  · rw [h, AList.lookup_erase]
    rfl
  · rw [AList.lookup_erase_ne h]

theorem row_of_notMem (h : i ∉ t) : t.row i = [] := by
  unfold row
  rw [AList.lookup_eq_none.mpr h]
  rfl

theorem mem_row_link : i ∈ row (t.link k v) j ↔ i ∈ t.row j ∨ (i = v ∧ j = k) := by
  unfold link
  rw [row_insert]
  by_cases hj : j = k
  · subst hj
    by_cases hv : v ∈ t.row j
    · simp only [if_true, if_pos hv]
      exact ⟨Or.inl, fun h => h.elim id fun h => h.1 ▸ hv⟩
    · simp [hv]
  · simp [hj]

theorem nodup_row_link (h : ∀ j, (t.row j).Nodup) (j : α) : (row (t.link k v) j).Nodup := by
  unfold link
  rw [row_insert]
  split_ifs with hj hv
  · exact h k
  · rw [List.nodup_append]
    refine ⟨h k, List.nodup_singleton v, fun a ha b hb hab => ?_⟩
    obtain rfl := List.mem_singleton.mp hb
    exact hv (hab ▸ ha)
  · exact h j

theorem mem_keys_link : i ∈ t.link k v ↔ i = k ∨ i ∈ t := AList.mem_insert t

theorem row_unlink (t : Adjacency α) (k v j : α) :
    row (t.unlink k v) j = if j = k then (t.row k).filter fun x => x ≠ v else t.row j := by
  unfold unlink
  cases hk : t.lookup k with
  | none =>
    split_ifs with hj
    · subst hj
      simp [row, hk]
    · rfl
  | some outs =>
    dsimp only
    rw [row_insert]
    simp [row, hk]

theorem mem_row_unlink : i ∈ row (t.unlink k v) j ↔ i ∈ t.row j ∧ ¬(i = v ∧ j = k) := by
  rw [row_unlink]
  by_cases hj : j = k
  · subst hj
    simp
  · simp [hj]

theorem nodup_row_unlink (h : ∀ j, (t.row j).Nodup) (j : α) : (row (t.unlink k v) j).Nodup := by
  rw [row_unlink]
  split_ifs
  · exact (h k).filter _
  · exact h j

theorem mem_keys_unlink : i ∈ t.unlink k v ↔ i ∈ t := by
  unfold unlink
  cases hk : t.lookup k with
  | none => rfl
  | some outs =>
    have hmem : k ∈ t := AList.lookup_isSome.mp (by simp [hk])
    dsimp only
    rw [AList.mem_insert]
    exact ⟨fun h => h.elim (fun h => h ▸ hmem) id, Or.inr⟩

theorem mem_row_linkAll : i ∈ row (t.linkAll ks v) j ↔ i ∈ t.row j ∨ (i = v ∧ j ∈ ks) := by
  induction ks generalizing t with
  | nil => simp [linkAll]
  | cons k ks ih =>
    have hstep : linkAll t (k :: ks) v = linkAll (t.link k v) ks v := rfl
    rw [hstep, ih, mem_row_link, List.mem_cons, or_assoc]
    refine or_congr_right ?_
    rw [← and_or_left]

theorem nodup_row_linkAll (h : ∀ j, (t.row j).Nodup) (j : α) : (row (t.linkAll ks v) j).Nodup := by
  induction ks generalizing t with
  | nil => exact h j
  | cons k ks ih => exact ih fun j => nodup_row_link h j

theorem mem_keys_linkAll : i ∈ t.linkAll ks v ↔ i ∈ ks ∨ i ∈ t := by
  induction ks generalizing t with
  | nil => simp [linkAll]
  | cons k ks ih =>
    have hstep : linkAll t (k :: ks) v = linkAll (t.link k v) ks v := rfl
    rw [hstep, ih, mem_keys_link, List.mem_cons]
    tauto

theorem mem_row_unlinkAll : i ∈ row (t.unlinkAll ks v) j ↔ i ∈ t.row j ∧ ¬(i = v ∧ j ∈ ks) := by
  induction ks generalizing t with
  | nil => simp [unlinkAll]
  | cons k ks ih =>
    have hstep : unlinkAll t (k :: ks) v = unlinkAll (t.unlink k v) ks v := rfl
    rw [hstep, ih, mem_row_unlink, List.mem_cons]
    tauto

theorem nodup_row_unlinkAll (h : ∀ j, (t.row j).Nodup) (j : α) : (row (t.unlinkAll ks v) j).Nodup := by
  induction ks generalizing t with
  | nil => exact h j
  | cons k ks ih => exact ih fun j => nodup_row_unlink h j

theorem mem_keys_unlinkAll : i ∈ t.unlinkAll ks v ↔ i ∈ t := by
  induction ks generalizing t with
  | nil => rfl
  | cons k ks ih =>
    have hstep : unlinkAll t (k :: ks) v = unlinkAll (t.unlink k v) ks v := rfl
    rw [hstep, ih, mem_keys_unlink]

/-! ## Converse tables -/

/-- Every edge stands in both tables, once in each. -/
structure Converse (sources sinks : Adjacency α) : Prop where
  mem : ∀ i j, j ∈ sources.row i ↔ i ∈ sinks.row j
  sources_nodup : ∀ i, (sources.row i).Nodup
  sinks_nodup : ∀ j, (sinks.row j).Nodup

/-- One node leaves. -/
def leave (t : Adjacency α × Adjacency α) (v : α) : Adjacency α × Adjacency α :=
  (t.1.erase v, (t.2.unlinkAll (t.1.row v) v).erase v)

theorem row_sources_leave (vs : List α) (t : Adjacency α × Adjacency α) (i : α) :
    row (vs.foldl leave t).1 i = if i ∈ vs then [] else row t.1 i := by
  induction vs generalizing t with
  | nil => simp
  | cons v vs ih =>
    rw [List.foldl_cons, ih]
    unfold leave
    dsimp only
    rw [row_erase]
    by_cases hi : i = v <;> by_cases hvs : i ∈ vs <;> simp [hi, hvs]

/-- What is left of the lists of sinks when some nodes leave. -/
theorem mem_sinks_leave (vs : List α) {t : Adjacency α × Adjacency α}
    (hconv : ∀ i j, i ∈ row t.2 j → j ∈ row t.1 i) :
    (∀ i j, i ∈ row (vs.foldl leave t).2 j ↔ i ∈ row t.2 j ∧ i ∉ vs ∧ j ∉ vs) ∧
    ((∀ j, (row t.2 j).Nodup) → ∀ j, (row (vs.foldl leave t).2 j).Nodup) := by
  induction vs generalizing t with
  | nil => simp
  | cons v vs ih =>
    have hone : ∀ i j, i ∈ row (leave t v).2 j ↔ i ∈ row t.2 j ∧ i ≠ v ∧ j ≠ v := by
      intro i j
      unfold leave
      dsimp only
      rw [row_erase]
      by_cases hj : j = v
      · simp [hj]
      · rw [if_neg hj, mem_row_unlinkAll]
        -- where the node is among the sinks of another one, that one is among its sources
        constructor
        · rintro ⟨hmem, hnot⟩
          exact ⟨hmem, fun hi => hnot ⟨hi, hi ▸ hconv i j hmem⟩, hj⟩
        · rintro ⟨hmem, hi, -⟩
          exact ⟨hmem, fun h => hi h.1⟩
    have hconv' : ∀ i j, i ∈ row (leave t v).2 j → j ∈ row (leave t v).1 i := by
      intro i j hmem
      obtain ⟨hmem, hi, -⟩ := (hone i j).mp hmem
      unfold leave
      dsimp only
      rw [row_erase, if_neg hi]
      exact hconv i j hmem
    obtain ⟨hall, hnodup⟩ := ih hconv'
    rw [List.foldl_cons]
    constructor
    · intro i j
      rw [hall, hone]
      simp only [List.mem_cons, not_or]
      tauto
    · intro h
      refine hnodup fun j => ?_
      unfold leave
      dsimp only
      rw [row_erase]
      split_ifs
      · exact List.nodup_nil
      · exact nodup_row_unlinkAll h j

/-- The nodes that leave have no entries afterwards, and no others are new. -/
theorem mem_keys_leave (vs : List α) (t : Adjacency α × Adjacency α) (i : α) :
    (i ∈ (vs.foldl leave t).1 ↔ i ∈ t.1 ∧ i ∉ vs) ∧ (i ∈ (vs.foldl leave t).2 ↔ i ∈ t.2 ∧ i ∉ vs) := by
  induction vs generalizing t with
  | nil => simp
  | cons v vs ih =>
    obtain ⟨h1, h2⟩ := ih (leave t v)
    rw [List.foldl_cons, h1, h2]
    unfold leave
    dsimp only
    rw [AList.mem_erase, AList.mem_erase, mem_keys_unlinkAll]
    simp only [List.mem_cons, not_or]
    tauto

end Adjacency

end Opsense
