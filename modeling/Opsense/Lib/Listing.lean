import Mathlib

/-!
# Maps iterated in some order

An iteration over a hash map gives every entry once, in an order that nothing is known of. A map that is built from the
entries of another one is that map, whatever the order.
-/

namespace Opsense

/-- The entries of a map as an iteration gives them. -/
structure Listing {κ ν : Type*} (t : Finmap fun _ : κ => ν) where
  entries : List (Sigma fun _ : κ => ν)
  all : (entries : Multiset (Sigma fun _ : κ => ν)) = t.entries

namespace Listing

variable {κ ν : Type*} {t : Finmap fun _ : κ => ν} (l : Listing t)

theorem nonempty (t : Finmap fun _ : κ => ν) : Nonempty (Listing t) := ⟨⟨t.entries.toList, Multiset.coe_toList _⟩⟩

theorem nodupKeys : l.entries.NodupKeys := by
  have hnodup := t.nodupKeys
  rw [← l.all] at hnodup
  exact Multiset.coe_nodupKeys.mp hnodup

variable [DecidableEq κ]

/-- The first entry under a key is what the map has there. -/
theorem dlookup (key : κ) : l.entries.dlookup key = t.lookup key := by
  refine Option.ext fun v => ?_
  rw [← Option.mem_def, ← Option.mem_def, Finmap.mem_lookup_iff, List.mem_dlookup_iff l.nodupKeys, ← l.all, Multiset.mem_coe]

theorem mem_iff {e : Sigma fun _ : κ => ν} : e ∈ l.entries ↔ t.lookup e.1 = some e.2 := by
  rw [← l.dlookup]
  exact (List.mem_dlookup_iff l.nodupKeys).symm

/-- Entries of different keys take precedence over those there were. -/
theorem lookup_foldl_insert {es : List (Sigma fun _ : κ => ν)} (hes : es.NodupKeys) (t : Finmap fun _ : κ => ν) (key : κ) :
    (es.foldl (fun t e => t.insert e.1 e.2) t).lookup key = (es.dlookup key).or (t.lookup key) := by
  induction es generalizing t with
  | nil => rfl
  | cons e es ih =>
    obtain ⟨hnot, hes⟩ := List.nodupKeys_cons.mp hes
    rw [List.foldl_cons, ih hes]
    by_cases hkey : key = e.1
    · subst hkey
      rw [List.dlookup_eq_none.mpr hnot, List.dlookup_cons_eq, Finmap.lookup_insert]
      rfl
    · rw [List.dlookup_cons_ne _ _ hkey, Finmap.lookup_insert_of_ne _ hkey]

/-- The entries inserted into a part of the map give the map. -/
theorem foldl_insert {base : Finmap fun _ : κ => ν} (hbase : ∀ key, key ∈ base → key ∈ t) :
    l.entries.foldl (fun t e => t.insert e.1 e.2) base = t := by
  refine Finmap.ext_lookup fun key => ?_
  rw [lookup_foldl_insert l.nodupKeys, l.dlookup]
  cases ht : t.lookup key with
  | some v => rfl
  | none =>
    have hnot : key ∉ base := fun hmem => Finmap.lookup_eq_none.mp ht (hbase key hmem)
    exact Finmap.lookup_eq_none.mpr hnot

/-- A step that inserts an entry of a new key is as good as an insertion, since every key comes once. -/
theorem foldl_new {step : (Finmap fun _ : κ => ν) → (Sigma fun _ : κ => ν) → Finmap fun _ : κ => ν}
    (hstep : ∀ t', ∀ e ∈ l.entries, e.1 ∉ t' → step t' e = t'.insert e.1 e.2) : l.entries.foldl step ∅ = t := by
  have hsame : ∀ es : List (Sigma fun _ : κ => ν), es.NodupKeys → (∀ e ∈ es, e ∈ l.entries) → ∀ t' : Finmap fun _ : κ => ν,
      (∀ e ∈ es, e.1 ∉ t') → es.foldl step t' = es.foldl (fun t e => t.insert e.1 e.2) t' := by
    intro es
    induction es with
    | nil => intro _ _ t' _; rfl
    | cons e es ih =>
      intro hes hsub t' hnew
      obtain ⟨hnot, hes⟩ := List.nodupKeys_cons.mp hes
      rw [List.foldl_cons, List.foldl_cons, hstep t' e (hsub e (by simp)) (hnew e (by simp))]
      refine ih hes (fun e' he' => hsub e' (List.mem_cons_of_mem _ he')) _ fun e' he' hmem => ?_
      rcases Finmap.mem_insert.mp hmem with heq | hmem
      · exact hnot (heq ▸ List.mem_map_of_mem he')
      · exact hnew e' (List.mem_cons_of_mem _ he') hmem
  rw [hsame l.entries l.nodupKeys (fun e he => he) ∅ fun e _ => Finmap.notMem_empty]
  exact l.foldl_insert fun key hmem => absurd hmem Finmap.notMem_empty

end Listing

end Opsense
