import Opsense.Lru.Arena
import Opsense.Lru.Recency

/-!
# The shared arena refines the recency lists

`Stores` says that the nodes in the lists of an arena hold exactly the entries of a `Recency`, in its order, and that the
mapping points to them. The three things an operation does to entries (`Stores.touch`, `Stores.cut`, `Stores.add`) keep
it, and with the lemmas on links the machine of the arena simulates the machine of the recency lists (`simulates`).
-/

namespace Opsense

namespace LruCache.Shared

variable {K V : Type} [DecidableEq K] {S : Nat} {hash : K → Fin S}

/-- An entry of a list as the arena holds it. -/
def asEntry (e : Sigma fun _ : K => V) : Option (K × V) := some (e.1, e.2)

/-- The node is in one of the lists. -/
def Live (ls : Fin S → List Nat) (i : Nat) : Prop := ∃ s, i ∈ ls s

/-- The lists `ls` of nodes hold the entries of `r`. -/
structure Stores (c : LruCache K V S) (ls : Fin S → List Nat) (r : Recency K V hash) : Prop where
  entries : ∀ s, (ls s).map c.entryAt = (r.lists s).entries.map asEntry
  mapping : ∀ k i, c.mapping.lookup k = some i ↔ Live ls i ∧ (c.caching i).key = some k
  cleared : ∀ i, ¬ Live ls i → (c.caching i).key = none ∧ (c.caching i).value = none

omit [DecidableEq K] in
theorem entryAt_eq_some {c : LruCache K V S} {i : Nat} {k : K} {v : V} :
    c.entryAt i = some (k, v) ↔ (c.caching i).key = some k ∧ (c.caching i).value = some v := by
  unfold entryAt
  cases (c.caching i).key <;> cases (c.caching i).value <;> simp

omit [DecidableEq K] in
theorem entryAt_congr {c c' : LruCache K V S} {i : Nat} (hk : (c'.caching i).key = (c.caching i).key)
    (hv : (c'.caching i).value = (c.caching i).value) : c'.entryAt i = c.entryAt i := by
  unfold entryAt
  rw [hk, hv]

omit [DecidableEq K] in
theorem live_update {ls : Fin S → List Nat} {s : Fin S} {xs : List Nat} {j : Nat} :
    Live (Function.update ls s xs) j ↔ j ∈ xs ∨ ∃ t, t ≠ s ∧ j ∈ ls t := by
  constructor
  · rintro ⟨t, ht⟩
    by_cases hts : t = s
    · subst hts
      rw [Function.update_self] at ht
      exact Or.inl ht
    · rw [Function.update_of_ne hts] at ht
      exact Or.inr ⟨t, hts, ht⟩
  · rintro (hj | ⟨t, hts, ht⟩)
    · exact ⟨s, by rwa [Function.update_self]⟩
    · exact ⟨t, by rwa [Function.update_of_ne hts]⟩

omit [DecidableEq K] in
theorem live_iff (ls : Fin S → List Nat) (s : Fin S) {j : Nat} :
    Live ls j ↔ j ∈ ls s ∨ ∃ t, t ≠ s ∧ j ∈ ls t := by
  conv_lhs => rw [← Function.update_eq_self s ls]
  exact live_update

namespace Stores

variable {c c' : LruCache K V S} {ls : Fin S → List Nat} {r : Recency K V hash}

/-- Erasing a key from a list of entries takes out the one place it is at. -/
theorem kerase_middle {l : AList fun _ : K => V} {k : K} {v : V} {es fs : List (Sigma fun _ : K => V)}
    (h : l.entries = es ++ ⟨k, v⟩ :: fs) : List.kerase k l.entries = es ++ fs := by
  have hnd : (es ++ ⟨k, v⟩ :: fs).NodupKeys := h ▸ l.nodupKeys
  have hk : k ∉ es.keys := by
    intro hk
    rw [List.NodupKeys, List.keys, List.map_append] at hnd
    exact (List.nodup_append.mp hnd).2.2 k hk k (by simp) rfl
  rw [h, List.kerase_append_right hk]
  simp

/-- The node `i` of shard `s` is at the place in the list of nodes where the entry `(k, v)` is in the list of entries. -/
structure Located (c : LruCache K V S) (ls : Fin S → List Nat) (r : Recency K V hash) (s : Fin S) (k : K) (v : V) (i : Nat)
    (xs ys : List Nat) : Prop where
  home : hash k = s
  nodes : ls s = xs ++ i :: ys
  entry : c.entryAt i = some (k, v)
  others : (xs ++ ys).map c.entryAt = (List.kerase k (r.lists s).entries).map asEntry
  found : r.find k = some v

variable {xs ys : List Nat}

/-- A node of a list, with the entry it holds. -/
theorem locate_node (h : Stores c ls r) {s : Fin S} {i : Nat} (hls : ls s = xs ++ i :: ys) :
    ∃ k v, Located c ls r s k v i xs ys := by
  have hmap := h.entries s
  rw [hls, List.map_append, List.map_cons] at hmap
  obtain ⟨es, es', hes, hxs, hes'⟩ := List.append_eq_map_iff.mp hmap
  obtain ⟨⟨k, v⟩, fs, rfl, he, hfs⟩ := List.map_eq_cons_iff.mp hes'
  have hmem : (⟨k, v⟩ : Sigma fun _ : K => V) ∈ (r.lists s).entries := by rw [hes]; simp
  refine ⟨k, v, r.home s k (List.mem_map_of_mem (f := Sigma.fst) hmem), hls, he.symm, ?_, Recency.find_of_mem hmem⟩
  rw [kerase_middle hes, List.map_append, List.map_append, hxs, hfs]

/-- A mapped key, with its node and its entry. -/
theorem locate (h : Stores c ls r) {k : K} {i : Nat} (hk : c.mapping.lookup k = some i) :
    ∃ v xs ys, Located c ls r (hash k) k v i xs ys := by
  obtain ⟨⟨s, hi⟩, hkey⟩ := (h.mapping k i).mp hk
  obtain ⟨xs, ys, hls⟩ := List.append_of_mem hi
  obtain ⟨k', v, hloc⟩ := h.locate_node hls
  have hkk : k' = k := Option.some.inj ((entryAt_eq_some.mp hloc.entry).1.symm.trans hkey)
  subst hkk
  have hs := hloc.home
  subst hs
  exact ⟨v, xs, ys, hloc⟩

/-- A key is mapped exactly when it holds a value. -/
theorem lookup_none (h : Stores c ls r) {k : K} : c.mapping.lookup k = none ↔ r.find k = none := by
  constructor
  · intro hk
    cases hf : r.find k with
    | none => rfl
    | some v =>
      have hmem : asEntry ⟨k, v⟩ ∈ (ls (hash k)).map c.entryAt :=
        h.entries _ ▸ List.mem_map_of_mem (Recency.mem_of_find hf)
      obtain ⟨i, hi, heq⟩ := List.mem_map.mp hmem
      have := (h.mapping k i).mpr ⟨⟨_, hi⟩, (entryAt_eq_some.mp heq).1⟩
      rw [hk] at this
      nomatch this
  · intro hf
    cases hk : c.mapping.lookup k with
    | none => rfl
    | some i =>
      obtain ⟨v, _, _, hloc⟩ := h.locate hk
      have := hf.symm.trans hloc.found
      nomatch this

/-- The entries after an edit of the list of one shard. -/
theorem entries_update (h : Stores c ls r) {r' : Recency K V hash} {s : Fin S} {xs : List Nat}
    {l : AList fun _ : K => V} (hr : r'.lists = Function.update r.lists s l)
    (hnew : xs.map c'.entryAt = l.entries.map asEntry)
    (hold : ∀ t, t ≠ s → ∀ j ∈ ls t, c'.entryAt j = c.entryAt j) :
    ∀ t, (Function.update ls s xs t).map c'.entryAt = (r'.lists t).entries.map asEntry := by
  intro t
  rw [hr]
  by_cases hts : t = s
  · subst hts
    rw [Function.update_self, Function.update_self]
    exact hnew
  · rw [Function.update_of_ne hts, Function.update_of_ne hts, ← h.entries t]
    exact List.map_congr_left (hold t hts)

/-- The nodes left when one is cut out are what they were, and the node is not among them. -/
theorem notMem_cut {s : Fin S} {i : Nat} (hi : ¬ Live (Function.update ls s (xs ++ ys)) i) :
    i ∉ xs ++ ys ∧ ∀ t, t ≠ s → i ∉ ls t := by
  rw [live_update] at hi
  exact ⟨fun hm => hi (Or.inl hm), fun t ht hm => hi (Or.inr ⟨t, ht, hm⟩)⟩

/-- The node of a key takes a new value and moves to the front. -/
theorem touch (h : Stores c ls r) {k : K} {i : Nat} {v v' : V} (hloc : Located c ls r (hash k) k v i xs ys)
    (hi : ¬ Live (Function.update ls (hash k) (xs ++ ys)) i) (hmap : c'.mapping = c.mapping)
    (hkey : ∀ j, (c'.caching j).key = (c.caching j).key) (hval : ∀ j, (c'.caching j).value = if j = i then some v' else (c.caching j).value) :
    Stores c' (Function.update ls (hash k) (i :: (xs ++ ys))) (r.write k v') := by
  obtain ⟨hcut, hout⟩ := notMem_cut hi
  obtain ⟨hkeyi, -⟩ := entryAt_eq_some.mp hloc.entry
  have hold : ∀ j, j ≠ i → c'.entryAt j = c.entryAt j := by
    intro j hj
    exact entryAt_congr (hkey j) (by rw [hval, if_neg hj])
  have hnew : c'.entryAt i = some (k, v') :=
    entryAt_eq_some.mpr ⟨(hkey i).trans hkeyi, by rw [hval, if_pos rfl]⟩
  have hlive : ∀ j, Live (Function.update ls (hash k) (i :: (xs ++ ys))) j ↔ Live ls j := by
    intro j
    rw [live_update, live_iff ls (hash k), hloc.nodes]
    simp only [List.mem_cons, List.mem_append]
    tauto
  refine ⟨h.entries_update (Recency.write_lists r k v') ?_ ?_, ?_, ?_⟩
  · rw [AList.entries_insert, List.map_cons, List.map_cons, hnew, ← hloc.others]
    refine congrArg (some (k, v') :: ·) (List.map_congr_left fun j hj => hold j ?_)
    exact fun e => hcut (e ▸ hj)
  · intro t ht j hj
    exact hold j fun e => hout t ht (e ▸ hj)
  · intro k' j
    rw [hmap, hlive, hkey]
    exact h.mapping k' j
  · intro j hj
    have hjl : ¬ Live ls j := mt (hlive j).mpr hj
    have hji : j ≠ i := by
      rintro rfl
      exact hjl ⟨hash k, by rw [hloc.nodes]; simp⟩
    rw [hkey, hval, if_neg hji]
    exact h.cleared j hjl

/-- The node of a key is cleared and leaves its list, and the key leaves the mapping. -/
theorem cut (h : Stores c ls r) {s : Fin S} {k : K} {i : Nat} {v : V} (hloc : Located c ls r s k v i xs ys)
    (hi : ¬ Live (Function.update ls s (xs ++ ys)) i) (hmap : c'.mapping = c.mapping.erase k)
    (hkey : ∀ j, (c'.caching j).key = if j = i then none else (c.caching j).key)
    (hval : ∀ j, (c'.caching j).value = if j = i then none else (c.caching j).value) :
    Stores c' (Function.update ls s (xs ++ ys)) (r.forget k) := by
  obtain ⟨hcut, hout⟩ := notMem_cut hi
  obtain ⟨hkeyi, -⟩ := entryAt_eq_some.mp hloc.entry
  have hs := hloc.home
  subst hs
  have hki : c.mapping.lookup k = some i := (h.mapping k i).mpr ⟨⟨hash k, by rw [hloc.nodes]; simp⟩, hkeyi⟩
  have hold : ∀ j, j ≠ i → c'.entryAt j = c.entryAt j := by
    intro j hj
    exact entryAt_congr (by rw [hkey, if_neg hj]) (by rw [hval, if_neg hj])
  have hlive : ∀ j, j ≠ i → (Live (Function.update ls (hash k) (xs ++ ys)) j ↔ Live ls j) := by
    intro j hj
    rw [live_update, live_iff ls (hash k), hloc.nodes]
    simp only [List.mem_cons, List.mem_append]
    tauto
  refine ⟨h.entries_update (Recency.forget_lists r k) ?_ ?_, ?_, ?_⟩
  · have hentries : ((r.lists (hash k)).erase k).entries = List.kerase k (r.lists (hash k)).entries := rfl
    rw [hentries, ← hloc.others]
    exact List.map_congr_left fun j hj => hold j fun e => hcut (e ▸ hj)
  · intro t ht j hj
    exact hold j fun e => hout t ht (e ▸ hj)
  · intro k' j
    rw [hmap, hkey]
    by_cases hj : j = i
    · subst hj
      -- the cut node holds no key, and only the erased one was mapped to it
      refine ⟨fun hlook => absurd hlook ?_, fun hlive => absurd hlive.1 hi⟩
      by_cases hk : k' = k
      · subst hk
        simp
      · rw [AList.lookup_erase_ne hk, h.mapping, hkeyi]
        exact fun hl => hk (Option.some.inj hl.2).symm
    · rw [if_neg hj, hlive j hj]
      by_cases hk : k' = k
      · subst hk
        rw [AList.lookup_erase, ← h.mapping, hki]
        exact ⟨fun e => (nomatch e), fun e => absurd (Option.some.inj e).symm hj⟩
      · rw [AList.lookup_erase_ne hk]
        exact h.mapping k' j
  · intro j hj
    rw [hkey, hval]
    by_cases hji : j = i
    · rw [if_pos hji, if_pos hji]
      exact ⟨rfl, rfl⟩
    · rw [if_neg hji, if_neg hji]
      exact h.cleared j (mt (hlive j hji).mpr hj)

/-- A node of no list takes an entry and joins the front of the list of the entry's shard. -/
theorem add (h : Stores c ls r) {k : K} {i : Nat} {v : V} (hi : ¬ Live ls i) (hk : c.mapping.lookup k = none)
    (hmap : c'.mapping = c.mapping.insert k i)
    (hkey : ∀ j, (c'.caching j).key = if j = i then some k else (c.caching j).key)
    (hval : ∀ j, (c'.caching j).value = if j = i then some v else (c.caching j).value) :
    Stores c' (Function.update ls (hash k) (i :: ls (hash k))) (r.write k v) := by
  have hold : ∀ j, j ≠ i → c'.entryAt j = c.entryAt j := by
    intro j hj
    exact entryAt_congr (by rw [hkey, if_neg hj]) (by rw [hval, if_neg hj])
  have hnew : c'.entryAt i = some (k, v) :=
    entryAt_eq_some.mpr ⟨by rw [hkey, if_pos rfl], by rw [hval, if_pos rfl]⟩
  have hlive : ∀ j, Live (Function.update ls (hash k) (i :: ls (hash k))) j ↔ j = i ∨ Live ls j := by
    intro j
    rw [live_update, live_iff ls (hash k)]
    simp only [List.mem_cons]
    tauto
  have hkerase : List.kerase k (r.lists (hash k)).entries = (r.lists (hash k)).entries := by
    refine List.kerase_of_notMem_keys fun hmem => ?_
    have hfind : r.find k = none := h.lookup_none.mp hk
    exact AList.lookup_eq_none.mp hfind hmem
  refine ⟨h.entries_update (Recency.write_lists r k v) ?_ ?_, ?_, ?_⟩
  · rw [AList.entries_insert, List.map_cons, List.map_cons, hnew, hkerase, ← h.entries]
    refine congrArg (some (k, v) :: ·) (List.map_congr_left fun j hj => hold j ?_)
    exact fun e => hi (e ▸ ⟨hash k, hj⟩)
  · intro t ht j hj
    exact hold j fun e => hi (e ▸ ⟨t, hj⟩)
  · intro k' j
    rw [hmap, hlive, hkey]
    by_cases hkk : k' = k
    · subst hkk
      rw [AList.lookup_insert]
      by_cases hj : j = i
      · subst hj
        simp
      · rw [if_neg hj]
        refine ⟨fun e => absurd (Option.some.inj e).symm hj, fun ⟨hl, hkj⟩ => ?_⟩
        have := (h.mapping k' j).mpr ⟨hl.resolve_left hj, hkj⟩
        rw [hk] at this
        nomatch this
    · rw [AList.lookup_insert_ne hkk, h.mapping]
      by_cases hj : j = i
      · subst hj
        rw [if_pos rfl]
        exact ⟨fun hl => absurd hl.1 hi, fun hl => absurd (Option.some.inj hl.2).symm hkk⟩
      · rw [if_neg hj]
        simp [hj]
  · intro j hj
    have hji : j ≠ i := fun e => hj ((hlive j).mpr (Or.inl e))
    rw [hkey, hval, if_neg hji, if_neg hji]
    exact h.cleared j fun hl => hj ((hlive j).mpr (Or.inr hl))

/-- Moving nodes between lists of free nodes, or nowhere, leaves what is stored. -/
theorem congr (h : Stores c ls r) (hsame : SameEntries c c') : Stores c' ls r := by
  refine ⟨fun s => ?_, fun k i => ?_, fun i hi => ?_⟩
  · rw [← h.entries s]
    exact List.map_congr_left fun j _ => entryAt_congr (hsame.key j) (hsame.value j)
  · rw [hsame.mapping, hsame.key]
    exact h.mapping k i
  · rw [hsame.key, hsame.value]
    exact h.cleared i hi

/-- The lists hold as many nodes as entries. -/
theorem length_flatMap (h : Stores c ls r) : ((List.finRange S).flatMap ls).length = r.size := by
  rw [Recency.size, List.length_flatMap, List.length_flatMap]
  refine congrArg List.sum (List.map_congr_left fun s _ => ?_)
  have := congrArg List.length (h.entries s)
  rw [List.length_map, List.length_map] at this
  rw [this, AList.keys, List.keys, List.length_map]

/-- The mapping has as many keys as there are entries. -/
theorem mapping_length (h : Stores c ls r) : c.mapping.entries.length = r.size := by
  have hperm : c.mapping.keys.Perm ((List.finRange S).flatMap fun s => (r.lists s).keys) := by
    refine (List.perm_ext_iff_of_nodup c.mapping.keys_nodup ?_).mpr fun k => ?_
    · refine List.nodup_flatMap.mpr ⟨fun s _ => (r.lists s).keys_nodup, ?_⟩
      refine (List.nodup_finRange S).imp fun {s t} hst k hs ht => hst ?_
      exact (r.home s k hs).symm.trans (r.home t k ht)
    · rw [← AList.mem_keys, ← AList.lookup_isSome, Option.isSome_iff_ne_none, Ne, h.lookup_none]
      rw [← Ne, ← Option.isSome_iff_ne_none, Recency.find, AList.lookup_isSome, List.mem_flatMap]
      constructor
      · intro hk
        exact ⟨hash k, List.mem_finRange _, hk⟩
      · rintro ⟨s, _, hk⟩
        rw [r.home s k hk]
        exact hk
  have hlen := hperm.length_eq
  rwa [AList.keys, List.keys, List.length_map] at hlen

end Stores

/-! ## The simulation -/

/-- The arena holds the entries of `r`, in chains that cover it. -/
structure Refines (hash : K → Fin S) (capacity : Nat) (c : LruCache K V S) (r : Recency K V hash) : Prop where
  len : c.len = capacity
  chained : ∃ free ls, Chains c [] free ls ∧ Stores c ls r

/-- A cache with no entries and every node free. -/
theorem Refines.fresh (hash : K → Fin S) (c : LruCache K V S) (hc : c.caching = freshCaching c.len) (hs : ∀ s, c.shards s = ⟨none, none⟩)
    (hf : c.freeHead = if c.len = 0 then none else some 0) (hm : c.mapping = ∅) :
    Refines hash c.len c Recency.empty := by
  have hlive : ∀ i, ¬ Live (fun _ : Fin S => ([] : List Nat)) i := by
    rintro i ⟨s, hi⟩
    simp at hi
  refine ⟨rfl, List.range c.len, fun _ => [], Chains.fresh c hc hs hf, fun s => rfl, fun k i => ?_, fun i _ => ?_⟩
  · rw [hm, AList.lookup_empty]
    exact ⟨fun e => (nomatch e), fun e => absurd e.1 (hlive i)⟩
  · rw [hc]
    unfold freshCaching
    split_ifs <;> exact ⟨rfl, rfl⟩

variable {capacity : Nat} {c : LruCache K V S} {r : Recency K V hash}

/-- The node of a mapped key takes a value and moves to the front. -/
theorem Refines.touch (h : Refines hash capacity c r) {k : K} {i : Nat} (hk : c.mapping.lookup k = some i) :
    ∃ v, c.entryAt i = some (k, v) ∧ r.find k = some v ∧
      Refines hash capacity (c.moveToFrontInsideLock (hash k) i) (r.write k v) ∧
      ∀ v', Refines hash capacity ((c.setValue i (some v')).moveToFrontInsideLock (hash k) i) (r.write k v') := by
  obtain ⟨hlen, free, ls, hch, hst⟩ := h
  obtain ⟨v, xs, ys, hloc⟩ := hst.locate hk
  have hcut := (hch.unlink hloc.nodes).notMem_lists (i := i) (by simp)
  have hi : ¬ Live (Function.update ls (hash k) (xs ++ ys)) i := fun ⟨t, ht⟩ => hcut t ht
  refine ⟨v, hloc.entry, hloc.found, ⟨?_, free, _, hch.toFront hloc.nodes, ?_⟩, fun v' => ?_⟩
  · exact (SameEntries.moveToFront c (hash k) i).len.trans hlen
  · have hsame := SameEntries.moveToFront c (hash k) i
    refine hst.touch hloc hi hsame.mapping hsame.key fun j => ?_
    rw [hsame.value]
    by_cases hj : j = i
    · rw [if_pos hj, hj]
      exact (entryAt_eq_some.mp hloc.entry).2
    · rw [if_neg hj]
  · have hsame := SameEntries.moveToFront (c.setValue i (some v')) (hash k) i
    have hch' : Chains (c.setValue i (some v')) [] free ls := hch.congr (links_setValue c i _) rfl rfl rfl
    refine ⟨hsame.len.trans hlen, free, _, hch'.toFront hloc.nodes, ?_⟩
    refine hst.touch hloc hi hsame.mapping (fun j => ?_) fun j => ?_
    · rw [hsame.key]
      by_cases hj : j = i <;> simp [setValue, hj]
    · rw [hsame.value]
      by_cases hj : j = i <;> simp [setValue, hj]

/-- Cutting the node of an entry out of its list and clearing it drops the entry. -/
theorem cut_refines {free : List Nat} {ls : Fin S → List Nat} (hch : Chains c [] free ls) (hst : Stores c ls r)
    {s : Fin S} {k : K} {v : V} {i : Nat} {xs ys : List Nat} (hloc : Stores.Located c ls r s k v i xs ys)
    {c' : LruCache K V S} (hsame : SameEntries { c.setEntry i none none with mapping := c.mapping.erase k } c')
    (hlinks : c'.links = (unlinkInsideLock c s i).links) (hshards : c'.shards = (unlinkInsideLock c s i).shards)
    (hhead : c'.freeHead = c.freeHead) :
    Chains c' [i] free (Function.update ls s (xs ++ ys)) ∧ Stores c' (Function.update ls s (xs ++ ys)) (r.forget k) := by
  have hunlinked := hch.unlink hloc.nodes
  have hi : ¬ Live (Function.update ls s (xs ++ ys)) i := by
    rintro ⟨t, ht⟩
    exact hunlinked.notMem_lists (i := i) (by simp) t ht
  constructor
  · refine hunlinked.congr hlinks hshards (hhead.trans (freeHead_unlink c s i).symm) ?_
    exact hsame.len.trans (sameEntries_unlink c s i).len.symm
  · refine hst.cut hloc hi hsame.mapping (fun j => ?_) fun j => ?_
    · rw [hsame.key]
      by_cases hj : j = i <;> simp [setEntry, hj]
    · rw [hsame.value]
      by_cases hj : j = i <;> simp [setEntry, hj]

omit [DecidableEq K] in
/-- Cutting a node out reads the links and the ends alone. -/
theorem unlink_congr {c' : LruCache K V S} (s : Fin S) (i : Nat) (hl : c'.links = c.links) (hs : c'.shards = c.shards) :
    (unlinkInsideLock c' s i).links = (unlinkInsideLock c s i).links ∧
    (unlinkInsideLock c' s i).shards = (unlinkInsideLock c s i).shards := by
  rw [links_unlink, links_unlink, shards_unlink, shards_unlink, hl, hs]
  exact ⟨rfl, rfl⟩

/-- Writing an entry into the node in hand and joining it to its shard. -/
theorem place_refines {free : List Nat} {ls : Fin S → List Nat} {i : Nat} (hlen : c.len = capacity)
    (hch : Chains c [i] free ls) (hst : Stores c ls r) {k : K} (hk : c.mapping.lookup k = none) (v : V) :
    Refines hash capacity (place hash c k v i) (r.write k v) := by
  have hi : ¬ Live ls i := by
    rintro ⟨t, ht⟩
    exact hch.notMem_lists (i := i) (by simp) t ht
  have hsame := sameEntries_joinShard
    ({ c.setEntry i (some k) (some v) with mapping := c.mapping.insert k i } : LruCache K V S) (hash k) i
  have hch' : Chains ({ c.setEntry i (some k) (some v) with mapping := c.mapping.insert k i } : LruCache K V S) [i] free
      ls := hch.congr (links_setEntry c i _ _) rfl rfl rfl
  refine ⟨hsame.len.trans hlen, free, _, hch'.join (hash k), hst.add hi hk hsame.mapping (fun j => ?_) fun j => ?_⟩
  · refine (hsame.key j).trans ?_
    by_cases hj : j = i <;> simp [setEntry, hj]
  · refine (hsame.value j).trans ?_
    by_cases hj : j = i <;> simp [setEntry, hj]

omit [DecidableEq K] in
/-- The scan asks every shard once before it asks one again. -/
theorem findSome_scanOrder {β : Type} (f : Fin S → Option β) :
    (scanOrder S).findSome? f = (List.finRange S).findSome? f := by
  cases S with
  | zero => rfl
  | succ n =>
    have hfirst : (List.finRange (n + 1)).map (fun off : Fin (n + 1) =>
        (⟨(((0 : Fin (n + 1)) : Nat) + off.val) % (n + 1), Nat.mod_lt _ (Nat.succ_pos n)⟩ : Fin (n + 1))) =
          List.finRange (n + 1) := by
      refine (List.map_congr_left fun off _ => ?_).trans (List.map_id _)
      exact Fin.ext (by simp [Nat.mod_eq_of_lt off.isLt])
    have hsplit : scanOrder (n + 1) = List.finRange (n + 1) ++ ((List.finRange n).map Fin.succ).flatMap
        fun start => (List.finRange (n + 1)).map fun off =>
          ⟨(start.val + off.val) % (n + 1), Nat.mod_lt _ (Nat.succ_pos n)⟩ := by
      conv_lhs => rw [scanOrder, List.finRange_succ, List.flatMap_cons]
      rw [← List.finRange_succ, hfirst]
    rw [hsplit, List.findSome?_append]
    cases hf : (List.finRange (n + 1)).findSome? f with
    | some b => rfl
    | none =>
      rw [List.findSome?_eq_none_iff] at hf
      rw [Option.none_or, List.findSome?_eq_none_iff]
      exact fun s _ => hf s (List.mem_finRange s)

/-- Two searches of one list that succeed at the same places stop at the same place. -/
theorem findSome_same {α β γ : Type} {f : α → Option β} {g : α → Option γ} (h : ∀ a, f a = none ↔ g a = none) :
    ∀ l : List α, (l.findSome? f = none ∧ l.findSome? g = none) ∨
      ∃ a b b', f a = some b ∧ g a = some b' ∧ l.findSome? f = some b ∧ l.findSome? g = some b'
  | [] => Or.inl ⟨rfl, rfl⟩
  | a :: l => by
    cases hf : f a with
    | none =>
      have hg := (h a).mp hf
      rw [List.findSome?_cons, List.findSome?_cons, hf, hg]
      exact findSome_same h l
    | some b =>
      cases hg : g a with
      | none => exact absurd ((h a).mpr hg) (by simp [hf])
      | some b' =>
        refine Or.inr ⟨a, b, b', hf, hg, ?_, ?_⟩
        · rw [List.findSome?_cons, hf]
        · rw [List.findSome?_cons, hg]

/-- The last node of a shard holds the last entry of its list. -/
theorem last_iff {free : List Nat} {ls : Fin S → List Nat} (hch : Chains c [] free ls) (hst : Stores c ls r) (s : Fin S) :
    (c.shards s).last.map c.entryAt = (r.lists s).entries.getLast?.map asEntry := by
  rw [(hch.family.dll s).last, ← List.getLast?_map, ← List.getLast?_map, hst.entries]

/-- With no free node, the last node of the first shard that has one is taken, and its entry is the victim. -/
theorem acquire_full {ls : Fin S → List Nat} (hch : Chains c [] [] ls) (hst : Stores c ls r) :
    (acquireNode c = none ∧ r.victim = none) ∨
    ∃ c' i ls' k v, acquireNode c = some (c', i, some (k, v)) ∧ r.victim = some (k, v) ∧
      c'.mapping = c.mapping.erase k ∧ c'.len = c.len ∧ Chains c' [i] [] ls' ∧ Stores c' ls' (r.forget k) := by
  have hacq : acquireNode c = (List.finRange S).findSome? fun i => (c.shards i).last.map (evictLast c i) := by
    rw [acquireNode, Chains.freePop_nil hch]
    exact findSome_scanOrder _
  have hnone : ∀ s, (c.shards s).last.map (evictLast c s) = none ↔
      ((r.lists s).entries.getLast?.map fun e => (e.1, e.2)) = none := by
    intro s
    have := congrArg Option.isSome (last_iff hch hst s)
    rw [Option.isSome_map, Option.isSome_map] at this
    rw [Option.map_eq_none_iff, Option.map_eq_none_iff, ← Option.not_isSome_iff_eq_none, ← Option.not_isSome_iff_eq_none,
      this]
  rw [hacq]
  rcases findSome_same hnone (List.finRange S) with h | h
  · exact Or.inl h
  · right
    obtain ⟨s, b, ⟨k, v⟩, hb, hkv, hfb, hfv⟩ := h
    obtain ⟨i, hlast, rfl⟩ := Option.map_eq_some_iff.mp hb
    obtain ⟨e, he, hev⟩ := Option.map_eq_some_iff.mp hkv
    have hls : (ls s).getLast? = some i := (hch.family.dll s).last.symm.trans hlast
    obtain ⟨xs, hxs⟩ := List.getLast?_eq_some_iff.mp hls
    obtain ⟨k', v', hloc⟩ := hst.locate_node hxs
    have hentry := last_iff hch hst s
    rw [hlast, he, Option.map_some, Option.map_some, hloc.entry, asEntry, Option.some.injEq, hev] at hentry
    obtain ⟨rfl, rfl⟩ := Prod.mk.inj (Option.some.inj hentry)
    have hevict : evictLast c s i =
        ({ unlinkInsideLock (c.setEntry i none none) s i with mapping :=
            (unlinkInsideLock (c.setEntry i none none) s i).mapping.erase k' }, i, some (k', v')) := by
      unfold evictLast
      rw [hloc.entry]
    rw [hevict] at hfb
    have hsame := sameEntries_unlink (c.setEntry i none none) s i
    obtain ⟨h1, h2⟩ := unlink_congr s i (links_setEntry c i none none) (shards_setEntry c i none none)
    have hmap : (unlinkInsideLock (c.setEntry i none none) s i).mapping.erase k' = c.mapping.erase k' := by
      rw [hsame.mapping]
      rfl
    refine ⟨_, i, _, k', v', hfb, hfv, hmap, hsame.len, cut_refines hch hst hloc ?_ h1 h2 ?_⟩
    · exact ⟨hmap, hsame.len, hsame.key, hsame.value⟩
    · exact freeHead_unlink (c.setEntry i none none) s i

/-- A put does to the arena what it does to the lists. -/
theorem Refines.put (h : Refines hash capacity c r) (k : K) (v : V) :
    (put hash c k v).2 = (r.put capacity k v).2 ∧
      Refines hash capacity (put hash c k v).1 (r.put capacity k v).1 := by
  unfold Shared.put Recency.put
  cases hk : c.mapping.lookup k with
  | some i =>
    obtain ⟨v', -, hfind, -, hset⟩ := h.touch hk
    simp only [hfind, putUpdate]
    exact ⟨trivial, hset v⟩
  | none =>
    obtain ⟨hlen, free, ls, hch, hst⟩ := h
    have hfind : r.find k = none := hst.lookup_none.mp hk
    have hsize : free.length + r.size = capacity := by
      have := hch.cover.length_eq
      rw [List.nil_append, List.length_append, hst.length_flatMap, List.length_range, hlen] at this
      exact this
    simp only [hfind, Recency.accept]
    cases free with
    | cons i free =>
      obtain ⟨c', hpop, hch', hsame⟩ := Chains.freePop_cons hch
      have hacq : acquireNode c = some (c', i, none) := by
        unfold acquireNode
        rw [hpop]
      have hroom : r.size < capacity := by
        rw [List.length_cons] at hsize
        omega
      simp only [hacq, hroom, if_true]
      exact ⟨rfl, place_refines (hsame.len.trans hlen) hch' (hst.congr hsame) (hsame.mapping ▸ hk) v⟩
    | nil =>
      have hroom : ¬ r.size < capacity := by
        rw [List.length_nil] at hsize
        omega
      simp only [hroom, if_false]
      rcases acquire_full hch hst with ⟨hacq, hvic⟩ | ⟨c', i, ls', ek, ev, hacq, hvic, hmap, hlen', hch', hst'⟩
      · simp only [hacq, hvic]
        exact ⟨trivial, hlen, [], ls, hch, hst⟩
      · simp only [hacq, hvic]
        refine ⟨rfl, place_refines (hlen'.trans hlen) hch' hst' ?_ v⟩
        rw [hst'.lookup_none, Recency.find_forget, hfind, ite_self]

/-- A read does to the arena what it does to the lists. -/
theorem Refines.get (h : Refines hash capacity c r) (k : K) :
    (c.get hash k).2 = (r.get k).2 ∧ Refines hash capacity (c.get hash k).1 (r.get k).1 := by
  unfold LruCache.get Recency.get
  cases hk : c.mapping.lookup k with
  | none =>
    obtain ⟨hlen, free, ls, hch, hst⟩ := h
    simp only [hst.lookup_none.mp hk]
    exact ⟨trivial, hlen, free, ls, hch, hst⟩
  | some i =>
    obtain ⟨v, hentry, hfind, htouch, -⟩ := h.touch hk
    simp only [hfind, (entryAt_eq_some.mp hentry).2]
    exact ⟨trivial, htouch⟩

/-- A removal does to the arena what it does to the lists. -/
theorem Refines.remove (h : Refines hash capacity c r) (k : K) :
    (remove hash c k).2 = (r.remove k).2 ∧ Refines hash capacity (remove hash c k).1 (r.remove k).1 := by
  obtain ⟨hlen, free, ls, hch, hst⟩ := h
  unfold Shared.remove Recency.remove
  cases hk : c.mapping.lookup k with
  | none =>
    simp only [hst.lookup_none.mp hk]
    exact ⟨trivial, hlen, free, ls, hch, hst⟩
  | some i =>
    obtain ⟨v, xs, ys, hloc⟩ := hst.locate hk
    let c₁ : LruCache K V S := ({ c with mapping := c.mapping.erase k } : LruCache K V S).setEntry i none none
    have hl : c₁.links = c.links := links_setEntry _ i none none
    obtain ⟨h1, h2⟩ := unlink_congr (hash k) i hl (rfl : c₁.shards = c.shards)
    have hsame := sameEntries_unlink c₁ (hash k) i
    obtain ⟨hch', hst'⟩ := cut_refines hch hst hloc hsame h1 h2 (freeHead_unlink c₁ (hash k) i)
    have hpush := sameEntries_freePush (unlinkInsideLock c₁ (hash k) i) i
    simp only [hloc.found, (entryAt_eq_some.mp hloc.entry).2]
    exact ⟨rfl, hpush.len.trans (hsame.len.trans hlen), i :: free, _, hch'.freePush, hst'.congr hpush⟩

/-- Clearing the arena empties the lists, whatever they were. -/
theorem Refines.clear (h : Refines hash capacity c r) :
    (clear c).2 = r.size ∧ Refines hash capacity (clear c).1 Recency.empty := by
  obtain ⟨hlen, free, ls, hch, hst⟩ := h
  refine ⟨hst.mapping_length, ?_⟩
  have hfresh := Refines.fresh hash (Shared.clear c).1 rfl (fun _ => rfl) rfl rfl
  rwa [show (Shared.clear c).1.len = capacity from hlen] at hfresh

/-- The machine of the arena simulates the machine of the recency lists. -/
theorem simulates (hash : K → Fin S) (capacity : Nat) :
    Machine.Simulates (machine hash capacity : Machine (LruCache K V S) (Call K V) (Answer K V))
      (Recency.machine hash capacity) (Refines hash capacity) := by
  refine ⟨Refines.fresh hash (new capacity) rfl (fun _ => rfl) rfl rfl, fun c r a h => ?_⟩
  unfold Machine.out Machine.next machine Recency.machine
  cases a with
  | put k v =>
    obtain ⟨hout, hnext⟩ := h.put k v
    refine ⟨?_, hnext⟩
    simp only [step, Recency.step, hout]
  | get k =>
    obtain ⟨hout, hnext⟩ := h.get k
    refine ⟨?_, hnext⟩
    simp only [step, Recency.step, hout]
  | remove k =>
    obtain ⟨hout, hnext⟩ := h.remove k
    refine ⟨?_, hnext⟩
    simp only [step, Recency.step, hout]
  | clear =>
    obtain ⟨hout, hnext⟩ := h.clear
    refine ⟨?_, hnext⟩
    simp only [step, Recency.step, hout]

end LruCache.Shared

end Opsense
