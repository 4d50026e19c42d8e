import Opsense.Lru.Arena
import Opsense.Lru.Recency

/-!
# Runs of the cache over a partitioned arena

Without `lru-shared-memory` a removal leaves the key in its node and the node in its list, and the put that reuses the
node takes that key out of the mapping again. `Blocks` is what holds of the arena all the same. A put keeps to what the
trace says (`peek_put`), but where the key in the reused node is mapped to another node by now, the entry it takes out is
not the one the node held (`lostOnlyEvicted_iff`).
-/

namespace Opsense

namespace LruCache.Partitioned

variable {K V : Type} [DecidableEq K] {S : Nat} {hash : K → Fin S} {c : LruCache K V S}

/-- The lists of the shards are linked and never empty; a mapped key is in its node, which is in the list of the key's
shard; and a node with a key has a value. -/
structure Blocks (hash : K → Fin S) (per_shard : Nat) (c : LruCache K V S) (ls : Fin S → List Nat) : Prop where
  len : c.len = per_shard * S
  family : Family c.links c.shards ls
  nonempty : ∀ s, ls s ≠ []
  mapped : ∀ k i, c.mapping.lookup k = some i → i ∈ ls (hash k) ∧ (c.caching i).key = some k
  full : ∀ i k, (c.caching i).key = some k → ∃ v, (c.caching i).value = some v

omit [DecidableEq K] in
/-- The block of a shard is linked from any of its nodes on. -/
theorem seg_fresh {per_shard : Nat} (s : Fin S) : ∀ k j, j + k = per_shard →
    (({ c with caching := freshCaching (S := S) per_shard } : LruCache K V S).links).Seg
      (if 0 < j then some (s.val * per_shard + j - 1) else none) (List.range' (s.val * per_shard + j) k) none := by
  intro k
  induction k with
  | zero => intro j _; trivial
  | succ k ih =>
    intro j hj
    have hin : s.val * per_shard + j < per_shard * S := by
      have h1 : s.val * per_shard + per_shard ≤ S * per_shard := by
        rw [← Nat.succ_mul]
        exact Nat.mul_le_mul_right _ s.isLt
      rw [Nat.mul_comm per_shard S]
      omega
    have hmod : (s.val * per_shard + j) % per_shard = j := by
      rw [Nat.add_comm, Nat.add_mul_mod_self_right, Nat.mod_eq_of_lt (by omega)]
    refine ⟨?_, ?_, ?_⟩
    · simp [links, freshCaching, hin, hmod]
    · simp only [links, freshCaching, hin, hmod, if_true]
      cases k with
      | zero => rw [if_neg (by omega)]; rfl
      | succ k => rw [if_pos (by omega)]; simp [List.range'_succ, Nat.add_assoc]
    · have := ih (j + 1) (by omega)
      simpa [Nat.add_assoc] using this

omit [DecidableEq K] in
/-- The blocks of two shards have no node in common. -/
theorem shard_of_mem {per_shard i : Nat} {s : Nat} (hi : i ∈ List.range' (s * per_shard) per_shard) :
    i / per_shard = s := by
  obtain ⟨h1, h2⟩ := List.mem_range'_1.mp hi
  refine Nat.div_eq_of_lt_le h1 ?_
  rw [Nat.succ_mul]
  exact h2

/-- An arena as `new` and `clear` write it. -/
theorem Blocks.fresh {per_shard : Nat} (hpos : 0 < per_shard) (hlen : c.len = per_shard * S)
    (hc : c.caching = freshCaching (S := S) per_shard) (hs : c.shards = freshShard per_shard) (hm : c.mapping = ∅) :
    Blocks hash per_shard c fun s => List.range' (s.val * per_shard) per_shard := by
  have hc' : ({ c with caching := freshCaching (S := S) per_shard } : LruCache K V S) = c := by rw [← hc]
  refine ⟨hlen, ⟨fun s => ⟨?_, ?_, ?_, List.nodup_range'⟩, fun s t i his hit => ?_⟩, fun s => ?_, ?_, ?_⟩
  · rw [hs, List.head?_range', if_neg (by omega)]
    simp [freshShard, hpos]
  · rw [hs, List.getLast?_range', if_neg (by omega)]
    simp [freshShard, hpos]
  · have h := seg_fresh (c := c) s per_shard 0 (Nat.zero_add _)
    rw [hc'] at h
    exact h
  · exact Fin.ext ((shard_of_mem his).symm.trans (shard_of_mem hit))
  · rw [Ne, List.range'_eq_nil_iff]
    omega
  · intro k i hk
    rw [hm, AList.lookup_empty] at hk
    nomatch hk
  · intro i k hk
    rw [hc, freshCaching] at hk
    split_ifs at hk

variable {per_shard : Nat} {ls : Fin S → List Nat}

/-- An operation that writes entries and moves a node of a shard's list to the front. -/
theorem Blocks.moved (h : Blocks hash per_shard c ls) {c₁ : LruCache K V S} {s : Fin S} {i : Nat} (hi : i ∈ ls s)
    (hl : c₁.links = c.links) (hs : c₁.shards = c.shards) (hn : c₁.len = c.len)
    (hmapped : ∀ k j, c₁.mapping.lookup k = some j → j ∈ ls (hash k) ∧ (c₁.caching j).key = some k)
    (hfull : ∀ j k, (c₁.caching j).key = some k → ∃ v, (c₁.caching j).value = some v) :
    ∃ ls', Blocks hash per_shard (c₁.moveToFrontInsideLock s i) ls' := by
  obtain ⟨xs, ys, hls⟩ := List.append_of_mem hi
  have hfam : Family c₁.links c₁.shards ls := by rw [hl, hs]; exact h.family
  have hsame := SameEntries.moveToFront c₁ s i
  have hmem : ∀ t j, j ∈ ls t → j ∈ Function.update ls s (i :: (xs ++ ys)) t := by
    intro t j hj
    by_cases hts : t = s
    · subst hts
      rw [hls] at hj
      rw [Function.update_self]
      simp only [List.mem_append, List.mem_cons] at hj ⊢
      tauto
    · rwa [Function.update_of_ne hts]
  refine ⟨_, hsame.len.trans (hn.trans h.len), family_moveToFront hfam hls, fun t => ?_, fun k j hk => ?_,
    fun j k hk => ?_⟩
  · by_cases hts : t = s
    · subst hts
      simp
    · rw [Function.update_of_ne hts]
      exact h.nonempty t
  · rw [hsame.mapping] at hk
    rw [hsame.key]
    exact ⟨hmem _ _ (hmapped k j hk).1, (hmapped k j hk).2⟩
  · rw [hsame.key] at hk
    rw [hsame.value]
    exact hfull j k hk

/-- The last node of a shard is there, and in its list. -/
theorem Blocks.last (h : Blocks hash per_shard c ls) (s : Fin S) : ∃ l, (c.shards s).last = some l ∧ l ∈ ls s := by
  obtain ⟨l, hl⟩ := Option.ne_none_iff_exists'.mp (mt List.getLast?_eq_none_iff.mp (h.nonempty s))
  exact ⟨l, (h.family.dll s).last.trans hl, List.mem_of_getLast? hl⟩

section WriteLast

omit [DecidableEq K] in
theorem caching_setEntry (c : LruCache K V S) (l j : Nat) (k : Option K) (v : Option V) :
    (c.setEntry l k v).caching j = if j = l then { c.caching l with key := k, value := v } else c.caching j :=
  Function.update_apply _ _ _ _

/-- The arena and the ends after a node was overwritten. -/
theorem writeLast_frame (c : LruCache K V S) (key : K) (value : V) (l : Nat) :
    (writeLast c key value l).links = c.links ∧ (writeLast c key value l).shards = c.shards ∧
    (writeLast c key value l).len = c.len ∧
    ∀ j, (writeLast c key value l).caching j =
      if j = l then { c.caching l with key := some key, value := some value } else c.caching j := by
  unfold writeLast
  cases c.entryAt l with
  | none => exact ⟨links_setEntry c l _ _, rfl, rfl, fun j => caching_setEntry c l j _ _⟩
  | some e => exact ⟨links_setEntry _ l _ _, rfl, rfl, fun j => caching_setEntry _ l j _ _⟩

/-- The mapping after a node was overwritten: the key it held and the new key change. -/
theorem lookup_writeLast (hfull : ∀ i k, (c.caching i).key = some k → ∃ v, (c.caching i).value = some v) (key k : K)
    (value : V) (l : Nat) : (writeLast c key value l).mapping.lookup k =
      if k = key then some l else if (c.caching l).key = some k then none else c.mapping.lookup k := by
  unfold writeLast
  by_cases hk : k = key
  · subst hk
    rw [if_pos rfl]
    exact AList.lookup_insert _
  · rw [if_neg hk]
    refine (AList.lookup_insert_ne hk).trans ?_
    cases hkey : (c.caching l).key with
    | none => simp [entryAt, hkey, setEntry]
    | some k₀ =>
      obtain ⟨v₀, hv₀⟩ := hfull l k₀ hkey
      by_cases hk₀ : k = k₀
      · subst hk₀
        simp [entryAt, hkey, hv₀, setEntry]
      · simp [entryAt, hkey, hv₀, setEntry, AList.lookup_erase_ne hk₀, Ne.symm hk₀]

end WriteLast

/-- Putting an unmapped key keeps the arena in order. -/
theorem Blocks.overwriteLast (h : Blocks hash per_shard c ls) (key : K) (value : V) {l : Nat} (hl : l ∈ ls (hash key)) :
    ∃ ls', Blocks hash per_shard (overwriteLast hash c key value l).1 ls' := by
  obtain ⟨hlinks, hshards, hlen, hcaching⟩ := writeLast_frame c key value l
  refine h.moved hl hlinks hshards hlen (fun k j hk => ?_) fun j k hk => ?_
  · rw [lookup_writeLast h.full] at hk
    rw [hcaching]
    split_ifs at hk with h1 h2
    · subst h1
      obtain rfl := Option.some.inj hk
      exact ⟨hl, by simp⟩
    · obtain ⟨hj, hkey⟩ := h.mapped k j hk
      have hjl : j ≠ l := fun e => h2 (e ▸ hkey)
      exact ⟨hj, by rw [if_neg hjl]; exact hkey⟩
  · rw [hcaching] at hk ⊢
    by_cases hjl : j = l
    · rw [if_pos hjl]
      exact ⟨value, rfl⟩
    · rw [if_neg hjl] at hk ⊢
      exact h.full j k hk

/-- Every call keeps the arena in order. -/
theorem Blocks.step (hpos : 0 < per_shard) (hS : 0 < S) (h : Blocks hash per_shard c ls) (a : Call K V) :
    ∃ ls', Blocks hash per_shard (step hash c a).1 ls' := by
  cases a with
  | put key value =>
    change ∃ ls', Blocks hash per_shard (put hash c key value).1 ls'
    unfold Partitioned.put
    cases hk : c.mapping.lookup key with
    | none =>
      obtain ⟨l, hl, hmem⟩ := h.last (hash key)
      simp only [hl]
      exact h.overwriteLast key value hmem
    | some i =>
      refine h.moved (h.mapped key i hk).1 (links_setValue c i _) rfl rfl (fun k j hkj => ?_) fun j k hkj => ?_
      · by_cases hji : j = i <;> simpa [setValue, hji] using h.mapped k j hkj
      · by_cases hji : j = i
        · simp [setValue, hji]
        · exact by simpa [setValue, hji] using h.full j k (by simpa [setValue, hji] using hkj)
  | get key =>
    change ∃ ls', Blocks hash per_shard (c.get hash key).1 ls'
    unfold LruCache.get
    cases hk : c.mapping.lookup key with
    | none => exact ⟨ls, h⟩
    | some i =>
      cases hv : (c.caching i).value with
      | none => exact ⟨ls, by simpa [hv] using h⟩
      | some v =>
        simp only [hv]
        exact h.moved (h.mapped key i hk).1 rfl rfl rfl h.mapped h.full
  | remove key =>
    change ∃ ls', Blocks hash per_shard (remove c key).1 ls'
    unfold Partitioned.remove
    cases hk : c.mapping.lookup key with
    | none => exact ⟨ls, h⟩
    | some i =>
      refine ⟨ls, h.len, h.family, h.nonempty, fun k j hkj => ?_, h.full⟩
      by_cases hkk : k = key
      · subst hkk
        exact absurd ((AList.lookup_erase k _).symm.trans hkj) (by simp)
      · exact h.mapped k j ((AList.lookup_erase_ne hkk).symm.trans hkj)
  | clear =>
    have hper : c.len / S = per_shard := by rw [h.len, Nat.mul_div_cancel _ hS]
    refine ⟨_, Blocks.fresh hpos h.len ?_ ?_ rfl⟩
    · simp [Partitioned.step, clear, hper]
    · simp [Partitioned.step, clear, hper]

/-! ## What a key holds -/

/-- The keys an overwritten node is reported for are the key it holds. -/
theorem mem_reported_evictedHooks (h : Blocks hash per_shard c ls) {l : Nat} {k : K} :
    k ∈ (Recency.reported (evictedHooks (c.entryAt l))).map Prod.fst ↔ (c.caching l).key = some k := by
  cases hkey : (c.caching l).key with
  | none => simp [entryAt, hkey, evictedHooks, Recency.reported]
  | some k₀ =>
    obtain ⟨v₀, hv₀⟩ := h.full l k₀ hkey
    simp [entryAt, hkey, hv₀, evictedHooks, Recency.reported, eq_comm]

/-- Overwriting a node leaves the values of the other nodes. -/
theorem peek_overwriteLast (h : Blocks hash per_shard c ls) (key k : K) (value : V) (l : Nat) :
    peek hash (overwriteLast hash c key value l).1 k =
      if k = key then some value else if (c.caching l).key = some k then none else peek hash c k := by
  obtain ⟨-, -, -, hcaching⟩ := writeLast_frame c key value l
  have hsame := SameEntries.moveToFront (writeLast c key value l) (hash key) l
  rw [peek_eq, peek_eq]
  unfold overwriteLast
  rw [hsame.mapping, lookup_writeLast h.full]
  split_ifs with h1 h2
  · rw [Option.bind_some, hsame.value, hcaching, if_pos rfl]
  · rfl
  · cases hk : c.mapping.lookup k with
    | none => rfl
    | some j =>
      have hjl : j ≠ l := fun e => h2 (e ▸ (h.mapped k j hk).2)
      rw [Option.bind_some, Option.bind_some, hsame.value, hcaching, if_neg hjl]

/-- After a put every key holds what the trace says. -/
theorem peek_put (h : Blocks hash per_shard c ls) (key k : K) (value : V) :
    peek hash (put hash c key value).1 k =
      Recency.noteCall k (peek hash c k) (.put key value, { hooks := (put hash c key value).2 }) := by
  unfold put
  cases hkey : c.mapping.lookup key with
  | some i =>
    have hsame := SameEntries.moveToFront (c.setValue i (some value)) (hash key) i
    simp only [putUpdate, Recency.noteCall, Recency.reported, List.filterMap_cons_none, List.filterMap_nil, List.map_nil,
      List.not_mem_nil, if_false]
    rw [peek_eq, peek_eq, hsame.mapping]
    change (c.mapping.lookup k).bind _ = _
    by_cases hk : k = key
    · subst hk
      rw [hkey, if_pos rfl, Option.bind_some, hsame.value]
      simp [setValue]
    · rw [if_neg hk]
      cases hk' : c.mapping.lookup k with
      | none => rfl
      | some j =>
        have hji : j ≠ i := by
          rintro rfl
          exact hk (Option.some.inj ((h.mapped k j hk').2.symm.trans (h.mapped key j hkey).2))
        rw [Option.bind_some, Option.bind_some, hsame.value]
        simp [setValue, hji]
  | none =>
    obtain ⟨l, hl, -⟩ := h.last (hash key)
    simp only [hl, Recency.noteCall]
    rw [peek_overwriteLast h, show (overwriteLast hash c key value l).2 = evictedHooks (c.entryAt l) from rfl]
    simp only [mem_reported_evictedHooks h]

/-- One call leaves every key with what the trace says. -/
theorem peek_step (h : Blocks hash per_shard c ls) (a : Call K V) (k : K) :
    peek hash (step hash c a).1 k = Recency.noteCall k (peek hash c k) (a, (step hash c a).2) := by
  cases a with
  | put key value => exact peek_put h key k value
  | get key =>
    change peek hash (c.get hash key).1 k = peek hash c k
    unfold LruCache.get
    cases hkey : c.mapping.lookup key with
    | none => rfl
    | some i =>
      cases hv : (c.caching i).value with
      | none => simp [hv]
      | some v =>
        have hsame := SameEntries.moveToFront c (hash key) i
        simp only [hv]
        rw [peek_eq, peek_eq, hsame.mapping]
        exact congrArg _ (funext hsame.value)
  | remove key =>
    change peek hash (remove c key).1 k = if k = key then none else peek hash c k
    unfold remove
    cases hkey : c.mapping.lookup key with
    | none =>
      by_cases hk : k = key
      · subst hk
        simp [peek_eq, hkey]
      · simp [hk]
    | some i =>
      by_cases hk : k = key
      · subst hk
        simp [peek_eq]
      · simp [peek_eq, AList.lookup_erase_ne hk, hk]
  | clear => rfl

/-! ## Which entry a put takes out -/

/-- A put takes out only the entry of the node it writes to, and reports that entry. -/
def LostOnlyEvicted (hash : K → Fin S) (c : LruCache K V S) : Call K V → Prop
  | .put key value => ∀ k v, peek hash c k = some v → peek hash (put hash c key value).1 k = none →
      (∃ i, c.mapping.lookup k = some i ∧ (c.shards (hash key)).last = some i) ∧
      (k, v) ∈ Recency.reported (put hash c key value).2
  | _ => True

/-- The last node of the shard a new key is put to holds no key that is mapped to another node. -/
def OwnsLast (hash : K → Fin S) (c : LruCache K V S) : Call K V → Prop
  | .put key _ => c.mapping.lookup key = none → ∀ l k j, (c.shards (hash key)).last = some l →
      (c.caching l).key = some k → c.mapping.lookup k = some j → j = l
  | _ => True

theorem lostOnlyEvicted_iff (h : Blocks hash per_shard c ls) (a : Call K V) :
    LostOnlyEvicted hash c a ↔ OwnsLast hash c a := by
  cases a with
  | put key value =>
    simp only [LostOnlyEvicted, OwnsLast]
    cases hkey : c.mapping.lookup key with
    | some i =>
      refine ⟨fun _ e => absurd e (by simp), fun _ k v hv hnone => ?_⟩
      -- an update takes nothing out
      rw [peek_put h] at hnone
      unfold put at hnone
      simp only [hkey, putUpdate, Recency.noteCall, Recency.reported, List.filterMap_cons_none, List.filterMap_nil,
        List.map_nil, List.not_mem_nil, if_false] at hnone
      split_ifs at hnone
      exact absurd (hv.symm.trans hnone) (by simp)
    | none =>
      obtain ⟨l, hl, -⟩ := h.last (hash key)
      have hput : put hash c key value = overwriteLast hash c key value l := by
        unfold put
        simp only [hkey, hl]
      rw [hput]
      constructor
      · intro hlost _ l' k j hl' hk hj
        obtain rfl := Option.some.inj (hl.symm.trans hl')
        have hne : k ≠ key := by
          rintro rfl
          exact absurd (hkey.symm.trans hj) (by simp)
        obtain ⟨v, hv⟩ := h.full j k (h.mapped k j hj).2
        obtain ⟨⟨i, hi, hli⟩, -⟩ := hlost k v (by rw [peek_eq, hj]; exact hv)
          (by rw [peek_overwriteLast h, if_neg hne, if_pos hk])
        rw [hj] at hi
        rw [hl] at hli
        exact (Option.some.inj hi).trans (Option.some.inj hli).symm
      · intro hown k v hv hnone
        rw [peek_overwriteLast h] at hnone
        split_ifs at hnone with h1 h2
        · rw [peek_eq] at hv
          obtain ⟨j, hj, hjv⟩ := Option.bind_eq_some_iff.mp hv
          obtain rfl := hown rfl l k j hl h2 hj
          refine ⟨⟨j, hj, hl⟩, ?_⟩
          change (k, v) ∈ Recency.reported (evictedHooks (c.entryAt j))
          simp [entryAt, h2, hjv, evictedHooks, Recency.reported]
        · exact absurd (hv.symm.trans hnone) (by simp)
  | get key => exact Iff.rfl
  | remove key => exact Iff.rfl
  | clear => exact Iff.rfl

/-! ## Every run -/

/-- A run of a cache with room for an entry leaves the arena in order. -/
theorem blocks (hash : K → Fin S) (hS : 0 < S) {capacity : Nat} (hcap : 0 < capacity) (as : List (Call K V)) :
    ∃ ls, Blocks hash ((capacity + S - 1) / S) ((machine hash capacity).state as) ls := by
  have hpos : 0 < (capacity + S - 1) / S := Nat.div_pos (by omega) hS
  refine Machine.invariant (I := fun c => ∃ ls, Blocks hash ((capacity + S - 1) / S) c ls) ?_ ?_ as
  · exact ⟨_, Blocks.fresh hpos rfl rfl rfl rfl⟩
  · rintro c a ⟨ls, h⟩
    exact h.step hpos hS a

/-- A cache without capacity: nothing is mapped and no shard has a node. -/
structure Hollow (c : LruCache K V S) : Prop where
  mapping : c.mapping = ∅
  len : c.len = 0
  shards : ∀ s, c.shards s = ⟨none, none⟩

theorem Hollow.peek (h : Hollow c) (k : K) : peek hash c k = none := by
  rw [peek_eq, h.mapping, AList.lookup_empty]
  rfl

theorem Hollow.put (h : Hollow c) (key : K) (value : V) : put hash c key value = (c, []) := by
  unfold Partitioned.put
  rw [h.mapping, AList.lookup_empty, h.shards]

/-- A run of a cache without capacity leaves it without. -/
theorem hollow (hash : K → Fin S) (as : List (Call K V)) :
    Hollow ((machine hash 0).state as : LruCache K V S) := by
  have hper : (0 + S - 1) / S = 0 := Nat.div_eq_zero_iff.mpr (by omega)
  refine Machine.invariant (I := Hollow) ⟨rfl, ?_, fun s => ?_⟩ (fun c a h => ?_) as
  · change (0 + S - 1) / S * S = 0
    rw [hper, Nat.zero_mul]
  · change freshShard ((0 + S - 1) / S) s = _
    rw [hper]
    rfl
  · have hlook : ∀ k, c.mapping.lookup k = none := fun k => by rw [h.mapping]; exact AList.lookup_empty k
    cases a with
    | put key value =>
      change Hollow (Partitioned.put hash c key value).1
      rw [h.put]
      exact h
    | get key =>
      change Hollow (c.get hash key).1
      unfold LruCache.get
      rw [hlook]
      exact h
    | remove key =>
      change Hollow (Partitioned.remove c key).1
      unfold Partitioned.remove
      rw [hlook]
      exact h
    | clear =>
      refine ⟨rfl, h.len, fun s => ?_⟩
      change freshShard (c.len / S) s = _
      rw [h.len, Nat.zero_div]
      rfl

/-- Along every run of puts, reads, removals and clears, with any number of shards and any capacity: every key holds the value of its last put
unless it was removed or reported as evicted since, and no put takes an entry out but the one its node holds, exactly when
the cache has room for an entry, if anything is put, and no new key is put to a shard whose last node holds a key that is
mapped to another node. -/
theorem run_sound_iff (hash : K → Fin S) (capacity : Nat) (as : List (Call K V)) :
    ((∀ pre, pre <+: as → ∀ k, peek hash ((machine hash capacity).state pre) k =
        Recency.held k ((machine hash capacity).trace pre)) ∧
      (machine hash capacity).Along (LostOnlyEvicted hash) as) ↔
    ((0 < capacity ∨ ∀ key value, .put key value ∉ as) ∧ (machine hash capacity).Along (OwnsLast hash) as) := by
  rcases Nat.eq_zero_or_pos S with rfl | hS
  · -- without shards there are no keys
    refine ⟨fun _ => ⟨Or.inr fun key => (hash key).elim0, fun pre a _ => ?_⟩, fun _ => ⟨fun pre _ k => (hash k).elim0,
      fun pre a _ => ?_⟩⟩ <;>
    cases a with
    | put key => exact (hash key).elim0
    | _ => trivial
  rcases Nat.eq_zero_or_pos capacity with rfl | hcap
  · have hlost : (machine hash 0).Along (LostOnlyEvicted hash) as := by
      intro pre a _
      cases a with
      | put key value =>
        intro k v hv
        rw [(hollow hash pre).peek] at hv
        nomatch hv
      | _ => trivial
    have howns : (machine hash 0).Along (OwnsLast hash) as := by
      intro pre a _
      cases a with
      | put key value =>
        intro _ l k j hl
        rw [(hollow hash pre).shards] at hl
        nomatch hl
      | _ => trivial
    constructor
    · -- a put that is dropped leaves its key with nothing
      rintro ⟨hheld, -⟩
      refine ⟨Or.inr fun key value hput => ?_, howns⟩
      obtain ⟨pre, post, rfl⟩ := List.append_of_mem hput
      have h := hheld (pre ++ [.put key value]) ⟨post, by simp⟩ key
      rw [(hollow hash _).peek, Machine.trace_snoc, Recency.held_snoc] at h
      simp [Recency.noteCall] at h
    · rintro ⟨hput, -⟩
      refine ⟨fun pre hpre k => ?_, hlost⟩
      rw [(hollow hash pre).peek]
      have hnone : ∀ key value, .put key value ∉ pre := fun key value hmem =>
        (hput.resolve_left (Nat.lt_irrefl 0)) key value (hpre.subset hmem)
      exact (Recency.held_eq_none _ k pre hnone).symm
  · have hheld : ∀ pre k, peek hash ((machine hash capacity).state pre) k =
        Recency.held k ((machine (V := V) hash capacity).trace pre) := by
      intro pre k
      induction pre using List.reverseRecOn with
      | nil => rw [Machine.state_nil, peek_eq]; rfl
      | append_singleton pre a ih =>
        obtain ⟨ls, h⟩ := blocks hash hS hcap pre
        rw [Machine.state_snoc, Machine.trace_snoc, Recency.held_snoc, ← ih]
        exact peek_step h a k
    constructor
    · rintro ⟨-, hlost⟩
      refine ⟨Or.inl hcap, fun pre a hp => ?_⟩
      obtain ⟨ls, h⟩ := blocks hash hS hcap pre
      exact (lostOnlyEvicted_iff h a).mp (hlost pre a hp)
    · rintro ⟨-, howns⟩
      refine ⟨fun pre _ => hheld pre, fun pre a hp => ?_⟩
      obtain ⟨ls, h⟩ := blocks hash hS hcap pre
      exact (lostOnlyEvicted_iff h a).mpr (howns pre a hp)

/-- Reusing the node of a removed key takes the key's new entry out: after `put 1 10`, `remove 1` and `put 1 11` the first
node still holds `(1, 10)`. The next put reuses it, reports `(1, 10)` and unmaps key 1, whose entry is in the other node. -/
theorem stale_node_unmaps :
    ¬ (machine (fun _ => (0 : Fin 1)) 2).Along (LostOnlyEvicted fun _ => 0)
      [Call.put 1 10, .remove 1, .put 1 11, .put 2 20] ∧
    peek (fun _ => 0) ((machine (fun _ => (0 : Fin 1)) 2).state
      [Call.put 1 10, .remove 1, .put 1 11, .put 2 20]) 1 = none ∧
    ((machine (fun _ => (0 : Fin 1)) 2).out ((machine (fun _ => (0 : Fin 1)) 2).state
      [Call.put 1 10, .remove 1, .put 1 11]) (.put 2 20)).hooks = [.removing 1 10, .persist 1 10] := by
  refine ⟨fun h => ?_, by decide, by decide⟩
  have hstep := h [.put 1 10, .remove 1, .put 1 11] (.put 2 20) (List.prefix_refl _)
  obtain ⟨⟨i, hmapped, hlast⟩, -⟩ := hstep 1 11 (by decide) (by decide)
  have hsame := hmapped.trans hlast.symm
  revert hsame
  decide

/-! ## What a cache keeps -/

/-- The arena is in order, and every value that a key holds meets a condition. -/
structure Keeps (hash : K → Fin S) (per_shard : Nat) (P : K → V → Prop) (c : LruCache K V S) : Prop where
  arena : ∃ ls, Blocks hash per_shard c ls
  kept : ∀ k v, peek hash c k = some v → P k v

variable {P Q : K → V → Prop}

theorem keeps_new (hash : K → Fin S) (hS : 0 < S) {capacity : Nat} (hcap : 0 < capacity) (P : K → V → Prop) :
    Keeps hash ((capacity + S - 1) / S) P (new capacity) := by
  refine ⟨blocks hash hS hcap [], fun k v hk => ?_⟩
  rw [peek_eq] at hk
  simp [new] at hk

theorem Keeps.mono (h : Keeps hash per_shard P c) (himp : ∀ k v, P k v → Q k v) : Keeps hash per_shard Q c :=
  ⟨h.arena, fun k v hk => himp k v (h.kept k v hk)⟩

theorem Keeps.get (h : Keeps hash per_shard P c) (hpos : 0 < per_shard) (hS : 0 < S) (key : K) :
    Keeps hash per_shard P (c.get hash key).1 := by
  obtain ⟨ls, hls⟩ := h.arena
  refine ⟨hls.step hpos hS (.get key), fun k v hk => ?_⟩
  have hsame := peek_step hls (.get key) k
  exact h.kept k v (hsame.symm.trans hk)

/-- A put leaves every key with what it held, with the value that is put, or without any. -/
theorem Keeps.put (h : Keeps hash per_shard P c) (hpos : 0 < per_shard) (hS : 0 < S) {key : K} {value : V}
    (hvalue : P key value) : Keeps hash per_shard P (put hash c key value).1 := by
  obtain ⟨ls, hls⟩ := h.arena
  refine ⟨hls.step hpos hS (.put key value), fun k v hk => ?_⟩
  rw [peek_put hls] at hk
  unfold Recency.noteCall at hk
  dsimp only at hk
  split_ifs at hk with heq hlost
  · obtain rfl := Option.some.inj hk
    exact heq ▸ hvalue
  · exact h.kept k v hk

end LruCache.Partitioned

end Opsense
