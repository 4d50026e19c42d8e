import Opsense.Lru.Refine

/-!
# Runs of the cache over a shared arena

The results on every run of the cache with `lru-shared-memory`, read off the simulation: how the nodes of the arena are
linked and mapped (`Sound`), which entries a put evicts and when (`Evicts`), what a key holds, and which entry a single
shard gives up.
-/

namespace Opsense

namespace LruCache.Shared

variable {K V : Type} [DecidableEq K] {S : Nat}

/-- The arena of a cache between two calls. The free list and the lists of the shards hold every node once, and the mapping
is a bijection between the live keys and the nodes in the lists of the shards, each of which holds its key. -/
structure Sound (hash : K → Fin S) (c : LruCache K V S) (free : List Nat) (ls : Fin S → List Nat) : Prop where
  freeList : c.links.NextSeg c.freeHead free
  recency : Family c.links c.shards ls
  cover : (free ++ (List.finRange S).flatMap ls).Perm (List.range c.len)
  mapping : ∀ k i, c.mapping.lookup k = some i ↔ (∃ s, i ∈ ls s) ∧ (c.caching i).key = some k
  occupied : ∀ s i, i ∈ ls s → ∃ k, (c.caching i).key = some k ∧ hash k = s
  vacant : ∀ i ∈ free, (c.caching i).key = none ∧ (c.caching i).value = none

/-- A put takes the entry `(k, v)` out of the cache. -/
def Evicts (hash : K → Fin S) (c : LruCache K V S) (key : K) (value : V) (k : K) (v : V) : Prop :=
  peek hash c k = some v ∧ peek hash (put hash c key value).1 k = none

/-- Every node of the arena is mapped to by some key. -/
def AllLive (c : LruCache K V S) : Prop := ∀ i, i < c.len → ∃ k, c.mapping.lookup k = some i

section Refines

variable {hash : K → Fin S} {capacity : Nat} {c : LruCache K V S} {r : Recency K V hash}

theorem Refines.sound (h : Refines hash capacity c r) : ∃ free ls, Sound hash c free ls := by
  obtain ⟨-, free, ls, hch, hst⟩ := h
  refine ⟨free, ls, hch.freeSeg, hch.family, hch.cover, hst.mapping, fun s i hi => ?_, fun i hi => ?_⟩
  · obtain ⟨xs, ys, hls⟩ := List.append_of_mem hi
    obtain ⟨k, v, hloc⟩ := hst.locate_node hls
    exact ⟨k, (entryAt_eq_some.mp hloc.entry).1, hloc.home⟩
  · exact hst.cleared i fun ⟨s, his⟩ => hch.notMem_lists (by simpa using hi) s his

theorem Refines.peek (h : Refines hash capacity c r) (k : K) : LruCache.peek hash c k = r.find k := by
  unfold LruCache.peek
  rw [(h.get k).1]
  unfold Recency.get
  cases r.find k <;> rfl

/-- A cache whose lists hold as many entries as it has nodes has no free node. -/
theorem Refines.allLive (h : Refines hash capacity c r) (hfull : capacity ≤ r.size) : AllLive c := by
  obtain ⟨hlen, free, ls, hch, hst⟩ := h
  have hcount := hch.cover.length_eq
  rw [List.nil_append, List.length_append, hst.length_flatMap, List.length_range, hlen] at hcount
  have hfree : free = [] := List.eq_nil_of_length_eq_zero (by omega)
  subst hfree
  intro i hi
  have hmem : i ∈ (List.finRange S).flatMap ls := hch.cover.mem_iff.mpr (List.mem_range.mpr hi)
  obtain ⟨s, -, his⟩ := List.mem_flatMap.mp hmem
  obtain ⟨xs, ys, hls⟩ := List.append_of_mem his
  obtain ⟨k, v, hloc⟩ := hst.locate_node hls
  exact ⟨k, (hst.mapping k i).mpr ⟨⟨s, his⟩, (entryAt_eq_some.mp hloc.entry).1⟩⟩

theorem Refines.evicts_iff (h : Refines hash capacity c r) {key k : K} {value v : V} :
    Evicts hash c key value k v ↔ r.find k = some v ∧ (r.put capacity key value).1.find k = none := by
  unfold Evicts
  rw [h.peek, (h.put key value).2.peek]

end Refines

/-! ## Every run -/

/-- Along every run: the free list and the recency lists hold every node of the arena once and the mapping is a bijection onto
the nodes in the recency lists; a put takes an entry out only when every node is live, and reports exactly the entries it takes
out, each once; a key holds the value of its last put unless it was removed, cleared or reported as evicted since, given room for
one entry; a removed entry is returned and persisted; clearing leads back to the initial state; and with one shard the entry taken
out is the least recently used one. -/
theorem run_sound (hash : K → Fin S) (capacity : Nat) (as : List (Call K V)) :
    let M := machine hash capacity
    let c : LruCache K V S := M.state as
    (c.len = capacity ∧ ∃ free ls, Sound hash c free ls) ∧
    (∀ key value k v, Evicts hash c key value k v → AllLive c) ∧
    (∀ key value, (Recency.reported (M.out c (.put key value)).hooks).Nodup ∧
      ∀ k v, (k, v) ∈ Recency.reported (M.out c (.put key value)).hooks ↔ Evicts hash c key value k v) ∧
    (∀ k, peek hash c k = if capacity = 0 then none else Recency.held k (M.trace as)) ∧
    (∀ k, M.out c (.remove k) = { value := peek hash c k, hooks := (peek hash c k).toList.map (Hook.persist k) }) ∧
    M.state (as ++ [.clear]) = M.init ∧
    (S = 1 → ∀ key value k v k' v', Evicts hash c key value k v → peek hash c k' = some v' → k' ≠ k →
      Recency.idle k' as < Recency.idle k as) := by
  intro M c
  have hsim := simulates (V := V) hash capacity
  have hr : Refines hash capacity c ((Recency.machine hash capacity).state as) := hsim.state as
  have htrace : M.trace as = (Recency.machine hash capacity).trace as := hsim.trace as
  have hlost : ∀ {key value k v}, Evicts hash c key value k v →
      capacity ≤ ((Recency.machine hash capacity).state as).size ∧
      ((Recency.machine hash capacity).state as).victim = some (k, v) := by
    intro key value k v hev
    obtain ⟨hf, hl⟩ := hr.evicts_iff.mp hev
    exact (Recency.victim_of_lost hf hl).2
  refine ⟨⟨hr.len, hr.sound⟩, ?_, ?_, ?_, ?_, ?_, ?_⟩
  · intro key value k v hev
    exact hr.allLive (hlost hev).1
  · intro key value
    have hout : (M.out c (.put key value)).hooks =
        (((Recency.machine hash capacity).state as).put capacity key value).2 := (hr.put key value).1
    rw [hout]
    refine ⟨?_, fun k v => ?_⟩
    · rw [Recency.reported_put]
      split_ifs
      · cases ((Recency.machine hash capacity).state as).victim with
        | none => exact List.nodup_nil
        | some e => exact List.nodup_singleton e
      · exact List.nodup_nil
    · rw [Recency.mem_reported_put, hr.evicts_iff]
  · intro k
    rw [hr.peek, htrace]
    split_ifs with h0
    · subst h0
      exact Recency.find_zero hash as k
    · exact Recency.find_eq_held (Nat.pos_of_ne_zero h0) as k
  · intro k
    have hrem : M.out c (.remove k) =
        { value := (remove hash c k).2.1, hooks := (remove hash c k).2.2 } := rfl
    rw [hrem, (hr.remove k).1, hr.peek]
    unfold Recency.remove
    cases ((Recency.machine hash capacity).state as).find k <;> rfl
  · have hclear : M.state (as ++ [.clear]) = (clear c).1 := M.state_snoc as .clear
    rw [hclear]
    unfold clear
    rw [hr.len]
    rfl
  · intro hS key value k v k' v' hev hp hne
    subst hS
    rw [hr.peek] at hp
    exact Recency.idle_lt_victim (hlost hev).2 hp hne (Subsingleton.elim _ _)

/-- A removal makes no call of the removal hook, and a cache without capacity drops what is put. -/
theorem removal_unreported :
    let c : LruCache Nat Nat 1 := (machine (fun _ => 0) 1).state [.put 1 10]
    let c₀ : LruCache Nat Nat 1 := (machine (fun _ => 0) 0).state [.put 1 10]
    (peek (fun _ => 0) c 1 = some 10 ∧ Recency.reported ((machine (fun _ => 0) 1).out c (.remove 1)).hooks = []) ∧
    (Recency.held 1 ((machine (fun _ => (0 : Fin 1)) 0).trace [.put 1 10]) = some 10 ∧ peek (fun _ => 0) c₀ 1 = none) := by
  decide

end LruCache.Shared

end Opsense
