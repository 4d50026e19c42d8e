import Opsense.Radix.Filters
import Opsense.Radix.Hits

/-!
# Pruning by filters

With the feature `bloom-search`, `search_dfs` of `opsense-mlib/src/radix.rs` leaves out a child whose filter does not contain the
rest of the pattern. As long as no insertion goes by a node without a filter, no hit is lost (`bloom_invisible`). An insertion that
goes by the leg of a split begins a filter there without the keys that are already below, and a search for them is pruned
(`leg_filter_loses_key`).
-/

namespace Opsense

variable {σ T : Type} [DecidableEq T] {B : Backend σ} {E : Element T} {R : Radix T}

/-- The test of `search_dfs` before it goes down to a child, with `pp` elements of the pattern read. -/
def Radix.prunes (E : Element T) (blooms : Table Nat Bytes) (pattern : List T) (child pp : Nat) : Bool :=
  decide (pattern.length - pp ≤ BloomCfg.MATCH_CAP) &&
    match readBloom blooms child with
    | none => false
    | some bf => !bf.contains (E.fromVec (pattern.drop pp))

/-- For every pattern, with a matcher that is sound for it as `kmp_matcher` is, and from the root of its shard or any node of the
trees: the search with pruning ends with the same as the one without, however they are interrupted. -/
def Invisible (B : Backend σ) (E : Element T) (R : Radix T) (s : Filtered σ) : Prop :=
  ∀ begin_ pattern (matcher : SearchMatcher T), (begin_ = EMPTY ∨ Reached B s.index.store begin_) → matcher.Sound pattern →
    ∃ n hits, ∀ fuel, n ≤ fuel → ∀ deadlines deadlines',
      Radix.searchCallsPruned B E R s.index.store (Radix.prunes E s.node_blooms pattern) fuel begin_ pattern matcher deadlines none =
        some hits ∧
      Radix.searchCalls B E R s.index.store fuel begin_ pattern matcher deadlines' none = some hits

variable {Open : σ → Nat → Nat → Prop} {s : Filtered σ} {b : Nat} {trees : Nat → Forest Nat T Nat} {stored : List (List T × Nat)}
  {pattern : List T} {matcher : SearchMatcher T}

/-- Where the filters admit all keys, a child is pruned only where nothing is found below it. -/
theorem Filled.prunesMisses (h : Filled B E R Open s b trees stored) (hmatcher : matcher.Sound pattern) {i id : Nat} {piece : List T}
    {value : Option Nat} {below : Forest Nat T Nat} (hn : (id, piece, value, below) ∈ (trees i).nodes) :
    Radix.PrunesMisses (Radix.prunes E s.node_blooms pattern) pattern matcher below := by
  intro l a c ha hc hpruned
  obtain ⟨u, hthrough⟩ := (h.through i).of_mem hn
  cases hprobe : below.probe (Radix.matches_ pattern matcher) pattern l with
  | none => rfl
  | some n =>
    obtain ⟨key, hadmitted, hin⟩ := hthrough.probe hmatcher ((h.held.live i).of_mem hn).2.1 ha hc hprobe
    have hl : l < pattern.length := (List.getElem?_eq_some_iff.mp ha).1
    have hne : pattern.drop l ≠ [] := by
      intro hnil
      have := List.drop_eq_nil_iff.mp hnil
      omega
    simp only [Radix.prunes, Bool.and_eq_true, decide_eq_true_eq] at hpruned
    obtain ⟨hcap, hmiss⟩ := hpruned
    have hadmits := hadmitted _ hin hne (by rwa [List.length_drop])
    cases hbf : readBloom s.node_blooms c with
    | none => simp [hbf] at hmiss
    | some bf =>
      rw [hbf] at hmiss
      simp [hadmits bf hbf] at hmiss

/-- Where the filters admit all keys, pruning is invisible. -/
theorem Filled.invisible (S : B.Serial Open) (h : Filled B E R Open s b trees stored) : Invisible B E R s := by
  intro begin_ pattern matcher hbegin hmatcher
  cases pattern with
  | nil =>
    refine ⟨0, .error .notFound, fun fuel _ deadlines deadlines' => ⟨?_, ?_⟩⟩
    · cases deadlines <;> rfl
    · cases deadlines' <;> rfl
  | cons first rest =>
    generalize hid : (if begin_ = EMPTY then B.getRoot s.index.store (shardOf E first R.sharding) else begin_) = id
    by_cases hempty : id = EMPTY
    · have hstart : Radix.dfsStart B E R s.index.store begin_ first none = none := by
        simp only [Radix.dfsStart, hid, if_pos hempty]
      refine ⟨0, .ok [], fun fuel _ deadlines deadlines' => ⟨?_, ?_⟩⟩
      · cases deadlines <;> simp [Radix.searchCallsPruned, Radix.searchDfsPruned, hstart, Except.map]
      · cases deadlines' <;> simp [Radix.searchCalls, Radix.searchDfs, hstart, Except.map]
    · have hreached : Reached B s.index.store id := by
        split_ifs at hid with heq
        · subst hid
          exact Reached.root _ hempty
        · exact hid ▸ hbegin.resolve_left heq
      obtain ⟨i, hname⟩ := h.held.exists_name S hreached
      rw [Forest.names_eq] at hname
      obtain ⟨⟨id', piece, value, below⟩, hn, rfl⟩ := List.mem_map.mp hname
      obtain ⟨found, hends, -⟩ := Radix.visit_ends_pruned (first :: rest) matcher S h.held.opened
        ((h.held.planted i).holds.of_mem hn) ((h.held.rooted i).wf_of_mem hn)
        (Forest.nodup_names_of_mem (h.held.planted i).nodup hn)
      have hpruned := hends (Radix.prunes E s.node_blooms (first :: rest)) fun n hmem =>
        h.prunesMisses hmatcher (Forest.nodes_trans hn hmem)
      have hplain := hends (fun _ _ => false) fun n _ l a c _ _ hpruned => absurd hpruned Bool.false_ne_true
      obtain ⟨n, hcalls⟩ := Radix.ends_start_pruned begin_ first rest hid hempty hpruned
      obtain ⟨n', hcalls'⟩ := Radix.ends_start_pruned begin_ first rest hid hempty hplain
      rw [Radix.searchCallsPruned_never] at hcalls'
      exact ⟨max n n', .ok found, fun fuel hfuel deadlines deadlines' =>
        ⟨hcalls fuel ((le_max_left n n').trans hfuel) deadlines, hcalls' fuel ((le_max_right n n').trans hfuel) deadlines'⟩⟩

/-- On every backend, over any elements, any number of shards and any callbacks: in every state that is reached by insertions of which
none that stores its key goes by a node without a filter, pruning is invisible. -/
theorem bloom_invisible (k : Kind) (E : Element T) (R : Radix T) (as : List (Radix.Insertion T))
    (h : (R.filteredMachine k.backend E).Along (fun s a => R.goesByFilters k.backend E s a = true) as) :
    Invisible k.backend E R ((R.filteredMachine k.backend E).state as) := by
  obtain ⟨Open, S⟩ := k.serial
  obtain ⟨b, trees, stored, hfilled⟩ := Machine.invariant_of_along
    (I := fun s => ∃ b trees stored, Filled k.backend E R Open s b trees stored) ⟨1, _, [], Filled.new S⟩
    (fun s a ⟨b, trees, stored, hs⟩ hgo => hs.step S a hgo) as h
  exact hfilled.invisible S

/-- Keys of which the second splits the node of the first, and the third ends where the split was, by nodes with filters only. -/
def forkedKeys : List (Radix.Insertion (BitVec 8)) := [⟨[97, 98, 99, 120], 1, []⟩, ⟨[97, 98, 100], 2, []⟩, ⟨[97, 98], 3, []⟩]

theorem forked_keys_invisible :
    Invisible Kind.inMemory.backend (Element.int false 1 (by decide)) (Radix.new (BitVec 8) 1)
      (((Radix.new (BitVec 8) 1).filteredMachine Kind.inMemory.backend (Element.int false 1 (by decide))).state forkedKeys) :=
  bloom_invisible .inMemory _ _ _ (Machine.along_iff_alongFrom.mpr (by decide +kernel))

/-- Keys of which the second splits the node of the first, and the third goes by the leg. -/
def legKeys : List (Radix.Insertion (BitVec 8)) := [⟨[97, 98, 99, 120], 1, []⟩, ⟨[97, 98, 100], 2, []⟩, ⟨[97, 98, 99, 101], 3, []⟩]

/-- The filter that is begun at the leg has the third key only, and the search for the first is pruned there. -/
theorem leg_filter_loses_key :
    Radix.searchCallsPruned Kind.inMemory.backend (Element.int false 1 (by decide)) (Radix.new (BitVec 8) 1)
        (((Radix.new (BitVec 8) 1).filteredMachine Kind.inMemory.backend (Element.int false 1 (by decide))).state legKeys).index.store
        (Radix.prunes (Element.int false 1 (by decide)) (((Radix.new (BitVec 8) 1).filteredMachine Kind.inMemory.backend
          (Element.int false 1 (by decide))).state legKeys).node_blooms [97, 98, 99, 120]) 20 EMPTY [97, 98, 99, 120]
        (Search.kmpMatcher [97, 98, 99, 120]) [] none = some (.ok []) ∧
      Radix.searchCalls Kind.inMemory.backend (Element.int false 1 (by decide)) (Radix.new (BitVec 8) 1)
        (((Radix.new (BitVec 8) 1).filteredMachine Kind.inMemory.backend (Element.int false 1 (by decide))).state legKeys).index.store
        20 EMPTY [97, 98, 99, 120] (Search.kmpMatcher [97, 98, 99, 120]) [] none = some (.ok [1]) ∧
      ¬Invisible Kind.inMemory.backend (Element.int false 1 (by decide)) (Radix.new (BitVec 8) 1)
        (((Radix.new (BitVec 8) 1).filteredMachine Kind.inMemory.backend (Element.int false 1 (by decide))).state legKeys) := by
  have hpruned : Radix.searchCallsPruned Kind.inMemory.backend (Element.int false 1 (by decide)) (Radix.new (BitVec 8) 1)
      (((Radix.new (BitVec 8) 1).filteredMachine Kind.inMemory.backend (Element.int false 1 (by decide))).state legKeys).index.store
      (Radix.prunes (Element.int false 1 (by decide)) (((Radix.new (BitVec 8) 1).filteredMachine Kind.inMemory.backend
        (Element.int false 1 (by decide))).state legKeys).node_blooms [97, 98, 99, 120]) 20 EMPTY [97, 98, 99, 120]
      (Search.kmpMatcher [97, 98, 99, 120]) [] none = some (.ok []) := by decide +kernel
  have hplain : Radix.searchCalls Kind.inMemory.backend (Element.int false 1 (by decide)) (Radix.new (BitVec 8) 1)
      (((Radix.new (BitVec 8) 1).filteredMachine Kind.inMemory.backend (Element.int false 1 (by decide))).state legKeys).index.store
      20 EMPTY [97, 98, 99, 120] (Search.kmpMatcher [97, 98, 99, 120]) [] none = some (.ok [1]) := by decide +kernel
  refine ⟨hpruned, hplain, fun h => ?_⟩
  obtain ⟨n, hits, hn⟩ := h EMPTY _ _ (Or.inl rfl) (Search.kmpMatcher_sound [97, 98, 99, 120])
  obtain ⟨hends, hends'⟩ := hn (max n 20) (le_max_left n 20) [] []
  rw [Radix.searchCallsPruned_mono hpruned (le_max_right n 20)] at hends
  rw [Radix.searchCalls_mono hplain (le_max_right n 20), ← hends] at hends'
  simp at hends'

end Opsense
