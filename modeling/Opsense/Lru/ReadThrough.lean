import Mathlib.Data.Finset.Sort
import Opsense.Lru.Arena

/-!
# Reading through the cache

`LruCache::get_with_load` of `opsense-mlib/src/lru.rs`: a key is looked up in the cache, then in the stored snapshots, then at the
origin. What the origin sends is merged with the cached value; a stored snapshot replaces it (`keeps_iff`). The snapshots of a series and
the answers of the origin are parameters, and what the call spawns to be stored is among its hooks.
-/

namespace Opsense

/-- What is attached to a cache for reading through. -/
structure ReadThrough (K V Series Bytes : Type) where
  /-- `TimeseriesStorage::range`: the stored points of a series in a window, in their order. -/
  timeseries : Option (Series → Nat → Nat → Except String (List (Nat × Bytes)))
  tsSeriesOf : Option (K → Series)
  decode : Option (Bytes → Option V)
  validate : Option (K → V → Nat → Nat → Bool)
  coverageGap : Option (K → V → Nat → Nat → Option (Nat × Nat))
  /-- `OriginSource::fetch` -/
  fallback : Option (K → Nat → Nat → Except String V)
  tsMerge : Option (V → V → V)

/-- What a call gives back, the hooks that it made, and what the origin answered if it was asked. -/
structure Loaded (K V : Type) where
  value : Option V
  hooks : List (Hook K V) := []
  origin : Option (Except String V) := none

/-- The two layouts of the cache. -/
inductive ArenaLayout where
  | shared
  | partitioned
deriving DecidableEq, Repr

namespace ReadThrough

variable {K V Series Bytes : Type} (h : ReadThrough K V Series Bytes) (key : K) (from_ts to_ts : Nat)

/-- `validate.is_none_or(..)` -/
def validated (value : V) : Bool :=
  match h.validate with
  | none => true
  | some validate => validate key value from_ts to_ts

/-- The newest stored snapshot that is decoded and validated. -/
def fromStorage : Option V :=
  match h.timeseries, h.tsSeriesOf, h.decode, h.validate with
  | some ts, some series_of, some decode, some validate =>
    match ts (series_of key) from_ts to_ts with
    | .ok points => points.reverse.findSome? fun p => (decode p.2).filter fun decoded => validate key decoded from_ts to_ts
    | .error _ => none
  | _, _, _, _ => none

/-- The window that the origin is asked for, unless the cached value has no gap that can be filled. -/
def fetchWindow (cached : Option V) : Option (Nat × Nat) :=
  match h.coverageGap, cached with
  | some gap, some val => gap key val from_ts to_ts
  | _, _ => some (from_ts, to_ts)

/-- What the origin sent, with the cached value. -/
def merged (cached : Option V) (value : V) : V :=
  match h.tsMerge, cached with
  | some merge, some val => merge val value
  | _, _ => value

end ReadThrough

namespace LruCache

variable {K V Series Bytes : Type} [DecidableEq K] {S : Nat}

/-- `put` -/
def putIn (layout : ArenaLayout) (hash : K → Fin S) (c : LruCache K V S) (key : K) (value : V) : LruCache K V S × List (Hook K V) :=
  match layout with
  | .shared => Shared.put hash c key value
  | .partitioned => Partitioned.put hash c key value

/-- The third tier: the origin. -/
def loadFromOrigin (layout : ArenaLayout) (hash : K → Fin S) (h : ReadThrough K V Series Bytes) (c : LruCache K V S) (key : K)
    (from_ts to_ts : Nat) : LruCache K V S × Loaded K V :=
  match h.fallback with
  | none => (c, { value := none })
  | some fb =>
    let (c, cached) := c.get hash key
    match h.fetchWindow key from_ts to_ts cached with
    | none => (c, { value := cached })
    | some (fetch_from, fetch_to) =>
      match fb key fetch_from fetch_to with
      | .ok value =>
        let merged := h.merged cached value
        let (c, hooks) := putIn layout hash c key merged
        (c, { value := some merged, hooks := hooks ++ [.persist key merged], origin := some (.ok value) })
      | .error e => (c, { value := cached, origin := some (.error e) })

def getWithLoad (layout : ArenaLayout) (hash : K → Fin S) (h : ReadThrough K V Series Bytes) (c : LruCache K V S) (key : K)
    (from_ts to_ts : Nat) : LruCache K V S × Loaded K V :=
  let (c, hit) := c.get hash key
  match hit.filter (h.validated key from_ts to_ts) with
  | some val => (c, { value := some val })
  | none =>
    match h.fromStorage key from_ts to_ts with
    | some decoded =>
      let (c, hooks) := putIn layout hash c key decoded
      (c, { value := some decoded, hooks := hooks })
    | none => loadFromOrigin layout hash h c key from_ts to_ts

/-! ## What a key holds afterwards -/

variable {hash : K → Fin S} {c : LruCache K V S} {key : K} {v : V}

theorem peek_congr {c' : LruCache K V S} (hsame : SameEntries c c') (k : K) : peek hash c' k = peek hash c k := by
  simp only [peek_eq, hsame.mapping, hsame.value]

/-- A read moves its entry, and changes none. -/
theorem peek_get (hash : K → Fin S) (c : LruCache K V S) (key k : K) : peek hash (c.get hash key).1 k = peek hash c k := by
  unfold get
  cases c.mapping.lookup key with
  | none => rfl
  | some index =>
    cases hvalue : (c.caching index).value with
    | none => simp only [hvalue]
    | some val =>
      simp only [hvalue]
      exact peek_congr (SameEntries.moveToFront c (hash key) index) k

/-- A put of a key that is there replaces its value. -/
theorem peek_putUpdate {index : Nat} (hlookup : c.mapping.lookup key = some index) (value : V) :
    peek hash (c.putUpdate hash key value index).1 key = some value := by
  unfold putUpdate
  rw [peek_congr (SameEntries.moveToFront _ (hash key) index), peek_eq]
  simp [setValue, hlookup]

theorem peek_putIn (layout : ArenaLayout) (hcached : peek hash c key = some v) (value : V) :
    peek hash (putIn layout hash c key value).1 key = some value := by
  rw [peek_eq, Option.bind_eq_some_iff] at hcached
  obtain ⟨index, hlookup, -⟩ := hcached
  have hupdate : putIn layout hash c key value = c.putUpdate hash key value index := by
    cases layout with
    | shared => simp only [putIn, Shared.put, hlookup]
    | partitioned => simp only [putIn, Partitioned.put, hlookup]
  rw [hupdate]
  exact peek_putUpdate hlookup value

/-! ## What a call keeps -/

variable {layout : ArenaLayout} {h : ReadThrough K V Series Bytes} {from_ts to_ts : Nat}

/-- The third tier keeps the cached value, or merges it with what the origin sent. If the origin fails, it is the result. -/
theorem loadFromOrigin_spec (layout : ArenaLayout) (hash : K → Fin S) (h : ReadThrough K V Series Bytes) (c : LruCache K V S) (key : K)
    (from_ts to_ts : Nat) : let r := loadFromOrigin layout hash h c key from_ts to_ts
    (∀ v, peek hash c key = some v → ∃ w, peek hash r.1 key = some w ∧ (w = v ∨ ∃ value, w = h.merged (some v) value)) ∧
      ∀ e, r.2.origin = some (.error e) → r.2.value = peek hash c key ∧ peek hash r.1 key = peek hash c key := by
  intro r
  have hr : r = loadFromOrigin layout hash h c key from_ts to_ts := rfl
  unfold loadFromOrigin at hr
  have hget := peek_get hash c key key
  rcases hfallback : h.fallback with - | fb
  · rw [hfallback] at hr
    rw [hr]
    exact ⟨fun v hv => ⟨v, hv, Or.inl rfl⟩, fun e he => by cases he⟩
  rw [hfallback] at hr
  simp only at hr
  rcases hwindow : h.fetchWindow key from_ts to_ts (c.get hash key).2 with - | ⟨fetch_from, fetch_to⟩
  · rw [hwindow] at hr
    rw [hr]
    exact ⟨fun v hv => ⟨v, hget.trans hv, Or.inl rfl⟩, fun e he => by cases he⟩
  rw [hwindow] at hr
  simp only at hr
  rcases hfetch : fb key fetch_from fetch_to with e | value
  · rw [hfetch] at hr
    rw [hr]
    exact ⟨fun v hv => ⟨v, hget.trans hv, Or.inl rfl⟩, fun e he => ⟨rfl, hget⟩⟩
  · rw [hfetch] at hr
    rw [hr]
    refine ⟨?_, fun e he => by cases he⟩
    intro v hv
    refine ⟨_, peek_putIn layout (hget.trans hv) _, Or.inr ⟨value, ?_⟩⟩
    have hcached : (c.get hash key).2 = some v := hv
    rw [hcached]

/-- A cached value that is validated is the result, and stays. -/
theorem getWithLoad_hit (hcached : peek hash c key = some v) (hvalid : h.validated key from_ts to_ts v = true) :
    getWithLoad layout hash h c key from_ts to_ts = ((c.get hash key).1, { value := some v }) := by
  have hhit : (c.get hash key).2 = some v := hcached
  simp [getWithLoad, hhit, Option.filter, hvalid]

/-- A cached value that is not validated is passed over, like none. -/
theorem getWithLoad_miss (hmiss : ∀ v, peek hash c key = some v → h.validated key from_ts to_ts v = false) :
    getWithLoad layout hash h c key from_ts to_ts =
      match h.fromStorage key from_ts to_ts with
      | some decoded =>
        ((putIn layout hash (c.get hash key).1 key decoded).1,
          { value := some decoded, hooks := (putIn layout hash (c.get hash key).1 key decoded).2 })
      | none => loadFromOrigin layout hash h (c.get hash key).1 key from_ts to_ts := by
  have hhit : (c.get hash key).2.filter (h.validated key from_ts to_ts) = none := by
    rw [Option.filter_eq_none_iff]
    intro v hv
    rw [hmiss v hv]
    exact Bool.false_ne_true
  simp only [getWithLoad, hhit]

/-! ## Sets of points -/

variable {P : Type} [DecidableEq P]

/-- A call loses no point of the key, and returns what is cached if the origin fails. -/
structure KeepsPoints (layout : ArenaLayout) (hash : K → Fin S) (h : ReadThrough K (Finset P) Series Bytes)
    (c : LruCache K (Finset P) S) (key : K) (from_ts to_ts : Nat) : Prop where
  kept : ∀ v, peek hash c key = some v → ∃ w, peek hash (getWithLoad layout hash h c key from_ts to_ts).1 key = some w ∧ v ⊆ w
  failed : ∀ e, (getWithLoad layout hash h c key from_ts to_ts).2.origin = some (.error e) →
    (getWithLoad layout hash h c key from_ts to_ts).2.value = peek hash c key ∧
      peek hash (getWithLoad layout hash h c key from_ts to_ts).1 key = peek hash c key

omit [DecidableEq P] in
theorem keepsPoints_of_hit {h : ReadThrough K (Finset P) Series Bytes} {c : LruCache K (Finset P) S} {v : Finset P}
    (hcached : peek hash c key = some v) (hvalid : h.validated key from_ts to_ts v = true) :
    KeepsPoints layout hash h c key from_ts to_ts := by
  have hget := peek_get hash c key key
  constructor
  · intro v' hv'
    rw [getWithLoad_hit hcached hvalid]
    exact ⟨v', hget.trans hv', subset_rfl⟩
  · intro e he
    rw [getWithLoad_hit hcached hvalid] at he
    cases he

/-- What the origin sends is merged with what is cached. -/
theorem keepsPoints_of_origin {h : ReadThrough K (Finset P) Series Bytes} (hmerge : h.tsMerge = some (· ∪ ·))
    {c : LruCache K (Finset P) S}
    (hcall : getWithLoad layout hash h c key from_ts to_ts = loadFromOrigin layout hash h (c.get hash key).1 key from_ts to_ts) :
    KeepsPoints layout hash h c key from_ts to_ts := by
  have hspec := loadFromOrigin_spec layout hash h (c.get hash key).1 key from_ts to_ts
  rw [← hcall] at hspec
  simp only [peek_get hash c key key] at hspec
  refine ⟨?_, hspec.2⟩
  intro v hv
  obtain ⟨w, hw, hmerged⟩ := hspec.1 v hv
  refine ⟨w, hw, ?_⟩
  rcases hmerged with rfl | ⟨value, rfl⟩
  · exact subset_rfl
  · simp only [ReadThrough.merged, hmerge]
    exact Finset.subset_union_left

omit [DecidableEq P] in
/-- A stored snapshot replaces what is cached. -/
theorem keepsPoints_stored {h : ReadThrough K (Finset P) Series Bytes} {c : LruCache K (Finset P) S} {w : Finset P}
    (hcall : getWithLoad layout hash h c key from_ts to_ts = ((putIn layout hash (c.get hash key).1 key w).1,
      { value := some w, hooks := (putIn layout hash (c.get hash key).1 key w).2 })) :
    KeepsPoints layout hash h c key from_ts to_ts ↔ ∀ v, peek hash c key = some v → v ⊆ w := by
  have hget := peek_get hash c key key
  constructor
  · intro hkeeps v hv
    obtain ⟨w', hafter, hsubset⟩ := hkeeps.kept v hv
    rw [hcall, peek_putIn layout (hget.trans hv)] at hafter
    rwa [Option.some.inj hafter]
  · intro hsubset
    constructor
    · intro v hv
      rw [hcall]
      exact ⟨w, peek_putIn layout (hget.trans hv) w, hsubset v hv⟩
    · intro e he
      rw [hcall] at he
      cases he

/-- A call loses no point exactly if the cached value is validated, or the stored snapshot that replaces it has all its points. -/
theorem keeps_iff (layout : ArenaLayout) (hash : K → Fin S) (h : ReadThrough K (Finset P) Series Bytes)
    (hmerge : h.tsMerge = some (· ∪ ·)) (c : LruCache K (Finset P) S) (key : K) (from_ts to_ts : Nat) :
    KeepsPoints layout hash h c key from_ts to_ts ↔ ∀ v, peek hash c key = some v →
      h.validated key from_ts to_ts v = true ∨ ∀ w, h.fromStorage key from_ts to_ts = some w → v ⊆ w := by
  by_cases hhit : ∃ v, peek hash c key = some v ∧ h.validated key from_ts to_ts v = true
  · obtain ⟨v, hcached, hvalid⟩ := hhit
    refine iff_of_true (keepsPoints_of_hit hcached hvalid) ?_
    intro v' hv'
    rw [hcached] at hv'
    exact Or.inl (Option.some.inj hv' ▸ hvalid)
  · have hmiss : ∀ v, peek hash c key = some v → h.validated key from_ts to_ts v = false := by
      intro v hv
      rw [← Bool.not_eq_true]
      intro hvalid
      exact hhit ⟨v, hv, hvalid⟩
    have hcall : getWithLoad layout hash h c key from_ts to_ts = _ := getWithLoad_miss hmiss
    rcases hstored : h.fromStorage key from_ts to_ts with - | w
    · simp only [hstored] at hcall
      refine iff_of_true (keepsPoints_of_origin hmerge hcall) ?_
      intro v hv
      exact Or.inr fun w hw => by cases hw
    · simp only [hstored] at hcall
      rw [keepsPoints_stored hcall]
      refine forall₂_congr fun v hv => ?_
      simp [hmiss v hv]

/-- A store with a snapshot of the point 3, where a value is validated for a window if it has a point in it. -/
def olderSnapshot : ReadThrough Nat (Finset Nat) Nat (List Nat) where
  timeseries := some fun _ from_ts to_ts => .ok ([(3, [3])].filter fun p => from_ts ≤ p.1 ∧ p.1 ≤ to_ts)
  tsSeriesOf := some id
  decode := some fun bytes => some bytes.toFinset
  validate := some fun _ v from_ts to_ts => decide (∃ t ∈ v, from_ts ≤ t ∧ t ≤ to_ts)
  coverageGap := some fun _ _ from_ts to_ts => some (from_ts, to_ts)
  fallback := none
  tsMerge := some (· ∪ ·)

/-- A key with the newer point 9. -/
def newerCached : LruCache Nat (Finset Nat) 1 := (Shared.machine (fun _ => Fin.last 0) 1).state [.put 7 {9}]

theorem keeps_iff_newer : (olderSnapshot.tsMerge = some (· ∪ ·)) ∧
    (KeepsPoints .shared (fun _ => (0 : Fin 1)) olderSnapshot newerCached 7 8 9 ↔ ∀ v, peek (fun _ => 0) newerCached 7 = some v →
      olderSnapshot.validated 7 8 9 v = true ∨ ∀ w, olderSnapshot.fromStorage 7 8 9 = some w → v ⊆ w) :=
  ⟨rfl, keeps_iff .shared _ olderSnapshot rfl newerCached 7 8 9⟩

/-- A window before the cached point is read from the snapshot, and the cached point is lost. -/
theorem snapshot_replaces : (∀ v : Finset Nat, olderSnapshot.decode.bind (· v.sort) = some v) ∧
    peek (fun _ => (0 : Fin 1)) newerCached 7 = some {9} ∧
    peek (fun _ => 0) (getWithLoad .shared (fun _ => (0 : Fin 1)) olderSnapshot newerCached 7 0 5).1 7 = some {3} ∧
    ¬KeepsPoints .shared (fun _ => (0 : Fin 1)) olderSnapshot newerCached 7 0 5 := by
  have hcached : peek (fun _ => (0 : Fin 1)) newerCached 7 = some {9} := by decide
  have hafter : peek (fun _ => 0) (getWithLoad .shared (fun _ => (0 : Fin 1)) olderSnapshot newerCached 7 0 5).1 7 = some {3} := by
    decide
  refine ⟨?_, hcached, hafter, ?_⟩
  · intro v
    simp [olderSnapshot]
  · intro hkeeps
    obtain ⟨w, hw, hsubset⟩ := hkeeps.kept _ hcached
    rw [hafter] at hw
    rw [← Option.some.inj hw] at hsubset
    exact absurd hsubset (by decide)

end LruCache

end Opsense
