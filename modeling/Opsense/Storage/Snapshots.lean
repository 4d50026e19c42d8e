import Mathlib.Order.Monotone.Defs
import Opsense.Lru.Cache
import Opsense.Storage.Lake

/-!
# Snapshots of a cache on a backend

A cache with a backend appends the whole value of an entry to the entry's series whenever it calls `persist_point`, at the
time its clock shows. The append is a task of its own: the tasks start in the order of the calls and may run in any other
order. What a later reader gets is decided by the order in which they ran: the in-memory backend returns the point appended
last, and the lake the one with the greatest time, of several with that time the one appended last.
-/

namespace Opsense

/-- What `attach_timeseries` gives a cache. The clock is read once at every call of `persist_point`. -/
structure Attached (K V : Type) where
  series_of : K → Bytes
  encode : V → Bytes
  timestamp_of : Option (K → V → Nat)
  clock : Nat → Nat

namespace Attached

variable {K V : Type}

/-- The append that the `n`-th call of `persist_point` spawns. -/
def persistPoint (t : Attached K V) (n : Nat) (key : K) (value : V) : Append where
  series := t.series_of key
  ts := match t.timestamp_of with
    | some f => f key value
    | none => t.clock n
  value := t.encode value

/-- The entries `persist_point` is called with, in the order of the calls. -/
def persisted (hooks : List (Hook K V)) : List (K × V) :=
  hooks.filterMap fun
    | .persist key value => some (key, value)
    | _ => none

/-- The appends that the calls of the cache spawned, in the order of the calls. -/
def spawned (t : Attached K V) (hooks : List (Hook K V)) : List Append :=
  (persisted hooks).zipIdx.map fun p => t.persistPoint p.2 p.1.1 p.1.2

/-- The entry of a series that was persisted last. -/
def newestPersisted (t : Attached K V) (hooks : List (Hook K V)) (series : Bytes) : Option (K × V) :=
  ((persisted hooks).filter fun p => t.series_of p.1 = series).getLast?

/-- A reader of the series gets the value that was persisted last. -/
def ReturnsNewest (t : Attached K V) (hooks : List (Hook K V)) (series : Bytes) (points : List (Nat × Bytes)) : Prop :=
  points.map Prod.snd = ((t.newestPersisted hooks series).map fun p => t.encode p.2).toList

instance (t : Attached K V) (hooks : List (Hook K V)) (series : Bytes) (points : List (Nat × Bytes)) :
    Decidable (t.ReturnsNewest hooks series points) := by
  unfold ReturnsNewest; infer_instance

/-- The values spawned for a series are the ones persisted. -/
theorem values_spawned (t : Attached K V) (hooks : List (Hook K V)) (series : Bytes) :
    (appended (t.spawned hooks) series).map Append.value =
      ((persisted hooks).filter fun p => t.series_of p.1 = series).map fun p => t.encode p.2 := by
  have hfst : (persisted hooks).filter (fun p => t.series_of p.1 = series) =
      ((persisted hooks).zipIdx.filter fun p => t.series_of p.1.1 = series).map Prod.fst := by
    conv_lhs => rw [← List.zipIdx_map_fst 0 (persisted hooks)]
    rw [List.filter_map]
    rfl
  rw [hfst, appended, spawned, List.filter_map, List.map_map, List.map_map]
  rfl

theorem newestPersisted_eq (t : Attached K V) (hooks : List (Hook K V)) (series : Bytes) :
    (t.newestPersisted hooks series).map (fun p => t.encode p.2) =
      (appended (t.spawned hooks) series).getLast?.map Append.value := by
  rw [newestPersisted, ← List.getLast?_map, ← List.getLast?_map, values_spawned]

/-- The clock stamps the appends in the order they were spawned in. -/
theorem pairwise_spawned {t : Attached K V} (htime : t.timestamp_of = none) (hclock : Monotone t.clock)
    (hooks : List (Hook K V)) : (t.spawned hooks).Pairwise fun a b => a.ts ≤ b.ts := by
  rw [spawned, List.pairwise_map, List.pairwise_iff_getElem]
  intro i j hi hj hij
  rw [List.getElem_zipIdx, List.getElem_zipIdx]
  unfold persistPoint
  rw [htime]
  exact hclock (by omega)

end Attached

/-- Of the appends that compete with a snapshot the one run last carries what the snapshot carries. -/
def Prevails (rivals : List Append) (snapshot : Append) : Prop :=
  rivals.getLast?.map Append.value = some snapshot.value

section Readers

variable {K V : Type} (t : Attached K V) {hooks : List (Hook K V)} {executed : List Append}

/-- The in-memory backend returns the newest snapshot when it is the one appended last. -/
theorem InMemoryStorage.returnsNewest_iff (h : executed.Perm (t.spawned hooks)) (series : Bytes) :
    t.ReturnsNewest hooks series ((InMemoryStorage.appends executed).latest series 1) ↔
      ∀ snapshot, (appended (t.spawned hooks) series).getLast? = some snapshot →
        Prevails (appended executed series) snapshot := by
  have hperm : (appended executed series).Perm (appended (t.spawned hooks) series) := h.filter _
  unfold Attached.ReturnsNewest
  rw [t.newestPersisted_eq, InMemoryStorage.latest_one]
  cases hlast : (appended (t.spawned hooks) series).getLast? with
  | none =>
    rw [List.getLast?_eq_none_iff.mp hlast] at hperm
    rw [hperm.eq_nil]
    simp
  | some snapshot =>
    unfold Prevails
    cases (appended executed series).getLast? with
    | none => simp
    | some last => simp [Append.point]

/-- The lake returns the newest snapshot when of the snapshots with its time it is the one appended last. -/
theorem Lakehouse.returnsNewest_iff (htime : t.timestamp_of = none) (hclock : Monotone t.clock)
    {flush_threshold block_secs : Nat} {as : List (Append × Nat)} (h : (as.map Prod.fst).Perm (t.spawned hooks))
    (hfresh : (machine flush_threshold block_secs).Along (FreshFlush flush_threshold block_secs) as) (series : Bytes) :
    t.ReturnsNewest hooks series (((machine flush_threshold block_secs).state as).latest series 1) ↔
      ∀ snapshot, (appended (t.spawned hooks) series).getLast? = some snapshot →
        Prevails ((appended (as.map Prod.fst) series).filter fun a => a.ts = snapshot.ts) snapshot := by
  have hperm : (appended (as.map Prod.fst) series).Perm (appended (t.spawned hooks) series) := h.filter _
  unfold Attached.ReturnsNewest
  rw [t.newestPersisted_eq, latest_one _ _ _ hfresh]
  cases hlast : (appended (t.spawned hooks) series).getLast? with
  | none =>
    rw [List.getLast?_eq_none_iff.mp hlast] at hperm
    rw [hperm.eq_nil]
    simp
  | some snapshot =>
    have hmem : snapshot ∈ appended (as.map Prod.fst) series := hperm.mem_iff.mpr (List.mem_of_getLast? hlast)
    have hmax : ∀ a ∈ appended (as.map Prod.fst) series, a.ts ≤ snapshot.ts := by
      intro a ha
      have hsorted := (Attached.pairwise_spawned htime hclock hooks).sublist
        (List.filter_sublist (p := fun a => a.series = series))
      obtain ⟨pre, hpre⟩ := List.getLast?_eq_some_iff.mp hlast
      have ha' := hperm.mem_iff.mp ha
      unfold appended at hpre ha'
      rw [hpre] at hsorted ha'
      rcases List.mem_append.mp ha' with hin | hin
      · exact (List.pairwise_append.mp hsorted).2.2 a hin snapshot (by simp)
      · rw [List.mem_singleton.mp hin]
    cases hn : Log.newest Append.ts (appended (as.map Prod.fst) series) with
    | none =>
      rw [Log.newest_eq_none.mp hn] at hmem
      cases hmem
    | some n =>
      have hts : n.ts = snapshot.ts := le_antisymm (hmax n (Log.newest_mem hn)) (Log.le_newest hn hmem)
      unfold Prevails
      have hlast' := Log.getLast?_newest hn
      rw [hts] at hlast'
      constructor
      · rintro heq _ ⟨⟩
        rw [hlast']
        simpa [Append.point] using heq
      · intro hp
        have hp := hp snapshot rfl
        rw [hlast'] at hp
        simpa [Append.point] using hp

/-- Appends that run in the order they were spawned in leave the newest snapshot last, also among those of its time. -/
theorem Prevails.of_last {rivals : List Append} {snapshot : Append} (h : rivals.getLast? = some snapshot) :
    Prevails rivals snapshot ∧ Prevails (rivals.filter fun a => a.ts = snapshot.ts) snapshot := by
  refine ⟨by rw [Prevails, h]; rfl, ?_⟩
  obtain ⟨pre, rfl⟩ := List.getLast?_eq_some_iff.mp h
  rw [Prevails, List.filter_append, List.filter_cons_of_pos (by simp), List.filter_nil, List.getLast?_concat]
  rfl

end Readers

/-- A lake without a threshold never flushes on its own. -/
theorem Lakehouse.freshFlush_zero (block_secs : Nat) (as : List (Append × Nat)) :
    (machine 0 block_secs).Along (FreshFlush 0 block_secs) as :=
  fun _ _ _ hfull => absurd hfull.1 (lt_irrefl 0)

/-- The two layouts of the arena. -/
inductive Layout where
  | shared
  | partitioned

namespace LruCache

variable {K V : Type} [DecidableEq K] {S : Nat}

/-- The hooks a run of the cache calls. -/
def hooks (layout : Layout) (hash : K → Fin S) (total_capacity : Nat) (calls : List (Call K V)) : List (Hook K V) :=
  match layout with
  | .shared => ((Shared.machine hash total_capacity).trace calls).flatMap fun c => c.2.hooks
  | .partitioned => ((Partitioned.machine hash total_capacity).trace calls).flatMap fun c => c.2.hooks

/-- For every run of a cache in either layout and every order in which the appends it spawned ran, a reader of a key's series
gets the value persisted last exactly when the append of that value ran after its rivals: from the in-memory backend after
the other appends to the series, and from the lake, whose flushes write new files, after the other appends to the series in
the same millisecond. -/
theorem latest_persisted_iff (layout : Layout) (hash : K → Fin S) (total_capacity : Nat) (calls : List (Call K V))
    (t : Attached K V) (htime : t.timestamp_of = none) (hclock : Monotone t.clock) (key : K) (as : List (Append × Nat))
    (h : (as.map Prod.fst).Perm (t.spawned (hooks layout hash total_capacity calls))) :
    (t.ReturnsNewest (hooks layout hash total_capacity calls) (t.series_of key)
        ((InMemoryStorage.appends (as.map Prod.fst)).latest (t.series_of key) 1) ↔
      ∀ snapshot, (appended (t.spawned (hooks layout hash total_capacity calls)) (t.series_of key)).getLast? = some snapshot →
        Prevails (appended (as.map Prod.fst) (t.series_of key)) snapshot) ∧
    ∀ flush_threshold block_secs,
      (Lakehouse.machine flush_threshold block_secs).Along (Lakehouse.FreshFlush flush_threshold block_secs) as →
      (t.ReturnsNewest (hooks layout hash total_capacity calls) (t.series_of key)
          (((Lakehouse.machine flush_threshold block_secs).state as).latest (t.series_of key) 1) ↔
        ∀ snapshot, (appended (t.spawned (hooks layout hash total_capacity calls)) (t.series_of key)).getLast? = some snapshot →
          Prevails ((appended (as.map Prod.fst) (t.series_of key)).filter fun a => a.ts = snapshot.ts) snapshot) := by
  refine ⟨InMemoryStorage.returnsNewest_iff t h _, fun flush_threshold block_secs hfresh => ?_⟩
  exact Lakehouse.returnsNewest_iff t htime hclock h hfresh _

/-! ## Three puts of one key -/

/-- Bytes as keys and as values, with the given clock. -/
def bytesAttached (clock : Nat → Nat) : Attached UInt8 UInt8 := ⟨fun k => [k], fun v => [v], none, clock⟩

/-- The hooks of a cache in which one key is put three times. -/
def threePuts : List (Hook UInt8 UInt8) :=
  hooks .shared (fun _ => (0 : Fin 1)) 2 [.put 7 1, .put 7 2, .put 7 3]

/-- The two snapshots of the three puts run in the order of their puts, and both backends return the newest. -/
theorem latest_persisted_iff_threePuts :
    (bytesAttached id).ReturnsNewest threePuts [7]
      ((InMemoryStorage.appends ((bytesAttached id).spawned threePuts)).latest [7] 1) ∧
    (bytesAttached id).ReturnsNewest threePuts [7]
      (((Lakehouse.machine 0 3600).state (((bytesAttached id).spawned threePuts).map fun a => (a, 0))).latest [7] 1) := by
  have hiff := latest_persisted_iff .shared (fun _ => (0 : Fin 1)) 2 [.put 7 1, .put 7 2, .put 7 3] (bytesAttached id) rfl
    monotone_id 7 (((bytesAttached id).spawned threePuts).map fun a => (a, 0))
    (by rw [List.map_map]; exact List.Perm.of_eq (List.map_id _))
  refine ⟨hiff.1.mpr fun snapshot hs => ?_, (hiff.2 0 3600 (Lakehouse.freshFlush_zero _ _)).mpr fun snapshot hs => ?_⟩
  · exact (Prevails.of_last hs).1
  · exact (Prevails.of_last hs).2

/-- The two snapshots run in the other order: the in-memory backend returns the older one, and so does the lake where both
were taken in one millisecond. -/
theorem reversed_snapshots_return_older :
    ((bytesAttached id).spawned threePuts).reverse.Perm ((bytesAttached id).spawned threePuts) ∧
    (bytesAttached id).newestPersisted threePuts [7] = some (7, 3) ∧
    (InMemoryStorage.appends ((bytesAttached id).spawned threePuts).reverse).latest [7] 1 = [(0, [2])] ∧
    (bytesAttached fun _ => 5).newestPersisted threePuts [7] = some (7, 3) ∧
    ((Lakehouse.machine 0 3600).state
      (((bytesAttached fun _ => 5).spawned threePuts).reverse.map fun a => (a, 0))).latest [7] 1 = [(5, [2])] := by
  refine ⟨List.reverse_perm _, by decide +kernel, by decide +kernel, by decide +kernel, by decide +kernel⟩

end LruCache

end Opsense
