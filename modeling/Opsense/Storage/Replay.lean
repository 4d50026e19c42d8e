import Opsense.Storage.Inner

/-!
# Opening a store again

Every change of a store is applied to its tables and appended to the log, and a checkpoint dumps the tables before it empties
the log. So the tables that `open` rebuilds are the ones in memory (`Reopens`). The next ids of patterns and points are not
tables: a checkpoint forgets those above the last row.
-/

namespace Opsense

namespace Inner

/-- Two states with the same tables and the same buffer. -/
structure SameTables (s t : Inner) : Prop where
  nodes : s.nodes = t.nodes
  children : s.children = t.children
  roots : s.roots = t.roots
  metas : s.metas = t.metas
  keylens : s.keylens = t.keylens
  shortcuts : s.shortcuts = t.shortcuts
  edges : s.edges = t.edges
  node_metas : s.node_metas = t.node_metas
  chains : s.chains = t.chains
  patterns : s.patterns = t.patterns
  blooms : s.blooms = t.blooms
  counter : s.counter = t.counter
  ts : ∀ key, s.lake.ts.lookup key = t.lake.ts.lookup key

theorem SameTables.refl (s : Inner) : SameTables s s :=
  ⟨rfl, rfl, rfl, rfl, rfl, rfl, rfl, rfl, rfl, rfl, rfl, rfl, fun _ => rfl⟩

theorem SameTables.symm {s t : Inner} (h : SameTables s t) : SameTables t s :=
  ⟨h.nodes.symm, h.children.symm, h.roots.symm, h.metas.symm, h.keylens.symm, h.shortcuts.symm, h.edges.symm,
    h.node_metas.symm, h.chains.symm, h.patterns.symm, h.blooms.symm, h.counter.symm, fun key => (h.ts key).symm⟩

theorem SameTables.trans {s t u : Inner} (h : SameTables s t) (h' : SameTables t u) : SameTables s u :=
  ⟨h.nodes.trans h'.nodes, h.children.trans h'.children, h.roots.trans h'.roots, h.metas.trans h'.metas,
    h.keylens.trans h'.keylens, h.shortcuts.trans h'.shortcuts, h.edges.trans h'.edges, h.node_metas.trans h'.node_metas,
    h.chains.trans h'.chains, h.patterns.trans h'.patterns, h.blooms.trans h'.blooms, h.counter.trans h'.counter,
    fun key => (h.ts key).trans (h'.ts key)⟩

/-! ## The buffer -/

theorem lookup_filter {κ ν : Type} [DecidableEq κ] (ts : AList fun _ : κ => ν) (p : κ × ν → Bool)
    (hp : (ts.entries.filter fun e => p (e.1, e.2)).NodupKeys) (key : κ) :
    (⟨ts.entries.filter fun e => p (e.1, e.2), hp⟩ : AList fun _ : κ => ν).lookup key =
      (ts.lookup key).filter fun v => p (key, v) := by
  refine Option.ext fun v => ?_
  rw [← Option.mem_def, AList.mem_lookup_iff, List.mem_filter, Option.filter_eq_some_iff, ← Option.mem_def,
    AList.mem_lookup_iff]

theorem lookup_retain (ts : AList (fun _ : Bytes × Nat => Nat × Bytes)) (max_id : Nat) (key : Bytes × Nat) :
    (Lakehouse.retain ts max_id).lookup key = (ts.lookup key).filter fun v => max_id < v.1 :=
  lookup_filter ts (fun e => decide (max_id < e.2.1)) _ key

theorem lookup_dropSeries (ts : AList (fun _ : Bytes × Nat => Nat × Bytes)) (series : Bytes) (key : Bytes × Nat) :
    (Lakehouse.dropSeries ts series).lookup key = (ts.lookup key).filter fun _ => key.1 ≠ series :=
  lookup_filter ts (fun e => decide (e.1.1 ≠ series)) _ key

theorem lookup_putPoint {s t : Lakehouse} (h : ∀ key, s.ts.lookup key = t.ts.lookup key) (r : Row) (key : Bytes × Nat) :
    (s.putPoint r).ts.lookup key = (t.putPoint r).ts.lookup key := by
  unfold Lakehouse.putPoint
  dsimp only
  by_cases hk : key = (r.series, r.ts)
  · rw [hk, AList.lookup_insert, AList.lookup_insert]
  · rw [AList.lookup_insert_ne hk, AList.lookup_insert_ne hk, h]

theorem lookup_putPoints (rows : List Row) {s t : Lakehouse} (h : ∀ key, s.ts.lookup key = t.ts.lookup key)
    (key : Bytes × Nat) : (rows.foldl Lakehouse.putPoint s).ts.lookup key = (rows.foldl Lakehouse.putPoint t).ts.lookup key := by
  induction rows generalizing s t with
  | nil => exact h key
  | cons r rows ih => exact ih (lookup_putPoint h r)

/-! ## Operations -/

/-- What an operation does to the tables follows from the tables. -/
theorem SameTables.applyWalOp {s t : Inner} (h : SameTables s t) (op : WalOp) :
    SameTables (s.applyWalOp op) (t.applyWalOp op) := by
  obtain ⟨h1, h2, h3, h4, h5, h6, h7, h8, h9, h10, h11, h12, hts⟩ := h
  cases op with
  | node id pfx record => exact ⟨by simp only [Inner.applyWalOp, h1], h2, h3, h4, h5, h6, h7, h8, h9, h10, h11, h12, hts⟩
  | child p c => exact ⟨h1, by simp only [Inner.applyWalOp, h2], h3, h4, h5, h6, h7, h8, h9, h10, h11, h12, hts⟩
  | childDel p c => exact ⟨h1, by simp only [Inner.applyWalOp, h2], h3, h4, h5, h6, h7, h8, h9, h10, h11, h12, hts⟩
  | root shard root => exact ⟨h1, h2, by simp only [Inner.applyWalOp, h3], h4, h5, h6, h7, h8, h9, h10, h11, h12, hts⟩
  | «meta» record data => exact ⟨h1, h2, h3, by simp only [Inner.applyWalOp, h4], h5, h6, h7, h8, h9, h10, h11, h12, hts⟩
  | keyLen record len => exact ⟨h1, h2, h3, h4, by simp only [Inner.applyWalOp, h5], h6, h7, h8, h9, h10, h11, h12, hts⟩
  | shortcut shard elem n => exact ⟨h1, h2, h3, h4, h5, by simp only [Inner.applyWalOp, h6], h7, h8, h9, h10, h11, h12, hts⟩
  | edge id data => exact ⟨h1, h2, h3, h4, h5, h6, by simp only [Inner.applyWalOp, h7], h8, h9, h10, h11, h12, hts⟩
  | nodeMeta elem data => exact ⟨h1, h2, h3, h4, h5, h6, h7, by simp only [Inner.applyWalOp, h8], h9, h10, h11, h12, hts⟩
  | chain record chain => exact ⟨h1, h2, h3, h4, h5, h6, h7, h8, by simp only [Inner.applyWalOp, h9], h10, h11, h12, hts⟩
  | pattern p id => exact ⟨h1, h2, h3, h4, h5, h6, h7, h8, h9, by simp only [Inner.applyWalOp, h10], h11, h12, hts⟩
  | patternDel p => exact ⟨h1, h2, h3, h4, h5, h6, h7, h8, h9, by simp only [Inner.applyWalOp, h10], h11, h12, hts⟩
  | bloom id bloom => exact ⟨h1, h2, h3, h4, h5, h6, h7, h8, h9, h10, by simp only [Inner.applyWalOp, h11], h12, hts⟩
  | counter next => exact ⟨h1, h2, h3, h4, h5, h6, h7, h8, h9, h10, h11, rfl, hts⟩
  | tsPoint series ts id value => exact ⟨h1, h2, h3, h4, h5, h6, h7, h8, h9, h10, h11, h12, lookup_putPoint hts _⟩
  | tsFlush max_id =>
    refine ⟨h1, h2, h3, h4, h5, h6, h7, h8, h9, h10, h11, h12, fun key => ?_⟩
    simp only [Inner.applyWalOp, lookup_retain, hts]
  | tsReplace points => exact ⟨h1, h2, h3, h4, h5, h6, h7, h8, h9, h10, h11, h12, lookup_putPoints points fun _ => rfl⟩
  | tsClearAll => exact ⟨h1, h2, h3, h4, h5, h6, h7, h8, h9, h10, h11, h12, fun _ => rfl⟩
  | clearSeries series =>
    refine ⟨h1, h2, h3, h4, h5, h6, h7, h8, h9, h10, h11, h12, fun key => ?_⟩
    simp only [Inner.applyWalOp, lookup_dropSeries, hts]
  | clearTable table =>
    unfold Inner.applyWalOp
    dsimp only
    split_ifs
    · exact ⟨h1, h2, h3, h4, h5, h6, rfl, h8, h9, h10, h11, h12, hts⟩
    · exact ⟨h1, h2, h3, h4, h5, h6, h7, h8, rfl, h10, h11, h12, hts⟩
    · exact ⟨h1, h2, h3, h4, h5, rfl, h7, h8, h9, h10, h11, h12, hts⟩
    · exact ⟨h1, h2, h3, h4, h5, h6, h7, rfl, h9, h10, h11, h12, hts⟩
    · exact ⟨h1, h2, h3, h4, h5, h6, h7, h8, h9, rfl, h11, h12, hts⟩
    · exact ⟨h1, h2, h3, h4, h5, h6, h7, h8, h9, h10, h11, h12, hts⟩

/-- The tables that the last checkpoint and the log lead to. -/
def replayed (disk : Disk) : Inner := disk.wal.ops.foldl applyWalOp (disk.tables.getD new)

theorem sameTables_foldl (ops : List WalOp) {s t : Inner} (h : SameTables s t) :
    SameTables (ops.foldl applyWalOp s) (ops.foldl applyWalOp t) := by
  induction ops generalizing s t with
  | nil => exact h
  | cons op ops ih => exact ih (h.applyWalOp op)

theorem open_same (disk : Disk) (ts_manifest : List DeltaFile) (files : DeltaFile → Option (List Row)) :
    SameTables (open' disk ts_manifest files) (replayed disk) := by
  have hbase : SameTables { disk.tables.getD new with
      generation := max (disk.tables.getD new).generation (disk.wal.seq.getD 0) } (disk.tables.getD new) :=
    ⟨rfl, rfl, rfl, rfl, rfl, rfl, rfl, rfl, rfl, rfl, rfl, rfl, fun _ => rfl⟩
  obtain ⟨h1, h2, h3, h4, h5, h6, h7, h8, h9, h10, h11, h12, hts⟩ := sameTables_foldl disk.wal.ops hbase
  exact ⟨h1, h2, h3, h4, h5, h6, h7, h8, h9, h10, h11, h12, hts⟩

/-- The sentinel is there, and the counter is past it. -/
structure Seeded (s : Inner) : Prop where
  nodes : 0 ∈ s.nodes
  counter : 1 ≤ s.counter

theorem Seeded.applyWalOp {s : Inner} (h : s.Seeded) {op : WalOp} (hop : op ≠ .counter 0) : (s.applyWalOp op).Seeded := by
  obtain ⟨hnodes, hcounter⟩ := h
  cases op with
  | node id pfx record => exact ⟨Finmap.mem_insert.mpr (Or.inr hnodes), hcounter⟩
  | counter next => exact ⟨hnodes, Nat.one_le_iff_ne_zero.mpr fun h0 => hop (h0 ▸ rfl)⟩
  | clearTable table =>
    unfold Inner.applyWalOp
    dsimp only
    split_ifs <;> exact ⟨hnodes, hcounter⟩
  | _ => exact ⟨hnodes, hcounter⟩

/-- Loading the dump of a state whose buffer is empty gives its tables. -/
theorem reloaded_same {s : Inner} (h : s.Seeded) (hts : ∀ key, s.lake.ts.lookup key = none) : SameTables s.reloaded s := by
  have hbuffered : s.lake.buffered = [] := by
    refine List.eq_nil_iff_forall_not_mem.mpr fun r hr => ?_
    rw [Lakehouse.mem_buffered, hts] at hr
    cases hr
  refine ⟨if_pos h.nodes, rfl, rfl, rfl, rfl, rfl, rfl, rfl, rfl, rfl, rfl, if_neg (not_lt.mpr h.counter), fun key => ?_⟩
  unfold reloaded
  rw [hbuffered, hts]
  rfl

end Inner

namespace Store

/-- The tables in memory are those that opening the store again rebuilds. -/
structure Reopens (s : Store) : Prop where
  same : Inner.SameTables (Inner.replayed s.disk) s.inner
  seeded : s.inner.Seeded

theorem new_reopens : new.Reopens := ⟨Inner.SameTables.refl _, ⟨by decide, le_refl 1⟩⟩

theorem Reopens.mutate {s : Store} (h : s.Reopens) (op : WalOp) (hop : op ≠ .counter 0) : (s.mutate op).Reopens := by
  have hfold : Inner.replayed (s.mutate op).disk = (Inner.replayed s.disk).applyWalOp op := by
    simp [Inner.replayed, Store.mutate]
  obtain ⟨h1, h2, h3, h4, h5, h6, h7, h8, h9, h10, h11, h12, hts⟩ := h.same.applyWalOp op
  refine ⟨?_, (h.seeded.applyWalOp hop).nodes, (h.seeded.applyWalOp hop).counter⟩
  rw [hfold]
  exact ⟨h1, h2, h3, h4, h5, h6, h7, h8, h9, h10, h11, h12, hts⟩

theorem Reopens.reopen_same {s : Store} (h : s.Reopens) : Inner.SameTables s.reopen.inner s.inner :=
  (Inner.open_same s.disk _ _).trans h.same

theorem Reopens.reopen {s : Store} (h : s.Reopens) : s.reopen.Reopens := by
  refine ⟨(Inner.open_same s.disk s.inner.lake.ts_manifest s.inner.lake.files).symm, ?_, ?_⟩
  · rw [h.reopen_same.nodes]
    exact h.seeded.nodes
  · rw [h.reopen_same.counter]
    exact h.seeded.counter

theorem Reopens.dump {s : Store} (h : s.Reopens) (hts : ∀ key, s.inner.lake.ts.lookup key = none) : s.dump.Reopens :=
  ⟨Inner.reloaded_same (s := { s.inner with generation := s.inner.generation + 1 }) ⟨h.seeded.nodes, h.seeded.counter⟩ hts,
    h.seeded.nodes, h.seeded.counter⟩

end Store

end Opsense
