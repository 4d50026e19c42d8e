import Opsense.Storage.Idempotent

/-!
# Clearing a series, stopped anywhere

`clear_series` removes the delta files, then writes an empty manifest, then logs the points that are left of the other series,
and then flushes these. The other series keep their points when the process stops on the way exactly when every point of them
that a file holds is in the buffer as well.
-/

namespace Opsense

/-- What is on disk besides the tables: the manifest, the delta files and the log. -/
structure LakeDisk where
  manifest : List DeltaFile
  files : DeltaFile → Option (List Row)
  wal : Wal

/-- A write to the disk. -/
inductive DiskWrite where
  | remove (rel : DeltaFile)
  | write (rel : DeltaFile) (rows : List Row)
  | manifest (rels : List DeltaFile)
  | log (op : WalOp)

namespace LakeDisk

def apply (d : LakeDisk) : DiskWrite → LakeDisk
  | .remove rel => { d with files := Function.update d.files rel none }
  | .write rel rows => { d with files := Function.update d.files rel (some rows) }
  | .manifest rels => { d with manifest := rels }
  | .log op => { d with wal := { d.wal with ops := d.wal.ops ++ [op] } }

/-- The disk after the first `k` of the writes. -/
def after (d : LakeDisk) (ws : List DiskWrite) (k : Nat) : LakeDisk := (ws.take k).foldl apply d

end LakeDisk

/-- The files without some of them. -/
def removed (rels : List DeltaFile) (files : DeltaFile → Option (List Row)) (rel : DeltaFile) : Option (List Row) :=
  if rel ∈ rels then none else files rel

/-- What a flush writes: the files of the blocks, and when none of them is refused the manifest and the log. -/
def flushWrites (block_secs stamp : Nat) (lake : Lakehouse) : List DiskWrite :=
  match lake.buffered.getLast? with
  | none => []
  | some last =>
    let blocks := Lakehouse.blocksOf block_secs lake.buffered
    let written := blocks.takeWhile fun b => (Lakehouse.rowsOf block_secs lake.buffered b).all fun r => (fromUtf8 r.value).isSome
    written.map (fun b => .write ⟨b, stamp⟩ (Lakehouse.rowsOf block_secs lake.buffered b)) ++
      if written = blocks then [.manifest (lake.ts_manifest ++ written.map fun b => ⟨b, stamp⟩), .log (.tsFlush last.id)] else []

namespace Store

/-- The points of the other series, as `clear_series` keeps them. -/
def keptRows (s : Store) (series : Bytes) : List Row :=
  (s.inner.lake.mergedTs.entries.filter fun e => e.1.1 ≠ series).zipIdx.map fun e =>
    ⟨s.inner.lake.ts_next_id + e.2, e.1.1.1, e.1.1.2, e.1.2.2.2⟩

/-- The lake of which `clear_series` flushes the buffer. -/
def keptLake (s : Store) (series : Bytes) : Lakehouse :=
  (s.keptRows series).foldl Lakehouse.putPoint
    { ts := ∅, ts_next_id := s.inner.lake.ts_next_id + (s.keptRows series).length, ts_manifest := [],
      files := removed s.inner.lake.ts_manifest s.inner.lake.files }

/-- What `clear_series` writes. -/
def clearWrites (block_secs stamp : Nat) (s : Store) (series : Bytes) : List DiskWrite :=
  s.inner.lake.ts_manifest.map DiskWrite.remove ++
    .manifest [] :: .log (.tsReplace (s.keptRows series)) :: flushWrites block_secs stamp (s.keptLake series)

def lakeDisk (s : Store) : LakeDisk := ⟨s.inner.lake.ts_manifest, s.inner.lake.files, s.disk.wal⟩

/-- The store as it is opened again on this disk. -/
def openAt (s : Store) (d : LakeDisk) : Inner := Inner.open' ⟨s.disk.tables, d.wal⟩ d.manifest d.files

end Store

/-! ## The writes of a flush and of a clearing -/

theorem foldl_remove (rels : List DeltaFile) (d : LakeDisk) :
    (rels.map DiskWrite.remove).foldl LakeDisk.apply d = { d with files := removed rels d.files } := by
  induction rels generalizing d with
  | nil =>
    have hnone : removed [] d.files = d.files := funext fun rel => if_neg List.not_mem_nil
    rw [hnone]
    rfl
  | cons rel rels ih =>
    rw [List.map_cons, List.foldl_cons, ih]
    unfold LakeDisk.apply
    dsimp only
    congr 1
    funext rel'
    unfold removed
    by_cases hrel : rel' = rel <;> simp [hrel]

theorem foldl_write (block_secs stamp : Nat) (pts : List Row) (blocks : List Nat) (d : LakeDisk) :
    (blocks.map fun b => DiskWrite.write ⟨b, stamp⟩ (Lakehouse.rowsOf block_secs pts b)).foldl LakeDisk.apply d =
      { d with files := Lakehouse.writeFiles block_secs stamp pts d.files blocks } := by
  induction blocks generalizing d with
  | nil => rfl
  | cons b blocks ih =>
    rw [List.map_cons, List.foldl_cons, ih]
    rfl

/-- What is on disk when a flush stops: some of the files, or all of them and the manifest, and the log or not. -/
theorem flushWrites_after (block_secs stamp : Nat) (lake : Lakehouse) (wal : Wal) (k : Nat) :
    (∃ written, written ⊆ Lakehouse.blocksOf block_secs lake.buffered ∧
      LakeDisk.after ⟨lake.ts_manifest, lake.files, wal⟩ (flushWrites block_secs stamp lake) k =
        ⟨lake.ts_manifest, Lakehouse.writeFiles block_secs stamp lake.buffered lake.files written, wal⟩) ∨
    ∃ last, lake.buffered.getLast? = some last ∧ ∃ ops ∈ [[], [WalOp.tsFlush last.id]],
      LakeDisk.after ⟨lake.ts_manifest, lake.files, wal⟩ (flushWrites block_secs stamp lake) k =
        ⟨lake.ts_manifest ++ (Lakehouse.blocksOf block_secs lake.buffered).map fun b => ⟨b, stamp⟩,
          Lakehouse.writeFiles block_secs stamp lake.buffered lake.files (Lakehouse.blocksOf block_secs lake.buffered),
          { wal with ops := wal.ops ++ ops }⟩ := by
  unfold LakeDisk.after flushWrites
  cases hlast : lake.buffered.getLast? with
  | none => exact Or.inl ⟨[], List.nil_subset _, by simp [Lakehouse.writeFiles]⟩
  | some last =>
    dsimp only
    generalize hwritten : (Lakehouse.blocksOf block_secs lake.buffered).takeWhile (fun b =>
      (Lakehouse.rowsOf block_secs lake.buffered b).all fun r => (fromUtf8 r.value).isSome) = written
    have hsub : written ⊆ Lakehouse.blocksOf block_secs lake.buffered := hwritten ▸ List.takeWhile_subset _
    rw [List.take_append, List.foldl_append, ← List.map_take, foldl_write, List.length_map]
    have htake : written.take k ⊆ Lakehouse.blocksOf block_secs lake.buffered := fun b hb => hsub (List.take_subset k written hb)
    split_ifs with hall
    · cases hrest : k - written.length with
      | zero => exact Or.inl ⟨written.take k, htake, rfl⟩
      | succ i =>
        -- the files are all written, and the manifest
        have hle : written.length ≤ k := by omega
        rw [List.take_of_length_le hle, hall]
        refine Or.inr ⟨last, rfl, ?_⟩
        cases i with
        | zero => exact ⟨[], by simp, by simp [LakeDisk.apply]⟩
        | succ i => exact ⟨[.tsFlush last.id], by simp, by simp [LakeDisk.apply]⟩
    · rw [List.take_nil, List.foldl_nil]
      exact Or.inl ⟨written.take k, htake, rfl⟩

namespace Store

theorem clearSeries_eq (block_secs stamp : Nat) (s : Store) (series : Bytes) : s.clearSeries block_secs stamp series =
    ({ s with inner := { s.inner with lake := { s.inner.lake with
        ts_next_id := s.inner.lake.ts_next_id + (s.keptRows series).length
        ts_manifest := []
        files := removed s.inner.lake.ts_manifest s.inner.lake.files } } }.mutate
          (.tsReplace (s.keptRows series))).flushTimeseries block_secs stamp := rfl

theorem putPoints_rest (rows : List Row) (lake : Lakehouse) :
    (rows.foldl Lakehouse.putPoint lake).ts_manifest = lake.ts_manifest ∧ (rows.foldl Lakehouse.putPoint lake).files = lake.files := by
  induction rows generalizing lake with
  | nil => exact ⟨rfl, rfl⟩
  | cons r rows ih => exact ih (lake.putPoint r)

/-- The lake that a clearing flushes. -/
theorem clearSeries_lake (block_secs stamp : Nat) (s : Store) (series : Bytes) :
    (s.clearSeries block_secs stamp series).inner.lake = (s.keptLake series).flushTimeseries block_secs stamp := by
  rw [clearSeries_eq, lake_flush]
  rfl

/-- All the writes of a flush are what it leaves on disk. -/
theorem flushWrites_all (block_secs stamp : Nat) (s : Store) :
    (flushWrites block_secs stamp s.inner.lake).foldl LakeDisk.apply s.lakeDisk = (s.flushTimeseries block_secs stamp).lakeDisk := by
  unfold flushWrites Store.flushTimeseries
  cases hlast : s.inner.lake.buffered.getLast? with
  | none => rfl
  | some last =>
    dsimp only
    rw [List.foldl_append, foldl_write]
    split_ifs with hall hpanics hpanics
    · exact absurd hpanics (written_all.mp hall)
    · unfold lakeDisk mutate Inner.applyWalOp
      dsimp only
      rw [flush_of_utf8 block_secs stamp hlast hpanics, hall]
      rfl
    · unfold lakeDisk Lakehouse.flushTimeseries
      dsimp only
      rw [hlast]
      dsimp only
      rw [if_neg hall]
      rfl
    · exact absurd (written_all.mpr hpanics) hall

/-- All the writes of a clearing are what it leaves on disk. -/
theorem clearWrites_all (block_secs stamp : Nat) (s : Store) (series : Bytes) :
    (s.clearWrites block_secs stamp series).foldl LakeDisk.apply s.lakeDisk =
      (s.clearSeries block_secs stamp series).lakeDisk := by
  rw [clearSeries_eq, ← flushWrites_all]
  unfold clearWrites
  rw [List.foldl_append, List.foldl_cons, List.foldl_cons, foldl_remove]
  obtain ⟨hmanifest, hfiles⟩ := putPoints_rest (s.keptRows series)
    { s.inner.lake with
      ts := ∅
      ts_next_id := s.inner.lake.ts_next_id + (s.keptRows series).length
      ts_manifest := []
      files := removed s.inner.lake.ts_manifest s.inner.lake.files }
  unfold lakeDisk mutate Inner.applyWalOp
  dsimp only
  rw [hmanifest, hfiles]
  rfl

/-! ## The files -/

/-- Operations leave the files and the manifest. -/
theorem mutates_files (ops : List WalOp) (s : Store) :
    (ops.foldl mutate s).inner.lake.ts_manifest = s.inner.lake.ts_manifest ∧
    (ops.foldl mutate s).inner.lake.files = s.inner.lake.files := by
  induction ops generalizing s with
  | nil => exact ⟨rfl, rfl⟩
  | cons op ops ih =>
    have hop : (s.mutate op).inner.lake.ts_manifest = s.inner.lake.ts_manifest ∧
        (s.mutate op).inner.lake.files = s.inner.lake.files := by
      unfold mutate
      cases op with
      | tsReplace points => exact putPoints_rest points _
      | clearTable table => rw [Inner.applyWalOp_clearTable]; exact ⟨rfl, rfl⟩
      | _ => exact ⟨rfl, rfl⟩
    exact ⟨(ih _).1.trans hop.1, (ih _).2.trans hop.2⟩

theorem apart_flush {lake : Lakehouse} (h : lake.RowsApart) (block_secs stamp : Nat) :
    (lake.flushTimeseries block_secs stamp).RowsApart := by
  have hwritten := fun blocks => @Lakehouse.rowsApart_writeFiles block_secs stamp lake h blocks
  rcases Lakehouse.flush_cases block_secs stamp lake with heq | ⟨last, -, heq⟩ | ⟨written, -, heq⟩
  · rw [heq]
    exact h
  · rw [heq]
    exact hwritten _
  · rw [heq]
    exact hwritten _

theorem apart_removed {files : DeltaFile → Option (List Row)}
    (h : ∀ rel, (((files rel).getD []).map Lakehouse.Row.key).Nodup) (rels : List DeltaFile) (rel : DeltaFile) :
    (((removed rels files rel).getD []).map Lakehouse.Row.key).Nodup := by
  unfold removed
  split_ifs
  · exact List.nodup_nil
  · exact h rel

theorem apart_keptLake {s : Store} (h : s.inner.lake.RowsApart) (series : Bytes) : (s.keptLake series).RowsApart := by
  unfold Lakehouse.RowsApart keptLake
  rw [(putPoints_rest _ _).2]
  exact apart_removed h _

theorem apart_lakeStep {s : Store} (h : s.inner.lake.RowsApart) (flush_threshold block_secs : Nat) (a : LakeAct) :
    (s.lakeStep flush_threshold block_secs a).inner.lake.RowsApart := by
  have hwrite : ∀ w, (s.write w).inner.lake.files = s.inner.lake.files := by
    intro w
    obtain ⟨ops, heq, -⟩ := s.write_records w
    rw [heq]
    exact (mutates_files ops s).2
  unfold Lakehouse.RowsApart at h ⊢
  cases a with
  | write w =>
    rw [Store.lakeStep, hwrite]
    exact h
  | stop w k =>
    change ∀ rel, ((((s.write w).inner.lake.files rel).getD []).map Lakehouse.Row.key).Nodup
    rw [hwrite]
    exact h
  | ts a =>
    cases a with
    | append a stamp =>
      change (s.append flush_threshold block_secs a stamp).inner.lake.RowsApart
      rw [lake_append]
      unfold Lakehouse.append
      dsimp only
      split_ifs
      · have happart : (s.inner.lake.bufferPoint a).RowsApart := h
        exact apart_flush happart block_secs stamp
      · exact h
    | flush stamp =>
      change (s.flushTimeseries block_secs stamp).inner.lake.RowsApart
      rw [lake_flush]
      exact apart_flush h block_secs stamp
    | checkpoint stamp =>
      have hflush : (s.flushTimeseries block_secs stamp).inner.lake.RowsApart := by
        rw [lake_flush]
        exact apart_flush h block_secs stamp
      change (s.snapshot block_secs stamp).inner.lake.RowsApart
      unfold Store.snapshot
      split_ifs
      · exact hflush
      · exact hflush
    | reopen => exact h
  | clearSeries series stamp =>
    change (s.clearSeries block_secs stamp series).inner.lake.RowsApart
    rw [clearSeries_lake]
    exact apart_flush (apart_keptLake h series) block_secs stamp
  | clearAllSeries => exact apart_removed h s.inner.lake.ts_manifest
  | retain keep_after_ts =>
    change (s.retainBlockPartitions block_secs keep_after_ts).inner.lake.RowsApart
    unfold Store.retainBlockPartitions
    dsimp only
    split_ifs
    · exact h
    · exact apart_removed h _

/-- Every file of every reachable store has each key once. -/
theorem apart_run (flush_threshold block_secs : Nat) (as : List LakeAct) :
    ((lakeMachine flush_threshold block_secs).state as).inner.lake.RowsApart :=
  Machine.invariant (M := lakeMachine flush_threshold block_secs) (I := fun s => s.inner.lake.RowsApart)
    (fun _ => List.nodup_nil) (fun _ a h => apart_lakeStep h flush_threshold block_secs a) as

/-! ## Opening again -/

variable {s : Store}

/-- What is answered after opening again, from the operations that were logged and the files. -/
theorem answer_openAt (h : s.Reopens) {d : LakeDisk} (ops : List WalOp) (hops : d.wal.ops = s.disk.wal.ops ++ ops)
    (hfiles : ∀ rel, (((d.files rel).getD []).map Lakehouse.Row.key).Nodup) (key : Bytes × Nat) :
    (s.openAt d).lake.answer key =
      (((ops.foldl Inner.applyWalOp s.inner).lake.ts.lookup key).map Prod.snd).or (Lakehouse.filed d.files d.manifest key) := by
  have hopen := Inner.open_same ⟨s.disk.tables, d.wal⟩ d.manifest d.files
  have hreplayed : Inner.SameTables (Inner.replayed ⟨s.disk.tables, d.wal⟩) (ops.foldl Inner.applyWalOp s.inner) := by
    unfold Inner.replayed
    dsimp only
    rw [hops, List.foldl_append]
    exact Inner.sameTables_foldl ops h.same
  have happart : (s.openAt d).lake.RowsApart := hfiles
  rw [Lakehouse.answer_eq happart, ← (hopen.trans hreplayed).ts key]
  rfl

/-- The rows that are kept, numbered. -/
theorem rowAt_numbered (es : List (Sigma fun _ : Bytes × Nat => Nat × Nat × Bytes)) (n i : Nat) (key : Bytes × Nat) :
    (Lakehouse.rowAt ((es.zipIdx i).map fun e => (⟨n + e.2, e.1.1.1, e.1.1.2, e.1.2.2.2⟩ : Row)) key).map Row.value =
      (es.dlookup key).map fun p => p.2.2 := by
  induction es generalizing i with
  | nil => rfl
  | cons e es ih =>
    rw [List.zipIdx_cons, List.map_cons]
    by_cases hkey : e.1 = key
    · subst hkey
      rw [List.dlookup_cons_eq, Lakehouse.rowAt, List.find?_cons_of_pos (by simp [Lakehouse.Row.key])]
      rfl
    · rw [List.dlookup_cons_ne _ _ (Ne.symm hkey), ← ih (i + 1), Lakehouse.rowAt,
        List.find?_cons_of_neg (by simpa [Lakehouse.Row.key] using hkey)]
      rfl

/-- The buffer that a clearing flushes holds what the lake answers for the other series. -/
theorem keptLake_lookup (s : Store) (series : Bytes) (key : Bytes × Nat) :
    ((s.keptLake series).ts.lookup key).map Prod.snd = if key.1 = series then none else s.inner.lake.answer key := by
  have hes : (s.inner.lake.mergedTs.entries.filter fun e => e.1.1 ≠ series).NodupKeys :=
    s.inner.lake.mergedTs.nodupKeys.sublist List.filter_sublist
  have hkeys : (s.keptRows series).map Lakehouse.Row.key =
      (s.inner.lake.mergedTs.entries.filter fun e => e.1.1 ≠ series).map Sigma.fst := by
    unfold keptRows
    rw [List.map_map]
    conv_rhs => rw [← List.zipIdx_map_fst 0 (s.inner.lake.mergedTs.entries.filter _), List.map_map]
    rfl
  have hnodup : ((s.keptRows series).map Lakehouse.Row.key).Nodup := by
    rw [hkeys]
    exact hes
  have hlookup := Inner.lookup_filter s.inner.lake.mergedTs (fun e => decide (e.1.1 ≠ series)) hes key
  unfold keptLake
  rw [Inner.lookup_putPoints_nodup hnodup, AList.lookup_empty, Option.or_none, Option.map_map]
  refine (rowAt_numbered _ _ 0 key).trans ?_
  change Option.map (fun p => p.2.2) (AList.lookup key ⟨_, hes⟩) = _
  rw [hlookup]
  unfold Lakehouse.answer Lakehouse.value
  by_cases hseries : key.1 = series
  · rw [if_pos hseries]
    cases s.inner.lake.mergedTs.lookup key <;> simp [hseries]
  · rw [if_neg hseries]
    cases s.inner.lake.mergedTs.lookup key <;> simp [hseries]

/-! ## Stopping -/

/-- A clearing that stops has removed some of the files, or all of them and perhaps emptied the manifest, or has logged the points
that are kept and stops in their flush. -/
theorem clearWrites_after (block_secs stamp : Nat) (s : Store) (series : Bytes) (k : Nat) :
    (∃ rels, s.lakeDisk.after (s.clearWrites block_secs stamp series) k =
      ⟨s.inner.lake.ts_manifest, removed rels s.inner.lake.files, s.disk.wal⟩) ∨
    s.lakeDisk.after (s.clearWrites block_secs stamp series) k =
      ⟨[], removed s.inner.lake.ts_manifest s.inner.lake.files, s.disk.wal⟩ ∨
    ∃ i, s.lakeDisk.after (s.clearWrites block_secs stamp series) k =
      LakeDisk.after ⟨(s.keptLake series).ts_manifest, (s.keptLake series).files,
        { s.disk.wal with ops := s.disk.wal.ops ++ [.tsReplace (s.keptRows series)] }⟩
        (flushWrites block_secs stamp (s.keptLake series)) i := by
  have hkept := putPoints_rest (s.keptRows series)
    { ts := ∅, ts_next_id := s.inner.lake.ts_next_id + (s.keptRows series).length, ts_manifest := [],
      files := removed s.inner.lake.ts_manifest s.inner.lake.files }
  unfold LakeDisk.after clearWrites
  rw [List.take_append, List.foldl_append, ← List.map_take, foldl_remove, List.length_map]
  cases hrest : k - s.inner.lake.ts_manifest.length with
  | zero => exact Or.inl ⟨s.inner.lake.ts_manifest.take k, rfl⟩
  | succ i =>
    have hle : s.inner.lake.ts_manifest.length ≤ k := by omega
    rw [List.take_of_length_le hle]
    cases i with
    | zero => exact Or.inr (Or.inl rfl)
    | succ i =>
      refine Or.inr (Or.inr ⟨i, ?_⟩)
      rw [List.take_succ_cons, List.take_succ_cons, List.foldl_cons, List.foldl_cons]
      unfold keptLake
      rw [hkept.1, hkept.2]
      rfl

/-- Between the manifest and the log nothing but the buffer is left. -/
theorem clearWrites_emptied (block_secs stamp : Nat) (s : Store) (series : Bytes) :
    s.lakeDisk.after (s.clearWrites block_secs stamp series) (s.inner.lake.ts_manifest.length + 1) =
      ⟨[], removed s.inner.lake.ts_manifest s.inner.lake.files, s.disk.wal⟩ := by
  unfold LakeDisk.after clearWrites
  rw [List.take_append, List.foldl_append, List.take_of_length_le (by simp), foldl_remove, List.length_map,
    Nat.add_sub_cancel_left]
  rfl

/-- From the logging of the kept points on, the answers for the other series are those there were. -/
theorem answer_kept (h : s.Reopens) (happart : s.inner.lake.RowsApart) (block_secs stamp : Nat) (series : Bytes) (i : Nat)
    {key : Bytes × Nat} (hkey : key.1 ≠ series) :
    (s.openAt (LakeDisk.after ⟨(s.keptLake series).ts_manifest, (s.keptLake series).files,
      { s.disk.wal with ops := s.disk.wal.ops ++ [.tsReplace (s.keptRows series)] }⟩
      (flushWrites block_secs stamp (s.keptLake series)) i)).lake.answer key = s.inner.lake.answer key := by
  have hkept := s.keptLake_lookup series key
  rw [if_neg hkey] at hkept
  have hmanifest : (s.keptLake series).ts_manifest = [] := (putPoints_rest _ _).1
  have hreplaced : ((s.inner.applyWalOp (.tsReplace (s.keptRows series))).lake.ts.lookup key) = (s.keptLake series).ts.lookup key := by
    unfold keptLake
    exact Inner.lookup_putPoints (s.keptRows series) (fun _ => by rfl) key
  have hfiles : ∀ written rel, (((Lakehouse.writeFiles block_secs stamp (s.keptLake series).buffered (s.keptLake series).files
      written rel).getD []).map Lakehouse.Row.key).Nodup :=
    Lakehouse.rowsApart_writeFiles (apart_keptLake happart series)
  rcases flushWrites_after block_secs stamp (s.keptLake series)
    { s.disk.wal with ops := s.disk.wal.ops ++ [.tsReplace (s.keptRows series)] } i with
    ⟨written, -, heq⟩ | ⟨last, hlast, ops, hops, heq⟩
  · rw [heq, answer_openAt h [_] rfl (hfiles written) key, List.foldl_cons, List.foldl_nil, hreplaced, hkept]
    dsimp only
    rw [hmanifest]
    exact Option.or_none
  · -- the points are in the new files, whether the buffer is emptied or not
    have hfiled := @Lakehouse.filed_written block_secs stamp (s.keptLake series).buffered
      (s.keptLake series).files key
    rw [Lakehouse.rowAt_buffered, hkept] at hfiled
    have hlog : s.disk.wal.ops ++ [.tsReplace (s.keptRows series)] ++ ops =
      s.disk.wal.ops ++ (.tsReplace (s.keptRows series) :: ops) := by simp
    rw [heq, answer_openAt h _ hlog (hfiles _) key]
    dsimp only
    rw [hmanifest, List.nil_append, hfiled]
    rw [List.foldl_cons]
    rcases List.mem_cons.mp hops with rfl | hops
    · rw [List.foldl_nil, hreplaced, hkept, Option.or_self]
    · obtain rfl := List.mem_singleton.mp hops
      have hretained : (Lakehouse.retain (s.inner.applyWalOp (.tsReplace (s.keptRows series))).lake.ts last.id).lookup key =
          (Lakehouse.retain (s.keptLake series).ts last.id).lookup key := by
        rw [Inner.lookup_retain, Inner.lookup_retain, hreplaced]
      have hemptied := hretained.trans (Lakehouse.retain_last hlast key)
      change (Option.map Prod.snd ((Lakehouse.retain _ last.id).lookup key)).or _ = _
      rw [hemptied]
      rfl

end Store

/-- A key is filed when a listed file has a row under it. -/
theorem filed_isSome {files : DeltaFile → Option (List Row)} {manifest : List DeltaFile} {key : Bytes × Nat} :
    (Lakehouse.filed files manifest key).isSome ↔ ∃ rel ∈ manifest, ∃ r ∈ (files rel).getD [], Lakehouse.Row.key r = key := by
  unfold Lakehouse.filed Lakehouse.rowAt
  rw [List.findSome?_isSome_iff]
  simp

/-- After a crash at any step of a clearing the other series have all their points exactly when every point of theirs that a
listed file holds is in the buffer as well. -/
theorem clear_crash_iff (flush_threshold block_secs stamp : Nat) (as : List LakeAct) (series : Bytes) :
    let s := (Store.lakeMachine flush_threshold block_secs).state as
    (∀ k y, y ≠ series → ∀ p, p ∈ (s.openAt (s.lakeDisk.after (s.clearWrites block_secs stamp series) k)).lake.points y ↔
      p ∈ s.inner.lake.points y) ↔
    ∀ rel ∈ s.inner.lake.ts_manifest, ∀ r ∈ (s.inner.lake.files rel).getD [], r.series ≠ series →
      (s.inner.lake.ts.lookup (r.series, r.ts)).isSome := by
  intro s
  have h : s.Reopens := Store.reopens flush_threshold block_secs as
  have happart : s.inner.lake.RowsApart := Store.apart_run flush_threshold block_secs as
  have hanswer := Lakehouse.answer_eq happart
  have hbefore : ∀ manifest rels key, (s.openAt ⟨manifest, removed rels s.inner.lake.files, s.disk.wal⟩).lake.answer key =
      ((s.inner.lake.ts.lookup key).map Prod.snd).or (Lakehouse.filed (removed rels s.inner.lake.files) manifest key) :=
    fun manifest rels key => Store.answer_openAt h [] (List.append_nil _).symm (Store.apart_removed happart rels) key
  constructor
  · intro hall rel hrel r hr hne
    -- the process stops after the manifest is emptied, where only the buffer is left
    have hfiled := filed_isSome.mpr ⟨rel, hrel, r, hr, rfl⟩
    have hsome : (s.inner.lake.answer (r.series, r.ts)).isSome := by
      rw [hanswer, Option.isSome_or]
      exact Bool.or_eq_true_iff.mpr (Or.inr hfiled)
    obtain ⟨value, hvalue⟩ := Option.isSome_iff_exists.mp hsome
    have hmem := (hall (s.inner.lake.ts_manifest.length + 1) r.series hne (r.ts, value)).mpr (Lakehouse.mem_points.mpr hvalue)
    rw [Store.clearWrites_emptied, Lakehouse.mem_points, hbefore] at hmem
    have hbuffer := Option.isSome_of_eq_some hmem
    rwa [show Lakehouse.filed _ [] _ = none from rfl, Option.or_none, Option.isSome_map] at hbuffer
  · intro hbuffered k y hne p
    rw [Lakehouse.mem_points, Lakehouse.mem_points]
    -- with the files or without them, the buffer answers
    have hsame : ∀ manifest rels, manifest ⊆ s.inner.lake.ts_manifest →
        (s.openAt ⟨manifest, removed rels s.inner.lake.files, s.disk.wal⟩).lake.answer (y, p.1) =
          s.inner.lake.answer (y, p.1) := by
      intro manifest rels hsub
      rw [hbefore, hanswer]
      cases hbuffer : s.inner.lake.ts.lookup (y, p.1) with
      | some v => rfl
      | none =>
        have hnone : ¬∃ rel ∈ s.inner.lake.ts_manifest, ∃ r ∈ (s.inner.lake.files rel).getD [], Lakehouse.Row.key r = (y, p.1) := by
          rintro ⟨rel, hrel, r, hr, hkey⟩
          have hsome := hbuffered rel hrel r hr (fun hseries => hne ((Prod.mk.inj hkey).1 ▸ hseries))
          rw [show (r.series, r.ts) = (y, p.1) from hkey, hbuffer] at hsome
          cases hsome
        have hremoved : ¬∃ rel ∈ manifest, ∃ r ∈ (removed rels s.inner.lake.files rel).getD [], Lakehouse.Row.key r = (y, p.1) := by
          rintro ⟨rel, hrel, r, hr, hkey⟩
          unfold removed at hr
          split_ifs at hr
          · exact absurd hr List.not_mem_nil
          · exact hnone ⟨rel, hsub hrel, r, hr, hkey⟩
        rw [← filed_isSome, Option.not_isSome_iff_eq_none] at hnone hremoved
        rw [hnone, hremoved]
    rcases Store.clearWrites_after block_secs stamp s series k with ⟨rels, heq⟩ | heq | ⟨i, heq⟩
    · rw [heq, hsame _ rels (List.Subset.refl _)]
    · rw [heq, hsame [] _ (List.nil_subset _)]
    · rw [heq, Store.answer_kept h happart block_secs stamp series i hne]

/-- A point of the series `a` is flushed, the series `b` is cleared, and the process stops before the kept points are logged. -/
theorem point_lost_in_crash :
    let s := (Store.lakeMachine 0 10).state [.ts (.append ⟨[97], 1, [120]⟩ 1), .ts (.flush 2)]
    ¬∀ k y, y ≠ [98] → ∀ p, p ∈ (s.openAt (s.lakeDisk.after (s.clearWrites 10 3 [98]) k)).lake.points y ↔
      p ∈ s.inner.lake.points y := by
  intro s hall
  have hpoint : (1, [120]) ∈ s.inner.lake.points [97] := by decide +kernel
  have hlost : (1, [120]) ∉ (s.openAt (s.lakeDisk.after (s.clearWrites 10 3 [98]) 2)).lake.points [97] := by decide +kernel
  exact hlost ((hall 2 [97] (by decide) (1, [120])).mpr hpoint)

end Opsense
