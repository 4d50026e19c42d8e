import Opsense.Lib.Machine
import Opsense.Lib.Newest
import Opsense.Lib.Text

/-!
# Timeseries backends

`TimeseriesStorage` of `opsense-mlib/src/storage.rs` in memory (`in_memory.rs`) and over Parquet files (`parquet.rs`), with
the three operations a station's cache uses: `append`, `latest` and `clear_all_series`. Each runs under the backend's lock,
so a backend takes one operation after another. The lake is its timeseries part: the buffer, the list of delta files and the
files. A file is written and read back as it is, and its write-ahead log, its checkpoints and its mirror on S3 are left out.
-/

namespace Opsense

/-- The arguments of `append`. -/
structure Append where
  series : Bytes
  ts : Nat
  value : Bytes
deriving DecidableEq, Repr

/-- The point an `append` is for. -/
def Append.point (a : Append) : Nat × Bytes := (a.ts, a.value)

/-- The points appended to a series, in the order of the appends. -/
def appended (log : List Append) (series : Bytes) : List Append := log.filter fun a => a.series = series

/-- A backend whose latest point of a series is one with the greatest time appended to it. -/
structure LatestByTime (latest : List Append → Bytes → Option (Nat × Bytes)) : Prop where
  newest : ∀ {log series p}, latest log series = some p →
    ∃ a ∈ appended log series, a.point = p ∧ ∀ a' ∈ appended log series, a'.ts ≤ a.ts
  none : ∀ {log series}, latest log series = none → appended log series = []

/-! ## In memory -/

structure InMemoryStorage where
  timeseries : AList (fun _ : Bytes => List (Nat × Bytes))

namespace InMemoryStorage

def new : InMemoryStorage := ⟨∅⟩

def append (d : InMemoryStorage) (a : Append) : InMemoryStorage :=
  ⟨d.timeseries.insert a.series ((d.timeseries.lookup a.series).getD [] ++ [a.point])⟩

def latest (d : InMemoryStorage) (series : Bytes) (limit : Nat) : List (Nat × Bytes) :=
  match d.timeseries.lookup series with
  | some pts => pts.drop (pts.length - limit)
  | none => []

def clearAllSeries (_ : InMemoryStorage) : InMemoryStorage := ⟨∅⟩

/-- The storage after its appends. -/
def appends (log : List Append) : InMemoryStorage := log.foldl append new

/-- An append puts its point at the end of its series. -/
theorem lookup_append (d : InMemoryStorage) (a : Append) (series : Bytes) :
    ((d.append a).timeseries.lookup series).getD [] =
      (d.timeseries.lookup series).getD [] ++ if a.series = series then [a.point] else [] := by
  unfold append
  dsimp only
  split_ifs with hs
  · rw [hs, AList.lookup_insert, Option.getD_some]
  · rw [AList.lookup_insert_ne (Ne.symm hs), List.append_nil]

/-- A series holds its points in the order of the appends. -/
theorem lookup_appends (log : List Append) (series : Bytes) :
    ((appends log).timeseries.lookup series).getD [] = (appended log series).map Append.point := by
  induction log using List.reverseRecOn with
  | nil => rfl
  | append_singleton log a ih =>
    have hsnoc : appends (log ++ [a]) = (appends log).append a := by simp [appends]
    rw [hsnoc, lookup_append, ih]
    unfold appended
    rw [List.filter_append, List.map_append]
    by_cases hs : a.series = series <;> simp [hs]

/-- The latest point of a series is the one appended last. -/
theorem latest_one (log : List Append) (series : Bytes) :
    (appends log).latest series 1 = ((appended log series).getLast?.map Append.point).toList := by
  have hpts := lookup_appends log series
  rw [latest]
  cases hl : (appends log).timeseries.lookup series with
  | none =>
    rw [hl, Option.getD_none] at hpts
    rw [List.map_eq_nil_iff.mp hpts.symm]
    rfl
  | some pts =>
    rw [hl, Option.getD_some] at hpts
    subst hpts
    dsimp only
    rcases List.eq_nil_or_concat (appended log series) with hnil | ⟨pre, a, hconcat⟩
    · simp [hnil]
    · rw [hconcat, List.concat_eq_append, List.getLast?_concat, List.map_append]
      simp

end InMemoryStorage

/-! ## Over Parquet files -/

/-- A row of the table `ts_points`. -/
structure Row where
  id : Nat
  series : Bytes
  ts : Nat
  value : Bytes
deriving DecidableEq, Repr

/-- The file `blk={block}/batch-{stamp}.parquet`. -/
structure DeltaFile where
  block : Nat
  stamp : Nat
deriving DecidableEq, Repr

/-- The timeseries part of `Inner`, and the files of its directory. -/
structure Lakehouse where
  ts : AList (fun _ : Bytes × Nat => Nat × Bytes)
  ts_next_id : Nat
  ts_manifest : List DeltaFile
  files : DeltaFile → Option (List Row)

/-- The block whose directory a row goes to: the series of a station's block names it. -/
def blockIdOf (block_secs : Nat) (series : Bytes) (ts : Nat) : Nat :=
  let ofTime := if 0 < block_secs then ts / block_secs else ts
  if intoBytes "blk:" <+: series then
    (parseU64 (trim ((fromUtf8 (series.drop 4)).getD []))).getD ofTime
  else ofTime

namespace Lakehouse

def new : Lakehouse where
  ts := ∅
  ts_next_id := 1
  ts_manifest := []
  files := fun _ => none

/-- The rows of the buffer in the order of their ids. -/
def buffered (s : Lakehouse) : List Row :=
  (s.ts.entries.map fun e => ⟨e.2.1, e.1.1, e.1.2, e.2.2⟩).insertionSort fun a b => a.id ≤ b.id

/-- The rows of a block. -/
def rowsOf (block_secs : Nat) (pts : List Row) (block : Nat) : List Row :=
  pts.filter fun r => blockIdOf block_secs r.series r.ts = block

/-- The blocks of the rows, in increasing order. -/
def blocksOf (block_secs : Nat) (pts : List Row) : List Nat :=
  (pts.map fun r => blockIdOf block_secs r.series r.ts).dedup.insertionSort (· ≤ ·)

/-- The entries of the buffer with a greater id. -/
def retain (ts : AList (fun _ : Bytes × Nat => Nat × Bytes)) (max_id : Nat) :
    AList (fun _ : Bytes × Nat => Nat × Bytes) :=
  ⟨ts.entries.filter fun e => max_id < e.2.1, ts.nodupKeys.sublist List.filter_sublist⟩

/-- Write the rows of each block to its file. -/
def writeFiles (block_secs stamp : Nat) (pts : List Row) (files : DeltaFile → Option (List Row)) (blocks : List Nat) :
    DeltaFile → Option (List Row) :=
  blocks.foldl (fun files b => Function.update files ⟨b, stamp⟩ (some (rowsOf block_secs pts b))) files

/-- `flush_timeseries` at the millisecond `stamp`: the buffer goes to one file for each block. A value that is not UTF-8
panics before the file of its block is written, and the manifest and the buffer stay as they are. -/
def flushTimeseries (block_secs stamp : Nat) (s : Lakehouse) : Lakehouse :=
  let pts := s.buffered
  match pts.getLast? with
  | none => s
  | some last =>
    let blocks := blocksOf block_secs pts
    let written := blocks.takeWhile fun b => (rowsOf block_secs pts b).all fun r => (fromUtf8 r.value).isSome
    let files := writeFiles block_secs stamp pts s.files written
    if written = blocks then
      { s with
        ts := retain s.ts last.id
        ts_manifest := s.ts_manifest ++ written.map fun b => ⟨b, stamp⟩
        files }
    else { s with files }

/-- The buffer after an append, before it is flushed. -/
def bufferPoint (s : Lakehouse) (a : Append) : Lakehouse :=
  { s with ts := s.ts.insert (a.series, a.ts) (s.ts_next_id, a.value), ts_next_id := s.ts_next_id + 1 }

/-- The buffer reached the threshold, if there is one. -/
def Full (flush_threshold : Nat) (s : Lakehouse) : Prop :=
  0 < flush_threshold ∧ flush_threshold ≤ s.ts.entries.length

instance (flush_threshold : Nat) (s : Lakehouse) : Decidable (Full flush_threshold s) := by
  unfold Full; infer_instance

/-- `append`, which flushes a full buffer at the millisecond `stamp`. -/
def append (flush_threshold block_secs : Nat) (s : Lakehouse) (a : Append) (stamp : Nat) : Lakehouse :=
  let s := s.bufferPoint a
  if Full flush_threshold s then s.flushTimeseries block_secs stamp else s

/-- A point of the merge: the sequence number of its file, its id and its value. -/
abbrev Merged := AList (fun _ : Bytes × Nat => Nat × Nat × Bytes)

/-- Merge a row of the file `fi`. -/
def mergeRow (fi : Nat) (map : Merged) (row : Row) : Merged :=
  match map.lookup (row.series, row.ts) with
  | some (f, i, _) => if f < fi ∨ (f = fi ∧ i < row.id) then map.insert (row.series, row.ts) (fi, row.id, row.value) else map
  | none => map.insert (row.series, row.ts) (fi, row.id, row.value)

/-- Merge a file of the manifest, if it is there. -/
def mergeFile (files : DeltaFile → Option (List Row)) (map : Merged) (rel : DeltaFile × Nat) : Merged :=
  ((files rel.1).getD []).foldl (mergeRow rel.2) map

/-- The points of the files. -/
def mergedFiles (s : Lakehouse) : Merged := s.ts_manifest.zipIdx.foldl (mergeFile s.files) ∅

/-- `merged_ts`: the points of the files, and those of the buffer over them. -/
def mergedTs (s : Lakehouse) : Merged :=
  s.ts.entries.foldl (fun map e => map.insert e.1 (2 ^ 64 - 1, e.2.1, e.2.2)) s.mergedFiles

/-- The merged points of a series. -/
def points (s : Lakehouse) (series : Bytes) : List (Nat × Bytes) :=
  (s.mergedTs.entries.filter fun e => e.1.1 = series).map fun e => (e.1.2, e.2.2.2)

def latest (s : Lakehouse) (series : Bytes) (limit : Nat) : List (Nat × Bytes) :=
  (((s.points series).insertionSort fun a b => b.1 ≤ a.1).take limit).reverse

def clearAllSeries (s : Lakehouse) : Lakehouse where
  ts := ∅
  ts_next_id := 1
  ts_manifest := []
  files := fun rel => if rel ∈ s.ts_manifest then none else s.files rel

/-- The lake over its appends, each with the millisecond of the flush it may cause. -/
def machine (flush_threshold block_secs : Nat) : Machine Lakehouse (Append × Nat) Unit :=
  ⟨new, fun s a => (s.append flush_threshold block_secs a.1 a.2, ())⟩

end Lakehouse

end Opsense
