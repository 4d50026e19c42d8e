import Opsense.Storage.Lake

/-!
# The state of a Parquet store

`Inner` of `opsense-mlib/src/storage/parquet.rs`: the tables of the store, the one function that changes them
(`apply_wal_op`), the checkpoint that dumps them, and `open`, which loads the last checkpoint and applies the operations of
the write-ahead log. A table file is written and read back as it is. The log is given by its operations, and what its bytes
are is in `Wal`. Every map is a `Finmap`, since nothing depends on the order of a `HashMap`, and no list of shortcuts is empty.
-/

namespace Opsense

/-- A `HashMap`. -/
abbrev Table (κ ν : Type) := Finmap fun _ : κ => ν

inductive WalOp where
  | node (id : Nat) (pfx : Bytes) (record : Nat)
  | child (parent child : Nat)
  | childDel (parent child : Nat)
  | root (shard root : Nat)
  | «meta» (record : Nat) (data : Bytes)
  | keyLen (record len : Nat)
  | shortcut (shard : Nat) (elem : Bytes) (node_id : Nat)
  | edge (id : Nat) (data : Bytes)
  | nodeMeta (elem : Nat) (data : Bytes)
  | chain (record : Nat) (chain : Bytes)
  | pattern (pattern : String) (id : Nat)
  | patternDel (pattern : String)
  | bloom (id : Nat) (bloom : Bytes)
  | counter (next : Nat)
  | tsPoint (series : Bytes) (ts id : Nat) (value : Bytes)
  | tsFlush (max_id : Nat)
  | tsReplace (points : List Row)
  | tsClearAll
  | clearSeries (series : Bytes)
  | clearTable (table : String)
deriving DecidableEq, Repr

structure Inner where
  generation : Nat
  fresh : Bool
  nodes : Table Nat (Bytes × Nat)
  children : Finset (Nat × Nat)
  roots : Table Nat Nat
  metas : Table Nat Bytes
  keylens : Table Nat Nat
  shortcuts : Table (Nat × Bytes) (List Nat)
  edges : Table Nat Bytes
  node_metas : Table Nat Bytes
  chains : Table Nat Bytes
  patterns : Table String Nat
  pattern_next : Nat
  blooms : Table Nat Bytes
  counter : Nat
  lake : Lakehouse

namespace Lakehouse

/-- A point enters the buffer with its id. -/
def putPoint (s : Lakehouse) (r : Row) : Lakehouse :=
  { s with ts := s.ts.insert (r.series, r.ts) (r.id, r.value), ts_next_id := max s.ts_next_id (r.id + 1) }

/-- The entries of the buffer that are not of the series. -/
def dropSeries (ts : AList (fun _ : Bytes × Nat => Nat × Bytes)) (series : Bytes) :
    AList (fun _ : Bytes × Nat => Nat × Bytes) :=
  ⟨ts.entries.filter fun e => e.1.1 ≠ series, ts.nodupKeys.sublist List.filter_sublist⟩

end Lakehouse

namespace Inner

/-- The table with the sentinel node. -/
def seedNodes (nodes : Table Nat (Bytes × Nat)) : Table Nat (Bytes × Nat) :=
  if 0 ∈ nodes then nodes else nodes.insert 0 ([], 0)

/-- A store that was never written to, after `seed`. -/
def new : Inner where
  generation := 0
  fresh := true
  nodes := seedNodes ∅
  children := ∅
  roots := ∅
  metas := ∅
  keylens := ∅
  shortcuts := ∅
  edges := ∅
  node_metas := ∅
  chains := ∅
  patterns := ∅
  pattern_next := 1
  blooms := ∅
  counter := 1
  lake := Lakehouse.new

def applyWalOp (s : Inner) : WalOp → Inner
  | .node id pfx record => { s with nodes := s.nodes.insert id (pfx, record) }
  | .child parent child => { s with children := insert (parent, child) s.children }
  | .childDel parent child => { s with children := s.children.erase (parent, child) }
  | .root shard root => { s with roots := s.roots.insert shard root }
  | .meta record data => { s with metas := s.metas.insert record data }
  | .keyLen record len => { s with keylens := s.keylens.insert record len }
  | .shortcut shard elem node_id =>
    let list := (s.shortcuts.lookup (shard, elem)).getD []
    { s with shortcuts := s.shortcuts.insert (shard, elem) (if node_id ∈ list then list else list ++ [node_id]) }
  | .edge id data => { s with edges := s.edges.insert id data }
  | .nodeMeta elem data => { s with node_metas := s.node_metas.insert elem data }
  | .chain record chain => { s with chains := s.chains.insert record chain }
  | .pattern pattern id =>
    { s with
      patterns := if pattern ∈ s.patterns then s.patterns else s.patterns.insert pattern id
      pattern_next := max s.pattern_next (id + 1) }
  | .patternDel pattern => { s with patterns := s.patterns.erase pattern }
  | .bloom id bloom => { s with blooms := s.blooms.insert id bloom }
  | .counter next => { s with counter := next }
  | .tsPoint series ts id value => { s with lake := s.lake.putPoint ⟨id, series, ts, value⟩ }
  | .tsFlush max_id => { s with lake := { s.lake with ts := Lakehouse.retain s.lake.ts max_id } }
  | .tsReplace points => { s with lake := points.foldl Lakehouse.putPoint { s.lake with ts := ∅ } }
  | .tsClearAll => { s with lake := { s.lake with ts := ∅ } }
  | .clearSeries series => { s with lake := { s.lake with ts := Lakehouse.dropSeries s.lake.ts series } }
  | .clearTable table =>
    if table = "rt_edges" then { s with edges := ∅ }
    else if table = "rt_chains" then { s with chains := ∅ }
    else if table = "rt_shortcuts" then { s with shortcuts := ∅ }
    else if table = "rt_node_meta" then { s with node_metas := ∅ }
    else if table = "ac_patterns" then { s with patterns := ∅, pattern_next := 1 }
    else s

/-- The id after those of the patterns. -/
def patternNext (patterns : Table String Nat) : Nat :=
  patterns.foldl (fun next _ id => max next (id + 1)) (by intros; omega) 1

/-- What `load_tables` makes of the files that `checkpoint` writes. The next ids are not dumped: they follow from the rows. -/
def reloaded (s : Inner) : Inner :=
  { s with
    fresh := false
    nodes := seedNodes s.nodes
    counter := if s.counter < 1 then 1 else s.counter
    pattern_next := patternNext s.patterns
    lake := s.lake.buffered.foldl Lakehouse.putPoint { s.lake with ts := ∅, ts_next_id := 1 } }

end Inner

/-- The log: the header that a checkpoint leaves, and the operations after it. -/
structure Wal where
  seq : Option Nat
  ops : List WalOp

/-- The tables that `_current` names, and the log. -/
structure Disk where
  tables : Option Inner
  wal : Wal

namespace Inner

/-- `Inner::open`, on a directory that holds the given delta files and their manifest. -/
def open' (disk : Disk) (ts_manifest : List DeltaFile) (files : DeltaFile → Option (List Row)) : Inner :=
  let s := disk.tables.getD new
  let s := { s with generation := max s.generation (disk.wal.seq.getD 0) }
  let s := { disk.wal.ops.foldl applyWalOp s with fresh := s.fresh && disk.wal.ops.isEmpty }
  { s with lake := { s.lake with ts_manifest, files } }

end Inner

/-- A store: its state in memory and what is on disk. The delta files and their manifest are written when they change. -/
structure Store where
  inner : Inner
  disk : Disk

namespace Store

/-- A store that was never written to. -/
def new : Store := ⟨Inner.new, ⟨none, ⟨none, []⟩⟩⟩

def mutate (s : Store) (op : WalOp) : Store where
  inner := { s.inner.applyWalOp op with fresh := false }
  disk := { s.disk with wal := { s.disk.wal with ops := s.disk.wal.ops ++ [op] } }

/-- The store as it is opened again. -/
def reopen (s : Store) : Store :=
  { s with inner := Inner.open' s.disk s.inner.lake.ts_manifest s.inner.lake.files }

/-- `Inner::checkpoint` -/
def dump (s : Store) : Store :=
  let inner := { s.inner with generation := s.inner.generation + 1 }
  ⟨inner, ⟨some inner.reloaded, ⟨some inner.generation, []⟩⟩⟩

/-! ## Timeseries -/

/-- A value of the buffer is not UTF-8, on which a flush panics. -/
def Panics (s : Store) : Prop := ∃ r ∈ s.inner.lake.buffered, fromUtf8 r.value = none

instance (s : Store) : Decidable s.Panics := inferInstanceAs (Decidable (∃ r ∈ s.inner.lake.buffered, fromUtf8 r.value = none))

/-- `flush_timeseries` at the millisecond `stamp`. -/
def flushTimeseries (block_secs stamp : Nat) (s : Store) : Store :=
  match s.inner.lake.buffered.getLast? with
  | none => s
  | some last =>
    let flushed := { s with inner := { s.inner with lake := s.inner.lake.flushTimeseries block_secs stamp } }
    if s.Panics then flushed
    else
      let logged := flushed.mutate (.tsFlush last.id)
      { logged with inner := { logged.inner with generation := logged.inner.generation + 1 } }

/-- `append`, which flushes a full buffer at the millisecond `stamp`. -/
def append (flush_threshold block_secs : Nat) (s : Store) (a : Append) (stamp : Nat) : Store :=
  let s := s.mutate (.tsPoint a.series a.ts s.inner.lake.ts_next_id a.value)
  if s.inner.lake.Full flush_threshold then s.flushTimeseries block_secs stamp else s

/-- `snapshot`: a flush, and a checkpoint unless the flush panics. -/
def snapshot (block_secs stamp : Nat) (s : Store) : Store :=
  if s.Panics then s.flushTimeseries block_secs stamp else (s.flushTimeseries block_secs stamp).dump

/-- The first block that `retain_block_partitions` keeps. -/
def keepBlock (block_secs keep_after_ts : Nat) : Nat := if 0 < block_secs then keep_after_ts / block_secs else keep_after_ts

/-- `retain_block_partitions`: the files of older blocks are removed. -/
def retainBlockPartitions (block_secs keep_after_ts : Nat) (s : Store) : Store :=
  let removed := s.inner.lake.ts_manifest.filter fun rel => rel.block < keepBlock block_secs keep_after_ts
  let kept := s.inner.lake.ts_manifest.filter fun rel => ¬rel.block < keepBlock block_secs keep_after_ts
  let lake := { s.inner.lake with
    ts_manifest := kept
    files := fun rel => if rel ∈ removed then none else s.inner.lake.files rel }
  if removed = [] then s else { s with inner := { s.inner with lake } }

end Store

end Opsense
