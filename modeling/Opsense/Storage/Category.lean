import Opsense.Storage.Wal
import Opsense.Storage.View

/-!
# The tables of a Parquet store and its transactions

The tables are written record by record. `new_node` writes two records, the other methods of the storage traits one, and a
transaction collects its changes and writes them when it is committed. Opening the store again finds the tables of every run,
of one too in which the process stopped between two records (`reopens`).
-/

namespace Opsense

/-- A change that a transaction carries out when it is committed. -/
inductive CategoryTxOp where
  | addChild (parent child : Nat)
  | moveChild (from_ to_ child : Nat)
  | updateNode (id : Nat) (pfx : Option Bytes) (record : Option Nat)
deriving DecidableEq, Repr

/-- `LakeTx`. The transactions of the other backends hold the same. -/
structure CategoryTx where
  nodes : List (Nat × Bytes × Nat)
  ops : List CategoryTxOp
deriving DecidableEq, Repr

/-- What a method of the storage traits writes that is one record of the log. A chain is given as `encode_chain` writes it. -/
inductive Put where
  | setRoot (shard root : Nat)
  | setEdgeData (edge : Nat) (data : Bytes)
  | clearEdges
  | setChain (record : Nat) (chain : Bytes)
  | clearChains
  | addShortcutNode (shard : Nat) (elem : Bytes) (node_id : Nat)
  | clearShortcuts
  | setNodeMeta (elem : Nat) («meta» : Bytes)
  | clearNodeMeta
  | setMeta (record : Nat) («meta» : Bytes)
  | setKeyLen (record len : Nat)
  | setNodeBloom (id : Nat) (bloom : Bytes)
  | addPattern (pattern : String)
  | removePattern (pattern : String)
  | clearPatterns
deriving DecidableEq, Repr

/-- The record of the log. -/
def Put.op (s : Inner) : Put → Option WalOp
  | .setRoot shard root => some (.root shard root)
  | .setEdgeData edge data => some (.edge edge data)
  | .clearEdges => some (.clearTable "rt_edges")
  | .setChain record chain => some (.chain record chain)
  | .clearChains => some (.clearTable "rt_chains")
  | .addShortcutNode shard elem node_id => some (.shortcut shard elem node_id)
  | .clearShortcuts => some (.clearTable "rt_shortcuts")
  | .setNodeMeta elem data => some (.nodeMeta elem data)
  | .clearNodeMeta => some (.clearTable "rt_node_meta")
  | .setMeta record data => some (.meta record data)
  | .setKeyLen record len => some (.keyLen record len)
  | .setNodeBloom id bloom => some (.bloom id bloom)
  | .addPattern pattern => if pattern = "" ∨ pattern ∈ s.patterns then none else some (.pattern pattern s.pattern_next)
  | .removePattern pattern => if pattern ∈ s.patterns then some (.patternDel pattern) else none
  | .clearPatterns => some (.clearTable "ac_patterns")

namespace CategoryTx

/-- `new_tx` -/
def new : CategoryTx := ⟨[], []⟩

/-- `new_node` reads the counter of the store. -/
def newNode (inner : Inner) (tx : CategoryTx) (pfx : Bytes) (record : Nat) : CategoryTx × Nat :=
  let id := inner.counter + 1 + tx.nodes.length - 1
  ({ tx with nodes := tx.nodes ++ [(id, pfx, record)] }, id)

/-- `update_node`, `add_child` and `move_child` -/
def push (tx : CategoryTx) (op : CategoryTxOp) : CategoryTx := { tx with ops := tx.ops ++ [op] }

end CategoryTx

namespace Store

def newNode (s : Store) (pfx : Bytes) (record : Nat) : Store × Nat :=
  let id := s.inner.counter
  ((s.mutate (.node id pfx record)).mutate (.counter (id + 1)), id)

def updateNode (s : Store) (id : Nat) (pfx : Option Bytes) (record : Option Nat) : Store × Except StorageError Unit :=
  match s.inner.nodes.lookup id with
  | none => (s, .error (.branchOutOfRange id))
  | some node => (s.mutate (.node id (pfx.getD node.1) (record.getD node.2)), .ok ())

def getNode (s : Store) (id : Nat) : Except StorageError (Bytes × Nat) :=
  match s.inner.nodes.lookup id with
  | none => .error (.branchOutOfRange id)
  | some node => .ok node

/-- The methods that write one record. -/
def put (s : Store) (p : Put) : Store := ((p.op s.inner).map s.mutate).getD s

/-- One change of a transaction. An update of a node that is not there is an error. -/
def commitOp (s : Store) : CategoryTxOp → Store × Except StorageError Unit
  | .addChild parent child => (s.mutate (.child parent child), .ok ())
  | .moveChild from_ to_ child => ((s.mutate (.childDel from_ child)).mutate (.child to_ child), .ok ())
  | .updateNode id pfx record => s.updateNode id pfx record

/-- The changes of a transaction, up to the first that fails. -/
def commitOps (s : Store) : List CategoryTxOp → Store × Except StorageError Unit
  | [] => (s, .ok ())
  | op :: ops =>
    match s.commitOp op with
    | (s, .ok ()) => s.commitOps ops
    | (s, .error e) => (s, .error e)

/-- `commit`: the new nodes, the counter past the greatest of their ids, and the changes. -/
def commit (s : Store) (tx : CategoryTx) : Store × Except StorageError Unit :=
  let s := tx.nodes.foldl (fun s node => s.mutate (.node node.1 node.2.1 node.2.2)) s
  let s := match (tx.nodes.map Prod.fst).max? with
    | none => s
    | some max_id => s.mutate (.counter (max_id + 1))
  s.commitOps tx.ops

/-- `clear_series`. What is left of the other series gets new ids, and is flushed again at the millisecond `stamp`. -/
def clearSeries (block_secs stamp : Nat) (s : Store) (series : Bytes) : Store :=
  let merged := s.inner.lake.mergedTs.entries.filter fun e => e.1.1 ≠ series
  let kept := merged.zipIdx.map fun e => (⟨s.inner.lake.ts_next_id + e.2, e.1.1.1, e.1.1.2, e.1.2.2.2⟩ : Row)
  let lake := { s.inner.lake with
    ts_next_id := s.inner.lake.ts_next_id + kept.length
    ts_manifest := []
    files := fun rel => if rel ∈ s.inner.lake.ts_manifest then none else s.inner.lake.files rel }
  ({ s with inner := { s.inner with lake } }.mutate (.tsReplace kept)).flushTimeseries block_secs stamp

def clearAllSeries (s : Store) : Store :=
  let lake := { s.inner.lake with
    ts := ∅
    ts_next_id := 1
    ts_manifest := []
    files := fun rel => if rel ∈ s.inner.lake.ts_manifest then none else s.inner.lake.files rel }
  { s with inner := { s.inner with lake } }.mutate .tsClearAll

/-- The process stops when the first `k` of the records were written that lead from `s` to `t`, and the store is opened
again. -/
def stopped (s t : Store) (k : Nat) : Store :=
  let ops := t.disk.wal.ops.take (s.disk.wal.ops.length + k)
  { t with disk := { t.disk with wal := { t.disk.wal with ops } } }.reopen

end Store

/-- A write to the tables. -/
inductive TableWrite where
  | newNode (pfx : Bytes) (record : Nat)
  | updateNode (id : Nat) (pfx : Option Bytes) (record : Option Nat)
  | put (p : Put)
  | commit (tx : CategoryTx)
deriving DecidableEq, Repr

/-- An operation on a store. The process may stop in any write to the tables. -/
inductive LakeAct where
  | write (w : TableWrite)
  | stop (w : TableWrite) (k : Nat)
  | ts (a : TsAct)
  | clearSeries (series : Bytes) (stamp : Nat)
  | clearAllSeries
  | retain (keep_after_ts : Nat)
deriving DecidableEq

namespace Store

def write (s : Store) : TableWrite → Store
  | .newNode pfx record => (s.newNode pfx record).1
  | .updateNode id pfx record => (s.updateNode id pfx record).1
  | .put p => s.put p
  | .commit tx => (s.commit tx).1

/-- One operation on a store. -/
def lakeStep (flush_threshold block_secs : Nat) (s : Store) : LakeAct → Store
  | .write w => s.write w
  | .stop w k => s.stopped (s.write w) k
  | .ts a => s.tsStep flush_threshold block_secs a
  | .clearSeries series stamp => s.clearSeries block_secs stamp series
  | .clearAllSeries => s.clearAllSeries
  | .retain keep_after_ts => s.retainBlockPartitions block_secs keep_after_ts

/-- A store over all its operations. -/
def lakeMachine (flush_threshold block_secs : Nat) : Machine Store LakeAct Unit :=
  ⟨new, fun s a => (s.lakeStep flush_threshold block_secs a, ())⟩

/-! ## Records -/

@[simp] theorem mutates_tables (s : Store) (ops : List WalOp) : (ops.foldl mutate s).disk.tables = s.disk.tables := by
  induction ops generalizing s with
  | nil => rfl
  | cons op ops ih => exact ih (s.mutate op)

@[simp] theorem mutates_seq (s : Store) (ops : List WalOp) : (ops.foldl mutate s).disk.wal.seq = s.disk.wal.seq := by
  induction ops generalizing s with
  | nil => rfl
  | cons op ops ih => exact ih (s.mutate op)

@[simp] theorem mutates_ops (s : Store) (ops : List WalOp) :
    (ops.foldl mutate s).disk.wal.ops = s.disk.wal.ops ++ ops := by
  induction ops generalizing s with
  | nil => simp
  | cons op ops ih => rw [List.foldl_cons, ih]; simp [mutate]

theorem Reopens.mutates {s : Store} (h : s.Reopens) {ops : List WalOp} (hops : ∀ op ∈ ops, op ≠ .counter 0) :
    (ops.foldl Store.mutate s).Reopens := by
  induction ops generalizing s with
  | nil => exact h
  | cons op ops ih =>
    exact ih (h.mutate op (hops op List.mem_cons_self)) fun op' hop' => hops op' (List.mem_cons_of_mem _ hop')

/-- The disk of a store that stopped is that of the store with the first records only. -/
theorem stopped_disk (s : Store) (ops : List WalOp) (k : Nat) :
    (s.stopped (ops.foldl mutate s) k).disk = ((ops.take k).foldl mutate s).disk := by
  have hdisk : ∀ ops' : List WalOp, (ops'.foldl mutate s).disk =
      ⟨s.disk.tables, ⟨s.disk.wal.seq, s.disk.wal.ops ++ ops'⟩⟩ := by
    intro ops'
    rw [← mutates_tables s ops', ← mutates_seq s ops', ← mutates_ops s ops']
  unfold stopped reopen
  dsimp only
  rw [hdisk, hdisk]
  simp [List.take_append]

/-- What is found after a stop are the tables of the store with the first records only. -/
theorem stopped_same {s : Store} (h : s.Reopens) {ops : List WalOp} (hops : ∀ op ∈ ops, op ≠ .counter 0) (k : Nat) :
    Inner.SameTables (s.stopped (ops.foldl mutate s) k).inner ((ops.take k).foldl mutate s).inner := by
  have htake : ((ops.take k).foldl mutate s).Reopens := h.mutates fun op hop => hops op (List.mem_of_mem_take hop)
  have hopen : Inner.SameTables (s.stopped (ops.foldl mutate s) k).inner
      (Inner.replayed (s.stopped (ops.foldl mutate s) k).disk) := Inner.open_same _ _ _
  rw [stopped_disk] at hopen
  exact hopen.trans htake.same

theorem stopped_reopens {s : Store} (h : s.Reopens) {ops : List WalOp} (hops : ∀ op ∈ ops, op ≠ .counter 0) (k : Nat) :
    (s.stopped (ops.foldl mutate s) k).Reopens := by
  have htake : ((ops.take k).foldl mutate s).Reopens := h.mutates fun op hop => hops op (List.mem_of_mem_take hop)
  have hsame := stopped_same h hops k
  refine ⟨?_, ?_, ?_⟩
  · rw [stopped_disk]
    exact htake.same.trans hsame.symm
  · rw [hsame.nodes]
    exact htake.seeded.nodes
  · rw [hsame.counter]
    exact htake.seeded.counter

end Store

/-- A record that a commit writes. -/
inductive TxRecord where
  | node (id : Nat) (pfx : Bytes) (record : Nat)
  | counter (max_id : Nat)
  | child (parent child : Nat)
  | childDel (parent child : Nat)
deriving DecidableEq, Repr

def TxRecord.op : TxRecord → WalOp
  | .node id pfx record => .node id pfx record
  | .counter max_id => .counter (max_id + 1)
  | .child parent c => .child parent c
  | .childDel parent c => .childDel parent c

namespace CategoryTxOp

/-- The changes update a node that is not there. -/
def Misses (nodes : Nat → Option (Bytes × Nat)) (ops : List CategoryTxOp) : Prop :=
  ∃ id pfx record, .updateNode id pfx record ∈ ops ∧ nodes id = none

/-- The records of the changes, up to the first update of a node that is not there. -/
def records (nodes : Nat → Option (Bytes × Nat)) : List CategoryTxOp → List TxRecord
  | [] => []
  | .addChild parent child :: ops => .child parent child :: records nodes ops
  | .moveChild from_ to_ child :: ops => .childDel from_ child :: .child to_ child :: records nodes ops
  | .updateNode id pfx record :: ops =>
    match nodes id with
    | none => []
    | some node =>
      .node id (pfx.getD node.1) (record.getD node.2) ::
        records (Function.update nodes id (some (pfx.getD node.1, record.getD node.2))) ops

end CategoryTxOp

namespace CategoryTx

/-- The nodes of a store and those of the transaction. -/
def nodesOver (nodes : Nat → Option (Bytes × Nat)) (tx : CategoryTx) : Nat → Option (Bytes × Nat) :=
  tx.nodes.foldl (fun nodes node => Function.update nodes node.1 (some node.2)) nodes

/-- The records of the transaction. -/
def records (nodes : Nat → Option (Bytes × Nat)) (tx : CategoryTx) : List TxRecord :=
  tx.nodes.map (fun node => .node node.1 node.2.1 node.2.2) ++
    (tx.nodes.map Prod.fst).max?.toList.map TxRecord.counter ++
    CategoryTxOp.records (tx.nodesOver nodes) tx.ops

/-- An update of the transaction is on a node that is neither in the store nor new. -/
def Misses (nodes : Nat → Option (Bytes × Nat)) (tx : CategoryTx) : Prop := CategoryTxOp.Misses (tx.nodesOver nodes) tx.ops

end CategoryTx

namespace Store

theorem lookup_mutate_node (s : Store) (id : Nat) (pfx : Bytes) (record : Nat) :
    (fun i => (s.mutate (.node id pfx record)).inner.nodes.lookup i) =
      Function.update (fun i => s.inner.nodes.lookup i) id (some (pfx, record)) := by
  funext i
  by_cases hi : i = id
  · subst hi
    simp [mutate, Inner.applyWalOp]
  · simp [mutate, Inner.applyWalOp, hi]

variable {s : Store}

theorem updateNode_none {id : Nat} (h : s.inner.nodes.lookup id = none) (pfx : Option Bytes) (record : Option Nat) :
    s.updateNode id pfx record = (s, .error (.branchOutOfRange id)) := by
  simp only [updateNode, h]

theorem updateNode_some {id : Nat} {node : Bytes × Nat} (h : s.inner.nodes.lookup id = some node) (pfx : Option Bytes) (record : Option Nat) :
    s.updateNode id pfx record = (s.mutate (.node id (pfx.getD node.1) (record.getD node.2)), .ok ()) := by
  simp only [updateNode, h]

theorem commitOps_records (ops : List CategoryTxOp) (s : Store) :
    (s.commitOps ops).1 =
      ((CategoryTxOp.records (fun id => s.inner.nodes.lookup id) ops).map TxRecord.op).foldl mutate s := by
  induction ops generalizing s with
  | nil => rfl
  | cons op ops ih =>
    cases op with
    | addChild parent child => exact ih (s.mutate (.child parent child))
    | moveChild from_ to_ child => exact ih ((s.mutate (.childDel from_ child)).mutate (.child to_ child))
    | updateNode id pfx record =>
      simp only [commitOps, commitOp, CategoryTxOp.records]
      cases hnode : s.inner.nodes.lookup id with
      | none =>
        rw [updateNode_none hnode]
        rfl
      | some node =>
        rw [updateNode_some hnode]
        dsimp only
        rw [ih, lookup_mutate_node]
        rfl

/-- The changes succeed unless they update a node that is not there. -/
theorem commitOps_ok (ops : List CategoryTxOp) (s : Store) :
    (s.commitOps ops).2 = .ok () ↔ ¬CategoryTxOp.Misses (fun id => s.inner.nodes.lookup id) ops := by
  induction ops generalizing s with
  | nil => simp [commitOps, CategoryTxOp.Misses]
  | cons op ops ih =>
    cases op with
    | addChild parent child =>
      refine (ih (s.mutate (.child parent child))).trans ?_
      simp [CategoryTxOp.Misses, mutate, Inner.applyWalOp]
    | moveChild from_ to_ child =>
      refine (ih ((s.mutate (.childDel from_ child)).mutate (.child to_ child))).trans ?_
      simp [CategoryTxOp.Misses, mutate, Inner.applyWalOp]
    | updateNode id pfx record =>
      simp only [commitOps, commitOp]
      cases hnode : s.inner.nodes.lookup id with
      | none =>
        rw [updateNode_none hnode]
        simp only [reduceCtorEq, false_iff, not_not]
        exact ⟨id, pfx, record, List.mem_cons_self, hnode⟩
      | some node =>
        rw [updateNode_some hnode]
        dsimp only
        rw [ih, lookup_mutate_node]
        -- the nodes that are there stay there
        refine not_congr ⟨?_, ?_⟩
        · rintro ⟨id', pfx', record', hmem, hnone⟩
          have hne : id' ≠ id := by
            rintro rfl
            simp at hnone
          rw [Function.update_of_ne hne] at hnone
          exact ⟨id', pfx', record', List.mem_cons_of_mem _ hmem, hnone⟩
        · rintro ⟨id', pfx', record', hmem, hnone⟩
          have hne : id' ≠ id := by
            rintro rfl
            exact absurd (hnode.symm.trans hnone) (Option.some_ne_none node)
          rcases List.mem_cons.mp hmem with heq | hmem
          · exact absurd (CategoryTxOp.updateNode.inj heq).1 hne
          · exact ⟨id', pfx', record', hmem, by rwa [Function.update_of_ne hne]⟩

/-- The new nodes of a transaction, written. -/
theorem lookup_newNodes (nodes : List (Nat × Bytes × Nat)) (s : Store) :
    (fun id => ((nodes.map fun node => WalOp.node node.1 node.2.1 node.2.2).foldl mutate s).inner.nodes.lookup id) =
      CategoryTx.nodesOver (fun id => s.inner.nodes.lookup id) ⟨nodes, []⟩ := by
  induction nodes generalizing s with
  | nil => rfl
  | cons node nodes ih =>
    rw [List.map_cons, List.foldl_cons, ih, lookup_mutate_node]
    rfl

/-- The store in which a commit carries out the changes. -/
theorem commit_eq (s : Store) (tx : CategoryTx) : ∃ t : Store, s.commit tx = t.commitOps tx.ops ∧
    t = ((tx.nodes.map (fun node => TxRecord.node node.1 node.2.1 node.2.2) ++
      (tx.nodes.map Prod.fst).max?.toList.map TxRecord.counter).map TxRecord.op).foldl mutate s ∧
    (fun id => t.inner.nodes.lookup id) = tx.nodesOver fun id => s.inner.nodes.lookup id := by
  have hnodes := lookup_newNodes tx.nodes s
  have hfold : tx.nodes.foldl (fun s node => s.mutate (.node node.1 node.2.1 node.2.2)) s =
      (tx.nodes.map fun node => WalOp.node node.1 node.2.1 node.2.2).foldl mutate s := by
    rw [List.foldl_map]
  refine ⟨_, rfl, ?_, ?_⟩
  · rw [hfold, List.map_append, List.foldl_append, List.map_map]
    cases (tx.nodes.map Prod.fst).max? <;> rfl
  · rw [hfold]
    cases (tx.nodes.map Prod.fst).max? with
    | none => exact hnodes
    | some max_id => exact hnodes

theorem commit_records (s : Store) (tx : CategoryTx) :
    (s.commit tx).1 = ((tx.records fun id => s.inner.nodes.lookup id).map TxRecord.op).foldl mutate s := by
  obtain ⟨t, hcommit, ht, hnodes⟩ := s.commit_eq tx
  rw [hcommit, commitOps_records, hnodes, ht, ← List.foldl_append, ← List.map_append]
  rfl

/-- A commit succeeds unless it updates a node that is not there. -/
theorem commit_ok (s : Store) (tx : CategoryTx) :
    (s.commit tx).2 = .ok () ↔ ¬tx.Misses fun id => s.inner.nodes.lookup id := by
  obtain ⟨t, hcommit, ht, hnodes⟩ := s.commit_eq tx
  rw [hcommit, commitOps_ok, hnodes]
  rfl

theorem op_ne (r : TxRecord) : r.op ≠ .counter 0 := by
  cases r <;> simp [TxRecord.op]

/-- A write to the tables is a list of records, and the counter that it writes is past an id. -/
theorem write_records (s : Store) (w : TableWrite) :
    ∃ ops : List WalOp, s.write w = ops.foldl mutate s ∧ ∀ op ∈ ops, op ≠ .counter 0 := by
  cases w with
  | newNode pfx record =>
    refine ⟨[.node s.inner.counter pfx record, .counter (s.inner.counter + 1)], rfl, ?_⟩
    simp
  | updateNode id pfx record =>
    cases hnode : s.inner.nodes.lookup id with
    | none =>
      refine ⟨[], ?_, by simp⟩
      rw [write, updateNode_none hnode]
      rfl
    | some node =>
      refine ⟨[.node id (pfx.getD node.1) (record.getD node.2)], ?_, by simp⟩
      rw [write, updateNode_some hnode]
      rfl
  | put p =>
    cases hop : p.op s.inner with
    | none => exact ⟨[], by simp [write, put, hop], by simp⟩
    | some op =>
      refine ⟨[op], by simp [write, put, hop], fun op' hop' => ?_⟩
      rw [List.mem_singleton.mp hop']
      rintro rfl
      revert hop
      cases p <;> simp [Put.op]
  | commit tx =>
    refine ⟨_, s.commit_records tx, fun op hop => ?_⟩
    obtain ⟨r, -, rfl⟩ := List.mem_map.mp hop
    exact op_ne r

/-! ## Opening again -/

/-- Opening again finds the same when only the other parts of the lake change. -/
theorem Reopens.of_lake (h : s.Reopens) {lake : Lakehouse} (hts : lake.ts = s.inner.lake.ts) :
    Reopens { s with inner := { s.inner with lake } } := by
  obtain ⟨h1, h2, h3, h4, h5, h6, h7, h8, h9, h10, h11, h12, hlookup⟩ := h.same
  refine ⟨⟨h1, h2, h3, h4, h5, h6, h7, h8, h9, h10, h11, h12, fun key => ?_⟩, h.seeded.nodes, h.seeded.counter⟩
  dsimp only
  rw [hts, hlookup]

theorem Reopens.clearSeries (h : s.Reopens) (block_secs stamp : Nat) (series : Bytes) :
    (s.clearSeries block_secs stamp series).Reopens := by
  unfold Store.clearSeries
  refine Reopens.flush ?_ block_secs stamp
  refine Reopens.mutate ?_ _ nofun
  exact h.of_lake rfl

theorem Reopens.clearAllSeries (h : s.Reopens) : s.clearAllSeries.Reopens := by
  obtain ⟨⟨h1, h2, h3, h4, h5, h6, h7, h8, h9, h10, h11, h12, hlookup⟩, hseeded⟩ := h.mutate .tsClearAll nofun
  exact ⟨⟨h1, h2, h3, h4, h5, h6, h7, h8, h9, h10, h11, h12, hlookup⟩, hseeded.nodes, hseeded.counter⟩

theorem Reopens.retain (h : s.Reopens) (block_secs keep_after_ts : Nat) :
    (s.retainBlockPartitions block_secs keep_after_ts).Reopens := by
  unfold Store.retainBlockPartitions
  dsimp only
  split_ifs
  · exact h
  · exact h.of_lake rfl

theorem Reopens.lakeStep (h : s.Reopens) (flush_threshold block_secs : Nat) (a : LakeAct) :
    (s.lakeStep flush_threshold block_secs a).Reopens := by
  cases a with
  | write w =>
    obtain ⟨ops, hwrite, hops⟩ := s.write_records w
    rw [Store.lakeStep, hwrite]
    exact h.mutates hops
  | stop w k =>
    obtain ⟨ops, hwrite, hops⟩ := s.write_records w
    rw [Store.lakeStep, hwrite]
    exact stopped_reopens h hops k
  | ts a =>
    cases a with
    | append a stamp => exact h.append a stamp
    | flush stamp => exact h.flush block_secs stamp
    | checkpoint stamp => exact h.snapshot block_secs stamp
    | reopen => exact h.reopen
  | clearSeries series stamp => exact h.clearSeries block_secs stamp series
  | clearAllSeries => exact h.clearAllSeries
  | retain keep_after_ts => exact h.retain block_secs keep_after_ts

/-- Whatever was done to a store, opening it again finds its tables. -/
theorem reopens (flush_threshold block_secs : Nat) (as : List LakeAct) :
    ((lakeMachine flush_threshold block_secs).state as).Reopens :=
  Machine.invariant new_reopens (fun _ a h => h.lakeStep flush_threshold block_secs a) as

end Store

end Opsense
