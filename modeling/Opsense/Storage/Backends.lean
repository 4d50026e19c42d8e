import Opsense.Storage.Category

/-!
# The four backends of a category storage

What each backend keeps of nodes, children, roots and ids, and how a transaction on it gets ids and is committed. `InMemoryStorage`
takes each id from a counter that is never read twice. The other three read a counter or the length of a list, which counts the
nodes that were written and not those that open transactions hold.
-/

namespace Opsense

/-- `resize` of a `Vec`. -/
def resize {α : Type} (l : List α) (n : Nat) (a : α) : List α := l.take n ++ List.replicate (n - l.length) a

/-- A transaction with one more node. -/
def CategoryTx.withNode (tx : CategoryTx) (id : Nat) (pfx : Bytes) (record : Nat) : CategoryTx :=
  { tx with nodes := tx.nodes ++ [(id, pfx, record)] }

/-- What an update makes of a node. -/
def updated (pfx : Option Bytes) (record : Option Nat) (node : Bytes × Nat) : Bytes × Nat := (pfx.getD node.1, record.getD node.2)

/-! ## In memory -/

/-- The nodes, the children, the roots and the next id of `InMemoryStorage`. -/
structure InMemoryCategory where
  nodes : List (Bytes × Nat)
  children : List (List Nat)
  roots : List Nat
  next_id : Nat
deriving DecidableEq, Repr

namespace InMemoryCategory

def new : InMemoryCategory := ⟨[([], 0)], [[]], [], 1⟩

def allocId (s : InMemoryCategory) : InMemoryCategory × Nat := ({ s with next_id := s.next_id + 1 }, s.next_id)

/-- A node is written, behind empty ones if the list does not reach it. -/
def putNode (s : InMemoryCategory) (id : Nat) (pfx : Bytes) (record : Nat) : InMemoryCategory :=
  let s := if s.nodes.length ≤ id then
      { s with nodes := resize s.nodes (id + 1) ([], 0), children := resize s.children (id + 1) [] }
    else s
  { s with nodes := s.nodes.set id (pfx, record) }

def getNode (s : InMemoryCategory) (id : Nat) : Except StorageError (Bytes × Nat) :=
  match s.nodes[id]? with
  | none => .error (.branchOutOfRange id)
  | some node => .ok node

def updateNode (s : InMemoryCategory) (id : Nat) (pfx : Option Bytes) (record : Option Nat) :
    InMemoryCategory × Except StorageError Unit :=
  if s.nodes.length ≤ id then (s, .error (.branchOutOfRange id))
  else ({ s with nodes := s.nodes.modify id (updated pfx record) }, .ok ())

def getChildren (s : InMemoryCategory) (id : Nat) : List Nat := s.children[id]?.getD []

def setRoot (s : InMemoryCategory) (shard root : Nat) : InMemoryCategory :=
  let roots := if s.roots.length ≤ shard then resize s.roots (shard + 1) 0 else s.roots
  { s with roots := roots.set shard root }

def getRoot (s : InMemoryCategory) (shard : Nat) : Nat := s.roots[shard]?.getD 0

/-- `InMemoryTx::new_node` -/
def txNewNode (s : InMemoryCategory) (tx : CategoryTx) (pfx : Bytes) (record : Nat) : InMemoryCategory × CategoryTx × Nat :=
  (s.allocId.1, tx.withNode s.allocId.2 pfx record, s.allocId.2)

/-- One change of a transaction. What is past the end of the lists is left out. -/
def commitOp (s : InMemoryCategory) : CategoryTxOp → InMemoryCategory
  | .addChild parent child =>
    { s with children := s.children.modify parent fun cs => if child ∈ cs then cs else cs ++ [child] }
  | .moveChild from_ to_ child =>
    let children := s.children.modify from_ fun cs => cs.filter fun c => c ≠ child
    { s with children := children.modify to_ fun cs => if child ∈ cs then cs else cs ++ [child] }
  | .updateNode id pfx record => { s with nodes := s.nodes.modify id (updated pfx record) }

def commit (s : InMemoryCategory) (tx : CategoryTx) : InMemoryCategory × Except StorageError Unit :=
  (tx.ops.foldl commitOp (tx.nodes.foldl (fun s node => s.putNode node.1 node.2.1 node.2.2) s), .ok ())

end InMemoryCategory

/-- The children of a node among the pairs of parent and child, by id. -/
def childrenOf (pairs : Finset (Nat × Nat)) (id : Nat) : List Nat :=
  ((pairs.filter fun pair => pair.1 = id).image Prod.snd).sort (· ≤ ·)

/-! ## SQLite -/

structure SqliteStorage where
  nodes : Table Nat (Bytes × Nat)
  children : Finset (Nat × Nat)
  roots : Table Nat Nat
  next : Nat

namespace SqliteStorage

/-- `init` -/
def new : SqliteStorage := ⟨(∅ : Table Nat (Bytes × Nat)).insert 0 ([], 0), ∅, ∅, 1⟩

/-- The `UPDATE` of the counter that returns its old value. -/
def allocId (s : SqliteStorage) : SqliteStorage × Nat := ({ s with next := s.next + 1 }, s.next)

/-- The `INSERT` of a node. An id that is there already is an error. -/
def insertNode (s : SqliteStorage) (id : Nat) (pfx : Bytes) (record : Nat) : Except StorageError SqliteStorage :=
  if id ∈ s.nodes then .error (.internal "UNIQUE constraint failed: rt_nodes.id")
  else .ok { s with nodes := s.nodes.insert id (pfx, record) }

/-- An `UPDATE` of a node, which reaches no row when the node is not there. -/
def updateRow (s : SqliteStorage) (id : Nat) (f : Bytes × Nat → Bytes × Nat) : SqliteStorage :=
  match s.nodes.lookup id with
  | none => s
  | some node => { s with nodes := s.nodes.insert id (f node) }

/-- The `UPDATE` statements of `update_node`, one for each column that is given. -/
def updateColumns (s : SqliteStorage) (id : Nat) (pfx : Option Bytes) (record : Option Nat) : SqliteStorage :=
  let s := match pfx with
    | none => s
    | some p => s.updateRow id fun node => (p, node.2)
  match record with
  | none => s
  | some r => s.updateRow id fun node => (node.1, r)

def getNode (s : SqliteStorage) (id : Nat) : Except StorageError (Bytes × Nat) :=
  match s.nodes.lookup id with
  | none => .error (.branchOutOfRange id)
  | some node => .ok node

/-- `update_node`, which is an error when a statement reaches no row. -/
def updateNode (s : SqliteStorage) (id : Nat) (pfx : Option Bytes) (record : Option Nat) :
    SqliteStorage × Except StorageError Unit :=
  (s.updateColumns id pfx record,
    if id ∉ s.nodes ∧ (pfx.isSome ∨ record.isSome) then .error (.branchOutOfRange id) else .ok ())

def getChildren (s : SqliteStorage) (id : Nat) : List Nat := childrenOf s.children id

def setRoot (s : SqliteStorage) (shard root : Nat) : SqliteStorage := { s with roots := s.roots.insert shard root }

def getRoot (s : SqliteStorage) (shard : Nat) : Nat := (s.roots.lookup shard).getD 0

/-- `SqliteTx::new_node` -/
def txNewNode (s : SqliteStorage) (tx : CategoryTx) (pfx : Bytes) (record : Nat) : SqliteStorage × CategoryTx × Nat :=
  let id := s.next + tx.nodes.length
  (s, tx.withNode id pfx record, id)

def commitOp (s : SqliteStorage) : CategoryTxOp → SqliteStorage
  | .addChild parent child => { s with children := insert (parent, child) s.children }
  | .moveChild from_ to_ child => { s with children := insert (to_, child) (s.children.erase (from_, child)) }
  | .updateNode id pfx record => s.updateColumns id pfx record

/-- `commit` is one transaction of SQLite, and is rolled back when a statement fails. -/
def commit (s : SqliteStorage) (tx : CategoryTx) : SqliteStorage × Except StorageError Unit :=
  match tx.nodes.foldlM (fun s node => s.insertNode node.1 node.2.1 node.2.2) s with
  | .error e => (s, .error e)
  | .ok t =>
    let t := match (tx.nodes.map Prod.fst).max? with
      | none => t
      | some max_id => { t with next := max t.next (max_id + 1) }
    (tx.ops.foldl commitOp t, .ok ())

end SqliteStorage

/-! ## Redis -/

structure RedisStorage where
  branch : List Bytes
  record : List Nat
  forward : Finset (Nat × Nat)
  endpoint : Table Nat Nat

namespace RedisStorage

/-- `init` -/
def new : RedisStorage := ⟨[[]], [0], ∅, ∅⟩

/-- The two `RPUSH` of a node. -/
def push (s : RedisStorage) (pfx : Bytes) (record : Nat) : RedisStorage :=
  { s with branch := s.branch ++ [pfx], record := s.record ++ [record] }

/-- `new_node`, whose id is the place of the last branch. -/
def newNode (s : RedisStorage) (pfx : Bytes) (record : Nat) : RedisStorage × Nat :=
  (s.push pfx record, (s.push pfx record).branch.length - 1)

def getNode (s : RedisStorage) (id : Nat) : Except StorageError (Bytes × Nat) :=
  match s.branch[id]?, s.record[id]? with
  | some pfx, some record => .ok (pfx, record)
  | _, _ => .error (.internal "nil")

/-- The `LSET` commands of `update_node`. One past the end of its list fails and does not keep the others from being carried
out. -/
def updateNode (s : RedisStorage) (id : Nat) (pfx : Option Bytes) (record : Option Nat) :
    RedisStorage × Except StorageError Unit :=
  ({ s with branch := s.branch.modify id pfx.getD, record := s.record.modify id record.getD },
    if (s.branch.length ≤ id ∧ pfx.isSome) ∨ (s.record.length ≤ id ∧ record.isSome) then .error (.internal "index out of range")
    else .ok ())

/-- `SMEMBERS` promises no order, and nothing depends on it. -/
def getChildren (s : RedisStorage) (id : Nat) : List Nat := childrenOf s.forward id

def setRoot (s : RedisStorage) (shard root : Nat) : RedisStorage := { s with endpoint := s.endpoint.insert shard root }

def getRoot (s : RedisStorage) (shard : Nat) : Nat := (s.endpoint.lookup shard).getD 0

/-- `RedisTx::new_node` -/
def txNewNode (s : RedisStorage) (tx : CategoryTx) (pfx : Bytes) (record : Nat) : RedisStorage × CategoryTx × Nat :=
  let id := s.branch.length + tx.nodes.length
  (s, tx.withNode id pfx record, id)

def commitOp (s : RedisStorage) : CategoryTxOp → RedisStorage × Except StorageError Unit
  | .addChild parent child => ({ s with forward := insert (parent, child) s.forward }, .ok ())
  | .moveChild from_ to_ child => ({ s with forward := insert (to_, child) (s.forward.erase (from_, child)) }, .ok ())
  | .updateNode id pfx record => s.updateNode id pfx record

/-- The commands of one `EXEC`: all are carried out, and the first error is reported. -/
def commitOps (s : RedisStorage) : List CategoryTxOp → RedisStorage × Except StorageError Unit
  | [] => (s, .ok ())
  | op :: ops =>
    let rest := (s.commitOp op).1.commitOps ops
    (rest.1, (s.commitOp op).2.bind fun _ => rest.2)

/-- `commit`: a new node is pushed wherever the lists end, whatever its id. -/
def commit (s : RedisStorage) (tx : CategoryTx) : RedisStorage × Except StorageError Unit :=
  (tx.nodes.foldl (fun s node => s.push node.2.1 node.2.2) s).commitOps tx.ops

end RedisStorage

/-! ## As a category storage -/

/-- A category storage. -/
structure Backend (σ : Type) where
  new : σ
  getNode : σ → Nat → Except StorageError (Bytes × Nat)
  getChildren : σ → Nat → List Nat
  setRoot : σ → Nat → Nat → σ
  getRoot : σ → Nat → Nat
  updateNode : σ → Nat → Option Bytes → Option Nat → σ × Except StorageError Unit
  /-- `new_node` of the storage, up to its first statement. -/
  newNode : σ → Bytes → Nat → σ × Nat
  /-- What is left of `new_node` then. -/
  insert : Option (σ → Nat → Bytes → Nat → Except StorageError σ)
  /-- `new_node` of a transaction. -/
  txNewNode : σ → CategoryTx → Bytes → Nat → σ × CategoryTx × Nat
  commit : σ → CategoryTx → σ × Except StorageError Unit
  /-- The changes that a commit carries out. -/
  carried : σ → CategoryTx → List CategoryTxOp
  /-- A commit that fails changes nothing. -/
  rollsBack : Bool
  /-- The nodes of the transaction have ids that no other call is given. -/
  inTurn : σ → CategoryTx → Bool

/-- The ids are the next ones. -/
def CategoryTx.idsFrom (tx : CategoryTx) (next : Nat) : Bool := tx.nodes.map Prod.fst = List.range' next tx.nodes.length

inductive Kind where
  | inMemory
  | parquet
  | sqlite
  | redis
deriving DecidableEq, Repr

abbrev Kind.Storage : Kind → Type
  | .inMemory => InMemoryCategory
  | .parquet => Store
  | .sqlite => SqliteStorage
  | .redis => RedisStorage

namespace InMemoryCategory

def backend : Backend InMemoryCategory where
  new := new
  getNode := getNode
  getChildren := getChildren
  setRoot := setRoot
  getRoot := getRoot
  updateNode := updateNode
  newNode s _ _ := s.allocId
  insert := some fun s id pfx record => .ok (s.putNode id pfx record)
  txNewNode := txNewNode
  commit := commit
  carried _ tx := tx.ops
  rollsBack := true
  inTurn _ _ := true

end InMemoryCategory

namespace Store

/-- The changes before the first update of a node that is not there. -/
def carried (s : Store) (tx : CategoryTx) : List CategoryTxOp :=
  tx.ops.takeWhile fun
    | .updateNode id _ _ => (tx.nodesOver (fun id => s.inner.nodes.lookup id) id).isSome
    | _ => true

def getChildren (s : Store) (id : Nat) : List Nat := childrenOf s.inner.children id

def setRoot (s : Store) (shard root : Nat) : Store := s.put (.setRoot shard root)

def getRoot (s : Store) (shard : Nat) : Nat := (s.inner.roots.lookup shard).getD 0

def backend : Backend Store where
  new := new
  getNode := getNode
  getChildren := getChildren
  setRoot := setRoot
  getRoot := getRoot
  updateNode := updateNode
  newNode := newNode
  insert := none
  txNewNode s tx pfx record := (s, tx.newNode s.inner pfx record)
  commit := commit
  carried := carried
  rollsBack := false
  inTurn s tx := tx.idsFrom s.inner.counter

end Store

namespace SqliteStorage

def backend : Backend SqliteStorage where
  new := new
  getNode := getNode
  getChildren := getChildren
  setRoot := setRoot
  getRoot := getRoot
  updateNode := updateNode
  newNode s _ _ := s.allocId
  insert := some insertNode
  txNewNode := txNewNode
  commit := commit
  carried _ tx := tx.ops
  rollsBack := true
  inTurn s tx := tx.idsFrom s.next

end SqliteStorage

namespace RedisStorage

def backend : Backend RedisStorage where
  new := new
  getNode := getNode
  getChildren := getChildren
  setRoot := setRoot
  getRoot := getRoot
  updateNode := updateNode
  newNode := newNode
  insert := none
  txNewNode := txNewNode
  commit := commit
  carried _ tx := tx.ops
  rollsBack := false
  inTurn s tx := tx.idsFrom s.branch.length

end RedisStorage

/-- `new_node`, from its first statement to its last. -/
def Backend.create {σ : Type} (B : Backend σ) (s : σ) (pfx : Bytes) (record : Nat) : σ × Except StorageError Nat :=
  let r := B.newNode s pfx record
  match B.insert with
  | none => (r.1, .ok r.2)
  | some insert =>
    match insert r.1 r.2 pfx record with
    | .ok s => (s, .ok r.2)
    | .error e => (r.1, .error e)

def Kind.backend : (k : Kind) → Backend k.Storage
  | .inMemory => InMemoryCategory.backend
  | .parquet => Store.backend
  | .sqlite => SqliteStorage.backend
  | .redis => RedisStorage.backend

end Opsense
