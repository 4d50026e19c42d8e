import Opsense.Lib.RadixForest
import Opsense.Storage.Backends

/-!
# The radix tree and the search index

`opsense-mlib/src/radix.rs` and `search.rs`: keys of elements are kept in the nodes of a category storage, with a root for each
shard. `insert` goes down from the root and divides, extends or fills a node, `searchPrefix` goes down and collects what is
below, and `insertChain` of `Search` inserts and writes the tables beside the nodes. The insertions of an index come one after
another, since `insert` and `insert_chain` take it by `&mut self`.
-/

namespace Opsense

abbrev EMPTY : Nat := 0

/-! ## Elements -/

/-- `Element`: what keys are made of, as bytes of one length. -/
structure Element (T : Type) where
  encode : T → Bytes
  decode : Bytes → T
  byte_size : Nat
  to_usize : T → Nat
  byte_size_pos : 0 < byte_size
  encode_length : ∀ a, (encode a).length = byte_size
  decode_encode : ∀ a, decode (encode a) = a

namespace Element

/-- The big-endian bytes of a number. -/
def beBytes : Nat → Nat → Bytes
  | 0, _ => []
  | n + 1, x => beBytes n (x / 256) ++ [UInt8.ofNat x]

/-- The number of big-endian bytes. -/
def ofBeBytes (bytes : Bytes) : Nat := bytes.foldl (fun x b => 256 * x + b.toNat) 0

@[simp] theorem length_beBytes (n x : Nat) : (beBytes n x).length = n := by
  induction n generalizing x with
  | zero => rfl
  | succ n ih => simp [beBytes, ih]

theorem ofBeBytes_beBytes (n x : Nat) : ofBeBytes (beBytes n x) = x % 256 ^ n := by
  induction n generalizing x with
  | zero => simp [beBytes, ofBeBytes, Nat.mod_one]
  | succ n ih =>
    have h := ih (x / 256)
    unfold ofBeBytes at h ⊢
    rw [beBytes, List.foldl_append, h, pow_succ', Nat.mod_mul]
    simp only [List.foldl_cons, List.foldl_nil, UInt8.toNat_ofNat']
    omega

/-- `impl_element`: the integers of `n` bytes. `as usize` extends the sign of a signed one. -/
def int (signed : Bool) (n : Nat) (hn : 0 < n) : Element (BitVec (8 * n)) where
  encode x := beBytes n x.toNat
  decode bytes := BitVec.ofNat _ (ofBeBytes bytes)
  byte_size := n
  to_usize x := if signed then (x.signExtend 64).toNat else (x.setWidth 64).toNat
  byte_size_pos := hn
  encode_length _ := length_beBytes _ _
  decode_encode x := by
    rw [ofBeBytes_beBytes]
    refine BitVec.eq_of_toNat_eq ?_
    have hpow : 256 ^ n = 2 ^ (8 * n) := by rw [pow_mul]; norm_num
    rw [BitVec.toNat_ofNat, hpow, Nat.mod_mod, Nat.mod_eq_of_lt x.isLt]

variable {T : Type} (E : Element T)

def fromVec (pfx : List T) : Bytes := pfx.flatMap E.encode

/-- `to_vec`: an element for each chunk. -/
def toVec (bytes : Bytes) : List T :=
  (List.range ((bytes.length + E.byte_size - 1) / E.byte_size)).map fun i =>
    E.decode ((bytes.drop (i * E.byte_size)).take E.byte_size)

@[simp] theorem length_fromVec (pfx : List T) : (E.fromVec pfx).length = pfx.length * E.byte_size := by
  induction pfx with
  | nil => simp [fromVec]
  | cons a pfx ih =>
    simp only [fromVec, List.flatMap_cons, List.length_append, E.encode_length] at ih ⊢
    rw [ih, List.length_cons]
    ring

theorem drop_fromVec (pfx : List T) (i : Nat) : (E.fromVec pfx).drop (i * E.byte_size) = E.fromVec (pfx.drop i) := by
  induction pfx generalizing i with
  | nil => simp [fromVec]
  | cons a pfx ih =>
    cases i with
    | zero => simp
    | succ i =>
      have hstep : E.fromVec (a :: pfx) = E.encode a ++ E.fromVec pfx := rfl
      rw [hstep, Nat.succ_mul, Nat.add_comm, ← List.drop_drop, List.drop_left' (E.encode_length a), ih, List.drop_succ_cons]

/-- A piece of a key is read back as it was written. -/
@[simp] theorem toVec_fromVec (pfx : List T) : E.toVec (E.fromVec pfx) = pfx := by
  have hcount : ((E.fromVec pfx).length + E.byte_size - 1) / E.byte_size = pfx.length := by
    have hpos := E.byte_size_pos
    rw [length_fromVec, Nat.add_sub_assoc hpos, Nat.mul_comm, Nat.mul_add_div hpos, Nat.div_eq_of_lt (by omega), Nat.add_zero]
  unfold toVec
  rw [hcount]
  refine List.ext_getElem (by simp) fun i hi hi' => ?_
  rw [List.getElem_map, List.getElem_range, drop_fromVec, List.drop_eq_getElem_cons hi']
  have hstep : E.fromVec (pfx[i] :: pfx.drop (i + 1)) = E.encode pfx[i] ++ E.fromVec (pfx.drop (i + 1)) := rfl
  rw [hstep, List.take_left' (E.encode_length _), E.decode_encode]

end Element

def shardOf {T : Type} (E : Element T) (elem : T) (sharding : Nat) : Nat := E.to_usize elem % sharding

/-! ## The index -/

/-- `radix::Error`. An error of the storage is kept instead of its text. -/
inductive RadixError where
  | invalidIndex
  | notFound
  | callback
  | categoryStorage (error : StorageError)
deriving DecidableEq, Repr

/-- A category storage with the tables that it keeps beside the nodes, which are the same in every backend, and the split events
that `Search` holds until it writes them. -/
structure Index (σ : Type) where
  store : σ
  node_metas : Table Nat Bytes
  shortcuts : Finset (Nat × Bytes × Nat)
  key_lens : Table Nat Nat
  chains : Table Nat (List Nat)
  pending_split_elems : List (Nat × Bytes)

/-- `Radix`, apart from its storage. `on_split` gives what the callback leaves in the buffer of its owner. -/
structure Radix (T : Type) where
  sharding : Nat
  on_node : Option (T → Bytes → Except RadixError Nat)
  on_split : Option (Nat → Nat → List T → Nat → Except RadixError (List (Nat × Bytes)))
  sharding_pos : 0 < sharding

/-- `Radix::new` -/
def Radix.new (T : Type) (sharding : Nat) : Radix T := ⟨max sharding 1, none, none, by omega⟩

/-- A call on the index. -/
abbrev IndexM (σ ε : Type) := EStateM ε (Index σ)

namespace Index

variable {σ : Type} (B : Backend σ)

/-- The index of an empty storage. -/
def new : Index σ := ⟨B.new, ∅, ∅, ∅, ∅, []⟩

/-- What the storage answers. -/
def ask {α : Type} (f : σ → Except StorageError α) : IndexM σ RadixError α := fun s =>
  match f s.store with
  | .ok a => .ok a s
  | .error e => .error (.categoryStorage e) s

/-- What the storage does. -/
def run {α : Type} (f : σ → σ × Except StorageError α) : IndexM σ RadixError α := fun s =>
  match f s.store with
  | (store, .ok a) => .ok a { s with store }
  | (store, .error e) => .error (.categoryStorage e) { s with store }

/-- `new_node` of a transaction. -/
def txNewNode (tx : CategoryTx) (pfx : Bytes) (record : Nat) : IndexM σ RadixError (CategoryTx × Nat) := fun s =>
  let r := B.txNewNode s.store tx pfx record
  .ok r.2 { s with store := r.1 }

def setRoot (shard root : Nat) : IndexM σ RadixError Unit := fun s => .ok () { s with store := B.setRoot s.store shard root }

def addShortcutNode (shard : Nat) (elem : Bytes) (node_id : Nat) (s : Index σ) : Index σ :=
  { s with shortcuts := insert (shard, elem, node_id) s.shortcuts }

end Index

namespace Radix

open Index

variable {σ T : Type} [DecidableEq T] (B : Backend σ) (E : Element T) (R : Radix T)

def fireNode (elem : T) («meta» : Bytes) : IndexM σ RadixError Unit :=
  match R.on_node with
  | none => pure ()
  | some cb =>
    if E.to_usize elem = EMPTY then pure ()
    else
      match cb elem «meta» with
      | .error e => throw e
      | .ok node =>
        if node = EMPTY then pure ()
        else modify fun s => { s with node_metas := s.node_metas.insert node «meta» }

/-- The elements that are given with metadata. -/
def fireNodes (elems : List (T × Option Bytes)) : IndexM σ RadixError Unit :=
  match elems with
  | [] => pure ()
  | (_, none) :: elems => fireNodes elems
  | (elem, some data) :: elems => do
    R.fireNode E elem data
    fireNodes elems

/-- The child whose piece begins with the element: the loop over the children of a node. -/
def findChild (next_elem : T) (s : σ) : List Nat → Except StorageError (Option Nat)
  | [] => .ok none
  | child :: children =>
    match B.getNode s child with
    | .error e => .error e
    | .ok node => if (E.toVec node.1).head? = some next_elem then .ok (some child) else findChild next_elem s children

/-- The new nodes of a split: the one for the rest of the key, if there is one, and the leg. -/
def splitNodes (parent : Nat) (suffix : List T) (value : Nat) ( leg_prefix : List T) (old_record : Nat) :
    IndexM σ RadixError (CategoryTx × Nat × Nat) := do
  let r ← if suffix = [] then pure (CategoryTx.new, parent) else txNewNode B .new (E.fromVec suffix) value
  let leg ← txNewNode B r.1 (E.fromVec leg_prefix) old_record
  pure (leg.1, r.2, leg.2)

/-- The changes of a split. -/
def splitOps (parent leg_id new_id value : Nat) (existing_children : List Nat) ( root_prefix suffix : List T) :
    List CategoryTxOp :=
  existing_children.map (.moveChild parent leg_id) ++ [.addChild parent leg_id] ++
    (if suffix = [] then [] else [.addChild parent new_id]) ++
    [.updateNode parent (some (E.fromVec root_prefix)) (some (if suffix = [] then value else EMPTY))]

/-- The call of `on_split`. -/
def fireSplit (parent leg_id : Nat) ( old_prefix : List T) (breakpoint : Nat) : IndexM σ RadixError Unit :=
  match R.on_split with
  | none => pure ()
  | some cb =>
    match cb parent leg_id old_prefix breakpoint with
    | .error e => throw e
    | .ok elems => modify fun s => { s with pending_split_elems := s.pending_split_elems ++ elems }

def split (parent breakpoint : Nat) (suffix : List T) (value : Nat) : IndexM σ RadixError Nat := do
  let old ← ask fun s => B.getNode s parent
  let existing_children ← ask fun s => .ok (B.getChildren s parent)
  let old_prefix := E.toVec old.1
  let r ← splitNodes B E parent suffix value (List.drop breakpoint old_prefix) old.2
  let tx := (splitOps E parent r.2.2 r.2.1 value existing_children (List.take breakpoint old_prefix) suffix).foldl CategoryTx.push r.1
  R.fireSplit parent r.2.2 old_prefix breakpoint
  run fun s => B.commit s tx
  pure r.2.1

def extend (parent : Nat) (suffix : List T) (value : Nat) : IndexM σ RadixError Nat := do
  let r ← txNewNode B .new (E.fromVec suffix) value
  run fun s => B.commit s (r.1.push (.addChild parent r.2))
  pure r.2

/-- The end of `insert`, for a shard that has no root. A root has one element and no record when the key has more. -/
def newRoot (first : T) (rest : List T) (index : Nat) : IndexM σ RadixError (Nat × Nat) :=
  let si := shardOf E first R.sharding
  if rest ≠ [] then do
    let root ← run fun s => B.create s (E.fromVec [first]) EMPTY
    setRoot B si root
    let leaf ← extend B E root rest index
    modify (addShortcutNode si (E.encode first) root)
    pure (leaf, 1)
  else do
    let id ← run fun s => B.create s (E.fromVec [first]) index
    setRoot B si id
    pure (id, 0)

/-- The loop of `insert`. Each turn after the first takes an element, so `fuel` is never used up. -/
def insertFrom (first : T) (rest : List T) (index : Nat) : Nat → Nat → Nat → IndexM σ RadixError (Nat × Nat)
  | 0, _, _ => throw .notFound
  | fuel + 1, node_id, tail =>
    if node_id = EMPTY then R.newRoot B E first rest index
    else do
      let node ← ask fun s => B.getNode s node_id
      let node_prefix := E.toVec node.1
      let c := common node_prefix ((first :: rest).drop tail)
      if c < node_prefix.length then do
        let id ← R.split B E node_id c ((first :: rest).drop (tail + c)) index
        pure (id, tail)
      else
        match (first :: rest).drop (tail + c) with
        | [] =>
          if node.2 = EMPTY then do
            run fun s => B.updateNode s node_id none (some index)
            pure (node_id, tail + c)
          else pure (EMPTY, tail + c)
        | next_elem :: elems => do
          let children ← ask fun s => .ok (B.getChildren s node_id)
          let child ← ask fun s => findChild B E next_elem s children
          match child with
          | some child => insertFrom first rest index fuel child (tail + c)
          | none => do
            let id ← extend B E node_id (next_elem :: elems) index
            pure (id, tail + c)

def insert (pfx : List T) (index : Nat) (node_metas : List (Option Bytes)) : IndexM σ RadixError (Nat × Nat) :=
  if index = EMPTY then throw .invalidIndex
  else
    match pfx with
    | [] => throw .notFound
    | first :: rest => do
      if node_metas.length = pfx.length then R.fireNodes E (pfx.zip node_metas)
      let node_id ← ask fun s => .ok (B.getRoot s (shardOf E first R.sharding))
      R.insertFrom B E first rest index (pfx.length + 1) node_id 0

/-- The loop of `collect_all`, with the stack from its top. It gives nothing when `steps` are not enough. -/
def collectAll (s : σ) : Nat → List (Nat × List T) → List (List T × Nat) → Option (Except StorageError (List (List T × Nat)))
  | 0, _, _ => none
  | _ + 1, [], results => some (.ok results)
  | steps + 1, (curr_node, current_path) :: stack, results =>
    match B.getNode s curr_node with
    | .error e => some (.error e)
    | .ok node =>
      let pushed := (B.getChildren s curr_node).foldlM (fun stack child =>
        (B.getNode s child).map fun node => (child, current_path ++ E.toVec node.1) :: stack) stack
      match pushed with
      | .error e => some (.error e)
      | .ok stack =>
        collectAll s steps stack (if node.2 ≠ EMPTY then results ++ [(current_path, node.2)] else results)

/-- The loop of `search_prefix`. Each turn after the first takes an element, so `fuel` is never used up. -/
def searchFrom (s : σ) (pfx : List T) (steps : Nat) :
    Nat → Nat → Nat → List T → Option (Except StorageError (List (List T × Nat)))
  | 0, _, _, _ => some (.ok [])
  | fuel + 1, node_id, tail, matched_path =>
    if node_id = EMPTY then some (.ok [])
    else
      match B.getNode s node_id with
      | .error e => some (.error e)
      | .ok node =>
        let node_prefix := E.toVec node.1
        let c := common node_prefix (pfx.drop tail)
        if c = (pfx.drop tail).length then collectAll B E s steps [(node_id, matched_path ++ node_prefix)] []
        else if c < node_prefix.length then some (.ok [])
        else
          match (pfx.drop (tail + c)).head? with
          | none => some (.ok [])
          | some next_elem =>
            match findChild B E next_elem s (B.getChildren s node_id) with
            | .error e => some (.error e)
            | .ok child => searchFrom s pfx steps fuel (child.getD EMPTY) (tail + c) (matched_path ++ node_prefix)

/-- `search_prefix`. It gives nothing when `collect_all` is not done after `steps`. -/
def searchPrefix (s : σ) (steps begin_ : Nat) (pfx : List T) : Option (Except StorageError (List (List T × Nat))) :=
  match pfx with
  | [] => some (.ok [])
  | first :: _ =>
    let node_id := if begin_ = EMPTY then B.getRoot s (shardOf E first R.sharding) else begin_
    searchFrom B E s pfx steps (pfx.length + 1) node_id 0 []

end Radix

/-! ## Search -/

/-- The errors of `Search`, and a panic. -/
inductive SearchError where
  | notFound
  | duplicated
  | storage (error : RadixError)
  | panicked
deriving DecidableEq, Repr

/-- `From<radix::Error>` -/
def SearchError.ofRadix : RadixError → SearchError
  | .notFound => .notFound
  | e => .storage e

namespace Search

open Index

variable {σ T : Type} [DecidableEq T] (B : Backend σ) (E : Element T)

/-- The trie of `Search::new`. -/
def trie (sharding : Nat) : Radix T :=
  { Radix.new T sharding with
    on_node := some fun elem _ => .ok (E.to_usize elem)
    on_split := some fun _ leg_id old_prefix breakpoint =>
      .ok ((List.drop breakpoint old_prefix).map fun elem => (leg_id, E.encode elem)) }

/-- An element of a chain, in a buffer of eight bytes. -/
def chainElem (bytes : Bytes) : Nat := Element.ofBeBytes (bytes ++ List.replicate (8 - bytes.length) 0)

/-- What `insert_chain` writes once the tree has the key. A buffer takes eight bytes, and a longer element panics. -/
def written (sharding : Nat) (key : List T) (index node_id tail : Nat) (s : Index σ) : EStateM.Result SearchError (Index σ) Unit :=
  let s := s.pending_split_elems.foldl
    (fun s elem => s.addShortcutNode (shardOf E (E.decode elem.2) sharding) elem.2 elem.1) { s with pending_split_elems := [] }
  let s := { s with key_lens := s.key_lens.insert index key.length }
  if 8 < E.byte_size then .error .panicked s
  else
    let s := { s with chains := s.chains.insert index (key.map fun e => chainElem (E.encode e)) }
    .ok () ((key.drop tail).foldl
      (fun s elem => s.addShortcutNode (shardOf E elem sharding) (E.encode elem) node_id) s)

def insertChain (sharding index : Nat) (key : List T) (metas : List (Option Bytes)) : IndexM σ SearchError Unit := fun s =>
  match key with
  | [] => .error .notFound s
  | _ :: _ =>
    match (trie E sharding).insert B E key index metas s with
    | .error e s => .error (.ofRadix e) s
    | .ok r s =>
      if r.1 = EMPTY then .error .duplicated { s with pending_split_elems := [] }
      else written E (trie (T := T) E sharding).sharding key index r.1 r.2 s

def startWith (sharding : Nat) (s : Index σ) (steps : Nat) (pfx : List T) :
    Option (Except SearchError (List (List T × Nat))) :=
  match pfx with
  | [] => some (.ok [])
  | _ :: _ =>
    ((trie E sharding).searchPrefix B E s.store steps EMPTY pfx).map fun r => r.mapError fun e => .storage (.categoryStorage e)

end Search

end Opsense
