import Mathlib.Data.List.AList
import Mathlib.Data.List.FinRange
import Opsense.Lib.Links
import Opsense.Lib.Machine

/-!
# The LRU cache

`LruCache<K, V, S>` of `opsense-mlib/src/lru.rs`: an arena of nodes, a mapping from keys to node indices, and `S` shards,
each owning the ends of a doubly linked list of nodes in recency order. With the feature `lru-shared-memory` every node starts
in one free list and a shard takes a node when it needs one (namespace `Shared`); without it the arena is cut into `S` blocks
and a shard only ever writes the last node of its own block (namespace `Partitioned`).

Runs are sequential, so every `try_lock` and every compare-and-swap succeeds at once, and a `DashMap` is a finite map. The
source's `NULL` is `none`, and the boxed slice `caching` is a function on the indices below `len`. What the hooks of the cache
are called with is the output of an operation, in call order.
-/

namespace Opsense

/-- A node of the arena. -/
structure Node (K V : Type) where
  key : Option K
  value : Option V
  next : Option Nat
  prev : Option Nat
deriving DecidableEq, Repr

/-- The ends of a shard's list. -/
abbrev HeadTail := Ends Nat

/-- A call of one of the cache's hooks: `on_removing`, `on_updating` and `persist_point`. -/
inductive Hook (K V : Type) where
  | removing (key : K) (value : V)
  | updating (key : K) (value : V)
  | persist (key : K) (value : V)
deriving DecidableEq, Repr

/-- A call of the cache. -/
inductive Call (K V : Type) where
  | put (key : K) (value : V)
  | get (key : K)
  | remove (key : K)
  | clear
deriving DecidableEq, Repr

/-- What a call gives back: the value `get` and `remove` return, the number `clear` returns, and the hooks the call made. -/
structure Answer (K V : Type) where
  value : Option V := none
  removed : Nat := 0
  hooks : List (Hook K V) := []
deriving DecidableEq, Repr

structure LruCache (K V : Type) (S : Nat) where
  mapping : AList (fun _ : K => Nat)
  caching : Nat → Node K V
  /-- `caching.len()` -/
  len : Nat
  shards : Fin S → HeadTail
  /-- The head of the free list; the partitioned layout has none and never reads it. -/
  freeHead : Option Nat

namespace LruCache

variable {K V : Type} [DecidableEq K] {S : Nat}

omit [DecidableEq K] in
/-- The links of the arena's nodes. -/
def links (c : LruCache K V S) : Links Nat :=
  ⟨fun i => (c.caching i).next, fun i => (c.caching i).prev⟩

/-! ## Writes to one field -/

def setNext (c : LruCache K V S) (i : Nat) (x : Option Nat) : LruCache K V S :=
  { c with caching := Function.update c.caching i { c.caching i with next := x } }

def setPrev (c : LruCache K V S) (i : Nat) (x : Option Nat) : LruCache K V S :=
  { c with caching := Function.update c.caching i { c.caching i with prev := x } }

def setValue (c : LruCache K V S) (i : Nat) (v : Option V) : LruCache K V S :=
  { c with caching := Function.update c.caching i { c.caching i with value := v } }

/-- Write the key and the value of a node. -/
def setEntry (c : LruCache K V S) (i : Nat) (k : Option K) (v : Option V) : LruCache K V S :=
  { c with caching := Function.update c.caching i { c.caching i with key := k, value := v } }

def setShard (c : LruCache K V S) (s : Fin S) (ht : HeadTail) : LruCache K V S :=
  { c with shards := Function.update c.shards s ht }

/-- `if p != NULL { caching[p].next = n }` -/
def linkNext (c : LruCache K V S) (p n : Option Nat) : LruCache K V S :=
  match p with
  | some p => c.setNext p n
  | none => c

/-- `if n != NULL { caching[n].prev = p }` -/
def linkPrev (c : LruCache K V S) (p n : Option Nat) : LruCache K V S :=
  match n with
  | some n => c.setPrev n p
  | none => c

/-! ## The recency lists -/

/-- `move_to_front_inside_lock`, on the list of shard `s`. -/
def moveToFrontInsideLock (c : LruCache K V S) (s : Fin S) (index : Nat) : LruCache K V S :=
  let ht := c.shards s
  if ht.first = some index ∨ ht.first = none then c
  else
    let p := (c.caching index).prev
    let n := (c.caching index).next
    let c := (c.linkNext p n).linkPrev p n
    let last := if some index = ht.last then p else ht.last
    let oldFirst := ht.first
    let c := (c.setNext index oldFirst).setPrev index none
    let c := c.linkPrev (some index) oldFirst
    c.setShard s ⟨some index, last⟩

/-- `get`: the value of the node the mapping points to, which moves to the front of its shard's list. -/
def get (hash : K → Fin S) (c : LruCache K V S) (key : K) : LruCache K V S × Option V :=
  match c.mapping.lookup key with
  | none => (c, none)
  | some index =>
    match (c.caching index).value with
    | none => (c, none)
    | some val => (c.moveToFrontInsideLock (hash key) index, some val)

/-- The first case of `put`: the key is in the mapping, and its node gets the new value. -/
def putUpdate (hash : K → Fin S) (c : LruCache K V S) (key : K) (value : V) (index : Nat) :
    LruCache K V S × List (Hook K V) :=
  ((c.setValue index (some value)).moveToFrontInsideLock (hash key) index,
    [.updating key value, .persist key value])

/-- What the node `index` holds, as `key.take()` and `value.take().unwrap()` read it: a node with a key has a value. -/
def entryAt (c : LruCache K V S) (index : Nat) : Option (K × V) :=
  match (c.caching index).key, (c.caching index).value with
  | some k, some v => some (k, v)
  | _, _ => none

/-- The calls an evicted entry gives rise to. -/
def evictedHooks : Option (K × V) → List (Hook K V)
  | some (k, v) => [.removing k v, .persist k v]
  | none => []

/-! ## One arena for all shards (`lru-shared-memory`) -/

namespace Shared

omit [DecidableEq K] in
/-- The arena as `new` and `clear` write it: no node holds an entry, and each points to the next one. -/
def freshCaching (len : Nat) : Nat → Node K V := fun i =>
  if i < len then ⟨none, none, if i + 1 < len then some (i + 1) else none, none⟩ else ⟨none, none, none, none⟩

omit [DecidableEq K] in
def new (total_capacity : Nat) : LruCache K V S where
  mapping := ∅
  caching := freshCaching total_capacity
  len := total_capacity
  shards := fun _ => ⟨none, none⟩
  freeHead := if total_capacity = 0 then none else some 0

omit [DecidableEq K] in
def freePop (c : LruCache K V S) : Option (LruCache K V S × Nat) :=
  match c.freeHead with
  | none => none
  | some head =>
    let next := (c.caching head).next
    some (({ c with freeHead := next } : LruCache K V S).setNext head none, head)

omit [DecidableEq K] in
def freePush (c : LruCache K V S) (index : Nat) : LruCache K V S :=
  { c.setNext index c.freeHead with freeHead := some index }

omit [DecidableEq K] in
/-- `unlink_inside_lock`, on the list of shard `s`. -/
def unlinkInsideLock (c : LruCache K V S) (s : Fin S) (index : Nat) : LruCache K V S :=
  let p := (c.caching index).prev
  let n := (c.caching index).next
  let c := ((c.linkNext p n).linkPrev p n).setShard s ((c.shards s).cut p n)
  (c.setPrev index none).setNext index none

/-- The shards in the order `acquire_node` asks them: `(start + off) % S` for each `start` and each `off`. -/
def scanOrder (S : Nat) : List (Fin S) :=
  (List.finRange S).flatMap fun start =>
    (List.finRange S).map fun off => ⟨(start.val + off.val) % S, Nat.mod_lt _ start.pos⟩

/-- Take the last node `v_idx` of shard `i` and the entry it holds. -/
def evictLast (c : LruCache K V S) (i : Fin S) (v_idx : Nat) : LruCache K V S × Nat × Option (K × V) :=
  let evicted := c.entryAt v_idx
  let c := unlinkInsideLock (c.setEntry v_idx none none) i v_idx
  match evicted with
  | some (ek, _) => ({ c with mapping := c.mapping.erase ek }, v_idx, evicted)
  | none => (c, v_idx, none)

/-- `acquire_node`: a node of the free list, or else the last node of the first shard that has one. -/
def acquireNode (c : LruCache K V S) : Option (LruCache K V S × Nat × Option (K × V)) :=
  match freePop c with
  | some (c, idx) => some (c, idx, none)
  | none => (scanOrder S).findSome? fun i => (c.shards i).last.map (evictLast c i)

omit [DecidableEq K] in
/-- Join an acquired node to the list of shard `s`. `moveToFrontInsideLock` does nothing on an empty list, so there the
node becomes the list. -/
def joinShard (c : LruCache K V S) (s : Fin S) (idx : Nat) : LruCache K V S :=
  if (c.shards s).first = none then
    ((c.setPrev idx none).setNext idx none).setShard s ⟨some idx, some idx⟩
  else c.moveToFrontInsideLock s idx

/-- The second case of `put` after a node was acquired: the entry is written, and the node joins its shard's list. -/
def place (hash : K → Fin S) (c : LruCache K V S) (key : K) (value : V) (idx : Nat) : LruCache K V S :=
  let c := c.setEntry idx (some key) (some value)
  let c : LruCache K V S := { c with mapping := c.mapping.insert key idx }
  joinShard c (hash key) idx

def put (hash : K → Fin S) (c : LruCache K V S) (key : K) (value : V) : LruCache K V S × List (Hook K V) :=
  match c.mapping.lookup key with
  | some index => c.putUpdate hash key value index
  | none =>
    match acquireNode c with
    | none => (c, [])
    | some (c, idx, evicted) => (place hash c key value idx, evictedHooks evicted)

/-- `clear`, with the number of entries it removed. -/
def clear (c : LruCache K V S) : LruCache K V S × Nat :=
  ({ c with
      mapping := ∅
      caching := freshCaching c.len
      shards := fun _ => ⟨none, none⟩
      freeHead := if c.len = 0 then none else some 0 }, c.mapping.entries.length)

/-- `remove`, with the value it returns and the hooks it calls. -/
def remove (hash : K → Fin S) (c : LruCache K V S) (key : K) : LruCache K V S × Option V × List (Hook K V) :=
  match c.mapping.lookup key with
  | none => (c, none, [])
  | some index =>
    let value := (c.caching index).value
    let c : LruCache K V S := { c with mapping := c.mapping.erase key }
    let c := unlinkInsideLock (c.setEntry index none none) (hash key) index
    (freePush c index, value, (value.map (Hook.persist key)).toList)

/-- One call of the cache. -/
def step (hash : K → Fin S) (c : LruCache K V S) : Call K V → LruCache K V S × Answer K V
  | .put key value => let r := put hash c key value; (r.1, { hooks := r.2 })
  | .get key => let r := c.get hash key; (r.1, { value := r.2 })
  | .remove key => let r := remove hash c key; (r.1, { value := r.2.1, hooks := r.2.2 })
  | .clear => let r := clear c; (r.1, { removed := r.2 })

/-- The cache over its runs. -/
def machine (hash : K → Fin S) (total_capacity : Nat) : Machine (LruCache K V S) (Call K V) (Answer K V) :=
  ⟨new total_capacity, step hash⟩

end Shared

/-! ## An arena cut into blocks (without `lru-shared-memory`) -/

namespace Partitioned

omit [DecidableEq K] in
/-- The arena as `new` and `clear` write it: blocks of `per_shard` nodes, each block linked in index order. -/
def freshCaching (per_shard : Nat) : Nat → Node K V := fun current =>
  if current < per_shard * S then
    let i := current % per_shard
    ⟨none, none, if i + 1 < per_shard then some (current + 1) else none, if 0 < i then some (current - 1) else none⟩
  else ⟨none, none, none, none⟩

omit [DecidableEq K] in
/-- The ends of the block of shard `s`. -/
def freshShard (per_shard : Nat) (s : Fin S) : HeadTail :=
  let offset := s.val * per_shard
  if 0 < per_shard then ⟨some offset, some (offset + per_shard - 1)⟩ else ⟨none, none⟩

omit [DecidableEq K] in
/-- `new`: shard `s` owns the block of `ceil(total_capacity / S)` nodes at its offset. -/
def new (total_capacity : Nat) : LruCache K V S :=
  let capacity_per_shard := (total_capacity + S - 1) / S
  { mapping := ∅
    caching := freshCaching (S := S) capacity_per_shard
    len := capacity_per_shard * S
    shards := freshShard capacity_per_shard
    freeHead := none }

/-- `clear`, with the number of entries it removed. -/
def clear (c : LruCache K V S) : LruCache K V S × Nat :=
  let per_shard := c.len / S
  ({ c with
      mapping := ∅
      caching := freshCaching (S := S) per_shard
      shards := freshShard per_shard }, c.mapping.entries.length)

/-- Write an entry into the node `last`, over the entry that is there. The key of that entry is removed from the mapping
whether or not the mapping still points to this node. -/
def writeLast (c : LruCache K V S) (key : K) (value : V) (last : Nat) : LruCache K V S :=
  let c : LruCache K V S :=
    match c.entryAt last with
    | some (old_key, _) => { c with mapping := c.mapping.erase old_key }
    | none => c
  let c := c.setEntry last (some key) (some value)
  { c with mapping := c.mapping.insert key last }

/-- The second case of `put`, with `last` the last node of the key's shard. -/
def overwriteLast (hash : K → Fin S) (c : LruCache K V S) (key : K) (value : V) (last : Nat) :
    LruCache K V S × List (Hook K V) :=
  ((writeLast c key value last).moveToFrontInsideLock (hash key) last, evictedHooks (c.entryAt last))

def put (hash : K → Fin S) (c : LruCache K V S) (key : K) (value : V) : LruCache K V S × List (Hook K V) :=
  match c.mapping.lookup key with
  | some index => c.putUpdate hash key value index
  | none =>
    match (c.shards (hash key)).last with
    | none => (c, [])
    | some last => overwriteLast hash c key value last

/-- `remove`: the key leaves the mapping; its node keeps the key, the value and its place in the list. -/
def remove (c : LruCache K V S) (key : K) : LruCache K V S × Option V × List (Hook K V) :=
  match c.mapping.lookup key with
  | none => (c, none, [])
  | some index =>
    let value := (c.caching index).value
    ({ c with mapping := c.mapping.erase key }, value, (value.map (Hook.persist key)).toList)

/-- One call of the cache. -/
def step (hash : K → Fin S) (c : LruCache K V S) : Call K V → LruCache K V S × Answer K V
  | .put key value => let r := put hash c key value; (r.1, { hooks := r.2 })
  | .get key => let r := c.get hash key; (r.1, { value := r.2 })
  | .remove key => let r := remove c key; (r.1, { value := r.2.1, hooks := r.2.2 })
  | .clear => let r := clear c; (r.1, { removed := r.2 })

/-- The cache over its runs. -/
def machine (hash : K → Fin S) (total_capacity : Nat) : Machine (LruCache K V S) (Call K V) (Answer K V) :=
  ⟨new total_capacity, step hash⟩

end Partitioned

/-- What a read of a key returns. -/
def peek (hash : K → Fin S) (c : LruCache K V S) (k : K) : Option V := (c.get hash k).2

theorem peek_eq (hash : K → Fin S) (c : LruCache K V S) (k : K) :
    peek hash c k = (c.mapping.lookup k).bind fun i => (c.caching i).value := by
  unfold peek get
  cases c.mapping.lookup k with
  | none => rfl
  | some i => cases h : (c.caching i).value <;> simp [h]

end LruCache

end Opsense
