import Opsense.Storage.Backends

/-!
# The ids of nodes

Any number of transactions are open on one store, and `new_node` is called on the store as well. Two nodes never get one id,
no commit fails on an id and every node reads as it was made and later updated, in every run on `InMemoryStorage` and in every
run on the other backends whose commits come in turn: no node was written between the first `new_node` of the transaction and
its commit (`reserved_ids`).
-/

namespace Opsense

/-- The nodes that were created, with what they should hold. -/
abbrev Ledger := List (Nat × Bytes × Nat)

namespace Ledger

def update (created : Ledger) (id : Nat) (pfx : Option Bytes) (record : Option Nat) : Ledger :=
  created.map fun node => if node.1 = id then (node.1, updated pfx record node.2) else node

/-- A change of a transaction. -/
def apply (created : Ledger) : CategoryTxOp → Ledger
  | .updateNode id pfx record => created.update id pfx record
  | _ => created

end Ledger

/-- A store with its open transactions and the direct calls of `new_node` between their two statements. -/
structure InUse (σ : Type) where
  store : σ
  txs : List (Option CategoryTx)
  calls : List (Nat × Bytes × Nat)
  created : Ledger

/-- A call on a store. A transaction is named by how many were opened before it. -/
inductive TxAct where
  | newTx
  | txNewNode (tx : Nat) (pfx : Bytes) (record : Nat)
  | txPush (tx : Nat) (op : CategoryTxOp)
  | commit (tx : Nat)
  | drop (tx : Nat)
  | newNode (pfx : Bytes) (record : Nat)
  | finish (call : Nat)
  | updateNode (id : Nat) (pfx : Option Bytes) (record : Option Nat)
deriving DecidableEq, Repr

inductive TxAnswer where
  | done
  | id (id : Nat)
  | failed (e : StorageError)
  | closed
deriving DecidableEq, Repr

namespace InUse

variable {σ : Type} (B : Backend σ) (s : InUse σ)

/-- The transaction, while it is open. -/
def tx (i : Nat) : Option CategoryTx := s.txs[i]?.join

def commit (i : Nat) : InUse σ × TxAnswer :=
  match s.tx i with
  | none => (s, .closed)
  | some tx =>
    let r := B.commit s.store tx
    let created := (B.carried s.store tx).foldl Ledger.apply (s.created ++ tx.nodes)
    match r.2 with
    | .ok () => ({ s with store := r.1, txs := s.txs.set i none, created }, .done)
    | .error e =>
      ({ s with store := r.1, txs := s.txs.set i none, created := if B.rollsBack then s.created else created }, .failed e)

def newNode (pfx : Bytes) (record : Nat) : InUse σ × TxAnswer :=
  let r := B.newNode s.store pfx record
  match B.insert with
  | none => ({ s with store := r.1, created := s.created ++ [(r.2, pfx, record)] }, .id r.2)
  | some _ => ({ s with store := r.1, calls := s.calls ++ [(r.2, pfx, record)] }, .done)

def finish (i : Nat) : InUse σ × TxAnswer :=
  match B.insert, s.calls[i]? with
  | some insert, some call =>
    match insert s.store call.1 call.2.1 call.2.2 with
    | .ok store => ({ s with store, calls := s.calls.eraseIdx i, created := s.created ++ [call] }, .id call.1)
    | .error e => ({ s with calls := s.calls.eraseIdx i }, .failed e)
  | _, _ => (s, .closed)

def updateNode (id : Nat) (pfx : Option Bytes) (record : Option Nat) : InUse σ × TxAnswer :=
  let r := B.updateNode s.store id pfx record
  match r.2 with
  | .ok () => ({ s with store := r.1, created := s.created.update id pfx record }, .done)
  | .error e => ({ s with store := r.1 }, .failed e)

def step : TxAct → InUse σ × TxAnswer
  | .newTx => ({ s with txs := s.txs ++ [some .new] }, .id s.txs.length)
  | .txNewNode i pfx record =>
    match s.tx i with
    | none => (s, .closed)
    | some tx =>
      let r := B.txNewNode s.store tx pfx record
      ({ s with store := r.1, txs := s.txs.set i (some r.2.1) }, .id r.2.2)
  | .txPush i op =>
    match s.tx i with
    | none => (s, .closed)
    | some tx => ({ s with txs := s.txs.set i (some (tx.push op)) }, .done)
  | .commit i => s.commit B i
  | .drop i => ({ s with txs := s.txs.set i none }, .done)
  | .newNode pfx record => s.newNode B pfx record
  | .finish i => s.finish B i
  | .updateNode id pfx record => s.updateNode B id pfx record

/-- A store in use, over the calls on it. -/
def machine : Machine (InUse σ) TxAct TxAnswer := ⟨⟨B.new, [], [], []⟩, fun s a => s.step B a⟩

/-- The transaction that is committed has ids that no other call was given. -/
def InTurn (s : InUse σ) : TxAct → Prop
  | .commit i => ∀ tx ∈ s.tx i, B.inTurn s.store tx
  | _ => True

instance : ∀ a, Decidable (InTurn B s a)
  | .commit i => inferInstanceAs (Decidable (∀ tx ∈ s.tx i, B.inTurn s.store tx))
  | .newTx | .txNewNode .. | .txPush .. | .drop _ | .newNode .. | .finish _ | .updateNode .. => isTrue trivial

/-- No commit fails but for an update of a node that is not there, and no direct call of `new_node` fails. -/
def Served (s : InUse σ) : TxAct → Prop
  | .commit i => ∀ tx ∈ s.tx i, ∀ e, (B.commit s.store tx).2 = .error e → tx.Misses fun id => (B.getNode s.store id).toOption
  | .finish i => ∀ e, (s.finish B i).2 ≠ .failed e
  | _ => True

/-- The nodes that were created have different ids, and each reads as it was made and later updated. -/
structure Reserved : Prop where
  distinct : (s.created.map Prod.fst).Nodup
  reads : ∀ node ∈ s.created, B.getNode s.store node.1 = .ok node.2

end InUse

/-! ## Created nodes -/

namespace Ledger

@[simp] theorem update_ids (created : Ledger) (id : Nat) (pfx : Option Bytes) (record : Option Nat) :
    (created.update id pfx record).map Prod.fst = created.map Prod.fst := by
  unfold update
  rw [List.map_map]
  refine List.map_congr_left fun node _ => ?_
  by_cases h : node.1 = id <;> simp [h]

@[simp] theorem applies_ids (ops : List CategoryTxOp) (created : Ledger) :
    (ops.foldl apply created).map Prod.fst = created.map Prod.fst := by
  induction ops generalizing created with
  | nil => rfl
  | cons op ops ih =>
    rw [List.foldl_cons, ih]
    cases op <;> simp [apply]

/-- The nodes read as they should. -/
def Reads (getNode : Nat → Except StorageError (Bytes × Nat)) (created : Ledger) : Prop :=
  ∀ node ∈ created, getNode node.1 = .ok node.2

variable {get get' : Nat → Except StorageError (Bytes × Nat)} {created : Ledger}

theorem Reads.snoc (h : Reads get created) {node : Nat × Bytes × Nat} (hnew : node.1 ∉ created.map Prod.fst)
    (hkept : ∀ id n, get id = .ok n → id ≠ node.1 → get' id = .ok n) (hnode : get' node.1 = .ok node.2) :
    Reads get' (created ++ [node]) := by
  intro n hn
  rcases List.mem_append.mp hn with hn | hn
  · refine hkept _ _ (h n hn) fun heq => hnew ?_
    rw [← heq]
    exact List.mem_map_of_mem hn
  · rw [List.mem_singleton.mp hn]
    exact hnode

theorem Reads.update (h : Reads get created) {id : Nat} {pfx : Option Bytes} {record : Option Nat}
    (hkept : ∀ i n, get i = .ok n → i ≠ id → get' i = .ok n)
    (hnode : ∀ n, get id = .ok n → get' id = .ok (updated pfx record n)) : Reads get' (created.update id pfx record) := by
  intro n hn
  obtain ⟨node, hmem, rfl⟩ := List.mem_map.mp hn
  by_cases heq : node.1 = id
  · subst heq
    simp only [if_true]
    exact hnode _ (h node hmem)
  · simp only [heq, if_false]
    exact hkept _ _ (h node hmem) heq

end Ledger

/-- What a backend does, as far as ids go. `next` is the id that comes next, `Free` says that a node can be written under an
id, and `takes` that a transaction takes its ids out of `next`. -/
structure Backend.Lawful {σ : Type} (B : Backend σ) (next : σ → Nat) (Ok : σ → Prop) (Free : σ → Nat → Prop) (takes : Bool) :
    Prop where
  new_ok : Ok B.new
  new_next : 1 ≤ next B.new
  new_free : ∀ id, 1 ≤ id → Free B.new id
  tx_tx : ∀ s tx pfx record, (B.txNewNode s tx pfx record).2.1 = tx.withNode (B.txNewNode s tx pfx record).2.2 pfx record
  tx_ok : ∀ s tx pfx record, Ok s → Ok (B.txNewNode s tx pfx record).1
  tx_free : ∀ s tx pfx record id, Free s id → Free (B.txNewNode s tx pfx record).1 id
  tx_reads : ∀ s tx pfx record id, B.getNode (B.txNewNode s tx pfx record).1 id = B.getNode s id
  tx_id : takes → ∀ s tx pfx record, (B.txNewNode s tx pfx record).2.2 = next s
  tx_next : ∀ s tx pfx record, next (B.txNewNode s tx pfx record).1 = next s + if takes then 1 else 0
  node_id : ∀ s pfx record, Ok s → (B.newNode s pfx record).2 = next s
  node_next : ∀ s pfx record, Ok s → next (B.newNode s pfx record).1 = next s + 1
  node_ok : ∀ s pfx record, Ok s → Ok (B.newNode s pfx record).1
  node_free : ∀ s pfx record id, Ok s → id ≠ next s → Free s id → Free (B.newNode s pfx record).1 id
  node_free_next : B.insert ≠ none → ∀ s pfx record, Ok s → Free s (next s) → Free (B.newNode s pfx record).1 (next s)
  node_reads : ∀ s pfx record id n, Ok s → B.getNode s id = .ok n → id ≠ next s → B.getNode (B.newNode s pfx record).1 id = .ok n
  node_node : B.insert = none → ∀ s pfx record, Ok s → B.getNode (B.newNode s pfx record).1 (next s) = .ok (pfx, record)
  insert : ∀ insert ∈ B.insert, ∀ s id pfx record, Ok s → Free s id → id < next s → ∃ t, insert s id pfx record = .ok t ∧
    Ok t ∧ next t = next s ∧ (∀ i, i ≠ id → Free s i → Free t i) ∧
    (∀ i n, B.getNode s i = .ok n → i ≠ id → B.getNode t i = .ok n) ∧ B.getNode t id = .ok (pfx, record)
  update_ok : ∀ s id pfx record, Ok s → Ok (B.updateNode s id pfx record).1
  update_next : ∀ s id pfx record, Ok s → next (B.updateNode s id pfx record).1 = next s
  update_free : ∀ s id pfx record i, Ok s → Free s i → Free (B.updateNode s id pfx record).1 i
  update_reads : ∀ s id pfx record i n, Ok s → B.getNode s i = .ok n → i ≠ id →
    B.getNode (B.updateNode s id pfx record).1 i = .ok n
  update_node : ∀ s id pfx record n, Ok s → B.getNode s id = .ok n → (B.updateNode s id pfx record).2 = .ok () ∧
    B.getNode (B.updateNode s id pfx record).1 id = .ok (updated pfx record n)
  in_turn : takes = false → ∀ s tx, B.inTurn s tx → tx.nodes.map Prod.fst = List.range' (next s) tx.nodes.length
  commit : ∀ s tx, Ok s → B.inTurn s tx → (tx.nodes.map Prod.fst).Nodup → (∀ id ∈ tx.nodes.map Prod.fst, Free s id) →
    (takes → ∀ id ∈ tx.nodes.map Prod.fst, id < next s) →
    Ok (B.commit s tx).1 ∧ next (B.commit s tx).1 = next s + (if takes then 0 else tx.nodes.length) ∧
    (∀ id, id ∉ tx.nodes.map Prod.fst → Free s id → Free (B.commit s tx).1 id) ∧
    (∀ e, (B.commit s tx).2 = .error e → B.rollsBack = false ∧ tx.Misses fun id => (B.getNode s id).toOption) ∧
    ∀ created, Ledger.Reads (B.getNode s) created → ((created ++ tx.nodes).map Prod.fst).Nodup →
      Ledger.Reads (B.getNode (B.commit s tx).1) ((B.carried s tx).foldl Ledger.apply (created ++ tx.nodes))

namespace InUse

/-! ## The ids that are taken -/

/-- The ids of a transaction. -/
def idsOf (tx : Option CategoryTx) : List Nat := (tx.map fun tx => tx.nodes.map Prod.fst).getD []

/-- The ids that the open transactions hold. -/
def held (txs : List (Option CategoryTx)) : List Nat := txs.flatMap idsOf

variable {i : Nat}

theorem held_set (txs : List (Option CategoryTx)) (hi : i < txs.length) (tx : Option CategoryTx) :
    (held (txs.set i tx)).Perm (idsOf tx ++ held (txs.set i none)) := by
  have hset : ∀ tx, held (txs.set i tx) = held (txs.take i) ++ (idsOf tx ++ held (txs.drop (i + 1))) := by
    intro tx
    rw [List.set_eq_take_append_cons_drop, if_pos hi]
    simp [held]
  rw [hset, hset]
  exact List.perm_append_comm_assoc _ _ _

variable {σ : Type} {B : Backend σ} {next : σ → Nat} {Ok : σ → Prop} {Free : σ → Nat → Prop} {takes : Bool} {s : InUse σ}

/-- The ids of the nodes that were created or will be. -/
def taken (takes : Bool) (s : InUse σ) : List Nat :=
  s.created.map Prod.fst ++ (s.calls.map Prod.fst ++ if takes then held s.txs else [])

/-- What holds whatever was called. -/
structure Kept (B : Backend σ) (next : σ → Nat) (Ok : σ → Prop) (Free : σ → Nat → Prop) (takes : Bool) (s : InUse σ) :
    Prop where
  ok : Ok s.store
  one_le : 1 ≤ next s.store
  distinct : (s.taken takes).Nodup
  bound : ∀ id ∈ s.taken takes, 1 ≤ id ∧ id < next s.store
  free : ∀ id, 1 ≤ id → id ∉ s.created.map Prod.fst → Free s.store id
  reads : Ledger.Reads (B.getNode s.store) s.created

theorem tx_open {tx : CategoryTx} (h : s.tx i = some tx) : i < s.txs.length ∧ s.txs.set i (some tx) = s.txs := by
  obtain ⟨hi, hget⟩ := List.getElem?_eq_some_iff.mp (Option.join_eq_some_iff.mp h)
  refine ⟨hi, ?_⟩
  rw [← hget, List.set_getElem_self]

/-- What the open transactions hold, one of them apart. -/
theorem held_open {tx : CategoryTx} (h : s.tx i = some tx) :
    (held s.txs).Perm (tx.nodes.map Prod.fst ++ held (s.txs.set i none)) := by
  obtain ⟨hi, hset⟩ := tx_open h
  have hperm := held_set s.txs hi (some tx)
  rwa [hset] at hperm

theorem Kept.newTx (h : s.Kept B next Ok Free takes) : Kept B next Ok Free takes { s with txs := s.txs ++ [some .new] } := by
  have htaken : taken takes { s with txs := s.txs ++ [some .new] } = s.taken takes := by
    simp [taken, held, idsOf, CategoryTx.new]
  exact ⟨h.ok, h.one_le, htaken ▸ h.distinct, fun id hid => h.bound id (htaken ▸ hid), h.free, h.reads⟩

/-- A transaction that takes ids out of the counter holds the next one as well then. -/
theorem taken_txNewNode {tx : CategoryTx} (htx : s.tx i = some tx) (store : σ) (id : Nat) (pfx : Bytes) (record : Nat) :
    (taken true { s with store, txs := s.txs.set i (some (tx.withNode id pfx record)) }).Perm
      (id :: s.taken true) := by
  have hafter := held_set s.txs (tx_open htx).1 (some (tx.withNode id pfx record))
  have hids : idsOf (some (tx.withNode id pfx record)) = tx.nodes.map Prod.fst ++ [id] := by
    simp [idsOf, CategoryTx.withNode]
  rw [hids] at hafter
  refine List.perm_iff_count.mpr fun a => ?_
  have hcount := hafter.count_eq a
  have hcount' := (held_open htx).count_eq a
  simp only [List.count_append] at hcount hcount'
  simp only [taken, if_true, List.count_append, List.count_cons, hcount, hcount', List.count_nil]
  omega

theorem taken_cons {s t : InUse σ} (h : s.Kept B next Ok Free takes)
    (hperm : (t.taken takes).Perm (next s.store :: s.taken takes)) :
    (t.taken takes).Nodup ∧ ∀ id ∈ t.taken takes, 1 ≤ id ∧ id < next s.store + 1 := by
  refine ⟨hperm.nodup_iff.mpr (List.nodup_cons.mpr ⟨fun hmem => ?_, h.distinct⟩), fun id hid => ?_⟩
  · exact absurd (h.bound _ hmem).2 (lt_irrefl _)
  · rcases List.mem_cons.mp (hperm.mem_iff.mp hid) with heq | hold
    · rw [heq]
      exact ⟨h.one_le, Nat.lt_succ_self _⟩
    · exact ⟨(h.bound id hold).1, Nat.lt_succ_of_lt (h.bound id hold).2⟩

theorem Kept.txNewNode (L : B.Lawful next Ok Free takes) (h : s.Kept B next Ok Free takes) {tx : CategoryTx} (htx : s.tx i = some tx)
    (pfx : Bytes) (record : Nat) : Kept B next Ok Free takes
      { s with
        store := (B.txNewNode s.store tx pfx record).1
        txs := s.txs.set i (some (B.txNewNode s.store tx pfx record).2.1) } := by
  have hids : (taken takes { s with
        store := (B.txNewNode s.store tx pfx record).1
        txs := s.txs.set i (some (B.txNewNode s.store tx pfx record).2.1) }).Nodup ∧
      ∀ id ∈ taken takes { s with
        store := (B.txNewNode s.store tx pfx record).1
        txs := s.txs.set i (some (B.txNewNode s.store tx pfx record).2.1) },
        1 ≤ id ∧ id < next (B.txNewNode s.store tx pfx record).1 := by
    rw [L.tx_next, L.tx_tx]
    cases takes with
    | false => exact ⟨h.distinct, h.bound⟩
    | true =>
      have hperm := taken_txNewNode htx (B.txNewNode s.store tx pfx record).1 (B.txNewNode s.store tx pfx record).2.2 pfx record
      rw [L.tx_id rfl] at hperm ⊢
      exact taken_cons h hperm
  refine ⟨L.tx_ok _ _ _ _ h.ok, ?_, hids.1, hids.2, fun id hid hnew => L.tx_free _ _ _ _ _ (h.free id hid hnew), ?_⟩
  · rw [L.tx_next]
    exact h.one_le.trans (Nat.le_add_right _ _)
  · intro node hnode
    rw [L.tx_reads]
    exact h.reads node hnode

theorem held_drop (txs : List (Option CategoryTx)) (i : Nat) : (held (txs.set i none)).Sublist (held txs) := by
  induction txs generalizing i with
  | nil => exact List.Sublist.refl _
  | cons tx txs ih =>
    cases i with
    | zero => exact List.sublist_append_right (idsOf tx) (held txs)
    | succ i => exact (ih i).append_left (idsOf tx)

theorem Kept.drop (h : s.Kept B next Ok Free takes) (i : Nat) :
    Kept B next Ok Free takes { s with txs := s.txs.set i none } := by
  have hsub : (taken takes { s with txs := s.txs.set i none }).Sublist (s.taken takes) := by
    refine List.Sublist.append_left (List.Sublist.append_left ?_ _) _
    cases takes with
    | false => exact List.Sublist.refl _
    | true => exact held_drop s.txs i
  exact ⟨h.ok, h.one_le, h.distinct.sublist hsub, fun id hid => h.bound id (hsub.subset hid), h.free, h.reads⟩

/-- The ids of a transaction in turn are new: it took them out of the counter, or they are the next ones. -/
theorem Kept.ids_new (L : B.Lawful next Ok Free takes) (h : s.Kept B next Ok Free takes) {tx : CategoryTx} (htx : s.tx i = some tx)
    (hturn : B.inTurn s.store tx) :
    (s.created.map Prod.fst ++ (tx.nodes.map Prod.fst ++ (s.calls.map Prod.fst ++
      if takes then held (s.txs.set i none) else []))).Nodup ∧ (∀ id ∈ tx.nodes.map Prod.fst, 1 ≤ id) ∧
      (∀ id ∈ tx.nodes.map Prod.fst, id < next s.store + if takes then 0 else tx.nodes.length) := by
  have hdistinct := h.distinct
  have hbound := h.bound
  cases takes with
  | true =>
    have hperm : (s.taken true).Perm (s.created.map Prod.fst ++ (tx.nodes.map Prod.fst ++ (s.calls.map Prod.fst ++
        held (s.txs.set i none)))) := by
      refine List.perm_iff_count.mpr fun a => ?_
      have hcount := (held_open htx).count_eq a
      simp only [List.count_append] at hcount
      simp only [taken, if_true, List.count_append, hcount]
      omega
    have hmem : ∀ id ∈ tx.nodes.map Prod.fst, id ∈ s.taken true := fun id hid => by
      rw [hperm.mem_iff]
      simp only [List.mem_append, hid, true_or, or_true]
    exact ⟨hperm.nodup_iff.mp hdistinct, fun id hid => (hbound id (hmem id hid)).1, fun id hid => (hbound id (hmem id hid)).2⟩
  | false =>
    have hrange := L.in_turn rfl s.store tx hturn
    have hge : ∀ id ∈ tx.nodes.map Prod.fst, next s.store ≤ id ∧ id < next s.store + tx.nodes.length := by
      intro id hid
      rw [hrange] at hid
      exact List.mem_range'_1.mp hid
    simp only [taken, Bool.false_eq_true, if_false, List.append_nil] at hdistinct hbound ⊢
    refine ⟨?_, fun id hid => h.one_le.trans (hge id hid).1, fun id hid => (hge id hid).2⟩
    obtain ⟨hcreated, hcalls, hapart⟩ := List.nodup_append.mp hdistinct
    rw [List.nodup_append, List.nodup_append]
    refine ⟨hcreated, ⟨hrange ▸ List.nodup_range', hcalls, fun id hid id' hid' heq => ?_⟩, fun id hid id' hid' heq => ?_⟩
    · have := (hbound id' (List.mem_append_right _ hid')).2
      have := (hge id hid).1
      omega
    · rcases List.mem_append.mp hid' with htx' | hcall
      · have := (hbound id (List.mem_append_left _ hid)).2
        have := (hge id' htx').1
        omega
      · exact hapart id hid id' hcall heq

theorem Kept.commit (L : B.Lawful next Ok Free takes) (h : s.Kept B next Ok Free takes) {tx : CategoryTx} (htx : s.tx i = some tx)
    (hturn : B.inTurn s.store tx) :
    (∀ e, (B.commit s.store tx).2 = .error e → B.rollsBack = false ∧ tx.Misses fun id => (B.getNode s.store id).toOption) ∧
    Kept B next Ok Free takes
      { s with
        store := (B.commit s.store tx).1
        txs := s.txs.set i none
        created := (B.carried s.store tx).foldl Ledger.apply (s.created ++ tx.nodes) } := by
  obtain ⟨hdistinct, hone, hlt⟩ := h.ids_new L htx hturn
  have hcreated : ((s.created ++ tx.nodes).map Prod.fst).Nodup := by
    rw [List.map_append]
    rw [← List.append_assoc] at hdistinct
    exact (List.nodup_append.mp hdistinct).1
  have hfree : ∀ id ∈ tx.nodes.map Prod.fst, Free s.store id := by
    intro id hid
    refine h.free id (hone id hid) fun hold => ?_
    exact (List.nodup_append.mp hdistinct).2.2 id hold id (List.mem_append_left _ hid) rfl
  have htxdistinct : (tx.nodes.map Prod.fst).Nodup := by
    rw [List.map_append] at hcreated
    exact (List.nodup_append.mp hcreated).2.1
  obtain ⟨hok, hnext, hfree', herr, hreads⟩ := L.commit s.store tx h.ok hturn htxdistinct hfree fun htakes => by
    simpa [htakes] using hlt
  refine ⟨herr, hok, ?_, ?_, ?_, ?_, hreads s.created h.reads hcreated⟩
  · rw [hnext]
    exact h.one_le.trans (Nat.le_add_right _ _)
  · simp only [taken, Ledger.applies_ids, List.map_append, List.append_assoc]
    exact hdistinct
  · intro id hid
    rw [hnext]
    simp only [taken, Ledger.applies_ids, List.map_append, List.append_assoc] at hid
    rcases List.mem_append.mp hid with hold | hid
    · have := h.bound id (List.mem_append_left _ hold)
      exact ⟨this.1, Nat.lt_add_right _ this.2⟩
    rcases List.mem_append.mp hid with hnew | hid
    · exact ⟨hone id hnew, hlt id hnew⟩
    · have hmem : id ∈ s.taken takes := by
        refine List.mem_append_right _ ?_
        rcases List.mem_append.mp hid with hcall | hheld
        · exact List.mem_append_left _ hcall
        · refine List.mem_append_right _ ?_
          cases takes with
          | false => exact hheld
          | true => exact (held_open htx).mem_iff.mpr (List.mem_append_right _ hheld)
      have := h.bound id hmem
      exact ⟨this.1, Nat.lt_add_right _ this.2⟩
  · intro id hid hnew
    simp only [Ledger.applies_ids, List.map_append, List.mem_append, not_or] at hnew
    exact hfree' id hnew.2 (h.free id hid hnew.1)

theorem Kept.txPush (h : s.Kept B next Ok Free takes) {tx : CategoryTx} (htx : s.tx i = some tx) (op : CategoryTxOp) :
    Kept B next Ok Free takes { s with txs := s.txs.set i (some (tx.push op)) } := by
  have hperm : (taken takes { s with txs := s.txs.set i (some (tx.push op)) }).Perm (s.taken takes) := by
    refine List.Perm.append_left _ (List.Perm.append_left _ ?_)
    cases takes with
    | false => exact List.Perm.refl _
    | true => exact (held_set s.txs (tx_open htx).1 _).trans (held_open htx).symm
  exact ⟨h.ok, h.one_le, hperm.nodup_iff.mpr h.distinct, fun id hid => h.bound id (hperm.mem_iff.mp hid), h.free, h.reads⟩

theorem Kept.next_new (h : s.Kept B next Ok Free takes) : next s.store ∉ s.created.map Prod.fst := by
  intro hmem
  exact absurd (h.bound _ (List.mem_append_left _ hmem)).2 (lt_irrefl _)

theorem Kept.newNode (L : B.Lawful next Ok Free takes) (h : s.Kept B next Ok Free takes) (pfx : Bytes) (record : Nat) :
    (s.newNode B pfx record).1.Kept B next Ok Free takes := by
  have hnext := L.node_next s.store pfx record h.ok
  have hkept : ∀ id n, B.getNode s.store id = .ok n → id ≠ next s.store →
      B.getNode (B.newNode s.store pfx record).1 id = .ok n := fun id n => L.node_reads _ _ _ id n h.ok
  unfold InUse.newNode
  cases hinsert : B.insert with
  | none =>
    dsimp only
    rw [L.node_id _ _ _ h.ok]
    have hids := taken_cons (t := { s with
      store := (B.newNode s.store pfx record).1, created := s.created ++ [(next s.store, pfx, record)] }) h (by
        refine List.perm_iff_count.mpr fun a => ?_
        simp only [taken, List.map_append, List.map_cons, List.map_nil, List.count_append, List.count_cons, List.count_nil]
        omega)
    refine ⟨L.node_ok _ _ _ h.ok, ?_, hids.1, ?_, fun id hid hnew => ?_, ?_⟩
    · rw [hnext]
      exact h.one_le.trans (Nat.le_succ _)
    · rw [hnext]
      exact hids.2
    · simp only [List.map_append, List.map_cons, List.map_nil, List.mem_append, List.mem_singleton, not_or] at hnew
      exact L.node_free _ _ _ id h.ok hnew.2 (h.free id hid hnew.1)
    · exact h.reads.snoc h.next_new hkept (L.node_node hinsert _ _ _ h.ok)
  | some insert =>
    dsimp only
    rw [L.node_id _ _ _ h.ok]
    have hids := taken_cons (t := { s with
      store := (B.newNode s.store pfx record).1, calls := s.calls ++ [(next s.store, pfx, record)] }) h (by
        refine List.perm_iff_count.mpr fun a => ?_
        simp only [taken, List.map_append, List.map_cons, List.map_nil, List.count_append, List.count_cons, List.count_nil]
        omega)
    refine ⟨L.node_ok _ _ _ h.ok, ?_, hids.1, ?_, fun id hid hnew => ?_, fun node hnode => ?_⟩
    · rw [hnext]
      exact h.one_le.trans (Nat.le_succ _)
    · rw [hnext]
      exact hids.2
    · by_cases heq : id = next s.store
      · rw [heq]
        exact L.node_free_next (by simp [hinsert]) _ _ _ h.ok (heq ▸ h.free id hid hnew)
      · exact L.node_free _ _ _ id h.ok heq (h.free id hid hnew)
    · refine hkept _ _ (h.reads node hnode) fun heq => h.next_new ?_
      rw [← heq]
      exact List.mem_map_of_mem hnode

theorem Kept.finish (L : B.Lawful next Ok Free takes) (h : s.Kept B next Ok Free takes) (i : Nat) :
    (∀ e, (s.finish B i).2 ≠ .failed e) ∧ (s.finish B i).1.Kept B next Ok Free takes := by
  unfold InUse.finish
  cases hinsert : B.insert with
  | none => exact ⟨nofun, h⟩
  | some insert =>
    cases hcall : s.calls[i]? with
    | none => exact ⟨nofun, h⟩
    | some call =>
      obtain ⟨hi, hget⟩ := List.getElem?_eq_some_iff.mp hcall
      have hperm : (s.calls.map Prod.fst).Perm (call.1 :: (s.calls.eraseIdx i).map Prod.fst) := by
        rw [← List.map_cons (f := Prod.fst) (a := call), ← hget]
        exact (List.getElem_cons_eraseIdx_perm hi).symm.map Prod.fst
      have hmem : call.1 ∈ s.taken takes :=
        List.mem_append_right _ (List.mem_append_left _ (hperm.mem_iff.mpr List.mem_cons_self))
      have hnew : call.1 ∉ s.created.map Prod.fst := fun hold =>
        (List.nodup_append.mp h.distinct).2.2 _ hold _ (List.mem_append_left _ (hperm.mem_iff.mpr List.mem_cons_self)) rfl
      obtain ⟨t, ht, hok, hnext, hfree, hreads, hnode⟩ := L.insert insert hinsert s.store call.1 call.2.1 call.2.2 h.ok
        (h.free _ (h.bound _ hmem).1 hnew) (h.bound _ hmem).2
      dsimp only
      rw [ht]
      have htaken : (taken takes ⟨t, s.txs, s.calls.eraseIdx i, s.created ++ [call]⟩).Perm (s.taken takes) := by
        refine List.perm_iff_count.mpr fun a => ?_
        have hcount := hperm.count_eq a
        simp only [List.count_cons] at hcount
        simp only [taken, List.map_append, List.map_cons, List.map_nil, List.count_append, List.count_cons, List.count_nil, hcount]
        omega
      refine ⟨nofun, hok, ?_, htaken.nodup_iff.mpr h.distinct, fun id hid => ?_, fun id hid hnot => ?_, ?_⟩
      · rw [hnext]
        exact h.one_le
      · rw [hnext]
        exact h.bound id (htaken.mem_iff.mp hid)
      · simp only [List.map_append, List.map_cons, List.map_nil, List.mem_append, List.mem_singleton, not_or] at hnot
        exact hfree id hnot.2 (h.free id hid hnot.1)
      · exact h.reads.snoc hnew hreads hnode

theorem Kept.updateNode (L : B.Lawful next Ok Free takes) (h : s.Kept B next Ok Free takes) (id : Nat) (pfx : Option Bytes)
    (record : Option Nat) : (s.updateNode B id pfx record).1.Kept B next Ok Free takes := by
  have hkept : ∀ i n, B.getNode s.store i = .ok n → i ≠ id → B.getNode (B.updateNode s.store id pfx record).1 i = .ok n :=
    fun i n => L.update_reads _ _ _ _ i n h.ok
  have hnext := L.update_next s.store id pfx record h.ok
  unfold InUse.updateNode
  dsimp only
  cases hres : (B.updateNode s.store id pfx record).2 with
  | ok u =>
    dsimp only
    have htaken : taken takes ⟨(B.updateNode s.store id pfx record).1, s.txs, s.calls, s.created.update id pfx record⟩ =
        s.taken takes := by
      simp [taken]
    refine ⟨L.update_ok _ _ _ _ h.ok, hnext ▸ h.one_le, htaken ▸ h.distinct, fun i hi => ?_, fun i hi hnew => ?_, ?_⟩
    · rw [hnext]
      exact h.bound i (htaken ▸ hi)
    · rw [Ledger.update_ids] at hnew
      exact L.update_free _ _ _ _ i h.ok (h.free i hi hnew)
    · exact h.reads.update hkept fun n hn => (L.update_node _ _ _ _ n h.ok hn).2
  | error e =>
    dsimp only
    refine ⟨L.update_ok _ _ _ _ h.ok, hnext ▸ h.one_le, h.distinct, fun i hi => ?_, fun i hi hnew => ?_, fun node hnode => ?_⟩
    · rw [hnext]
      exact h.bound i hi
    · exact L.update_free _ _ _ _ i h.ok (h.free i hi hnew)
    · refine hkept _ _ (h.reads node hnode) fun heq => ?_
      -- the update of a node that was created succeeds
      have hread := h.reads node hnode
      rw [heq] at hread
      rw [(L.update_node _ _ pfx record _ h.ok hread).1] at hres
      cases hres

/-- Every call that is in turn is served, and keeps what holds. -/
theorem Kept.step (L : B.Lawful next Ok Free takes) (h : s.Kept B next Ok Free takes) (a : TxAct) (hturn : InTurn B s a) :
    Served B s a ∧ (s.step B a).1.Kept B next Ok Free takes := by
  cases a with
  | newTx => exact ⟨trivial, h.newTx⟩
  | txNewNode i pfx record =>
    dsimp only [InUse.step]
    cases htx : s.tx i with
    | none => exact ⟨trivial, h⟩
    | some tx => exact ⟨trivial, h.txNewNode L htx pfx record⟩
  | txPush i op =>
    dsimp only [InUse.step]
    cases htx : s.tx i with
    | none => exact ⟨trivial, h⟩
    | some tx => exact ⟨trivial, h.txPush htx op⟩
  | commit i =>
    dsimp only [Served, InUse.step, InUse.commit]
    cases htx : s.tx i with
    | none => exact ⟨nofun, h⟩
    | some tx =>
      obtain ⟨herr, hkept⟩ := h.commit L htx (hturn tx htx)
      refine ⟨fun tx' htx' e he => ?_, ?_⟩
      · obtain rfl := Option.some.inj htx'
        exact (herr e he).2
      · dsimp only
        cases hres : (B.commit s.store tx).2 with
        | ok u => exact hkept
        | error e =>
          dsimp only
          rw [(herr e hres).1]
          exact hkept
  | drop i => exact ⟨trivial, h.drop i⟩
  | newNode pfx record => exact ⟨trivial, h.newNode L pfx record⟩
  | finish i => exact h.finish L i
  | updateNode id pfx record => exact ⟨trivial, h.updateNode L id pfx record⟩

theorem Kept.init (L : B.Lawful next Ok Free takes) : (machine B).init.Kept B next Ok Free takes := by
  have htaken : (machine B).init.taken takes = [] := by
    cases takes <;> rfl
  refine ⟨L.new_ok, L.new_next, ?_, fun id hid => ?_, fun id hid _ => L.new_free id hid, nofun⟩
  · rw [htaken]
    exact List.nodup_nil
  · rw [htaken] at hid
    exact absurd hid List.not_mem_nil

/-- On a lawful backend, the ids of a run whose commits come in turn stay reserved. -/
theorem reserved_of_lawful (L : B.Lawful next Ok Free takes) (as : List TxAct) (h : (machine B).Along (InTurn B) as) :
    (machine B).Along (Served B) as ∧ ((machine B).state as).Reserved B := by
  have hkept : ∀ as, (machine B).Along (InTurn B) as → ((machine B).state as).Kept B next Ok Free takes :=
    Machine.invariant_of_along (Kept.init L) fun s a hs ha => (hs.step L a ha).2
  refine ⟨fun pre a hp => ?_, ?_⟩
  · have hpre : (machine B).Along (InTurn B) (pre ++ [a]) := fun p b hb => h p b (hb.trans hp)
    exact ((hkept pre hpre.init).step L a (h pre a hp)).1
  · have hs := hkept as h
    exact ⟨(List.nodup_append.mp hs.distinct).1, hs.reads⟩

end InUse

end Opsense
