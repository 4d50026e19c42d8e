import Opsense.Storage.Reserve

/-!
# Ids on the four backends

What each backend does to its counter and its nodes, call by call, and the theorem for all of them.
-/

namespace Opsense

namespace Ledger.Reads

variable {σ : Type} {getNode : σ → Nat → Except StorageError (Bytes × Nat)}

/-- Nodes with new ids are written one after another. -/
theorem puts {put : σ → Nat × Bytes × Nat → σ}
    (hkept : ∀ s node i n, getNode s i = .ok n → i ≠ node.1 → getNode (put s node) i = .ok n)
    (hnode : ∀ s node, getNode (put s node) node.1 = .ok node.2) (nodes : Ledger) {s : σ} {created : Ledger}
    (h : Reads (getNode s) created) (hnew : ((created ++ nodes).map Prod.fst).Nodup) :
    Reads (getNode (nodes.foldl put s)) (created ++ nodes) := by
  induction nodes generalizing s created with
  | nil => simpa using h
  | cons node nodes ih =>
    have hfirst : node.1 ∉ created.map Prod.fst := by
      intro hmem
      rw [List.map_append] at hnew
      exact (List.nodup_append.mp hnew).2.2 _ hmem _ (by simp) rfl
    rw [List.append_cons] at hnew ⊢
    exact ih (h.snoc hfirst (hkept s node) (hnode s node)) hnew

/-- The changes of a transaction are carried out one after another. -/
theorem ops {apply : σ → CategoryTxOp → σ}
    (hop : ∀ s created op, Reads (getNode s) created → Reads (getNode (apply s op)) (created.apply op))
    (ops : List CategoryTxOp) {s : σ} {created : Ledger} (h : Reads (getNode s) created) :
    Reads (getNode (ops.foldl apply s)) (ops.foldl Ledger.apply created) := by
  induction ops generalizing s created with
  | nil => exact h
  | cons op ops ih => exact ih (hop s created op h)

end Ledger.Reads

/-! ## In memory -/

namespace InMemoryCategory

@[simp] theorem putNode_next_id (s : InMemoryCategory) (id : Nat) (pfx : Bytes) (record : Nat) :
    (s.putNode id pfx record).next_id = s.next_id := by
  unfold putNode
  split_ifs <;> rfl

@[simp] theorem commitOp_next_id (s : InMemoryCategory) (op : CategoryTxOp) : (s.commitOp op).next_id = s.next_id := by
  cases op <;> rfl

theorem getNode_eq_ok {s : InMemoryCategory} {id : Nat} {node : Bytes × Nat} : s.getNode id = .ok node ↔ s.nodes[id]? = some node := by
  unfold getNode
  cases s.nodes[id]? <;> simp

theorem resize_of_le {α : Type} {l : List α} {n : Nat} (h : l.length ≤ n) (a : α) :
    resize l n a = l ++ List.replicate (n - l.length) a := by
  rw [resize, List.take_of_length_le h]

theorem getNode_putNode (s : InMemoryCategory) (id : Nat) (pfx : Bytes) (record : Nat) :
    (s.putNode id pfx record).getNode id = .ok (pfx, record) := by
  rw [getNode_eq_ok]
  unfold putNode
  split_ifs with h
  · dsimp only
    rw [resize_of_le (by omega), List.getElem?_set_self]
    rw [List.length_append, List.length_replicate]
    omega
  · exact List.getElem?_set_self (by omega)

theorem getNode_putNode_of_ne {s : InMemoryCategory} {id i : Nat} {n : Bytes × Nat} (pfx : Bytes) (record : Nat)
    (h : s.getNode i = .ok n) (hne : i ≠ id) : (s.putNode id pfx record).getNode i = .ok n := by
  rw [getNode_eq_ok] at h ⊢
  obtain ⟨hi, hget⟩ := List.getElem?_eq_some_iff.mp h
  unfold putNode
  split_ifs with hlen
  · dsimp only
    rw [List.getElem?_set_ne hne.symm, resize_of_le (by omega), List.getElem?_append_left hi, h]
  · rw [List.getElem?_set_ne hne.symm, h]

theorem getNode_commitOp {s : InMemoryCategory} {created : Ledger} (op : CategoryTxOp)
    (h : Ledger.Reads s.getNode created) : Ledger.Reads (s.commitOp op).getNode (created.apply op) := by
  cases op with
  | addChild parent child => exact h
  | moveChild from_ to_ child => exact h
  | updateNode id pfx record =>
    refine h.update (fun i n hi hne => ?_) fun n hn => ?_
    · rw [getNode_eq_ok] at hi ⊢
      simp only [commitOp]
      rw [List.getElem?_modify_ne _ _ hne.symm, hi]
    · rw [getNode_eq_ok] at hn ⊢
      simp [commitOp, hn]

theorem puts_next_id (nodes : Ledger) (s : InMemoryCategory) :
    (nodes.foldl (fun s node => s.putNode node.1 node.2.1 node.2.2) s).next_id = s.next_id := by
  induction nodes generalizing s with
  | nil => rfl
  | cons node nodes ih => simp [ih]

theorem ops_next_id (ops : List CategoryTxOp) (s : InMemoryCategory) : (ops.foldl commitOp s).next_id = s.next_id := by
  induction ops generalizing s with
  | nil => rfl
  | cons op ops ih => simp [ih]

/-- Every id is taken out of the counter once. -/
theorem lawful : backend.Lawful next_id (fun _ => True) (fun _ _ => True) true where
  new_ok := trivial
  new_next := le_refl 1
  new_free _ _ := trivial
  tx_tx _ _ _ _ := rfl
  tx_ok _ _ _ _ _ := trivial
  tx_free _ _ _ _ _ _ := trivial
  tx_reads _ _ _ _ _ := rfl
  tx_id _ _ _ _ _ := rfl
  tx_next _ _ _ _ := rfl
  node_id _ _ _ _ := rfl
  node_next _ _ _ _ := rfl
  node_ok _ _ _ _ := trivial
  node_free _ _ _ _ _ _ _ := trivial
  node_free_next _ _ _ _ _ _ := trivial
  node_reads _ _ _ _ _ _ h _ := h
  node_node := nofun
  insert insert hinsert s id pfx record _ _ _ := by
    obtain rfl := Option.some.inj hinsert
    exact ⟨_, rfl, trivial, putNode_next_id s id pfx record, fun _ _ _ => trivial,
      fun i n h hne => getNode_putNode_of_ne pfx record h hne, getNode_putNode s id pfx record⟩
  update_ok _ _ _ _ _ := trivial
  update_next s id pfx record _ := by
    simp only [backend, updateNode]
    split_ifs <;> rfl
  update_free _ _ _ _ _ _ _ := trivial
  update_reads s id pfx record i n _ h hne := by
    simp only [backend, updateNode]
    split_ifs
    · exact h
    · rw [backend, getNode_eq_ok] at h
      rw [getNode_eq_ok]
      dsimp only
      rw [List.getElem?_modify_ne _ _ hne.symm, h]
  update_node s id pfx record n _ h := by
    simp only [backend, getNode_eq_ok] at h
    obtain ⟨hi, hget⟩ := List.getElem?_eq_some_iff.mp h
    simp only [backend, updateNode, if_neg (not_le.mpr hi), getNode_eq_ok]
    simp [h]
  in_turn := nofun
  commit s tx _ _ hdistinct _ _ := by
    refine ⟨trivial, ?_, fun _ _ _ => trivial, nofun, fun created h hnew => ?_⟩
    · exact (ops_next_id _ _).trans (puts_next_id _ _)
    · refine Ledger.Reads.ops (fun s created op => getNode_commitOp op) tx.ops ?_
      exact Ledger.Reads.puts (fun s node i n hi hne => getNode_putNode_of_ne _ _ hi hne)
        (fun s node => getNode_putNode s _ _ _) tx.nodes h hnew

end InMemoryCategory

/-! ## Parquet -/

namespace Store

theorem getNode_eq_ok {s : Store} {id : Nat} {node : Bytes × Nat} : s.getNode id = .ok node ↔ s.inner.nodes.lookup id = some node := by
  unfold getNode
  cases s.inner.nodes.lookup id <;> simp

theorem toOption_getNode (s : Store) : (fun id => (s.getNode id).toOption) = fun id => s.inner.nodes.lookup id := by
  funext id
  unfold getNode
  cases s.inner.nodes.lookup id <;> rfl

theorem lookup_node (s : Store) (id : Nat) (pfx : Bytes) (record : Nat) :
    (s.mutate (.node id pfx record)).inner.nodes.lookup id = some (pfx, record) := by
  simp [mutate, Inner.applyWalOp]

theorem lookup_node_of_ne (s : Store) {id i : Nat} (pfx : Bytes) (record : Nat) (h : i ≠ id) :
    (s.mutate (.node id pfx record)).inner.nodes.lookup i = s.inner.nodes.lookup i := by
  simp [mutate, Inner.applyWalOp, h]

/-- The counter that a commit writes is past the ids of the transaction. -/
theorem max_ids {tx : CategoryTx} {next : Nat} (h : tx.nodes.map Prod.fst = List.range' next tx.nodes.length) :
    (tx.nodes.map Prod.fst).max? = if tx.nodes.length = 0 then none else some (next + tx.nodes.length - 1) := by
  rw [h]
  split_ifs with hlen
  · rw [hlen]
    rfl
  · rw [List.max?_eq_some_iff]
    refine ⟨List.mem_range'_1.mpr (by omega), fun id hid => ?_⟩
    have := List.mem_range'_1.mp hid
    omega

theorem puts_counter (nodes : Ledger) (s : Store) :
    (nodes.foldl (fun s node => s.mutate (.node node.1 node.2.1 node.2.2)) s).inner.counter = s.inner.counter := by
  induction nodes generalizing s with
  | nil => rfl
  | cons node nodes ih => exact ih (s.mutate _)

theorem commitOps_counter (ops : List CategoryTxOp) (s : Store) : (s.commitOps ops).1.inner.counter = s.inner.counter := by
  induction ops generalizing s with
  | nil => rfl
  | cons op ops ih =>
    cases op with
    | addChild parent child => exact ih (s.mutate (.child parent child))
    | moveChild from_ to_ child => exact ih ((s.mutate (.childDel from_ child)).mutate (.child to_ child))
    | updateNode id pfx record =>
      simp only [commitOps, commitOp]
      cases hnode : s.inner.nodes.lookup id with
      | none => rw [updateNode_none hnode]
      | some node =>
        rw [updateNode_some hnode]
        exact ih (s.mutate _)

/-- The changes are carried out up to the first update of a node that is not there. -/
theorem getNode_commitOps (nodes : Nat → Option (Bytes × Nat)) (ops : List CategoryTxOp) {s : Store} {created : Ledger}
    (hnodes : ∀ id, (s.inner.nodes.lookup id).isSome = (nodes id).isSome) (h : Ledger.Reads s.getNode created) :
    Ledger.Reads (s.commitOps ops).1.getNode ((ops.takeWhile fun
      | .updateNode id _ _ => (nodes id).isSome
      | _ => true).foldl Ledger.apply created) := by
  induction ops generalizing s created with
  | nil => exact h
  | cons op ops ih =>
    cases op with
    | addChild parent child => exact ih (s := s.mutate (.child parent child)) hnodes h
    | moveChild from_ to_ child => exact ih (s := (s.mutate (.childDel from_ child)).mutate (.child to_ child)) hnodes h
    | updateNode id pfx record =>
      simp only [commitOps, commitOp]
      have hid := hnodes id
      cases hnode : s.inner.nodes.lookup id with
      | none =>
        rw [hnode] at hid
        rw [updateNode_none hnode, List.takeWhile_cons_of_neg (by simp [← hid])]
        exact h
      | some node =>
        rw [hnode] at hid
        rw [updateNode_some hnode, List.takeWhile_cons_of_pos (by simp [← hid]), List.foldl_cons]
        refine ih (s := s.mutate (.node id (pfx.getD node.1) (record.getD node.2))) (fun i => ?_) ?_
        · by_cases hi : i = id
          · rw [hi, lookup_node, ← hid]
            rfl
          · rw [lookup_node_of_ne s _ _ hi, hnodes]
        · refine h.update (fun i n hget hne => ?_) fun n hget => ?_
          · rw [getNode_eq_ok] at hget ⊢
            rw [lookup_node_of_ne s _ _ hne, hget]
          · rw [getNode_eq_ok] at hget ⊢
            rw [hnode] at hget
            obtain rfl := Option.some.inj hget
            exact lookup_node s id _ _

/-- Ids come from the counter, which is written with the nodes. -/
theorem lawful : backend.Lawful (fun s => s.inner.counter) (fun _ => True) (fun _ _ => True) false where
  new_ok := trivial
  new_next := le_refl 1
  new_free _ _ := trivial
  tx_tx _ _ _ _ := rfl
  tx_ok _ _ _ _ _ := trivial
  tx_free _ _ _ _ _ _ := trivial
  tx_reads _ _ _ _ _ := rfl
  tx_id := nofun
  tx_next _ _ _ _ := rfl
  node_id _ _ _ _ := rfl
  node_next _ _ _ _ := rfl
  node_ok _ _ _ _ := trivial
  node_free _ _ _ _ _ _ _ := trivial
  node_free_next _ _ _ _ _ _ := trivial
  node_reads s pfx record i n _ h hne := by
    rw [backend, getNode_eq_ok] at h ⊢
    exact (lookup_node_of_ne s pfx record hne).trans h
  node_node _ s pfx record _ := getNode_eq_ok.mpr (lookup_node s s.inner.counter pfx record)
  insert := nofun
  update_ok _ _ _ _ _ := trivial
  update_next s id pfx record _ := by
    simp only [backend]
    cases hnode : s.inner.nodes.lookup id with
    | none => rw [updateNode_none hnode]
    | some node =>
      rw [updateNode_some hnode]
      rfl
  update_free _ _ _ _ _ _ _ := trivial
  update_reads s id pfx record i n _ h hne := by
    rw [backend, getNode_eq_ok] at h ⊢
    dsimp only
    cases hnode : s.inner.nodes.lookup id with
    | none => rwa [updateNode_none hnode]
    | some node =>
      rw [updateNode_some hnode]
      exact (lookup_node_of_ne s _ _ hne).trans h
  update_node s id pfx record n _ h := by
    have hnode := getNode_eq_ok.mp h
    simp only [backend]
    rw [updateNode_some hnode, getNode_eq_ok]
    exact ⟨rfl, lookup_node s id _ _⟩
  in_turn _ s tx h := of_decide_eq_true h
  commit s tx _ hturn _ _ _ := by
    have hids : tx.nodes.map Prod.fst = List.range' s.inner.counter tx.nodes.length := of_decide_eq_true hturn
    refine ⟨trivial, ?_, fun _ _ _ => trivial, fun e he => ⟨rfl, ?_⟩, fun created h hnew => ?_⟩
    · simp only [backend, commit]
      rw [commitOps_counter, max_ids hids]
      by_cases hlen : tx.nodes.length = 0
      · rw [if_pos hlen]
        exact (puts_counter tx.nodes s).trans (by simp [hlen])
      · rw [if_neg hlen]
        change s.inner.counter + tx.nodes.length - 1 + 1 = s.inner.counter + tx.nodes.length
        omega
    · simp only [backend] at he ⊢
      rw [toOption_getNode]
      by_contra hnot
      rw [(s.commit_ok tx).mpr hnot] at he
      cases he
    · have hputs : Ledger.Reads (tx.nodes.foldl (fun s node => s.mutate (.node node.1 node.2.1 node.2.2)) s).getNode
          (created ++ tx.nodes) := by
        refine Ledger.Reads.puts (fun s node i n hi hne => ?_) (fun s node => ?_) tx.nodes h hnew
        · rw [getNode_eq_ok] at hi ⊢
          rw [lookup_node_of_ne s _ _ hne, hi]
        · exact getNode_eq_ok.mpr (lookup_node s _ _ _)
      have hnodes : ∀ id, ((tx.nodes.foldl (fun s node => s.mutate (.node node.1 node.2.1 node.2.2)) s).inner.nodes.lookup
          id).isSome = (tx.nodesOver (fun id => s.inner.nodes.lookup id) id).isSome := by
        intro id
        have hlookup := congrFun (lookup_newNodes tx.nodes s) id
        rw [List.foldl_map] at hlookup
        exact congrArg Option.isSome hlookup
      simp only [backend, commit]
      cases (tx.nodes.map Prod.fst).max? with
      | none => exact getNode_commitOps _ tx.ops hnodes hputs
      | some max_id => exact getNode_commitOps _ tx.ops hnodes hputs

end Store

/-! ## SQLite -/

namespace SqliteStorage

variable {s : SqliteStorage}

theorem getNode_eq_ok {id : Nat} {node : Bytes × Nat} : s.getNode id = .ok node ↔ s.nodes.lookup id = some node := by
  unfold getNode
  cases s.nodes.lookup id <;> simp

theorem mem_iff_lookup {id : Nat} : id ∈ s.nodes ↔ (s.nodes.lookup id).isSome := by
  rw [Finmap.lookup_isSome]

theorem insertNode_of_not_mem {id : Nat} (h : id ∉ s.nodes) (pfx : Bytes) (record : Nat) :
    s.insertNode id pfx record = .ok { s with nodes := s.nodes.insert id (pfx, record) } := if_neg h

theorem insertNodes (nodes : Ledger) (hdistinct : (nodes.map Prod.fst).Nodup) (hfree : ∀ id ∈ nodes.map Prod.fst, id ∉ s.nodes) :
    nodes.foldlM (fun s node => s.insertNode node.1 node.2.1 node.2.2) s =
      .ok (nodes.foldl (fun s node => { s with nodes := s.nodes.insert node.1 node.2 }) s) := by
  induction nodes generalizing s with
  | nil => rfl
  | cons node nodes ih =>
    obtain ⟨hnot, hdistinct⟩ := List.nodup_cons.mp hdistinct
    rw [List.foldlM_cons, insertNode_of_not_mem (hfree _ List.mem_cons_self)]
    refine ih hdistinct fun id hid hmem => ?_
    rcases Finmap.mem_insert.mp hmem with heq | hmem
    · exact hnot (heq ▸ hid)
    · exact hfree id (List.mem_cons_of_mem _ hid) hmem

theorem puts_next (nodes : Ledger) (s : SqliteStorage) :
    (nodes.foldl (fun s node => { s with nodes := s.nodes.insert node.1 node.2 }) s).next = s.next := by
  induction nodes generalizing s with
  | nil => rfl
  | cons node nodes ih => exact ih _

theorem mem_puts (nodes : Ledger) (s : SqliteStorage) (id : Nat) :
    id ∈ (nodes.foldl (fun s node => { s with nodes := s.nodes.insert node.1 node.2 }) s).nodes ↔
      id ∈ nodes.map Prod.fst ∨ id ∈ s.nodes := by
  induction nodes generalizing s with
  | nil => simp
  | cons node nodes ih =>
    rw [List.foldl_cons, ih, Finmap.mem_insert, List.map_cons, List.mem_cons]
    tauto

theorem updateRow_next (s : SqliteStorage) (id : Nat) (f : Bytes × Nat → Bytes × Nat) : (s.updateRow id f).next = s.next := by
  unfold updateRow
  cases s.nodes.lookup id <;> rfl

theorem lookup_updateRow (s : SqliteStorage) (id i : Nat) (f : Bytes × Nat → Bytes × Nat) :
    (s.updateRow id f).nodes.lookup i = if i = id then (s.nodes.lookup id).map f else s.nodes.lookup i := by
  unfold updateRow
  cases hrow : s.nodes.lookup id with
  | none =>
    split_ifs with hi
    · rw [hi, hrow]
      rfl
    · rfl
  | some node =>
    split_ifs with hi
    · rw [hi]
      exact Finmap.lookup_insert _
    · exact Finmap.lookup_insert_of_ne _ hi

theorem updateColumns_next (s : SqliteStorage) (id : Nat) (pfx : Option Bytes) (record : Option Nat) :
    (s.updateColumns id pfx record).next = s.next := by
  cases pfx <;> cases record <;> simp [updateColumns, updateRow_next]

theorem lookup_updateColumns (s : SqliteStorage) (id i : Nat) (pfx : Option Bytes) (record : Option Nat) :
    (s.updateColumns id pfx record).nodes.lookup i =
      if i = id then (s.nodes.lookup id).map (updated pfx record) else s.nodes.lookup i := by
  by_cases hi : i = id
  · subst hi
    cases pfx <;> cases record <;> cases hrow : s.nodes.lookup i <;>
      simp [updateColumns, lookup_updateRow, updated, hrow]
  · cases pfx <;> cases record <;> simp [updateColumns, lookup_updateRow, hi]

theorem mem_updateColumns (s : SqliteStorage) (id i : Nat) (pfx : Option Bytes) (record : Option Nat) :
    i ∈ (s.updateColumns id pfx record).nodes ↔ i ∈ s.nodes := by
  rw [mem_iff_lookup, mem_iff_lookup, lookup_updateColumns]
  split_ifs with hi
  · rw [hi, Option.isSome_map]
  · rfl

theorem ops_next (ops : List CategoryTxOp) (s : SqliteStorage) : (ops.foldl commitOp s).next = s.next := by
  induction ops generalizing s with
  | nil => rfl
  | cons op ops ih =>
    rw [List.foldl_cons, ih]
    cases op with
    | updateNode id pfx record => exact updateColumns_next s id pfx record
    | _ => rfl

theorem mem_ops (ops : List CategoryTxOp) (s : SqliteStorage) (id : Nat) : id ∈ (ops.foldl commitOp s).nodes ↔ id ∈ s.nodes := by
  induction ops generalizing s with
  | nil => rfl
  | cons op ops ih =>
    rw [List.foldl_cons, ih]
    cases op with
    | updateNode i pfx record => exact mem_updateColumns s i id pfx record
    | _ => rfl

theorem getNode_updateColumns {id : Nat} {n : Bytes × Nat} (pfx : Option Bytes) (record : Option Nat) (h : s.getNode id = .ok n) :
    (s.updateColumns id pfx record).getNode id = .ok (updated pfx record n) := by
  rw [getNode_eq_ok] at h ⊢
  rw [lookup_updateColumns, if_pos rfl, h]
  rfl

theorem getNode_updateColumns_of_ne {id i : Nat} {n : Bytes × Nat} (pfx : Option Bytes) (record : Option Nat) (h : s.getNode i = .ok n)
    (hne : i ≠ id) : (s.updateColumns id pfx record).getNode i = .ok n := by
  rw [getNode_eq_ok] at h ⊢
  rw [lookup_updateColumns, if_neg hne, h]

theorem getNode_commitOp {created : Ledger} (op : CategoryTxOp) (h : Ledger.Reads s.getNode created) :
    Ledger.Reads (s.commitOp op).getNode (created.apply op) := by
  cases op with
  | addChild parent child => exact h
  | moveChild from_ to_ child => exact h
  | updateNode id pfx record =>
    exact h.update (fun i n hi hne => getNode_updateColumns_of_ne pfx record hi hne)
      fun n hn => getNode_updateColumns pfx record hn

theorem getNode_insert_of_ne {id i : Nat} {n : Bytes × Nat} (node : Bytes × Nat) (h : s.getNode i = .ok n) (hne : i ≠ id) :
    getNode { s with nodes := s.nodes.insert id node } i = .ok n := by
  rw [getNode_eq_ok] at h ⊢
  rw [← h]
  exact Finmap.lookup_insert_of_ne _ hne

theorem getNode_insert (s : SqliteStorage) (id : Nat) (node : Bytes × Nat) :
    getNode { s with nodes := s.nodes.insert id node } id = .ok node := getNode_eq_ok.mpr (Finmap.lookup_insert _)

/-- A commit whose ids are free and the next ones. -/
theorem commit_of_free {tx : CategoryTx} (hids : tx.nodes.map Prod.fst = List.range' s.next tx.nodes.length)
    (hdistinct : (tx.nodes.map Prod.fst).Nodup) (hfree : ∀ id ∈ tx.nodes.map Prod.fst, id ∉ s.nodes) :
    s.commit tx = (tx.ops.foldl commitOp
      { tx.nodes.foldl (fun s node => { s with nodes := s.nodes.insert node.1 node.2 }) s with
        next := s.next + tx.nodes.length }, .ok ()) := by
  have hnext := puts_next tx.nodes s
  unfold commit
  rw [insertNodes tx.nodes hdistinct hfree, Store.max_ids hids]
  generalize tx.nodes.foldl (fun s node => { s with nodes := s.nodes.insert node.1 node.2 }) s = puts at hnext ⊢
  by_cases hlen : tx.nodes.length = 0
  · rw [if_pos hlen, hlen, Nat.add_zero, ← hnext]
  · rw [if_neg hlen]
    have hmax : max puts.next (s.next + tx.nodes.length - 1 + 1) = s.next + tx.nodes.length := by omega
    dsimp only
    rw [hmax]

/-- Ids come from the counter, and a row is not inserted under an id that is there. -/
theorem lawful : backend.Lawful next (fun _ => True) (fun s id => id ∉ s.nodes) false where
  new_ok := trivial
  new_next := le_refl 1
  new_free id hid := by
    simp only [backend, new, Finmap.mem_insert, Finmap.notMem_empty, or_false]
    omega
  tx_tx _ _ _ _ := rfl
  tx_ok _ _ _ _ _ := trivial
  tx_free _ _ _ _ _ h := h
  tx_reads _ _ _ _ _ := rfl
  tx_id := nofun
  tx_next _ _ _ _ := rfl
  node_id _ _ _ _ := rfl
  node_next _ _ _ _ := rfl
  node_ok _ _ _ _ := trivial
  node_free _ _ _ _ _ _ h := h
  node_free_next _ _ _ _ _ h := h
  node_reads _ _ _ _ _ _ h _ := h
  node_node := nofun
  insert insert hinsert s id pfx record _ hfree _ := by
    obtain rfl := Option.some.inj hinsert
    refine ⟨_, insertNode_of_not_mem hfree pfx record, trivial, rfl, fun i hne hi hmem => ?_,
      fun i n h hne => getNode_insert_of_ne _ h hne, getNode_insert s id _⟩
    rcases Finmap.mem_insert.mp hmem with heq | hmem
    · exact hne heq
    · exact hi hmem
  update_ok _ _ _ _ _ := trivial
  update_next s id pfx record _ := updateColumns_next s id pfx record
  update_free s id pfx record i _ h hmem := h ((mem_updateColumns s id i pfx record).mp hmem)
  update_reads s id pfx record i n _ h hne := getNode_updateColumns_of_ne pfx record h hne
  update_node s id pfx record n _ h := by
    have hmem : id ∈ s.nodes := by
      rw [mem_iff_lookup, getNode_eq_ok.mp h]
      rfl
    exact ⟨if_neg fun hnot => hnot.1 hmem, getNode_updateColumns pfx record h⟩
  in_turn _ s tx h := of_decide_eq_true h
  commit s tx _ hturn hdistinct hfree _ := by
    have hids : tx.nodes.map Prod.fst = List.range' s.next tx.nodes.length := of_decide_eq_true hturn
    simp only [backend, commit_of_free hids hdistinct hfree]
    refine ⟨trivial, ops_next tx.ops _, fun id hnew hid => ?_, nofun, fun created h hnew => ?_⟩
    · rw [mem_ops, mem_puts, not_or]
      exact ⟨hnew, hid⟩
    · refine Ledger.Reads.ops (fun s created op => getNode_commitOp op) tx.ops ?_
      have hputs : Ledger.Reads (tx.nodes.foldl (fun s node => { s with nodes := s.nodes.insert node.1 node.2 }) s).getNode
          (created ++ tx.nodes) :=
        Ledger.Reads.puts (fun s node i n hi hne => getNode_insert_of_ne _ hi hne) (fun s node => getNode_insert s _ _)
          tx.nodes h hnew
      exact hputs

end SqliteStorage

/-! ## Redis -/

namespace RedisStorage

variable {s : RedisStorage}

theorem getNode_eq_ok {id : Nat} {node : Bytes × Nat} :
    s.getNode id = .ok node ↔ s.branch[id]? = some node.1 ∧ s.record[id]? = some node.2 := by
  unfold getNode
  cases s.branch[id]? <;> cases s.record[id]? <;> simp [Prod.ext_iff]

/-- The two lists are of one length. -/
def Level (s : RedisStorage) : Prop := s.record.length = s.branch.length

theorem getNode_push {i : Nat} {n : Bytes × Nat} (pfx : Bytes) (record : Nat) (h : s.getNode i = .ok n) :
    (s.push pfx record).getNode i = .ok n := by
  rw [getNode_eq_ok] at h ⊢
  obtain ⟨hb, -⟩ := List.getElem?_eq_some_iff.mp h.1
  obtain ⟨hr, -⟩ := List.getElem?_eq_some_iff.mp h.2
  simp only [push]
  rw [List.getElem?_append_left hb, List.getElem?_append_left hr]
  exact h

theorem getNode_push_last (hlevel : s.Level) (pfx : Bytes) (record : Nat) :
    (s.push pfx record).getNode s.branch.length = .ok (pfx, record) := by
  rw [getNode_eq_ok]
  simp only [push]
  refine ⟨List.getElem?_concat_length, ?_⟩
  rw [← hlevel]
  exact List.getElem?_concat_length

theorem Level.push (h : s.Level) (pfx : Bytes) (record : Nat) : (s.push pfx record).Level := by
  unfold Level RedisStorage.push at *
  simp [h]

theorem Level.commitOp (h : s.Level) (op : CategoryTxOp) : (s.commitOp op).1.Level := by
  cases op with
  | updateNode id pfx record =>
    unfold Level at *
    simp [RedisStorage.commitOp, RedisStorage.updateNode, h]
  | _ => exact h

/-- Nodes that are pushed get the places they have as ids. -/
theorem getNode_pushes (nodes : Ledger) {created : Ledger} (hlevel : s.Level)
    (hids : nodes.map Prod.fst = List.range' s.branch.length nodes.length) (h : Ledger.Reads s.getNode created)
    (hnew : ((created ++ nodes).map Prod.fst).Nodup) :
    (nodes.foldl (fun s node => s.push node.2.1 node.2.2) s).Level ∧
    (nodes.foldl (fun s node => s.push node.2.1 node.2.2) s).branch.length = s.branch.length + nodes.length ∧
    Ledger.Reads (nodes.foldl (fun s node => s.push node.2.1 node.2.2) s).getNode (created ++ nodes) := by
  induction nodes generalizing s created with
  | nil => simpa using ⟨hlevel, h⟩
  | cons node nodes ih =>
    rw [List.map_cons, List.length_cons, List.range'_succ] at hids
    obtain ⟨hid, hids⟩ := List.cons_eq_cons.mp hids
    have hfirst : node.1 ∉ created.map Prod.fst := by
      intro hmem
      rw [List.map_append] at hnew
      exact (List.nodup_append.mp hnew).2.2 _ hmem _ (by simp) rfl
    have hlen : (s.push node.2.1 node.2.2).branch.length = s.branch.length + 1 := by simp [push]
    have hreads : Ledger.Reads (s.push node.2.1 node.2.2).getNode (created ++ [node]) := by
      refine h.snoc hfirst (fun i n hi _ => getNode_push _ _ hi) ?_
      rw [hid]
      exact getNode_push_last hlevel _ _
    rw [List.append_cons] at hnew ⊢
    obtain ⟨hlevel', hlen', hreads'⟩ := ih (hlevel.push node.2.1 node.2.2) (by rw [hlen]; exact hids) hreads hnew
    refine ⟨hlevel', ?_, hreads'⟩
    rw [List.foldl_cons, hlen', hlen, List.length_cons]
    omega

theorem getNode_updateNode {id : Nat} {n : Bytes × Nat} (pfx : Option Bytes) (record : Option Nat) (h : s.getNode id = .ok n) :
    (s.updateNode id pfx record).2 = .ok () ∧
      (s.updateNode id pfx record).1.getNode id = .ok (updated pfx record n) := by
  rw [getNode_eq_ok] at h
  obtain ⟨hb, -⟩ := List.getElem?_eq_some_iff.mp h.1
  obtain ⟨hr, -⟩ := List.getElem?_eq_some_iff.mp h.2
  refine ⟨if_neg ?_, ?_⟩
  · rintro (hlt | hlt)
    · exact absurd hlt.1 (not_le.mpr hb)
    · exact absurd hlt.1 (not_le.mpr hr)
  · rw [getNode_eq_ok]
    simp [updateNode, updated, h]

theorem getNode_updateNode_of_ne {id i : Nat} {n : Bytes × Nat} (pfx : Option Bytes) (record : Option Nat) (h : s.getNode i = .ok n)
    (hne : i ≠ id) : (s.updateNode id pfx record).1.getNode i = .ok n := by
  rw [getNode_eq_ok] at h ⊢
  simp only [updateNode]
  rw [List.getElem?_modify_ne _ _ hne.symm, List.getElem?_modify_ne _ _ hne.symm]
  exact h

theorem getNode_commitOp {created : Ledger} (op : CategoryTxOp) (h : Ledger.Reads s.getNode created) :
    Ledger.Reads (s.commitOp op).1.getNode (created.apply op) := by
  cases op with
  | addChild parent child => exact h
  | moveChild from_ to_ child => exact h
  | updateNode id pfx record =>
    exact h.update (fun i n hi hne => getNode_updateNode_of_ne pfx record hi hne)
      fun n hn => (getNode_updateNode pfx record hn).2

theorem commitOp_length (s : RedisStorage) (op : CategoryTxOp) : (s.commitOp op).1.branch.length = s.branch.length := by
  cases op <;> simp [commitOp, updateNode]

/-- All changes are carried out, and one that fails is an update past the end. -/
theorem commitOps_spec (ops : List CategoryTxOp) {created : Ledger} (hlevel : s.Level) (h : Ledger.Reads s.getNode created) :
    (s.commitOps ops).1.Level ∧ (s.commitOps ops).1.branch.length = s.branch.length ∧
      Ledger.Reads (s.commitOps ops).1.getNode (ops.foldl Ledger.apply created) ∧
      ∀ e, (s.commitOps ops).2 = .error e → ∃ id pfx record, .updateNode id pfx record ∈ ops ∧ s.branch.length ≤ id := by
  induction ops generalizing s created with
  | nil => exact ⟨hlevel, rfl, h, nofun⟩
  | cons op ops ih =>
    obtain ⟨hlevel', hlen, hreads, herr⟩ := ih (hlevel.commitOp op) (getNode_commitOp op h)
    rw [commitOp_length] at hlen herr
    refine ⟨hlevel', hlen, hreads, fun e he => ?_⟩
    cases hop : (s.commitOp op).2 with
    | ok u =>
      simp only [commitOps, hop] at he
      obtain ⟨id, pfx, record, hmem, hid⟩ := herr e he
      exact ⟨id, pfx, record, List.mem_cons_of_mem _ hmem, hid⟩
    | error e' =>
      cases op with
      | addChild parent child => cases hop
      | moveChild from_ to_ child => cases hop
      | updateNode id pfx record =>
        refine ⟨id, pfx, record, List.mem_cons_self, ?_⟩
        by_contra hlt
        have hnot : ¬((s.branch.length ≤ id ∧ pfx.isSome) ∨ (s.record.length ≤ id ∧ record.isSome)) := by
          rw [hlevel]
          tauto
        simp only [commitOp, updateNode, if_neg hnot] at hop
        cases hop

/-- A node that is not one of the transaction's is the store's. -/
theorem nodesOver_of_not_mem {nodes : Nat → Option (Bytes × Nat)} (new : Ledger) {id : Nat} (h : id ∉ new.map Prod.fst) :
    CategoryTx.nodesOver nodes ⟨new, []⟩ id = nodes id := by
  induction new using List.reverseRecOn with
  | nil => rfl
  | append_singleton new node ih =>
    simp only [List.map_append, List.map_cons, List.map_nil, List.mem_append, List.mem_singleton, not_or] at h
    simp only [CategoryTx.nodesOver, List.foldl_append, List.foldl_cons, List.foldl_nil] at ih ⊢
    rw [Function.update_of_ne h.2, ih h.1]

/-- An id is the place at which the node is pushed. -/
theorem lawful : backend.Lawful (fun s => s.branch.length) (fun s => s.Level) (fun _ _ => True) false where
  new_ok := rfl
  new_next := le_refl 1
  new_free _ _ := trivial
  tx_tx _ _ _ _ := rfl
  tx_ok _ _ _ _ h := h
  tx_free _ _ _ _ _ _ := trivial
  tx_reads _ _ _ _ _ := rfl
  tx_id := nofun
  tx_next _ _ _ _ := rfl
  node_id s pfx record _ := by simp [backend, newNode, push]
  node_next s pfx record _ := by simp [backend, newNode, push]
  node_ok s pfx record h := h.push pfx record
  node_free _ _ _ _ _ _ _ := trivial
  node_free_next _ _ _ _ _ _ := trivial
  node_reads s pfx record i n _ h _ := getNode_push pfx record h
  node_node _ s pfx record h := getNode_push_last h pfx record
  insert := nofun
  update_ok s id pfx record h := h.commitOp (.updateNode id pfx record)
  update_next s id pfx record _ := commitOp_length s (.updateNode id pfx record)
  update_free _ _ _ _ _ _ _ := trivial
  update_reads s id pfx record i n _ h hne := getNode_updateNode_of_ne pfx record h hne
  update_node s id pfx record n _ h := getNode_updateNode pfx record h
  in_turn _ s tx h := of_decide_eq_true h
  commit s tx hlevel hturn hdistinct _ _ := by
    have hids : tx.nodes.map Prod.fst = List.range' s.branch.length tx.nodes.length := of_decide_eq_true hturn
    obtain ⟨hlevel', hlen, -⟩ := getNode_pushes tx.nodes hlevel hids (nofun : Ledger.Reads _ []) hdistinct
    obtain ⟨hlevel'', hlen', -, herr⟩ := commitOps_spec tx.ops hlevel' (nofun : Ledger.Reads _ [])
    refine ⟨hlevel'', hlen'.trans hlen, fun _ _ _ => trivial, fun e he => ⟨rfl, ?_⟩, fun created h hnew => ?_⟩
    · obtain ⟨id, pfx, record, hmem, hid⟩ := herr e he
      rw [hlen] at hid
      refine ⟨id, pfx, record, hmem, ?_⟩
      have hnot : id ∉ tx.nodes.map Prod.fst := by
        rw [hids, List.mem_range'_1]
        omega
      refine (nodesOver_of_not_mem tx.nodes hnot).trans ?_
      have hbranch : s.branch[id]? = none := List.getElem?_eq_none (by omega)
      simp [backend, getNode, hbranch, Except.toOption]
    · exact (commitOps_spec tx.ops hlevel' (getNode_pushes tx.nodes hlevel hids h hnew).2.2).2.2.1

end RedisStorage

/-! ## All four -/

namespace Kind

/-- Each backend is lawful in its own way. -/
theorem lawful : ∀ k : Kind, ∃ next Ok Free takes, k.backend.Lawful next Ok Free takes
  | .inMemory => ⟨_, _, _, _, InMemoryCategory.lawful⟩
  | .parquet => ⟨_, _, _, _, Store.lawful⟩
  | .sqlite => ⟨_, _, _, _, SqliteStorage.lawful⟩
  | .redis => ⟨_, _, _, _, RedisStorage.lawful⟩

/-- In memory, transactions and calls of `new_node` never share an id, whatever their order; no call fails for an id, and the nodes
read as they were made and later updated. -/
theorem inMemory_reserves (as : List TxAct) : (InUse.machine inMemory.backend).Along (InUse.Served inMemory.backend) as ∧
    ((InUse.machine inMemory.backend).state as).Reserved inMemory.backend := by
  refine InUse.reserved_of_lawful InMemoryCategory.lawful as fun pre a _ => ?_
  cases a with
  | commit i => exact fun _ _ => rfl
  | _ => trivial

/-- Transactions, and calls of `new_node` on the store, in any order: as long as each transaction commits with ids that no
node was written under since it got them, no two nodes have one id, no call fails for an id, and the nodes read as they were
made and later updated. In memory this is always so. -/
theorem reserved_ids (k : Kind) (as : List TxAct) (h : (InUse.machine k.backend).Along (InUse.InTurn k.backend) as) :
    (InUse.machine k.backend).Along (InUse.Served k.backend) as ∧
      ((InUse.machine k.backend).state as).Reserved k.backend := by
  obtain ⟨next, Ok, Free, takes, hlawful⟩ := k.lawful
  exact InUse.reserved_of_lawful hlawful as h

/-- Two transactions one after the other, and a call of `new_node` that begins before the second commits. -/
theorem reserved_ids_inTurn :
    (InUse.machine sqlite.backend).Along (InUse.Served sqlite.backend)
      [.newTx, .txNewNode 0 [97] 1, .commit 0, .newNode [98] 2, .newTx, .txNewNode 1 [99] 3, .commit 1, .finish 0] ∧
    ((InUse.machine sqlite.backend).state
      [.newTx, .txNewNode 0 [97] 1, .commit 0, .newNode [98] 2, .newTx, .txNewNode 1 [99] 3, .commit 1, .finish 0]).Reserved
        sqlite.backend :=
  reserved_ids .sqlite _ (Machine.along_iff_alongFrom.mpr (by decide +kernel))

/-- Two transactions get an id each before either commits, and it is the same id. On a Parquet store the second node takes the
place of the first, SQLite refuses the second commit, and Redis pushes the second node to another place. -/
theorem overlapping_transactions_share_id :
    ¬((InUse.machine parquet.backend).state
      [.newTx, .newTx, .txNewNode 0 [97] 1, .txNewNode 1 [98] 2, .commit 0, .commit 1]).Reserved parquet.backend ∧
    ¬(InUse.machine sqlite.backend).Along (InUse.Served sqlite.backend)
      [.newTx, .newTx, .txNewNode 0 [97] 1, .txNewNode 1 [98] 2, .commit 0, .commit 1] ∧
    ¬((InUse.machine redis.backend).state
      [.newTx, .newTx, .txNewNode 0 [97] 1, .txNewNode 1 [98] 2, .commit 0, .commit 1]).Reserved redis.backend := by
  refine ⟨fun h => absurd h.distinct (by decide +kernel), fun h => ?_, fun h => absurd h.distinct (by decide +kernel)⟩
  have hserved := h [.newTx, .newTx, .txNewNode 0 [97] 1, .txNewNode 1 [98] 2, .commit 0] (.commit 1) (List.prefix_refl _)
  obtain ⟨id, pfx, record, hmem, -⟩ := hserved ⟨[(1, [98], 2)], []⟩ (by decide +kernel)
    (.internal "UNIQUE constraint failed: rt_nodes.id") (by decide +kernel)
  exact absurd hmem List.not_mem_nil

end Kind

end Opsense
