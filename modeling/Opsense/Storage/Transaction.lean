import Opsense.Lib.Updates
import Opsense.Storage.Category

/-!
# What a commit that does not finish leaves

A commit writes its records one by one, to the tables in memory and to the log. It finishes neither when an update is on a node
that is not there nor when the process stops. What is left then is the store as it was or as the whole commit makes it only if
the transaction changes no more than one entry of the tables (`commit_atomic_iff`).
-/

namespace Opsense

/-- What a record of a commit is written to. -/
inductive TableEntry where
  | node (id : Nat)
  | child (parent child : Nat)
  | counter
deriving DecidableEq, Repr

inductive EntryContent where
  | node (node : Option (Bytes × Nat))
  | child (present : Bool)
  | counter (next : Nat)
deriving DecidableEq, Repr

instance : Nonempty TableEntry := ⟨.counter⟩

def TxRecord.write : TxRecord → TableEntry × EntryContent
  | .node id pfx record => (.node id, .node (some (pfx, record)))
  | .counter max_id => (.counter, .counter (max_id + 1))
  | .child parent c => (.child parent c, .child true)
  | .childDel parent c => (.child parent c, .child false)

namespace CategoryTx

/-- What the transaction writes, up to an update of a node that is not there. -/
def writes (s : Inner) (tx : CategoryTx) : List (TableEntry × EntryContent) := (tx.records fun id => s.nodes.lookup id).map TxRecord.write

end CategoryTx

namespace Inner

def entry (s : Inner) : TableEntry → EntryContent
  | .node id => .node (s.nodes.lookup id)
  | .child parent child => .child (decide ((parent, child) ∈ s.children))
  | .counter => .counter s.counter

/-- The same tables, the same buffer and the same delta files. -/
structure Same (s t : Inner) : Prop extends SameTables s t where
  ts_manifest : s.lake.ts_manifest = t.lake.ts_manifest
  files : s.lake.files = t.lake.files

/-- The same but for the entries that transactions write to. -/
structure SameOthers (s t : Inner) : Prop where
  roots : s.roots = t.roots
  metas : s.metas = t.metas
  keylens : s.keylens = t.keylens
  shortcuts : s.shortcuts = t.shortcuts
  edges : s.edges = t.edges
  node_metas : s.node_metas = t.node_metas
  chains : s.chains = t.chains
  patterns : s.patterns = t.patterns
  blooms : s.blooms = t.blooms
  lake : s.lake = t.lake

end Inner

namespace CategoryTx

/-- The transaction changes one entry at most and writes nothing to it but what it held and what it holds in the end. If it
updates a node that is not there, it changes nothing before. -/
def SingleChange (s : Inner) (tx : CategoryTx) : Prop :=
  (tx.Misses (fun id => s.nodes.lookup id) → ∀ w ∈ tx.writes s, w.2 = s.entry w.1) ∧ Updates.OneEntry s.entry (tx.writes s)

end CategoryTx

namespace Store

/-- A commit that fails changes nothing, and one that stops leaves the store as it was or as the whole commit makes it. -/
structure Atomic (s : Store) (tx : CategoryTx) : Prop where
  failed : ∀ e, (s.commit tx).2 = .error e → Inner.Same (s.commit tx).1.inner s.inner
  stopped : ∀ k, Inner.Same (s.stopped (s.commit tx).1 k).inner s.inner ∨
    ((s.commit tx).2 = .ok () ∧ Inner.Same (s.stopped (s.commit tx).1 k).inner (s.commit tx).1.inner)

end Store

namespace Inner

/-! ## Entries -/

theorem entry_write (s : Inner) (r : TxRecord) : (s.applyWalOp r.op).entry r.write.1 = r.write.2 := by
  cases r <;> simp [applyWalOp, entry, TxRecord.op, TxRecord.write]

theorem entry_of_ne {s : Inner} {r : TxRecord} {e : TableEntry} (h : e ≠ r.write.1) : (s.applyWalOp r.op).entry e = s.entry e := by
  cases r with
  | node id pfx record =>
    cases e with
    | node i =>
      have hi : i ≠ id := by
        rintro rfl
        exact h rfl
      simp [applyWalOp, entry, TxRecord.op, hi]
    | _ => rfl
  | counter max_id =>
    cases e with
    | counter => exact absurd rfl h
    | _ => rfl
  | child parent c =>
    cases e with
    | child p d =>
      have hpd : (p, d) ≠ (parent, c) := by
        intro heq
        obtain ⟨rfl, rfl⟩ := Prod.mk.inj heq
        exact h rfl
      simp [applyWalOp, entry, TxRecord.op, hpd]
    | _ => rfl
  | childDel parent c =>
    cases e with
    | child p d =>
      have hpd : (p, d) ≠ (parent, c) := by
        intro heq
        obtain ⟨rfl, rfl⟩ := Prod.mk.inj heq
        exact h rfl
      simp [applyWalOp, entry, TxRecord.op, hpd]
    | _ => rfl

theorem entry_applyWalOp (s : Inner) (r : TxRecord) :
    (s.applyWalOp r.op).entry = Function.update s.entry r.write.1 r.write.2 := by
  refine funext fun e => ?_
  by_cases he : e = r.write.1
  · rw [he, entry_write, Function.update_self]
  · rw [entry_of_ne he, Function.update_of_ne he]

theorem SameOthers.refl (s : Inner) : SameOthers s s := ⟨rfl, rfl, rfl, rfl, rfl, rfl, rfl, rfl, rfl, rfl⟩

theorem SameOthers.symm {s t : Inner} (h : SameOthers s t) : SameOthers t s :=
  ⟨h.roots.symm, h.metas.symm, h.keylens.symm, h.shortcuts.symm, h.edges.symm, h.node_metas.symm, h.chains.symm,
    h.patterns.symm, h.blooms.symm, h.lake.symm⟩

theorem SameOthers.trans {s t u : Inner} (h : SameOthers s t) (h' : SameOthers t u) : SameOthers s u :=
  ⟨h.roots.trans h'.roots, h.metas.trans h'.metas, h.keylens.trans h'.keylens, h.shortcuts.trans h'.shortcuts,
    h.edges.trans h'.edges, h.node_metas.trans h'.node_metas, h.chains.trans h'.chains, h.patterns.trans h'.patterns,
    h.blooms.trans h'.blooms, h.lake.trans h'.lake⟩

theorem applyWalOp_others (s : Inner) (r : TxRecord) : SameOthers (s.applyWalOp r.op) s := by
  cases r <;> exact ⟨rfl, rfl, rfl, rfl, rfl, rfl, rfl, rfl, rfl, rfl⟩

/-- The tables are the entries and the others. -/
theorem sameTables_iff {s t : Inner} (h : SameOthers s t) : SameTables s t ↔ s.entry = t.entry := by
  constructor
  · intro hsame
    funext e
    cases e with
    | node id => simp [entry, hsame.nodes]
    | child parent c => simp [entry, hsame.children]
    | counter => simp [entry, hsame.counter]
  · intro hentry
    refine ⟨Finmap.ext_lookup fun id => ?_, Finset.ext fun pair => ?_, h.roots, h.metas, h.keylens, h.shortcuts, h.edges,
      h.node_metas, h.chains, h.patterns, h.blooms, ?_, fun key => by rw [h.lake]⟩
    · exact EntryContent.node.inj (congrFun hentry (.node id))
    · exact decide_eq_decide.mp (EntryContent.child.inj (congrFun hentry (.child pair.1 pair.2)))
    · exact EntryContent.counter.inj (congrFun hentry .counter)

end Inner

namespace Store

theorem entry_mutates (rs : List TxRecord) (s : Store) :
    ((rs.map TxRecord.op).foldl mutate s).inner.entry = Updates.run s.inner.entry (rs.map TxRecord.write) := by
  induction rs generalizing s with
  | nil => rfl
  | cons r rs ih =>
    have hmutate : (s.mutate r.op).inner.entry = (s.inner.applyWalOp r.op).entry := by
      funext e
      cases e <;> rfl
    rw [List.map_cons, List.foldl_cons, ih, hmutate, Inner.entry_applyWalOp]
    rfl

theorem others_mutates (rs : List TxRecord) (s : Store) :
    Inner.SameOthers ((rs.map TxRecord.op).foldl mutate s).inner s.inner := by
  induction rs generalizing s with
  | nil => exact Inner.SameOthers.refl _
  | cons r rs ih =>
    have hop := s.inner.applyWalOp_others r
    exact (ih (s.mutate r.op)).trans
      ⟨hop.roots, hop.metas, hop.keylens, hop.shortcuts, hop.edges, hop.node_metas, hop.chains, hop.patterns, hop.blooms, hop.lake⟩

variable {s : Store} {tx : CategoryTx}

theorem entry_commit (s : Store) (tx : CategoryTx) :
    (s.commit tx).1.inner.entry = Updates.run s.inner.entry (tx.writes s.inner) := by
  rw [commit_records, entry_mutates]
  rfl

theorem others_commit (s : Store) (tx : CategoryTx) : Inner.SameOthers (s.commit tx).1.inner s.inner := by
  rw [commit_records]
  exact others_mutates _ s

/-- A commit leaves what was there exactly when every write writes what was there. -/
theorem commit_same_iff (s : Store) (tx : CategoryTx) :
    Inner.Same (s.commit tx).1.inner s.inner ↔ Updates.run s.inner.entry (tx.writes s.inner) = s.inner.entry := by
  have hothers := s.others_commit tx
  rw [← entry_commit, ← Inner.sameTables_iff hothers]
  exact ⟨fun h => h.toSameTables, fun h => ⟨h, by rw [hothers.lake], by rw [hothers.lake]⟩⟩

/-- After a stop the store holds what the first writes make of it. -/
theorem stopped_same_iff (h : s.Reopens) (k : Nat) {t : Store} (ht : Inner.SameOthers t.inner s.inner) :
    Inner.Same (s.stopped (s.commit tx).1 k).inner t.inner ↔
      Updates.run s.inner.entry ((tx.writes s.inner).take k) = t.inner.entry := by
  have hothers := s.others_commit tx
  have hops : ∀ op ∈ (tx.records fun id => s.inner.nodes.lookup id).map TxRecord.op, op ≠ .counter 0 := by
    intro op hop
    obtain ⟨r, -, rfl⟩ := List.mem_map.mp hop
    exact op_ne r
  have hfirst : Inner.SameTables (s.stopped (s.commit tx).1 k).inner
      ((((tx.records fun id => s.inner.nodes.lookup id).take k).map TxRecord.op).foldl mutate s).inner := by
    rw [commit_records, List.map_take]
    exact stopped_same h hops k
  have hentry : Updates.run s.inner.entry ((tx.writes s.inner).take k) =
      ((((tx.records fun id => s.inner.nodes.lookup id).take k).map TxRecord.op).foldl mutate s).inner.entry := by
    rw [entry_mutates, CategoryTx.writes, List.map_take]
  have hlake : (s.stopped (s.commit tx).1 k).inner.lake.ts_manifest = (s.commit tx).1.inner.lake.ts_manifest ∧
      (s.stopped (s.commit tx).1 k).inner.lake.files = (s.commit tx).1.inner.lake.files := ⟨rfl, rfl⟩
  rw [hentry, ← Inner.sameTables_iff ((others_mutates _ s).trans ht.symm)]
  constructor
  · intro hsame
    exact hfirst.symm.trans hsame.toSameTables
  · intro hsame
    refine ⟨hfirst.trans hsame, ?_, ?_⟩
    · rw [hlake.1, hothers.lake, ht.lake]
    · rw [hlake.2, hothers.lake, ht.lake]

/-- On a store that opens again with its tables, commits are all or nothing exactly when they change one entry at most. -/
theorem Reopens.atomic_iff (h : s.Reopens) (tx : CategoryTx) : s.Atomic tx ↔ tx.SingleChange s.inner := by
  have hbefore : ∀ k, Inner.Same (s.stopped (s.commit tx).1 k).inner s.inner ↔
      Updates.run s.inner.entry ((tx.writes s.inner).take k) = s.inner.entry :=
    fun k => stopped_same_iff h k (Inner.SameOthers.refl _)
  have hafter : ∀ k, Inner.Same (s.stopped (s.commit tx).1 k).inner (s.commit tx).1.inner ↔
      Updates.run s.inner.entry ((tx.writes s.inner).take k) = Updates.run s.inner.entry (tx.writes s.inner) := by
    intro k
    rw [stopped_same_iff h k (s.others_commit tx), entry_commit]
  constructor
  · intro hatomic
    refine ⟨fun hmisses => Updates.same_of_cuts fun k => ?_, ?_⟩
    · rcases hatomic.stopped k with hcut | ⟨hok, -⟩
      · exact (hbefore k).mp hcut
      · exact absurd hmisses ((s.commit_ok tx).mp hok)
    · refine (Updates.cuts_iff _ _).mp fun k => ?_
      exact (hatomic.stopped k).imp (hbefore k).mp fun hcut => (hafter k).mp hcut.2
  · rintro ⟨hmissing, hone⟩
    refine ⟨fun e he => ?_, fun k => ?_⟩
    · have hmisses : tx.Misses fun id => s.inner.nodes.lookup id := by
        by_contra hnot
        rw [(s.commit_ok tx).mpr hnot] at he
        cases he
      exact (s.commit_same_iff tx).mpr (Updates.run_same (hmissing hmisses))
    · by_cases hmisses : tx.Misses fun id => s.inner.nodes.lookup id
      · left
        exact (hbefore k).mpr (Updates.run_same fun w hw => hmissing hmisses w (List.mem_of_mem_take hw))
      · exact ((Updates.cuts_iff _ _).mpr hone k).imp (hbefore k).mpr
          fun hcut => ⟨(s.commit_ok tx).mpr hmisses, (hafter k).mpr hcut⟩

/-- Whatever was done to a store, a commit on it is all or nothing exactly when it changes no more than one entry: one node,
one child or the counter. -/
theorem commit_atomic_iff (flush_threshold block_secs : Nat) (as : List LakeAct) (tx : CategoryTx) :
    ((lakeMachine flush_threshold block_secs).state as).Atomic tx ↔
      tx.SingleChange ((lakeMachine flush_threshold block_secs).state as).inner :=
  (reopens flush_threshold block_secs as).atomic_iff tx

/-- A new node whose commit stops before the counter is written is there, and its id is given out again. A child that is added
before the update of a node that is not there stays when the commit has failed. -/
theorem commit_not_atomic :
    ¬((lakeMachine 0 3600).state []).Atomic ⟨[(1, [97], 1)], [.addChild 0 1]⟩ ∧
    ¬((lakeMachine 0 3600).state []).Atomic ⟨[], [.addChild 0 5, .updateNode 9 none (some 1)]⟩ := by
  constructor
  · intro h
    rcases h.stopped 1 with hcut | ⟨-, hcut⟩
    · have hnode := congrArg (fun nodes => Finmap.lookup 1 nodes) hcut.nodes
      exact absurd hnode (by decide +kernel)
    · exact absurd hcut.counter (by decide +kernel)
  · intro h
    have hsame := (h.failed (.branchOutOfRange 9) (by decide +kernel)).children
    exact absurd hsame (by decide +kernel)

end Store

end Opsense
