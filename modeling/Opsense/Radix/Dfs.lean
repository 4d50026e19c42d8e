import Opsense.Lib.Resume
import Opsense.Radix.Insert
import Opsense.Radix.Matcher

/-!
# Search from a node

`search_dfs` of `opsense-mlib/src/radix.rs`, with the matcher it is given: a stack of frames goes down the tree, and where the
matcher finds the pattern the records of the subtree are collected, and the search ends. It takes its turns until a deadline has
passed, and goes on from a checkpoint. On the trees that are kept in a storage it ends, with the records of the node that
`Forest.visit` finds, as often as `Forest.gathered` says (`visit_ends`).

With the feature `bloom-search` a child may be pruned. The search is then the one without pruning where no child is pruned below
which that one finds something (`visit_ends_pruned`).
-/

namespace Opsense

structure DfsFrame where
  node_id : Nat
  pattern_pos : Nat
  cont_idx : Nat
  child_idx : Nat
deriving DecidableEq, Repr

/-- `DfsState`, with its stacks from the top. -/
inductive DfsState where
  | search (stack : List DfsFrame)
  | collect (root : Nat) (stack : List (Nat × Nat))
deriving DecidableEq, Repr

structure DfsCheckpoint where
  state : Option DfsState
  records : List Nat
deriving DecidableEq, Repr

/-- A node of a forest that is kept is kept with what follows it. -/
theorem Holds.of_mem {T : Type} {E : Element T} {v : View} {f : Forest Nat T Nat} (h : Holds E v f) {id : Nat} {piece : List T}
    {value : Option Nat} {below : Forest Nat T Nat} (hn : (id, piece, value, below) ∈ f.nodes) :
    Holds E v (.tree id piece value below) := by
  induction f with
  | nil => cases hn
  | node i p v below' beside ihbelow ihbeside =>
    obtain ⟨hnode, hvalue, hchildren, hbelow, hbeside⟩ := h
    rcases List.mem_cons.mp hn with heq | hn
    · obtain ⟨rfl, rfl, rfl, rfl⟩ : id = i ∧ piece = p ∧ value = v ∧ below = below' := by simpa using heq
      exact ⟨hnode, hvalue, hchildren, hbelow, trivial⟩
    · rcases List.mem_append.mp hn with hn | hn
      · exact ihbelow hbelow hn
      · exact ihbeside hbeside hn

namespace Radix

variable {σ T : Type} [DecidableEq T] (B : Backend σ) (E : Element T) (R : Radix T)

/-- The loop over the children from `child_idx` on: one whose piece begins with the element, and the index after it. -/
def nextChild (next_elem : T) (s : σ) : List Nat → Nat → Except StorageError (Option (Nat × Nat))
  | [], _ => .ok none
  | child :: children, child_idx =>
    match B.getNode s child with
    | .error e => .error e
    | .ok node =>
      if (E.toVec node.1).head? = some next_elem then .ok (some (child, child_idx + 1))
      else nextChild next_elem s children (child_idx + 1)

/-- The loop over the continuations from `cont_idx` on: the frame with its new place, and the one of the child. -/
def descend (s : σ) (pattern : List T) (children : List Nat) (frame : DfsFrame) :
    List Nat → Nat → Nat → Except StorageError (Option (DfsFrame × DfsFrame))
  | [], _, _ => .ok none
  | pp :: continuations, cont_idx, child_idx =>
    match if pp = 0 then none else pattern[pp]? with
    | none => descend s pattern children frame continuations (cont_idx + 1) 0
    | some next_elem =>
      match nextChild B E next_elem s (children.drop child_idx) child_idx with
      | .error e => .error e
      | .ok none => descend s pattern children frame continuations (cont_idx + 1) 0
      | .ok (some (child, child_idx)) => .ok (some ({ frame with cont_idx, child_idx }, ⟨child, pp, 0, 0⟩))

/-- A turn of the search: frames are taken from the stack until one finds the pattern or goes down. -/
def searchTurn (s : σ) (pattern : List T) (matcher : SearchMatcher T) : List DfsFrame → Except StorageError (Option DfsState)
  | [] => .ok none
  | frame :: stack =>
    match B.getNode s frame.node_id with
    | .error e => .error e
    | .ok node =>
      let result := matcher (E.toVec node.1) pattern frame.pattern_pos
      if result.found then .ok (some (.collect frame.node_id [(frame.node_id, 0)]))
      else
        match descend B E s pattern (B.getChildren s frame.node_id) frame (result.continuations.drop frame.cont_idx)
          frame.cont_idx frame.child_idx with
        | .error e => .error e
        | .ok none => searchTurn s pattern matcher stack
        | .ok (some (frame, child)) => .ok (some (.search (child :: frame :: stack)))

/-- A turn of the collecting. A node is met once more after each of its children, and its record goes to the others every time. -/
def collectTurn (s : σ) (root : Nat) : List (Nat × Nat) → List Nat → Except StorageError (Option DfsState × List Nat)
  | [], records => .ok (none, records)
  | (node_id, child_idx) :: stack, records =>
    match B.getNode s node_id with
    | .error e => .error e
    | .ok node =>
      let records := if node.2 ≠ EMPTY then records ++ [node.2] else records
      match (B.getChildren s node_id)[child_idx]? with
      | some child => .ok (some (.collect root ((child, 0) :: (node_id, child_idx + 1) :: stack)), records)
      | none => .ok (some (.collect root stack), records)

/-- A turn of the loop of `search_dfs`: the state and the records after it, or the records when there is no state any more. -/
def dfsTurn (s : σ) (pattern : List T) (matcher : SearchMatcher T) :
    DfsState × List Nat → Except StorageError ((DfsState × List Nat) ⊕ List Nat)
  | (.search stack, records) =>
    (searchTurn B E s pattern matcher stack).map fun state =>
      match state with
      | none => .inr records
      | some state => .inl (state, records)
  | (.collect root stack, records) =>
    (collectTurn B s root stack records).map fun r =>
      match r.1 with
      | none => .inr r.2
      | some state => .inl (state, r.2)

/-- The state and the records that `search_dfs` begins with, from a checkpoint or from a node. -/
def dfsStart (s : σ) (begin_ : Nat) (first : T) : Option DfsCheckpoint → Option (Option DfsState × List Nat)
  | some cp => some (cp.state, cp.records)
  | none =>
    let node_id := if begin_ = EMPTY then B.getRoot s (shardOf E first R.sharding) else begin_
    if node_id = EMPTY then none else some (some (.search [⟨node_id, 0, 0, 0⟩]), [])

/-- `search_dfs`. `deadline` is how many turns come before the one that finds it passed. It gives nothing when `fuel` is not enough. -/
def searchDfs (s : σ) (fuel begin_ : Nat) (pattern : List T) (matcher : SearchMatcher T) (resume : Option DfsCheckpoint)
    (deadline : Option Nat) : Option (Except RadixError (List Nat × Option DfsCheckpoint)) :=
  match pattern with
  | [] => some (.error .notFound)
  | first :: _ =>
    match dfsStart B E R s begin_ first resume with
    | none => some (.ok ([], none))
    | some (none, records) => some (.ok (records, none))
    | some (some state, records) =>
      (Resumable.drive (dfsTurn B E s pattern matcher) fuel deadline (state, records)).map fun r =>
        (r.mapError RadixError.categoryStorage).map fun
          | .inl (state, records) => ([], some ⟨some state, records⟩)
          | .inr records => (records, none)

/-- One call of `search_dfs` after another, each from the checkpoint of the one before it, and the last without a deadline: the
records of the call that gives no checkpoint. -/
def searchCalls (s : σ) (fuel begin_ : Nat) (pattern : List T) (matcher : SearchMatcher T) :
    List Nat → Option DfsCheckpoint → Option (Except RadixError (List Nat))
  | [], resume => (searchDfs B E R s fuel begin_ pattern matcher resume none).map (Except.map Prod.fst)
  | deadline :: deadlines, resume =>
    match searchDfs B E R s fuel begin_ pattern matcher resume (some deadline) with
    | none => none
    | some (.error e) => some (.error e)
    | some (.ok (records, none)) => some (.ok records)
    | some (.ok (_, some cp)) => searchCalls s fuel begin_ pattern matcher deadlines (some cp)

/-! ## Pruning -/

/-- `nextChild` with the feature `bloom-search`: a child may be pruned. -/
def nextChildPruned (prune : Nat → Bool) (next_elem : T) (s : σ) : List Nat → Nat → Except StorageError (Option (Nat × Nat))
  | [], _ => .ok none
  | child :: children, child_idx =>
    match B.getNode s child with
    | .error e => .error e
    | .ok node =>
      if (E.toVec node.1).head? = some next_elem ∧ prune child = false then .ok (some (child, child_idx + 1))
      else nextChildPruned prune next_elem s children (child_idx + 1)

/-- `descend` with the feature `bloom-search`. `prune` is asked of a child and how much of the pattern is read before it. -/
def descendPruned (s : σ) (prune : Nat → Nat → Bool) (pattern : List T) (children : List Nat) (frame : DfsFrame) :
    List Nat → Nat → Nat → Except StorageError (Option (DfsFrame × DfsFrame))
  | [], _, _ => .ok none
  | pp :: continuations, cont_idx, child_idx =>
    match if pp = 0 then none else pattern[pp]? with
    | none => descendPruned s prune pattern children frame continuations (cont_idx + 1) 0
    | some next_elem =>
      match nextChildPruned B E (prune · pp) next_elem s (children.drop child_idx) child_idx with
      | .error e => .error e
      | .ok none => descendPruned s prune pattern children frame continuations (cont_idx + 1) 0
      | .ok (some (child, child_idx)) => .ok (some ({ frame with cont_idx, child_idx }, ⟨child, pp, 0, 0⟩))

/-- `searchTurn` with the feature `bloom-search`. -/
def searchTurnPruned (s : σ) (prune : Nat → Nat → Bool) (pattern : List T) (matcher : SearchMatcher T) :
    List DfsFrame → Except StorageError (Option DfsState)
  | [] => .ok none
  | frame :: stack =>
    match B.getNode s frame.node_id with
    | .error e => .error e
    | .ok node =>
      let result := matcher (E.toVec node.1) pattern frame.pattern_pos
      if result.found then .ok (some (.collect frame.node_id [(frame.node_id, 0)]))
      else
        match descendPruned B E s prune pattern (B.getChildren s frame.node_id) frame (result.continuations.drop frame.cont_idx)
          frame.cont_idx frame.child_idx with
        | .error e => .error e
        | .ok none => searchTurnPruned s prune pattern matcher stack
        | .ok (some (frame, child)) => .ok (some (.search (child :: frame :: stack)))

/-- `dfsTurn` with the feature `bloom-search`. -/
def dfsTurnPruned (s : σ) (prune : Nat → Nat → Bool) (pattern : List T) (matcher : SearchMatcher T) :
    DfsState × List Nat → Except StorageError ((DfsState × List Nat) ⊕ List Nat)
  | (.search stack, records) =>
    (searchTurnPruned B E s prune pattern matcher stack).map fun state =>
      match state with
      | none => .inr records
      | some state => .inl (state, records)
  | (.collect root stack, records) =>
    (collectTurn B s root stack records).map fun r =>
      match r.1 with
      | none => .inr r.2
      | some state => .inl (state, r.2)

/-- `search_dfs` with the feature `bloom-search`. -/
def searchDfsPruned (s : σ) (prune : Nat → Nat → Bool) (fuel begin_ : Nat) (pattern : List T) (matcher : SearchMatcher T)
    (resume : Option DfsCheckpoint) (deadline : Option Nat) :
    Option (Except RadixError (List Nat × Option DfsCheckpoint)) :=
  match pattern with
  | [] => some (.error .notFound)
  | first :: _ =>
    match dfsStart B E R s begin_ first resume with
    | none => some (.ok ([], none))
    | some (none, records) => some (.ok (records, none))
    | some (some state, records) =>
      (Resumable.drive (dfsTurnPruned B E s prune pattern matcher) fuel deadline (state, records)).map fun r =>
        (r.mapError RadixError.categoryStorage).map fun
          | .inl (state, records) => ([], some ⟨some state, records⟩)
          | .inr records => (records, none)

/-- `searchCalls` with the feature `bloom-search`. -/
def searchCallsPruned (s : σ) (prune : Nat → Nat → Bool) (fuel begin_ : Nat) (pattern : List T) (matcher : SearchMatcher T) :
    List Nat → Option DfsCheckpoint → Option (Except RadixError (List Nat))
  | [], resume => (searchDfsPruned B E R s prune fuel begin_ pattern matcher resume none).map (Except.map Prod.fst)
  | deadline :: deadlines, resume =>
    match searchDfsPruned B E R s prune fuel begin_ pattern matcher resume (some deadline) with
    | none => none
    | some (.error e) => some (.error e)
    | some (.ok (records, none)) => some (.ok records)
    | some (.ok (_, some cp)) => searchCallsPruned s prune fuel begin_ pattern matcher deadlines (some cp)

variable {B E R} {s : σ} {prune : Nat → Nat → Bool} {f below : Forest Nat T Nat} {id : Nat} {piece : List T} {value : Option Nat}
  {pattern : List T} {matcher : SearchMatcher T}

/-- The search without pruning is the one that prunes nothing. -/
theorem dfsTurnPruned_never : dfsTurnPruned B E s (fun _ _ => false) pattern matcher = dfsTurn B E s pattern matcher := by
  have hnext : ∀ next_elem cs i, nextChildPruned B E (fun _ => false) next_elem s cs i = nextChild B E next_elem s cs i := by
    intro next_elem cs
    induction cs with
    | nil => intro i; rfl
    | cons c cs ih => intro i; simp only [nextChildPruned, nextChild, ih, and_true]
  have hdown : ∀ cs frame ls i j, descendPruned B E s (fun _ _ => false) pattern cs frame ls i j =
      descend B E s pattern cs frame ls i j := by
    intro cs frame ls
    induction ls with
    | nil => intro i j; rfl
    | cons l ls ih => intro i j; simp only [descendPruned, descend, ih, hnext]
  have hturn : ∀ stack, searchTurnPruned B E s (fun _ _ => false) pattern matcher stack = searchTurn B E s pattern matcher stack := by
    intro stack
    induction stack with
    | nil => rfl
    | cons frame stack ih => simp only [searchTurnPruned, searchTurn, ih, hdown]
  funext k
  rcases k with ⟨stack | ⟨root, stack⟩, records⟩
  · simp only [dfsTurnPruned, dfsTurn, hturn]
  · rfl

theorem searchDfsPruned_never : searchDfsPruned B E R s (fun _ _ => false) = searchDfs B E R s := by
  funext fuel begin_ pattern matcher resume deadline
  unfold searchDfsPruned searchDfs
  simp only [dfsTurnPruned_never]

theorem searchCallsPruned_never : searchCallsPruned B E R s (fun _ _ => false) = searchCalls B E R s := by
  funext fuel begin_ pattern matcher deadlines
  induction deadlines with
  | nil =>
    funext resume
    simp only [searchCallsPruned, searchCalls, searchDfsPruned_never]
  | cons deadline deadlines ih =>
    funext resume
    simp only [searchCallsPruned, searchCalls, searchDfsPruned_never, ih]

/-! ## Calls -/

/-- More fuel changes nothing. -/
theorem searchCallsPruned_mono {fuel fuel' begin_ : Nat} {hits : Except RadixError (List Nat)}
    (h : searchCallsPruned B E R s prune fuel begin_ pattern matcher [] none = some hits) (hle : fuel ≤ fuel') :
    searchCallsPruned B E R s prune fuel' begin_ pattern matcher [] none = some hits := by
  unfold searchCallsPruned searchDfsPruned at h ⊢
  cases pattern with
  | nil => exact h
  | cons first rest =>
    rcases hstart : dfsStart B E R s begin_ first none with - | ⟨- | state, records⟩
    all_goals
      simp only [hstart] at h ⊢
    · exact h
    · exact h
    · cases hdrive : Resumable.drive (dfsTurnPruned B E s prune (first :: rest) matcher) fuel none (state, records) with
      | none => simp [hdrive] at h
      | some a => rwa [Resumable.drive_mono hdrive hle, ← hdrive]

theorem searchCalls_mono {fuel fuel' begin_ : Nat} {hits : Except RadixError (List Nat)}
    (h : searchCalls B E R s fuel begin_ pattern matcher [] none = some hits) (hle : fuel ≤ fuel') :
    searchCalls B E R s fuel' begin_ pattern matcher [] none = some hits := by
  rw [← searchCallsPruned_never] at h ⊢
  exact searchCallsPruned_mono h hle

/-- Calls that go on from one another do what the loop does when it is resumed. -/
theorem searchCalls_resumed (fuel begin_ : Nat) (first : T) (rest : List T) (deadlines : List Nat) (cp : Option DfsCheckpoint)
    {state : DfsState} {records found : List Nat} (hstart : dfsStart B E R s begin_ first cp = some (some state, records))
    (h : Resumable.resumed (dfsTurnPruned B E s prune (first :: rest) matcher) fuel deadlines (state, records) =
      some (.ok (.inr found))) :
    searchCallsPruned B E R s prune fuel begin_ (first :: rest) matcher deadlines cp = some (.ok found) := by
  induction deadlines generalizing cp state records with
  | nil =>
    unfold Resumable.resumed at h
    unfold searchCallsPruned searchDfsPruned
    simp only [hstart, h]
    rfl
  | cons deadline deadlines ih =>
    unfold Resumable.resumed at h
    unfold searchCallsPruned searchDfsPruned
    simp only [hstart]
    cases hdrive : Resumable.drive (dfsTurnPruned B E s prune (first :: rest) matcher) fuel (some deadline) (state, records) with
    | none =>
      rw [hdrive] at h
      cases h
    | some r =>
      rw [hdrive] at h
      rcases r with error | ⟨state', records'⟩ | records'
      · cases h
      · refine ih (some ⟨some state', records'⟩) rfl ?_
        simpa using h
      · obtain rfl : records' = found := by simpa using h
        rfl

theorem ends_start_pruned {found : List Nat} (begin_ : Nat) (first : T) (rest : List T)
    (hid : (if begin_ = EMPTY then B.getRoot s (shardOf E first R.sharding) else begin_) = id) (hne : id ≠ EMPTY)
    (h : Resumable.Ends (dfsTurnPruned B E s prune (first :: rest) matcher) (.search [⟨id, 0, 0, 0⟩], []) found) :
    ∃ n, ∀ fuel, n ≤ fuel → ∀ deadlines,
      searchCallsPruned B E R s prune fuel begin_ (first :: rest) matcher deadlines none = some (.ok found) := by
  obtain ⟨n, hn⟩ := h.resumed
  refine ⟨n, fun fuel hfuel deadlines => searchCalls_resumed fuel begin_ first rest deadlines none ?_ (hn fuel hfuel deadlines)⟩
  simp only [dfsStart, hid, if_neg hne]

theorem ends_start {found : List Nat} (begin_ : Nat) (first : T) (rest : List T)
    (hid : (if begin_ = EMPTY then B.getRoot s (shardOf E first R.sharding) else begin_) = id) (hne : id ≠ EMPTY)
    (h : Resumable.Ends (dfsTurn B E s (first :: rest) matcher) (.search [⟨id, 0, 0, 0⟩], []) found) :
    ∃ n, ∀ fuel, n ≤ fuel → ∀ deadlines,
      searchCalls B E R s fuel begin_ (first :: rest) matcher deadlines none = some (.ok found) := by
  rw [← dfsTurnPruned_never] at h
  rw [← searchCallsPruned_never]
  exact ends_start_pruned begin_ first rest hid hne h

/-! ## Collecting -/

omit [DecidableEq T] in
/-- The children of a node are the trees below it. -/
theorem children_perm {Open : σ → Nat → Nat → Prop} (S : B.Serial Open) {b n : Nat} (hopen : Open s b n)
    (h : Holds E (B.view s) (.tree id piece value below)) (hnodup : below.names.Nodup) :
    (B.getChildren s id).Perm below.tops := by
  refine (List.perm_ext_iff_of_nodup (S.nodup _ _ _ hopen id) (hnodup.sublist below.tops_sublist)).mpr fun a => ?_
  rw [← List.mem_toFinset, ← List.mem_toFinset, ← h.2.2.1]
  rfl

/-- From a node on, these records are collected before what is below it on the stack, whatever is pruned. -/
def Collected (B : Backend σ) (E : Element T) (s : σ) (pattern : List T) (matcher : SearchMatcher T) (top : Nat × Nat)
    (rs : List Nat) : Prop :=
  ∃ found, found.Perm rs ∧ ∀ prune root stack records r,
    Resumable.Ends (dfsTurnPruned B E s prune pattern matcher) (.collect root stack, records ++ found) r →
      Resumable.Ends (dfsTurnPruned B E s prune pattern matcher) (.collect root (top :: stack), records) r

/-- The children of a node are collected one after another, and the node with each. -/
theorem collected_children (pattern : List T) (matcher : SearchMatcher T)
    (hnode : B.getNode s id = .ok (E.fromVec piece, value.getD EMPTY)) (hvalue : value ≠ some EMPTY) (rs : Nat → List Nat)
    {cs : List Nat} (child_idx : Nat) (hcs : (B.getChildren s id).drop child_idx = cs)
    (hall : ∀ c ∈ cs, Collected B E s pattern matcher (c, 0) (rs c)) :
    Collected B E s pattern matcher (id, child_idx)
      ((List.replicate (cs.length + 1) value.toList).flatten ++ cs.flatMap rs) := by
  have hrecords : ∀ records, (if value.getD EMPTY ≠ EMPTY then records ++ [value.getD EMPTY] else records) =
      records ++ value.toList := by
    intro records
    cases value with
    | none => simp
    | some y =>
      have hy : y ≠ EMPTY := fun heq => hvalue (congrArg some heq)
      simp [hy]
  induction cs generalizing child_idx with
  | nil =>
    have hlast : (B.getChildren s id)[child_idx]? = none := by
      rw [List.getElem?_eq_none_iff]
      exact List.drop_eq_nil_iff.mp hcs
    refine ⟨value.toList, by simp, fun prune root stack records r hends => .next ?_ hends⟩
    simp only [dfsTurnPruned, collectTurn, hnode, hlast, hrecords]
    rfl
  | cons c cs ih =>
    have hat : (B.getChildren s id)[child_idx]? = some c := by
      rw [← List.head?_drop, hcs]
      rfl
    have hrest : (B.getChildren s id).drop (child_idx + 1) = cs := by
      rw [← List.drop_drop, hcs]
      rfl
    obtain ⟨found, hfound, hrun⟩ := ih (child_idx + 1) hrest fun c' hc' => hall c' (List.mem_cons_of_mem _ hc')
    obtain ⟨found', hfound', hrun'⟩ := hall c List.mem_cons_self
    refine ⟨value.toList ++ (found' ++ found), ?_, fun prune root stack records r hends => ?_⟩
    · rw [List.length_cons, List.replicate_succ, List.flatten_cons, List.flatMap_cons, List.append_assoc]
      refine List.Perm.append_left _ ((hfound'.append hfound).trans ?_)
      rw [← List.append_assoc, ← List.append_assoc]
      exact List.perm_append_comm.append_right _
    · have hturn : dfsTurnPruned B E s prune pattern matcher (.collect root ((id, child_idx) :: stack), records) =
          .ok (.inl (.collect root ((c, 0) :: (id, child_idx + 1) :: stack), records ++ value.toList)) := by
        simp only [dfsTurnPruned, collectTurn, hnode, hat, hrecords]
        rfl
      refine .next hturn (hrun' _ _ _ _ _ (hrun _ _ _ _ _ ?_))
      simpa only [List.append_assoc] using hends

section

variable {Open : σ → Nat → Nat → Prop} {b n k : Nat}

/-- Every tree is collected. -/
theorem collected (pattern : List T) (matcher : SearchMatcher T) (S : B.Serial Open) (hopen : Open s b n)
    (h : Holds E (B.view s) f) (hnodup : f.names.Nodup) {c : Nat} (hc : c ∈ f.tops) :
    Collected B E s pattern matcher (c, 0) (f.named c).gathered := by
  induction f generalizing c with
  | nil => cases hc
  | node id piece value below beside ihbelow ihbeside =>
    obtain ⟨hnode, hvalue, hchildren, hbelow, hbeside⟩ := h
    obtain ⟨hid, hnodup⟩ := List.nodup_cons.mp hnodup
    obtain ⟨hnodupbelow, hnodupbeside, -⟩ := List.nodup_append.mp hnodup
    rcases List.mem_cons.mp hc with rfl | hc
    · have hperm := children_perm (E := E) S hopen ⟨hnode, hvalue, hchildren, hbelow, trivial⟩ hnodupbelow
      obtain ⟨found, hfound, hrun⟩ := collected_children pattern matcher (Backend.view_nodes.mp hnode)
        hvalue (fun c => (below.named c).gathered) 0 rfl fun c' hc' => ihbelow hbelow hnodupbelow (hperm.mem_iff.mp hc')
      refine ⟨found, hfound.trans ?_, hrun⟩
      rw [List.drop_zero, hperm.length_eq]
      simp only [Forest.named, if_true, Forest.tree, Forest.gathered, List.append_nil]
      exact (Forest.gathered_named (hnodupbelow.sublist below.tops_sublist) hperm).append_left _
    · have hne : c ≠ id := fun heq => hid (heq ▸ List.mem_append_right _ (beside.tops_sublist.subset hc))
      simp only [Forest.named, hne, if_false]
      exact ihbeside hbeside hnodupbeside hc

end

/-! ## Going down -/

theorem notMem_drop {l : List Nat} (hl : l.Nodup) {i a : Nat} (hi : l[i]? = some a) : a ∉ l.drop (i + 1) := by
  intro hmem
  obtain ⟨j, hj, hja⟩ := List.getElem_of_mem hmem
  obtain ⟨hlt, hia⟩ := List.getElem?_eq_some_iff.mp hi
  rw [List.getElem_drop] at hja
  have hinj := (List.Nodup.getElem_inj_iff hl).mp (hja.trans hia.symm)
  omega

/-- No child begins with the element, but for those that are pruned. -/
theorem nextChild_none {prune : Nat → Bool} (h : Holds E (B.view s) f) (hwf : f.Wf) (hnodup : f.names.Nodup) {a : T} {cs : List Nat}
    (hcs : ∀ c ∈ cs, c ∈ f.tops ∧ (f.top? a = some c → prune c = true)) (child_idx : Nat) :
    nextChildPruned B E prune a s cs child_idx = .ok none := by
  induction cs generalizing child_idx with
  | nil => rfl
  | cons c cs ih =>
    obtain ⟨hc, hpruned⟩ := hcs c List.mem_cons_self
    obtain ⟨piece, record, hnode, hiff⟩ := h.top hwf hnodup a hc
    simp only [nextChildPruned, Backend.view_nodes.mp hnode, Element.toVec_fromVec]
    rw [if_neg fun hhead => by simp [hpruned (hiff.mp hhead.1)] at hhead]
    exact ih (fun c' hc' => hcs c' (List.mem_cons_of_mem _ hc')) _

/-- The child that begins with the element is met, and what comes after it is left. -/
theorem nextChild_some (prune : Nat → Bool) (h : Holds E (B.view s) f) (hwf : f.Wf) (hnodup : f.names.Nodup) {a : T} {c : Nat}
    (hc : f.top? a = some c) (hkept : prune c = false) {cs : List Nat} (hcs : ∀ c' ∈ cs, c' ∈ f.tops) (hmem : c ∈ cs)
    (child_idx : Nat) : ∃ l, l < cs.length ∧ cs[l]? = some c ∧
      nextChildPruned B E prune a s cs child_idx = .ok (some (c, child_idx + l + 1)) := by
  induction cs generalizing child_idx with
  | nil => cases hmem
  | cons c' cs ih =>
    obtain ⟨piece, record, hnode, hiff⟩ := h.top hwf hnodup a (hcs c' List.mem_cons_self)
    simp only [nextChildPruned, Backend.view_nodes.mp hnode, Element.toVec_fromVec]
    by_cases hsame : c' = c
    · subst hsame
      exact ⟨0, Nat.succ_pos _, rfl, by rw [if_pos ⟨hiff.mpr hc, hkept⟩]⟩
    · have hne : piece.head? ≠ some a := fun hhead => hsame (Option.some.inj ((hiff.mp hhead).symm.trans hc))
      obtain ⟨l, hl, hat, hrun⟩ := ih (fun c' hc' => hcs c' (List.mem_cons_of_mem _ hc'))
        ((List.mem_cons.mp hmem).resolve_left (Ne.symm hsame)) (child_idx + 1)
      refine ⟨l + 1, Nat.succ_lt_succ hl, hat, ?_⟩
      rw [if_neg fun hhead => hne hhead.1, hrun]
      simp only [Except.ok.injEq, Option.some.injEq, Prod.mk.injEq, true_and]
      omega

/-- What a search does from a frame on: with `some` node it ends with what is collected there, with `none` it goes on with the rest
of the stack. -/
def Explores (B : Backend σ) (E : Element T) (s : σ) (prune : Nat → Nat → Bool) (pattern : List T) (matcher : SearchMatcher T)
    (frame : DfsFrame) : Option (Nat × List T × Option Nat × Forest Nat T Nat) → Prop
  | none => ∀ stack r, Resumable.Ends (dfsTurnPruned B E s prune pattern matcher) (.search stack, []) r →
      Resumable.Ends (dfsTurnPruned B E s prune pattern matcher) (.search (frame :: stack), []) r
  | some (id, _) => ∀ found, Resumable.Ends (dfsTurnPruned B E s prune pattern matcher) (.collect id [(id, 0)], []) found →
      ∀ stack, Resumable.Ends (dfsTurnPruned B E s prune pattern matcher) (.search (frame :: stack), []) found

variable {frame frame' : DfsFrame} {r : Option (Nat × List T × Option Nat × Forest Nat T Nat)}

/-- A frame whose end comes with that of another one does what that does. -/
theorem Explores.of_ends
    (hends : ∀ stack found, Resumable.Ends (dfsTurnPruned B E s prune pattern matcher) (.search (frame' :: stack), []) found →
      Resumable.Ends (dfsTurnPruned B E s prune pattern matcher) (.search (frame :: stack), []) found)
    (h : Explores B E s prune pattern matcher frame' r) : Explores B E s prune pattern matcher frame r := by
  cases r with
  | none => exact fun stack found hstack => hends stack found (h stack found hstack)
  | some n => exact fun found hfound stack => hends stack found (h found hfound stack)

/-- Frames of a node with the same ways before them take the same turn. -/
theorem searchTurn_congr {k cont_idx child_idx : Nat} (cont_idx' child_idx' : Nat) {node : Bytes × Nat}
    (hnode : B.getNode s id = .ok node)
    (hsame : ∀ frame : DfsFrame,
      descendPruned B E s prune pattern (B.getChildren s id) frame ((matcher (E.toVec node.1) pattern k).continuations.drop cont_idx)
        cont_idx child_idx =
      descendPruned B E s prune pattern (B.getChildren s id) frame ((matcher (E.toVec node.1) pattern k).continuations.drop cont_idx')
        cont_idx' child_idx') (stack : List DfsFrame) :
    searchTurnPruned B E s prune pattern matcher (⟨id, k, cont_idx, child_idx⟩ :: stack) =
      searchTurnPruned B E s prune pattern matcher (⟨id, k, cont_idx', child_idx'⟩ :: stack) := by
  have hframe : ∀ (ls : List Nat) (c d : Nat),
      descendPruned B E s prune pattern (B.getChildren s id) ⟨id, k, cont_idx, child_idx⟩ ls c d =
        descendPruned B E s prune pattern (B.getChildren s id) ⟨id, k, cont_idx', child_idx'⟩ ls c d := by
    intro ls
    induction ls with
    | nil => exact fun _ _ => rfl
    | cons l ls ih =>
      intro c d
      simp only [descendPruned, ih]
  simp only [searchTurnPruned, hnode, hsame, hframe]

/-- What a matcher says of a piece. -/
def matches_ (pattern : List T) (matcher : SearchMatcher T) (piece : List T) (k : Nat) : Bool × List Nat :=
  ((matcher piece pattern k).found, (matcher piece pattern k).continuations)

/-- A child is pruned only where the search below it finds nothing. -/
def PrunesMisses (prune : Nat → Nat → Bool) (pattern : List T) (matcher : SearchMatcher T) (f : Forest Nat T Nat) : Prop :=
  ∀ l a c, pattern[l]? = some a → f.top? a = some c → prune c l = true → f.probe (matches_ pattern matcher) pattern l = none

section

variable {Open : σ → Nat → Nat → Prop} {b n k : Nat}

/-- Where no child is met, the next continuation has its turn. -/
theorem skip_continuation {k cont_idx l record : Nat} {ls : List Nat} (hnode : B.getNode s id = .ok (E.fromVec piece, record))
    (hls : (matcher piece pattern k).continuations.drop cont_idx = l :: ls) (child_idx : Nat)
    (hnone : ∀ a, l ≠ 0 → pattern[l]? = some a →
      nextChildPruned B E (prune · l) a s ((B.getChildren s id).drop child_idx) child_idx = .ok none) (stack : List DfsFrame)
    (found : List Nat)
    (hends : Resumable.Ends (dfsTurnPruned B E s prune pattern matcher) (.search (⟨id, k, cont_idx + 1, 0⟩ :: stack), []) found) :
    Resumable.Ends (dfsTurnPruned B E s prune pattern matcher) (.search (⟨id, k, cont_idx, child_idx⟩ :: stack), []) found := by
  have hrest : (matcher piece pattern k).continuations.drop (cont_idx + 1) = ls := by
    rw [← List.drop_drop, hls]
    rfl
  refine hends.congr ?_
  simp only [dfsTurnPruned]
  rw [searchTurn_congr (cont_idx + 1) 0 hnode fun frame => ?_]
  rw [E.toVec_fromVec, hls, hrest, descendPruned]
  by_cases hl : l = 0
  · rw [if_pos hl]
  · rw [if_neg hl]
    cases ha : pattern[l]? with
    | none => rfl
    | some a =>
      dsimp only
      rw [hnone a hl ha]

/-- The continuations of a node are tried one after another, from any of them on. -/
theorem continuations_explore (S : B.Serial Open) (hopen : Open s b n) (h : Holds E (B.view s) (.tree id piece value below))
    (hwf : below.Wf) (hnodup : below.names.Nodup) (hprune : PrunesMisses prune pattern matcher below)
    (hfound : (matcher piece pattern k).found = false)
    (hbelow : ∀ l a c, pattern[l]? = some a → below.top? a = some c →
      Explores B E s prune pattern matcher ⟨c, l, 0, 0⟩ (below.probe (matches_ pattern matcher) pattern l))
    {ls : List Nat} {cont_idx : Nat} (hls : (matcher piece pattern k).continuations.drop cont_idx = ls) :
    Explores B E s prune pattern matcher ⟨id, k, cont_idx, 0⟩
      (ls.findSome? fun l => if l = 0 then none else below.probe (matches_ pattern matcher) pattern l) := by
  have hnode := Backend.view_nodes.mp h.1
  have hholds : Holds E (B.view s) below := h.2.2.2.1
  have hperm := children_perm S hopen h hnodup
  have hchildren := S.nodup _ _ _ hopen id
  induction ls generalizing cont_idx with
  | nil =>
    refine fun stack r hends => hends.congr ?_
    have hturn : searchTurnPruned B E s prune pattern matcher (⟨id, k, cont_idx, 0⟩ :: stack) =
        searchTurnPruned B E s prune pattern matcher stack := by
      simp only [searchTurnPruned, hnode, E.toVec_fromVec, hfound, hls, descendPruned]
      rfl
    simp only [dfsTurnPruned, hturn]
  | cons l ls ih =>
    have hrest : (matcher piece pattern k).continuations.drop (cont_idx + 1) = ls := by
      rw [← List.drop_drop, hls]
      rfl
    have hnext := ih hrest
    rw [List.findSome?_cons]
    by_cases hl : l = 0
    · rw [if_pos hl]
      exact Explores.of_ends (skip_continuation hnode hls 0 fun a hne => absurd hl hne) hnext
    · rw [if_neg hl]
      cases ha : pattern[l]? with
      | none =>
        rw [Forest.probe_of_le hwf (List.getElem?_eq_none_iff.mp ha)]
        exact Explores.of_ends (skip_continuation hnode hls 0 fun a _ hsome => by rw [ha] at hsome; cases hsome) hnext
      | some a =>
        -- no child is met among those that begin with other elements or are pruned
        have hnone : ∀ i, (∀ c ∈ (B.getChildren s id).drop i, below.top? a = some c → prune c l = true) → ∀ a', l ≠ 0 →
            pattern[l]? = some a' →
            nextChildPruned B E (prune · l) a' s ((B.getChildren s id).drop i) i = .ok none := by
          intro i hi a' _ hsome
          obtain rfl : a = a' := by
            rw [ha] at hsome
            exact Option.some.inj hsome
          exact nextChild_none hholds hwf hnodup (fun c hmem => ⟨hperm.mem_iff.mp (List.mem_of_mem_drop hmem), hi c hmem⟩) i
        cases hc : below.top? a with
        | none =>
          rw [Forest.probe_of_top?_eq_none ha hc]
          refine Explores.of_ends (skip_continuation hnode hls 0 (hnone 0 fun c _ heq => ?_)) hnext
          rw [hc] at heq
          cases heq
        | some c =>
          cases hpruned : prune c l with
          | true =>
            rw [hprune l a c ha hc hpruned]
            refine Explores.of_ends (skip_continuation hnode hls 0 (hnone 0 fun c' _ heq => ?_)) hnext
            rw [hc] at heq
            rw [← Option.some.inj heq]
            exact hpruned
          | false =>
            obtain ⟨i, hi, hat, hrun⟩ := nextChild_some (prune · l) hholds hwf hnodup hc hpruned
              (fun c' => hperm.mem_iff.mp) (hperm.mem_iff.mpr (Forest.top?_mem hc).1) 0
            have hdown : ∀ stack, dfsTurnPruned B E s prune pattern matcher (.search (⟨id, k, cont_idx, 0⟩ :: stack), []) =
                .ok (.inl (.search (⟨c, l, 0, 0⟩ :: ⟨id, k, cont_idx, i + 1⟩ :: stack), [])) := by
              intro stack
              simp only [dfsTurnPruned, searchTurnPruned, hnode, E.toVec_fromVec, hfound, hls, descendPruned, if_neg hl, ha,
                List.drop_zero, hrun]
              simp [Except.map]
            have hchild := hbelow l a c ha hc
            cases hprobe : below.probe (matches_ pattern matcher) pattern l with
            | some n =>
              rw [hprobe] at hchild
              exact fun found hfound stack => .next (hdown stack) (hchild found hfound _)
            | none =>
              rw [hprobe] at hchild
              -- the children after the one that was searched begin with other elements
              have hafter := hnone (i + 1) fun c' hmem heq => by
                rw [hc] at heq
                obtain rfl := Option.some.inj heq
                exact absurd hmem (notMem_drop hchildren hat)
              refine Explores.of_ends (fun stack found hends => ?_) hnext
              exact .next (hdown stack) (hchild _ _ (skip_continuation hnode hls (i + 1) hafter stack found hends))

/-- A node is explored as `visit` says. -/
theorem visit_explores (S : B.Serial Open) (hopen : Open s b n) (h : Holds E (B.view s) (.tree id piece value below))
    (hwf : below.Wf) (hnodup : (Forest.tree id piece value below).names.Nodup) (hprune : PrunesMisses prune pattern matcher below)
    (hbelow : ∀ l a c, pattern[l]? = some a → below.top? a = some c →
      Explores B E s prune pattern matcher ⟨c, l, 0, 0⟩ (below.probe (matches_ pattern matcher) pattern l)) :
    Explores B E s prune pattern matcher ⟨id, k, 0, 0⟩
      (Forest.visit (matches_ pattern matcher) pattern id piece value below k) := by
  have hnode := Backend.view_nodes.mp h.1
  unfold Forest.visit
  split_ifs with hfound
  · intro found hends stack
    have hfound' : (matcher piece pattern k).found = true := hfound
    have hturn : dfsTurnPruned B E s prune pattern matcher (.search (⟨id, k, 0, 0⟩ :: stack), []) =
        .ok (.inl (.collect id [(id, 0)], [])) := by
      simp only [dfsTurnPruned, searchTurnPruned, hnode, E.toVec_fromVec, hfound', if_true]
      rfl
    exact .next hturn hends
  · refine continuations_explore S hopen h hwf ?_ hprune (by simpa [matches_] using hfound) hbelow rfl
    exact (List.nodup_append.mp (List.nodup_cons.mp hnodup).2).1

/-- Every tree is explored as `probe` says. -/
theorem probe_explores (S : B.Serial Open) (hopen : Open s b n) (h : Holds E (B.view s) f) (hwf : f.Wf) (hnodup : f.names.Nodup)
    (hprune : ∀ n ∈ f.nodes, PrunesMisses prune pattern matcher n.2.2.2) {l : Nat} {a : T} {c : Nat} (ha : pattern[l]? = some a)
    (hc : f.top? a = some c) :
    Explores B E s prune pattern matcher ⟨c, l, 0, 0⟩ (f.probe (matches_ pattern matcher) pattern l) := by
  induction f generalizing l a c with
  | nil => cases hc
  | node id piece value below beside ihbelow ihbeside =>
    obtain ⟨hnode, hvalue, hchildren, hbelow, hbeside⟩ := h
    obtain ⟨-, -, hwfbelow, hwfbeside⟩ := hwf
    obtain ⟨hid, hnodup⟩ := List.nodup_cons.mp hnodup
    obtain ⟨hnodupbelow, hnodupbeside, -⟩ := List.nodup_append.mp hnodup
    unfold Forest.top? at hc
    rw [Forest.probe_node, ha]
    split_ifs at hc ⊢ with hhead
    · obtain rfl := Option.some.inj hc
      have hprunebelow : ∀ n ∈ below.nodes, PrunesMisses prune pattern matcher n.2.2.2 := fun n hn =>
        hprune n (List.mem_cons_of_mem _ (List.mem_append_left _ hn))
      refine visit_explores S hopen ⟨hnode, hvalue, hchildren, hbelow, trivial⟩ hwfbelow ?_ (hprune _ List.mem_cons_self)
        fun l a c ha hc => ihbelow hbelow hwfbelow hnodupbelow hprunebelow ha hc
      refine List.nodup_cons.mpr ⟨fun hmem => hid ?_, ?_⟩
      · exact List.mem_append_left _ (by simpa [Forest.names] using hmem)
      · simpa [Forest.names] using hnodupbelow
    · exact ihbeside hbeside hwfbeside hnodupbeside
        (fun n hn => hprune n (List.mem_cons_of_mem _ (List.mem_append_right _ hn))) ha hc

/-- A search from a node ends: with nothing, or with the records of the node that is found. What is pruned changes nothing where
nothing is found below it. -/
theorem visit_ends_pruned (pattern : List T) (matcher : SearchMatcher T) (S : B.Serial Open) (hopen : Open s b n)
    (h : Holds E (B.view s) (.tree id piece value below)) (hwf : below.Wf)
    (hnodup : (Forest.tree id piece value below).names.Nodup) : ∃ found,
      (∀ prune, (∀ n ∈ (Forest.tree id piece value below).nodes, PrunesMisses prune pattern matcher n.2.2.2) →
        Resumable.Ends (dfsTurnPruned B E s prune pattern matcher) (.search [⟨id, 0, 0, 0⟩], []) found) ∧
      match Forest.visit (matches_ pattern matcher) pattern id piece value below 0 with
      | none => found = []
      | some (id, piece, value, below) => found.Perm (Forest.tree id piece value below).gathered := by
  have hbelow : Holds E (B.view s) below := h.2.2.2.1
  have hnodupbelow : below.names.Nodup := (List.nodup_append.mp (List.nodup_cons.mp hnodup).2).1
  have hexplore : ∀ prune, (∀ n ∈ (Forest.tree id piece value below).nodes, PrunesMisses prune pattern matcher n.2.2.2) →
      Explores B E s prune pattern matcher ⟨id, 0, 0, 0⟩
        (Forest.visit (matches_ pattern matcher) pattern id piece value below 0) := by
    intro prune hprune
    refine visit_explores S hopen h hwf hnodup (hprune _ List.mem_cons_self) fun l a c ha hc =>
      probe_explores S hopen hbelow hwf hnodupbelow (fun n hn => hprune n ?_) ha hc
    exact List.mem_cons_of_mem _ (List.mem_append_left _ hn)
  cases hvisit : Forest.visit (matches_ pattern matcher) pattern id piece value below 0 with
  | none =>
    rw [hvisit] at hexplore
    exact ⟨[], fun prune hprune => hexplore prune hprune [] [] (.last rfl), rfl⟩
  | some found =>
    rw [hvisit] at hexplore
    obtain ⟨id', piece', value', below'⟩ := found
    obtain ⟨hn, -⟩ := Forest.visit_mem hvisit
    obtain ⟨found, hperm, hrun⟩ := collected pattern matcher S hopen (Holds.of_mem h hn) (Forest.nodup_names_of_mem hnodup hn)
      (c := id') List.mem_cons_self
    have hnamed : (Forest.tree id' piece' value' below').named id' = .tree id' piece' value' below' := if_pos rfl
    rw [hnamed] at hperm
    exact ⟨found, fun prune hprune => hexplore prune hprune found (hrun _ _ _ _ _ (.last rfl)) [], hperm⟩

/-- A search from a node ends: with nothing, or with the records of the node that is found. -/
theorem visit_ends (pattern : List T) (matcher : SearchMatcher T) (S : B.Serial Open) (hopen : Open s b n)
    (h : Holds E (B.view s) (.tree id piece value below)) (hwf : below.Wf)
    (hnodup : (Forest.tree id piece value below).names.Nodup) : ∃ found,
      Resumable.Ends (dfsTurn B E s pattern matcher) (.search [⟨id, 0, 0, 0⟩], []) found ∧
        match Forest.visit (matches_ pattern matcher) pattern id piece value below 0 with
        | none => found = []
        | some (id, piece, value, below) => found.Perm (Forest.tree id piece value below).gathered := by
  obtain ⟨found, hends, hfound⟩ := visit_ends_pruned pattern matcher S hopen h hwf hnodup
  refine ⟨found, ?_, hfound⟩
  rw [← dfsTurnPruned_never]
  exact hends _ fun n _ l a c _ _ hpruned => absurd hpruned Bool.false_ne_true

end

end Radix

end Opsense
