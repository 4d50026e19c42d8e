import Opsense.Radix.Radix
import Opsense.Storage.Serial

/-!
# Insertion into the radix tree

The nodes below a root are a radix forest (`Holds`), and `insert_from` makes of it what `Forest.insert` makes, whether it divides
a node, extends one, fills one or finds the key (`insertFrom_tree`). Nothing else in the storage changes.
-/

namespace Opsense

variable {T : Type} {E : Element T} {v w : View} {b : Nat}

/-- The forest is kept under its names. A node without a value has the record `EMPTY`. -/
def Holds (E : Element T) (v : View) : Forest Nat T Nat → Prop
  | .nil => True
  | .node id piece value below beside =>
    v.nodes id = some (E.fromVec piece, value.getD EMPTY) ∧ value ≠ some EMPTY ∧ v.children id = below.tops.toFinset ∧
      Holds E v below ∧ Holds E v beside

/-- Nothing changes but under the given names and from `b` on. -/
structure View.Off (v w : View) (names : List Nat) (b : Nat) : Prop where
  nodes : ∀ id node, id ∉ names → id < b → v.nodes id = some node → w.nodes id = some node
  children : ∀ id, id ∉ names → id < b → w.children id = v.children id

theorem View.Off.mono {names names' : List Nat} (h : v.Off w names b) (hsub : ∀ id ∈ names, id ∈ names') : v.Off w names' b :=
  ⟨fun id node hid => h.nodes id node fun hmem => hid (hsub id hmem), fun id hid => h.children id fun hmem => hid (hsub id hmem)⟩

/-- A forest under other names stays. -/
theorem Holds.off {names : List Nat} {f : Forest Nat T Nat} (h : Holds E v f) (hoff : v.Off w names b)
    (hnames : ∀ id ∈ f.names, id ∉ names ∧ id < b) : Holds E w f := by
  induction f with
  | nil => trivial
  | node id piece value below beside ihbelow ihbeside =>
    obtain ⟨hnode, hvalue, hchildren, hbelow, hbeside⟩ := h
    have hid := hnames id List.mem_cons_self
    refine ⟨hoff.nodes id _ hid.1 hid.2 hnode, hvalue, (hoff.children id hid.1 hid.2).trans hchildren,
      ihbelow hbelow fun i hi => ?_, ihbeside hbeside fun i hi => ?_⟩
    · exact hnames i (List.mem_cons_of_mem _ (List.mem_append_left _ hi))
    · exact hnames i (List.mem_cons_of_mem _ (List.mem_append_right _ hi))

/-- Every name has a node. -/
theorem Holds.isSome {f : Forest Nat T Nat} (h : Holds E v f) {id : Nat} (hid : id ∈ f.names) : (v.nodes id).isSome := by
  induction f with
  | nil => exact absurd hid List.not_mem_nil
  | node i piece value below beside ihbelow ihbeside =>
    obtain ⟨hnode, -, -, hbelow, hbeside⟩ := h
    rcases List.mem_cons.mp hid with rfl | hid
    · rw [hnode]
      rfl
    · rcases List.mem_append.mp hid with hid | hid
      · exact ihbelow hbelow hid
      · exact ihbeside hbeside hid

namespace View

@[simp] theorem putAll_children (v : View) (nodes : List (Nat × Bytes × Nat)) : (v.putAll nodes).children = v.children := by
  unfold putAll
  induction nodes generalizing v with
  | nil => rfl
  | cons node nodes ih => exact ih (v.put node.1 node.2)

@[simp] theorem putAll_roots (v : View) (nodes : List (Nat × Bytes × Nat)) : (v.putAll nodes).roots = v.roots := by
  unfold putAll
  induction nodes generalizing v with
  | nil => rfl
  | cons node nodes ih => exact ih (v.put node.1 node.2)

/-- Children are moved from one node to another. -/
theorem moves (v : View) {from_ to_ : Nat} (h : from_ ≠ to_) (cs : List Nat) :
    (cs.map (CategoryTxOp.moveChild from_ to_)).foldl apply v = { v with
      children := Function.update (Function.update v.children to_ (v.children to_ ∪ cs.toFinset)) from_
        (v.children from_ \ cs.toFinset) } := by
  induction cs generalizing v with
  | nil => simp
  | cons c cs ih =>
    rw [List.map_cons, List.foldl_cons, ih]
    simp only [apply, addChild, dropChild]
    congr 1
    funext i
    by_cases hfrom : i = from_
    · subst hfrom
      simp only [Function.update_self, Function.update_of_ne h]
      ext a
      simp
      tauto
    · by_cases hto : i = to_
      · subst hto
        simp only [Function.update_self, Function.update_of_ne hfrom]
        ext a
        simp
      · simp only [Function.update_of_ne hfrom, Function.update_of_ne hto]

end View

/-- The changes of a split: the leg takes the children, and comes below the parent with the new node, if there is one. -/
theorem Radix.splitOps_view (v : View) {parent leg : Nat} (h : parent ≠ leg) {cs : List Nat}
    (hcs : cs.toFinset = v.children parent) (hleg : v.children leg = ∅) (new value : Nat) (root suffix : List T) :
    (Radix.splitOps E parent leg new value cs root suffix).foldl View.apply v =
      ⟨Function.update v.nodes parent ((v.nodes parent).map
          (updated (some (E.fromVec root)) (some (if suffix = [] then value else EMPTY)))),
        Function.update (Function.update v.children leg (v.children parent)) parent (if suffix = [] then {leg} else {leg, new}),
        v.roots⟩ := by
  unfold Radix.splitOps
  rw [List.foldl_append, List.foldl_append, List.foldl_append, View.moves v h cs, hcs, hleg]
  split_ifs with hsuffix
  · simp only [List.foldl_cons, List.foldl_nil, View.apply, View.addChild]
    simp
  · simp only [List.foldl_cons, List.foldl_nil, View.apply, View.addChild]
    simp [Finset.pair_comm]

namespace Radix

variable {σ : Type} {B : Backend σ} {R : Radix T}

/-! ## The calls on the storage -/

section

variable {ε α β : Type} {s t : Index σ}

theorem bind_ok {x : IndexM σ ε α} {a : α} (h : x s = .ok a t) (f : α → IndexM σ ε β) : (x >>= f) s = f a t := by
  simp [bind, EStateM.bind, h]

theorem bind_error {x : IndexM σ ε α} {e : ε} (h : x s = .error e t) (f : α → IndexM σ ε β) : (x >>= f) s = .error e t := by
  simp [bind, EStateM.bind, h]

theorem ask_ok {f : σ → Except StorageError α} {a : α} (h : f s.store = .ok a) : Index.ask f s = .ok a s := by
  simp [Index.ask, h]

theorem run_ok {f : σ → σ × Except StorageError α} {a : α} {store : σ} (h : f s.store = (store, .ok a)) :
    Index.run f s = .ok a { s with store } := by
  simp [Index.run, h]

end

variable {Open : σ → Nat → Nat → Prop} {s : Index σ}

/-- `on_split` refuses a split. -/
def Refuses (R : Radix T) (e : RadixError) : Prop :=
  ∃ cb ∈ R.on_split, ∃ parent leg_id old_prefix breakpoint, cb parent leg_id old_prefix breakpoint = .error e

theorem fireSplit_eq (parent leg_id : Nat) ( old_prefix : List T) (breakpoint : Nat) :
    (∃ e, R.Refuses e ∧ R.fireSplit parent leg_id old_prefix breakpoint s = .error e s) ∨
      ∃ pending_split_elems, R.fireSplit parent leg_id old_prefix breakpoint s = .ok () { s with pending_split_elems } := by
  unfold fireSplit
  cases hcb : R.on_split with
  | none => exact Or.inr ⟨s.pending_split_elems, rfl⟩
  | some cb =>
    dsimp only
    cases hres : cb parent leg_id old_prefix breakpoint with
    | error e => exact Or.inl ⟨e, ⟨cb, hcb, _, _, _, _, hres⟩, rfl⟩
    | ok elems => exact Or.inr ⟨_, rfl⟩

theorem txNewNode_eq (S : B.Serial Open) (s : Index σ) (tx : CategoryTx) (h : Open s.store b tx.nodes.length) (pfx : Bytes) (record : Nat) :
    ∃ store, Index.txNewNode B tx pfx record s =
        .ok (tx.withNode (b + tx.nodes.length) pfx record, b + tx.nodes.length) { s with store } ∧
      Open store b (tx.nodes.length + 1) ∧ B.view store = B.view s.store := by
  obtain ⟨htx, hopen, hview⟩ := S.txNewNode s.store b tx pfx record h
  refine ⟨_, ?_, hopen, hview⟩
  simp only [Index.txNewNode, htx]

/-- `extend` writes a node and makes it a child. -/
theorem extend_eq (S : B.Serial Open) (h : Open s.store b 0) {parent : Nat} (hparent : ((B.view s.store).nodes parent).isSome)
    (suffix : List T) (value : Nat) : ∃ store, extend B E parent suffix value s = .ok b { s with store } ∧ Open store (b + 1) 0 ∧
      (((B.view s.store).put b (E.fromVec suffix, value)).addChild parent b).Le (B.view store) := by
  obtain ⟨store, hnew, hopen, hview⟩ := txNewNode_eq S s .new h (E.fromVec suffix) value
  obtain ⟨store, hcommit, hopen', hle⟩ := S.commit _ b ⟨[(b, E.fromVec suffix, value)], [.addChild parent b]⟩ hopen rfl (by
    intro op hop id hid
    obtain rfl := List.mem_singleton.mp hop
    obtain rfl := List.mem_singleton.mp hid
    rw [hview]
    simp only [View.putAll, List.foldl_cons, List.foldl_nil, View.put]
    by_cases heq : id = b
    · simp [heq]
    · rw [Function.update_of_ne heq]
      exact hparent)
  refine ⟨store, ?_, hopen', ?_⟩
  · unfold extend
    rw [bind_ok hnew, bind_ok (run_ok hcommit)]
    rfl
  · rw [hview] at hle
    exact hle

/-- The new nodes of a split. Without a rest of the key, the parent stands for the new node. -/
structure Nodes (E : Element T) (b parent : Nat) (suffix : List T) (value : Nat) ( leg_prefix : List T) (old_record : Nat)
    (nodes : List (Nat × Bytes × Nat)) (new leg : Nat) : Prop where
  ids : nodes.map Prod.fst = List.range' b nodes.length
  leg_le : b ≤ leg
  leg_lt : leg < b + nodes.length
  leg_node : ∀ v : View, (v.putAll nodes).nodes leg = some (E.fromVec leg_prefix, old_record)
  new_eq : suffix = [] → new = parent
  new_le : suffix ≠ [] → b ≤ new ∧ new < b + nodes.length ∧ new ≠ leg
  new_node : suffix ≠ [] → ∀ v : View, (v.putAll nodes).nodes new = some (E.fromVec suffix, value)
  others : ∀ (v : View) id, id < b → (v.putAll nodes).nodes id = v.nodes id

theorem splitNodes_eq (S : B.Serial Open) (h : Open s.store b 0) (parent : Nat) (suffix : List T) (value : Nat)
    ( leg_prefix : List T) (old_record : Nat) : ∃ nodes new leg store,
      splitNodes B E parent suffix value leg_prefix old_record s = .ok (⟨nodes, []⟩, new, leg) { s with store } ∧
      Open store b nodes.length ∧ B.view store = B.view s.store ∧
      Nodes E b parent suffix value leg_prefix old_record nodes new leg := by
  unfold splitNodes
  by_cases hsuffix : suffix = []
  · obtain ⟨store, hleg, hopen, hview⟩ := txNewNode_eq S s .new h (E.fromVec leg_prefix) old_record
    refine ⟨[(b, E.fromVec leg_prefix, old_record)], parent, b, store, ?_, hopen, hview, ?_⟩
    · rw [if_pos hsuffix]
      exact (bind_ok (a := (CategoryTx.new, parent)) rfl _).trans (bind_ok hleg _)
    · refine ⟨rfl, le_refl b, Nat.lt_succ_self b, fun v => ?_, fun _ => rfl, fun hne => absurd hsuffix hne,
        fun hne => absurd hsuffix hne, fun v id hid => ?_⟩
      · simp [View.putAll, View.put]
      · simp [View.putAll, View.put, Nat.ne_of_lt hid]
  · obtain ⟨store, hnew, hopen, hview⟩ := txNewNode_eq S s .new h (E.fromVec suffix) value
    obtain ⟨store', hleg, hopen', hview'⟩ := txNewNode_eq S { s with store }
      ⟨[(b, E.fromVec suffix, value)], []⟩ hopen (E.fromVec leg_prefix) old_record
    refine ⟨[(b, E.fromVec suffix, value), (b + 1, E.fromVec leg_prefix, old_record)], b, b + 1, store', ?_, hopen',
      hview'.trans hview, ?_⟩
    · rw [if_neg hsuffix]
      exact (bind_ok hnew _).trans (bind_ok hleg _)
    · refine ⟨rfl, by omega, by simp, fun v => ?_, fun he => absurd he hsuffix, fun _ => ⟨le_refl b, by simp, by omega⟩,
        fun _ v => ?_, fun v id hid => ?_⟩
      · simp [View.putAll, View.put]
      · simp [View.putAll, View.put]
      · have hne : id ≠ b + 1 := by omega
        simp [View.putAll, View.put, Nat.ne_of_lt hid, hne]

/-- The changes of a split are on the parent and the leg. -/
theorem splitOps_ids {parent leg new value : Nat} {cs : List Nat} {root suffix : List T} {op : CategoryTxOp}
    (hop : op ∈ splitOps E parent leg new value cs root suffix) : ∀ id ∈ op.ids, id = parent ∨ id = leg := by
  intro id hid
  simp only [splitOps, List.mem_append, List.mem_map, List.mem_singleton] at hop
  rcases hop with ((⟨c, -, rfl⟩ | rfl) | hop) | rfl
  · simpa [CategoryTxOp.ids] using hid
  · exact Or.inl (by simpa [CategoryTxOp.ids] using hid)
  · split_ifs at hop
    · exact absurd hop List.not_mem_nil
    · obtain rfl := List.mem_singleton.mp hop
      exact Or.inl (by simpa [CategoryTxOp.ids] using hid)
  · exact Or.inl (by simpa [CategoryTxOp.ids] using hid)

/-- What is there after a split. -/
structure Divided (E : Element T) (v w : View) (b b' parent breakpoint : Nat) (piece suffix : List T) (value record new leg : Nat) :
    Prop where
  le : b ≤ b'
  leg_le : b ≤ leg
  new_le : suffix ≠ [] → b ≤ new ∧ new ≠ leg
  new_eq : suffix = [] → new = parent
  parent_node : w.nodes parent = some (E.fromVec (piece.take breakpoint), if suffix = [] then value else EMPTY)
  parent_children : w.children parent = if suffix = [] then {leg} else {leg, new}
  leg_node : w.nodes leg = some (E.fromVec (piece.drop breakpoint), record)
  leg_children : w.children leg = v.children parent
  new_node : suffix ≠ [] → w.nodes new = some (E.fromVec suffix, value)
  new_children : suffix ≠ [] → w.children new = ∅
  off : v.Off w [parent] b
  fresh : ∀ id, b' ≤ id → w.children id = ∅
  roots : w.roots = v.roots

theorem Nodes.divided {parent breakpoint value record new leg : Nat} {piece suffix : List T} {nodes : List (Nat × Bytes × Nat)}
    (hnodes : Nodes E b parent suffix value (piece.drop breakpoint) record nodes new leg)
    (hfresh : ∀ id, b ≤ id → v.children id = ∅) (hparent : v.nodes parent = some (E.fromVec piece, record)) (hlt : parent < b)
    {cs : List Nat} (hcs : cs.toFinset = v.children parent)
    (hle : (v.commit ⟨nodes, splitOps E parent leg new value cs (piece.take breakpoint) suffix⟩).Le w) :
    Divided E v w b (b + nodes.length) parent breakpoint piece suffix value record new leg := by
  have hleg : parent ≠ leg := Nat.ne_of_lt (lt_of_lt_of_le hlt hnodes.leg_le)
  have hcs' : cs.toFinset = (v.putAll nodes).children parent := by rw [View.putAll_children, hcs]
  have hnone : (v.putAll nodes).children leg = ∅ := by rw [View.putAll_children, hfresh leg hnodes.leg_le]
  have hview := Radix.splitOps_view (E := E) (v.putAll nodes) hleg hcs' hnone new value (piece.take breakpoint) suffix
  rw [View.putAll_children, View.putAll_roots, hnodes.others v parent hlt, hparent] at hview
  rw [View.commit, hview] at hle
  have hchildren : ∀ id, w.children id = Function.update (Function.update v.children leg (v.children parent)) parent
      (if suffix = [] then {leg} else {leg, new}) id := fun id => congrFun hle.children.symm id
  refine ⟨Nat.le_add_right _ _, hnodes.leg_le, fun hne => ⟨(hnodes.new_le hne).1, (hnodes.new_le hne).2.2⟩, hnodes.new_eq,
    hle.nodes _ _ ?_, ?_, hle.nodes _ _ ?_, ?_, fun hne => hle.nodes _ _ ?_, fun hne => ?_, ⟨fun id node hid hb hnode =>
    hle.nodes _ _ ?_, fun id hid hb => ?_⟩, fun id hid => ?_, hle.roots.symm⟩
  · simp [updated]
  · rw [hchildren, Function.update_self]
  · dsimp only
    rw [Function.update_of_ne (Ne.symm hleg), hnodes.leg_node]
  · rw [hchildren, Function.update_of_ne (Ne.symm hleg), Function.update_self]
  · have hnew := (hnodes.new_le hne).1
    dsimp only
    rw [Function.update_of_ne (by omega), hnodes.new_node hne]
  · have hnew := hnodes.new_le hne
    rw [hchildren, Function.update_of_ne (by omega), Function.update_of_ne hnew.2.2]
    exact hfresh new hnew.1
  · rw [List.mem_singleton] at hid
    dsimp only
    rw [Function.update_of_ne hid, hnodes.others v id hb]
    exact hnode
  · rw [List.mem_singleton] at hid
    have hleg' := hnodes.leg_le
    rw [hchildren, Function.update_of_ne hid, Function.update_of_ne (by omega)]
  · have hleg' := hnodes.leg_lt
    rw [hchildren, Function.update_of_ne (by omega), Function.update_of_ne (by omega)]
    exact hfresh id (by omega)

/-- `split` divides a node, unless `on_split` refuses. -/
theorem split_eq (S : B.Serial Open) (h : Open s.store b 0) (hfresh : ∀ id, b ≤ id → (B.view s.store).children id = ∅)
    {parent record : Nat} {piece : List T} (hparent : (B.view s.store).nodes parent = some (E.fromVec piece, record))
    (hlt : parent < b) (breakpoint : Nat) (suffix : List T) (value : Nat) :
    (∃ e store b', R.Refuses e ∧ R.split B E parent breakpoint suffix value s = .error e { s with store } ∧
      b ≤ b' ∧ Open store b' 0 ∧ B.view store = B.view s.store) ∨
    (∃ new leg store pending_split_elems b',
      R.split B E parent breakpoint suffix value s = .ok new { s with store, pending_split_elems } ∧
      (∃ store : σ, R.fireSplit parent leg piece breakpoint { s with store } = .ok () { s with store, pending_split_elems }) ∧
      Open store b' 0 ∧ Divided E (B.view s.store) (B.view store) b b' parent breakpoint piece suffix value record new leg) := by
  obtain ⟨nodes, new, leg, store, hsplit, hopen, hview, hnodes⟩ :=
    splitNodes_eq S h parent suffix value (piece.drop breakpoint) record
  have hold : Index.ask (fun s => B.getNode s parent) s = .ok (E.fromVec piece, record) s := ask_ok (Backend.view_nodes.mp hparent)
  have hchildren : Index.ask (fun s => .ok (B.getChildren s parent)) s = .ok (B.getChildren s.store parent) s := ask_ok rfl
  have hpush : ∀ ops : List CategoryTxOp, ops.foldl CategoryTx.push ⟨nodes, []⟩ = ⟨nodes, ops⟩ := by
    intro ops
    induction ops using List.reverseRecOn with
    | nil => rfl
    | append_singleton ops op ih =>
      rw [List.foldl_append, ih]
      rfl
  unfold split
  rw [bind_ok hold, bind_ok hchildren]
  dsimp only
  rw [E.toVec_fromVec, bind_ok hsplit]
  dsimp only
  rw [hpush]
  rcases fireSplit_eq (R := R) (s := { s with store }) parent leg piece breakpoint with ⟨e, hrefuse, hfire⟩ | ⟨pending, hfire⟩
  · obtain ⟨b', hb, hopen'⟩ := S.drop _ _ _ hopen
    exact Or.inl ⟨e, store, b', hrefuse, bind_error hfire _, hb, hopen', hview⟩
  · right
    have hcs : (B.getChildren s.store parent).toFinset = (B.view s.store).children parent := rfl
    obtain ⟨store', hcommit, hopen', hle⟩ := S.commit store b
      ⟨nodes, splitOps E parent leg new value (B.getChildren s.store parent) (piece.take breakpoint) suffix⟩ hopen hnodes.ids (by
      intro op hop id hid
      rw [hview]
      rcases splitOps_ids hop id hid with rfl | rfl
      · rw [hnodes.others _ _ hlt, hparent]
        rfl
      · rw [hnodes.leg_node]
        rfl)
    rw [hview] at hle
    refine ⟨new, leg, store', pending, b + nodes.length, ?_, ⟨store, hfire⟩, hopen', hnodes.divided hfresh hparent hlt hcs hle⟩
    rw [bind_ok hfire, bind_ok (run_ok hcommit)]
    rfl

end Radix

/-! ## Planted forests -/

variable {σ : Type} {B : Backend σ} {R : Radix T} {Open : σ → Nat → Nat → Prop} {s : Index σ}

/-- A forest is kept under names of its own. -/
structure Planted (E : Element T) (v : View) (b : Nat) (f : Forest Nat T Nat) : Prop where
  holds : Holds E v f
  nodup : f.names.Nodup
  pos : ∀ id ∈ f.names, id ≠ EMPTY
  bound : ∀ id ∈ f.names, id < b

namespace Planted

variable {id : Nat} {piece : List T} {value : Option Nat} {below beside : Forest Nat T Nat}

theorem forest_below (h : Planted E v b (.node id piece value below beside)) : Planted E v b below :=
  ⟨h.holds.2.2.2.1, (List.nodup_append.mp (List.nodup_cons.mp h.nodup).2).1,
    fun i hi => h.pos i (List.mem_cons_of_mem _ (List.mem_append_left _ hi)),
    fun i hi => h.bound i (List.mem_cons_of_mem _ (List.mem_append_left _ hi))⟩

theorem forest_beside (h : Planted E v b (.node id piece value below beside)) : Planted E v b beside :=
  ⟨h.holds.2.2.2.2, (List.nodup_append.mp (List.nodup_cons.mp h.nodup).2).2.1,
    fun i hi => h.pos i (List.mem_cons_of_mem _ (List.mem_append_right _ hi)),
    fun i hi => h.bound i (List.mem_cons_of_mem _ (List.mem_append_right _ hi))⟩

theorem mem_tree {i : Nat} (h : i ∈ (Forest.tree id piece value below).names) :
    i ∈ (Forest.node id piece value below beside).names := by
  simp only [Forest.tree, Forest.names, List.append_nil, List.mem_cons, List.mem_append] at h ⊢
  tauto

theorem tree (h : Planted E v b (.node id piece value below beside)) : Planted E v b (.tree id piece value below) := by
  refine ⟨⟨h.holds.1, h.holds.2.1, h.holds.2.2.1, h.holds.2.2.2.1, trivial⟩, ?_, fun i hi => h.pos i (mem_tree hi),
    fun i hi => h.bound i (mem_tree hi)⟩
  refine h.nodup.sublist (List.Sublist.cons_cons _ ?_)
  exact List.Sublist.append_left (List.nil_sublist _) _

end Planted

/-- A forest has grown, by nodes of the two names at most, and nothing else changed. -/
structure Grown (E : Element T) (v w : View) (b b' leg new : Nat) (f f' : Forest Nat T Nat) : Prop where
  holds : Holds E w f'
  off : v.Off w f.names b
  leg_le : b ≤ leg
  new_le : b ≤ new
  ne : leg ≠ new
  fresh : ∀ id, b' ≤ id → w.children id = ∅
  roots : w.roots = v.roots

/-- What an insertion answers and leaves. -/
inductive Inserted (B : Backend σ) (E : Element T) (R : Radix T) (Open : σ → Nat → Nat → Prop) (s : Index σ) (b : Nat)
    (there : Prop) (f : Forest Nat T Nat) (grow : Nat → Nat → Forest Nat T Nat) :
    EStateM.Result RadixError (Index σ) (Nat × Nat) → Prop
  | duplicate (tail : Nat) (h : there) : Inserted B E R Open s b there f grow (.ok (EMPTY, tail) s)
  | refused (e : RadixError) (store : σ) (b' : Nat) (h : ¬there) (he : R.Refuses e) (hb : b ≤ b') (hopen : Open store b' 0)
      (hview : B.view store = B.view s.store) : Inserted B E R Open s b there f grow (.error e { s with store })
  | grown (id tail : Nat) (store : σ) (pending_split_elems : List (Nat × Bytes)) (b' leg new : Nat) (h : ¬there)
      (hid : id ≠ EMPTY) (hb : b ≤ b') (hopen : Open store b' 0)
      (hgrown : Grown E (B.view s.store) (B.view store) b b' leg new f (grow leg new)) :
      Inserted B E R Open s b there f grow (.ok (id, tail) { s with store, pending_split_elems })

/-- An insertion into a part of a forest is one into the forest. -/
theorem Inserted.lift {there there' : Prop} {f f' : Forest Nat T Nat} {grow grow' : Nat → Nat → Forest Nat T Nat}
    {r : EStateM.Result RadixError (Index σ) (Nat × Nat)} (h : Inserted B E R Open s b there f grow r) (hiff : there ↔ there')
    (hlift : ∀ w b' leg new, Grown E (B.view s.store) w b b' leg new f (grow leg new) →
      Grown E (B.view s.store) w b b' leg new f' (grow' leg new)) : Inserted B E R Open s b there' f' grow' r := by
  cases h with
  | duplicate tail h => exact .duplicate tail (hiff.mp h)
  | refused e store b' h he hb hopen hview => exact .refused e store b' (fun h' => h (hiff.mpr h')) he hb hopen hview
  | grown id tail store pending b' leg new h hid hb hopen hgrown =>
    exact .grown id tail store pending b' leg new (fun h' => h (hiff.mpr h')) hid hb hopen (hlift _ _ _ _ hgrown)

namespace Grown

variable {b' leg new : Nat} {id x : Nat} {key piece : List T} {value : Option Nat} {below beside deeper : Forest Nat T Nat}

theorem holds_graft [DecidableEq T] : Holds E w (.graft leg new x key id piece value below deeper beside) ↔
    Holds E w (.graft leg new x key id piece value below deeper .nil) ∧ Holds E w beside := by
  unfold Forest.graft
  dsimp only
  split_ifs <;> simp only [Holds] <;> tauto

/-- The first of the trees takes the key. -/
theorem of_tree [DecidableEq T] (hk : Planted E v b (.node id piece value below beside))
    (h : Grown E v w b b' leg new (.tree id piece value below) (.graft leg new x key id piece value below deeper .nil)) :
    Grown E v w b b' leg new (.node id piece value below beside) (.graft leg new x key id piece value below deeper beside) := by
  refine ⟨holds_graft.mpr ⟨h.holds, hk.forest_beside.holds.off h.off fun i hi => ⟨fun hmem => ?_, hk.forest_beside.bound i hi⟩⟩,
    h.off.mono fun i hi => Planted.mem_tree hi, h.leg_le, h.new_le, h.ne, h.fresh, h.roots⟩
  have hnodup := hk.nodup
  simp only [Forest.names, List.nodup_cons, List.mem_append, not_or, List.nodup_append] at hnodup
  simp only [Forest.tree, Forest.names, List.append_nil, List.mem_cons] at hmem
  rcases hmem with rfl | hmem
  · exact hnodup.1.2 hi
  · exact hnodup.2.2.2 i hmem i hi rfl

/-- Another tree takes the key. -/
theorem of_beside {beside' : Forest Nat T Nat} (hk : Planted E v b (.node id piece value below beside))
    (h : Grown E v w b b' leg new beside beside') :
    Grown E v w b b' leg new (.node id piece value below beside) (.node id piece value below beside') := by
  have hnodup := hk.nodup
  simp only [Forest.names, List.nodup_cons, List.mem_append, not_or, List.nodup_append] at hnodup
  have hbelow : Holds E w below := hk.forest_below.holds.off h.off fun i hi =>
    ⟨fun hmem => hnodup.2.2.2 i hi i hmem rfl, hk.forest_below.bound i hi⟩
  obtain ⟨hnode, hvalue, hchildren, -, -⟩ := hk.holds
  have hid := hk.bound id List.mem_cons_self
  exact ⟨⟨h.off.nodes id _ hnodup.1.2 hid hnode, hvalue, (h.off.children id hnodup.1.2 hid).trans hchildren, hbelow, h.holds⟩,
    h.off.mono fun i hi => List.mem_cons_of_mem _ (List.mem_append_right _ hi), h.leg_le, h.new_le, h.ne, h.fresh, h.roots⟩

/-- The key goes below a node that keeps its children. -/
theorem of_below {below' : Forest Nat T Nat} (hk : Planted E v b (.tree id piece value below))
    (htops : below'.tops = below.tops) (h : Grown E v w b b' leg new below below') :
    Grown E v w b b' leg new (.tree id piece value below) (.tree id piece value below') := by
  have hnot : id ∉ below.names := fun hmem => (List.nodup_cons.mp hk.nodup).1 (List.mem_append_left _ hmem)
  obtain ⟨hnode, hvalue, hchildren, -, -⟩ := hk.holds
  have hid := hk.bound id List.mem_cons_self
  exact ⟨⟨h.off.nodes id _ hnot hid hnode, hvalue, htops ▸ (h.off.children id hnot hid).trans hchildren, h.holds, trivial⟩,
    h.off.mono fun i hi => List.mem_cons_of_mem _ (List.mem_append_left _ hi), h.leg_le, h.new_le, h.ne, h.fresh, h.roots⟩

end Grown

/-! ## Insertion -/

variable [DecidableEq T]

/-- What the trees of a forest begin with. -/
theorem Holds.top {f : Forest Nat T Nat} (h : Holds E v f) (hwf : f.Wf) (hnodup : f.names.Nodup) (a : T) {c : Nat}
    (hc : c ∈ f.tops) :
    ∃ piece record, v.nodes c = some (E.fromVec piece, record) ∧ (piece.head? = some a ↔ f.top? a = some c) := by
  induction f with
  | nil => exact absurd hc List.not_mem_nil
  | node id piece value below beside _ ihbeside =>
    obtain ⟨hnode, -, -, -, hbeside⟩ := h
    obtain ⟨-, hheads, -, hwfbeside⟩ := hwf
    obtain ⟨hid, hnodup⟩ := List.nodup_cons.mp hnodup
    have hnodup := (List.nodup_append.mp hnodup).2.1
    have hnot : id ∉ beside.tops := fun hmem =>
      hid (List.mem_append_right _ (beside.tops_sublist.subset hmem))
    unfold Forest.top?
    rcases List.mem_cons.mp hc with rfl | hc
    · refine ⟨piece, _, hnode, fun heq => if_pos heq, fun heq => ?_⟩
      split_ifs at heq with hhead
      · exact hhead
      · exact absurd (Forest.top?_mem heq).1 hnot
    · obtain ⟨piece', record, hnode', hiff⟩ := ihbeside hbeside hwfbeside hnodup hc
      refine ⟨piece', record, hnode', ?_⟩
      split_ifs with hhead
      · constructor
        · intro heq
          rw [hhead] at hheads
          exact absurd (Forest.top?_mem (hiff.mp heq)).2 hheads
        · intro heq
          obtain rfl := Option.some.inj heq
          exact absurd hc hnot
      · exact hiff

namespace Radix

/-- The loop over the children finds the tree of the element. -/
theorem findChild_eq {s : σ} {f : Forest Nat T Nat} (h : Holds E (B.view s) f) (hwf : f.Wf) (hnodup : f.names.Nodup) (a : T)
    (cs : List Nat) (hcs : ∀ c ∈ cs, c ∈ f.tops) (hall : ∀ c, f.top? a = some c → c ∈ cs) :
    findChild B E a s cs = .ok (f.top? a) := by
  induction cs with
  | nil =>
    cases htop : f.top? a with
    | none => rfl
    | some c => exact absurd (hall c htop) List.not_mem_nil
  | cons c cs ih =>
    obtain ⟨piece, record, hnode, hiff⟩ := h.top hwf hnodup a (hcs c List.mem_cons_self)
    simp only [findChild, Backend.view_nodes.mp hnode, Element.toVec_fromVec]
    split_ifs with hhead
    · rw [hiff.mp hhead]
    · refine ih (fun c' hc' => hcs c' (List.mem_cons_of_mem _ hc')) fun c' hc' => ?_
      rcases List.mem_cons.mp (hall c' hc') with rfl | hmem
      · exact absurd (hiff.mpr hc') hhead
      · exact hmem

/-- The loop over the children of a node finds the tree of the element below it. -/
theorem findChild_below {s : σ} {id : Nat} {piece : List T} {value : Option Nat} {below : Forest Nat T Nat}
    (hk : Planted E (B.view s) b (.tree id piece value below)) (hwf : below.Wf) (a : T) :
    findChild B E a s (B.getChildren s id) = .ok (below.top? a) := by
  have hmem : ∀ c, c ∈ B.getChildren s id ↔ c ∈ below.tops := by
    intro c
    rw [← List.mem_toFinset, ← List.mem_toFinset, ← hk.holds.2.2.1]
    rfl
  exact findChild_eq hk.forest_below.holds hwf hk.forest_below.nodup a _ (fun c => (hmem c).mp)
    fun c hc => (hmem c).mpr (Forest.top?_mem hc).1

variable {first : T} {rest k : List T} {x tail id : Nat} {piece : List T} {value : Option Nat}
  {below : Forest Nat T Nat}

/-- A key whose first element begins a tree goes into that tree. -/
theorem insertFrom_forest (first : T) (rest : List T) (x fuel tail : Nat)
    (htree : ∀ id piece value below, Planted E (B.view s.store) b (.tree id piece value below) → below.Wf →
      k.length + 1 ≤ fuel + common piece k →
      Inserted B E R Open s b (k ∈ (Forest.tree id piece value below).keys) (.tree id piece value below)
        (fun leg new => .graft leg new x k id piece value below (below.insert leg new x (k.drop (common piece k))) .nil)
        (R.insertFrom B E first rest x fuel id tail s))
    {f : Forest Nat T Nat} (hk : Planted E (B.view s.store) b f) (hwf : f.Wf) {a : T} (ha : k.head? = some a)
    (hfuel : k.length ≤ fuel) {c : Nat} (hc : f.top? a = some c) :
    Inserted B E R Open s b (k ∈ f.keys) f (fun leg new => f.insert leg new x k)
      (R.insertFrom B E first rest x fuel c tail s) := by
  induction f with
  | nil => cases hc
  | node id piece value below beside _ ihbeside =>
    unfold Forest.top? at hc
    have hkeys : k ∈ (Forest.node id piece value below beside).keys ↔
        if piece.head? = k.head? then k ∈ (Forest.tree id piece value below).keys else k ∈ beside.keys := Forest.mem_keys_head hwf
    split_ifs at hc with hhead
    · obtain rfl := Option.some.inj hc
      rw [ha, if_pos hhead] at hkeys
      have hpos := Forest.common_pos hwf.1 (hhead.trans ha.symm)
      refine (htree id piece value below hk.tree hwf.2.2.1 (by omega)).lift hkeys.symm fun w b' leg new h => ?_
      simp only [Forest.insert, hhead, ha, if_true]
      exact Grown.of_tree hk h
    · rw [ha, if_neg hhead] at hkeys
      refine (ihbeside hk.forest_beside hwf.2.2.2 hc).lift hkeys.symm fun w b' leg new h => ?_
      simp only [Forest.insert, ha, if_neg hhead]
      exact Grown.of_beside hk h

omit [DecidableEq T] in
theorem ask_tree (hk : Planted E (B.view s.store) b (.tree id piece value below)) :
    Index.ask (fun s => B.getNode s id) s = .ok (E.fromVec piece, value.getD EMPTY) s :=
  ask_ok (Backend.view_nodes.mp hk.holds.1)

omit [DecidableEq T] in
/-- What is below a node stays when only the node changes. -/
theorem holds_below (hk : Planted E v b (.tree id piece value below)) (hoff : v.Off w [id] b) : Holds E w below := by
  refine hk.forest_below.holds.off hoff fun i hi => ⟨fun hmem => ?_, hk.forest_below.bound i hi⟩
  rw [List.mem_singleton.mp hmem] at hi
  exact (List.nodup_cons.mp hk.nodup).1 (List.mem_append_left _ hi)

omit [DecidableEq T] in
theorem off_tree (hoff : v.Off w [id] b) : v.Off w (Forest.tree id piece value below).names b := by
  refine hoff.mono fun i hi => ?_
  rw [List.mem_singleton.mp hi]
  exact List.mem_cons_self

/-- A node that the key leaves is divided. -/
theorem inserted_split (S : B.Serial Open) (h : Open s.store b 0) (hfresh : ∀ id, b ≤ id → (B.view s.store).children id = ∅)
    (hk : Planted E (B.view s.store) b (.tree id piece value below)) (hx : x ≠ EMPTY) (hc : common piece k < piece.length)
    (deeper : Nat → Nat → Forest Nat T Nat) :
    Inserted B E R Open s b (k ∈ (Forest.tree id piece value below).keys) (.tree id piece value below)
      (fun leg new => .graft leg new x k id piece value below (deeper leg new) .nil)
      ((R.split B E id (common piece k) (k.drop (common piece k)) x >>= fun id => pure (id, tail)) s) := by
  have hnot : k ∉ (Forest.tree id piece value below).keys := Forest.not_mem_keys_of_lt hc
  have hone := S.pos _ _ _ h
  obtain ⟨hnode, hvalue, hchildren, -, -⟩ := hk.holds
  rcases split_eq (R := R) S h hfresh hnode (hk.bound id List.mem_cons_self) (common piece k) (k.drop (common piece k)) x with
    ⟨e, store, b', hrefuse, hsplit, hb, hopen, hview⟩ | ⟨new, leg, store, pending, b', hsplit, -, hopen, hd⟩
  · rw [bind_error hsplit]
    exact .refused e store b' hnot hrefuse hb hopen hview
  · rw [bind_ok hsplit]
    have hbelow := holds_below hk hd.off
    have hle := hd.leg_le
    by_cases hrest : k.drop (common piece k) = []
    · have hgraft : Forest.graft leg (leg + 1) x k id piece value below (deeper leg (leg + 1)) .nil =
          .tree id (piece.take (common piece k)) (some x) (.tree leg (piece.drop (common piece k)) value below) := by
        simp only [Forest.graft, if_pos hc, if_pos hrest, Forest.tree]
      have hparent := hd.parent_node
      have htops := hd.parent_children
      rw [if_pos hrest] at hparent htops
      refine .grown new tail store pending b' leg (leg + 1) hnot ?_ hd.le hopen
        ⟨?_, off_tree hd.off, hle, by omega, by omega, hd.fresh, hd.roots⟩
      · rw [hd.new_eq hrest]
        exact hk.pos id List.mem_cons_self
      · rw [hgraft]
        refine ⟨hparent, by simpa using hx, by simpa [Forest.tree, Forest.tops] using htops, ?_, trivial⟩
        exact ⟨hd.leg_node, hvalue, hd.leg_children.trans hchildren, hbelow, trivial⟩
    · have hgraft : Forest.graft leg new x k id piece value below (deeper leg new) .nil =
          .tree id (piece.take (common piece k)) none (.node leg (piece.drop (common piece k)) value below
            (.tree new (k.drop (common piece k)) (some x) .nil)) := by
        simp only [Forest.graft, if_pos hc, if_neg hrest, Forest.tree]
      obtain ⟨hnew, hne⟩ := hd.new_le hrest
      have hparent := hd.parent_node
      have htops := hd.parent_children
      rw [if_neg hrest] at hparent htops
      refine .grown new tail store pending b' leg new hnot (Nat.ne_of_gt (lt_of_lt_of_le hone hnew)) hd.le hopen
        ⟨?_, off_tree hd.off, hle, hnew, Ne.symm hne, hd.fresh, hd.roots⟩
      rw [hgraft]
      refine ⟨hparent, by simp, by simpa [Forest.tree, Forest.tops] using htops, ?_, trivial⟩
      refine ⟨hd.leg_node, hvalue, hd.leg_children.trans hchildren, hbelow, ?_⟩
      exact ⟨hd.new_node hrest, by simpa using hx, by simpa [Forest.tops] using hd.new_children hrest, trivial, trivial⟩

/-- A key that begins like none of the trees makes one of its own. -/
theorem Holds.insert_new {f : Forest Nat T Nat} {k : List T} {leg new x : Nat} (h : Holds E w f) (hheads : k.head? ∉ f.heads)
    (hx : x ≠ EMPTY) (hnode : w.nodes new = some (E.fromVec k, x)) (hchildren : w.children new = ∅) :
    Holds E w (f.insert leg new x k) := by
  induction f with
  | nil => exact ⟨hnode, by simpa using hx, by simpa [Forest.tops] using hchildren, trivial, trivial⟩
  | node id piece value below beside _ ihbeside =>
    obtain ⟨hnode', hvalue, hchildren', hbelow, hbeside⟩ := h
    simp only [Forest.heads, List.mem_cons, not_or] at hheads
    unfold Forest.insert
    rw [if_neg (Ne.symm hheads.1)]
    exact ⟨hnode', hvalue, hchildren', hbelow, ihbeside hbeside hheads.2⟩

/-- A key that begins like no child makes a new one. -/
theorem inserted_extend (S : B.Serial Open) (h : Open s.store b 0) (hfresh : ∀ id, b ≤ id → (B.view s.store).children id = ∅)
    (hk : Planted E (B.view s.store) b (.tree id piece value below)) (hwf : below.Wf) (hx : x ≠ EMPTY)
    (hc : ¬common piece k < piece.length) (hrest : k.drop (common piece k) ≠ [])
    (hheads : (k.drop (common piece k)).head? ∉ below.heads) :
    Inserted B E R Open s b (k ∈ (Forest.tree id piece value below).keys) (.tree id piece value below)
      (fun leg new => .graft leg new x k id piece value below (below.insert leg new x (k.drop (common piece k))) .nil)
      ((extend B E id (k.drop (common piece k)) x >>= fun id => pure (id, tail)) s) := by
  have hnot : k ∉ (Forest.tree id piece value below).keys := by
    rw [Forest.mem_keys_drop hc hrest, Forest.mem_keys]
    rintro ⟨y, hy⟩
    exact hheads (Forest.head_mem hwf hy).1
  obtain ⟨hnode, hvalue, hchildren, -, -⟩ := hk.holds
  have hid := hk.bound id List.mem_cons_self
  obtain ⟨store, hextend, hopen, hle⟩ := extend_eq (E := E) S h (by rw [hnode]; rfl) (k.drop (common piece k)) x
  rw [bind_ok hextend]
  have hkids : ∀ i, (B.view store).children i =
      Function.update (B.view s.store).children id (Insert.insert b ((B.view s.store).children id)) i := fun i =>
    congrFun hle.children.symm i
  have hnodes : ∀ i n, i < b → (B.view s.store).nodes i = some n → (B.view store).nodes i = some n := by
    intro i n hi hn
    refine hle.nodes i n ?_
    simp only [View.addChild, View.put]
    rw [Function.update_of_ne (Nat.ne_of_lt hi)]
    exact hn
  have hoff : (B.view s.store).Off (B.view store) [id] b := by
    refine ⟨fun i n _ hi hn => hnodes i n hi hn, fun i hi _ => ?_⟩
    rw [hkids, Function.update_of_ne (by simpa using hi)]
  refine .grown b tail store s.pending_split_elems (b + 1) (b + 1) b hnot (Nat.ne_of_gt (S.pos _ _ _ h)) (Nat.le_succ b) hopen
    ⟨?_, off_tree hoff, Nat.le_succ b, le_refl b, Nat.succ_ne_self b, fun i hi => ?_, hle.roots.symm⟩
  · have hgraft : Forest.graft (b + 1) b x k id piece value below (below.insert (b + 1) b x (k.drop (common piece k))) .nil =
        .tree id piece value (below.insert (b + 1) b x (k.drop (common piece k))) := by
      simp only [Forest.graft, if_neg hc, if_neg hrest, Forest.tree]
    rw [hgraft]
    refine ⟨hnodes id _ hid hnode, hvalue, ?_, ?_, trivial⟩
    · rw [hkids, Function.update_self, hchildren, Forest.tops_insert_of_not_mem hheads]
      ext a
      simp
    · refine Holds.insert_new (holds_below hk hoff) hheads hx (hle.nodes b _ ?_) ?_
      · simp [View.addChild, View.put]
      · rw [hkids, Function.update_of_ne (Nat.ne_of_gt hid), hfresh b (le_refl b)]
  · rw [hkids, Function.update_of_ne (by omega), hfresh i (by omega)]

/-- A key that ends with the piece fills the node, or is there. -/
theorem inserted_whole (S : B.Serial Open) (h : Open s.store b 0) (hfresh : ∀ id, b ≤ id → (B.view s.store).children id = ∅)
    (hk : Planted E (B.view s.store) b (.tree id piece value below)) (hwf : below.Wf) (hx : x ≠ EMPTY)
    (hc : ¬common piece k < piece.length) (hrest : k.drop (common piece k) = []) (deeper : Nat → Nat → Forest Nat T Nat) :
    Inserted B E R Open s b (k ∈ (Forest.tree id piece value below).keys) (.tree id piece value below)
      (fun leg new => .graft leg new x k id piece value below (deeper leg new) .nil)
      ((if value.getD EMPTY = EMPTY then
          Index.run (fun s => B.updateNode s id none (some x)) >>= fun _ => pure (id, tail)
        else pure (EMPTY, tail) : IndexM σ RadixError (Nat × Nat)) s) := by
  have hpiece := Forest.eq_append_drop hc
  rw [hrest, List.append_nil] at hpiece
  subst hpiece
  have hkeys : k ∈ (Forest.tree id k value below).keys ↔ value.isSome := Forest.mem_keys_piece hwf
  obtain ⟨hnode, hvalue, hchildren, -, -⟩ := hk.holds
  cases value with
  | some y =>
    have hy : y ≠ EMPTY := fun heq => hvalue (congrArg some heq)
    rw [if_neg (by simpa using hy)]
    exact .duplicate tail (hkeys.mpr rfl)
  | none =>
    rw [if_pos (by rfl)]
    obtain ⟨store, hupdate, hopen, hle⟩ := S.updateNode _ b id none (some x) _ h hnode
    rw [bind_ok (run_ok hupdate)]
    have hkids : ∀ i, (B.view store).children i = (B.view s.store).children i := fun i => congrFun hle.children.symm i
    have hoff : (B.view s.store).Off (B.view store) [id] b := by
      refine ⟨fun i n hi _ hn => hle.nodes i n ?_, fun i _ _ => hkids i⟩
      simp only [View.put]
      rw [Function.update_of_ne (by simpa using hi)]
      exact hn
    refine .grown id tail store s.pending_split_elems b b (b + 1) (fun hmem => ?_) (hk.pos id List.mem_cons_self) (le_refl b)
      hopen ⟨?_, off_tree hoff, le_refl b, Nat.le_succ b, Nat.ne_of_lt (Nat.lt_succ_self b), fun i hi => ?_, hle.roots.symm⟩
    · simpa using hkeys.mp hmem
    · have hgraft : Forest.graft b (b + 1) x k id k none below (deeper b (b + 1)) .nil = .tree id k (some x) below := by
        simp only [Forest.graft, if_neg hc, if_pos hrest, Forest.tree]
        rfl
      rw [hgraft]
      refine ⟨hle.nodes id _ ?_, by simpa using hx, (hkids id).trans hchildren, holds_below hk hoff, trivial⟩
      simp [View.put, updated]
    · rw [hkids, hfresh i hi]

/-- The loop of `insert`, from a node on. -/
theorem insertFrom_tree (S : B.Serial Open) (h : Open s.store b 0) (hfresh : ∀ id, b ≤ id → (B.view s.store).children id = ∅)
    (hx : x ≠ EMPTY) (hk : Planted E (B.view s.store) b (.tree id piece value below)) (hwf : below.Wf)
    (htail : (first :: rest).drop tail = k) {fuel : Nat} (hfuel : k.length + 1 ≤ fuel + common piece k) :
    Inserted B E R Open s b (k ∈ (Forest.tree id piece value below).keys) (.tree id piece value below)
      (fun leg new => .graft leg new x k id piece value below (below.insert leg new x (k.drop (common piece k))) .nil)
      (R.insertFrom B E first rest x fuel id tail s) := by
  induction fuel generalizing k tail id piece value below with
  | zero =>
    have := common_le_right piece k
    omega
  | succ fuel ih =>
    have hid : id ≠ EMPTY := hk.pos id List.mem_cons_self
    have hdrop : ∀ c, (first :: rest).drop (tail + c) = k.drop c := by
      intro c
      rw [← htail, List.drop_drop]
    unfold insertFrom
    rw [if_neg hid, bind_ok (ask_tree hk)]
    dsimp only
    rw [E.toVec_fromVec, htail, hdrop]
    by_cases hc : common piece k < piece.length
    · rw [if_pos hc]
      exact inserted_split S h hfresh hk hx hc _
    · rw [if_neg hc]
      cases hrest : k.drop (common piece k) with
      | nil =>
        dsimp only
        rw [← hrest]
        exact inserted_whole S h hfresh hk hwf hx hc hrest _
      | cons a elems =>
        dsimp only
        have hchildren : Index.ask (fun s => .ok (B.getChildren s id)) s = .ok (B.getChildren s.store id) s := ask_ok rfl
        have hfind : Index.ask (fun s' => findChild B E a s' (B.getChildren s.store id)) s = .ok (below.top? a) s :=
          ask_ok (findChild_below hk hwf a)
        rw [bind_ok hchildren, bind_ok hfind, ← hrest]
        have hhead : (k.drop (common piece k)).head? = some a := by rw [hrest]; rfl
        have hne : k.drop (common piece k) ≠ [] := by rw [hrest]; exact List.cons_ne_nil _ _
        cases htop : below.top? a with
        | none => exact inserted_extend S h hfresh hk hwf hx hc hne (hhead ▸ Forest.top?_none.mp htop)
        | some c =>
          have hlen : (k.drop (common piece k)).length ≤ fuel := by
            have := common_le_right piece k
            rw [List.length_drop]
            omega
          have hgrow := insertFrom_forest (R := R) first rest x fuel (tail + common piece k) (k := k.drop (common piece k))
            (fun id piece value below hk hwf hfuel => ih hk hwf (hdrop _) hfuel) hk.forest_below hwf hhead hlen htop
          refine hgrow.lift (Forest.mem_keys_drop hc hne).symm fun w b' leg new hg => ?_
          · have hgraft : Forest.graft leg new x k id piece value below (below.insert leg new x (k.drop (common piece k))) .nil =
                .tree id piece value (below.insert leg new x (k.drop (common piece k))) := by
              unfold Forest.graft
              dsimp only
              rw [if_neg hc, if_neg hne]
              rfl
            rw [hgraft]
            exact Grown.of_below hk (Forest.tops_insert_of_mem (hhead ▸ (Forest.top?_mem htop).2)) hg

end Radix

end Opsense
