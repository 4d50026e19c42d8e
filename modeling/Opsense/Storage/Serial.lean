import Opsense.Storage.Ids

/-!
# A category storage in the hands of one caller

What can be read of a category storage, what the calls of a transaction make of it, and that each of the four backends does this
for a caller that ends each transaction before it begins another (`Kind.serial`). A storage may have more nodes than the calls
made, since in memory the ids of a transaction that was dropped are filled with empty nodes.
-/

namespace Opsense

/-- What can be read of a category storage. -/
structure View where
  nodes : Nat → Option (Bytes × Nat)
  children : Nat → Finset Nat
  roots : Nat → Nat

namespace CategoryTxOp

/-- The nodes that a change is on. -/
def ids : CategoryTxOp → List Nat
  | .addChild parent _ => [parent]
  | .moveChild from_ to_ _ => [from_, to_]
  | .updateNode id _ _ => [id]

end CategoryTxOp

namespace View

def new : View := ⟨fun _ => none, fun _ => ∅, fun _ => 0⟩

def put (v : View) (id : Nat) (node : Bytes × Nat) : View := { v with nodes := Function.update v.nodes id (some node) }

def setRoot (v : View) (shard root : Nat) : View := { v with roots := Function.update v.roots shard root }

def addChild (v : View) (parent child : Nat) : View :=
  { v with children := Function.update v.children parent (insert child (v.children parent)) }

def dropChild (v : View) (parent child : Nat) : View :=
  { v with children := Function.update v.children parent ((v.children parent).erase child) }

/-- A change of a transaction. -/
def apply (v : View) : CategoryTxOp → View
  | .addChild parent child => v.addChild parent child
  | .moveChild from_ to_ child => (v.dropChild from_ child).addChild to_ child
  | .updateNode id pfx record => { v with nodes := Function.update v.nodes id ((v.nodes id).map (updated pfx record)) }

/-- The new nodes of a transaction. -/
def putAll (v : View) (nodes : List (Nat × Bytes × Nat)) : View := nodes.foldl (fun v node => v.put node.1 node.2) v

def commit (v : View) (tx : CategoryTx) : View := tx.ops.foldl apply (v.putAll tx.nodes)

/-- There may be more nodes. -/
structure Le (v w : View) : Prop where
  nodes : ∀ id node, v.nodes id = some node → w.nodes id = some node
  children : v.children = w.children
  roots : v.roots = w.roots

variable {v w : View}

theorem Le.refl (v : View) : v.Le v := ⟨fun _ _ h => h, rfl, rfl⟩

theorem Le.trans {u : View} (h : u.Le v) (h' : v.Le w) : u.Le w :=
  ⟨fun id node hid => h'.nodes id node (h.nodes id node hid), h.children.trans h'.children, h.roots.trans h'.roots⟩

theorem Le.of_eq (h : v = w) : v.Le w := h ▸ Le.refl v

theorem Le.put (h : v.Le w) (id : Nat) (node : Bytes × Nat) : (v.put id node).Le (w.put id node) := by
  refine ⟨fun i n hi => ?_, h.children, h.roots⟩
  simp only [View.put] at hi ⊢
  by_cases heq : i = id
  · subst heq
    simpa using hi
  · rw [Function.update_of_ne heq] at hi ⊢
    exact h.nodes i n hi

theorem Le.setRoot (h : v.Le w) (shard root : Nat) : (v.setRoot shard root).Le (w.setRoot shard root) := by
  refine ⟨h.nodes, h.children, ?_⟩
  simp only [View.setRoot, h.roots]

theorem Le.apply (h : v.Le w) (op : CategoryTxOp) : (v.apply op).Le (w.apply op) := by
  cases op with
  | addChild parent child =>
    refine ⟨h.nodes, ?_, h.roots⟩
    simp only [View.apply, View.addChild, h.children]
  | moveChild from_ to_ child =>
    refine ⟨h.nodes, ?_, h.roots⟩
    simp only [View.apply, View.addChild, View.dropChild, h.children]
  | updateNode id pfx record =>
    refine ⟨fun i n hi => ?_, h.children, h.roots⟩
    simp only [View.apply] at hi ⊢
    by_cases heq : i = id
    · subst heq
      rw [Function.update_self] at hi ⊢
      obtain ⟨node, hnode, rfl⟩ := Option.map_eq_some_iff.mp hi
      rw [h.nodes i node hnode]
      rfl
    · rw [Function.update_of_ne heq] at hi ⊢
      exact h.nodes i n hi

/-- A change leaves the nodes where they are. -/
theorem isSome_apply (v : View) (op : CategoryTxOp) (id : Nat) : ((v.apply op).nodes id).isSome = (v.nodes id).isSome := by
  cases op with
  | addChild parent child => rfl
  | moveChild from_ to_ child => rfl
  | updateNode i pfx record =>
    simp only [apply]
    by_cases heq : id = i
    · subst heq
      simp
    · rw [Function.update_of_ne heq]

/-- The nodes that a change is on are there. -/
def Fits (v : View) (op : CategoryTxOp) : Prop := ∀ id ∈ op.ids, (v.nodes id).isSome

theorem Fits.mono {op : CategoryTxOp} (hfits : v.Fits op) (h : v.Le w) : w.Fits op := by
  intro id hid
  obtain ⟨node, hnode⟩ := Option.isSome_iff_exists.mp (hfits id hid)
  rw [h.nodes id node hnode]
  rfl

theorem Fits.apply {op : CategoryTxOp} (hfits : v.Fits op) (op' : CategoryTxOp) : (v.apply op').Fits op := by
  intro id hid
  rw [isSome_apply]
  exact hfits id hid

variable {σ : Type} (view : σ → View)

/-- Nodes are written one after another. `Inv` counts those that are left. -/
theorem puts (put : σ → Nat × Bytes × Nat → σ) (Inv : σ → Nat → Nat → Prop)
    (hput : ∀ s b n node, Inv s b (n + 1) → node.1 = b →
      Inv (put s node) (b + 1) n ∧ ((view s).put node.1 node.2).Le (view (put s node)))
    (nodes : List (Nat × Bytes × Nat)) {s : σ} {b : Nat} (hids : nodes.map Prod.fst = List.range' b nodes.length)
    (h : Inv s b nodes.length) (hv : v.Le (view s)) :
    Inv (nodes.foldl put s) (b + nodes.length) 0 ∧ (v.putAll nodes).Le (view (nodes.foldl put s)) := by
  induction nodes generalizing s b v with
  | nil => exact ⟨h, hv⟩
  | cons node nodes ih =>
    rw [List.map_cons, List.length_cons, List.range'_succ] at hids
    obtain ⟨hid, hids⟩ := List.cons_eq_cons.mp hids
    obtain ⟨hinv, hle⟩ := hput s b nodes.length node h hid
    obtain ⟨hinv', hle'⟩ := ih hids hinv ((hv.put node.1 node.2).trans hle)
    refine ⟨?_, hle'⟩
    rw [List.length_cons, Nat.add_comm nodes.length 1, ← Nat.add_assoc]
    exact hinv'

/-- Changes are carried out one after another, as `runs` says. -/
theorem applies (runs : σ → List CategoryTxOp → σ × Except StorageError Unit) (Inv : σ → Prop)
    (hnil : ∀ s, runs s [] = (s, .ok ()))
    (hcons : ∀ s op, Inv s → (view s).Fits op → ∃ t, (∀ ops, runs s (op :: ops) = runs t ops) ∧ Inv t ∧
      ((view s).apply op).Le (view t))
    (ops : List CategoryTxOp) {s : σ} (h : Inv s) (hv : v.Le (view s)) (hfits : ∀ op ∈ ops, v.Fits op) :
    ∃ t, runs s ops = (t, .ok ()) ∧ Inv t ∧ (ops.foldl View.apply v).Le (view t) := by
  induction ops generalizing s v with
  | nil => exact ⟨s, hnil s, h, hv⟩
  | cons op ops ih =>
    obtain ⟨t, hruns, hinv, hle⟩ := hcons s op h ((hfits op List.mem_cons_self).mono hv)
    obtain ⟨u, hu, hinv', hle'⟩ := ih hinv ((hv.apply op).trans hle)
      fun op' hop' => (hfits op' (List.mem_cons_of_mem _ hop')).apply op
    exact ⟨u, (hruns ops).trans hu, hinv', hle'⟩

end View

/-- What can be read of a storage. -/
def Backend.view {σ : Type} (B : Backend σ) (s : σ) : View where
  nodes id := (B.getNode s id).toOption
  children id := (B.getChildren s id).toFinset
  roots := B.getRoot s

theorem Backend.view_nodes {σ : Type} {B : Backend σ} {s : σ} {id : Nat} {node : Bytes × Nat} :
    (B.view s).nodes id = some node ↔ B.getNode s id = .ok node := by
  simp only [Backend.view]
  cases B.getNode s id <;> simp [Except.toOption]

/-- What a backend does for one caller. `Open s b n` says that a transaction is open that has `n` nodes, the first with the id
`b`. -/
structure Backend.Serial {σ : Type} (B : Backend σ) (Open : σ → Nat → Nat → Prop) : Prop where
  start : Open B.new 1 0
  start_view : View.new.Le (B.view B.new)
  pos : ∀ s b n, Open s b n → 1 ≤ b
  fresh : ∀ s b n, Open s b n → ∀ id, b ≤ id → (B.view s).nodes id = none
  nodup : ∀ s b n, Open s b n → ∀ id, (B.getChildren s id).Nodup
  txNewNode : ∀ s b tx pfx record, Open s b tx.nodes.length →
    (B.txNewNode s tx pfx record).2 = (tx.withNode (b + tx.nodes.length) pfx record, b + tx.nodes.length) ∧
    Open (B.txNewNode s tx pfx record).1 b (tx.nodes.length + 1) ∧ B.view (B.txNewNode s tx pfx record).1 = B.view s
  drop : ∀ s b n, Open s b n → ∃ b', b ≤ b' ∧ Open s b' 0
  commit : ∀ s b tx, Open s b tx.nodes.length → tx.nodes.map Prod.fst = List.range' b tx.nodes.length →
    (∀ op ∈ tx.ops, ((B.view s).putAll tx.nodes).Fits op) →
    ∃ t, B.commit s tx = (t, .ok ()) ∧ Open t (b + tx.nodes.length) 0 ∧ ((B.view s).commit tx).Le (B.view t)
  create : ∀ s b pfx record, Open s b 0 →
    ∃ t, B.create s pfx record = (t, .ok b) ∧ Open t (b + 1) 0 ∧ ((B.view s).put b (pfx, record)).Le (B.view t)
  setRoot : ∀ s b shard root, Open s b 0 →
    Open (B.setRoot s shard root) b 0 ∧ ((B.view s).setRoot shard root).Le (B.view (B.setRoot s shard root))
  updateNode : ∀ s b id pfx record node, Open s b 0 → (B.view s).nodes id = some node →
    ∃ t, B.updateNode s id pfx record = (t, .ok ()) ∧ Open t b 0 ∧ ((B.view s).put id (updated pfx record node)).Le (B.view t)

/-! ## In memory -/

namespace InMemoryCategory

/-- The lists of nodes and children are of one length, no child is listed twice, and the next id is past the list. -/
structure Open (s : InMemoryCategory) (b n : Nat) : Prop where
  next : s.next_id = b + n
  level : s.children.length = s.nodes.length
  bound : s.nodes.length ≤ b
  pos : 1 ≤ b
  nodup : ∀ cs ∈ s.children, cs.Nodup

theorem view_nodes (s : InMemoryCategory) (id : Nat) : (backend.view s).nodes id = s.nodes[id]? := by
  simp only [Backend.view, backend, getNode]
  cases s.nodes[id]? <;> rfl

theorem view_children (s : InMemoryCategory) (id : Nat) : (backend.view s).children id = (s.children[id]?.getD []).toFinset := rfl

theorem getD_resize {α : Type} {l : List α} {n : Nat} (h : l.length ≤ n) (a : α) (i : Nat) :
    (resize l n a)[i]?.getD a = l[i]?.getD a := by
  rw [resize_of_le h]
  by_cases hi : i < l.length
  · rw [List.getElem?_append_left hi]
  · rw [List.getElem?_append_right (not_lt.mp hi), List.getElem?_eq_none (not_lt.mp hi), List.getElem?_replicate]
    split_ifs <;> rfl

variable {s : InMemoryCategory}

/-- A node at the end of the list, or past it. -/
theorem Open.putNode {b n : Nat} (h : s.Open b (n + 1)) (pfx : Bytes) (record : Nat) :
    (s.putNode b pfx record).Open (b + 1) n ∧
      ((backend.view s).put b (pfx, record)).Le (backend.view (s.putNode b pfx record)) := by
  have hlen := h.bound
  have hnodes : (s.putNode b pfx record).nodes = (resize s.nodes (b + 1) ([], 0)).set b (pfx, record) := by
    simp [InMemoryCategory.putNode, hlen]
  have hchildren : (s.putNode b pfx record).children = resize s.children (b + 1) [] := by
    simp [InMemoryCategory.putNode, hlen]
  have hroots : (s.putNode b pfx record).roots = s.roots := by
    simp [InMemoryCategory.putNode, hlen]
  have hlevel := h.level
  refine ⟨⟨?_, ?_, ?_, Nat.le_succ_of_le h.pos, fun cs hcs => ?_⟩, fun i node hi => ?_, ?_, ?_⟩
  · rw [putNode_next_id, h.next]
    omega
  · rw [hnodes, hchildren, List.length_set, resize_of_le (by omega), resize_of_le (by omega)]
    simp [hlevel]
  · rw [hnodes, List.length_set, resize_of_le (by omega), List.length_append, List.length_replicate]
    omega
  · rw [hchildren, resize_of_le (by omega)] at hcs
    rcases List.mem_append.mp hcs with hcs | hcs
    · exact h.nodup cs hcs
    · rw [(List.mem_replicate.mp hcs).2]
      exact List.nodup_nil
  · simp only [View.put] at hi
    rw [view_nodes]
    by_cases heq : i = b
    · subst heq
      rw [Function.update_self] at hi
      rw [← hi]
      exact getNode_eq_ok.mp (getNode_putNode s i pfx record)
    · rw [Function.update_of_ne heq, view_nodes] at hi
      exact getNode_eq_ok.mp (getNode_putNode_of_ne pfx record (getNode_eq_ok.mpr hi) heq)
  · funext i
    change (backend.view s).children i = _
    rw [view_children, view_children, hchildren, getD_resize (by omega)]
  · funext shard
    change s.roots[shard]?.getD 0 = (s.putNode b pfx record).roots[shard]?.getD 0
    rw [hroots]

theorem getD_modify {l : List (List Nat)} {i : Nat} (hi : i < l.length) (f : List Nat → List Nat) (j : Nat) :
    (l.modify i f)[j]?.getD [] = Function.update (fun j => l[j]?.getD []) i (f (l[i]?.getD [])) j := by
  by_cases h : j = i
  · subst h
    simp [hi]
  · rw [List.getElem?_modify_ne _ _ (Ne.symm h), Function.update_of_ne h]

theorem toFinset_push (cs : List Nat) (child : Nat) :
    (if child ∈ cs then cs else cs ++ [child]).toFinset = insert child cs.toFinset := by
  split_ifs with h
  · rw [Finset.insert_eq_self.mpr (List.mem_toFinset.mpr h)]
  · ext a
    simp

theorem toFinset_remove (cs : List Nat) (child : Nat) : (cs.filter fun c => c ≠ child).toFinset = cs.toFinset.erase child := by
  ext a
  simp [and_comm]

theorem nodup_push {cs : List Nat} (h : cs.Nodup) (child : Nat) : (if child ∈ cs then cs else cs ++ [child]).Nodup := by
  split_ifs with hmem
  · exact h
  · exact List.nodup_append.mpr ⟨h, List.nodup_singleton _, fun a ha b hb => by
      rw [List.mem_singleton.mp hb]
      exact fun heq => hmem (heq ▸ ha)⟩

theorem nodup_modify {l : List (List Nat)} (h : ∀ cs ∈ l, cs.Nodup) {f : List Nat → List Nat} (hf : ∀ cs, cs.Nodup → (f cs).Nodup)
    (i : Nat) : ∀ cs ∈ l.modify i f, cs.Nodup := by
  intro cs hcs
  obtain ⟨j, hj, rfl⟩ := List.mem_iff_getElem.mp hcs
  rw [List.length_modify] at hj
  rw [List.getElem_modify]
  split_ifs
  · exact hf _ (h _ (List.getElem_mem hj))
  · exact h _ (List.getElem_mem hj)

theorem length_of_isSome {id : Nat} (h : ((backend.view s).nodes id).isSome) : id < s.nodes.length := by
  rw [view_nodes] at h
  obtain ⟨node, hnode⟩ := Option.isSome_iff_exists.mp h
  exact (List.getElem?_eq_some_iff.mp hnode).1

/-- The children of one node change. -/
theorem Open.modify {b n : Nat} (h : s.Open b n) {id : Nat} (hid : id < s.children.length) {f : List Nat → List Nat}
    (hf : ∀ cs, cs.Nodup → (f cs).Nodup) :
    Open { s with children := s.children.modify id f } b n ∧
      (backend.view { s with children := s.children.modify id f }).children =
        Function.update (backend.view s).children id (f (s.children[id]?.getD [])).toFinset := by
  refine ⟨⟨h.next, by simp [h.level], h.bound, h.pos, nodup_modify h.nodup hf id⟩, ?_⟩
  funext i
  rw [view_children, getD_modify hid]
  by_cases heq : i = id
  · subst heq
    rw [Function.update_self, Function.update_self]
  · rw [Function.update_of_ne heq, Function.update_of_ne heq]
    rfl

theorem Open.addChild {b n : Nat} (h : s.Open b n) {parent : Nat} (hparent : parent < s.children.length) (child : Nat) :
    (s.commitOp (.addChild parent child)).Open b n ∧
      ((backend.view s).addChild parent child).Le (backend.view (s.commitOp (.addChild parent child))) := by
  obtain ⟨hopen, hchildren⟩ := h.modify hparent fun cs hcs => nodup_push hcs child
  refine ⟨hopen, fun _ _ hid => hid, ?_, rfl⟩
  rw [toFinset_push] at hchildren
  exact hchildren.symm

theorem Open.commitOp {b n : Nat} (h : s.Open b n) {op : CategoryTxOp} (hfits : (backend.view s).Fits op) :
    (s.commitOp op).Open b n ∧ ((backend.view s).apply op).Le (backend.view (s.commitOp op)) := by
  cases op with
  | addChild parent child =>
    exact h.addChild (h.level ▸ length_of_isSome (hfits parent (by simp [CategoryTxOp.ids]))) child
  | moveChild from_ to_ child =>
    have hfrom : from_ < s.children.length := h.level ▸ length_of_isSome (hfits from_ (by simp [CategoryTxOp.ids]))
    have hto : to_ < s.children.length := h.level ▸ length_of_isSome (hfits to_ (by simp [CategoryTxOp.ids]))
    obtain ⟨hopen, hchildren⟩ := h.modify hfrom fun cs (hcs : cs.Nodup) => hcs.filter fun c => c ≠ child
    have hto' : to_ < (s.children.modify from_ fun cs => cs.filter fun c => c ≠ child).length := by simpa using hto
    obtain ⟨hopen', hle⟩ := hopen.addChild hto' child
    refine ⟨hopen', View.Le.trans (.apply (View.Le.of_eq ?_) (.addChild to_ child)) hle⟩
    rw [toFinset_remove] at hchildren
    simp only [View.dropChild]
    exact congrArg (View.mk _ · _) hchildren.symm
  | updateNode id pfx record =>
    have hid := length_of_isSome (hfits id (by simp [CategoryTxOp.ids]))
    refine ⟨⟨h.next, ?_, ?_, h.pos, h.nodup⟩, fun i node hi => ?_, rfl, rfl⟩
    · simp [InMemoryCategory.commitOp, h.level]
    · simpa [InMemoryCategory.commitOp] using h.bound
    · simp only [View.apply] at hi
      rw [view_nodes]
      simp only [InMemoryCategory.commitOp]
      by_cases heq : i = id
      · subst heq
        rw [Function.update_self, view_nodes] at hi
        simp only [List.getElem?_modify_eq]
        exact hi
      · rw [Function.update_of_ne heq, view_nodes] at hi
        rw [List.getElem?_modify_ne _ _ (Ne.symm heq)]
        exact hi

theorem getRoot_setRoot (s : InMemoryCategory) (shard root i : Nat) :
    (s.setRoot shard root).getRoot i = Function.update s.getRoot shard root i := by
  have hset : ∀ roots : List Nat, shard < roots.length → (roots.set shard root)[i]?.getD 0 =
      Function.update (fun i => roots[i]?.getD 0) shard root i := by
    intro roots hlt
    by_cases heq : i = shard
    · subst heq
      simp [hlt]
    · rw [List.getElem?_set_ne (Ne.symm heq), Function.update_of_ne heq]
  unfold getRoot setRoot
  dsimp only
  split_ifs with hlen
  · rw [hset _ (by rw [resize_of_le (by omega)]; simp; omega)]
    congr 1
    funext j
    exact getD_resize (by omega) 0 j
  · exact hset _ (not_le.mp hlen)

/-- The list of nodes reaches to the next id, but for the ids of transactions that were dropped. -/
theorem serial : backend.Serial Open where
  start := ⟨rfl, rfl, le_refl 1, le_refl 1, by simp [backend, new]⟩
  start_view := by
    refine ⟨by simp [View.new], ?_, rfl⟩
    funext id
    rw [view_children]
    cases id <;> rfl
  pos _ _ _ h := h.pos
  fresh s b n h id hid := by
    rw [view_nodes]
    exact List.getElem?_eq_none (h.bound.trans hid)
  nodup s b n h id := by
    simp only [backend, getChildren]
    cases hcs : s.children[id]? with
    | none => exact List.nodup_nil
    | some cs => exact h.nodup cs (List.mem_of_getElem? hcs)
  txNewNode s b tx pfx record h := by
    have hid : s.allocId.2 = b + tx.nodes.length := h.next
    refine ⟨?_, ⟨?_, h.level, h.bound, h.pos, h.nodup⟩, rfl⟩
    · simp only [backend, txNewNode, hid]
    · simp only [backend, txNewNode, allocId, h.next]
      omega
  drop s b n h := ⟨b + n, Nat.le_add_right _ _, ⟨h.next, h.level, h.bound.trans (Nat.le_add_right _ _),
    h.pos.trans (Nat.le_add_right _ _), h.nodup⟩⟩
  commit s b tx h hids hfits := by
    obtain ⟨hopen, hle⟩ := View.puts backend.view (fun s node => s.putNode node.1 node.2.1 node.2.2) Open
      (fun s b n node h hid => hid ▸ (hid ▸ h : s.Open node.1 (n + 1)).putNode node.2.1 node.2.2) tx.nodes hids h (.refl _)
    obtain ⟨t, ht, hopen', hle'⟩ := View.applies backend.view (fun s ops => (ops.foldl commitOp s, .ok ()))
      (fun s => s.Open (b + tx.nodes.length) 0) (fun s => rfl) (fun s op h hfits => ⟨_, fun ops => rfl, h.commitOp hfits⟩)
      tx.ops hopen hle hfits
    exact ⟨t, ht, hopen', hle'⟩
  create s b pfx record h := by
    have hid : s.allocId.2 = b := h.next
    have hopen : s.allocId.1.Open b 1 :=
      ⟨by simp only [allocId, h.next], h.level, h.bound, h.pos, h.nodup⟩
    refine ⟨s.allocId.1.putNode b pfx record, ?_, hopen.putNode pfx record⟩
    simp only [Backend.create, backend, hid]
  setRoot s b shard root h := by
    refine ⟨⟨h.next, h.level, h.bound, h.pos, h.nodup⟩, fun _ _ hid => hid, rfl, ?_⟩
    funext i
    exact (getRoot_setRoot s shard root i).symm
  updateNode s b id pfx record node h hnode := by
    rw [view_nodes] at hnode
    have hlt := (List.getElem?_eq_some_iff.mp hnode).1
    refine ⟨{ s with nodes := s.nodes.modify id (updated pfx record) }, if_neg (not_le.mpr hlt),
      ⟨h.next, by simp [h.level], by simpa using h.bound, h.pos, h.nodup⟩, fun i n hi => ?_, rfl, rfl⟩
    simp only [View.put] at hi
    rw [view_nodes]
    by_cases heq : i = id
    · subst heq
      rw [Function.update_self] at hi
      simp only [List.getElem?_modify_eq]
      rw [hnode, ← hi]
      rfl
    · rw [Function.update_of_ne heq, view_nodes] at hi
      rw [List.getElem?_modify_ne _ _ (Ne.symm heq)]
      exact hi

end InMemoryCategory

/-! ## Pairs of parent and child -/

section

variable (pairs : Finset (Nat × Nat)) (parent child i : Nat)

theorem nodup_childrenOf : (childrenOf pairs i).Nodup := Finset.sort_nodup _ _

theorem mem_childrenOf : (childrenOf pairs i).toFinset = (pairs.filter fun pair => pair.1 = i).image Prod.snd :=
  Finset.sort_toFinset _ _

/-- The children of every node. -/
def childrenIn (pairs : Finset (Nat × Nat)) (i : Nat) : Finset Nat := (childrenOf pairs i).toFinset

theorem mem_childrenIn {pairs : Finset (Nat × Nat)} {i child : Nat} : child ∈ childrenIn pairs i ↔ (i, child) ∈ pairs := by
  rw [childrenIn, mem_childrenOf]
  simp

theorem childrenIn_empty : childrenIn ∅ = fun _ => ∅ := by
  funext i
  ext a
  rw [mem_childrenIn]
  simp

theorem childrenIn_insert :
    childrenIn (insert (parent, child) pairs) = Function.update (childrenIn pairs) parent (insert child (childrenIn pairs parent)) := by
  funext i
  ext a
  rw [mem_childrenIn]
  by_cases heq : i = parent
  · subst heq
    simp [mem_childrenIn]
  · rw [Function.update_of_ne heq, mem_childrenIn]
    simp [heq]

theorem childrenIn_erase :
    childrenIn (pairs.erase (parent, child)) =
      Function.update (childrenIn pairs) parent ((childrenIn pairs parent).erase child) := by
  funext i
  ext a
  rw [mem_childrenIn]
  by_cases heq : i = parent
  · subst heq
    simp [mem_childrenIn]
  · rw [Function.update_of_ne heq, mem_childrenIn]
    simp [heq]

end

/-- The root of a shard is set. -/
theorem getD_lookup_insert (roots : Table Nat Nat) (shard root : Nat) :
    (fun i => ((roots.insert shard root).lookup i).getD 0) = Function.update (fun i => (roots.lookup i).getD 0) shard root := by
  funext i
  by_cases heq : i = shard
  · subst heq
    rw [Function.update_self, Finmap.lookup_insert]
    rfl
  · rw [Function.update_of_ne heq, Finmap.lookup_insert_of_ne _ heq]

/-! ## Parquet -/

namespace Store

/-- No node is there from `b` on. -/
def Ends (s : Store) (b : Nat) : Prop := ∀ id, b ≤ id → s.inner.nodes.lookup id = none

structure Open (s : Store) (b _n : Nat) : Prop where
  counter : s.inner.counter = b
  ends : s.Ends b
  pos : 1 ≤ b

theorem view_nodes (s : Store) : (backend.view s).nodes = fun id => s.inner.nodes.lookup id := toOption_getNode s

theorem view_children (s : Store) : (backend.view s).children = childrenIn s.inner.children := rfl

theorem view_node (s : Store) (id : Nat) (node : Bytes × Nat) :
    backend.view (s.mutate (.node id node.1 node.2)) = (backend.view s).put id node := by
  have hnodes : (backend.view (s.mutate (.node id node.1 node.2))).nodes = Function.update (backend.view s).nodes id (some node) := by
    rw [view_nodes, view_nodes, lookup_mutate_node]
  exact congrArg (View.mk · _ _) hnodes

theorem view_child (s : Store) (parent child : Nat) :
    backend.view (s.mutate (.child parent child)) = (backend.view s).addChild parent child :=
  congrArg (View.mk _ · _) (childrenIn_insert s.inner.children parent child)

theorem view_childDel (s : Store) (parent child : Nat) :
    backend.view (s.mutate (.childDel parent child)) = (backend.view s).dropChild parent child :=
  congrArg (View.mk _ · _) (childrenIn_erase s.inner.children parent child)

theorem Ends.node {s : Store} {b : Nat} (h : s.Ends b) (node : Bytes × Nat) : (s.mutate (.node b node.1 node.2)).Ends (b + 1) := by
  intro id hid
  rw [lookup_node_of_ne s _ _ (by omega)]
  exact h id (by omega)

theorem Ends.update {s : Store} {b id : Nat} {n : Bytes × Nat} (h : s.Ends b) (hid : s.inner.nodes.lookup id = some n)
    (node : Bytes × Nat) : (s.mutate (.node id node.1 node.2)).Ends b := by
  intro i hi
  rw [lookup_node_of_ne s _ _ ?_]
  · exact h i hi
  · rintro rfl
    rw [h i hi] at hid
    cases hid

theorem commitOp_fits {s : Store} {b : Nat} (h : s.Open b 0) {op : CategoryTxOp} (hfits : (backend.view s).Fits op) :
    ∃ t, (∀ ops, s.commitOps (op :: ops) = t.commitOps ops) ∧ t.Open b 0 ∧ ((backend.view s).apply op).Le (backend.view t) := by
  cases op with
  | addChild parent child => exact ⟨_, fun _ => rfl, ⟨h.counter, h.ends, h.pos⟩, .of_eq (view_child s parent child).symm⟩
  | moveChild from_ to_ child =>
    refine ⟨_, fun _ => rfl, ⟨h.counter, h.ends, h.pos⟩, .of_eq ?_⟩
    rw [view_child, view_childDel]
    rfl
  | updateNode id pfx record =>
    have hid := hfits id (by simp [CategoryTxOp.ids])
    rw [view_nodes] at hid
    obtain ⟨node, hnode⟩ := Option.isSome_iff_exists.mp hid
    refine ⟨s.mutate (.node id (pfx.getD node.1) (record.getD node.2)), fun ops => ?_,
      ⟨h.counter, h.ends.update hnode (updated pfx record node), h.pos⟩, .of_eq ?_⟩
    · simp only [commitOps, commitOp, updateNode_some hnode]
    · have hview := view_node s id (updated pfx record node)
      refine Eq.trans ?_ hview.symm
      simp only [View.apply, View.put, view_nodes]
      dsimp only at hnode
      rw [hnode]
      rfl

/-- The counter is past the nodes. -/
theorem serial : backend.Serial Open where
  start := by
    refine ⟨rfl, fun id hid => ?_, le_refl 1⟩
    simp only [backend, new, Inner.new, Inner.seedNodes, Finmap.notMem_empty, if_false]
    rw [Finmap.lookup_insert_of_ne _ (by omega)]
    exact Finmap.lookup_empty _
  start_view := ⟨nofun, childrenIn_empty.symm, funext fun _ => rfl⟩
  pos _ _ _ h := h.pos
  fresh s b n h id hid := by
    rw [view_nodes]
    exact h.ends id hid
  nodup _ _ _ _ id := nodup_childrenOf _ id
  txNewNode s b tx pfx record h := by
    have hid : s.inner.counter + 1 + tx.nodes.length - 1 = b + tx.nodes.length := by
      rw [h.counter]
      omega
    refine ⟨?_, ⟨h.counter, h.ends, h.pos⟩, rfl⟩
    simp only [backend, CategoryTx.newNode, CategoryTx.withNode, hid]
  drop s b n h := ⟨b, le_refl b, ⟨h.counter, h.ends, h.pos⟩⟩
  commit s b tx h hids hfits := by
    obtain ⟨⟨hcounter, hends⟩, hle⟩ := View.puts backend.view (fun s node => s.mutate (.node node.1 node.2.1 node.2.2))
      (fun s b' _ => s.inner.counter = b ∧ s.Ends b')
      (fun s b' n node h hid => ⟨⟨h.1, hid ▸ (hid ▸ h.2 : s.Ends node.1).node node.2⟩, .of_eq (view_node s _ _).symm⟩)
      tx.nodes hids ⟨h.counter, h.ends⟩ (.refl _)
    obtain ⟨t, ht, hle', hopen⟩ : ∃ t : Store, s.commit tx = t.commitOps tx.ops ∧
        ((backend.view s).putAll tx.nodes).Le (backend.view t) ∧ t.Open (b + tx.nodes.length) 0 := by
      have hmax := max_ids hids
      unfold commit
      dsimp only
      rw [hmax]
      split_ifs with hlen
      · refine ⟨_, rfl, hle, ⟨?_, hends, h.pos.trans (Nat.le_add_right _ _)⟩⟩
        rw [hcounter, hlen, Nat.add_zero]
      · refine ⟨_, rfl, hle, ⟨?_, hends, h.pos.trans (Nat.le_add_right _ _)⟩⟩
        change b + tx.nodes.length - 1 + 1 = b + tx.nodes.length
        omega
    obtain ⟨u, hu, hopen', hle''⟩ := View.applies backend.view commitOps (fun s => s.Open (b + tx.nodes.length) 0)
      (fun _ => rfl) (fun s op h hfits => commitOp_fits h hfits) tx.ops hopen hle' hfits
    exact ⟨u, ht.trans hu, hopen', hle''⟩
  create s b pfx record h := by
    obtain rfl := h.counter
    refine ⟨_, rfl, ⟨rfl, h.ends.node (pfx, record), Nat.le_succ_of_le h.pos⟩, .of_eq ?_⟩
    exact (view_node s _ (pfx, record)).symm
  setRoot s b shard root h :=
    ⟨⟨h.counter, h.ends, h.pos⟩, fun _ _ hid => hid, rfl, (getD_lookup_insert s.inner.roots shard root).symm⟩
  updateNode s b id pfx record node h hnode := by
    rw [view_nodes] at hnode
    refine ⟨_, updateNode_some hnode pfx record, ⟨h.counter, h.ends.update hnode (updated pfx record node), h.pos⟩, .of_eq ?_⟩
    exact (view_node s id (updated pfx record node)).symm

end Store

/-! ## SQLite -/

namespace SqliteStorage

def Ends (s : SqliteStorage) (b : Nat) : Prop := ∀ id, b ≤ id → s.nodes.lookup id = none

structure Open (s : SqliteStorage) (b _n : Nat) : Prop where
  next : s.next = b
  ends : s.Ends b
  pos : 1 ≤ b

theorem view_nodes (s : SqliteStorage) : (backend.view s).nodes = fun id => s.nodes.lookup id := by
  funext id
  simp only [Backend.view, backend, getNode]
  cases s.nodes.lookup id <;> rfl

theorem view_insert (s : SqliteStorage) (id : Nat) (node : Bytes × Nat) :
    backend.view { s with nodes := s.nodes.insert id node } = (backend.view s).put id node := by
  have hnodes : (backend.view { s with nodes := s.nodes.insert id node }).nodes =
      Function.update (backend.view s).nodes id (some node) := by
    rw [view_nodes, view_nodes]
    funext i
    by_cases heq : i = id
    · subst heq
      rw [Function.update_self]
      exact Finmap.lookup_insert _
    · rw [Function.update_of_ne heq]
      exact Finmap.lookup_insert_of_ne _ heq
  exact congrArg (View.mk · _ _) hnodes

theorem updateColumns_rest (s : SqliteStorage) (id : Nat) (pfx : Option Bytes) (record : Option Nat) :
    (s.updateColumns id pfx record).children = s.children ∧ (s.updateColumns id pfx record).roots = s.roots := by
  have hrow : ∀ (s : SqliteStorage) f, (s.updateRow id f).children = s.children ∧ (s.updateRow id f).roots = s.roots := by
    intro s f
    unfold updateRow
    cases s.nodes.lookup id <;> exact ⟨rfl, rfl⟩
  cases pfx <;> cases record <;> simp [updateColumns, hrow]

theorem view_updateColumns (s : SqliteStorage) (id : Nat) (pfx : Option Bytes) (record : Option Nat) :
    backend.view (s.updateColumns id pfx record) = (backend.view s).apply (.updateNode id pfx record) := by
  obtain ⟨hchildren, hroots⟩ := updateColumns_rest s id pfx record
  have hnodes : (backend.view (s.updateColumns id pfx record)).nodes =
      Function.update (backend.view s).nodes id (((backend.view s).nodes id).map (updated pfx record)) := by
    rw [view_nodes, view_nodes]
    funext i
    rw [lookup_updateColumns]
    by_cases heq : i = id
    · subst heq
      rw [Function.update_self, if_pos rfl]
    · rw [Function.update_of_ne heq, if_neg heq]
  have hchildren' : (backend.view (s.updateColumns id pfx record)).children = (backend.view s).children :=
    congrArg childrenIn hchildren
  have hroots' : (backend.view (s.updateColumns id pfx record)).roots = (backend.view s).roots := by
    funext shard
    simp only [Backend.view, backend, getRoot, hroots]
  rw [View.apply, ← hnodes, ← hchildren', ← hroots']

variable {s : SqliteStorage}

theorem Ends.insert {b : Nat} (h : s.Ends b) (node : Bytes × Nat) :
    Ends { s with nodes := s.nodes.insert b node } (b + 1) := by
  intro id hid
  dsimp only
  rw [Finmap.lookup_insert_of_ne _ (by omega)]
  exact h id (by omega)

theorem Ends.update {b : Nat} (h : s.Ends b) (id : Nat) (pfx : Option Bytes) (record : Option Nat) :
    (s.updateColumns id pfx record).Ends b := by
  intro i hi
  rw [lookup_updateColumns]
  split_ifs with heq
  · rw [← heq, h i hi]
    rfl
  · exact h i hi

theorem Open.commitOp {b : Nat} (h : s.Open b 0) (op : CategoryTxOp) :
    (s.commitOp op).Open b 0 ∧ ((backend.view s).apply op).Le (backend.view (s.commitOp op)) := by
  cases op with
  | addChild parent child =>
    exact ⟨⟨h.next, h.ends, h.pos⟩, .of_eq (congrArg (View.mk _ · _) (childrenIn_insert s.children parent child).symm)⟩
  | moveChild from_ to_ child =>
    refine ⟨⟨h.next, h.ends, h.pos⟩, .of_eq ?_⟩
    have hchildren := childrenIn_insert (s.children.erase (from_, child)) to_ child
    rw [childrenIn_erase] at hchildren
    exact congrArg (View.mk _ · _) hchildren.symm
  | updateNode id pfx record =>
    exact ⟨⟨(updateColumns_next s id pfx record).trans h.next, h.ends.update id pfx record, h.pos⟩,
      .of_eq (view_updateColumns s id pfx record).symm⟩

theorem not_mem_of_ends {b id : Nat} (h : s.Ends b) (hid : b ≤ id) : id ∉ s.nodes := by
  rw [mem_iff_lookup, h id hid]
  simp

/-- The counter is past the rows. -/
theorem serial : backend.Serial Open where
  start := by
    refine ⟨rfl, fun id hid => ?_, le_refl 1⟩
    simp only [backend, new]
    rw [Finmap.lookup_insert_of_ne _ (by omega)]
    exact Finmap.lookup_empty _
  start_view := ⟨nofun, childrenIn_empty.symm, funext fun _ => rfl⟩
  pos _ _ _ h := h.pos
  fresh s b n h id hid := by
    rw [view_nodes]
    exact h.ends id hid
  nodup _ _ _ _ id := nodup_childrenOf _ id
  txNewNode s b tx pfx record h := by
    refine ⟨?_, ⟨h.next, h.ends, h.pos⟩, rfl⟩
    simp only [backend, txNewNode, h.next]
  drop s b n h := ⟨b, le_refl b, ⟨h.next, h.ends, h.pos⟩⟩
  commit s b tx h hids hfits := by
    obtain rfl := h.next
    have hfree : ∀ id ∈ tx.nodes.map Prod.fst, id ∉ s.nodes := fun id hid =>
      not_mem_of_ends h.ends (List.mem_range'_1.mp (hids ▸ hid)).1
    obtain ⟨hends, hle⟩ := View.puts backend.view
      (fun s node => { s with nodes := s.nodes.insert node.1 node.2 }) (fun s b _ => s.Ends b)
      (fun s b n node h hid => ⟨hid ▸ (hid ▸ h : s.Ends node.1).insert node.2, .of_eq (view_insert s _ _).symm⟩)
      tx.nodes hids h.ends (.refl _)
    obtain ⟨t, ht, hopen, hle'⟩ := View.applies backend.view (fun s ops => (ops.foldl commitOp s, .ok ()))
      (fun t => t.Open (s.next + tx.nodes.length) 0) (fun _ => rfl) (fun s op h _ => ⟨_, fun _ => rfl, h.commitOp op⟩) tx.ops
      (s := { tx.nodes.foldl (fun s node => { s with nodes := s.nodes.insert node.1 node.2 }) s with
        next := s.next + tx.nodes.length })
      ⟨rfl, hends, h.pos.trans (Nat.le_add_right _ _)⟩ hle hfits
    exact ⟨t, (commit_of_free hids (hids ▸ List.nodup_range') hfree).trans ht, hopen, hle'⟩
  create s b pfx record h := by
    obtain rfl := h.next
    refine ⟨{ s with nodes := s.nodes.insert s.next (pfx, record), next := s.next + 1 }, ?_,
      ⟨rfl, h.ends.insert (pfx, record), Nat.le_succ_of_le h.pos⟩, .of_eq (view_insert s s.next (pfx, record)).symm⟩
    have hinsert : s.allocId.1.insertNode s.allocId.2 pfx record = .ok { s.allocId.1 with
        nodes := s.nodes.insert s.next (pfx, record) } :=
      insertNode_of_not_mem (s := s.allocId.1) (not_mem_of_ends h.ends (le_refl s.next)) pfx record
    simp only [Backend.create, backend, hinsert]
    rfl
  setRoot s b shard root h :=
    ⟨⟨h.next, h.ends, h.pos⟩, fun _ _ hid => hid, rfl, (getD_lookup_insert s.roots shard root).symm⟩
  updateNode s b id pfx record node h hnode := by
    have hmem : id ∈ s.nodes := by
      rw [view_nodes] at hnode
      rw [mem_iff_lookup]
      exact Option.isSome_iff_exists.mpr ⟨node, hnode⟩
    refine ⟨s.updateColumns id pfx record, ?_, ⟨(updateColumns_next s id pfx record).trans h.next,
      h.ends.update id pfx record, h.pos⟩, .of_eq ?_⟩
    · exact Prod.ext rfl (if_neg fun hnot => hnot.1 hmem)
    · rw [view_updateColumns, View.apply, hnode]
      rfl

end SqliteStorage

/-! ## Redis -/

namespace RedisStorage

structure Open (s : RedisStorage) (b _n : Nat) : Prop where
  level : s.Level
  length : s.branch.length = b
  pos : 1 ≤ b

variable {s : RedisStorage}

theorem Open.push {b n m : Nat} (h : s.Open b n) (node : Bytes × Nat) :
    (s.push node.1 node.2).Open (b + 1) m ∧ ((backend.view s).put b node).Le (backend.view (s.push node.1 node.2)) := by
  obtain rfl := h.length
  refine ⟨⟨h.level.push _ _, by simp [RedisStorage.push], Nat.le_succ_of_le h.pos⟩, fun i n hi => ?_, rfl, rfl⟩
  rw [Backend.view_nodes]
  simp only [View.put] at hi
  by_cases heq : i = s.branch.length
  · subst heq
    rw [Function.update_self] at hi
    obtain rfl := Option.some.inj hi
    exact getNode_push_last h.level _ _
  · rw [Function.update_of_ne heq, Backend.view_nodes] at hi
    exact getNode_push _ _ hi

theorem view_updateNode {id : Nat} {node : Bytes × Nat} (h : s.getNode id = .ok node) (pfx : Option Bytes) (record : Option Nat) :
    ((backend.view s).put id (updated pfx record node)).Le (backend.view (s.updateNode id pfx record).1) := by
  refine ⟨fun i n hi => ?_, rfl, rfl⟩
  rw [Backend.view_nodes]
  simp only [View.put] at hi
  by_cases heq : i = id
  · subst heq
    rw [Function.update_self] at hi
    obtain rfl := Option.some.inj hi
    exact (getNode_updateNode pfx record h).2
  · rw [Function.update_of_ne heq, Backend.view_nodes] at hi
    exact getNode_updateNode_of_ne pfx record hi heq

theorem Open.updateNode {b n : Nat} (h : s.Open b n) (id : Nat) (pfx : Option Bytes) (record : Option Nat) :
    (s.updateNode id pfx record).1.Open b n :=
  ⟨h.level.commitOp (.updateNode id pfx record), (commitOp_length s (.updateNode id pfx record)).trans h.length, h.pos⟩

theorem commitOp_fits {b : Nat} (h : s.Open b 0) {op : CategoryTxOp} (hfits : (backend.view s).Fits op) :
    ∃ t, (∀ ops, s.commitOps (op :: ops) = t.commitOps ops) ∧ t.Open b 0 ∧ ((backend.view s).apply op).Le (backend.view t) := by
  cases op with
  | addChild parent child =>
    exact ⟨_, fun _ => rfl, ⟨h.level, h.length, h.pos⟩,
      .of_eq (congrArg (View.mk _ · _) (childrenIn_insert s.forward parent child).symm)⟩
  | moveChild from_ to_ child =>
    refine ⟨_, fun _ => rfl, ⟨h.level, h.length, h.pos⟩, .of_eq ?_⟩
    have hchildren := childrenIn_insert (s.forward.erase (from_, child)) to_ child
    rw [childrenIn_erase] at hchildren
    exact congrArg (View.mk _ · _) hchildren.symm
  | updateNode id pfx record =>
    obtain ⟨node, hnode⟩ := Option.isSome_iff_exists.mp (hfits id (by simp [CategoryTxOp.ids]))
    have hget := Backend.view_nodes.mp hnode
    refine ⟨(s.updateNode id pfx record).1, fun ops => ?_, h.updateNode id pfx record, ?_⟩
    · simp only [commitOps, commitOp]
      rw [(getNode_updateNode pfx record hget).1]
      rfl
    · have hle := view_updateNode hget pfx record
      rw [View.apply, hnode]
      exact hle

/-- The ids are the places in the lists. -/
theorem serial : backend.Serial Open where
  start := ⟨rfl, rfl, le_refl 1⟩
  start_view := ⟨nofun, childrenIn_empty.symm, funext fun _ => rfl⟩
  pos _ _ _ h := h.pos
  fresh s b n h id hid := by
    have hbranch : s.branch[id]? = none := List.getElem?_eq_none (h.length ▸ hid)
    simp [Backend.view, backend, getNode, hbranch, Except.toOption]
  nodup _ _ _ _ id := nodup_childrenOf _ id
  txNewNode s b tx pfx record h := by
    refine ⟨?_, ⟨h.level, h.length, h.pos⟩, rfl⟩
    simp only [backend, txNewNode, h.length]
  drop s b n h := ⟨b, le_refl b, ⟨h.level, h.length, h.pos⟩⟩
  commit s b tx h hids hfits := by
    obtain ⟨hopen, hle⟩ := View.puts backend.view (fun s node => s.push node.2.1 node.2.2) Open
      (fun s b n node h hid => hid ▸ (hid ▸ h : s.Open node.1 (n + 1)).push node.2) tx.nodes hids h (.refl _)
    exact View.applies backend.view commitOps (fun s => s.Open (b + tx.nodes.length) 0) (fun _ => rfl)
      (fun s op h hfits => commitOp_fits h hfits) tx.ops hopen hle hfits
  create s b pfx record h := by
    refine ⟨s.push pfx record, ?_, h.push (pfx, record)⟩
    simp [Backend.create, backend, newNode, push, h.length]
  setRoot s b shard root h :=
    ⟨⟨h.level, h.length, h.pos⟩, fun _ _ hid => hid, rfl, (getD_lookup_insert s.endpoint shard root).symm⟩
  updateNode s b id pfx record node h hnode := by
    have hget := Backend.view_nodes.mp hnode
    exact ⟨_, Prod.ext rfl (getNode_updateNode pfx record hget).1, h.updateNode id pfx record, view_updateNode hget pfx record⟩

end RedisStorage

/-- Each of the four serves one caller. -/
theorem Kind.serial : ∀ k : Kind, ∃ Open, k.backend.Serial Open
  | .inMemory => ⟨_, InMemoryCategory.serial⟩
  | .parquet => ⟨_, Store.serial⟩
  | .sqlite => ⟨_, SqliteStorage.serial⟩
  | .redis => ⟨_, RedisStorage.serial⟩

end Opsense
