import Opsense.Radix.Map

/-!
# Shortcuts

A search for an infix begins at the nodes that the shortcuts give for its first element. A split gives the elements of its leg to the
nodes it has made of them, and `insert_chain` writes these and the elements of the node that takes the rest of the key. So after
insertions every node that is found from the roots is among the shortcuts of every element of its piece (`shortcuts_complete`).
-/

namespace Opsense

variable {T : Type} {E : Element T} {σ : Type} {B : Backend σ} {Open : σ → Nat → Nat → Prop} {sharding n b : Nat}
  {s t : Index σ} {has : Nat → T → Prop}

namespace Search

/-- The node is among the shortcuts of the element, or will be when the split events are written. -/
def Has (E : Element T) (n : Nat) (s : Index σ) (id : Nat) (e : T) : Prop :=
  (shardOf E e n, E.encode e, id) ∈ s.shortcuts ∨ (id, E.encode e) ∈ s.pending_split_elems

/-- Every node that is found from the roots has every element of its piece. -/
structure Complete (B : Backend σ) (E : Element T) (Open : σ → Nat → Nat → Prop) (has : Nat → T → Prop) (s : Index σ) (b : Nat) :
    Prop where
  opened : Open s.store b 0
  fresh : ∀ id, b ≤ id → (B.view s.store).children id = ∅
  nodes : ∀ id, Reached B s.store id → id ≠ EMPTY ∧ ∃ piece record,
    (B.view s.store).nodes id = some (E.fromVec piece, record) ∧ ∀ e ∈ piece, has id e

theorem Complete.lt (S : B.Serial Open) (h : Complete B E Open has s b) {id : Nat} (hid : Reached B s.store id) : id < b := by
  obtain ⟨-, piece, record, hnode, -⟩ := h.nodes id hid
  by_contra hle
  rw [S.fresh _ _ _ h.opened id (not_lt.mp hle)] at hnode
  cases hnode

/-- A change that leads from the nodes there were and some new ones to none but these keeps an index complete, when all of them have
their elements after it. -/
theorem complete_of_step {b' : Nat} (new : Nat → Prop) (hopen : Open t.store b' 0)
    (hfresh : ∀ id, b' ≤ id → (B.view t.store).children id = ∅)
    (hroots : ∀ i, (B.view t.store).roots i = (B.view s.store).roots i ∨ new ((B.view t.store).roots i))
    (hchildren : ∀ id, Reached B s.store id ∨ new id → ∀ c ∈ (B.view t.store).children id, Reached B s.store c ∨ new c)
    (hnodes : ∀ id, Reached B s.store id ∨ new id → id ≠ EMPTY ∧ ∃ piece record,
      (B.view t.store).nodes id = some (E.fromVec piece, record) ∧ ∀ e ∈ piece, has id e) : Complete B E Open has t b' := by
  refine ⟨hopen, hfresh, fun id hid => hnodes id ?_⟩
  induction hid with
  | root shard hne =>
    refine (hroots shard).imp_left fun heq => ?_
    have heq : B.getRoot t.store shard = B.getRoot s.store shard := heq
    rw [heq] at hne ⊢
    exact .root shard hne
  | child _ hc ih => exact hchildren _ ih _ (List.mem_toFinset.mpr hc)

theorem reached_child {id c : Nat} (hid : Reached B s.store id) (hc : c ∈ (B.view s.store).children id) : Reached B s.store c :=
  .child hid (List.mem_toFinset.mp hc)

/-- What the insertion of a key leaves: the index as it was, or a node for the rest of the key. -/
def After (B : Backend σ) (E : Element T) (Open : σ → Nat → Nat → Prop) (n : Nat) (key : List T) (s : Index σ) :
    EStateM.Result RadixError (Index σ) (Nat × Nat) → Prop
  | .ok r t => (r.1 = EMPTY ∧ t = s) ∨
      (r.1 ≠ EMPTY ∧ ∃ b, Complete B E Open (fun id e => Has E n t id e ∨ (id = r.1 ∧ e ∈ key.drop r.2)) t b)
  | .error _ t => t = s

variable {key : List T} {first : T} {rest : List T} {x tail : Nat}

theorem Complete.mono {has' : Nat → T → Prop} (h : Complete B E Open has s b) (hstore : t.store = s.store)
    (himp : ∀ id e, has id e → has' id e) : Complete B E Open has' t b := by
  refine ⟨hstore ▸ h.opened, hstore ▸ h.fresh, fun id hid => ?_⟩
  rw [hstore] at hid ⊢
  obtain ⟨hne, piece, record, hnode, hpiece⟩ := h.nodes id hid
  exact ⟨hne, piece, record, hnode, fun e he => himp id e (hpiece e he)⟩

section Steps

variable (S : B.Serial Open)

include S

/-- A node that is extended. -/
theorem extend_complete (h : Complete B E Open has s b) {parent : Nat} (hparent : Reached B s.store parent) (suffix : List T) (x : Nat) :
    ∃ store, Radix.extend B E parent suffix x s = .ok b { s with store } ∧
      Complete B E Open (fun id e => has id e ∨ (id = b ∧ e ∈ suffix)) { s with store } (b + 1) := by
  have hlt := h.lt S hparent
  obtain ⟨-, piece, record, hnode, -⟩ := h.nodes parent hparent
  obtain ⟨store, hextend, hopen, hle⟩ := Radix.extend_eq (E := E) S h.opened (by rw [hnode]; rfl) suffix x
  have hkids : ∀ i, (B.view store).children i =
      Function.update (B.view s.store).children parent (Insert.insert b ((B.view s.store).children parent)) i := fun i =>
    congrFun hle.children.symm i
  refine ⟨store, hextend, complete_of_step (s := s) (fun id => id = b) hopen (fun id hid => ?_)
    (fun i => .inl (congrFun hle.roots.symm i)) ?_ ?_⟩
  · rw [hkids, Function.update_of_ne (by omega), h.fresh id (by omega)]
  · rintro id (hid | rfl) c hc
    · rw [hkids] at hc
      by_cases heq : id = parent
      · subst heq
        rw [Function.update_self, Finset.mem_insert] at hc
        exact hc.symm.imp_left (reached_child hid)
      · rw [Function.update_of_ne heq] at hc
        exact .inl (reached_child hid hc)
    · rw [hkids, Function.update_of_ne (Nat.ne_of_gt hlt), h.fresh id (le_refl id)] at hc
      cases hc
  · rintro id (hid | rfl)
    · obtain ⟨hne, piece, record, hold, hpiece⟩ := h.nodes id hid
      refine ⟨hne, piece, record, hle.nodes id _ ?_, fun e he => .inl (hpiece e he)⟩
      simp only [View.addChild, View.put]
      rwa [Function.update_of_ne (Nat.ne_of_lt (h.lt S hid))]
    · refine ⟨Nat.ne_of_gt (S.pos _ _ _ h.opened), suffix, x, hle.nodes id _ ?_, fun e he => .inr ⟨rfl, he⟩⟩
      simp [View.addChild, View.put]

/-- A root of one element. -/
theorem root_complete (h : Complete B E Open has s b) (shard : Nat) (first : T) (x : Nat) :
    ∃ store, B.create s.store (E.fromVec [first]) x = (store, .ok b) ∧ Reached B (B.setRoot store shard b) b ∧
      Complete B E Open (fun id e => has id e ∨ (id = b ∧ e = first)) { s with store := B.setRoot store shard b } (b + 1) := by
  have hb : b ≠ EMPTY := Nat.ne_of_gt (S.pos _ _ _ h.opened)
  obtain ⟨store, hcreate, hopen, hle⟩ := S.create _ b (E.fromVec [first]) x h.opened
  obtain ⟨hopen, hle'⟩ := S.setRoot store (b + 1) shard b hopen
  have hle := (hle.setRoot shard b).trans hle'
  have hkids : ∀ i, (B.view (B.setRoot store shard b)).children i = (B.view s.store).children i := fun i =>
    congrFun hle.children.symm i
  have hroots : ∀ i, (B.view (B.setRoot store shard b)).roots i = Function.update (B.view s.store).roots shard b i := fun i =>
    congrFun hle.roots.symm i
  refine ⟨store, hcreate, ?_, complete_of_step (s := s) (fun id => id = b) hopen (fun id hid => ?_) (fun i => ?_) ?_ ?_⟩
  · have hroot : B.getRoot (B.setRoot store shard b) shard = b := (hroots shard).trans (Function.update_self _ _ _)
    have hreached := Reached.root (B := B) (s := B.setRoot store shard b) shard (by rw [hroot]; exact hb)
    rwa [hroot] at hreached
  · exact (hkids id).trans (h.fresh id (by omega))
  · dsimp only
    rw [hroots, Function.update_apply]
    split_ifs
    · exact .inr rfl
    · exact .inl rfl
  · rintro id (hid | rfl) c hc
    · exact .inl (reached_child hid (hkids id ▸ hc))
    · have hnone := (hkids id).trans (h.fresh id (le_refl id))
      dsimp only at hc
      rw [hnone] at hc
      cases hc
  · rintro id (hid | rfl)
    · obtain ⟨hne, piece, record, hold, hpiece⟩ := h.nodes id hid
      refine ⟨hne, piece, record, hle.nodes id _ ?_, fun e he => .inl (hpiece e he)⟩
      simp only [View.setRoot, View.put]
      rwa [Function.update_of_ne (Nat.ne_of_lt (h.lt S hid))]
    · exact ⟨hb, [first], x, hle.nodes id _ (by simp [View.setRoot, View.put]), fun e he => .inr ⟨rfl, List.mem_singleton.mp he⟩⟩

variable (h : Complete B E Open (Has E n s) s b)

include h

/-- The end of `insert`. -/
theorem after_newRoot (hn : (trie (T := T) E sharding).sharding = n) :
    After B E Open n (first :: rest) s ((trie E sharding).newRoot B E first rest x s) := by
  have hb : b ≠ EMPTY := Nat.ne_of_gt (S.pos _ _ _ h.opened)
  unfold Radix.newRoot
  rw [hn]
  by_cases hrest : rest ≠ []
  · obtain ⟨store, hcreate, hroot, hcomplete⟩ := root_complete S h (shardOf E first n) first EMPTY
    obtain ⟨store', hextend, hcomplete'⟩ := extend_complete S hcomplete hroot rest x
    have hset : Index.setRoot B (shardOf E first n) b { s with store } =
      .ok () { s with store := B.setRoot store (shardOf E first n) b } := rfl
    rw [if_pos hrest, Radix.bind_ok (Radix.run_ok hcreate), Radix.bind_ok hset, Radix.bind_ok hextend]
    refine .inr ⟨Nat.succ_ne_zero b, b + 2, hcomplete'.mono rfl ?_⟩
    rintro id e ((hhas | ⟨rfl, rfl⟩) | hnew)
    · exact .inl (hhas.imp_left (Finset.mem_insert_of_mem ·))
    · exact .inl (.inl (Finset.mem_insert_self _ _))
    · exact .inr hnew
  · obtain ⟨store, hcreate, hroot, hcomplete⟩ := root_complete S h (shardOf E first n) first x
    rw [if_neg hrest, Radix.bind_ok (Radix.run_ok hcreate)]
    refine .inr ⟨hb, b + 1, hcomplete.mono rfl ?_⟩
    rintro id e (hhas | ⟨rfl, rfl⟩)
    · exact .inl hhas
    · exact .inr ⟨rfl, List.mem_cons_self⟩

theorem after_extend {parent : Nat} (hparent : Reached B s.store parent) (suffix : List T) (hsuffix : suffix = key.drop tail) :
    After B E Open n key s ((Radix.extend B E parent suffix x >>= fun id => pure (id, tail)) s) := by
  subst hsuffix
  obtain ⟨store, hextend, hcomplete⟩ := extend_complete S h hparent (key.drop tail) x
  rw [Radix.bind_ok hextend]
  exact .inr ⟨Nat.ne_of_gt (S.pos _ _ _ h.opened), b + 1, hcomplete⟩

/-- A node that is divided. -/
theorem after_split {parent record : Nat} {piece : List T} (hparent : Reached B s.store parent)
    (hnode : (B.view s.store).nodes parent = some (E.fromVec piece, record)) (hpiece : ∀ e ∈ piece, Has E n s parent e)
    (c : Nat) {suffix : List T} (hsuffix : ∀ e ∈ suffix, e ∈ key.drop tail) :
    After B E Open n key s (((trie E sharding).split B E parent c suffix x >>= fun id => pure (id, tail)) s) := by
  have hlt := h.lt S hparent
  obtain ⟨e, store, b', ⟨cb, hcb, p, l, o, k, hrefuse⟩, -⟩ | ⟨new, leg, store, pending, b', hsplit, ⟨store', hfire⟩, hopen, hd⟩ :=
    Radix.split_eq (R := trie E sharding) S h.opened h.fresh hnode hlt c suffix x
  · obtain rfl := Option.some.inj hcb
    cases hrefuse
  · obtain rfl : s.pending_split_elems ++ (piece.drop c).map (fun e => (leg, E.encode e)) = pending := by
      simpa [Radix.fireSplit, trie, modify, modifyGet, MonadStateOf.modifyGet, EStateM.modifyGet] using hfire
    rw [Radix.bind_ok hsplit]
    have hone := S.pos _ _ _ h.opened
    have hnew : new ≠ EMPTY ∧ (new = parent ∨ (suffix ≠ [] ∧ b ≤ new ∧ new ≠ leg)) := by
      by_cases hs : suffix = []
      · rw [hd.new_eq hs]
        exact ⟨(h.nodes parent hparent).1, .inl rfl⟩
      · exact ⟨Nat.ne_of_gt (lt_of_lt_of_le hone (hd.new_le hs).1), .inr ⟨hs, hd.new_le hs⟩⟩
    have hleg := hd.leg_le
    refine .inr ⟨hnew.1, b', complete_of_step (fun id => id = leg ∨ (id = new ∧ suffix ≠ [])) hopen hd.fresh
      (fun i => .inl (congrFun hd.roots i)) ?_ ?_⟩
    · rintro id (hid | rfl | ⟨rfl, hs⟩) c' hc
      · by_cases heq : id = parent
        · subst heq
          rw [hd.parent_children] at hc
          split_ifs at hc with hs
          · exact .inr (.inl (Finset.mem_singleton.mp hc))
          · obtain rfl | hc := Finset.mem_insert.mp hc
            · exact .inr (.inl rfl)
            · exact .inr (.inr ⟨Finset.mem_singleton.mp hc, hs⟩)
        · rw [hd.off.children id (by simpa using heq) (h.lt S hid)] at hc
          exact .inl (reached_child hid hc)
      · rw [hd.leg_children] at hc
        exact .inl (reached_child hparent hc)
      · rw [hd.new_children hs] at hc
        cases hc
    · rintro id (hid | rfl | ⟨rfl, hs⟩)
      · obtain ⟨hne, piece', record', hold, hhas⟩ := h.nodes id hid
        refine ⟨hne, ?_⟩
        by_cases heq : id = parent
        · subst heq
          exact ⟨_, _, hd.parent_node, fun e he => .inl ((hpiece e (List.mem_of_mem_take he)).imp_right (List.mem_append_left _))⟩
        · exact ⟨piece', record', hd.off.nodes id _ (by simpa using heq) (h.lt S hid) hold,
            fun e he => .inl ((hhas e he).imp_right (List.mem_append_left _))⟩
      · exact ⟨Nat.ne_of_gt (lt_of_lt_of_le hone hleg), _, _, hd.leg_node,
          fun e he => .inl (.inr (List.mem_append_right _ (List.mem_map.mpr ⟨e, he, rfl⟩)))⟩
      · exact ⟨hnew.1, _, _, hd.new_node hs, fun e he => .inr ⟨rfl, hsuffix e he⟩⟩

/-- A node that is filled. -/
theorem after_fill {id : Nat} (hid : Reached B s.store id) :
    After B E Open n key s
      ((Index.run (fun s => B.updateNode s id none (some x)) >>= fun _ => pure (id, tail) : IndexM σ RadixError (Nat × Nat)) s) := by
  obtain ⟨hne, piece, record, hnode, hpiece⟩ := h.nodes id hid
  obtain ⟨store, hupdate, hopen, hle⟩ := S.updateNode _ b id none (some x) _ h.opened hnode
  rw [Radix.bind_ok (Radix.run_ok hupdate)]
  have hkids : ∀ i, (B.view store).children i = (B.view s.store).children i := fun i => congrFun hle.children.symm i
  refine .inr ⟨hne, b, complete_of_step (fun _ => False) hopen (fun i hi => (hkids i).trans (h.fresh i hi))
    (fun i => .inl (congrFun hle.roots.symm i)) ?_ ?_⟩
  · rintro i (hi | hi) c hc
    · exact .inl (reached_child hi (hkids i ▸ hc))
    · exact hi.elim
  · rintro i (hi | hi)
    · obtain ⟨hne', piece', record', hold, hhas⟩ := h.nodes i hi
      by_cases heq : i = id
      · subst heq
        exact ⟨hne, piece, x, hle.nodes i _ (by simp [View.put, updated]), fun e he => .inl (hpiece e he)⟩
      · exact ⟨hne', piece', record', hle.nodes i _ (by simp only [View.put]; rwa [Function.update_of_ne heq]),
          fun e he => .inl (hhas e he)⟩
    · exact hi.elim

end Steps

/-- What is asked of the storage is answered, or the call ends there. -/
theorem after_ask {α : Type} {f : σ → Except StorageError α} {g : α → IndexM σ RadixError (Nat × Nat)}
    (h : ∀ a, f s.store = .ok a → After B E Open n key s (g a s)) : After B E Open n key s ((Index.ask f >>= g) s) := by
  cases ha : f s.store with
  | error e =>
    have hask : Index.ask f s = .error (.categoryStorage e) s := by simp [Index.ask, ha]
    rw [Radix.bind_error hask]
    rfl
  | ok a =>
    rw [Radix.bind_ok (Radix.ask_ok ha)]
    exact h a ha

theorem mem_shortcuts {α : Type} (g : α → Nat × Bytes × Nat) (elems : List α) (s : Index σ) (x : Nat × Bytes × Nat) :
    x ∈ (elems.foldl (fun s a => s.addShortcutNode (g a).1 (g a).2.1 (g a).2.2) s).shortcuts ↔ x ∈ s.shortcuts ∨ x ∈ elems.map g := by
  induction elems generalizing s with
  | nil => simp
  | cons a elems ih =>
    rw [List.foldl_cons, ih, List.map_cons, List.mem_cons]
    simp [Index.addShortcutNode]
    tauto

/-- What `insert_chain` writes completes the index. -/
theorem written_complete {index node_id : Nat}
    (h : Complete B E Open (fun id e => Has E n s id e ∨ (id = node_id ∧ e ∈ key.drop tail)) s b)
    (hw : written E n key index node_id tail s = .ok () t) : t.pending_split_elems = [] ∧ Complete B E Open (Has E n t) t b := by
  unfold written at hw
  dsimp only at hw
  split_ifs at hw
  have ht := (EStateM.Result.ok.inj hw).2
  obtain ⟨hstore, hpending⟩ := shortcuts_rest (fun p : Nat × Bytes => (shardOf E (E.decode p.2) n, p.2, p.1)) s.pending_split_elems
    { s with pending_split_elems := [] }
  have hsplit := mem_shortcuts (fun p : Nat × Bytes => (shardOf E (E.decode p.2) n, p.2, p.1)) s.pending_split_elems
    { s with pending_split_elems := [] }
  generalize s.pending_split_elems.foldl (fun (s : Index σ) elem => s.addShortcutNode (shardOf E (E.decode elem.2) n) elem.2 elem.1)
    { s with pending_split_elems := [] } = u at ht hstore hpending hsplit
  obtain ⟨hstore', hpending'⟩ := shortcuts_rest (fun e : T => (shardOf E e n, E.encode e, node_id)) (key.drop tail)
    { u with key_lens := u.key_lens.insert index key.length, chains := u.chains.insert index (key.map fun e => chainElem (E.encode e)) }
  have hrest := mem_shortcuts (fun e : T => (shardOf E e n, E.encode e, node_id)) (key.drop tail)
    { u with key_lens := u.key_lens.insert index key.length, chains := u.chains.insert index (key.map fun e => chainElem (E.encode e)) }
  rw [ht] at hstore' hpending' hrest
  refine ⟨hpending'.trans hpending, h.mono (hstore'.trans hstore) ?_⟩
  rintro id e ((hhas | hhas) | ⟨rfl, he⟩) <;> refine .inl ((hrest _).mpr ?_)
  · exact .inl ((hsplit _).mpr (.inl hhas))
  · exact .inl ((hsplit _).mpr (.inr (List.mem_map.mpr ⟨_, hhas, by simp [E.decode_encode]⟩)))
  · exact .inr (List.mem_map.mpr ⟨e, he, rfl⟩)

/-- Nothing waits to be written, and every node is among the shortcuts of its elements. -/
def Shortcutted (B : Backend σ) (E : Element T) (Open : σ → Nat → Nat → Prop) (n : Nat) (s : Index σ) : Prop :=
  s.pending_split_elems = [] ∧ ∃ b, Complete B E Open (Has E n s) s b

theorem shortcutted_new (S : B.Serial Open) : Shortcutted B E Open n (Index.new B) := by
  have hroots : ∀ i, B.getRoot B.new i = EMPTY := fun i => congrFun S.start_view.roots.symm i
  have hchildren : ∀ id, (B.view B.new).children id = ∅ := fun id => congrFun S.start_view.children.symm id
  refine ⟨rfl, 1, S.start, fun id _ => hchildren id, fun id hid => ?_⟩
  cases hid with
  | root shard hne => exact absurd (hroots shard) hne
  | child _ hc =>
    have hmem : _ ∈ (B.view B.new).children _ := List.mem_toFinset.mpr hc
    rw [hchildren] at hmem
    cases hmem

section Runs

variable [DecidableEq T]

theorem findChild_mem {a : T} {st : σ} {cs : List Nat} {c : Nat} (h : Radix.findChild B E a st cs = .ok (some c)) : c ∈ cs := by
  induction cs with
  | nil => cases h
  | cons child cs ih =>
    unfold Radix.findChild at h
    split at h
    · cases h
    · split_ifs at h
      · obtain rfl := Option.some.inj (Except.ok.inj h)
        exact List.mem_cons_self
      · exact List.mem_cons_of_mem _ (ih h)

/-- The loop of `insert`, from a node that is found. -/
theorem after_insertFrom (S : B.Serial Open) (hn : (trie (T := T) E sharding).sharding = n)
    (h : Complete B E Open (Has E n s) s b) (fuel : Nat) {node_id : Nat} (hid : node_id ≠ EMPTY → Reached B s.store node_id)
    (tail : Nat) : After B E Open n (first :: rest) s ((trie E sharding).insertFrom B E first rest x fuel node_id tail s) := by
  induction fuel generalizing node_id tail with
  | zero => rfl
  | succ fuel ih =>
    unfold Radix.insertFrom
    split_ifs with hne
    · exact after_newRoot S h hn
    · have hid := hid hne
      obtain ⟨-, piece, record, hnode, hpiece⟩ := h.nodes node_id hid
      refine after_ask fun node hask => ?_
      obtain rfl := Except.ok.inj (hask.symm.trans (Backend.view_nodes.mp hnode))
      dsimp only
      rw [E.toVec_fromVec]
      by_cases hc : common piece ((first :: rest).drop tail) < piece.length
      · rw [if_pos hc]
        refine after_split S h hid hnode hpiece _ fun e he => ?_
        rw [← List.drop_drop] at he
        exact List.mem_of_mem_drop he
      · rw [if_neg hc]
        cases hrest : (first :: rest).drop (tail + common piece ((first :: rest).drop tail)) with
        | nil =>
          dsimp only
          split_ifs
          · exact after_fill S h hid
          · exact .inl ⟨rfl, rfl⟩
        | cons next_elem elems =>
          refine after_ask fun children hchildren => after_ask fun child hchild => ?_
          obtain rfl := Except.ok.inj hchildren
          cases child with
          | none => exact after_extend S h hid _ hrest.symm
          | some child => exact ih (fun _ => .child hid (findChild_mem hchild)) _

/-- `insert` -/
theorem after_insert (S : B.Serial Open) (hn : (trie (T := T) E sharding).sharding = n) (h : Complete B E Open (Has E n s) s b)
    (index : Nat) (metas : List (Option Bytes)) :
    ∃ node_metas, After B E Open n key { s with node_metas } ((trie E sharding).insert B E key index metas s) := by
  unfold Radix.insert
  by_cases hindex : index = EMPTY
  · rw [if_pos hindex]
    exact ⟨s.node_metas, rfl⟩
  · rw [if_neg hindex]
    cases key with
    | nil => exact ⟨s.node_metas, rfl⟩
    | cons first rest =>
      have hgo : ∀ node_metas, After B E Open n (first :: rest) { s with node_metas }
          ((Index.ask (fun s => .ok (B.getRoot s (shardOf E first (trie (T := T) E sharding).sharding))) >>= fun node_id =>
            (trie E sharding).insertFrom B E first rest index ((first :: rest).length + 1) node_id 0) { s with node_metas }) := by
        refine fun node_metas => after_ask fun root hroot => ?_
        have h : Complete B E Open (Has E n { s with node_metas }) { s with node_metas } b := h.mono rfl fun _ _ => id
        refine after_insertFrom S hn h _ (fun hne => ?_) 0
        obtain rfl := Except.ok.inj hroot
        exact .root _ hne
      dsimp only
      split_ifs
      · obtain ⟨node_metas, hok⟩ | ⟨e, node_metas, herr, -⟩ :=
          Radix.fireNodes_eq (R := trie E sharding) (E := E) ((first :: rest).zip metas) s
        · exact ⟨node_metas, by rw [Radix.bind_ok hok]; exact hgo node_metas⟩
        · exact ⟨node_metas, by rw [Radix.bind_error herr]; rfl⟩
      · exact ⟨s.node_metas, hgo s.node_metas⟩

theorem shortcutted_next (S : B.Serial Open) (hn : (trie (T := T) E sharding).sharding = n) (h : Shortcutted B E Open n s)
    (a : Radix.Insertion T) (hout : (machine B E sharding).out s a ≠ .panicked) :
    Shortcutted B E Open n ((machine B E sharding).next s a) := by
  obtain ⟨hpending, b, h⟩ := h
  obtain ⟨key, index, metas⟩ := a
  have hsame : ∀ node_metas, Shortcutted B E Open n { s with node_metas } := fun node_metas => ⟨hpending, b, h.mono rfl fun _ _ => id⟩
  revert hout
  simp only [Machine.out, Machine.next, machine, insertChain]
  cases key with
  | nil => exact fun _ => ⟨hpending, b, h⟩
  | cons first rest =>
    obtain ⟨node_metas, hafter⟩ : ∃ node_metas, After B E Open n (first :: rest) { s with node_metas }
        ((trie E sharding).insert B E (first :: rest) index metas s) := after_insert S hn h index metas
    dsimp only
    generalize (trie E sharding).insert B E (first :: rest) index metas s = r at hafter
    cases r with
    | error e t =>
      obtain rfl := hafter
      intro _
      cases e <;> exact hsame node_metas
    | ok r t =>
      dsimp only
      obtain ⟨hempty, rfl⟩ | ⟨hne, b', hcomplete⟩ := hafter
      · rw [if_pos hempty]
        refine fun _ => ⟨rfl, b, h.mono rfl fun id e => ?_⟩
        rintro (hhas | hhas)
        · exact .inl hhas
        · rw [hpending] at hhas
          cases hhas
      · rw [if_neg hne, hn]
        cases hw : written E n (first :: rest) index r.1 r.2 t with
        | ok _ u =>
          intro _
          obtain ⟨hpending', hcomplete'⟩ := written_complete hcomplete hw
          exact ⟨hpending', b', hcomplete'⟩
        | error e u =>
          obtain ⟨u', hu | hu, -⟩ := written_eq (E := E) n (first :: rest) index r.1 r.2 t
          · rw [hw] at hu
            cases hu
          · obtain rfl := (EStateM.Result.error.inj (hw.symm.trans hu)).1
            exact fun hout => absurd rfl hout

/-- No insertion panics when a buffer takes the elements. -/
theorem not_panicked (hsize : E.byte_size ≤ 8) (s : Index σ) (a : Radix.Insertion T) : (machine B E sharding).out s a ≠ .panicked := by
  simp only [Machine.out, machine, insertChain]
  cases a.key with
  | nil => intro h; cases h
  | cons first rest =>
    dsimp only
    cases (trie E sharding).insert B E (first :: rest) a.index a.node_metas s with
    | error e t => cases e <;> (intro h; cases h)
    | ok r t =>
      dsimp only
      split_ifs
      · intro h; cases h
      · rw [written, if_neg (by omega)]
        intro h; cases h

end Runs

end Search

/-- After insertions, on every backend, every node that is found from the roots is among the shortcuts of every element of its piece, in
the shard of the element. The elements have up to eight bytes, or no insertion panicked for their size. -/
theorem shortcuts_complete [DecidableEq T] (k : Kind) (E : Element T) (sharding : Nat) (as : List (Radix.Insertion T))
    (hruns : E.byte_size ≤ 8 ∨ (Search.machine k.backend E sharding).Along
      (fun s a => (Search.machine k.backend E sharding).out s a ≠ .panicked) as) (id : Nat)
    (hid : Reached k.backend ((Search.machine k.backend E sharding).state as).store id) (node : Bytes × Nat)
    (hnode : k.backend.getNode ((Search.machine k.backend E sharding).state as).store id = .ok node) (e : T) (he : e ∈ E.toVec node.1) :
    (shardOf E e (Search.trie (T := T) E sharding).sharding, E.encode e, id) ∈
      ((Search.machine k.backend E sharding).state as).shortcuts := by
  obtain ⟨Open, S⟩ := k.serial
  have halong : (Search.machine k.backend E sharding).Along (fun s a => (Search.machine k.backend E sharding).out s a ≠ .panicked) as :=
    hruns.elim (fun hsize _ _ _ => Search.not_panicked hsize _ _) fun h => h
  obtain ⟨hpending, b, h⟩ := Machine.invariant_of_along (I := Search.Shortcutted k.backend E Open _) (Search.shortcutted_new S)
    (fun s a hs hout => Search.shortcutted_next S rfl hs a hout) as halong
  obtain ⟨-, piece, record, hpiece, hhas⟩ := h.nodes id hid
  obtain rfl := Except.ok.inj (hnode.symm.trans (Backend.view_nodes.mp hpiece))
  rw [E.toVec_fromVec] at he
  obtain hin | hin := hhas e he
  · exact hin
  · rw [hpending] at hin
    cases hin

/-- The root that a second key divides. -/
theorem shortcuts_complete_divided :
    (shardOf (Element.int false 1 (by decide)) 97 1, [97], 1) ∈
      ((Search.machine Kind.inMemory.backend (Element.int false 1 (by decide)) 1).state
        [⟨[97, 98], 1, []⟩, ⟨[97, 99], 2, []⟩]).shortcuts := by
  have hroot : Kind.inMemory.backend.getRoot ((Search.machine Kind.inMemory.backend (Element.int false 1 (by decide)) 1).state
      [⟨[97, 98], 1, []⟩, ⟨[97, 99], 2, []⟩]).store (shardOf (Element.int false 1 (by decide)) 97 1) = 1 := by decide +kernel
  have hid := Reached.root (B := Kind.inMemory.backend) _ (by rw [hroot]; decide)
  rw [hroot] at hid
  exact shortcuts_complete .inMemory (Element.int false 1 (by decide)) 1 [⟨[97, 98], 1, []⟩, ⟨[97, 99], 2, []⟩] (.inl (by decide)) 1
    hid ([97], 0) (by decide +kernel) 97 (by decide +kernel)

end Opsense
