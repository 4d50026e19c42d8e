import Opsense.Lib.ForestTrails
import Opsense.Radix.Bloom
import Opsense.Radix.Map

/-!
# The filters of the nodes

With the feature `bloom-search`, `insert` of `opsense-mlib/src/radix.rs` ends with `maintain_bloom`, which adds the short substrings
of the key to the filter of every node on its way, and begins a filter where a node has none. A filter that a node has says yes of
all short substrings of the keys through the node (`Filled`), as long as no insertion goes by a node without a filter
(`Filled.step`): the leg of a split is such a node, and a filter that is begun there has only the key that comes by.
-/

namespace Opsense

namespace BloomCfg

/-- `bloom_cfg::SIZE` -/
abbrev SIZE : Nat := 4096

/-- `bloom_cfg::K` -/
abbrev K : Nat := 10

/-- `bloom_cfg::MATCH_CAP` -/
abbrev MATCH_CAP : Nat := 16

end BloomCfg

/-- An index with the filters of its nodes, as they are written. `set_node_bloom` and `get_node_bloom` are the same in every backend. -/
structure Filtered (σ : Type) where
  index : Index σ
  node_blooms : Table Nat Bytes

/-- The filter of a node, if there is one that can be read. -/
def readBloom (blooms : Table Nat Bytes) (id : Nat) : Option BloomFilter := (blooms.lookup id).bind BloomFilter.deserialize

namespace Radix

variable {σ T : Type} [DecidableEq T] (B : Backend σ) (E : Element T) (R : Radix T)

/-- The loop of `follow_path_with_bloom`. Each turn after the first takes an element, so `fuel` is never used up. -/
def followFrom (s : σ) (key : List T) : Nat → Nat → Nat → Except StorageError (List Nat)
  | 0, _, _ => .ok []
  | fuel + 1, node_id, pos =>
    match B.getNode s node_id with
    | .error e => .error e
    | .ok node =>
      let node_prefix := E.toVec node.1
      let c := common node_prefix (key.drop pos)
      if pos + c = key.length ∨ c < node_prefix.length then .ok [node_id]
      else
        match key[pos + c]? with
        | none => .ok [node_id]
        | some next_elem =>
          match findChild B E next_elem s (B.getChildren s node_id) with
          | .error e => .error e
          | .ok none => .ok [node_id]
          | .ok (some child) => (followFrom s key fuel child (pos + c)).map (node_id :: ·)

/-- `follow_path_with_bloom` -/
def followPath (s : σ) (key : List T) : Except StorageError (List Nat) :=
  match key with
  | [] => .ok []
  | first :: _ =>
    let node_id := B.getRoot s (shardOf E first R.sharding)
    if node_id = EMPTY then .ok [] else followFrom B E s key (key.length + 1) node_id 0

/-- The substrings of `maintain_bloom`, of an encoded key of `elem_len` elements of `bs` bytes. -/
def substrings (enc : Bytes) (bs elem_len : Nat) : List Bytes :=
  let cap := min BloomCfg.MATCH_CAP elem_len
  (List.range elem_len).flatMap fun start =>
    ((List.range' (start + 1) cap).takeWhile (· ≤ elem_len)).map fun stop => (enc.drop (start * bs)).take ((stop - start) * bs)

/-- A turn of the last loop of `maintain_bloom`. -/
def addBloom (subs : List Bytes) (blooms : Table Nat Bytes) (node_id : Nat) : Table Nat Bytes :=
  let bf := (readBloom blooms node_id).getD (BloomFilter.new BloomCfg.SIZE BloomCfg.K)
  blooms.insert node_id (subs.foldl BloomFilter.insert bf).serialize

def maintainBloom (key : List T) : EStateM RadixError (Filtered σ) Unit := fun s =>
  if key = [] then .ok () s
  else
    let enc := E.fromVec key
    let bs := E.byte_size
    let elem_len := enc.length / bs
    if elem_len = 0 then .ok () s
    else
      match R.followPath B E s.index.store key with
      | .error e => .error (.categoryStorage e) s
      | .ok path => .ok () { s with node_blooms := path.foldl (addBloom (substrings enc bs elem_len)) s.node_blooms }

/-- `insert` with the feature `bloom-search`. -/
def insertFiltered (pfx : List T) (index : Nat) (node_metas : List (Option Bytes)) : EStateM RadixError (Filtered σ) (Nat × Nat) :=
  fun s =>
    match R.insert B E pfx index node_metas s.index with
    | .error e t => .error e { s with index := t }
    | .ok r t =>
      -- every way out but that of a key that is there comes after `maintain_bloom`
      if r.1 = EMPTY then .ok r { s with index := t }
      else
        match R.maintainBloom B E pfx { s with index := t } with
        | .error e t => .error e t
        | .ok () t => .ok r t

/-- `Radix` over its insertions, with the feature `bloom-search`. -/
def filteredMachine : Machine (Filtered σ) (Insertion T) Answer :=
  ⟨⟨Index.new B, ∅⟩, fun s a =>
    match R.insertFiltered B E a.key a.index a.node_metas s with
    | .ok r t => (t, if r.1 = EMPTY then .duplicate else .stored)
    | .error _ t => (t, .rejected)⟩

/-- An insertion that stores its key goes by no node without a filter. -/
def goesByFilters (s : Filtered σ) (a : Insertion T) : Bool :=
  match R.insert B E a.key a.index a.node_metas s.index with
  | .error _ _ => true
  | .ok r _ =>
    r.1 == EMPTY ||
      match R.followPath B E s.index.store a.key with
      | .error _ => true
      | .ok path => path.all fun id => (s.node_blooms.lookup id).isSome

/-! ## The way of a key -/

variable {B E R} {s : σ} {v : View} {b id : Nat} {key k piece : List T} {value : Option Nat} {below : Forest Nat T Nat}

/-- A key whose first element begins a tree goes through that tree. -/
theorem followFrom_forest (key : List T) (fuel pos : Nat)
    (htree : ∀ id piece value below, Planted E (B.view s) b (.tree id piece value below) → below.Wf →
      k.length + 1 ≤ fuel + common piece k → followFrom B E s key fuel id pos = .ok (Forest.trailFrom id piece below k))
    {f : Forest Nat T Nat} (hk : Planted E (B.view s) b f) (hwf : f.Wf) {a : T} (ha : k.head? = some a) (hfuel : k.length ≤ fuel)
    {c : Nat} (hc : f.top? a = some c) : followFrom B E s key fuel c pos = .ok (f.trail k) := by
  induction f with
  | nil => cases hc
  | node id piece value below beside _ ihbeside =>
    rw [Forest.trail_node, ha]
    unfold Forest.top? at hc
    split_ifs at hc ⊢ with hhead
    · obtain rfl := Option.some.inj hc
      have hpos := Forest.common_pos hwf.1 (hhead.trans ha.symm)
      exact htree id piece value below hk.tree hwf.2.2.1 (by omega)
    · exact ihbeside hk.forest_beside hwf.2.2.2 hc

/-- The loop of `follow_path_with_bloom`, from a node on. -/
theorem followFrom_tree (hk : Planted E (B.view s) b (.tree id piece value below)) (hwf : below.Wf) {pos : Nat}
    (hpos : key.drop pos = k) (hle : pos ≤ key.length) {fuel : Nat} (hfuel : k.length + 1 ≤ fuel + common piece k) :
    followFrom B E s key fuel id pos = .ok (Forest.trailFrom id piece below k) := by
  induction fuel generalizing k pos id piece value below with
  | zero =>
    have := common_le_right piece k
    omega
  | succ fuel ih =>
    have hdrop : ∀ c, key.drop (pos + c) = k.drop c := by
      intro c
      rw [← hpos, List.drop_drop]
    have hlen : k.length = key.length - pos := by rw [← hpos, List.length_drop]
    have hget := Backend.view_nodes.mp hk.holds.1
    have hright := common_le_right piece k
    simp only [followFrom, hget, E.toVec_fromVec, hpos]
    unfold Forest.trailFrom
    by_cases hc : common piece k < piece.length
    · rw [if_pos (Or.inr hc), if_pos hc]
    · rw [if_neg hc]
      cases hrest : k.drop (common piece k) with
      | nil =>
        have hall : pos + common piece k = key.length := by
          have := List.drop_eq_nil_iff.mp hrest
          omega
        rw [if_pos (Or.inl hall), Forest.trail_nil hwf]
      | cons a elems =>
        have hlt : common piece k < k.length := by
          by_contra hge
          rw [List.drop_eq_nil_of_le (not_lt.mp hge)] at hrest
          cases hrest
        have hnext : key[pos + common piece k]? = some a := by
          rw [← List.head?_drop, hdrop, hrest]
          rfl
        rw [if_neg (by omega)]
        simp only [hnext, findChild_below hk hwf a]
        have hhead : (k.drop (common piece k)).head? = some a := by
          rw [hrest]
          rfl
        rw [← hrest]
        cases htop : below.top? a with
        | none => rw [Forest.trail_of_not_mem (hhead ▸ Forest.top?_none.mp htop)]
        | some c =>
          have hsub := followFrom_forest (E := E) key fuel (pos + common piece k) (k := k.drop (common piece k))
            (fun id piece value below hk hwf hfuel => ih hk hwf (hdrop _) (by omega) hfuel) hk.forest_below hwf hhead
            (by rw [List.length_drop]; omega) htop
          simp only [hsub]
          rfl

end Radix

/-- The way of a key in the tree of its shard. -/
def Forest.rootTrail {T : Type} [DecidableEq T] (key : List T) : Forest Nat T Nat → List Nat
  | .nil => []
  | .node id piece _ below _ => trailFrom id piece below key

variable {σ T : Type} [DecidableEq T] {B : Backend σ} {E : Element T} {R : Radix T} {Open : σ → Nat → Nat → Prop} {s : Index σ}
  {b i : Nat} {trees : Nat → Forest Nat T Nat} {stored : List (List T × Nat)} {key : List T}

/-- `follow_path_with_bloom` gives the way of the key. -/
theorem Trees.followPath (h : Trees B E R Open s b trees stored) (hi : shardKey E R key = some i) :
    R.followPath B E s.store key = .ok ((trees i).rootTrail key) := by
  cases key with
  | nil => cases hi
  | cons first rest =>
    obtain rfl : shardOf E first R.sharding = i := Option.some.inj hi
    have hrooted := h.rooted (shardOf E first R.sharding)
    have hplanted := h.planted (shardOf E first R.sharding)
    change Rooted _ (B.getRoot s.store (shardOf E first R.sharding)) at hrooted
    unfold Radix.followPath
    dsimp only
    generalize B.getRoot s.store (shardOf E first R.sharding) = root at hrooted
    generalize trees (shardOf E first R.sharding) = tree at hrooted hplanted
    cases hrooted with
    | nil => rw [if_pos rfl]; rfl
    | tree hwf =>
      rw [if_neg (hplanted.pos _ List.mem_cons_self)]
      exact Radix.followFrom_tree hplanted hwf (List.drop_zero) (Nat.zero_le _) (by omega)

/-! ## The substrings of a key -/

theorem Element.take_fromVec {T : Type} (E : Element T) (pfx : List T) (i : Nat) :
    (E.fromVec pfx).take (i * E.byte_size) = E.fromVec (pfx.take i) := by
  have hsplit : E.fromVec pfx = E.fromVec (pfx.take i) ++ E.fromVec (pfx.drop i) := by
    unfold Element.fromVec
    rw [← List.flatMap_append, List.take_append_drop]
  by_cases hi : i ≤ pfx.length
  · rw [hsplit]
    exact List.take_left' (by rw [E.length_fromVec, List.length_take, min_eq_left hi])
  · have hlen : (E.fromVec pfx).length ≤ i * E.byte_size := by
      rw [E.length_fromVec]
      exact Nat.mul_le_mul_right _ (by omega)
    rw [List.take_of_length_le hlen, List.take_of_length_le (by omega)]

theorem mem_takeWhile_range' {a n m stop : Nat} (hmem : stop ∈ List.range' a n) (hle : stop ≤ m) :
    stop ∈ (List.range' a n).takeWhile (· ≤ m) := by
  induction n generalizing a with
  | zero => cases hmem
  | succ n ih =>
    have ha : a ≤ m := (List.mem_range'_1.mp hmem).1.trans hle
    rw [List.range'_succ] at hmem ⊢
    rw [List.takeWhile_cons_of_pos (by simpa using ha)]
    rcases List.mem_cons.mp hmem with rfl | hmem
    · exact List.mem_cons_self
    · exact List.mem_cons_of_mem _ (ih hmem)

omit [DecidableEq T] in
/-- The short substrings of a key are among those that go into the filters. -/
theorem mem_substrings {sub : List T} (h : sub <:+: key) (hne : sub ≠ []) (hlen : sub.length ≤ BloomCfg.MATCH_CAP) :
    E.fromVec sub ∈ Radix.substrings (E.fromVec key) E.byte_size key.length := by
  obtain ⟨before, after, rfl⟩ := h
  have hpos : 0 < sub.length := List.length_pos_of_ne_nil hne
  have hall : (before ++ sub ++ after).length = before.length + sub.length + after.length := by
    simp only [List.length_append]
  unfold Radix.substrings
  rw [List.mem_flatMap]
  refine ⟨before.length, List.mem_range.mpr (by omega), List.mem_map.mpr ⟨before.length + sub.length, ?_, ?_⟩⟩
  · refine mem_takeWhile_range' (List.mem_range'_1.mpr ⟨by omega, ?_⟩) (by omega)
    have hcap : sub.length ≤ min BloomCfg.MATCH_CAP (before ++ sub ++ after).length := le_min hlen (by omega)
    omega
  · rw [E.drop_fromVec, E.take_fromVec, Nat.add_sub_cancel_left, List.append_assoc, List.drop_left, List.take_left]

/-! ## The filters -/

/-- A filter that the node has says yes of the bytes. -/
def Admits (blooms : Table Nat Bytes) (id : Nat) (data : Bytes) : Prop :=
  ∀ bf, readBloom blooms id = some bf → bf.contains data = true

/-- Every filter that is written can be read. -/
def Readable (blooms : Table Nat Bytes) : Prop :=
  ∀ id, (blooms.lookup id).isSome → ∃ bf, readBloom blooms id = some bf ∧ bf.Wf

theorem BloomFilter.wf_new : (BloomFilter.new BloomCfg.SIZE BloomCfg.K).Wf := by
  refine ⟨?_, ?_⟩ <;> decide +kernel

variable {blooms : Table Nat Bytes} {subs : List Bytes} {node_id id : Nat} {data : Bytes}

theorem Readable.base (h : Readable blooms) (node_id : Nat) :
    ((readBloom blooms node_id).getD (BloomFilter.new BloomCfg.SIZE BloomCfg.K)).Wf := by
  cases hlookup : blooms.lookup node_id with
  | none =>
    have hnone : readBloom blooms node_id = none := by simp [readBloom, hlookup]
    rw [hnone]
    exact BloomFilter.wf_new
  | some bytes =>
    obtain ⟨bf, hbf, hwf⟩ := h node_id (by rw [hlookup]; rfl)
    rw [hbf]
    exact hwf

/-- What is read of the filters after one of them is written. -/
theorem readBloom_addBloom (h : Readable blooms) (subs : List Bytes) (node_id id : Nat) :
    readBloom (Radix.addBloom subs blooms node_id) id = if id = node_id then
      some (subs.foldl BloomFilter.insert ((readBloom blooms node_id).getD (BloomFilter.new BloomCfg.SIZE BloomCfg.K)))
    else readBloom blooms id := by
  unfold Radix.addBloom
  dsimp only
  split_ifs with hid
  · subst hid
    have hread := BloomFilter.deserialize_serialize (BloomFilter.contains_insertAll (h.base id) subs).1.length_lt
    generalize subs.foldl BloomFilter.insert ((readBloom blooms id).getD (BloomFilter.new BloomCfg.SIZE BloomCfg.K)) = bf at hread ⊢
    unfold readBloom
    rw [Finmap.lookup_insert, Option.bind_some, hread]
  · unfold readBloom
    rw [Finmap.lookup_insert_of_ne _ hid]

theorem Readable.addBloom (h : Readable blooms) (subs : List Bytes) (node_id : Nat) :
    Readable (Radix.addBloom subs blooms node_id) := by
  intro id hid
  rw [readBloom_addBloom h]
  split_ifs with heq
  · exact ⟨_, rfl, (BloomFilter.contains_insertAll (h.base node_id) subs).1⟩
  · refine h id ?_
    unfold Radix.addBloom at hid
    rwa [Finmap.lookup_insert_of_ne _ heq] at hid

/-- The filters of a way take substrings: those of its nodes admit them, and a filter admits what it did if it was there. -/
theorem admits_addBlooms (h : Readable blooms) (subs : List Bytes) (path : List Nat) :
    Readable (path.foldl (Radix.addBloom subs) blooms) ∧
      (∀ id, (blooms.lookup id).isSome ∨ id ∈ path ↔ ((path.foldl (Radix.addBloom subs) blooms).lookup id).isSome) ∧
      ∀ id data, (id ∈ path ∧ data ∈ subs) ∨ (Admits blooms id data ∧ (id ∈ path → (blooms.lookup id).isSome)) →
        Admits (path.foldl (Radix.addBloom subs) blooms) id data := by
  induction path generalizing blooms with
  | nil => exact ⟨h, fun id => by simp, fun id data hor => (hor.resolve_left fun hmem => absurd hmem.1 List.not_mem_nil).1⟩
  | cons node_id path ih =>
    obtain ⟨hread, hsome, hadmits⟩ := ih (h.addBloom subs node_id)
    have hlookup : ∀ id, ((Radix.addBloom subs blooms node_id).lookup id).isSome ↔ (blooms.lookup id).isSome ∨ id = node_id := by
      intro id
      unfold Radix.addBloom
      by_cases hid : id = node_id
      · subst hid
        simp [Finmap.lookup_insert]
      · simp [Finmap.lookup_insert_of_ne _ hid, hid]
    refine ⟨hread, fun id => ?_, fun id data hor => hadmits id data ?_⟩
    · rw [List.foldl_cons, ← hsome, hlookup, List.mem_cons]
      tauto
    · by_cases hid : id = node_id
      · subst hid
        refine Or.inr ⟨fun bf hbf => ?_, fun _ => (hlookup id).mpr (Or.inr rfl)⟩
        rw [readBloom_addBloom h, if_pos rfl] at hbf
        obtain rfl := Option.some.inj hbf
        refine (BloomFilter.contains_insertAll (h.base id) subs).2 data ?_
        rcases hor with ⟨-, hmem⟩ | ⟨hold, hthere⟩
        · exact Or.inr hmem
        · obtain ⟨bf, hbf, -⟩ := h id (hthere List.mem_cons_self)
          left
          rw [hbf]
          exact hold bf hbf
      · rcases hor with ⟨hpath, hmem⟩ | ⟨hold, hthere⟩
        · exact Or.inl ⟨(List.mem_cons.mp hpath).resolve_left hid, hmem⟩
        · refine Or.inr ⟨fun bf hbf => ?_, fun hpath => (hlookup id).mpr (Or.inl (hthere (List.mem_cons_of_mem _ hpath)))⟩
          rw [readBloom_addBloom h, if_neg hid] at hbf
          exact hold bf hbf

/-! ## What the filters hold -/

/-- A filter that the node has admits the short substrings of the key. -/
def Admitted (E : Element T) (blooms : Table Nat Bytes) (id : Nat) (key : List T) : Prop :=
  ∀ sub, sub <:+: key → sub ≠ [] → sub.length ≤ BloomCfg.MATCH_CAP → Admits blooms id (E.fromVec sub)

/-- Every filter admits the short substrings of the keys through its node. -/
structure Filled (B : Backend σ) (E : Element T) (R : Radix T) (Open : σ → Nat → Nat → Prop) (s : Filtered σ) (b : Nat)
    (trees : Nat → Forest Nat T Nat) (stored : List (List T × Nat)) : Prop where
  held : Trees B E R Open s.index b trees stored
  readable : Readable s.node_blooms
  bound : ∀ id, (s.node_blooms.lookup id).isSome → id < b
  through : ∀ i, (trees i).Through (Admitted E s.node_blooms) []

theorem Forest.rootTrail_subset (f : Forest Nat T Nat) (key : List T) : ∀ id ∈ f.rootTrail key, id ∈ f.names := by
  cases f with
  | nil => exact nofun
  | node root piece value below beside =>
    intro id hid
    change id ∈ Forest.trailFrom root piece below key at hid
    unfold Forest.trailFrom at hid
    rcases List.mem_cons.mp hid with rfl | hid
    · exact List.mem_cons_self
    · split_ifs at hid
      · cases hid
      · exact List.mem_cons_of_mem _ (List.mem_append_left _ (below.trail_subset _ id hid))

/-- The way of a key that is taken is its way before, with new nodes. -/
theorem Radix.Takes.trail {x : Nat} {f f' : Forest Nat T Nat} (h : Radix.Takes b key x f f') :
    (∀ id ∈ f.rootTrail key, id ∈ f'.rootTrail key) ∧ (∀ id ∈ f'.rootTrail key, id ∈ f.rootTrail key ∨ b ≤ id) := by
  cases h with
  | sprouts _ hnames _ =>
    exact ⟨nofun, fun id hid => Or.inr (hnames id (f'.rootTrail_subset key id hid))⟩
  | grafts leg new root piece value below hwf hleg hnew hne =>
    obtain ⟨piece', value', below', more, heq, hmore, htrail⟩ := Forest.trail_graft root leg new value x .nil
      fun hrest : key.drop (common piece key) ≠ [] => Forest.trail_insert leg new x hwf hrest
    rw [heq]
    change (∀ id ∈ Forest.trailFrom root piece below key, id ∈ Forest.trailFrom root piece' below' key) ∧
      ∀ id ∈ Forest.trailFrom root piece' below' key, id ∈ Forest.trailFrom root piece below key ∨ b ≤ id
    rw [htrail]
    refine ⟨fun id hid => List.mem_append_left _ hid, fun id hid => (List.mem_append.mp hid).imp_right fun hid => ?_⟩
    rcases hmore with rfl | rfl
    · cases hid
    · rw [List.mem_singleton.mp hid]
      exact hnew

/-- After a key is taken, and added to the filters on its way, the filters admit it as well. -/
theorem Radix.Takes.through {x : Nat} {f f' : Forest Nat T Nat} {Q Q' : Nat → List T → Prop} (h : Radix.Takes b key x f f')
    (hthrough : f.Through Q []) (hnot : key ∉ f.keys) (hold : ∀ id ∈ f.names, ∀ k, Q id k → Q' id k)
    (hway : ∀ id ∈ f.rootTrail key, Q' id key) (hfresh : ∀ id, b ≤ id → Q' id key)
    (hleg : ∀ id, b ≤ id → id ∉ f'.rootTrail key → ∀ k, Q' id k) (hlt : ∀ id ∈ f.names, id < b) : f'.Through Q' [] := by
  cases h with
  | sprouts _ hnames hentries =>
    refine Forest.through_of_all fun id hid e he => ?_
    rw [hentries] at he
    obtain rfl := List.mem_singleton.mp he
    exact hfresh id (hnames id hid)
  | grafts leg new root piece value below hwf hle hnew hne =>
    have hleg' : ∀ k, Q' leg k := by
      obtain ⟨piece', value', below', more, heq, hmore, htrail⟩ := Forest.trail_graft root leg new value x .nil
        fun hrest : key.drop (common piece key) ≠ [] => Forest.trail_insert leg new x hwf hrest
      refine hleg leg hle fun hmem => ?_
      rw [heq] at hmem
      change leg ∈ Forest.trailFrom root piece' below' key at hmem
      rw [htrail] at hmem
      rcases List.mem_append.mp hmem with hmem | hmem
      · have := hlt leg ((Forest.tree root piece value below).rootTrail_subset key leg hmem)
        omega
      · rcases hmore with rfl | rfl
        · cases hmem
        · exact hne (List.mem_singleton.mp hmem)
    refine Forest.through_graft hthrough hold hleg' (hway root List.mem_cons_self) (hfresh new hnew)
      (Forest.entries_graft hnot fun hrest hne => Forest.entries_insert hwf hne hrest) (fun hc hrest => ?_) trivial
    have hwhole : key = [] ++ piece ++ key.drop (common piece key) := Forest.eq_append_drop hc
    have hgo : ∀ id, Q' id key → Q' id ([] ++ piece ++ key.drop (common piece key)) := fun id hid => by rwa [← hwhole]
    refine Forest.through_insert hthrough.2.1 hwf hrest (fun hmem => hnot ((Forest.mem_keys_drop hc hrest).mpr hmem))
      (fun id hid => hold id (List.mem_cons_of_mem _ (List.mem_append_left _ hid))) hleg' (fun id hid => hgo id (hway id ?_))
      (hgo new (hfresh new hnew))
    change id ∈ Forest.trailFrom root piece below key
    unfold Forest.trailFrom
    rw [if_neg hc]
    exact List.mem_cons_of_mem _ hid

theorem Filled.new (S : B.Serial Open) : Filled B E R Open (R.filteredMachine B E).init 1 (fun _ => .nil) [] := by
  have hnone : ∀ id, ¬((∅ : Table Nat Bytes).lookup id).isSome := by
    intro id
    simp [Finmap.lookup_empty]
  exact ⟨Trees.new S, fun id hid => absurd hid (hnone id), fun id hid => absurd hid (hnone id), fun _ => trivial⟩

variable {s : Filtered σ}

omit [DecidableEq T] in
/-- Only the trees and the filters count. -/
theorem Filled.of_trees (h : Filled B E R Open s b trees stored) {t : Index σ} {b' : Nat} (hb : b ≤ b')
    (htrees : Trees B E R Open t b' trees stored) : Filled B E R Open { s with index := t } b' trees stored :=
  ⟨htrees, h.readable, fun id hid => (h.bound id hid).trans_le hb, h.through⟩

/-- The filters take the substrings of a key that is stored. -/
theorem Filled.takes (h : Filled B E R Open s b trees stored) {t : Index σ} {b' x : Nat} {tree : Forest Nat T Nat} (hb : b ≤ b')
    (hi : shardKey E R key = some i) (hnot : key ∉ stored.map Prod.fst) (htakes : Radix.Takes b key x (trees i) tree)
    (htrees : Trees B E R Open t b' (Function.update trees i tree) (stored ++ [(key, x)]))
    (hgo : ∀ id ∈ (trees i).rootTrail key, (s.node_blooms.lookup id).isSome) :
    Filled B E R Open ⟨t, (tree.rootTrail key).foldl
      (Radix.addBloom (Radix.substrings (E.fromVec key) E.byte_size key.length)) s.node_blooms⟩ b' (Function.update trees i tree)
      (stored ++ [(key, x)]) := by
  obtain ⟨hread, hsome, hadmits⟩ := admits_addBlooms h.readable (Radix.substrings (E.fromVec key) E.byte_size key.length)
    (tree.rootTrail key)
  generalize (tree.rootTrail key).foldl (Radix.addBloom (Radix.substrings (E.fromVec key) E.byte_size key.length)) s.node_blooms =
    blooms at hread hsome hadmits
  obtain ⟨hsub, hnew⟩ := htakes.trail
  have htree : Function.update trees i tree i = tree := Function.update_self _ _ _
  have hbound : ∀ id ∈ tree.rootTrail key, id < b' := by
    intro id hid
    refine (htrees.planted i).bound id ?_
    rw [htree]
    exact tree.rootTrail_subset key id hid
  have hold : ∀ id k, (id ∈ tree.rootTrail key → (s.node_blooms.lookup id).isSome) → Admitted E s.node_blooms id k →
      Admitted E blooms id k := by
    intro id k hthere hin sub hsub hne hlen
    exact hadmits id _ (Or.inr ⟨hin sub hsub hne hlen, hthere⟩)
  have hway : ∀ id ∈ tree.rootTrail key, Admitted E blooms id key := by
    intro id hid sub hsub hne hlen
    exact hadmits id _ (Or.inl ⟨hid, mem_substrings hsub hne hlen⟩)
  have hnone : ∀ id k, b ≤ id → Admitted E s.node_blooms id k := by
    intro id k hid sub _ _ _ bf hbf
    cases hlookup : s.node_blooms.lookup id with
    | none => simp [readBloom, hlookup] at hbf
    | some bytes =>
      have := h.bound id (by rw [hlookup]; rfl)
      omega
  have hbefore : ∀ id, id < b → id ∈ tree.rootTrail key → (s.node_blooms.lookup id).isSome := by
    intro id hlt hid
    refine hgo id ((hnew id hid).resolve_right ?_)
    omega
  refine ⟨htrees, hread, fun id hid => ?_, fun j => ?_⟩
  · rcases (hsome id).mpr hid with hid | hid
    · exact (h.bound id hid).trans_le hb
    · exact hbound id hid
  · by_cases hj : j = i
    · subst hj
      rw [htree]
      refine htakes.through (h.through j) (fun hmem => hnot ((h.held.mem_keys hi).mp hmem))
        (fun id hid k => hold id k (hbefore id ((h.held.planted j).bound id hid))) (fun id hid => hway id (hsub id hid))
        (fun id hid => ?_) (fun id hid hout k => hold id k (fun hmem => absurd hmem hout) (hnone id k hid))
        (h.held.planted j).bound
      by_cases hmem : id ∈ tree.rootTrail key
      · exact hway id hmem
      · exact hold id key (fun hmem' => absurd hmem' hmem) (hnone id key hid)
    · -- the other trees are off the way
      rw [Function.update_of_ne hj]
      refine (h.through j).mono fun id hid k => hold id k fun hmem => ?_
      have hapart := htrees.apart i j id (Ne.symm hj) (by rw [htree]; exact tree.rootTrail_subset key id hmem)
      rw [Function.update_of_ne hj] at hapart
      exact absurd hid hapart

/-- An insertion that goes by no node without a filter leaves filters that admit all keys. -/
theorem Filled.step (S : B.Serial Open) (h : Filled B E R Open s b trees stored) (a : Radix.Insertion T)
    (hgo : R.goesByFilters B E s a = true) :
    ∃ b' trees' stored', Filled B E R Open ((R.filteredMachine B E).next s a) b' trees' stored' := by
  have hstep := Radix.insert_trees S h.held a
  unfold Radix.goesByFilters at hgo
  simp only [Machine.next, Radix.filteredMachine, Radix.insertFiltered]
  generalize R.insert B E a.key a.index a.node_metas s.index = r at hstep hgo
  cases hstep with
  | rejected e t b' _ hb htrees => exact ⟨b', trees, stored, h.of_trees hb htrees⟩
  | duplicate tail node_metas _ =>
    exact ⟨b, trees, stored, h.of_trees (le_refl b) (h.held.of_view (le_refl b) h.held.opened rfl)⟩
  | stored id tail t b' i tree hid hnot hi hb htakes htrees =>
    have hne : a.key ≠ [] := by
      rintro heq
      rw [heq] at hi
      cases hi
    have hcount : (E.fromVec a.key).length / E.byte_size = a.key.length := by
      rw [E.length_fromVec, Nat.mul_div_cancel _ E.byte_size_pos]
    have hafter := htrees.followPath hi
    rw [Function.update_self] at hafter
    have hmaintain : R.maintainBloom B E a.key { s with index := t } = .ok () ⟨t, (tree.rootTrail a.key).foldl
        (Radix.addBloom (Radix.substrings (E.fromVec a.key) E.byte_size a.key.length)) s.node_blooms⟩ := by
      unfold Radix.maintainBloom
      dsimp only
      rw [if_neg hne, hcount, if_neg (by simpa using hne), hafter]
    simp only [if_neg hid, hmaintain]
    refine ⟨b', _, _, h.takes hb hi hnot htakes htrees fun id' hid' => ?_⟩
    simp only [h.held.followPath hi, beq_iff_eq, hid, Bool.or_eq_true, false_or, List.all_eq_true] at hgo
    exact hgo id' hid'

end Opsense
