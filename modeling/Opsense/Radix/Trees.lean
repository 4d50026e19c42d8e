import Opsense.Radix.Insert

/-!
# The trees of an index

An index has a radix tree for each shard, and a key is in the tree of its shard (`Trees`). An insertion adds a key that is not
there, and otherwise leaves the tree (`insert_trees`, `insert_step`).
-/

namespace Opsense

variable {T : Type} {E : Element T} {R : Radix T} {σ : Type} {B : Backend σ} {Open : σ → Nat → Nat → Prop}
  {v w : View} {s : Index σ} {b : Nat}

/-- The shard of a key. -/
def shardKey (E : Element T) (R : Radix T) (key : List T) : Option Nat := key.head?.map fun a => shardOf E a R.sharding

/-- The tree that is found from a root. -/
inductive Rooted : Forest Nat T Nat → Nat → Prop
  | nil : Rooted .nil EMPTY
  | tree {id : Nat} {piece : List T} {value : Option Nat} {below : Forest Nat T Nat} (hwf : below.Wf) :
      Rooted (.tree id piece value below) id

/-- Every shard has its tree, which has the keys of the shard. -/
structure Trees (B : Backend σ) (E : Element T) (R : Radix T) (Open : σ → Nat → Nat → Prop) (s : Index σ) (b : Nat)
    (trees : Nat → Forest Nat T Nat) (stored : List (List T × Nat)) : Prop where
  opened : Open s.store b 0
  fresh : ∀ id, b ≤ id → (B.view s.store).children id = ∅
  planted : ∀ i, Planted E (B.view s.store) b (trees i)
  rooted : ∀ i, Rooted (trees i) ((B.view s.store).roots i)
  apart : ∀ i j id, i ≠ j → id ∈ (trees i).names → id ∉ (trees j).names
  entries : ∀ i, (trees i).entries.Perm (stored.filter fun e => shardKey E R e.1 = some i)
  keys : ∀ e ∈ stored, e.1 ≠ []
  distinct : (stored.map Prod.fst).Nodup
  live : ∀ i, (trees i).Live

namespace Trees

variable {trees : Nat → Forest Nat T Nat} {stored : List (List T × Nat)}

/-- The index of an empty storage. -/
theorem new (S : B.Serial Open) : Trees B E R Open (Index.new B) 1 (fun _ => .nil) [] := by
  have hroots : ∀ i, (B.view B.new).roots i = EMPTY := fun i => congrFun S.start_view.roots.symm i
  have hchildren : ∀ id, (B.view B.new).children id = ∅ := fun id => congrFun S.start_view.children.symm id
  refine ⟨S.start, fun id _ => hchildren id, fun i => ⟨trivial, List.nodup_nil, nofun, nofun⟩, fun i => ?_,
    fun i j id _ hid => absurd hid List.not_mem_nil, fun i => List.Perm.refl _, nofun, List.nodup_nil, fun i => trivial⟩
  change Rooted .nil ((B.view B.new).roots i)
  rw [hroots]
  exact .nil

/-- Only the nodes, their children and the roots count. -/
theorem of_view (h : Trees B E R Open s b trees stored) {t : Index σ} {b' : Nat} (hb : b ≤ b') (hopen : Open t.store b' 0)
    (hview : B.view t.store = B.view s.store) : Trees B E R Open t b' trees stored := by
  refine ⟨hopen, fun id hid => ?_, fun i => ?_, fun i => ?_, h.apart, h.entries, h.keys, h.distinct, h.live⟩
  · rw [hview]
    exact h.fresh id (hb.trans hid)
  · rw [hview]
    exact ⟨(h.planted i).holds, (h.planted i).nodup, (h.planted i).pos, fun id hid => lt_of_lt_of_le ((h.planted i).bound id hid) hb⟩
  · rw [hview]
    exact h.rooted i

/-- A key is in the tree of its shard. -/
theorem mem_keys (h : Trees B E R Open s b trees stored) {key : List T} {i : Nat} (hi : shardKey E R key = some i) :
    key ∈ (trees i).keys ↔ key ∈ stored.map Prod.fst := by
  unfold Forest.keys
  rw [((h.entries i).map Prod.fst).mem_iff, List.mem_map, List.mem_map]
  constructor
  · rintro ⟨e, he, rfl⟩
    exact ⟨e, (List.mem_filter.mp he).1, rfl⟩
  · rintro ⟨e, he, rfl⟩
    exact ⟨e, List.mem_filter.mpr ⟨he, by simpa using hi⟩, rfl⟩

/-- The tree of one shard takes a key. -/
theorem update (S : B.Serial Open) (h : Trees B E R Open s b trees stored) {t : Index σ} {b' : Nat} (hb : b ≤ b')
    (hopen : Open t.store b' 0) {i : Nat} (tree : Forest Nat T Nat) {key : List T} (x root : Nat)
    (hi : shardKey E R key = some i) (hnew : key ∉ stored.map Prod.fst) (hholds : Holds E (B.view t.store) tree)
    (hoff : (B.view s.store).Off (B.view t.store) (trees i).names b)
    (hfresh : ∀ id, b' ≤ id → (B.view t.store).children id = ∅)
    (hroots : (B.view t.store).roots = Function.update (B.view s.store).roots i root) (hrooted : Rooted tree root)
    (hnodup : tree.names.Nodup) (hnames : ∀ id ∈ tree.names, id ∈ (trees i).names ∨ b ≤ id)
    (hentries : tree.entries.Perm ((key, x) :: (trees i).entries)) (hlive : tree.Live) :
    Trees B E R Open t b' (Function.update trees i tree) (stored ++ [(key, x)]) := by
  have hone := S.pos _ _ _ h.opened
  refine ⟨hopen, hfresh, fun j => ?_, fun j => ?_, fun j l id hne hj => ?_, fun j => ?_, fun e he => ?_, ?_, fun j => ?_⟩
  · by_cases heq : j = i
    · subst heq
      rw [Function.update_self]
      refine ⟨hholds, hnodup, fun id hid => ?_, fun id hid => ?_⟩
      · rcases hnames id hid with hold | hid
        · exact (h.planted j).pos id hold
        · exact Nat.ne_of_gt (lt_of_lt_of_le hone hid)
      · by_contra hle
        have hsome := hholds.isSome hid
        rw [S.fresh _ _ _ hopen id (not_lt.mp hle)] at hsome
        cases hsome
    · rw [Function.update_of_ne heq]
      have hold := h.planted j
      exact ⟨hold.holds.off hoff fun id hid => ⟨fun hmem => h.apart i j id (Ne.symm heq) hmem hid, hold.bound id hid⟩,
        hold.nodup, hold.pos, fun id hid => lt_of_lt_of_le (hold.bound id hid) hb⟩
  · rw [hroots]
    by_cases heq : j = i
    · subst heq
      rw [Function.update_self, Function.update_self]
      exact hrooted
    · rw [Function.update_of_ne heq, Function.update_of_ne heq]
      exact h.rooted j
  · have hout : ∀ l, l ≠ i → ∀ id ∈ tree.names, id ∉ (trees l).names := by
      intro l hl id hid hmem
      rcases hnames id hid with hold | hid
      · exact h.apart i l id (Ne.symm hl) hold hmem
      · exact absurd ((h.planted l).bound id hmem) (not_lt.mpr hid)
    by_cases hji : j = i
    · subst hji
      rw [Function.update_self] at hj
      rw [Function.update_of_ne (Ne.symm hne)]
      exact hout l (Ne.symm hne) id hj
    · rw [Function.update_of_ne hji] at hj
      by_cases hli : l = i
      · subst hli
        rw [Function.update_self]
        exact fun hmem => hout j hji id hmem hj
      · rw [Function.update_of_ne hli]
        exact h.apart j l id hne hj
  · rw [List.filter_append]
    by_cases heq : j = i
    · subst heq
      rw [Function.update_self]
      have hlast : [(key, x)].filter (fun e => shardKey E R e.1 = some j) = [(key, x)] := by simp [hi]
      rw [hlast]
      exact hentries.trans (((h.entries j).cons _).trans (List.perm_append_singleton _ _).symm)
    · rw [Function.update_of_ne heq]
      have hlast : [(key, x)].filter (fun e => shardKey E R e.1 = some j) = [] := by
        simp [hi, Ne.symm heq]
      rw [hlast, List.append_nil]
      exact h.entries j
  · rcases List.mem_append.mp he with he | he
    · exact h.keys e he
    · obtain rfl := List.mem_singleton.mp he
      rintro rfl
      simp [shardKey] at hi
  · rw [List.map_append, List.nodup_append]
    refine ⟨h.distinct, List.nodup_singleton _, fun a ha a' ha' heq => hnew ?_⟩
    obtain rfl : a' = key := List.mem_singleton.mp ha'
    exact heq ▸ ha
  · by_cases heq : j = i
    · subst heq
      rw [Function.update_self]
      exact hlive
    · rw [Function.update_of_ne heq]
      exact h.live j

end Trees

namespace Radix

/-- What a new root makes of a storage. -/
structure Sprouted (E : Element T) (v w : View) (b b' si : Nat) (first : T) (rest : List T) (x : Nat)
    (tree : Forest Nat T Nat) : Prop where
  le : b ≤ b'
  holds : Holds E w tree
  rooted : Rooted tree b
  nodup : tree.names.Nodup
  names : ∀ id ∈ tree.names, b ≤ id
  entries : tree.entries = [(first :: rest, x)]
  off : v.Off w [] b
  fresh : ∀ id, b' ≤ id → w.children id = ∅
  roots : w.roots = Function.update v.roots si b
  live : tree.Live

/-- The end of `insert` makes a tree of the key. -/
theorem newRoot_eq (S : B.Serial Open) (h : Open s.store b 0) (hfresh : ∀ id, b ≤ id → (B.view s.store).children id = ∅)
    (first : T) (rest : List T) {x : Nat} (hx : x ≠ EMPTY) : ∃ id tail t b' tree,
      R.newRoot B E first rest x s = .ok (id, tail) t ∧ id ≠ EMPTY ∧ Open t.store b' 0 ∧ t.node_metas = s.node_metas ∧
      Sprouted E (B.view s.store) (B.view t.store) b b' (shardOf E first R.sharding) first rest x tree := by
  have hone := S.pos _ _ _ h
  unfold newRoot
  by_cases hrest : rest = []
  · obtain ⟨store, hcreate, hopen, hle⟩ := S.create _ b (E.fromVec [first]) x h
    obtain ⟨hopen', hle'⟩ := S.setRoot store (b + 1) (shardOf E first R.sharding) b hopen
    have hle := (hle.setRoot (shardOf E first R.sharding) b).trans hle'
    have hkids : ∀ i, (B.view (B.setRoot store (shardOf E first R.sharding) b)).children i = (B.view s.store).children i :=
      fun i => congrFun hle.children.symm i
    refine ⟨b, 0, { s with store := B.setRoot store (shardOf E first R.sharding) b }, b + 1, .tree b [first] (some x) .nil, ?_,
      Nat.ne_of_gt hone, hopen', rfl, Nat.le_succ b, ⟨hle.nodes b _ ?_, by simpa using hx, ?_, trivial, trivial⟩, .tree trivial,
      List.nodup_singleton _, by simp [Forest.tree, Forest.names], by simp [hrest, Forest.tree, Forest.entries, Forest.under],
      ⟨fun i n _ hi hn => hle.nodes i n ?_, fun i _ _ => hkids i⟩, fun i hi => ?_, hle.roots.symm, ⟨Or.inl rfl, trivial, trivial⟩⟩
    · rw [if_neg (not_not.mpr hrest), bind_ok (run_ok hcreate)]
      rfl
    · simp [View.setRoot, View.put]
    · rw [hkids, hfresh b (le_refl b)]
      rfl
    · simp only [View.setRoot, View.put]
      rw [Function.update_of_ne (Nat.ne_of_lt hi)]
      exact hn
    · rw [hkids, hfresh i (by omega)]
  · obtain ⟨store, hcreate, hopen, hle⟩ := S.create _ b (E.fromVec [first]) EMPTY h
    obtain ⟨hopen', hle'⟩ := S.setRoot store (b + 1) (shardOf E first R.sharding) b hopen
    have hle := (hle.setRoot (shardOf E first R.sharding) b).trans hle'
    have hroot := hle.nodes b (E.fromVec [first], EMPTY) (by simp [View.setRoot, View.put])
    obtain ⟨store', hextend, hopen'', hle''⟩ := extend_eq (E := E) (s := { s with
      store := B.setRoot store (shardOf E first R.sharding) b }) S hopen' (by dsimp only; rw [hroot]; rfl) rest x
    have hle := ((hle.put (b + 1) (E.fromVec rest, x)).apply (.addChild b (b + 1))).trans hle''
    have hkids : ∀ i, (B.view store').children i =
        Function.update (B.view s.store).children b (Insert.insert (b + 1) ((B.view s.store).children b)) i :=
      fun i => congrFun hle.children.symm i
    refine ⟨b + 1, 1, Index.addShortcutNode (shardOf E first R.sharding) (E.encode first) b { s with store := store' }, b + 2,
      .tree b [first] none (.tree (b + 1) rest (some x) .nil), ?_, Nat.succ_ne_zero b, hopen'', rfl, Nat.le_add_right b 2,
      ⟨hle.nodes b _ ?_, by simp, ?_, ⟨hle.nodes (b + 1) _ ?_, by simpa using hx, ?_, trivial, trivial⟩, trivial⟩, .tree ⟨hrest, by simp [Forest.heads], trivial, trivial⟩, by simp [Forest.tree, Forest.names],
      by simp [Forest.tree, Forest.names], by simp [Forest.tree, Forest.entries, Forest.under],
      ⟨fun i n _ hi hn => hle.nodes i n ?_, fun i _ hi => ?_⟩, fun i hi => ?_, hle.roots.symm,
        ⟨Or.inr (fun hnil => by cases hnil), ⟨Or.inl rfl, trivial, trivial⟩, trivial⟩⟩
    · rw [if_pos hrest, bind_ok (run_ok hcreate)]
      have hset : Index.setRoot B (shardOf E first R.sharding) b { s with store } =
        .ok () { s with store := B.setRoot store (shardOf E first R.sharding) b } := rfl
      rw [bind_ok hset, bind_ok hextend]
      rfl
    · simp [View.setRoot, View.put, View.apply, View.addChild]
    · refine (hkids _).trans ?_
      rw [Function.update_self, hfresh b (le_refl b)]
      rfl
    · simp [View.setRoot, View.put, View.apply, View.addChild]
    · refine (hkids _).trans ?_
      rw [Function.update_of_ne (Nat.succ_ne_self b), hfresh (b + 1) (Nat.le_succ b)]
      rfl
    · simp only [View.setRoot, View.put, View.apply, View.addChild]
      rw [Function.update_of_ne (by omega), Function.update_of_ne (by omega)]
      exact hn
    · refine (hkids _).trans ?_
      rw [Function.update_of_ne (by omega)]
    · refine (hkids _).trans ?_
      rw [Function.update_of_ne (by omega), hfresh i (by omega)]

/-- A call of `insert`. -/
structure Insertion (T : Type) where
  key : List T
  index : Nat
  node_metas : List (Option Bytes)

/-- Why an insertion can be rejected: what it is given, or a callback. -/
def Denied (R : Radix T) (stored : List (List T × Nat)) (a : Insertion T) : Prop :=
  a.index = EMPTY ∨ a.key = [] ∨
    (∃ cb ∈ R.on_node, ∃ elem data e, (elem, some data) ∈ a.key.zip a.node_metas ∧ cb elem data = .error e) ∨
    (a.key ∉ stored.map Prod.fst ∧ ∃ e, R.Refuses e)

/-- What `insert` answers and leaves. -/
inductive Stepped (B : Backend σ) (E : Element T) (R : Radix T) (Open : σ → Nat → Nat → Prop) (s : Index σ)
    (stored : List (List T × Nat)) (a : Insertion T) : EStateM.Result RadixError (Index σ) (Nat × Nat) → Prop
  | rejected (e : RadixError) (t : Index σ) (b' : Nat) (trees : Nat → Forest Nat T Nat) (h : R.Denied stored a)
      (htrees : Trees B E R Open t b' trees stored) : Stepped B E R Open s stored a (.error e t)
  | duplicate (tail : Nat) (node_metas : Table Nat Bytes) (h : a.key ∈ stored.map Prod.fst) :
      Stepped B E R Open s stored a (.ok (EMPTY, tail) { s with node_metas })
  | stored (id tail : Nat) (t : Index σ) (b' : Nat) (trees : Nat → Forest Nat T Nat) (hid : id ≠ EMPTY)
      (h : a.key ∉ stored.map Prod.fst) (htrees : Trees B E R Open t b' trees (stored ++ [(a.key, a.index)])) :
      Stepped B E R Open s stored a (.ok (id, tail) t)

section

variable [DecidableEq T]

/-- What an insertion makes of the tree of its shard: a tree of nodes from `b` on where there was none, or the tree with the key. -/
inductive Takes (b : Nat) (key : List T) (x : Nat) : Forest Nat T Nat → Forest Nat T Nat → Prop
  | sprouts (tree : Forest Nat T Nat) (hnames : ∀ id ∈ tree.names, b ≤ id) (hentries : tree.entries = [(key, x)]) :
      Takes b key x .nil tree
  | grafts (leg new root : Nat) (piece : List T) (value : Option Nat) (below : Forest Nat T Nat) (hwf : below.Wf) (hleg : b ≤ leg)
      (hnew : b ≤ new) (hne : leg ≠ new) : Takes b key x (.tree root piece value below)
        (.graft leg new x key root piece value below (below.insert leg new x (key.drop (common piece key))) .nil)

/-- What `insert` answers and leaves, with what becomes of each tree. -/
inductive TreeStep (B : Backend σ) (E : Element T) (R : Radix T) (Open : σ → Nat → Nat → Prop) (s : Index σ) (b : Nat)
    (trees : Nat → Forest Nat T Nat) (stored : List (List T × Nat)) (a : Insertion T) :
    EStateM.Result RadixError (Index σ) (Nat × Nat) → Prop
  | rejected (e : RadixError) (t : Index σ) (b' : Nat) (h : R.Denied stored a) (hb : b ≤ b')
      (htrees : Trees B E R Open t b' trees stored) : TreeStep B E R Open s b trees stored a (.error e t)
  | duplicate (tail : Nat) (node_metas : Table Nat Bytes) (h : a.key ∈ stored.map Prod.fst) :
      TreeStep B E R Open s b trees stored a (.ok (EMPTY, tail) { s with node_metas })
  | stored (id tail : Nat) (t : Index σ) (b' i : Nat) (tree : Forest Nat T Nat) (hid : id ≠ EMPTY)
      (h : a.key ∉ stored.map Prod.fst) (hi : shardKey E R a.key = some i) (hb : b ≤ b')
      (htakes : Takes b a.key a.index (trees i) tree)
      (htrees : Trees B E R Open t b' (Function.update trees i tree) (stored ++ [(a.key, a.index)])) :
      TreeStep B E R Open s b trees stored a (.ok (id, tail) t)

theorem TreeStep.stepped {trees : Nat → Forest Nat T Nat} {stored : List (List T × Nat)} {a : Insertion T}
    {r : EStateM.Result RadixError (Index σ) (Nat × Nat)} (h : TreeStep B E R Open s b trees stored a r) :
    Stepped B E R Open s stored a r := by
  cases h with
  | rejected e t b' h _ htrees => exact .rejected e t b' trees h htrees
  | duplicate tail node_metas h => exact .duplicate tail node_metas h
  | stored id tail t b' i tree hid h _ _ _ htrees => exact .stored id tail t b' _ hid h htrees

end

theorem fireNodes_eq (elems : List (T × Option Bytes)) (s : Index σ) :
    (∃ node_metas, R.fireNodes E elems s = .ok () { s with node_metas }) ∨
      ∃ e node_metas, R.fireNodes E elems s = .error e { s with node_metas } ∧
        ∃ cb ∈ R.on_node, ∃ elem data e, (elem, some data) ∈ elems ∧ cb elem data = .error e := by
  induction elems generalizing s with
  | nil => exact Or.inl ⟨s.node_metas, rfl⟩
  | cons elem elems ih =>
    have hrest : ∀ {t : Index σ} {node_metas}, t = { s with node_metas } →
        (∃ node_metas, R.fireNodes E elems t = .ok () { s with node_metas }) ∨
        ∃ e node_metas, R.fireNodes E elems t = .error e { s with node_metas } ∧
          ∃ cb ∈ R.on_node, ∃ a data e, (a, some data) ∈ elem :: elems ∧ cb a data = .error e := by
      rintro t node_metas rfl
      rcases ih { s with node_metas } with hok | ⟨e, node_metas', herr, cb, hcb, a, data, e', hmem, hres⟩
      · exact Or.inl hok
      · exact Or.inr ⟨e, node_metas', herr, cb, hcb, a, data, e', List.mem_cons_of_mem _ hmem, hres⟩
    obtain ⟨a, _ | data⟩ := elem
    · exact @hrest s s.node_metas rfl
    · have hfire : (∃ node_metas, R.fireNode E a data s = .ok () { s with node_metas }) ∨
          ∃ e, R.fireNode E a data s = .error e s ∧ ∃ cb ∈ R.on_node, cb a data = .error e := by
        unfold fireNode
        cases hcb : R.on_node with
        | none => exact Or.inl ⟨s.node_metas, rfl⟩
        | some cb =>
          dsimp only
          split_ifs with helem
          · exact Or.inl ⟨s.node_metas, rfl⟩
          · cases hres : cb a data with
            | error e => exact Or.inr ⟨e, rfl, cb, rfl, hres⟩
            | ok node =>
              dsimp only
              split_ifs with hnode
              · exact Or.inl ⟨s.node_metas, rfl⟩
              · exact Or.inl ⟨_, rfl⟩
      unfold fireNodes
      rcases hfire with ⟨node_metas, hok⟩ | ⟨e, herr, cb, hcb, hres⟩
      · rw [bind_ok hok]
        exact hrest rfl
      · rw [bind_error herr]
        exact Or.inr ⟨e, s.node_metas, rfl, cb, hcb, a, data, e, List.mem_cons_self, hres⟩

variable [DecidableEq T] {trees : Nat → Forest Nat T Nat} {stored : List (List T × Nat)}

omit [DecidableEq T] in
/-- Names that come to a forest are new. -/
theorem names_of_more {f f' : Forest Nat T Nat} {leg new : Nat} (h : Planted E v b f) (hleg : b ≤ leg) (hnew : b ≤ new)
    (hne : leg ≠ new) (hmore : ∃ more, more.Sublist [leg, new] ∧ f'.names.Perm (more ++ f.names)) :
    f'.names.Nodup ∧ ∀ id ∈ f'.names, id ∈ f.names ∨ b ≤ id := by
  obtain ⟨more, hsub, hperm⟩ := hmore
  have hge : ∀ id ∈ more, b ≤ id := by
    intro id hid
    have hmem := hsub.subset hid
    simp only [List.mem_cons, List.not_mem_nil, or_false] at hmem
    rcases hmem with rfl | rfl
    · exact hleg
    · exact hnew
  refine ⟨hperm.nodup_iff.mpr (List.nodup_append.mpr ⟨?_, h.nodup, fun id hid id' hid' heq => ?_⟩), fun id hid => ?_⟩
  · exact List.Nodup.sublist hsub (by simpa using hne)
  · have := hge id hid
    have := h.bound id' hid'
    omega
  · rcases List.mem_append.mp (hperm.mem_iff.mp hid) with hid | hid
    · exact Or.inr (hge id hid)
    · exact Or.inl hid

/-- The root of the shard is looked up, and the key goes into its tree. -/
theorem insertFrom_root (S : B.Serial Open) (h : Trees B E R Open s b trees stored) (first : T) (rest : List T) {index : Nat}
    (hindex : index ≠ EMPTY) (node_metas : List (Option Bytes)) :
    TreeStep B E R Open s b trees stored ⟨first :: rest, index, node_metas⟩
      (R.insertFrom B E first rest index ((first :: rest).length + 1) (B.getRoot s.store (shardOf E first R.sharding)) 0 s) := by
  have hi : shardKey E R (first :: rest) = some (shardOf E first R.sharding) := rfl
  have hkeys := h.mem_keys hi
  have hrooted := h.rooted (shardOf E first R.sharding)
  have hplanted := h.planted (shardOf E first R.sharding)
  have hlive := h.live (shardOf E first R.sharding)
  have hdone : ∀ {id tail : Nat} {t : Index σ} {b' : Nat} {tree : Forest Nat T Nat}, id ≠ EMPTY →
      first :: rest ∉ stored.map Prod.fst → b ≤ b' → Takes b (first :: rest) index (trees (shardOf E first R.sharding)) tree →
      Trees B E R Open t b' (Function.update trees (shardOf E first R.sharding) tree) (stored ++ [(first :: rest, index)]) →
      TreeStep B E R Open s b trees stored ⟨first :: rest, index, node_metas⟩ (.ok (id, tail) t) := by
    intro id tail t b' tree hid hnew hb htakes htrees
    exact .stored id tail t b' _ tree hid hnew hi hb htakes htrees
  have hupdate := fun {t : Index σ} {b' : Nat} {tree : Forest Nat T Nat} {root : Nat} (hb : b ≤ b') (hopen : Open t.store b' 0)
    (hnew : first :: rest ∉ stored.map Prod.fst) => h.update S hb hopen tree index root hi hnew
  change Rooted _ (B.getRoot s.store (shardOf E first R.sharding)) at hrooted
  generalize hroot : B.getRoot s.store (shardOf E first R.sharding) = root at hrooted
  generalize trees (shardOf E first R.sharding) = tree at hkeys hrooted hplanted hlive hupdate hdone
  cases hrooted with
  | nil =>
    have hnew : first :: rest ∉ stored.map Prod.fst := fun hmem => absurd (hkeys.mpr hmem) List.not_mem_nil
    obtain ⟨id, tail, t, b', tree, heq, hid, hopen, -, hs⟩ := newRoot_eq (R := R) S h.opened h.fresh first rest hindex
    unfold insertFrom
    rw [if_pos rfl, heq]
    refine hdone hid hnew hs.le (.sprouts tree hs.names hs.entries) (hupdate hs.le hopen hnew hs.holds hs.off hs.fresh hs.roots
      hs.rooted hs.nodup (fun i hi => Or.inr (hs.names i hi)) ?_ hs.live)
    rw [hs.entries]
    exact List.Perm.refl _
  | @tree root piece value below hwf =>
    have hdrop : (first :: rest).drop 0 = first :: rest := rfl
    have hlen : (first :: rest).length + 1 ≤ (first :: rest).length + 1 + common piece (first :: rest) := by omega
    have hins := insertFrom_tree (R := R) S h.opened h.fresh hindex hplanted hwf hdrop hlen
    generalize R.insertFrom B E first rest index ((first :: rest).length + 1) root 0 s = r at hins
    cases hins with
    | duplicate tail hmem => exact .duplicate tail s.node_metas (hkeys.mp hmem)
    | refused e store b' hnot he hb hopen hview =>
      exact .rejected e _ b' (Or.inr (Or.inr (Or.inr ⟨fun hmem => hnot (hkeys.mpr hmem), e, he⟩))) hb (h.of_view hb hopen hview)
    | grown id tail store pending b' leg new hnot hid hb hopen hg =>
      obtain ⟨piece', value', below', hgraft, hwf', -⟩ := Forest.wf_graft leg new index root value .nil hwf
        fun hrest : (first :: rest).drop (common piece (first :: rest)) ≠ [] => (Forest.wf_insert hwf hrest).1
      obtain ⟨hnodup, hnames⟩ := names_of_more (h := hplanted) hg.leg_le hg.new_le hg.ne
        (Forest.names_graft (Forest.names_insert leg new index below ((first :: rest).drop (common piece (first :: rest)))))
      have hrooted' : Rooted (.tree root piece' value' below') root := .tree hwf'
      rw [Forest.tree, ← hgraft] at hrooted'
      have hnew : first :: rest ∉ stored.map Prod.fst := fun hmem => hnot (hkeys.mpr hmem)
      refine hdone hid hnew hb (.grafts leg new root piece value below hwf hg.leg_le hg.new_le hg.ne) (hupdate hb hopen hnew hg.holds
        hg.off hg.fresh ?_ hrooted' hnodup hnames
        (Forest.entries_graft hnot fun hrest hne => Forest.entries_insert hwf hne hrest)
        (Forest.live_graft leg new index root .nil hlive ⟨Forest.live_insert hlive.2.1 _ _ _ _, Forest.insert_ne_nil _ _ _ _ _⟩))
      rw [hg.roots, ← hroot]
      exact (Function.update_eq_self _ _).symm

/-- An insertion stores a key that is not there, reports one that is, or is rejected. -/
theorem insert_trees (S : B.Serial Open) (h : Trees B E R Open s b trees stored) (a : Insertion T) :
    TreeStep B E R Open s b trees stored a (R.insert B E a.key a.index a.node_metas s) := by
  obtain ⟨key, index, node_metas⟩ := a
  unfold insert
  by_cases hindex : index = EMPTY
  · rw [if_pos hindex]
    exact .rejected _ s b (Or.inl hindex) (le_refl b) h
  · rw [if_neg hindex]
    cases key with
    | nil => exact .rejected _ s b (Or.inr (Or.inl rfl)) (le_refl b) h
    | cons first rest =>
      have hgo : ∀ node_metas', TreeStep B E R Open s b trees stored ⟨first :: rest, index, node_metas⟩
          ((Index.ask (fun s => .ok (B.getRoot s (shardOf E first R.sharding))) >>= fun node_id =>
            R.insertFrom B E first rest index ((first :: rest).length + 1) node_id 0) { s with node_metas := node_metas' }) := by
        intro node_metas'
        have hstep := insertFrom_root S (h.of_view (t := { s with node_metas := node_metas' }) (le_refl b) h.opened rfl)
          first rest hindex node_metas
        have hask : Index.ask (fun s => .ok (B.getRoot s (shardOf E first R.sharding))) { s with node_metas := node_metas' } =
          .ok (B.getRoot s.store (shardOf E first R.sharding)) { s with node_metas := node_metas' } := rfl
        rw [bind_ok hask]
        generalize R.insertFrom B E first rest index ((first :: rest).length + 1)
          (B.getRoot s.store (shardOf E first R.sharding)) 0 { s with node_metas := node_metas' } = r at hstep
        cases hstep with
        | rejected e t b' h hb htrees => exact .rejected e t b' h hb htrees
        | duplicate tail node_metas h => exact .duplicate tail node_metas h
        | stored id tail t b' i tree hid h hi hb htakes htrees => exact .stored id tail t b' i tree hid h hi hb htakes htrees
      dsimp only
      split_ifs
      · rcases fireNodes_eq (R := R) (E := E) ((first :: rest).zip node_metas) s with
          ⟨node_metas', hok⟩ | ⟨e, node_metas', herr, hdenied⟩
        · rw [bind_ok hok]
          exact hgo node_metas'
        · rw [bind_error herr]
          exact .rejected e _ b (Or.inr (Or.inr (Or.inl hdenied))) (le_refl b) (h.of_view (le_refl b) h.opened rfl)
      · exact hgo s.node_metas

theorem insert_step (S : B.Serial Open) (h : Trees B E R Open s b trees stored) (a : Insertion T) :
    Stepped B E R Open s stored a (R.insert B E a.key a.index a.node_metas s) := (insert_trees S h a).stepped

end Radix

end Opsense
