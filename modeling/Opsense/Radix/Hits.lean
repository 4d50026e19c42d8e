import Opsense.Radix.Dfs
import Opsense.Radix.Map

/-!
# How often a search gives a record

`search_dfs` collects the record of a node once more for each of its children. Whatever was inserted, and wherever a search begins
and is interrupted, it ends and gives every record once exactly when, among the keys that begin with one element, the records are
different and no key begins another (`searches_once_iff`).
-/

namespace Opsense

variable {T : Type} [DecidableEq T] {E : Element T} {R : Radix T} {σ : Type} {B : Backend σ} {Open : σ → Nat → Nat → Prop}
  {v : View} {b : Nat}

/-- A search for any pattern, from the root of its shard or from any node of the trees, ends and gives no record twice, whatever
deadlines it is interrupted by. -/
def SearchesOnce (B : Backend σ) (E : Element T) (R : Radix T) (s : σ) (matcher : List T → SearchMatcher T) : Prop :=
  ∀ begin_ pattern, (begin_ = EMPTY ∨ Reached B s begin_) → pattern ≠ [] → ∃ n, ∀ fuel, n ≤ fuel → ∀ deadlines, ∃ found,
    Radix.searchCalls B E R s fuel begin_ pattern (matcher pattern) deadlines none = some (.ok found) ∧ found.Nodup

/-- Keys that begin with one element have different records, and none begins another. -/
def Untangled (stored : List (List T × Nat)) : Prop :=
  ∀ e ∈ stored, ∀ e' ∈ stored, e.1.head? = e'.1.head? → e.1 ≠ e'.1 → e.2 ≠ e'.2 ∧ ¬e.1 <+: e'.1

instance (stored : List (List T × Nat)) : Decidable (Untangled stored) :=
  inferInstanceAs (Decidable (∀ e ∈ stored, ∀ e' ∈ stored, _))

omit [DecidableEq T] in
theorem Rooted.wf_of_mem {f : Forest Nat T Nat} {root : Nat} (h : Rooted f root) {id : Nat} {piece : List T} {value : Option Nat}
    {below : Forest Nat T Nat} (hn : (id, piece, value, below) ∈ f.nodes) : below.Wf := by
  cases h with
  | nil => cases hn
  | @tree _ p v below' hwf =>
    simp only [Forest.tree, Forest.nodes, List.append_nil, List.mem_cons] at hn
    rcases hn with heq | hn
    · obtain ⟨-, -, -, rfl⟩ : id = root ∧ piece = p ∧ value = v ∧ below = below' := by simpa using heq
      exact hwf
    · exact hwf.of_mem hn

namespace Trees

variable {s : Index σ} {trees : Nat → Forest Nat T Nat} {stored : List (List T × Nat)} {i id : Nat} {piece : List T}
  {value : Option Nat} {below : Forest Nat T Nat}

omit [DecidableEq T] in
theorem mem_entries (h : Trees B E R Open s b trees stored) {e : List T × Nat} :
    e ∈ (trees i).entries ↔ e ∈ stored ∧ shardKey E R e.1 = some i := by
  rw [(h.entries i).mem_iff, List.mem_filter, decide_eq_true_eq]

omit [DecidableEq T] in
/-- The nodes of a forest whose trees are found from the roots are found. -/
theorem reached_of_holds {f : Forest Nat T Nat} {s : σ} (h : Holds E (B.view s) f) (htops : ∀ c ∈ f.tops, Reached B s c)
    (hid : id ∈ f.names) : Reached B s id := by
  induction f with
  | nil => cases hid
  | node i p v below beside ihbelow ihbeside =>
    obtain ⟨-, -, hchildren, hbelow, hbeside⟩ := h
    have htop := htops i List.mem_cons_self
    rcases List.mem_cons.mp hid with rfl | hid
    · exact htop
    · rcases List.mem_append.mp hid with hid | hid
      · refine ihbelow hbelow (fun c hc => htop.child ?_) hid
        have hc' : c ∈ (B.view s).children i := by
          rw [hchildren]
          exact List.mem_toFinset.mpr hc
        exact List.mem_toFinset.mp hc'
      · exact ihbeside hbeside (fun c hc => htops c (List.mem_cons_of_mem _ hc)) hid

omit [DecidableEq T] in
/-- Every node of a tree is found from its root. -/
theorem reached (h : Trees B E R Open s b trees stored) (hn : (id, piece, value, below) ∈ (trees i).nodes) : Reached B s.store id := by
  have hname : id ∈ (trees i).names := by
    rw [Forest.names_eq]
    exact List.mem_map_of_mem hn
  refine reached_of_holds (h.planted i).holds (fun c hc => ?_) hname
  have hrooted := h.rooted i
  have hpos := (h.planted i).pos
  change Rooted _ (B.getRoot s.store i) at hrooted
  have hroot := Reached.root (B := B) (s := s.store) i
  generalize B.getRoot s.store i = root at hrooted hroot
  generalize trees i = tree at hrooted hc hpos
  cases hrooted with
  | nil => cases hc
  | tree hwf =>
    obtain rfl := List.mem_singleton.mp hc
    exact hroot (hpos _ List.mem_cons_self)

/-- A search from a node of the trees ends. -/
theorem ends_node (S : B.Serial Open) (h : Trees B E R Open s b trees stored) (hn : (id, piece, value, below) ∈ (trees i).nodes)
    (begin_ : Nat) (first : T) (rest : List T) (matcher : SearchMatcher T)
    (hid : (if begin_ = EMPTY then B.getRoot s.store (shardOf E first R.sharding) else begin_) = id) :
    ∃ found, (∃ n, ∀ fuel, n ≤ fuel → ∀ deadlines,
        Radix.searchCalls B E R s.store fuel begin_ (first :: rest) matcher deadlines none = some (.ok found)) ∧
      match Forest.visit (Radix.matches_ (first :: rest) matcher) (first :: rest) id piece value below 0 with
      | none => found = []
      | some (id, piece, value, below) => found.Perm (Forest.tree id piece value below).gathered := by
  have hne : id ≠ EMPTY := by
    refine (h.planted i).pos id ?_
    rw [Forest.names_eq]
    exact List.mem_map_of_mem hn
  obtain ⟨found, hends, hfound⟩ := Radix.visit_ends (first :: rest) matcher S h.opened
    ((h.planted i).holds.of_mem hn) ((h.rooted i).wf_of_mem hn) (Forest.nodup_names_of_mem (h.planted i).nodup hn)
  exact ⟨found, Radix.ends_start begin_ first rest hid hne hends, hfound⟩

omit [DecidableEq T] in
/-- The records of a node with a piece are gathered once each when the keys are not tangled. -/
theorem gathered_nodup (h : Trees B E R Open s b trees stored) (hn : (id, piece, value, below) ∈ (trees i).nodes) (hpiece : piece ≠ [])
    (hstored : Untangled stored) : (Forest.tree id piece value below).gathered.Nodup := by
  obtain ⟨u, hu⟩ := Forest.entries_of_mem hn
  have hmem : ∀ e ∈ (Forest.tree id piece value below).entries, (u ++ e.1, e.2) ∈ stored := fun e he =>
    (h.mem_entries.mp (hu.subset (List.mem_map_of_mem he))).1
  have hhead : ∀ e ∈ (Forest.tree id piece value below).entries, (u ++ e.1).head? = (u ++ piece).head? := by
    intro e he
    obtain ⟨rest, hrest⟩ := Forest.piece_isPrefix he
    rw [← hrest, ← List.append_assoc]
    exact List.head?_append_of_ne_nil _ (by simp [hpiece])
  have happly : ∀ e ∈ (Forest.tree id piece value below).entries, ∀ e' ∈ (Forest.tree id piece value below).entries, e.1 ≠ e'.1 →
      e.2 ≠ e'.2 ∧ ¬e.1 <+: e'.1 := by
    intro e he e' he' hne
    obtain ⟨hvalue, hpre⟩ := hstored _ (hmem e he) _ (hmem e' he') ((hhead e he).trans (hhead e' he').symm)
      fun heq => hne (List.append_cancel_left heq)
    exact ⟨hvalue, fun hpre' => hpre ((List.prefix_append_right_inj u).mpr hpre')⟩
  rw [Forest.gathered_nodup]
  constructor
  · have hwf := (h.rooted i).wf_of_mem hn
    have hlive := (h.live i).of_mem hn
    rw [Forest.leafy_tree_iff hwf hlive (Forest.leafy_iff hwf hlive.2.1)]
    intro e he e' he' hpre
    by_contra hne
    exact (happly e he e' he' hne).2 hpre
  · have hkeys : ((trees i).entries.map Prod.fst).Nodup := by
      rw [((h.entries i).map Prod.fst).nodup_iff]
      exact h.distinct.sublist (List.filter_sublist.map _)
    have hunder : ((Forest.under u (Forest.tree id piece value below).entries).map Prod.fst).Nodup := hkeys.sublist (hu.map _)
    have hnodup : (Forest.tree id piece value below).entries.Nodup := List.Nodup.of_map _ (List.Nodup.of_map _ hunder)
    refine List.Nodup.map_on (fun e he e' he' heq => ?_) hnodup
    by_contra hne
    have hkey : e.1 ≠ e'.1 := fun hkey => hne (Prod.ext hkey heq)
    exact (happly e he e' he' hkey).1 heq

/-- A shard without a root has no records. -/
theorem searchCalls_empty {s : σ} (first : T) (rest : List T) (matcher : SearchMatcher T)
    (h : B.getRoot s (shardOf E first R.sharding) = EMPTY) (fuel : Nat) (deadlines : List Nat) :
    Radix.searchCalls B E R s fuel EMPTY (first :: rest) matcher deadlines none = some (.ok []) := by
  cases deadlines <;> simp [Radix.searchCalls, Radix.searchDfs, Radix.dfsStart, h, Except.map]

omit [DecidableEq T] in
/-- The keys that begin with an element are below a node whose piece begins with it. -/
theorem exists_node (h : Trees B E R Open s b trees stored) {key : List T} {x : Nat} {a : T} (hkey : (key, x) ∈ stored)
    (ha : key.head? = some a) : ∃ i id piece value below, (id, piece, value, below) ∈ (trees i).nodes ∧ piece.head? = some a ∧
      ∀ e ∈ stored, e.1.head? = some a → e ∈ (Forest.tree id piece value below).entries := by
  have hshard : ∀ key : List T, key.head? = some a → shardKey E R key = some (shardOf E a R.sharding) := by
    intro key ha
    unfold shardKey
    rw [ha]
    rfl
  have hmem : ∀ e ∈ stored, e.1.head? = some a → e ∈ (trees (shardOf E a R.sharding)).entries := fun e he hea =>
    h.mem_entries.mpr ⟨he, hshard _ hea⟩
  have hentry := hmem _ hkey ha
  have hrooted := h.rooted (shardOf E a R.sharding)
  refine ⟨shardOf E a R.sharding, ?_⟩
  generalize trees (shardOf E a R.sharding) = f at hmem hentry hrooted
  generalize (B.view s.store).roots (shardOf E a R.sharding) = root at hrooted
  cases hrooted with
  | nil => cases hentry
  | @tree _ piece value below hwf =>
    by_cases hpiece : piece = []
    · -- keys of different first elements share the shard, and part at an empty root
      subst hpiece
      have hdown : ∀ e ∈ (Forest.tree root [] value below).entries, e.1.head? = some a → e ∈ below.entries := by
        intro e he hea
        rcases Forest.mem_tree_entries.mp he with ⟨hnil, -⟩ | ⟨rest, hrest, hmem⟩
        · rw [hnil] at hea
          cases hea
        · rw [List.nil_append] at hrest
          rwa [← hrest] at hmem
      obtain ⟨id', piece', value', below', hn, -, hhead, hall⟩ := Forest.exists_top hwf (hdown _ hentry ha) ha
      refine ⟨id', piece', value', below', List.mem_cons_of_mem _ (List.mem_append_left _ hn), hhead, fun e he hea => ?_⟩
      exact hall e (hdown e (hmem e he hea) hea) hea
    · refine ⟨root, piece, value, below, List.mem_cons_self, ?_, hmem⟩
      rw [← ha, Forest.head_of_isPrefix hpiece (Forest.piece_isPrefix hentry)]

/-- On the trees of an index a search gives every record once exactly when the keys are not tangled. -/
theorem searchesOnce_iff (S : B.Serial Open) (h : Trees B E R Open s b trees stored) {matcher : List T → SearchMatcher T}
    (hmatcher : ∀ pattern, (matcher pattern).Sees) : SearchesOnce B E R s.store matcher ↔ Untangled stored := by
  constructor
  · intro honce e he e' he' hhead hne
    obtain ⟨a, rest, hkey⟩ := List.exists_cons_of_ne_nil (h.keys e he)
    have ha : e.1.head? = some a := by rw [hkey]; rfl
    obtain ⟨i, id, piece, value, below, hn, hpiece, hall⟩ := h.exists_node he ha
    have hid : id ≠ EMPTY := by
      refine (h.planted i).pos id ?_
      rw [Forest.names_eq]
      exact List.mem_map_of_mem hn
    -- the pattern of this element is found in the piece
    have hvisit : Forest.visit (Radix.matches_ [a] (matcher [a])) [a] id piece value below 0 = some (id, piece, value, below) := by
      obtain ⟨ps, rfl⟩ : ∃ ps, piece = a :: ps := by
        cases piece with
        | nil => cases hpiece
        | cons p ps => exact ⟨ps, by rw [Option.some.inj hpiece]⟩
      unfold Forest.visit Radix.matches_
      rw [if_pos ((hmatcher [a]).head a ps)]
    obtain ⟨found, ⟨n, hn'⟩, hfound⟩ := h.ends_node S hn id a [] (matcher [a]) (by rw [if_neg hid])
    rw [hvisit] at hfound
    obtain ⟨n', hn''⟩ := honce id [a] (Or.inr (h.reached hn)) (List.cons_ne_nil a [])
    obtain ⟨found', hcalls, hnodup⟩ := hn'' (max n n') (le_max_right n n') []
    have heq : found = found' := by
      have := (hn' (max n n') (le_max_left n n') []).symm.trans hcalls
      simpa using this
    subst heq
    obtain ⟨hleafy, hvalues⟩ := Forest.gathered_nodup.mp (hfound.nodup_iff.mp hnodup)
    have hwf := (h.rooted i).wf_of_mem hn
    have hlive := (h.live i).of_mem hn
    rw [Forest.leafy_tree_iff hwf hlive (Forest.leafy_iff hwf hlive.2.1)] at hleafy
    have hin := hall e he ha
    have hin' := hall e' he' (hhead ▸ ha)
    refine ⟨fun hvalue => hne ?_, fun hpre => hne (hleafy e hin e' hin' hpre)⟩
    rw [List.inj_on_of_nodup_map hvalues hin hin' hvalue]
  · intro hstored begin_ pattern hbegin hpattern
    obtain ⟨first, rest, rfl⟩ := List.exists_cons_of_ne_nil hpattern
    generalize hid : (if begin_ = EMPTY then B.getRoot s.store (shardOf E first R.sharding) else begin_) = id
    by_cases hempty : id = EMPTY
    · have hroot : begin_ = EMPTY ∧ B.getRoot s.store (shardOf E first R.sharding) = EMPTY := by
        split_ifs at hid with heq
        · exact ⟨heq, hid.trans hempty⟩
        · exact absurd (hid.trans hempty) heq
      obtain ⟨rfl, hroot⟩ := hroot
      exact ⟨0, fun fuel _ deadlines => ⟨[], searchCalls_empty first rest _ hroot fuel deadlines, List.nodup_nil⟩⟩
    · have hreached : Reached B s.store id := by
        split_ifs at hid with heq
        · subst hid
          exact Reached.root _ hempty
        · exact hid ▸ hbegin.resolve_left heq
      obtain ⟨i, hname⟩ := h.exists_name S hreached
      rw [Forest.names_eq] at hname
      obtain ⟨⟨id', piece, value, below⟩, hn, rfl⟩ := List.mem_map.mp hname
      obtain ⟨found, ⟨n, hcalls⟩, hfound⟩ := h.ends_node S hn _ first rest (matcher (first :: rest)) hid
      refine ⟨n, fun fuel hfuel deadlines => ⟨found, hcalls fuel hfuel deadlines, ?_⟩⟩
      split at hfound
      · rw [hfound]
        exact List.nodup_nil
      · rename_i id piece value below hvisit
        obtain ⟨hnode, k, hk⟩ := Forest.visit_mem hvisit
        have hpiece : piece ≠ [] := by
          rintro rfl
          have hsome : (matcher (first :: rest) [] (first :: rest) k).found = true := hk
          rw [(hmatcher (first :: rest)).nil] at hsome
          cases hsome
        exact hfound.nodup_iff.mpr (h.gathered_nodup (Forest.nodes_trans hn hnode) hpiece hstored)

end Trees

/-- On every backend, over any elements and any number of shards, and whatever was inserted: every search ends and gives each record
once exactly when, among the keys that begin with one element, the records are different and no key begins another. -/
theorem searches_once_iff (k : Kind) (E : Element T) (R : Radix T) (sharding : Nat) (as : List (Radix.Insertion T)) :
    (SearchesOnce k.backend E R ((R.machine k.backend E).state as).store Search.kmpMatcher ↔
      Untangled (firsts (accepted ((R.machine k.backend E).trace as)))) ∧
    (SearchesOnce k.backend E (Search.trie E sharding) ((Search.machine k.backend E sharding).state as).store Search.kmpMatcher ↔
      Untangled (firsts (accepted ((Search.machine k.backend E sharding).trace as)))) := by
  obtain ⟨Open, S⟩ := k.serial
  constructor
  · obtain ⟨b, trees, h⟩ := inv_of_steps (R := R) ⟨1, _, Trees.new S⟩ (Radix.machine_steps S) as
    exact h.searchesOnce_iff S Search.kmpMatcher_sees
  · obtain ⟨⟨b, trees, h⟩, -⟩ := inv_of_steps (R := Search.trie E sharding) ⟨⟨1, _, Trees.new S⟩, rfl⟩
      (Search.machine_steps S sharding) as
    exact h.searchesOnce_iff S Search.kmpMatcher_sees

/-- Three keys, two of which the first one begins. -/
def nestedKeys : List (Radix.Insertion (BitVec 8)) := [⟨[97], 1, []⟩, ⟨[97, 98], 2, []⟩, ⟨[97, 99], 3, []⟩]

/-- The record of the first key is given once for itself and once for each of the others. -/
theorem nested_keys_repeat :
    Radix.searchCalls Kind.inMemory.backend (Element.int false 1 (by decide)) (Radix.new (BitVec 8) 1)
        (((Radix.new (BitVec 8) 1).machine Kind.inMemory.backend (Element.int false 1 (by decide))).state nestedKeys).store 8 EMPTY
        [97] (Search.kmpMatcher [97]) [] none = some (.ok [1, 2, 1, 3, 1]) ∧
      ¬SearchesOnce Kind.inMemory.backend (Element.int false 1 (by decide)) (Radix.new (BitVec 8) 1)
        (((Radix.new (BitVec 8) 1).machine Kind.inMemory.backend (Element.int false 1 (by decide))).state nestedKeys).store
        Search.kmpMatcher := by
  refine ⟨by decide +kernel, ?_⟩
  obtain ⟨Open, S⟩ := Kind.inMemory.serial
  obtain ⟨b, trees, h⟩ := inv_of_steps (R := Radix.new (BitVec 8) 1) ⟨1, _, Trees.new S⟩
    (Radix.machine_steps (E := Element.int false 1 (by decide)) S) nestedKeys
  rw [h.searchesOnce_iff S Search.kmpMatcher_sees]
  decide +kernel

end Opsense
