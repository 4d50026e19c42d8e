import Mathlib

/-!
# Radix forests

Trees side by side that hold values under keys: a node has a piece of the key, the value under the key that ends there, and the
forest of what follows. In a well-formed forest no piece is empty, and trees side by side begin with different letters. Then a
key is found by its letters: `insert` adds a key that is not there and changes nothing else (`entries_insert`), and the keys that
begin with given letters are those below one place (`beginning_tree`, `beginning_node`).
-/

namespace Opsense

section

variable {α : Type*} [DecidableEq α]

/-- How many letters two keys have in common at their beginning. -/
def common (a b : List α) : Nat := ((a.zip b).takeWhile fun p => p.1 = p.2).length

@[simp] theorem common_nil_left (b : List α) : common [] b = 0 := rfl

@[simp] theorem common_nil_right (a : List α) : common a [] = 0 := by
  simp [common]

theorem common_cons (x y : α) (a b : List α) : common (x :: a) (y :: b) = if x = y then common a b + 1 else 0 := by
  unfold common
  rw [List.zip_cons_cons, List.takeWhile_cons]
  by_cases h : x = y <;> simp [h]

theorem common_le_left (a b : List α) : common a b ≤ a.length := by
  induction a generalizing b with
  | nil => simp
  | cons x a ih =>
    cases b with
    | nil => simp
    | cons y b =>
      rw [common_cons]
      split_ifs
      · simpa using ih b
      · simp

/-- One key begins with the other exactly when all the letters of the other are common. -/
theorem common_eq_left (a b : List α) : common a b = a.length ↔ a <+: b := by
  induction a generalizing b with
  | nil => simp
  | cons x a ih =>
    cases b with
    | nil => simp
    | cons y b =>
      rw [common_cons, List.cons_prefix_cons]
      by_cases h : x = y
      · simpa [h] using ih b
      · simp [h]

theorem common_comm (a b : List α) : common a b = common b a := by
  induction a generalizing b with
  | nil => simp
  | cons x a ih =>
    cases b with
    | nil => simp
    | cons y b =>
      rw [common_cons, common_cons, ih b]
      simp only [eq_comm]

theorem common_le_right (a b : List α) : common a b ≤ b.length := common_comm a b ▸ common_le_left b a

theorem common_eq_right (a b : List α) : common a b = b.length ↔ b <+: a := by
  rw [common_comm, common_eq_left]

theorem take_common (a b : List α) : a.take (common a b) = b.take (common a b) := by
  induction a generalizing b with
  | nil => simp
  | cons x a ih =>
    cases b with
    | nil => simp
    | cons y b =>
      rw [common_cons]
      split_ifs with h
      · rw [List.take_succ_cons, List.take_succ_cons, h, ih b]
      · rfl

/-- The letters after the common ones differ. -/
theorem head_drop_common {a b : List α} (ha : common a b < a.length) : (a.drop (common a b)).head? ≠ (b.drop (common a b)).head? := by
  induction a generalizing b with
  | nil => simp at ha
  | cons x a ih =>
    cases b with
    | nil => simp
    | cons y b =>
      rw [common_cons] at ha ⊢
      split_ifs at ha ⊢ with h
      · rw [List.drop_succ_cons, List.drop_succ_cons]
        exact ih (by simpa using ha)
      · simpa using h

end

/-- Trees side by side: a node with its name, its piece of the key, its value and what follows it, and the trees beside it. -/
inductive Forest (ι α ν : Type*) where
  | nil
  | node (id : ι) (piece : List α) (value : Option ν) (below beside : Forest ι α ν)

namespace Forest

variable {ι α ν : Type*}

/-- The values below a piece of the key. -/
def under (piece : List α) (es : List (List α × ν)) : List (List α × ν) := es.map fun e => (piece ++ e.1, e.2)

/-- The values with their keys. -/
def entries : Forest ι α ν → List (List α × ν)
  | .nil => []
  | .node _ piece value below beside =>
    value.toList.map (Prod.mk piece) ++ under piece below.entries ++ beside.entries

/-- The keys. -/
def keys (f : Forest ι α ν) : List (List α) := f.entries.map Prod.fst

/-- The first letters of the trees. -/
def heads : Forest ι α ν → List (Option α)
  | .nil => []
  | .node _ piece _ _ beside => piece.head? :: beside.heads

/-- The names of the trees. -/
def tops : Forest ι α ν → List ι
  | .nil => []
  | .node id _ _ _ beside => id :: beside.tops

/-- The names of all nodes. -/
def names : Forest ι α ν → List ι
  | .nil => []
  | .node id _ _ below beside => id :: (below.names ++ beside.names)

/-- No piece is empty, and trees side by side begin with different letters. -/
def Wf : Forest ι α ν → Prop
  | .nil => True
  | .node _ piece _ below beside => piece ≠ [] ∧ piece.head? ∉ beside.heads ∧ below.Wf ∧ beside.Wf

/-- Every node has a value, or a tree below it. -/
def Live : Forest ι α ν → Prop
  | .nil => True
  | .node _ _ value below beside => (value.isSome ∨ below ≠ .nil) ∧ below.Live ∧ beside.Live

@[simp] theorem under_nil (es : List (List α × ν)) : under [] es = es := by
  simp [under]

@[simp] theorem under_empty (piece : List α) : under piece ([] : List (List α × ν)) = [] := rfl

@[simp] theorem under_append (piece : List α) (es es' : List (List α × ν)) :
    under piece (es ++ es') = under piece es ++ under piece es' := by
  simp [under]

@[simp] theorem under_under (piece piece' : List α) (es : List (List α × ν)) :
    under piece (under piece' es) = under (piece ++ piece') es := by
  simp [under]

@[simp] theorem under_value (piece piece' : List α) (value : Option ν) :
    under piece (value.toList.map (Prod.mk piece')) = value.toList.map (Prod.mk (piece ++ piece')) := by
  cases value <;> rfl

theorem under_perm {es es' : List (List α × ν)} (h : es.Perm es') (piece : List α) : (under piece es).Perm (under piece es') :=
  h.map _

theorem mem_under {piece : List α} {es : List (List α × ν)} {e : List α × ν} :
    e ∈ under piece es ↔ ∃ rest, e.1 = piece ++ rest ∧ (rest, e.2) ∈ es := by
  unfold under
  rw [List.mem_map]
  constructor
  · rintro ⟨e', he', rfl⟩
    exact ⟨e'.1, rfl, he'⟩
  · rintro ⟨rest, hrest, hmem⟩
    exact ⟨(rest, e.2), hmem, by rw [← hrest]⟩

/-- The tree of a node, without those beside it. -/
def tree (id : ι) (piece : List α) (value : Option ν) (below : Forest ι α ν) : Forest ι α ν := .node id piece value below .nil

theorem entries_node (id : ι) (piece : List α) (value : Option ν) (below beside : Forest ι α ν) :
    (node id piece value below beside).entries = (tree id piece value below).entries ++ beside.entries := by
  simp [entries, tree]

variable {f : Forest ι α ν}

/-- Every key begins like a tree of the forest. -/
theorem head_mem (h : f.Wf) {key : List α} {x : ν} (hmem : (key, x) ∈ f.entries) :
    key.head? ∈ f.heads ∧ key ≠ [] := by
  induction f with
  | nil => simp [entries] at hmem
  | node id piece value below beside ihbelow ihbeside =>
    obtain ⟨hpiece, -, hbelow, hbeside⟩ := h
    simp only [entries, List.mem_append, heads, List.mem_cons] at hmem ⊢
    rcases hmem with (hmem | hmem) | hmem
    · obtain ⟨y, -, heq⟩ := List.mem_map.mp hmem
      obtain ⟨rfl, -⟩ := Prod.mk.inj heq
      exact ⟨Or.inl rfl, hpiece⟩
    · obtain ⟨rest, hkey, -⟩ := mem_under.mp hmem
      dsimp only at hkey
      rw [hkey]
      exact ⟨Or.inl (List.head?_append_of_ne_nil _ hpiece), by simp [hpiece]⟩
    · exact ⟨Or.inr (ihbeside hbeside hmem).1, (ihbeside hbeside hmem).2⟩

variable {id : ι} {x : ν} {key piece : List α} {value : Option ν} {below : Forest ι α ν}

theorem mem_tree_entries {e : List α × ν} : e ∈ (tree id piece value below).entries ↔
    (e.1 = piece ∧ e.2 ∈ value) ∨ ∃ rest, e.1 = piece ++ rest ∧ (rest, e.2) ∈ below.entries := by
  simp only [tree, entries, List.append_nil, List.mem_append, mem_under, List.mem_map, Option.mem_toList]
  refine or_congr_left ⟨?_, ?_⟩
  · rintro ⟨y, hy, rfl⟩
    exact ⟨rfl, hy⟩
  · rintro ⟨h1, h2⟩
    exact ⟨e.2, h2, by rw [← h1]⟩

theorem mem_keys : key ∈ f.keys ↔ ∃ y, (key, y) ∈ f.entries := by
  simp [keys]

/-- The keys of a tree begin with its piece. -/
theorem piece_isPrefix {y : ν} (h : (key, y) ∈ (tree id piece value below).entries) : piece <+: key := by
  rcases mem_tree_entries.mp h with ⟨rfl, -⟩ | ⟨rest, rfl, -⟩
  · exact List.prefix_refl _
  · exact List.prefix_append _ _

theorem head_of_isPrefix {letters : List α} (hletters : letters ≠ []) (h : letters <+: key) : key.head? = letters.head? := by
  obtain ⟨rest, rfl⟩ := h
  exact List.head?_append_of_ne_nil _ hletters

/-- The piece itself is a key if there is a value. -/
theorem mem_keys_piece (hbelow : below.Wf) : piece ∈ (tree id piece value below).keys ↔ value.isSome := by
  rw [mem_keys, Option.isSome_iff_exists]
  constructor
  · rintro ⟨y, hy⟩
    rcases mem_tree_entries.mp hy with ⟨-, hvalue⟩ | ⟨rest, heq, hrest⟩
    · exact ⟨y, hvalue⟩
    · exact absurd (List.self_eq_append_right.mp heq) (head_mem hbelow hrest).2
  · rintro ⟨y, hy⟩
    exact ⟨y, mem_tree_entries.mpr (Or.inl ⟨rfl, hy⟩)⟩

/-- A longer key is in a tree if its rest is below. -/
theorem mem_keys_rest {rest : List α} (hrest : rest ≠ []) :
    piece ++ rest ∈ (tree id piece value below).keys ↔ rest ∈ below.keys := by
  rw [mem_keys, mem_keys]
  refine exists_congr fun y => ?_
  rw [mem_tree_entries]
  constructor
  · rintro (⟨heq, -⟩ | ⟨rest', heq, hmem⟩)
    · exact absurd (List.self_eq_append_right.mp heq.symm) hrest
    · rwa [← List.append_cancel_left heq] at hmem
  · exact fun hmem => Or.inr ⟨rest, rfl, hmem⟩

theorem mem_keys_node {beside : Forest ι α ν} :
    key ∈ (node id piece value below beside).keys ↔ key ∈ (tree id piece value below).keys ∨ key ∈ beside.keys := by
  rw [keys, entries_node, List.map_append, List.mem_append]
  rfl

theorem tops_sublist (f : Forest ι α ν) : f.tops.Sublist f.names := by
  induction f with
  | nil => exact List.Sublist.refl _
  | node id piece value below beside _ ihbeside =>
    exact (ihbeside.trans (List.sublist_append_right _ _)).cons_cons _

/-- The tree with a name. -/
def named [DecidableEq ι] : Forest ι α ν → ι → Forest ι α ν
  | .nil, _ => .nil
  | .node id piece value below beside, i => if i = id then tree id piece value below else beside.named i

/-- What a forest has tree by tree is what its trees have, in any order. -/
theorem flatMap_named [DecidableEq ι] {β : Type*} (g : Forest ι α ν → List β) (hnil : g .nil = [])
    (hnode : ∀ id piece value below beside, g (node id piece value below beside) = g (tree id piece value below) ++ g beside)
    (h : f.tops.Nodup) {is : List ι} (his : is.Perm f.tops) : (is.flatMap fun i => g (f.named i)).Perm (g f) := by
  refine (his.flatMap_right _).trans ?_
  clear his
  induction f with
  | nil => exact hnil ▸ List.Perm.refl _
  | node id piece value below beside _ ihbeside =>
    obtain ⟨hid, hnodup⟩ := List.nodup_cons.mp h
    have hrest : (beside.tops.flatMap fun i => g ((node id piece value below beside).named i)) =
        beside.tops.flatMap fun i => g (beside.named i) := by
      refine List.flatMap_congr fun i hi => ?_
      have hne : i ≠ id := fun heq => hid (heq ▸ hi)
      simp only [named, hne, if_false]
    rw [tops, List.flatMap_cons, hrest, hnode]
    simp only [named, if_true]
    exact (ihbeside hnodup).append_left _

theorem entries_named [DecidableEq ι] (h : f.tops.Nodup) {is : List ι} (his : is.Perm f.tops) :
    (is.flatMap fun i => (f.named i).entries).Perm f.entries :=
  flatMap_named entries rfl entries_node h his

variable [DecidableEq α]

/-- A node takes a key: it is divided where the key leaves its piece, takes the value if the key ends with the piece, and
otherwise `deeper` is what follows it. -/
def graft (leg new : ι) (x : ν) (key : List α) (id : ι) (piece : List α) (value : Option ν)
    (below deeper beside : Forest ι α ν) : Forest ι α ν :=
  let c := common piece key
  if c < piece.length then
    if key.drop c = [] then .node id (piece.take c) (some x) (.node leg (piece.drop c) value below .nil) beside
    else .node id (piece.take c) none
      (.node leg (piece.drop c) value below (.node new (key.drop c) (some x) .nil .nil)) beside
  else if key.drop c = [] then .node id piece (value.or (some x)) below beside
  else .node id piece value deeper beside

/-- The forest with a value under a key that has none. `new` and `leg` name the nodes that come to it. -/
def insert (leg new : ι) (x : ν) : Forest ι α ν → List α → Forest ι α ν
  | .nil, key => .node new key (some x) .nil .nil
  | .node id piece value below beside, key =>
    if piece.head? = key.head? then
      graft leg new x key id piece value below (below.insert leg new x (key.drop (common piece key))) beside
    else .node id piece value below (beside.insert leg new x key)

variable {leg new : ι} {deeper beside : Forest ι α ν}

/-- The rest of a key that begins with the piece. -/
theorem eq_append_drop (h : ¬common piece key < piece.length) : key = piece ++ key.drop (common piece key) := by
  have hc : common piece key = piece.length := le_antisymm (common_le_left _ _) (not_lt.mp h)
  obtain ⟨rest, rfl⟩ := (common_eq_left piece key).mp hc
  rw [hc, List.drop_left]

theorem common_pos (hpiece : piece ≠ []) (h : piece.head? = key.head?) : 0 < common piece key := by
  obtain ⟨a, as, rfl⟩ := List.exists_cons_of_ne_nil hpiece
  cases key with
  | nil => simp at h
  | cons b bs =>
    obtain rfl : a = b := by simpa using h
    rw [common_cons, if_pos rfl]
    exact Nat.succ_pos _

/-! ## Keys of a tree -/

/-- A key that leaves the piece of a tree is not in it. -/
theorem not_mem_keys_of_lt (h : common piece key < piece.length) : key ∉ (tree id piece value below).keys := by
  intro hmem
  obtain ⟨y, hy⟩ := mem_keys.mp hmem
  have hc := (common_eq_left piece key).mpr (piece_isPrefix hy)
  omega

theorem mem_keys_drop (hc : ¬common piece key < piece.length) (hrest : key.drop (common piece key) ≠ []) :
    key ∈ (tree id piece value below).keys ↔ key.drop (common piece key) ∈ below.keys := by
  conv_lhs => rw [eq_append_drop hc]
  exact mem_keys_rest hrest

/-- A key that begins like a tree is in no tree beside it, and one that does not is in one beside it. -/
theorem mem_keys_head {beside : Forest ι α ν} (h : (node id piece value below beside).Wf) :
    key ∈ (node id piece value below beside).keys ↔
      if piece.head? = key.head? then key ∈ (tree id piece value below).keys else key ∈ beside.keys := by
  obtain ⟨hpiece, hheads, -, hbeside⟩ := h
  rw [mem_keys_node]
  split_ifs with hhead
  · refine or_iff_left fun hmem => ?_
    obtain ⟨y, hy⟩ := mem_keys.mp hmem
    rw [hhead] at hheads
    exact hheads (head_mem hbeside hy).1
  · refine or_iff_right fun hmem => ?_
    obtain ⟨y, hy⟩ := mem_keys.mp hmem
    exact hhead (head_of_isPrefix hpiece (piece_isPrefix hy)).symm

/-! ## Insertion -/

/-- A key that is not there comes to the others. -/
theorem entries_graft (hnot : key ∉ (tree id piece value below).keys)
    (hdeeper : key.drop (common piece key) ∉ below.keys → key.drop (common piece key) ≠ [] →
      deeper.entries.Perm ((key.drop (common piece key), x) :: below.entries)) :
    (graft leg new x key id piece value below deeper beside).entries.Perm
      ((key, x) :: (node id piece value below beside).entries) := by
  have htake : piece.take (common piece key) ++ piece.drop (common piece key) = piece := List.take_append_drop _ _
  have hkey : piece.take (common piece key) ++ key.drop (common piece key) = key := by
    rw [take_common, List.take_append_drop]
  unfold graft
  dsimp only
  split_ifs with hc hrest hrest
  · rw [hrest, List.append_nil] at hkey
    simp only [entries, Option.toList_some, List.map_cons, List.map_nil, List.append_nil, under_append, under_under, under_value,
      htake]
    rw [hkey]
    exact List.Perm.refl _
  · simp only [entries, Option.toList_some, Option.toList_none, List.map_cons, List.map_nil, List.append_nil, List.nil_append,
      under_append, under_under, under_value, htake, List.append_assoc]
    have hnew : under (piece.take (common piece key)) [(key.drop (common piece key), x)] = [(key, x)] := by
      simp [under, hkey]
    rw [under_empty, List.nil_append, hnew, List.singleton_append, ← List.append_assoc, ← List.append_assoc]
    exact List.perm_middle
  · have hwhole := eq_append_drop hc
    rw [hrest, List.append_nil] at hwhole
    subst hwhole
    cases value with
    | none => exact List.Perm.refl _
    | some y => exact absurd (mem_keys.mpr ⟨y, mem_tree_entries.mpr (Or.inl ⟨rfl, rfl⟩)⟩) hnot
  · have hwhole := eq_append_drop hc
    have hnew : key.drop (common piece key) ∉ below.keys := fun hmem => hnot ((mem_keys_drop hc hrest).mpr hmem)
    have hperm := under_perm (hdeeper hnew hrest) piece
    have hcons : under piece ((key.drop (common piece key), x) :: below.entries) = (key, x) :: under piece below.entries := by
      simp only [under, List.map_cons]
      rw [← hwhole]
    rw [hcons] at hperm
    simp only [entries]
    refine ((hperm.append_left _).append_right _).trans ?_
    rw [List.append_cons, List.append_assoc, List.append_assoc]
    exact List.perm_middle.trans (by simp)

theorem entries_insert (h : f.Wf) {key : List α} (hkey : key ≠ []) (hnot : key ∉ f.keys) :
    (f.insert leg new x key).entries.Perm ((key, x) :: f.entries) := by
  induction f generalizing key with
  | nil => simp [insert, entries, under]
  | node id piece value below beside ihbelow ihbeside =>
    obtain ⟨hpiece, hheads, hbelow, hbeside⟩ := h
    have hnot' := not_or.mp (fun hmem => hnot (mem_keys_node.mpr hmem))
    unfold insert
    split_ifs with hhead
    · exact entries_graft hnot'.1 fun hrest hne => ihbelow hbelow hne hrest
    · rw [entries_node, entries_node]
      exact ((ihbeside hbeside hkey hnot'.2).append_left _).trans List.perm_middle

/-- What a node is after it took a key. -/
theorem wf_graft (leg new : ι) (x : ν) (id : ι) (value : Option ν) (beside : Forest ι α ν) (hbelow : below.Wf)
    (hdeeper : key.drop (common piece key) ≠ [] → deeper.Wf) : ∃ piece' value' below',
      graft leg new x key id piece value below deeper beside = .node id piece' value' below' beside ∧ below'.Wf ∧
      (piece ≠ [] → piece.head? = key.head? → piece' ≠ [] ∧ piece'.head? = piece.head?) := by
  have hcut : common piece key < piece.length → piece.drop (common piece key) ≠ [] := by
    intro hc heq
    exact absurd (List.drop_eq_nil_iff.mp heq) (not_le.mpr hc)
  have hhead : piece ≠ [] → piece.head? = key.head? → piece.take (common piece key) ≠ [] ∧
      (piece.take (common piece key)).head? = piece.head? := by
    intro hpiece heq
    have hpos := common_pos hpiece heq
    refine ⟨by simp [hpiece]; omega, ?_⟩
    rw [List.head?_take, if_neg (by omega)]
  unfold graft
  dsimp only
  split_ifs with hc hrest hrest
  · exact ⟨_, _, _, rfl, ⟨hcut hc, by simp [heads], hbelow, trivial⟩, hhead⟩
  · refine ⟨_, _, _, rfl, ⟨hcut hc, ?_, hbelow, hrest, by simp [heads], trivial, trivial⟩, hhead⟩
    simpa [heads] using head_drop_common hc
  · exact ⟨_, _, _, rfl, hbelow, fun hpiece _ => ⟨hpiece, rfl⟩⟩
  · exact ⟨_, _, _, rfl, hdeeper hrest, fun hpiece _ => ⟨hpiece, rfl⟩⟩

theorem wf_insert (h : f.Wf) {key : List α} (hkey : key ≠ []) :
    (f.insert leg new x key).Wf ∧ ∀ a ∈ (f.insert leg new x key).heads, a ∈ f.heads ∨ a = key.head? := by
  induction f generalizing key with
  | nil => exact ⟨⟨hkey, by simp [heads], trivial, trivial⟩, fun a ha => Or.inr (by simpa [insert, heads] using ha)⟩
  | node id piece value below beside ihbelow ihbeside =>
    obtain ⟨hpiece, hheads, hbelow, hbeside⟩ := h
    unfold insert
    split_ifs with hhead
    · obtain ⟨piece', value', below', heq, hbelow', hpiece'⟩ :=
        wf_graft leg new x id value beside hbelow fun hrest : key.drop (common piece key) ≠ [] => (ihbelow hbelow hrest).1
      obtain ⟨hne, hsame⟩ := hpiece' hpiece hhead
      rw [heq]
      refine ⟨⟨hne, hsame ▸ hheads, hbelow', hbeside⟩, fun a ha => Or.inl ?_⟩
      simpa [heads, hsame] using ha
    · obtain ⟨hwf, hheads'⟩ := ihbeside hbeside hkey
      refine ⟨⟨hpiece, fun hmem => ?_, hbelow, hwf⟩, fun a ha => ?_⟩
      · rcases hheads' _ hmem with hmem | heq
        · exact hheads hmem
        · exact hhead heq
      · rcases List.mem_cons.mp ha with rfl | ha
        · exact Or.inl List.mem_cons_self
        · exact (hheads' a ha).imp_left (List.mem_cons_of_mem _)

theorem insert_ne_nil (leg new : ι) (x : ν) (f : Forest ι α ν) (key : List α) : f.insert leg new x key ≠ .nil := by
  cases f with
  | nil => exact nofun
  | node id piece value below beside =>
    unfold insert graft
    dsimp only
    split_ifs <;> exact nofun

theorem live_graft (leg new : ι) (x : ν) (id : ι) (beside : Forest ι α ν) (h : (node id piece value below beside).Live)
    (hdeeper : deeper.Live ∧ deeper ≠ .nil) : (graft leg new x key id piece value below deeper beside).Live := by
  obtain ⟨hnode, hbelow, hbeside⟩ := h
  unfold graft
  dsimp only
  split_ifs with hc hrest hrest
  · exact ⟨Or.inl rfl, ⟨hnode, hbelow, trivial⟩, hbeside⟩
  · exact ⟨Or.inr nofun, ⟨hnode, hbelow, ⟨Or.inl rfl, trivial, trivial⟩⟩, hbeside⟩
  · refine ⟨Or.inl ?_, hbelow, hbeside⟩
    cases value <;> rfl
  · exact ⟨Or.inr hdeeper.2, hdeeper.1, hbeside⟩

theorem live_insert (h : f.Live) (leg new : ι) (x : ν) (key : List α) : (f.insert leg new x key).Live := by
  induction f generalizing key with
  | nil => exact ⟨Or.inl rfl, trivial, trivial⟩
  | node id piece value below beside ihbelow ihbeside =>
    unfold insert
    split_ifs
    · exact live_graft leg new x id beside h ⟨ihbelow h.2.1 _, insert_ne_nil leg new x below _⟩
    · exact ⟨h.1, h.2.1, ihbeside h.2.2 key⟩

/-! ## Names -/

/-- A key that begins like none of the trees makes a tree of its own. -/
theorem tops_insert_of_not_mem {key : List α} (h : key.head? ∉ f.heads) :
    (f.insert leg new x key).tops = f.tops ++ [new] := by
  induction f with
  | nil => rfl
  | node id piece value below beside _ ihbeside =>
    simp only [heads, List.mem_cons, not_or] at h
    unfold insert
    rw [if_neg (Ne.symm h.1)]
    simp [tops, ihbeside h.2]

/-- Any other key leaves the trees with their names. -/
theorem tops_insert_of_mem {key : List α} (h : key.head? ∈ f.heads) :
    (f.insert leg new x key).tops = f.tops := by
  induction f with
  | nil => simp [heads] at h
  | node id piece value below beside _ ihbeside =>
    unfold insert
    split_ifs with hhead
    · unfold graft
      dsimp only
      split_ifs <;> rfl
    · simp only [heads, List.mem_cons, Ne.symm hhead, false_or] at h
      simp [tops, ihbeside h]

theorem names_graft (hdeeper : ∃ more, more.Sublist [leg, new] ∧ deeper.names.Perm (more ++ below.names)) :
    ∃ more, more.Sublist [leg, new] ∧
      (graft leg new x key id piece value below deeper beside).names.Perm (more ++ (node id piece value below beside).names) := by
  classical
  unfold graft
  dsimp only
  split_ifs
  · refine ⟨[leg], by simp, ?_⟩
    simp only [names, List.append_nil, List.cons_append, List.nil_append]
    exact List.Perm.swap _ _ _
  · refine ⟨[leg, new], List.Sublist.refl _, ?_⟩
    simp only [names, List.append_nil, List.cons_append, List.nil_append]
    refine List.perm_iff_count.mpr fun a => ?_
    simp only [List.count_cons, List.count_append, List.count_nil]
    omega
  · exact ⟨[], List.nil_sublist _, List.Perm.refl _⟩
  · obtain ⟨more, hmore, hperm⟩ := hdeeper
    refine ⟨more, hmore, List.perm_iff_count.mpr fun a => ?_⟩
    simp only [names, List.count_cons, List.count_append, hperm.count_eq]
    omega

/-- An insertion uses each of the two names at most once. -/
theorem names_insert (leg new : ι) (x : ν) (f : Forest ι α ν) (key : List α) :
    ∃ more, more.Sublist [leg, new] ∧ (f.insert leg new x key).names.Perm (more ++ f.names) := by
  classical
  induction f generalizing key with
  | nil => exact ⟨[new], by simp, List.Perm.refl _⟩
  | node id piece value below beside ihbelow ihbeside =>
    unfold insert
    split_ifs
    · exact names_graft (ihbelow _)
    · obtain ⟨more, hmore, hperm⟩ := ihbeside key
      refine ⟨more, hmore, List.perm_iff_count.mpr fun a => ?_⟩
      simp only [names, List.count_cons, List.count_append, hperm.count_eq]
      omega

/-! ## The tree of a letter -/

/-- The tree that begins with a letter. -/
def top? : Forest ι α ν → α → Option ι
  | .nil, _ => none
  | .node id piece _ _ beside, a => if piece.head? = some a then some id else beside.top? a

theorem top?_mem {a : α} (h : f.top? a = some id) : id ∈ f.tops ∧ some a ∈ f.heads := by
  induction f with
  | nil => cases h
  | node i piece value below beside _ ihbeside =>
    unfold top? at h
    split_ifs at h with hhead
    · obtain rfl := Option.some.inj h
      exact ⟨List.mem_cons_self, hhead ▸ List.mem_cons_self⟩
    · exact ⟨List.mem_cons_of_mem _ (ihbeside h).1, List.mem_cons_of_mem _ (ihbeside h).2⟩

theorem top?_none {a : α} : f.top? a = none ↔ some a ∉ f.heads := by
  induction f with
  | nil => simp [top?, heads]
  | node i piece value below beside _ ihbeside =>
    unfold top? heads
    split_ifs with hhead
    · simp [hhead]
    · rw [ihbeside, List.mem_cons, not_or]
      exact ⟨fun h => ⟨Ne.symm hhead, h⟩, fun h => h.2⟩

/-! ## Keys that begin with given letters -/

/-- The entries whose keys begin with given letters. -/
def beginning (letters : List α) (es : List (List α × ν)) : List (List α × ν) := es.filter fun e => letters <+: e.1

/-- A key that has a piece and a rest begins with given letters. -/
theorem isPrefix_append (letters rest : List α) : letters <+: piece ++ rest ↔
    letters <+: piece ∨ (common piece letters = piece.length ∧ letters.drop (common piece letters) <+: rest) := by
  constructor
  · intro h
    rcases List.prefix_or_prefix_of_prefix h (List.prefix_append piece rest) with hshort | ⟨t, rfl⟩
    · exact Or.inl hshort
    · right
      have hc : common piece (piece ++ t) = piece.length := (common_eq_left _ _).mpr (List.prefix_append _ _)
      rw [hc, List.drop_left]
      exact ⟨rfl, (List.prefix_append_right_inj piece).mp h⟩
  · rintro (hshort | ⟨hc, hrest⟩)
    · exact hshort.trans (List.prefix_append _ _)
    · obtain ⟨t, rfl⟩ := (common_eq_left piece letters).mp hc
      rw [hc, List.drop_left] at hrest
      exact (List.prefix_append_right_inj piece).mpr hrest

/-- The piece of a tree decides: the whole tree begins so, nothing does, or what is below decides. -/
theorem beginning_tree (letters : List α) : beginning letters (tree id piece value below).entries =
    if common piece letters = letters.length then (tree id piece value below).entries
    else if common piece letters < piece.length then []
    else under piece (beginning (letters.drop (common piece letters)) below.entries) := by
  unfold beginning
  split_ifs with hall hpart
  · exact List.filter_eq_self.mpr fun e he =>
      decide_eq_true (((common_eq_right _ _).mp hall).trans (piece_isPrefix he))
  · refine List.filter_eq_nil_iff.mpr fun e he hbegins => ?_
    obtain ⟨rest, hrest⟩ := piece_isPrefix he
    rw [← hrest, decide_eq_true_iff, isPrefix_append] at hbegins
    rcases hbegins with hshort | ⟨hc, -⟩
    · exact hall ((common_eq_right _ _).mpr hshort)
    · omega
  · have hnot : ¬letters <+: piece := fun hshort => hall ((common_eq_right _ _).mpr hshort)
    have hc : common piece letters = piece.length := le_antisymm (common_le_left _ _) (not_lt.mp hpart)
    have hvalue : (value.toList.map (Prod.mk piece)).filter (fun e => decide (letters <+: e.1)) = [] := by
      refine List.filter_eq_nil_iff.mpr fun e he => ?_
      obtain ⟨y, -, rfl⟩ := List.mem_map.mp he
      simpa using hnot
    simp only [tree, entries, List.append_nil, List.filter_append, hvalue, List.nil_append]
    unfold under
    rw [List.filter_map]
    simp only [Function.comp_def, isPrefix_append, hnot, false_or, hc, true_and]

/-- No key begins with letters that begin none of the trees. -/
theorem beginning_of_not_mem (h : f.Wf) {letters : List α} (hletters : letters ≠ []) (hheads : letters.head? ∉ f.heads) :
    beginning letters f.entries = [] := by
  refine List.filter_eq_nil_iff.mpr fun e he hbegins => hheads ?_
  rw [← head_of_isPrefix hletters (of_decide_eq_true hbegins)]
  exact (head_mem h he).1

/-- The tree that begins with the first letter has the keys that begin with the letters. -/
theorem beginning_node (h : (node id piece value below beside).Wf) {letters : List α} (hletters : letters ≠ []) :
    beginning letters (node id piece value below beside).entries =
      if piece.head? = letters.head? then beginning letters (tree id piece value below).entries
      else beginning letters beside.entries := by
  obtain ⟨hpiece, hheads, -, hbeside⟩ := h
  have happend : beginning letters (node id piece value below beside).entries =
      beginning letters (tree id piece value below).entries ++ beginning letters beside.entries := by
    rw [entries_node]
    exact List.filter_append _ _
  rw [happend]
  split_ifs with hhead
  · rw [beginning_of_not_mem hbeside hletters (hhead ▸ hheads), List.append_nil]
  · have htree : beginning letters (tree id piece value below).entries = [] := by
      refine List.filter_eq_nil_iff.mpr fun e he hbegins => ?_
      have hsame := head_of_isPrefix hletters (of_decide_eq_true hbegins)
      rw [head_of_isPrefix hpiece (piece_isPrefix he)] at hsame
      exact hhead hsame
    rw [htree, List.nil_append]

end Forest

end Opsense
