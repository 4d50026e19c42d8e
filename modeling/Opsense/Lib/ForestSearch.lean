import Opsense.Lib.RadixForest

/-!
# Guided search in radix forests

A search for a pattern goes down a radix forest and carries how many letters of the pattern it has read. A matcher says of a piece
whether the pattern ends in it, and otherwise with which numbers of letters the search goes on below. `visit` gives the tree of the
first node in which the pattern ends. A walk that takes the value of a node before the trees below it and after each of them takes the
values of `gathered`: each of them once exactly when no node with a value has a tree below it and no value comes twice
(`gathered_nodup`), which in a forest without dead ends says that no key begins another (`leafy_iff`).
-/

namespace Opsense

namespace Forest

variable {ι α ν : Type*}

/-! ## Nodes -/

/-- The nodes, each with what follows it. -/
def nodes : Forest ι α ν → List (ι × List α × Option ν × Forest ι α ν)
  | .nil => []
  | .node id piece value below beside => (id, piece, value, below) :: (below.nodes ++ beside.nodes)

theorem names_eq (f : Forest ι α ν) : f.names = f.nodes.map Prod.fst := by
  induction f with
  | nil => rfl
  | node id piece value below beside ihbelow ihbeside => simp [names, nodes, ihbelow, ihbeside]

variable {id : ι} {piece key : List α} {value : Option ν} {below beside : Forest ι α ν} {x : ν} {f : Forest ι α ν}

/-- What follows a node below the roots is well-formed. -/
theorem Wf.of_mem (h : f.Wf) (hn : (id, piece, value, below) ∈ f.nodes) : below.Wf := by
  induction f with
  | nil => cases hn
  | node i p v below' beside ihbelow ihbeside =>
    obtain ⟨-, -, hbelow, hbeside⟩ := h
    rcases List.mem_cons.mp hn with heq | hn
    · obtain ⟨-, -, -, rfl⟩ : id = i ∧ piece = p ∧ value = v ∧ below = below' := by simpa using heq
      exact hbelow
    · rcases List.mem_append.mp hn with hn | hn
      · exact ihbelow hbelow hn
      · exact ihbeside hbeside hn

theorem Live.of_mem (h : f.Live) (hn : (id, piece, value, below) ∈ f.nodes) : (tree id piece value below).Live := by
  induction f with
  | nil => cases hn
  | node i p v below' beside ihbelow ihbeside =>
    obtain ⟨hnode, hbelow, hbeside⟩ := h
    rcases List.mem_cons.mp hn with heq | hn
    · obtain ⟨rfl, rfl, rfl, rfl⟩ : id = i ∧ piece = p ∧ value = v ∧ below = below' := by simpa using heq
      exact ⟨hnode, hbelow, trivial⟩
    · rcases List.mem_append.mp hn with hn | hn
      · exact ihbelow hbelow hn
      · exact ihbeside hbeside hn

theorem nodup_names_of_mem (h : f.names.Nodup) (hn : (id, piece, value, below) ∈ f.nodes) :
    (tree id piece value below).names.Nodup := by
  induction f with
  | nil => cases hn
  | node i p v below' beside ihbelow ihbeside =>
    obtain ⟨hid, hrest⟩ := List.nodup_cons.mp h
    obtain ⟨hbelow, hbeside, -⟩ := List.nodup_append.mp hrest
    rcases List.mem_cons.mp hn with heq | hn
    · obtain ⟨rfl, rfl, rfl, rfl⟩ : id = i ∧ piece = p ∧ value = v ∧ below = below' := by simpa using heq
      simp only [tree, names, List.append_nil]
      exact List.nodup_cons.mpr ⟨fun hmem => hid (List.mem_append_left _ hmem), hbelow⟩
    · rcases List.mem_append.mp hn with hn | hn
      · exact ihbelow hbelow hn
      · exact ihbeside hbeside hn

theorem nodes_trans {n : ι × List α × Option ν × Forest ι α ν} (hn : (id, piece, value, below) ∈ f.nodes)
    (h : n ∈ (tree id piece value below).nodes) : n ∈ f.nodes := by
  induction f with
  | nil => cases hn
  | node i p v below' beside ihbelow ihbeside =>
    rcases List.mem_cons.mp hn with heq | hn
    · obtain ⟨rfl, rfl, rfl, rfl⟩ : id = i ∧ piece = p ∧ value = v ∧ below = below' := by simpa using heq
      simp only [tree, nodes, List.append_nil, List.mem_cons, List.mem_append] at h ⊢
      tauto
    · refine List.mem_cons_of_mem _ (List.mem_append.mpr ?_)
      exact (List.mem_append.mp hn).imp ihbelow ihbeside

/-- The keys of a node are the ends of keys of the forest. -/
theorem entries_of_mem (hn : (id, piece, value, below) ∈ f.nodes) :
    ∃ u, (under u (tree id piece value below).entries).Sublist f.entries := by
  induction f with
  | nil => cases hn
  | node i p v below' beside ihbelow ihbeside =>
    rw [entries_node]
    rcases List.mem_cons.mp hn with heq | hn
    · obtain ⟨rfl, rfl, rfl, rfl⟩ : id = i ∧ piece = p ∧ value = v ∧ below = below' := by simpa using heq
      exact ⟨[], by rw [under_nil]; exact List.sublist_append_left _ _⟩
    · rcases List.mem_append.mp hn with hn | hn
      · obtain ⟨u, hu⟩ := ihbelow hn
        have htree : (under p below'.entries).Sublist (tree i p v below').entries := by simp [tree, entries]
        refine ⟨p ++ u, List.Sublist.trans ?_ (List.sublist_append_left _ _)⟩
        rw [← under_under]
        exact (hu.map _).trans htree
      · obtain ⟨u, hu⟩ := ihbeside hn
        exact ⟨u, hu.trans (List.sublist_append_right _ _)⟩

/-- The keys that begin with one letter are in one tree. -/
theorem exists_top (h : f.Wf) {a : α} (hkey : (key, x) ∈ f.entries) (ha : key.head? = some a) :
    ∃ id piece value below, (id, piece, value, below) ∈ f.nodes ∧ id ∈ f.tops ∧ piece.head? = some a ∧
      ∀ e ∈ f.entries, e.1.head? = some a → e ∈ (tree id piece value below).entries := by
  induction f with
  | nil => cases hkey
  | node id piece value below beside _ ihbeside =>
    obtain ⟨hpiece, hheads, hbelow, hbeside⟩ := h
    have hhead : ∀ e ∈ (tree id piece value below).entries, e.1.head? = piece.head? := fun e he =>
      head_of_isPrefix hpiece (piece_isPrefix he)
    rw [entries_node, List.mem_append] at hkey
    by_cases hsame : piece.head? = some a
    · refine ⟨id, piece, value, below, List.mem_cons_self, List.mem_cons_self, hsame, fun e he hea => ?_⟩
      rw [entries_node, List.mem_append] at he
      refine he.resolve_right fun hmem => hheads ?_
      rw [hsame, ← hea]
      exact (head_mem hbeside hmem).1
    · have hmem := hkey.resolve_left fun hmem => hsame ((hhead _ hmem).symm.trans ha)
      obtain ⟨id', piece', value', below', hn, htop, hpiece', hall⟩ := ihbeside hbeside hmem
      refine ⟨id', piece', value', below', List.mem_cons_of_mem _ (List.mem_append_right _ hn), List.mem_cons_of_mem _ htop,
        hpiece', fun e he hea => hall e ?_ hea⟩
      rw [entries_node, List.mem_append] at he
      exact he.resolve_left fun hmem => hsame ((hhead e hmem).symm.trans hea)

/-! ## What a walk gathers -/

/-- The values in any order, that of a node once more for each tree below it. -/
def gathered : Forest ι α ν → List ν
  | .nil => []
  | .node _ _ value below beside =>
    (List.replicate (below.tops.length + 1) value.toList).flatten ++ (below.gathered ++ beside.gathered)

theorem gathered_named [DecidableEq ι] (h : f.tops.Nodup) {is : List ι} (his : is.Perm f.tops) :
    (is.flatMap fun i => (f.named i).gathered).Perm f.gathered :=
  flatMap_named gathered rfl (fun _ _ _ _ _ => by simp [tree, gathered]) h his

/-- No node with a value has a tree below it. -/
def Leafy : Forest ι α ν → Prop
  | .nil => True
  | .node _ _ value below beside => (value.isSome → below = .nil) ∧ below.Leafy ∧ beside.Leafy

theorem Leafy.gathered_eq (h : f.Leafy) : f.gathered = f.entries.map Prod.snd := by
  induction f with
  | nil => rfl
  | node id piece value below beside ihbelow ihbeside =>
    obtain ⟨hnode, hbelow, hbeside⟩ := h
    have hunder : (under piece below.entries).map Prod.snd = below.entries.map Prod.snd := by simp [under]
    rw [gathered, ihbelow hbelow, ihbeside hbeside]
    simp only [entries, List.map_append, List.append_assoc, hunder]
    refine congrArg (· ++ _) ?_
    cases value with
    | none => simp
    | some x =>
      rw [hnode rfl]
      rfl

theorem leafy_of_gathered_nodup (h : f.gathered.Nodup) : f.Leafy := by
  induction f with
  | nil => trivial
  | node id piece value below beside ihbelow ihbeside =>
    obtain ⟨hnode, hrest, -⟩ := List.nodup_append.mp h
    obtain ⟨hbelow, hbeside, -⟩ := List.nodup_append.mp hrest
    refine ⟨fun hvalue => ?_, ihbelow hbelow, ihbeside hbeside⟩
    obtain ⟨x, rfl⟩ := Option.isSome_iff_exists.mp hvalue
    cases below with
    | nil => rfl
    | node id' piece' value' below' beside' =>
      -- the value comes before the first tree below and after it
      rw [tops, List.length_cons, List.replicate_succ, List.replicate_succ] at hnode
      simp at hnode

theorem gathered_nodup : f.gathered.Nodup ↔ f.Leafy ∧ (f.entries.map Prod.snd).Nodup := by
  constructor
  · intro h
    have hleafy := leafy_of_gathered_nodup h
    exact ⟨hleafy, hleafy.gathered_eq ▸ h⟩
  · rintro ⟨hleafy, h⟩
    rw [hleafy.gathered_eq]
    exact h

theorem Live.exists_entry (h : f.Live) (hne : f ≠ .nil) : ∃ e, e ∈ f.entries := by
  induction f with
  | nil => exact absurd rfl hne
  | node id piece value below beside ihbelow _ =>
    obtain ⟨hnode, hbelow, -⟩ := h
    rcases hnode with hvalue | hne
    · obtain ⟨x, rfl⟩ := Option.isSome_iff_exists.mp hvalue
      exact ⟨(piece, x), by simp [entries]⟩
    · obtain ⟨e, he⟩ := ihbelow hbelow hne
      refine ⟨(piece ++ e.1, e.2), ?_⟩
      rw [entries_node]
      exact List.mem_append_left _ (mem_tree_entries.mpr (Or.inr ⟨e.1, rfl, he⟩))

/-- No key begins another. -/
def Apart (es : List (List α × ν)) : Prop := ∀ e ∈ es, ∀ e' ∈ es, e.1 <+: e'.1 → e.1 = e'.1

theorem apart_under (piece : List α) (es : List (List α × ν)) : Apart (under piece es) ↔ Apart es := by
  constructor
  · intro h e he e' he' hpre
    have hmem : ∀ e ∈ es, (piece ++ e.1, e.2) ∈ under piece es := fun e he => List.mem_map_of_mem he
    exact List.append_cancel_left (h _ (hmem e he) _ (hmem e' he') ((List.prefix_append_right_inj piece).mpr hpre))
  · intro h e he e' he' hpre
    obtain ⟨rest, hkey, hrest⟩ := mem_under.mp he
    obtain ⟨rest', hkey', hrest'⟩ := mem_under.mp he'
    rw [hkey, hkey'] at hpre ⊢
    exact congrArg _ (h _ hrest _ hrest' ((List.prefix_append_right_inj piece).mp hpre))

/-- In a tree without dead ends, no node with a value has a tree below it when no key begins another. -/
theorem leafy_tree_iff (hwf : below.Wf) (hlive : (tree id piece value below).Live)
    (hbelow : below.Leafy ↔ Apart below.entries) :
    (tree id piece value below).Leafy ↔ Apart (tree id piece value below).entries := by
  have hdown : ∀ e ∈ below.entries, (piece ++ e.1, e.2) ∈ (tree id piece value below).entries := fun e he =>
    mem_tree_entries.mpr (Or.inr ⟨e.1, rfl, he⟩)
  constructor
  · rintro ⟨hnode, hleafy, -⟩
    cases value with
    | some x =>
      rw [hnode rfl]
      rintro e he e' he' -
      obtain ⟨hkey, -⟩ := (mem_tree_entries.mp he).resolve_right (by simp [entries])
      obtain ⟨hkey', -⟩ := (mem_tree_entries.mp he').resolve_right (by simp [entries])
      exact hkey.trans hkey'.symm
    | none =>
      have heq : (tree id piece none below).entries = under piece below.entries := by simp [tree, entries]
      rw [heq, apart_under]
      exact hbelow.mp hleafy
  · intro h
    refine ⟨fun hvalue => ?_, hbelow.mpr fun e he e' he' hpre => ?_, trivial⟩
    · by_contra hne
      obtain ⟨x, rfl⟩ := Option.isSome_iff_exists.mp hvalue
      obtain ⟨e, he⟩ := hlive.2.1.exists_entry hne
      have hpiece : (piece, x) ∈ (tree id piece (some x) below).entries := mem_tree_entries.mpr (Or.inl ⟨rfl, rfl⟩)
      have heq := h _ hpiece _ (hdown e he) (List.prefix_append _ _)
      exact (head_mem hwf he).2 (List.self_eq_append_right.mp heq)
    · exact List.append_cancel_left (h _ (hdown e he) _ (hdown e' he') ((List.prefix_append_right_inj piece).mpr hpre))

/-- In a forest without dead ends, no node with a value has a tree below it when no key begins another. -/
theorem leafy_iff (hwf : f.Wf) (hlive : f.Live) : f.Leafy ↔ Apart f.entries := by
  induction f with
  | nil => exact iff_of_true trivial (fun e he => absurd he List.not_mem_nil)
  | node id piece value below beside ihbelow ihbeside =>
    obtain ⟨hpiece, hheads, hwfbelow, hwfbeside⟩ := hwf
    obtain ⟨hnode, hlivebelow, hlivebeside⟩ := hlive
    have htree : (tree id piece value below).Leafy ↔ Apart (tree id piece value below).entries :=
      leafy_tree_iff hwfbelow ⟨hnode, hlivebelow, trivial⟩ (ihbelow hwfbelow hlivebelow)
    have hbeside := ihbeside hwfbeside hlivebeside
    have hsplit : (node id piece value below beside).Leafy ↔ (tree id piece value below).Leafy ∧ beside.Leafy := by
      simp only [Leafy, tree]
      tauto
    rw [hsplit, htree, hbeside, entries_node]
    constructor
    · rintro ⟨h, h'⟩ e he e' he' hpre
      -- keys of different trees begin with different letters
      have hhead : ∀ {e}, e ∈ (tree id piece value below).entries → e.1.head? = piece.head? := fun he =>
        head_of_isPrefix hpiece (piece_isPrefix he)
      rcases List.mem_append.mp he with he | he <;> rcases List.mem_append.mp he' with he' | he'
      · exact h e he e' he' hpre
      · have hne : e.1 ≠ [] := fun heq => hpiece (List.prefix_nil.mp (heq ▸ piece_isPrefix he))
        refine absurd ?_ hheads
        rw [← hhead he, ← head_of_isPrefix hne hpre]
        exact (head_mem hwfbeside he').1
      · have hne := (head_mem hwfbeside he).2
        refine absurd ?_ hheads
        rw [← hhead he', head_of_isPrefix hne hpre]
        exact (head_mem hwfbeside he).1
      · exact h' e he e' he' hpre
    · intro h
      exact ⟨fun e he e' he' => h e (List.mem_append_left _ he) e' (List.mem_append_left _ he'),
        fun e he e' he' => h e (List.mem_append_right _ he) e' (List.mem_append_right _ he')⟩

/-! ## Search -/

variable (m : List α → Nat → Bool × List Nat) (p : List α) [DecidableEq α]

/-- The search among trees side by side, for the letter that comes next. -/
def probe : Forest ι α ν → Nat → Option (ι × List α × Option ν × Forest ι α ν)
  | .nil, _ => none
  | .node id piece value below beside, k =>
    if piece.head? = p[k]? then
      if (m piece k).1 then some (id, piece, value, below)
      else (m piece k).2.findSome? fun l => if l = 0 then none else below.probe l
    else beside.probe k

/-- The search from a node: the node in which the pattern ends, with what follows it. -/
def visit (id : ι) (piece : List α) (value : Option ν) (below : Forest ι α ν) (k : Nat) :
    Option (ι × List α × Option ν × Forest ι α ν) :=
  if (m piece k).1 then some (id, piece, value, below)
  else (m piece k).2.findSome? fun l => if l = 0 then none else below.probe m p l

variable {m p} {k : Nat} {n : ι × List α × Option ν × Forest ι α ν}

theorem probe_node : (node id piece value below beside).probe m p k =
    if piece.head? = p[k]? then visit m p id piece value below k else beside.probe m p k := rfl

/-- No tree begins like the rest of a pattern that is read. -/
theorem probe_of_le (hf : f.Wf) (hk : p.length ≤ k) : f.probe m p k = none := by
  induction f with
  | nil => rfl
  | node id piece value below beside _ ihbeside =>
    obtain ⟨hpiece, -, -, hbeside⟩ := hf
    rw [probe_node, if_neg, ihbeside hbeside]
    rw [List.getElem?_eq_none hk]
    simpa using hpiece

/-- No tree begins with the letter that comes next. -/
theorem probe_of_top?_eq_none {a : α} (ha : p[k]? = some a) (h : f.top? a = none) : f.probe m p k = none := by
  induction f with
  | nil => rfl
  | node id piece value below beside _ ihbeside =>
    unfold top? at h
    split_ifs at h with hhead
    rw [probe_node, ha, if_neg hhead]
    exact ihbeside h

theorem visit_of (hbelow : ∀ l, below.probe m p l = some n → n ∈ below.nodes ∧ ∃ k, (m n.2.1 k).1 = true)
    (h : visit m p id piece value below k = some n) :
    n ∈ (tree id piece value below).nodes ∧ ∃ k, (m n.2.1 k).1 = true := by
  unfold visit at h
  split_ifs at h with hfound
  · obtain rfl := Option.some.inj h
    exact ⟨List.mem_cons_self, k, hfound⟩
  · obtain ⟨l, -, hprobe⟩ := List.exists_of_findSome?_eq_some h
    split_ifs at hprobe
    obtain ⟨hn, hk⟩ := hbelow l hprobe
    exact ⟨List.mem_cons_of_mem _ (List.mem_append_left _ hn), hk⟩

theorem probe_mem (h : f.probe m p k = some n) : n ∈ f.nodes ∧ ∃ k, (m n.2.1 k).1 = true := by
  induction f generalizing k with
  | nil => cases h
  | node id piece value below beside ihbelow ihbeside =>
    rw [probe_node] at h
    split_ifs at h
    · obtain ⟨hn, hk⟩ := visit_of (fun l => ihbelow) h
      refine ⟨?_, hk⟩
      simp only [tree, nodes, List.append_nil, List.mem_cons, List.mem_append] at hn ⊢
      tauto
    · obtain ⟨hn, hk⟩ := ihbeside h
      exact ⟨List.mem_cons_of_mem _ (List.mem_append_right _ hn), hk⟩

/-- The pattern ends in the piece of the node that is found. -/
theorem visit_mem (h : visit m p id piece value below k = some n) :
    n ∈ (tree id piece value below).nodes ∧ ∃ k, (m n.2.1 k).1 = true := visit_of (fun _ => probe_mem) h

end Forest

end Opsense
