import Opsense.Lib.ForestSearch

/-!
# The ways of keys in radix forests

A key goes through the nodes of its trail. What is asked of every node for every key through it (`Through`) is still the case
after an insertion if it is the case for the new key on its trail, and for every key at the node that comes between
(`Through.insert`).

A matcher is sound if it finds a pattern only where it is read, and goes on only with what ends what is read. Where a guided search
with a sound matcher finds a node, the rest of the pattern is in a key (`probe_sound`).
-/

namespace Opsense

namespace Forest

variable {ι α ν : Type*}

/-- The node is asked for every key that goes through it, after the letters `u`. -/
def Through (Q : ι → List α → Prop) : Forest ι α ν → List α → Prop
  | .nil, _ => True
  | .node id piece value below beside, u =>
    (∀ e ∈ (tree id piece value below).entries, Q id (u ++ e.1)) ∧ below.Through Q (u ++ piece) ∧ beside.Through Q u

variable {Q Q' : ι → List α → Prop} {f below beside deeper : Forest ι α ν} {id leg new : ι} {x : ν} {u key piece : List α}
  {value : Option ν}

theorem Through.mono (h : f.Through Q u) (hQ : ∀ i ∈ f.names, ∀ k, Q i k → Q' i k) : f.Through Q' u := by
  induction f generalizing u with
  | nil => trivial
  | node id piece value below beside ihbelow ihbeside =>
    obtain ⟨hnode, hbelow, hbeside⟩ := h
    refine ⟨fun e he => hQ id List.mem_cons_self _ (hnode e he), ihbelow hbelow fun i hi => ?_, ihbeside hbeside fun i hi => ?_⟩
    · exact hQ i (List.mem_cons_of_mem _ (List.mem_append_left _ hi))
    · exact hQ i (List.mem_cons_of_mem _ (List.mem_append_right _ hi))

/-- What every node is asked for every key is asked. -/
theorem through_of_all (h : ∀ i ∈ f.names, ∀ e ∈ f.entries, Q i (u ++ e.1)) : f.Through Q u := by
  induction f generalizing u with
  | nil => trivial
  | node id piece value below beside ihbelow ihbeside =>
    rw [entries_node] at h
    refine ⟨fun e he => h id List.mem_cons_self e (List.mem_append_left _ he), ihbelow fun i hi e he => ?_,
      ihbeside fun i hi e he => ?_⟩
    · have hmem : (piece ++ e.1, e.2) ∈ (tree id piece value below).entries := mem_tree_entries.mpr (Or.inr ⟨e.1, rfl, he⟩)
      rw [List.append_assoc]
      exact h i (List.mem_cons_of_mem _ (List.mem_append_left _ hi)) _ (List.mem_append_left _ hmem)
    · exact h i (List.mem_cons_of_mem _ (List.mem_append_right _ hi)) e (List.mem_append_right _ he)

theorem Through.tree (h : (node id piece value below beside).Through Q u) : (tree id piece value below).Through Q u :=
  ⟨h.1, h.2.1, trivial⟩

/-- What is asked of a forest is asked of what follows each of its nodes. -/
theorem Through.of_mem (h : f.Through Q u) (hn : (id, piece, value, below) ∈ f.nodes) : ∃ u', below.Through Q u' := by
  induction f generalizing u with
  | nil => cases hn
  | node i p v below' beside ihbelow ihbeside =>
    obtain ⟨-, hbelow, hbeside⟩ := h
    rcases List.mem_cons.mp hn with heq | hn
    · obtain ⟨-, -, -, rfl⟩ : id = i ∧ piece = p ∧ value = v ∧ below = below' := by simpa using heq
      exact ⟨u ++ p, hbelow⟩
    · rcases List.mem_append.mp hn with hn | hn
      · exact ihbelow hbelow hn
      · exact ihbeside hbeside hn

/-! ## Trails -/

variable [DecidableEq α]

/-- The nodes on the way of a key, up to the one that it leaves. -/
def trail : Forest ι α ν → List α → List ι
  | .nil, _ => []
  | .node id piece _ below beside, key =>
    if piece.head? = key.head? then
      id :: if common piece key < piece.length then [] else below.trail (key.drop (common piece key))
    else beside.trail key

/-- The way of a key from a node on. -/
def trailFrom (id : ι) (piece : List α) (below : Forest ι α ν) (key : List α) : List ι :=
  id :: if common piece key < piece.length then [] else below.trail (key.drop (common piece key))

theorem trail_node : (node id piece value below beside).trail key =
    if piece.head? = key.head? then trailFrom id piece below key else beside.trail key := rfl

theorem trail_nil (h : f.Wf) : f.trail [] = [] := by
  induction f with
  | nil => rfl
  | node id piece value below beside _ ihbeside =>
    obtain ⟨hpiece, -, -, hbeside⟩ := h
    rw [trail_node, if_neg (by simpa using hpiece), ihbeside hbeside]

theorem trail_of_not_mem (h : key.head? ∉ f.heads) : f.trail key = [] := by
  induction f with
  | nil => rfl
  | node id piece value below beside _ ihbeside =>
    simp only [heads, List.mem_cons, not_or] at h
    rw [trail_node, if_neg (Ne.symm h.1), ihbeside h.2]

theorem trail_subset (f : Forest ι α ν) (key : List α) : ∀ i ∈ f.trail key, i ∈ f.names := by
  induction f generalizing key with
  | nil => intro i hi; cases hi
  | node id piece value below beside ihbelow ihbeside =>
    intro i hi
    rw [trail_node] at hi
    simp only [names, List.mem_cons, List.mem_append]
    split_ifs at hi with hhead
    · unfold trailFrom at hi
      split_ifs at hi with hc
      · exact Or.inl (by simpa using hi)
      · rcases List.mem_cons.mp hi with rfl | hi
        · exact Or.inl rfl
        · exact Or.inr (Or.inl (ihbelow _ i hi))
    · exact Or.inr (Or.inr (ihbeside key i hi))

/-! ## Insertion -/

/-- A node takes a key: its way goes on to the new node, if it does not end before. -/
theorem trail_graft (id leg new : ι) (value : Option ν) (x : ν) (beside : Forest ι α ν) (hdeeper : key.drop (common piece key) ≠ [] → ∃ more, (more = [] ∨ more = [new]) ∧
      deeper.trail (key.drop (common piece key)) = below.trail (key.drop (common piece key)) ++ more) :
    ∃ piece' value' below' more, graft leg new x key id piece value below deeper beside = .node id piece' value' below' beside ∧
      (more = [] ∨ more = [new]) ∧ trailFrom id piece' below' key = trailFrom id piece below key ++ more := by
  have hcut : common piece key < piece.length →
      ¬common (piece.take (common piece key)) key < (piece.take (common piece key)).length ∧
        key.drop (common (piece.take (common piece key)) key) = key.drop (common piece key) := by
    intro hc
    have hpre : common (piece.take (common piece key)) key = (piece.take (common piece key)).length :=
      (common_eq_left _ _).mpr (take_common piece key ▸ List.take_prefix _ _)
    rw [hpre, List.length_take, min_eq_left hc.le]
    exact ⟨lt_irrefl _, rfl⟩
  have hleg : common piece key < piece.length → (piece.drop (common piece key)).head? ≠ (key.drop (common piece key)).head? :=
    head_drop_common
  unfold graft
  dsimp only
  split_ifs with hc hrest hrest
  · refine ⟨_, _, _, [], rfl, Or.inl rfl, ?_⟩
    unfold trailFrom
    rw [if_neg (hcut hc).1, if_pos hc, (hcut hc).2, trail_node, if_neg (hleg hc)]
    rfl
  · refine ⟨_, _, _, [new], rfl, Or.inr rfl, ?_⟩
    have hall : common (key.drop (common piece key)) (key.drop (common piece key)) = (key.drop (common piece key)).length :=
      (common_eq_left _ _).mpr (List.prefix_refl _)
    unfold trailFrom
    rw [if_neg (hcut hc).1, if_pos hc, (hcut hc).2, trail_node, if_neg (hleg hc), trail_node, if_pos rfl]
    simp [trailFrom, trail, hall]
  · exact ⟨_, _, _, [], rfl, Or.inl rfl, (List.append_nil _).symm⟩
  · obtain ⟨more, hmore, heq⟩ := hdeeper hrest
    refine ⟨_, _, _, more, rfl, hmore, ?_⟩
    unfold trailFrom
    rw [if_neg hc, if_neg hc, heq, List.cons_append]

/-- After its insertion the way of a key goes on to the new node, if it does not end before. -/
theorem trail_insert (leg new : ι) (x : ν) (h : f.Wf) (hkey : key ≠ []) :
    ∃ more, (more = [] ∨ more = [new]) ∧ (f.insert leg new x key).trail key = f.trail key ++ more := by
  induction f generalizing key with
  | nil =>
    have hall : common key key = key.length := (common_eq_left _ _).mpr (List.prefix_refl _)
    exact ⟨[new], Or.inr rfl, by simp [insert, trail, hall]⟩
  | node id piece value below beside ihbelow ihbeside =>
    obtain ⟨hpiece, hheads, hbelow, hbeside⟩ := h
    rw [trail_node]
    unfold insert
    split_ifs with hhead
    · obtain ⟨piece', value', below', more, heq, hmore, htrail⟩ := trail_graft id leg new value x beside
        fun hrest => ihbelow hbelow hrest
      obtain ⟨piece'', value'', below'', heq', -, hsame⟩ := wf_graft leg new x id value beside hbelow
        fun hrest : key.drop (common piece key) ≠ [] => show (below.insert leg new x _).Wf from (wf_insert hbelow hrest).1
      rw [heq] at heq' ⊢
      obtain ⟨-, rfl, -, -, -⟩ := Forest.node.inj heq'
      rw [trail_node, if_pos ((hsame hpiece hhead).2.trans hhead)]
      exact ⟨more, hmore, htrail⟩
    · rw [trail_node, if_neg hhead]
      exact ihbeside hbeside hkey

/-- A node takes a key. -/
theorem through_graft (h : (tree id piece value below).Through Q u)
    (hold : ∀ i ∈ (tree id piece value below).names, ∀ k, Q i k → Q' i k) (hleg : ∀ k, Q' leg k)
    (hid : Q' id (u ++ key)) (hnew : Q' new (u ++ key))
    (hentries : (graft leg new x key id piece value below deeper .nil).entries.Perm
      ((key, x) :: (tree id piece value below).entries))
    (hdeeper : ¬common piece key < piece.length → key.drop (common piece key) ≠ [] → deeper.Through Q' (u ++ piece))
    (hbeside : beside.Through Q' u) : (graft leg new x key id piece value below deeper beside).Through Q' u := by
  have hself : ∀ e ∈ (graft leg new x key id piece value below deeper .nil).entries, Q' id (u ++ e.1) := by
    intro e he
    rcases List.mem_cons.mp (hentries.mem_iff.mp he) with rfl | he
    · exact hid
    · exact hold id List.mem_cons_self _ (h.1 e he)
  have hbelow : below.Through Q' (u ++ piece) := h.2.1.mono fun i hi =>
    hold i (List.mem_cons_of_mem _ (List.mem_append_left _ hi))
  have htake : u ++ piece.take (common piece key) ++ piece.drop (common piece key) = u ++ piece := by
    rw [List.append_assoc, List.take_append_drop]
  unfold graft at hself ⊢
  dsimp only at hself ⊢
  split_ifs at hself ⊢ with hc hrest hrest
  · refine ⟨hself, ⟨fun e _ => hleg _, ?_, trivial⟩, hbeside⟩
    rw [htake]
    exact hbelow
  · refine ⟨hself, ⟨fun e _ => hleg _, ?_, ?_, trivial, trivial⟩, hbeside⟩
    · rw [htake]
      exact hbelow
    · intro e he
      obtain rfl : e = (key.drop (common piece key), x) := by simpa [tree, entries] using he
      rw [take_common, List.append_assoc, List.take_append_drop]
      exact hnew
  · exact ⟨hself, hbelow, hbeside⟩
  · exact ⟨hself, hdeeper hc hrest, hbeside⟩

/-- An insertion: the nodes that were there are asked no more than before, but for the new key on its way, and a leg is asked for
all that goes through it. -/
theorem through_insert (h : f.Through Q u) (hwf : f.Wf) (hkey : key ≠ []) (hnot : key ∉ f.keys)
    (hold : ∀ i ∈ f.names, ∀ k, Q i k → Q' i k) (hleg : ∀ k, Q' leg k) (htrail : ∀ i ∈ f.trail key, Q' i (u ++ key))
    (hnew : Q' new (u ++ key)) : (f.insert leg new x key).Through Q' u := by
  induction f generalizing u key with
  | nil =>
    refine ⟨fun e he => ?_, trivial, trivial⟩
    obtain rfl : e = (key, x) := by simpa [tree, entries] using he
    exact hnew
  | node id piece value below beside ihbelow ihbeside =>
    obtain ⟨hpiece, hheads, hbelow, hbeside⟩ := hwf
    have hnot' := not_or.mp (fun hmem => hnot (mem_keys_node.mpr hmem))
    have holdbelow : ∀ i ∈ below.names, ∀ k, Q i k → Q' i k := fun i hi =>
      hold i (List.mem_cons_of_mem _ (List.mem_append_left _ hi))
    have holdbeside : ∀ i ∈ beside.names, ∀ k, Q i k → Q' i k := fun i hi =>
      hold i (List.mem_cons_of_mem _ (List.mem_append_right _ hi))
    rw [trail_node] at htrail
    unfold insert
    split_ifs at htrail ⊢ with hhead
    · refine through_graft h.tree (fun i hi => hold i ?_) hleg (htrail id List.mem_cons_self) hnew
        (entries_graft hnot'.1 fun hrest hne => entries_insert hbelow hne hrest) (fun hc hrest => ?_) (h.2.2.mono holdbeside)
      · simp only [tree, names, List.append_nil, List.mem_cons, List.mem_append] at hi ⊢
        tauto
      · have hwhole : u ++ key = u ++ piece ++ key.drop (common piece key) := by
          conv_lhs => rw [eq_append_drop hc]
          rw [List.append_assoc]
        rw [hwhole] at htrail hnew
        refine ihbelow h.2.1 hbelow hrest (fun hmem => hnot'.1 ((mem_keys_drop hc hrest).mpr hmem)) holdbelow (fun i hi => ?_) hnew
        refine htrail i ?_
        unfold trailFrom
        rw [if_neg hc]
        exact List.mem_cons_of_mem _ hi
    · exact ⟨fun e he => hold id List.mem_cons_self _ (h.1 e he), h.2.1.mono holdbelow,
        ihbeside h.2.2 hbeside hkey hnot'.2 holdbeside htrail hnew⟩

/-! ## Guided searches -/

/-- A matcher finds a pattern only in what is read, and goes on only with what of it ends what is read. -/
structure Sound (p : List α) (m : List α → Nat → Bool × List Nat) : Prop where
  found : ∀ piece k, k < p.length → (m piece k).1 = true → p <:+: p.take k ++ piece
  kept : ∀ piece k, k < p.length → ∀ l ∈ (m piece k).2, l < p.length ∧ p.take l <:+ p.take k ++ piece

variable {p : List α} {m : List α → Nat → Bool × List Nat} {k : Nat} {n : ι × List α × Option ν × Forest ι α ν}

omit [DecidableEq α] in
/-- What is found with letters read before is found but for these letters. -/
theorem drop_isInfix {t : List α} (h : p <:+: p.take k ++ t) (hk : k ≤ p.length) : p.drop k <:+: t := by
  obtain ⟨a, b, heq⟩ := h
  have hlen : (p.take k).length = k := by rw [List.length_take, min_eq_left hk]
  have hdrop := congrArg (List.drop k) heq
  rw [List.drop_left' hlen] at hdrop
  have hle : k ≤ (a ++ p.take k).length := by rw [List.length_append, hlen]; omega
  have hsplit : a ++ p ++ b = (a ++ p.take k) ++ (p.drop k ++ b) := by
    rw [← List.append_assoc, List.append_assoc a (p.take k), List.take_append_drop]
  rw [hsplit, List.drop_append_of_le_length hle, ← List.append_assoc] at hdrop
  exact ⟨_, b, hdrop⟩

/-- Where a node is found from another one, the pattern is in a key with the letters read before. -/
theorem visit_sound (hm : Sound p m) (hlive : (tree id piece value below).Live)
    (hbelow : ∀ l, l < p.length → below.probe m p l = some n → ∃ e ∈ below.entries, p <:+: p.take l ++ e.1) (hk : k < p.length)
    (h : visit m p id piece value below k = some n) : ∃ e ∈ (tree id piece value below).entries, p <:+: p.take k ++ e.1 := by
  unfold visit at h
  split_ifs at h with hfound
  · obtain ⟨e, he⟩ := hlive.exists_entry nofun
    obtain ⟨rest, hrest⟩ := piece_isPrefix he
    refine ⟨e, he, (hm.found piece k hk hfound).trans ?_⟩
    rw [← hrest, ← List.append_assoc]
    exact (List.prefix_append _ _).isInfix
  · obtain ⟨l, hl, hprobe⟩ := List.exists_of_findSome?_eq_some h
    split_ifs at hprobe
    obtain ⟨hlt, hsuf⟩ := hm.kept piece k hk l hl
    obtain ⟨e, he, hin⟩ := hbelow l hlt hprobe
    refine ⟨(piece ++ e.1, e.2), mem_tree_entries.mpr (Or.inr ⟨e.1, rfl, he⟩), hin.trans ?_⟩
    obtain ⟨a, ha⟩ := hsuf
    rw [← List.append_assoc, ← ha, List.append_assoc]
    exact (List.suffix_append _ _).isInfix

/-- Where a node is found among the trees, the pattern is in a key with the letters read before. -/
theorem probe_sound (hm : Sound p m) (hlive : f.Live) (hk : k < p.length) (h : f.probe m p k = some n) :
    ∃ e ∈ f.entries, p <:+: p.take k ++ e.1 := by
  induction f generalizing k with
  | nil => cases h
  | node id piece value below beside ihbelow ihbeside =>
    obtain ⟨hnode, hbelow, hbeside⟩ := hlive
    rw [entries_node]
    rw [probe_node] at h
    split_ifs at h
    · obtain ⟨e, he, hin⟩ := visit_sound hm ⟨hnode, hbelow, trivial⟩ (fun l hl => ihbelow hbelow hl) hk h
      exact ⟨e, List.mem_append_left _ he, hin⟩
    · obtain ⟨e, he, hin⟩ := ihbeside hbeside hk h
      exact ⟨e, List.mem_append_right _ he, hin⟩

/-- Where a node is found in the tree of a letter, the tree is asked for a key with the rest of the pattern. -/
theorem Through.probe (h : f.Through Q u) (hm : Sound p m) (hlive : f.Live) {a : α} (ha : p[k]? = some a)
    (hid : f.top? a = some id) (hprobe : f.probe m p k = some n) : ∃ key, Q id key ∧ p.drop k <:+: key := by
  have hk : k < p.length := (List.getElem?_eq_some_iff.mp ha).1
  induction f with
  | nil => cases hid
  | node i piece value below beside _ ihbeside =>
    obtain ⟨hnode, hbelow, hbeside⟩ := hlive
    unfold top? at hid
    rw [probe_node, ha] at hprobe
    split_ifs at hid hprobe
    · obtain rfl := Option.some.inj hid
      obtain ⟨e, he, hin⟩ := visit_sound hm ⟨hnode, hbelow, trivial⟩ (fun l hl => probe_sound hm hbelow hl) hk hprobe
      exact ⟨u ++ e.1, h.1 e he, (drop_isInfix hin hk.le).trans (List.suffix_append _ _).isInfix⟩
    · exact ihbeside h.2.2 hbeside hid hprobe

end Forest

end Opsense
