import Opsense.Radix.Trees

/-!
# The radix tree as a map

Whatever was inserted, by `Radix` or `Search`, on any backend: `search_prefix` finds the distinct keys that begin with a pattern,
each with the record of its first insertion, an insertion of a key that is there reports it and changes nothing but the metadata
of its elements, and the children of every node begin with different elements (`radix_maps`).
-/

namespace Opsense

variable {T : Type} [DecidableEq T] {E : Element T} {R : Radix T} {σ : Type} {B : Backend σ} {Open : σ → Nat → Nat → Prop}
  {v : View} {b : Nat}

namespace Radix

/-! ## Search -/

/-- What is collected from the top of the stack comes before what is below it. -/
def Collects (B : Backend σ) (E : Element T) (s : σ) (c : Nat) (es : List (List T × Nat)) : Prop :=
  ∃ piece record, B.getNode s c = .ok (E.fromVec piece, record) ∧ ∀ path stack results, ∃ n found,
    found.Perm (Forest.under path es) ∧ ∀ steps,
      collectAll B E s (n + steps) ((c, path ++ piece) :: stack) results = collectAll B E s steps stack (results ++ found)

omit [DecidableEq T] in
/-- The children of a node are pushed, and collected one after another. -/
theorem collect_pushed {s : σ} {es : Nat → List (List T × Nat)} (cs : List Nat) (hcs : ∀ c ∈ cs, Collects B E s c (es c))
    (path : List T) (stack : List (Nat × List T)) : ∃ pushed,
      cs.foldlM (fun stack child => (B.getNode s child).map fun node => (child, path ++ E.toVec node.1) :: stack) stack =
        .ok pushed ∧ ∀ results, ∃ n found, found.Perm (Forest.under path (cs.flatMap es)) ∧ ∀ steps,
          collectAll B E s (n + steps) pushed results = collectAll B E s steps stack (results ++ found) := by
  induction cs generalizing stack with
  | nil => exact ⟨stack, rfl, fun results => ⟨0, [], List.Perm.refl _, fun steps => by rw [Nat.zero_add, List.append_nil]⟩⟩
  | cons c cs ih =>
    obtain ⟨piece, record, hnode, hcollect⟩ := hcs c List.mem_cons_self
    obtain ⟨pushed, hpushed, hrun⟩ := ih (fun c' hc' => hcs c' (List.mem_cons_of_mem _ hc')) ((c, path ++ piece) :: stack)
    refine ⟨pushed, ?_, fun results => ?_⟩
    · rw [List.foldlM_cons, hnode]
      simpa [Except.map, bind, Except.bind] using hpushed
    · obtain ⟨n, found, hfound, hsteps⟩ := hrun results
      obtain ⟨m, found', hfound', hsteps'⟩ := hcollect path stack (results ++ found)
      refine ⟨n + m, found ++ found', ?_, fun steps => ?_⟩
      · rw [List.flatMap_cons, Forest.under_append]
        exact List.perm_append_comm.trans (hfound'.append hfound)
      · rw [Nat.add_assoc, hsteps, hsteps', List.append_assoc]

omit [DecidableEq T] in
/-- Every tree is collected. -/
theorem collects {s : σ} {b n : Nat} (S : B.Serial Open) (hopen : Open s b n) {f : Forest Nat T Nat} (h : Holds E (B.view s) f)
    (hnodup : f.names.Nodup) {c : Nat} (hc : c ∈ f.tops) : Collects B E s c (f.named c).entries := by
  induction f generalizing c with
  | nil => exact absurd hc List.not_mem_nil
  | node id piece value below beside ihbelow ihbeside =>
    obtain ⟨hnode, hvalue, hchildren, hbelow, hbeside⟩ := h
    obtain ⟨hid, hnodup⟩ := List.nodup_cons.mp hnodup
    obtain ⟨hnodupbelow, hnodupbeside, -⟩ := List.nodup_append.mp hnodup
    rcases List.mem_cons.mp hc with rfl | hc
    · simp only [Forest.named, if_true]
      have hget := Backend.view_nodes.mp hnode
      have hperm : (B.getChildren s c).Perm below.tops := by
        refine (List.perm_ext_iff_of_nodup (S.nodup _ _ _ hopen c) (hnodupbelow.sublist below.tops_sublist)).mpr fun a => ?_
        rw [← List.mem_toFinset, ← List.mem_toFinset, ← hchildren]
        rfl
      have hentries := Forest.entries_named (hnodupbelow.sublist below.tops_sublist) hperm
      refine ⟨piece, _, hget, fun path stack results => ?_⟩
      obtain ⟨pushed, hpushed, hrun⟩ := collect_pushed (B.getChildren s c)
        (fun c' hc' => ihbelow hbelow hnodupbelow (hperm.mem_iff.mp hc')) (path ++ piece) stack
      obtain ⟨n, found, hfound, hsteps⟩ := hrun
        (results ++ value.toList.map (Prod.mk (path ++ piece)))
      refine ⟨n + 1, value.toList.map (Prod.mk (path ++ piece)) ++ found, ?_, fun steps => ?_⟩
      · simp only [Forest.tree, Forest.entries, List.append_nil, Forest.under_append, Forest.under_value, Forest.under_under]
        exact (hfound.trans (Forest.under_perm hentries _)).append_left _
      · have hresults : (if value.getD EMPTY ≠ EMPTY then results ++ [(path ++ piece, value.getD EMPTY)] else results) =
            results ++ value.toList.map (Prod.mk (path ++ piece)) := by
          cases value with
          | none => simp
          | some y =>
            have hy : y ≠ EMPTY := fun heq => hvalue (congrArg some heq)
            simp [hy]
        rw [Nat.add_right_comm, collectAll, hget]
        dsimp only
        rw [hpushed]
        dsimp only
        rw [hresults, hsteps, List.append_assoc]
    · have hne : c ≠ id := fun heq => hid (heq ▸ List.mem_append_right _ (beside.tops_sublist.subset hc))
      simp only [Forest.named, hne, if_false]
      exact ihbeside hbeside hnodupbeside hc

/-- With enough steps, a search ends and finds the entries, each once. -/
def Finds {ε : Type} (search : Nat → Option (Except ε (List (List T × Nat)))) (es : List (List T × Nat)) : Prop :=
  ∃ n, ∀ steps, n ≤ steps → ∃ found, search steps = some (.ok found) ∧ found.Perm es

variable {s : σ} {id : Nat} {piece k pfx : List T} {value : Option Nat} {below : Forest Nat T Nat}

/-- A pattern whose first element begins a tree is searched for in that tree. -/
theorem searchFrom_forest (pfx : List T) (fuel tail : Nat) (matched : List T)
    (htree : ∀ id piece value below, Planted E (B.view s) b (.tree id piece value below) → below.Wf →
      k.length + 1 ≤ fuel + common piece k → Finds (fun steps => searchFrom B E s pfx steps fuel id tail matched)
        (Forest.under matched (Forest.beginning k (Forest.tree id piece value below).entries)))
    {f : Forest Nat T Nat} (hk : Planted E (B.view s) b f) (hwf : f.Wf) {a : T} (ha : k.head? = some a)
    (hfuel : k.length ≤ fuel) {c : Nat} (hc : f.top? a = some c) :
    Finds (fun steps => searchFrom B E s pfx steps fuel c tail matched) (Forest.under matched (Forest.beginning k f.entries)) := by
  have hne : k ≠ [] := by
    rintro rfl
    cases ha
  induction f with
  | nil => cases hc
  | node id piece value below beside _ ihbeside =>
    rw [Forest.beginning_node hwf hne, ha]
    unfold Forest.top? at hc
    split_ifs at hc ⊢ with hhead
    · obtain rfl := Option.some.inj hc
      have hpos := Forest.common_pos hwf.1 (hhead.trans ha.symm)
      exact htree id piece value below hk.tree hwf.2.2.1 (by omega)
    · exact ihbeside hk.forest_beside hwf.2.2.2 hc

/-- The loop of `search_prefix`, from a node on. -/
theorem searchFrom_tree (S : B.Serial Open) {n : Nat} (hopen : Open s b n)
    (hk : Planted E (B.view s) b (.tree id piece value below)) (hwf : below.Wf) (hne : k ≠ []) {tail : Nat}
    (htail : pfx.drop tail = k) (matched : List T) {fuel : Nat} (hfuel : k.length + 1 ≤ fuel + common piece k) :
    Finds (fun steps => searchFrom B E s pfx steps fuel id tail matched)
      (Forest.under matched (Forest.beginning k (Forest.tree id piece value below).entries)) := by
  induction fuel generalizing k tail id piece value below matched with
  | zero =>
    have := common_le_right piece k
    omega
  | succ fuel ih =>
    have hid : id ≠ EMPTY := hk.pos id List.mem_cons_self
    have hdrop : ∀ c, pfx.drop (tail + c) = k.drop c := by
      intro c
      rw [← htail, List.drop_drop]
    have hget := Backend.view_nodes.mp hk.holds.1
    simp only [searchFrom, if_neg hid, hget, E.toVec_fromVec, htail, hdrop]
    rw [Forest.beginning_tree]
    by_cases hall : common piece k = k.length
    · simp only [if_pos hall]
      obtain ⟨piece', record, hget', hcollect⟩ := collects S hopen hk.holds hk.nodup (c := id) List.mem_cons_self
      obtain ⟨m, found, hfound, hsteps⟩ := hcollect matched [] []
      have hpiece : piece' = piece := by
        rw [hget] at hget'
        have hvec := congrArg E.toVec (Prod.mk.inj (Except.ok.inj hget')).1
        rw [E.toVec_fromVec, E.toVec_fromVec] at hvec
        exact hvec.symm
      have hnamed : (Forest.tree id piece value below).named id = .tree id piece value below := if_pos rfl
      rw [hpiece] at hsteps
      rw [hnamed] at hfound
      refine ⟨m + 1, fun steps hle => ⟨found, ?_, hfound⟩⟩
      obtain ⟨extra, rfl⟩ := Nat.exists_eq_add_of_le hle
      dsimp only
      rw [Nat.add_assoc, hsteps, Nat.add_comm 1 extra, List.nil_append]
      rfl
    · simp only [if_neg hall]
      by_cases hpart : common piece k < piece.length
      · simp only [if_pos hpart]
        exact ⟨0, fun steps _ => ⟨[], rfl, List.Perm.refl _⟩⟩
      · simp only [if_neg hpart]
        have hlt : common piece k < k.length := lt_of_le_of_ne (common_le_right _ _) hall
        have hrest : k.drop (common piece k) ≠ [] := by
          rw [Ne, List.drop_eq_nil_iff, not_le]
          exact hlt
        obtain ⟨a, elems, hcons⟩ := List.exists_cons_of_ne_nil hrest
        have hhead : (k.drop (common piece k)).head? = some a := by rw [hcons]; rfl
        simp only [hhead, findChild_below hk hwf a]
        cases htop : below.top? a with
        | none =>
          rw [Forest.beginning_of_not_mem hwf hrest (hhead ▸ Forest.top?_none.mp htop)]
          refine ⟨0, fun steps _ => ⟨[], ?_, List.Perm.refl _⟩⟩
          cases fuel <;> simp [searchFrom]
        | some c =>
          have hlen : (k.drop (common piece k)).length ≤ fuel := by
            rw [List.length_drop]
            omega
          have hsub := searchFrom_forest (E := E) pfx fuel (tail + common piece k) (matched ++ piece)
            (fun id piece value below hk hwf hfuel => ih hk hwf hrest (hdrop _) _ hfuel) hk.forest_below hwf hhead hlen htop
          rw [← Forest.under_under] at hsub
          exact hsub

/-- `search_prefix` finds what is stored under the keys that begin with the pattern. -/
theorem searchPrefix_finds (S : B.Serial Open) {s : Index σ} {trees : Nat → Forest Nat T Nat} {stored : List (List T × Nat)}
    (h : Trees B E R Open s b trees stored) (hne : pfx ≠ []) :
    Finds (fun steps => R.searchPrefix B E s.store steps EMPTY pfx) (stored.filter fun e => pfx <+: e.1) := by
  obtain ⟨first, rest, rfl⟩ := List.exists_cons_of_ne_nil hne
  have hkeys : (Forest.beginning (first :: rest) (trees (shardOf E first R.sharding)).entries).Perm
      (stored.filter fun e => first :: rest <+: e.1) := by
    refine ((h.entries _).filter _).trans ?_
    rw [List.filter_filter]
    refine List.Perm.of_eq (List.filter_congr fun e he => ?_)
    by_cases hbegins : first :: rest <+: e.1
    · have hhead := Forest.head_of_isPrefix (List.cons_ne_nil first rest) hbegins
      simp [hbegins, shardKey, hhead]
    · simp [hbegins]
  have hrooted := h.rooted (shardOf E first R.sharding)
  have hplanted := h.planted (shardOf E first R.sharding)
  change Rooted _ (B.getRoot s.store (shardOf E first R.sharding)) at hrooted
  simp only [searchPrefix, if_true]
  generalize B.getRoot s.store (shardOf E first R.sharding) = root at hrooted
  generalize trees (shardOf E first R.sharding) = tree at hkeys hrooted hplanted
  cases hrooted with
  | nil =>
    refine ⟨0, fun steps _ => ⟨[], ?_, hkeys⟩⟩
    simp [searchFrom]
  | tree hwf =>
    have hdrop : (first :: rest).drop 0 = first :: rest := rfl
    obtain ⟨n, hn⟩ := searchFrom_tree S h.opened hplanted hwf hne hdrop [] (Nat.le_add_right ((first :: rest).length + 1) _)
    refine ⟨n, fun steps hsteps => ?_⟩
    obtain ⟨found, hfound, hperm⟩ := hn steps hsteps
    rw [Forest.under_nil] at hperm
    exact ⟨found, hfound, hperm.trans hkeys⟩

end Radix

/-! ## The shape of the trees -/

/-- The nodes that are found from the roots. -/
inductive Reached (B : Backend σ) (s : σ) : Nat → Prop
  | root (shard : Nat) (h : B.getRoot s shard ≠ EMPTY) : Reached B s (B.getRoot s shard)
  | child {id c : Nat} (h : Reached B s id) (hc : c ∈ B.getChildren s id) : Reached B s c

/-- The first element of what a node holds of the key. -/
def firstElem (B : Backend σ) (E : Element T) (s : σ) (id : Nat) : Option T :=
  (B.getNode s id).toOption.bind fun node => (E.toVec node.1).head?

/-- No child of the node is empty, and the children begin with different elements. -/
def Branches (B : Backend σ) (E : Element T) (s : σ) (id : Nat) : Prop :=
  (∀ c ∈ B.getChildren s id, (firstElem B E s c).isSome) ∧ ((B.getChildren s id).map (firstElem B E s)).Nodup

section

variable {s : σ} {f : Forest Nat T Nat}

omit [DecidableEq T] in
theorem firstElem_tops (h : Holds E (B.view s) f) : f.tops.map (firstElem B E s) = f.heads := by
  induction f with
  | nil => rfl
  | node id piece value below beside _ ihbeside =>
    obtain ⟨hnode, -, -, -, hbeside⟩ := h
    have hid : (B.getNode s id).toOption = some (E.fromVec piece, value.getD EMPTY) := hnode
    simp [Forest.tops, Forest.heads, firstElem, hid, ihbeside hbeside]

omit [DecidableEq T] in
theorem heads_nodup (h : f.Wf) : f.heads.Nodup ∧ ∀ a ∈ f.heads, a.isSome := by
  induction f with
  | nil => exact ⟨List.nodup_nil, nofun⟩
  | node id piece value below beside _ ihbeside =>
    obtain ⟨hpiece, hheads, -, hbeside⟩ := h
    obtain ⟨hnodup, hsome⟩ := ihbeside hbeside
    refine ⟨List.nodup_cons.mpr ⟨hheads, hnodup⟩, fun a ha => ?_⟩
    rcases List.mem_cons.mp ha with rfl | ha
    · simpa using hpiece
    · exact hsome a ha

omit [DecidableEq T] in
/-- Below every node there is a well-formed forest. -/
theorem branches_of_mem {n : Nat} (S : B.Serial Open) (hopen : Open s b n) (h : Holds E (B.view s) f) (hnodup : f.names.Nodup)
    (hwf : ∀ id piece value below beside, f = .node id piece value below beside → below.Wf ∧ beside.Wf) {id : Nat}
    (hid : id ∈ f.names) : Branches B E s id ∧ ∀ c ∈ B.getChildren s id, c ∈ f.names := by
  induction f with
  | nil => exact absurd hid List.not_mem_nil
  | node i piece value below beside ihbelow ihbeside =>
    obtain ⟨-, -, hchildren, hbelow, hbeside⟩ := h
    obtain ⟨hwfbelow, hwfbeside⟩ := hwf i piece value below beside rfl
    obtain ⟨hnodupbelow, hnodupbeside, -⟩ := List.nodup_append.mp (List.nodup_cons.mp hnodup).2
    have hparts : ∀ {g : Forest Nat T Nat}, g.Wf →
        ∀ id piece value below beside, g = .node id piece value below beside → below.Wf ∧ beside.Wf := by
      rintro g hg id piece value below beside rfl
      exact ⟨hg.2.2.1, hg.2.2.2⟩
    rcases List.mem_cons.mp hid with rfl | hid
    · have hperm : (B.getChildren s id).Perm below.tops := by
        refine (List.perm_ext_iff_of_nodup (S.nodup _ _ _ hopen id) (hnodupbelow.sublist below.tops_sublist)).mpr fun a => ?_
        rw [← List.mem_toFinset, ← List.mem_toFinset, ← hchildren]
        rfl
      have hheads := hperm.map (firstElem B E s)
      rw [firstElem_tops hbelow] at hheads
      obtain ⟨hnodup, hsome⟩ := heads_nodup hwfbelow
      refine ⟨⟨fun c hc => hsome _ (hheads.mem_iff.mp (List.mem_map_of_mem hc)), hheads.nodup_iff.mpr hnodup⟩, fun c hc => ?_⟩
      exact List.mem_cons_of_mem _ (List.mem_append_left _ (below.tops_sublist.subset (hperm.mem_iff.mp hc)))
    · rcases List.mem_append.mp hid with hid | hid
      · obtain ⟨hbranches, hmem⟩ := ihbelow hbelow hnodupbelow (hparts hwfbelow) hid
        exact ⟨hbranches, fun c hc => List.mem_cons_of_mem _ (List.mem_append_left _ (hmem c hc))⟩
      · obtain ⟨hbranches, hmem⟩ := ihbeside hbeside hnodupbeside (hparts hwfbeside) hid
        exact ⟨hbranches, fun c hc => List.mem_cons_of_mem _ (List.mem_append_right _ (hmem c hc))⟩

end

section

variable {s : Index σ} {trees : Nat → Forest Nat T Nat} {stored : List (List T × Nat)}

omit [DecidableEq T] in
theorem Trees.branches_name (S : B.Serial Open) (h : Trees B E R Open s b trees stored) {i id : Nat} (hid : id ∈ (trees i).names) :
    Branches B E s.store id ∧ ∀ c ∈ B.getChildren s.store id, c ∈ (trees i).names := by
  refine branches_of_mem S h.opened (h.planted i).holds (h.planted i).nodup (fun j piece value below beside heq => ?_) hid
  have hrooted := h.rooted i
  rw [heq] at hrooted
  cases hrooted with
  | tree hwf => exact ⟨hwf, trivial⟩

omit [DecidableEq T] in
/-- Every node that is found from the roots is in a tree. -/
theorem Trees.exists_name (S : B.Serial Open) (h : Trees B E R Open s b trees stored) {id : Nat} (hid : Reached B s.store id) :
    ∃ i, id ∈ (trees i).names := by
  induction hid with
  | root shard hne =>
    refine ⟨shard, ?_⟩
    have hrooted := h.rooted shard
    change Rooted _ (B.getRoot s.store shard) at hrooted
    generalize B.getRoot s.store shard = root at hne hrooted
    generalize trees shard = tree at hrooted
    cases hrooted with
    | nil => exact absurd rfl hne
    | tree hwf => exact List.mem_cons_self
  | child _ hc ih =>
    obtain ⟨i, hi⟩ := ih
    exact ⟨i, (h.branches_name S hi).2 _ hc⟩

omit [DecidableEq T] in
theorem Trees.branches (S : B.Serial Open) (h : Trees B E R Open s b trees stored) {id : Nat} (hid : Reached B s.store id) :
    Branches B E s.store id := by
  obtain ⟨i, hi⟩ := h.exists_name S hid
  exact (h.branches_name S hi).1

end

/-! ## Insertions one after another -/

/-- What became of an insertion. -/
inductive Radix.Answer where
  | stored
  | duplicate
  | rejected
  | panicked
deriving DecidableEq, Repr

/-- `Radix` over its insertions. -/
def Radix.machine (B : Backend σ) (E : Element T) (R : Radix T) : Machine (Index σ) (Radix.Insertion T) Radix.Answer :=
  ⟨Index.new B, fun s a =>
    match R.insert B E a.key a.index a.node_metas s with
    | .ok r t => (t, if r.1 = EMPTY then .duplicate else .stored)
    | .error _ t => (t, .rejected)⟩

/-- `Search` over its insertions. -/
def Search.machine (B : Backend σ) (E : Element T) (sharding : Nat) : Machine (Index σ) (Radix.Insertion T) Radix.Answer :=
  ⟨Index.new B, fun s a =>
    match Search.insertChain B E sharding a.index a.key a.node_metas s with
    | .ok () t => (t, .stored)
    | .error .duplicated t => (t, .duplicate)
    | .error .panicked t => (t, .panicked)
    | .error _ t => (t, .rejected)⟩

/-- What is given to the insertions that are not rejected. -/
def accepted (trace : List (Radix.Insertion T × Radix.Answer)) : List (List T × Nat) :=
  (trace.filter fun call => call.2 ≠ .rejected).map fun call => (call.1.key, call.1.index)

/-- The first entry of each key. -/
def firsts (es : List (List T × Nat)) : List (List T × Nat) :=
  es.foldl (fun kept e => if e.1 ∈ kept.map Prod.fst then kept else kept ++ [e]) []

/-- A radix tree is a map from the keys to the records they were first inserted with. -/
structure MapOf {ε : Type} (B : Backend σ) (E : Element T) (R : Radix T) (M : Machine (Index σ) (Radix.Insertion T) Radix.Answer)
    (search : Index σ → Nat → List T → Option (Except ε (List (List T × Nat)))) (as : List (Radix.Insertion T)) : Prop where
  found : ∀ pfx, pfx ≠ [] →
    Radix.Finds (fun steps => search (M.state as) steps pfx) ((firsts (accepted (M.trace as))).filter fun e => pfx <+: e.1)
  rejected : ∀ a, M.out (M.state as) a = .rejected → R.Denied (firsts (accepted (M.trace as))) a
  duplicate : ∀ a, a.key ∈ (firsts (accepted (M.trace as))).map Prod.fst → M.out (M.state as) a ≠ .rejected →
    M.out (M.state as) a = .duplicate ∧
      M.next (M.state as) a = { M.state as with node_metas := (M.next (M.state as) a).node_metas }
  fresh : ∀ a, a.key ∉ (firsts (accepted (M.trace as))).map Prod.fst → M.out (M.state as) a ≠ .duplicate
  branches : ∀ id, Reached B (M.state as).store id → Branches B E (M.state as).store id

/-- What one insertion does to an index with the keys `stored`. -/
def Steps (R : Radix T) (I : Index σ → List (List T × Nat) → Prop) (s : Index σ) (stored : List (List T × Nat))
    (a : Radix.Insertion T) (t : Index σ) (answer : Radix.Answer) : Prop :=
  (answer = .rejected ∧ R.Denied stored a ∧ I t stored) ∨
  (answer = .duplicate ∧ a.key ∈ stored.map Prod.fst ∧ t = { s with node_metas := t.node_metas } ∧ I t stored) ∨
  (answer ≠ .rejected ∧ answer ≠ .duplicate ∧ a.key ∉ stored.map Prod.fst ∧ I t (stored ++ [(a.key, a.index)]))

theorem firsts_snoc (es : List (List T × Nat)) (e : List T × Nat) :
    firsts (es ++ [e]) = if e.1 ∈ (firsts es).map Prod.fst then firsts es else firsts es ++ [e] := by
  unfold firsts
  rw [List.foldl_append]
  rfl

omit [DecidableEq T] in
theorem accepted_snoc (trace : List (Radix.Insertion T × Radix.Answer)) (a : Radix.Insertion T) (answer : Radix.Answer) :
    accepted (trace ++ [(a, answer)]) =
      if answer = .rejected then accepted trace else accepted trace ++ [(a.key, a.index)] := by
  unfold accepted
  rw [List.filter_append, List.map_append]
  split_ifs with h <;> simp [h]

section

variable {M : Machine (Index σ) (Radix.Insertion T) Radix.Answer} {I : Index σ → List (List T × Nat) → Prop}

/-- The keys that are stored are the first ones accepted. -/
theorem inv_of_steps (hinit : I M.init []) (hstep : ∀ s stored a, I s stored →
    Steps R I s stored a (M.next s a) (M.out s a)) (as : List (Radix.Insertion T)) :
    I (M.state as) (firsts (accepted (M.trace as))) := by
  refine Machine.invariant_trace (M := M) (I := fun s trace => I s (firsts (accepted trace))) (C := fun _ _ => True) hinit
    (fun s trace a hs _ => ?_) as fun _ _ _ => trivial
  rw [accepted_snoc]
  rcases hstep s _ a hs with ⟨hout, -, hinv⟩ | ⟨hout, hmem, -, hinv⟩ | ⟨hne, -, hnot, hinv⟩
  · rw [if_pos hout]
    exact hinv
  · rw [if_neg (by rw [hout]; exact nofun), firsts_snoc, if_pos hmem]
    exact hinv
  · rw [if_neg hne, firsts_snoc, if_neg hnot]
    exact hinv

theorem mapOf_of_steps {ε : Type} {search : Index σ → Nat → List T → Option (Except ε (List (List T × Nat)))}
    (hinit : I M.init []) (hstep : ∀ s stored a, I s stored → Steps R I s stored a (M.next s a) (M.out s a))
    (hfound : ∀ s stored pfx, I s stored → pfx ≠ [] →
      Radix.Finds (fun steps => search s steps pfx) (stored.filter fun e => pfx <+: e.1))
    (hbranches : ∀ s stored id, I s stored → Reached B s.store id → Branches B E s.store id)
    (as : List (Radix.Insertion T)) : MapOf B E R M search as := by
  have hinv := inv_of_steps hinit hstep as
  refine ⟨fun pfx hne => hfound _ _ pfx hinv hne, fun a hout => ?_, fun a hmem hout => ?_, fun a hnot hout => ?_,
    fun id hid => hbranches _ _ id hinv hid⟩
  · rcases hstep _ _ a hinv with ⟨-, hdenied, -⟩ | ⟨hout', -⟩ | ⟨hne, -⟩
    · exact hdenied
    · rw [hout'] at hout
      cases hout
    · exact absurd hout hne
  · rcases hstep _ _ a hinv with ⟨hout', -⟩ | ⟨hout', -, hsame, -⟩ | ⟨-, -, hnot, -⟩
    · exact absurd hout' hout
    · exact ⟨hout', hsame⟩
    · exact absurd hmem hnot
  · rcases hstep _ _ a hinv with ⟨hout', -⟩ | ⟨-, hmem, -⟩ | ⟨-, hne, -⟩
    · rw [hout'] at hout
      cases hout
    · exact hnot hmem
    · exact hne hout

end

namespace Radix

/-- The keys that are stored are in the trees. -/
def Stores (B : Backend σ) (E : Element T) (R : Radix T) (Open : σ → Nat → Nat → Prop) (s : Index σ)
    (stored : List (List T × Nat)) : Prop := ∃ b trees, Trees B E R Open s b trees stored

theorem machine_steps (S : B.Serial Open) (s : Index σ) (stored : List (List T × Nat)) (a : Insertion T)
    (h : Stores B E R Open s stored) :
    Steps R (Stores B E R Open) s stored a ((machine B E R).next s a) ((machine B E R).out s a) := by
  obtain ⟨b, trees, h⟩ := h
  have hstep := insert_step S h a
  simp only [Machine.next, Machine.out, machine]
  generalize R.insert B E a.key a.index a.node_metas s = r at hstep
  cases hstep with
  | rejected e t b' trees hdenied htrees => exact Or.inl ⟨rfl, hdenied, b', trees, htrees⟩
  | duplicate tail node_metas hmem =>
    exact Or.inr (Or.inl ⟨rfl, hmem, rfl, b, trees, h.of_view (le_refl b) h.opened rfl⟩)
  | stored id tail t b' trees hid hnot htrees =>
    refine Or.inr (Or.inr ⟨?_, ?_, hnot, b', trees, htrees⟩) <;> simp [hid]

theorem mapOf (S : B.Serial Open) (as : List (Insertion T)) :
    MapOf B E R (machine B E R) (fun s steps pfx => R.searchPrefix B E s.store steps EMPTY pfx) as :=
  mapOf_of_steps (I := Stores B E R Open) ⟨1, _, Trees.new S⟩ (machine_steps S)
    (fun _ _ _ ⟨_, _, h⟩ hne => searchPrefix_finds S h hne) (fun _ _ _ ⟨_, _, h⟩ hid => h.branches S hid) as

end Radix

namespace Search

/-- The split events are written with every insertion. -/
def Stores (B : Backend σ) (E : Element T) (sharding : Nat) (Open : σ → Nat → Nat → Prop) (s : Index σ)
    (stored : List (List T × Nat)) : Prop :=
  (trie (T := T) E sharding).Stores B E Open s stored ∧ s.pending_split_elems = []

theorem shortcuts_rest {α : Type} (g : α → Nat × Bytes × Nat) (elems : List α) (s : Index σ) :
    (elems.foldl (fun s a => s.addShortcutNode (g a).1 (g a).2.1 (g a).2.2) s).store = s.store ∧
      (elems.foldl (fun s a => s.addShortcutNode (g a).1 (g a).2.1 (g a).2.2) s).pending_split_elems = s.pending_split_elems := by
  induction elems generalizing s with
  | nil => exact ⟨rfl, rfl⟩
  | cons a elems ih => exact ih (s.addShortcutNode (g a).1 (g a).2.1 (g a).2.2)

omit [DecidableEq T] in
/-- What `insert_chain` writes leaves the tree, and no split event. -/
theorem written_eq (sharding : Nat) (key : List T) (index node_id tail : Nat) (s : Index σ) : ∃ t : Index σ,
    (written E sharding key index node_id tail s = .ok () t ∨ written E sharding key index node_id tail s = .error .panicked t) ∧
      t.store = s.store ∧ t.pending_split_elems = [] := by
  obtain ⟨hstore, hpending⟩ := shortcuts_rest
    (fun elem : Nat × Bytes => (shardOf E (E.decode elem.2) sharding, elem.2, elem.1)) s.pending_split_elems
    { s with pending_split_elems := [] }
  unfold written
  dsimp only
  split_ifs with hsize
  · exact ⟨_, Or.inr rfl, hstore, hpending⟩
  · refine ⟨_, Or.inl rfl, ?_⟩
    obtain ⟨hstore', hpending'⟩ := shortcuts_rest (fun elem : T => (shardOf E elem sharding, E.encode elem, node_id)) (key.drop tail)
      { s.pending_split_elems.foldl (fun (s : Index σ) elem => s.addShortcutNode (shardOf E (E.decode elem.2) sharding) elem.2 elem.1)
          { s with pending_split_elems := [] } with
        key_lens := (s.pending_split_elems.foldl (fun (s : Index σ) elem => s.addShortcutNode (shardOf E (E.decode elem.2) sharding) elem.2
          elem.1) { s with pending_split_elems := [] }).key_lens.insert index key.length
        chains := (s.pending_split_elems.foldl (fun (s : Index σ) elem => s.addShortcutNode (shardOf E (E.decode elem.2) sharding) elem.2
          elem.1) { s with pending_split_elems := [] }).chains.insert index (key.map fun e => chainElem (E.encode e)) }
    exact ⟨hstore'.trans hstore, hpending'.trans hpending⟩

omit [DecidableEq T] in
/-- The callbacks of `Search` reject nothing. -/
theorem trie_denied {sharding : Nat} {stored : List (List T × Nat)} {a : Radix.Insertion T}
    (h : (trie E sharding).Denied stored a) : a.index = EMPTY ∨ a.key = [] := by
  rcases h with h | h | ⟨cb, hcb, elem, data, e, -, hres⟩ | ⟨-, e, cb, hcb, parent, leg_id, old_prefix, breakpoint, hres⟩
  · exact Or.inl h
  · exact Or.inr h
  · obtain rfl := Option.some.inj hcb
    cases hres
  · obtain rfl := Option.some.inj hcb
    cases hres

theorem machine_steps (S : B.Serial Open) (sharding : Nat) (s : Index σ) (stored : List (List T × Nat)) (a : Radix.Insertion T)
    (h : Stores B E sharding Open s stored) :
    Steps (trie E sharding) (Stores B E sharding Open) s stored a ((machine B E sharding).next s a)
      ((machine B E sharding).out s a) := by
  obtain ⟨⟨b, trees, h⟩, hpending⟩ := h
  have hstores : Stores B E sharding Open s stored := ⟨⟨b, trees, h⟩, hpending⟩
  have hstep := Radix.insert_step S h a
  obtain ⟨key, index, node_metas⟩ := a
  simp only [Machine.next, Machine.out, machine]
  unfold insertChain
  cases key with
  | nil => exact Or.inl ⟨rfl, Or.inr (Or.inl rfl), hstores⟩
  | cons first rest =>
    dsimp only at hstep ⊢
    by_cases hindex : index = EMPTY
    · have hres : (trie E sharding).insert B E (first :: rest) index node_metas s = .error .invalidIndex s := by
        unfold Radix.insert
        rw [if_pos hindex]
        rfl
      rw [hres]
      exact Or.inl ⟨rfl, Or.inl hindex, hstores⟩
    · generalize (trie E sharding).insert B E (first :: rest) index node_metas s = r at hstep
      cases hstep with
      | rejected e t b' trees hdenied htrees =>
        rcases trie_denied hdenied with hdenied | hdenied
        · exact absurd hdenied hindex
        · cases hdenied
      | duplicate tail node_metas' hmem =>
        refine Or.inr (Or.inl ⟨rfl, hmem, ?_, ⟨b, trees, h.of_view (le_refl b) h.opened rfl⟩, rfl⟩)
        dsimp only
        rw [if_pos rfl, ← hpending]
      | stored id tail t b' trees hid hnot htrees =>
        dsimp only
        rw [if_neg hid]
        obtain ⟨u, hu, hstore, hpending'⟩ := written_eq (E := E) (trie (T := T) E sharding).sharding (first :: rest) index id tail t
        have htrees' := htrees.of_view (t := u) (le_refl b') (hstore ▸ htrees.opened) (congrArg B.view hstore)
        rcases hu with hu | hu
        · rw [hu]
          exact Or.inr (Or.inr ⟨nofun, nofun, hnot, ⟨b', trees, htrees'⟩, hpending'⟩)
        · rw [hu]
          exact Or.inr (Or.inr ⟨nofun, nofun, hnot, ⟨b', trees, htrees'⟩, hpending'⟩)

theorem startWith_finds (S : B.Serial Open) (sharding : Nat) {s : Index σ} {stored : List (List T × Nat)}
    (h : Stores B E sharding Open s stored) {pfx : List T} (hne : pfx ≠ []) :
    Radix.Finds (fun steps => startWith B E sharding s steps pfx) (stored.filter fun e => pfx <+: e.1) := by
  obtain ⟨⟨b, trees, h⟩, -⟩ := h
  obtain ⟨n, hn⟩ := Radix.searchPrefix_finds S h hne
  obtain ⟨first, rest, rfl⟩ := List.exists_cons_of_ne_nil hne
  refine ⟨n, fun steps hsteps => ?_⟩
  obtain ⟨found, hfound, hperm⟩ := hn steps hsteps
  refine ⟨found, ?_, hperm⟩
  dsimp only at hfound
  simp only [startWith, hfound]
  rfl

theorem mapOf (S : B.Serial Open) (sharding : Nat) (as : List (Radix.Insertion T)) :
    MapOf B E (trie E sharding) (machine B E sharding) (fun s steps pfx => startWith B E sharding s steps pfx) as :=
  mapOf_of_steps (I := Stores B E sharding Open) ⟨⟨1, _, Trees.new S⟩, rfl⟩ (machine_steps S sharding)
    (fun _ _ _ h hne => startWith_finds S sharding h hne) (fun _ _ _ ⟨⟨_, _, h⟩, _⟩ hid => h.branches S hid) as

end Search

/-- On every backend, over any elements and any number of shards, and whatever was inserted: a search finds the distinct keys
that begin with the pattern, each once and with the record it was first inserted with; an insertion is rejected for what it is
given or by a callback only, and one of a key that is there reports it and changes nothing but the metadata of elements; and
the children of every node begin with different elements. -/
theorem radix_maps (k : Kind) (E : Element T) (R : Radix T) (sharding : Nat) (as : List (Radix.Insertion T)) :
    MapOf k.backend E R (R.machine k.backend E) (fun s steps pfx => R.searchPrefix k.backend E s.store steps EMPTY pfx) as ∧
    MapOf k.backend E (Search.trie E sharding) (Search.machine k.backend E sharding)
      (fun s steps pfx => Search.startWith k.backend E sharding s steps pfx) as := by
  obtain ⟨Open, S⟩ := k.serial
  exact ⟨Radix.mapOf S as, Search.mapOf S sharding as⟩

/-- No pattern finds nothing, and an insertion of a key that is there still writes the metadata it is given. -/
theorem empty_pattern_finds_nothing :
    ¬Radix.Finds (fun steps => Search.startWith Kind.inMemory.backend (Element.int false 1 (by decide)) 1
        ((Search.machine Kind.inMemory.backend (Element.int false 1 (by decide)) 1).state [⟨[97], 1, [none]⟩]) steps [])
      ((firsts (accepted ((Search.machine Kind.inMemory.backend (Element.int false 1 (by decide)) 1).trace
        [⟨[97], 1, [none]⟩]))).filter fun e => [] <+: e.1) ∧
    ((Search.machine Kind.inMemory.backend (Element.int false 1 (by decide)) 1).state
      [⟨[97], 1, [none]⟩]).node_metas.lookup 97 = none ∧
    (Search.machine Kind.inMemory.backend (Element.int false 1 (by decide)) 1).out
      ((Search.machine Kind.inMemory.backend (Element.int false 1 (by decide)) 1).state [⟨[97], 1, [none]⟩])
      ⟨[97], 2, [some [109]]⟩ = .duplicate ∧
    ((Search.machine Kind.inMemory.backend (Element.int false 1 (by decide)) 1).state
      [⟨[97], 1, [none]⟩, ⟨[97], 2, [some [109]]⟩]).node_metas.lookup 97 = some [109] := by
  refine ⟨?_, by decide +kernel, by decide +kernel, by decide +kernel⟩
  rintro ⟨n, hn⟩
  obtain ⟨found, hfound, hperm⟩ := hn n (le_refl n)
  obtain rfl : found = [] := by
    simpa [Search.startWith] using hfound.symm
  have hlen := hperm.length_eq
  revert hlen
  decide +kernel

/-! ## What a search depends on -/

/-- The key with its record. -/
def Radix.Insertion.entry (a : Radix.Insertion T) : List T × Nat := (a.key, a.index)

/-- Keys and records are there, and a key comes with one record. -/
def OneRecord (es : List (List T × Nat)) : Prop :=
  (∀ e ∈ es, e.1 ≠ [] ∧ e.2 ≠ EMPTY) ∧ ∀ e ∈ es, ∀ e' ∈ es, e.1 = e'.1 → e = e'

theorem Search.stores_entries (S : B.Serial Open) (sharding : Nat) (as : List (Radix.Insertion T)) (h : OneRecord (as.map (·.entry))) :
    ∃ stored, Stores B E sharding Open ((machine B E sharding).state as) stored ∧ ∀ e, e ∈ stored ↔ e ∈ as.map (·.entry) := by
  induction as using List.reverseRecOn with
  | nil => exact ⟨[], ⟨⟨1, _, Trees.new S⟩, rfl⟩, by simp⟩
  | append_singleton as a ih =>
    rw [List.map_append, List.map_singleton] at h ⊢
    obtain ⟨hthere, hone⟩ := h
    obtain ⟨stored, hinv, hmem⟩ := ih ⟨fun e he => hthere e (List.mem_append_left _ he),
      fun e he e' he' => hone e (List.mem_append_left _ he) e' (List.mem_append_left _ he')⟩
    rw [Machine.state_snoc]
    have ha := List.mem_append_right (as.map (·.entry)) (List.mem_singleton_self a.entry)
    rcases machine_steps S sharding _ stored a hinv with ⟨-, hdenied, -⟩ | ⟨-, hkey, -, hinv'⟩ | ⟨-, -, -, hinv'⟩
    · obtain hindex | hkey | ⟨cb, hcb, _, _, _, -, herror⟩ | ⟨-, _, cb, hcb, _, _, _, _, herror⟩ := hdenied
      · exact absurd hindex (hthere _ ha).2
      · exact absurd hkey (hthere _ ha).1
      all_goals
        obtain rfl := Option.some.inj hcb
        cases herror
    · obtain ⟨e, he, hkey⟩ := List.mem_map.mp hkey
      obtain rfl : e = a.entry := hone e (List.mem_append_left _ ((hmem e).mp he)) _ ha hkey
      exact ⟨stored, hinv', fun e' => by simpa [hmem] using fun heq => (hmem _).mp (heq ▸ he)⟩
    · exact ⟨_, hinv', fun e => by simp [hmem, Radix.Insertion.entry]⟩

/-- What a search finds depends on the keys and records that were inserted, and not on their order, on how often each of them was inserted,
on the backend or on the number of shards. -/
theorem search_of_entries (k k' : Kind) (E : Element T) (sharding sharding' : Nat) {as bs : List (Radix.Insertion T)}
    (h : OneRecord (as.map (·.entry))) (hsame : ∀ e, e ∈ as.map (·.entry) ↔ e ∈ bs.map (·.entry)) {pfx : List T} (hne : pfx ≠ []) :
    ∃ n, ∀ steps, n ≤ steps → ∃ found found',
      Search.startWith k.backend E sharding ((Search.machine k.backend E sharding).state as) steps pfx = some (.ok found) ∧
      Search.startWith k'.backend E sharding' ((Search.machine k'.backend E sharding').state bs) steps pfx = some (.ok found') ∧
      found.Perm found' := by
  have h' : OneRecord (bs.map (·.entry)) :=
    ⟨fun e he => h.1 e ((hsame e).mpr he), fun e he e' he' => h.2 e ((hsame e).mpr he) e' ((hsame e').mpr he')⟩
  obtain ⟨_, S⟩ := k.serial
  obtain ⟨_, S'⟩ := k'.serial
  obtain ⟨stored, hstored, hmem⟩ := Search.stores_entries (E := E) S sharding as h
  obtain ⟨stored', hstored', hmem'⟩ := Search.stores_entries (E := E) S' sharding' bs h'
  obtain ⟨n, hn⟩ := Search.startWith_finds S sharding hstored hne
  obtain ⟨n', hn'⟩ := Search.startWith_finds S' sharding' hstored' hne
  obtain ⟨⟨_, _, htrees⟩, -⟩ := hstored
  obtain ⟨⟨_, _, htrees'⟩, -⟩ := hstored'
  have hperm : stored.Perm stored' := (List.perm_ext_iff_of_nodup htrees.distinct.of_map htrees'.distinct.of_map).mpr fun e =>
    (hmem e).trans ((hsame e).trans (hmem' e).symm)
  refine ⟨max n n', fun steps hsteps => ?_⟩
  obtain ⟨found, hfound, hp⟩ := hn steps (le_of_max_le_left hsteps)
  obtain ⟨found', hfound', hp'⟩ := hn' steps (le_of_max_le_right hsteps)
  exact ⟨found, found', hfound, hfound', hp.trans ((hperm.filter _).trans hp'.symm)⟩

theorem search_of_entries_twice : ∃ n, ∀ steps, n ≤ steps → ∃ found found',
    Search.startWith Kind.inMemory.backend (Element.int false 1 (by decide)) 1
      ((Search.machine Kind.inMemory.backend (Element.int false 1 (by decide)) 1).state
        [⟨[97], 1, []⟩, ⟨[97, 98], 2, []⟩]) steps [97] = some (.ok found) ∧
    Search.startWith Kind.sqlite.backend (Element.int false 1 (by decide)) 2
      ((Search.machine Kind.sqlite.backend (Element.int false 1 (by decide)) 2).state
        [⟨[97, 98], 2, []⟩, ⟨[97], 1, []⟩, ⟨[97], 1, []⟩]) steps [97] = some (.ok found') ∧ found.Perm found' :=
  search_of_entries .inMemory .sqlite _ 1 2 (by unfold OneRecord; decide) (by simp [Radix.Insertion.entry, or_comm]) (by decide)

end Opsense
