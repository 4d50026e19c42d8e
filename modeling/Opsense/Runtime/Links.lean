import Opsense.Runtime.Plan

/-!
# The links of a runtime

A pass of either loop that configures links gives one node the sources that its component declares, leaves the other nodes
theirs and the two tables in agreement (`Retied`). A whole loop does so for each of its components; of several with one name the last
one counts. No source stands twice in a list unless a change declares it twice (`Relinked`).
-/

namespace Opsense

namespace Runtime

variable {Body : Type} {e : Engine Body} {s s' : Runtime Body} {c : Component Body} {cs : List (Component Body)} {idx : Nat}

/-! ## The last component of a name -/

theorem willAdd_append (as bs : List (Component Body)) (id : String) :
    willAdd (as ++ bs) id = (willAdd bs id).or (willAdd as id) := by
  simp [willAdd, List.find?_append]

theorem willAdd_singleton (c : Component Body) (id : String) : willAdd [c] id = if c.id = id then some c else none := by
  by_cases h : c.id = id <;> simp [willAdd, h]

theorem willAdd_eq_none {id : String} : willAdd cs id = none ↔ id ∉ cs.map Component.id := by
  simp [willAdd, List.find?_eq_none]

theorem mem_of_willAdd {id : String} (h : willAdd cs id = some c) : c ∈ cs ∧ c.id = id := by
  have hmem := List.mem_of_find?_eq_some h
  have hid := List.find?_some h
  exact ⟨by simpa using hmem, by simpa using hid⟩

theorem willAdd_of_nodup (hnodup : (cs.map Component.id).Nodup) (hc : c ∈ cs) : willAdd cs c.id = some c := by
  cases hadd : willAdd cs c.id with
  | none => exact absurd (List.mem_map_of_mem hc) (willAdd_eq_none.mp hadd)
  | some d =>
    obtain ⟨hd, hid⟩ := mem_of_willAdd hadd
    rw [List.inj_on_of_nodup_map hnodup hd hc hid]

/-! ## The nodes of some names -/

theorem SameNodes.indices (h : SameNodes s s') (names : List String) : s'.indices names = s.indices names := by
  unfold Runtime.indices
  rw [h.nodes]

theorem indices_congr {names : List String} (h : ∀ name ∈ names, s'.nodes.lookup name = s.nodes.lookup name) :
    s'.indices names = s.indices names :=
  List.filterMap_congr h

theorem Named.mem_bootstraps_of_lookup (h : Named s) {name : String} (hidx : s.nodes.lookup name = some idx) :
    idx ∈ s.bootstraps := by
  obtain ⟨b, hb, -⟩ := h.named name idx hidx
  exact mem_iff_lookup.mpr ⟨b, hb⟩

theorem Named.mem_bootstraps_of_indices (h : Named s) {names : List String} (hidx : idx ∈ s.indices names) :
    idx ∈ s.bootstraps := by
  obtain ⟨name, -, hname⟩ := mem_indices.mp hidx
  exact h.mem_bootstraps_of_lookup hname

theorem Named.nodup_indices (h : Named s) {names : List String} (hnames : names.Nodup) : (s.indices names).Nodup := by
  refine hnames.filterMap ?_
  intro name name' i hi hi'
  exact h.injective hi hi'

theorem mem_distinct (l acc : List Nat) (i : Nat) :
    i ∈ l.foldl (fun acc i => if i ∈ acc then acc else acc ++ [i]) acc ↔ i ∈ acc ∨ i ∈ l := by
  induction l generalizing acc with
  | nil => simp
  | cons a l ih =>
    rw [List.foldl_cons, ih, List.mem_cons]
    by_cases ha : a ∈ acc
    · rw [if_pos ha]
      constructor
      · rintro (h | h)
        · exact Or.inl h
        · exact Or.inr (Or.inr h)
      · rintro (h | rfl | h)
        · exact Or.inl h
        · exact Or.inl ha
        · exact Or.inr h
    · rw [if_neg ha, List.mem_append, List.mem_singleton, or_assoc]

theorem nodup_distinct (l acc : List Nat) (h : acc.Nodup) :
    (l.foldl (fun acc i => if i ∈ acc then acc else acc ++ [i]) acc).Nodup := by
  induction l generalizing acc with
  | nil => exact h
  | cons a l ih =>
    refine ih _ ?_
    dsimp only
    split_ifs with ha
    · exact h
    · rw [List.nodup_append]
      refine ⟨h, List.nodup_singleton a, fun x hx y hy hxy => ?_⟩
      obtain rfl := List.mem_singleton.mp hy
      exact ha (hxy ▸ hx)

/-! ## One pass -/

/-- The two tables of links say the same and have entries for nodes only. -/
structure Tied (s : Runtime Body) : Prop extends Named s where
  mem : ∀ i j, j ∈ s.sources.row i ↔ i ∈ s.sinks.row j
  sinks_nodup : ∀ j, (s.sinks.row j).Nodup
  sources : ∀ i ∈ s.sources, i ∈ s.bootstraps
  sinks : ∀ i ∈ s.sinks, i ∈ s.bootstraps

/-- The nodes of the components get what these declare as sources, and the other nodes keep theirs. -/
structure Retied (s : Runtime Body) (cs : List (Component Body)) (s' : Runtime Body) : Prop where
  same : SameNodes s s'
  tied : Tied s'
  rows : ∀ name idx, s.nodes.lookup name = some idx → ∀ j, j ∈ s'.sources.row idx ↔
    match willAdd cs name with
    | some c => j ∈ s.indices c.inputs
    | none => j ∈ s.sources.row idx

/-- A node gets a new list of sources, and the table of sinks follows. -/
theorem Tied.retie (h : Tied s) (hidx : s.nodes.lookup c.id = some idx) {l : List Nat} {sinks : Adjacency Nat}
    (hmem : ∀ j, j ∈ l ↔ j ∈ s.indices c.inputs)
    (hsinks : ∀ i j, i ∈ sinks.row j ↔ (i ≠ idx ∧ i ∈ s.sinks.row j) ∨ (i = idx ∧ j ∈ l))
    (hnodup : ∀ j, (sinks.row j).Nodup) (hkeys : ∀ i ∈ sinks, i ∈ s.sinks ∨ i ∈ s.indices c.inputs) :
    Retied s [c] { s with sources := s.sources.insert idx l, sinks := sinks } := by
  have hsame : SameNodes s { s with sources := s.sources.insert idx l, sinks := sinks } := ⟨rfl, rfl, rfl, rfl, rfl⟩
  refine ⟨hsame, ⟨h.toNamed.congr hsame, fun i j => ?_, hnodup, fun i hi => ?_, fun i hi => ?_⟩, fun name i hname j => ?_⟩
  · rw [Adjacency.row_insert, hsinks]
    by_cases hi : i = idx
    · simp [hi]
    · simp [hi, h.mem]
  · rcases (AList.mem_insert _).mp hi with rfl | hi
    · exact h.toNamed.mem_bootstraps_of_lookup hidx
    · exact h.sources i hi
  · rcases hkeys i hi with hi | hi
    · exact h.sinks i hi
    · exact h.toNamed.mem_bootstraps_of_indices hi
  · rw [willAdd_singleton, Adjacency.row_insert]
    by_cases hid : c.id = name
    · subst hid
      obtain rfl := Option.some.inj (hidx.symm.trans hname)
      rw [if_pos rfl, if_pos rfl]
      exact hmem j
    · have hne : i ≠ idx := by
        rintro rfl
        exact hid (h.toNamed.injective hidx hname)
      rw [if_neg hid, if_neg hne]

theorem Tied.linkAdd (h : Tied s) (hidx : s.nodes.lookup c.id = some idx) (hempty : s.sources.row idx = []) :
    Retied s [c] (linkAdd s c) := by
  unfold Runtime.linkAdd
  rw [hidx]
  cases hinputs : c.get_inputs with
  | none =>
    have hnone : c.inputs = [] := by rw [Component.inputs, hinputs]; rfl
    refine ⟨⟨rfl, rfl, rfl, rfl, rfl⟩, h, fun name i hname j => ?_⟩
    rw [willAdd_singleton]
    by_cases hid : c.id = name
    · subst hid
      obtain rfl := Option.some.inj (hidx.symm.trans hname)
      rw [if_pos rfl, hempty]
      simp [hnone, indices]
    · rw [if_neg hid]
  | some inputs =>
    have hsome : c.inputs = inputs := by rw [Component.inputs, hinputs]; rfl
    refine h.retie hidx (fun j => ?_) (fun i j => ?_) (fun j => ?_) fun i hi => ?_
    · rw [mem_distinct, hsome]
      simp
    · have hnot : idx ∉ s.sinks.row j := fun hmem => by
        have := (h.mem idx j).mpr hmem
        rw [hempty] at this
        exact absurd this List.not_mem_nil
      rw [Adjacency.mem_row_linkAll, mem_distinct]
      by_cases hi : i = idx
      · subst hi
        simp [hnot]
      · simp [hi]
    · exact Adjacency.nodup_row_linkAll h.sinks_nodup j
    · rw [hsome]
      exact (Adjacency.mem_keys_linkAll.mp hi).symm

theorem Tied.linkChange (h : Tied s) (hidx : s.nodes.lookup c.id = some idx) : Retied s [c] (linkChange s c) := by
  unfold Runtime.linkChange
  rw [hidx]
  refine h.retie hidx (fun j => Iff.rfl) (fun i j => ?_) (fun j => ?_) fun i hi => ?_
  · rw [Adjacency.mem_row_linkAll, Adjacency.mem_row_unlinkAll, List.mem_filter, List.mem_filter, decide_eq_true_iff,
      decide_eq_true_iff]
    by_cases hi : i = idx
    · subst hi
      have hconv := h.mem i j
      tauto
    · simp [hi]
  · exact Adjacency.nodup_row_linkAll (Adjacency.nodup_row_unlinkAll h.sinks_nodup) j
  · rcases Adjacency.mem_keys_linkAll.mp hi with hi | hi
    · exact Or.inr (List.mem_filter.mp hi).1
    · exact Or.inl (Adjacency.mem_keys_unlinkAll.mp hi)

/-! ## A whole loop -/

theorem Retied.snoc {s'' : Runtime Body} (h : Retied s cs s') (h' : Retied s' [c] s'') : Retied s (cs ++ [c]) s'' := by
  refine ⟨h.same.trans h'.same, h'.tied, fun name idx hname j => ?_⟩
  have hstep := h'.rows name idx (by rw [h.same.nodes]; exact hname) j
  rw [willAdd_singleton] at hstep
  rw [willAdd_append, willAdd_singleton]
  by_cases hid : c.id = name
  · rw [if_pos hid] at hstep ⊢
    rw [hstep]
    simp only [Option.some_or, h.same.indices]
  · rw [if_neg hid] at hstep ⊢
    rw [hstep]
    exact h.rows name idx hname j

/-- A loop links one component after another, when each of them can be linked after those before it. -/
theorem Tied.foldl_link {link : Runtime Body → Component Body → Runtime Body} (h : Tied s)
    (hlink : ∀ pre c, pre ++ [c] <+: cs → ∀ s', Retied s pre s' → Retied s' [c] (link s' c)) :
    Retied s cs (cs.foldl link s) := by
  induction cs using List.reverseRecOn with
  | nil => exact ⟨⟨rfl, rfl, rfl, rfl, rfl⟩, h, fun _ _ _ _ => Iff.rfl⟩
  | append_singleton cs c ih =>
    have hbefore := ih fun pre c' hpre => hlink pre c' (hpre.trans (List.prefix_append _ _))
    rw [List.foldl_append]
    exact hbefore.snoc (hlink cs c (List.prefix_refl _) _ hbefore)

/-- The additions, which have nodes of their own without sources, get their links. -/
theorem Tied.foldl_linkAdd (h : Tied s) (hnodup : (cs.map Component.id).Nodup)
    (hcs : ∀ c ∈ cs, ∃ idx, s.nodes.lookup c.id = some idx ∧ s.sources.row idx = []) :
    Retied s cs (cs.foldl Runtime.linkAdd s) := by
  refine h.foldl_link fun pre c hpre s' hs' => ?_
  obtain ⟨idx, hidx, hempty⟩ := hcs c (hpre.subset (by simp))
  refine hs'.tied.linkAdd (by rw [hs'.same.nodes]; exact hidx) (List.eq_nil_iff_forall_not_mem.mpr fun j hj => ?_)
  -- no component before it has its name
  have hnone : willAdd pre c.id = none := by
    rw [willAdd_eq_none]
    intro hmem
    have hpfx := (hpre.map Component.id).sublist.nodup hnodup
    rw [List.map_append, List.nodup_append] at hpfx
    exact hpfx.2.2 c.id hmem c.id (by simp) rfl
  have hrow := (hs'.rows c.id idx hidx j).mp hj
  rw [hnone, hempty] at hrow
  exact absurd hrow List.not_mem_nil

/-- The changes get their links. -/
theorem Tied.foldl_linkChange (h : Tied s) (hcs : ∀ c ∈ cs, c.id ∈ s.nodes) : Retied s cs (cs.foldl Runtime.linkChange s) := by
  refine h.foldl_link fun pre c hpre s' hs' => ?_
  obtain ⟨idx, hidx⟩ := mem_iff_lookup.mp (hcs c (hpre.subset (by simp)))
  exact hs'.tied.linkChange (by rw [hs'.same.nodes]; exact hidx)

/-! ## Lists without repetition -/

/-- The tables of links are converse to each other and have entries for nodes only. -/
structure Linked (s : Runtime Body) : Prop extends Named s where
  links : Adjacency.Converse s.sources s.sinks
  sources : ∀ i ∈ s.sources, i ∈ s.bootstraps
  sinks : ∀ i ∈ s.sinks, i ∈ s.bootstraps

/-- The nodes of the components get what these declare as sources, and the other nodes keep theirs. -/
structure Relinked (s : Runtime Body) (cs : List (Component Body)) (s' : Runtime Body) : Prop where
  same : SameNodes s s'
  linked : Linked s'
  rows : ∀ name idx, s.nodes.lookup name = some idx → ∀ j, j ∈ s'.sources.row idx ↔
    match willAdd cs name with
    | some c => j ∈ s.indices c.inputs
    | none => j ∈ s.sources.row idx

theorem Linked.tied (h : Linked s) : Tied s := ⟨h.toNamed, h.links.mem, h.links.sinks_nodup, h.sources, h.sinks⟩

theorem Relinked.retied (h : Relinked s cs s') : Retied s cs s' := ⟨h.same, h.linked.tied, h.rows⟩

theorem Retied.relinked (h : Retied s cs s') (hnodup : ∀ i, (s'.sources.row i).Nodup) : Relinked s cs s' :=
  ⟨h.same, ⟨h.tied.toNamed, ⟨h.tied.mem, hnodup, h.tied.sinks_nodup⟩, h.tied.sources, h.tied.sinks⟩, h.rows⟩

theorem nodup_sources_insert (h : ∀ i, (s.sources.row i).Nodup) {l : List Nat} (hl : l.Nodup) (i : Nat) :
    (Adjacency.row (s.sources.insert idx l) i).Nodup := by
  rw [Adjacency.row_insert]
  split_ifs
  · exact hl
  · exact h i

/-- An addition gets each source once, however often it declares it. -/
theorem nodup_foldl_linkAdd (h : ∀ i, (s.sources.row i).Nodup) (cs : List (Component Body)) (i : Nat) :
    ((cs.foldl linkAdd s).sources.row i).Nodup := by
  induction cs generalizing s with
  | nil => exact h i
  | cons c cs ih =>
    refine ih fun i => ?_
    unfold linkAdd
    split
    · exact nodup_sources_insert h (nodup_distinct _ _ List.nodup_nil) i
    · exact h i

/-- A change gets each source as often as it declares it. -/
theorem Named.nodup_foldl_linkChange (hs : Named s) (h : ∀ i, (s.sources.row i).Nodup) (hcs : ∀ c ∈ cs, c.inputs.Nodup) (i : Nat) :
    ((cs.foldl linkChange s).sources.row i).Nodup := by
  induction cs generalizing s with
  | nil => exact h i
  | cons c cs ih =>
    refine ih (hs.congr (linkChange_frame s c)) (fun i => ?_) fun c' hc' => hcs c' (List.mem_cons_of_mem _ hc')
    unfold linkChange
    split
    · exact h i
    · exact nodup_sources_insert h (hs.nodup_indices (hcs c List.mem_cons_self)) i

/-- The additions, which have nodes of their own without sources, get their links. -/
theorem Linked.foldl_linkAdd (h : Linked s) (hnodup : (cs.map Component.id).Nodup)
    (hcs : ∀ c ∈ cs, ∃ idx, s.nodes.lookup c.id = some idx ∧ s.sources.row idx = []) :
    Relinked s cs (cs.foldl Runtime.linkAdd s) :=
  (h.tied.foldl_linkAdd hnodup hcs).relinked (nodup_foldl_linkAdd h.links.sources_nodup cs)

/-- The changes, which declare no input twice, get their links. -/
theorem Linked.foldl_linkChange (h : Linked s) (hcs : ∀ c ∈ cs, c.id ∈ s.nodes ∧ c.inputs.Nodup) :
    Relinked s cs (cs.foldl Runtime.linkChange s) :=
  (h.tied.foldl_linkChange fun c hc => (hcs c hc).1).relinked
    (h.toNamed.nodup_foldl_linkChange h.links.sources_nodup fun c hc => (hcs c hc).2)

end Runtime

end Opsense
