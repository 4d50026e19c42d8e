import Opsense.Runtime.Nodes

/-!
# What a reload plans and checks

The components that a reload adds and changes and the nodes that it deletes, in terms of the tables (`Planned`), and what the
four validations give for the changes that follow them (`Checked`).
-/

namespace Opsense

namespace Runtime

variable {Body : Type} {e : Engine Body} {s : Runtime Body} {components : List (Component Body)} {p : Plan Body}

/-! ## The plan -/

/-- The component is one of a node, and differs from the one that the node has. -/
def Differs (e : Engine Body) (s : Runtime Body) (c : Component Body) : Prop :=
  ∃ idx b, s.nodes.lookup c.id = some idx ∧ s.bootstraps.lookup idx = some b ∧ compare e b.component c = false

/-- What a plan says of a list of components. -/
structure Planned (e : Engine Body) (s : Runtime Body) (components : List (Component Body)) (p : Plan Body) : Prop where
  adds : p.adds = components.filter fun c => c.id ∉ s.nodes
  diffs : ∀ c, c ∈ p.diffs ↔ c ∈ components ∧ Differs e s c
  dels : ∀ i, i ∈ p.dels ↔ i ∈ s.bootstraps ∧ ∀ c ∈ components, s.nodes.lookup c.id ≠ some i
  nodup : p.dels.Nodup

theorem sortOut_spec {q : Plan Body} (h : sortOut e s components q = .ok p) :
    p.adds = q.adds ++ components.filter (fun c => c.id ∉ s.nodes) ∧
    (∀ c, c ∈ p.diffs ↔ c ∈ q.diffs ∨ (c ∈ components ∧ Differs e s c)) ∧
    (∀ i, i ∈ p.dels ↔ i ∈ q.dels ∧ ∀ c ∈ components, s.nodes.lookup c.id ≠ some i) ∧
    (q.dels.Nodup → p.dels.Nodup) := by
  induction components generalizing q with
  | nil =>
    obtain rfl := Except.ok.inj h
    simp
  | cons c cs ih =>
    unfold sortOut at h
    cases hidx : s.nodes.lookup c.id with
    | none =>
      rw [hidx] at h
      obtain ⟨hadds, hdiffs, hdels, hnodup⟩ := ih h
      have hnew : c.id ∉ s.nodes := AList.lookup_eq_none.mp hidx
      have hsame : ¬Differs e s c := by
        rintro ⟨idx, b, hlookup, -⟩
        rw [hidx] at hlookup
        nomatch hlookup
      refine ⟨by simp [hadds, hnew], fun d => ?_, fun i => ?_, hnodup⟩
      · rw [hdiffs]
        refine or_congr_right ⟨fun hd => ⟨List.mem_cons_of_mem _ hd.1, hd.2⟩, fun hd => ⟨?_, hd.2⟩⟩
        rcases List.mem_cons.mp hd.1 with rfl | hd'
        · exact absurd hd.2 hsame
        · exact hd'
      · rw [hdels]
        simp [hidx]
    | some idx =>
      rw [hidx] at h
      dsimp only at h
      cases hb : s.bootstraps.lookup idx with
      | none => simp [hb] at h
      | some b =>
        simp only [hb] at h
        obtain ⟨hadds, hdiffs, hdels, hnodup⟩ := ih h
        have hold : c.id ∈ s.nodes := mem_iff_lookup.mpr ⟨idx, hidx⟩
        have hdiffers : Differs e s c ↔ compare e b.component c = false := by
          constructor
          · rintro ⟨idx', b', hlookup, hb', hne⟩
            obtain rfl := Option.some.inj (hidx.symm.trans hlookup)
            obtain rfl := Option.some.inj (hb.symm.trans hb')
            exact hne
          · intro hne
            exact ⟨idx, b, hidx, hb, hne⟩
        refine ⟨by simp [hadds, hold], fun d => ?_, fun i => ?_, fun hq => hnodup (hq.filter _)⟩
        · rw [hdiffs]
          by_cases hcompare : compare e b.component c = true
          · rw [if_pos hcompare]
            refine or_congr_right ⟨fun hd => ⟨List.mem_cons_of_mem _ hd.1, hd.2⟩, fun hd => ⟨?_, hd.2⟩⟩
            rcases List.mem_cons.mp hd.1 with rfl | hd'
            · rw [hdiffers.mp hd.2] at hcompare
              nomatch hcompare
            · exact hd'
          · have hne : Differs e s c := hdiffers.mpr (Bool.not_eq_true _ ▸ hcompare)
            rw [if_neg hcompare, List.mem_append, List.mem_singleton, List.mem_cons]
            constructor
            · rintro ((hd | rfl) | hd)
              · exact Or.inl hd
              · exact Or.inr ⟨Or.inl rfl, hne⟩
              · exact Or.inr ⟨Or.inr hd.1, hd.2⟩
            · rintro (hd | ⟨rfl | hd, hd'⟩)
              · exact Or.inl (Or.inl hd)
              · exact Or.inl (Or.inr rfl)
              · exact Or.inr ⟨hd, hd'⟩
        · have hhead : (some idx ≠ some i) ↔ i ≠ idx := by rw [Ne, Option.some_inj, eq_comm]
          rw [hdels, List.forall_mem_cons, hidx, hhead, List.mem_filter, decide_eq_true_iff, and_assoc]

theorem planned (h : s.plan e components = .ok p) : Planned e s components p := by
  unfold plan at h
  cases hsort : sortOut e s components ⟨[], [], s.bootstraps.keys⟩ with
  | error error => simp [hsort] at h
  | ok q =>
    rw [hsort] at h
    obtain rfl := Except.ok.inj h
    obtain ⟨hadds, hdiffs, hdels, hnodup⟩ := sortOut_spec hsort
    refine ⟨by simpa using hadds, fun c => by simpa using hdiffs c, fun i => ?_, ?_⟩
    · rw [(e.iter_perm q.dels).mem_iff, hdels, ← AList.mem_keys]
    · exact (e.iter_perm q.dels).nodup_iff.mpr (hnodup (AList.keys_nodup _))

/-- A name leads to a bootstrap, so that a plan is made. -/
theorem Named.plan_ok (h : Named s) (e : Engine Body) (components : List (Component Body)) : ∃ p, s.plan e components = .ok p := by
  have hsort : ∀ q, ∃ p, sortOut e s components q = .ok p := by
    induction components with
    | nil => intro q; exact ⟨q, rfl⟩
    | cons c cs ih =>
      intro q
      unfold sortOut
      cases hidx : s.nodes.lookup c.id with
      | none => exact ih _
      | some idx =>
        obtain ⟨b, hb, -⟩ := h.named c.id idx hidx
        dsimp only
        rw [hb]
        exact ih _
  obtain ⟨p, hp⟩ := hsort ⟨[], [], s.bootstraps.keys⟩
  unfold plan
  rw [hp]
  exact ⟨_, rfl⟩

/-! ## The search for a cycle -/

def findCycle (e : Engine Body) (edges : Adjacency String) : Option (List String) :=
  DepthFirst.findCycle edges.row (e.iter edges.keys)

/-- A node that leads on is a key of the table. -/
theorem mem_iter_keys (e : Engine Body) (edges : Adjacency String) (a : String) (ha : edges.row a ≠ []) :
    a ∈ e.iter edges.keys := by
  rw [(e.iter_perm _).mem_iff, ← AList.mem_keys]
  by_contra hnot
  exact ha (Adjacency.row_of_notMem hnot)

/-- The search ends at a depth that the table bounds, finds nothing exactly when no node leads back to itself, and what it finds
is a way along edges that ends where it begins. -/
theorem findCycle_exact (e : Engine Body) (edges : Adjacency String) :
    (∀ depth, (DepthFirst.allNodes edges.row (e.iter edges.keys)).card ≤ depth →
      DepthFirst.visitRoots edges.row depth (e.iter edges.keys) (fun _ => .white) = findCycle e edges) ∧
    (findCycle e edges = none ↔ DepthFirst.Acyclic edges.row) ∧
    ∀ cycle, findCycle e edges = some cycle → DepthFirst.Closes edges.row cycle := by
  have hroots := mem_iter_keys e edges
  refine ⟨fun depth hdepth => ?_, ?_, fun cycle hcycle => ?_⟩
  · exact DepthFirst.findCycle_depth hroots hdepth
  · exact DepthFirst.findCycle_eq_none hroots
  · exact DepthFirst.findCycle_closes hroots hcycle

/-! ## The validations -/

theorem checkAll_ok {α : Type} {check : α → Except String Unit} {as : List α} (h : checkAll check as = .ok ()) :
    ∀ a ∈ as, check a = .ok () := by
  induction as with
  | nil => simp
  | cons a as ih =>
    unfold checkAll at h
    cases hcheck : check a with
    | error error => simp [hcheck] at h
    | ok _ =>
      rw [hcheck] at h
      intro a' ha'
      rcases List.mem_cons.mp ha' with rfl | ha'
      · exact hcheck
      · exact ih h a' ha'

variable {adds : List (Component Body)}

theorem willAdd_eq_some {id : String} {c : Component Body} (h : willAdd adds id = some c) :
    id ∈ adds.map Component.id := by
  have hmem := List.mem_of_find?_eq_some h
  have hid := List.find?_some h
  exact List.mem_map.mpr ⟨c, by simpa using hmem, by simpa using hid⟩

theorem checkInputs_ok {id : String} {inputs dead dead' : List String} (h : checkInputs s adds id inputs dead = .ok dead') :
    ∀ input ∈ inputs, input ∈ s.nodes ∨ input ∈ adds.map Component.id := by
  induction inputs generalizing dead with
  | nil => simp
  | cons input inputs ih =>
    unfold checkInputs at h
    intro input' hinput'
    cases hadd : willAdd adds input with
    | none =>
      simp only [hadd] at h
      split_ifs at h with hmem
      rcases List.mem_cons.mp hinput' with rfl | hinput'
      · exact Or.inl hmem
      · exact ih h input' hinput'
    | some added =>
      simp only [hadd] at h
      split_ifs at h
      rcases List.mem_cons.mp hinput' with rfl | hinput'
      · exact Or.inr (willAdd_eq_some hadd)
      · exact ih h input' hinput'

theorem checkAdd_ok {c : Component Body} {dead dead' : List String} (h : checkAdd s adds dead c = .ok dead') :
    ∀ input ∈ c.inputs, input ∈ s.nodes ∨ input ∈ adds.map Component.id := by
  unfold checkAdd at h
  unfold Component.inputs
  cases hinputs : c.get_inputs with
  | none => simp
  | some inputs =>
    rw [hinputs] at h
    dsimp only at h
    split_ifs at h
    exact checkInputs_ok h

theorem checkAdds_ok {adds cs : List (Component Body)} {dead dead' : List String} (h : checkAdds s adds cs dead = .ok dead') :
    ∀ c ∈ cs, ∀ input ∈ c.inputs, input ∈ s.nodes ∨ input ∈ adds.map Component.id := by
  induction cs generalizing dead with
  | nil => simp
  | cons c cs ih =>
    unfold checkAdds at h
    cases hadd : checkAdd s adds dead c with
    | error error => simp [hadd] at h
    | ok next =>
      rw [hadd] at h
      intro c' hc'
      rcases List.mem_cons.mp hc' with rfl | hc'
      · exact checkAdd_ok hadd
      · exact ih h c' hc'

theorem checkReceivers_ok {diffs : List (Component Body)} {dels : List Nat} {dead : Nat} {receivers sent sent' : List Nat}
    (h : checkReceivers s diffs dels dead receivers sent = .ok sent') :
    ∀ r ∈ receivers, r ∈ dels ∨ ∃ d ∈ diffs, s.nodes.lookup d.id = some r := by
  induction receivers generalizing sent with
  | nil => simp
  | cons r rs ih =>
    unfold checkReceivers at h
    intro r' hr'
    by_cases hdel : r ∈ dels
    · rw [if_pos hdel] at h
      rcases List.mem_cons.mp hr' with rfl | hr'
      · exact Or.inl hdel
      · exact ih h r' hr'
    · rw [if_neg hdel] at h
      cases hchange : willChangeInput s diffs r with
      | none => simp [hchange] at h
      | some changing =>
        simp only [hchange] at h
        split_ifs at h
        rcases List.mem_cons.mp hr' with rfl | hr'
        · obtain ⟨d, hd, -⟩ := Option.map_eq_some_iff.mp hchange
          have hmem := List.mem_of_find?_eq_some hd
          have hlookup := List.find?_some hd
          exact Or.inr ⟨d, by simpa using hmem, by simpa using hlookup⟩
        · exact ih h r' hr'

theorem mem_indices {names : List String} {i : Nat} : i ∈ s.indices names ↔ ∃ name ∈ names, s.nodes.lookup name = some i := by
  simp [indices, List.mem_filterMap]

/-- What the validations give: the inputs of additions and changes are found, no addition receives from a node that is deleted,
a node that receives from one is deleted or changed, and the graph has no cycle. -/
structure Checked (s : Runtime Body) (p : Plan Body) : Prop where
  adds : ∀ c ∈ p.adds, ∀ input ∈ c.inputs, input ∈ s.nodes ∨ input ∈ p.adds.map Component.id
  diffs : ∀ c ∈ p.diffs, ∀ input ∈ c.inputs, input ∈ s.nodes ∨ input ∈ p.adds.map Component.id
  unlinked : ∀ dead ∈ p.dels, ∀ c ∈ p.adds, ∀ input ∈ c.inputs, s.nodes.lookup input ≠ some dead
  receivers : ∀ dead ∈ p.dels, ∀ r ∈ s.sinks.row dead, r ∈ p.dels ∨ ∃ d ∈ p.diffs, s.nodes.lookup d.id = some r
  acyclic : DepthFirst.Acyclic (s.edges p.adds p.diffs p.dels).row

theorem validate_ok (h : s.validate e p = .ok ()) :
    s.validateIfAddingNewNodes e p.adds p.diffs = .ok () ∧ s.validateIfChangingNodes p.diffs p.adds = .ok () ∧
      s.validateIfRemoveOutdatedNodes e p.dels p.adds p.diffs = .ok () ∧ s.validateNoCycles e p.adds p.diffs p.dels = .ok () := by
  unfold validate at h
  cases hadding : s.validateIfAddingNewNodes e p.adds p.diffs with
  | error error => simp [hadding] at h
  | ok _ =>
    cases hchanging : s.validateIfChangingNodes p.diffs p.adds with
    | error error => simp [hadding, hchanging] at h
    | ok _ =>
      cases hremoving : s.validateIfRemoveOutdatedNodes e p.dels p.adds p.diffs with
      | error error => simp [hadding, hchanging, hremoving] at h
      | ok _ =>
        simp only [hadding, hchanging, hremoving] at h
        exact ⟨rfl, rfl, rfl, h⟩

theorem checked (h : s.validate e p = .ok ()) : Checked s p := by
  obtain ⟨hadding, hchanging, hremoving, hcycles⟩ := validate_ok h
  have hdels : ∀ dead ∈ p.dels, dead ∉ s.indices (p.adds.flatMap Component.inputs) ∧
      ∃ sent, checkReceivers s p.diffs p.dels dead (s.sinks.row dead) (s.sources.row dead).dedup = .ok sent := by
    intro dead hdead
    have hdel := checkAll_ok hremoving dead hdead
    unfold checkDel at hdel
    split_ifs at hdel with hlinked
    cases hreceivers : checkReceivers s p.diffs p.dels dead (s.sinks.row dead) (s.sources.row dead).dedup with
    | error error => simp [hreceivers] at hdel
    | ok sent => exact ⟨hlinked, sent, rfl⟩
  refine ⟨?_, fun c hc input hinput => ?_, fun dead hdead c hc input hinput hlookup => ?_, fun dead hdead r hr => ?_, ?_⟩
  · unfold validateIfAddingNewNodes at hadding
    cases hadds : checkAdds s p.adds p.adds (p.adds.map Component.id).dedup with
    | error error => simp [hadds] at hadding
    | ok dead => exact checkAdds_ok hadds
  · have hcheck := checkAll_ok (checkAll_ok hchanging c hc) input hinput
    by_contra hnone
    push Not at hnone
    rw [if_pos hnone] at hcheck
    nomatch hcheck
  · refine (hdels dead hdead).1 (mem_indices.mpr ⟨input, ?_, hlookup⟩)
    exact List.mem_flatMap.mpr ⟨c, hc, hinput⟩
  · obtain ⟨sent, hsent⟩ := (hdels dead hdead).2
    exact checkReceivers_ok hsent r hr
  · unfold validateNoCycles at hcycles
    dsimp only at hcycles
    cases hcycle : DepthFirst.findCycle (s.edges p.adds p.diffs p.dels).row (e.iter (s.edges p.adds p.diffs p.dels).keys) with
    | some cycle => simp [hcycle] at hcycles
    | none => exact (DepthFirst.findCycle_eq_none (mem_iter_keys e _)).mp hcycle

end Runtime

end Opsense
