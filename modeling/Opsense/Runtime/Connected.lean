import Opsense.Runtime.Topology

/-!
# Connected pipelines

A pipeline is connected when every node that is no source receives, none receives from a sink or from a node that is not there,
and every node that is neither a sink nor serves its own data has a consumer (`Connected`). The validations of a reload look at
additions among themselves, at the inputs of changes by name, and at removals in the old links. What they leave open is `Firm`.
The tables after a reload are those of the components that the list asks for (`upcoming`), so that a reload which is firm
keeps a pipeline connected.
-/

namespace Opsense

namespace Runtime

variable {Body : Type} {e : Engine Body} {s s' : Runtime Body} {components cs : List (Component Body)} {p : Plan Body}

/-- Every node that is no source receives, none receives from a sink or from a node that is not there, and every node that is
neither a sink nor serves its own data has a consumer. -/
structure Connected (s : Runtime Body) : Prop where
  fed : ∀ idx b, s.bootstraps.lookup idx = some b → ¬isSource b.component → s.sources.row idx ≠ []
  unsunk : ∀ idx ∈ s.bootstraps, ∀ j ∈ s.sources.row idx, ∀ d, s.bootstraps.lookup j = some d → ¬isSink d.component
  present : ∀ idx ∈ s.bootstraps, ∀ j ∈ s.sources.row idx, j ∈ s.bootstraps
  consumed : ∀ idx b, s.bootstraps.lookup idx = some b → ¬isSink b.component → ¬b.component.is_terminal →
    ∃ j ∈ s.sinks.row idx, j ∈ s.bootstraps

/-- The same of a graph that is given by the components of its names. -/
structure Sound (graph : String → Option (Component Body)) : Prop where
  fed : ∀ id, ∀ c ∈ graph id, ¬isSource c → c.inputs ≠ []
  unsunk : ∀ id, ∀ c ∈ graph id, ∀ input ∈ c.inputs, ∀ d ∈ graph input, ¬isSink d
  consumed : ∀ id, ∀ c ∈ graph id, ¬isSink c → ¬c.is_terminal → ∃ id', ∃ d ∈ graph id', id ∈ d.inputs

/-! ## The graph of the tables -/

variable {c : Component Body}

theorem mem_installed {id : String} :
    c ∈ s.installed id ↔ ∃ idx b, s.nodes.lookup id = some idx ∧ s.bootstraps.lookup idx = some b ∧ b.component = c := by
  simp only [installed, Option.mem_def, Option.bind_eq_some_iff, Option.map_eq_some_iff]
  exact ⟨fun ⟨idx, hidx, b, hb, hc⟩ => ⟨idx, b, hidx, hb, hc⟩, fun ⟨idx, b, hidx, hb, hc⟩ => ⟨idx, hidx, b, hb, hc⟩⟩

theorem Placed.installed (h : Placed s) {idx : Nat} {b : Bootstrap Body} (hb : s.bootstraps.lookup idx = some b) :
    b.component ∈ s.installed b.component.id :=
  mem_installed.mpr ⟨idx, b, h.booted idx b hb, hb, rfl⟩

theorem Named.id_of_installed (h : Named s) {id : String} (hc : c ∈ s.installed id) : c.id = id := by
  obtain ⟨idx, b, hidx, hb, rfl⟩ := mem_installed.mp hc
  obtain ⟨b', hb', hid⟩ := h.named id idx hidx
  obtain rfl := Option.some.inj (hb.symm.trans hb')
  exact hid

/-- One node receives from another one exactly when its component says so. -/
theorem Woven.mem_row_iff (h : Woven s) {idx j : Nat} {b d : Bootstrap Body} (hb : s.bootstraps.lookup idx = some b)
    (hd : s.bootstraps.lookup j = some d) : j ∈ s.sources.row idx ↔ d.component.id ∈ b.component.inputs := by
  rw [h.declared idx b hb, mem_indices]
  have hname := h.booted j d hd
  constructor
  · rintro ⟨name, hmem, hj⟩
    rwa [h.toPlaced.toNamed.injective hname hj]
  · intro hmem
    exact ⟨d.component.id, hmem, hname⟩

theorem Woven.row_mem_bootstraps (h : Woven s) {idx j : Nat} (hidx : idx ∈ s.bootstraps) (hj : j ∈ s.sources.row idx) :
    j ∈ s.bootstraps := by
  obtain ⟨b, hb⟩ := mem_iff_lookup.mp hidx
  exact h.toPlaced.toNamed.mem_bootstraps_of_indices ((h.declared idx b hb j).mp hj)

theorem Woven.connected_iff (h : Woven s) : Connected s ↔ Sound s.installed := by
  constructor
  · intro hconn
    refine ⟨fun id c hc hsource hinputs => ?_, fun id c hc input hinput d hd => ?_, fun id c hc hsink hterminal => ?_⟩
    · obtain ⟨idx, b, hidx, hb, rfl⟩ := mem_installed.mp hc
      refine hconn.fed idx b hb hsource (List.eq_nil_iff_forall_not_mem.mpr fun j hj => ?_)
      rw [h.declared idx b hb, hinputs] at hj
      simp [indices] at hj
    · obtain ⟨idx, b, hidx, hb, rfl⟩ := mem_installed.mp hc
      obtain ⟨j, b', hj, hb', rfl⟩ := mem_installed.mp hd
      refine hconn.unsunk idx (mem_iff_lookup.mpr ⟨b, hb⟩) j ?_ b' hb'
      exact (h.declared idx b hb j).mpr (mem_indices.mpr ⟨input, hinput, hj⟩)
    · obtain ⟨idx, b, hidx, hb, rfl⟩ := mem_installed.mp hc
      obtain ⟨j, hj, hboot⟩ := hconn.consumed idx b hb hsink hterminal
      obtain ⟨b', hb'⟩ := mem_iff_lookup.mp hboot
      refine ⟨b'.component.id, b'.component, h.toPlaced.installed hb', ?_⟩
      have hmem := (h.mem_row_iff hb' hb).mp ((h.mem j idx).mpr hj)
      rwa [h.toPlaced.toNamed.id_of_installed hc] at hmem
  · intro hsound
    refine ⟨fun idx b hb hsource hrow => ?_, fun idx hidx j hj d hd => ?_, fun idx hidx j hj => h.row_mem_bootstraps hidx hj,
      fun idx b hb hsink hterminal => ?_⟩
    · obtain ⟨input, hinput⟩ := List.exists_mem_of_ne_nil _ (hsound.fed _ _ (h.toPlaced.installed hb) hsource)
      obtain ⟨j, hj⟩ := mem_iff_lookup.mp (h.found idx b hb input hinput)
      have hmem : j ∈ s.sources.row idx := (h.declared idx b hb j).mpr (mem_indices.mpr ⟨input, hinput, hj⟩)
      rw [hrow] at hmem
      exact absurd hmem List.not_mem_nil
    · obtain ⟨b, hb⟩ := mem_iff_lookup.mp hidx
      exact hsound.unsunk _ _ (h.toPlaced.installed hb) _ ((h.mem_row_iff hb hd).mp hj) _ (h.toPlaced.installed hd)
    · obtain ⟨id', d, hd, hmem⟩ := hsound.consumed _ _ (h.toPlaced.installed hb) hsink hterminal
      obtain ⟨j, b', hj, hb', rfl⟩ := mem_installed.mp hd
      exact ⟨j, (h.mem j idx).mp ((h.mem_row_iff hb' hb).mpr hmem), mem_iff_lookup.mpr ⟨b', hb'⟩⟩

/-! ## What a list asks for -/

/-- The components of a list that are new. -/
def additions (s : Runtime Body) (cs : List (Component Body)) : List (Component Body) := cs.filter fun c => c.id ∉ s.nodes

/-- The components of a list that differ from those of their nodes. -/
def changes (e : Engine Body) (s : Runtime Body) (cs : List (Component Body)) : List (Component Body) :=
  cs.filter fun c => (s.installed c.id).any fun old => !compare e old c

/-- The component that a name is to have: the one of its name that is new or differs, or else the one that it has. -/
def upcoming (e : Engine Body) (s : Runtime Body) (cs : List (Component Body)) (id : String) : Option (Component Body) :=
  match willAdd (s.additions cs ++ s.changes e cs) id with
  | some c => some c
  | none => if id ∈ cs.map Component.id then s.installed id else none

/-- The node is none of the list. -/
def Leaves (s : Runtime Body) (cs : List (Component Body)) (idx : Nat) : Prop := ∀ c ∈ cs, s.nodes.lookup c.id ≠ some idx

/-- The node is one of the list and does not change. -/
def Stays (e : Engine Body) (s : Runtime Body) (cs : List (Component Body)) (idx : Nat) : Prop :=
  ¬s.Leaves cs idx ∧ ∀ c ∈ s.changes e cs, s.nodes.lookup c.id ≠ some idx

/-- The name has a component that is new or differs. -/
def Fresh (e : Engine Body) (s : Runtime Body) (cs : List (Component Body)) (id : String) : Prop :=
  id ∈ (s.additions cs ++ s.changes e cs).map Component.id

/-- What the validations leave open. No name is added or changed twice. A change that is no source declares an input, and
receives from the list only. A component does not receive from a sink, unless both are new or neither is new or changes, which
the validations and the pipeline so far exclude. A node that is neither a sink nor serves its own data keeps a consumer that
does not change, or its only consumer leaves, which is validated, or something in the list receives from it. -/
structure Firm (e : Engine Body) (s : Runtime Body) (cs : List (Component Body)) : Prop where
  nodup : ((s.additions cs ++ s.changes e cs).map Component.id).Nodup
  changes : ∀ c ∈ s.changes e cs, (isSource c ∨ c.inputs ≠ []) ∧ ∀ input ∈ c.inputs, input ∈ cs.map Component.id
  sinks : ∀ id ∈ cs.map Component.id, ∀ c ∈ s.upcoming e cs id, ∀ input ∈ c.inputs, ∀ d ∈ s.upcoming e cs input, isSink d →
    (id ∉ s.nodes ∧ input ∉ s.nodes) ∨ (¬s.Fresh e cs id ∧ ¬s.Fresh e cs input)
  consumers : ∀ id ∈ cs.map Component.id, ∀ idx ∈ s.nodes.lookup id, ∀ c ∈ s.upcoming e cs id, ¬isSink c → ¬c.is_terminal →
    (∃ r ∈ s.sinks.row idx, s.Stays e cs r) ∨ ((s.sinks.row idx).length = 1 ∧ ∀ r ∈ s.sinks.row idx, s.Leaves cs r) ∨
      ∃ id' ∈ cs.map Component.id, ∃ d ∈ s.upcoming e cs id', id ∈ d.inputs

theorem firm_iff : Firm e s cs ↔ ((s.additions cs ++ s.changes e cs).map Component.id).Nodup ∧
    (∀ c ∈ s.changes e cs, (isSource c ∨ c.inputs ≠ []) ∧ ∀ input ∈ c.inputs, input ∈ cs.map Component.id) ∧
    (∀ id ∈ cs.map Component.id, ∀ c ∈ s.upcoming e cs id, ∀ input ∈ c.inputs, ∀ d ∈ s.upcoming e cs input, isSink d →
      (id ∉ s.nodes ∧ input ∉ s.nodes) ∨ (¬s.Fresh e cs id ∧ ¬s.Fresh e cs input)) ∧
    ∀ id ∈ cs.map Component.id, ∀ idx ∈ s.nodes.lookup id, ∀ c ∈ s.upcoming e cs id, ¬isSink c → ¬c.is_terminal →
      (∃ r ∈ s.sinks.row idx, s.Stays e cs r) ∨ ((s.sinks.row idx).length = 1 ∧ ∀ r ∈ s.sinks.row idx, s.Leaves cs r) ∨
        ∃ id' ∈ cs.map Component.id, ∃ d ∈ s.upcoming e cs id', id ∈ d.inputs :=
  ⟨fun h => ⟨h.nodup, h.changes, h.sinks, h.consumers⟩, fun h => ⟨h.1, h.2.1, h.2.2.1, h.2.2.2⟩⟩

instance (s : Runtime Body) (cs : List (Component Body)) (idx : Nat) : Decidable (s.Leaves cs idx) :=
  inferInstanceAs (Decidable (∀ c ∈ cs, _))

instance (e : Engine Body) (s : Runtime Body) (cs : List (Component Body)) (idx : Nat) : Decidable (s.Stays e cs idx) :=
  inferInstanceAs (Decidable (_ ∧ _))

instance (e : Engine Body) (s : Runtime Body) (cs : List (Component Body)) (id : String) : Decidable (s.Fresh e cs id) :=
  inferInstanceAs (Decidable (_ ∈ _))

instance (e : Engine Body) (s : Runtime Body) (cs : List (Component Body)) : Decidable (Firm e s cs) :=
  @decidable_of_iff' _ _ firm_iff
    (@instDecidableAnd _ _ inferInstance (@instDecidableAnd _ _ inferInstance (@instDecidableAnd _ _ inferInstance inferInstance)))

theorem sortOut_diffs {q : Plan Body} (h : sortOut e s components q = .ok p) : p.diffs = q.diffs ++ s.changes e components := by
  induction components generalizing q with
  | nil =>
    obtain rfl := Except.ok.inj h
    simp [Runtime.changes]
  | cons c cs ih =>
    unfold sortOut at h
    unfold Runtime.changes at ih ⊢
    cases hidx : s.nodes.lookup c.id with
    | none =>
      rw [hidx] at h
      rw [ih h, List.filter_cons_of_neg (by simp [Runtime.installed, hidx])]
    | some idx =>
      rw [hidx] at h
      dsimp only at h
      cases hb : s.bootstraps.lookup idx with
      | none => simp [hb] at h
      | some b =>
        simp only [hb] at h
        have hrest := ih h
        by_cases hcompare : compare e b.component c = true
        · rw [if_pos hcompare] at hrest
          rw [hrest, List.filter_cons_of_neg (by simp [Runtime.installed, hidx, hb, hcompare])]
        · rw [if_neg hcompare] at hrest
          rw [hrest, List.filter_cons_of_pos (by simp [Runtime.installed, hidx, hb, hcompare]), List.append_assoc]
          rfl

theorem plan_diffs (h : s.plan e components = .ok p) : p.diffs = s.changes e components := by
  unfold plan at h
  cases hsort : sortOut e s components ⟨[], [], s.bootstraps.keys⟩ with
  | error error => simp [hsort] at h
  | ok q =>
    rw [hsort] at h
    obtain rfl := Except.ok.inj h
    exact sortOut_diffs hsort

theorem mem_fresh (hc : c ∈ s.additions cs ++ s.changes e cs) : c ∈ cs := by
  rcases List.mem_append.mp hc with hc | hc
  · exact (List.mem_filter.mp hc).1
  · exact (List.mem_filter.mp hc).1

/-- A name that is none of the list is to have no component. -/
theorem upcoming_of_notMem {id : String} (hid : id ∉ cs.map Component.id) : s.upcoming e cs id = none := by
  unfold upcoming
  cases hadd : willAdd (s.additions cs ++ s.changes e cs) id with
  | none => exact if_neg hid
  | some c =>
    obtain ⟨hc, rfl⟩ := mem_of_willAdd hadd
    exact absurd (List.mem_map_of_mem (mem_fresh hc)) hid

/-- The nodes have the components that the list asks for. -/
theorem Reshaped.installed (h : Reshaped s p s') (hs : Woven s) (hplanned : Planned e s components p)
    (hdiffs : p.diffs = s.changes e components) {s₅ : Runtime Body} (hdropped : Dropped s' p.dels s₅) (id : String) :
    s₅.installed id = s.upcoming e components id := by
  have hadds : p.adds = s.additions components := hplanned.adds
  have hnames := h.names hs hplanned hdropped id
  by_cases hid : id ∈ components.map Component.id
  · obtain ⟨idx, hidx⟩ := mem_iff_lookup.mp (hnames.mpr hid)
    obtain ⟨b, hb, rfl⟩ := hdropped.placed.named id idx hidx
    have hinstalled : s₅.installed b.component.id = some b.component := hdropped.placed.installed hb
    rw [hinstalled]
    unfold upcoming
    rw [← hadds, ← hdiffs]
    rcases h.components idx b ((hdropped.bootstraps idx b).mp hb).1 with hsome | ⟨hnone, hold⟩
    · rw [hsome]
    · rw [hnone]
      dsimp only
      rw [if_pos hid]
      exact (hs.toPlaced.installed hold).symm
  · have hnone : s₅.nodes.lookup id = none := AList.lookup_eq_none.mpr fun hmem => hid (hnames.mp hmem)
    rw [upcoming_of_notMem hid]
    unfold Runtime.installed
    rw [hnone]
    rfl

theorem SameNodes.installed (h : SameNodes s s') (id : String) : s'.installed id = s.installed id := by
  unfold Runtime.installed
  rw [h.nodes, h.bootstraps]

theorem Woven.congr (h : Woven s) (hsame : SameNodes s s') (hsources : s'.sources = s.sources) (hsinks : s'.sinks = s.sinks) :
    Woven s' := by
  refine ⟨h.toPlaced.congr hsame, ?_, ?_, ?_, ?_, ?_, ?_⟩
  · rw [hsources, hsinks]; exact h.mem
  · rw [hsinks]; exact h.sinks_nodup
  · rw [hsources, hsame.bootstraps]; exact h.sources
  · rw [hsinks, hsame.bootstraps]; exact h.sinks
  · rw [hsame.bootstraps, hsame.nodes]; exact h.found
  · intro idx b hb j
    rw [hsame.bootstraps] at hb
    rw [hsources, hsame.indices]
    exact h.declared idx b hb j

/-- A reload that succeeds leaves the graph of the components that its list asks for. -/
theorem Woven.reload (h : Woven s) (hnodup : ((s.additions cs).map Component.id).Nodup)
    (hleft : ∀ c ∈ s.changes e cs, ∀ input ∈ c.inputs, input ∈ cs.map Component.id) (hok : (s.reload e cs).2 = .ok ()) :
    Woven (s.reload e cs).1 ∧ ∀ id, (s.reload e cs).1.installed id = s.upcoming e cs id := by
  obtain ⟨p, s₁, s₃, s₅, hplan, hvalid, hadd, hchange, hremove, hsame, hsources, hsinks⟩ := reload_ok hok
  have hplanned := planned hplan
  have hchecked := checked hvalid
  have hadds : p.adds = s.additions cs := hplanned.adds
  have hdiffs := plan_diffs hplan
  rw [← hadds] at hnodup
  rw [← hdiffs] at hleft
  have hnew : ∀ c ∈ p.adds, c.id ∉ s.nodes := by
    intro c hc
    rw [hplanned.adds] at hc
    exact of_decide_eq_true (List.mem_filter.mp hc).2
  have hjoined := h.toPlaced.addNewNodes hnodup hnew hadd
  have htied₁ : Tied s₁ := h.toTied.of_nodes h.toPlaced hjoined.placed.toNamed hjoined.nodes hjoined.sources hjoined.sinks
  have hretied := htied₁.foldl_linkAdd hnodup (hjoined.unlinked h.toPlaced h.sources hnew)
  have hplaced₂ : Placed (p.adds.foldl linkAdd s₁) := hjoined.placed.congr hretied.same
  have hswapped := hplaced₂.changeNodes hchange
  have htied₃ : Tied s₃ := hretied.tied.of_nodes hplaced₂ hswapped.placed.toNamed
    (fun name idx hname => by rw [hswapped.nodes]; exact hname) hswapped.sources hswapped.sinks
  have hretied₄ : Retied s₃ p.diffs (p.diffs.foldl linkChange s₃) := htied₃.foldl_linkChange fun c hc => by
    obtain ⟨-, idx, b, hidx, -⟩ := (hplanned.diffs c).mp hc
    rw [hswapped.nodes, hretied.same.nodes]
    exact mem_iff_lookup.mpr ⟨idx, hjoined.nodes _ idx hidx⟩
  have hreshaped := h.reshaped hnodup hnew hjoined hretied hswapped hretied₄
  have hdropped := hreshaped.toPlaced.removeNodes hremove
  refine ⟨(hreshaped.woven h hplanned hchecked hleft hdropped).congr hsame hsources hsinks, fun id => ?_⟩
  rw [hsame.installed, (unlinkRemoved_frame s₅ p.dels).installed]
  exact hreshaped.installed h hplanned hdiffs hdropped id

/-! ## What is validated -/

theorem checkInputs_links {adds : List (Component Body)} {id : String} {inputs dead dead' : List String}
    (h : checkInputs s adds id inputs dead = .ok dead') :
    (∀ input ∈ inputs, ∀ d, willAdd adds input = some d → ¬isSink d) ∧ ∀ name ∈ dead, name ∈ dead' ∨ name ∈ inputs := by
  induction inputs generalizing dead with
  | nil =>
    obtain rfl := Except.ok.inj h
    exact ⟨by simp, fun name hname => Or.inl hname⟩
  | cons input inputs ih =>
    unfold checkInputs at h
    cases hadd : willAdd adds input with
    | none =>
      simp only [hadd] at h
      split_ifs at h
      obtain ⟨hsinks, hdead⟩ := ih h
      refine ⟨List.forall_mem_cons.mpr ⟨by simp [hadd], hsinks⟩, fun name hname => ?_⟩
      exact (hdead name hname).imp_right (List.mem_cons_of_mem _)
    | some added =>
      simp only [hadd] at h
      split_ifs at h with hsink
      obtain ⟨hsinks, hdead⟩ := ih h
      refine ⟨List.forall_mem_cons.mpr ⟨?_, hsinks⟩, fun name hname => ?_⟩
      · intro d hd
        obtain rfl := Option.some.inj (hadd.symm.trans hd)
        exact hsink
      · by_cases heq : name = input
        · exact Or.inr (heq ▸ List.mem_cons_self)
        · exact (hdead name (List.mem_filter.mpr ⟨hname, by simpa using heq⟩)).imp_right (List.mem_cons_of_mem _)

theorem checkAdd_links {adds : List (Component Body)} {dead dead' : List String} (h : checkAdd s adds dead c = .ok dead') :
    (isSource c ∨ c.inputs ≠ []) ∧ (∀ input ∈ c.inputs, ∀ d, willAdd adds input = some d → ¬isSink d) ∧
      ∀ name ∈ dead, name ∈ dead' ∨ name ∈ c.inputs := by
  unfold checkAdd at h
  unfold Component.inputs
  cases hinputs : c.get_inputs with
  | none =>
    rw [hinputs] at h
    dsimp only at h
    split_ifs at h with hsource
    obtain rfl := Except.ok.inj h
    exact ⟨Or.inl hsource, by simp, fun name hname => Or.inl hname⟩
  | some inputs =>
    rw [hinputs] at h
    dsimp only at h
    split_ifs at h with hsource
    obtain ⟨hsinks, hdead⟩ := checkInputs_links h
    refine ⟨?_, hsinks, hdead⟩
    by_contra hnot
    push Not at hnot
    exact hsource ⟨hnot.1, hnot.2⟩

theorem checkAdds_links {adds cs : List (Component Body)} {dead dead' : List String} (h : checkAdds s adds cs dead = .ok dead') :
    (∀ c ∈ cs, (isSource c ∨ c.inputs ≠ []) ∧ ∀ input ∈ c.inputs, ∀ d, willAdd adds input = some d → ¬isSink d) ∧
      ∀ name ∈ dead, name ∈ dead' ∨ ∃ c ∈ cs, name ∈ c.inputs := by
  induction cs generalizing dead with
  | nil =>
    obtain rfl := Except.ok.inj h
    exact ⟨by simp, fun name hname => Or.inl hname⟩
  | cons c cs ih =>
    unfold checkAdds at h
    cases hadd : checkAdd s adds dead c with
    | error error => simp [hadd] at h
    | ok next =>
      rw [hadd] at h
      obtain ⟨hfed, hsinks, hdead⟩ := checkAdd_links hadd
      obtain ⟨hrest, hdead'⟩ := ih h
      refine ⟨List.forall_mem_cons.mpr ⟨⟨hfed, hsinks⟩, hrest⟩, fun name hname => ?_⟩
      rcases hdead name hname with hname | hinput
      · refine (hdead' name hname).imp_right ?_
        rintro ⟨d, hd, hmem⟩
        exact ⟨d, List.mem_cons_of_mem _ hd, hmem⟩
      · exact Or.inr ⟨c, List.mem_cons_self, hinput⟩

/-- Who sends to a node that leaves is passed on, unless a change receives from it. -/
theorem checkReceivers_sent {diffs : List (Component Body)} {dels : List Nat} {dead : Nat} {receivers sent sent' : List Nat}
    (h : checkReceivers s diffs dels dead receivers sent = .ok sent') :
    ∀ i ∈ sent, i ∈ sent' ∨ ∃ d ∈ diffs, i ∈ s.indices d.inputs := by
  induction receivers generalizing sent with
  | nil =>
    obtain rfl := Except.ok.inj h
    exact fun i hi => Or.inl hi
  | cons r rs ih =>
    unfold checkReceivers at h
    split_ifs at h with hdel
    · exact ih h
    · cases hchange : willChangeInput s diffs r with
      | none => simp [hchange] at h
      | some changing =>
        simp only [hchange] at h
        split_ifs at h
        intro i hi
        by_cases hmem : i ∈ changing
        · obtain ⟨d, hd, rfl⟩ := Option.map_eq_some_iff.mp hchange
          exact Or.inr ⟨d, by simpa using List.mem_of_find?_eq_some hd, hmem⟩
        · exact ih h i (List.mem_filter.mpr ⟨hi, by simpa using hmem⟩)

/-- What the validations say of additions and of the nodes that send to one which leaves. -/
structure Validated (s : Runtime Body) (p : Plan Body) : Prop where
  fed : ∀ c ∈ p.adds, isSource c ∨ c.inputs ≠ []
  unsunk : ∀ c ∈ p.adds, ∀ input ∈ c.inputs, ∀ d, willAdd p.adds input = some d → ¬isSink d
  consumed : ∀ c, willAdd p.adds c.id = some c → ¬isSink c → ¬c.is_terminal → ∃ d ∈ p.adds ++ p.diffs, c.id ∈ d.inputs
  deadline : ∀ dead ∈ p.dels, ∀ i ∈ s.sources.row dead, i ∉ p.dels → (s.sinks.row i).length = 1 → ∃ d ∈ p.diffs, i ∈ s.indices d.inputs

theorem validated_adds (h : s.validateIfAddingNewNodes e p.adds p.diffs = .ok ()) {dead : List String}
    (hdead : checkAdds s p.adds p.adds (p.adds.map Component.id).dedup = .ok dead) (hc : willAdd p.adds c.id = some c) (hsink : ¬isSink c)
    (hterminal : ¬c.is_terminal) :
    ∃ d ∈ p.adds ++ p.diffs, c.id ∈ d.inputs := by
  unfold validateIfAddingNewNodes at h
  rw [hdead] at h
  have hmem : c.id ∈ (p.adds.map Component.id).dedup := List.mem_dedup.mpr (List.mem_map_of_mem (mem_of_willAdd hc).1)
  rcases (checkAdds_links hdead).2 c.id hmem with hleft | ⟨d, hd, hinput⟩
  · have hcheck := checkAll_ok h c.id ((e.iter_perm dead).mem_iff.mpr hleft)
    unfold checkDead at hcheck
    rw [hc] at hcheck
    dsimp only at hcheck
    split_ifs at hcheck with hnone
    have hinput : c.id ∈ p.diffs.flatMap Component.inputs := by
      by_contra hnot
      exact hnone ⟨hsink, hterminal, hnot⟩
    obtain ⟨d, hd, hinput⟩ := List.mem_flatMap.mp hinput
    exact ⟨d, List.mem_append_right _ hd, hinput⟩
  · exact ⟨d, List.mem_append_left _ hd, hinput⟩

theorem validated_dels (h : s.validateIfRemoveOutdatedNodes e p.dels p.adds p.diffs = .ok ()) {dead i : Nat} (hdead : dead ∈ p.dels)
    (hi : i ∈ s.sources.row dead) (hdel : i ∉ p.dels) (hone : (s.sinks.row i).length = 1) : ∃ d ∈ p.diffs, i ∈ s.indices d.inputs := by
  have hcheck := checkAll_ok h dead hdead
  unfold checkDel at hcheck
  split_ifs at hcheck
  cases hsent : checkReceivers s p.diffs p.dels dead (s.sinks.row dead) (s.sources.row dead).dedup with
  | error error => simp [hsent] at hcheck
  | ok sent =>
    rw [hsent] at hcheck
    rcases checkReceivers_sent hsent i (List.mem_dedup.mpr hi) with hmem | hchange
    · have hlast := checkAll_ok hcheck i ((e.iter_perm sent).mem_iff.mpr hmem)
      rw [if_pos ⟨hone, hdel⟩] at hlast
      nomatch hlast
    · exact hchange

theorem validated (h : s.validate e p = .ok ()) : Validated s p := by
  obtain ⟨hadding, -, hremoving, -⟩ := validate_ok h
  have hadds := hadding
  unfold validateIfAddingNewNodes at hadds
  cases hdead : checkAdds s p.adds p.adds (p.adds.map Component.id).dedup with
  | error error => simp [hdead] at hadds
  | ok dead =>
    have hlinks := (checkAdds_links hdead).1
    refine ⟨fun c hc => (hlinks c hc).1, fun c hc => (hlinks c hc).2, fun c hc hsink hterminal => ?_,
      fun dead hdead i hi hdel hone => ?_⟩
    · exact validated_adds hadding hdead hc hsink hterminal
    · exact validated_dels hremoving hdead hi hdel hone

/-! ## A reload that is firm -/

/-- A component that is new or differs is the one that its name is to have. -/
theorem Firm.upcoming (h : Firm e s cs) (hc : c ∈ s.additions cs ++ s.changes e cs) :
    c ∈ s.upcoming e cs c.id := by
  unfold Runtime.upcoming
  rw [willAdd_of_nodup h.nodup hc]
  rfl

/-- The component that a name is to have is new, or differs, or is the one that it has. -/
theorem upcoming_cases {id : String} (hc : c ∈ s.upcoming e cs id) :
    (c ∈ s.additions cs ∧ c.id = id) ∨ (c ∈ s.changes e cs ∧ c.id = id) ∨ c ∈ s.installed id := by
  unfold upcoming at hc
  cases hadd : willAdd (s.additions cs ++ s.changes e cs) id with
  | none =>
    rw [hadd] at hc
    dsimp only at hc
    split_ifs at hc
    · exact Or.inr (Or.inr hc)
    · nomatch hc
  | some c' =>
    rw [hadd] at hc
    obtain rfl := Option.mem_some.mp hc
    obtain ⟨hmem, hid⟩ := mem_of_willAdd hadd
    rcases List.mem_append.mp hmem with hmem | hmem
    · exact Or.inl ⟨hmem, hid⟩
    · exact Or.inr (Or.inl ⟨hmem, hid⟩)

theorem mem_nodes_of_installed {id : String} (hc : c ∈ s.installed id) : id ∈ s.nodes := by
  obtain ⟨idx, b, hidx, -⟩ := mem_installed.mp hc
  exact mem_iff_lookup.mpr ⟨idx, hidx⟩

theorem mem_nodes_of_change (hc : c ∈ s.changes e cs) : c.id ∈ s.nodes := by
  cases hold : s.installed c.id with
  | none => simp [changes, hold] at hc
  | some old => exact mem_nodes_of_installed hold

/-- The component that a name without a node is to have is new. -/
theorem mem_additions_of_upcoming {id : String} (hc : c ∈ s.upcoming e cs id) (hid : id ∉ s.nodes) :
    c ∈ s.additions cs ∧ c.id = id := by
  rcases upcoming_cases hc with hadd | ⟨hchange, rfl⟩ | hold
  · exact hadd
  · exact absurd (mem_nodes_of_change hchange) hid
  · exact absurd (mem_nodes_of_installed hold) hid

/-- A name of the list whose component is not new and does not differ keeps it. -/
theorem upcoming_of_not_fresh {id : String} (hid : id ∈ cs.map Component.id) (hfresh : ¬s.Fresh e cs id) :
    s.upcoming e cs id = s.installed id := by
  unfold upcoming
  rw [willAdd_eq_none.mpr hfresh]
  exact if_pos hid

/-- A node that stays is to have the component that it has. -/
theorem Placed.upcoming_of_stays (h : Placed s) {r : Nat} {b : Bootstrap Body} (hb : s.bootstraps.lookup r = some b)
    (hstays : s.Stays e cs r) : b.component.id ∈ cs.map Component.id ∧ b.component ∈ s.upcoming e cs b.component.id := by
  obtain ⟨hlisted, hsame⟩ := hstays
  have hname := h.booted r b hb
  have hid : b.component.id ∈ cs.map Component.id := by
    unfold Leaves at hlisted
    push Not at hlisted
    obtain ⟨c, hc, hlookup⟩ := hlisted
    rw [h.toNamed.injective hname hlookup]
    exact List.mem_map_of_mem hc
  refine ⟨hid, ?_⟩
  rw [upcoming_of_not_fresh hid]
  · exact h.installed hb
  · intro hfresh
    obtain ⟨c, hc, heq⟩ := List.mem_map.mp hfresh
    rcases List.mem_append.mp hc with hc | hc
    · have hnew := of_decide_eq_true (List.mem_filter.mp hc).2
      exact hnew (mem_iff_lookup.mpr ⟨r, heq ▸ hname⟩)
    · exact hsame c hc (heq ▸ hname)

/-- A node that is neither a sink nor serves its own data has a consumer in the graph that the list asks for. -/
theorem Firm.consumed (h : Firm e s cs) (hs : Woven s) (hplanned : Planned e s cs p) (hdiffs : p.diffs = s.changes e cs)
    (hvalidated : Validated s p) {id : String} (hc : c ∈ s.upcoming e cs id) (hsink : ¬isSink c) (hterminal : ¬c.is_terminal) :
    ∃ id', ∃ d ∈ s.upcoming e cs id', id ∈ d.inputs := by
  have hadds : p.adds = s.additions cs := hplanned.adds
  have hid : id ∈ cs.map Component.id := by
    by_contra hnot
    rw [upcoming_of_notMem hnot] at hc
    nomatch hc
  by_cases hold : id ∈ s.nodes
  · obtain ⟨idx, hidx⟩ := mem_iff_lookup.mp hold
    obtain ⟨b, hb, rfl⟩ := hs.toPlaced.named id idx hidx
    have hkept : idx ∉ p.dels := by
      intro hdel
      obtain ⟨c', hc', heq⟩ := List.mem_map.mp hid
      exact ((hplanned.dels idx).mp hdel).2 c' hc' (heq ▸ hidx)
    have hboot : ∀ r ∈ s.sinks.row idx, r ∈ s.bootstraps := by
      intro r hr
      refine hs.toTied.sources r (Classical.byContradiction fun hnot => ?_)
      have hrow := (hs.mem r idx).mpr hr
      rw [Adjacency.row_of_notMem hnot] at hrow
      exact absurd hrow List.not_mem_nil
    rcases h.consumers _ hid idx hidx c hc hsink hterminal with ⟨r, hr, hstays⟩ | ⟨hone, hleave⟩ | ⟨id', -, d, hd, hmem⟩
    · obtain ⟨b', hb'⟩ := mem_iff_lookup.mp (hboot r hr)
      obtain ⟨-, hupcoming⟩ := hs.toPlaced.upcoming_of_stays hb' hstays
      exact ⟨_, _, hupcoming, (hs.mem_row_iff hb' hb).mp ((hs.mem r idx).mpr hr)⟩
    · -- the only consumer leaves, so that a change receives from the node
      obtain ⟨r, hr⟩ := List.exists_mem_of_length_pos (by omega : 0 < (s.sinks.row idx).length)
      have hdel : r ∈ p.dels := (hplanned.dels r).mpr ⟨hboot r hr, hleave r hr⟩
      obtain ⟨d, hd, hmem⟩ := hvalidated.deadline r hdel idx ((hs.mem r idx).mpr hr) hkept hone
      obtain ⟨name, hname, hlookup⟩ := mem_indices.mp hmem
      rw [hs.toPlaced.toNamed.injective hlookup hidx] at hname
      rw [hdiffs] at hd
      exact ⟨d.id, d, h.upcoming (List.mem_append_right _ hd), hname⟩
    · exact ⟨id', d, hd, hmem⟩
  · obtain ⟨hadd, rfl⟩ := mem_additions_of_upcoming hc hold
    rw [← hadds] at hadd
    have hlast : willAdd p.adds c.id = some c := by
      refine willAdd_of_nodup ?_ hadd
      rw [hadds]
      have hnodup := h.nodup
      rw [List.map_append] at hnodup
      exact hnodup.of_append_left
    obtain ⟨d, hd, hinput⟩ := hvalidated.consumed c hlast hsink hterminal
    rw [hadds, hdiffs] at hd
    exact ⟨d.id, d, h.upcoming hd, hinput⟩

/-- What a firm list asks for is sound when the pipeline so far is and the validations pass. -/
theorem Firm.sound (h : Firm e s cs) (hs : Woven s) (hsound : Sound s.installed) (hplan : s.plan e cs = .ok p)
    (hvalid : s.validate e p = .ok ()) : Sound (s.upcoming e cs) := by
  have hplanned := planned hplan
  have hdiffs := plan_diffs hplan
  have hvalidated := validated hvalid
  have hadds : p.adds = s.additions cs := hplanned.adds
  have hlisted : ∀ id c, c ∈ s.upcoming e cs id → id ∈ cs.map Component.id := by
    intro id c hc
    by_contra hnot
    rw [upcoming_of_notMem hnot] at hc
    nomatch hc
  refine ⟨fun id c hc hsource => ?_, fun id c hc input hinput d hd hsink => ?_, fun id c hc hsink hterminal => ?_⟩
  · rcases upcoming_cases hc with ⟨hadd, -⟩ | ⟨hchange, -⟩ | hold
    · rw [← hadds] at hadd
      exact (hvalidated.fed c hadd).resolve_left hsource
    · exact (h.changes c hchange).1.resolve_left hsource
    · exact hsound.fed id c hold hsource
  · rcases h.sinks id (hlisted id c hc) c hc input hinput d hd hsink with ⟨hnew, hnew'⟩ | ⟨hfresh, hfresh'⟩
    · obtain ⟨hadd, rfl⟩ := mem_additions_of_upcoming hc hnew
      obtain ⟨hadd', rfl⟩ := mem_additions_of_upcoming hd hnew'
      have hnodup := h.nodup
      rw [List.map_append] at hnodup
      have hlast := willAdd_of_nodup hnodup.of_append_left hadd'
      rw [← hadds] at hadd hlast
      exact hvalidated.unsunk c hadd _ hinput d hlast hsink
    · rw [upcoming_of_not_fresh (hlisted id c hc) hfresh] at hc
      rw [upcoming_of_not_fresh (hlisted input d hd) hfresh'] at hd
      exact hsound.unsunk id c hc input hinput d hd hsink
  · exact h.consumed hs hplanned hdiffs hvalidated hc hsink hterminal

/-- A firm reload that succeeds keeps a pipeline connected. -/
theorem Woven.reload_connected (h : Woven s) (hconn : Connected s) (hfirm : Firm e s cs) (hok : (s.reload e cs).2 = .ok ()) :
    Woven (s.reload e cs).1 ∧ Connected (s.reload e cs).1 := by
  have hnodup := hfirm.nodup
  rw [List.map_append] at hnodup
  obtain ⟨hwoven, hinstalled⟩ := h.reload hnodup.of_append_left (fun c hc => (hfirm.changes c hc).2) hok
  refine ⟨hwoven, hwoven.connected_iff.mpr ?_⟩
  obtain ⟨p, -, -, -, hplan, hvalid, -⟩ := reload_ok hok
  rw [funext hinstalled]
  exact hfirm.sound h (h.connected_iff.mp hconn) hplan hvalid

/-! ## Every run -/

/-- The call is no reload, or a firm one. -/
def FirmAct (e : Engine Body) (s : Runtime Body) : RuntimeAct Body → Prop
  | .reload components => Firm e s components
  | _ => True

instance (e : Engine Body) (s : Runtime Body) : ∀ a, Decidable (FirmAct e s a)
  | .reload components => inferInstanceAs (Decidable (Firm e s components))
  | .start | .broadcast _ | .waitForShutdown => isTrue trivial

theorem woven_new : Woven (new : Runtime Body) := by
  have hnew : Topology (new : Runtime Body) [] := topology_new
  exact hnew.toWired.woven

theorem connected_new : Connected (new : Runtime Body) := by
  refine woven_new.connected_iff.mpr ⟨?_, ?_, ?_⟩
  · simp [installed, new]
  · simp [installed, new]
  · simp [installed, new]

theorem Connected.congr (h : Connected s) (hs : Woven s) (hs' : Woven s') (hsame : SameNodes s s') : Connected s' := by
  rw [hs'.connected_iff, funext hsame.installed]
  exact hs.connected_iff.mp h

end Runtime

/-- After reloads that succeed and are firm, with any other calls between them, the pipeline is connected. -/
theorem connected_kept {Body : Type} (e : Engine Body) (as : List (RuntimeAct Body))
    (h : (Runtime.machine e).Along (fun s a => Runtime.Succeeds e s a ∧ Runtime.FirmAct e s a) as) :
    Runtime.Connected ((Runtime.machine e).state as) := by
  refine (Machine.invariant_of_along (I := fun s => Runtime.Woven s ∧ Runtime.Connected s) ⟨Runtime.woven_new,
    Runtime.connected_new⟩ (fun s a hs ha => ?_) as h).2
  obtain ⟨hwoven, hconn⟩ := hs
  have hframe := Runtime.step_frame e s (a := a)
  cases a with
  | reload components => exact hwoven.reload_connected hconn ha.2 ha.1
  | start | broadcast | waitForShutdown =>
    obtain ⟨hsame, hsources, hsinks⟩ := hframe (by simp)
    have hnext := hwoven.congr hsame hsources hsinks
    exact ⟨hnext, hconn.congr hwoven hnext hsame⟩

namespace Runtime

theorem connected_kept_change : Connected ((machine idle).state
      [.reload [input "x", source "z", sink "y" ["x", "z"], sink "w" ["z"]], .start, .reload [input "x", source "z", sink "y" ["x"], sink "w" ["z"]]]) :=
  connected_kept idle
    [.reload [input "x", source "z", sink "y" ["x", "z"], sink "w" ["z"]], .start, .reload [input "x", source "z", sink "y" ["x"], sink "w" ["z"]]]
    (Machine.along_iff_alongFrom.mpr (by decide +kernel))

/-- A run of reloads that succeed leaves a pipeline that is not connected. -/
def Disconnects (as : List (RuntimeAct Unit)) : Prop :=
  (machine idle).Along (Succeeds idle) as ∧ ¬Connected ((machine idle).state as)

/-- A change declares no input, an addition receives from a sink that is there, a change receives from a node that leaves, the two
consumers of a source leave, and a name is added twice. -/
theorem reloads_disconnect :
    Disconnects [.reload [source "x", sink "y" ["x"]], .reload [source "x", sink "y" []]] ∧
    Disconnects [.reload [source "x", sink "y" ["x"]], .reload [source "x", sink "y" ["x"], sink "z" ["y"]]] ∧
    Disconnects [.reload [source "x", source "z", sink "y" ["x"], sink "w" ["z"]], .reload [source "x", sink "y" ["x", "z"]]] ∧
    Disconnects [.reload [source "x", sink "y" ["x"], sink "z" ["x"]], .reload [source "x"]] ∧
    Disconnects [.reload [source "x", source "x", sink "y" ["x"]]] := by
  refine ⟨⟨Machine.along_iff_alongFrom.mpr (by decide +kernel), fun h => ?_⟩,
    ⟨Machine.along_iff_alongFrom.mpr (by decide +kernel), fun h => ?_⟩,
    ⟨Machine.along_iff_alongFrom.mpr (by decide +kernel), fun h => ?_⟩,
    ⟨Machine.along_iff_alongFrom.mpr (by decide +kernel), fun h => ?_⟩,
    ⟨Machine.along_iff_alongFrom.mpr (by decide +kernel), fun h => ?_⟩⟩
  · exact h.fed 1 ⟨sink "y" [], false⟩ (by decide +kernel) (by decide) (by decide +kernel)
  · exact h.unsunk 2 (by decide +kernel) 1 (by decide +kernel) ⟨sink "y" ["x"], false⟩ (by decide +kernel) (by decide)
  · exact absurd (h.present 2 (by decide +kernel) 1 (by decide +kernel)) (by decide +kernel)
  · exact absurd (h.consumed 0 ⟨source "x", false⟩ (by decide +kernel) (by decide) (by decide)) (by decide +kernel)
  · exact absurd (h.consumed 1 ⟨source "x", false⟩ (by decide +kernel) (by decide) (by decide)) (by decide +kernel)

end Runtime

end Opsense
