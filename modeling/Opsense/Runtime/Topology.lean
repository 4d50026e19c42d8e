import Opsense.Runtime.Phases

/-!
# The topology of a runtime

After a reload the tables should describe the graph of the list that was loaded (`Topology`). A reload can leave them otherwise in
four ways: two additions have one name, a change makes a node an input or an output or takes that from it, a change declares an
input twice, and a change receives from a node that is not in the list. Without these (`Plain`) it keeps the topology. The proof
follows the phases of `apply`: additions (`Added`), changes (`Replaced`), links (`Relinked`), removals.
-/

namespace Opsense

namespace Runtime

variable {Body : Type} {e : Engine Body} {s s' : Runtime Body} {components cs : List (Component Body)} {p : Plan Body}

/-- The tables of nodes and links describe a graph: names and bootstraps are in bijection, the sets hold the inputs and the
outputs, the two tables of links are converse to each other and have nodes only, a node has the sources that its component
declares, and there is no cycle. -/
structure Wired (s : Runtime Body) : Prop extends Booted s, Linked s where
  found : ∀ idx b, s.bootstraps.lookup idx = some b → ∀ input ∈ b.component.inputs, input ∈ s.nodes
  declared : ∀ idx b, s.bootstraps.lookup idx = some b → ∀ j, j ∈ s.sources.row idx ↔ j ∈ s.indices b.component.inputs
  acyclic : DepthFirst.Acyclic s.sources.row

/-- The nodes of a graph have the given names. -/
structure Topology (s : Runtime Body) (ids : List String) : Prop extends Wired s where
  names : ∀ name, name ∈ s.nodes ↔ name ∈ ids

/-- The component that a node has. -/
def installed (s : Runtime Body) (id : String) : Option (Component Body) :=
  (s.nodes.lookup id).bind fun idx => (s.bootstraps.lookup idx).map Bootstrap.component

/-- No two additions have one name, and a change is of the kind that its node was, declares no input twice and receives from nodes
of the list only. -/
structure Plain (e : Engine Body) (s : Runtime Body) (components : List (Component Body)) : Prop where
  adds : ((components.filter fun c => c.id ∉ s.nodes).map Component.id).Nodup
  changes : ∀ c ∈ components, ∀ old ∈ s.installed c.id, compare e old c = false →
    SameKind old c ∧ c.inputs.Nodup ∧ ∀ input ∈ c.inputs, input ∈ components.map Component.id

theorem plain_iff : Plain e s components ↔ ((components.filter fun c => c.id ∉ s.nodes).map Component.id).Nodup ∧
    ∀ c ∈ components, ∀ old ∈ s.installed c.id, compare e old c = false →
      SameKind old c ∧ c.inputs.Nodup ∧ ∀ input ∈ c.inputs, input ∈ components.map Component.id :=
  ⟨fun h => ⟨h.adds, h.changes⟩, fun h => ⟨h.1, h.2⟩⟩

instance (e : Engine Body) (s : Runtime Body) (components : List (Component Body)) : Decidable (Plain e s components) :=
  decidable_of_iff' _ plain_iff

/-- What a plain list has of a component that changes. -/
theorem Plain.change (h : Plain e s components) {c : Component Body} (hc : c ∈ components) {idx : Nat} {b : Bootstrap Body}
    (hidx : s.nodes.lookup c.id = some idx) (hb : s.bootstraps.lookup idx = some b) (hne : compare e b.component c = false) :
    SameKind b.component c ∧ c.inputs.Nodup ∧ ∀ input ∈ c.inputs, input ∈ components.map Component.id := by
  have hinstalled : s.installed c.id = some b.component := by
    unfold installed
    rw [hidx, Option.bind_some, hb]
    rfl
  exact h.changes c hc b.component hinstalled hne

/-! ## The additions -/

/-- The components have nodes of their own, the sets hold the inputs and the outputs, and everything else is as it was. -/
structure Added (s : Runtime Body) (cs : List (Component Body)) (s' : Runtime Body) : Prop extends Joined s cs s' where
  booted : Booted s'

/-- The sets hold the inputs and the outputs after the additions. -/
theorem Booted.afterAdditions (h : Booted s) (hnodup : (cs.map Component.id).Nodup) (hnew : ∀ c ∈ cs, c.id ∉ s.nodes)
    (hadd : addNewNodes e cs s = (s', .ok ())) : Booted s' := by
  induction cs generalizing s with
  | nil =>
    obtain rfl : s = s' := congrArg Prod.fst hadd
    exact h
  | cons c cs ih =>
    unfold Runtime.addNewNodes at hadd
    dsimp only at hadd
    cases hprepare : e.prepare s.inc c with
    | error error => simp [hprepare] at hadd
    | ok _ =>
      rw [hprepare] at hadd
      rw [List.map_cons, List.nodup_cons] at hnodup
      have hc : c.id ∉ s.nodes := hnew c List.mem_cons_self
      have hbooted : Booted { s.register c with tasks := insert s.inc (s.register c).tasks } :=
        (h.register hc).congr ⟨rfl, rfl, rfl, rfl, rfl⟩
      refine ih hbooted hnodup.2 (fun c' hc' => ?_) hadd
      have hnodes : (s.register c).nodes = s.nodes.insert c.id s.inc := if_neg hc
      dsimp only
      rw [hnodes, AList.mem_insert, not_or]
      exact ⟨fun hid => hnodup.1 (hid ▸ List.mem_map_of_mem hc'), hnew c' (List.mem_cons_of_mem _ hc')⟩

theorem Booted.addNewNodes (h : Booted s) (hnodup : (cs.map Component.id).Nodup) (hnew : ∀ c ∈ cs, c.id ∉ s.nodes)
    (hadd : addNewNodes e cs s = (s', .ok ())) : Added s cs s' :=
  ⟨h.placed.addNewNodes hnodup hnew hadd, h.afterAdditions hnodup hnew hadd⟩

/-! ## The changes -/

theorem SameKind.symm {b c : Component Body} (h : SameKind b c) : SameKind c b := ⟨h.1.symm, h.2.symm⟩

theorem SameKind.trans {b c d : Component Body} (h : SameKind b c) (h' : SameKind c d) : SameKind b d :=
  ⟨h.1.trans h'.1, h.2.trans h'.2⟩

/-- The nodes of the components have the last component of their name, the sets hold the inputs and the outputs, and everything else
is as it was. -/
structure Replaced (s : Runtime Body) (cs : List (Component Body)) (s' : Runtime Body) : Prop extends Swapped s cs s' where
  booted : Booted s'

/-- The sets hold the inputs and the outputs after the changes. -/
theorem Booted.afterChanges (h : Booted s)
    (hkinds : ∀ c ∈ cs, ∀ idx b, s.nodes.lookup c.id = some idx → s.bootstraps.lookup idx = some b → SameKind b.component c)
    (hchange : each Runtime.changeNode cs s = (s', .ok ())) : Booted s' := by
  induction cs generalizing s with
  | nil =>
    obtain rfl : s = s' := congrArg Prod.fst hchange
    exact h
  | cons c cs ih =>
    unfold each at hchange
    cases hidx : s.nodes.lookup c.id with
    | none => simp [Runtime.changeNode, hidx] at hchange
    | some idx =>
      have hbooted := h.changeNode hidx fun b hb => hkinds c List.mem_cons_self idx b hidx hb
      obtain ⟨b, hb, hid, heq⟩ := h.toNamed.changeNode_cases hidx
      rw [heq] at hchange hbooted
      refine ih hbooted (fun d hd i bi hi hbi => ?_) hchange
      -- the kind of a node is still what it was
      dsimp only at hi hbi
      rw [lookup_insert] at hbi
      split_ifs at hbi with heq'
      · subst heq'
        obtain rfl := Option.some.inj hbi
        have hc := hkinds c List.mem_cons_self i b hidx hb
        exact hc.symm.trans (hkinds d (List.mem_cons_of_mem _ hd) i b hi hb)
      · exact hkinds d (List.mem_cons_of_mem _ hd) i bi hi hbi

theorem Booted.changeNodes (h : Booted s)
    (hkinds : ∀ c ∈ cs, ∀ idx b, s.nodes.lookup c.id = some idx → s.bootstraps.lookup idx = some b → SameKind b.component c)
    (hchange : each Runtime.changeNode cs s = (s', .ok ())) : Replaced s cs s' :=
  ⟨h.placed.changeNodes hchange, h.afterChanges hkinds hchange⟩

/-! ## The links -/

/-- Links are links of tables that have the nodes as well. -/
theorem Linked.of_nodes (h : Linked s) (hs : Booted s) (hs' : Named s')
    (hnodes : ∀ name idx, s.nodes.lookup name = some idx → s'.nodes.lookup name = some idx)
    (hsources : s'.sources = s.sources) (hsinks : s'.sinks = s.sinks) : Linked s' := by
  have htied := h.tied.of_nodes hs.placed hs' hnodes hsources hsinks
  exact ⟨hs', by rw [hsources, hsinks]; exact h.links, htied.sources, htied.sinks⟩

theorem Wired.woven (h : Wired s) : Woven s :=
  ⟨h.toBooted.placed, h.links.mem, h.links.sinks_nodup, h.sources, h.sinks, h.found, h.declared⟩

/-- The additions of a plan get their links. -/
theorem Added.relinked (h : Added s cs s') (hs : Wired s) (hnodup : (cs.map Component.id).Nodup)
    (hnew : ∀ c ∈ cs, c.id ∉ s.nodes) : Relinked s' cs (cs.foldl Runtime.linkAdd s') := by
  have hlinked : Linked s' := hs.toLinked.of_nodes hs.toBooted h.booted.toNamed h.nodes h.sources h.sinks
  exact hlinked.foldl_linkAdd hnodup (h.toJoined.unlinked hs.toBooted.placed hs.sources hnew)

/-- What a reload has made of the tables before it removes anything, with the sets of the inputs and the outputs and the two tables of
links converse to each other. -/
structure Changed (s : Runtime Body) (p : Plan Body) (s' : Runtime Body) : Prop extends Reshaped s p s', Booted s', Linked s'

theorem Wired.changed {s₁ s₂ s₃ s₄ : Runtime Body} (h : Wired s) (hnodup : (p.adds.map Component.id).Nodup)
    (hnew : ∀ c ∈ p.adds, c.id ∉ s.nodes) (hadded : Added s p.adds s₁) (hlinked : Relinked s₁ p.adds s₂)
    (hreplaced : Replaced s₂ p.diffs s₃) (hrelinked : Relinked s₃ p.diffs s₄) : Changed s p s₄ :=
  have hbooted := hreplaced.booted.congr hrelinked.same
  ⟨h.woven.reshaped hnodup hnew hadded.toJoined hlinked.retied hreplaced.toSwapped hrelinked.retied, hbooted.inputs, hbooted.outputs,
    hrelinked.linked.links⟩

/-! ## The removals -/

/-- Some nodes have left the tables and the sets of nodes, and everything else is as it was. -/
structure Removed (s : Runtime Body) (dels : List Nat) (s' : Runtime Body) : Prop extends Dropped s dels s' where
  booted : Booted s'

variable {dels : List Nat}

/-- The sets hold the inputs and the outputs after the removals. -/
theorem Booted.afterRemovals (h : Booted s) (hremove : each Runtime.removeNode dels s = (s', .ok ())) :
    Booted s' := by
  induction dels generalizing s with
  | nil =>
    obtain rfl : s = s' := congrArg Prod.fst hremove
    exact h
  | cons id dels ih =>
    unfold each at hremove
    cases hb : s.bootstraps.lookup id with
    | none => simp [Runtime.removeNode, hb] at hremove
    | some b =>
      have hbooted := h.removeNode id
      rw [h.toNamed.removeNode_cases hb] at hremove hbooted
      exact ih hbooted hremove

theorem Booted.removeNodes (h : Booted s) (hremove : each Runtime.removeNode dels s = (s', .ok ())) :
    Removed s dels s' := ⟨h.placed.removeNodes hremove, h.afterRemovals hremove⟩

/-- The changes of a plain list receive from nodes of the list. -/
theorem Plain.left (h : Plain e s components) (hplanned : Planned e s components p) :
    ∀ c ∈ p.diffs, ∀ input ∈ c.inputs, input ∈ components.map Component.id := by
  intro c hc input hinput
  obtain ⟨hmem, i, old, hi, hold, hne⟩ := (hplanned.diffs c).mp hc
  exact (h.change hmem hi hold hne).2.2 input hinput

/-! ## The graph that was checked -/

theorem Named.nameOf (h : Named s) {name : String} {idx : Nat} (hname : s.nodes.lookup name = some idx) :
    s.nameOf idx = some name := by
  have hentry : (⟨name, idx⟩ : Sigma fun _ : String => Nat) ∈ s.nodes.entries := AList.mem_lookup_iff.mp hname
  unfold Runtime.nameOf
  cases hfind : s.nodes.entries.find? fun n => n.2 = idx with
  | none =>
    have := List.find?_eq_none.mp hfind _ hentry
    simp at this
  | some n =>
    have hmem := List.mem_of_find?_eq_some hfind
    have hidx : n.2 = idx := by simpa using List.find?_some hfind
    have hlookup : s.nodes.lookup n.1 = some idx := AList.mem_lookup_iff.mpr (hidx ▸ hmem)
    exact congrArg some (h.injective hlookup hname)

/-- A table that is filled from a list with different keys has the list of each. -/
theorem row_foldl_insert {β : Type} (key : β → String) (out : β → List String) {l : List β} (hl : (l.map key).Nodup)
    (t : Adjacency String) {n : β} (hn : n ∈ l) : (l.foldl (fun t n => t.insert (key n) (out n)) t).row (key n) = out n := by
  induction l using List.reverseRecOn with
  | nil => exact absurd hn List.not_mem_nil
  | append_singleton l m ih =>
    rw [List.foldl_append, List.foldl_cons, List.foldl_nil, Adjacency.row_insert]
    rw [List.map_append, List.nodup_append] at hl
    rcases List.mem_append.mp hn with hn | hn
    · rw [if_neg (hl.2.2 _ (List.mem_map_of_mem hn) (key m) (by simp)), ih hl.1 hn]
    · rw [List.mem_singleton.mp hn, if_pos rfl]

/-- A table that is filled from components has the inputs of the last one of a name. -/
theorem row_foldl_components (cs : List (Component Body)) (t : Adjacency String) (name : String) :
    (cs.foldl (fun edges c => edges.insert c.id c.inputs) t).row name =
      match willAdd cs name with
      | some c => c.inputs
      | none => t.row name := by
  induction cs using List.reverseRecOn with
  | nil => rfl
  | append_singleton cs c ih =>
    rw [List.foldl_append, List.foldl_cons, List.foldl_nil, Adjacency.row_insert, willAdd_append, willAdd_singleton]
    by_cases hid : c.id = name
    · rw [if_pos hid, if_pos hid.symm]
      rfl
    · rw [if_neg hid, if_neg (Ne.symm hid), ih]
      rfl

/-- The edges of a node that is neither added nor changed are those it has. -/
theorem row_edges {adds diffs : List (Component Body)} {name : String} {idx : Nat} (hnone : willAdd (adds ++ diffs) name = none)
    (hname : s.nodes.lookup name = some idx) (hdel : idx ∉ dels) :
    (s.edges adds diffs dels).row name = (s.sources.row idx).filterMap s.nameOf := by
  have hentry : (⟨name, idx⟩ : Sigma fun _ : String => Nat) ∈ s.nodes.entries.filter fun n => n.2 ∉ dels :=
    List.mem_filter.mpr ⟨AList.mem_lookup_iff.mp hname, by simpa using hdel⟩
  have hkeys : ((s.nodes.entries.filter fun n => n.2 ∉ dels).map Sigma.fst).Nodup :=
    (List.filter_sublist.map Sigma.fst).nodup (AList.keys_nodup s.nodes)
  unfold edges
  dsimp only
  rw [row_foldl_components, hnone]
  exact row_foldl_insert Sigma.fst (fun n => (s.sources.row n.2).filterMap s.nameOf) hkeys ∅ hentry

/-- The edges of a node that is added or changed are the inputs of its component. -/
theorem row_edges_of_willAdd {adds diffs : List (Component Body)} {name : String} {c : Component Body}
    (hsome : willAdd (adds ++ diffs) name = some c) : (s.edges adds diffs dels).row name = c.inputs := by
  unfold edges
  dsimp only
  rw [row_foldl_components, hsome]

/-- The name of a node that is there. -/
def label (s : Runtime Body) (idx : Nat) : String :=
  match s.bootstraps.lookup idx with
  | some b => b.component.id
  | none => ""

theorem Named.label (h : Named s) {name : String} {idx : Nat} (hname : s.nodes.lookup name = some idx) : s.label idx = name := by
  obtain ⟨b, hb, hid⟩ := h.named name idx hname
  unfold Runtime.label
  rw [hb]
  exact hid

/-- A source that a node has when the others have left is an edge of the graph that was checked. -/
theorem Changed.edge (h : Changed s p s') (hs : Wired s) (hplanned : Planned e s components p) (hchecked : Checked s p)
    (hplain : Plain e s components) {s₅ : Runtime Body} (hremoved : Removed s' p.dels s₅) {i j : Nat} (hi : i ∉ p.dels)
    (hj : j ∈ s'.sources.row i) :
    j ∉ p.dels ∧ DepthFirst.Edge (s.edges p.adds p.diffs p.dels).row (s₅.label i) (s₅.label j) := by
  obtain ⟨hdel, b, hb₅, input, hinput, hj'⟩ :=
    h.toReshaped.source hs.woven hplanned hchecked (hplain.left hplanned) hremoved.toDropped hi hj
  have hb := ((hremoved.bootstraps i b).mp hb₅).1
  have hlookup := ((hremoved.nodes input j).mp hj').1
  refine ⟨hdel, ?_⟩
  unfold DepthFirst.Edge
  rw [hremoved.booted.toNamed.label hj', hremoved.booted.toNamed.label (hremoved.booted.booted i b hb₅)]
  rcases h.components i b hb with hsome | ⟨hnone, hold⟩
  · rw [row_edges_of_willAdd hsome]
    exact hinput
  · rw [row_edges hnone (hs.booted i b hold) hi, List.mem_filterMap]
    obtain ⟨j₀, hj₀⟩ := mem_iff_lookup.mp (hs.found i b hold input hinput)
    obtain rfl := Option.some.inj (hlookup.symm.trans (h.old input j₀ hj₀))
    exact ⟨j, (hs.declared i b hold j).mpr (mem_indices.mpr ⟨input, hinput, hj₀⟩), hs.toNamed.nameOf hj₀⟩

/-! ## A whole reload -/

/-- The tables describe the graph of the list when the nodes that are not in it have left. -/
theorem Changed.topology (h : Changed s p s') (hs : Wired s) (hplanned : Planned e s components p) (hchecked : Checked s p)
    (hplain : Plain e s components) {s₅ : Runtime Body} (hremoved : Removed s' p.dels s₅) :
    Topology (s₅.unlinkRemoved p.dels) (components.map Component.id) := by
  have hsame : SameNodes s₅ (s₅.unlinkRemoved p.dels) := unlinkRemoved_frame s₅ p.dels
  have hbooted : Booted (s₅.unlinkRemoved p.dels) := hremoved.booted.congr hsame
  have hwoven := h.toReshaped.woven hs.woven hplanned hchecked (hplain.left hplanned) hremoved.toDropped
  have hrow := hremoved.toDropped.row
  have hnodup : ∀ i, ((s₅.unlinkRemoved p.dels).sources.row i).Nodup := by
    intro i
    rw [hrow]
    split_ifs
    · exact List.nodup_nil
    · exact h.links.sources_nodup i
  refine ⟨⟨hbooted, ⟨hwoven.mem, hnodup, hwoven.sinks_nodup⟩, hwoven.sources, hwoven.sinks, hwoven.found, hwoven.declared,
    fun i hcycle => ?_⟩, fun name => ?_⟩
  · refine hchecked.acyclic (s₅.label i) (hcycle.lift s₅.label fun a b hab => ?_)
    unfold DepthFirst.Edge at hab
    rw [hrow] at hab
    split_ifs at hab with hdel
    · exact absurd hab List.not_mem_nil
    · exact (h.edge hs hplanned hchecked hplain hremoved hdel hab).2
  · rw [hsame.nodes]
    exact h.toReshaped.names hs.woven hplanned hremoved.toDropped name

theorem Wired.congr (h : Wired s) (hsame : SameNodes s s') (hsources : s'.sources = s.sources) (hsinks : s'.sinks = s.sinks) :
    Wired s' := by
  refine ⟨h.toBooted.congr hsame, ?_, ?_, ?_, ?_, ?_, ?_⟩
  · rw [hsources, hsinks]; exact h.links
  · rw [hsources, hsame.bootstraps]; exact h.sources
  · rw [hsinks, hsame.bootstraps]; exact h.sinks
  · rw [hsame.bootstraps, hsame.nodes]; exact h.found
  · intro idx b hb j
    rw [hsame.bootstraps] at hb
    rw [hsources, hsame.indices]
    exact h.declared idx b hb j
  · rw [hsources]; exact h.acyclic

theorem Topology.congr {ids : List String} (h : Topology s ids) (hsame : SameNodes s s') (hsources : s'.sources = s.sources)
    (hsinks : s'.sinks = s.sinks) : Topology s' ids :=
  ⟨h.toWired.congr hsame hsources hsinks, by rw [hsame.nodes]; exact h.names⟩

/-- A reload that succeeds goes through all its phases. -/
theorem reload_ok (h : (s.reload e components).2 = .ok ()) : ∃ p s₁ s₃ s₅, s.plan e components = .ok p ∧ s.validate e p = .ok () ∧
    addNewNodes e p.adds s = (s₁, .ok ()) ∧ each changeNode p.diffs (p.adds.foldl linkAdd s₁) = (s₃, .ok ()) ∧
    each removeNode p.dels (p.diffs.foldl linkChange s₃) = (s₅, .ok ()) ∧
    SameNodes (s₅.unlinkRemoved p.dels) (s.reload e components).1 ∧
    (s.reload e components).1.sources = (s₅.unlinkRemoved p.dels).sources ∧
    (s.reload e components).1.sinks = (s₅.unlinkRemoved p.dels).sinks := by
  unfold reload at h ⊢
  cases hplan : s.plan e components with
  | error error => simp [hplan] at h
  | ok p =>
    simp only [hplan] at h ⊢
    cases hvalid : s.validate e p with
    | error error => simp [hvalid] at h
    | ok _ =>
      simp only [hvalid] at h ⊢
      unfold apply at h ⊢
      rcases hadded : addNewNodes e p.adds s with ⟨s₁, _ | _⟩
      · simp [hadded] at h
      · simp only [hadded] at h ⊢
        rcases hchanged : each changeNode p.diffs (p.adds.foldl linkAdd s₁) with ⟨s₃, _ | _⟩
        · simp [hchanged] at h
        · simp only [hchanged] at h ⊢
          rcases hremoved : each removeNode p.dels (p.diffs.foldl linkChange s₃) with ⟨s₅, _ | _⟩
          · simp [hremoved] at h
          · refine ⟨p, s₁, s₃, s₅, rfl, hvalid, hadded, hchanged, hremoved, ?_⟩
            dsimp only
            exact ⟨⟨rfl, rfl, rfl, rfl, rfl⟩, rfl, rfl⟩

/-- A plain reload that succeeds leaves the graph of its list. -/
theorem Wired.reload (h : Wired s) (hplain : Plain e s components) (hok : (s.reload e components).2 = .ok ()) :
    Topology (s.reload e components).1 (components.map Component.id) := by
  obtain ⟨p, s₁, s₃, s₅, hplan, hvalid, hadd, hchange, hremove, hsame, hsources, hsinks⟩ := reload_ok hok
  have hplanned := planned hplan
  have hchecked := checked hvalid
  have hnodup : (p.adds.map Component.id).Nodup := hplanned.adds ▸ hplain.adds
  have hnew : ∀ c ∈ p.adds, c.id ∉ s.nodes := by
    intro c hc
    rw [hplanned.adds] at hc
    exact of_decide_eq_true (List.mem_filter.mp hc).2
  have hadded := h.toBooted.addNewNodes hnodup hnew hadd
  have hlinked := hadded.relinked h hnodup hnew
  -- a change finds the node that was there before the additions
  have hdiffs : ∀ c ∈ p.diffs, ∃ idx b, s.nodes.lookup c.id = some idx ∧ s.bootstraps.lookup idx = some b ∧
      SameKind b.component c ∧ c.inputs.Nodup := by
    intro c hc
    obtain ⟨hmem, idx, b, hidx, hb, hne⟩ := (hplanned.diffs c).mp hc
    obtain ⟨hkind, hinputs, -⟩ := hplain.change hmem hidx hb hne
    exact ⟨idx, b, hidx, hb, hkind, hinputs⟩
  have hbooted₂ : Booted (p.adds.foldl linkAdd s₁) := hadded.booted.congr hlinked.same
  have hreplaced := hbooted₂.changeNodes (fun c hc i b hi hb => ?_) hchange
  · have hlinked₃ : Linked s₃ := hlinked.linked.of_nodes hbooted₂ hreplaced.booted.toNamed
      (fun name idx hname => by rw [hreplaced.nodes]; exact hname) hreplaced.sources hreplaced.sinks
    have hrelinked := hlinked₃.foldl_linkChange fun c hc => by
      obtain ⟨idx, b, hidx, -, -, hinputs⟩ := hdiffs c hc
      refine ⟨?_, hinputs⟩
      rw [hreplaced.nodes, hlinked.same.nodes]
      exact mem_iff_lookup.mpr ⟨idx, hadded.nodes _ idx hidx⟩
    have hchanged := h.changed hnodup hnew hadded hlinked hreplaced hrelinked
    have hremoved := hchanged.toBooted.removeNodes hremove
    exact (hchanged.topology h hplanned hchecked hplain hremoved).congr hsame hsources hsinks
  · obtain ⟨idx, b₀, hidx, hb₀, hkind, -⟩ := hdiffs c hc
    rw [hlinked.same.nodes, hadded.nodes _ idx hidx] at hi
    obtain rfl := Option.some.inj hi
    rw [hlinked.same.bootstraps] at hb
    rcases hadded.bootstraps idx b hb with hold | ⟨-, hfresh⟩
    · obtain rfl := Option.some.inj (hb₀.symm.trans hold)
      exact hkind
    · exact absurd (mem_iff_lookup.mpr ⟨b₀, hb₀⟩) hfresh

/-! ## Every run -/

/-- The ids of the list that is loaded after a call. -/
def loads (ids : List String) : RuntimeAct Body → List String
  | .reload components => components.map Component.id
  | _ => ids

/-- The ids of the list that was loaded last. -/
def loaded (as : List (RuntimeAct Body)) : List String := as.foldl loads []

/-- The call is no reload, or one that succeeds. -/
def Succeeds (e : Engine Body) (s : Runtime Body) : RuntimeAct Body → Prop
  | .reload components => (s.reload e components).2 = .ok ()
  | _ => True

/-- The call is no reload, or a plain one. -/
def PlainAct (e : Engine Body) (s : Runtime Body) : RuntimeAct Body → Prop
  | .reload components => Plain e s components
  | _ => True

instance (e : Engine Body) (s : Runtime Body) : ∀ a, Decidable (Succeeds e s a)
  | .reload components => inferInstanceAs (Decidable ((s.reload e components).2 = .ok ()))
  | .start | .broadcast _ | .waitForShutdown => isTrue trivial

instance (e : Engine Body) (s : Runtime Body) : ∀ a, Decidable (PlainAct e s a)
  | .reload components => inferInstanceAs (Decidable (Plain e s components))
  | .start | .broadcast _ | .waitForShutdown => isTrue trivial

theorem topology_new : Topology (new : Runtime Body) [] := by
  have hempty : ∀ i, Adjacency.row (∅ : Adjacency Nat) i = [] := fun i => by rfl
  have hacyclic : DepthFirst.Acyclic (Adjacency.row (∅ : Adjacency Nat)) := by
    intro i hcycle
    obtain ⟨j, hij, -⟩ := Relation.TransGen.head'_iff.mp hcycle
    unfold DepthFirst.Edge at hij
    rw [hempty] at hij
    exact absurd hij List.not_mem_nil
  have hbooted : Booted (new : Runtime Body) := by
    refine ⟨named_new, fun idx b hb => ?_, fun idx => ?_, fun idx => ?_⟩
    · simp [new] at hb
    · simp [new]
    · simp [new]
  have hlinks : Adjacency.Converse (∅ : Adjacency Nat) ∅ := by
    refine ⟨fun i j => ?_, fun i => ?_, fun i => ?_⟩
    · rw [hempty, hempty]
      simp
    · rw [hempty]
      exact List.nodup_nil
    · rw [hempty]
      exact List.nodup_nil
  refine ⟨⟨hbooted, hlinks, fun i hi => ?_, fun i hi => ?_, fun idx b hb => ?_, fun idx b hb => ?_, hacyclic⟩, fun name => ?_⟩
  · exact absurd hi (AList.notMem_empty i)
  · exact absurd hi (AList.notMem_empty i)
  · simp [new] at hb
  · simp [new] at hb
  · simp [new]

end Runtime

/-- After reloads that succeed and are plain, with any other calls between them, the tables describe the graph of the list that
was loaded last. -/
theorem topology_kept {Body : Type} (e : Engine Body) (as : List (RuntimeAct Body))
    (h : (Runtime.machine e).Along (fun s a => Runtime.Succeeds e s a ∧ Runtime.PlainAct e s a) as) :
    Runtime.Topology ((Runtime.machine e).state as) (Runtime.loaded as) := by
  induction as using List.reverseRecOn with
  | nil => exact Runtime.topology_new
  | append_singleton as a ih =>
    have hbefore := ih h.init
    obtain ⟨hok, hplain⟩ := h.last
    have hloaded : Runtime.loaded (as ++ [a]) = Runtime.loads (Runtime.loaded as) a := by
      rw [Runtime.loaded, List.foldl_append]
      rfl
    have hframe := Runtime.step_frame e ((Runtime.machine e).state as) (a := a)
    rw [Machine.state_snoc, hloaded]
    cases a with
    | reload components => exact hbefore.toWired.reload hplain hok
    | start | broadcast | waitForShutdown =>
      obtain ⟨hsame, hsources, hsinks⟩ := hframe (by simp)
      exact hbefore.congr hsame hsources hsinks

namespace Runtime

/-- An engine of components without a body. -/
def idle : Engine Unit := ⟨fun _ _ => true, fun _ _ => .ok (), fun l => l, fun l => List.Perm.refl l⟩

def input (id : String) : Component Unit := ⟨id, .input, none, false, ()⟩

def source (id : String) : Component Unit := ⟨id, .source, none, false, ()⟩

def sink (id : String) (inputs : List String) : Component Unit := ⟨id, .sink, some inputs, false, ()⟩

/-- A run of reloads that succeed leaves tables that do not describe the graph. -/
def Breaks (as : List (RuntimeAct Unit)) : Prop :=
  (machine idle).Along (Succeeds idle) as ∧ ¬Topology ((machine idle).state as) (loaded as)

theorem topology_kept_change : Topology ((machine idle).state
      [.reload [input "x", source "z", sink "y" ["x", "z"]], .start, .reload [input "x", sink "y" ["x"]]]) ["x", "y"] :=
  topology_kept idle [.reload [input "x", source "z", sink "y" ["x", "z"]], .start, .reload [input "x", sink "y" ["x"]]]
    (Machine.along_iff_alongFrom.mpr (by decide +kernel))

/-- Each of the four ways occurs: a node of another type stays an input, a name has two bootstraps, a change links with a source
twice, and a change receives from a node that leaves. -/
theorem reloads_break_topology :
    Breaks [.reload [input "x", sink "y" ["x"]], .reload [source "x", sink "y" ["x"]]] ∧
    Breaks [.reload [source "x", source "x", sink "y" ["x"]]] ∧
    Breaks [.reload [source "x", sink "y" ["x"]], .reload [source "x", sink "y" ["x", "x"]]] ∧
    Breaks [.reload [source "x", source "z", sink "y" ["x"], sink "w" ["z"]], .reload [source "x", sink "y" ["x", "z"]]] := by
  refine ⟨⟨Machine.along_iff_alongFrom.mpr (by decide +kernel), fun h => ?_⟩,
    ⟨Machine.along_iff_alongFrom.mpr (by decide +kernel), fun h => ?_⟩,
    ⟨Machine.along_iff_alongFrom.mpr (by decide +kernel), fun h => ?_⟩,
    ⟨Machine.along_iff_alongFrom.mpr (by decide +kernel), fun h => ?_⟩⟩
  · have hsource : ((machine idle).state [.reload [input "x", sink "y" ["x"]],
        .reload [source "x", sink "y" ["x"]]]).bootstraps.lookup 0 = some ⟨source "x", false⟩ := by decide +kernel
    obtain ⟨b, hb, htype⟩ := (h.inputs 0).mp (by decide +kernel)
    obtain rfl := Option.some.inj (hsource.symm.trans hb)
    nomatch htype
  · have hname := h.booted 1 ⟨source "x", false⟩ (by decide +kernel)
    exact absurd hname (by decide +kernel)
  · have hrow := h.links.sources_nodup 1
    exact absurd hrow (by decide +kernel)
  · have hfound := h.found 2 ⟨sink "y" ["x", "z"], false⟩ (by decide +kernel) "z" (by decide +kernel)
    exact absurd hfound (by decide +kernel)

end Runtime

end Opsense
