import Opsense.Runtime.Topology

/-!
# The status of a runtime

`NodeErrors`, `report_fault` and `topology`. The list of the nodes is served from a cache for as long as two revisions stay: the
one that a reload moves and the one of the faults. A fault that is reported over another one, or taken back where there is
none, is counted and does not move the second revision (`NodeErrors.Moves`), so that the list which is served is that of
the tables exactly when no such report was about a node whose list is in the cache (`Announced`).
-/

namespace Opsense

namespace Runtime

variable {Body : Type}

inductive Severity where
  | transient
  | corrupt
  | fatal
deriving DecidableEq

structure Fault where
  severity : Severity
  code : String
  message : String
  recovered : Option String
deriving DecidableEq

structure NodeErrors where
  by_node : AList fun _ : String => Fault
  rev : Nat
  counts : AList fun _ : String => Nat

namespace NodeErrors

def count (n : NodeErrors) (node : String) : Nat := (n.counts.lookup node).getD 0

/-- `NodeErrors::set` -/
def set (n : NodeErrors) (node : String) (error : Option Fault) : NodeErrors × Bool :=
  let changed : Bool :=
    match error with
    | some _ => node ∉ n.by_node
    | none => node ∈ n.by_node
  ({ by_node :=
      match error with
      | some e => n.by_node.insert node e
      | none => n.by_node.erase node
     rev := if changed then n.rev + 1 else n.rev
     counts := n.counts.insert node (n.count node + 1) }, changed)

/-- There is a fault now and there was none, or the other way round. -/
def Moves (n : NodeErrors) (node : String) (error : Option Fault) : Prop := error.isSome ↔ node ∉ n.by_node

instance (n : NodeErrors) (node : String) (error : Option Fault) : Decidable (n.Moves node error) :=
  inferInstanceAs (Decidable (_ ↔ _))

variable {n : NodeErrors} {node other : String} {error : Option Fault}

theorem changed_iff : (n.set node error).2 = true ↔ n.Moves node error := by
  cases error with
  | some e => simp [set, Moves]
  | none => simp [set, Moves]

theorem set_rev : (n.set node error).1.rev = if n.Moves node error then n.rev + 1 else n.rev := by
  by_cases h : n.Moves node error
  · rw [if_pos h]
    exact if_pos (changed_iff.mpr h)
  · rw [if_neg h]
    exact if_neg fun hchanged => h (changed_iff.mp hchanged)

/-- A report is counted, whether it changes anything or not. -/
theorem count_set_self : (n.set node error).1.count node = n.count node + 1 := by
  simp [set, count]

theorem count_set_ne (h : other ≠ node) : (n.set node error).1.count other = n.count other := by
  simp [set, count, AList.lookup_insert_ne h]

theorem lookup_set (h : other ≠ node) : (n.set node error).1.by_node.lookup other = n.by_node.lookup other := by
  cases error with
  | some e => exact AList.lookup_insert_ne h
  | none => exact AList.lookup_erase_ne h

end NodeErrors

structure NodeInfo where
  id : String
  component_type : String
  inputs : List String
  outputs : List String
  running : Bool
  last_error : Option Fault
  fault_count : Nat
deriving DecidableEq

/-- What an entry tells of a node apart from its task. -/
def NodeInfo.listed (i : NodeInfo) : NodeInfo := { i with running := false }

/-- A runtime with what was reported of its nodes, and the list of the nodes that was served last, with the two revisions it is of. -/
structure Status (Body : Type) where
  runtime : Runtime Body
  last_errors : NodeErrors
  topology_cache : Option (Nat × Nat × List NodeInfo)

inductive StatusAct (Body : Type) where
  | call (act : RuntimeAct Body)
  | reportFault (id : String) (fault : Option Fault)
  | topology

namespace Status

/-- The entry of a node. -/
def nodeInfo (m : Status Body) (node : Sigma fun _ : String => Nat) : Option NodeInfo :=
  (m.runtime.bootstraps.lookup node.2).map fun b =>
    { id := node.1
      component_type := b.component.component_type.display
      inputs := (m.runtime.sources.row node.2).filterMap m.runtime.nameOf
      outputs := (m.runtime.sinks.row node.2).filterMap m.runtime.nameOf
      running := node.2 ∈ m.runtime.tasks
      last_error := m.last_errors.by_node.lookup node.1
      fault_count := m.last_errors.count node.1 }

def buildTopology (e : Engine Body) (m : Status Body) : List NodeInfo := (e.iter m.runtime.nodes.entries).filterMap m.nodeInfo

def topology (e : Engine Body) (m : Status Body) : List NodeInfo × Status Body :=
  let rebuilt := m.buildTopology e
  let kept := some (m.runtime.generation, m.last_errors.rev, rebuilt)
  match m.topology_cache with
  | some (generation, rev, snapshot) =>
    if generation = m.runtime.generation ∧ rev = m.last_errors.rev then (snapshot, m)
    else (rebuilt, { m with topology_cache := kept })
  | none => (rebuilt, { m with topology_cache := kept })

def new : Status Body := ⟨Runtime.new, ⟨∅, 0, ∅⟩, none⟩

def step (e : Engine Body) (m : Status Body) : StatusAct Body → Status Body × Option (List NodeInfo)
  | .call act => ({ m with runtime := (m.runtime.step e act).1 }, none)
  | .reportFault id fault => ({ m with last_errors := (m.last_errors.set id fault).1 }, none)
  | .topology => ((m.topology e).2, some (m.topology e).1)

def machine (e : Engine Body) : Machine (Status Body) (StatusAct Body) (Option (List NodeInfo)) := ⟨new, step e⟩

/-- The call is not a reload that fails. -/
def Succeeds (e : Engine Body) (m : Status Body) : StatusAct Body → Prop
  | .call act => Runtime.Succeeds e m.runtime act
  | .reportFault _ _ | .topology => True

/-- What `topology` serves is what the tables say. -/
def Coherent (e : Engine Body) (m : Status Body) : Prop :=
  (m.topology e).1.map NodeInfo.listed = (m.buildTopology e).map NodeInfo.listed

/-- The list in the cache would be served. -/
def Cached (m : Status Body) : Prop := m.topology_cache.any fun c => c.1 = m.runtime.generation ∧ c.2.1 = m.last_errors.rev

/-- There is a node of that name. -/
def Lists (m : Status Body) (id : String) : Prop := ((m.runtime.nodes.lookup id).bind m.runtime.bootstraps.lookup).isSome

/-- A report moves the revision of the faults, or it is about none of the nodes, or the cache will not be served anyway. -/
def Announced (m : Status Body) : StatusAct Body → Prop
  | .reportFault id fault => m.last_errors.Moves id fault ∨ ¬m.Lists id ∨ ¬m.Cached
  | .call _ | .topology => True

instance (e : Engine Body) (m : Status Body) : ∀ act, Decidable (Succeeds e m act)
  | .call act => inferInstanceAs (Decidable (Runtime.Succeeds e m.runtime act))
  | .reportFault _ _ | .topology => isTrue trivial

instance (m : Status Body) (id : String) : Decidable (m.Lists id) := inferInstanceAs (Decidable (_ = true))

instance (m : Status Body) : Decidable m.Cached := inferInstanceAs (Decidable (_ = true))

instance (m : Status Body) : ∀ act, Decidable (Announced m act)
  | .reportFault id fault => inferInstanceAs (Decidable (m.last_errors.Moves id fault ∨ ¬m.Lists id ∨ ¬m.Cached))
  | .call _ | .topology => isTrue trivial

instance (e : Engine Body) (m : Status Body) : Decidable (Coherent e m) :=
  inferInstanceAs (Decidable ((m.topology e).1.map NodeInfo.listed = (m.buildTopology e).map NodeInfo.listed))

/-- The revisions of the cache are none that are still to come. -/
def Past (m : Status Body) : Prop :=
  ∀ c ∈ m.topology_cache, c.1 ≤ m.runtime.generation ∧ c.2.1 ≤ m.last_errors.rev

variable {e : Engine Body} {m : Status Body} {act : RuntimeAct Body}

/-! ## What is served -/

theorem topology_of_cached {snapshot : List NodeInfo}
    (h : m.topology_cache = some (m.runtime.generation, m.last_errors.rev, snapshot)) : m.topology e = (snapshot, m) := by
  unfold topology
  rw [h]
  exact if_pos ⟨rfl, rfl⟩

theorem topology_of_not_cached (h : ¬m.Cached) :
    m.topology e = (m.buildTopology e,
      { m with topology_cache := some (m.runtime.generation, m.last_errors.rev, m.buildTopology e) }) := by
  unfold topology
  cases hcache : m.topology_cache with
  | none => rfl
  | some c =>
    obtain ⟨generation, rev, snapshot⟩ := c
    refine if_neg fun hsame => h ?_
    simpa [Cached, hcache] using hsame

theorem cached_iff : m.Cached ↔ ∃ snapshot, m.topology_cache = some (m.runtime.generation, m.last_errors.rev, snapshot) := by
  constructor
  · intro h
    cases hcache : m.topology_cache with
    | none => simp [Cached, hcache] at h
    | some c =>
      obtain ⟨generation, rev, snapshot⟩ := c
      obtain ⟨rfl, rfl⟩ : generation = m.runtime.generation ∧ rev = m.last_errors.rev := by simpa [Cached, hcache] using h
      exact ⟨snapshot, rfl⟩
  · rintro ⟨snapshot, h⟩
    simp [Cached, h]

theorem coherent_of_not_cached (h : ¬m.Cached) : Coherent e m := by
  unfold Coherent
  rw [topology_of_not_cached h]

/-- What is served in the end is served from then on. -/
theorem coherent_topology (h : Coherent e m) : Coherent e (m.topology e).2 := by
  by_cases hcached : m.Cached
  · obtain ⟨snapshot, hcache⟩ := cached_iff.mp hcached
    rwa [topology_of_cached hcache]
  · rw [topology_of_not_cached hcached]
    unfold Coherent
    rw [topology_of_cached rfl]
    rfl

/-! ## The reload moves the first revision -/

theorem broadcast_generation (s : Runtime Body) (id : String) : (s.broadcast id).1.generation = s.generation := by
  unfold Runtime.broadcast
  cases s.nodes.lookup id with
  | none => rfl
  | some idx =>
    dsimp only
    split_ifs <;> rfl

theorem step_generation (s : Runtime Body) {act : RuntimeAct Body} (hact : ∀ components, act ≠ .reload components) :
    (s.step e act).1.generation = s.generation := by
  cases act with
  | reload components => exact absurd rfl (hact components)
  | start =>
    unfold Runtime.step
    dsimp only
    split_ifs <;> rfl
  | broadcast id => exact broadcast_generation s id
  | waitForShutdown => rfl

/-- The generation is that of `t`. -/
def OfGeneration (t s : Runtime Body) : Prop := s.generation = t.generation

theorem ofGeneration_changeNode (s : Runtime Body) (c : Component Body) : OfGeneration s (changeNode s c).1 := by
  unfold changeNode
  cases s.nodes.lookup c.id with
  | none => rfl
  | some idx =>
    dsimp only
    cases s.bootstraps.lookup idx <;> rfl

theorem ofGeneration_removeNode (s : Runtime Body) (id : Nat) : OfGeneration s (removeNode s id).1 := by
  unfold removeNode
  cases s.bootstraps.lookup id with
  | none => rfl
  | some b =>
    dsimp only
    split_ifs <;> rfl

/-- The changes of a reload that succeeds move the generation once, at their end. -/
theorem apply_generation {s : Runtime Body} {p : Plan Body} (h : (s.apply e p).2 = .ok ()) :
    (s.apply e p).1.generation = s.generation + 1 := by
  obtain ⟨hfail, -⟩ | ⟨t, permits, ht, heq⟩ := apply_induction (P := OfGeneration s) e p (fun _ _ ht => ⟨ht, ht⟩)
    (fun _ _ _ _ _ ht => ht) (fun t c _ ht => (ofGeneration_changeNode t c).trans ht)
    (fun t id _ ht => (ofGeneration_removeNode t id).trans ht) rfl
  · exact absurd h hfail
  · rw [heq]
    exact congrArg (· + 1) ht

theorem reload_generation {s : Runtime Body} {components : List (Component Body)} (h : (s.reload e components).2 = .ok ()) :
    (s.reload e components).1.generation = s.generation + 1 := by
  unfold Runtime.reload at h ⊢
  cases hplan : s.plan e components with
  | error error => simp [hplan] at h
  | ok p =>
    rw [hplan] at h
    dsimp only at h ⊢
    cases hvalid : s.validate e p with
    | error error => simp [hvalid] at h
    | ok _ =>
      rw [hvalid] at h
      exact apply_generation h

/-! ## One call -/

theorem Past.of_le (h : Past m) {m' : Status Body} (hcache : m'.topology_cache = m.topology_cache)
    (hgeneration : m.runtime.generation ≤ m'.runtime.generation) (hrev : m.last_errors.rev ≤ m'.last_errors.rev) : Past m' := by
  intro c hc
  rw [hcache] at hc
  obtain ⟨h₁, h₂⟩ := h c hc
  exact ⟨h₁.trans hgeneration, h₂.trans hrev⟩

theorem Past.topology (h : Past m) : Past (m.topology e).2 := by
  by_cases hcached : m.Cached
  · obtain ⟨snapshot, hcache⟩ := cached_iff.mp hcached
    rwa [topology_of_cached hcache]
  · rw [topology_of_not_cached hcached]
    intro c hc
    obtain rfl := Option.mem_some.mp hc
    exact ⟨le_refl _, le_refl _⟩

theorem step_generation_le (h : Succeeds e m (.call act)) : m.runtime.generation ≤ (m.runtime.step e act).1.generation := by
  cases act with
  | reload components => exact (Nat.le_succ _).trans (reload_generation h).ge
  | start | broadcast | waitForShutdown => exact (step_generation m.runtime (by simp)).ge

theorem rev_le_set (n : NodeErrors) (node : String) (error : Option Fault) : n.rev ≤ (n.set node error).1.rev := by
  rw [NodeErrors.set_rev]
  split_ifs
  · exact Nat.le_succ _
  · exact le_refl _

theorem Past.next (h : Past m) {act : StatusAct Body} (hok : Succeeds e m act) : Past ((machine e).next m act) := by
  cases act with
  | call act => exact h.of_le rfl (step_generation_le hok) (le_refl _)
  | reportFault id fault => exact h.of_le rfl (le_refl _) (rev_le_set _ _ _)
  | topology => exact h.topology

/-- Tables with the same nodes and links give the same list. -/
theorem listed_congr {m' : Status Body} (hnodes : m'.runtime.nodes = m.runtime.nodes)
    (hboot : m'.runtime.bootstraps = m.runtime.bootstraps) (hsources : m'.runtime.sources = m.runtime.sources)
    (hsinks : m'.runtime.sinks = m.runtime.sinks)
    (herrors : ∀ id, m.Lists id → m'.last_errors.by_node.lookup id = m.last_errors.by_node.lookup id ∧
      m'.last_errors.count id = m.last_errors.count id) :
    (m'.buildTopology e).map NodeInfo.listed = (m.buildTopology e).map NodeInfo.listed := by
  unfold buildTopology
  rw [hnodes, List.map_filterMap, List.map_filterMap]
  refine List.filterMap_congr fun node hnode => ?_
  have hlookup : m.runtime.nodes.lookup node.1 = some node.2 := by
    have hmem := (e.iter_perm _).mem_iff.mp hnode
    exact AList.mem_lookup_iff.mpr hmem
  have hname : m'.runtime.nameOf = m.runtime.nameOf := by
    funext idx
    unfold nameOf
    rw [hnodes]
  unfold nodeInfo
  rw [hboot]
  cases hb : m.runtime.bootstraps.lookup node.2 with
  | none => rfl
  | some b =>
    have hlists : m.Lists node.1 := by simp [Lists, hlookup, hb]
    obtain ⟨hfault, hcount⟩ := herrors node.1 hlists
    simp [NodeInfo.listed, hsources, hsinks, hname, hfault, hcount]

theorem count_of_mem {i : NodeInfo} (h : i ∈ m.buildTopology e) : i.fault_count = m.last_errors.count i.id := by
  obtain ⟨node, -, hinfo⟩ := List.mem_filterMap.mp h
  obtain ⟨b, -, rfl⟩ := Option.map_eq_some_iff.mp hinfo
  rfl

theorem exists_entry {id : String} (h : m.Lists id) : ∃ i ∈ m.buildTopology e, i.id = id := by
  obtain ⟨b, hb⟩ := Option.isSome_iff_exists.mp h
  obtain ⟨idx, hidx, hb⟩ := Option.bind_eq_some_iff.mp hb
  obtain ⟨i, hi⟩ : ∃ i, m.nodeInfo ⟨id, idx⟩ = some i := by simp [nodeInfo, hb]
  refine ⟨i, List.mem_filterMap.mpr ⟨⟨id, idx⟩, ?_, hi⟩, ?_⟩
  · exact (e.iter_perm _).mem_iff.mpr (AList.mem_lookup_iff.mp hidx)
  · obtain ⟨b', -, rfl⟩ := Option.map_eq_some_iff.mp hi
    rfl

/-- Two lists that agree have counted alike. -/
theorem count_eq_of_listed {m' : Status Body} {id : String} (hid : m.Lists id)
    (h : (m.buildTopology e).map NodeInfo.listed = (m'.buildTopology e).map NodeInfo.listed) :
    m.last_errors.count id = m'.last_errors.count id := by
  obtain ⟨i, hi, rfl⟩ := exists_entry (e := e) hid
  have hmem : i.listed ∈ (m'.buildTopology e).map NodeInfo.listed := h ▸ List.mem_map_of_mem hi
  obtain ⟨i', hi', hsame⟩ := List.mem_map.mp hmem
  have hcounts := count_of_mem hi'
  have hid' : i'.listed.id = i.listed.id := congrArg NodeInfo.id hsame
  have hcount : i'.listed.fault_count = i.listed.fault_count := congrArg NodeInfo.fault_count hsame
  simp only [NodeInfo.listed] at hid' hcount
  rw [hid', hcount, count_of_mem hi] at hcounts
  exact hcounts

/-- A report leaves the served list that of the tables exactly when it was announced. -/
theorem coherent_reportFault_iff (hpast : Past m) (h : Coherent e m) (id : String) (fault : Option Fault) :
    Coherent e ((machine e).next m (.reportFault id fault)) ↔ Announced m (.reportFault id fault) := by
  set m' : Status Body := (machine e).next m (.reportFault id fault)
  have hrev : m'.last_errors.rev = if m.last_errors.Moves id fault then m.last_errors.rev + 1 else m.last_errors.rev :=
    NodeErrors.set_rev
  by_cases hmoves : m.last_errors.Moves id fault
  · refine iff_of_true (coherent_of_not_cached fun hcached => ?_) (Or.inl hmoves)
    obtain ⟨snapshot, hcache⟩ := cached_iff.mp hcached
    have hle := (hpast _ (Option.mem_def.mpr hcache)).2
    rw [if_pos hmoves] at hrev
    rw [hrev] at hle
    exact absurd hle (Nat.not_succ_le_self _)
  rw [if_neg hmoves] at hrev
  have hcached_iff : m'.Cached ↔ m.Cached := by
    rw [cached_iff, cached_iff, hrev]
    rfl
  by_cases hcached : m.Cached
  · obtain ⟨snapshot, hcache⟩ := cached_iff.mp hcached
    have hserved : snapshot.map NodeInfo.listed = (m.buildTopology e).map NodeInfo.listed := by
      unfold Coherent at h
      rwa [topology_of_cached hcache] at h
    have hcache' : m'.topology_cache = some (m'.runtime.generation, m'.last_errors.rev, snapshot) := by
      rw [hrev]
      exact hcache
    unfold Coherent
    rw [topology_of_cached hcache']
    constructor
    · intro hsame
      refine Or.inr (Or.inl fun hlists => ?_)
      -- the entry that is served does not count the report
      have hcount := count_eq_of_listed hlists (hserved.symm.trans hsame)
      have hset : m'.last_errors.count id = m.last_errors.count id + 1 := NodeErrors.count_set_self
      omega
    · rintro (hannounced | hlists | hnot)
      · exact absurd hannounced hmoves
      · have hlisted : (m'.buildTopology e).map NodeInfo.listed = (m.buildTopology e).map NodeInfo.listed := by
          refine listed_congr rfl rfl rfl rfl fun other hother => ?_
          have hne : other ≠ id := fun heq => hlists (heq ▸ hother)
          exact ⟨NodeErrors.lookup_set hne, NodeErrors.count_set_ne hne⟩
        rw [hserved, hlisted]
      · exact absurd hcached hnot
  · refine iff_of_true (coherent_of_not_cached fun hcached' => hcached (hcached_iff.mp hcached')) (Or.inr (Or.inr hcached))

theorem coherent_call (hpast : Past m) (h : Coherent e m) (hok : Succeeds e m (.call act)) :
    Coherent e ((machine e).next m (.call act)) := by
  by_cases hact : ∃ components, act = .reload components
  · obtain ⟨components, rfl⟩ := hact
    refine coherent_of_not_cached fun hcached => ?_
    obtain ⟨snapshot, hcache⟩ := cached_iff.mp hcached
    have hle := (hpast _ (Option.mem_def.mpr hcache)).1
    have hnext : ((machine e).next m (.call (.reload components))).runtime.generation = m.runtime.generation + 1 :=
      reload_generation hok
    rw [hnext] at hle
    exact absurd hle (Nat.not_succ_le_self _)
  · push Not at hact
    obtain ⟨hsame, hsources, hsinks⟩ := step_frame e m.runtime hact
    set m' : Status Body := (machine e).next m (.call act)
    have hlisted : (m'.buildTopology e).map NodeInfo.listed = (m.buildTopology e).map NodeInfo.listed :=
      listed_congr hsame.nodes hsame.bootstraps hsources hsinks fun _ _ => ⟨rfl, rfl⟩
    have hgeneration : m'.runtime.generation = m.runtime.generation := step_generation m.runtime hact
    by_cases hcached : m.Cached
    · obtain ⟨snapshot, hcache⟩ := cached_iff.mp hcached
      unfold Coherent at h ⊢
      rw [topology_of_cached hcache] at h
      have hcache' : m'.topology_cache = some (m'.runtime.generation, m'.last_errors.rev, snapshot) := by
        rw [hgeneration]
        exact hcache
      rw [topology_of_cached hcache', hlisted]
      exact h
    · refine coherent_of_not_cached fun hcached' => hcached ?_
      obtain ⟨snapshot, hcache⟩ := cached_iff.mp hcached'
      rw [hgeneration] at hcache
      exact cached_iff.mpr ⟨snapshot, hcache⟩

theorem coherent_next_iff (hpast : Past m) (h : Coherent e m) {act : StatusAct Body} (hok : Succeeds e m act) :
    Coherent e ((machine e).next m act) ↔ Announced m act := by
  cases act with
  | call act => exact iff_of_true (coherent_call hpast h hok) trivial
  | reportFault id fault => exact coherent_reportFault_iff hpast h id fault
  | topology => exact iff_of_true (coherent_topology h) trivial

/-! ## Every call -/

theorem past (acts : List (StatusAct Body)) (hok : (machine e).Along (Succeeds e) acts) : Past ((machine e).state acts) :=
  Machine.invariant_of_along (I := Past) (fun c hc => by simp [machine, Status.new] at hc) (fun _ _ hpast hact => hpast.next hact) acts hok

/-- When the reloads of a run succeed, `topology` would serve the list of the tables throughout it exactly when every report of
the run was announced. -/
theorem coherent_throughout_iff (e : Engine Body) (acts : List (StatusAct Body)) (hok : (machine e).Along (Succeeds e) acts) :
    (∀ pre, pre <+: acts → Coherent e ((machine e).state pre)) ↔ (machine e).Along Announced acts := by
  induction acts using List.reverseRecOn with
  | nil =>
    refine iff_of_true (fun pre hpre => ?_) Machine.Along.nil
    rw [List.prefix_nil.mp hpre]
    exact coherent_of_not_cached (by simp [Cached, machine, Status.new])
  | append_singleton acts act ih =>
    rw [Machine.along_snoc, ← ih hok.init]
    constructor
    · intro h
      refine ⟨fun pre hpre => h pre (hpre.trans (List.prefix_append _ _)), ?_⟩
      have hnext := h (acts ++ [act]) (List.prefix_refl _)
      rw [Machine.state_snoc] at hnext
      exact (coherent_next_iff (past acts hok.init) (h acts (List.prefix_append _ _)) hok.last).mp hnext
    · rintro ⟨h, hannounced⟩ pre hpre
      rcases List.prefix_concat_iff.mp hpre with rfl | hpre
      · rw [Machine.state_snoc]
        exact (coherent_next_iff (past acts hok.init) (h acts (List.prefix_refl _)) hok.last).mpr hannounced
      · exact h pre hpre

/-- A fault over another one is not served, and neither is a report that a node without faults is well. -/
theorem repeated_fault_is_not_served :
    let fault (message : String) : Fault := ⟨.transient, "io", message, none⟩
    let runs : List (StatusAct Unit) := [.call (.reload [source "x", sink "y" ["x"]]), .reportFault "x" (some (fault "a")), .topology]
    (machine idle).Along (Succeeds idle) (runs ++ [.reportFault "x" (some (fault "b"))]) ∧
    ¬Coherent idle ((machine idle).state (runs ++ [.reportFault "x" (some (fault "b"))])) ∧
    ¬Coherent idle ((machine idle).state (runs ++ [.reportFault "y" none])) :=
  ⟨Machine.along_iff_alongFrom.mpr (by decide +kernel), by decide +kernel, by decide +kernel⟩

theorem coherent_throughout_iff_report :
    (∀ pre : List (StatusAct Unit), pre <+: [.call (.reload [source "x", sink "y" ["x"]]), .topology, .reportFault "x" none] →
      Coherent idle ((machine idle).state pre)) ↔
    (machine idle).Along Announced [.call (.reload [source "x", sink "y" ["x"]]), .topology, .reportFault "x" none] :=
  coherent_throughout_iff idle _ (Machine.along_iff_alongFrom.mpr (by decide +kernel))

end Status

end Runtime

end Opsense
