import Opsense.Runtime.Links

/-!
# The phases of a reload

What each phase of `apply` does to the nodes and to the links, whatever the kinds of the nodes are and however often a change
declares an input. Names and bootstraps stay inverse to each other (`Placed`) and the two tables of links say the same (`Tied`)
through the additions (`Joined`), the links (`Retied`), the changes (`Swapped`) and the removals (`Dropped`).
-/

namespace Opsense

namespace Runtime

variable {Body : Type} {e : Engine Body} {s s' : Runtime Body} {c : Component Body} {components cs : List (Component Body)}
  {p : Plan Body} {idx : Nat}

theorem Placed.congr (h : Placed s) (hsame : SameNodes s s') : Placed s' := by
  refine ⟨h.toNamed.congr hsame, ?_⟩
  rw [hsame.nodes, hsame.bootstraps]
  exact h.booted

/-! ## The additions -/

/-- The components have nodes of their own, and everything else is as it was. -/
structure Joined (s : Runtime Body) (cs : List (Component Body)) (s' : Runtime Body) : Prop where
  placed : Placed s'
  nodes : ∀ name idx, s.nodes.lookup name = some idx → s'.nodes.lookup name = some idx
  bootstraps : ∀ idx b, s'.bootstraps.lookup idx = some b →
    s.bootstraps.lookup idx = some b ∨ (b.component ∈ cs ∧ idx ∉ s.bootstraps)
  adds : ∀ c ∈ cs, c.id ∈ s'.nodes
  sources : s'.sources = s.sources
  sinks : s'.sinks = s.sinks

theorem Placed.addNewNodes (h : Placed s) (hnodup : (cs.map Component.id).Nodup) (hnew : ∀ c ∈ cs, c.id ∉ s.nodes)
    (hadd : addNewNodes e cs s = (s', .ok ())) : Joined s cs s' := by
  induction cs generalizing s with
  | nil =>
    obtain rfl : s = s' := congrArg Prod.fst hadd
    exact ⟨h, fun _ _ hname => hname, fun _ _ hb => Or.inl hb, by simp, rfl, rfl⟩
  | cons c cs ih =>
    unfold Runtime.addNewNodes at hadd
    dsimp only at hadd
    cases hprepare : e.prepare s.inc c with
    | error error => simp [hprepare] at hadd
    | ok _ =>
      rw [hprepare] at hadd
      rw [List.map_cons, List.nodup_cons] at hnodup
      have hc : c.id ∉ s.nodes := hnew c List.mem_cons_self
      have hnodes : (s.register c).nodes = s.nodes.insert c.id s.inc := if_neg hc
      have hboot := h.toNamed.lookup_register c
      have hplaced : Placed { s.register c with tasks := insert s.inc (s.register c).tasks } :=
        (h.register hc).congr ⟨rfl, rfl, rfl, rfl, rfl⟩
      have hold : ∀ c' ∈ cs, c'.id ∉ (s.register c).nodes := by
        intro c' hc'
        rw [hnodes, AList.mem_insert, not_or]
        exact ⟨fun hid => hnodup.1 (hid ▸ List.mem_map_of_mem hc'), hnew c' (List.mem_cons_of_mem _ hc')⟩
      have hrest := ih hplaced hnodup.2 hold hadd
      have hfirst : ∀ name idx, (s.register c).nodes.lookup name = some idx → s'.nodes.lookup name = some idx := hrest.nodes
      refine ⟨hrest.placed, fun name idx hname => ?_, fun idx b hb => ?_, fun c' hc' => ?_, hrest.sources, hrest.sinks⟩
      · refine hfirst name idx ?_
        have hne : name ≠ c.id := fun hid => hc (mem_iff_lookup.mpr ⟨idx, hid ▸ hname⟩)
        rw [hnodes, lookup_insert, if_neg hne, hname]
      · rcases hrest.bootstraps idx b hb with hb | ⟨hmem, hfresh⟩
        · have hb' : (s.register c).bootstraps.lookup idx = some b := hb
          rw [hboot] at hb'
          split_ifs at hb' with hidx
          · obtain rfl := Option.some.inj hb'
            exact Or.inr ⟨List.mem_cons_self, hidx ▸ h.toNamed.notMem_inc⟩
          · exact Or.inl hb'
        · refine Or.inr ⟨List.mem_cons_of_mem _ hmem, fun hidx => hfresh ?_⟩
          obtain ⟨b', hb'⟩ := mem_iff_lookup.mp hidx
          have hlt := h.fresh idx b' hb'
          have hkept : (s.register c).bootstraps.lookup idx = some b' := by rw [hboot, if_neg (by omega), hb']
          exact mem_iff_lookup.mpr ⟨b', hkept⟩
      · rcases List.mem_cons.mp hc' with rfl | hc'
        · exact mem_iff_lookup.mpr ⟨s.inc, hfirst _ _ (by rw [hnodes, lookup_insert, if_pos rfl])⟩
        · exact hrest.adds c' hc'

theorem Joined.new (h : Joined s cs s') (hs : Placed s) {name : String} (hname : s'.nodes.lookup name = some idx) :
    s.nodes.lookup name = some idx ∨ (name ∈ cs.map Component.id ∧ idx ∉ s.bootstraps) := by
  obtain ⟨b, hb, rfl⟩ := h.placed.named name idx hname
  rcases h.bootstraps idx b hb with hb | ⟨hmem, hfresh⟩
  · exact Or.inl (hs.booted idx b hb)
  · exact Or.inr ⟨List.mem_map_of_mem hmem, hfresh⟩

/-- The links of the additions are not there yet. -/
theorem Joined.unlinked (h : Joined s cs s') (hs : Placed s) (hsources : ∀ i ∈ s.sources, i ∈ s.bootstraps)
    (hnew : ∀ c ∈ cs, c.id ∉ s.nodes) : ∀ c ∈ cs, ∃ idx, s'.nodes.lookup c.id = some idx ∧ s'.sources.row idx = [] := by
  intro c hc
  obtain ⟨idx, hidx⟩ := mem_iff_lookup.mp (h.adds c hc)
  refine ⟨idx, hidx, ?_⟩
  rcases h.new hs hidx with hold | ⟨-, hfresh⟩
  · exact absurd (mem_iff_lookup.mpr ⟨idx, hold⟩) (hnew c hc)
  · rw [h.sources]
    exact Adjacency.row_of_notMem fun hmem => hfresh (hsources idx hmem)

/-! ## The changes -/

/-- The nodes of the components have the last component of their name, and everything else is as it was. -/
structure Swapped (s : Runtime Body) (cs : List (Component Body)) (s' : Runtime Body) : Prop where
  placed : Placed s'
  nodes : s'.nodes = s.nodes
  bootstraps : ∀ name idx b, s.nodes.lookup name = some idx → s'.bootstraps.lookup idx = some b →
    willAdd cs name = some b.component ∨ (willAdd cs name = none ∧ s.bootstraps.lookup idx = some b)
  sources : s'.sources = s.sources
  sinks : s'.sinks = s.sinks

theorem Placed.changeNodes (h : Placed s) (hchange : each Runtime.changeNode cs s = (s', .ok ())) : Swapped s cs s' := by
  induction cs generalizing s with
  | nil =>
    obtain rfl : s = s' := congrArg Prod.fst hchange
    exact ⟨h, rfl, fun _ _ _ _ hb => Or.inr ⟨rfl, hb⟩, rfl, rfl⟩
  | cons c cs ih =>
    unfold each at hchange
    cases hidx : s.nodes.lookup c.id with
    | none => simp [Runtime.changeNode, hidx] at hchange
    | some idx =>
      have hplaced := h.changeNode hidx
      obtain ⟨b, hb, hid, heq⟩ := h.toNamed.changeNode_cases hidx
      rw [heq] at hchange hplaced
      have hrest := ih hplaced hchange
      refine ⟨hrest.placed, hrest.nodes, fun name i bi hi hbi => ?_, hrest.sources, hrest.sinks⟩
      have hadd : willAdd (c :: cs) name = (willAdd cs name).or (willAdd [c] name) := willAdd_append [c] cs name
      rw [hadd]
      rcases hrest.bootstraps name i bi hi hbi with hsome | ⟨hnone, hold⟩
      · left
        rw [hsome]
        rfl
      · rw [hnone, Option.none_or, willAdd_singleton]
        dsimp only at hold
        rw [lookup_insert] at hold
        by_cases hname : c.id = name
        · subst hname
          obtain rfl := Option.some.inj (hidx.symm.trans hi)
          rw [if_pos rfl] at hold
          obtain rfl := Option.some.inj hold
          exact Or.inl (if_pos rfl)
        · have hne : i ≠ idx := by
            rintro rfl
            exact hname (h.toNamed.injective hidx hi)
          rw [if_neg hne] at hold
          exact Or.inr ⟨if_neg hname, hold⟩

/-! ## The removals -/

/-- Some nodes have left the tables of nodes, and everything else is as it was. -/
structure Dropped (s : Runtime Body) (dels : List Nat) (s' : Runtime Body) : Prop where
  placed : Placed s'
  nodes : ∀ name idx, s'.nodes.lookup name = some idx ↔ s.nodes.lookup name = some idx ∧ idx ∉ dels
  bootstraps : ∀ idx b, s'.bootstraps.lookup idx = some b ↔ s.bootstraps.lookup idx = some b ∧ idx ∉ dels
  sources : s'.sources = s.sources
  sinks : s'.sinks = s.sinks

theorem Placed.removeNodes {dels : List Nat} (h : Placed s) (hremove : each Runtime.removeNode dels s = (s', .ok ())) :
    Dropped s dels s' := by
  induction dels generalizing s with
  | nil =>
    obtain rfl : s = s' := congrArg Prod.fst hremove
    exact ⟨h, by simp, by simp, rfl, rfl⟩
  | cons id dels ih =>
    unfold each at hremove
    cases hb : s.bootstraps.lookup id with
    | none => simp [Runtime.removeNode, hb] at hremove
    | some b =>
      have hplaced := h.removeNode id
      rw [h.toNamed.removeNode_cases hb] at hremove hplaced
      have hrest := ih hplaced hremove
      refine ⟨hrest.placed, fun name idx => ?_, fun idx b' => ?_, hrest.sources, hrest.sinks⟩
      · rw [hrest.nodes, List.mem_cons, not_or, ← and_assoc]
        refine and_congr_left fun _ => ?_
        dsimp only
        rw [lookup_erase]
        -- the name of a node is the name of no other
        have hname : s.nodes.lookup b.component.id = some id := h.booted id b hb
        by_cases heq : name = b.component.id
        · subst heq
          rw [if_pos rfl, hname, Option.some_inj]
          simp [eq_comm]
        · rw [if_neg heq]
          refine ⟨fun hidx => ⟨hidx, ?_⟩, And.left⟩
          rintro rfl
          exact heq (h.toNamed.injective hidx hname)
      · rw [hrest.bootstraps, List.mem_cons, not_or, ← and_assoc]
        refine and_congr_left fun _ => ?_
        dsimp only
        rw [lookup_erase]
        by_cases heq : idx = id <;> simp [heq]

/-! ## The links -/

/-- Links are links of tables that have the nodes as well. -/
theorem Tied.of_nodes (h : Tied s) (hs : Placed s) (hs' : Named s')
    (hnodes : ∀ name idx, s.nodes.lookup name = some idx → s'.nodes.lookup name = some idx)
    (hsources : s'.sources = s.sources) (hsinks : s'.sinks = s.sinks) : Tied s' := by
  have hmono : ∀ idx ∈ s.bootstraps, idx ∈ s'.bootstraps := by
    intro idx hidx
    obtain ⟨b, hb⟩ := mem_iff_lookup.mp hidx
    exact hs'.mem_bootstraps_of_lookup (hnodes _ idx (hs.booted idx b hb))
  refine ⟨hs', ?_, ?_, fun i hi => ?_, fun i hi => ?_⟩
  · rw [hsources, hsinks]
    exact h.mem
  · rw [hsinks]
    exact h.sinks_nodup
  · rw [hsources] at hi
    exact hmono i (h.sources i hi)
  · rw [hsinks] at hi
    exact hmono i (h.sinks i hi)

/-! ## The tables of a reload -/

/-- The tables describe a graph: names and bootstraps are in bijection, the two tables of links say the same, and a node has the
sources that its component declares, which are nodes. -/
structure Woven (s : Runtime Body) : Prop extends Placed s, Tied s where
  found : ∀ idx b, s.bootstraps.lookup idx = some b → ∀ input ∈ b.component.inputs, input ∈ s.nodes
  declared : ∀ idx b, s.bootstraps.lookup idx = some b → ∀ j, j ∈ s.sources.row idx ↔ j ∈ s.indices b.component.inputs

/-- What a reload has made of the tables before it removes anything: every node has the sources that its component declares, and
the component is the last one of its name among the additions and the changes, or the one that the node had. -/
structure Reshaped (s : Runtime Body) (p : Plan Body) (s' : Runtime Body) : Prop extends Placed s', Tied s' where
  old : ∀ name idx, s.nodes.lookup name = some idx → s'.nodes.lookup name = some idx
  new : ∀ name idx, s'.nodes.lookup name = some idx →
    s.nodes.lookup name = some idx ∨ (name ∈ p.adds.map Component.id ∧ idx ∉ s.bootstraps)
  adds : ∀ c ∈ p.adds, c.id ∈ s'.nodes
  rows : ∀ idx b, s'.bootstraps.lookup idx = some b → ∀ j, j ∈ s'.sources.row idx ↔ j ∈ s'.indices b.component.inputs
  components : ∀ idx b, s'.bootstraps.lookup idx = some b →
    willAdd (p.adds ++ p.diffs) b.component.id = some b.component ∨
      (willAdd (p.adds ++ p.diffs) b.component.id = none ∧ s.bootstraps.lookup idx = some b)

theorem Woven.reshaped {s₁ s₂ s₃ s₄ : Runtime Body} (h : Woven s) (hnodup : (p.adds.map Component.id).Nodup)
    (hnew : ∀ c ∈ p.adds, c.id ∉ s.nodes) (hjoined : Joined s p.adds s₁) (htied : Retied s₁ p.adds s₂)
    (hswapped : Swapped s₂ p.diffs s₃) (hretied : Retied s₃ p.diffs s₄) : Reshaped s p s₄ := by
  have hnodes : s₄.nodes = s₁.nodes := hretied.same.nodes.trans (hswapped.nodes.trans htied.same.nodes)
  have hplaced : Placed s₄ := hswapped.placed.congr hretied.same
  have hindices : ∀ names, s₄.indices names = s₁.indices names := fun names => indices_congr fun name _ => by rw [hnodes]
  -- for one node: the row, and where its component comes from
  have hnode : ∀ idx b, s₄.bootstraps.lookup idx = some b →
      (∀ j, j ∈ s₄.sources.row idx ↔ j ∈ s₄.indices b.component.inputs) ∧
      (willAdd (p.adds ++ p.diffs) b.component.id = some b.component ∨
        (willAdd (p.adds ++ p.diffs) b.component.id = none ∧ s.bootstraps.lookup idx = some b)) := by
    intro idx b hb
    have hname₁ : s₁.nodes.lookup b.component.id = some idx := by rw [← hnodes]; exact hplaced.booted idx b hb
    have hname₂ : s₂.nodes.lookup b.component.id = some idx := by rw [htied.same.nodes]; exact hname₁
    have hname₃ : s₃.nodes.lookup b.component.id = some idx := by rw [hswapped.nodes]; exact hname₂
    have hrow₄ := hretied.rows _ idx hname₃
    have hrow₂ := htied.rows _ idx hname₁
    rw [hretied.same.bootstraps] at hb
    rw [willAdd_append]
    rcases hswapped.bootstraps _ idx b hname₂ hb with hsome | ⟨hnone, hb⟩
    · refine ⟨fun j => ?_, Or.inl (by rw [hsome]; rfl)⟩
      rw [hrow₄, hsome, hretied.same.indices]
    · rw [hnone] at hrow₄
      rw [htied.same.bootstraps] at hb
      rw [hnone, Option.none_or]
      rcases hjoined.bootstraps idx b hb with hold | ⟨hmem, -⟩
      · have hin : b.component.id ∈ s.nodes := mem_iff_lookup.mpr ⟨idx, h.booted idx b hold⟩
        have hnot : willAdd p.adds b.component.id = none := by
          rw [willAdd_eq_none, List.mem_map]
          rintro ⟨c, hc, hid⟩
          exact hnew c hc (hid ▸ hin)
        refine ⟨fun j => ?_, Or.inr ⟨hnot, hold⟩⟩
        rw [hnot] at hrow₂
        have hkept : s₁.indices b.component.inputs = s.indices b.component.inputs := by
          refine indices_congr fun input hinput => ?_
          obtain ⟨i, hi⟩ := mem_iff_lookup.mp (h.found idx b hold input hinput)
          rw [hi, hjoined.nodes input i hi]
        rw [hrow₄, hswapped.sources, hrow₂, hjoined.sources, h.declared idx b hold, hindices, hkept]
      · have hsome : willAdd p.adds b.component.id = some b.component := willAdd_of_nodup hnodup hmem
        refine ⟨fun j => ?_, Or.inl hsome⟩
        rw [hsome] at hrow₂
        rw [hrow₄, hswapped.sources, hrow₂, hindices]
  refine ⟨hplaced, hretied.tied.mem, hretied.tied.sinks_nodup, hretied.tied.sources, hretied.tied.sinks, fun name idx hname => ?_,
    fun name idx hname => ?_, fun c hc => ?_, fun idx b hb => (hnode idx b hb).1, fun idx b hb => (hnode idx b hb).2⟩
  · rw [hnodes]
    exact hjoined.nodes name idx hname
  · rw [hnodes] at hname
    exact hjoined.new h.toPlaced hname
  · rw [hnodes]
    exact hjoined.adds c hc

variable {s₅ : Runtime Body}

/-- The names that are left are those of the list. -/
theorem Reshaped.names (h : Reshaped s p s') (hs : Woven s) (hplanned : Planned e s components p) (hdropped : Dropped s' p.dels s₅)
    (name : String) : name ∈ s₅.nodes ↔ name ∈ components.map Component.id := by
  have hadds : ∀ c, c ∈ p.adds ↔ c ∈ components ∧ c.id ∉ s.nodes := by
    intro c
    rw [hplanned.adds, List.mem_filter, decide_eq_true_iff]
  rw [mem_iff_lookup, List.mem_map]
  constructor
  · rintro ⟨idx, hidx⟩
    obtain ⟨hidx, hdel⟩ := (hdropped.nodes name idx).mp hidx
    rcases h.new name idx hidx with hold | ⟨hname, -⟩
    · have hboot := hs.toPlaced.toNamed.mem_bootstraps_of_lookup hold
      rw [hplanned.dels, not_and] at hdel
      have hlisted := hdel hboot
      push Not at hlisted
      obtain ⟨c, hc, hlookup⟩ := hlisted
      exact ⟨c, hc, hs.toPlaced.toNamed.injective hlookup hold⟩
    · obtain ⟨c, hc, hid⟩ := List.mem_map.mp hname
      exact ⟨c, ((hadds c).mp hc).1, hid⟩
  · rintro ⟨c, hc, rfl⟩
    by_cases hold : c.id ∈ s.nodes
    · obtain ⟨idx, hidx⟩ := mem_iff_lookup.mp hold
      refine ⟨idx, (hdropped.nodes _ idx).mpr ⟨h.old _ idx hidx, fun hdel => ?_⟩⟩
      exact ((hplanned.dels idx).mp hdel).2 c hc hidx
    · obtain ⟨idx, hidx⟩ := mem_iff_lookup.mp (h.adds c ((hadds c).mpr ⟨hc, hold⟩))
      refine ⟨idx, (hdropped.nodes _ idx).mpr ⟨hidx, fun hdel => ?_⟩⟩
      rcases h.new _ idx hidx with hidx' | ⟨-, hfresh⟩
      · exact hold (mem_iff_lookup.mpr ⟨idx, hidx'⟩)
      · exact hfresh ((hplanned.dels idx).mp hdel).1

/-- The inputs of a node that is left are nodes that are left. -/
theorem Reshaped.found (h : Reshaped s p s') (hs : Woven s) (hplanned : Planned e s components p) (hchecked : Checked s p)
    (hleft : ∀ c ∈ p.diffs, ∀ input ∈ c.inputs, input ∈ components.map Component.id) (hdropped : Dropped s' p.dels s₅) {idx : Nat}
    {b : Bootstrap Body} (hb : s₅.bootstraps.lookup idx = some b) {input : String} (hinput : input ∈ b.component.inputs) :
    input ∈ s₅.nodes := by
  obtain ⟨hb, hdel⟩ := (hdropped.bootstraps idx b).mp hb
  have hkept : ∀ i, s.nodes.lookup input = some i → i ∉ p.dels → input ∈ s₅.nodes := by
    intro i hi hidel
    exact mem_iff_lookup.mpr ⟨i, (hdropped.nodes input i).mpr ⟨h.old input i hi, hidel⟩⟩
  have hnames := h.names hs hplanned hdropped input
  rcases h.components idx b hb with hsome | ⟨hnone, hold⟩
  · rcases List.mem_append.mp (mem_of_willAdd hsome).1 with hadd | hdiff
    · rcases hchecked.adds _ hadd input hinput with hin | hin
      · obtain ⟨i, hi⟩ := mem_iff_lookup.mp hin
        exact hkept i hi fun hidel => hchecked.unlinked i hidel _ hadd input hinput hi
      · obtain ⟨c, hc, hid⟩ := List.mem_map.mp hin
        rw [hplanned.adds] at hc
        exact hnames.mpr (List.mem_map.mpr ⟨c, (List.mem_filter.mp hc).1, hid⟩)
    · exact hnames.mpr (hleft _ hdiff input hinput)
  · obtain ⟨i, hi⟩ := mem_iff_lookup.mp (hs.found idx b hold input hinput)
    refine hkept i hi fun hidel => ?_
    -- a node that receives from one that is deleted would be changed
    have hsource : i ∈ s.sources.row idx := (hs.declared idx b hold i).mpr (mem_indices.mpr ⟨input, hinput, hi⟩)
    rcases hchecked.receivers i hidel idx ((hs.mem idx i).mp hsource) with hidx | ⟨d, hd, hlookup⟩
    · exact hdel hidx
    · have hid : d.id = b.component.id := hs.toPlaced.toNamed.injective hlookup (hs.booted idx b hold)
      rw [willAdd_eq_none, ← hid] at hnone
      exact hnone (List.mem_map_of_mem (List.mem_append_right _ hd))

/-- The nodes that are left keep their sources. -/
theorem Dropped.row {dels : List Nat} (h : Dropped s dels s') (i : Nat) :
    (s'.unlinkRemoved dels).sources.row i = if i ∈ dels then [] else s.sources.row i := by
  have hsources : (s'.unlinkRemoved dels).sources = (dels.foldl Adjacency.leave (s.sources, s.sinks)).1 := by
    rw [← h.sources, ← h.sinks]
    rfl
  rw [hsources]
  exact Adjacency.row_sources_leave dels (s.sources, s.sinks) i

/-- The sources of a node that is left are left, under the names that its component declares. -/
theorem Reshaped.source (h : Reshaped s p s') (hs : Woven s) (hplanned : Planned e s components p) (hchecked : Checked s p)
    (hleft : ∀ c ∈ p.diffs, ∀ input ∈ c.inputs, input ∈ components.map Component.id) (hdropped : Dropped s' p.dels s₅) {i j : Nat}
    (hi : i ∉ p.dels) (hj : j ∈ s'.sources.row i) :
    j ∉ p.dels ∧ ∃ b, s₅.bootstraps.lookup i = some b ∧ ∃ input ∈ b.component.inputs, s₅.nodes.lookup input = some j := by
  have hkey : i ∈ s'.sources := by
    by_contra hnot
    rw [Adjacency.row_of_notMem hnot] at hj
    exact absurd hj List.not_mem_nil
  obtain ⟨b, hb⟩ := mem_iff_lookup.mp (h.sources i hkey)
  have hb₅ : s₅.bootstraps.lookup i = some b := (hdropped.bootstraps i b).mpr ⟨hb, hi⟩
  obtain ⟨input, hinput, hlookup⟩ := mem_indices.mp ((h.rows i b hb j).mp hj)
  obtain ⟨j', hj'⟩ := mem_iff_lookup.mp (h.found hs hplanned hchecked hleft hdropped hb₅ hinput)
  obtain ⟨hlookup', hdel⟩ := (hdropped.nodes input j').mp hj'
  obtain rfl := Option.some.inj (hlookup.symm.trans hlookup')
  exact ⟨hdel, b, hb₅, input, hinput, hj'⟩

/-- The tables describe a graph again when the nodes that are not in the list have left. -/
theorem Reshaped.woven (h : Reshaped s p s') (hs : Woven s) (hplanned : Planned e s components p) (hchecked : Checked s p)
    (hleft : ∀ c ∈ p.diffs, ∀ input ∈ c.inputs, input ∈ components.map Component.id) (hdropped : Dropped s' p.dels s₅) :
    Woven (s₅.unlinkRemoved p.dels) := by
  have hsame : SameNodes s₅ (s₅.unlinkRemoved p.dels) := unlinkRemoved_frame s₅ p.dels
  have hplaced : Placed (s₅.unlinkRemoved p.dels) := hdropped.placed.congr hsame
  have hsources : (s₅.unlinkRemoved p.dels).sources = (p.dels.foldl Adjacency.leave (s'.sources, s'.sinks)).1 := by
    rw [← hdropped.sources, ← hdropped.sinks]
    rfl
  have hsinks : (s₅.unlinkRemoved p.dels).sinks = (p.dels.foldl Adjacency.leave (s'.sources, s'.sinks)).2 := by
    rw [← hdropped.sources, ← hdropped.sinks]
    rfl
  have hboot : ∀ i, i ∈ s'.bootstraps → i ∉ p.dels → i ∈ (s₅.unlinkRemoved p.dels).bootstraps := by
    intro i hi hdel
    obtain ⟨b, hb⟩ := mem_iff_lookup.mp hi
    rw [hsame.bootstraps]
    exact mem_iff_lookup.mpr ⟨b, (hdropped.bootstraps i b).mpr ⟨hb, hdel⟩⟩
  -- the inputs have the nodes that they had
  have hindices : ∀ i b, s₅.bootstraps.lookup i = some b →
      (s₅.unlinkRemoved p.dels).indices b.component.inputs = s'.indices b.component.inputs := by
    intro i b hb
    rw [hsame.indices]
    refine indices_congr fun input hinput => ?_
    obtain ⟨k, hk⟩ := mem_iff_lookup.mp (h.found hs hplanned hchecked hleft hdropped hb hinput)
    rw [hk, ((hdropped.nodes input k).mp hk).1]
  have hrow := hdropped.row
  have hdeclared : ∀ i b, s₅.bootstraps.lookup i = some b →
      ∀ j, j ∈ (s₅.unlinkRemoved p.dels).sources.row i ↔ j ∈ (s₅.unlinkRemoved p.dels).indices b.component.inputs := by
    intro i b hb j
    obtain ⟨hb', hdel⟩ := (hdropped.bootstraps i b).mp hb
    rw [hrow, if_neg hdel, h.rows i b hb' j, hindices i b hb]
  have hconv : ∀ i j, i ∈ Adjacency.row (s'.sources, s'.sinks).2 j → j ∈ Adjacency.row (s'.sources, s'.sinks).1 i :=
    fun i j hij => (h.mem i j).mpr hij
  obtain ⟨hmem, hnodup⟩ := Adjacency.mem_sinks_leave p.dels hconv
  refine ⟨hplaced, ?_, ?_, fun i hi => ?_, fun i hi => ?_, fun i b hb input hinput => ?_, hsame.bootstraps ▸ hdeclared⟩
  · intro i j
    rw [hsinks, hmem, ← h.mem]
    constructor
    · intro hj
      have hj' := hj
      rw [hrow] at hj'
      split_ifs at hj' with hdel
      · exact absurd hj' List.not_mem_nil
      exact ⟨hj', hdel, (h.source hs hplanned hchecked hleft hdropped hdel hj').1⟩
    · rintro ⟨hj, hdel, -⟩
      rw [hrow, if_neg hdel]
      exact hj
  · rw [hsinks]
    exact hnodup h.sinks_nodup
  · rw [hsources] at hi
    obtain ⟨hi, hdel⟩ := (Adjacency.mem_keys_leave p.dels (s'.sources, s'.sinks) i).1.mp hi
    exact hboot i (h.sources i hi) hdel
  · rw [hsinks] at hi
    obtain ⟨hi, hdel⟩ := (Adjacency.mem_keys_leave p.dels (s'.sources, s'.sinks) i).2.mp hi
    exact hboot i (h.sinks i hi) hdel
  · rw [hsame.bootstraps] at hb
    rw [hsame.nodes]
    exact h.found hs hplanned hchecked hleft hdropped hb hinput

end Runtime

end Opsense
