import Opsense.Graph.Emitted

/-!
# When the graph is well formed

The graph of a genome whose nodes are all emitted defines no name twice exactly when no node computes a rate of change and at most one
is a head (`defined_nodup_iff`). What its nodes read is then defined before exactly when each node is emitted after the nodes whose
output it reads (`linesAt_backed_iff`).
-/

namespace Opsense

namespace Genome

/-! ## The order in which the nodes are emitted -/

/-- The node is emitted before the other. -/
def Scan.Before (s : Scan) (u v : Nat) : Prop := s.levels u < s.levels v ∨ s.levels u = s.levels v ∧ v < u

variable {s : Scan}

theorem Scan.before_iff {u v : Nat} : s.Before u v ↔ ¬s.Le v u := by
  unfold Scan.Before Scan.Le
  omega

instance leTotal (s : Scan) : Std.Total s.Le := ⟨fun i j => by unfold Scan.Le; omega⟩

instance leTrans (s : Scan) : IsTrans Nat s.Le := ⟨fun i j k => by unfold Scan.Le; omega⟩

variable {g : Genome}

theorem order_perm (s : Scan) : (g.order s).Perm (List.range g.nodes.length) := List.perm_insertionSort s.Le _

variable {i : Nat}

@[simp] theorem mem_order : i ∈ g.order s ↔ i < g.nodes.length := by
  rw [(order_perm s).mem_iff, List.mem_range]

theorem order_nodup (s : Scan) : (g.order s).Nodup := (order_perm s).nodup_iff.mpr List.nodup_range

theorem order_pairwise (s : Scan) : (g.order s).Pairwise s.Le := List.pairwise_insertionSort s.Le _

/-- The nodes that stand before a node are those that are emitted before it. -/
theorem mem_before {before after : List Nat} {u v : Nat} (h : g.order s = before ++ v :: after) (hu : u < g.nodes.length) :
    u ∈ before ↔ s.Before u v := by
  have hpairwise := order_pairwise (g := g) s
  have hnodup := order_nodup (g := g) s
  have hmem : u ∈ g.order s := mem_order.mpr hu
  rw [h] at hpairwise hnodup hmem
  rw [List.pairwise_append, List.pairwise_cons] at hpairwise
  rw [Scan.before_iff]
  constructor
  · intro hbefore hle
    have hle' : s.Le u v := hpairwise.2.2 u hbefore v List.mem_cons_self
    obtain rfl : u = v := by
      unfold Scan.Le at hle hle'
      omega
    exact List.disjoint_of_nodup_append hnodup hbefore List.mem_cons_self
  · intro hnot
    rw [List.mem_append, List.mem_cons] at hmem
    rcases hmem with hmem | rfl | hmem
    · exact hmem
    · exact absurd (.inr ⟨rfl, le_rfl⟩) hnot
    · exact absurd (hpairwise.2.1.1 u hmem) hnot

/-! ## The names of the nodes -/

/-- The names that a node defines. -/
def definesAt (g : Genome) (i : Nat) : List String := (g.shapeAt i).defined.map (g.render i)

/-- The names of the extractors that are read. -/
def extNames (g : Genome) : List String := g.extIds.map fun k => "in" ++ Nat.repr k

theorem linesAt_defined (i : Nat) : definedBy (g.linesAt i) = (definedBy (g.shapeAt i).lines).map (g.render i) :=
  definedBy_map (g.render i) _

theorem definesAt_eq (i : Nat) : g.definesAt i = g.gives i ++ definedBy (g.linesAt i) := by
  rw [linesAt_defined]
  exact List.map_append

theorem shapeAt_good (i : Nat) : ∀ r ∈ (g.shapeAt i).defined, r.Good := by
  unfold shapeAt
  cases g.opAt i with
  | none => exact fun r hr => absurd hr List.not_mem_nil
  | some op => exact op.shape_good _

/-- Names of a node are the same only when they are the same in its shape. -/
theorem render_inj {r r' : Ref} (h : r.Good) (h' : r'.Good) (heq : g.render i r = g.render i r') : r = r' := by
  have hkey := Ref.splitName_render h i ((g.inputsAt i).map In.name)
  have hkey' := Ref.splitName_render h' i ((g.inputsAt i).map In.name)
  rw [show Ref.render i _ r = Ref.render i _ r' from heq, hkey'] at hkey
  exact Ref.key_inj h h' hkey.symm

/-- A name that is the output of a node is that of no other node. -/
theorem render_eq_nodeName {i j : Nat} {r : Ref} (h : r.Good) (heq : g.render i r = nodeName j) : r = .out ∧ i = j := by
  have hkey := Ref.splitName_render h i ((g.inputsAt i).map In.name)
  rw [show Ref.render i _ r = nodeName j from heq, splitName_nodeName] at hkey
  have hij : i = j := by
    by_contra hne
    exact Ref.key_ne_nodeName h hne (congrArg Prod.snd hkey).symm
  subst hij
  refine ⟨Ref.key_inj h trivial hkey.symm, rfl⟩

/-- Only a head defines names that another node defines, which is another head. -/
theorem definesAt_disjoint {i j : Nat} (hij : i ≠ j) (hhead : ¬(g.IsHead i ∧ g.IsHead j)) : (g.definesAt i).Disjoint (g.definesAt j) := by
  wlog hi : ¬g.IsHead i generalizing i j with hsymm
  · exact (hsymm hij.symm (fun h => hhead h.symm) fun hj => hhead ⟨not_not.mp hi, hj⟩).symm
  intro x hx hx'
  obtain ⟨r, hr, rfl⟩ := List.mem_map.mp hx
  obtain ⟨r', hr', heq⟩ := List.mem_map.mp hx'
  have hown : r = .out ∨ ∃ tag, r = .aux tag := by
    cases hop : g.opAt i with
    | none =>
      rw [show g.shapeAt i = ⟨[], []⟩ by unfold shapeAt; rw [hop]; rfl] at hr
      exact absurd hr List.not_mem_nil
    | some op =>
      rw [shapeAt_of hop] at hr
      rw [isHead_of hop, Bool.not_eq_true, Option.isSome_eq_false_iff, Option.isNone_iff_eq_none] at hi
      exact Op.shape_own hi _ r hr
  have hkey := Ref.splitName_render (shapeAt_good i r hr) i ((g.inputsAt i).map In.name)
  have hkey' := Ref.splitName_render (shapeAt_good j r' hr') j ((g.inputsAt j).map In.name)
  rw [show Ref.render j _ r' = Ref.render i _ r from heq, hkey] at hkey'
  refine Ref.key_ne_nodeName (shapeAt_good j r' hr') hij.symm ?_
  rw [← hkey']
  rcases hown with rfl | ⟨tag, rfl⟩ <;> rfl

theorem extNames_nodup : g.extNames.Nodup := by
  have hids : g.extIds.Nodup := (List.perm_insertionSort _ _).nodup_iff.mpr (List.nodup_dedup _)
  exact hids.map fun j k h => Nat.repr_injective ((String.append_right_inj "in").mp h)

theorem extNames_disjoint (i : Nat) : g.extNames.Disjoint (g.definesAt i) := by
  intro x hx hx'
  obtain ⟨k, -, rfl⟩ := List.mem_map.mp hx
  obtain ⟨r, hr, heq⟩ := List.mem_map.mp hx'
  exact Ref.render_ne_extractor (shapeAt_good i r hr) i k _ heq

/-! ## No name twice -/

/-- A node computes a rate of change. -/
def IsRocAt (g : Genome) (i : Nat) : Prop := ∃ op, g.opAt i = some op ∧ op.IsRoc

theorem shapeAt_roc (h : g.IsRocAt i) : g.shapeAt i = Op.rocShape := by
  obtain ⟨op, hop, hroc⟩ := h
  rw [shapeAt_of hop]
  cases op with
  | roc period => rfl
  | _ => exact hroc.elim

theorem shapeAt_head (h : g.IsHead i) : g.shapeAt i = Op.headShape := by
  obtain ⟨op, feat, hop, hfeat⟩ := h
  rw [shapeAt_of hop]
  cases op with
  | head n_feat n_out => rfl
  | _ => nomatch hfeat

theorem definesAt_nodup_iff : (g.definesAt i).Nodup ↔ ¬g.IsRocAt i := by
  constructor
  · intro h hroc
    unfold definesAt at h
    rw [shapeAt_roc hroc] at h
    exact Op.rocShape_not_nodup (List.Nodup.of_map _ h)
  · intro hroc
    have hshape : (g.shapeAt i).defined.Nodup := by
      unfold shapeAt
      cases hop : g.opAt i with
      | none => exact List.nodup_nil
      | some op => exact Op.shape_nodup (fun h => hroc ⟨op, hop, h⟩) _
    exact (List.nodup_map_iff_inj_on hshape).mpr fun r hr r' hr' =>
      render_inj (shapeAt_good i r hr) (shapeAt_good i r' hr')

theorem dot_mem_definesAt (h : g.IsHead i) : "dot" ∈ g.definesAt i := by
  unfold definesAt
  rw [shapeAt_head h]
  exact List.mem_map.mpr ⟨.fixed "dot", by decide, rfl⟩

/-- The nodes define no name twice exactly when none computes a rate of change and at most one is a head. -/
theorem defined_nodup_iff {nodes : List Nat} (hnodup : nodes.Nodup) :
    (g.extNames ++ nodes.flatMap g.definesAt).Nodup ↔
      (∀ i ∈ nodes, ¬g.IsRocAt i) ∧ ∀ i ∈ nodes, ∀ j ∈ nodes, g.IsHead i → g.IsHead j → i = j := by
  have hdisjoint : g.extNames.Disjoint (nodes.flatMap g.definesAt) := by
    intro x hx hx'
    obtain ⟨i, -, hi⟩ := List.mem_flatMap.mp hx'
    exact extNames_disjoint i hx hi
  have happend : (g.extNames ++ nodes.flatMap g.definesAt).Nodup ↔ (nodes.flatMap g.definesAt).Nodup := by
    rw [List.nodup_append']
    exact ⟨fun h => h.2.1, fun h => ⟨extNames_nodup, h, hdisjoint⟩⟩
  rw [happend, List.nodup_flatMap]
  refine and_congr (forall₂_congr fun i _ => definesAt_nodup_iff) ?_
  constructor
  · intro h i hi j hj hhead hhead'
    by_contra hij
    have hsymm : Std.Symm (Function.onFun List.Disjoint g.definesAt) := ⟨fun _ _ h => h.symm⟩
    exact h.forall hi hj hij (dot_mem_definesAt hhead) (dot_mem_definesAt hhead')
  · intro h
    refine hnodup.imp_of_mem fun hi hj hij => ?_
    exact definesAt_disjoint hij fun hboth => hij (h _ hi _ hj hboth.1 hboth.2)

/-! ## Everything that is read is defined before -/

/-- The nodes whose outputs the operator of a node reads. -/
def readsAt (g : Genome) (i : Nat) : List Nat :=
  (((g.inputsAt i).take (((g.opAt i).map (Op.reads (g.inputsAt i).length)).getD 0))).filterMap In.operator?

theorem mem_readsAt {u v : Nat} {op : Op} (hop : g.opAt v = some op) :
    u ∈ g.readsAt v ↔ ∃ k < op.reads (g.inputsAt v).length, (g.inputsAt v)[k]? = some (.fromOperator u) := by
  have hoperator : ∀ x : In, x.operator? = some u ↔ x = .fromOperator u := by
    intro x
    cases x <;> simp [In.operator?]
  unfold readsAt
  rw [hop, Option.map_some, Option.getD_some, List.mem_filterMap]
  simp only [hoperator, exists_eq_right, List.mem_iff_getElem?, List.getElem?_take]
  refine exists_congr fun k => ?_
  split
  · case isTrue hk => exact ⟨fun h => ⟨hk, h⟩, And.right⟩
  · case isFalse hk => exact ⟨nofun, fun h => absurd h.1 hk⟩

/-- Each node is emitted after the nodes whose outputs it reads. -/
def Ordered (g : Genome) (s : Scan) : Prop := ∀ v < g.nodes.length, ∀ u ∈ g.readsAt v, u < g.nodes.length ∧ s.Before u v

theorem nodeName_notMem_extNames (u : Nat) : nodeName u ∉ g.extNames := by
  intro h
  obtain ⟨k, -, heq⟩ := List.mem_map.mp h
  exact Ref.render_ne_extractor (r := .out) trivial u k [] heq.symm

theorem nodeName_mem_lines {op : Op} (hop : g.opAt i = some op) : nodeName i ∈ definedBy (g.linesAt i) := by
  rw [linesAt_defined, shapeAt_of hop]
  exact List.mem_map.mpr ⟨.out, Op.out_mem_shape op _, rfl⟩

/-- The output of a node is defined by that node. -/
theorem of_nodeName_mem_definesAt {i u : Nat} (h : nodeName u ∈ g.definesAt i) : i = u := by
  obtain ⟨r, hr, heq⟩ := List.mem_map.mp h
  exact (render_eq_nodeName (shapeAt_good i r hr) heq).2

theorem mem_extNames {v k j : Nat} (h : (g.inputsAt v)[k]? = some (.fromExtractor j)) : "in" ++ Nat.repr j ∈ g.extNames := by
  unfold inputsAt at h
  cases hnode : g.nodes[v]? with
  | none =>
    rw [hnode] at h
    cases h
  | some node =>
    rw [hnode] at h
    refine List.mem_map.mpr ⟨j, (List.mem_insertionSort _).mpr (List.mem_dedup.mpr (List.mem_flatMap.mpr ?_)), rfl⟩
    exact ⟨node, List.mem_of_getElem? hnode, List.mem_filterMap.mpr ⟨.fromExtractor j, List.mem_of_getElem? h, rfl⟩⟩

/-- The lines of a node are backed by what it is given and the inputs that it reads. -/
theorem linesAt_backed {given : List String} {v : Nat} {op : Op} (hop : g.opAt v = some op) (hroc : ¬op.IsRoc)
    (hgives : ∀ x ∈ g.gives v, x ∈ given) (hargs : ∀ k < op.reads (g.inputsAt v).length, g.render v (.arg k) ∈ given) :
    Backed given (g.linesAt v) := by
  have h := (Op.shape_backed hroc (g.inputsAt v).length).map (g.render v)
  unfold linesAt
  unfold gives at hgives
  rw [shapeAt_of hop] at hgives ⊢
  refine h.mono fun x hx => ?_
  rw [List.map_append, List.mem_append, List.map_map] at hx
  rcases hx with hx | hx
  · exact hgives x hx
  · obtain ⟨k, hk, rfl⟩ := List.mem_map.mp hx
    exact hargs k (List.mem_range.mp hk)

theorem reads_le {op : Op} {n : Nat} (h : op.arity ≤ n) : op.reads n ≤ n := by
  cases op <;> first | exact h | exact le_rfl

/-- The name of an input. -/
theorem render_arg {v k : Nat} {x : In} (h : (g.inputsAt v)[k]? = some x) : g.render v (.arg k) = x.name := by
  have hname : ((g.inputsAt v).map In.name).getD k "" = x.name := by
    rw [List.getD_eq_getElem?_getD, List.getElem?_map, h]
    rfl
  exact hname

/-- Where each node is emitted after those it reads, its lines read what is given or defined before. -/
theorem backed_of_before {checks : Bool} {given : List String} {before after : List Nat} {v : Nat}
    (hgiven : ∀ x, x ∈ g.extNames ∨ x ∈ g.gives v → x ∈ given) (hordered : g.Ordered s) (hemits : ∀ i < g.nodes.length, g.Emits checks i)
    (hroc : ¬g.IsRocAt v) (h : g.order s = before ++ v :: after) :
    Backed (given ++ before.flatMap fun i => definedBy (g.linesAt i)) (g.linesAt v) := by
  have hv : v < g.nodes.length := by
    rw [← mem_order (s := s), h]
    simp
  obtain ⟨op, hop, harity, -⟩ := hemits v hv
  refine linesAt_backed hop (fun hr => hroc ⟨op, hop, hr⟩) (fun x hx => List.mem_append_left _ (hgiven x (.inr hx))) ?_
  intro k hk
  have hlen : k < (g.inputsAt v).length := hk.trans_le (reads_le harity)
  have hinput := List.getElem?_eq_getElem hlen
  rw [render_arg hinput, List.mem_append]
  cases hx : (g.inputsAt v)[k] with
  | fromExtractor j =>
    rw [hx] at hinput
    exact .inl (hgiven _ (.inl (mem_extNames hinput)))
  | fromOperator u =>
    rw [hx] at hinput
    obtain ⟨hu, hbefore⟩ := hordered v hv u ((mem_readsAt hop).mpr ⟨k, hk, hinput⟩)
    obtain ⟨op', hop', -⟩ := hemits u hu
    exact .inr (List.mem_flatMap.mpr ⟨u, (mem_before h hu).mpr hbefore, nodeName_mem_lines hop'⟩)

/-- What a node reads of another is defined by a node that is emitted before. -/
theorem before_of_backed {given : List String} {before : List Nat} {u v : Nat} (hgiven : nodeName u ∉ given) (hu : u ∈ g.readsAt v)
    (hbacked : Backed (given ++ before.flatMap fun i => definedBy (g.linesAt i)) (g.linesAt v)) : u ∈ before := by
  cases hop : g.opAt v with
  | none =>
    unfold readsAt at hu
    rw [hop] at hu
    simp at hu
  | some op =>
    obtain ⟨k, hk, hinput⟩ := (mem_readsAt hop).mp hu
    obtain ⟨first, line, rest, hlines, harg, hout⟩ := Op.shape_reads op hk
    have hat : g.linesAt v = first.map (Line.map (g.render v)) ++ line.map (g.render v) :: rest.map (Line.map (g.render v)) := by
      unfold linesAt
      rw [shapeAt_of hop, hlines, List.map_append, List.map_cons]
      rfl
    have hread : nodeName u ∈ (line.map (g.render v)).1 := by
      refine List.mem_map.mpr ⟨.arg k, harg, ?_⟩
      rw [render_arg hinput]
      rfl
    rcases hbacked _ _ _ hat _ hread with hmem | hmem
    · rcases List.mem_append.mp hmem with hmem | hmem
      · exact absurd hmem hgiven
      · obtain ⟨i, hi, hmem⟩ := List.mem_flatMap.mp hmem
        have hdefines : nodeName u ∈ g.definesAt i := by
          rw [definesAt_eq, List.mem_append]
          exact .inr hmem
        exact of_nodeName_mem_definesAt hdefines ▸ hi
    · -- a node does not read its own output
      rw [definedBy_map] at hmem
      obtain ⟨r, hr, heq⟩ := List.mem_map.mp hmem
      have hdefined : r ∈ (op.shape (g.inputsAt v).length).defined := by
        unfold Shape.defined
        rw [hlines, definedBy_append]
        simp [hr]
      obtain ⟨rfl, -⟩ := render_eq_nodeName (Op.shape_good op _ r hdefined) heq
      exact absurd hr hout

theorem nodeName_notMem_gives {checks : Bool} {i u : Nat} (hemits : g.Emits checks i) (hroc : ¬g.IsRocAt i) : nodeName u ∉ g.gives i := by
  intro h
  have hnodup := definesAt_nodup_iff.mpr hroc
  obtain ⟨op, hop, -⟩ := hemits
  rw [definesAt_eq, List.nodup_append'] at hnodup
  have hdefines : nodeName u ∈ g.definesAt i := by
    rw [definesAt_eq, List.mem_append]
    exact .inl h
  obtain rfl := of_nodeName_mem_definesAt hdefines
  exact hnodup.2.2 h (nodeName_mem_lines hop)

/-- Everything that the nodes read is defined before, exactly when each node is emitted after the nodes whose outputs it reads. -/
theorem linesAt_backed_iff {checks : Bool} (hemits : ∀ i < g.nodes.length, g.Emits checks i) (hroc : ∀ i < g.nodes.length, ¬g.IsRocAt i) :
    Backed (g.extNames ++ (g.order s).flatMap g.gives) ((g.order s).flatMap g.linesAt) ↔ g.Ordered s := by
  rw [backed_flatMap]
  constructor
  · intro h v hv u hu
    obtain ⟨before, after, horder⟩ := List.append_of_mem (mem_order.mpr hv : v ∈ g.order s)
    have hmem : u ∈ before := by
      refine before_of_backed ?_ hu (h before v after horder)
      rw [List.mem_append, List.mem_flatMap]
      rintro (hmem | ⟨i, hi, hmem⟩)
      · exact nodeName_notMem_extNames u hmem
      · have hi' : i < g.nodes.length := mem_order.mp hi
        exact nodeName_notMem_gives (hemits i hi') (hroc i hi') hmem
    have hu' : u < g.nodes.length := by
      rw [← mem_order (s := s), horder]
      exact List.mem_append_left _ hmem
    exact ⟨hu', (mem_before horder hu').mp hmem⟩
  · intro hordered before v after horder
    have hv : v ∈ g.order s := by
      rw [horder]
      simp
    refine backed_of_before (fun x hx => ?_) hordered hemits (hroc v (mem_order.mp hv)) horder
    rw [List.mem_append]
    exact hx.imp_right fun hx => List.mem_flatMap.mpr ⟨v, hv, hx⟩

/-! ## The graph -/

variable {checks : Bool} {it : Iteration} {st : BuildState} {graph : GraphProto} {n_feat : Nat}

/-- At most one node is a head. -/
def OneHead (g : Genome) : Prop := ∀ i < g.nodes.length, ∀ j < g.nodes.length, g.IsHead i → g.IsHead j → i = j

theorem Built.defined_perm {nodes : List Nat} (h : g.Built nodes st) :
    st.graph.defined.Perm (g.extNames ++ nodes.flatMap g.definesAt) := by
  have hdefines : g.definesAt = fun i => g.gives i ++ definedBy (g.linesAt i) := funext definesAt_eq
  unfold GraphProto.defined
  rw [h.lines, definedBy_flatMap, hdefines]
  refine (h.declared.append_right _).trans ?_
  rw [List.append_assoc]
  exact (List.flatMap_append_perm nodes g.gives _).append_left _

/-- What a graph gives is what was emitted, with the outputs of the head and of the ATR. -/
theorem finish_ok (h : st.finish = .ok (graph, n_feat)) : graph.declared = st.graph.declared ∧ graph.lines = st.graph.lines ∧
    ∀ x ∈ graph.output.map ValueInfoProto.name, x ∈ st.graph.output.map ValueInfoProto.name ∨
      ∃ i, (st.head_idx = some i ∨ st.atr_idx = some i) ∧ x = nodeName i := by
  unfold BuildState.finish at h
  cases hhead : st.head_idx with
  | none =>
    rw [hhead] at h
    cases h
  | some head_idx =>
    cases hfeat : st.n_feat with
    | none =>
      rw [hhead, hfeat] at h
      cases h
    | some feat =>
      rw [hhead, hfeat] at h
      cases h
      refine ⟨rfl, rfl, fun x hx => ?_⟩
      rw [List.map_append, List.mem_append, List.map_cons, List.mem_cons] at hx
      rcases hx with hx | rfl | hx
      · exact .inl hx
      · exact .inr ⟨head_idx, .inl rfl, rfl⟩
      · cases hatr : st.atr_idx with
        | none =>
          rw [hatr] at hx
          exact absurd hx List.not_mem_nil
        | some a =>
          rw [hatr] at hx
          exact .inr ⟨a, .inr rfl, List.mem_singleton.mp hx⟩

/-- There is a graph when there is a head. -/
theorem Built.finish_isOk {nodes : List Nat} (h : g.Built nodes st) : st.finish.isOk = true ↔ ∃ i ∈ nodes, g.IsHead i := by
  have hfeatures := h.features
  rw [← h.headed]
  unfold BuildState.finish
  cases hhead : st.head_idx with
  | none => simp [Except.isOk, Except.toBool]
  | some head_idx =>
    rw [hhead] at hfeatures
    obtain ⟨feat, hfeat⟩ := Option.isSome_iff_exists.mp (hfeatures.mpr rfl)
    rw [hfeat]
    simp [Except.isOk, Except.toBool]

theorem wellFormed_iff (hbuilt : g.Built (g.order s) st) (hemits : ∀ i < g.nodes.length, g.Emits checks i)
    (h : st.finish = .ok (graph, n_feat)) :
    graph.WellFormed ↔ (∀ i < g.nodes.length, ¬g.IsRocAt i) ∧ g.OneHead ∧ g.Ordered s := by
  obtain ⟨hdeclared, hlines, houtput⟩ := finish_ok h
  have hdefined : graph.defined = st.graph.defined := by
    unfold GraphProto.defined
    rw [hdeclared, hlines]
  have hnodup : graph.defined.Nodup ↔ (∀ i < g.nodes.length, ¬g.IsRocAt i) ∧ g.OneHead := by
    rw [hdefined, hbuilt.defined_perm.nodup_iff, defined_nodup_iff (order_nodup s)]
    simp only [mem_order, OneHead]
  have hbacked : Backed graph.declared graph.lines ↔ Backed (g.extNames ++ (g.order s).flatMap g.gives) ((g.order s).flatMap g.linesAt) := by
    rw [hdeclared, hlines, hbuilt.lines]
    exact ⟨fun hb => hb.mono fun x => hbuilt.declared.mem_iff.mp, fun hb => hb.mono fun x => hbuilt.declared.mem_iff.mpr⟩
  constructor
  · rintro ⟨honce, hback⟩
    obtain ⟨hroc, hhead⟩ := hnodup.mp (List.nodup_iff_count_eq_one.mpr fun x hx => honce x (by simp [GraphProto.names, hx]))
    exact ⟨hroc, hhead, (linesAt_backed_iff hemits hroc).mp (hbacked.mp hback)⟩
  · rintro ⟨hroc, hhead, hordered⟩
    have hback : Backed graph.declared graph.lines := hbacked.mpr ((linesAt_backed_iff hemits hroc).mpr hordered)
    refine ⟨fun x hx => List.nodup_iff_count_eq_one.mp (hnodup.mpr ⟨hroc, hhead⟩) x ?_, hback⟩
    unfold GraphProto.names at hx
    rw [List.mem_append, List.mem_append] at hx
    rcases hx with (hx | hx) | hx
    · exact hx
    · exact hback.reads_mem x hx
    · rcases houtput x hx with hx | ⟨i, hi, rfl⟩
      · rw [hbuilt.output] at hx
        exact absurd hx List.not_mem_nil
      · have hmem : i ∈ g.order s := hi.elim (hbuilt.head i) (hbuilt.atr i)
        obtain ⟨op, hop, -⟩ := hemits i (mem_order.mp hmem)
        unfold GraphProto.defined
        rw [hlines, hbuilt.lines, definedBy_flatMap, List.mem_append, List.mem_flatMap]
        exact .inr ⟨i, hmem, nodeName_mem_lines hop⟩

/-- Building does not panic, and the graph, when there is one, is well formed. -/
def Meets (g : Genome) (checks : Bool) (it : Iteration) : Prop :=
  ∃ answer, g.buildOnnx checks it = some answer ∧ ∀ graph n_feat, answer = .ok (graph, n_feat) → graph.WellFormed

/-- Building meets what is expected of it in terms of the levels that the queue gives. -/
theorem meets_iff_levels : g.Meets checks it ↔
    (g.sorted it).scanned.length < g.nodes.length ∨
      (∀ i < g.nodes.length, g.Emits checks i) ∧
        ((∀ i < g.nodes.length, ¬g.IsHead i) ∨
          (∀ i < g.nodes.length, ¬g.IsRocAt i) ∧ g.OneHead ∧ g.Ordered (g.sorted it)) := by
  unfold Meets buildOnnx
  by_cases hscanned : (g.sorted it).scanned.length < g.nodes.length
  · simp [hscanned]
  simp only [hscanned, if_false, false_or]
  have hsome := @foldlM_emitNode_isSome g checks g.begin (g.order (g.sorted it))
  simp only [mem_order] at hsome
  rw [← hsome]
  cases hst : (g.order (g.sorted it)).foldlM (g.emitNode checks) g.begin with
  | none => simp
  | some st =>
    rw [hst] at hsome
    have hemits := hsome.mp rfl
    have hbuilt : g.Built (g.order (g.sorted it)) st := built_foldlM (built_begin g) hst
    have hheaded := hbuilt.finish_isOk
    simp only [mem_order] at hheaded
    simp only [Option.bind_eq_bind, Option.bind_some, Option.pure_def, Option.some.injEq, exists_eq_left', Option.isSome_some, true_and]
    cases hfinish : st.finish with
    | error e =>
      rw [hfinish] at hheaded
      refine iff_of_true nofun (.inl fun i hi hhead => ?_)
      exact absurd (hheaded.mpr ⟨i, hi, hhead⟩) Bool.false_ne_true
    | ok answer =>
      rw [hfinish] at hheaded
      obtain ⟨i, hi, hhead⟩ := hheaded.mp rfl
      obtain ⟨graph, n_feat⟩ := answer
      have hnone : ¬∀ i < g.nodes.length, ¬g.IsHead i := fun h => h i hi hhead
      rw [or_iff_right hnone, ← wellFormed_iff hbuilt hemits hfinish]
      constructor
      · exact fun h => h graph n_feat rfl
      · rintro h graph n_feat ⟨⟩
        exact h

end Genome

end Opsense
