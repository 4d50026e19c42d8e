import Opsense.Graph.Names

/-!
# What `build_onnx` has emitted

Emitting a node panics or adds the lines of its shape, whatever was emitted before (`emitNode_isSome`, `emitNode_added`), so the
graph is the lines of the nodes in the order of their levels (`Built`).
-/

namespace Opsense

namespace GraphProto

/-- The names of the inputs and of the initializers. -/
def declared (g : GraphProto) : List String := g.input.map ValueInfoProto.name ++ g.initializer.map TensorProto.name

/-- What the nodes read and define. -/
def lines (g : GraphProto) : List (Line String) := g.node.map NodeProto.line

/-- The names that are defined, as a graph input, an initializer or an output of a node. -/
def defined (g : GraphProto) : List String := g.declared ++ definedBy g.lines

/-- All the names of tensors. -/
def names (g : GraphProto) : List String := g.defined ++ g.lines.flatMap Prod.fst ++ g.output.map ValueInfoProto.name

/-- Every name is defined exactly once, and every input of a node is a graph input, an initializer or an output of a node before. -/
structure WellFormed (g : GraphProto) : Prop where
  once : ∀ x ∈ g.names, g.defined.count x = 1
  backed : Backed g.declared g.lines

end GraphProto

namespace Genome

variable (g : Genome)

/-- The operator of a node. -/
def opAt (i : Nat) : Option Op := g.nodes[i]?.bind fun node => g.ops[node.op]?

def inputsAt (i : Nat) : List In := (g.nodes[i]?.map Node.inputs).getD []

def shapeAt (i : Nat) : Shape := ((g.opAt i).map (Op.shape (g.inputsAt i).length)).getD ⟨[], []⟩

/-- The name in a node. -/
def render (i : Nat) (r : Ref) : String := r.render i ((g.inputsAt i).map In.name)

/-- The names that a node is given. -/
def gives (i : Nat) : List String := (g.shapeAt i).gives.map (g.render i)

/-- The lines of a node. -/
def linesAt (i : Nat) : List (Line String) := (g.shapeAt i).lines.map (renderLine i ((g.inputsAt i).map In.name))

def IsHead (i : Nat) : Prop := ∃ op feat, g.opAt i = some op ∧ op.headFeatures = some feat

/-- A node can be emitted: it has an operator, which has its inputs and whose numbers fit. -/
def Emits (checks : Bool) (i : Nat) : Prop :=
  ∃ op, g.opAt i = some op ∧ op.arity ≤ (g.inputsAt i).length ∧ (op.fills = true → FitsWindow g.window_size) ∧
    ∀ feat, op.headFeatures = some feat → checks = true → feat * op.headNOut < 2 ^ 64

variable {g} {checks : Bool} {st st' : BuildState} {i : Nat}

theorem isSome_mulUsize {a b : Nat} : (mulUsize checks a b).isSome = true ↔ (checks = true → a * b < 2 ^ 64) := by
  unfold mulUsize
  split
  · case isTrue h => simp_all
  · case isFalse h =>
    simp only [Option.isSome_some, true_iff]
    intro hchecks
    exact not_le.mp fun hle => h ⟨hchecks, hle⟩

theorem emitHead_isSome {feat n_out : Nat} {inputs : List String} {out : String} {graph : GraphProto} :
    (emitHead checks i feat n_out inputs out graph).isSome = true ↔ (checks = true → feat * n_out < 2 ^ 64) ∧ 1 ≤ inputs.length := by
  rw [← isSome_mulUsize]
  unfold emitHead
  cases mulUsize checks feat n_out <;> cases inputs <;> simp

theorem emitHead_added {feat n_out : Nat} {inputs : List String} {graph graph' : GraphProto}
    (h : emitHead checks i feat n_out inputs (nodeName i) graph = some graph') :
    graph'.declared.Perm (graph.declared ++ Op.headShape.gives.map (Ref.render i inputs)) ∧
      graph'.lines = graph.lines ++ Op.headShape.lines.map (renderLine i inputs) ∧ graph'.output = graph.output := by
  unfold emitHead at h
  simp only [Option.bind_eq_bind, Option.bind_eq_some_iff, Option.pure_def, Option.some.injEq] at h
  obtain ⟨len, -, features, hfeatures, rfl⟩ := h
  refine ⟨?_, ?_, rfl⟩
  · simp only [GraphProto.declared, List.map_append, List.map_cons, List.map_nil, Op.headShape, Ref.render, onnxValueInfo]
    grind
  · simp [GraphProto.lines, Op.headShape, renderLine, Line.map, Ref.render, NodeProto.line, onnxNode, List.getD, hfeatures]

theorem opAt_eq_some {op : Op} : g.opAt i = some op ↔ ∃ node, g.nodes[i]? = some node ∧ g.ops[node.op]? = some op :=
  Option.bind_eq_some_iff

theorem inputsAt_of {node : Node} (h : g.nodes[i]? = some node) : g.inputsAt i = node.inputs := by
  unfold inputsAt
  rw [h]
  rfl

theorem shapeAt_of {op : Op} (h : g.opAt i = some op) : g.shapeAt i = op.shape (g.inputsAt i).length := by
  unfold shapeAt
  rw [h]
  rfl

/-- Whether a node can be emitted does not depend on what was emitted before. -/
theorem emitNode_isSome : (g.emitNode checks st i).isSome = true ↔ g.Emits checks i := by
  unfold emitNode Emits
  cases hnode : g.nodes[i]? with
  | none => simp [opAt, hnode]
  | some node =>
    cases hop : g.ops[node.op]? with
    | none => simp [opAt, hnode, hop]
    | some op =>
      have hat : g.opAt i = some op := opAt_eq_some.mpr ⟨node, hnode, hop⟩
      have hlen : (node.inputs.map In.name).length = node.inputs.length := List.length_map _
      rw [hat, inputsAt_of hnode]
      simp only [Option.bind_eq_bind, Option.bind_some, hop, Option.some.injEq, exists_eq_left', Option.pure_def]
      cases hhead : op.headFeatures with
      | none =>
        have hsome : (op.emit g.window_size (node.inputs.map In.name) (nodeName i)).isSome = true ↔ _ := Op.emit_isSome hhead
        rw [hlen] at hsome
        rw [isSome_bind_pure, show "n" ++ Nat.repr i = nodeName i from rfl, hsome]
        simp
      | some feat =>
        have hsome : (emitHead checks i feat op.headNOut (node.inputs.map In.name) (nodeName i) st.graph).isSome = true ↔ _ :=
          emitHead_isSome
        have hhead' : op.arity = 1 ∧ op.fills = false := by
          cases op <;> simp_all [Op.headFeatures, Op.arity, Op.fills]
        rw [hlen] at hsome
        rw [isSome_bind_pure, show "n" ++ Nat.repr i = nodeName i from rfl, hsome, hhead'.1, hhead'.2]
        simp [and_comm]

/-- What one more node adds to a graph that has some nodes. -/
structure Adds (g : Genome) (st st' : BuildState) (i : Nat) : Prop where
  declared : st'.graph.declared.Perm (st.graph.declared ++ g.gives i)
  lines : st'.graph.lines = st.graph.lines ++ g.linesAt i
  output : st'.graph.output = st.graph.output
  head : g.IsHead i ∧ st'.head_idx = some i ∧ st'.n_feat.isSome = true ∨
    ¬g.IsHead i ∧ st'.head_idx = st.head_idx ∧ st'.n_feat = st.n_feat
  atr : st'.atr_idx = some i ∨ st'.atr_idx = st.atr_idx

theorem push_declared (graph : GraphProto) (e : Emission) :
    (graph.push e).declared = graph.declared ++ e.initializer.map TensorProto.name := by
  simp [GraphProto.declared, GraphProto.push]

theorem push_lines (graph : GraphProto) (e : Emission) : (graph.push e).lines = graph.lines ++ e.node.map NodeProto.line := by
  simp [GraphProto.lines, GraphProto.push]

theorem isHead_of {op : Op} (h : g.opAt i = some op) : g.IsHead i ↔ op.headFeatures.isSome = true := by
  unfold IsHead
  rw [h, Option.isSome_iff_exists]
  simp

/-- Emitting a node adds the lines of its shape. -/
theorem emitNode_added (h : g.emitNode checks st i = some st') : g.Adds st st' i := by
  unfold emitNode at h
  simp only [Option.bind_eq_bind, Option.bind_eq_some_iff, Option.pure_def] at h
  obtain ⟨node, hnode, op, hop, h⟩ := h
  have hat : g.opAt i = some op := opAt_eq_some.mpr ⟨node, hnode, hop⟩
  have hgives : g.gives i = (op.shape node.inputs.length).gives.map (Ref.render i (node.inputs.map In.name)) := by
    unfold gives render
    rw [shapeAt_of hat, inputsAt_of hnode]
  have hlines : g.linesAt i = (op.shape node.inputs.length).lines.map (renderLine i (node.inputs.map In.name)) := by
    unfold linesAt
    rw [shapeAt_of hat, inputsAt_of hnode]
  cases hhead : op.headFeatures with
  | none =>
    rw [hhead] at h
    obtain ⟨e, he, h⟩ := Option.bind_eq_some_iff.mp h
    cases h
    have hshape := Op.emit_shape hhead he
    rw [List.length_map] at hshape
    constructor
    · rw [push_declared, hgives, hshape.gives]
    · rw [push_lines, hlines, hshape.lines]
    · rfl
    · right
      rw [isHead_of hat, hhead]
      exact ⟨by simp, rfl, rfl⟩
    · dsimp only
      split
      · exact .inl rfl
      · exact .inr rfl
  | some feat =>
    rw [hhead] at h
    obtain ⟨graph, hgraph, h⟩ := Option.bind_eq_some_iff.mp h
    cases h
    have hshape : op.shape node.inputs.length = Op.headShape := by
      cases op <;> first | rfl | nomatch hhead
    obtain ⟨hdeclared, hadded, houtput⟩ := emitHead_added hgraph
    constructor
    · rw [hgives, hshape]
      exact hdeclared
    · rw [hlines, hshape]
      exact hadded
    · exact houtput
    · left
      rw [isHead_of hat, hhead]
      exact ⟨rfl, rfl, rfl⟩
    · exact .inr rfl

/-- The graph is what the nodes give and emit, and the head and the ATR are among them. -/
structure Built (g : Genome) (nodes : List Nat) (st : BuildState) : Prop where
  declared : st.graph.declared.Perm (g.extIds.map (fun k => "in" ++ Nat.repr k) ++ nodes.flatMap g.gives)
  lines : st.graph.lines = nodes.flatMap g.linesAt
  output : st.graph.output = []
  head : ∀ i, st.head_idx = some i → i ∈ nodes
  headed : st.head_idx.isSome = true ↔ ∃ i ∈ nodes, g.IsHead i
  features : st.n_feat.isSome = true ↔ st.head_idx.isSome = true
  atr : ∀ i, st.atr_idx = some i → i ∈ nodes

theorem built_begin (g : Genome) : g.Built [] g.begin where
  declared := by simp [begin, GraphProto.declared, onnxValueInfo, Function.comp_def]
  lines := rfl
  output := rfl
  head := by
    intro i h
    cases h
  headed := by simp [begin]
  features := Iff.rfl
  atr := by
    intro i h
    cases h

theorem Built.emitNode {nodes : List Nat} (h : g.Built nodes st) (hadds : g.Adds st st' i) : g.Built (nodes ++ [i]) st' where
  declared := by
    rw [List.flatMap_append, List.flatMap_singleton, ← List.append_assoc]
    exact hadds.declared.trans (h.declared.append_right _)
  lines := by rw [hadds.lines, h.lines, List.flatMap_append, List.flatMap_singleton]
  output := hadds.output.trans h.output
  head := by
    intro j hj
    rw [List.mem_append, List.mem_singleton]
    rcases hadds.head with ⟨-, hidx, -⟩ | ⟨-, hidx, -⟩
    · rw [hidx, Option.some.injEq] at hj
      exact .inr hj.symm
    · exact .inl (h.head j (hidx ▸ hj))
  headed := by
    rcases hadds.head with ⟨hhead, hidx, -⟩ | ⟨hhead, hidx, -⟩
    · rw [hidx]
      exact ⟨fun _ => ⟨i, by simp, hhead⟩, fun _ => rfl⟩
    · rw [hidx, h.headed]
      simp only [List.mem_append, List.mem_singleton]
      constructor
      · rintro ⟨j, hj, hjhead⟩
        exact ⟨j, .inl hj, hjhead⟩
      · rintro ⟨j, hj | rfl, hjhead⟩
        · exact ⟨j, hj, hjhead⟩
        · exact absurd hjhead hhead
  features := by
    rcases hadds.head with ⟨-, hidx, hfeat⟩ | ⟨-, hidx, hfeat⟩
    · rw [hidx, hfeat]
      simp
    · rw [hidx, hfeat, h.features]
  atr := by
    intro j hj
    rw [List.mem_append, List.mem_singleton]
    rcases hadds.atr with hidx | hidx
    · rw [hidx, Option.some.injEq] at hj
      exact .inr hj.symm
    · exact .inl (h.atr j (hidx ▸ hj))

/-- The nodes are all emitted when each of them can be. -/
theorem foldlM_emitNode_isSome (nodes : List Nat) :
    (nodes.foldlM (g.emitNode checks) st).isSome = true ↔ ∀ i ∈ nodes, g.Emits checks i := by
  induction nodes generalizing st with
  | nil => simp
  | cons i nodes ih =>
    rw [List.foldlM_cons, List.forall_mem_cons, ← @emitNode_isSome g checks st]
    cases g.emitNode checks st i with
    | none => simp
    | some st' =>
      rw [Option.bind_eq_bind, Option.bind_some, ih]
      simp

/-- The state after the nodes are emitted one after the other. -/
theorem built_foldlM {before nodes : List Nat} (h : g.Built before st) (hst : nodes.foldlM (g.emitNode checks) st = some st') :
    g.Built (before ++ nodes) st' := by
  induction nodes generalizing before st with
  | nil =>
    cases hst
    rwa [List.append_nil]
  | cons i nodes ih =>
    rw [List.foldlM_cons, Option.bind_eq_bind, Option.bind_eq_some_iff] at hst
    obtain ⟨st₁, hst₁, hst⟩ := hst
    have hbuilt := ih (h.emitNode (emitNode_added hst₁)) hst
    rwa [List.append_assoc, List.singleton_append] at hbuilt

end Genome

end Opsense
