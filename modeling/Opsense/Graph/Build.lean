import Opsense.Graph.Ops

/-!
# The graph of a genome

`Graph::build_onnx` of `opsense-qlib/src/graph/mod.rs`: the levels of the nodes, found with a queue in twice as many rounds as there are
nodes, and the nodes emitted in the order of their levels. The bytes that the graph is encoded to are left out. The order in which a
`HashSet` is iterated is a parameter, and whether a product that overflows panics or wraps is another one.
-/

namespace Opsense

inductive In where
  | fromExtractor (k : Nat)
  | fromOperator (k : Nat)
deriving DecidableEq

structure Genome.Node where
  op : Nat
  inputs : List In
deriving DecidableEq

/-- What `build_onnx` reads of a graph. -/
structure Genome where
  ops : List Op
  nodes : List Genome.Node
  window_size : Nat

/-- The order in which the indices of a set are iterated. -/
structure Iteration where
  iter : List Nat → List Nat
  perm : ∀ l, (iter l).Perm l

/-- The extractor of an input. -/
def In.extractor? : In → Option Nat
  | .fromExtractor k => some k
  | .fromOperator _ => none

/-- The node of an input. -/
def In.operator? : In → Option Nat
  | .fromExtractor _ => none
  | .fromOperator k => some k

/-- The nodes whose output a node reads. -/
def Genome.Node.operators (node : Genome.Node) : List Nat := node.inputs.filterMap In.operator?

namespace Genome

variable (g : Genome)

/-- The nodes that a node reads. -/
def operators (i : Nat) : List Nat := (g.nodes[i]?.map Node.operators).getD []

/-- `irefs`: the nodes that read the output of a node, once for each time they do. -/
def consumers (id : Nat) : List Nat :=
  (List.range g.nodes.length).flatMap fun i => (g.operators i).filterMap fun k => if k = id then some i else none

/-- The nodes that read an extractor. -/
def fed : List Nat := (List.range g.nodes.length).filter fun i => (g.nodes[i]?.map fun node => node.inputs.any fun x => x.extractor?.isSome).getD false

/-- The queue with the levels and the nodes that have one. -/
structure Scan where
  scanning : List Nat
  levels : Nat → Nat
  scanned : List Nat

/-- The queue at first: the consumers of the nodes that read an extractor. -/
def scan (it : Iteration) : Scan := ⟨(it.iter g.fed).flatMap g.consumers, fun _ => 0, g.fed⟩

/-- One round. -/
def Scan.round (s : Scan) : Scan :=
  match s.scanning with
  | [] => s
  | inode :: scanning =>
    if (g.operators inode).any fun iref => iref ∉ s.scanned then { s with scanning := scanning }
    else
      { scanning := scanning ++ g.consumers inode
        levels := Function.update s.levels inode (1 + ((g.operators inode).map s.levels).foldr max 0)
        scanned := if inode ∈ s.scanned then s.scanned else inode :: s.scanned }

/-- The levels after all the rounds. -/
def sorted (it : Iteration) : Scan := (Scan.round g)^[2 * g.nodes.length] (g.scan it)

/-- The node is emitted no later than the other: it has a lower level, or no lower an index on the same level. -/
def Scan.Le (s : Scan) (i j : Nat) : Prop := s.levels i < s.levels j ∨ s.levels i = s.levels j ∧ j ≤ i

instance decidableLe (s : Scan) (i j : Nat) : Decidable (s.Le i j) := inferInstanceAs (Decidable (_ ∨ _))

/-- The order in which the heap gives the nodes. -/
def order (s : Scan) : List Nat := (List.range g.nodes.length).insertionSort s.Le

/-- The extractors that are read, in ascending order. -/
def extIds : List Nat := (g.nodes.flatMap fun node => node.inputs.filterMap In.extractor?).dedup.insertionSort (· ≤ ·)

end Genome

/-- The name of an input. -/
def In.name : In → String
  | .fromExtractor k => "in" ++ Nat.repr k
  | .fromOperator k => "n" ++ Nat.repr k

/-- The graph as far as it is emitted, with the head and the ATR that were met last. -/
structure BuildState where
  graph : GraphProto
  head_idx : Option Nat
  head_n_out : Nat
  atr_idx : Option Nat
  n_feat : Option Nat

/-- A product of words, which panics when overflow is checked. -/
def mulUsize (checks : Bool) (a b : Nat) : Option Nat :=
  if checks ∧ 2 ^ 64 ≤ a * b then none else some (a * b % 2 ^ 64)

/-- What is pushed for a head. -/
def emitHead (checks : Bool) (i feat n_out : Nat) (inputs : List String) (out : String) (graph : GraphProto) : Option GraphProto := do
  let len ← mulUsize checks feat n_out
  let features ← inputs[0]?
  return {
    graph with
    initializer := graph.initializer ++ [⟨"rsh_" ++ Nat.repr i, [2], .int64 [asI64 feat, asI64 n_out]⟩]
    input := graph.input ++ [onnxValueInfo "W_pred_flat" 1 (asI64 len), onnxValueInfo "B_pred" 1 (asI64 n_out)]
    node := graph.node ++ [onnxNode "Reshape" "w_reshape" ["W_pred_flat", "rsh_" ++ Nat.repr i] ["W_pred"],
      onnxNode "MatMul" "pred_matmul" [features, "W_pred"] ["dot"], onnxNode "Add" "pred_add" ["dot", "B_pred"] ["biased"],
      onnxNode "Sigmoid" "pred_sigmoid" ["biased"] [out]] }

/-- Emit one node. -/
def Genome.emitNode (g : Genome) (checks : Bool) (st : BuildState) (i : Nat) : Option BuildState := do
  let node ← g.nodes[i]?
  let out := "n" ++ Nat.repr i
  let inputs := node.inputs.map In.name
  let op ← g.ops[node.op]?
  match op.headFeatures with
  | some feat =>
    let graph ← emitHead checks i feat op.headNOut inputs out st.graph
    return { st with graph := graph, head_idx := some i, head_n_out := op.headNOut, n_feat := some feat }
  | none =>
    let e ← op.emit g.window_size inputs out
    return { st with graph := st.graph.push e, atr_idx := if op.isAtr then some i else st.atr_idx }

/-- The state before the first node is emitted. -/
def Genome.begin (g : Genome) : BuildState where
  graph := ⟨[], [], g.extIds.map fun k => onnxValueInfo ("in" ++ Nat.repr k) 1 (asI64 g.window_size), []⟩
  head_idx := none
  head_n_out := 0
  atr_idx := none
  n_feat := none

/-- The outputs of a graph, once all its nodes are emitted. -/
def BuildState.finish (st : BuildState) : Except String (GraphProto × Nat) :=
  match st.head_idx, st.n_feat with
  | some head_idx, some n_feat =>
    let head := onnxValueInfo ("n" ++ Nat.repr head_idx) 1 (asI64 st.head_n_out)
    let atr := (st.atr_idx.map fun a => onnxValueInfo ("n" ++ Nat.repr a) 1 1).toList
    .ok ({ st.graph with output := st.graph.output ++ head :: atr }, n_feat)
  | none, _ => .error "genome thiếu node Head (output grid_params) → không thể setup"
  | _, none => .error "genome thiếu node Head"

def Genome.buildOnnx (g : Genome) (checks : Bool) (it : Iteration) : Option (Except String (GraphProto × Nat)) :=
  let s := g.sorted it
  if s.scanned.length < g.nodes.length then some (.error "genome có chu trình (cycle) → không phải DAG hợp lệ")
  else do
    let st ← (g.order s).foldlM (g.emitNode checks) g.begin
    return st.finish

end Opsense
