import Opsense.Graph.WellFormed
import Opsense.Kernel.Grid

/-!
# The tensors of a genome

`Graph::rebuild` of `opsense-qlib/src/graph/mod.rs` as far as the call of the model: the tensors are all the columns of the extractors,
the weights and the bias, and `infer` passes them by position. `build_onnx` declares the extractors that the wiring reads, in ascending
order, and two inputs for each head. These are the same exactly if the wiring reads every column and there is one head, with as many
outputs as grids (`binding_iff`).
-/

namespace Opsense

/-- Feature vectors of candles. -/
abbrev Extractor (F : Type) := List (CandleStick F) → Except String (List (List F))

/-- What `rebuild` reads of a graph without prebuilt bytes. -/
structure Graph (F : Type) where
  genome : Genome
  extractors : List (Extractor F)
  inited_bias : List F
  inited_weights : List F
  num_of_grids : Nat

/-- The number of features and of outputs of a head. -/
def Op.head? (op : Op) : Option (Nat × Nat) := op.headFeatures.map fun feat => (feat, op.headNOut)

/-- The heads, in the order of the nodes. -/
def Genome.heads (g : Genome) : List (Nat × Nat) := g.nodes.filterMap fun node => (g.ops[node.op]?).bind Op.head?

/-- `head_features`, of a genome whose nodes have operators. -/
def Genome.headFeatures (g : Genome) : Option Nat := g.heads.head?.map Prod.fst

namespace Graph

variable {F : Type} [Scalar F]

def finiteOr (v default : F) : F := if Scalar.isFinite v then v else default

/-- A vector of a number of `f64`, which panics when its bytes are more than `isize::MAX`. -/
def collect (n : Nat) (f : Nat → F) : Option (List F) := if 8 * n < 2 ^ 63 then some ((List.range n).map f) else none

/-- The columns of all the extractors. -/
def columns (gr : Graph F) (candles : List (CandleStick F)) : Except String (List (List F)) :=
  (gr.extractors.mapM fun (extractor : Extractor F) => extractor candles).map List.flatten

/-- The columns with the weights and the bias. `narrow` is the conversion to `f32`. -/
def tensors (gr : Graph F) (narrow : F → F) (param : Nat → F) (w_len : Nat) (columns : List (List F)) : Option (List (List F)) := do
  let weights ← collect w_len fun i => finiteOr (param (6 + i)) (gr.inited_weights.getD i 0.0)
  let bias ← collect gr.num_of_grids fun i => finiteOr (param (6 + w_len + i)) (gr.inited_bias.getD i 0.0)
  return (columns ++ [weights, bias]).map (List.map narrow)

/-- The number of features that `model` gives: that of the first head when the model is cached, and otherwise the one that was built
last. -/
def features (gr : Graph F) (cached : Bool) (built : Nat) : Option Nat := if cached then gr.genome.headFeatures else some built

/-- What `rebuild` passes to the model of an accepted genome. -/
def passed (gr : Graph F) (checks cached : Bool) (narrow : F → F) (param : Nat → F) (built : Nat) (candles : List (CandleStick F)) :
    Option (Except String (List (List F))) := do
  let n_feat ← gr.features cached built
  let w_len ← mulUsize checks n_feat gr.num_of_grids
  match gr.columns candles with
  | .error e => some (.error e)
  | .ok columns => (gr.tensors narrow param w_len columns).map .ok

/-- The tensors are what a graph declares: as many, every column under the name of its extractor, and the last two with their names
and lengths. -/
structure Bound (graph : GraphProto) (narrow : F → F) (columns tensors : List (List F)) : Prop where
  count : tensors.length = graph.input.length
  column : ∀ k < columns.length, graph.input[k]?.map ValueInfoProto.name = some ("in" ++ Nat.repr k) ∧
    tensors[k]? = columns[k]?.map (List.map narrow)
  weights : ∃ w, tensors[columns.length]? = some w ∧ graph.input[columns.length]? = some (onnxValueInfo "W_pred_flat" 1 w.length)
  bias : ∃ b, tensors[columns.length + 1]? = some b ∧ graph.input[columns.length + 1]? = some (onnxValueInfo "B_pred" 1 b.length)

/-- The weights and the bias fit in vectors. -/
def Fits (checks : Bool) (feat n_out : Nat) : Prop :=
  (∃ len, mulUsize checks feat n_out = some len ∧ 8 * len < 2 ^ 63) ∧ 8 * n_out < 2 ^ 63

end Graph

namespace Genome

variable {g : Genome} {checks : Bool} {it : Iteration} {st st' : BuildState} {i : Nat}

/-- The head at a node. -/
def headAt (g : Genome) (i : Nat) : Option (Nat × Nat) := (g.opAt i).bind Op.head?

/-- The inputs that are declared for a head. -/
def headInputs (checks : Bool) (head : Nat × Nat) : List ValueInfoProto :=
  [onnxValueInfo "W_pred_flat" 1 (asI64 ((mulUsize checks head.1 head.2).getD 0)), onnxValueInfo "B_pred" 1 (asI64 head.2)]

/-- A node declares inputs when it is a head. -/
theorem emitNode_input (h : g.emitNode checks st i = some st') :
    st'.graph.input = st.graph.input ++ (g.headAt i).toList.flatMap (headInputs checks) ∧
      st'.n_feat = ((g.headAt i).map Prod.fst).or st.n_feat := by
  unfold emitNode at h
  simp only [Option.bind_eq_bind, Option.bind_eq_some_iff, Option.pure_def] at h
  obtain ⟨node, hnode, op, hop, h⟩ := h
  have hat : g.opAt i = some op := opAt_eq_some.mpr ⟨node, hnode, hop⟩
  unfold headAt
  rw [hat, Option.bind_some]
  cases hhead : op.headFeatures with
  | none =>
    rw [hhead] at h
    obtain ⟨e, -, h⟩ := Option.bind_eq_some_iff.mp h
    cases h
    simp [Op.head?, hhead, GraphProto.push]
  | some feat =>
    rw [hhead] at h
    obtain ⟨graph, hgraph, h⟩ := Option.bind_eq_some_iff.mp h
    cases h
    unfold emitHead at hgraph
    simp only [Option.bind_eq_bind, Option.bind_eq_some_iff, Option.pure_def, Option.some.injEq] at hgraph
    obtain ⟨len, hlen, features, -, rfl⟩ := hgraph
    simp [Op.head?, hhead, headInputs, hlen]

/-- The inputs of the nodes are those of the heads among them, in their order. -/
theorem foldlM_emitNode_input {nodes : List Nat} (h : nodes.foldlM (g.emitNode checks) st = some st') :
    st'.graph.input = st.graph.input ++ (nodes.filterMap g.headAt).flatMap (headInputs checks) ∧
      st'.n_feat = ((nodes.filterMap g.headAt).getLast?.map Prod.fst).or st.n_feat := by
  induction nodes generalizing st with
  | nil =>
    cases h
    simp
  | cons i nodes ih =>
    rw [List.foldlM_cons, Option.bind_eq_bind, Option.bind_eq_some_iff] at h
    obtain ⟨st₁, hst₁, h⟩ := h
    obtain ⟨hinput₁, hfeat₁⟩ := emitNode_input hst₁
    obtain ⟨hinput, hfeat⟩ := ih h
    rw [hinput, hfeat, hinput₁, hfeat₁]
    cases hhead : g.headAt i with
    | none => simp [List.filterMap_cons_none hhead]
    | some head =>
      rw [List.filterMap_cons_some hhead]
      refine ⟨by simp, ?_⟩
      rw [List.getLast?_cons]
      cases (nodes.filterMap g.headAt).getLast? <;> simp

theorem filterMap_range {A B : Type} (f : A → Option B) (l : List A) :
    (List.range l.length).filterMap (fun i => l[i]?.bind f) = l.filterMap f := by
  induction l with
  | nil => rfl
  | cons x l ih =>
    rw [List.length_cons, List.range_succ_eq_map, List.filterMap_cons, List.filterMap_cons, List.filterMap_map, ← ih]
    rfl

/-- The heads in the order in which they are emitted. -/
theorem heads_perm (s : Scan) : ((g.order s).filterMap g.headAt).Perm g.heads := by
  have hnodes : g.headAt = fun i => g.nodes[i]?.bind fun node => (g.ops[node.op]?).bind Op.head? := by
    funext i
    unfold headAt opAt
    rw [Option.bind_assoc]
  have hrange : (List.range g.nodes.length).filterMap g.headAt = g.heads := by
    rw [hnodes]
    exact filterMap_range _ _
  rw [← hrange]
  exact (order_perm s).filterMap g.headAt

theorem finish_input {graph : GraphProto} {n_feat : Nat} (h : st.finish = .ok (graph, n_feat)) :
    graph.input = st.graph.input ∧ st.n_feat = some n_feat := by
  unfold BuildState.finish at h
  cases hidx : st.head_idx with
  | none =>
    rw [hidx] at h
    cases h
  | some head_idx =>
    cases hfeat : st.n_feat with
    | none =>
      rw [hidx, hfeat] at h
      cases h
    | some feat =>
      rw [hidx, hfeat] at h
      cases h
      exact ⟨rfl, rfl⟩

/-- What an accepted genome declares. -/
theorem buildOnnx_input {graph : GraphProto} {n_feat : Nat} (h : g.buildOnnx checks it = some (.ok (graph, n_feat))) :
    ∃ heads : List (Nat × Nat), heads.Perm g.heads ∧ heads.getLast?.map Prod.fst = some n_feat ∧
      graph.input = (g.extIds.map fun k => onnxValueInfo ("in" ++ Nat.repr k) 1 (asI64 g.window_size)) ++
        heads.flatMap (headInputs checks) := by
  unfold buildOnnx at h
  dsimp only at h
  split_ifs at h
  · cases h
  obtain ⟨st, hst, h⟩ := Option.bind_eq_some_iff.mp h
  obtain ⟨hinput, hfeat⟩ := foldlM_emitNode_input hst
  obtain ⟨hgraph, hfinish⟩ := finish_input (Option.some.inj h)
  have hnone : g.begin.n_feat = none := rfl
  rw [hnone, Option.or_none] at hfeat
  exact ⟨_, heads_perm (g.sorted it), hfeat.symm.trans hfinish, hgraph.trans hinput⟩

end Genome

namespace Graph

open Genome

variable {F : Type} [Scalar F]

omit [Scalar F] in
theorem collect_length {n : Nat} {f : Nat → F} {v : List F} (h : collect n f = some v) : v.length = n ∧ 8 * n < 2 ^ 63 := by
  unfold collect at h
  split_ifs at h with hfits
  rw [← Option.some.inj h]
  exact ⟨by simp, hfits⟩

variable {narrow : F → F}

/-- The tensors are the columns, and two vectors of the lengths that the number of grids gives. -/
theorem passed_eq {gr : Graph F} {checks cached : Bool} {param : Nat → F} {built : Nat} {candles : List (CandleStick F)}
    {columns tensors : List (List F)} (hcolumns : gr.columns candles = .ok columns)
    (h : gr.passed checks cached narrow param built candles = some (.ok tensors)) :
    ∃ (n_feat : Nat) (weights bias : List F), gr.features cached built = some n_feat ∧
      tensors = columns.map (List.map narrow) ++ [weights, bias] ∧ mulUsize checks n_feat gr.num_of_grids = some weights.length ∧
        bias.length = gr.num_of_grids ∧ 8 * weights.length < 2 ^ 63 ∧ 8 * bias.length < 2 ^ 63 := by
  unfold passed at h
  obtain ⟨n_feat, hfeat, h⟩ := Option.bind_eq_some_iff.mp h
  obtain ⟨w_len, hlen, h⟩ := Option.bind_eq_some_iff.mp h
  rw [hcolumns] at h
  obtain ⟨t, ht, heq⟩ := Option.map_eq_some_iff.mp h
  cases heq
  unfold Graph.tensors at ht
  simp only [Option.bind_eq_bind, Option.bind_eq_some_iff, Option.pure_def, Option.some.injEq] at ht
  obtain ⟨weights, hweights, bias, hbias, rfl⟩ := ht
  obtain ⟨hw, hwfits⟩ := collect_length hweights
  obtain ⟨hb, hbfits⟩ := collect_length hbias
  exact ⟨n_feat, weights.map narrow, bias.map narrow, hfeat, by simp, by simp [hlen, hw], by simp [hb], by simpa [hw] using hwfits,
    by simpa [hb] using hbfits⟩

theorem passed_isSome {gr : Graph F} {checks cached : Bool} {param : Nat → F} {built n_feat : Nat} {candles : List (CandleStick F)}
    {columns : List (List F)} (hcolumns : gr.columns candles = .ok columns) (hfeat : gr.features cached built = some n_feat)
    (h : Fits checks n_feat gr.num_of_grids) :
    ∃ tensors, gr.passed checks cached narrow param built candles = some (.ok tensors) := by
  obtain ⟨⟨len, hlen, hweights⟩, hbias⟩ := h
  unfold passed Graph.tensors
  rw [hfeat, hcolumns]
  simp only [Option.bind_eq_bind, Option.bind_some, hlen, collect, if_pos hweights, if_pos hbias]
  exact ⟨_, rfl⟩

/-- The tensors that `rebuild` passes are what the graph declares. -/
def Binds (gr : Graph F) (checks cached : Bool) (narrow : F → F) (param : Nat → F) (graph : GraphProto) (built : Nat)
    (candles : List (CandleStick F)) (columns : List (List F)) : Prop :=
  ∃ tensors, gr.passed checks cached narrow param built candles = some (.ok tensors) ∧ Bound graph narrow columns tensors

theorem in_ne_weights (k : Nat) : "in" ++ Nat.repr k ≠ "W_pred_flat" := by
  intro h
  have hchars := congrArg String.toList h
  simp at hchars

/-- No fewer extractors are declared than there are columns, where the columns are declared under their names. -/
theorem columns_le {ids : List Nat} {dim : Int} {checks : Bool} {heads : List (Nat × Nat)} {n : Nat} (hheads : heads ≠ [])
    (h : ∀ k < n, ((ids.map fun k => onnxValueInfo ("in" ++ Nat.repr k) 1 dim) ++ heads.flatMap (headInputs checks))[k]?.map
      ValueInfoProto.name = some ("in" ++ Nat.repr k)) : n ≤ ids.length := by
  by_contra hlt
  obtain ⟨head, heads, rfl⟩ := List.exists_cons_of_ne_nil hheads
  have hfirst := h ids.length (by omega)
  rw [List.getElem?_append_right (by simp)] at hfirst
  simp only [List.length_map, Nat.sub_self, List.flatMap_cons, headInputs, List.cons_append, List.getElem?_cons_zero,
    Option.map_some, Option.some.injEq, onnxValueInfo] at hfirst
  exact in_ne_weights _ hfirst.symm

/-- Extractors that are declared under the names of the columns are all the columns. -/
theorem ids_eq_range {ids : List Nat} {dim : Int} {rest : List ValueInfoProto}
    (h : ∀ k < ids.length, ((ids.map fun k => onnxValueInfo ("in" ++ Nat.repr k) 1 dim) ++ rest)[k]?.map ValueInfoProto.name =
      some ("in" ++ Nat.repr k)) : ids = List.range ids.length := by
  refine List.ext_getElem (by simp) fun k hk _ => ?_
  have hname := h k hk
  rw [List.getElem?_append_left (by simpa using hk)] at hname
  simp only [List.getElem?_map, List.getElem?_eq_getElem hk, Option.map_some, Option.some.injEq, onnxValueInfo,
    String.append_right_inj] at hname
  rw [List.getElem_range]
  exact Nat.repr_injective hname

theorem asI64_eq_natCast {n m : Nat} (hn : n < 2 ^ 64) (h : asI64 n = m) : n = m := by
  rcases Nat.lt_or_ge n (2 ^ 63) with hlt | hge
  · rw [asI64_of_lt hlt] at h
    exact_mod_cast h
  · have hneg := asI64_neg hge hn
    omega

theorem length_headInputs (checks : Bool) (heads : List (Nat × Nat)) :
    (heads.flatMap (headInputs checks)).length = 2 * heads.length := by
  induction heads with
  | nil => rfl
  | cons head heads ih =>
    rw [List.flatMap_cons, List.length_append, ih, List.length_cons]
    simp only [headInputs, List.length_cons, List.length_nil]
    omega

omit [Scalar F] in
/-- Where the tensors are what is declared, there is one head, and the extractors are the columns. -/
theorem whole_of_bound {ids : List Nat} {dim : Int} {checks : Bool} {heads : List (Nat × Nat)} {graph : GraphProto}
    {columns : List (List F)} {weights bias : List F} (hne : heads ≠ [])
    (hinput : graph.input = (ids.map fun k => onnxValueInfo ("in" ++ Nat.repr k) 1 dim) ++ heads.flatMap (headInputs checks))
    (h : Bound graph narrow columns (columns.map (List.map narrow) ++ [weights, bias])) :
    ∃ head, heads = [head] ∧ ids = List.range columns.length ∧ asI64 head.2 = bias.length := by
  have hnames : ∀ k < columns.length, graph.input[k]?.map ValueInfoProto.name = some ("in" ++ Nat.repr k) :=
    fun k hk => (h.column k hk).1
  have hcount := h.count
  rw [hinput] at hnames hcount
  have hle := columns_le hne hnames
  have hpos := List.length_pos_of_ne_nil hne
  simp only [List.length_append, List.length_map, List.length_cons, List.length_nil, length_headInputs] at hcount
  -- two inputs for each head, of which there is one at least, leave no more than one, and as many extractors as columns
  obtain ⟨head, rfl⟩ := List.length_eq_one_iff.mp (show heads.length = 1 by omega)
  have hsame : ids.length = columns.length := by omega
  refine ⟨head, rfl, ?_, ?_⟩
  · rw [← hsame] at hnames ⊢
    exact ids_eq_range hnames
  · obtain ⟨b, hb, hdeclared⟩ := h.bias
    rw [List.getElem?_append_right (by simp)] at hb
    rw [hinput, List.getElem?_append_right (by simp [hsame])] at hdeclared
    simp [hsame, headInputs, onnxValueInfo] at hb hdeclared
    rw [hdeclared, hb]

omit [Scalar F] in
/-- A genome with one head has its number of features, cached or not. -/
theorem features_eq {gr : Graph F} {cached : Bool} {head : Nat × Nat} (h : gr.genome.heads = [head]) :
    gr.features cached head.1 = some head.1 := by
  unfold features Genome.headFeatures
  rw [h]
  cases cached <;> rfl

omit [Scalar F] in
/-- The tensors are what is declared when the wiring reads every column and there is one head, with as many outputs as grids. -/
theorem bound_of_whole {graph : GraphProto} {checks : Bool} {dim : Int} {feat : Nat} {columns : List (List F)} {weights bias : List F}
    (hinput : graph.input = ((List.range columns.length).map fun k => onnxValueInfo ("in" ++ Nat.repr k) 1 dim) ++ headInputs checks (feat, bias.length))
    (hlen : mulUsize checks feat bias.length = some weights.length) (hweights : weights.length < 2 ^ 63) (hbias : bias.length < 2 ^ 63) :
    Bound graph narrow columns (columns.map (List.map narrow) ++ [weights, bias]) := by
  unfold headInputs at hinput
  rw [hlen, Option.getD_some, asI64_of_lt hweights, asI64_of_lt hbias] at hinput
  constructor
  · rw [hinput]
    simp
  · intro k hk
    rw [hinput, List.getElem?_append_left (by simpa using hk), List.getElem?_append_left (by simpa using hk)]
    simp [onnxValueInfo, hk]
  · exact ⟨weights, by simp, by rw [hinput]; simp⟩
  · refine ⟨bias, ?_, ?_⟩
    · rw [List.getElem?_append_right (by simp)]
      simp
    · rw [hinput, List.getElem?_append_right (by simp)]
      simp

/-- The tensors that are passed are what is declared, exactly if the wiring reads every column, and there is one head, with as many
outputs as grids, whose weights fit. -/
theorem binding_iff {gr : Graph F} (hwords : ∀ head ∈ gr.genome.heads, head.2 < 2 ^ 64) {checks cached : Bool} {it : Iteration}
    {graph : GraphProto} {built : Nat} (hbuild : gr.genome.buildOnnx checks it = some (.ok (graph, built)))
    {candles : List (CandleStick F)} {columns : List (List F)} (hcolumns : gr.columns candles = .ok columns) (narrow : F → F)
    (param : Nat → F) : gr.Binds checks cached narrow param graph built candles columns ↔
      gr.genome.extIds = List.range columns.length ∧
        ∃ feat, gr.genome.heads = [(feat, gr.num_of_grids)] ∧ Fits checks feat gr.num_of_grids := by
  obtain ⟨heads, hperm, hlast, hinput⟩ := buildOnnx_input hbuild
  constructor
  · rintro ⟨tensors, hpassed, hbound⟩
    obtain ⟨n_feat, weights, bias, hfeat, rfl, hlen, hbias, hwfits, hbfits⟩ := passed_eq hcolumns hpassed
    have hne : heads ≠ [] := by
      rintro rfl
      cases hlast
    obtain ⟨head, rfl, hids, hdim⟩ := whole_of_bound hne hinput hbound
    have hheads : gr.genome.heads = [head] := List.perm_singleton.mp hperm.symm
    obtain rfl : head.1 = built := Option.some.inj hlast
    rw [features_eq hheads, Option.some.injEq] at hfeat
    subst hfeat
    have hout : head.2 = gr.num_of_grids := (asI64_eq_natCast (hwords head (by simp [hheads])) hdim).trans hbias
    exact ⟨hids, head.1, by rw [hheads, ← hout], ⟨weights.length, hlen, hwfits⟩, hbias ▸ hbfits⟩
  · rintro ⟨hids, feat, hheads, hfits⟩
    rw [hheads] at hperm
    obtain rfl := List.perm_singleton.mp hperm
    obtain rfl : feat = built := Option.some.inj hlast
    have hfeat : gr.features cached feat = some feat := features_eq hheads
    obtain ⟨tensors, hpassed⟩ : ∃ tensors, gr.passed checks cached narrow param feat candles = some (.ok tensors) :=
      passed_isSome hcolumns hfeat hfits
    obtain ⟨n_feat, weights, bias, hfeat', rfl, hlen, hbias, hwfits, hbfits⟩ := passed_eq hcolumns hpassed
    rw [hfeat, Option.some.injEq] at hfeat'
    subst hfeat'
    rw [hids, ← hbias] at hinput
    rw [← hbias] at hlen
    rw [List.flatMap_singleton] at hinput
    exact ⟨_, hpassed, bound_of_whole hinput hlen (by omega) (by omega)⟩

/-- The last close, and a head that reads it, on an extractor with so many columns of one candle. -/
def lastClose (n : Nat) : Graph ℚ where
  genome := ⟨[.last, .head 1 1], [⟨0, [.fromExtractor 0]⟩, ⟨1, [.fromOperator 0]⟩], 1⟩
  extractors := [fun _ => .ok (List.replicate n [100])]
  inited_bias := [0]
  inited_weights := [1]
  num_of_grids := 1

def inOrder : Iteration := ⟨id, fun l => .refl l⟩

theorem lastClose_built (n : Nat) : ∃ graph built, (lastClose n).genome.buildOnnx true inOrder = some (.ok (graph, built)) := by
  have hok : (((lastClose n).genome.buildOnnx true inOrder).bind Except.toOption).isSome = true := by
    change (((lastClose 0).genome.buildOnnx true inOrder).bind Except.toOption).isSome = true
    decide +kernel
  obtain ⟨⟨graph, built⟩, h⟩ := Option.isSome_iff_exists.mp hok
  obtain ⟨answer, hanswer, hto⟩ := Option.bind_eq_some_iff.mp h
  cases answer with
  | error e => cases hto
  | ok p =>
    cases hto
    exact ⟨graph, built, hanswer⟩

theorem lastClose_columns (n : Nat) : (lastClose n).columns [] = .ok (List.replicate n [100]) := by
  unfold columns lastClose
  simp [List.mapM_cons, Except.map]

theorem binding_iff_lastClose : ∃ graph built, (lastClose 1).genome.buildOnnx true inOrder = some (.ok (graph, built)) ∧
    ((lastClose 1).Binds true false id (fun _ => 0) graph built [] [[100]] ↔
      (lastClose 1).genome.extIds = List.range [[(100 : ℚ)]].length ∧
        ∃ feat, (lastClose 1).genome.heads = [(feat, (lastClose 1).num_of_grids)] ∧ Fits true feat (lastClose 1).num_of_grids) := by
  obtain ⟨graph, built, hbuild⟩ := lastClose_built 1
  exact ⟨graph, built, hbuild, binding_iff (by decide) hbuild (lastClose_columns 1) id fun _ => 0⟩

/-- With four columns, of which the wiring reads one, six tensors are passed where three are declared. -/
theorem columns_not_declared : ∃ graph built, (lastClose 4).genome.buildOnnx true inOrder = some (.ok (graph, built)) ∧
    graph.input.map ValueInfoProto.name = ["in0", "W_pred_flat", "B_pred"] ∧
      (∃ tensors, (lastClose 4).passed true false id (fun _ => 0) built [] = some (.ok tensors) ∧ tensors.length = 6) ∧
        ¬(lastClose 4).Binds true false id (fun _ => 0) graph built [] [[100], [100], [100], [100]] := by
  obtain ⟨graph, built, hbuild⟩ := lastClose_built 4
  obtain ⟨heads, hperm, hlast, hinput⟩ := buildOnnx_input hbuild
  have hheads : (lastClose 4).genome.heads = [(1, 1)] := by decide
  have hids : (lastClose 4).genome.extIds = [0] := by decide
  rw [hheads] at hperm
  obtain rfl := List.perm_singleton.mp hperm
  rw [hids] at hinput
  have hfeat : (lastClose 4).features false 1 = some 1 := rfl
  obtain rfl : 1 = built := Option.some.inj hlast
  obtain ⟨tensors, hpassed⟩ : ∃ tensors, (lastClose 4).passed true false id (fun _ => 0) 1 [] = some (.ok tensors) :=
    passed_isSome (lastClose_columns 4) hfeat ⟨⟨1, rfl, by norm_num⟩, by norm_num [lastClose]⟩
  obtain ⟨n_feat, weights, bias, -, htensors, -⟩ := passed_eq (lastClose_columns 4) hpassed
  have hlength : tensors.length = 6 := by
    rw [htensors]
    simp
  refine ⟨graph, 1, hbuild, ?_, ⟨tensors, hpassed, hlength⟩, ?_⟩
  · rw [hinput]
    rfl
  · rintro ⟨t, ht, hbound⟩
    rw [hpassed] at ht
    cases ht
    have hcount := hbound.count
    rw [hinput, hlength] at hcount
    exact absurd hcount (by simp [headInputs])

end Graph

end Opsense
