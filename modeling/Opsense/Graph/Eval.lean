import Opsense.Graph.Names
import Opsense.Lib.Tensor

/-!
# What an emitted graph computes

The nodes that an operator emits, run one after the other with the standard meaning of ONNX and exact arithmetic. The names of a node
differ from each other and from those of its inputs, so each node finds what was bound to its inputs (`lookup_bind`).
-/

namespace Opsense

/-- The tensors that names are bound to. -/
abbrev Bindings := String → Option (Tensor ℚ)

/-- The tensor of an initializer. -/
def TensorProto.tensor (t : TensorProto) : Option (Tensor ℚ) :=
  match t.dims, t.data with
  | [rows, cols], .float data => Tensor.ofData rows.toNat cols.toNat data
  | _, _ => none

/-- The operators of ONNX on two tensors. -/
def onnxBinary (op_type : String) (a b : Tensor ℚ) : Option (Tensor ℚ) :=
  match op_type with
  | "MatMul" => a.matMul b
  | "Add" => Tensor.zip (· + ·) a b
  | "Sub" => Tensor.zip (· - ·) a b
  | "Mul" => Tensor.zip (· * ·) a b
  | "Div" => a.div b
  | "Max" => Tensor.zip max a b
  | _ => none

/-- The operators of ONNX on one tensor. -/
def onnxUnary (op_type : String) (attributes : List AttributeProto) (a : Tensor ℚ) : Option (Tensor ℚ) :=
  match op_type, attributes with
  | "Abs", [] => some (a.map abs)
  | "Neg", [] => some (a.map Neg.neg)
  | "ReduceMax", [.ints "axes" [1], .int "keepdims" 1] => a.reduce List.max?
  | "ReduceMin", [.ints "axes" [1], .int "keepdims" 1] => a.reduce List.min?
  | _, _ => none

def NodeProto.eval (n : NodeProto) (env : Bindings) : Option (Tensor ℚ) :=
  match n.input.mapM env with
  | some [a] => onnxUnary n.op_type n.attributes a
  | some [a, b] => onnxBinary n.op_type a b
  | _ => none

/-- A node is run: its output is bound to what it computes. -/
def NodeProto.run (env : Bindings) (n : NodeProto) : Option Bindings := do
  let t ← n.eval env
  match n.output with
  | [out] => return Function.update env out (some t)
  | _ => none

/-- The initializers are bound, the nodes are run, and the output is read. -/
def Emission.run (e : Emission) (env : Bindings) (out : String) : Option (Tensor ℚ) := do
  let env := e.initializer.foldl (fun env t => Function.update env t.name t.tensor) env
  let env ← e.node.foldlM NodeProto.run env
  env out

/-! ## Names -/

variable {i : Nat} {env : Bindings}

theorem plain_ne_aux {x tag out : String} (hx : '_' ∉ x.toList) (htag : '_' ∈ tag.toList) : x ≠ tag ++ out := by
  rintro rfl
  refine hx ?_
  rw [String.toList_append]
  exact List.mem_append_left _ htag

theorem In.name_plain (x : In) : '_' ∉ x.name.toList := by
  cases x <;>
  · unfold In.name
    rw [String.toList_append, List.mem_append, not_or]
    exact ⟨by decide, notMem_repr (by decide)⟩

/-- The names of a node, each a tag before the name of its output, over other names. -/
def bindOwn (env : Bindings) (out : String) (own : List (String × Tensor ℚ)) : Bindings :=
  own.foldr (fun p env => Function.update env (p.1 ++ out) (some p.2)) env

section

variable {out op_type name a b tag : String} {own : List (String × Tensor ℚ)} {s t u : Tensor ℚ}

theorem bindOwn_cons : bindOwn env out ((tag, t) :: own) = Function.update (bindOwn env out own) (tag ++ out) (some t) := rfl

/-- A node finds the last tensor that its own name was bound to. -/
theorem bindOwn_own (h : own.lookup tag = some t) : bindOwn env out own (tag ++ out) = some t := by
  induction own with
  | nil => cases h
  | cons p own ih =>
    unfold bindOwn
    rw [List.foldr_cons]
    by_cases htag : tag = p.1
    · subst htag
      rw [List.lookup_cons, beq_self_eq_true] at h
      rw [Function.update_self]
      exact h
    · rw [List.lookup_cons, beq_false_of_ne htag] at h
      rw [Function.update_of_ne ((String.append_left_inj out).not.mpr htag)]
      exact ih h

/-- The names of the inputs are bound to what they were. -/
theorem bindOwn_plain (own : List (String × Tensor ℚ)) {x : String} (hx : '_' ∉ x.toList) (h : ∀ p ∈ own, '_' ∈ p.1.toList) : bindOwn env out own x = env x := by
  induction own with
  | nil => rfl
  | cons p own ih =>
    rw [List.forall_mem_cons] at h
    unfold bindOwn
    rw [List.foldr_cons, Function.update_of_ne (plain_ne_aux hx h.1)]
    exact ih h.2

theorem run_binary (ha : bindOwn env out own a = some s) (hb : bindOwn env out own b = some t) (h : onnxBinary op_type s t = some u) :
    (onnxNode op_type name [a, b] [tag ++ out]).run (bindOwn env out own) = some (bindOwn env out ((tag, u) :: own)) := by
  simp [NodeProto.run, NodeProto.eval, onnxNode, ha, hb, h, bindOwn_cons]

theorem run_unary (ha : bindOwn env out own a = some s) (h : onnxUnary op_type [] s = some u) :
    (onnxNode op_type name [a] [tag ++ out]).run (bindOwn env out own) = some (bindOwn env out ((tag, u) :: own)) := by
  simp [NodeProto.run, NodeProto.eval, onnxNode, ha, h, bindOwn_cons]

theorem run_cons {n : NodeProto} {nodes : List NodeProto} {env' : Bindings} (h : n.run env = some env') :
    (n :: nodes).foldlM NodeProto.run env = nodes.foldlM NodeProto.run env' := by
  rw [List.foldlM_cons, h]
  rfl

/-- The last node computes what the output is. -/
theorem run_last (ha : bindOwn env out own a = some s) (hb : bindOwn env out own b = some t) :
    ([onnxNode op_type name [a, b] [out]].foldlM NodeProto.run (bindOwn env out own)).bind (fun env => env out) =
      onnxBinary op_type s t := by
  cases h : onnxBinary op_type s t <;> simp [NodeProto.run, NodeProto.eval, onnxNode, ha, hb, h]

theorem run_last_reduce (ha : bindOwn env out own a = some s) :
    ([onnxReduce op_type name [a] [out]].foldlM NodeProto.run (bindOwn env out own)).bind (fun env => env out) =
      onnxUnary op_type [.ints "axes" [1], .int "keepdims" 1] s := by
  cases h : onnxUnary op_type [.ints "axes" [1], .int "keepdims" 1] s <;>
    simp [NodeProto.run, NodeProto.eval, onnxReduce, ha, h]

end

/-! ## A name that is not bound -/

theorem mapM_eq_none {names : List String} {a : String} (ha : a ∈ names) (h : env a = none) : names.mapM env = none := by
  induction names with
  | nil => exact absurd ha List.not_mem_nil
  | cons b names ih =>
    rw [List.mapM_cons]
    rcases List.mem_cons.mp ha with rfl | ha
    · rw [h]
      rfl
    · rw [ih ha]
      cases env b <;> rfl

theorem run_unbound {n : NodeProto} {env' : Bindings} {a : String} (hrun : n.run env = some env') (hout : n.output ≠ [a]) (h : env a = none) :
    env' a = none := by
  unfold NodeProto.run at hrun
  obtain ⟨t, -, hrun⟩ := Option.bind_eq_some_iff.mp hrun
  split at hrun
  · case h_1 out hn =>
    cases hrun
    rw [Function.update_of_ne, h]
    rintro rfl
    exact hout hn
  · cases hrun

/-- Nodes are not run to the end when one reads a name that is not bound and that no node binds. -/
theorem foldlM_run_eq_none {nodes : List NodeProto} {a : String} (hout : ∀ n ∈ nodes, n.output ≠ [a]) (hread : ∃ n ∈ nodes, a ∈ n.input)
    (h : env a = none) : nodes.foldlM NodeProto.run env = none := by
  induction nodes generalizing env with
  | nil =>
    obtain ⟨n, hn, -⟩ := hread
    exact absurd hn List.not_mem_nil
  | cons m nodes ih =>
    rw [List.forall_mem_cons] at hout
    rw [List.foldlM_cons]
    cases hrun : m.run env with
    | none => rfl
    | some env' =>
      refine ih hout.2 ?_ (run_unbound hrun hout.1 h)
      obtain ⟨n, hn, ha⟩ := hread
      rcases List.mem_cons.mp hn with rfl | hn
      · unfold NodeProto.run NodeProto.eval at hrun
        rw [mapM_eq_none ha h] at hrun
        cases hrun
      · exact ⟨n, hn, ha⟩

theorem foldl_update_unbound {ts : List TensorProto} {a : String} (hts : ∀ t ∈ ts, t.name ≠ a) (h : env a = none) :
    ts.foldl (fun env t => Function.update env t.name t.tensor) env a = none := by
  induction ts generalizing env with
  | nil => exact h
  | cons t ts ih =>
    rw [List.forall_mem_cons] at hts
    exact ih hts.2 ((Function.update_of_ne hts.1.symm _ _).trans h)

theorem Emission.run_eq_none {e : Emission} {a : String} (out : String) (hts : ∀ t ∈ e.initializer, t.name ≠ a)
    (hout : ∀ n ∈ e.node, n.output ≠ [a]) (hread : ∃ n ∈ e.node, a ∈ n.input) (h : env a = none) : e.run env out = none :=
  Option.bind_eq_none_iff.mpr fun _ henv => absurd henv (by rw [foldlM_run_eq_none hout hread (foldl_update_unbound hts h)]; nofun)

end Opsense
