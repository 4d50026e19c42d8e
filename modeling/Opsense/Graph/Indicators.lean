import Opsense.Graph.Eval
import Opsense.Graph.Weights

/-!
# The indicators

What the emitted nodes of an indicator compute over a window, beside what the indicator is (`Op.reference`). They agree for the last value
and for the index of Wilder, and for the others under a condition on the window and the period (`Op.Holds`).
-/

namespace Opsense

/-- How far the price went: over the range of a bar, or from the close before. -/
def trueRange (high low prev : Nat → ℚ) (j : Nat) : ℚ := max (max (high j - low j) |high j - prev j|) |low j - prev j|

/-! ## What the nodes compute -/

section

variable {env : Bindings} {ws : Nat} {x y z out : String} {data : List ℚ} {value : (Nat → ℚ) → ℚ} {a b c : Nat → ℚ}

theorem toNat_asI64 (hfits : FitsWindow ws) : (asI64 ws).toNat = ws := by
  unfold FitsWindow at hfits
  rw [asI64_of_lt (by omega)]
  rfl

theorem tensor_col (name : String) (hfits : FitsWindow ws) (hdata : data.length = ws) :
    (onnxInitializer name data (asI64 ws) 1).tensor = some (.col ws fun j => data.getD j 0) := by
  have h : (onnxInitializer name data (asI64 ws) 1).tensor = Tensor.ofData (asI64 ws).toNat 1 data := rfl
  rw [h, toNat_asI64 hfits, Tensor.ofData_col hdata]

theorem tensor_row (name : String) (hfits : FitsWindow ws) (hdata : data.length = ws) :
    (onnxInitializer name data 1 (asI64 ws)).tensor = some (.row ws fun j => data.getD j 0) := by
  have h : (onnxInitializer name data 1 (asI64 ws)).tensor = Tensor.ofData 1 (asI64 ws).toNat data := rfl
  rw [h, toNat_asI64 hfits, Tensor.ofData_row hdata]

/-- The initializers are bound, and the nodes are run. -/
theorem run_of {e : Emission} (own : List (String × Tensor ℚ))
    (h : e.initializer.map (fun t => (t.name, t.tensor)) = own.reverse.map fun p => (p.1 ++ out, some p.2)) :
    e.run env out = (e.node.foldlM NodeProto.run (bindOwn env out own)).bind fun env => env out := by
  have hfold : e.initializer.foldl (fun env t => Function.update env t.name t.tensor) env = bindOwn env out own := by
    have hmap : e.initializer.foldl (fun env t => Function.update env t.name t.tensor) env =
        (e.initializer.map fun t => (t.name, t.tensor)).foldl (fun env p => Function.update env p.1 p.2) env := by
      rw [List.foldl_map]
    rw [hmap, h, List.foldl_map, List.foldl_reverse]
    rfl
  unfold Emission.run
  rw [hfold]
  rfl

theorem run_weighted {w name : String} (hx : '_' ∉ x.toList) (hw : '_' ∈ w.toList) (ha : env x = some (.row ws a))
    (hfits : FitsWindow ws) (hdata : Weighs data ws value) :
    Emission.run ⟨[onnxInitializer (w ++ out) data (asI64 ws) 1], [onnxNode "MatMul" (name ++ out) [x, w ++ out] [out]]⟩ env out =
      some (.scalar (value a)) := by
  have hx' : bindOwn env out [(w, .col ws fun j => data.getD j 0)] x = some (.row ws a) :=
    (bindOwn_plain _ hx (by simpa using hw)).trans ha
  rw [run_of [(w, .col ws fun j => data.getD j 0)]]
  · rw [run_last hx' (bindOwn_own List.lookup_cons_self), ← hdata.2 a]
    exact Tensor.matMul_row_col ws a _
  · rw [List.map_singleton, tensor_col _ hfits hdata.1]
    rfl

theorem run_masked {op_type m name reduce rname : String} {f : ℚ → ℚ → ℚ} {r : List ℚ → Option ℚ} (hx : '_' ∉ x.toList)
    (hm : '_' ∈ m.toList) (ha : env x = some (.row ws a)) (hfits : FitsWindow ws) (hdata : data.length = ws)
    (hop : onnxBinary op_type = Tensor.zip f)
    (hreduce : onnxUnary reduce [.ints "axes" [1], .int "keepdims" 1] = Tensor.reduce r) :
    Emission.run ⟨[onnxInitializer (m ++ out) data 1 (asI64 ws)],
      [onnxNode op_type (name ++ out) [x, m ++ out] [name ++ out], onnxReduce reduce (rname ++ out) [name ++ out] [out]]⟩ env out =
      (r ((List.range ws).map fun j => f (a j) (data.getD j 0))).map .scalar := by
  have hx' : bindOwn env out [(m, .row ws fun j => data.getD j 0)] x = some (.row ws a) :=
    (bindOwn_plain _ hx (by simpa using hm)).trans ha
  have hzip : onnxBinary op_type (.row ws a) (.row ws fun j => data.getD j 0) = some (.row ws fun j => f (a j) (data.getD j 0)) := by
    rw [hop, Tensor.zip_row]
  rw [run_of [(m, .row ws fun j => data.getD j 0)]]
  · rw [run_cons (run_binary hx' (bindOwn_own List.lookup_cons_self) hzip)]
    rw [run_last_reduce (bindOwn_own List.lookup_cons_self), hreduce]
    exact Tensor.reduce_row r ws _
  · rw [List.map_singleton, tensor_row _ hfits hdata]
    rfl

theorem floats_zero {zero : List ℚ} (h : floats 0 ws = some zero) : zero.length = ws ∧ ∀ j, zero.getD j 0 = 0 := by
  rw [floats_eq_some h]
  refine ⟨List.length_replicate, fun j => ?_⟩
  rw [List.getD_eq_getElem?_getD, List.getElem?_replicate]
  split <;> rfl

/-- The sum of a window with weights. -/
theorem Weighs.run (hdata : Weighs data ws value) (x : Nat → ℚ) :
    onnxBinary "MatMul" (.row ws x) (.col ws fun j => data.getD j 0) = some (.scalar (value x)) := by
  rw [← hdata.2 x]
  exact Tensor.matMul_row_col ws x _

theorem onnxBinary_sub (a b : Nat → ℚ) : onnxBinary "Sub" (.row ws a) (.row ws b) = some (.row ws fun j => a j - b j) :=
  Tensor.zip_row _ ws a b

theorem onnxBinary_max (a b : Nat → ℚ) : onnxBinary "Max" (.row ws a) (.row ws b) = some (.row ws fun j => max (a j) (b j)) :=
  Tensor.zip_row _ ws a b

/-- The share of the gains, in the means of gains and losses. -/
theorem run_rsi {period : Nat} {inputs : List String} {e : Emission} (hx : '_' ∉ x.toList) (hy : '_' ∉ y.toList)
    (hin : inputs[0]? = some x ∧ inputs[1]? = some y) (ha : env x = some (.row ws a)) (hb : env y = some (.row ws b))
    (hfits : FitsWindow ws) (hw : rsiWeights ws period = some data) (hdata : Weighs data ws value)
    (he : Op.emitRsi ws period inputs out = some e) :
    e.run env out = Tensor.div (.scalar (value fun j => max (a j - b j) 0))
      (.scalar ((value fun j => max (a j - b j) 0) + value fun j => max (-(a j - b j)) 0)) := by
  unfold Op.emitRsi at he
  simp only [hw, hin.1, hin.2, Option.bind_eq_bind, Option.bind_some, Option.bind_eq_some_iff, Option.pure_def, Option.some.injEq] at he
  obtain ⟨zero, hfloats, rfl⟩ := he
  obtain ⟨hlen, hget⟩ := floats_zero hfloats
  have hrow := tensor_row ("zero_" ++ out) hfits hlen
  simp only [hget] at hrow
  rw [run_of [("zero_", .row ws fun _ => 0), ("w_rsi_", .col ws fun j => data.getD j 0)]]
  · rw [run_cons (run_binary ((bindOwn_plain _ hx (by simp)).trans ha) ((bindOwn_plain _ hy (by simp)).trans hb) (onnxBinary_sub a b)),
      run_cons (run_binary (bindOwn_own rfl) (bindOwn_own rfl) (onnxBinary_max (fun j => a j - b j) fun _ => 0)),
      run_cons (run_unary (bindOwn_own rfl) (show onnxUnary "Neg" [] (.row ws fun j => a j - b j) = some _ from rfl)),
      run_cons (run_binary (bindOwn_own rfl) (bindOwn_own rfl) (onnxBinary_max (fun j => -(a j - b j)) fun _ => 0)),
      run_cons (run_binary (bindOwn_own rfl) (bindOwn_own rfl) (hdata.run fun j => max (a j - b j) 0)),
      run_cons (run_binary (bindOwn_own rfl) (bindOwn_own rfl) (hdata.run fun j => max (-(a j - b j)) 0)),
      run_cons (run_binary (bindOwn_own rfl) (bindOwn_own rfl) (show onnxBinary "Add" (.scalar _) (.scalar _) = some _ from Tensor.zip_scalar _ _ _)),
      run_last (bindOwn_own rfl) (bindOwn_own rfl)]
    rfl
  · rw [List.map_cons, List.map_singleton, tensor_col _ hfits hdata.1, hrow]
    rfl

theorem onnxUnary_abs (a : Nat → ℚ) : onnxUnary "Abs" [] (.row ws a) = some (.row ws fun j => |a j|) := rfl

/-- The sum of the true ranges with weights. -/
theorem run_atr {period : Nat} {inputs : List String} {e : Emission} (hx : '_' ∉ x.toList) (hy : '_' ∉ y.toList) (hz : '_' ∉ z.toList)
    (hin : inputs[0]? = some x ∧ inputs[1]? = some y ∧ inputs[2]? = some z) (ha : env x = some (.row ws a))
    (hb : env y = some (.row ws b)) (hc : env z = some (.row ws c)) (hfits : FitsWindow ws) (hw : emaWeights ws period = some data)
    (hdata : Weighs data ws value) (he : Op.emitAtr ws period inputs out = some e) :
    e.run env out = some (.scalar (value (trueRange a b c))) := by
  unfold Op.emitAtr at he
  simp only [hw, hin.1, hin.2.1, hin.2.2, Option.bind_eq_bind, Option.bind_some, Option.pure_def, Option.some.injEq] at he
  subst he
  rw [run_of [("w_atr_", .col ws fun j => data.getD j 0)]]
  · rw [run_cons (run_binary ((bindOwn_plain _ hx (by simp)).trans ha) ((bindOwn_plain _ hy (by simp)).trans hb) (onnxBinary_sub a b)),
      run_cons (run_binary ((bindOwn_plain _ hx (by simp)).trans ha) ((bindOwn_plain _ hz (by simp)).trans hc) (onnxBinary_sub a c)),
      run_cons (run_unary (bindOwn_own rfl) (onnxUnary_abs fun j => a j - c j)),
      run_cons (run_binary ((bindOwn_plain _ hy (by simp)).trans hb) ((bindOwn_plain _ hz (by simp)).trans hc) (onnxBinary_sub b c)),
      run_cons (run_unary (bindOwn_own rfl) (onnxUnary_abs fun j => b j - c j)),
      run_cons (run_binary (bindOwn_own rfl) (bindOwn_own rfl) (onnxBinary_max (fun j => a j - b j) fun j => |a j - c j|)),
      run_cons (run_binary (bindOwn_own rfl) (bindOwn_own rfl)
        (onnxBinary_max (fun j => max (a j - b j) |a j - c j|) fun j => |b j - c j|)),
      run_last (bindOwn_own rfl) (bindOwn_own rfl)]
    exact hdata.run (trueRange a b c)
  · rw [List.map_singleton, tensor_col _ hfits hdata.1]
    rfl

/-- The rate of change is not computed: its last node reads a name that none defines. -/
theorem run_roc {period : Nat} {inputs : List String} {e : Emission} (hfresh : ∀ tag, '_' ∈ tag.toList → env (tag ++ out) = none)
    (he : Op.emitRoc ws period inputs out = some e) : e.run env out = none := by
  unfold Op.emitRoc at he
  simp only [Option.bind_eq_bind, Option.bind_eq_some_iff, Option.pure_def, Option.some.injEq] at he
  obtain ⟨we, -, wr, -, x, -, rfl⟩ := he
  refine Emission.run_eq_none out ?_ ?_ ?_ (hfresh "rd_" (by decide))
  · simp [onnxInitializer]
  · simpa [onnxNode] using fun h => absurd (String.append_eq_right_iff.mp (Eq.symm h)) (by decide)
  · exact ⟨onnxNode "Div" ("rdiv_" ++ out) ["rd_" ++ out, "ra_" ++ out] [out], by simp, List.mem_cons_self⟩

end

end Opsense
