import Opsense.Lib.Checked

/-!
# The operators of a genome

The operators of `opsense-qlib/src/graph/ops` with the weights of `graph/ctx.rs`: each one emits ONNX nodes and initializers under names
made of the name of its output. Numbers are exact. An operator that reads an input it is not given panics, and so does a vector
whose bytes would be more than `isize::MAX`; there is `none` for a panic.
-/

namespace Opsense

/-! ## The protobuf -/

inductive AttributeProto where
  | int (name : String) (i : Int)
  | ints (name : String) (ints : List Int)
deriving DecidableEq

structure NodeProto where
  op_type : String
  name : String
  input : List String
  output : List String
  attributes : List AttributeProto
deriving DecidableEq

inductive TensorData where
  | float (data : List ℚ)
  | int64 (data : List Int)
deriving DecidableEq

structure TensorProto where
  name : String
  dims : List Int
  data : TensorData
deriving DecidableEq

structure ValueInfoProto where
  name : String
  shape : List Int
deriving DecidableEq

structure GraphProto where
  node : List NodeProto
  initializer : List TensorProto
  input : List ValueInfoProto
  output : List ValueInfoProto
deriving DecidableEq

/-- `onnx_value_info!` -/
def onnxValueInfo (name : String) (batch seq : Int) : ValueInfoProto := ⟨name, [batch, seq]⟩

/-- `onnx_initializer!` of floats. -/
def onnxInitializer (name : String) (data : List ℚ) (rows cols : Int) : TensorProto := ⟨name, [rows, cols], .float data⟩

/-- `onnx_node!` -/
def onnxNode (op_type name : String) (input output : List String) : NodeProto := ⟨op_type, name, input, output, []⟩

/-- `onnx_node!` with axes to reduce. -/
def onnxReduce (op_type name : String) (input output : List String) : NodeProto :=
  ⟨op_type, name, input, output, [.ints "axes" [1], .int "keepdims" 1]⟩

/-- What an operator pushes to a graph. -/
structure Emission where
  initializer : List TensorProto
  node : List NodeProto

def GraphProto.push (g : GraphProto) (e : Emission) : GraphProto :=
  { g with
    initializer := g.initializer ++ e.initializer
    node := g.node ++ e.node }

/-! ## The weights -/

/-- `vec![value; ws]` of floats. -/
def floats (value : ℚ) (ws : Nat) : Option (List ℚ) := if 4 * ws < 2 ^ 63 then some (List.replicate ws value) else none

def extractW (ws : Nat) : Option (List ℚ) := do
  let w ← floats 0 ws
  return if 0 < ws then w.set (ws - 1) 1 else w

def rocPrevW (ws period : Nat) : Option (List ℚ) := do
  let w ← floats 0 ws
  return if 0 < ws ∧ period < ws then w.set (ws - 1 - period) 1 else w

def emaWeights (ws period : Nat) : Option (List ℚ) :=
  if period = 0 then floats 0 ws
  else do
    let k : ℚ := 2 / (period + 1)
    let weights ← floats 0 ws
    return weights.mapIdx fun i _ => k * (1 - k) ^ asI32 (ws - 1 - i)

def smaWeights (ws period : Nat) : Option (List ℚ) :=
  if period = 0 then floats 0 ws
  else do
    let weights ← floats 0 ws
    return weights.mapIdx fun i weight => if ws - period ≤ i then 1 / period else weight

def rsiWeights (ws period : Nat) : Option (List ℚ) :=
  if period = 0 then floats 0 ws
  else
    let n_real := ws - 1
    if n_real = 0 then floats 0 ws
    else do
      let k : ℚ := 1 / period
      let weights ← floats 0 ws
      if n_real ≤ period then
        return weights.mapIdx fun i weight => if 1 ≤ i ∧ i < n_real + 1 then 1 / n_real else weight
      else
        let sma_part : ℚ := 1 / period * (1 - k) ^ asI32 (n_real - period)
        return weights.mapIdx fun i weight =>
          if 1 ≤ i ∧ i < period + 1 then sma_part
          else if period + 1 ≤ i ∧ i < n_real + 1 then k * (1 - k) ^ asI32 (n_real - i)
          else weight

def maskDonchian (ws period : Nat) : Option (List ℚ) := do
  let m ← floats 0 ws
  return m.mapIdx fun i v => if ws - period ≤ i then 1 else v

def maskMinComplement (ws period : Nat) : Option (List ℚ) := do
  let m ← floats 1000000000 ws
  return m.mapIdx fun i v => if ws - period ≤ i then 0 else v

/-! ## The operators -/

inductive Op where
  | last
  | roc (period : Nat)
  | ema (period : Nat)
  | ma (period : Nat)
  | rsi (period : Nat)
  | atr (period : Nat)
  | donchianHigh (period : Nat)
  | donchianLow (period : Nat)
  | add
  | sub
  | mul
  | div
  | max
  | min
  | concat (axis : Int)
  | head (n_feat n_out : Nat)
  | abs
  | neg
  | sigmoid
deriving DecidableEq

namespace Op

def headFeatures : Op → Option Nat
  | head n_feat _ => some n_feat
  | _ => none

def headNOut : Op → Nat
  | head _ n_out => n_out
  | _ => 0

def isAtr : Op → Bool
  | atr _ => true
  | _ => false

/-- An operator that multiplies its input with a column of weights. -/
def emitWeighted (weights : Option (List ℚ)) (ws : Nat) (w name : String) (inputs : List String) (out : String) :
    Option Emission := do
  let data ← weights
  let x ← inputs[0]?
  return ⟨[onnxInitializer (w ++ out) data (asI64 ws) 1], [onnxNode "MatMul" (name ++ out) [x, w ++ out] [out]]⟩

/-- An operator of one input. -/
def emitUnary (op_type name : String) (inputs : List String) (out : String) : Option Emission := do
  let x ← inputs[0]?
  return ⟨[], [onnxNode op_type (name ++ out) [x] [out]]⟩

/-- An operator of two inputs. -/
def emitBinary (op_type name : String) (inputs : List String) (out : String) : Option Emission := do
  let x ← inputs[0]?
  let y ← inputs[1]?
  return ⟨[], [onnxNode op_type (name ++ out) [x, y] [out]]⟩

def emitRoc (ws period : Nat) (inputs : List String) (out : String) : Option Emission := do
  let we ← extractW ws
  let wr ← rocPrevW ws period
  let x ← inputs[0]?
  return ⟨[onnxInitializer ("w_last_" ++ out) we (asI64 ws) 1, onnxInitializer ("w_roc_" ++ out) wr (asI64 ws) 1],
    [onnxNode "MatMul" ("rl_" ++ out) [x, "w_last_" ++ out] ["rl_" ++ out],
      onnxNode "MatMul" ("ra_" ++ out) [x, "w_roc_" ++ out] ["ra_" ++ out],
      onnxNode "Sub" ("rd_" ++ out) ["rl_" ++ out, "ra_" ++ out] [out],
      onnxNode "Div" ("rdiv_" ++ out) ["rd_" ++ out, "ra_" ++ out] [out]]⟩

def emitRsi (ws period : Nat) (inputs : List String) (out : String) : Option Emission := do
  let w ← rsiWeights ws period
  let zero ← floats 0 ws
  let closes ← inputs[0]?
  let prev ← inputs[1]?
  return ⟨[onnxInitializer ("w_rsi_" ++ out) w (asI64 ws) 1, onnxInitializer ("zero_" ++ out) zero 1 (asI64 ws)],
    [onnxNode "Sub" ("rsi_diff_" ++ out) [closes, prev] ["rsi_diff_" ++ out],
      onnxNode "Max" ("rsi_gains_" ++ out) ["rsi_diff_" ++ out, "zero_" ++ out] ["rsi_gains_" ++ out],
      onnxNode "Neg" ("rsi_neg_" ++ out) ["rsi_diff_" ++ out] ["rsi_neg_" ++ out],
      onnxNode "Max" ("rsi_loss_" ++ out) ["rsi_neg_" ++ out, "zero_" ++ out] ["rsi_loss_" ++ out],
      onnxNode "MatMul" ("rsi_ag_" ++ out) ["rsi_gains_" ++ out, "w_rsi_" ++ out] ["rsi_ag_" ++ out],
      onnxNode "MatMul" ("rsi_al_" ++ out) ["rsi_loss_" ++ out, "w_rsi_" ++ out] ["rsi_al_" ++ out],
      onnxNode "Add" ("rsi_den_" ++ out) ["rsi_ag_" ++ out, "rsi_al_" ++ out] ["rsi_den_" ++ out],
      onnxNode "Div" ("rsi_raw_" ++ out) ["rsi_ag_" ++ out, "rsi_den_" ++ out] [out]]⟩

def emitAtr (ws period : Nat) (inputs : List String) (out : String) : Option Emission := do
  let w ← emaWeights ws period
  let high ← inputs[0]?
  let low ← inputs[1]?
  let prev ← inputs[2]?
  return ⟨[onnxInitializer ("w_atr_" ++ out) w (asI64 ws) 1],
    [onnxNode "Sub" ("ahl_" ++ out) [high, low] ["ahl_" ++ out],
      onnxNode "Sub" ("ahmpc_" ++ out) [high, prev] ["ahmpc_" ++ out],
      onnxNode "Abs" ("aahmpc_" ++ out) ["ahmpc_" ++ out] ["aahmpc_" ++ out],
      onnxNode "Sub" ("almpc_" ++ out) [low, prev] ["almpc_" ++ out],
      onnxNode "Abs" ("aalmpc_" ++ out) ["almpc_" ++ out] ["aalmpc_" ++ out],
      onnxNode "Max" ("am1_" ++ out) ["ahl_" ++ out, "aahmpc_" ++ out] ["am1_" ++ out],
      onnxNode "Max" ("atr_tr_" ++ out) ["am1_" ++ out, "aalmpc_" ++ out] ["atr_tr_" ++ out],
      onnxNode "MatMul" ("amm_" ++ out) ["atr_tr_" ++ out, "w_atr_" ++ out] [out]]⟩

/-- An operator that masks its input and reduces it. -/
def emitMasked (mask : Option (List ℚ)) (ws : Nat) (op_type m name reduce rname : String) (inputs : List String) (out : String) :
    Option Emission := do
  let data ← mask
  let x ← inputs[0]?
  return ⟨[onnxInitializer (m ++ out) data 1 (asI64 ws)],
    [onnxNode op_type (name ++ out) [x, m ++ out] [name ++ out], onnxReduce reduce (rname ++ out) [name ++ out] [out]]⟩

/-- `emit`, with the window size of the context. A head emits nothing: `build_onnx` does. -/
def emit (ws : Nat) (op : Op) (inputs : List String) (out : String) : Option Emission :=
  match op with
  | last => emitWeighted (extractW ws) ws "w_last_" "mm_last_" inputs out
  | roc period => emitRoc ws period inputs out
  | ema period => emitWeighted (emaWeights ws period) ws "w_ema_" "ema_" inputs out
  | ma period => emitWeighted (smaWeights ws period) ws "w_ma_" "ma_" inputs out
  | rsi period => emitRsi ws period inputs out
  | atr period => emitAtr ws period inputs out
  | donchianHigh period => emitMasked (maskDonchian ws period) ws "Mul" "mh_" "mhm_" "ReduceMax" "rmax_" inputs out
  | donchianLow period => emitMasked (maskMinComplement ws period) ws "Add" "ml_" "mlm_" "ReduceMin" "rmin_" inputs out
  | add => emitBinary "Add" "add_" inputs out
  | sub => emitBinary "Sub" "sub_" inputs out
  | mul => emitBinary "Mul" "mul_" inputs out
  | div => emitBinary "Div" "div_" inputs out
  | max => emitBinary "Max" "max_" inputs out
  | min => emitBinary "Min" "min_" inputs out
  | concat axis => some ⟨[], [⟨"Concat", "concat_" ++ out, inputs, [out], [.int "axis" axis]⟩]⟩
  | head _ _ => some ⟨[], []⟩
  | abs => emitUnary "Abs" "abs_" inputs out
  | neg => emitUnary "Neg" "neg_" inputs out
  | sigmoid => emitUnary "Sigmoid" "sig_" inputs out

end Op

end Opsense
