import Opsense.Graph.Build
import Opsense.Lib.Wiring

/-!
# The names of a graph

What a node of a genome emits has a shape that does not depend on its numbers: which names are given, and which lines read and define
which (`Op.shape`). A name is made of a tag and of what stands behind its last underscore; by these two parts, the names of different
nodes and of different tags differ (`Ref.key_inj`).
-/

namespace Opsense

/-! ## Names by their parts -/

/-- A name up to its last underscore, and the rest. -/
def splitName (s : String) : List Char × List Char := (s.toList.rdropWhile (· ≠ '_'), s.toList.rtakeWhile (· ≠ '_'))

theorem splitName_append (tag : String) {stem : String} (htag : tag = "" ∨ tag.toList.getLast? = some '_') (hstem : '_' ∉ stem.toList) :
    splitName (tag ++ stem) = (tag.toList, stem.toList) := by
  have hpass : ∀ c ∈ stem.toList.reverse, decide (c ≠ '_') = true := by
    intro c hc
    refine decide_eq_true ?_
    rintro rfl
    exact hstem (List.mem_reverse.mp hc)
  have hstop : tag.toList.reverse.dropWhile (fun c => decide (c ≠ '_')) = tag.toList.reverse ∧
      tag.toList.reverse.takeWhile (fun c => decide (c ≠ '_')) = [] := by
    rcases htag with rfl | htag
    · exact ⟨rfl, rfl⟩
    · rw [← List.head?_reverse] at htag
      cases hreverse : tag.toList.reverse with
      | nil => exact ⟨rfl, rfl⟩
      | cons c cs =>
        rw [hreverse] at htag
        cases htag
        exact ⟨rfl, rfl⟩
  unfold splitName List.rdropWhile List.rtakeWhile
  rw [String.toList_append, List.reverse_append, List.dropWhile_append_of_pos hpass, List.takeWhile_append_of_pos hpass, hstop.1,
    hstop.2, List.append_nil, List.reverse_reverse, List.reverse_reverse]

theorem mem_repr_isDigit {n : Nat} {c : Char} (h : c ∈ (Nat.repr n).toList) : c.isDigit = true :=
  Nat.isDigit_of_mem_toDigits (by decide) (by decide) (show c ∈ Nat.toDigits 10 n by simpa [Nat.repr] using h)

theorem notMem_repr {n : Nat} {c : Char} (h : c.isDigit = false) : c ∉ (Nat.repr n).toList := by
  intro hmem
  rw [mem_repr_isDigit hmem] at h
  exact absurd h (by decide)

/-- The name of the output of a node. -/
def nodeName (i : Nat) : String := "n" ++ Nat.repr i

theorem nodeName_plain (i : Nat) : '_' ∉ (nodeName i).toList := by
  unfold nodeName
  rw [String.toList_append, List.mem_append, not_or]
  exact ⟨by decide, notMem_repr (by decide)⟩

theorem nodeName_inj {i j : Nat} : nodeName i = nodeName j ↔ i = j := by
  unfold nodeName
  rw [String.append_right_inj]
  exact ⟨fun h => Nat.repr_injective h, congrArg Nat.repr⟩

/-! ## Shapes -/

/-- A name in what a node emits: an input, a name of its own with a tag, its output, the shape of its weights, or a name that every
head has. -/
inductive Ref where
  | arg (k : Nat)
  | aux (tag : String)
  | out
  | shape
  | fixed (name : String)
deriving DecidableEq

/-- The name itself, in a node with an index and inputs. -/
def Ref.render (i : Nat) (inputs : List String) : Ref → String
  | .arg k => inputs.getD k ""
  | .aux tag => tag ++ nodeName i
  | .out => nodeName i
  | .shape => "rsh_" ++ Nat.repr i
  | .fixed name => name

/-- The names that a node is given beside its inputs, and the lines it emits. -/
structure Shape where
  gives : List Ref
  lines : List (Line Ref)

/-- The names that the lines of a shape and the node define. -/
def Shape.defined (s : Shape) : List Ref := s.gives ++ definedBy s.lines

namespace Op

def weightedShape (w : String) : Shape := ⟨[.aux w], [([.arg 0, .aux w], [.out])]⟩

def unaryShape : Shape := ⟨[], [([.arg 0], [.out])]⟩

def binaryShape : Shape := ⟨[], [([.arg 0, .arg 1], [.out])]⟩

def maskedShape (m name : String) : Shape := ⟨[.aux m], [([.arg 0, .aux m], [.aux name]), ([.aux name], [.out])]⟩

def rsiShape : Shape where
  gives := [.aux "w_rsi_", .aux "zero_"]
  lines :=
    [([.arg 0, .arg 1], [.aux "rsi_diff_"]), ([.aux "rsi_diff_", .aux "zero_"], [.aux "rsi_gains_"]),
      ([.aux "rsi_diff_"], [.aux "rsi_neg_"]), ([.aux "rsi_neg_", .aux "zero_"], [.aux "rsi_loss_"]),
      ([.aux "rsi_gains_", .aux "w_rsi_"], [.aux "rsi_ag_"]), ([.aux "rsi_loss_", .aux "w_rsi_"], [.aux "rsi_al_"]),
      ([.aux "rsi_ag_", .aux "rsi_al_"], [.aux "rsi_den_"]), ([.aux "rsi_ag_", .aux "rsi_den_"], [.out])]

def atrShape : Shape where
  gives := [.aux "w_atr_"]
  lines :=
    [([.arg 0, .arg 1], [.aux "ahl_"]), ([.arg 0, .arg 2], [.aux "ahmpc_"]), ([.aux "ahmpc_"], [.aux "aahmpc_"]),
      ([.arg 1, .arg 2], [.aux "almpc_"]), ([.aux "almpc_"], [.aux "aalmpc_"]), ([.aux "ahl_", .aux "aahmpc_"], [.aux "am1_"]),
      ([.aux "am1_", .aux "aalmpc_"], [.aux "atr_tr_"]), ([.aux "atr_tr_", .aux "w_atr_"], [.out])]

/-- The last line of a rate of change reads a name that none defines, and defines the output once more. -/
def rocShape : Shape where
  gives := [.aux "w_last_", .aux "w_roc_"]
  lines :=
    [([.arg 0, .aux "w_last_"], [.aux "rl_"]), ([.arg 0, .aux "w_roc_"], [.aux "ra_"]), ([.aux "rl_", .aux "ra_"], [.out]),
      ([.aux "rd_", .aux "ra_"], [.out])]

def headShape : Shape where
  gives := [.fixed "W_pred_flat", .fixed "B_pred", .shape]
  lines :=
    [([.fixed "W_pred_flat", .shape], [.fixed "W_pred"]), ([.arg 0, .fixed "W_pred"], [.fixed "dot"]),
      ([.fixed "dot", .fixed "B_pred"], [.fixed "biased"]), ([.fixed "biased"], [.out])]

/-- What an operator emits for a number of inputs. -/
def shape (n : Nat) : Op → Shape
  | last => weightedShape "w_last_"
  | roc _ => rocShape
  | ema _ => weightedShape "w_ema_"
  | ma _ => weightedShape "w_ma_"
  | rsi _ => rsiShape
  | atr _ => atrShape
  | donchianHigh _ => maskedShape "mh_" "mhm_"
  | donchianLow _ => maskedShape "ml_" "mlm_"
  | add | sub | mul | div | max | min => binaryShape
  | concat _ => ⟨[], [((List.range n).map .arg, [.out])]⟩
  | head _ _ => headShape
  | abs | neg | sigmoid => unaryShape

/-- The inputs that an operator reads: it panics when it has fewer of them. A concatenation reads all it is given. -/
def arity : Op → Nat
  | rsi _ | add | sub | mul | div | max | min => 2
  | atr _ => 3
  | concat _ => 0
  | _ => 1

/-- The number of inputs that an operator reads of those it is given. -/
def reads (n : Nat) : Op → Nat
  | concat _ => n
  | op => op.arity

/-- The operator fills vectors of the size of the window. -/
def fills : Op → Bool
  | last | roc _ | ema _ | ma _ | rsi _ | atr _ | donchianHigh _ | donchianLow _ => true
  | _ => false

end Op

/-- What a node of a graph reads and defines. -/
def NodeProto.line (n : NodeProto) : Line String := (n.input, n.output)

/-- The names in a line of a shape. -/
def renderLine (i : Nat) (inputs : List String) : Line Ref → Line String := Line.map (Ref.render i inputs)

/-! ## What the operators emit -/

/-- The bytes of a vector of floats of the size of the window fit `isize`. -/
def FitsWindow (ws : Nat) : Prop := 4 * ws < 2 ^ 63

instance decidableFitsWindow (ws : Nat) : Decidable (FitsWindow ws) := inferInstanceAs (Decidable (4 * ws < 2 ^ 63))

/-- The names of what is emitted are those of a shape. -/
structure Emission.HasShape (e : Emission) (s : Shape) (i : Nat) (inputs : List String) : Prop where
  gives : e.initializer.map TensorProto.name = s.gives.map (Ref.render i inputs)
  lines : e.node.map NodeProto.line = s.lines.map (renderLine i inputs)

section

variable {ws : Nat} {inputs : List String} {i : Nat} {e : Emission}

theorem isSome_bind_pure {α β : Type} (a : Option α) (f : α → β) : (a.bind fun x => some (f x)).isSome = a.isSome := by
  cases a <;> rfl

theorem isSome_floats (value : ℚ) : (floats value ws).isSome = true ↔ FitsWindow ws := by
  unfold floats FitsWindow
  split <;> simp_all

theorem isSome_extractW : (extractW ws).isSome = true ↔ FitsWindow ws := by
  rw [← isSome_floats 0]
  exact Bool.coe_iff_coe.mpr (isSome_bind_pure _ _)

theorem isSome_rocPrevW {period : Nat} : (rocPrevW ws period).isSome = true ↔ FitsWindow ws := by
  rw [← isSome_floats 0]
  exact Bool.coe_iff_coe.mpr (isSome_bind_pure _ _)

theorem isSome_emaWeights (period : Nat) : (emaWeights ws period).isSome = true ↔ FitsWindow ws := by
  rw [← isSome_floats 0]
  unfold emaWeights
  split
  · rfl
  · exact Bool.coe_iff_coe.mpr (isSome_bind_pure _ _)

theorem isSome_smaWeights {period : Nat} : (smaWeights ws period).isSome = true ↔ FitsWindow ws := by
  rw [← isSome_floats 0]
  unfold smaWeights
  split
  · rfl
  · exact Bool.coe_iff_coe.mpr (isSome_bind_pure _ _)

theorem isSome_rsiWeights (period : Nat) : (rsiWeights ws period).isSome = true ↔ FitsWindow ws := by
  rw [← isSome_floats 0]
  unfold rsiWeights
  split
  · rfl
  · dsimp only
    split
    · rfl
    · split
      · exact Bool.coe_iff_coe.mpr (isSome_bind_pure _ _)
      · exact Bool.coe_iff_coe.mpr (isSome_bind_pure _ _)

theorem isSome_maskDonchian {period : Nat} : (maskDonchian ws period).isSome = true ↔ FitsWindow ws := by
  rw [← isSome_floats 0]
  exact Bool.coe_iff_coe.mpr (isSome_bind_pure _ _)

theorem isSome_maskMinComplement {period : Nat} : (maskMinComplement ws period).isSome = true ↔ FitsWindow ws := by
  rw [← isSome_floats 1000000000]
  exact Bool.coe_iff_coe.mpr (isSome_bind_pure _ _)

namespace Op

theorem emitWeighted_isSome {weights : Option (List ℚ)} {w name out : String} :
    (emitWeighted weights ws w name inputs out).isSome = true ↔ weights.isSome = true ∧ 1 ≤ inputs.length := by
  unfold emitWeighted
  cases weights <;> cases inputs <;> simp

theorem emitWeighted_shape {weights : Option (List ℚ)} {w name : String}
    (h : emitWeighted weights ws w name inputs (nodeName i) = some e) : e.HasShape (weightedShape w) i inputs := by
  unfold emitWeighted at h
  simp only [Option.bind_eq_bind, Option.bind_eq_some_iff, Option.pure_def, Option.some.injEq] at h
  obtain ⟨data, -, x, hx, rfl⟩ := h
  constructor <;> simp [weightedShape, renderLine, Line.map, Ref.render, onnxInitializer, onnxNode, NodeProto.line, List.getD, hx]

theorem emitUnary_isSome {op_type name out : String} : (emitUnary op_type name inputs out).isSome = true ↔ 1 ≤ inputs.length := by
  unfold emitUnary
  cases inputs <;> simp

theorem emitUnary_shape {op_type name : String} (h : emitUnary op_type name inputs (nodeName i) = some e) :
    e.HasShape unaryShape i inputs := by
  unfold emitUnary at h
  simp only [Option.bind_eq_bind, Option.bind_eq_some_iff, Option.pure_def, Option.some.injEq] at h
  obtain ⟨x, hx, rfl⟩ := h
  constructor <;> simp [unaryShape, renderLine, Line.map, Ref.render, onnxNode, NodeProto.line, List.getD, hx]

theorem two_le_length : 2 ≤ inputs.length ↔ ∃ x y, inputs[0]? = some x ∧ inputs[1]? = some y := by
  rcases inputs with - | ⟨x, - | ⟨y, inputs⟩⟩ <;> simp

theorem three_le_length : 3 ≤ inputs.length ↔ ∃ x y z, inputs[0]? = some x ∧ inputs[1]? = some y ∧ inputs[2]? = some z := by
  rcases inputs with - | ⟨x, - | ⟨y, - | ⟨z, inputs⟩⟩⟩ <;> simp

theorem emitBinary_isSome {op_type name out : String} : (emitBinary op_type name inputs out).isSome = true ↔ 2 ≤ inputs.length := by
  rw [two_le_length]
  unfold emitBinary
  rcases inputs with - | ⟨x, - | ⟨y, inputs⟩⟩ <;> simp

theorem emitBinary_shape {op_type name : String} (h : emitBinary op_type name inputs (nodeName i) = some e) :
    e.HasShape binaryShape i inputs := by
  unfold emitBinary at h
  simp only [Option.bind_eq_bind, Option.bind_eq_some_iff, Option.pure_def, Option.some.injEq] at h
  obtain ⟨x, hx, y, hy, rfl⟩ := h
  constructor <;> simp [binaryShape, renderLine, Line.map, Ref.render, onnxNode, NodeProto.line, List.getD, hx, hy]

theorem emitMasked_isSome {mask : Option (List ℚ)} {op_type m name reduce rname out : String} :
    (emitMasked mask ws op_type m name reduce rname inputs out).isSome = true ↔ mask.isSome = true ∧ 1 ≤ inputs.length := by
  unfold emitMasked
  cases mask <;> cases inputs <;> simp

theorem emitMasked_shape {mask : Option (List ℚ)} {op_type m name reduce rname : String}
    (h : emitMasked mask ws op_type m name reduce rname inputs (nodeName i) = some e) : e.HasShape (maskedShape m name) i inputs := by
  unfold emitMasked at h
  simp only [Option.bind_eq_bind, Option.bind_eq_some_iff, Option.pure_def, Option.some.injEq] at h
  obtain ⟨data, -, x, hx, rfl⟩ := h
  constructor <;>
    simp [maskedShape, renderLine, Line.map, Ref.render, onnxInitializer, onnxNode, onnxReduce, NodeProto.line, List.getD, hx]

variable {period : Nat}

theorem emitRoc_isSome {out : String} :
    (emitRoc ws period inputs out).isSome = true ↔ FitsWindow ws ∧ 1 ≤ inputs.length := by
  rw [← isSome_extractW]
  have hboth : (extractW ws).isSome = true → (rocPrevW ws period).isSome = true :=
    fun h => isSome_rocPrevW.mpr (isSome_extractW.mp h)
  unfold emitRoc
  cases hwe : extractW ws with
  | none => simp
  | some we =>
    rw [hwe] at hboth
    obtain ⟨wr, hwr⟩ := Option.isSome_iff_exists.mp (hboth rfl)
    rw [hwr]
    cases inputs <;> simp

theorem emitRoc_shape (h : emitRoc ws period inputs (nodeName i) = some e) : e.HasShape rocShape i inputs := by
  unfold emitRoc at h
  simp only [Option.bind_eq_bind, Option.bind_eq_some_iff, Option.pure_def, Option.some.injEq] at h
  obtain ⟨we, -, wr, -, x, hx, rfl⟩ := h
  constructor <;> simp [rocShape, renderLine, Line.map, Ref.render, onnxInitializer, onnxNode, NodeProto.line, List.getD, hx]

theorem emitRsi_isSome {out : String} :
    (emitRsi ws period inputs out).isSome = true ↔ FitsWindow ws ∧ 2 ≤ inputs.length := by
  have hzero : FitsWindow ws → (floats 0 ws).isSome = true := (isSome_floats 0).mpr
  rw [← isSome_rsiWeights period] at hzero ⊢
  unfold emitRsi
  cases hw : rsiWeights ws period with
  | none => simp
  | some w =>
    rw [hw] at hzero
    obtain ⟨zero, hzero⟩ := Option.isSome_iff_exists.mp (hzero rfl)
    rw [hzero, two_le_length]
    rcases inputs with - | ⟨x, - | ⟨y, inputs⟩⟩ <;> simp

theorem emitRsi_shape (h : emitRsi ws period inputs (nodeName i) = some e) : e.HasShape rsiShape i inputs := by
  unfold emitRsi at h
  simp only [Option.bind_eq_bind, Option.bind_eq_some_iff, Option.pure_def, Option.some.injEq] at h
  obtain ⟨w, -, zero, -, x, hx, y, hy, rfl⟩ := h
  constructor <;> simp [rsiShape, renderLine, Line.map, Ref.render, onnxInitializer, onnxNode, NodeProto.line, List.getD, hx, hy]

theorem emitAtr_isSome {out : String} :
    (emitAtr ws period inputs out).isSome = true ↔ FitsWindow ws ∧ 3 ≤ inputs.length := by
  rw [← isSome_emaWeights period]
  unfold emitAtr
  cases emaWeights ws period with
  | none => simp
  | some w =>
    rw [three_le_length]
    rcases inputs with - | ⟨x, - | ⟨y, - | ⟨z, inputs⟩⟩⟩ <;> simp

theorem emitAtr_shape (h : emitAtr ws period inputs (nodeName i) = some e) : e.HasShape atrShape i inputs := by
  unfold emitAtr at h
  simp only [Option.bind_eq_bind, Option.bind_eq_some_iff, Option.pure_def, Option.some.injEq] at h
  obtain ⟨w, -, x, hx, y, hy, z, hz, rfl⟩ := h
  constructor <;> simp [atrShape, renderLine, Line.map, Ref.render, onnxInitializer, onnxNode, NodeProto.line, List.getD, hx, hy, hz]

/-- An operator panics where it has too few inputs, or where its vectors do not fit. -/
theorem emit_isSome {op : Op} {out : String} (hhead : op.headFeatures = none) :
    (op.emit ws inputs out).isSome = true ↔ op.arity ≤ inputs.length ∧ (op.fills = true → FitsWindow ws) := by
  unfold emit
  cases op with
  | last => rw [emitWeighted_isSome, isSome_extractW]; simp [arity, fills, and_comm]
  | roc period => rw [emitRoc_isSome]; simp [arity, fills, and_comm]
  | ema period => rw [emitWeighted_isSome, isSome_emaWeights]; simp [arity, fills, and_comm]
  | ma period => rw [emitWeighted_isSome, isSome_smaWeights]; simp [arity, fills, and_comm]
  | rsi period => rw [emitRsi_isSome]; simp [arity, fills, and_comm]
  | atr period => rw [emitAtr_isSome]; simp [arity, fills, and_comm]
  | donchianHigh period => rw [emitMasked_isSome, isSome_maskDonchian]; simp [arity, fills, and_comm]
  | donchianLow period => rw [emitMasked_isSome, isSome_maskMinComplement]; simp [arity, fills, and_comm]
  | add | sub | mul | div | max | min => rw [emitBinary_isSome]; simp [arity, fills]
  | concat axis => simp [arity, fills]
  | head n_feat n_out => nomatch hhead
  | abs | neg | sigmoid => rw [emitUnary_isSome]; simp [arity, fills]

/-- What an operator emits has its shape. -/
theorem emit_shape {op : Op} (hhead : op.headFeatures = none) (h : op.emit ws inputs (nodeName i) = some e) :
    e.HasShape (op.shape inputs.length) i inputs := by
  unfold emit at h
  cases op with
  | last | ema | ma => exact emitWeighted_shape h
  | roc period => exact emitRoc_shape h
  | rsi period => exact emitRsi_shape h
  | atr period => exact emitAtr_shape h
  | donchianHigh | donchianLow => exact emitMasked_shape h
  | add | sub | mul | div | max | min => exact emitBinary_shape h
  | concat axis =>
    cases h
    have hinputs : (List.range inputs.length).map (fun k => inputs[k]?.getD "") = inputs := by
      refine List.ext_getElem (by simp) fun k hk hk' => ?_
      simp [List.getElem?_eq_getElem hk']
    constructor
    · rfl
    · simp [shape, renderLine, Line.map, NodeProto.line, Ref.render, Function.comp_def, hinputs]
  | head n_feat n_out => nomatch hhead
  | abs | neg | sigmoid => exact emitUnary_shape h

end Op

end

/-! ## The names of shapes differ -/

/-- The names that every head has. -/
def headNames : List String := ["W_pred_flat", "B_pred", "W_pred", "dot", "biased"]

/-- The tags end in an underscore, and the names that are the same for every node are those of a head. -/
def Ref.Good : Ref → Prop
  | .arg _ => False
  | .aux tag => tag.toList.getLast? = some '_'
  | .out | .shape => True
  | .fixed name => name ∈ headNames

instance decidableGood : ∀ r : Ref, Decidable r.Good
  | .arg _ => isFalse id
  | .aux tag => inferInstanceAs (Decidable (tag.toList.getLast? = some '_'))
  | .out | .shape => isTrue trivial
  | .fixed name => inferInstanceAs (Decidable (name ∈ headNames))

/-- The parts of a name, in a node with an index. -/
def Ref.key (i : Nat) : Ref → List Char × List Char
  | .arg _ => ([], [])
  | .aux tag => (tag.toList, (nodeName i).toList)
  | .out => ([], (nodeName i).toList)
  | .shape => ("rsh_".toList, (Nat.repr i).toList)
  | .fixed name => splitName name

theorem splitName_nodeName (i : Nat) : splitName (nodeName i) = ([], (nodeName i).toList) := by
  have h := splitName_append "" (.inl rfl) (nodeName_plain i)
  rwa [String.empty_append] at h

theorem Ref.splitName_render {r : Ref} (h : r.Good) (i : Nat) (inputs : List String) : splitName (r.render i inputs) = r.key i := by
  cases r with
  | arg k => exact h.elim
  | aux tag => exact splitName_append _ (.inr h) (nodeName_plain i)
  | out => exact splitName_nodeName i
  | shape => exact splitName_append _ (.inr (by decide)) (notMem_repr (by decide))
  | fixed name => rfl

theorem nodeName_toList (i : Nat) : (nodeName i).toList = 'n' :: (Nat.repr i).toList := String.toList_append

theorem repr_ne_nodeName (i j : Nat) : (Nat.repr i).toList ≠ (nodeName j).toList := by
  intro h
  rw [nodeName_toList] at h
  have hmem : 'n' ∈ (Nat.repr i).toList := by
    rw [h]
    exact List.mem_cons_self
  exact notMem_repr (by decide) hmem

/-- The names of a head have no other tag than their own, and no rest that begins as another name does. -/
theorem splitName_head : ∀ name ∈ headNames,
    (splitName name).1 ≠ "rsh_".toList ∧ (splitName name).2.head? ≠ some 'n' ∧ (splitName name).2.head? ≠ some 'i' := by
  decide +kernel

theorem splitName_head_inj : ∀ name ∈ headNames, ∀ name' ∈ headNames, splitName name = splitName name' → name = name' := by
  decide +kernel

theorem splitName_head_ne {name : String} (h : name ∈ headNames) (i : Nat) : (splitName name).2 ≠ (nodeName i).toList := by
  intro heq
  refine (splitName_head name h).2.1 ?_
  rw [heq, nodeName_toList]
  rfl

theorem Ref.Good.tag_ne_nil {tag : String} (h : (Ref.aux tag).Good) : tag.toList ≠ [] := by
  intro hnil
  have hlast : tag.toList.getLast? = some '_' := h
  rw [hnil] at hlast
  cases hlast

/-- In a node, different names have different parts. -/
theorem Ref.key_inj {r r' : Ref} (h : r.Good) (h' : r'.Good) {i : Nat} (heq : r.key i = r'.key i) : r = r' := by
  have hstem := congrArg Prod.snd heq
  have htag := congrArg Prod.fst heq
  cases r with
  | arg k => exact h.elim
  | aux tag =>
    cases r' with
    | arg k => exact h'.elim
    | aux tag' => rw [String.toList_inj.mp htag]
    | out => exact absurd htag h.tag_ne_nil
    | shape => exact absurd hstem.symm (repr_ne_nodeName i i)
    | fixed name => exact absurd hstem.symm (splitName_head_ne h' i)
  | out =>
    cases r' with
    | arg k => exact h'.elim
    | aux tag => exact absurd htag.symm h'.tag_ne_nil
    | out => rfl
    | shape => exact absurd hstem.symm (repr_ne_nodeName i i)
    | fixed name => exact absurd hstem.symm (splitName_head_ne h' i)
  | shape =>
    cases r' with
    | arg k => exact h'.elim
    | aux tag => exact absurd hstem (repr_ne_nodeName i i)
    | out => exact absurd hstem (repr_ne_nodeName i i)
    | shape => rfl
    | fixed name => exact absurd htag.symm (splitName_head name h').1
  | fixed name =>
    cases r' with
    | arg k => exact h'.elim
    | aux tag => exact absurd hstem (splitName_head_ne h i)
    | out => exact absurd hstem (splitName_head_ne h i)
    | shape => exact absurd htag (splitName_head name h).1
    | fixed name' => rw [splitName_head_inj name h name' h' heq]

/-- The rest of a name of a node is not the name of another node. -/
theorem Ref.key_ne_nodeName {r : Ref} (h : r.Good) {i j : Nat} (hij : i ≠ j) : (r.key i).2 ≠ (nodeName j).toList := by
  have hne : (nodeName i).toList ≠ (nodeName j).toList := by
    rw [Ne, String.toList_inj, nodeName_inj]
    exact hij
  cases r with
  | arg k => exact h.elim
  | aux tag => exact hne
  | out => exact hne
  | shape => exact repr_ne_nodeName i j
  | fixed name => exact splitName_head_ne h j

/-- No name of a node is that of an extractor. -/
theorem Ref.render_ne_extractor {r : Ref} (h : r.Good) (i k : Nat) (inputs : List String) :
    r.render i inputs ≠ "in" ++ Nat.repr k := by
  have hplain : '_' ∉ ("in" ++ Nat.repr k).toList := by
    rw [String.toList_append, List.mem_append, not_or]
    exact ⟨by decide, notMem_repr (by decide)⟩
  have hsplit := splitName_append "" (.inl rfl) hplain
  rw [String.empty_append] at hsplit
  intro heq
  have hkey := r.splitName_render h i inputs
  rw [heq, hsplit] at hkey
  have hhead : (r.key i).2.head? = some 'i' := by
    rw [← hkey, String.toList_append]
    rfl
  cases r with
  | arg k => exact h.elim
  | aux tag => exact absurd hhead (by simp [key, nodeName_toList])
  | out => exact absurd hhead (by simp [key, nodeName_toList])
  | shape => exact notMem_repr (by decide) (List.mem_of_mem_head? hhead)
  | fixed name => exact (splitName_head name h).2.2 hhead

/-! ## The shapes -/

namespace Op

/-- The operator computes a rate of change. -/
def IsRoc : Op → Prop
  | roc _ => True
  | _ => False

theorem shape_good (op : Op) (n : Nat) : ∀ r ∈ (op.shape n).defined, r.Good := by
  cases op with
  | concat axis => simp [shape, Shape.defined, Ref.Good]
  | _ =>
    dsimp only [shape]
    decide +kernel

/-- Only a head defines names that other nodes may define. -/
theorem shape_own {op : Op} (h : op.headFeatures = none) (n : Nat) :
    ∀ r ∈ (op.shape n).defined, r = .out ∨ ∃ tag, r = .aux tag := by
  cases op <;>
    simp_all [headFeatures, shape, Shape.defined, weightedShape, unaryShape, binaryShape, maskedShape, rsiShape, atrShape, rocShape]

theorem shape_nodup {op : Op} (h : ¬op.IsRoc) (n : Nat) : (op.shape n).defined.Nodup := by
  cases op with
  | roc period => exact absurd trivial h
  | concat axis => simp [shape, Shape.defined]
  | _ =>
    dsimp only [shape]
    decide +kernel

theorem rocShape_not_nodup : ¬rocShape.defined.Nodup := by decide +kernel

theorem out_mem_shape (op : Op) (n : Nat) : .out ∈ definedBy (op.shape n).lines := by
  cases op with
  | concat axis => simp [shape]
  | _ =>
    dsimp only [shape]
    decide +kernel

theorem shape_backed {op : Op} (h : ¬op.IsRoc) (n : Nat) :
    Backed ((op.shape n).gives ++ (List.range (op.reads n)).map .arg) (op.shape n).lines := by
  cases op with
  | roc period => exact absurd trivial h
  | concat axis => simp [shape, reads, backed_singleton]
  | _ =>
    simp [shape, reads, arity, weightedShape, unaryShape, binaryShape, maskedShape, rsiShape, atrShape, headShape, backed_cons,
      backed_nil, List.range_succ]

/-- Each input that is read is read before the output is defined. -/
theorem shape_reads (op : Op) {n k : Nat} (hk : k < op.reads n) :
    ∃ before line after, (op.shape n).lines = before ++ line :: after ∧ .arg k ∈ line.1 ∧ .out ∉ definedBy before := by
  cases op with
  | concat axis => exact ⟨[], _, [], rfl, List.mem_map.mpr ⟨k, List.mem_range.mpr hk, rfl⟩, List.not_mem_nil⟩
  | head n_feat n_out =>
    obtain rfl : k = 0 := Nat.lt_one_iff.mp hk
    exact ⟨headShape.lines.take 1, _, _, rfl, by decide, by decide⟩
  | atr period =>
    have hcases : k = 0 ∨ k = 1 ∨ k = 2 := by
      dsimp only [reads, arity] at hk
      omega
    rcases hcases with rfl | rfl | rfl
    · exact ⟨[], _, _, rfl, by decide, by decide⟩
    · exact ⟨[], _, _, rfl, by decide, by decide⟩
    · exact ⟨atrShape.lines.take 1, _, _, rfl, by decide, by decide⟩
  | rsi | add | sub | mul | div | max | min =>
    have hcases : k = 0 ∨ k = 1 := by
      dsimp only [reads, arity] at hk
      omega
    rcases hcases with rfl | rfl <;> exact ⟨[], _, _, rfl, by decide, by decide⟩
  | _ =>
    obtain rfl : k = 0 := Nat.lt_one_iff.mp hk
    exact ⟨[], _, _, rfl, by decide, by decide⟩

end Op

end Opsense
