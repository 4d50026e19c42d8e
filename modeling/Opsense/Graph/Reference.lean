import Opsense.Graph.Indicators

/-!
# The indicators and what they stand for

Each indicator has a value over a window that does not speak of weights and masks (`Op.reference`). What is emitted computes it for the
last value and for the index of Wilder, and for the others under a condition on the window and the period (`Op.Holds`).
-/

namespace Opsense

/-- The newest values of a window. -/
def newest (m ws : Nat) (x : Nat → ℚ) : List ℚ := (List.range m).map fun j => x (ws - 1 - j)

/-- The share of the gains in gains and losses, where there are any. -/
def share (gain loss : ℚ) : Option ℚ := if gain + loss = 0 then none else some (gain / (gain + loss))

/-- The value of an indicator over the windows of its inputs, where it has one. -/
def Op.reference (ws : Nat) (x : Nat → Nat → ℚ) : Op → Option ℚ
  | last => some (x 0 (ws - 1))
  | roc period =>
    if period < ws ∧ x 0 (ws - 1 - period) ≠ 0 then some ((x 0 (ws - 1) - x 0 (ws - 1 - period)) / x 0 (ws - 1 - period)) else none
  | ema period => some (expMean (decay period) ws (x 0))
  | ma period => some (newestSum (Nat.min period ws) ws (x 0) / (Nat.min period ws : Nat))
  | rsi period =>
    -- the value before the first is the first itself, so the differences start with the second
    share (wilder period (fun j => Max.max (x 0 j - x 1 j) 0) (ws - 1)) (wilder period (fun j => Max.max (-(x 0 j - x 1 j)) 0) (ws - 1))
  | atr period => some (expMean (decay period) ws (trueRange (x 0) (x 1) (x 2)))
  | donchianHigh period => (newest (Nat.min period ws) ws (x 0)).max?
  | donchianLow period => (newest (Nat.min period ws) ws (x 0)).min?
  | _ => none

/-- An indicator, whose period is positive. -/
def Op.IsIndicator : Op → Prop
  | last => True
  | roc period | ema period | ma period | rsi period | atr period | donchianHigh period | donchianLow period => 0 < period
  | _ => False

/-- The exponents of the weights fit an `i32`. -/
def Op.FitsExponents (ws : Nat) : Op → Prop
  | ema _ | atr _ | rsi _ => Opsense.FitsExponents ws
  | _ => True

/-- The condition under which the emitted nodes compute an indicator. -/
def Op.Computes (ws : Nat) (x : Nat → Nat → ℚ) : Op → Prop
  | roc period => ws ≤ period ∨ x 0 (ws - 1 - period) = 0
  | ema period => period = 1 ∨ expSum (decay period) ws (x 0) = 0
  | ma period => period ≤ ws ∨ newestSum ws ws (x 0) = 0
  | atr period => period = 1 ∨ expSum (decay period) ws (trueRange (x 0) (x 1) (x 2)) = 0
  | donchianHigh period => ws ≤ period ∨ ∃ j < period, 0 ≤ x 0 (ws - 1 - j)
  | donchianLow period => ∀ i < ws - period, ∃ j < period, x 0 (ws - 1 - j) ≤ x 0 i + 1000000000
  | _ => True

/-! ## Numbers -/

section

variable {period ws : Nat}

theorem decay_nonneg (hperiod : 0 < period) : 0 ≤ decay period := by
  have hone : (1 : ℚ) ≤ period := by exact_mod_cast hperiod
  unfold decay
  rw [sub_nonneg, div_le_one (by positivity)]
  linarith

theorem decay_lt_one : decay period < 1 := by
  unfold decay
  have hpos : (0 : ℚ) < 2 / (period + 1) := by positivity
  linarith

theorem decay_eq_zero_iff : decay period = 0 ↔ period = 1 := by
  unfold decay
  have hne : (period : ℚ) + 1 ≠ 0 := by positivity
  rw [sub_eq_zero, eq_div_iff hne, one_mul]
  constructor
  · intro h
    have h' : (period : ℚ) = 1 := by linarith
    exact_mod_cast h'
  · rintro rfl
    norm_num

/-- The weights give the mean only when nothing is left of older values, or there is nothing to sum. -/
theorem ema_eq_iff (hperiod : 0 < period) (hws : 0 < ws) (x : Nat → ℚ) :
    (1 - decay period) * expSum (decay period) ws x = expMean (decay period) ws x ↔ period = 1 ∨ expSum (decay period) ws x = 0 := by
  rw [expSum_eq_expMean_iff (decay_nonneg hperiod) decay_lt_one hws, decay_eq_zero_iff]

theorem ma_eq_iff (hws : 0 < ws) (x : Nat → ℚ) :
    newestSum (min period ws) ws x / period = newestSum (min period ws) ws x / (min period ws : Nat) ↔
      period ≤ ws ∨ newestSum ws ws x = 0 := by
  by_cases hshort : period ≤ ws
  · rw [Nat.min_eq_left hshort]
    exact iff_of_true rfl (.inl hshort)
  · have hlt : ws < period := not_le.mp hshort
    have hws' : (ws : ℚ) ≠ 0 := by exact_mod_cast hws.ne'
    have hperiod : (period : ℚ) ≠ 0 := by exact_mod_cast (hws.trans hlt).ne'
    have hne : (ws : ℚ) - period ≠ 0 := by
      rw [sub_ne_zero]
      exact_mod_cast hlt.ne
    rw [Nat.min_eq_right hlt.le, or_iff_right hshort, div_eq_div_iff hperiod hws']
    constructor
    · intro h
      have hzero : newestSum ws ws x * (ws - period) = 0 := by linear_combination h
      exact (mul_eq_zero.mp hzero).resolve_right hne
    · intro h
      rw [h, zero_mul, zero_mul]

/-- An extreme of a masked window is the extreme of its newest values when no masked value goes beyond it. -/
theorem masked_iff {sel : List ℚ → Option ℚ} {R : ℚ → ℚ → Prop} (hsel : ∀ l v, sel l = some v ↔ v ∈ l ∧ ∀ b ∈ l, R b v)
    {x f : Nat → ℚ} (hnew : ∀ j < ws, ws - period ≤ j → f j = x j) {v : ℚ} (hv : sel (newest (min period ws) ws x) = some v) :
    sel ((List.range ws).map f) = some v ↔ ∀ i < ws - period, R (f i) v := by
  rw [hsel] at hv ⊢
  obtain ⟨hmem, hall⟩ := hv
  have hnewest : ∀ j < ws, ws - period ≤ j → f j ∈ newest (min period ws) ws x := by
    intro j hj hle
    refine List.mem_map.mpr ⟨ws - 1 - j, List.mem_range.mpr (by omega), ?_⟩
    rw [show ws - 1 - (ws - 1 - j) = j by omega, hnew j hj hle]
  constructor
  · intro h i hi
    exact h.2 _ (List.mem_map.mpr ⟨i, List.mem_range.mpr (by omega), rfl⟩)
  · intro h
    constructor
    · obtain ⟨j, hj, rfl⟩ := List.mem_map.mp hmem
      have hj' := List.mem_range.mp hj
      refine List.mem_map.mpr ⟨ws - 1 - j, List.mem_range.mpr (by omega), hnew _ (by omega) (by omega)⟩
    · intro b hb
      obtain ⟨j, hj, rfl⟩ := List.mem_map.mp hb
      by_cases hle : ws - period ≤ j
      · exact hall _ (hnewest j (List.mem_range.mp hj) hle)
      · exact h j (by omega)

/-- A value is within an extreme of the newest values when it is within one of them. -/
theorem within_newest_iff {sel : List ℚ → Option ℚ} {R : ℚ → ℚ → Prop} (hsel : ∀ l v, sel l = some v ↔ v ∈ l ∧ ∀ b ∈ l, R b v)
    (htrans : ∀ a b c, R a b → R b c → R a c) {m : Nat} {x : Nat → ℚ} {v : ℚ} (hv : sel (newest m ws x) = some v) (c : ℚ) :
    R c v ↔ ∃ j < m, R c (x (ws - 1 - j)) := by
  obtain ⟨hmem, hall⟩ := (hsel _ _).mp hv
  constructor
  · intro h
    obtain ⟨j, hj, rfl⟩ := List.mem_map.mp hmem
    exact ⟨j, List.mem_range.mp hj, h⟩
  · rintro ⟨j, hj, h⟩
    exact htrans _ _ _ h (hall _ (List.mem_map.mpr ⟨j, List.mem_range.mpr hj, rfl⟩))

theorem max?_iff (l : List ℚ) (v : ℚ) : l.max? = some v ↔ v ∈ l ∧ ∀ b ∈ l, b ≤ v := List.max?_eq_some_iff

theorem min?_iff (l : List ℚ) (v : ℚ) : l.min? = some v ↔ v ∈ l ∧ ∀ b ∈ l, v ≤ b := List.min?_eq_some_iff

end

/-! ## The indicators -/

/-- The names of the inputs of a node are bound to windows, and the names of its own are not bound. -/
structure Feeds (env : Bindings) (i : Nat) (ins : List In) (n ws : Nat) (x : Nat → Nat → ℚ) : Prop where
  bound : ∀ k < n, ∃ input, ins[k]? = some input ∧ env input.name = some (.row ws (x k))
  fresh : ∀ tag, '_' ∈ tag.toList → env (tag ++ nodeName i) = none

/-- An operator emits nodes that compute its reference. -/
def Op.Agrees (op : Op) (env : Bindings) (i : Nat) (ins : List In) (ws : Nat) (x : Nat → Nat → ℚ) : Prop :=
  ∃ e, op.emit ws (ins.map In.name) (nodeName i) = some e ∧
    ∀ v, op.reference ws x = some v → e.run env (nodeName i) = some (.scalar v)

section

variable {op : Op} {env : Bindings} {i ws period : Nat} {ins : List In} {x : Nat → Nat → ℚ}

theorem Feeds.input {n k : Nat} (h : Feeds env i ins n ws x) (hk : k < n) :
    ∃ name, (ins.map In.name)[k]? = some name ∧ '_' ∉ name.toList ∧ env name = some (.row ws (x k)) := by
  obtain ⟨input, hinput, henv⟩ := h.bound k hk
  exact ⟨input.name, by rw [List.getElem?_map, hinput]; rfl, input.name_plain, henv⟩

theorem Feeds.arity_le {n : Nat} (h : Feeds env i ins n ws x) : n ≤ ins.length := by
  by_contra hlt
  obtain ⟨input, hinput, -⟩ := h.bound ins.length (not_le.mp hlt)
  rw [List.getElem?_eq_none le_rfl] at hinput
  cases hinput

/-- What is emitted agrees with the reference when the numbers do. -/
theorem agrees_iff {r : Option ℚ} (hop : op.IsIndicator) (hfeeds : Feeds env i ins op.arity ws x)
    (hrun : ∀ e, FitsWindow ws → op.emit ws (ins.map In.name) (nodeName i) = some e → e.run env (nodeName i) = r.map .scalar) :
    op.Agrees env i ins ws x ↔ FitsWindow ws ∧ ∀ v, op.reference ws x = some v → r = some v := by
  have hhead : op.headFeatures = none ∧ op.fills = true := by
    cases op <;> first | exact hop.elim | exact ⟨rfl, rfl⟩
  have hsome : (op.emit ws (ins.map In.name) (nodeName i)).isSome = true ↔ FitsWindow ws := by
    rw [Op.emit_isSome hhead.1, hhead.2, List.length_map]
    exact ⟨fun h => h.2 rfl, fun h => ⟨hfeeds.arity_le, fun _ => h⟩⟩
  have hvalue : ∀ v, r.map Tensor.scalar = some (.scalar v) ↔ r = some v := by
    intro v
    cases r with
    | none => simp
    | some w => simp [Tensor.scalar_inj]
  constructor
  · rintro ⟨e, he, hall⟩
    have hfits := hsome.mp (Option.isSome_iff_exists.mpr ⟨e, he⟩)
    refine ⟨hfits, fun v hv => (hvalue v).mp ?_⟩
    rw [← hrun e hfits he]
    exact hall v hv
  · rintro ⟨hfits, hall⟩
    obtain ⟨e, he⟩ := Option.isSome_iff_exists.mp (hsome.mpr hfits)
    refine ⟨e, he, fun v hv => ?_⟩
    rw [hrun e hfits he]
    exact (hvalue v).mpr (hall v hv)

theorem agrees_weighted {weights : Option (List ℚ)} {w name : String} {value : (Nat → ℚ) → ℚ} (hop : op.IsIndicator)
    (hfeeds : Feeds env i ins op.arity ws x) (harity : op.arity = 1) (hw : '_' ∈ w.toList)
    (hemit : op.emit ws (ins.map In.name) (nodeName i) = Op.emitWeighted weights ws w name (ins.map In.name) (nodeName i))
    (hweights : ∀ data, weights = some data → Weighs data ws value) :
    op.Agrees env i ins ws x ↔ FitsWindow ws ∧ ∀ v, op.reference ws x = some v → value (x 0) = v := by
  rw [agrees_iff (r := some (value (x 0))) hop hfeeds]
  · simp only [Option.some.injEq]
  · intro e hfits he
    obtain ⟨input, hinput, hplain, henv⟩ := hfeeds.input (k := 0) (by omega)
    rw [hemit] at he
    unfold Op.emitWeighted at he
    simp only [hinput, Option.bind_eq_bind, Option.bind_some, Option.bind_eq_some_iff, Option.pure_def, Option.some.injEq] at he
    obtain ⟨data, hdata, rfl⟩ := he
    exact run_weighted hplain hw henv hfits (hweights data hdata)

theorem agrees_masked {mask : Option (List ℚ)} {op_type m name reduce rname : String} {f : ℚ → ℚ → ℚ} {sel : List ℚ → Option ℚ}
    {weight : Nat → ℚ} (hop : op.IsIndicator) (hfeeds : Feeds env i ins op.arity ws x) (harity : op.arity = 1) (hm : '_' ∈ m.toList)
    (hemit : op.emit ws (ins.map In.name) (nodeName i) =
      Op.emitMasked mask ws op_type m name reduce rname (ins.map In.name) (nodeName i))
    (hf : onnxBinary op_type = Tensor.zip f)
    (hreduce : onnxUnary reduce [.ints "axes" [1], .int "keepdims" 1] = Tensor.reduce sel)
    (hmask : ∀ data, mask = some data → data.length = ws ∧ ∀ j < ws, data.getD j 0 = weight j) :
    op.Agrees env i ins ws x ↔ FitsWindow ws ∧
      ∀ v, op.reference ws x = some v → sel ((List.range ws).map fun j => f (x 0 j) (weight j)) = some v := by
  refine agrees_iff hop hfeeds fun e hfits he => ?_
  obtain ⟨input, hinput, hplain, henv⟩ := hfeeds.input (k := 0) (by omega)
  rw [hemit] at he
  unfold Op.emitMasked at he
  simp only [hinput, Option.bind_eq_bind, Option.bind_some, Option.bind_eq_some_iff, Option.pure_def, Option.some.injEq] at he
  obtain ⟨data, hdata, rfl⟩ := he
  obtain ⟨hlen, hget⟩ := hmask data hdata
  have hwindow : ((List.range ws).map fun j => f (x 0 j) (data.getD j 0)) = (List.range ws).map fun j => f (x 0 j) (weight j) :=
    List.map_congr_left fun j hj => by rw [hget j (List.mem_range.mp hj)]
  rw [run_masked hplain hm henv hfits hlen hf hreduce, hwindow]

/-- A masked window has the extreme of its newest values when no masked value goes beyond all of these. -/
theorem masked_agrees_iff {sel : List ℚ → Option ℚ} {R : ℚ → ℚ → Prop} (hsel : ∀ l v, sel l = some v ↔ v ∈ l ∧ ∀ b ∈ l, R b v)
    (htrans : ∀ a b c, R a b → R b c → R a c) (hsome : ∀ l, l ≠ [] → (sel l).isSome = true) (hws : 0 < ws) (hperiod : 0 < period)
    {y f : Nat → ℚ} (hnew : ∀ j < ws, ws - period ≤ j → f j = y j) :
    (∀ v, sel (newest (min period ws) ws y) = some v → sel ((List.range ws).map f) = some v) ↔
      ∀ i < ws - period, ∃ j < period, R (f i) (y (ws - 1 - j)) := by
  have hne : newest (min period ws) ws y ≠ [] := by
    unfold newest
    rw [Ne, List.map_eq_nil_iff, List.range_eq_nil]
    omega
  obtain ⟨v, hv⟩ := Option.isSome_iff_exists.mp (hsome _ hne)
  have hforall : (∀ w, sel (newest (min period ws) ws y) = some w → sel ((List.range ws).map f) = some w) ↔
      sel ((List.range ws).map f) = some v := by
    constructor
    · exact fun h => h v hv
    · intro h w hw
      rw [hv] at hw
      cases hw
      exact h
  rw [hforall, masked_iff hsel hnew hv]
  refine forall₂_congr fun i hi => ?_
  rw [within_newest_iff hsel htrans hv, Nat.min_eq_left (by omega)]

theorem maskDonchian_spec {data : List ℚ} (h : maskDonchian ws period = some data) :
    data.length = ws ∧ ∀ j < ws, data.getD j 0 = if ws - period ≤ j then 1 else 0 := by
  unfold maskDonchian at h
  obtain ⟨m, hm, h⟩ := Option.bind_eq_some_iff.mp h
  rw [floats_eq_some hm] at h
  cases h
  exact ⟨by simp, fun j hj => getD_mapIdx_replicate hj⟩

theorem maskMinComplement_spec {data : List ℚ} (h : maskMinComplement ws period = some data) :
    data.length = ws ∧ ∀ j < ws, data.getD j 0 = if ws - period ≤ j then 0 else 1000000000 := by
  unfold maskMinComplement at h
  obtain ⟨m, hm, h⟩ := Option.bind_eq_some_iff.mp h
  rw [floats_eq_some hm] at h
  cases h
  exact ⟨by simp, fun j hj => getD_mapIdx_replicate hj⟩

theorem donchianHigh_agrees_iff (hws : 0 < ws) (hperiod : 0 < period) (hfeeds : Feeds env i ins 1 ws x) :
    (Op.donchianHigh period).Agrees env i ins ws x ↔ FitsWindow ws ∧ (Op.donchianHigh period).Computes ws x := by
  rw [agrees_masked (show (Op.donchianHigh period).IsIndicator from hperiod) hfeeds rfl (by decide) rfl rfl rfl fun data => maskDonchian_spec]
  refine and_congr_right fun _ => ?_
  have hnew : ∀ j < ws, ws - period ≤ j → x 0 j * (if ws - period ≤ j then (1 : ℚ) else 0) = x 0 j := by
    intro j _ hj
    rw [if_pos hj, mul_one]
  refine (masked_agrees_iff max?_iff (fun a b c => le_trans) (fun l => List.isSome_max?_of_ne_nil) hws hperiod hnew).trans ?_
  have hold : ∀ i < ws - period, x 0 i * (if ws - period ≤ i then (1 : ℚ) else 0) = 0 := by
    intro i hi
    rw [if_neg (not_le.mpr hi), mul_zero]
  constructor
  · intro h
    by_cases hshort : ws ≤ period
    · exact .inl hshort
    · obtain ⟨j, hj, hle⟩ := h 0 (by omega)
      rw [hold 0 (by omega)] at hle
      exact .inr ⟨j, hj, hle⟩
  · rintro (hshort | ⟨j, hj, hle⟩) i hi
    · omega
    · rw [hold i hi]
      exact ⟨j, hj, hle⟩

theorem donchianLow_agrees_iff (hws : 0 < ws) (hperiod : 0 < period) (hfeeds : Feeds env i ins 1 ws x) :
    (Op.donchianLow period).Agrees env i ins ws x ↔ FitsWindow ws ∧ (Op.donchianLow period).Computes ws x := by
  rw [agrees_masked (show (Op.donchianLow period).IsIndicator from hperiod) hfeeds rfl (by decide) rfl rfl rfl fun data => maskMinComplement_spec]
  refine and_congr_right fun _ => ?_
  have hnew : ∀ j < ws, ws - period ≤ j → x 0 j + (if ws - period ≤ j then (0 : ℚ) else 1000000000) = x 0 j := by
    intro j _ hj
    rw [if_pos hj, add_zero]
  refine (masked_agrees_iff min?_iff (fun a b c hab hbc => le_trans hbc hab) (fun l => List.isSome_min?_of_ne_nil) hws hperiod hnew).trans ?_
  refine forall₂_congr fun i hi => ?_
  rw [if_neg (not_le.mpr hi)]

theorem roc_agrees_iff (hperiod : 0 < period) (hfeeds : Feeds env i ins 1 ws x) :
    (Op.roc period).Agrees env i ins ws x ↔ FitsWindow ws ∧ (Op.roc period).Computes ws x := by
  rw [agrees_iff (r := none) (show (Op.roc period).IsIndicator from hperiod) hfeeds fun e _ he => run_roc hfeeds.fresh he]
  refine and_congr_right fun _ => ?_
  dsimp only [Op.reference, Op.Computes]
  split
  · case isTrue h =>
    refine iff_of_false (fun hall => nomatch hall _ rfl) ?_
    rintro (hshort | hzero)
    · omega
    · exact h.2 hzero
  · case isFalse h =>
    refine iff_of_true nofun ?_
    by_contra hnot
    push Not at hnot
    exact h hnot

theorem rsi_agrees_iff (hws : 0 < ws) (hperiod : 0 < period) (hexp : FitsExponents ws) (hfeeds : Feeds env i ins 2 ws x) :
    (Op.rsi period).Agrees env i ins ws x ↔ FitsWindow ws := by
  have hrun : ∀ e, FitsWindow ws → (Op.rsi period).emit ws (ins.map In.name) (nodeName i) = some e →
      e.run env (nodeName i) = ((Op.rsi period).reference ws x).map .scalar := by
    intro e hfits he
    obtain ⟨closes, hcloses, hplain, henv⟩ := hfeeds.input (k := 0) (by decide)
    obtain ⟨prev, hprev, hplain', henv'⟩ := hfeeds.input (k := 1) (by decide)
    obtain ⟨data, hdata⟩ := Option.isSome_iff_exists.mp ((isSome_rsiWeights period).mpr hfits)
    rw [run_rsi hplain hplain' ⟨hcloses, hprev⟩ henv henv' hfits hdata (weighs_rsiWeights hws hperiod hexp hdata) he, Tensor.div_scalar]
    dsimp only [Op.reference, share]
    split <;> rfl
  rw [agrees_iff (show (Op.rsi period).IsIndicator from hperiod) hfeeds hrun]
  exact and_iff_left fun v hv => hv

theorem atr_agrees_iff (hws : 0 < ws) (hperiod : 0 < period) (hexp : FitsExponents ws) (hfeeds : Feeds env i ins 3 ws x) :
    (Op.atr period).Agrees env i ins ws x ↔ FitsWindow ws ∧ (Op.atr period).Computes ws x := by
  have hrun : ∀ e, FitsWindow ws → (Op.atr period).emit ws (ins.map In.name) (nodeName i) = some e →
      e.run env (nodeName i) =
        (some ((1 - decay period) * expSum (decay period) ws (trueRange (x 0) (x 1) (x 2)))).map .scalar := by
    intro e hfits he
    obtain ⟨high, hhigh, hplain, henv⟩ := hfeeds.input (k := 0) (by decide)
    obtain ⟨low, hlow, hplain', henv'⟩ := hfeeds.input (k := 1) (by decide)
    obtain ⟨prev, hprev, hplain'', henv''⟩ := hfeeds.input (k := 2) (by decide)
    obtain ⟨data, hdata⟩ := Option.isSome_iff_exists.mp ((isSome_emaWeights period).mpr hfits)
    exact run_atr hplain hplain' hplain'' ⟨hhigh, hlow, hprev⟩ henv henv' henv'' hfits hdata (weighs_emaWeights hperiod hexp hdata) he
  rw [agrees_iff (show (Op.atr period).IsIndicator from hperiod) hfeeds hrun]
  refine and_congr_right fun _ => ?_
  simp only [Op.reference, Option.some.injEq, forall_eq']
  exact ema_eq_iff hperiod hws _

theorem ema_agrees_iff (hws : 0 < ws) (hperiod : 0 < period) (hexp : FitsExponents ws) (hfeeds : Feeds env i ins 1 ws x) :
    (Op.ema period).Agrees env i ins ws x ↔ FitsWindow ws ∧ (Op.ema period).Computes ws x := by
  rw [agrees_weighted (show (Op.ema period).IsIndicator from hperiod) hfeeds rfl (by decide) rfl fun data => weighs_emaWeights hperiod hexp]
  refine and_congr_right fun _ => ?_
  simp only [Op.reference, Option.some.injEq, forall_eq']
  exact ema_eq_iff hperiod hws _

theorem ma_agrees_iff (hws : 0 < ws) (hperiod : 0 < period) (hfeeds : Feeds env i ins 1 ws x) :
    (Op.ma period).Agrees env i ins ws x ↔ FitsWindow ws ∧ (Op.ma period).Computes ws x := by
  rw [agrees_weighted (show (Op.ma period).IsIndicator from hperiod) hfeeds rfl (by decide) rfl fun data => weighs_smaWeights hperiod]
  refine and_congr_right fun _ => ?_
  simp only [Op.reference, Option.some.injEq, forall_eq']
  exact ma_eq_iff hws _

theorem last_agrees_iff (hws : 0 < ws) (hfeeds : Feeds env i ins 1 ws x) : Op.last.Agrees env i ins ws x ↔ FitsWindow ws := by
  rw [agrees_weighted (show Op.last.IsIndicator from trivial) hfeeds rfl (by decide) rfl fun data => weighs_extractW hws]
  simp [Op.reference]

theorem agrees_iff_computes (hop : op.IsIndicator) (hws : 0 < ws) (hexp : op.FitsExponents ws) (hfeeds : Feeds env i ins op.arity ws x) :
    op.Agrees env i ins ws x ↔ FitsWindow ws ∧ op.Computes ws x := by
  cases op with
  | last => exact (last_agrees_iff hws hfeeds).trans (and_iff_left trivial).symm
  | roc period => exact roc_agrees_iff hop hfeeds
  | ema period => exact ema_agrees_iff hws hop hexp hfeeds
  | ma period => exact ma_agrees_iff hws hop hfeeds
  | rsi period => exact (rsi_agrees_iff hws hop hexp hfeeds).trans (and_iff_left trivial).symm
  | atr period => exact atr_agrees_iff hws hop hexp hfeeds
  | donchianHigh period => exact donchianHigh_agrees_iff hws hop hfeeds
  | donchianLow period => exact donchianLow_agrees_iff hws hop hfeeds
  | _ => exact hop.elim

/-- What is emitted for an indicator computes it when the bytes of the window fit `isize`, the exponents of the weights fit an `i32`, and
the window and the period are as they should be; where the exponents fit, it computes it only then. -/
theorem emitted_agrees (hop : op.IsIndicator) (hws : 0 < ws) (hfeeds : Feeds env i ins op.arity ws x) :
    (FitsWindow ws ∧ op.FitsExponents ws ∧ op.Computes ws x → op.Agrees env i ins ws x) ∧
      (op.FitsExponents ws → op.Agrees env i ins ws x → FitsWindow ws ∧ op.Computes ws x) := by
  constructor
  · rintro ⟨hfits, hexp, hcomputes⟩
    exact (agrees_iff_computes hop hws hexp hfeeds).mpr ⟨hfits, hcomputes⟩
  · intro hexp hagrees
    exact (agrees_iff_computes hop hws hexp hfeeds).mp hagrees

end

/-- A node of an extractor whose window is given. -/
def oneWindow (x : List ℚ) : Bindings := fun name => if name = "in0" then some (.row x.length fun j => x.getD j 0) else none

theorem feeds_oneWindow (x : List ℚ) : Feeds (oneWindow x) 0 [.fromExtractor 0] 1 x.length fun _ j => x.getD j 0 where
  bound := by
    intro k hk
    obtain rfl : k = 0 := Nat.lt_one_iff.mp hk
    exact ⟨.fromExtractor 0, rfl, rfl⟩
  fresh := by
    intro tag htag
    exact if_neg (plain_ne_aux (x := "in0") (by decide) htag).symm

theorem ma_of_two : (Op.ma 2).Agrees (oneWindow [1, 3]) 0 [.fromExtractor 0] 2 fun _ j => [1, 3].getD j 0 :=
  (emitted_agrees (show (Op.ma 2).IsIndicator from Nat.two_pos) (by decide) (feeds_oneWindow [1, 3])).1
    ⟨by decide, trivial, .inl (by decide)⟩

/-- Over falling prices the channel has the top at the masked value, which is zero. -/
theorem masked_top : ¬(Op.donchianHigh 1).Agrees (oneWindow [-2, -3]) 0 [.fromExtractor 0] 2 fun _ j => [-2, -3].getD j 0 := by
  intro h
  obtain ⟨-, hcomputes⟩ := (donchianHigh_agrees_iff (by decide) (by decide) (feeds_oneWindow [-2, -3])).mp h
  rcases hcomputes with hshort | ⟨j, hj, hle⟩
  · exact absurd hshort (by decide)
  · obtain rfl : j = 0 := Nat.lt_one_iff.mp hj
    norm_num at hle

end Opsense
