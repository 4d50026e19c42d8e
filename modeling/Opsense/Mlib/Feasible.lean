import Opsense.Lib.Traverse
import Opsense.Mlib.Sgd

/-!
# Where the objective is evaluated

Every point at which the objective is evaluated lies within the bounds, and but for the probes an integer parameter is an integer or
one of its bounds (`stays_feasible`). A probe leaves such a point in one dimension.
-/

namespace Opsense

/-! ## Clipping -/

namespace ParamBounds

theorem clipParam_eq {b : ParamBounds} (hb : b.Ordered) (v : ℚ) :
    ∃ y, clipParam v b = some y ∧ b.Contains y ∧ (y = v ∨ b.lo = some y ∨ b.hi = some y) := by
  obtain ⟨lo, hi⟩ := b
  unfold clipParam
  rw [if_pos hb]
  cases lo with
  | none =>
    cases hi with
    | none => simp [Contains]
    | some h =>
      by_cases hv : h < v
      · simp [Contains, hv]
      · simp [Contains, hv, not_lt.mp hv]
  | some l =>
    have hle : ∀ h ∈ hi, l ≤ h := by simpa [Ordered] using hb
    by_cases hlow : v < l
    · simpa [Contains, hlow] using hle
    · cases hi with
      | none => simp [Contains, hlow, not_lt.mp hlow]
      | some h =>
        by_cases hv : h < v
        · simpa [Contains, hlow, hv] using hle h rfl
        · simp [Contains, hlow, hv, not_lt.mp hlow, not_lt.mp hv]

/-- Clipping goes no farther from a point within the bounds. -/
theorem abs_clipParam_sub_le {b : ParamBounds} {v x y : ℚ} (hx : b.Contains x) (hy : clipParam v b = some y) :
    |y - x| ≤ |v - x| := by
  obtain ⟨lo, hi⟩ := b
  obtain ⟨hlo, hhi⟩ := hx
  unfold clipParam at hy
  split_ifs at hy with hordered hlow hhigh
  · obtain rfl : lo = some y := hy
    have hv : v < y := by simpa using hlow
    have hyx : y ≤ x := hlo y rfl
    rw [abs_of_nonpos (by linarith), abs_of_nonpos (by linarith)]
    linarith
  · obtain rfl : hi = some y := hy
    have hv : y < v := by simpa using hhigh
    have hyx : x ≤ y := hhi y rfl
    rw [abs_of_nonneg (by linarith), abs_of_nonneg (by linarith)]
    linarith
  · rw [Option.some.inj hy]

end ParamBounds

namespace SGDOptimizer

variable {opt : SGDOptimizer} {f : List ℚ → ℚ}

/-- The bounds are in order. -/
def Ordered (opt : SGDOptimizer) : Prop := ∀ b ∈ opt.bounds, b.Ordered

instance (opt : SGDOptimizer) : Decidable opt.Ordered := inferInstanceAs (Decidable (∀ b ∈ opt.bounds, b.Ordered))

/-- All parameters lie within their bounds. -/
def Within (opt : SGDOptimizer) (p : List ℚ) : Prop :=
  p.length = opt.bounds.length ∧ ∀ (i : Nat) (x : ℚ) (b : ParamBounds), p[i]? = some x → opt.bounds[i]? = some b → b.Contains x

/-- A value within the bounds of a parameter, which is an integer or one of the bounds where the parameter is an integer. -/
def Fits (opt : SGDOptimizer) (i : Nat) (x : ℚ) : Prop :=
  ∀ b, opt.bounds[i]? = some b →
    b.Contains x ∧ (opt.is_integer[i]? = some true → (∃ n : ℤ, x = n) ∨ b.lo = some x ∨ b.hi = some x)

/-- A point the optimiser comes to rest at. -/
def Settled (opt : SGDOptimizer) (p : List ℚ) : Prop :=
  p.length = opt.bounds.length ∧ ∀ (i : Nat) (x : ℚ), p[i]? = some x → opt.Fits i x

/-- How far a probe goes in a dimension. -/
def width (opt : SGDOptimizer) (i : Nat) : ℚ := if opt.is_integer[i]? = some true then max opt.epsilon (1 / 2) else |opt.epsilon|

/-- A point beside `p`, in one dimension. -/
def Beside (opt : SGDOptimizer) (p q : List ℚ) : Prop :=
  opt.Within q ∧ ∃ i x y, p[i]? = some x ∧ q = p.set i y ∧ |y - x| ≤ opt.width i

theorem Settled.within {p : List ℚ} (h : opt.Settled p) : opt.Within p := ⟨h.1, fun i x b hx hb => (h.2 i x hx b hb).1⟩

variable {i : Nat}

/-- The bounds of a parameter are in order, and it is an integer or not. -/
theorem exists_dim (ho : opt.Ordered) (hi : i < opt.bounds.length) :
    ∃ b integer, opt.bounds[i]? = some b ∧ opt.is_integer[i]? = some integer ∧ b.Ordered :=
  ⟨_, _, List.getElem?_eq_getElem hi, List.getElem?_eq_getElem (hi.trans_eq opt.is_integer_length.symm),
    ho _ (List.getElem_mem hi)⟩

theorem settle_eq (ho : opt.Ordered) (hi : i < opt.bounds.length) (x : ℚ) :
    ∃ y, opt.settle i x = some y ∧ opt.Fits i y := by
  obtain ⟨b, integer, hb, hinteger, hordered⟩ := exists_dim ho hi
  obtain ⟨y, hy, hcontains, -⟩ := ParamBounds.clipParam_eq hordered x
  unfold settle Fits
  rw [hb, hinteger]
  cases integer with
  | false =>
    refine ⟨y, by simp [hy], fun b' hb' => ?_⟩
    obtain rfl := Option.some.inj hb'
    exact ⟨hcontains, by simp⟩
  | true =>
    obtain ⟨z, hz, hcontains, hwhole⟩ := ParamBounds.clipParam_eq hordered (roundAway y)
    refine ⟨z, by simp [hy, hz], fun b' hb' => ?_⟩
    obtain rfl := Option.some.inj hb'
    exact ⟨hcontains, fun _ => hwhole.imp_left fun h => ⟨_, h⟩⟩

/-! ## Probes -/

/-- The step of a probe is as wide as the dimension says. -/
theorem abs_eps {integer : Bool} (h : opt.is_integer[i]? = some integer) :
    |if integer then max opt.epsilon (1 / 2) else opt.epsilon| = opt.width i := by
  unfold width
  rw [h]
  cases integer with
  | false => simp
  | true => simp

theorem eps_ne_zero (heps : opt.epsilon ≠ 0) (integer : Bool) : (if integer then max opt.epsilon (1 / 2) else opt.epsilon) ≠ 0 := by
  cases integer with
  | false => simpa using heps
  | true =>
    have hpos : 0 < max opt.epsilon (1 / 2) := lt_max_of_lt_right one_half_pos
    simpa using hpos.ne'

/-- A clipped value in one dimension. -/
theorem beside_set {p : List ℚ} (hp : opt.Within p) {x v y : ℚ} {b : ParamBounds} (hx : p[i]? = some x) (hb : opt.bounds[i]? = some b)
    (hy : clipParam v b = some y) (hcontains : b.Contains y) (hv : |v - x| = opt.width i) :
    opt.Beside p (p.set i y) := by
  refine ⟨⟨by simpa using hp.1, ?_⟩, i, x, y, hx, rfl, ?_⟩
  · intro j z b' hz hb'
    by_cases hij : i = j
    · subst hij
      rw [List.getElem?_set_self (List.getElem?_eq_some_iff.mp hx).1, Option.some.injEq] at hz
      rw [hb, Option.some.injEq] at hb'
      rwa [← hz, ← hb']
    · rw [List.getElem?_set_ne hij] at hz
      exact hp.2 j z b' hz hb'
  · rw [← hv]
    exact ParamBounds.abs_clipParam_sub_le (hp.2 i x b hx hb) hy

theorem probe_eq (ho : opt.Ordered) (heps : opt.epsilon ≠ 0) {p : List ℚ} (hp : opt.Within p) (hi : i < p.length) :
    ∃ pr, opt.probe p i = some pr ∧ opt.Beside p pr.plus ∧ opt.Beside p pr.minus ∧ pr.eps ≠ 0 := by
  obtain ⟨b, integer, hb, hinteger, hordered⟩ := exists_dim ho (hi.trans_eq hp.1)
  have hx : p[i]? = some p[i] := List.getElem?_eq_getElem hi
  have hwidth := abs_eps hinteger
  have hne := eps_ne_zero heps integer
  unfold probe
  rw [hinteger, hb, hx]
  dsimp only [Option.bind_eq_bind, Option.bind_some]
  generalize (if integer then max opt.epsilon (1 / 2) else opt.epsilon) = eps at hwidth hne ⊢
  obtain ⟨plus, hplus, hplus', -⟩ := ParamBounds.clipParam_eq hordered (p[i] + eps)
  obtain ⟨minus, hminus, hminus', -⟩ := ParamBounds.clipParam_eq hordered (p[i] - eps)
  refine ⟨⟨p.set i plus, p.set i minus, plus - minus, eps⟩, by simp [hplus, hminus], ?_, ?_, hne⟩
  · exact beside_set hp hx hb hplus hplus' (by rwa [add_sub_cancel_left])
  · exact beside_set hp hx hb hminus hminus' (by rwa [sub_sub_cancel_left, abs_neg])

theorem slope_eq {base : ℚ} {p : Probe} (h : p.eps ≠ 0) : ∃ g, p.slope f base = some g := by
  unfold Probe.slope
  split_ifs
  · exact ⟨_, rfl⟩
  · exact ⟨_, rfl⟩

/-- The objective is evaluated at the point and beside it. -/
theorem estimateGradient_eq (ho : opt.Ordered) (heps : opt.epsilon ≠ 0) (f : List ℚ → ℚ) {p : List ℚ} (hp : opt.Within p) :
    ∃ grad calls, opt.estimateGradient f p = some (grad, calls) ∧ grad.length = p.length ∧ ∀ q ∈ calls, q = p ∨ opt.Beside p q := by
  have hprobe : ∀ i ∈ List.range p.length, ∃ pr, opt.probe p i = some pr := fun i hi =>
    (probe_eq ho heps hp (List.mem_range.mp hi)).imp fun _ h => h.1
  obtain ⟨probes, hprobes⟩ := exists_mapM hprobe
  have hbeside : ∀ pr ∈ probes, opt.Beside p pr.plus ∧ opt.Beside p pr.minus ∧ pr.eps ≠ 0 := by
    intro pr hpr
    obtain ⟨i, hi, hpr'⟩ := mem_mapM hprobes hpr
    obtain ⟨pr', hpr'', hbeside⟩ := probe_eq ho heps hp (List.mem_range.mp hi)
    obtain rfl := Option.some.inj (hpr'.symm.trans hpr'')
    exact hbeside
  obtain ⟨grad, hgrad⟩ := exists_mapM (f := Probe.slope f (f p)) fun pr hpr => slope_eq (hbeside pr hpr).2.2
  refine ⟨grad, p :: probes.flatMap fun pr => [pr.plus, pr.minus], ?_, ?_, ?_⟩
  · unfold estimateGradient
    simp [hprobes, hgrad]
  · rw [← (mapM_some hgrad).length_eq, ← (mapM_some hprobes).length_eq, List.length_range]
  · intro q hq
    rcases List.mem_cons.mp hq with rfl | hq
    · exact .inl rfl
    · obtain ⟨pr, hpr, hq⟩ := List.mem_flatMap.mp hq
      obtain ⟨hplus, hminus, -⟩ := hbeside pr hpr
      rcases List.mem_pair.mp hq with rfl | rfl
      · exact .inr hplus
      · exact .inr hminus

/-! ## Epochs -/

theorem settle_fits (ho : opt.Ordered) (hi : i < opt.bounds.length) {x y : ℚ} (h : opt.settle i x = some y) :
    opt.Fits i y := by
  obtain ⟨z, hz, hfits⟩ := settle_eq ho hi x
  rw [h, Option.some.injEq] at hz
  rwa [hz]

/-- Values that are settled one by one are a point that is settled. -/
theorem settled_of_mapM {α β : Type} {g : α × Nat → Option β} (value : β → ℚ) {l : List α} {bs : List β}
    (hlength : l.length = opt.bounds.length) (hbs : l.zipIdx.mapM g = some bs)
    (hfits : ∀ i a b, i < opt.bounds.length → g (a, i) = some b → opt.Fits i (value b)) : opt.Settled (bs.map value) := by
  obtain ⟨hlength', hget⟩ := mapM_zipIdx_some hbs
  refine ⟨by simp [hlength', hlength], fun i x hx => ?_⟩
  rw [List.getElem?_map, Option.map_eq_some_iff] at hx
  obtain ⟨b, hb, rfl⟩ := hx
  obtain ⟨a, ha, hgb⟩ := hget i b hb
  exact hfits i a b ((List.getElem?_eq_some_iff.mp ha).1.trans_eq hlength) hgb

theorem settled_init (ho : opt.Ordered) {initial : List ℚ} {s : SgdState} (h : opt.init initial = some s) :
    opt.Settled s.params := by
  unfold init at h
  split_ifs at h with hpanic
  obtain ⟨hlength, -⟩ := not_or.mp hpanic
  simp only [Option.bind_eq_bind, Option.bind_eq_some_iff, Option.pure_def, Option.some.injEq] at h
  obtain ⟨params, hparams, rfl⟩ := h
  have hsettled := settled_of_mapM id (not_not.mp hlength) hparams fun i a b hi hb => settle_fits ho hi hb
  rwa [List.map_id] at hsettled

theorem exists_init (ho : opt.Ordered) (hcapacity : 8 * opt.max_epochs < 2 ^ 63) {initial : List ℚ}
    (hdim : initial.length = opt.bounds.length) : ∃ s, opt.init initial = some s := by
  have hsettle : ∀ i x, initial[i]? = some x → ∃ y, opt.settle i x = some y := by
    intro i x hx
    obtain ⟨y, hy, -⟩ := settle_eq ho ((List.getElem?_eq_some_iff.mp hx).1.trans_eq hdim) x
    exact ⟨y, hy⟩
  obtain ⟨params, hparams⟩ := exists_mapM_zipIdx (f := fun x => opt.settle x.2 x.1) hsettle
  unfold init
  rw [if_neg (by omega)]
  simp [hparams]

theorem exists_update (ho : opt.Ordered) (lr : ℚ) {grad : List ℚ} (hgrad : grad.length = opt.bounds.length) (hi : i < opt.bounds.length)
    (item : ℚ × ℚ) : ∃ b, opt.update lr grad (item, i) = some b := by
  obtain ⟨g, hg⟩ : ∃ g, grad[i]? = some g := ⟨_, List.getElem?_eq_getElem (hi.trans_eq hgrad.symm)⟩
  obtain ⟨y, hy, -⟩ := settle_eq ho hi (item.1 + (opt.momentum * item.2 + lr * g))
  unfold update
  simp [hg, hy]

theorem update_fits (ho : opt.Ordered) {lr : ℚ} {grad : List ℚ} (hi : i < opt.bounds.length) {item b : ℚ × ℚ}
    (h : opt.update lr grad (item, i) = some b) : opt.Fits i b.1 := by
  unfold update at h
  simp only [Option.bind_eq_bind, Option.bind_eq_some_iff, Option.pure_def, Option.some.injEq] at h
  obtain ⟨g, -, y, hy, rfl⟩ := h
  exact settle_fits ho hi hy

/-- An epoch goes from a settled point to a settled point. -/
theorem step_eq (ho : opt.Ordered) (heps : opt.epsilon ≠ 0) (f : List ℚ → ℚ) {s : SgdState} (hs : opt.Settled s.params) :
    ∃ obj s' calls, opt.step f s = some ((obj, s'), calls) ∧ opt.Settled s'.params ∧
      ∀ q ∈ calls, opt.Settled q ∨ opt.Beside s.params q := by
  obtain ⟨grad, calls, hgrad, hlength, hcalls⟩ := estimateGradient_eq ho heps f hs.within
  have hclipped : (opt.clipGradient grad).length = s.params.length := by
    unfold clipGradient
    split_ifs <;> simp [hlength]
  have hzip : (s.params.zip s.velocity).length = opt.bounds.length := by simp [s.velocity_length, hs.1]
  obtain ⟨items, hitems⟩ := exists_mapM_zipIdx (l := s.params.zip s.velocity)
    (f := opt.update (opt.lr * (1 - opt.lr_decay) ^ asI32 s.history.length) (opt.clipGradient grad)) fun i item hitem =>
      exists_update ho _ (hclipped.trans hs.1) ((List.getElem?_eq_some_iff.mp hitem).1.trans_eq hzip) item
  have hsettled : opt.Settled (items.map Prod.fst) :=
    settled_of_mapM Prod.fst hzip hitems fun i item b hi hb => update_fits ho hi hb
  refine ⟨f (items.map Prod.fst), ⟨items.map Prod.fst, items.map Prod.snd, s.history ++ [f (items.map Prod.fst)], by simp⟩,
    calls ++ [items.map Prod.fst], ?_, hsettled, ?_⟩
  · unfold step
    simp [hgrad, hitems]
  · intro q hq
    rcases List.mem_append.mp hq with hq | hq
    · rcases hcalls q hq with rfl | hbeside
      · exact .inl hs
      · exact .inr hbeside
    · rw [List.mem_singleton.mp hq]
      exact .inl hsettled

/-- Where an epoch evaluates the objective. -/
def Feasible (opt : SGDOptimizer) (q : List ℚ) : Prop := opt.Settled q ∨ ∃ p, opt.Settled p ∧ opt.Beside p q

theorem epochs_eq (ho : opt.Ordered) (heps : opt.epsilon ≠ 0) (f : List ℚ → ℚ) (n : Nat) :
    ∀ (prev_obj : Option ℚ) {s : SgdState}, opt.Settled s.params →
      ∃ s' calls, opt.epochs f n prev_obj s = some (s', calls) ∧ opt.Settled s'.params ∧ ∀ q ∈ calls, opt.Feasible q := by
  induction n with
  | zero => exact fun prev_obj s hs => ⟨s, [], rfl, hs, by simp⟩
  | succ n ih =>
    intro prev_obj s hs
    obtain ⟨obj, s', calls, hstep, hs', hcalls⟩ := step_eq ho heps f hs
    have hfeasible : ∀ q ∈ calls, opt.Feasible q := fun q hq => (hcalls q hq).imp_right fun h => ⟨s.params, hs, h⟩
    unfold epochs
    by_cases hconverged : opt.converged prev_obj obj = true
    · exact ⟨s', calls, by simp [hstep, hconverged], hs', hfeasible⟩
    · obtain ⟨s'', rest, hrest, hs'', hrest'⟩ := ih (some obj) hs'
      refine ⟨s'', calls ++ rest, by simp [hstep, hconverged, hrest], hs'', fun q hq => ?_⟩
      exact (List.mem_append.mp hq).elim (hfeasible q) (hrest' q)

/-- The states that steps lead to, whatever the objective is at each. -/
inductive Comes (opt : SGDOptimizer) (initial : List ℚ) : SgdState → Prop where
  | init {s : SgdState} : opt.init initial = some s → Comes opt initial s
  | step {s s' : SgdState} {f : List ℚ → ℚ} {obj : ℚ} {calls : List (List ℚ)} :
    Comes opt initial s → opt.step f s = some ((obj, s'), calls) → Comes opt initial s'

theorem Comes.settled (ho : opt.Ordered) (heps : opt.epsilon ≠ 0) {initial : List ℚ} {s : SgdState} (h : Comes opt initial s) :
    opt.Settled s.params := by
  induction h with
  | init hinit => exact settled_init ho hinit
  | step _ hstep ih =>
    obtain ⟨obj, s', calls, hstep', hsettled, -⟩ := step_eq ho heps _ ih
    rw [hstep, Option.some.injEq, Prod.mk.injEq, Prod.mk.injEq] at hstep'
    rwa [hstep'.1.2]

/-- The optimiser evaluates the objective at settled points, and when it probes, in one dimension beside them. It ends at a settled
point. -/
theorem stays_feasible (opt : SGDOptimizer) (ho : opt.Ordered) (heps : opt.epsilon ≠ 0) (initial : List ℚ)
    (hdim : initial.length = opt.bounds.length) :
    (∀ s, Comes opt initial s → opt.Settled s.params ∧ ∀ f, ∃ obj s' calls, opt.step f s = some ((obj, s'), calls) ∧
      ∀ q ∈ calls, opt.Settled q ∨ opt.Beside s.params q) ∧
    (∀ f params history calls, opt.optimize f initial = some ((params, history), calls) →
      opt.Settled params ∧ ∀ q ∈ calls, opt.Feasible q) ∧
    (8 * opt.max_epochs < 2 ^ 63 → ∀ f, (opt.optimize f initial).isSome) := by
  refine ⟨?_, ?_, ?_⟩
  · intro s hs
    have hsettled := hs.settled ho heps
    refine ⟨hsettled, fun f => ?_⟩
    obtain ⟨obj, s', calls, hstep, -, hcalls⟩ := step_eq ho heps f hsettled
    exact ⟨obj, s', calls, hstep, hcalls⟩
  · intro f params history calls hrun
    unfold optimize at hrun
    simp only [Option.bind_eq_bind, Option.bind_eq_some_iff, Option.pure_def, Option.some.injEq] at hrun
    obtain ⟨s, hs, ⟨s', calls'⟩, hepochs, heq⟩ := hrun
    obtain ⟨s'', calls'', hepochs', hsettled, hcalls⟩ := epochs_eq ho heps f opt.max_epochs none (settled_init ho hs)
    rw [hepochs, Option.some.injEq, Prod.mk.injEq] at hepochs'
    obtain ⟨rfl, rfl⟩ := hepochs'
    simp only [Prod.mk.injEq] at heq
    obtain ⟨⟨rfl, rfl⟩, rfl⟩ := heq
    exact ⟨hsettled, hcalls⟩
  · intro hcapacity f
    obtain ⟨s, hs⟩ := exists_init ho hcapacity hdim
    obtain ⟨s', calls, hepochs, -⟩ := epochs_eq ho heps f opt.max_epochs none (settled_init ho hs)
    unfold optimize
    simp [hs, hepochs]

/-- An integer between two bounds. -/
def between (lo hi : ℚ) : SGDOptimizer := ((new 1).withBounds 0 ⟨some lo, some hi⟩).withInteger 0

/-- An objective with its maximum at 7. -/
def peak (p : List ℚ) : ℚ := 5 - (p.headD 0 - 7) ^ 2

theorem stays_feasible_between : ((between 1 20).optimize peak [1]).isSome ∧
    (∀ s, Comes (between 1 20) [1] s → (between 1 20).Settled s.params) ∧
    ∀ params history calls, (between 1 20).optimize peak [1] = some ((params, history), calls) →
      ∀ q ∈ calls, (between 1 20).Feasible q := by
  have ho : (between 1 20).Ordered := by decide +kernel
  have heps : (between 1 20).epsilon ≠ 0 := by decide +kernel
  obtain ⟨hstates, hends, hsome⟩ := stays_feasible (between 1 20) ho heps [1] (by decide +kernel)
  exact ⟨hsome (by decide +kernel) peak, fun s hs => (hstates s hs).1, fun params history calls hrun => (hends _ _ _ _ hrun).2⟩

/-- A probe of an integer parameter is between two integers, and bounds that are no integers are not left for one. Without a step
there is no slope. -/
theorem evaluates_fractions :
    (((between 1 20).init [1]).bind ((between 1 20).step peak)).map (fun r => decide ([3 / 2] ∈ r.2)) = some true ∧
    (((between (3 / 10) 5).withMaxEpochs 0).optimize peak [0]).map (fun r => r.1.1) = some [3 / 10] ∧
    (((between (3 / 10) 5).init [0]).bind ((between (3 / 10) 5).step peak)).map (fun r => decide ([3 / 10] ∈ r.2)) = some true ∧
    ((((new 1).withEpsilon 0).init [1]).bind (((new 1).withEpsilon 0).step peak)).isNone := by
  decide +kernel

end SGDOptimizer

end Opsense
