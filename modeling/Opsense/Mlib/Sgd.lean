import Opsense.Lib.Checked

/-!
# The optimiser

`SGDOptimizer` of `opsense-mlib/src/sgd.rs`, in exact numbers. What evaluates the objective returns the points it evaluates
it at, beside its result. There is `none` for a panic, and for a quotient by zero, which is not a number.
-/

namespace Opsense

/-- `f64::round`: what is half way goes away from zero. -/
def roundAway (x : ℚ) : Int := if 0 ≤ x then ⌊x + 1 / 2⌋ else ⌈x - 1 / 2⌉

/-- The bounds of a parameter. There is `none` for an infinite one. -/
structure ParamBounds where
  lo : Option ℚ
  hi : Option ℚ
deriving DecidableEq

namespace ParamBounds

def Ordered (b : ParamBounds) : Prop := ∀ lo ∈ b.lo, ∀ hi ∈ b.hi, lo ≤ hi

instance (b : ParamBounds) : Decidable b.Ordered := inferInstanceAs (Decidable (∀ lo ∈ b.lo, ∀ hi ∈ b.hi, lo ≤ hi))

def Contains (b : ParamBounds) (x : ℚ) : Prop := (∀ lo ∈ b.lo, lo ≤ x) ∧ ∀ hi ∈ b.hi, x ≤ hi

end ParamBounds

/-- `f64::clamp`, which panics where the bounds are not in order. -/
def clipParam (v : ℚ) (b : ParamBounds) : Option ℚ :=
  if b.Ordered then
    if b.lo.any (v < ·) then b.lo
    else if b.hi.any (· < v) then b.hi
    else some v
  else none

structure SGDOptimizer where
  lr : ℚ
  momentum : ℚ
  max_epochs : Nat
  tol : ℚ
  epsilon : ℚ
  lr_decay : ℚ
  grad_clip : ℚ
  bounds : List ParamBounds
  is_integer : List Bool
  lr_decay_mem : 0 ≤ lr_decay ∧ lr_decay ≤ 1 / 2
  grad_clip_nonneg : 0 ≤ grad_clip
  is_integer_length : is_integer.length = bounds.length

structure SgdState where
  params : List ℚ
  velocity : List ℚ
  history : List ℚ
  velocity_length : velocity.length = params.length

namespace SGDOptimizer

/-! ## Builders -/

def new (n : Nat) : SGDOptimizer where
  lr := 1 / 100
  momentum := 9 / 10
  max_epochs := 1000
  tol := 1 / 10 ^ 6
  epsilon := 1 / 1000
  lr_decay := 0
  grad_clip := 0
  bounds := List.replicate n ⟨none, none⟩
  is_integer := List.replicate n false
  lr_decay_mem := ⟨le_rfl, by norm_num⟩
  grad_clip_nonneg := le_rfl
  is_integer_length := by simp

def withBounds (opt : SGDOptimizer) (i : Nat) (b : ParamBounds) : SGDOptimizer :=
  { opt with bounds := opt.bounds.set i b, is_integer_length := by simp [opt.is_integer_length] }

def withInteger (opt : SGDOptimizer) (i : Nat) : SGDOptimizer :=
  { opt with is_integer := opt.is_integer.set i true, is_integer_length := by simp [opt.is_integer_length] }

def withLr (opt : SGDOptimizer) (lr : ℚ) : SGDOptimizer := { opt with lr := lr }

def withMomentum (opt : SGDOptimizer) (m : ℚ) : SGDOptimizer := { opt with momentum := m }

def withMaxEpochs (opt : SGDOptimizer) (n : Nat) : SGDOptimizer := { opt with max_epochs := n }

def withTol (opt : SGDOptimizer) (tol : ℚ) : SGDOptimizer := { opt with tol := tol }

def withEpsilon (opt : SGDOptimizer) (eps : ℚ) : SGDOptimizer := { opt with epsilon := eps }

def withLrDecay (opt : SGDOptimizer) (decay : ℚ) : SGDOptimizer :=
  { opt with lr_decay := max 0 (min decay (1 / 2)), lr_decay_mem := ⟨le_max_left _ _, max_le (by norm_num) (min_le_right _ _)⟩ }

def withGradClip (opt : SGDOptimizer) (threshold : ℚ) : SGDOptimizer :=
  { opt with grad_clip := max threshold 0, grad_clip_nonneg := le_max_right _ _ }

/-! ## The gradient -/

/-- Two points on the sides of a point in one dimension. -/
structure Probe where
  plus : List ℚ
  minus : List ℚ
  actual_eps : ℚ
  eps : ℚ

def probe (opt : SGDOptimizer) (params : List ℚ) (i : Nat) : Option Probe := do
  let integer ← opt.is_integer[i]?
  let b ← opt.bounds[i]?
  let x ← params[i]?
  let eps := if integer then max opt.epsilon (1 / 2) else opt.epsilon
  let plus ← clipParam (x + eps) b
  let minus ← clipParam (x - eps) b
  return ⟨params.set i plus, params.set i minus, plus - minus, eps⟩

/-- The difference quotient of a probe. -/
def Probe.slope (f : List ℚ → ℚ) (base : ℚ) (p : Probe) : Option ℚ :=
  if 1 / 10 ^ 12 < p.actual_eps then some ((f p.plus - f p.minus) / p.actual_eps)
  else if p.eps = 0 then none
  else some ((f p.plus - base) / p.eps)

/-- The tasks of the probes are awaited in the order of the dimensions. -/
def estimateGradient (opt : SGDOptimizer) (f : List ℚ → ℚ) (params : List ℚ) : Option (List ℚ × List (List ℚ)) := do
  let base := f params
  let probes ← (List.range params.length).mapM (opt.probe params)
  let grad ← probes.mapM (Probe.slope f base)
  return (grad, params :: probes.flatMap fun p => [p.plus, p.minus])

/-! ## Epochs -/

/-- A parameter is clipped, and rounded and clipped again when it is an integer. -/
def settle (opt : SGDOptimizer) (i : Nat) (x : ℚ) : Option ℚ := do
  let b ← opt.bounds[i]?
  let x ← clipParam x b
  let integer ← opt.is_integer[i]?
  if integer then clipParam (roundAway x) b else some x

/-- `Vec::with_capacity` panics for more than `isize::MAX` bytes. -/
def init (opt : SGDOptimizer) (initial : List ℚ) : Option SgdState :=
  if initial.length ≠ opt.bounds.length ∨ 2 ^ 63 ≤ 8 * opt.max_epochs then none
  else do
    let params ← initial.zipIdx.mapM fun x => opt.settle x.2 x.1
    return ⟨params, List.replicate params.length 0, [], by simp⟩

def clipGradient (opt : SGDOptimizer) (grad : List ℚ) : List ℚ :=
  if 0 < opt.grad_clip then grad.map fun g => max (-opt.grad_clip) (min g opt.grad_clip) else grad

/-- The next value of a parameter, and its velocity. -/
def update (opt : SGDOptimizer) (lr : ℚ) (grad : List ℚ) (item : (ℚ × ℚ) × Nat) : Option (ℚ × ℚ) := do
  let g ← grad[item.2]?
  let velocity := opt.momentum * item.1.2 + lr * g
  let param ← opt.settle item.2 (item.1.1 + velocity)
  return (param, velocity)

/-- The value of the objective at the next state, and that state. -/
def step (opt : SGDOptimizer) (f : List ℚ → ℚ) (state : SgdState) : Option ((ℚ × SgdState) × List (List ℚ)) := do
  let (grad, calls) ← opt.estimateGradient f state.params
  let lr := opt.lr * (1 - opt.lr_decay) ^ asI32 state.history.length
  let items ← (state.params.zip state.velocity).zipIdx.mapM (opt.update lr (opt.clipGradient grad))
  let params := items.map Prod.fst
  let obj := f params
  return ((obj, ⟨params, items.map Prod.snd, state.history ++ [obj], by simp [params]⟩), calls ++ [params])

/-- There is `none` for the objective before the first epoch, `NEG_INFINITY`. -/
def converged (opt : SGDOptimizer) (prev_obj : Option ℚ) (current_obj : ℚ) : Bool :=
  prev_obj.any fun prev => |current_obj - prev| < opt.tol

/-- A number of epochs, unless it converges before. -/
def epochs (opt : SGDOptimizer) (f : List ℚ → ℚ) : Nat → Option ℚ → SgdState → Option (SgdState × List (List ℚ))
  | 0, _, state => some (state, [])
  | n + 1, prev_obj, state => do
    let ((current_obj, state), calls) ← opt.step f state
    if opt.converged prev_obj current_obj then return (state, calls)
    else
      let (state, rest) ← opt.epochs f n (some current_obj) state
      return (state, calls ++ rest)

/-- The last parameters and the history of the objective. -/
def optimize (opt : SGDOptimizer) (f : List ℚ → ℚ) (initial : List ℚ) : Option ((List ℚ × List ℚ) × List (List ℚ)) := do
  let state ← opt.init initial
  let (state, calls) ← opt.epochs f opt.max_epochs none state
  return ((state.params, state.history), calls)

end SGDOptimizer

end Opsense
