import Mathlib.Data.List.Basic
import Mathlib.Data.List.Infix

/-!
# Runs of a machine with outputs

A machine takes one action at a time and answers each with an output. A run is the list of the actions taken, from the
initial state; its trace is the list of the actions with the outputs the machine gave. The rules here are the two an
invariant needs: it holds of every state a run reaches (`Machine.invariant`), and it holds along a run whose every step
meets a condition (`Machine.invariant_of_along`).
-/

namespace Opsense

/-- A machine over states `σ` that takes actions `α` and answers with outputs `β`. -/
structure Machine (σ α β : Type*) where
  init : σ
  step : σ → α → σ × β

namespace Machine

variable {σ α β : Type*} (M : Machine σ α β)

/-- The state after one action. -/
def next (s : σ) (a : α) : σ := (M.step s a).1

/-- The output of one action. -/
def out (s : σ) (a : α) : β := (M.step s a).2

/-- The state a run ends in, from a given state. -/
def stateFrom (s : σ) (as : List α) : σ := as.foldl M.next s

/-- The state a run ends in. -/
def state (as : List α) : σ := M.stateFrom M.init as

/-- The actions of a run with their outputs, from a given state. -/
def traceFrom : σ → List α → List (α × β)
  | _, [] => []
  | s, a :: as => (a, M.out s a) :: traceFrom (M.next s a) as

/-- The actions of a run with their outputs. -/
def trace (as : List α) : List (α × β) := M.traceFrom M.init as

/-- Every step of a run meets the condition `C`, which is asked of the state before the step and the action. -/
def Along (C : σ → α → Prop) (as : List α) : Prop := ∀ pre a, pre ++ [a] <+: as → C (M.state pre) a

@[simp] theorem state_nil : M.state [] = M.init := rfl

@[simp] theorem trace_nil : M.trace [] = [] := rfl

@[simp] theorem state_snoc (as : List α) (a : α) : M.state (as ++ [a]) = M.next (M.state as) a := by
  simp [state, stateFrom]

theorem stateFrom_cons (s : σ) (a : α) (as : List α) :
    M.stateFrom s (a :: as) = M.stateFrom (M.next s a) as := rfl

theorem stateFrom_append (s : σ) (as bs : List α) :
    M.stateFrom s (as ++ bs) = M.stateFrom (M.stateFrom s as) bs := by
  simp [stateFrom]

theorem state_append (as bs : List α) : M.state (as ++ bs) = M.stateFrom (M.state as) bs :=
  M.stateFrom_append _ _ _

theorem traceFrom_append (s : σ) (as bs : List α) :
    M.traceFrom s (as ++ bs) = M.traceFrom s as ++ M.traceFrom (M.stateFrom s as) bs := by
  induction as generalizing s with
  | nil => rfl
  | cons a as ih =>
    rw [List.cons_append, traceFrom, traceFrom, ih, List.cons_append, stateFrom_cons]

@[simp] theorem trace_snoc (as : List α) (a : α) :
    M.trace (as ++ [a]) = M.trace as ++ [(a, M.out (M.state as) a)] := by
  rw [trace, traceFrom_append]
  rfl

variable {as : List α}

/-- Every action of a run is taken in a state that the run before it ends in. -/
theorem mem_traceFrom {s : σ} {x : α × β} (h : x ∈ M.traceFrom s as) :
    ∃ pre, x = (x.1, M.out (M.stateFrom s pre) x.1) := by
  induction as generalizing s with
  | nil => exact absurd h List.not_mem_nil
  | cons a as ih =>
    rcases List.mem_cons.mp h with rfl | h
    · exact ⟨[], rfl⟩
    · obtain ⟨pre, hpre⟩ := ih h
      exact ⟨a :: pre, hpre⟩

variable {M}

variable {C : σ → α → Prop}

/-- A condition met along a run is met along its beginnings. -/
theorem Along.restrict {as bs : List α} (h : M.Along C as) (hp : bs <+: as) : M.Along C bs :=
  fun pre a hpre => h pre a (hpre.trans hp)

theorem Along.init {a : α} (h : M.Along C (as ++ [a])) : M.Along C as :=
  h.restrict (List.prefix_append _ _)

/-- A condition met along a run is met by its last step. -/
theorem Along.last {a : α} (h : M.Along C (as ++ [a])) : C (M.state as) a :=
  h as a (List.prefix_refl _)

theorem Along.nil : M.Along C [] := by
  intro pre a hp
  simp at hp

/-- A run with one more step meets a condition exactly when the run does and the step does. -/
theorem along_snoc {a : α} :
    M.Along C (as ++ [a]) ↔ M.Along C as ∧ C (M.state as) a := by
  refine ⟨fun h => ⟨h.init, h.last⟩, fun ⟨h, ha⟩ pre b hp => ?_⟩
  rcases List.prefix_concat_iff.mp hp with heq | hp
  · obtain ⟨rfl, hb⟩ := List.append_inj' heq rfl
    rw [List.singleton_inj] at hb
    exact hb ▸ ha
  · exact h pre b hp

/-- Every step of a run from a given state meets the condition: the steps are checked one after another. -/
def AlongFrom (M : Machine σ α β) (C : σ → α → Prop) : σ → List α → Prop
  | _, [] => True
  | s, a :: as => C s a ∧ AlongFrom M C (M.next s a) as

instance decidableAlongFrom (C : σ → α → Prop) [∀ s a, Decidable (C s a)] : ∀ s as, Decidable (M.AlongFrom C s as)
  | _, [] => isTrue trivial
  | s, a :: as => @instDecidableAnd _ _ _ (decidableAlongFrom C (M.next s a) as)

theorem alongFrom_snoc (s : σ) (as : List α) (a : α) :
    M.AlongFrom C s (as ++ [a]) ↔ M.AlongFrom C s as ∧ C (M.stateFrom s as) a := by
  induction as generalizing s with
  | nil => simp [AlongFrom, stateFrom]
  | cons b as ih => rw [List.cons_append, AlongFrom, AlongFrom, ih, stateFrom_cons, and_assoc]

/-- A condition along a run can be checked step by step. -/
theorem along_iff_alongFrom : M.Along C as ↔ M.AlongFrom C M.init as := by
  induction as using List.reverseRecOn with
  | nil => exact ⟨fun _ => trivial, fun _ => Along.nil⟩
  | append_singleton as a ih => rw [along_snoc, alongFrom_snoc, ih]; rfl

/-- What holds of a state and is kept by the actions of a run holds where the run ends. -/
theorem invariant_from {I : σ → Prop} {s : σ} (h : I s) (hstep : ∀ s, ∀ a ∈ as, I s → I (M.next s a)) : I (M.stateFrom s as) := by
  induction as generalizing s with
  | nil => exact h
  | cons a as ih => exact ih (hstep s a List.mem_cons_self h) fun s b hb => hstep s b (List.mem_cons_of_mem _ hb)

/-- What holds at the start and is kept by every step holds of the state every run reaches. -/
theorem invariant {I : σ → Prop} (hinit : I M.init) (hstep : ∀ s a, I s → I (M.next s a)) :
    ∀ as, I (M.state as) := by
  intro as
  induction as using List.reverseRecOn with
  | nil => exact hinit
  | append_singleton as a ih => rw [state_snoc]; exact hstep _ _ ih

/-- What holds at the start and is kept by every step that meets a condition holds along every run whose steps meet it. -/
theorem invariant_of_along {I : σ → Prop} (hinit : I M.init) (hstep : ∀ s a, I s → C s a → I (M.next s a)) :
    ∀ as, M.Along C as → I (M.state as) := by
  intro as
  induction as using List.reverseRecOn with
  | nil => exact fun _ => hinit
  | append_singleton as a ih =>
    intro h
    rw [state_snoc]
    exact hstep _ _ (ih h.init) h.last

/-- The invariant may speak of the trace as well: what holds of the start and the empty trace and is kept by every step
that meets the condition holds along every run whose steps meet it. -/
theorem invariant_trace {I : σ → List (α × β) → Prop} (hinit : I M.init [])
    (hstep : ∀ s t a, I s t → C s a → I (M.next s a) (t ++ [(a, M.out s a)])) :
    ∀ as, M.Along C as → I (M.state as) (M.trace as) := by
  intro as
  induction as using List.reverseRecOn with
  | nil => exact fun _ => hinit
  | append_singleton as a ih =>
    intro h
    rw [state_snoc, trace_snoc]
    exact hstep _ _ _ (ih h.init) h.last

/-! ## Simulation -/

/-- `R` relates the initial states, and related states answer an action alike and stay related. -/
structure Simulates {τ : Type*} (M : Machine σ α β) (N : Machine τ α β) (R : σ → τ → Prop) : Prop where
  init : R M.init N.init
  step : ∀ s t a, R s t → M.out s a = N.out t a ∧ R (M.next s a) (N.next t a)

variable {τ : Type*} {N : Machine τ α β} {R : σ → τ → Prop}

/-- The same actions lead to related states. -/
theorem Simulates.state (h : Simulates M N R) (as : List α) : R (M.state as) (N.state as) := by
  induction as using List.reverseRecOn with
  | nil => exact h.init
  | append_singleton as a ih => rw [state_snoc, state_snoc]; exact (h.step _ _ _ ih).2

/-- The same actions are answered alike. -/
theorem Simulates.trace (h : Simulates M N R) (as : List α) : M.trace as = N.trace as := by
  induction as using List.reverseRecOn with
  | nil => rfl
  | append_singleton as a ih => rw [trace_snoc, trace_snoc, ih, (h.step _ _ _ (h.state as)).1]

/-! ## A record of the steps -/

/-- The machine with a record of its steps beside its state. -/
def watched {γ : Type*} (M : Machine σ α β) (record : γ) (note : γ → σ → α → γ) : Machine (σ × γ) α β where
  init := (M.init, record)
  step s a := ((M.next s.1 a, note s.2 s.1 a), M.out s.1 a)

/-- A record does not change what the machine does. -/
theorem watched_state {γ : Type*} (M : Machine σ α β) (record : γ) (note : γ → σ → α → γ) (as : List α) :
    ((M.watched record note).state as).1 = M.state as := by
  induction as using List.reverseRecOn with
  | nil => rfl
  | append_singleton as a ih =>
    rw [state_snoc, state_snoc, ← ih]
    rfl

end Machine

end Opsense
