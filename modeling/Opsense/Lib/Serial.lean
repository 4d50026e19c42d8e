import Mathlib
import Opsense.Lib.Machine

/-!
# Tasks that take turns

Tasks work on a shared state, each in steps of its own program. A step either goes on, without a change of the state, or is the last
one: it may change the state and gives the answer of the task. The steps of the tasks come in any order. When each task that
ends would, started at that moment, do the same, the tasks have done what they do one after another, in the order in which they
ended (`serial_of_current`).
-/

namespace Opsense

/-- Tasks `μ`: the points of their programs, what a task does at one of them, and what it does from there when it is alone. -/
structure Tasks (σ μ π α : Type*) where
  start : μ → π
  step : σ → π → σ × (π ⊕ α)
  alone : σ → π → σ × α
  quiet : ∀ s p s' p', step s p = (s', .inl p') → s' = s
  alone_inl : ∀ s p s' p', step s p = (s', .inl p') → alone s p = alone s' p'
  alone_inr : ∀ s p s' a, step s p = (s', .inr a) → alone s p = (s', a)

/-- The shared state, the tasks with the points where they are, and the answers given so far. -/
structure Turns (σ μ π α : Type*) where
  shared : σ
  tasks : List (μ × (π ⊕ α))
  finished : List (μ × α)

/-- The `i`-th task that was called is `m`, and it is now at `p`. -/
def Turns.Pending {σ μ π α : Type*} (t : Turns σ μ π α) (i : Nat) (m : μ) (p : π) : Prop := t.tasks[i]? = some (m, .inl p)

/-- A task is called, or takes a step. -/
inductive Turn (μ : Type*) where
  | call (m : μ)
  | advance (i : Nat)

namespace Tasks

variable {σ μ π α : Type*} (T : Tasks σ μ π α)

/-- A task that is not done takes a step. -/
def advance (t : Turns σ μ π α) (i : Nat) : Turns σ μ π α :=
  match t.tasks[i]? with
  | some (m, .inl p) =>
    match T.step t.shared p with
    | (s, .inl p') => { t with shared := s, tasks := t.tasks.set i (m, .inl p') }
    | (s, .inr a) => ⟨s, t.tasks.set i (m, .inr a), t.finished ++ [(m, a)]⟩
  | _ => t

/-- One turn. -/
def turn (t : Turns σ μ π α) : Turn μ → Turns σ μ π α
  | .call m => { t with tasks := t.tasks ++ [(m, .inl (T.start m))] }
  | .advance i => T.advance t i

/-- The turns from a state of what is shared. -/
def machine (s : σ) : Machine (Turns σ μ π α) (Turn μ) Unit := ⟨⟨s, [], []⟩, fun t a => (T.turn t a, ())⟩

/-- Tasks one after another, with their answers. -/
def serial (s : σ) : List μ → σ × List α
  | [] => (s, [])
  | m :: ms =>
    let (s, a) := T.alone s (T.start m)
    let (s, as) := serial s ms
    (s, a :: as)

theorem serial_concat (s : σ) (ms : List μ) (m : μ) :
    T.serial s (ms ++ [m]) =
      ((T.alone (T.serial s ms).1 (T.start m)).1, (T.serial s ms).2 ++ [(T.alone (T.serial s ms).1 (T.start m)).2]) := by
  induction ms generalizing s with
  | nil => rfl
  | cons m' ms ih => simp [serial, ih]

/-- The task gets to the point by its steps. -/
inductive Reaches (m : μ) : π → Prop
  | start : Reaches m (T.start m)
  | step {s s' p p'} : Reaches m p → T.step s p = (s', .inl p') → Reaches m p'

/-- A task that takes its last step would do the same if it began now. -/
def Current (t : Turns σ μ π α) : Turn μ → Prop
  | .call _ => True
  | .advance i => ∀ m p s a, t.Pending i m p → T.step t.shared p = (s, .inr a) →
      T.alone t.shared p = T.alone t.shared (T.start m)

variable {T} {t : Turns σ μ π α}

/-- Every task stays at a point that it reaches. -/
theorem turn_reaches (h : ∀ i m p, t.Pending i m p → T.Reaches m p) (a : Turn μ) :
    ∀ i m p, (T.turn t a).Pending i m p → T.Reaches m p := by
  unfold Turns.Pending at h ⊢
  intro i m p hi
  cases a with
  | call m' =>
    dsimp only [turn] at hi
    rw [List.getElem?_append] at hi
    split at hi
    · exact h i m p hi
    · rw [List.getElem?_singleton] at hi
      split at hi
      · obtain ⟨rfl, rfl⟩ : m' = m ∧ T.start m' = p := by simpa using hi
        exact .start
      · cases hi
  | advance j =>
    dsimp only [turn] at hi
    unfold advance at hi
    split at hi
    · case h_1 m' q hj =>
      -- the entry that is set is the only one that may be new
      have hset : ∀ x, (t.tasks.set j (m', x))[i]? = some (m, Sum.inl p) →
          (m' = m ∧ x = Sum.inl p) ∨ t.tasks[i]? = some (m, Sum.inl p) := by
        intro x hx
        rw [List.getElem?_set] at hx
        split at hx
        · split at hx
          · exact .inl (by simpa using hx)
          · cases hx
        · exact .inr hx
      split at hi
      · case h_1 s q' hstep =>
        rcases hset _ hi with ⟨rfl, hp⟩ | hold
        · rw [← Sum.inl.inj hp]
          exact (h j _ q hj).step hstep
        · exact h i m p hold
      · rcases hset _ hi with ⟨-, hp⟩ | hold
        · cases hp
        · exact h i m p hold
    · exact h i m p hi

theorem reaches {s : σ} {as : List (Turn μ)} {i : Nat} {m : μ} {p : π} (h : ((T.machine s).state as).Pending i m p) :
    T.Reaches m p := by
  have hinit : ∀ i m p, ((T.machine s).init).Pending i m p → T.Reaches m p := by
    intro i m p hi
    cases hi
  exact Machine.invariant (I := fun t : Turns σ μ π α => ∀ i m p, t.Pending i m p → T.Reaches m p) hinit
    (fun t a ht => turn_reaches ht a) as i m p h

/-- A turn that is current leaves what the finished tasks do one after another. -/
theorem turn_serial {s : σ} {a : Turn μ} (h : T.serial s (t.finished.map Prod.fst) = (t.shared, t.finished.map Prod.snd))
    (hcurrent : T.Current t a) :
    T.serial s ((T.turn t a).finished.map Prod.fst) = ((T.turn t a).shared, (T.turn t a).finished.map Prod.snd) := by
  cases a with
  | call m => exact h
  | advance i =>
    dsimp only [turn]
    unfold advance
    split
    · case h_1 m p hi =>
      split
      · case h_1 s' p' hstep =>
        obtain rfl := T.quiet _ _ _ _ hstep
        exact h
      · case h_2 s' answer hstep =>
        have halone := hcurrent m p s' answer hi hstep
        rw [T.alone_inr _ _ _ _ hstep] at halone
        rw [List.map_append, List.map_singleton, serial_concat, h, ← halone, List.map_append]
        rfl
    · exact h

/-- Tasks whose last steps are current have done what they do one after another, in the order in which they ended. -/
theorem serial_of_current {s : σ} {as : List (Turn μ)} (h : (T.machine s).Along T.Current as) :
    T.serial s (((T.machine s).state as).finished.map Prod.fst) =
      (((T.machine s).state as).shared, ((T.machine s).state as).finished.map Prod.snd) := by
  induction as using List.reverseRecOn with
  | nil => rfl
  | append_singleton as a ih =>
    rw [Machine.state_snoc]
    exact turn_serial (ih h.init) h.last

end Tasks

end Opsense
