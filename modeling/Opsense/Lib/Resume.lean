import Mathlib

/-!
# Loops that can be interrupted

A loop takes turns, and gives its state back when a deadline has passed before a turn, so that a later call can go on from there
(`drive`). A loop that ends on its own (`Ends`) ends with the same when it is interrupted and resumed any number of times
(`Ends.resumed`). The calls share its turns among them (`EndsAfter.shared`): two of them leave the same state exactly when there
is no turn between them.
-/

namespace Opsense

namespace Resumable

variable {κ ρ ε : Type*} (turn : κ → Except ε (κ ⊕ ρ))

/-- The turns of one call: the state before a turn for which the deadline has passed, or what the loop ends with. It gives nothing
when `fuel` is not enough. -/
def drive : Nat → Option Nat → κ → Option (Except ε (κ ⊕ ρ))
  | _, some 0, k => some (.ok (.inl k))
  | 0, _, _ => none
  | fuel + 1, deadline, k =>
    match turn k with
    | .error e => some (.error e)
    | .ok (.inl k) => drive fuel (deadline.map Nat.pred) k
    | .ok (.inr r) => some (.ok (.inr r))

/-- One call after another, each from where the one before it was interrupted, and the last without a deadline. -/
def resumed (fuel : Nat) : List Nat → κ → Option (Except ε (κ ⊕ ρ))
  | [], k => drive turn fuel none k
  | deadline :: deadlines, k =>
    match drive turn fuel (some deadline) k with
    | some (.ok (.inl k)) => resumed fuel deadlines k
    | r => r

/-- The loop ends after at most so many turns. -/
def EndsIn : Nat → κ → ρ → Prop
  | 0, _, _ => False
  | n + 1, k, r => turn k = .ok (.inr r) ∨ ∃ k', turn k = .ok (.inl k') ∧ EndsIn n k' r

/-- The loop ends. -/
def Ends (k : κ) (r : ρ) : Prop := ∃ n, EndsIn turn n k r

variable {turn} {k k' : κ} {r : ρ} {n fuel : Nat}

theorem Ends.last (h : turn k = .ok (.inr r)) : Ends turn k r := ⟨1, Or.inl h⟩

theorem Ends.next (h : turn k = .ok (.inl k')) (hends : Ends turn k' r) : Ends turn k r := by
  obtain ⟨n, hn⟩ := hends
  exact ⟨n + 1, Or.inr ⟨k', h, hn⟩⟩

/-- Only the next turn counts. -/
theorem Ends.congr (h : turn k = turn k') (hends : Ends turn k' r) : Ends turn k r := by
  obtain ⟨n, hn⟩ := hends
  cases n with
  | zero => exact hn.elim
  | succ n => exact ⟨n + 1, by rwa [EndsIn, h]⟩

/-- A call takes a turn unless its deadline has passed. -/
theorem drive_succ {deadline : Option Nat} (h : deadline ≠ some 0) (fuel : Nat) (k : κ) : drive turn (fuel + 1) deadline k =
    match turn k with
    | .error e => some (.error e)
    | .ok (.inl k) => drive turn fuel (deadline.map Nat.pred) k
    | .ok (.inr r) => some (.ok (.inr r)) := by
  rcases deadline with - | - | d
  · rfl
  · exact absurd rfl h
  · rfl

/-- More fuel changes nothing. -/
theorem drive_mono {deadline : Option Nat} {fuel' : Nat} {a : Except ε (κ ⊕ ρ)} (h : drive turn fuel deadline k = some a)
    (hle : fuel ≤ fuel') : drive turn fuel' deadline k = some a := by
  by_cases hzero : deadline = some 0
  · subst hzero
    cases fuel <;> cases fuel' <;> exact h
  · induction fuel generalizing fuel' deadline k with
    | zero =>
      rcases deadline with - | - | d
      · cases h
      · exact absurd rfl hzero
      · cases h
    | succ fuel ih =>
      obtain ⟨fuel', rfl⟩ : ∃ m, fuel' = m + 1 := ⟨fuel' - 1, by omega⟩
      rw [drive_succ hzero] at h ⊢
      rcases hturn : turn k with e | k' | r
      all_goals
        rw [hturn] at h
      · exact h
      · by_cases hzero' : deadline.map Nat.pred = some 0
        · dsimp only at h ⊢
          rw [hzero'] at h ⊢
          cases fuel <;> cases fuel' <;> exact h
        · exact ih h (Nat.le_of_succ_le_succ hle) hzero'
      · exact h

/-- A call that is interrupted leaves the rest of the turns. -/
theorem EndsIn.drive (h : EndsIn turn n k r) (hn : n ≤ fuel) (deadline : Option Nat) :
    drive turn fuel deadline k = some (.ok (.inr r)) ∨
      deadline.isSome ∧ ∃ k' m, m ≤ n ∧ drive turn fuel deadline k = some (.ok (.inl k')) ∧ EndsIn turn m k' r := by
  induction n generalizing k fuel deadline with
  | zero => exact h.elim
  | succ n ih =>
    obtain ⟨fuel, rfl⟩ : ∃ fuel', fuel = fuel' + 1 := ⟨fuel - 1, by omega⟩
    by_cases hzero : deadline = some 0
    · subst hzero
      exact Or.inr ⟨rfl, k, n + 1, le_refl _, rfl, h⟩
    · rw [drive_succ hzero]
      rcases h with h | ⟨k', h, hends⟩
      · rw [h]
        exact Or.inl rfl
      · rw [h]
        have hle : n ≤ fuel := Nat.le_of_succ_le_succ hn
        rcases ih hends hle (deadline.map Nat.pred) with hdone | ⟨hsome, k'', m, hm, hleft, hends'⟩
        · exact Or.inl hdone
        · exact Or.inr ⟨by simpa using hsome, k'', m, by omega, hleft, hends'⟩

/-- However a loop is interrupted, it ends with what it ends with on its own. -/
theorem Ends.resumed (h : Ends turn k r) :
    ∃ n, ∀ fuel, n ≤ fuel → ∀ deadlines, resumed turn fuel deadlines k = some (.ok (.inr r)) := by
  obtain ⟨n, hn⟩ := h
  refine ⟨n, fun fuel hfuel deadlines => ?_⟩
  have hrun : ∀ {m : Nat} {k : κ}, m ≤ n → EndsIn turn m k r →
      Resumable.resumed turn fuel deadlines k = some (.ok (.inr r)) := by
    induction deadlines with
    | nil =>
      intro m k hm hends
      exact (hends.drive (hm.trans hfuel) none).resolve_right fun h => Bool.false_ne_true h.1
    | cons deadline deadlines ih =>
      intro m k hm hends
      unfold Resumable.resumed
      rcases hends.drive (hm.trans hfuel) (some deadline) with hdone | ⟨-, k', m', hm', hleft, hends'⟩
      · rw [hdone]
      · rw [hleft]
        exact ih (hm'.trans hm) hends'
  exact hrun (le_refl n) hn

/-! ## The turns of each call -/

section Turns

variable (turn)

/-- The turn of this number is the last one. -/
def EndsAfter : Nat → κ → ρ → Prop
  | 0, _, _ => False
  | n + 1, k, r => (n = 0 ∧ turn k = .ok (.inr r)) ∨ ∃ k', turn k = .ok (.inl k') ∧ EndsAfter n k' r

/-- The state after so many turns. -/
def after : Nat → κ → Option κ
  | 0, k => some k
  | n + 1, k =>
    match turn k with
    | .ok (.inl k) => after n k
    | _ => none

/-- How many turns a call takes. -/
def turns : Nat → Option Nat → κ → Nat
  | _, some 0, _ => 0
  | 0, _, _ => 0
  | fuel + 1, deadline, k =>
    match turn k with
    | .ok (.inl k) => turns fuel (deadline.map Nat.pred) k + 1
    | _ => 1

/-- One call after another, as in `resumed`: how many turns each of them takes, and what it gives. -/
def calls (fuel : Nat) : List Nat → κ → Option (Except ε (List (Nat × (κ ⊕ ρ))))
  | [], k => (drive turn fuel none k).map (Except.map fun r => [(turns turn fuel none k, r)])
  | deadline :: deadlines, k =>
    match drive turn fuel (some deadline) k with
    | some (.ok (.inl k')) => (calls fuel deadlines k').map (Except.map ((turns turn fuel (some deadline) k, .inl k') :: ·))
    | r => r.map (Except.map fun r => [(turns turn fuel (some deadline) k, r)])

variable {turn} {d n' : Nat} {r' : ρ}

theorem EndsIn.exists_after (h : EndsIn turn n k r) : ∃ m, EndsAfter turn m k r := by
  induction n generalizing k with
  | zero => exact h.elim
  | succ n ih =>
    rcases h with hlast | ⟨k', hnext, h⟩
    · exact ⟨1, .inl ⟨rfl, hlast⟩⟩
    · obtain ⟨m, hm⟩ := ih h
      exact ⟨m + 1, .inr ⟨k', hnext, hm⟩⟩

theorem Ends.exists_after (h : Ends turn k r) : ∃ n, EndsAfter turn n k r := h.elim fun _ h => h.exists_after

/-- A loop ends once. -/
theorem EndsAfter.unique (h : EndsAfter turn n k r) (h' : EndsAfter turn n' k r') : n = n' := by
  induction n generalizing k n' with
  | zero => exact h.elim
  | succ n ih =>
    cases n' with
    | zero => exact h'.elim
    | succ n' =>
      rcases h with ⟨rfl, hlast⟩ | ⟨k₁, hnext, h⟩ <;> rcases h' with ⟨rfl, hlast'⟩ | ⟨k₂, hnext', h'⟩
      · rfl
      · simp [hlast] at hnext'
      · simp [hlast'] at hnext
      · obtain rfl : k₁ = k₂ := by simpa [hnext] using hnext'
        rw [ih h h']

theorem EndsAfter.rest (h : EndsAfter turn n k r) (hafter : after turn d k = some k') : d < n ∧ EndsAfter turn (n - d) k' r := by
  induction d generalizing k n with
  | zero =>
    obtain rfl := Option.some.inj hafter
    refine ⟨?_, h⟩
    cases n with
    | zero => exact h.elim
    | succ n => exact Nat.succ_pos n
  | succ d ih =>
    cases n with
    | zero => exact h.elim
    | succ n =>
      rcases h with ⟨-, hlast⟩ | ⟨k₁, hnext, h⟩
      · simp [after, hlast] at hafter
      · obtain ⟨hlt, hrest⟩ := ih h (by simpa [after, hnext] using hafter)
        exact ⟨Nat.succ_lt_succ hlt, by simpa using hrest⟩

theorem after_add (m : Nat) (h : after turn d k = some k') : after turn (d + m) k = after turn m k' := by
  induction d generalizing k with
  | zero =>
    obtain rfl := Option.some.inj h
    rw [Nat.zero_add]
  | succ d ih =>
    rw [Nat.succ_add]
    cases hturn : turn k with
    | error e => simp [after, hturn] at h
    | ok next =>
      cases next with
      | inl k₁ => simpa [after, hturn] using ih (by simpa [after, hturn] using h)
      | inr r => simp [after, hturn] at h

/-- A call takes all turns that are left, unless its deadline comes before the last of them. -/
theorem EndsAfter.call (h : EndsAfter turn n k r) (hn : n ≤ fuel) (deadline : Option Nat) :
    (drive turn fuel deadline k = some (.ok (.inr r)) ∧ turns turn fuel deadline k = n) ∨
      ∃ d k', deadline = some d ∧ drive turn fuel deadline k = some (.ok (.inl k')) ∧ turns turn fuel deadline k = d ∧
        after turn d k = some k' := by
  induction n generalizing k fuel deadline with
  | zero => exact h.elim
  | succ n ih =>
    obtain ⟨fuel, rfl⟩ : ∃ fuel', fuel = fuel' + 1 := ⟨fuel - 1, by omega⟩
    by_cases hzero : deadline = some 0
    · subst hzero
      exact .inr ⟨0, k, rfl, rfl, rfl, rfl⟩
    · have hturns : turns turn (fuel + 1) deadline k =
          match turn k with
          | .ok (.inl k) => turns turn fuel (deadline.map Nat.pred) k + 1
          | _ => 1 := by
        rcases deadline with - | - | d
        · rfl
        · exact absurd rfl hzero
        · rfl
      rw [drive_succ hzero, hturns]
      rcases h with ⟨rfl, hlast⟩ | ⟨k₁, hnext, h⟩
      · rw [hlast]
        exact .inl ⟨rfl, rfl⟩
      · rw [hnext]
        rcases ih h (Nat.le_of_succ_le_succ hn) (deadline.map Nat.pred) with ⟨hdone, hall⟩ | ⟨d, k', hd, hleft, hsome, hafter⟩
        · exact .inl ⟨hdone, congrArg (· + 1) hall⟩
        · obtain ⟨d', rfl⟩ : ∃ d', deadline = some (d' + 1) := by
            rcases deadline with - | - | d'
            · cases hd
            · exact absurd rfl hzero
            · exact ⟨d', rfl⟩
          obtain rfl : d' = d := by simpa using hd
          exact .inr ⟨d' + 1, k', rfl, hleft, congrArg (· + 1) hsome, by simpa [after, hnext] using hafter⟩

/-- The calls share the turns of a loop that ends after `n` of them with `r`: the first ones are interrupted, each by its deadline,
and the last one ends the loop. -/
structure Shared (turn : κ → Except ε (κ ⊕ ρ)) (deadlines : List Nat) (n : Nat) (k : κ) (r : ρ) (cs : List (Nat × (κ ⊕ ρ))) :
    Prop where
  total : (cs.map Prod.fst).sum = n
  last : ∃ marks : List (Nat × κ), ∃ left, cs = (marks.map fun m => (m.1, Sum.inl m.2)) ++ [(left, Sum.inr r)]
  deadline : ∀ (i d : Nat) (k' : κ), cs[i]? = some (d, .inl k') → deadlines[i]? = some d
  state : ∀ (i d : Nat) (k' : κ), cs[i]? = some (d, .inl k') → after turn ((cs.take (i + 1)).map Prod.fst).sum k = some k'

/-- One call takes all the turns. -/
theorem Shared.one (turn : κ → Except ε (κ ⊕ ρ)) (deadlines : List Nat) (n : Nat) (k : κ) (r : ρ) :
    Shared turn deadlines n k r [(n, .inr r)] := by
  refine ⟨by simp, ⟨[], n, rfl⟩, ?_, ?_⟩ <;>
  · intro i d k' hi
    cases i <;> simp at hi

theorem EndsAfter.shared (h : EndsAfter turn n k r) (hn : n ≤ fuel) (deadlines : List Nat) :
    ∃ cs, calls turn fuel deadlines k = some (.ok cs) ∧ Shared turn deadlines n k r cs := by
  induction deadlines generalizing k n with
  | nil =>
    rcases h.call hn none with ⟨hdone, hall⟩ | ⟨d, k', hd, -⟩
    · exact ⟨_, by simp [calls, hdone, hall, Except.map], .one turn [] n k r⟩
    · cases hd
  | cons deadline deadlines ih =>
    rcases h.call hn (some deadline) with ⟨hdone, hall⟩ | ⟨d, k', hd, hleft, hturns, hafter⟩
    · exact ⟨_, by simp [calls, hdone, hall, Except.map], .one turn _ n k r⟩
    · obtain rfl := Option.some.inj hd
      obtain ⟨hlt, hrest⟩ := h.rest hafter
      obtain ⟨cs, hcs, hshared⟩ := ih hrest (by omega)
      refine ⟨(deadline, .inl k') :: cs, by simp [calls, hleft, hturns, hcs, Except.map], ?_, ?_, ?_, ?_⟩
      · have htotal := hshared.total
        simp only [List.map_cons, List.sum_cons]
        omega
      · obtain ⟨marks, left, hmarks⟩ := hshared.last
        exact ⟨(deadline, k') :: marks, left, by rw [hmarks]; rfl⟩
      · intro i d k'' hi
        cases i with
        | zero =>
          obtain ⟨rfl, rfl⟩ : deadline = d ∧ k' = k'' := by simpa using hi
          rfl
        | succ i => exact hshared.deadline i d k'' hi
      · intro i d k'' hi
        cases i with
        | zero =>
          obtain ⟨rfl, rfl⟩ : deadline = d ∧ k' = k'' := by simpa using hi
          simpa using hafter
        | succ i =>
          rw [List.take_succ_cons, List.map_cons, List.sum_cons, after_add _ hafter]
          exact hshared.state i d k'' hi

/-- Two calls leave the same state exactly when no turn is taken between them. -/
theorem Shared.state_eq_iff {deadlines : List Nat} {cs : List (Nat × (κ ⊕ ρ))} (h : EndsAfter turn n k r)
    (hshared : Shared turn deadlines n k r cs) {i j d d' : Nat} {k₁ k₂ : κ} (hi : cs[i]? = some (d, .inl k₁))
    (hj : cs[j]? = some (d', .inl k₂)) :
    k₁ = k₂ ↔ ((cs.take (i + 1)).map Prod.fst).sum = ((cs.take (j + 1)).map Prod.fst).sum := by
  have hstate := hshared.state i d k₁ hi
  have hstate' := hshared.state j d' k₂ hj
  constructor
  · rintro rfl
    obtain ⟨hlt, hrest⟩ := h.rest hstate
    obtain ⟨hlt', hrest'⟩ := h.rest hstate'
    have := hrest.unique hrest'
    omega
  · intro heq
    rw [heq, hstate'] at hstate
    exact (Option.some.inj hstate).symm

end Turns

end Resumable

end Opsense
