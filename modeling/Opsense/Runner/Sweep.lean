import Opsense.Runner.Agreement

/-!
# Sessions that are swept

The sweeper of `opsense-runner/src/session.rs` finds the idle sessions under the lock, and closes and removes them one after the other
without looking again. What it closes is idle in each run in which nobody uses a session between the time it was found idle and its
removal, and no session is found idle while an execute is in progress on it (`sweeper_closes_idle`).
-/

namespace Opsense

namespace Runner

/-- The session that an execute in progress runs on. -/
def Stage.executing : Stage → Option String
  | .executeCheck req _ => some req.session_id
  | .executeTouch req => some req.session_id
  | .executeSend req => some req.session_id
  | _ => none

/-- The session that the next step makes, refreshes or removes, or starts the kernel of. -/
def Stage.uses : Stage → Option String
  | .startSpawn params => some params.session_id
  | .startInsert _ id => some id
  | .startAttach _ id _ => some id
  | .verifyTake session_id _ => some session_id
  | .executeTouch req => some req.session_id
  | .closeTouch session_id => some session_id
  | .closeRemove session_id => some session_id
  | _ => none

/-- The sessions that were found idle and are not removed yet. -/
def Sweeper.collected : Sweeper → List String
  | .waiting => []
  | .closing ids => ids
  | .removing id ids => id :: ids

def SessionRegistry.lastActive (s : SessionRegistry) (id : String) : Option Nat := (s.sessions.lookup id).map SessionMeta.last_active

/-- A session was not used for longer than the timeout, and no execute is in progress on it. -/
def IdleAt (idle : Nat) (t : RunnerState) (instant : Nat) (id : String) : Prop :=
  (∃ last ∈ t.registry.lastActive id, idle < instant - last) ∧ ∀ stage ∈ t.ops, stage.executing ≠ some id

/-- The sweeper closes a kernel or removes an entry only of a session that is idle. -/
def SweepsIdle (idle : Nat) (t : RunnerState) : RunnerStep → Prop
  | .sweep instant _ =>
    match t.sweeper with
    | .closing (id :: _) => id ∈ t.registry.kernels → IdleAt idle t instant id
    | .removing id _ => id ∈ t.registry.sessions → IdleAt idle t instant id
    | _ => True
  | _ => True

/-- Nobody uses a session that was found idle, and none is found idle while an execute is in progress on it. -/
def LeftAlone (idle : Nat) (t : RunnerState) : RunnerStep → Prop
  | .execute req _ => req.session_id ∉ t.sweeper.collected
  | .step op _ => ∀ stage ∈ t.ops[op]?, ∀ id ∈ stage.uses, id ∉ t.sweeper.collected
  | .sweep instant _ => t.sweeper = .waiting → ∀ stage ∈ t.ops, ∀ id ∈ stage.executing, id ∉ expiredIds t.registry instant idle
  | _ => True

/-- What the clock shows the sweeper. -/
def RunnerStep.reading : RunnerStep → Option Nat
  | .sweep instant _ => some instant
  | _ => none

/-- The clock does not go back. -/
def Clocked (as : List RunnerStep) : Prop := (as.filterMap RunnerStep.reading).Pairwise (· ≤ ·)

instance (idle : Nat) (t : RunnerState) (instant : Nat) (id : String) : Decidable (IdleAt idle t instant id) := by
  unfold IdleAt
  infer_instance

instance (idle : Nat) (t : RunnerState) (a : RunnerStep) : Decidable (SweepsIdle idle t a) := by
  unfold SweepsIdle
  rcases a with _ | _ | _ | _ | _ | ⟨instant, expired⟩ <;> dsimp only
  case sweep =>
    generalize t.sweeper = sweeper
    rcases sweeper with _ | (_ | ⟨id, ids⟩) | ⟨id, ids⟩ <;> dsimp only <;> infer_instance
  all_goals infer_instance

instance (idle : Nat) (t : RunnerState) (a : RunnerStep) : Decidable (LeftAlone idle t a) := by
  unfold LeftAlone
  rcases a with _ | _ | _ | _ | _ | _ <;> dsimp only <;> infer_instance

instance (as : List RunnerStep) : Decidable (Clocked as) := by
  unfold Clocked
  infer_instance

/-! ## What a step does to a session that nobody uses -/

variable {scheme : SignatureScheme} {auth : Option LocalAuth} {encrypt : Bytes → Bytes → Except String Bytes} {idle : Nat}

theorem lastActive_advance {stage : Stage} {id : String} (h : stage.uses ≠ some id) (s : SessionRegistry) (env : Env) :
    (advance scheme auth encrypt s env stage).1.lastActive id = s.lastActive id := by
  unfold SessionRegistry.lastActive
  rw [lookup_advance]
  cases stage with
  | startInsert params id' => rw [entryAfter, if_neg fun hid => h (congrArg some hid.symm)]
  | startAttach params id' plaintext => rw [entryAfter, if_neg fun hid => h (congrArg some hid.symm)]
  | verifyTake session_id response => rw [entryAfter, if_neg fun hid => h (congrArg some hid.symm)]
  | verifySettle session_id plaintext ok =>
    unfold entryAfter
    dsimp only
    split_ifs <;> cases s.sessions.lookup id <;> rfl
  | executeTouch req => rw [entryAfter, if_neg fun hid => h (congrArg some hid.symm)]
  | closeTouch session_id => rw [entryAfter, if_neg fun hid => h (congrArg some hid.symm)]
  | closeRemove session_id => rw [entryAfter, if_neg fun hid => h (congrArg some hid.symm)]
  | _ => rfl

/-- An operation that is an execute after its next step was one before. -/
theorem executing_advance {s : SessionRegistry} {env : Env} {stage : Stage} {id : String}
    (h : (advance scheme auth encrypt s env stage).2.executing = some id) : stage.executing = some id := by
  have hfollows := advance_follows scheme auth encrypt s env stage
  revert hfollows h
  generalize (advance scheme auth encrypt s env stage).2 = stage'
  intro h hfollows
  cases hfollows with
  | executeChecked req ctx => exact h
  | executeTouched req => exact h
  | _ => cases h

/-! ## The sweeper -/

variable {t : RunnerState}

theorem IdleAt.mono {instant instant' : Nat} {id : String} (h : IdleAt idle t instant id) (hle : instant ≤ instant') :
    IdleAt idle t instant' id := by
  obtain ⟨⟨last, hlast, hidle⟩, hops⟩ := h
  exact ⟨⟨last, hlast, by omega⟩, hops⟩

variable {instant : Nat}

/-- A session stays idle while its entry keeps its time and no execute of it begins. -/
theorem IdleAt.keep {t t' : RunnerState} {id : String} (h : IdleAt idle t instant id)
    (hlast : t'.registry.lastActive id = t.registry.lastActive id)
    (hops : ∀ stage ∈ t'.ops, stage.executing = some id → ∃ stage ∈ t.ops, stage.executing = some id) : IdleAt idle t' instant id := by
  refine ⟨hlast ▸ h.1, fun stage hstage hexecuting => ?_⟩
  obtain ⟨stage', hstage', hexecuting'⟩ := hops stage hstage hexecuting
  exact h.2 stage' hstage' hexecuting'

/-- What the sweeper has found idle is idle, when the clock shows `instant` or later. -/
structure Swept (idle : Nat) (t : RunnerState) (instant : Nat) : Prop where
  nodup : t.sweeper.collected.Nodup
  idleAt : ∀ id ∈ t.sweeper.collected, IdleAt idle t instant id

theorem Swept.begin (h : Swept idle t instant) {stage : Stage} (hstage : ∀ id ∈ t.sweeper.collected, stage.executing ≠ some id) :
    Swept idle { t with ops := t.ops ++ [stage] } instant := by
  refine ⟨h.nodup, fun id hid => (h.idleAt id hid).keep rfl fun stage' hstage' hexecuting => ?_⟩
  rcases List.mem_append.mp hstage' with hold | hnew
  · exact ⟨stage', hold, hexecuting⟩
  · rw [List.mem_singleton.mp hnew] at hexecuting
    exact absurd hexecuting (hstage id hid)

theorem Swept.advance (h : Swept idle t instant) {op : Nat} {stage : Stage} (env : Env) (hop : t.ops[op]? = some stage)
    (huses : ∀ id ∈ stage.uses, id ∉ t.sweeper.collected) (pids : List Nat) :
    Swept idle { t with
      registry := (advance scheme auth encrypt t.registry env stage).1
      ops := t.ops.set op (advance scheme auth encrypt t.registry env stage).2
      dropped := pids } instant := by
  refine ⟨h.nodup, fun id hid => (h.idleAt id hid).keep ?_ fun stage' hstage' hexecuting => ?_⟩
  · exact lastActive_advance (fun heq => huses id heq hid) t.registry env
  · rcases List.mem_or_eq_of_mem_set hstage' with hold | rfl
    · exact ⟨stage', hold, hexecuting⟩
    · exact ⟨stage, List.mem_of_getElem? hop, executing_advance hexecuting⟩

theorem mem_expiredIds {s : SessionRegistry} {id : String} :
    id ∈ expiredIds s instant idle ↔ ∃ last ∈ s.lastActive id, idle < instant - last := by
  unfold expiredIds SessionRegistry.lastActive
  rw [Finset.mem_filter, Finmap.mem_keys, ← Finmap.lookup_isSome]
  cases s.sessions.lookup id <;> simp

theorem Swept.sweep {instant instant' : Nat} (h : Swept idle t instant') (hle : instant ≤ instant') {expired : List String}
    (hleft : LeftAlone idle t (.sweep instant expired)) :
    Swept idle { t with
      registry := (sweepStep idle t.registry instant expired t.sweeper).1
      sweeper := (sweepStep idle t.registry instant expired t.sweeper).2 } instant' := by
  obtain ⟨hnodup, hidle⟩ := h
  unfold LeftAlone at hleft
  cases hsweeper : t.sweeper with
  | waiting =>
    unfold sweepStep
    dsimp only
    by_cases hexpired : expired.Nodup ∧ expired.toFinset = expiredIds t.registry instant idle
    · rw [if_pos hexpired]
      refine ⟨hexpired.1, fun id hid => ?_⟩
      have hmem : id ∈ expiredIds t.registry instant idle := hexpired.2 ▸ List.mem_toFinset.mpr hid
      have hat : IdleAt idle t instant id :=
        ⟨mem_expiredIds.mp hmem, fun stage hstage hexecuting => hleft hsweeper stage hstage id hexecuting hmem⟩
      exact (hat.mono hle).keep rfl fun stage hstage hexecuting => ⟨stage, hstage, hexecuting⟩
    · rw [if_neg hexpired]
      exact ⟨List.nodup_nil, fun id hid => absurd hid List.not_mem_nil⟩
  | closing ids =>
    rw [hsweeper] at hnodup hidle
    cases ids with
    | nil => exact ⟨List.nodup_nil, fun id hid => absurd hid List.not_mem_nil⟩
    | cons id ids =>
      refine ⟨hnodup, fun id' hid' => (hidle id' hid').keep ?_ fun stage hstage hexecuting => ⟨stage, hstage, hexecuting⟩⟩
      exact congrArg (Option.map SessionMeta.last_active) (lookup_backendClose t.registry id id')
  | removing id ids =>
    rw [hsweeper] at hnodup hidle
    refine ⟨(List.nodup_cons.mp hnodup).2, fun id' hid' => ?_⟩
    refine (hidle id' (List.mem_cons_of_mem id hid')).keep ?_ fun stage hstage hexecuting => ⟨stage, hstage, hexecuting⟩
    have hne : id' ≠ id := fun heq => (List.nodup_cons.mp hnodup).1 (heq ▸ hid')
    refine congrArg (Option.map SessionMeta.last_active) ((lookup_removeSession t.registry id id').trans ?_)
    exact if_neg hne

theorem Swept.step (h : Swept idle t instant) (a : RunnerStep) (hreading : ∀ reading ∈ a.reading, reading ≤ instant)
    (hleft : LeftAlone idle t a) :
    Swept idle (runnerStep scheme auth encrypt idle t a) instant := by
  cases a with
  | start params ctx => exact h.begin fun id _ hexecuting => by cases hexecuting
  | verify session_id response => exact h.begin fun id _ hexecuting => by cases hexecuting
  | execute req ctx => exact h.begin fun id hid hexecuting => hleft (Option.some.inj hexecuting ▸ hid)
  | close session_id ctx => exact h.begin fun id _ hexecuting => by cases hexecuting
  | step op env =>
    unfold runnerStep
    dsimp only
    cases hop : t.ops[op]? with
    | none => exact h
    | some stage => exact h.advance _ hop (hleft stage hop) _
  | sweep instant' expired => exact h.sweep (hreading instant' rfl) hleft

theorem swept_state (as : List RunnerStep) (hclock : Clocked as) (h : (runner scheme auth encrypt idle).Along (LeftAlone idle) as)
    (hle : ∀ reading ∈ as.filterMap RunnerStep.reading, reading ≤ instant) :
    Swept idle ((runner scheme auth encrypt idle).state as) instant := by
  induction as using List.reverseRecOn with
  | nil => exact ⟨List.nodup_nil, fun id hid => absurd hid List.not_mem_nil⟩
  | append_singleton as a ih =>
    unfold Clocked at hclock
    rw [List.filterMap_append] at hclock hle
    rw [Machine.state_snoc]
    refine (ih (List.pairwise_append.mp hclock).1 h.init fun reading hmem => hle _ (List.mem_append_left _ hmem)).step a ?_ h.last
    intro reading hreading
    exact hle _ (List.mem_append_right _ (List.mem_filterMap.mpr ⟨a, List.mem_singleton_self a, hreading⟩))

/-- The sweeper closes and removes idle sessions only, in each run in which nobody uses a session between the time it was found idle and
its removal, and none is found idle while an execute is in progress on it. -/
theorem sweeper_closes_idle (scheme : SignatureScheme) (auth : Option LocalAuth) (encrypt : Bytes → Bytes → Except String Bytes)
    (idle : Nat) (as : List RunnerStep) (hclock : Clocked as) (h : (runner scheme auth encrypt idle).Along (LeftAlone idle) as) :
    (runner scheme auth encrypt idle).Along (SweepsIdle idle) as := by
  intro pre a hpre
  cases a with
  | sweep instant expired =>
    unfold Clocked at hclock
    obtain ⟨rest, rfl⟩ := hpre
    rw [List.filterMap_append, List.filterMap_append, List.pairwise_append, List.pairwise_append] at hclock
    obtain ⟨⟨hsorted, -, hle⟩, -⟩ := hclock
    have hinit := (h.restrict (List.prefix_append _ rest)).init
    have hswept : Swept idle ((runner scheme auth encrypt idle).state pre) instant := swept_state pre hsorted hinit
      fun reading hmem => hle reading hmem instant (List.mem_filterMap.mpr ⟨_, List.mem_singleton_self _, rfl⟩)
    unfold SweepsIdle
    dsimp only
    cases hsweeper : ((runner scheme auth encrypt idle).state pre).sweeper with
    | waiting => trivial
    | closing ids =>
      cases ids with
      | nil => trivial
      | cons id ids => exact fun _ => hswept.idleAt id (by rw [hsweeper]; exact List.mem_cons_self)
    | removing id ids => exact fun _ => hswept.idleAt id (by rw [hsweeper]; exact List.mem_cons_self)
  | _ => trivial

/-- A session is left alone, and swept. -/
def sweptAfterwards : List RunnerStep :=
  [.start ⟨"a", false, ""⟩ none, stepOf 0, stepOf 0, stepOf 0, .sweep 120 ["a"], .sweep 121 [], .sweep 122 []]

theorem sweeper_closes_idle_afterwards :
    (openRunner.Along (SweepsIdle 10) sweptAfterwards) ∧ "a" ∉ (openRunner.state sweptAfterwards).registry.sessions := by
  refine ⟨sweeper_closes_idle twoKeys none (fun _ _ => .error "no key") 10 sweptAfterwards (by decide +kernel) ?_, by decide +kernel⟩
  rw [Machine.along_iff_alongFrom]
  decide +kernel

/-- A session is used again after it was found idle. -/
def usedWhileSwept : List RunnerStep :=
  [.start ⟨"a", false, ""⟩ none, stepOf 0, stepOf 0, stepOf 0, .sweep 120 ["a"], .execute ⟨"r", "a", "print:1"⟩ none, stepOf 1,
    .step 1 ⟨100, 120, 0, .ok "a", true, .ok (), []⟩, .sweep 120 []]

/-- The sweeper closes the kernel of a session that was just used, under an execute that is in progress. -/
theorem sweeper_closes_used : Clocked usedWhileSwept ∧ ¬ openRunner.Along (SweepsIdle 10) usedWhileSwept ∧
    "a" ∉ (openRunner.state usedWhileSwept).registry.kernels ∧
    (openRunner.state usedWhileSwept).registry.lastActive "a" = some 120 ∧
    (openRunner.state usedWhileSwept).ops[1]? = some (.executeSend ⟨"r", "a", "print:1"⟩) := by
  rw [Machine.along_iff_alongFrom]
  decide +kernel

end Runner

end Opsense
