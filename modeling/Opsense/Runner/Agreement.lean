import Opsense.Lib.Entries
import Opsense.Lib.Paired
import Opsense.Runner.Isolation
import Opsense.Runner.Steps

/-!
# Sessions that have a kernel

The kernel of a session is started before the session is entered, and stopped before it is removed, by operations that may run at the
same time; and a start may fail when its kernel runs already. The sessions are those with a kernel whenever nothing runs, in each run
in which whoever updates the sessions last finds the kernels as it has left them; and a start that fails has left nothing, in each run
in which no start fails after its process came up (`sessions_have_kernels`).
-/

namespace Opsense

namespace Runner

namespace Stage

/-- The session an operation has started or stopped the kernel of, and has not entered or removed yet. -/
def pending : Stage → Option String
  | startInsert _ id => some id
  | closeRemove session_id => some session_id
  | _ => none

/-- The operation has entered a session or a kernel, or has succeeded. -/
def committed : Stage → Bool
  | startInsert _ _ => true
  | startChallenge _ _ => true
  | startAttach _ _ _ => true
  | done (.ok ()) => true
  | _ => false

end Stage

def Sweeper.pending : Sweeper → Option String
  | removing id _ => some id
  | _ => none

namespace SessionRegistry

def live (s : SessionRegistry) : Set String := {id | id ∈ s.sessions}

def running (s : SessionRegistry) : Set String := {id | id ∈ s.kernels}

/-- The process of a kernel. -/
def pidOf (s : SessionRegistry) (id : String) : Option Nat := (s.kernels.lookup id).map KernelProc.pid

theorem running_of_pidOf {s s' : SessionRegistry} (h : ∀ id, s'.pidOf id = s.pidOf id) : s'.running = s.running := by
  ext id
  change id ∈ s'.kernels ↔ id ∈ s.kernels
  rw [← Finmap.lookup_isSome, ← Finmap.lookup_isSome]
  have hid := congrArg Option.isSome (h id)
  rw [pidOf, pidOf, Option.isSome_map, Option.isSome_map] at hid
  rw [hid]

theorem live_modify (s : SessionRegistry) (session_id : String) (f : SessionMeta → SessionMeta) :
    (s.modify session_id f).live = s.live := Set.ext fun id => modify_sessions s session_id f id

theorem pidOf_modify (s : SessionRegistry) (session_id : String) (f : SessionMeta → SessionMeta) (id : String) :
    (s.modify session_id f).pidOf id = s.pidOf id := by
  unfold SessionRegistry.modify
  cases s.sessions.lookup session_id <;> rfl

theorem pidOf_insert (s : SessionRegistry) {session_id : String} {proc : KernelProc} {id : String} {pid : Nat}
    (h : { s with kernels := s.kernels.insert session_id proc }.pidOf id = some pid) : pid = proc.pid ∨ s.pidOf id = some pid := by
  unfold pidOf at h ⊢
  dsimp only at h
  by_cases hid : id = session_id
  · rw [hid, Finmap.lookup_insert] at h
    exact .inl (Option.some.inj h).symm
  · rw [Finmap.lookup_insert_of_ne _ hid] at h
    exact .inr h

theorem pidOf_erase (s : SessionRegistry) {session_id id : String} {pid : Nat}
    (h : { s with kernels := s.kernels.erase session_id }.pidOf id = some pid) : s.pidOf id = some pid := by
  unfold pidOf at h ⊢
  dsimp only at h
  by_cases hid : id = session_id
  · rw [hid, Finmap.lookup_erase] at h
    cases h
  · rwa [Finmap.lookup_erase_ne hid] at h

end SessionRegistry

open SessionRegistry

variable {scheme : SignatureScheme} {auth : Option LocalAuth} {encrypt : Bytes → Bytes → Except String Bytes}

/-! ## What a step of an operation does -/

/-- A process that came up names its session, and a challenge that is asked for is made. -/
def Ready (auth : Option LocalAuth) (encrypt : Bytes → Bytes → Except String Bytes) (env : Env) : Stage → Prop
  | .startSpawn params =>
    match env.spawn with
    | .error _ => env.spawned = false
    | .ok id => id = params.session_id
  | .startChallenge _ _ => ∃ a ∈ auth, (a.createChallenge encrypt env.random).toOption.isSome = true
  | _ => True

/-- What a step does to the sessions and the kernels. -/
inductive Moved (auth : Option LocalAuth) (encrypt : Bytes → Bytes → Except String Bytes) (s : SessionRegistry) (env : Env) :
    Stage → SessionRegistry → Stage → Prop
  | keeps {stage s' stage'} (hlive : s'.live = s.live) (hpid : ∀ id, s'.pidOf id = s.pidOf id) (hstage : stage.pending = none)
      (hstage' : stage'.pending = none) (hcommitted : Ready auth encrypt env stage → stage.committed = true → stage'.committed = true) :
      Moved auth encrypt s env stage s' stage'
  | spawns (params : SessionParams) : Moved auth encrypt s env (.startSpawn params)
      { s with kernels := s.kernels.insert params.session_id ⟨env.pid, []⟩ } (.startInsert params params.session_id)
  | enters {params id stage'} (instant : Nat) (hstage' : stage'.pending = none) (hcommitted : stage'.committed = true) :
      Moved auth encrypt s env (.startInsert params id) (s.insertSession instant id) stage'
  | stops (id : String) :
      Moved auth encrypt s env (.closeKernel id) { s with kernels := s.kernels.erase id } (.closeRemove id)
  | removes (id : String) : Moved auth encrypt s env (.closeRemove id) (s.removeSession id) (.done (.ok ()))

namespace Moved

variable {s : SessionRegistry} {env : Env} {stage stage' : Stage}

/-- Changes of one session keep which sessions and which kernels there are. -/
theorem modify (session_id : String) (f : SessionMeta → SessionMeta) (hstage : stage.pending = none) (hstage' : stage'.pending = none)
    (hcommitted : Ready auth encrypt env stage → stage.committed = true → stage'.committed = true) :
    Moved auth encrypt s env stage (s.modify session_id f) stage' :=
  .keeps (live_modify s session_id f) (pidOf_modify s session_id f) hstage hstage' hcommitted

theorem same (hstage : stage.pending = none) (hstage' : stage'.pending = none)
    (hcommitted : Ready auth encrypt env stage → stage.committed = true → stage'.committed = true) :
    Moved auth encrypt s env stage s stage' := .keeps rfl (fun _ => rfl) hstage hstage' hcommitted

end Moved

theorem backendSend_keeps (s : SessionRegistry) (env : Env) (session_id : String) (request : KernelRequest) :
    (s.backendSend env session_id request).1.live = s.live ∧ ∀ id, (s.backendSend env session_id request).1.pidOf id = s.pidOf id := by
  unfold SessionRegistry.backendSend
  cases hkernel : s.kernels.lookup session_id with
  | none => exact ⟨rfl, fun id => rfl⟩
  | some proc =>
    refine ⟨rfl, fun id => ?_⟩
    unfold pidOf
    dsimp only
    by_cases hid : id = session_id
    · rw [hid, Finmap.lookup_insert, hkernel]
      rfl
    · rw [Finmap.lookup_insert_of_ne _ hid]

theorem advance_moved (scheme : SignatureScheme) (auth : Option LocalAuth) (encrypt : Bytes → Bytes → Except String Bytes)
    (s : SessionRegistry) (env : Env) (stage : Stage) :
    Moved auth encrypt s env stage (advance scheme auth encrypt s env stage).1 (advance scheme auth encrypt s env stage).2 := by
  cases stage with
  | startCheck params ctx =>
    unfold advance
    dsimp only
    cases SessionRegistry.authorize scheme auth env.now ctx "Start" "auth required but no context supplied"
      "auth verification failed" <;> exact .same rfl rfl (fun _ h => by cases h)
  | startSpawn params =>
    unfold advance SessionRegistry.backendStart
    dsimp only
    cases hspawn : env.spawn with
    | error e => exact .same rfl rfl (fun _ h => by cases h)
    | ok id =>
      dsimp only
      by_cases hid : id = params.session_id
      · subst hid
        rw [if_neg (not_not.mpr rfl)]
        exact .spawns params
      · rw [if_pos hid]
        exact .same rfl rfl (fun _ h => by cases h)
  | startInsert params id =>
    unfold advance
    dsimp only
    split_ifs
    · exact .enters env.instant rfl rfl
    · exact .enters env.instant rfl rfl
  | startChallenge params id =>
    unfold advance
    cases auth with
    | none =>
      refine .same rfl rfl fun hready _ => ?_
      obtain ⟨a, ha, -⟩ := hready
      cases ha
    | some a =>
      dsimp only
      cases hcreate : a.createChallenge encrypt env.random with
      | error e =>
        refine .same rfl rfl fun hready _ => ?_
        obtain ⟨a', ha, hchallenge⟩ := hready
        obtain rfl := Option.some.inj ha
        rw [hcreate] at hchallenge
        cases hchallenge
      | ok challenge => exact .same rfl rfl (fun _ _ => rfl)
  | startAttach params id plaintext => exact .modify id _ rfl rfl (fun _ _ => rfl)
  | verifyTake session_id response =>
    unfold advance SessionRegistry.takeChallenge
    dsimp only
    cases s.sessions.lookup session_id with
    | none => exact .same rfl rfl (fun _ h => by cases h)
    | some h =>
      dsimp only
      cases h.pending_challenge <;> exact .modify session_id _ rfl rfl (fun _ h => by cases h)
  | verifyCheck session_id response plaintext =>
    unfold advance
    cases auth <;> exact .same rfl rfl (fun _ h => by cases h)
  | verifySettle session_id plaintext ok =>
    unfold advance
    cases ok <;> exact .modify session_id _ rfl rfl (fun _ h => by cases h)
  | executeCheck req ctx =>
    unfold advance
    dsimp only
    cases SessionRegistry.authorize scheme auth env.now ctx "Execute" "auth required"
      s!"auth verification failed for {req.session_id}" <;> exact .same rfl rfl (fun _ h => by cases h)
  | executeTouch req => exact .modify req.session_id _ rfl rfl (fun _ h => by cases h)
  | executeSend req =>
    obtain ⟨hlive, hpid⟩ := backendSend_keeps s env req.session_id (.execute req.request_id req.session_id req.code)
    exact .keeps hlive hpid rfl rfl (fun _ h => by cases h)
  | closeCheck session_id ctx =>
    unfold advance
    dsimp only
    cases SessionRegistry.authorize scheme auth env.now ctx "Close" "auth required" "auth verification failed" <;>
      exact .same rfl rfl (fun _ h => by cases h)
  | closeTouch session_id => exact .modify session_id _ rfl rfl (fun _ h => by cases h)
  | closeKernel session_id =>
    unfold advance SessionRegistry.backendClose
    dsimp only
    cases s.kernels.lookup session_id with
    | none => exact .same rfl rfl (fun _ h => by cases h)
    | some proc => exact .stops session_id
  | closeRemove session_id => exact .removes session_id
  | done result => exact .same rfl rfl (fun _ => id)

/-- A step drops no process but that of a kernel it replaces. -/
theorem dropped_of_ready {s : SessionRegistry} (env : Env) {stage : Stage} (hready : Ready auth encrypt env stage) {pid : Nat}
    (h : pid ∈ dropped s env stage) : ∃ id, s.pidOf id = some pid := by
  cases stage with
  | startSpawn params =>
    unfold Ready at hready
    unfold dropped at h
    dsimp only at hready h
    cases hspawn : env.spawn with
    | error e =>
      rw [hspawn] at hready h
      dsimp only at hready h
      rw [hready] at h
      exact absurd h List.not_mem_nil
    | ok id =>
      rw [hspawn] at hready h
      dsimp only at hready h
      rw [if_neg (not_not.mpr hready)] at h
      exact ⟨id, Option.mem_toList.mp h⟩
  | _ => exact absurd h List.not_mem_nil

/-! ## Sessions and kernels -/

variable {t : RunnerState}

/-- The sessions whose kernels have been started or stopped, and that have not been entered or removed yet. -/
def pending (t : RunnerState) : List String := t.sweeper.pending.toList ++ t.ops.filterMap Stage.pending

/-- Those of all but one operation. -/
def pendingBut (t : RunnerState) (op : Nat) : List String := t.sweeper.pending.toList ++ (t.ops.eraseIdx op).filterMap Stage.pending

/-- The sessions are those with a kernel, but where somebody is at one of them. -/
def Settled (t : RunnerState) : Prop := Paired t.registry.running t.registry.live (pending t)

/-- An operation that updates the sessions last finds the kernels as it has left them. -/
def Stage.Undisturbed (s : SessionRegistry) (others : List String) : Stage → Prop
  | startInsert _ id => id ∈ others ∨ id ∈ s.kernels
  | closeRemove id => id ∈ others ∨ id ∉ s.kernels
  | _ => True

/-- Whoever updates the sessions, when nobody else has started or stopped the same kernel and is still to do so, finds the kernels as it
has left them. -/
def Undisturbed (t : RunnerState) : RunnerStep → Prop
  | .step op _ => ∀ stage ∈ t.ops[op]?, stage.Undisturbed t.registry (pendingBut t op)
  | .sweep _ _ =>
    match t.sweeper with
    | .removing id _ => id ∈ t.ops.filterMap Stage.pending ∨ id ∉ t.registry.kernels
    | _ => True
  | _ => True

instance (s : SessionRegistry) (others : List String) (stage : Stage) : Decidable (stage.Undisturbed s others) := by
  unfold Stage.Undisturbed
  split <;> infer_instance

instance (t : RunnerState) (a : RunnerStep) : Decidable (Undisturbed t a) := by
  unfold Undisturbed
  split
  · infer_instance
  · split <;> infer_instance
  · infer_instance

theorem Stage.undisturbed_of_pending {stage : Stage} (h : stage.pending = none) (s : SessionRegistry) (others : List String) :
    stage.Undisturbed s others := by
  cases stage with
  | startInsert params id => cases h
  | closeRemove id => cases h
  | _ => trivial

theorem mem_running_insert (s : SessionRegistry) (session_id : String) (proc : KernelProc) {id : String} (hid : id ≠ session_id) :
    id ∈ { s with kernels := s.kernels.insert session_id proc }.running ↔ id ∈ s.running :=
  Finmap.mem_insert.trans (or_iff_right hid)

theorem mem_running_erase (s : SessionRegistry) (session_id : String) {id : String} (hid : id ≠ session_id) :
    id ∈ { s with kernels := s.kernels.erase session_id }.running ↔ id ∈ s.running :=
  Finmap.mem_erase.trans (and_iff_right hid)

theorem mem_live_insert (s : SessionRegistry) (instant : Nat) (session_id : String) {id : String} (hid : id ≠ session_id) :
    id ∈ (s.insertSession instant session_id).live ↔ id ∈ s.live := Finmap.mem_insert.trans (or_iff_right hid)

theorem mem_live_remove (s : SessionRegistry) (session_id : String) {id : String} (hid : id ≠ session_id) :
    id ∈ (s.removeSession session_id).live ↔ id ∈ s.live := Finmap.mem_erase.trans (and_iff_right hid)

/-- The sessions are entered where there is a kernel, and removed where there is none. -/
theorem settled_enters (s : SessionRegistry) (instant : Nat) (id : String) :
    (id ∈ (s.insertSession instant id).live ↔ id ∈ s.running) ↔ id ∈ s.kernels :=
  iff_true_left (Finmap.mem_insert.mpr (.inl rfl))

theorem settled_removes (s : SessionRegistry) (id : String) : (id ∈ (s.removeSession id).live ↔ id ∈ s.running) ↔ id ∉ s.kernels :=
  iff_false_left fun hin => (Finmap.mem_erase.mp hin).1 rfl

theorem settled_moved {s s' : SessionRegistry} {env : Env} {stage stage' : Stage} {others : List String}
    (hmoved : Moved auth encrypt s env stage s' stage') (h : Paired s.running s.live (stage.pending.toList ++ others)) :
    Paired s'.running s'.live (stage'.pending.toList ++ others) ↔ stage.Undisturbed s others := by
  cases hmoved with
  | keeps hlive hpid hstage hstage' hcommitted =>
    rw [hstage', hlive, running_of_pidOf hpid]
    rw [hstage] at h
    exact iff_of_true h (stage.undisturbed_of_pending hstage s others)
  | spawns params => exact iff_of_true (h.begins fun id => mem_running_insert s _ _) trivial
  | enters instant hstage' hcommitted =>
    rename_i params id
    rw [hstage']
    exact (h.finishes_iff fun id' => mem_live_insert s instant id).trans (or_congr_right (settled_enters s instant id))
  | stops id => exact iff_of_true (h.begins fun id' => mem_running_erase s id) trivial
  | removes id => exact (h.finishes_iff fun id' => mem_live_remove s id).trans (or_congr_right (settled_removes s id))

theorem pending_perm {op : Nat} {stage : Stage} (hop : t.ops[op]? = some stage) :
    (pending t).Perm (stage.pending.toList ++ pendingBut t op) :=
  ((filterMap_perm_eraseIdx Stage.pending hop).append_left _).trans (List.perm_append_comm_assoc _ _ _)

theorem pending_set_perm {op : Nat} {stage : Stage} (hop : t.ops[op]? = some stage) (stage' : Stage) :
    (t.sweeper.pending.toList ++ (t.ops.set op stage').filterMap Stage.pending).Perm
      (stage'.pending.toList ++ pendingBut t op) :=
  ((filterMap_set_perm Stage.pending hop stage').append_left _).trans (List.perm_append_comm_assoc _ _ _)

theorem settled_begin {stage : Stage} (h : Settled t) (hstage : stage.pending = none) : Settled { t with ops := t.ops ++ [stage] } := by
  have hpending : (t.ops ++ [stage]).filterMap Stage.pending = t.ops.filterMap Stage.pending := by
    rw [List.filterMap_append, List.filterMap_cons_none hstage, List.filterMap_nil, List.append_nil]
  unfold Settled pending at h ⊢
  dsimp only
  rw [hpending]
  exact h

theorem settled_sweep (h : Settled t) (idle instant : Nat) (expired : List String) :
    Settled { t with
      registry := (sweepStep idle t.registry instant expired t.sweeper).1
      sweeper := (sweepStep idle t.registry instant expired t.sweeper).2 } ↔ Undisturbed t (.sweep instant expired) := by
  unfold Settled pending at h
  unfold Settled pending Undisturbed
  cases hsweeper : t.sweeper with
  | waiting =>
    rw [hsweeper] at h
    refine iff_of_true ?_ trivial
    unfold sweepStep
    dsimp only
    split_ifs <;> exact h
  | closing ids =>
    rw [hsweeper] at h
    cases ids with
    | nil => exact iff_of_true h trivial
    | cons id ids =>
      refine iff_of_true ?_ trivial
      unfold sweepStep SessionRegistry.backendClose
      dsimp only
      cases t.registry.kernels.lookup id with
      | none => exact h.begins fun id' _ => Iff.rfl
      | some proc => exact h.begins fun id' => mem_running_erase t.registry id
  | removing id ids =>
    rw [hsweeper] at h
    exact (h.finishes_iff fun id' => mem_live_remove t.registry id).trans (or_congr_right (settled_removes t.registry id))

/-- A step keeps the sessions settled exactly when it is undisturbed. -/
theorem settled_step_iff (idle : Nat) (h : Settled t) (a : RunnerStep) :
    Settled (runnerStep scheme auth encrypt idle t a) ↔ Undisturbed t a := by
  cases a with
  | start params ctx => exact iff_of_true (settled_begin h rfl) trivial
  | verify session_id response => exact iff_of_true (settled_begin h rfl) trivial
  | execute req ctx => exact iff_of_true (settled_begin h rfl) trivial
  | close session_id ctx => exact iff_of_true (settled_begin h rfl) trivial
  | step op env =>
    unfold runnerStep Undisturbed
    dsimp only
    cases hop : t.ops[op]? with
    | none => exact iff_of_true h fun stage hstage => by cases hstage
    | some stage =>
      have hmoved := advance_moved scheme auth encrypt t.registry { env with pid := op } stage
      have hsettled := settled_moved hmoved (h.of_perm (pending_perm hop).symm)
      dsimp only
      refine Iff.trans ⟨fun h' => ?_, fun h' => ?_⟩ (hsettled.trans ?_)
      · exact Paired.of_perm h' (pending_set_perm hop _).symm
      · exact Paired.of_perm h' (pending_set_perm hop _)
      · exact ⟨fun h' stage' hstage' => Option.some.inj hstage' ▸ h', fun h' => h' stage rfl⟩
  | sweep instant expired => exact settled_sweep h idle instant expired

theorem settled_init (scheme : SignatureScheme) (auth : Option LocalAuth) (encrypt : Bytes → Bytes → Except String Bytes) (idle : Nat) :
    Settled (runner scheme auth encrypt idle).init :=
  fun _ _ => iff_of_false Finmap.notMem_empty Finmap.notMem_empty

/-- Every state of a run is settled exactly when all steps are undisturbed. -/
theorem settled_iff (scheme : SignatureScheme) (auth : Option LocalAuth) (encrypt : Bytes → Bytes → Except String Bytes) (idle : Nat)
    (as : List RunnerStep) : (∀ bs, bs <+: as → Settled ((runner scheme auth encrypt idle).state bs)) ↔
      (runner scheme auth encrypt idle).Along Undisturbed as := by
  refine ⟨fun h bs a hpre => ?_, fun h bs hpre => ?_⟩
  · have hstep := h _ hpre
    rw [Machine.state_snoc] at hstep
    exact (settled_step_iff idle (h bs ((List.prefix_append bs [a]).trans hpre)) a).mp hstep
  · exact Machine.invariant_of_along (settled_init scheme auth encrypt idle)
      (fun _ a hsettled hundisturbed => (settled_step_iff idle hsettled a).mpr hundisturbed) bs (h.restrict hpre)

/-! ## Operations that fail -/

/-- The processes that run: those of the kernels, and those without a handle. -/
def processes (t : RunnerState) : Set Nat := {pid | pid ∈ t.dropped ∨ ∃ id, t.registry.pidOf id = some pid}

/-- No start fails after its process came up. -/
def StartsReady (auth : Option LocalAuth) (encrypt : Bytes → Bytes → Except String Bytes) (t : RunnerState) : RunnerStep → Prop
  | .step op env => ∀ stage ∈ t.ops[op]?, Ready auth encrypt env stage
  | _ => True

def CommittedAt (t : RunnerState) (op : Nat) : Prop := ∃ stage, t.ops[op]? = some stage ∧ stage.committed = true

section

variable {s s' : SessionRegistry} {env : Env} {stage stage' : Stage}

theorem moved_committed (hmoved : Moved auth encrypt s env stage s' stage') (hready : Ready auth encrypt env stage)
    (h : stage.committed = true) : stage'.committed = true := by
  cases hmoved with
  | keeps hlive hpid hstage hstage' hcommitted => exact hcommitted hready h
  | spawns params => rfl
  | enters instant hstage' hcommitted => exact hcommitted
  | stops id => cases h
  | removes id => rfl

theorem moved_live (hmoved : Moved auth encrypt s env stage s' stage') : s'.live = s.live ∨ stage'.committed = true := by
  cases hmoved with
  | keeps hlive hpid hstage hstage' hcommitted => exact .inl hlive
  | spawns params => exact .inl rfl
  | enters instant hstage' hcommitted => exact .inr hcommitted
  | stops id => exact .inl rfl
  | removes id => exact .inr rfl

theorem moved_pidOf (hmoved : Moved auth encrypt s env stage s' stage') {id : String} {pid : Nat} (h : s'.pidOf id = some pid) :
    s.pidOf id = some pid ∨ pid = env.pid ∧ stage'.committed = true := by
  cases hmoved with
  | keeps hlive hpid hstage hstage' hcommitted => exact .inl ((hpid id).symm.trans h)
  | spawns params =>
    rcases pidOf_insert s h with hnew | hold
    · exact .inr ⟨hnew, rfl⟩
    · exact .inl hold
  | enters instant hstage' hcommitted => exact .inl h
  | stops id => exact .inl (pidOf_erase s h)
  | removes id => exact .inl h

end

theorem committedAt_begin {op : Nat} (h : CommittedAt t op) (stage : Stage) : CommittedAt { t with ops := t.ops ++ [stage] } op := by
  obtain ⟨stage', hop, hcommitted⟩ := h
  exact ⟨stage', (List.getElem?_append_left (List.getElem?_eq_some_iff.mp hop).1).trans hop, hcommitted⟩

/-- What an operation has begun it does not undo by failing. -/
theorem committedAt_step (idle : Nat) {op : Nat} (h : CommittedAt t op) {a : RunnerStep} (hready : StartsReady auth encrypt t a) :
    CommittedAt (runnerStep scheme auth encrypt idle t a) op := by
  cases a with
  | start params ctx => exact committedAt_begin h _
  | verify session_id response => exact committedAt_begin h _
  | execute req ctx => exact committedAt_begin h _
  | close session_id ctx => exact committedAt_begin h _
  | step op' env =>
    unfold runnerStep
    dsimp only
    cases hop' : t.ops[op']? with
    | none => exact h
    | some stage =>
      obtain ⟨stage', hop, hcommitted⟩ := h
      have hlt : op' < t.ops.length := (List.getElem?_eq_some_iff.mp hop').1
      by_cases heq : op' = op
      · subst heq
        obtain rfl : stage' = stage := Option.some.inj (hop.symm.trans hop')
        exact ⟨_, List.getElem?_set_self hlt, moved_committed (advance_moved scheme auth encrypt _ _ stage') (hready stage' hop') hcommitted⟩
      · exact ⟨stage', (List.getElem?_set_ne heq).trans hop, hcommitted⟩
  | sweep instant expired => exact h

theorem sweep_pidOf {idle : Nat} {s : SessionRegistry} {instant : Nat} {expired : List String} {sweeper : Sweeper} {id : String} {pid : Nat}
    (h : (sweepStep idle s instant expired sweeper).1.pidOf id = some pid) : s.pidOf id = some pid := by
  unfold sweepStep at h
  cases sweeper with
  | waiting => exact h
  | closing ids =>
    cases ids with
    | nil => exact h
    | cons id' ids =>
      unfold SessionRegistry.backendClose at h
      dsimp only at h
      cases hkernel : s.kernels.lookup id' with
      | none =>
        rw [hkernel] at h
        exact h
      | some proc =>
        rw [hkernel] at h
        exact pidOf_erase s h
  | removing id' ids => exact h

theorem processes_step (idle : Nat) {a : RunnerStep} (hready : StartsReady auth encrypt t a) {pid : Nat}
    (h : pid ∈ processes (runnerStep scheme auth encrypt idle t a)) :
    pid ∈ processes t ∨ CommittedAt (runnerStep scheme auth encrypt idle t a) pid := by
  cases a with
  | start params ctx => exact .inl h
  | verify session_id response => exact .inl h
  | execute req ctx => exact .inl h
  | close session_id ctx => exact .inl h
  | step op env =>
    unfold runnerStep at h ⊢
    dsimp only at h ⊢
    cases hop : t.ops[op]? with
    | none =>
      rw [hop] at h
      exact .inl h
    | some stage =>
      rw [hop] at h
      have hlt : op < t.ops.length := (List.getElem?_eq_some_iff.mp hop).1
      rcases h with hdropped | ⟨id, hid⟩
      · rcases List.mem_append.mp hdropped with hold | hnew
        · exact .inl (.inl hold)
        · exact .inl (.inr (dropped_of_ready { env with pid := op } (hready stage hop) hnew))
      · rcases moved_pidOf (advance_moved scheme auth encrypt _ _ stage) hid with hold | ⟨rfl, hcommitted⟩
        · exact .inl (.inr ⟨id, hold⟩)
        · exact .inr ⟨_, List.getElem?_set_self hlt, hcommitted⟩
  | sweep instant expired =>
    rcases h with hdropped | ⟨id, hid⟩
    · exact .inl (.inl hdropped)
    · exact .inl (.inr ⟨id, sweep_pidOf hid⟩)

/-! ## Every run -/

section

variable {idle : Nat} {as : List RunnerStep}

/-- Every process belongs to a start that has not failed. -/
theorem processes_committed (hready : (runner scheme auth encrypt idle).Along (StartsReady auth encrypt) as) :
    ∀ pid ∈ processes ((runner scheme auth encrypt idle).state as), CommittedAt ((runner scheme auth encrypt idle).state as) pid := by
  refine Machine.invariant_of_along (M := runner scheme auth encrypt idle) (C := StartsReady auth encrypt)
    (I := fun t => ∀ pid ∈ processes t, CommittedAt t pid) ?_ ?_ as hready
  · rintro pid (hin | ⟨id, hid⟩)
    · exact absurd hin List.not_mem_nil
    · cases hid
  · intro t a h hready pid hpid
    rcases processes_step idle hready hpid with hold | hnew
    · exact committedAt_step idle (h pid hold) hready
    · exact hnew

theorem committedAt_run {bs cs : List RunnerStep} {op : Nat}
    (hready : (runner scheme auth encrypt idle).Along (StartsReady auth encrypt) (bs ++ cs))
    (h : CommittedAt ((runner scheme auth encrypt idle).state bs) op) :
    CommittedAt ((runner scheme auth encrypt idle).state (bs ++ cs)) op := by
  induction cs using List.reverseRecOn with
  | nil => rwa [List.append_nil]
  | append_singleton cs a ih =>
    rw [← List.append_assoc] at hready ⊢
    rw [Machine.state_snoc]
    exact committedAt_step idle (ih hready.init) hready.last

/-- The steps of an operation that has failed in the end have kept the sessions. -/
theorem live_of_failed {bs : List RunnerStep} {op : Nat} {env : Env} {e : String} (hpre : bs ++ [.step op env] <+: as)
    (hready : (runner scheme auth encrypt idle).Along (StartsReady auth encrypt) as)
    (hfailed : ((runner scheme auth encrypt idle).state as).ops[op]? = some (.done (.error e))) :
    ((runner scheme auth encrypt idle).state (bs ++ [.step op env])).registry.live =
      ((runner scheme auth encrypt idle).state bs).registry.live := by
  have hlive : ((runner scheme auth encrypt idle).state (bs ++ [.step op env])).registry.live =
      ((runner scheme auth encrypt idle).state bs).registry.live ∨
      CommittedAt ((runner scheme auth encrypt idle).state (bs ++ [.step op env])) op := by
    rw [Machine.state_snoc]
    unfold Machine.next
    obtain ⟨t, ht⟩ : ∃ t, t = (runner scheme auth encrypt idle).state bs := ⟨_, rfl⟩
    rw [← ht]
    unfold runner runnerStep
    dsimp only
    cases hop : t.ops[op]? with
    | none => exact .inl rfl
    | some stage =>
      have hlt : op < t.ops.length := (List.getElem?_eq_some_iff.mp hop).1
      rcases moved_live (advance_moved scheme auth encrypt t.registry { env with pid := op } stage) with hsame | hcommitted
      · exact .inl hsame
      · exact .inr ⟨_, List.getElem?_set_self hlt, hcommitted⟩
  refine hlive.resolve_right fun hcommitted => ?_
  obtain ⟨cs, rfl⟩ := hpre
  obtain ⟨stage, hop, hstage⟩ := committedAt_run hready hcommitted
  obtain rfl := Option.some.inj (hop.symm.trans hfailed)
  cases hstage

end

/-- No operation is in progress. -/
def Quiet (t : RunnerState) : Prop := (∀ stage ∈ t.ops, ∃ result, stage = .done result) ∧ t.sweeper = .waiting

theorem pending_of_quiet (h : Quiet t) : pending t = [] := by
  unfold pending
  rw [h.2]
  refine List.filterMap_eq_nil_iff.mpr fun stage hstage => ?_
  obtain ⟨result, rfl⟩ := h.1 stage hstage
  rfl

/-- Along every run in which all steps are undisturbed, the sessions are those with a kernel whenever no operation is in progress. Along
every run in which no start fails after its process came up, an operation that has failed has left no process, and none of its steps
has entered a session. -/
theorem sessions_have_kernels (scheme : SignatureScheme) (auth : Option LocalAuth) (encrypt : Bytes → Bytes → Except String Bytes)
    (idle : Nat) (as : List RunnerStep) :
    let run := runner scheme auth encrypt idle
    (run.Along Undisturbed as → Quiet (run.state as) →
      ∀ id, id ∈ (run.state as).registry.sessions ↔ id ∈ (run.state as).registry.kernels) ∧
    (run.Along (StartsReady auth encrypt) as → ∀ op e, (run.state as).ops[op]? = some (.done (.error e)) →
      op ∉ processes (run.state as) ∧ ∀ bs env, bs ++ [.step op env] <+: as →
        ∀ id, id ∈ (run.state (bs ++ [.step op env])).registry.sessions ↔ id ∈ (run.state bs).registry.sessions) := by
  intro run
  refine ⟨fun hundisturbed hquiet id => ?_, fun hready op e hfailed => ⟨fun hin => ?_, fun bs env hpre id => ?_⟩⟩
  · have hsettled := (settled_iff scheme auth encrypt idle as).mpr hundisturbed as (List.prefix_refl as)
    have hpending := pending_of_quiet hquiet
    exact hsettled id (hpending ▸ List.not_mem_nil)
  · obtain ⟨stage, hop, hcommitted⟩ := processes_committed hready op hin
    obtain rfl := Option.some.inj (hop.symm.trans hfailed)
    cases hcommitted
  · exact Set.ext_iff.mp (live_of_failed hpre hready hfailed) id

/-! ## Three runs -/

/-- The runs of a runner without an auth backend. -/
def openRunner : Machine RunnerState RunnerStep Unit := runner twoKeys none (fun _ _ => .error "no key") 10

/-- A step of an operation; a kernel that is started comes up for the session `a`. -/
def stepOf (op : Nat) : RunnerStep := .step op ⟨100, 100, 0, .ok "a", true, .ok (), []⟩

/-- A session is started and closed. -/
def startAndClose : List RunnerStep :=
  [.start ⟨"a", false, ""⟩ none, stepOf 0, stepOf 0, stepOf 0, .close "a" none, stepOf 1, stepOf 1, stepOf 1, stepOf 1]

/-- A kernel that does not come up. -/
def noKernel : List RunnerStep :=
  [.start ⟨"a", false, ""⟩ none, stepOf 0, .step 0 ⟨100, 100, 0, .error "spawn kernel", false, .ok (), []⟩]

theorem sessions_have_kernels_startAndClose :
    (∀ id, id ∈ (openRunner.state startAndClose).registry.sessions ↔ id ∈ (openRunner.state startAndClose).registry.kernels) ∧
      0 ∉ processes (openRunner.state noKernel) := by
  refine ⟨(sessions_have_kernels twoKeys none (fun _ _ => .error "no key") 10 startAndClose).1 ?_ ⟨?_, rfl⟩,
    ((sessions_have_kernels twoKeys none (fun _ _ => .error "no key") 10 noKernel).2 ?_ 0 "spawn kernel" rfl).1⟩
  · rw [Machine.along_iff_alongFrom]
    decide +kernel
  · have hops : (openRunner.state startAndClose).ops = List.replicate 2 (.done (.ok ())) := by decide +kernel
    intro stage hstage
    exact ⟨.ok (), List.eq_of_mem_replicate (hops ▸ hstage)⟩
  · rw [Machine.along_iff_alongFrom]
    exact ⟨trivial, fun stage hstage => Option.some.inj hstage ▸ trivial, fun stage hstage => Option.some.inj hstage ▸ rfl, trivial⟩

/-- A session is started again while it is closed. -/
def startWhileClosing : List RunnerStep :=
  [.start ⟨"a", false, ""⟩ none, stepOf 0, stepOf 0, stepOf 0, .close "a" none, stepOf 1, stepOf 1, stepOf 1,
    .start ⟨"a", false, ""⟩ none, stepOf 2, stepOf 2, stepOf 2, stepOf 1]

/-- A challenge that cannot be made. -/
def noChallenge : List RunnerStep := [.start ⟨"a", true, "admin"⟩ none, stepOf 0, stepOf 0, stepOf 0, stepOf 0]

/-- A close removes the session that was started again meanwhile; and a start that fails leaves its session and its kernel. -/
theorem close_removes_restarted_session :
    ((openRunner.state startWhileClosing).ops = List.replicate 3 (.done (.ok ())) ∧
      (openRunner.state startWhileClosing).sweeper = .waiting ∧
      "a" ∉ (openRunner.state startWhileClosing).registry.sessions ∧ "a" ∈ (openRunner.state startWhileClosing).registry.kernels) ∧
    (openRunner.state noChallenge).ops = [.done (.error "require_challenge=true but runner has no auth backend")] ∧
      "a" ∈ (openRunner.state noChallenge).registry.sessions ∧
      (openRunner.state noChallenge).registry.kernels.lookup "a" = some ⟨0, []⟩ := by
  decide +kernel

end Runner

end Opsense
