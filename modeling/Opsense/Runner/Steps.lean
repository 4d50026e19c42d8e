import Opsense.Runner.Session

/-!
# Calls that run at the same time

The calls of `RunnerService` (`opsense-runner/src/server.rs`) and the sweeper, taken apart at their locks: each operation stands at a
`Stage`, and takes one step after the other while the others take theirs. The number of an operation stands for the process that it
starts. An operation that runs alone does what the call of the registry does (`alone_atomic`).
-/

namespace Opsense

namespace Runner

/-- Where an operation stands. -/
inductive Stage where
  | startCheck (params : SessionParams) (ctx : Option AuthContext)
  | startSpawn (params : SessionParams)
  | startInsert (params : SessionParams) (id : String)
  | startChallenge (params : SessionParams) (id : String)
  | startAttach (params : SessionParams) (id : String) (plaintext : Bytes)
  | verifyTake (session_id : String) (response : Bytes)
  | verifyCheck (session_id : String) (response plaintext : Bytes)
  | verifySettle (session_id : String) (plaintext : Bytes) (ok : Bool)
  | executeCheck (req : CodeRequest) (ctx : Option AuthContext)
  | executeTouch (req : CodeRequest)
  | executeSend (req : CodeRequest)
  | closeCheck (session_id : String) (ctx : Option AuthContext)
  | closeTouch (session_id : String)
  | closeKernel (session_id : String)
  | closeRemove (session_id : String)
  | done (result : Except String Unit)
deriving DecidableEq

/-- Where the sweeper stands: it waits, or closes the sessions it has found idle. -/
inductive Sweeper where
  | waiting
  | closing (ids : List String)
  | removing (id : String) (ids : List String)
deriving DecidableEq

variable (scheme : SignatureScheme) (auth : Option LocalAuth) (encrypt : Bytes → Bytes → Except String Bytes)

/-- The next step of an operation. -/
def advance (s : SessionRegistry) (env : Env) : Stage → SessionRegistry × Stage
  | .startCheck params ctx =>
    match SessionRegistry.authorize scheme auth env.now ctx "Start" "auth required but no context supplied"
      "auth verification failed" with
    | .error e => (s, .done (.error e))
    | .ok () => (s, .startSpawn params)
  | .startSpawn params =>
    match s.backendStart env params with
    | (s, .error e) => (s, .done (.error e))
    | (s, .ok id) => (s, .startInsert params id)
  | .startInsert params id =>
    (s.insertSession env.instant id, if params.require_challenge then .startChallenge params id else .done (.ok ()))
  | .startChallenge params id =>
    match auth with
    | none => (s, .done (.error "require_challenge=true but runner has no auth backend"))
    | some auth =>
      match auth.createChallenge encrypt env.random with
      | .error e => (s, .done (.error e))
      | .ok challenge => (s, .startAttach params id challenge.plaintext)
  | .startAttach params id plaintext =>
    (s.attachChallenge env.instant id plaintext (some params.requested_role), .done (.ok ()))
  | .verifyTake session_id response =>
    match s.takeChallenge env.instant session_id with
    | (s, .error e) => (s, .done (.error e))
    | (s, .ok plaintext) => (s, .verifyCheck session_id response plaintext)
  | .verifyCheck session_id response plaintext =>
    match auth with
    | none => (s, .done (.error "auth backend not configured"))
    | some _ => (s, .verifySettle session_id plaintext (LocalAuth.verifyChallenge plaintext response))
  | .verifySettle session_id plaintext ok =>
    (if ok then s.promote session_id else s.restoreChallenge session_id plaintext, .done (.ok ()))
  | .executeCheck req ctx =>
    match SessionRegistry.authorize scheme auth env.now ctx "Execute" "auth required"
      s!"auth verification failed for {req.session_id}" with
    | .error e => (s, .done (.error e))
    | .ok () => (s, .executeTouch req)
  | .executeTouch req => (s.touch env.instant req.session_id, .executeSend req)
  | .executeSend req =>
    let (s, out) := s.backendSend env req.session_id (.execute req.request_id req.session_id req.code)
    (s, .done out)
  | .closeCheck session_id ctx =>
    match SessionRegistry.authorize scheme auth env.now ctx "Close" "auth required" "auth verification failed" with
    | .error e => (s, .done (.error e))
    | .ok () => (s, .closeTouch session_id)
  | .closeTouch session_id => (s.touch env.instant session_id, .closeKernel session_id)
  | .closeKernel session_id =>
    match s.backendClose session_id with
    | (s, .error e) => (s, .done (.error e))
    | (s, .ok ()) => (s, .closeRemove session_id)
  | .closeRemove session_id => (s.removeSession session_id, .done (.ok ()))
  | .done result => (s, .done result)

/-- The processes whose handle the next step of an operation drops, which does not kill them. -/
def dropped (s : SessionRegistry) (env : Env) : Stage → List Nat
  | .startSpawn params =>
    match env.spawn with
    | .error _ => if env.spawned then [env.pid] else []
    | .ok id => if id ≠ params.session_id then [env.pid] else ((s.kernels.lookup id).map KernelProc.pid).toList
  | _ => []

/-- An operation that runs alone. -/
def alone (s : SessionRegistry) (env : Env) : Nat → Stage → SessionRegistry × Stage
  | 0, stage => (s, stage)
  | steps + 1, stage =>
    let (s, stage) := advance scheme auth encrypt s env stage
    alone s env steps stage

/-! ## All of them -/

structure RunnerState where
  registry : SessionRegistry
  /-- The operations, in the order of their beginnings. -/
  ops : List Stage
  sweeper : Sweeper
  /-- The processes that run without a handle. -/
  dropped : List Nat

/-- Who takes the next step. -/
inductive RunnerStep where
  | start (params : SessionParams) (ctx : Option AuthContext)
  | verify (session_id : String) (response : Bytes)
  | execute (req : CodeRequest) (ctx : Option AuthContext)
  | close (session_id : String) (ctx : Option AuthContext)
  | step (op : Nat) (env : Env)
  /-- The sweeper; `expired` are the idle sessions in the order of an iteration. -/
  | sweep (instant : Nat) (expired : List String)

/-- The sessions that are idle for too long. -/
def expiredIds (s : SessionRegistry) (instant idle : Nat) : Finset String :=
  s.sessions.keys.filter fun id => ∃ h ∈ s.sessions.lookup id, idle < instant - h.last_active

/-- The next step of the sweeper. -/
def sweepStep (idle : Nat) (s : SessionRegistry) (instant : Nat) (expired : List String) : Sweeper → SessionRegistry × Sweeper
  | .waiting => (s, if expired.Nodup ∧ expired.toFinset = expiredIds s instant idle then .closing expired else .waiting)
  | .closing [] => (s, .waiting)
  | .closing (id :: ids) => ((s.backendClose id).1, .removing id ids)
  | .removing id ids => (s.removeSession id, .closing ids)

/-- One step of the runner. -/
def runnerStep (idle : Nat) (t : RunnerState) : RunnerStep → RunnerState
  | .start params ctx => { t with ops := t.ops ++ [.startCheck params ctx] }
  | .verify session_id response => { t with ops := t.ops ++ [.verifyTake session_id response] }
  | .execute req ctx => { t with ops := t.ops ++ [.executeCheck req ctx] }
  | .close session_id ctx => { t with ops := t.ops ++ [.closeCheck session_id ctx] }
  | .step op env =>
    match t.ops[op]? with
    | none => t
    | some stage =>
      let env := { env with pid := op }
      let (registry, stage') := advance scheme auth encrypt t.registry env stage
      { t with registry, ops := t.ops.set op stage', dropped := t.dropped ++ dropped t.registry env stage }
  | .sweep instant expired =>
    let (registry, sweeper) := sweepStep idle t.registry instant expired t.sweeper
    { t with registry, sweeper }

/-- A runner, with the time after which a session is idle. -/
def runner (idle : Nat) : Machine RunnerState RunnerStep Unit where
  init := ⟨⟨∅, ∅⟩, [], .waiting, []⟩
  step t a := (runnerStep scheme auth encrypt idle t a, ())

/-! ## An operation that runs alone -/

variable {scheme auth encrypt} {s : SessionRegistry} {env : Env}

/-- A start without a challenge, an execute and a close that run alone leave the registry and answer as the calls of the registry do. -/
theorem alone_atomic (scheme : SignatureScheme) (auth : Option LocalAuth) (encrypt : Bytes → Bytes → Except String Bytes)
    (s : SessionRegistry) (env : Env) (ctx : Option AuthContext) :
    (∀ params : SessionParams, params.require_challenge = false → alone scheme auth encrypt s env 3 (.startCheck params ctx) =
      ((s.start scheme auth env params ctx).1, .done ((s.start scheme auth env params ctx).2.map fun _ => ()))) ∧
    (∀ req, alone scheme auth encrypt s env 3 (.executeCheck req ctx) =
      ((s.execute scheme auth env req.session_id req ctx).1, .done (s.execute scheme auth env req.session_id req ctx).2)) ∧
    (∀ session_id, alone scheme auth encrypt s env 4 (.closeCheck session_id ctx) =
      ((s.close scheme auth env session_id ctx).1, .done (s.close scheme auth env session_id ctx).2)) := by
  refine ⟨fun params hchallenge => ?_, fun req => ?_, fun session_id => ?_⟩
  · unfold SessionRegistry.start
    simp only [alone, advance]
    cases SessionRegistry.authorize scheme auth env.now ctx "Start" "auth required but no context supplied"
      "auth verification failed" with
    | error e => rfl
    | ok _ =>
      dsimp only
      rcases s.backendStart env params with ⟨s', e | id⟩
      · rfl
      · simp only [hchallenge, Bool.false_eq_true, if_false]
        rfl
  · unfold SessionRegistry.execute
    simp only [alone, advance]
    cases SessionRegistry.authorize scheme auth env.now ctx "Execute" "auth required"
      s!"auth verification failed for {req.session_id}" <;> rfl
  · unfold SessionRegistry.close
    simp only [alone, advance]
    cases SessionRegistry.authorize scheme auth env.now ctx "Close" "auth required" "auth verification failed" with
    | error e => rfl
    | ok _ =>
      dsimp only
      rcases (s.touch env.instant session_id).backendClose session_id with ⟨s', e | _⟩ <;> rfl

/-! ## The entry of a session -/

/-- The entry of a session after the next step of an operation. -/
def entryAfter (env : Env) (id : String) (entry : Option SessionMeta) : Stage → Option SessionMeta
  | .startInsert _ id' => if id = id' then some ⟨env.instant, none, none, none⟩ else entry
  | .startAttach params id' plaintext =>
    if id = id' then
      entry.map fun h => { h with pending_challenge := some plaintext, requested_role := some params.requested_role, last_active := env.instant }
    else entry
  | .verifyTake id' _ =>
    if id = id' then entry.map fun h => { h with last_active := env.instant, pending_challenge := none } else entry
  | .verifySettle id' plaintext ok =>
    if id = id' then
      if ok then entry.map fun h => { h with role := h.requested_role, requested_role := none }
      else entry.map fun h => { h with pending_challenge := some plaintext }
    else entry
  | .executeTouch req => if id = req.session_id then entry.map fun h => { h with last_active := env.instant } else entry
  | .closeTouch id' => if id = id' then entry.map fun h => { h with last_active := env.instant } else entry
  | .closeRemove id' => if id = id' then none else entry
  | _ => entry

theorem lookup_modify (s : SessionRegistry) (session_id : String) (f : SessionMeta → SessionMeta) (id : String) :
    (s.modify session_id f).sessions.lookup id = if id = session_id then (s.sessions.lookup id).map f else s.sessions.lookup id := by
  unfold SessionRegistry.modify
  cases hentry : s.sessions.lookup session_id with
  | none =>
    split_ifs with hid
    · rw [hid, hentry]
      rfl
    · rfl
  | some h =>
    dsimp only
    split_ifs with hid
    · rw [hid, Finmap.lookup_insert, hentry]
      rfl
    · rw [Finmap.lookup_insert_of_ne _ hid]

theorem lookup_backendSend (s : SessionRegistry) (env : Env) (session_id : String) (request : KernelRequest) (id : String) :
    (s.backendSend env session_id request).1.sessions.lookup id = s.sessions.lookup id := by
  unfold SessionRegistry.backendSend
  cases s.kernels.lookup session_id <;> rfl

theorem lookup_backendClose (s : SessionRegistry) (session_id id : String) :
    (s.backendClose session_id).1.sessions.lookup id = s.sessions.lookup id := by
  unfold SessionRegistry.backendClose
  cases s.kernels.lookup session_id <;> rfl

theorem lookup_removeSession (s : SessionRegistry) (session_id id : String) :
    (s.removeSession session_id).sessions.lookup id = if id = session_id then none else s.sessions.lookup id := by
  unfold SessionRegistry.removeSession
  dsimp only
  split_ifs with hid
  · rw [hid, Finmap.lookup_erase]
  · rw [Finmap.lookup_erase_ne hid]

theorem lookup_insertSession (s : SessionRegistry) (instant : Nat) (session_id id : String) :
    (s.insertSession instant session_id).sessions.lookup id =
      if id = session_id then some ⟨instant, none, none, none⟩ else s.sessions.lookup id := by
  unfold SessionRegistry.insertSession
  dsimp only
  split_ifs with hid
  · rw [hid, Finmap.lookup_insert]
  · rw [Finmap.lookup_insert_of_ne _ hid]

theorem lookup_advance (scheme : SignatureScheme) (auth : Option LocalAuth) (encrypt : Bytes → Bytes → Except String Bytes)
    (s : SessionRegistry) (env : Env) (stage : Stage) (id : String) :
    (advance scheme auth encrypt s env stage).1.sessions.lookup id = entryAfter env id (s.sessions.lookup id) stage := by
  cases stage with
  | startCheck params ctx =>
    unfold advance
    dsimp only
    cases SessionRegistry.authorize scheme auth env.now ctx "Start" "auth required but no context supplied"
      "auth verification failed" <;> rfl
  | startSpawn params =>
    unfold advance SessionRegistry.backendStart
    dsimp only
    cases env.spawn with
    | error e => rfl
    | ok id' =>
      dsimp only
      split_ifs <;> rfl
  | startInsert params id' => exact lookup_insertSession s env.instant id' id
  | startChallenge params id' =>
    unfold advance
    cases auth with
    | none => rfl
    | some auth =>
      dsimp only
      cases auth.createChallenge encrypt env.random <;> rfl
  | startAttach params id' plaintext => exact lookup_modify s id' _ id
  | verifyTake session_id response =>
    have htake : (s.takeChallenge env.instant session_id).1 =
        s.modify session_id fun h => { h with last_active := env.instant, pending_challenge := none } := by
      unfold SessionRegistry.takeChallenge SessionRegistry.modify
      cases s.sessions.lookup session_id <;> rfl
    have hadvance : (advance scheme auth encrypt s env (.verifyTake session_id response)).1 =
        (s.takeChallenge env.instant session_id).1 := by
      unfold advance
      dsimp only
      rcases s.takeChallenge env.instant session_id with ⟨s', e | plaintext⟩ <;> rfl
    rw [hadvance, htake, lookup_modify]
    rfl
  | verifyCheck session_id response plaintext =>
    unfold advance
    cases auth <;> rfl
  | verifySettle session_id plaintext ok =>
    unfold advance
    cases ok with
    | true => exact lookup_modify s session_id _ id
    | false => exact lookup_modify s session_id _ id
  | executeCheck req ctx =>
    unfold advance
    dsimp only
    cases SessionRegistry.authorize scheme auth env.now ctx "Execute" "auth required"
      s!"auth verification failed for {req.session_id}" <;> rfl
  | executeTouch req => exact lookup_modify s req.session_id _ id
  | executeSend req => exact lookup_backendSend s env req.session_id _ id
  | closeCheck session_id ctx =>
    unfold advance
    dsimp only
    cases SessionRegistry.authorize scheme auth env.now ctx "Close" "auth required" "auth verification failed" <;> rfl
  | closeTouch session_id => exact lookup_modify s session_id _ id
  | closeKernel session_id =>
    have hclose : (advance scheme auth encrypt s env (.closeKernel session_id)).1 = (s.backendClose session_id).1 := by
      unfold advance
      dsimp only
      rcases s.backendClose session_id with ⟨s', e | _⟩ <;> rfl
    rw [hclose]
    exact lookup_backendClose s session_id id
  | closeRemove session_id => exact lookup_removeSession s session_id id
  | done result => rfl

/-! ## Where an operation stands next -/

/-- The stages that come after one another, in a registry. -/
inductive Follows (s : SessionRegistry) : Stage → Stage → Prop
  | ends (stage : Stage) (result : Except String Unit) : Follows s stage (.done result)
  | startChecked (params : SessionParams) (ctx : Option AuthContext) : Follows s (.startCheck params ctx) (.startSpawn params)
  | spawned (params : SessionParams) (id : String) : Follows s (.startSpawn params) (.startInsert params id)
  | inserted (params : SessionParams) (id : String) : Follows s (.startInsert params id) (.startChallenge params id)
  | created (params : SessionParams) (id : String) (plaintext : Bytes) :
      Follows s (.startChallenge params id) (.startAttach params id plaintext)
  | took {session_id : String} {plaintext : Bytes} (response : Bytes)
      (h : (s.sessions.lookup session_id).bind SessionMeta.pending_challenge = some plaintext) :
      Follows s (.verifyTake session_id response) (.verifyCheck session_id response plaintext)
  | compared (session_id : String) (response plaintext : Bytes) : Follows s (.verifyCheck session_id response plaintext)
      (.verifySettle session_id plaintext (LocalAuth.verifyChallenge plaintext response))
  | executeChecked (req : CodeRequest) (ctx : Option AuthContext) : Follows s (.executeCheck req ctx) (.executeTouch req)
  | executeTouched (req : CodeRequest) : Follows s (.executeTouch req) (.executeSend req)
  | closeChecked (session_id : String) (ctx : Option AuthContext) : Follows s (.closeCheck session_id ctx) (.closeTouch session_id)
  | closeTouched (session_id : String) : Follows s (.closeTouch session_id) (.closeKernel session_id)
  | closed (session_id : String) : Follows s (.closeKernel session_id) (.closeRemove session_id)

theorem advance_follows (scheme : SignatureScheme) (auth : Option LocalAuth) (encrypt : Bytes → Bytes → Except String Bytes)
    (s : SessionRegistry) (env : Env) (stage : Stage) : Follows s stage (advance scheme auth encrypt s env stage).2 := by
  cases stage with
  | startCheck params ctx =>
    unfold advance
    dsimp only
    cases SessionRegistry.authorize scheme auth env.now ctx "Start" "auth required but no context supplied"
      "auth verification failed" with
    | error e => exact .ends _ _
    | ok _ => exact .startChecked params ctx
  | startSpawn params =>
    unfold advance
    dsimp only
    rcases s.backendStart env params with ⟨s', e | id⟩
    · exact .ends _ _
    · exact .spawned params id
  | startInsert params id =>
    unfold advance
    dsimp only
    split_ifs
    · exact .inserted params id
    · exact .ends _ _
  | startChallenge params id =>
    unfold advance
    cases auth with
    | none => exact .ends _ _
    | some auth =>
      dsimp only
      cases auth.createChallenge encrypt env.random with
      | error e => exact .ends _ _
      | ok challenge => exact .created params id challenge.plaintext
  | startAttach params id plaintext => exact .ends _ _
  | verifyTake session_id response =>
    unfold advance SessionRegistry.takeChallenge
    dsimp only
    cases hentry : s.sessions.lookup session_id with
    | none => exact .ends _ _
    | some h =>
      dsimp only
      cases hpending : h.pending_challenge with
      | none => exact .ends _ _
      | some plaintext => exact .took response (by rw [hentry]; exact hpending)
  | verifyCheck session_id response plaintext =>
    unfold advance
    cases auth with
    | none => exact .ends _ _
    | some auth => exact .compared session_id response plaintext
  | verifySettle session_id plaintext ok => exact .ends _ _
  | executeCheck req ctx =>
    unfold advance
    dsimp only
    cases SessionRegistry.authorize scheme auth env.now ctx "Execute" "auth required"
      s!"auth verification failed for {req.session_id}" with
    | error e => exact .ends _ _
    | ok _ => exact .executeChecked req ctx
  | executeTouch req => exact .executeTouched req
  | executeSend req => exact .ends _ _
  | closeCheck session_id ctx =>
    unfold advance
    dsimp only
    cases SessionRegistry.authorize scheme auth env.now ctx "Close" "auth required" "auth verification failed" with
    | error e => exact .ends _ _
    | ok _ => exact .closeChecked session_id ctx
  | closeTouch session_id => exact .closeTouched session_id
  | closeKernel session_id =>
    unfold advance
    dsimp only
    rcases s.backendClose session_id with ⟨s', e | _⟩
    · exact .ends _ _
    · exact .closed session_id
  | closeRemove session_id => exact .ends _ _
  | done result => exact .ends _ _

end Runner

end Opsense
