import Opsense.Lib.Machine
import Opsense.Lib.Text

/-!
# The connection to a kernel

`KernelConnection::execute` and `interrupt` of `opsense-proto/src/host.rs`, over two pipes, with a kernel that keeps the protocol: each
request for code is answered by events that end with `Done`; an interrupt that arrives while a request runs is answered through that
stream, and by an `Ack` when none runs. The host reads no answer of an interrupt, and stops to read where an execute times out. So an
execute returns its own result exactly when no interrupt was sent and no execute has timed out before it on its connection
(`execute_own_result_iff`). The messages carry the number of the call they belong to, which neither side reads.
-/

namespace Opsense

namespace Proto

structure DataFrame where
  arrow_ipc : Bytes
  rows : Int
  cols : Int
  columns : List String
deriving DecidableEq

structure Artifact where
  name : String
  mime : String
  data : Bytes
deriving DecidableEq

/-- The captured `result` value; a number is the bits of its double. -/
inductive Value where
  | nothing (nothing : Bool)
  | text (text : String)
  | number (bits : UInt64)
  | flag (flag : Bool)
  | dataframe (dataframe : DataFrame)
  | artifact (artifact : Artifact)
  | json (json : String)
  | raw (raw : Bytes)
deriving DecidableEq

structure ErrorEvent where
  kind : String
  message : String
deriving DecidableEq

/-- `exec_event::Event` -/
inductive Event where
  | stdoutLine (line : String)
  | stderrLine (line : String)
  | artifact (artifact : Artifact)
  | dataframe (dataframe : DataFrame)
  | error (err : ErrorEvent)
  | done (done : Bool)
  | resultValue (value : Value)
deriving DecidableEq

structure ExecEvent where
  request_id : String
  event : Option Event
deriving DecidableEq

structure Ack where
  ok : Bool
  error : String
deriving DecidableEq

/-- The messages that a kernel answers requests and interrupts with. -/
inductive Msg where
  | execEvent (event : ExecEvent)
  | ack (ack : Ack)
deriving DecidableEq

structure CodeRequest where
  request_id : String
  session_id : String
  code : String
  input_names : List String
  timeout_ms : Nat
deriving DecidableEq

structure InterruptRequest where
  session_id : String
  request_id : String
deriving DecidableEq

/-- Everything that came back from one run of `execute`. -/
structure ExecOutcome where
  events : List ExecEvent
  value : Option Value
  error : Option ErrorEvent
  timed_out : Bool
deriving DecidableEq

/-- `ExecOutcome::default` -/
def ExecOutcome.empty : ExecOutcome := ⟨[], none, none, false⟩

/-- An event of the drain. -/
def ExecOutcome.push (outcome : ExecOutcome) (event : ExecEvent) : ExecOutcome :=
  match event.event with
  | some (.resultValue value) => { outcome with value := some value }
  | some (.error err) => { outcome with error := some err, events := outcome.events ++ [event] }
  | _ => { outcome with events := outcome.events ++ [event] }

/-- What the events of one stream add up to. -/
def collect (events : List ExecEvent) : ExecOutcome := events.foldl ExecOutcome.push .empty

def ExecEvent.isDone (event : ExecEvent) : Bool := event.event = some (.done true)

/-- An envelope that the drain does not expect. -/
def unexpected : Option Ack → String
  | none => "unexpected envelope during execute: None"
  | some ack => s!"unexpected envelope during execute: Some(Ack(Ack \x7b ok: {ack.ok}, error: {ack.error.quote} \x7d))"

/-- One envelope of the drain: it goes on, or ends with a result. -/
def drain (outcome : ExecOutcome) : Option Msg → ExecOutcome ⊕ Except String ExecOutcome
  | some (.execEvent event) => if event.isDone then .inr (.ok (outcome.push event)) else .inl (outcome.push event)
  | some (.ack ack) => .inr (.error (unexpected (some ack)))
  | none => .inr (.error (unexpected none))

/-! ## The two pipes -/

/-- What the host sends. -/
inductive ToKernel where
  | code (req : CodeRequest)
  | interrupt (req : InterruptRequest)
deriving DecidableEq

/-- A frame from the kernel: a data frame, or an envelope that belongs to a call. -/
inductive Arrival where
  | arrow
  | envelope (call : Nat) (msg : Option Msg)
deriving DecidableEq

structure Connection where
  /-- The execute that drains its events, with its request and what it has collected. -/
  host : Option (Nat × CodeRequest × ExecOutcome)
  /-- How many calls were made. -/
  calls : Nat
  /-- The requests that the kernel has not handled, with their calls. -/
  toKernel : List (Nat × ToKernel)
  /-- The request that the kernel runs. -/
  kernel : Option (Nat × CodeRequest)
  /-- All that the kernel has sent. -/
  sent : List Arrival
  /-- How much of it the host has read. -/
  read : Nat

inductive ConnectionStep where
  /-- The host begins an execute. -/
  | execute (req : CodeRequest)
  | interrupt (session_id request_id : String)
  /-- The host reads a frame. -/
  | read
  /-- The deadline of an execute elapses. -/
  | timeout
  /-- The kernel handles its next request; an interrupt, with this answer. -/
  | handle (ack : Ack)
  /-- The kernel finds an interrupt while it runs a request. -/
  | hear (i : Nat)
  | emit (event : Option Event)
  | finish
  /-- The kernel sends a data frame. -/
  | stray
deriving DecidableEq

/-- What an execute that timed out returns. -/
def timedOut : ExecOutcome := { ExecOutcome.empty with timed_out := true }

/-- One step of the host or the kernel, and the result of the call it ends. -/
def connectionStep (s : Connection) : ConnectionStep → Connection × Option (Nat × Except String ExecOutcome)
  | .execute req =>
    match s.host with
    | some _ => (s, none)
    | none => ({ s with
        host := some (s.calls, req, .empty)
        calls := s.calls + 1
        toKernel := s.toKernel ++ [(s.calls, .code req)] }, none)
  | .interrupt session_id request_id =>
    match s.host with
    | some _ => (s, none)
    | none => ({ s with
        calls := s.calls + 1
        toKernel := s.toKernel ++ [(s.calls, .interrupt ⟨session_id, request_id⟩)] }, none)
  | .read =>
    match s.host, s.sent[s.read]? with
    | some _, some .arrow => ({ s with read := s.read + 1 }, none)
    | some (call, req, outcome), some (.envelope _ msg) =>
      match drain outcome msg with
      | .inl outcome => ({ s with host := some (call, req, outcome), read := s.read + 1 }, none)
      | .inr result => ({ s with host := none, read := s.read + 1 }, some (call, result))
    | _, _ => (s, none)
  | .timeout =>
    match s.host with
    | none => (s, none)
    | some (call, req, _) =>
      if req.timeout_ms = 0 then (s, none)
      else ({ s with
        host := none
        toKernel := s.toKernel ++ [(call, .interrupt ⟨req.session_id, req.request_id⟩)] }, some (call, .ok timedOut))
  | .handle ack =>
    match s.kernel, s.toKernel with
    | none, (call, .code req) :: rest => ({ s with kernel := some (call, req), toKernel := rest }, none)
    | none, (call, .interrupt _) :: rest => ({ s with toKernel := rest, sent := s.sent ++ [.envelope call (some (.ack ack))] }, none)
    | _, _ => (s, none)
  | .hear i =>
    match s.kernel, s.toKernel[i]? with
    | some _, some (_, .interrupt _) => ({ s with toKernel := s.toKernel.eraseIdx i }, none)
    | _, _ => (s, none)
  | .emit event =>
    match s.kernel with
    | none => (s, none)
    | some (call, req) =>
      if event = some (.done true) then (s, none)
      else ({ s with sent := s.sent ++ [.envelope call (some (.execEvent ⟨req.request_id, event⟩))] }, none)
  | .finish =>
    match s.kernel with
    | none => (s, none)
    | some (call, req) =>
      ({ s with kernel := none, sent := s.sent ++ [.envelope call (some (.execEvent ⟨req.request_id, some (.done true)⟩))] }, none)
  | .stray => ({ s with sent := s.sent ++ [.arrow] }, none)

/-- A connection after the handshake and the start of its session. -/
def connection : Machine Connection ConnectionStep (Option (Nat × Except String ExecOutcome)) where
  init := ⟨none, 0, [], none, [], 0⟩
  step := connectionStep

/-! ## What is asked of an execute -/

/-- The event of a frame that belongs to a call. -/
def Arrival.eventOf (call : Nat) : Arrival → Option ExecEvent
  | .envelope call' (some (.execEvent event)) => if call' = call then some event else none
  | _ => none

/-- The stream of a call: the events that the kernel has answered it with. -/
def eventsOf (call : Nat) (sent : List Arrival) : List ExecEvent := sent.filterMap (Arrival.eventOf call)

/-- An execute that ends at the next frame ends at its own `Done`, with the events, the value and the error of its own stream. -/
def OwnResult (s : Connection) (call : Nat) (result : Except String ExecOutcome) : Prop :=
  (∃ event, s.sent[s.read]? = some (.envelope call (some (.execEvent event))) ∧ event.isDone = true) ∧
    result = .ok (collect (eventsOf call s.sent))

/-- A step sends no interrupt and is no timeout. -/
def Calm (s : Connection) : ConnectionStep → Prop
  | .interrupt _ _ => s.host ≠ none
  | .timeout => ∀ h ∈ s.host, h.2.1.timeout_ms = 0
  | _ => True

instance (s : Connection) (a : ConnectionStep) : Decidable (Calm s a) := by
  unfold Calm
  split <;> infer_instance

/-! ## The steps -/

/-- What a step of a connection does. -/
inductive Stepped (s : Connection) : ConnectionStep → Connection → Option (Nat × Except String ExecOutcome) → Prop
  | idles (a : ConnectionStep) : Stepped s a s none
  | executes (req : CodeRequest) (hhost : s.host = none) : Stepped s (.execute req) { s with
      host := some (s.calls, req, .empty), calls := s.calls + 1, toKernel := s.toKernel ++ [(s.calls, .code req)] } none
  | interrupts (session_id request_id : String) (hhost : s.host = none) : Stepped s (.interrupt session_id request_id) { s with
      calls := s.calls + 1, toKernel := s.toKernel ++ [(s.calls, .interrupt ⟨session_id, request_id⟩)] } none
  | skips (hread : s.sent[s.read]? = some .arrow) : Stepped s .read { s with read := s.read + 1 } none
  | reads {call : Nat} {req : CodeRequest} {outcome outcome' : ExecOutcome} {call' : Nat} {msg : Option Msg}
      (hhost : s.host = some (call, req, outcome)) (hread : s.sent[s.read]? = some (.envelope call' msg))
      (hdrain : drain outcome msg = .inl outcome') :
      Stepped s .read { s with host := some (call, req, outcome'), read := s.read + 1 } none
  | returns {call : Nat} {req : CodeRequest} {outcome : ExecOutcome} {call' : Nat} {msg : Option Msg}
      {result : Except String ExecOutcome} (hhost : s.host = some (call, req, outcome))
      (hread : s.sent[s.read]? = some (.envelope call' msg)) (hdrain : drain outcome msg = .inr result) :
      Stepped s .read { s with host := none, read := s.read + 1 } (some (call, result))
  | timesOut {call : Nat} {req : CodeRequest} {outcome : ExecOutcome} (hhost : s.host = some (call, req, outcome))
      (htimeout : req.timeout_ms ≠ 0) : Stepped s .timeout { s with
      host := none, toKernel := s.toKernel ++ [(call, .interrupt ⟨req.session_id, req.request_id⟩)] } (some (call, .ok timedOut))
  | runs {call : Nat} {req : CodeRequest} {rest : List (Nat × ToKernel)} (ack : Ack) (hkernel : s.kernel = none)
      (hqueue : s.toKernel = (call, .code req) :: rest) :
      Stepped s (.handle ack) { s with kernel := some (call, req), toKernel := rest } none
  | acknowledges {call : Nat} {req : InterruptRequest} {rest : List (Nat × ToKernel)} (ack : Ack) (hkernel : s.kernel = none)
      (hqueue : s.toKernel = (call, .interrupt req) :: rest) : Stepped s (.handle ack) { s with
      toKernel := rest, sent := s.sent ++ [.envelope call (some (.ack ack))] } none
  | hears {call : Nat} {req : CodeRequest} {i call' : Nat} {req' : InterruptRequest} (hkernel : s.kernel = some (call, req))
      (hqueue : s.toKernel[i]? = some (call', .interrupt req')) :
      Stepped s (.hear i) { s with toKernel := s.toKernel.eraseIdx i } none
  | emits {call : Nat} {req : CodeRequest} {event : Option Event} (hkernel : s.kernel = some (call, req))
      (hevent : event ≠ some (.done true)) : Stepped s (.emit event) { s with
      sent := s.sent ++ [.envelope call (some (.execEvent ⟨req.request_id, event⟩))] } none
  | finishes {call : Nat} {req : CodeRequest} (hkernel : s.kernel = some (call, req)) : Stepped s .finish { s with
      kernel := none, sent := s.sent ++ [.envelope call (some (.execEvent ⟨req.request_id, some (.done true)⟩))] } none
  | strays : Stepped s .stray { s with sent := s.sent ++ [.arrow] } none

theorem stepped (s : Connection) (a : ConnectionStep) : Stepped s a (connection.next s a) (connection.out s a) := by
  change Stepped s a (connectionStep s a).1 (connectionStep s a).2
  unfold connectionStep
  cases a with
  | execute req =>
    dsimp only
    cases hhost : s.host with
    | none => exact .executes req hhost
    | some h => exact .idles _
  | interrupt session_id request_id =>
    dsimp only
    cases hhost : s.host with
    | none =>
      have hstep := Stepped.interrupts session_id request_id hhost
      rw [hhost] at hstep
      exact hstep
    | some h => exact .idles _
  | read =>
    dsimp only
    rcases hhost : s.host with _ | ⟨call, req, outcome⟩
    · exact .idles _
    · rcases hread : s.sent[s.read]? with _ | _ | ⟨call', msg⟩
      · exact .idles _
      · dsimp only
        rw [← hhost]
        exact .skips hread
      · dsimp only
        cases hdrain : drain outcome msg with
        | inl outcome' => exact .reads hhost hread hdrain
        | inr result => exact .returns hhost hread hdrain
  | timeout =>
    dsimp only
    rcases hhost : s.host with _ | ⟨call, req, outcome⟩
    · exact .idles _
    · dsimp only
      split_ifs with htimeout
      · exact .idles _
      · exact .timesOut hhost htimeout
  | handle ack =>
    dsimp only
    rcases hkernel : s.kernel with _ | ⟨call, req⟩
    · rcases hqueue : s.toKernel with _ | ⟨⟨call, req | req⟩, rest⟩
      · exact .idles _
      · exact .runs ack hkernel hqueue
      · dsimp only
        rw [← hkernel]
        exact .acknowledges ack hkernel hqueue
    · exact .idles _
  | hear i =>
    dsimp only
    rcases hkernel : s.kernel with _ | ⟨call, req⟩
    · exact .idles _
    · rcases hqueue : s.toKernel[i]? with _ | ⟨call', req' | req'⟩
      · exact .idles _
      · exact .idles _
      · dsimp only
        rw [← hkernel]
        exact .hears hkernel hqueue
  | emit event =>
    dsimp only
    rcases hkernel : s.kernel with _ | ⟨call, req⟩
    · exact .idles _
    · dsimp only
      split_ifs with hevent
      · exact .idles _
      · rw [← hkernel]
        exact .emits hkernel hevent
  | finish =>
    dsimp only
    rcases hkernel : s.kernel with _ | ⟨call, req⟩
    · exact .idles _
    · exact .finishes hkernel
  | stray => exact .strays

/-! ## The order of the answers -/

variable {s s' : Connection} {a : ConnectionStep} {out : Option (Nat × Except String ExecOutcome)}

/-- The call that a frame belongs to. -/
def Arrival.call : Arrival → Option Nat
  | .arrow => none
  | .envelope call _ => some call

/-- The call whose answer ends with a frame. -/
def Arrival.ends : Arrival → Option Nat
  | .envelope call (some (.execEvent event)) => if event.isDone then some call else none
  | .envelope call _ => some call
  | .arrow => none

/-- The calls of what was sent, of what runs, and of what waits, in the order of the pipes. -/
def agenda (s : Connection) : List Nat :=
  s.sent.filterMap Arrival.call ++ ((s.kernel.map Prod.fst).toList ++ s.toKernel.map Prod.fst)

/-- What the host has not read. -/
def unread (s : Connection) : List Arrival := s.sent.drop s.read

/-- The end of the answer of a call is on its way, or its request for code is. -/
def Due (s : Connection) (call : Nat) : Prop :=
  (∃ arrival ∈ unread s, arrival.ends = some call) ∨ (∃ req, s.kernel = some (call, req)) ∨ ∃ req, (call, .code req) ∈ s.toKernel

/-- The answer of a call, which may be an interrupt, is still to be read. -/
def Owes (s : Connection) (call : Nat) : Prop := Due s call ∨ ∃ req, (call, .interrupt req) ∈ s.toKernel

/-- The answers come in the order of the calls, and that of the execute that drains is still to end. -/
structure Wired (s : Connection) : Prop where
  sorted : (agenda s).Pairwise (· ≤ ·)
  bound : ∀ call ∈ agenda s, call < s.calls
  within : s.read ≤ s.sent.length
  drains : ∀ h ∈ s.host, s.calls = h.1 + 1 ∧ Due s h.1

variable {arrival : Arrival}

theorem call_of_ends {call : Nat} (h : arrival.ends = some call) : arrival.call = some call := by
  unfold Arrival.ends at h
  split at h
  · split_ifs at h
    exact h
  · exact h
  · cases h

theorem unread_send (s : Connection) (arrival : Arrival) {b : Arrival} (h : b ∈ unread s) :
    b ∈ unread { s with sent := s.sent ++ [arrival] } := by
  unfold unread at h ⊢
  dsimp only
  rw [List.drop_append]
  exact List.mem_append_left _ h

theorem mem_unread_send (s : Connection) (arrival : Arrival) (h : s.read ≤ s.sent.length) :
    arrival ∈ unread { s with sent := s.sent ++ [arrival] } := by
  unfold unread
  dsimp only
  rw [List.drop_append_of_le_length h]
  exact List.mem_append_right _ (List.mem_singleton_self _)

/-- The frame that is read, and the rest. -/
theorem unread_cons (h : s.sent[s.read]? = some arrival) :
    unread s = arrival :: unread { s with read := s.read + 1 } := by
  obtain ⟨hlt, rfl⟩ := List.getElem?_eq_some_iff.mp h
  exact List.drop_eq_getElem_cons hlt

variable {msg : Option Msg} {outcome : ExecOutcome}

theorem ends_of_drain {call : Nat} :
    (∀ outcome', drain outcome msg = .inl outcome' → (Arrival.envelope call msg).ends = none) ∧
      ∀ result, drain outcome msg = .inr result → (Arrival.envelope call msg).ends = some call := by
  unfold drain Arrival.ends
  rcases msg with _ | event | ack
  · exact ⟨fun _ h => (by cases h), fun _ _ => rfl⟩
  · dsimp only
    split_ifs
    · exact ⟨fun _ h => (by cases h), fun _ _ => rfl⟩
    · exact ⟨fun _ _ => rfl, fun _ h => by cases h⟩
  · exact ⟨fun _ h => (by cases h), fun _ _ => rfl⟩

theorem agenda_eq (s : Connection) : agenda s = (s.sent.take s.read).filterMap Arrival.call ++
    ((unread s).filterMap Arrival.call ++ ((s.kernel.map Prod.fst).toList ++ s.toKernel.map Prod.fst)) := by
  have hsent : s.sent.filterMap Arrival.call = (s.sent.take s.read).filterMap Arrival.call ++ (unread s).filterMap Arrival.call := by
    unfold unread
    rw [← List.filterMap_append, List.take_append_drop]
  unfold agenda
  rw [hsent, List.append_assoc]

/-- The frame that is read belongs to no later call than any answer that is still to be read. -/
theorem Wired.first_le (hw : Wired s) {call call' : Nat} (hread : s.sent[s.read]? = some (.envelope call' msg)) (howes : Owes s call) :
    call' ≤ call := by
  have hunread := unread_cons hread
  have hsorted : (call' :: ((unread { s with read := s.read + 1 }).filterMap Arrival.call ++
      ((s.kernel.map Prod.fst).toList ++ s.toKernel.map Prod.fst))).Pairwise (· ≤ ·) := by
    have h := hw.sorted
    rw [agenda_eq, hunread] at h
    exact (List.pairwise_append.mp h).2.1
  have hle := (List.pairwise_cons.mp hsorted).1
  rcases howes with (⟨arrival, hmem, hends⟩ | ⟨req, hkernel⟩ | ⟨req, hmem⟩) | ⟨req, hmem⟩
  · rw [hunread] at hmem
    rcases List.mem_cons.mp hmem with rfl | hrest
    · exact (Option.some.inj (call_of_ends hends)).le
    · exact hle call (List.mem_append_left _ (List.mem_filterMap.mpr ⟨arrival, hrest, call_of_ends hends⟩))
  · exact hle call (List.mem_append_right _ (List.mem_append_left _ (by rw [hkernel]; exact List.mem_singleton_self _)))
  · exact hle call (List.mem_append_right _ (List.mem_append_right _ (List.mem_map.mpr ⟨_, hmem, rfl⟩)))
  · exact hle call (List.mem_append_right _ (List.mem_append_right _ (List.mem_map.mpr ⟨_, hmem, rfl⟩)))

/-- What is due stays due when the kernel sends a frame. -/
theorem Due.send {call : Nat} (h : (∃ arrival ∈ unread s, arrival.ends = some call)) (arrival : Arrival) :
    ∃ b ∈ unread { s with sent := s.sent ++ [arrival] }, b.ends = some call := by
  obtain ⟨b, hmem, hends⟩ := h
  exact ⟨b, unread_send s arrival hmem, hends⟩

/-- What is due stays due when a frame is read that ends another answer, or none. -/
theorem Due.read {call : Nat} (h : Due s call) (hread : s.sent[s.read]? = some arrival) (hends : arrival.ends ≠ some call)
    (host : Option (Nat × CodeRequest × ExecOutcome)) :
    Due { s with host := host, read := s.read + 1 } call := by
  rcases h with ⟨b, hmem, hb⟩ | h
  · rw [unread_cons hread] at hmem
    rcases List.mem_cons.mp hmem with rfl | hrest
    · exact absurd hb hends
    · exact .inl ⟨b, hrest, hb⟩
  · exact .inr h

/-- What is due stays due, or is read. -/
theorem Due.step {call : Nat} (h : Due s call) (hw : Wired s) (hs : Stepped s a s' out) :
    Due s' call ∨ ∃ msg, s.sent[s.read]? = some (.envelope call msg) ∧ out.isSome = true := by
  cases hs with
  | idles => exact .inl h
  | executes req hhost => exact .inl (h.imp_right (Or.imp_right fun ⟨req, hmem⟩ => ⟨req, List.mem_append_left _ hmem⟩))
  | interrupts session_id request_id hhost =>
    exact .inl (h.imp_right (Or.imp_right fun ⟨req, hmem⟩ => ⟨req, List.mem_append_left _ hmem⟩))
  | skips hread => exact .inl (h.read hread (fun hends => by cases hends) s.host)
  | reads hhost hread hdrain =>
    refine .inl (h.read hread ?_ _)
    rw [ends_of_drain.1 _ hdrain]
    exact fun hends => by cases hends
  | returns hhost hread hdrain =>
    rename_i call' msg result
    by_cases heq : call' = call
    · subst heq
      exact .inr ⟨msg, hread, rfl⟩
    · refine .inl (h.read hread ?_ _)
      rw [ends_of_drain.2 _ hdrain]
      exact fun hends => heq (Option.some.inj hends)
  | timesOut hhost htimeout => exact .inl (h.imp_right (Or.imp_right fun ⟨req, hmem⟩ => ⟨req, List.mem_append_left _ hmem⟩))
  | runs ack hkernel hqueue =>
    rename_i call' req' rest
    refine .inl ?_
    rcases h with h | ⟨req, hrun⟩ | ⟨req, hmem⟩
    · exact .inl h
    · rw [hkernel] at hrun
      cases hrun
    · rw [hqueue] at hmem
      rcases List.mem_cons.mp hmem with heq | hrest
      · rw [(Prod.mk.inj heq).1]
        exact .inr (.inl ⟨req', rfl⟩)
      · exact .inr (.inr ⟨req, hrest⟩)
  | acknowledges ack hkernel hqueue =>
    refine .inl ?_
    rcases h with h | ⟨req, hrun⟩ | ⟨req, hmem⟩
    · exact .inl (Due.send h _)
    · rw [hkernel] at hrun
      cases hrun
    · rw [hqueue] at hmem
      rcases List.mem_cons.mp hmem with heq | hrest
      · cases heq
      · exact .inr (.inr ⟨req, hrest⟩)
  | hears hkernel hqueue =>
    rename_i call' req' i call'' req''
    refine .inl (h.imp_right (Or.imp_right fun ⟨req, hmem⟩ => ⟨req, ?_⟩))
    obtain ⟨j, hlt, hj⟩ := List.mem_iff_getElem.mp hmem
    have hne : j ≠ i := by
      rintro rfl
      rw [List.getElem?_eq_getElem hlt, hj] at hqueue
      cases hqueue
    exact List.mem_eraseIdx_iff_getElem.mpr ⟨j, hlt, hne, hj⟩
  | emits hkernel hevent => exact .inl (h.imp (fun hmem => Due.send hmem _) id)
  | finishes hkernel =>
    rename_i call' req'
    refine .inl ?_
    rcases h with h | ⟨req, hrun⟩ | h
    · exact .inl (Due.send h _)
    · rw [hkernel] at hrun
      obtain ⟨rfl, rfl⟩ := Prod.mk.inj (Option.some.inj hrun)
      refine .inl ⟨_, mem_unread_send { s with kernel := none } _ hw.within, ?_⟩
      rfl
    · exact .inr (.inr h)
  | strays => exact .inl (h.imp (fun hmem => Due.send hmem _) id)

theorem agenda_send (host : Option (Nat × CodeRequest × ExecOutcome)) (calls : Nat) (toKernel : List (Nat × ToKernel))
    (kernel : Option (Nat × CodeRequest)) (sent : List Arrival) (read call : Nat) (msg : Option Msg) :
    agenda ⟨host, calls, toKernel, kernel, sent ++ [.envelope call msg], read⟩ =
      sent.filterMap Arrival.call ++ call :: ((kernel.map Prod.fst).toList ++ toKernel.map Prod.fst) := by
  unfold agenda
  dsimp only
  rw [List.filterMap_append, List.append_assoc]
  rfl

theorem agenda_ask (s : Connection) (call : Nat) (req : ToKernel) :
    agenda { s with toKernel := s.toKernel ++ [(call, req)] } = agenda s ++ [call] := by
  unfold agenda
  dsimp only
  rw [List.map_append, List.append_assoc, List.append_assoc]
  rfl

theorem Wired.sorted_step (hw : Wired s) (hs : Stepped s a s' out) : (agenda s').Pairwise (· ≤ ·) := by
  have hask : ∀ call req, (∀ n ∈ agenda s, n ≤ call) → (agenda { s with toKernel := s.toKernel ++ [(call, req)] }).Pairwise (· ≤ ·) := by
    intro call req hle
    rw [agenda_ask, List.pairwise_append]
    exact ⟨hw.sorted, List.pairwise_singleton _ _, fun n hn m hm => List.mem_singleton.mp hm ▸ hle n hn⟩
  cases hs with
  | idles => exact hw.sorted
  | executes req hhost => exact hask s.calls (.code req) fun n hn => (hw.bound n hn).le
  | interrupts session_id request_id hhost => exact hask s.calls (.interrupt ⟨session_id, request_id⟩) fun n hn => (hw.bound n hn).le
  | skips hread => exact hw.sorted
  | reads hhost hread hdrain => exact hw.sorted
  | returns hhost hread hdrain => exact hw.sorted
  | timesOut hhost htimeout =>
    rename_i call req outcome
    refine hask call (.interrupt ⟨req.session_id, req.request_id⟩) fun n hn => ?_
    have hcalls := (hw.drains _ hhost).1
    have hlt := hw.bound n hn
    dsimp only at hcalls
    omega
  | runs ack hkernel hqueue =>
    have h := hw.sorted
    unfold agenda at h
    rw [hkernel, hqueue] at h
    exact h
  | acknowledges ack hkernel hqueue =>
    have h := hw.sorted
    unfold agenda at h
    rw [hkernel, hqueue] at h
    rw [agenda_send, hkernel]
    exact h
  | hears hkernel hqueue =>
    refine hw.sorted.sublist ?_
    exact List.Sublist.append_left (List.Sublist.append_left ((List.eraseIdx_sublist _ _).map _) _) _
  | emits hkernel hevent =>
    have h := hw.sorted
    rw [agenda_send]
    unfold agenda at h
    rw [hkernel] at h ⊢
    obtain ⟨hsent, hrest, hle⟩ := List.pairwise_append.mp h
    refine List.pairwise_append.mpr ⟨hsent, List.pairwise_cons.mpr ⟨fun n hn => ?_, hrest⟩, fun n hn m hm => ?_⟩
    · rcases List.mem_cons.mp hn with rfl | hn
      · exact le_refl _
      · exact (List.pairwise_cons.mp hrest).1 n hn
    · rcases List.mem_cons.mp hm with rfl | hm
      · exact hle n hn _ List.mem_cons_self
      · exact hle n hn m hm
  | finishes hkernel =>
    have h := hw.sorted
    unfold agenda at h
    rw [hkernel] at h
    rw [agenda_send]
    exact h
  | strays =>
    unfold agenda
    dsimp only
    rw [List.filterMap_append, List.filterMap_cons_none rfl, List.filterMap_nil, List.append_nil]
    exact hw.sorted

theorem mem_agenda_step (hs : Stepped s a s' out) {call : Nat} (h : call ∈ agenda s') :
    call ∈ agenda s ∨ (call = s.calls ∧ s'.calls = s.calls + 1) ∨ ∃ h ∈ s.host, h.1 = call := by
  have hask : ∀ call' req, call ∈ agenda { s with toKernel := s.toKernel ++ [(call', req)] } → call ∈ agenda s ∨ call = call' := by
    intro call' req hmem
    rw [agenda_ask] at hmem
    exact (List.mem_append.mp hmem).imp_right List.mem_singleton.mp
  cases hs with
  | idles => exact .inl h
  | executes req hhost => exact (hask s.calls (.code req) h).imp_right fun heq => .inl ⟨heq, rfl⟩
  | interrupts session_id request_id hhost =>
    exact (hask s.calls (.interrupt ⟨session_id, request_id⟩) h).imp_right fun heq => .inl ⟨heq, rfl⟩
  | skips hread => exact .inl h
  | reads hhost hread hdrain => exact .inl h
  | returns hhost hread hdrain => exact .inl h
  | timesOut hhost htimeout => exact (hask _ (.interrupt ⟨_, _⟩) h).imp_right fun heq => .inr ⟨_, hhost, heq.symm⟩
  | runs ack hkernel hqueue =>
    refine .inl ?_
    unfold agenda
    rw [hkernel, hqueue]
    exact h
  | acknowledges ack hkernel hqueue =>
    refine .inl ?_
    rw [agenda_send, hkernel] at h
    unfold agenda
    rw [hkernel, hqueue]
    exact h
  | hears hkernel hqueue =>
    exact .inl ((List.Sublist.append_left (List.Sublist.append_left ((List.eraseIdx_sublist _ _).map _) _) _).subset h)
  | emits hkernel hevent =>
    refine .inl ?_
    rw [agenda_send, hkernel] at h
    unfold agenda
    rw [hkernel]
    rcases List.mem_append.mp h with hsent | hrest
    · exact List.mem_append_left _ hsent
    · rcases List.mem_cons.mp hrest with rfl | hrest
      · exact List.mem_append_right _ List.mem_cons_self
      · exact List.mem_append_right _ hrest
  | finishes hkernel =>
    refine .inl ?_
    rw [agenda_send] at h
    unfold agenda
    rw [hkernel]
    exact h
  | strays =>
    refine .inl ?_
    unfold agenda at h
    dsimp only at h
    rw [List.filterMap_append, List.filterMap_cons_none rfl, List.filterMap_nil, List.append_nil] at h
    exact h

theorem Wired.step (hw : Wired s) (hs : Stepped s a s' out) : Wired s' := by
  have hcalls : s.calls ≤ s'.calls := by cases hs <;> simp
  have hwithin : s'.read ≤ s'.sent.length := by
    have hlt : ∀ {arrival}, s.sent[s.read]? = some arrival → s.read + 1 ≤ s.sent.length :=
      fun h => (List.getElem?_eq_some_iff.mp h).1
    have hle := hw.within
    cases hs with
    | skips hread => exact hlt hread
    | reads hhost hread hdrain => exact hlt hread
    | returns hhost hread hdrain => exact hlt hread
    | acknowledges ack hkernel hqueue => exact hle.trans (by simp)
    | emits hkernel hevent => exact hle.trans (by simp)
    | finishes hkernel => exact hle.trans (by simp)
    | strays => exact hle.trans (by simp)
    | _ => exact hle
  refine ⟨hw.sorted_step hs, fun call hcall => ?_, hwithin, fun h hh => ?_⟩
  · rcases mem_agenda_step hs hcall with hold | ⟨heq, hnew⟩ | ⟨h, hh, heq⟩
    · exact (hw.bound call hold).trans_le hcalls
    · omega
    · have := (hw.drains h hh).1
      omega
  · have hkept : ∀ h, s.host = some h → s'.calls = s.calls → out = none → s'.calls = h.1 + 1 ∧ Due s' h.1 := by
      intro h hh hsame hout
      obtain ⟨hdrains, hdue⟩ := hw.drains h hh
      refine ⟨hsame.trans hdrains, (hdue.step hw hs).resolve_right ?_⟩
      rw [hout]
      rintro ⟨msg, -, hsome⟩
      cases hsome
    cases hs with
    | executes req hhost =>
      obtain rfl := Option.some.inj hh
      exact ⟨rfl, .inr (.inr ⟨req, List.mem_append_right _ (List.mem_singleton_self _)⟩)⟩
    | interrupts session_id request_id hhost =>
      dsimp only at hh
      rw [hhost] at hh
      cases hh
    | reads hhost hread hdrain =>
      obtain rfl := Option.some.inj hh
      have hread := hkept _ hhost rfl rfl
      exact hread
    | returns hhost hread hdrain => cases hh
    | timesOut hhost htimeout => cases hh
    | _ => exact hkept h hh rfl rfl

/-! ## Connections that are disturbed -/

/-- The call before whose answers all others are to be read. -/
def limit (s : Connection) : Nat :=
  match s.host with
  | some h => h.1
  | none => s.calls

/-- The answer of an earlier call is still to be read. -/
def Behind (s : Connection) : Prop := ∃ call, call < limit s ∧ Owes s call

/-- An answer that is to be read stays so, or another one of an earlier call is, or it is read. -/
theorem Owes.step {call : Nat} (h : Owes s call) (hw : Wired s) (hs : Stepped s a s' out) :
    (∃ call' ≤ call, Owes s' call') ∨ ∃ msg, s.sent[s.read]? = some (.envelope call msg) ∧ out.isSome = true := by
  rcases h with hdue | ⟨req, hmem⟩
  · exact (hdue.step hw hs).imp_left fun hdue' => ⟨call, le_refl _, .inl hdue'⟩
  · refine .inl ?_
    cases hs with
    | acknowledges ack hkernel hqueue =>
      rw [hqueue] at hmem
      rcases List.mem_cons.mp hmem with heq | hrest
      · obtain ⟨rfl, -⟩ := Prod.mk.inj heq
        exact ⟨_, le_refl _, .inl (.inl ⟨_, mem_unread_send { s with toKernel := _ } _ hw.within, rfl⟩)⟩
      · exact ⟨call, le_refl _, .inr ⟨req, hrest⟩⟩
    | runs ack hkernel hqueue =>
      rw [hqueue] at hmem
      rcases List.mem_cons.mp hmem with heq | hrest
      · cases heq
      · exact ⟨call, le_refl _, .inr ⟨req, hrest⟩⟩
    | hears hkernel hqueue =>
      rename_i call' req' i call'' req''
      refine ⟨call', ?_, .inl (.inr (.inl ⟨req', hkernel⟩))⟩
      have hsorted := hw.sorted
      unfold agenda at hsorted
      rw [hkernel] at hsorted
      exact (List.pairwise_cons.mp (List.pairwise_append.mp hsorted).2.1).1 call (List.mem_map.mpr ⟨_, hmem, rfl⟩)
    | executes req' hhost => exact ⟨call, le_refl _, .inr ⟨req, List.mem_append_left _ hmem⟩⟩
    | interrupts session_id request_id hhost => exact ⟨call, le_refl _, .inr ⟨req, List.mem_append_left _ hmem⟩⟩
    | timesOut hhost htimeout => exact ⟨call, le_refl _, .inr ⟨req, List.mem_append_left _ hmem⟩⟩
    | _ => exact ⟨call, le_refl _, .inr ⟨req, hmem⟩⟩

/-- A connection that is behind stays behind: an execute that returns has read the end of an earlier answer. -/
theorem Behind.step (h : Behind s) (hw : Wired s) (hs : Stepped s a s' out) : Behind s' := by
  obtain ⟨call, hlt, howes⟩ := h
  have hle : out = none ∧ limit s ≤ limit s' ∨ ∃ h result, s.host = some h ∧ out = some (h.1, result) ∧ limit s' = s.calls := by
    unfold limit
    cases hs with
    | executes req hhost => exact .inl ⟨rfl, by rw [hhost]⟩
    | interrupts session_id request_id hhost =>
      refine .inl ⟨rfl, ?_⟩
      dsimp only
      rw [hhost]
      exact Nat.le_succ _
    | reads hhost hread hdrain => exact .inl ⟨rfl, by rw [hhost]⟩
    | returns hhost hread hdrain => exact .inr ⟨_, _, hhost, rfl, rfl⟩
    | timesOut hhost htimeout => exact .inr ⟨_, _, hhost, rfl, rfl⟩
    | _ => exact .inl ⟨rfl, le_refl _⟩
  rcases howes.step hw hs with ⟨call', hle', howes'⟩ | ⟨msg, hread, hsome⟩
  · rcases hle with ⟨-, hle⟩ | ⟨h, result, hhost, -, hlimit⟩
    · exact ⟨call', (hle'.trans_lt hlt).trans_le hle, howes'⟩
    · have hcalls := (hw.drains h hhost).1
      unfold limit at hlt
      rw [hhost] at hlt
      dsimp only at hlt
      exact ⟨call', by omega, howes'⟩
  · rcases hle with ⟨rfl, -⟩ | ⟨h, result, hhost, hout, hlimit⟩
    · cases hsome
    · obtain ⟨hcalls, hdue⟩ := hw.drains h hhost
      refine ⟨h.1, by omega, .inl ((hdue.step hw hs).resolve_right ?_)⟩
      rintro ⟨msg', hread', -⟩
      rw [hread] at hread'
      unfold limit at hlt
      rw [hhost] at hlt
      obtain ⟨rfl, -⟩ := Arrival.envelope.inj (Option.some.inj hread')
      exact lt_irrefl _ hlt

/-- An interrupt, or an execute that times out, leaves an answer behind. -/
theorem behind_of_not_calm (hw : Wired s) (h : ¬ Calm s a) : Behind (connection.next s a) := by
  cases a with
  | interrupt session_id request_id =>
    have hhost : s.host = none := not_not.mp h
    have hnext : connection.next s (.interrupt session_id request_id) = { s with
        calls := s.calls + 1, toKernel := s.toKernel ++ [(s.calls, .interrupt ⟨session_id, request_id⟩)] } := by
      unfold Machine.next connection connectionStep
      dsimp only
      rw [hhost]
    rw [hnext]
    refine ⟨s.calls, ?_, .inr ⟨_, List.mem_append_right _ (List.mem_singleton_self _)⟩⟩
    unfold limit
    dsimp only
    rw [hhost]
    exact Nat.lt_succ_self _
  | timeout =>
    unfold Calm at h
    push Not at h
    obtain ⟨⟨call, req, outcome⟩, hhost, htimeout⟩ := h
    have hnext : connection.next s .timeout = { s with
        host := none, toKernel := s.toKernel ++ [(call, .interrupt ⟨req.session_id, req.request_id⟩)] } := by
      unfold Machine.next connection connectionStep
      dsimp only
      rw [hhost]
      exact congrArg Prod.fst (if_neg htimeout)
    obtain ⟨hcalls, hdue⟩ := hw.drains _ hhost
    rw [hnext]
    refine ⟨call, ?_, .inl (hdue.imp_right (Or.imp_right fun ⟨req, hmem⟩ => ⟨req, List.mem_append_left _ hmem⟩))⟩
    unfold limit
    exact hcalls ▸ Nat.lt_succ_self _
  | _ => exact absurd trivial h

variable {req : CodeRequest}

/-- An execute that returns while the connection is behind has not read its own `Done`. -/
theorem Behind.not_own (h : Behind s) (hw : Wired s) {call : Nat} (hhost : s.host = some (call, req, outcome))
    (result : Except String ExecOutcome) : ¬ OwnResult s call result := by
  rintro ⟨⟨event, hread, -⟩, -⟩
  obtain ⟨call', hlt, howes⟩ := h
  unfold limit at hlt
  rw [hhost] at hlt
  exact absurd (hw.first_le hread howes) (not_le.mpr hlt)

/-! ## Connections that are in step -/

/-- A frame that does not end the stream of a call. -/
def GoesOn (call : Nat) (arrival : Arrival) : Prop :=
  arrival = .arrow ∨ ∃ event, arrival = .envelope call (some (.execEvent event)) ∧ event.isDone = false

/-- Where the request of an execute is, when nothing else is under way. -/
inductive Phase (s : Connection) (call : Nat) (req : CodeRequest) : Prop
  | queued (hkernel : s.kernel = none) (hqueue : s.toKernel = [(call, .code req)]) (hunread : ∀ b ∈ unread s, b = .arrow)
  | running (hkernel : s.kernel = some (call, req)) (hqueue : s.toKernel = []) (hunread : ∀ b ∈ unread s, GoesOn call b)
  | ended {xs ys : List Arrival} {event : ExecEvent} (hkernel : s.kernel = none) (hqueue : s.toKernel = [])
      (hunread : unread s = xs ++ .envelope call (some (.execEvent event)) :: ys) (hdone : event.isDone = true)
      (hxs : ∀ b ∈ xs, GoesOn call b) (hys : ∀ b ∈ ys, b = .arrow)

/-- Nothing is under way but the request of the execute that drains, which has collected its own events. -/
def InStep (s : Connection) : Prop :=
  match s.host with
  | none => s.kernel = none ∧ s.toKernel = [] ∧ ∀ b ∈ unread s, b = .arrow
  | some (call, req, outcome) => outcome = collect (eventsOf call (s.sent.take s.read)) ∧ Phase s call req

theorem collect_concat (events : List ExecEvent) (event : ExecEvent) : collect (events ++ [event]) = (collect events).push event :=
  List.foldl_concat _ _ _ _

theorem eventsOf_append (call : Nat) (xs ys : List Arrival) : eventsOf call (xs ++ ys) = eventsOf call xs ++ eventsOf call ys :=
  List.filterMap_append

theorem eventsOf_arrows (call : Nat) {xs : List Arrival} (h : ∀ b ∈ xs, b = .arrow) : eventsOf call xs = [] := by
  refine List.filterMap_eq_nil_iff.mpr fun b hb => ?_
  rw [h b hb]
  rfl

theorem eventsOf_event (call : Nat) (event : ExecEvent) : eventsOf call [.envelope call (some (.execEvent event))] = [event] := by
  unfold eventsOf
  rw [List.filterMap_cons, Arrival.eventOf, if_pos rfl]
  rfl

/-- A call that is new has no events. -/
theorem eventsOf_new (hw : Wired s) {xs : List Arrival} (hxs : xs ⊆ s.sent) : eventsOf s.calls xs = [] := by
  refine List.filterMap_eq_nil_iff.mpr fun b hb => ?_
  unfold Arrival.eventOf
  split
  · rename_i call event
    refine if_neg ?_
    rintro rfl
    have hmem : s.calls ∈ agenda s := List.mem_append_left _ (List.mem_filterMap.mpr ⟨_, hxs hb, rfl⟩)
    exact lt_irrefl _ (hw.bound _ hmem)
  · rfl

theorem take_succ_read (hread : s.sent[s.read]? = some arrival) :
    s.sent.take (s.read + 1) = s.sent.take s.read ++ [arrival] := by
  rw [List.take_add_one, hread]
  rfl

/-- The next frame of a request goes on, or is its `Done`. -/
theorem Phase.next_frame {call : Nat} (h : Phase s call req) (hread : s.sent[s.read]? = some arrival)
    (host : Option (Nat × CodeRequest × ExecOutcome)) :
    (GoesOn call arrival ∧ Phase { s with host := host, read := s.read + 1 } call req) ∨
      ∃ event, arrival = .envelope call (some (.execEvent event)) ∧ event.isDone = true ∧ s.kernel = none ∧ s.toKernel = [] ∧
        ∀ b ∈ unread { s with host := host, read := s.read + 1 }, b = .arrow := by
  have hcons := unread_cons hread
  have hsub : ∀ b ∈ unread { s with host := host, read := s.read + 1 }, b ∈ unread s := by
    intro b hb
    rw [hcons]
    exact List.mem_cons_of_mem _ hb
  have hhead : arrival ∈ unread s := by
    rw [hcons]
    exact List.mem_cons_self
  cases h with
  | queued hkernel hqueue hunread =>
    exact .inl ⟨.inl (hunread arrival hhead), .queued hkernel hqueue fun b hb => hunread b (hsub b hb)⟩
  | running hkernel hqueue hunread =>
    exact .inl ⟨hunread arrival hhead, .running hkernel hqueue fun b hb => hunread b (hsub b hb)⟩
  | ended hkernel hqueue hunread hdone hxs hys =>
    rename_i xs ys event
    rw [hcons] at hunread
    cases xs with
    | nil =>
      obtain ⟨rfl, hrest⟩ := List.cons.inj hunread
      refine .inr ⟨event, rfl, hdone, hkernel, hqueue, fun b hb => hys b ?_⟩
      rw [← hrest]
      exact hb
    | cons x xs =>
      obtain ⟨rfl, hrest⟩ := List.cons.inj hunread
      exact .inl ⟨hxs _ List.mem_cons_self, .ended hkernel hqueue hrest hdone (fun b hb => hxs b (List.mem_cons_of_mem _ hb)) hys⟩

theorem unread_concat (hw : Wired s) (arrival : Arrival) (kernel : Option (Nat × CodeRequest)) :
    unread { s with kernel := kernel, sent := s.sent ++ [arrival] } = unread s ++ [arrival] :=
  List.drop_append_of_le_length hw.within

theorem InStep.strays (h : InStep s) (hw : Wired s) : InStep { s with sent := s.sent ++ [.arrow] } := by
  have hunread : unread { s with sent := s.sent ++ [.arrow] } = unread s ++ [.arrow] := unread_concat hw .arrow s.kernel
  have harrows : ∀ {P : Arrival → Prop}, P .arrow → (∀ b ∈ unread s, P b) → ∀ b ∈ unread { s with sent := s.sent ++ [.arrow] }, P b := by
    intro P hP hall b hb
    rw [hunread] at hb
    rcases List.mem_append.mp hb with hold | hnew
    · exact hall b hold
    · exact List.mem_singleton.mp hnew ▸ hP
  unfold InStep at h ⊢
  rcases hhost : s.host with _ | ⟨call, req, outcome⟩
  · rw [hhost] at h
    exact ⟨h.1, h.2.1, harrows rfl h.2.2⟩
  · rw [hhost] at h
    obtain ⟨houtcome, hphase⟩ := h
    refine ⟨?_, ?_⟩
    · rw [List.take_append_of_le_length hw.within]
      exact houtcome
    · cases hphase with
      | queued hkernel hqueue hall => exact .queued hkernel hqueue (harrows rfl hall)
      | running hkernel hqueue hall => exact .running hkernel hqueue (harrows (.inl rfl) hall)
      | ended hkernel hqueue hsplit hdone hxs hys =>
        rename_i xs ys event
        have hsplit' : unread s ++ [.arrow] = xs ++ .envelope call (some (.execEvent event)) :: (ys ++ [.arrow]) := by
          rw [hsplit, List.append_assoc]
          rfl
        refine .ended hkernel hqueue (hunread.trans hsplit') hdone hxs fun b hb => ?_
        rcases List.mem_append.mp hb with hold | hnew
        · exact hys b hold
        · exact List.mem_singleton.mp hnew

/-- Where something is under way, an execute drains. -/
theorem InStep.busy (h : InStep s) (hbusy : s.kernel ≠ none ∨ s.toKernel ≠ []) : ∃ call req outcome,
    s.host = some (call, req, outcome) ∧ outcome = collect (eventsOf call (s.sent.take s.read)) ∧ Phase s call req := by
  unfold InStep at h
  rcases hhost : s.host with _ | ⟨call, req, outcome⟩
  · rw [hhost] at h
    exact hbusy.elim (fun hkernel => absurd h.1 hkernel) fun hqueue => absurd h.2.1 hqueue
  · rw [hhost] at h
    exact ⟨call, req, outcome, rfl, h⟩

theorem inStep_of_host {call : Nat} (hhost : s.host = some (call, req, outcome))
    (houtcome : outcome = collect (eventsOf call (s.sent.take s.read))) (hphase : Phase s call req) : InStep s := by
  unfold InStep
  rw [hhost]
  exact ⟨houtcome, hphase⟩

/-- What waits is the request. -/
theorem Phase.of_queue {call : Nat} (h : Phase s call req) (hqueue : s.toKernel ≠ []) :
    s.toKernel = [(call, .code req)] ∧ ∀ b ∈ unread s, b = .arrow := by
  cases h with
  | queued _ hqueue' hunread => exact ⟨hqueue', hunread⟩
  | running _ hqueue' => exact absurd hqueue' hqueue
  | ended _ hqueue' => exact absurd hqueue' hqueue

/-- What runs is the request. -/
theorem Phase.of_kernel {call call' : Nat} {req req' : CodeRequest} (h : Phase s call req) (hkernel : s.kernel = some (call', req')) :
    (call' = call ∧ req' = req) ∧ s.toKernel = [] ∧ ∀ b ∈ unread s, GoesOn call b := by
  cases h with
  | queued hkernel' => cases hkernel.symm.trans hkernel'
  | running hkernel' hqueue hunread =>
    exact ⟨Prod.mk.inj (Option.some.inj (hkernel.symm.trans hkernel')), hqueue, hunread⟩
  | ended hkernel' => cases hkernel.symm.trans hkernel'

theorem InStep.skips (h : InStep s) (hread : s.sent[s.read]? = some .arrow) : InStep { s with read := s.read + 1 } := by
  unfold InStep at h ⊢
  rcases hhost : s.host with _ | ⟨call, req, outcome⟩
  · rw [hhost] at h
    refine ⟨h.1, h.2.1, fun b hb => h.2.2 b ?_⟩
    rw [unread_cons hread]
    exact List.mem_cons_of_mem _ hb
  · rw [hhost] at h
    obtain ⟨houtcome, hphase⟩ := h
    dsimp only
    refine ⟨?_, ?_⟩
    · rw [take_succ_read hread, eventsOf_append, eventsOf_arrows call (fun b hb => List.mem_singleton.mp hb), List.append_nil]
      exact houtcome
    · rcases hphase.next_frame hread s.host with ⟨-, hphase'⟩ | ⟨event, heq, -⟩
      · rw [← hhost]
        exact hphase'
      · cases heq

/-- The execute takes an event of its own. -/
theorem InStep.reads (h : InStep s) {call : Nat} {outcome outcome' : ExecOutcome} {call' : Nat} (hhost : s.host = some (call, req, outcome))
    (hread : s.sent[s.read]? = some (.envelope call' msg)) (hdrain : drain outcome msg = .inl outcome') :
    InStep { s with host := some (call, req, outcome'), read := s.read + 1 } := by
  unfold InStep at h ⊢
  rw [hhost] at h
  obtain ⟨houtcome, hphase⟩ := h
  dsimp only
  have hends : (Arrival.envelope call' msg).ends = none := ends_of_drain.1 _ hdrain
  rcases hphase.next_frame hread (some (call, req, outcome')) with ⟨hgoes, hphase'⟩ | ⟨event, heq, hdone, -⟩
  · refine ⟨?_, hphase'⟩
    rcases hgoes with heq | ⟨event, heq, hdone⟩
    · cases heq
    · obtain ⟨rfl, rfl⟩ := Arrival.envelope.inj heq
      unfold drain at hdrain
      dsimp only at hdrain
      rw [if_neg (by rw [hdone]; exact Bool.false_ne_true)] at hdrain
      rw [take_succ_read hread, eventsOf_append, eventsOf_event, collect_concat, ← houtcome]
      exact (Sum.inl.inj hdrain).symm
  · rw [heq] at hends
    unfold Arrival.ends at hends
    dsimp only at hends
    rw [if_pos hdone] at hends
    cases hends

/-- The execute reads its `Done`. -/
theorem InStep.returns (h : InStep s) {call : Nat} {call' : Nat} {result : Except String ExecOutcome}
    (hhost : s.host = some (call, req, outcome)) (hread : s.sent[s.read]? = some (.envelope call' msg))
    (hdrain : drain outcome msg = .inr result) :
    InStep { s with host := none, read := s.read + 1 } := by
  unfold InStep at h ⊢
  rw [hhost] at h
  have hends : (Arrival.envelope call' msg).ends = some call' := ends_of_drain.2 _ hdrain
  rcases h.2.next_frame hread none with ⟨hgoes, -⟩ | ⟨event, heq, hdone, hkernel, hqueue, hunread⟩
  · rcases hgoes with heq | ⟨event, heq, hdone⟩
    · cases heq
    · rw [heq] at hends
      unfold Arrival.ends at hends
      dsimp only at hends
      rw [if_neg (by rw [hdone]; exact Bool.false_ne_true)] at hends
      cases hends
  · exact ⟨hkernel, hqueue, hunread⟩

theorem InStep.runs (h : InStep s) {call : Nat} {rest : List (Nat × ToKernel)} (hqueue : s.toKernel = (call, .code req) :: rest) :
    InStep { s with kernel := some (call, req), toKernel := rest } := by
  have hne : s.toKernel ≠ [] := by
    rw [hqueue]
    exact List.cons_ne_nil _ _
  obtain ⟨call', req', outcome, hhost, houtcome, hphase⟩ := h.busy (.inr hne)
  obtain ⟨hqueue', hunread⟩ := hphase.of_queue hne
  obtain ⟨heq, rfl⟩ := List.cons.inj (hqueue.symm.trans hqueue')
  obtain ⟨rfl, hreq⟩ := Prod.mk.inj heq
  obtain rfl := ToKernel.code.inj hreq
  exact inStep_of_host hhost houtcome (.running rfl rfl fun b hb => .inl (hunread b hb))

/-- The kernel sends a frame of the call that it runs. -/
theorem outcome_of_sends (hw : Wired s) {call : Nat} (houtcome : outcome = collect (eventsOf call (s.sent.take s.read))) (arrival : Arrival) :
    outcome = collect (eventsOf call ((s.sent ++ [arrival]).take s.read)) := by
  rw [List.take_append_of_le_length hw.within]
  exact houtcome

theorem InStep.emits (h : InStep s) (hw : Wired s) {call : Nat} {event : Option Event} (hkernel : s.kernel = some (call, req))
    (hevent : event ≠ some (.done true)) :
    InStep { s with sent := s.sent ++ [.envelope call (some (.execEvent ⟨req.request_id, event⟩))] } := by
  obtain ⟨call', req', outcome, hhost, houtcome, hphase⟩ := h.busy (.inl (by rw [hkernel]; exact Option.some_ne_none _))
  obtain ⟨⟨rfl, rfl⟩, hqueue, hall⟩ := hphase.of_kernel hkernel
  refine inStep_of_host hhost (outcome_of_sends hw houtcome _) (.running hkernel hqueue fun b hb => ?_)
  have hunread := unread_concat hw (.envelope call (some (.execEvent ⟨req.request_id, event⟩))) s.kernel
  rcases List.mem_append.mp (hunread ▸ hb) with hold | hnew
  · exact hall b hold
  · exact .inr ⟨_, List.mem_singleton.mp hnew, decide_eq_false hevent⟩

theorem InStep.finishes (h : InStep s) (hw : Wired s) {call : Nat} (hkernel : s.kernel = some (call, req)) :
    InStep { s with
      kernel := none, sent := s.sent ++ [.envelope call (some (.execEvent ⟨req.request_id, some (.done true)⟩))] } := by
  obtain ⟨call', req', outcome, hhost, houtcome, hphase⟩ := h.busy (.inl (by rw [hkernel]; exact Option.some_ne_none _))
  obtain ⟨⟨rfl, rfl⟩, hqueue, hall⟩ := hphase.of_kernel hkernel
  exact inStep_of_host hhost (outcome_of_sends hw houtcome _)
    (.ended rfl hqueue (unread_concat hw _ none) rfl hall fun b hb => absurd hb List.not_mem_nil)

/-- A step that is no interrupt and no timeout keeps a connection in step. -/
theorem InStep.step (h : InStep s) (hw : Wired s) (hcalm : Calm s a) (hs : Stepped s a s' out) : InStep s' := by
  cases hs with
  | idles => exact h
  | executes req hhost =>
    unfold InStep at h ⊢
    rw [hhost] at h
    refine ⟨?_, .queued h.1 (by rw [h.2.1]; rfl) h.2.2⟩
    rw [eventsOf_new hw (List.take_subset _ _)]
    rfl
  | interrupts session_id request_id hhost => exact absurd hhost hcalm
  | skips hread => exact h.skips hread
  | reads hhost hread hdrain => exact h.reads hhost hread hdrain
  | returns hhost hread hdrain => exact h.returns hhost hread hdrain
  | timesOut hhost htimeout => exact absurd (hcalm _ hhost) htimeout
  | runs ack hkernel hqueue => exact h.runs hqueue
  | acknowledges ack hkernel hqueue =>
    -- what waits is no interrupt
    have hne : s.toKernel ≠ [] := by
      rw [hqueue]
      exact List.cons_ne_nil _ _
    obtain ⟨call', req', outcome, -, -, hphase⟩ := h.busy (.inr hne)
    cases hqueue.symm.trans (hphase.of_queue hne).1
  | hears hkernel hqueue =>
    -- nothing waits while a request runs
    obtain ⟨call', req', outcome, -, -, hphase⟩ := h.busy (.inl (by rw [hkernel]; exact Option.some_ne_none _))
    rw [(hphase.of_kernel hkernel).2.1] at hqueue
    cases hqueue
  | emits hkernel hevent => exact h.emits hw hkernel hevent
  | finishes hkernel => exact h.finishes hw hkernel
  | strays => exact h.strays hw

/-- An execute that returns on a connection in step returns its own result. -/
theorem InStep.own (h : InStep s) {call : Nat} {result : Except String ExecOutcome}
    (hs : Stepped s .read s' (some (call, result))) : OwnResult s call result := by
  cases hs with
  | returns hhost hread hdrain =>
    rename_i req outcome call' msg
    unfold InStep at h
    rw [hhost] at h
    obtain ⟨houtcome, hphase⟩ := h
    have hends : (Arrival.envelope call' msg).ends = some call' := ends_of_drain.2 _ hdrain
    rcases hphase.next_frame hread none with ⟨hgoes, -⟩ | ⟨event, heq, hdone, -, -, hunread⟩
    · rcases hgoes with heq | ⟨event, heq, hdone⟩
      · cases heq
      · rw [heq] at hends
        unfold Arrival.ends at hends
        dsimp only at hends
        rw [if_neg (by rw [hdone]; exact Bool.false_ne_true)] at hends
        cases hends
    · obtain ⟨rfl, rfl⟩ := Arrival.envelope.inj heq
      refine ⟨⟨event, hread, hdone⟩, ?_⟩
      have hsent : s.sent = s.sent.take (s.read + 1) ++ unread { s with host := none, read := s.read + 1 } :=
        (List.take_append_drop _ _).symm
      rw [hsent, eventsOf_append, eventsOf_arrows call' hunread, List.append_nil, take_succ_read hread, eventsOf_append, eventsOf_event,
        collect_concat, ← houtcome]
      unfold drain at hdrain
      dsimp only at hdrain
      rw [if_pos hdone] at hdrain
      exact (Sum.inr.inj hdrain).symm

/-! ## Runs -/

theorem wired_state (as : List ConnectionStep) : Wired (connection.state as) := by
  refine Machine.invariant (I := Wired) ?_ (fun s a hw => hw.step (stepped s a)) as
  exact ⟨List.Pairwise.nil, fun call hcall => absurd hcall List.not_mem_nil, le_refl _, fun h hh => by cases hh⟩

/-- A connection is in step while no interrupt is sent and nothing times out, and behind from then on. -/
theorem state_cases (as : List ConnectionStep) :
    (connection.Along Calm as → InStep (connection.state as)) ∧ (¬ connection.Along Calm as → Behind (connection.state as)) := by
  induction as using List.reverseRecOn with
  | nil => exact ⟨fun _ => ⟨rfl, rfl, fun b hb => absurd hb List.not_mem_nil⟩, fun h => absurd Machine.Along.nil h⟩
  | append_singleton as a ih =>
    have hw := wired_state as
    rw [Machine.along_snoc, Machine.state_snoc]
    refine ⟨fun ⟨hcalm, ha⟩ => (ih.1 hcalm).step hw ha (stepped _ a), fun h => ?_⟩
    by_cases hcalm : connection.Along Calm as
    · exact behind_of_not_calm hw fun ha => h ⟨hcalm, ha⟩
    · exact (ih.2 hcalm).step hw (stepped _ a)

/-- An execute that returns without timing out returns the events, the value and the error of its own request, up to its own `Done`,
exactly when no interrupt was sent and no execute has timed out on the connection before. -/
theorem execute_own_result_iff (as : List ConnectionStep) (call : Nat) (result : Except String ExecOutcome)
    (h : connection.out (connection.state as) .read = some (call, result)) :
    OwnResult (connection.state as) call result ↔ connection.Along Calm as := by
  have hs := stepped (connection.state as) .read
  rw [h] at hs
  refine ⟨fun hown => ?_, fun hcalm => ((state_cases as).1 hcalm).own hs⟩
  by_contra hcalm
  generalize connection.next (connection.state as) .read = s' at hs
  cases hs with
  | returns hhost hread hdrain => exact ((state_cases as).2 hcalm).not_own (wired_state as) hhost result hown

/-- A request for one line of output, with a deadline. -/
def printRequest : CodeRequest := ⟨"r", "s", "print:1", [], 1000⟩

/-- A request that runs to its end. -/
def printed : List ConnectionStep :=
  [.execute printRequest, .handle ⟨true, ""⟩, .emit (some (.stdoutLine "1")), .finish, .read]

theorem execute_own_result_iff_printed : OwnResult (connection.state printed) 0
    (.ok ⟨[⟨"r", some (.stdoutLine "1")⟩, ⟨"r", some (.done true)⟩], none, none, false⟩) := by
  refine (execute_own_result_iff printed 0 _ (by decide +kernel)).mpr ?_
  rw [Machine.along_iff_alongFrom]
  decide +kernel

/-- An interrupt while nothing runs, and then a request. -/
def interruptedIdle : List ConnectionStep := [.interrupt "s" "r", .execute printRequest, .handle ⟨true, ""⟩]

/-- A request that times out, and then another one. -/
def timedOutFirst : List ConnectionStep :=
  [.execute printRequest, .handle ⟨true, ""⟩, .timeout, .execute ⟨"r2", "s", "print:2", [], 1000⟩, .hear 0,
    .emit (some (.error ⟨"cancelled", "interrupted by host"⟩)), .finish, .read]

/-- After an interrupt that found nothing to interrupt, an execute fails with its `Ack`; and after an execute that has timed out, the next
one returns its result. -/
theorem execute_returns_earlier_answer :
    connection.out (connection.state interruptedIdle) .read = some (1, .error (unexpected (some ⟨true, ""⟩))) ∧
    connection.out (connection.state timedOutFirst) .read = some (1, .ok
      ⟨[⟨"r", some (.error ⟨"cancelled", "interrupted by host"⟩)⟩, ⟨"r", some (.done true)⟩], none,
        some ⟨"cancelled", "interrupted by host"⟩, false⟩) ∧
    ¬ OwnResult (connection.state timedOutFirst) 1 (.ok
      ⟨[⟨"r", some (.error ⟨"cancelled", "interrupted by host"⟩)⟩, ⟨"r", some (.done true)⟩], none,
        some ⟨"cancelled", "interrupted by host"⟩, false⟩) := by
  refine ⟨rfl, by decide +kernel, ?_⟩
  rintro ⟨⟨event, hread, -⟩, -⟩
  have hcall : (connection.state timedOutFirst).sent[(connection.state timedOutFirst).read]? =
      some (.envelope 0 (some (.execEvent ⟨"r", some (.done true)⟩))) := by decide +kernel
  rw [hcall] at hread
  cases hread

end Proto

end Opsense
