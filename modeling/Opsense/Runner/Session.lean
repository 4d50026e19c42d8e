import Opsense.Runner.Auth
import Opsense.Storage.Inner

/-!
# Sessions and their kernels

`SessionRegistry` of `opsense-runner/src/session.rs` over `IpcKernelBackend` of `backend/ipc.rs`: the sessions, the kernels, and what
the calls do to them. Each of the small functions runs under one lock; the calls are put together from them. What a kernel process
answers, the clocks and the random bytes come from the `Env` of a call. Labels and the time of the start are left out.
-/

namespace Opsense

namespace Runner

structure SessionMeta where
  last_active : Nat
  role : Option String
  requested_role : Option String
  /-- The plaintext of the challenge. -/
  pending_challenge : Option Bytes
deriving DecidableEq

/-- What a kernel is sent. -/
inductive KernelRequest where
  | execute (request_id session_id code : String)
  | interrupt (session_id request_id : String)
deriving DecidableEq

/-- A kernel process, and what it was sent. -/
structure KernelProc where
  pid : Nat
  received : List KernelRequest
deriving DecidableEq

structure SessionParams where
  session_id : String
  require_challenge : Bool
  requested_role : String
deriving DecidableEq

structure CodeRequest where
  request_id : String
  session_id : String
  code : String
deriving DecidableEq

/-- What a call finds outside the registry. -/
structure Env where
  /-- `chrono::Utc::now().timestamp()` -/
  now : Int
  /-- `Instant::now()` -/
  instant : Nat
  /-- The process of a kernel that is started. -/
  pid : Nat
  /-- Spawning a kernel, the handshake, and the session id it echoes. -/
  spawn : Except String String
  /-- Whether a process came up, where this failed. -/
  spawned : Bool
  /-- What a kernel answers a request with. -/
  reply : Except String Unit
  /-- The bytes of a challenge. -/
  random : Bytes

structure SessionRegistry where
  sessions : Table String SessionMeta
  kernels : Table String KernelProc

namespace SessionRegistry

/-! ## Under one lock -/

/-- A change of one session, if it is there. -/
def modify (s : SessionRegistry) (session_id : String) (f : SessionMeta → SessionMeta) : SessionRegistry :=
  match s.sessions.lookup session_id with
  | none => s
  | some h => { s with sessions := s.sessions.insert session_id (f h) }

def touch (s : SessionRegistry) (instant : Nat) (session_id : String) : SessionRegistry :=
  s.modify session_id fun h => { h with last_active := instant }

/-- `IpcKernelBackend::start` -/
def backendStart (s : SessionRegistry) (env : Env) (params : SessionParams) : SessionRegistry × Except String String :=
  match env.spawn with
  | .error e => (s, .error e)
  | .ok id =>
    if id ≠ params.session_id then (s, .error s!"kernel echoed session id {id} but host expected {params.session_id}")
    else ({ s with kernels := s.kernels.insert id ⟨env.pid, []⟩ }, .ok id)

/-- The insertion of the metadata. -/
def insertSession (s : SessionRegistry) (instant : Nat) (id : String) : SessionRegistry :=
  { s with sessions := s.sessions.insert id ⟨instant, none, none, none⟩ }

/-- `IpcKernelBackend::execute` and `interrupt`. -/
def backendSend (s : SessionRegistry) (env : Env) (session_id : String) (request : KernelRequest) :
    SessionRegistry × Except String Unit :=
  match s.kernels.lookup session_id with
  | none => (s, .error s!"no kernel for session {session_id}")
  | some proc => ({ s with kernels := s.kernels.insert session_id { proc with received := proc.received ++ [request] } }, env.reply)

/-- `IpcKernelBackend::close` -/
def backendClose (s : SessionRegistry) (session_id : String) : SessionRegistry × Except String Unit :=
  match s.kernels.lookup session_id with
  | none => (s, .error s!"no kernel for session {session_id}")
  | some _ => ({ s with kernels := s.kernels.erase session_id }, .ok ())

def removeSession (s : SessionRegistry) (session_id : String) : SessionRegistry :=
  { s with sessions := s.sessions.erase session_id }

def attachChallenge (s : SessionRegistry) (instant : Nat) (session_id : String) (plaintext : Bytes) (requested_role : Option String) :
    SessionRegistry :=
  s.modify session_id fun h => { h with pending_challenge := some plaintext, requested_role, last_active := instant }

/-- The first part of `verify_challenge`: the challenge is taken. -/
def takeChallenge (s : SessionRegistry) (instant : Nat) (session_id : String) : SessionRegistry × Except String Bytes :=
  match s.sessions.lookup session_id with
  | none => (s, .error s!"session {session_id} not found")
  | some h =>
    (s.modify session_id fun h => { h with last_active := instant, pending_challenge := none },
      match h.pending_challenge with
      | none => .error s!"no pending challenge for {session_id}"
      | some plaintext => .ok plaintext)

/-- The challenge is put back. -/
def restoreChallenge (s : SessionRegistry) (session_id : String) (plaintext : Bytes) : SessionRegistry :=
  s.modify session_id fun h => { h with pending_challenge := some plaintext }

/-- The requested role is granted. -/
def promote (s : SessionRegistry) (session_id : String) : SessionRegistry :=
  s.modify session_id fun h => { h with role := h.requested_role, requested_role := none }

/-! ## The calls -/

/-- The check of the signature, which a registry without an auth backend does not make. -/
def authorize (scheme : SignatureScheme) (auth : Option LocalAuth) (now : Int) (ctx : Option AuthContext)
    (method missing failed : String) : Except String Unit :=
  match auth with
  | none => .ok ()
  | some _ =>
    match ctx with
    | none => .error missing
    | some ctx =>
      match LocalAuth.verifySignature scheme now ctx method with
      | .error e => .error e
      | .ok true => .ok ()
      | .ok false => .error failed

variable (scheme : SignatureScheme) (auth : Option LocalAuth)

def start (s : SessionRegistry) (env : Env) (params : SessionParams) (ctx : Option AuthContext) :
    SessionRegistry × Except String String :=
  match authorize scheme auth env.now ctx "Start" "auth required but no context supplied" "auth verification failed" with
  | .error e => (s, .error e)
  | .ok () =>
    match s.backendStart env params with
    | (s, .error e) => (s, .error e)
    | (s, .ok id) => (s.insertSession env.instant id, .ok id)

def close (s : SessionRegistry) (env : Env) (session_id : String) (ctx : Option AuthContext) :
    SessionRegistry × Except String Unit :=
  match authorize scheme auth env.now ctx "Close" "auth required" "auth verification failed" with
  | .error e => (s, .error e)
  | .ok () =>
    match (s.touch env.instant session_id).backendClose session_id with
    | (s, .error e) => (s, .error e)
    | (s, .ok ()) => (s.removeSession session_id, .ok ())

def execute (s : SessionRegistry) (env : Env) (session_id : String) (req : CodeRequest) (ctx : Option AuthContext) :
    SessionRegistry × Except String Unit :=
  match authorize scheme auth env.now ctx "Execute" "auth required" s!"auth verification failed for {session_id}" with
  | .error e => (s, .error e)
  | .ok () => (s.touch env.instant session_id).backendSend env session_id (.execute req.request_id req.session_id req.code)

def interrupt (s : SessionRegistry) (env : Env) (session_id request_id : String) (ctx : Option AuthContext) :
    SessionRegistry × Except String Unit :=
  match authorize scheme auth env.now ctx "Interrupt" "auth required" s!"auth verification failed for {session_id}" with
  | .error e => (s, .error e)
  | .ok () => (s.touch env.instant session_id).backendSend env session_id (.interrupt session_id request_id)

end SessionRegistry

/-- A call on the registry. -/
inductive RegistryCall where
  | start (params : SessionParams)
  | execute (session_id : String) (req : CodeRequest)
  | interrupt (session_id request_id : String)
  | close (session_id : String)
deriving DecidableEq

namespace RegistryCall

def method : RegistryCall → String
  | start _ => "Start"
  | execute _ _ => "Execute"
  | interrupt _ _ => "Interrupt"
  | close _ => "Close"

/-- The session a call names. -/
def target : RegistryCall → String
  | start params => params.session_id
  | execute session_id _ => session_id
  | interrupt session_id _ => session_id
  | close session_id => session_id

end RegistryCall

/-- A call with the metadata of its request, and what it finds outside. -/
structure Request where
  call : RegistryCall
  ctx : Option AuthContext
  env : Env

/-- A registry over the calls on it, one after the other. -/
def registry (scheme : SignatureScheme) (auth : Option LocalAuth) : Machine SessionRegistry Request (Except String Unit) where
  init := ⟨∅, ∅⟩
  step s r :=
    match r.call with
    | .start params =>
      let (s, out) := s.start scheme auth r.env params r.ctx
      (s, out.map fun _ => ())
    | .execute session_id req => s.execute scheme auth r.env session_id req r.ctx
    | .interrupt session_id request_id => s.interrupt scheme auth r.env session_id request_id r.ctx
    | .close session_id => s.close scheme auth r.env session_id r.ctx

end Runner

end Opsense
