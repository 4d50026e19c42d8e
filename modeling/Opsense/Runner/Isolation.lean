import Opsense.Runner.Session

/-!
# Whose session it is

The signature of a request is checked with the key in its metadata, and the call is made on the session its body names; nothing
compares the two. A start takes the place of a session that is live. So a session answers only to the key that started it along
every run in which each request that passes the check names the session of its own key, and no kernel starts under a live session
(`sessions_isolated`). A signature is made over a timestamp, a nonce and a method: it is good for any number of requests of this
method while the clock is near the timestamp (`signature_binds`), whatever their session or code.
-/

namespace Opsense

namespace Runner

variable {scheme : SignatureScheme} {auth : LocalAuth} {s : SessionRegistry} {r : Request}

/-! ## What the check lets through -/

/-- The signature of a request passes the check. -/
def passes (scheme : SignatureScheme) (r : Request) : Bool :=
  match r.ctx with
  | none => false
  | some ctx =>
    match LocalAuth.verifySignature scheme r.env.now ctx r.call.method with
    | .ok true => true
    | _ => false

theorem passes_signed (h : passes scheme r = true) :
    ∃ ctx public_key, r.ctx = some ctx ∧ SignedBy scheme ctx r.call.method public_key ∧ inWindow r.env.now ctx.timestamp = true := by
  unfold passes at h
  cases hctx : r.ctx with
  | none =>
    rw [hctx] at h
    cases h
  | some ctx =>
    rw [hctx] at h
    dsimp only at h
    cases hverify : LocalAuth.verifySignature scheme r.env.now ctx r.call.method with
    | error e =>
      rw [hverify] at h
      cases h
    | ok passed =>
      rw [hverify] at h
      cases passed with
      | false => cases h
      | true =>
        obtain ⟨public_key, hsigned, hwindow⟩ := verifySignature_ok hverify
        exact ⟨ctx, public_key, rfl, hsigned, hwindow⟩

theorem authorize_cases (scheme : SignatureScheme) (auth : LocalAuth) (r : Request) (missing failed : String) :
    (∃ e, SessionRegistry.authorize scheme (some auth) r.env.now r.ctx r.call.method missing failed = .error e) ∨
      passes scheme r = true ∧
        SessionRegistry.authorize scheme (some auth) r.env.now r.ctx r.call.method missing failed = .ok () := by
  unfold SessionRegistry.authorize passes
  cases r.ctx with
  | none => exact .inl ⟨_, rfl⟩
  | some ctx =>
    dsimp only
    cases LocalAuth.verifySignature scheme r.env.now ctx r.call.method with
    | error e => exact .inl ⟨_, rfl⟩
    | ok passed =>
      cases passed with
      | false => exact .inl ⟨_, rfl⟩
      | true => exact .inr ⟨rfl, rfl⟩

/-- What begins with the check is refused and changes nothing, or is done as if there were none. -/
theorem authorized_cases (scheme : SignatureScheme) (auth : LocalAuth) {s : SessionRegistry} (r : Request) (missing failed : String)
    (run : Option LocalAuth → SessionRegistry × Except String Unit)
    (hrun : ∀ auth, run auth = match SessionRegistry.authorize scheme auth r.env.now r.ctx r.call.method missing failed with
      | .error e => (s, .error e)
      | .ok () => run none) :
    (∃ e, run (some auth) = (s, .error e)) ∨ passes scheme r = true ∧ run (some auth) = run none := by
  rcases authorize_cases scheme auth r missing failed with ⟨e, he⟩ | ⟨hpass, hok⟩
  · exact .inl ⟨e, by rw [hrun, he]⟩
  · exact .inr ⟨hpass, by rw [hrun, hok]⟩

/-- A request is refused and changes nothing, or it passes the check and is answered as if there were none. -/
theorem step_cases (scheme : SignatureScheme) (auth : LocalAuth) (s : SessionRegistry) (r : Request) :
    (∃ e, (registry scheme (some auth)).step s r = (s, .error e)) ∨
      passes scheme r = true ∧ (registry scheme (some auth)).step s r = (registry scheme none).step s r := by
  obtain ⟨call, ctx, env⟩ := r
  cases call with
  | start params =>
    refine authorized_cases scheme auth ⟨.start params, ctx, env⟩ "auth required but no context supplied" "auth verification failed"
      (fun auth => (registry scheme auth).step s _) fun auth => ?_
    simp only [registry, SessionRegistry.start, RegistryCall.method]
    cases SessionRegistry.authorize scheme auth env.now ctx "Start" "auth required but no context supplied"
      "auth verification failed" <;> rfl
  | execute session_id req =>
    exact authorized_cases scheme auth ⟨.execute session_id req, ctx, env⟩ _ _ (fun auth => (registry scheme auth).step s _) fun _ => rfl
  | interrupt session_id request_id =>
    exact authorized_cases scheme auth ⟨.interrupt session_id request_id, ctx, env⟩ _ _ (fun auth => (registry scheme auth).step s _)
      fun _ => rfl
  | close session_id =>
    exact authorized_cases scheme auth ⟨.close session_id, ctx, env⟩ _ _ (fun auth => (registry scheme auth).step s _) fun _ => rfl
/-- A call takes effect: it succeeds, or changes something. -/
def TakesEffect (scheme : SignatureScheme) (auth : LocalAuth) (s : SessionRegistry) (r : Request) : Prop :=
  (registry scheme (some auth)).out s r = .ok () ∨ (registry scheme (some auth)).next s r ≠ s

/-- A call that takes effect has passed the check. -/
theorem passes_of_effect (h : TakesEffect scheme auth s r) : passes scheme r = true := by
  rcases step_cases scheme auth s r with ⟨e, he⟩ | ⟨hpass, -⟩
  · rcases h with hok | hne
    · rw [Machine.out, he] at hok
      cases hok
    · exact absurd (by rw [Machine.next, he]) hne
  · exact hpass

/-! ## Sessions -/

theorem modify_sessions (s : SessionRegistry) (session_id : String) (f : SessionMeta → SessionMeta) (id : String) :
    id ∈ (s.modify session_id f).sessions ↔ id ∈ s.sessions := by
  unfold SessionRegistry.modify
  cases hlookup : s.sessions.lookup session_id with
  | none => rfl
  | some h =>
    have hmem : session_id ∈ s.sessions := Finmap.mem_iff.mpr ⟨h, hlookup⟩
    dsimp only
    rw [Finmap.mem_insert]
    exact or_iff_right_of_imp fun heq => heq ▸ hmem

/-- Where a start succeeds: the kernel starts under the session it was asked for. -/
theorem start_cases (scheme : SignatureScheme) (s : SessionRegistry) (params : SessionParams) (ctx : Option AuthContext) (env : Env) :
    (∃ e, (registry scheme none).step s ⟨.start params, ctx, env⟩ = (s, .error e)) ∨
      env.spawn = .ok params.session_id ∧ (registry scheme none).step s ⟨.start params, ctx, env⟩ =
        ({ s with kernels := s.kernels.insert params.session_id ⟨env.pid, []⟩ }.insertSession env.instant params.session_id, .ok ()) := by
  unfold registry SessionRegistry.start SessionRegistry.authorize SessionRegistry.backendStart
  dsimp only
  cases hspawn : env.spawn with
  | error e => exact .inl ⟨e, rfl⟩
  | ok id =>
    dsimp only
    by_cases hid : id = params.session_id
    · subst hid
      rw [if_neg (not_not.mpr rfl)]
      exact .inr ⟨rfl, rfl⟩
    · rw [if_pos hid]
      exact .inl ⟨_, rfl⟩

/-- No call but a start makes a session. -/
theorem sessions_next (hstart : ∀ params, r.call ≠ .start params) {id : String}
    (h : id ∈ ((registry scheme none).next s r).sessions) : id ∈ s.sessions := by
  obtain ⟨call, ctx, env⟩ := r
  have htouch : ∀ session_id, id ∈ (s.touch env.instant session_id).sessions → id ∈ s.sessions :=
    fun session_id => (modify_sessions s session_id _ id).mp
  have hsend : ∀ session_id request, id ∈ ((s.touch env.instant session_id).backendSend env session_id request).1.sessions →
      id ∈ s.sessions := by
    intro session_id request hid
    unfold SessionRegistry.backendSend at hid
    cases hkernel : (s.touch env.instant session_id).kernels.lookup session_id with
    | none =>
      rw [hkernel] at hid
      exact htouch session_id hid
    | some proc =>
      rw [hkernel] at hid
      exact htouch session_id hid
  unfold Machine.next registry at h
  cases call with
  | start params => exact absurd rfl (hstart params)
  | execute session_id req => exact hsend session_id _ h
  | interrupt session_id request_id => exact hsend session_id _ h
  | close session_id =>
    unfold SessionRegistry.close SessionRegistry.authorize SessionRegistry.backendClose at h
    dsimp only at h
    cases hkernel : (s.touch env.instant session_id).kernels.lookup session_id with
    | none =>
      rw [hkernel] at h
      exact htouch session_id h
    | some proc =>
      rw [hkernel] at h
      exact htouch session_id (Finmap.mem_erase.mp h).2

/-! ## Who started a session -/

/-- The key a session was started with, by one call. -/
def startOf (scheme : SignatureScheme) (id : String) (x : Request × Except String Unit) : Option Bytes :=
  match x.1.call, x.2 with
  | .start params, .ok () =>
    if params.session_id = id then x.1.ctx.bind fun ctx => (scheme.decode ctx.session_id).toOption else none
  | _, _ => none

/-- The key of the last start of a session. -/
def startedBy (scheme : SignatureScheme) (trace : List (Request × Except String Unit)) (id : String) : Option Bytes :=
  (trace.filterMap (startOf scheme id)).getLast?

variable {trace : List (Request × Except String Unit)} {id : String}

theorem startedBy_none {x : Request × Except String Unit} (h : startOf scheme id x = none) :
    startedBy scheme (trace ++ [x]) id = startedBy scheme trace id := by
  unfold startedBy
  rw [List.filterMap_append, List.filterMap_cons_none h, List.filterMap_nil, List.append_nil]

theorem startedBy_some {x : Request × Except String Unit} {public_key : Bytes} (h : startOf scheme id x = some public_key) :
    startedBy scheme (trace ++ [x]) id = some public_key := by
  unfold startedBy
  rw [List.filterMap_append, List.filterMap_cons_some h, List.filterMap_nil, List.getLast?_append]
  rfl

/-- A live session answers only to the key that started it, and a start of it fails and changes nothing. -/
def Isolated (scheme : SignatureScheme) (auth : LocalAuth) (s : SessionRegistry) (trace : List (Request × Except String Unit))
    (r : Request) : Prop :=
  r.call.target ∈ s.sessions →
    match r.call with
    | .start _ => (registry scheme (some auth)).next s r = s ∧ ∃ e, (registry scheme (some auth)).out s r = .error e
    | _ => TakesEffect scheme auth s r → ∃ ctx public_key, r.ctx = some ctx ∧
      SignedBy scheme ctx r.call.method public_key ∧ startedBy scheme trace r.call.target = some public_key

/-- A request that passes the check names the session of its key, and starts no kernel under a live session. -/
def NamesOwn (scheme : SignatureScheme) (s : SessionRegistry) (r : Request) : Prop :=
  passes scheme r = true → r.ctx.map AuthContext.session_id = some r.call.target ∧
    match r.call with
    | .start params => params.session_id ∈ s.sessions → r.env.spawn.toOption ≠ some params.session_id
    | _ => True

/-- Every session was started with the key that is its name. -/
def Owned (scheme : SignatureScheme) (s : SessionRegistry) (trace : List (Request × Except String Unit)) : Prop :=
  ∀ id ∈ s.sessions, ∃ public_key, scheme.decode id = .ok public_key ∧ startedBy scheme trace id = some public_key

theorem startOf_of_error {e : String} : startOf scheme id (r, .error e) = none := by
  unfold startOf
  cases r.call <;> rfl

theorem startOf_of_ne (hstart : ∀ params, r.call ≠ .start params) (out : Except String Unit) : startOf scheme id (r, out) = none := by
  unfold startOf
  cases hcall : r.call with
  | start params => exact absurd hcall (hstart params)
  | _ => rfl

theorem startOf_start {params : SessionParams} {ctx : AuthContext} {public_key : Bytes} (hcall : r.call = .start params)
    (hctx : r.ctx = some ctx) (hdecode : scheme.decode ctx.session_id = .ok public_key) :
    startOf scheme params.session_id (r, .ok ()) = some public_key := by
  unfold startOf
  rw [hcall]
  dsimp only
  rw [if_pos rfl, hctx, Option.bind_some, hdecode]
  rfl

/-- The key of a request that passes and names its own session. -/
theorem decode_target (hnames : NamesOwn scheme s r) (hpass : passes scheme r = true) :
    ∃ ctx public_key, r.ctx = some ctx ∧ SignedBy scheme ctx r.call.method public_key ∧
      scheme.decode r.call.target = .ok public_key := by
  obtain ⟨ctx, public_key, hctx, hsigned, -⟩ := passes_signed hpass
  have hname := (hnames hpass).1
  rw [hctx, Option.map_some, Option.some.injEq] at hname
  exact ⟨ctx, public_key, hctx, hsigned, hname ▸ hsigned.1⟩

theorem owned_step (h : Owned scheme s trace) (hnames : NamesOwn scheme s r) :
    Owned scheme ((registry scheme (some auth)).next s r) (trace ++ [(r, (registry scheme (some auth)).out s r)]) := by
  rcases step_cases scheme auth s r with ⟨e, he⟩ | ⟨hpass, hstep⟩
  · unfold Machine.next Machine.out
    rw [he]
    intro id hid
    obtain ⟨public_key, hdecode, hstarted⟩ := h id hid
    exact ⟨public_key, hdecode, (startedBy_none startOf_of_error).trans hstarted⟩
  · obtain ⟨ctx, public_key, hctx, hsigned, htarget⟩ := decode_target hnames hpass
    by_cases hstart : ∃ params, r.call = .start params
    · obtain ⟨params, hcall⟩ := hstart
      have hr : r = ⟨.start params, r.ctx, r.env⟩ := by rw [← hcall]
      unfold Machine.next Machine.out
      rw [hstep]
      rcases start_cases scheme s params r.ctx r.env with ⟨e, he⟩ | ⟨-, hok⟩
      · rw [← hr] at he
        rw [he]
        intro id hid
        obtain ⟨public_key, hdecode, hstarted⟩ := h id hid
        exact ⟨public_key, hdecode, (startedBy_none startOf_of_error).trans hstarted⟩
      · rw [← hr] at hok
        rw [hok]
        intro id hid
        by_cases hsame : params.session_id = id
        · subst hsame
          exact ⟨public_key, by rw [← htarget, hcall]; rfl, startedBy_some (startOf_start hcall hctx hsigned.1)⟩
        · obtain ⟨public_key', hdecode, hstarted⟩ := h id ((Finmap.mem_insert.mp hid).resolve_left (Ne.symm hsame))
          refine ⟨public_key', hdecode, (startedBy_none ?_).trans hstarted⟩
          unfold startOf
          rw [hcall]
          dsimp only
          rw [if_neg hsame]
    · have hne : ∀ params, r.call ≠ .start params := fun params heq => hstart ⟨params, heq⟩
      intro id hid
      rw [Machine.next, hstep] at hid
      obtain ⟨public_key', hdecode, hstarted⟩ := h id (sessions_next hne hid)
      exact ⟨public_key', hdecode, (startedBy_none (startOf_of_ne hne _)).trans hstarted⟩

theorem isolated_step (h : Owned scheme s trace) (hnames : NamesOwn scheme s r) : Isolated scheme auth s trace r := by
  intro hlive
  have heffect : TakesEffect scheme auth s r → ∃ ctx public_key, r.ctx = some ctx ∧
      SignedBy scheme ctx r.call.method public_key ∧ startedBy scheme trace r.call.target = some public_key := by
    intro heffect
    obtain ⟨ctx, public_key, hctx, hsigned, htarget⟩ := decode_target hnames (passes_of_effect heffect)
    obtain ⟨public_key', hdecode, hstarted⟩ := h _ hlive
    obtain rfl : public_key = public_key' := Except.ok.inj (htarget.symm.trans hdecode)
    exact ⟨ctx, public_key, hctx, hsigned, hstarted⟩
  cases hcall : r.call with
  | start params =>
    dsimp only
    rw [hcall] at hlive
    rcases step_cases scheme auth s r with ⟨e, he⟩ | ⟨hpass, hstep⟩
    · unfold Machine.next Machine.out
      rw [he]
      exact ⟨rfl, e, rfl⟩
    · have hspawn := (hnames hpass).2
      rw [hcall] at hspawn
      have hr : r = ⟨.start params, r.ctx, r.env⟩ := by rw [← hcall]
      unfold Machine.next Machine.out
      rw [hstep]
      rcases start_cases scheme s params r.ctx r.env with ⟨e, he⟩ | ⟨hok, -⟩
      · rw [← hr] at he
        rw [he]
        exact ⟨rfl, e, rfl⟩
      · exact absurd (by rw [hok]; rfl) (hspawn hlive)
  | execute session_id req =>
    rw [hcall] at heffect
    exact heffect
  | interrupt session_id request_id =>
    rw [hcall] at heffect
    exact heffect
  | close session_id =>
    rw [hcall] at heffect
    exact heffect

/-- Along a run in which every request that passes the check names the session of its key, and starts no kernel under a live session,
each call on a live session takes effect only when it is signed with the key that started the session, and a start of it fails and
changes nothing. -/
theorem sessions_isolated (scheme : SignatureScheme) (auth : LocalAuth) (rs : List Request)
    (hnames : (registry scheme (some auth)).Along (NamesOwn scheme) rs) :
    ∀ pre r, pre ++ [r] <+: rs →
      Isolated scheme auth ((registry scheme (some auth)).state pre) ((registry scheme (some auth)).trace pre) r := by
  intro pre r hpre
  have hbefore : (registry scheme (some auth)).Along (NamesOwn scheme) pre :=
    hnames.restrict ((List.prefix_append pre [r]).trans hpre)
  have howned : Owned scheme ((registry scheme (some auth)).state pre) ((registry scheme (some auth)).trace pre) :=
    Machine.invariant_trace (M := registry scheme (some auth)) (I := Owned scheme) (C := NamesOwn scheme)
      (fun id hid => absurd hid Finmap.notMem_empty) (fun _ _ _ h hn => owned_step h hn) pre hbefore
  exact isolated_step howned (hnames pre r hpre)

/-! ## Two keys -/

/-- The base point of the curve, as a public key. -/
def baseKey : Bytes := 0x58 :: List.replicate 31 0x66

def zeroKey : Bytes := List.replicate 32 0

def baseId : String := "WGZmZmZmZmZmZmZmZmZmZmZmZmZmZmZmZmZmZmZmZmY="

def zeroId : String := "AAAAAAAAAAAAAAAAAAAAAAAAAAAAAAAAAAAAAAAAAAA="

/-- The signatures that two holders have made. -/
def signatures : List (Bytes × String × Bytes) :=
  [(zeroKey, "100:1:Start", List.replicate 64 1), (zeroKey, "100:2:Execute", List.replicate 64 2),
    (baseKey, "100:3:Execute", List.replicate 64 3), (baseKey, "100:4:Start", List.replicate 64 4)]

def twoKeys : SignatureScheme where
  decode id := if id = baseId then .ok baseKey else if id = zeroId then .ok zeroKey else .error "Invalid padding"
  key _ := .ok ()
  verify public_key message signature := decide ((public_key, message, signature) ∈ signatures)

/-- A request of the second 100, for the session of the first key. -/
def requestAt (session_id : String) (nonce : Nat) (signature : Bytes) (call : RegistryCall) : Request :=
  ⟨call, some ⟨session_id, 100, nonce, signature⟩, ⟨100, nonce, nonce, .ok zeroId, true, .ok (), []⟩⟩

def startZero : Request := requestAt zeroId 1 (List.replicate 64 1) (.start ⟨zeroId, false, ""⟩)

/-- The holder of the first key starts its session and runs code in it. -/
theorem sessions_isolated_ownRequests :
    Isolated twoKeys ⟨none⟩ ((registry twoKeys (some ⟨none⟩)).state [startZero]) ((registry twoKeys (some ⟨none⟩)).trace [startZero])
      (requestAt zeroId 2 (List.replicate 64 2) (.execute zeroId ⟨"r", zeroId, "1"⟩)) := by
  refine sessions_isolated twoKeys ⟨none⟩
    [startZero, requestAt zeroId 2 (List.replicate 64 2) (.execute zeroId ⟨"r", zeroId, "1"⟩)] ?_ [startZero] _ (List.prefix_refl _)
  rw [Machine.along_iff_alongFrom]
  refine ⟨fun _ => ⟨by decide, ?_⟩, fun _ => ⟨by decide, trivial⟩, trivial⟩
  exact fun hlive => absurd hlive Finmap.notMem_empty

/-- With its own key, a stranger runs code in a session, and then takes its place. -/
theorem stranger_takes_session :
    let run := registry twoKeys (some ⟨none⟩)
    let code := requestAt baseId 3 (List.replicate 64 3) (.execute zeroId ⟨"r", zeroId, "1"⟩)
    let again := requestAt baseId 4 (List.replicate 64 4) (.start ⟨zeroId, false, ""⟩)
    startedBy twoKeys (run.trace [startZero]) zeroId = some zeroKey ∧ zeroKey ≠ baseKey ∧
    run.out (run.state [startZero]) code = .ok () ∧
    (run.state [startZero, code]).kernels.lookup zeroId = some ⟨1, [.execute "r" zeroId "1"]⟩ ∧
    run.out (run.state [startZero, code]) again = .ok () ∧
    (run.state [startZero, code, again]).kernels.lookup zeroId = some ⟨4, []⟩ := by
  decide +kernel

/-! ## The text of a signature -/

/-- What stands before the first colon, and what stands after it. -/
theorem split_at_colon {a a' b b' : List Char} (ha : ':' ∉ a) (ha' : ':' ∉ a') (h : a ++ ':' :: b = a' ++ ':' :: b') :
    a = a' ∧ b = b' := by
  induction a generalizing a' with
  | nil =>
    cases a' with
    | nil => exact ⟨rfl, (List.cons.inj h).2⟩
    | cons c a' => exact absurd ((List.cons.inj h).1 ▸ List.mem_cons_self) ha'
  | cons c a ih =>
    cases a' with
    | nil => exact absurd ((List.cons.inj h).1 ▸ List.mem_cons_self) ha
    | cons c' a' =>
      obtain ⟨hc, hrest⟩ := List.cons.inj h
      obtain ⟨rfl, rfl⟩ := ih (fun hin => ha (List.mem_cons_of_mem _ hin)) (fun hin => ha' (List.mem_cons_of_mem _ hin)) hrest
      exact ⟨by rw [hc], rfl⟩

theorem colon_not_mem_nat (n : Nat) : ':' ∉ (Nat.repr n).toList := by
  intro hin
  have hdigit : ':'.isDigit = true := Nat.isDigit_of_mem_toDigits (by decide) (by decide)
    (show ':' ∈ Nat.toDigits 10 n by simpa [Nat.repr] using hin)
  exact absurd hdigit (by decide)

theorem colon_not_mem_int (n : Int) : ':' ∉ (Int.repr n).toList := by
  cases n with
  | ofNat n => exact colon_not_mem_nat n
  | negSucc n =>
    intro hin
    have hin : ':' ∈ ("-" ++ Nat.repr (n + 1)).toList := hin
    rw [String.toList_append] at hin
    rcases List.mem_append.mp hin with hin | hin
    · exact absurd hin (by decide)
    · exact colon_not_mem_nat _ hin

theorem message_toList (timestamp : Int) (nonce : Nat) (method : String) : (message timestamp nonce method).toList =
    (Int.repr timestamp).toList ++ ':' :: ((Nat.repr nonce).toList ++ ':' :: method.toList) := by
  have htext : message timestamp nonce method = Int.repr timestamp ++ ":" ++ Nat.repr nonce ++ ":" ++ method := rfl
  rw [htext]
  simp [String.toList_append]

/-- The text determines what is signed. -/
theorem message_inj {timestamp timestamp' : Int} {nonce nonce' : Nat} {method method' : String}
    (h : message timestamp nonce method = message timestamp' nonce' method') :
    timestamp = timestamp' ∧ nonce = nonce' ∧ method = method' := by
  have htext := congrArg String.toList h
  rw [message_toList, message_toList] at htext
  obtain ⟨htimestamp, hrest⟩ := split_at_colon (colon_not_mem_int _) (colon_not_mem_int _) htext
  obtain ⟨hnonce, hmethod⟩ := split_at_colon (colon_not_mem_nat _) (colon_not_mem_nat _) hrest
  exact ⟨Int.repr_injective (String.toList_injective htimestamp), Nat.repr_injective (String.toList_injective hnonce),
    String.toList_injective hmethod⟩

/-! ## Requests with one signature -/

/-- While the clock is in the window, the check does not depend on it. -/
theorem verifySignature_congr {now now' : Int} {ctx : AuthContext} (method : String) (h : inWindow now ctx.timestamp = true)
    (h' : inWindow now' ctx.timestamp = true) :
    LocalAuth.verifySignature scheme now ctx method = LocalAuth.verifySignature scheme now' ctx method := by
  unfold LocalAuth.verifySignature verifyWithPublicKey
  rw [h, h']

theorem passes_again {r r' : Request} {ctx : AuthContext} (hpass : passes scheme r = true) (hctx : r.ctx = some ctx)
    (hctx' : r'.ctx = some ctx) (hmethod : r'.call.method = r.call.method) (hwindow : inWindow r'.env.now ctx.timestamp = true) :
    passes scheme r' = true := by
  obtain ⟨ctx', public_key, hctx'', -, hwindow'⟩ := passes_signed hpass
  obtain rfl : ctx = ctx' := Option.some.inj (hctx.symm.trans hctx'')
  unfold passes at hpass ⊢
  rw [hctx] at hpass
  rw [hctx', hmethod]
  dsimp only at hpass ⊢
  rw [verifySignature_congr _ hwindow hwindow']
  exact hpass

/-- In every run a call that takes effect is signed, with the key of its metadata, for its method, at a time near the clock. Calls with
one signature have one key, one timestamp, one nonce and one method; any other call of this method passes the check with the same
metadata as long as the clock is in the window. -/
theorem signature_binds (scheme : SignatureScheme) (hideal : scheme.Ideal) (auth : LocalAuth) (rs : List Request) :
    ∀ pre r, pre ++ [r] <+: rs → TakesEffect scheme auth ((registry scheme (some auth)).state pre) r →
      ∃ ctx public_key, r.ctx = some ctx ∧ SignedBy scheme ctx r.call.method public_key ∧
        (-(2 ^ 63) < r.env.now - ctx.timestamp → r.env.now - ctx.timestamp < 2 ^ 63 →
          |r.env.now - ctx.timestamp| ≤ TIMESTAMP_WINDOW_SECS) ∧
        (∀ pre' r', pre' ++ [r'] <+: rs → TakesEffect scheme auth ((registry scheme (some auth)).state pre') r' →
          ∀ ctx', r'.ctx = some ctx' → ctx'.signature = ctx.signature →
            SignedBy scheme ctx' r.call.method public_key ∧ ctx'.timestamp = ctx.timestamp ∧ ctx'.nonce = ctx.nonce ∧
              r'.call.method = r.call.method) ∧
        ∀ r' : Request, r'.ctx = some ctx → r'.call.method = r.call.method → inWindow r'.env.now ctx.timestamp = true →
          passes scheme r' = true := by
  intro pre r _ heffect
  have hpass := passes_of_effect heffect
  obtain ⟨ctx, public_key, hctx, hsigned, hwindow⟩ := passes_signed hpass
  refine ⟨ctx, public_key, hctx, hsigned, window_of_not_overflow hwindow, ?_,
    fun r' hctx' hmethod hwindow' => passes_again hpass hctx hctx' hmethod hwindow'⟩
  intro pre' r' _ heffect' ctx' hctx' hsignature
  obtain ⟨ctx'', public_key', hctx'', hsigned', -⟩ := passes_signed (passes_of_effect heffect')
  obtain rfl : ctx' = ctx'' := Option.some.inj (hctx'.symm.trans hctx'')
  have hverify := hsigned'.2
  rw [hsignature] at hverify
  obtain ⟨rfl, hmessage⟩ := hideal hverify hsigned.2
  obtain ⟨htimestamp, hnonce, hmethod⟩ := message_inj hmessage
  exact ⟨hmethod ▸ hsigned', htimestamp, hnonce, hmethod⟩

theorem ideal_twoKeys : twoKeys.Ideal := by
  intro public_key public_key' message message' signature h h'
  have hmem : ((public_key, message, signature) : Bytes × String × Bytes) ∈ signatures := of_decide_eq_true h
  have hmem' : ((public_key', message', signature) : Bytes × String × Bytes) ∈ signatures := of_decide_eq_true h'
  have hnodup : (signatures.map fun x => x.2.2).Nodup := by decide
  have hsame := List.inj_on_of_nodup_map hnodup hmem hmem' rfl
  exact ⟨congrArg Prod.fst hsame, congrArg (fun x => x.2.1) hsame⟩

/-- A request to run code in the session of the first key, with the signature made for it. -/
def codeZero (request_id code : String) : Request :=
  requestAt zeroId 2 (List.replicate 64 2) (.execute zeroId ⟨request_id, zeroId, code⟩)

theorem signature_binds_codeZero :
    TakesEffect twoKeys ⟨none⟩ ((registry twoKeys (some ⟨none⟩)).state [startZero]) (codeZero "r" "1") ∧
      ∃ ctx public_key, (codeZero "r" "1").ctx = some ctx ∧ SignedBy twoKeys ctx "Execute" public_key := by
  have heffect : TakesEffect twoKeys ⟨none⟩ ((registry twoKeys (some ⟨none⟩)).state [startZero]) (codeZero "r" "1") :=
    .inl (by decide +kernel)
  obtain ⟨ctx, public_key, hctx, hsigned, -⟩ := signature_binds twoKeys ideal_twoKeys ⟨none⟩ [startZero, codeZero "r" "1"] [startZero]
    (codeZero "r" "1") (List.prefix_refl _) heffect
  exact ⟨heffect, ctx, public_key, hctx, hsigned⟩

/-- One signature runs two codes. -/
theorem signature_used_twice :
    let run := registry twoKeys (some ⟨none⟩)
    (codeZero "r" "1").ctx = (codeZero "q" "2").ctx ∧
    run.out (run.state [startZero]) (codeZero "r" "1") = .ok () ∧
    run.out (run.state [startZero, codeZero "r" "1"]) (codeZero "q" "2") = .ok () ∧
    (run.state [startZero, codeZero "r" "1", codeZero "q" "2"]).kernels.lookup zeroId =
      some ⟨1, [.execute "r" zeroId "1", .execute "q" zeroId "2"]⟩ := by
  decide +kernel

end Runner

end Opsense
