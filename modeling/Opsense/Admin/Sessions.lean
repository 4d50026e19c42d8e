import Opsense.Admin.Sops
import Opsense.Runner.Remote

/-!
# Sessions that are revoked

`issue_long_session`, `revoke_long_session` and `resolve_long_session` of `opsense-model/src/entities/admin/session.rs` on one table, with
any number of runners that ask serve for the keys of sessions and keep what they were told. Every statement, every look in a cache and
every message is a step of its own. The handler of `session/resolve` is not in the repository: whose session it resolves is a parameter.

A runner keeps only keys that it could decode, and those of issued sessions it cannot decode (`publicKeyOf_issued`). So no session is
accepted, and none after it was revoked (`revocation_takes_effect`).
-/

namespace Opsense

namespace Admin

open Runner

/-- The column `status` of a long session. -/
inductive SessionStatus
  | active
  | revoked
deriving DecidableEq

/-- What is read of a row of `sys_long_sessions`. -/
structure LongSession where
  tenant_id : Int
  user_id : String
  private_key_enc : Bytes
  status : SessionStatus
  expires_at : Int
deriving DecidableEq

/-- `sys_long_sessions`, by its unique `session_id`. -/
abbrev LongSessions := String → Option LongSession

namespace LongSessions

variable (sessions : LongSessions) (tenant_id : Int) (user_id session_id : String) (now : Int)

/-- The row of a session, if it is this user's. -/
def ofUser : Option LongSession :=
  (sessions session_id).filter fun row => decide (row.tenant_id = tenant_id ∧ row.user_id = user_id)

/-- The `DELETE` of the expired sessions of a user. -/
def cleanup : LongSessions := fun session_id =>
  (sessions session_id).filter fun row => !decide (row.tenant_id = tenant_id ∧ row.user_id = user_id ∧ row.expires_at < now)

/-- The `DELETE` of a session that was found expired. -/
def forget : LongSessions :=
  Function.update sessions session_id ((sessions session_id).filter fun row => decide (row.tenant_id ≠ tenant_id))

/-- `issue_long_session` without its cleanup, for these random bytes. -/
def issueLongSession (ed : Ed25519) (cipher : Cipher) (secret : Key) (nonce : Nonce) (fault : Option Fault) :
    LongSessions × Except AdminError LongSessionInfo :=
  let info := Runner.issueLongSession ed secret
  match fault with
  | some fault => (sessions, .error (fault.raise tenant_id "Encrypt private_key"))
  | none =>
    match Sops.encrypt cipher nonce info.private_key with
    | .error e => (sessions, .error (.other s!"Encrypt private_key failed: {e}"))
    | .ok encrypted =>
      match sessions info.session_id with
      | some _ => (sessions, .error (.sqlx "UNIQUE constraint failed: sys_long_sessions.session_id"))
      | none =>
        (Function.update sessions info.session_id
          (some ⟨tenant_id, user_id, encrypted, .active, formatDtForDb (now + info.expires_in_secs * SECOND)⟩), .ok info)

def revokeLongSession (fault : Option Fault) : LongSessions × Except AdminError Unit :=
  match fault with
  | some fault => (sessions, .error (fault.raise tenant_id ""))
  | none =>
    match sessions.ofUser tenant_id user_id session_id with
    | none => (sessions, .error (.other "Session not found or already revoked"))
    | some row =>
      if row.status ≠ .active then (sessions, .error (.other "Session not found or already revoked"))
      else (Function.update sessions session_id (some { row with status := .revoked }), .ok ())

end LongSessions

/-! ## Runners that ask serve -/

/-- Ed25519, the text of a base64 error, the cipher, and whose session serve resolves. -/
structure Setup where
  ed : Ed25519
  invalid_base64 : String → String
  cipher : Cipher
  owner : String → Int × String

/-- Where `RemoteAuth::verify_signature` stands: before its look in the cache, before serve has read the table, before serve deletes a
session it found expired, before it decrypts the key, before the answer is there, with a key or without, and at its end. -/
inductive VerifyStage
  | begun
  | asked
  | expired
  | selected (encrypted : Bytes)
  | answered (resp : Except String SessionResolveResponse)
  | found (public_key : Except String (Option Key))
  | done (answer : Except String Bool)

structure Verify where
  runner : Nat
  ctx : AuthContext
  method : String
  stage : VerifyStage

structure World where
  /-- The clock of serve. -/
  clock : Int
  sessions : LongSessions
  runners : Nat → RemoteAuth
  verifies : List Verify

def inactive : SessionResolveResponse := ⟨false, none⟩

/-- The next step of a verification, by the runner's clock and when a call of it fails. -/
def Verify.advance (setup : Setup) (w : World) (v : Verify) (now : Int) (fault : Option String) : LongSessions × RemoteAuth × VerifyStage :=
  let auth := w.runners v.runner
  let session_id := v.ctx.session_id
  match v.stage with
  | .begun =>
    match auth.cache.lookup session_id with
    | some pk => (w.sessions, auth, .found (.ok (some pk)))
    | none => (w.sessions, auth, .asked)
  | .asked =>
    match fault with
    | some e => (w.sessions, auth, .answered (.error e))
    | none =>
      match w.sessions.ofUser (setup.owner session_id).1 (setup.owner session_id).2 session_id with
      | none => (w.sessions, auth, .answered (.ok inactive))
      | some row =>
        if row.status ≠ .active then (w.sessions, auth, .answered (.ok inactive))
        else if row.expires_at < w.clock then (w.sessions, auth, .expired)
        else (w.sessions, auth, .selected row.private_key_enc)
  | .expired =>
    -- a failure of the deletion is ignored
    match fault with
    | some _ => (w.sessions, auth, .answered (.ok inactive))
    | none => (w.sessions.forget (setup.owner session_id).1 session_id, auth, .answered (.ok inactive))
  | .selected encrypted =>
    match fault with
    | some e => (w.sessions, auth, .answered (.error e))
    | none =>
      match Sops.decrypt setup.cipher encrypted with
      | .error e => (w.sessions, auth, .answered (.error s!"Decrypt private_key failed: {e}"))
      | .ok private_key => (w.sessions, auth, .answered (.ok ⟨true, some private_key⟩))
  | .answered resp =>
    match RemoteAuth.publicKeyOf setup.ed setup.invalid_base64 (fault.elim resp .error) with
    | .ok (some pk) => (w.sessions, ⟨auth.cache.insert session_id pk⟩, .found (.ok (some pk)))
    | public_key => (w.sessions, auth, .found public_key)
  | .found public_key => (w.sessions, auth, .done (RemoteAuth.checkWith setup.ed setup.invalid_base64 now v.ctx v.method public_key))
  | .done answer => (w.sessions, auth, .done answer)

inductive Act
  | tick (time : Nat)
  | cleanup (tenant_id : Int) (user_id : String)
  | issue (tenant_id : Int) (user_id : String) (secret : Key) (nonce : Nonce) (fault : Option Fault)
  | revoke (tenant_id : Int) (user_id session_id : String) (fault : Option Fault)
  | verify (runner : Nat) (ctx : AuthContext) (method : String)
  | advance (i : Nat) (now : Int) (fault : Option String)
  | evict (runner : Nat) (session_id : String)

/-- What the end of a verification answers, of which session. -/
def answerOf (session_id : String) : VerifyStage → Option (String × Except String Bool)
  | .done answer => some (session_id, answer)
  | _ => none

def World.step (setup : Setup) (w : World) : Act → World × Option (String × Except String Bool)
  | .tick time => ({ w with clock := w.clock + time }, none)
  | .cleanup tenant_id user_id => ({ w with sessions := w.sessions.cleanup tenant_id user_id w.clock }, none)
  | .issue tenant_id user_id secret nonce fault =>
    ({ w with sessions := (w.sessions.issueLongSession tenant_id user_id w.clock setup.ed setup.cipher secret nonce fault).1 }, none)
  | .revoke tenant_id user_id session_id fault =>
    ({ w with sessions := (w.sessions.revokeLongSession tenant_id user_id session_id fault).1 }, none)
  | .verify runner ctx method => ({ w with verifies := w.verifies ++ [⟨runner, ctx, method, .begun⟩] }, none)
  | .advance i now fault =>
    match w.verifies[i]? with
    | none => (w, none)
    | some v =>
      let (sessions, auth, stage) := v.advance setup w now fault
      ({ w with sessions, runners := Function.update w.runners v.runner auth, verifies := w.verifies.set i { v with stage } },
        answerOf v.ctx.session_id stage)
  | .evict runner session_id =>
    ({ w with runners := Function.update w.runners runner ⟨(w.runners runner).cache.erase session_id⟩ }, none)

/-- No session is issued yet, and no runner knows a key. -/
def World.new (clock : Int) : World := ⟨clock, fun _ => none, fun _ => ⟨∅⟩, []⟩

def sessionMachine (setup : Setup) (clock : Int) : Machine World Act (Option (String × Except String Bool)) :=
  ⟨World.new clock, World.step setup⟩

/-! ## What a run keeps -/

/-- A private key that was issued, as it is stored. -/
def Issued (cipher : Cipher) (encrypted : Bytes) : Prop :=
  ∃ (nonce : Nonce) (secret : Key), Sops.encrypt cipher nonce (Base64.urlSafeNoPad.encode secret.1) = .ok encrypted

def LongSessions.Issued (cipher : Cipher) (sessions : LongSessions) : Prop :=
  ∀ session_id row, sessions session_id = some row → Admin.Issued cipher row.private_key_enc

namespace LongSessions.Issued

variable {cipher : Cipher} {sessions : LongSessions} (h : sessions.Issued cipher)

include h

theorem cleanup (tenant_id : Int) (user_id : String) (now : Int) : (sessions.cleanup tenant_id user_id now).Issued cipher := by
  intro session_id row hrow
  exact h session_id row (Option.filter_eq_some_iff.mp hrow).1

theorem forget (tenant_id : Int) (session_id : String) : (sessions.forget tenant_id session_id).Issued cipher := by
  intro id row hrow
  unfold LongSessions.forget at hrow
  by_cases hid : id = session_id
  · subst hid
    rw [Function.update_self] at hrow
    exact h id row (Option.filter_eq_some_iff.mp hrow).1
  · rw [Function.update_of_ne hid] at hrow
    exact h id row hrow

theorem update {encrypted : Bytes} (hissued : Admin.Issued cipher encrypted) (session_id : String) {row : LongSession}
    (hrow : row.private_key_enc = encrypted) : LongSessions.Issued cipher (Function.update sessions session_id (some row)) := by
  intro id row' hrow'
  by_cases hid : id = session_id
  · subst hid
    rw [Function.update_self] at hrow'
    obtain rfl := Option.some.inj hrow'
    exact hrow ▸ hissued
  · rw [Function.update_of_ne hid] at hrow'
    exact h id row' hrow'

theorem issueLongSession (tenant_id : Int) (user_id : String) (now : Int) (ed : Ed25519) (secret : Key) (nonce : Nonce)
    (fault : Option Fault) : (sessions.issueLongSession tenant_id user_id now ed cipher secret nonce fault).1.Issued cipher := by
  unfold LongSessions.issueLongSession
  dsimp only
  cases fault with
  | some fault => exact h
  | none =>
    cases hencrypt : Sops.encrypt cipher nonce (Runner.issueLongSession ed secret).private_key with
    | error e => exact h
    | ok encrypted =>
      cases sessions (Runner.issueLongSession ed secret).session_id with
      | some row => exact h
      | none => exact h.update ⟨nonce, secret, hencrypt⟩ _ rfl

theorem revokeLongSession (tenant_id : Int) (user_id session_id : String) (fault : Option Fault) :
    (sessions.revokeLongSession tenant_id user_id session_id fault).1.Issued cipher := by
  unfold LongSessions.revokeLongSession
  cases fault with
  | some fault => exact h
  | none =>
    cases hrow : sessions.ofUser tenant_id user_id session_id with
    | none => exact h
    | some row =>
      dsimp only
      split_ifs
      · exact h
      · exact h.update (h session_id row (Option.filter_eq_some_iff.mp hrow).1) session_id rfl

end LongSessions.Issued

/-- Where a verification stands, no key was found. -/
def VerifyStage.Keyless (setup : Setup) : VerifyStage → Prop
  | .begun | .asked | .expired => True
  | .selected encrypted => Issued setup.cipher encrypted
  | .answered resp => ∀ key, RemoteAuth.publicKeyOf setup.ed setup.invalid_base64 resp ≠ .ok (some key)
  | .found public_key => ∀ key, public_key ≠ .ok (some key)
  | .done answer => answer = .ok false

/-- No runner has a key: those that are stored cannot be decoded. -/
structure World.Keyless (setup : Setup) (w : World) : Prop where
  sessions : w.sessions.Issued setup.cipher
  runners : ∀ runner session_id, (w.runners runner).cache.lookup session_id = none
  verifies : ∀ v ∈ w.verifies, v.stage.Keyless setup

theorem publicKeyOf_error (setup : Setup) (e : String) (key : Key) :
    RemoteAuth.publicKeyOf setup.ed setup.invalid_base64 (.error e) ≠ .ok (some key) := by
  intro h
  cases h

theorem publicKeyOf_inactive (setup : Setup) (key : Key) :
    RemoteAuth.publicKeyOf setup.ed setup.invalid_base64 (.ok inactive) ≠ .ok (some key) := by
  intro h
  cases h

/-- What a step of a verification leaves. -/
structure Verify.Left (setup : Setup) (w : World) (v : Verify) (left : LongSessions × RemoteAuth × VerifyStage) : Prop where
  sessions : left.1.Issued setup.cipher
  auth : left.2.1 = w.runners v.runner
  stage : left.2.2.Keyless setup

theorem Verify.advance_keyless {setup : Setup} (hcipher : setup.cipher.Correct) {w : World} (hw : w.Keyless setup) {v : Verify}
    (hv : v.stage.Keyless setup) (now : Int) (fault : Option String) : v.Left setup w (v.advance setup w now fault) := by
  obtain ⟨runner, ctx, method, stage⟩ := v
  have herror : ∀ e, (VerifyStage.answered (.error e)).Keyless setup := publicKeyOf_error setup
  have hinactive : (VerifyStage.answered (.ok inactive)).Keyless setup := publicKeyOf_inactive setup
  unfold Verify.advance
  dsimp only at hv ⊢
  cases stage with
  | begun =>
    dsimp only
    rw [hw.runners runner ctx.session_id]
    exact ⟨hw.sessions, rfl, trivial⟩
  | asked =>
    cases fault with
    | some e => exact ⟨hw.sessions, rfl, herror e⟩
    | none =>
      dsimp only
      cases hrow : w.sessions.ofUser (setup.owner ctx.session_id).1 (setup.owner ctx.session_id).2 ctx.session_id with
      | none => exact ⟨hw.sessions, rfl, hinactive⟩
      | some row =>
        dsimp only
        split_ifs
        · exact ⟨hw.sessions, rfl, hinactive⟩
        · exact ⟨hw.sessions, rfl, trivial⟩
        · exact ⟨hw.sessions, rfl, hw.sessions _ row (Option.filter_eq_some_iff.mp hrow).1⟩
  | expired =>
    cases fault with
    | some e => exact ⟨hw.sessions, rfl, hinactive⟩
    | none => exact ⟨hw.sessions.forget _ _, rfl, hinactive⟩
  | selected encrypted =>
    cases fault with
    | some e => exact ⟨hw.sessions, rfl, herror e⟩
    | none =>
      obtain ⟨nonce, secret, hencrypt⟩ := hv
      dsimp only
      rw [Sops.decrypt_encrypt hcipher hencrypt]
      -- what is decrypted is an issued key, which is in the alphabet that the runner does not read
      obtain ⟨e, he⟩ := publicKeyOf_issued setup.ed setup.invalid_base64 secret
      refine ⟨hw.sessions, rfl, fun key hkey => ?_⟩
      rw [show Base64.urlSafeNoPad.encode secret.1 = (Runner.issueLongSession setup.ed secret).private_key from rfl, he] at hkey
      cases hkey
  | answered resp =>
    have hkey : ∀ key, RemoteAuth.publicKeyOf setup.ed setup.invalid_base64 (fault.elim resp .error) ≠ .ok (some key) := by
      cases fault with
      | some e => exact publicKeyOf_error setup e
      | none => exact hv
    dsimp only
    generalize RemoteAuth.publicKeyOf setup.ed setup.invalid_base64 (fault.elim resp .error) = public_key at hkey
    rcases public_key with e | _ | pk
    · exact ⟨hw.sessions, rfl, hkey⟩
    · exact ⟨hw.sessions, rfl, hkey⟩
    · exact absurd rfl (hkey pk)
  | found public_key =>
    rcases public_key with e | _ | pk
    · exact ⟨hw.sessions, rfl, rfl⟩
    · exact ⟨hw.sessions, rfl, rfl⟩
    · exact absurd rfl (hv pk)
  | done answer => exact ⟨hw.sessions, rfl, hv⟩

theorem step_keyless {setup : Setup} (hcipher : setup.cipher.Correct) {w : World} (hw : w.Keyless setup) (a : Act) :
    (w.step setup a).1.Keyless setup := by
  cases a with
  | tick time => exact ⟨hw.sessions, hw.runners, hw.verifies⟩
  | cleanup tenant_id user_id => exact ⟨hw.sessions.cleanup tenant_id user_id w.clock, hw.runners, hw.verifies⟩
  | issue tenant_id user_id secret nonce fault =>
    exact ⟨hw.sessions.issueLongSession tenant_id user_id w.clock setup.ed secret nonce fault, hw.runners, hw.verifies⟩
  | revoke tenant_id user_id session_id fault =>
    exact ⟨hw.sessions.revokeLongSession tenant_id user_id session_id fault, hw.runners, hw.verifies⟩
  | verify runner ctx method =>
    refine ⟨hw.sessions, hw.runners, fun v hv => ?_⟩
    rcases List.mem_append.mp hv with hv | hv
    · exact hw.verifies v hv
    · rw [List.mem_singleton.mp hv]
      trivial
  | advance i now fault =>
    unfold World.step
    dsimp only
    cases hi : w.verifies[i]? with
    | none => exact hw
    | some v =>
      have hleft := v.advance_keyless hcipher hw (hw.verifies v (List.mem_of_getElem? hi)) now fault
      refine ⟨hleft.sessions, fun runner session_id => ?_, fun u hu => ?_⟩
      · dsimp only
        rw [hleft.auth, Function.update_eq_self]
        exact hw.runners runner session_id
      · rcases List.mem_or_eq_of_mem_set hu with hu | rfl
        · exact hw.verifies u hu
        · exact hleft.stage
  | evict runner session_id =>
    refine ⟨hw.sessions, fun runner' session_id' => ?_, hw.verifies⟩
    unfold World.step
    dsimp only
    by_cases hrunner : runner' = runner
    · subst hrunner
      rw [Function.update_self]
      by_cases hid : session_id' = session_id
      · subst hid
        exact Finmap.lookup_erase _ _
      · rw [Finmap.lookup_erase_ne hid]
        exact hw.runners runner' session_id'
    · rw [Function.update_of_ne hrunner]
      exact hw.runners runner' session_id'

theorem state_keyless {setup : Setup} (hcipher : setup.cipher.Correct) (clock : Int) (acts : List Act) :
    ((sessionMachine setup clock).state acts).Keyless setup := by
  have hnew : (World.new clock).Keyless setup :=
    ⟨fun _ _ hrow => absurd hrow (Option.some_ne_none _).symm, fun _ session_id => Finmap.lookup_empty session_id, fun _ hv => absurd hv List.not_mem_nil⟩
  exact Machine.invariant (M := sessionMachine setup clock) hnew (fun w a hw => step_keyless hcipher hw a) acts

/-- What a step answers is that the request is rejected. -/
theorem step_rejects {setup : Setup} (hcipher : setup.cipher.Correct) {w : World} (hw : w.Keyless setup) (a : Act) {session_id : String}
    {answer : Except String Bool} (h : (w.step setup a).2 = some (session_id, answer)) : answer = .ok false := by
  cases a with
  | tick | cleanup | issue | revoke | verify | evict => cases h
  | advance i now fault =>
    unfold World.step at h
    dsimp only at h
    cases hi : w.verifies[i]? with
    | none =>
      rw [hi] at h
      cases h
    | some v =>
      rw [hi] at h
      dsimp only at h
      have hstage := (v.advance_keyless hcipher hw (hw.verifies v (List.mem_of_getElem? hi)) now fault).stage
      generalize (v.advance setup w now fault).2.2 = stage at h hstage
      cases stage with
      | done answer' =>
        obtain ⟨-, rfl⟩ := Prod.mk.inj (Option.some.inj h)
        exact hstage
      | begun | asked | expired | selected | answered | found => cases h

/-- At serve, a session was revoked or has expired, or is not there any more. -/
def World.Gone (w : World) (session_id : String) : Prop :=
  ∀ row, w.sessions session_id = some row → row.status ≠ .active ∨ row.expires_at < w.clock

/-- From where a session is gone on, every answer about it rejects it, whatever was verified before. -/
def TakesEffect (setup : Setup) (clock : Int) (acts : List Act) : Prop :=
  ∀ session_id, ((sessionMachine setup clock).state acts).Gone session_id → ∀ later a answer,
    (a, some (session_id, answer)) ∈ (sessionMachine setup clock).traceFrom ((sessionMachine setup clock).state acts) later →
      answer = .ok false

/-- A session that was revoked or has expired at serve is rejected by every runner from then on. -/
theorem revocation_takes_effect (setup : Setup) (hcipher : setup.cipher.Correct) (clock : Int) (acts : List Act) :
    TakesEffect setup clock acts := by
  intro session_id _ later a answer h
  obtain ⟨pre, hpre⟩ := (sessionMachine setup clock).mem_traceFrom h
  have hout : ((sessionMachine setup clock).out ((sessionMachine setup clock).state (acts ++ pre)) a) = some (session_id, answer) := by
    rw [Machine.state_append]
    exact (Prod.mk.inj hpre).2.symm
  exact step_rejects hcipher (state_keyless hcipher clock (acts ++ pre)) a hout

/-- The encoding of the 32 zeros. -/
def zeroText : String := "AAAAAAAAAAAAAAAAAAAAAAAAAAAAAAAAAAAAAAAAAAA"

/-- `zeroText`, encrypted with the key of 32 zeros. -/
def zeroCiphertext : Bytes :=
  [143, 230, 1, 124, 12, 33, 42, 47, 70, 15, 132, 146, 251, 178, 220, 89, 51, 33, 66, 139, 118, 231, 107, 53, 144, 227, 180, 207, 52,
    71, 116, 207, 156, 11, 240, 105, 12, 11, 160, 58, 0, 169, 24, 173, 12, 188, 229, 121, 195, 243, 159, 148, 114, 246, 244, 224, 41,
    222, 140]

/-- AES-256-GCM at this text. -/
def cipherAtZero : Cipher := .ofTable [(zeroNonce.1, intoBytes zeroText, zeroCiphertext)]

theorem cipherAtZero_correct : cipherAtZero.Correct := by
  refine Cipher.ofTable_correct fun row hrow row' hrow' _ _ => ?_
  rw [List.mem_singleton.mp hrow, List.mem_singleton.mp hrow']

def zeroSetup : Setup := ⟨ed25519AtZero, fun _ => "Invalid padding", cipherAtZero, fun _ => (1, "ann")⟩

/-- Ann gets a session, a runner verifies a request of it, and Ann revokes it. -/
def annRevokes : List Act :=
  [.issue 1 "ann" zeroSecret zeroNonce none, .verify 0 ⟨"O2onvM62pC1io6jQKm8Nc2UyFXcd4kOmOsBIoYtZ2ik", 100, 1, zeroSignature⟩ "Execute",
    .advance 0 100 none, .advance 0 100 none, .advance 0 100 none, .advance 0 100 none, .advance 0 100 none,
    .revoke 1 "ann" "O2onvM62pC1io6jQKm8Nc2UyFXcd4kOmOsBIoYtZ2ik" none]

theorem revocation_takes_effect_ann :
    ((sessionMachine zeroSetup 0).state annRevokes).Gone "O2onvM62pC1io6jQKm8Nc2UyFXcd4kOmOsBIoYtZ2ik" ∧
      TakesEffect zeroSetup 0 annRevokes := by
  refine ⟨fun row hrow => Or.inl ?_, revocation_takes_effect zeroSetup cipherAtZero_correct 0 annRevokes⟩
  have hstatus : (((sessionMachine zeroSetup 0).state annRevokes).sessions "O2onvM62pC1io6jQKm8Nc2UyFXcd4kOmOsBIoYtZ2ik").map
      LongSession.status = some .revoked := by decide +kernel
  rw [hrow] at hstatus
  rw [Option.some.inj hstatus]
  decide

end Admin

end Opsense
