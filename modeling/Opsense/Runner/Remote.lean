import Opsense.Lib.Base64
import Opsense.Runner.Auth
import Opsense.Storage.Inner

/-!
# Sessions that are issued for runners

`issue_long_session` of `opsense-model/src/entities/admin/session.rs` makes the keypair of a session and encodes it with
`URL_SAFE_NO_PAD`; `LocalAuth` and `RemoteAuth` of `opsense-runner/src/auth.rs` decode keys with `STANDARD`, which asks for pads. So no
signature of an issued session is accepted by either (`long_sessions_do_not_interoperate`). The texts of the errors of the base64 engine
are a parameter, and Ed25519 is one.
-/

namespace Opsense

namespace Runner

/-- `[u8; 32]` -/
abbrev Key := { bytes : Bytes // bytes.length = 32 }

/-- `SigningKey`, `VerifyingKey` and `Signature`. -/
structure Ed25519 where
  publicKey : Key → Key
  /-- `VerifyingKey::from_bytes` -/
  key : Bytes → Except String Unit
  sign : Key → String → Bytes
  verify : Bytes → String → Bytes → Bool

/-- `B64.decode`, where `fault` is the text of its error. -/
def decodeStandard (fault : String → String) (text : String) : Except String Bytes :=
  match Base64.standard.decode text with
  | some bytes => .ok bytes
  | none => .error (fault text)

def Ed25519.scheme (ed : Ed25519) (fault : String → String) : SignatureScheme := ⟨decodeStandard fault, ed.key, ed.verify⟩

/-! ## Who makes keys -/

structure LongSessionInfo where
  session_id : String
  private_key : String
  expires_in_secs : Int

/-- What `issue_long_session` answers, for these random bytes. -/
def issueLongSession (ed : Ed25519) (secret : Key) : LongSessionInfo where
  session_id := Base64.urlSafeNoPad.encode (ed.publicKey secret).1
  private_key := Base64.urlSafeNoPad.encode secret.1
  expires_in_secs := 8 * 3600

/-- `LocalAuth::generate_keypair`, for these random bytes. -/
def LocalAuth.generateKeypair (ed : Ed25519) (secret : Key) : String × Bytes :=
  (Base64.standard.encode (ed.publicKey secret).1, secret.1)

/-! ## Who reads keys -/

/-- What a runner reads of the answer of serve. -/
structure SessionResolveResponse where
  active : Bool
  private_key : Option String
deriving DecidableEq

/-- The public keys of the sessions that were looked up, by session id. -/
structure RemoteAuth where
  cache : Table String Key

namespace RemoteAuth

/-- The public key that is derived from an answer of serve. -/
def publicKeyOf (ed : Ed25519) (fault : String → String) : Except String SessionResolveResponse → Except String (Option Key)
  | .error e => .error s!"POST /api/admin/v1/session/resolve: {e}"
  | .ok resp =>
    if !resp.active then .ok none
    else
      match resp.private_key with
      | none => .error "session/resolve returned active=true but no private_key"
      | some pk =>
        match decodeStandard fault pk with
        | .error e => .error s!"private_key not valid base64: {e}"
        | .ok bytes =>
          if h : bytes.length = 32 then .ok (some (ed.publicKey ⟨bytes, h⟩))
          else .error s!"private_key decoded to {bytes.length} bytes, expected 32"

/-- `lookup_public_key`, when serve answers `resp`. -/
def lookupPublicKey (ed : Ed25519) (fault : String → String) (auth : RemoteAuth) (resp : Except String SessionResolveResponse)
    (session_id : String) : RemoteAuth × Except String (Option Key) :=
  match auth.cache.lookup session_id with
  | some pk => (auth, .ok (some pk))
  | none =>
    match publicKeyOf ed fault resp with
    | .ok (some pk) => (⟨auth.cache.insert session_id pk⟩, .ok (some pk))
    | .ok none => (auth, .ok none)
    | .error e => (auth, .error e)

/-- What `verify_signature` does with the key it has found. -/
def checkWith (ed : Ed25519) (fault : String → String) (now : Int) (ctx : AuthContext) (method : String) :
    Except String (Option Key) → Except String Bool
  | .ok (some pk) => verifyWithPublicKey (ed.scheme fault) now pk.1 method ctx.timestamp ctx.nonce ctx.signature
  | .ok none => .ok false
  | .error _ => .ok false

def verifySignature (ed : Ed25519) (fault : String → String) (auth : RemoteAuth) (resp : Except String SessionResolveResponse)
    (now : Int) (ctx : AuthContext) (method : String) : RemoteAuth × Except String Bool :=
  let (auth, pk) := auth.lookupPublicKey ed fault resp ctx.session_id
  (auth, checkWith ed fault now ctx method pk)

/-- `resolve_private_key`, when serve answers `resp`. -/
def resolvePrivateKey (fault : String → String) : Except String SessionResolveResponse → Except String (Option Bytes)
  | .error e => .error s!"POST /api/admin/v1/session/resolve: {e}"
  | .ok resp =>
    if !resp.active then .ok none
    else
      match resp.private_key with
      | none => .ok none
      | some pk =>
        match decodeStandard fault pk with
        | .error e => .error s!"private_key not valid base64: {e}"
        | .ok bytes => if bytes.length ≠ 32 then .error s!"private_key length {bytes.length} != 32" else .ok (some bytes)

end RemoteAuth

/-! ## Issued sessions -/

variable (ed : Ed25519) (fault : String → String) (now : Int) (method : String)

/-- No encoding of an issued key is read again. -/
theorem decodeStandard_issued (key : Key) :
    decodeStandard fault (Base64.urlSafeNoPad.encode key.1) = .error (fault (Base64.urlSafeNoPad.encode key.1)) := by
  have hlength : key.1.length % 3 ≠ 0 := by
    rw [key.2]
    decide
  unfold decodeStandard
  rw [Base64.decode_encode_unpadded rfl rfl hlength]

theorem local_rejects_issued (secret : Key) (ctx : AuthContext) (hctx : ctx.session_id = (issueLongSession ed secret).session_id) :
    ∃ e, LocalAuth.verifySignature (ed.scheme fault) now ctx method = .error e := by
  unfold LocalAuth.verifySignature
  have hdecode : (ed.scheme fault).decode ctx.session_id = .error (fault (issueLongSession ed secret).session_id) := by
    rw [hctx]
    exact decodeStandard_issued fault (ed.publicKey secret)
  rw [hdecode]
  exact ⟨_, rfl⟩

theorem publicKeyOf_issued (secret : Key) :
    ∃ e, RemoteAuth.publicKeyOf ed fault (.ok ⟨true, some (issueLongSession ed secret).private_key⟩) = .error e := by
  unfold RemoteAuth.publicKeyOf
  dsimp only
  have hdecode : decodeStandard fault (issueLongSession ed secret).private_key = .error (fault (issueLongSession ed secret).private_key) :=
    decodeStandard_issued fault secret
  rw [hdecode]
  exact ⟨_, rfl⟩

/-- A runner that has not the key of an issued session rejects it, and keeps no key. -/
theorem remote_rejects_issued (secret : Key) (auth : RemoteAuth) (ctx : AuthContext) (hcache : auth.cache.lookup ctx.session_id = none) :
    auth.verifySignature ed fault (.ok ⟨true, some (issueLongSession ed secret).private_key⟩) now ctx method = (auth, .ok false) := by
  obtain ⟨e, he⟩ := publicKeyOf_issued ed fault secret
  unfold RemoteAuth.verifySignature RemoteAuth.lookupPublicKey
  rw [hcache]
  dsimp only
  rw [he]
  rfl

/-- The signature of a secret is accepted under a session, by a runner that has the keys and by one that asks serve, and that of another
secret by neither. -/
structure Interoperates (ed : Ed25519) (fault : String → String) (secret : Key) (now : Int) (method : String) (timestamp : Int)
    (nonce : Nat) : Prop where
  local_accepts : LocalAuth.verifySignature (ed.scheme fault) now
    ⟨(issueLongSession ed secret).session_id, timestamp, nonce, ed.sign secret (message timestamp nonce method)⟩ method = .ok true
  remote_accepts : (RemoteAuth.verifySignature ed fault ⟨∅⟩ (.ok ⟨true, some (issueLongSession ed secret).private_key⟩) now
    ⟨(issueLongSession ed secret).session_id, timestamp, nonce, ed.sign secret (message timestamp nonce method)⟩ method).2 = .ok true
  local_rejects : ∀ other, ed.publicKey other ≠ ed.publicKey secret → LocalAuth.verifySignature (ed.scheme fault) now
    ⟨(issueLongSession ed secret).session_id, timestamp, nonce, ed.sign other (message timestamp nonce method)⟩ method ≠ .ok true
  remote_rejects : ∀ other, ed.publicKey other ≠ ed.publicKey secret →
    (RemoteAuth.verifySignature ed fault ⟨∅⟩ (.ok ⟨true, some (issueLongSession ed secret).private_key⟩) now
      ⟨(issueLongSession ed secret).session_id, timestamp, nonce, ed.sign other (message timestamp nonce method)⟩ method).2 ≠ .ok true

/-- A session that is issued is accepted neither by a runner that has the keys nor by one that asks serve. -/
theorem long_sessions_do_not_interoperate (secret : Key) (timestamp : Int) (nonce : Nat) :
    ¬ Interoperates ed fault secret now method timestamp nonce ∧
      (∀ signature, LocalAuth.verifySignature (ed.scheme fault) now
        ⟨(issueLongSession ed secret).session_id, timestamp, nonce, signature⟩ method ≠ .ok true) ∧
      ∀ signature, (RemoteAuth.verifySignature ed fault ⟨∅⟩ (.ok ⟨true, some (issueLongSession ed secret).private_key⟩) now
        ⟨(issueLongSession ed secret).session_id, timestamp, nonce, signature⟩ method).2 ≠ .ok true := by
  have hlocal : ∀ signature, LocalAuth.verifySignature (ed.scheme fault) now
      ⟨(issueLongSession ed secret).session_id, timestamp, nonce, signature⟩ method ≠ .ok true := by
    intro signature hok
    obtain ⟨e, he⟩ := local_rejects_issued ed fault now method secret
      ⟨(issueLongSession ed secret).session_id, timestamp, nonce, signature⟩ rfl
    rw [he] at hok
    cases hok
  refine ⟨fun h => hlocal _ h.local_accepts, hlocal, fun signature hok => ?_⟩
  rw [remote_rejects_issued ed fault now method secret ⟨∅⟩ _ (Finmap.lookup_empty _)] at hok
  cases hok

def zeros : Bytes := List.replicate 32 0

theorem zeros_length : zeros.length = 32 := rfl

def zerosPublic : Bytes :=
  [59, 106, 39, 188, 206, 182, 164, 45, 98, 163, 168, 208, 42, 111, 13, 115, 101, 50, 21, 119, 29, 226, 67, 166, 58, 192, 72, 161, 139,
    89, 218, 41]

theorem zerosPublic_length : zerosPublic.length = 32 := rfl

/-- The secret of 32 zeros. -/
def zeroSecret : Key := ⟨zeros, zeros_length⟩

/-- The public key of the zeros. -/
def zeroPublic : Key := ⟨zerosPublic, zerosPublic_length⟩

/-- The signature of `100:1:Execute` with the zeros. -/
def zeroSignature : Bytes :=
  [65, 217, 108, 140, 34, 178, 8, 4, 106, 170, 166, 46, 36, 164, 42, 129, 117, 207, 124, 25, 118, 42, 98, 153, 73, 19, 132, 210, 244,
    80, 200, 118, 166, 189, 15, 100, 132, 238, 255, 174, 239, 62, 170, 150, 99, 61, 35, 7, 43, 108, 243, 183, 36, 37, 76, 205, 59, 101,
    112, 30, 10, 151, 127, 11]

/-- Ed25519 at the zeros and one message. -/
def ed25519AtZero : Ed25519 where
  publicKey _ := zeroPublic
  key _ := .ok ()
  sign _ _ := zeroSignature
  verify public_key message signature := decide (public_key = zeroPublic.1 ∧ message = "100:1:Execute" ∧ signature = zeroSignature)

/-- Both refuse a good signature of the zeros under the session that is issued for them. With one pad more, its id would be the one that
a runner makes of the zeros. -/
theorem issued_session_refused :
    (issueLongSession ed25519AtZero zeroSecret).session_id = "O2onvM62pC1io6jQKm8Nc2UyFXcd4kOmOsBIoYtZ2ik" ∧
    (LocalAuth.generateKeypair ed25519AtZero zeroSecret).1 = "O2onvM62pC1io6jQKm8Nc2UyFXcd4kOmOsBIoYtZ2ik=" ∧
    ed25519AtZero.verify zeroPublic.1 (message 100 1 "Execute") (ed25519AtZero.sign zeroSecret (message 100 1 "Execute")) = true ∧
    inWindow 100 100 = true ∧
    LocalAuth.verifySignature (ed25519AtZero.scheme fun _ => "Invalid padding") 100
      ⟨(issueLongSession ed25519AtZero zeroSecret).session_id, 100, 1, zeroSignature⟩ "Execute" =
        .error "session_id is not valid base64: O2onvM62pC1io6jQKm8Nc2UyFXcd4kOmOsBIoYtZ2ik: Invalid padding" ∧
    (RemoteAuth.verifySignature ed25519AtZero (fun _ => "Invalid padding") ⟨∅⟩
      (.ok ⟨true, some (issueLongSession ed25519AtZero zeroSecret).private_key⟩) 100
      ⟨(issueLongSession ed25519AtZero zeroSecret).session_id, 100, 1, zeroSignature⟩ "Execute").2 = .ok false ∧
    ¬ Interoperates ed25519AtZero (fun _ => "Invalid padding") zeroSecret 100 "Execute" 100 1 := by
  have hlocal : LocalAuth.verifySignature (ed25519AtZero.scheme fun _ => "Invalid padding") 100
      ⟨(issueLongSession ed25519AtZero zeroSecret).session_id, 100, 1, zeroSignature⟩ "Execute" =
        .error "session_id is not valid base64: O2onvM62pC1io6jQKm8Nc2UyFXcd4kOmOsBIoYtZ2ik: Invalid padding" := by decide +kernel
  refine ⟨by decide +kernel, by decide +kernel, by decide +kernel, by decide +kernel, hlocal, by decide +kernel, fun h => ?_⟩
  have hok := hlocal.symm.trans h.local_accepts
  cases hok

end Runner

end Opsense
