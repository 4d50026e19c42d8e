import Opsense.Lib.Text

/-!
# Signatures of requests

`LocalAuth` of `opsense-runner/src/auth.rs`. A request carries the public key it is signed with, as its session id, and the signature
of its timestamp, its nonce and its method. The base64 of a key and Ed25519 are a `SignatureScheme`; the encryption of a challenge is
a parameter. The clock and the timestamps are 64-bit numbers, whose arithmetic wraps.
-/

namespace Opsense

namespace Runner

/-- What `AuthContext::try_from` takes from the metadata of a request. -/
structure AuthContext where
  session_id : String
  timestamp : Int
  nonce : Nat
  signature : Bytes
deriving DecidableEq

/-- `B64.decode`, `VerifyingKey::from_bytes` and `verify`, with the errors of the first two. -/
structure SignatureScheme where
  decode : String → Except String Bytes
  key : Bytes → Except String Unit
  verify : Bytes → String → Bytes → Bool

/-- A signature of a key can only be made by its holder, and for one message. -/
def SignatureScheme.Ideal (scheme : SignatureScheme) : Prop :=
  ∀ {public_key public_key' message message' signature}, scheme.verify public_key message signature = true →
    scheme.verify public_key' message' signature = true → public_key = public_key' ∧ message = message'

/-- The window of the clock skew, in seconds. -/
def TIMESTAMP_WINDOW_SECS : Int := 30

def SIGNATURE_LENGTH : Nat := 64

/-- A result of `i64` arithmetic. -/
def wrapI64 (n : Int) : Int := Int.bmod n (2 ^ 64)

/-- The text that is signed. -/
def message (timestamp : Int) (nonce : Nat) (method : String) : String := s!"{timestamp}:{nonce}:{method}"

/-- A timestamp is in the window around the clock. -/
def inWindow (now timestamp : Int) : Bool := wrapI64 |wrapI64 (now - timestamp)| ≤ TIMESTAMP_WINDOW_SECS

/-- `verify_with_public_key`, when the clock shows `now`. -/
def verifyWithPublicKey (scheme : SignatureScheme) (now : Int) (public_key : Bytes) (method : String) (timestamp : Int) (nonce : Nat)
    (signature : Bytes) : Except String Bool :=
  if signature.length ≠ SIGNATURE_LENGTH then .ok false
  else if !inWindow now timestamp then .ok false
  else
    match scheme.key public_key with
    | .error e => .error s!"invalid ed25519 public key: {e}"
    | .ok () => .ok (scheme.verify public_key (message timestamp nonce method) signature)

/-- The key that challenges are encrypted with. -/
structure LocalAuth where
  master_key : Option Bytes

namespace LocalAuth

def verifySignature (scheme : SignatureScheme) (now : Int) (ctx : AuthContext) (method : String) : Except String Bool :=
  match scheme.decode ctx.session_id with
  | .error e => .error s!"session_id is not valid base64: {ctx.session_id}: {e}"
  | .ok public_key =>
    if public_key.length ≠ 32 then .ok false
    else verifyWithPublicKey scheme now public_key method ctx.timestamp ctx.nonce ctx.signature

/-- The challenge of 32 random bytes: what the client gets, and what the server keeps. -/
structure Challenge where
  ciphertext : Bytes
  plaintext : Bytes

def createChallenge (encrypt : Bytes → Bytes → Except String Bytes) (auth : LocalAuth) (random : Bytes) : Except String Challenge :=
  match auth.master_key with
  | none => .error "LocalAuth has no master key — call LocalAuth::from_env or from_key"
  | some key =>
    match encrypt key random with
    | .error e => .error s!"encrypt challenge: {e}"
    | .ok ciphertext => .ok ⟨ciphertext, random⟩

def verifyChallenge (expected_plaintext response : Bytes) : Bool := expected_plaintext = response

end LocalAuth

/-! ## What a check that passes says -/

/-- The signature of a context is made by a key, for a method. -/
def SignedBy (scheme : SignatureScheme) (ctx : AuthContext) (method : String) (public_key : Bytes) : Prop :=
  scheme.decode ctx.session_id = .ok public_key ∧
    scheme.verify public_key (message ctx.timestamp ctx.nonce method) ctx.signature = true

variable {scheme : SignatureScheme} {now : Int} {ctx : AuthContext} {method : String}

/-- A check that passes found a signature of the key of the session id, and the timestamp in the window. -/
theorem verifySignature_ok (h : LocalAuth.verifySignature scheme now ctx method = .ok true) :
    ∃ public_key, SignedBy scheme ctx method public_key ∧ inWindow now ctx.timestamp = true := by
  unfold LocalAuth.verifySignature at h
  cases hdecode : scheme.decode ctx.session_id with
  | error e =>
    rw [hdecode] at h
    cases h
  | ok public_key =>
    rw [hdecode] at h
    dsimp only at h
    split_ifs at h with hlength
    · cases h
    unfold verifyWithPublicKey at h
    split_ifs at h with hsignature hwindow
    · cases h
    · cases h
    cases hkey : scheme.key public_key with
    | error e =>
      rw [hkey] at h
      cases h
    | ok _ =>
      rw [hkey] at h
      exact ⟨public_key, ⟨hdecode, Except.ok.inj h⟩, by simpa using hwindow⟩

/-- Where the subtraction does not overflow, a timestamp in the window is at most thirty seconds from the clock. -/
theorem window_of_not_overflow (h : inWindow now ctx.timestamp = true) (hlow : -(2 ^ 63) < now - ctx.timestamp)
    (hhigh : now - ctx.timestamp < 2 ^ 63) : |now - ctx.timestamp| ≤ TIMESTAMP_WINDOW_SECS := by
  have hwrap : ∀ n : Int, -(2 ^ 63) < n → n < 2 ^ 63 → wrapI64 n = n := by
    intro n hn hn'
    unfold wrapI64
    rw [Int.bmod_eq_of_le (by omega) (by omega)]
  unfold inWindow at h
  rw [hwrap _ hlow hhigh, hwrap _ (by have := abs_nonneg (now - ctx.timestamp); omega) (abs_lt.mpr ⟨hlow, hhigh⟩)] at h
  exact of_decide_eq_true h

end Runner

end Opsense
