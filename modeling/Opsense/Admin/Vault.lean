import Opsense.Admin.Sops

/-!
# The tokens of services

A row of `sys_token_map` and its entry in `cache_unencrypted_tokens_by_services`, of one tenant and one service, with
`get_unencrypted_token_by_services` of `opsense-model/src/entities/admin/mod.rs` and `put_unencrypted_token` of `token.rs` in the steps
between which others run: each look in the cache, each write of it, and each statement.
-/

namespace Opsense

namespace Admin

/-- The column `token`, and what is cached: nothing, that there is no token, or a token. -/
structure Vault where
  row : Option Bytes
  cache : Option (Option String)
deriving DecidableEq

def notFoundService (tenant_id : Int) (service_name : String) : AdminError :=
  .other s!"Not found service {service_name}, tenant {tenant_id}"

/-- Where a `get_unencrypted_token_by_services` stands: before it caches that there is no token, before its statement, before it decrypts
and caches the token, and at its end. -/
inductive GetStage
  | missed
  | selecting
  | decrypting (encrypted_bytes : Bytes)
  | done (answer : Except AdminError String)

/-- Where a `put_unencrypted_token` stands: before its statement, before it caches the token, and at its end. -/
inductive PutStage
  | encrypted (token_plain : String) (encrypted : Bytes)
  | stored (token_plain : String) (encrypted : Bytes)
  | done (answer : Except AdminError Unit)

variable (cipher : Cipher) (tenant_id : Int) (service_name : String)

namespace Vault

/-- The look in the cache that a get begins with. -/
def get (v : Vault) : GetStage :=
  match v.cache with
  | some (some token) => .done (.ok token)
  | some none => .done (.error (notFoundService tenant_id service_name))
  | none => .missed

/-- The next step of a get, when a call of it fails. -/
def advanceGet (v : Vault) (fault : Option Fault) : GetStage → Vault × GetStage
  | .missed => ({ v with cache := some none }, .selecting)
  | .selecting =>
    match fault with
    | some fault => (v, .done (.error (fault.raise tenant_id "Decrypt")))
    | none =>
      match v.row with
      | none => (v, .done (.error (notFoundService tenant_id service_name)))
      | some encrypted_bytes => (v, .decrypting encrypted_bytes)
  | .decrypting encrypted_bytes =>
    match fault with
    | some fault => (v, .done (.error (fault.raise tenant_id "Decrypt")))
    | none =>
      match Sops.decrypt cipher encrypted_bytes with
      | .error e => (v, .done (.error (.other s!"Decrypt failed: {e}")))
      | .ok token => ({ v with cache := some (some token) }, .done (.ok token))
  | .done answer => (v, .done answer)

/-- The encryption that a put begins with. -/
def put (token_plain : String) (nonce : Nonce) (fault : Option Fault) : PutStage :=
  match fault with
  | some fault => .done (.error (fault.raise tenant_id "Encrypt"))
  | none =>
    match Sops.encrypt cipher nonce token_plain with
    | .error e => .done (.error (.other s!"Encrypt failed: {e}"))
    | .ok encrypted => .encrypted token_plain encrypted

/-- The next step of a put, when a call of it fails. -/
def advancePut (v : Vault) (fault : Option Fault) : PutStage → Vault × PutStage
  | .encrypted token_plain encrypted =>
    match fault with
    | some fault => (v, .done (.error (fault.raise tenant_id "Encrypt")))
    | none => ({ v with row := some encrypted }, .stored token_plain encrypted)
  | .stored token_plain _ => ({ v with cache := some (some token_plain) }, .done (.ok ()))
  | .done answer => (v, .done answer)

end Vault

/-! ## What the database holds -/

/-- The database holds a token. -/
def Vault.Holds (v : Vault) (token : String) : Prop :=
  ∃ encrypted, v.row = some encrypted ∧ Sops.decrypt cipher encrypted = .ok token

theorem Vault.Holds.unique {cipher : Cipher} {v : Vault} {token token' : String} (h : v.Holds cipher token) (h' : v.Holds cipher token') :
    token = token' := by
  obtain ⟨encrypted, hrow, hdecrypt⟩ := h
  obtain ⟨encrypted', hrow', hdecrypt'⟩ := h'
  obtain rfl := Option.some.inj (hrow.symm.trans hrow')
  exact Except.ok.inj (hdecrypt.symm.trans hdecrypt')

/-- The token that the database holds. -/
def Vault.plain (v : Vault) : Option String := v.row.bind fun encrypted => (Sops.decrypt cipher encrypted).toOption

theorem Vault.plain_eq_some {cipher : Cipher} {v : Vault} {token : String} : v.plain cipher = some token ↔ v.Holds cipher token := by
  unfold Vault.plain Vault.Holds
  rw [Option.bind_eq_some_iff]
  refine exists_congr fun encrypted => and_congr_right fun _ => ?_
  cases Sops.decrypt cipher encrypted with
  | error e => exact ⟨fun h => absurd h.symm (Option.some_ne_none _), fun h => by cases h⟩
  | ok token' => exact ⟨fun h => congrArg Except.ok (Option.some.inj h), fun h => congrArg some (Except.ok.inj h)⟩

instance (v : Vault) (token : String) : Decidable (v.Holds cipher token) :=
  decidable_of_iff (v.plain cipher = some token) Vault.plain_eq_some

/-! ## The errors -/

/-- No failure is answered as a service that is not found. -/
theorem raise_ne_notFound (fault : Fault) : fault.raise tenant_id "Decrypt" ≠ notFoundService tenant_id service_name := by
  intro h
  cases fault with
  | sqlx error => cases h
  | pool | key | cipher =>
    have hhead := congrArg (fun message => message.toList.head?) (AdminError.other.inj h)
    simp [toString] at hhead

theorem decryptFailed_ne_notFound (e : String) : AdminError.other s!"Decrypt failed: {e}" ≠ notFoundService tenant_id service_name :=
  raise_ne_notFound tenant_id service_name (.cipher e)

end Admin

end Opsense
