import Opsense.Admin.Vault

/-!
# The token of a user

The rows of one user of one tenant, in `sys_token_map` under the service of the user and in `sys_user`: `issue_user_token` and
`revoke_user_token` of `opsense-model/src/entities/admin/token.rs`, `verify_user_token` of `jwt.rs`, and the statement of
`token_revoke` of `opsense/src/api/oauth/v1.rs`. SHA-256 is a parameter. No statement removes the row of a service, so its id is one
number.
-/

namespace Opsense

namespace Admin

def userTokenService (user_id : String) : String := s!"user:{user_id}"

/-- `{byte:02x}` -/
def hexByte (byte : UInt8) : List Char := [Nat.digitChar (byte.toNat / 16), Nat.digitChar (byte.toNat % 16)]

/-- The token of these random bytes. -/
def tokenPlain (raw : Bytes) : String := "abt_" ++ String.ofList (raw.flatMap hexByte)

/-- What is read of a row of `sys_user`. -/
structure UserRow where
  token_hash : String
  token_id : Int
  expires_at : Option Int
  revoked_at : Option Int
deriving DecidableEq

structure Account where
  vault : Vault
  user : Option UserRow
deriving DecidableEq

/-- SHA-256 in hexadecimal digits, the cipher, the tenant, the user, and the id of the row of the service of the user. -/
structure AccountSetup where
  sha256_hex : String → String
  cipher : Cipher
  tenant_id : Int
  user_id : String
  token_id : Int

/-- Where an `issue_user_token` stands: in its `put_unencrypted_token`, before it selects the id, before it writes the user, and at its
end. -/
inductive IssueStage
  | putting (stage : PutStage) (token_plain : String) (expires_at : Option Int)
  | selecting (token_plain : String) (expires_at : Option Int)
  | upserting (token_plain : String) (expires_at : Option Int) (token_id : Int)
  | done (answer : Except AdminError String)

/-- Where a `verify_user_token` stands after it has read the user: before it reads the token, and at its end. -/
inductive CheckStage
  | reading (token : String) (token_id : Int)
  | done (answer : Except AdminError (Option String))

namespace Account

variable (setup : AccountSetup) (account : Account)

/-- After a step of the put of an issue. -/
def putResult (token_plain : String) (expires_at : Option Int) : PutStage → IssueStage
  | .done (.error e) => .done (.error e)
  | .done (.ok ()) => .selecting token_plain expires_at
  | stage => .putting stage token_plain expires_at

/-- The beginning of `issue_user_token`, for these random bytes. -/
def issue (raw : Bytes) (nonce : Nonce) (expires_at : Option Int) (fault : Option Fault) : IssueStage :=
  putResult (tokenPlain raw) expires_at (Vault.put setup.cipher setup.tenant_id (tokenPlain raw) nonce fault)

/-- The next step of an issue, when a call of it fails. -/
def advanceIssue (fault : Option Fault) : IssueStage → Account × IssueStage
  | .putting stage token_plain expires_at =>
    let (vault, stage) := account.vault.advancePut setup.tenant_id fault stage
    ({ account with vault }, putResult token_plain expires_at stage)
  | .selecting token_plain expires_at =>
    match fault with
    | some fault => (account, .done (.error (fault.raise setup.tenant_id "")))
    | none =>
      match account.vault.row with
      | none => (account, .done (.error (.other
          s!"Not found token map entry for service {userTokenService setup.user_id}, tenant {setup.tenant_id}")))
      | some _ => (account, .upserting token_plain expires_at setup.token_id)
  | .upserting token_plain expires_at token_id =>
    match fault with
    | some fault => (account, .done (.error (fault.raise setup.tenant_id "")))
    | none => ({ account with user := some ⟨setup.sha256_hex token_plain, token_id, expires_at.map formatDtForDb, none⟩ },
        .done (.ok token_plain))
  | .done answer => (account, .done answer)

/-- `revoke_user_token` -/
def revoke (now : Int) (fault : Option Fault) : Account × Except AdminError Unit :=
  match fault with
  | some fault => (account, .error (fault.raise setup.tenant_id ""))
  | none =>
    match account.user with
    | none => (account, .error (.other s!"Not found user {setup.user_id}, tenant {setup.tenant_id}"))
    | some row => ({ account with user := some { row with revoked_at := some now } }, .ok ())

/-- The user has this token, and it is not revoked. -/
def Revocable (token : String) : Prop :=
  ∃ row, account.user = some row ∧ row.token_hash = setup.sha256_hex token ∧ row.revoked_at = none

theorem revocable_iff (token : String) :
    (account.user.any fun row => decide (row.token_hash = setup.sha256_hex token ∧ row.revoked_at = none)) = true ↔
      account.Revocable setup token := by
  rw [Option.any_eq_true]
  exact exists_congr fun row => and_congr_right fun _ => decide_eq_true_iff

instance (token : String) : Decidable (account.Revocable setup token) :=
  decidable_of_iff _ (account.revocable_iff setup token)

/-- `token_revoke`, when there is a connection; a failure of its statement is ignored. -/
def tokenRevoke (token : String) (now : Int) (fault : Option Fault) : Account :=
  match fault with
  | some _ => account
  | none => { account with user := account.user.map fun row =>
      if row.token_hash = setup.sha256_hex token ∧ row.revoked_at = none then { row with revoked_at := some now } else row }

/-- The token that is accepted until it expires. -/
def valid : Option String :=
  (account.vault.plain setup.cipher).filter fun token =>
    account.user.any fun row => decide (row.token_hash = setup.sha256_hex token ∧ row.revoked_at = none)

theorem tokenRevoke_of_not_revocable {token : String} (h : ¬ account.Revocable setup token) (now : Int) (fault : Option Fault) :
    account.tokenRevoke setup token now fault = account := by
  unfold tokenRevoke
  obtain ⟨vault, user⟩ := account
  cases fault with
  | some fault => rfl
  | none =>
    cases user with
    | none => rfl
    | some row =>
      dsimp only [Option.map_some]
      rw [if_neg fun hrow => h ⟨row, rfl, hrow⟩]

/-- `get_unencrypted_token_by_id` -/
def getById (token_id : Int) (fault : Option Fault) : Except AdminError String :=
  match fault with
  | some fault => .error (fault.raise setup.tenant_id "Decrypt")
  | none =>
    match account.vault.row.filter fun _ => decide (token_id = setup.token_id) with
    | none => .error (.other s!"Not found token_id {token_id} for tenant {setup.tenant_id}")
    | some encrypted_bytes => (Sops.decrypt setup.cipher encrypted_bytes).mapError fun e => .other s!"Decrypt failed: {e}"

/-- `verify_user_token` until it has read the user, at this time. -/
def verify (token : String) (now : Int) (fault : Option Fault) : CheckStage :=
  match fault with
  | some fault => .done (.error (fault.raise setup.tenant_id ""))
  | none =>
    match account.user.filter fun row => decide (row.token_hash = setup.sha256_hex token) with
    | none => .done (.ok none)
    | some row =>
      if row.expires_at.any fun expires_at => decide (expires_at < now) then .done (.ok none)
      else if row.revoked_at.isSome then .done (.ok none)
      else .reading token row.token_id

/-- The rest of `verify_user_token`. -/
def check (fault : Option Fault) : CheckStage → CheckStage
  | .reading token token_id =>
    match account.getById setup token_id fault with
    | .error e => .done (.error e)
    | .ok stored => if stored = token then .done (.ok (some setup.user_id)) else .done (.ok none)
  | .done answer => .done answer

end Account

/-- A digest that is known for some texts. -/
def digestAt (table : List (String × String)) (text : String) : String :=
  ((table.find? fun row => decide (row.1 = text)).map (·.2)).getD ("sha256:" ++ text)

/-- Digests in hexadecimal digits that are different for different texts. -/
theorem digestAt_injective {table : List (String × String)} (hdigests : ∀ row ∈ table, ∀ row' ∈ table, row.2 = row'.2 → row.1 = row'.1)
    (hhex : ∀ row ∈ table, row.2.toList.head? ≠ some 's') : Function.Injective (digestAt table) := by
  have hknown : ∀ {text row}, (table.find? fun row => decide (row.1 = text)) = some row → row ∈ table ∧ row.1 = text := by
    intro text row hfind
    have hsome := List.find?_some hfind
    exact ⟨List.mem_of_find?_eq_some hfind, of_decide_eq_true hsome⟩
  have hother : ∀ {row}, row ∈ table → ∀ text, row.2 ≠ "sha256:" ++ text := by
    intro row hrow text heq
    apply hhex row hrow
    rw [heq, String.toList_append]
    rfl
  intro text text' heq
  unfold digestAt at heq
  cases hfind : table.find? fun row => decide (row.1 = text) with
  | none =>
    cases hfind' : table.find? fun row => decide (row.1 = text') with
    | none =>
      rw [hfind, hfind'] at heq
      have hlists := congrArg String.toList heq
      dsimp only [Option.map_none, Option.getD_none] at hlists
      rw [String.toList_append, String.toList_append] at hlists
      exact String.toList_inj.mp (List.append_cancel_left hlists)
    | some row' =>
      rw [hfind, hfind'] at heq
      exact absurd heq.symm (hother (hknown hfind').1 text)
  | some row =>
    cases hfind' : table.find? fun row => decide (row.1 = text') with
    | none =>
      rw [hfind, hfind'] at heq
      exact absurd heq (hother (hknown hfind).1 text')
    | some row' =>
      rw [hfind, hfind'] at heq
      have hsame := hdigests row (hknown hfind).1 row' (hknown hfind').1 heq
      rw [← (hknown hfind).2, hsame, (hknown hfind').2]

end Admin

end Opsense
