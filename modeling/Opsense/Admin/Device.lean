import Opsense.Admin.UserTokens

/-!
# Device codes that are approved

`approve_device_code` and `poll_device_token` of `opsense-model/src/entities/admin/device.rs` on any codes, for any users, one statement
at a time. An approval checks that the code is pending, issues a token to the user, and updates the code without asking again; so a code
may be approved twice, and an approval that fails on the way leaves the user without the token of before. Apart from this each code is
approved once, and an approval that fails leaves everything as it was; and in every run a poll hands out the token that was issued to
the user who is recorded (`device_grant`).
-/

namespace Opsense

namespace Admin

/-- The column `status` of a device code. -/
inductive DeviceStatus
  | pending
  | approved
  | denied
  | other (status : String)
deriving DecidableEq

def DeviceStatus.text : DeviceStatus → String
  | .pending => "pending"
  | .approved => "approved"
  | .denied => "denied"
  | .other status => status

/-- What is read of a row of `sys_device_code`, whose id is its place. -/
structure DeviceCode where
  device_code : String
  user_code : String
  expires_at : Int
  status : DeviceStatus
  user_id : Option String
  approved_at : Option Int
  access_token : Option String
  refresh_token : Option String
deriving DecidableEq

structure DeviceTokenInfo where
  access_token : String
  refresh_token : String
  session_id : Option String
deriving DecidableEq

/-- SHA-256, the cipher, the tenant, and the ids of the rows of the services of the users. -/
structure DeviceSetup where
  sha256_hex : String → String
  cipher : Cipher
  tenant_id : Int
  token_ids : String → Int

def DeviceSetup.account (setup : DeviceSetup) (user_id : String) : AccountSetup :=
  ⟨setup.sha256_hex, setup.cipher, setup.tenant_id, user_id, setup.token_ids user_id⟩

/-- Where an `approve_device_code` stands: after its check, in `issue_user_token`, before it inserts the session of the refresh token,
before it updates the code, and at its end. -/
inductive ApproveStage
  | checked (record_id : Nat)
  | issuing (record_id : Nat) (stage : IssueStage)
  | inserting (record_id : Nat) (access_token : String)
  | updating (record_id : Nat) (access_token : String)
  | done (answer : Except AdminError String)

/-- An approval, with its random bytes. -/
structure Approval where
  user_id : String
  raw : Bytes
  nonce : Nonce
  refresh_token : String
  stage : ApproveStage

structure DeviceWorld where
  clock : Int
  codes : List DeviceCode
  accounts : String → Account
  approvals : List Approval

namespace DeviceWorld

variable (setup : DeviceSetup) (w : DeviceWorld)

/-- `issue_device_code`, for these random codes. -/
def issueDeviceCode (device_code user_code : String) (fault : Option Fault) : List DeviceCode :=
  if fault.isSome || w.codes.any fun row => row.device_code = device_code || row.user_code = user_code then w.codes
  else w.codes ++ [⟨device_code, user_code, formatDtForDb (w.clock + 600 * SECOND), .pending, none, none, none, none⟩]

/-- The check of an approval, which looks at the clock after this time. -/
def check (user_code : String) (wait : Nat) (fault : Option Fault) : ApproveStage :=
  match fault with
  | some fault => .done (.error (fault.raise setup.tenant_id ""))
  | none =>
    match w.codes.findIdx? fun row => decide (row.user_code = user_code) with
    | none => .done (.error (.other "Device code not found"))
    | some record_id =>
      match w.codes[record_id]? with
      | none => .done (.error (.other "Device code not found"))
      | some row =>
        if row.expires_at < w.clock + wait then .done (.error (.other "Device code expired"))
        else if row.status ≠ .pending then .done (.error (.other s!"Device code already {row.status.text}"))
        else .checked record_id

/-- After a step of the issue of an approval. -/
def issued (record_id : Nat) : IssueStage → ApproveStage
  | .done (.error e) => .done (.error e)
  | .done (.ok access_token) => .inserting record_id access_token
  | stage => .issuing record_id stage

/-- The next step of an approval, when a call of it fails. -/
def advance (a : Approval) (fault : Option Fault) : List DeviceCode × Account × ApproveStage :=
  let account := w.accounts a.user_id
  match a.stage with
  | .checked record_id => (w.codes, account,
      issued record_id (Account.issue (setup.account a.user_id) a.raw a.nonce (some (w.clock + 8 * 3600 * SECOND)) fault))
  | .issuing record_id stage =>
    let (account, stage) := account.advanceIssue (setup.account a.user_id) fault stage
    (w.codes, account, issued record_id stage)
  | .inserting record_id access_token =>
    match fault with
    | some fault => (w.codes, account, .done (.error (fault.raise setup.tenant_id "")))
    | none => (w.codes, account, .updating record_id access_token)
  | .updating record_id access_token =>
    match fault with
    | some fault => (w.codes, account, .done (.error (fault.raise setup.tenant_id "")))
    | none =>
      (w.codes.modify record_id fun row => { row with
          status := .approved, user_id := some a.user_id, approved_at := some w.clock, access_token := some access_token,
          refresh_token := some a.refresh_token },
        account, .done (.ok a.user_id))
  | .done answer => (w.codes, account, .done answer)

/-- `poll_device_token`, which looks at the clock after this time. -/
def poll (device_code : String) (wait : Nat) (fault : Option Fault) : Except AdminError DeviceTokenInfo :=
  match fault with
  | some fault => .error (fault.raise setup.tenant_id "")
  | none =>
    match w.codes.find? fun row => decide (row.device_code = device_code) with
    | none => .error (.other "Device code not found")
    | some row =>
      if row.expires_at < w.clock + wait then .error (.other "authorization_expired")
      else
        match row.status with
        | .pending => .error (.other "authorization_pending")
        | .approved =>
          match row.access_token, row.refresh_token with
          | some access_token, some refresh_token => .ok ⟨access_token, refresh_token, none⟩
          | _, _ => .error (.sqlx "unexpected null")
        | .denied => .error (.other "access_denied")
        | .other status => .error (.other s!"Unknown device code status: {status}")

end DeviceWorld

inductive DeviceAct
  | tick (time : Nat)
  | code (device_code user_code : String) (fault : Option Fault)
  | approve (user_id user_code refresh_token : String) (raw : Bytes) (nonce : Nonce) (wait : Nat) (fault : Option Fault)
  | advance (i : Nat) (fault : Option Fault)
  | poll (device_code : String) (wait : Nat) (fault : Option Fault)

/-- What a step answers: an approval at its end, or a poll. -/
inductive DeviceAnswer
  | approved (i : Nat) (answer : Except AdminError String)
  | polled (device_code : String) (answer : Except AdminError DeviceTokenInfo)

def ApproveStage.answer : ApproveStage → Option (Except AdminError String)
  | .done answer => some answer
  | _ => none

def DeviceWorld.step (setup : DeviceSetup) (w : DeviceWorld) : DeviceAct → DeviceWorld × Option DeviceAnswer
  | .tick time => ({ w with clock := w.clock + time }, none)
  | .code device_code user_code fault => ({ w with codes := w.issueDeviceCode device_code user_code fault }, none)
  | .approve user_id user_code refresh_token raw nonce wait fault =>
    let stage := w.check setup user_code wait fault
    ({ w with approvals := w.approvals ++ [⟨user_id, raw, nonce, refresh_token, stage⟩] },
      stage.answer.map (.approved w.approvals.length))
  | .advance i fault =>
    match w.approvals[i]? with
    | none => (w, none)
    | some a =>
      let (codes, account, stage) := w.advance setup a fault
      ({ w with codes, accounts := Function.update w.accounts a.user_id account, approvals := w.approvals.set i { a with stage } },
        if a.stage.answer.isSome then none else stage.answer.map (.approved i))
  | .poll device_code wait fault => (w, some (.polled device_code (w.poll setup device_code wait fault)))

/-- There is no code yet, and the users may have tokens. -/
def deviceMachine (setup : DeviceSetup) (clock : Int) (accounts : String → Account) :
    Machine DeviceWorld DeviceAct (Option DeviceAnswer) :=
  ⟨⟨clock, [], accounts, []⟩, DeviceWorld.step setup⟩

/-! ## The record of a run -/

/-- The code that the next step of an approval updates. -/
def ApproveStage.updates : ApproveStage → Option Nat
  | .updating record_id _ => some record_id
  | _ => none

/-- The token that the next step of an approval issues. -/
def ApproveStage.issues : ApproveStage → Option String
  | .issuing _ (.upserting token_plain _ _) => some token_plain
  | _ => none

/-- The next step of an approval writes the vault of its user. -/
def ApproveStage.stores : ApproveStage → Bool
  | .issuing _ (.putting (.encrypted _ _) _ _) => true
  | _ => false

/-- An approval has written the vault of its user, and has not ended. -/
def ApproveStage.written : ApproveStage → Bool
  | .issuing _ (.putting (.stored _ _) _ _) | .issuing _ (.selecting _ _) | .issuing _ (.upserting _ _ _) | .inserting _ _
  | .updating _ _ => true
  | _ => false

/-- Another approval of a user has written the vault, and has not ended. -/
def DeviceWorld.busy (w : DeviceWorld) (i : Nat) (user_id : String) : Bool :=
  (w.approvals.eraseIdx i).any fun a => decide (a.user_id = user_id) && a.stage.written

/-- Of a user: the token that was valid when the approvals began that write now, or have written last, and whether one of them has
succeeded. -/
structure UserRecord where
  kept : Option String
  succeeded : Bool

/-- How often each code was approved with success, which tokens were issued to whom, and the users. -/
structure DeviceRecord where
  approved : Nat → Nat
  issued : List (String × String)
  users : String → UserRecord

namespace DeviceRecord

def new : DeviceRecord := ⟨fun _ => 0, [], fun _ => ⟨none, false⟩⟩

/-- The next step of an approval succeeds. -/
def succeeds (setup : DeviceSetup) (r : DeviceRecord) (w : DeviceWorld) (i : Nat) (a : Approval) : DeviceRecord where
  approved record_id := if a.stage.updates = some record_id then r.approved record_id + 1 else r.approved record_id
  issued := r.issued ++ (a.stage.issues.map (a.user_id, ·)).toList
  users :=
    if a.stage.stores && !w.busy i a.user_id then
      Function.update r.users a.user_id ⟨(w.accounts a.user_id).valid (setup.account a.user_id), false⟩
    else if a.stage.updates.isSome then Function.update r.users a.user_id { r.users a.user_id with succeeded := true }
    else r.users

def note (setup : DeviceSetup) (r : DeviceRecord) (w : DeviceWorld) : DeviceAct → DeviceRecord
  | .advance i none =>
    match w.approvals[i]? with
    | none => r
    | some a => r.succeeds setup w i a
  | _ => r

end DeviceRecord

def watchedDevices (setup : DeviceSetup) (clock : Int) (accounts : String → Account) :
    Machine (DeviceWorld × DeviceRecord) DeviceAct (Option DeviceAnswer) :=
  (deviceMachine setup clock accounts).watched .new fun r w a => r.note setup w a

/-- A code was approved before it expired, and this token was issued to the user who is recorded. -/
structure DeviceCode.Granted (row : DeviceCode) (issued : List (String × String)) (access_token : String) : Prop where
  approved : row.status = .approved
  in_time : ∃ approved_at, row.approved_at = some approved_at ∧ approved_at ≤ row.expires_at
  issued : ∃ user_id, row.user_id = some user_id ∧ (user_id, access_token) ∈ issued

/-- An approval that ends leaves the codes, and what its user has: it has written nothing, or the token is valid that was valid before,
unless an approval of the same user has succeeded since or has yet to end. -/
structure DeviceWorld.Left (setup : DeviceSetup) (w w' : DeviceWorld) (r : DeviceRecord) (i : Nat) : Prop where
  codes : w'.codes = w.codes
  accounts : (w.approvals[i]?.any fun a => a.stage.written) = false → w'.accounts = w.accounts
  valid : ∀ a, w.approvals[i]? = some a → a.stage.written = true → w.busy i a.user_id = false → (r.users a.user_id).succeeded = false →
    ∀ token, (r.users a.user_id).kept = some token → (w'.accounts a.user_id).valid (setup.account a.user_id) = some token

/-- Each code is pending or was approved once; a poll that hands out a token does so for a code that was granted; and an approval that
ends with an error leaves the code pending, if none has succeeded, and what its user has. -/
structure DeviceGranted (setup : DeviceSetup) (clock : Int) (accounts : String → Account) (acts : List DeviceAct) : Prop where
  once : ∀ pre, pre <+: acts → ∀ record_id row, ((watchedDevices setup clock accounts).state pre).1.codes[record_id]? = some row →
    row.status = .pending ∧ ((watchedDevices setup clock accounts).state pre).2.approved record_id = 0 ∨
      row.status = .approved ∧ ((watchedDevices setup clock accounts).state pre).2.approved record_id = 1
  polled : ∀ pre a, pre ++ [a] <+: acts → ∀ device_code info,
    (watchedDevices setup clock accounts).out ((watchedDevices setup clock accounts).state pre) a = some (.polled device_code (.ok info)) →
    ∃ row ∈ ((watchedDevices setup clock accounts).state pre).1.codes, row.device_code = device_code ∧
      row.Granted ((watchedDevices setup clock accounts).state pre).2.issued info.access_token
  failed : ∀ pre a, pre ++ [a] <+: acts → ∀ i e,
    (watchedDevices setup clock accounts).out ((watchedDevices setup clock accounts).state pre) a = some (.approved i (.error e)) →
    DeviceWorld.Left setup ((watchedDevices setup clock accounts).state pre).1
      ((watchedDevices setup clock accounts).next ((watchedDevices setup clock accounts).state pre) a).1
      ((watchedDevices setup clock accounts).state pre).2 i

/-! ## What is asked of a run -/

/-- An approval of this user may fail after it has written: there was no token, or another approval has succeeded or has yet to end. -/
def DeviceWorld.MayFail (w : DeviceWorld) (r : DeviceRecord) (i : Nat) (user_id : String) : Prop :=
  (r.users user_id).kept = none ∨ (r.users user_id).succeeded = true ∨ w.busy i user_id = true

/-- An approval does not update a code that is not pending any more, and does not fail after it has written the vault of a user who had
a token. -/
def DeviceWorld.Orderly (w : DeviceWorld) (r : DeviceRecord) : DeviceAct → Prop
  | .advance i fault =>
    match w.approvals[i]? with
    | none => True
    | some a =>
      match a.stage, fault with
      | .issuing _ (.selecting _ _), fault => fault.isSome = true ∨ (w.accounts a.user_id).vault.row = none → w.MayFail r i a.user_id
      | .issuing _ (.upserting _ _ _), some _ | .inserting _ _, some _ | .updating _ _, some _ => w.MayFail r i a.user_id
      | .updating record_id _, none => (w.codes[record_id]?.any fun row => decide (row.status = .pending)) = true
      | _, _ => True
  | _ => True

/-! ## What a run keeps -/

variable {setup : DeviceSetup}

/-- The token that an approval carries was issued to its user; and no issue of it has ended unnoticed. -/
def ApproveStage.Backed (issued : List (String × String)) (user_id : String) : ApproveStage → Prop
  | .inserting _ access_token | .updating _ access_token => (user_id, access_token) ∈ issued
  | .issuing _ (.done _) | .issuing _ (.putting (.done _) _ _) => False
  | _ => True

/-- The token of an approved code was issued to its user, and the code was approved in the past. -/
def DeviceCode.Backed (issued : List (String × String)) (clock : Int) (row : DeviceCode) : Prop :=
  row.status = .approved → ∃ user_id approved_at access_token, row.user_id = some user_id ∧ row.approved_at = some approved_at ∧
    approved_at ≤ clock ∧ row.access_token = some access_token ∧ (user_id, access_token) ∈ issued

/-- In every run, what is handed out was issued. -/
structure DeviceWorld.Backed (w : DeviceWorld) (r : DeviceRecord) : Prop where
  codes : ∀ row ∈ w.codes, row.Backed r.issued w.clock
  approvals : ∀ a ∈ w.approvals, a.stage.Backed r.issued a.user_id

/-- Each code is pending or was approved once. -/
structure DeviceWorld.Once (w : DeviceWorld) (r : DeviceRecord) : Prop where
  codes : ∀ record_id row, w.codes[record_id]? = some row →
    row.status = .pending ∧ r.approved record_id = 0 ∨ row.status = .approved ∧ r.approved record_id = 1
  fresh : ∀ record_id, w.codes.length ≤ record_id → r.approved record_id = 0

theorem issue_not_done (account : AccountSetup) (raw : Bytes) (nonce : Nonce) (expires_at : Option Int) (fault : Option Fault)
    (record_id : Nat) (issued : List (String × String)) (user_id : String) :
    (DeviceWorld.issued record_id (Account.issue account raw nonce expires_at fault)).Backed issued user_id := by
  unfold Account.issue Vault.put
  cases fault with
  | some fault => trivial
  | none =>
    dsimp only
    cases Sops.encrypt account.cipher nonce (tokenPlain raw) <;> trivial

/-- A step of an approval carries a token that was issued. -/
theorem advance_backed (setup : DeviceSetup) {w : DeviceWorld} {r : DeviceRecord} (h : w.Backed r) {i : Nat} {a : Approval} (hi : w.approvals[i]? = some a)
    (fault : Option Fault) : (w.advance setup a fault).2.2.Backed (r.note setup w (.advance i fault)).issued a.user_id := by
  have hbacked := h.approvals a (List.mem_of_getElem? hi)
  have hissued : r.issued ⊆ (r.note setup w (.advance i fault)).issued := by
    unfold DeviceRecord.note
    cases fault with
    | some fault => exact List.Subset.refl _
    | none =>
      dsimp only
      rw [hi]
      exact List.subset_append_left _ _
  obtain ⟨user_id, raw, nonce, refresh_token, stage⟩ := a
  unfold DeviceWorld.advance
  cases stage with
  | checked record_id => exact issue_not_done _ _ _ _ _ _ _ _
  | inserting record_id access_token =>
    cases fault with
    | some fault => trivial
    | none => exact hissued hbacked
  | updating record_id access_token => cases fault <;> trivial
  | done answer => trivial
  | issuing record_id stage =>
    cases stage with
    | done answer => exact absurd hbacked id
    | putting stage token_plain expires_at =>
      cases stage with
      | done answer => exact absurd hbacked id
      | encrypted token encrypted => cases fault <;> trivial
      | stored token encrypted => cases fault <;> trivial
    | selecting token_plain expires_at =>
      cases fault with
      | some fault => trivial
      | none =>
        unfold Account.advanceIssue
        dsimp only
        cases (w.accounts user_id).vault.row <;> trivial
    | upserting token_plain expires_at token_id =>
      cases fault with
      | some fault => trivial
      | none =>
        unfold DeviceRecord.note
        dsimp only
        rw [hi]
        exact List.mem_append_right _ List.mem_cons_self

theorem check_backed (w : DeviceWorld) (user_code : String) (wait : Nat) (fault : Option Fault) (issued : List (String × String))
    (user_id : String) : (w.check setup user_code wait fault).Backed issued user_id := by
  unfold DeviceWorld.check
  cases fault with
  | some fault => trivial
  | none =>
    dsimp only
    cases w.codes.findIdx? fun row => decide (row.user_code = user_code) with
    | none => trivial
    | some record_id =>
      dsimp only
      cases w.codes[record_id]? with
      | none => trivial
      | some row =>
        dsimp only
        split_ifs <;> trivial

theorem DeviceCode.Backed.mono {issued issued' : List (String × String)} {clock clock' : Int} {row : DeviceCode}
    (h : row.Backed issued clock) (hissued : issued ⊆ issued') (hclock : clock ≤ clock') : row.Backed issued' clock' := by
  intro happroved
  obtain ⟨user_id, approved_at, access_token, huser, hat, hle, htoken, hmem⟩ := h happroved
  exact ⟨user_id, approved_at, access_token, huser, hat, hle.trans hclock, htoken, hissued hmem⟩

theorem ApproveStage.Backed.mono {issued issued' : List (String × String)} {user_id : String} {stage : ApproveStage}
    (h : stage.Backed issued user_id) (hissued : issued ⊆ issued') : stage.Backed issued' user_id := by
  unfold ApproveStage.Backed at h ⊢
  split at h <;> first | exact hissued h | exact absurd h id | trivial

/-- What a step does to the codes: an update approves one of them, for its user and with its token. -/
theorem advance_codes (setup : DeviceSetup) (w : DeviceWorld) (a : Approval) (fault : Option Fault) :
    (w.advance setup a fault).1 = w.codes ∧ (fault = none → a.stage.updates = none) ∨
      fault = none ∧ ∃ record_id access_token, a.stage = .updating record_id access_token ∧
        (w.advance setup a fault).1 = w.codes.modify record_id fun row => { row with
          status := .approved, user_id := some a.user_id, approved_at := some w.clock, access_token := some access_token,
          refresh_token := some a.refresh_token } := by
  obtain ⟨user_id, raw, nonce, refresh_token, stage⟩ := a
  unfold DeviceWorld.advance
  cases stage with
  | checked | issuing | done => exact Or.inl ⟨rfl, fun _ => rfl⟩
  | inserting record_id access_token => cases fault <;> exact Or.inl ⟨rfl, fun _ => rfl⟩
  | updating record_id access_token =>
    cases fault with
    | some fault => exact Or.inl ⟨rfl, fun hnone => absurd hnone (Option.some_ne_none _)⟩
    | none => exact Or.inr ⟨rfl, record_id, access_token, rfl, rfl⟩

theorem issueDeviceCode_cases (w : DeviceWorld) (device_code user_code : String) (fault : Option Fault) :
    w.issueDeviceCode device_code user_code fault = w.codes ∨
      ∃ expires_at, w.issueDeviceCode device_code user_code fault =
        w.codes ++ [⟨device_code, user_code, expires_at, .pending, none, none, none, none⟩] := by
  unfold DeviceWorld.issueDeviceCode
  split_ifs
  · exact Or.inl rfl
  · exact Or.inr ⟨_, rfl⟩

theorem note_issued (setup : DeviceSetup) (r : DeviceRecord) (w : DeviceWorld) (a : DeviceAct) : r.issued ⊆ (r.note setup w a).issued := by
  unfold DeviceRecord.note
  split
  · split
    · exact List.Subset.refl _
    · exact List.subset_append_left _ _
  · exact List.Subset.refl _

/-- Every step hands out only what was issued. -/
theorem DeviceWorld.Backed.step {w : DeviceWorld} {r : DeviceRecord} (h : w.Backed r) (a : DeviceAct) :
    (w.step setup a).1.Backed (r.note setup w a) := by
  have hissued := note_issued setup r w a
  cases a with
  | tick time =>
    exact ⟨fun row hrow => (h.codes row hrow).mono hissued (le_add_of_nonneg_right (Int.natCast_nonneg time)), h.approvals⟩
  | code device_code user_code fault =>
    refine ⟨fun row hrow => ?_, h.approvals⟩
    dsimp only [DeviceWorld.step] at hrow ⊢
    rcases issueDeviceCode_cases w device_code user_code fault with heq | ⟨expires_at, heq⟩
    · rw [heq] at hrow
      exact h.codes row hrow
    · rw [heq] at hrow
      rcases List.mem_append.mp hrow with hrow | hrow
      · exact h.codes row hrow
      · rw [List.mem_singleton.mp hrow]
        intro happroved
        cases happroved
  | approve user_id user_code refresh_token raw nonce wait fault =>
    refine ⟨h.codes, fun b hb => ?_⟩
    rcases List.mem_append.mp hb with hb | hb
    · exact h.approvals b hb
    · rw [List.mem_singleton.mp hb]
      exact check_backed w user_code wait fault r.issued user_id
  | poll device_code wait fault => exact h
  | advance i fault =>
    unfold DeviceWorld.step
    dsimp only
    cases hi : w.approvals[i]? with
    | none => exact ⟨fun row hrow => (h.codes row hrow).mono hissued le_rfl, fun b hb => (h.approvals b hb).mono hissued⟩
    | some a =>
      have hstage := advance_backed setup h hi fault
      refine ⟨fun row hrow => ?_, fun b hb => ?_⟩
      · dsimp only at hrow ⊢
        rcases advance_codes setup w a fault with ⟨heq, -⟩ | ⟨-, record_id, access_token, hupdating, heq⟩
        · rw [heq] at hrow
          exact (h.codes row hrow).mono hissued le_rfl
        · have hbacked := h.approvals a (List.mem_of_getElem? hi)
          rw [hupdating] at hbacked
          rw [heq] at hrow
          obtain ⟨j, hj⟩ := List.mem_iff_getElem?.mp hrow
          rw [List.getElem?_modify] at hj
          obtain ⟨row', hrow', hmodified⟩ := Option.map_eq_some_iff.mp hj
          split_ifs at hmodified
          · rw [← hmodified]
            exact fun _ => ⟨a.user_id, w.clock, access_token, rfl, rfl, le_rfl, rfl, hissued hbacked⟩
          · rw [← hmodified]
            exact (h.codes row' (List.mem_of_getElem? hrow')).mono hissued le_rfl
      · rcases List.mem_or_eq_of_mem_set hb with hb | rfl
        · exact (h.approvals b hb).mono hissued
        · exact hstage

theorem note_approved (setup : DeviceSetup) (r : DeviceRecord) {w : DeviceWorld} {i : Nat} {a : Approval} (hi : w.approvals[i]? = some a)
    (fault : Option Fault) (h : fault = none → a.stage.updates = none) :
    (r.note setup w (.advance i fault)).approved = r.approved := by
  unfold DeviceRecord.note
  cases fault with
  | some fault => rfl
  | none =>
    dsimp only
    rw [hi]
    unfold DeviceRecord.succeeds
    dsimp only
    rw [h rfl]
    rfl

section Once

variable {w w' : DeviceWorld} {r r' : DeviceRecord}

theorem DeviceWorld.Once.same (h : w.Once r) (hcodes : w'.codes = w.codes) (happroved : r'.approved = r.approved) : w'.Once r' := by
  refine ⟨fun record_id row hrow => ?_, fun record_id hlength => ?_⟩
  · rw [hcodes] at hrow
    rw [happroved]
    exact h.codes record_id row hrow
  · rw [hcodes] at hlength
    rw [happroved]
    exact h.fresh record_id hlength

theorem DeviceWorld.Once.issued (h : w.Once r) {row : DeviceCode} (hstatus : row.status = .pending) (hcodes : w'.codes = w.codes ++ [row]) :
    w'.Once r := by
  refine ⟨fun record_id row' hrow => ?_, fun record_id hlength => h.fresh record_id ?_⟩
  · rw [hcodes] at hrow
    rcases getElem?_snoc hrow with hrow | ⟨rfl, rfl⟩
    · exact h.codes record_id row' hrow
    · exact Or.inl ⟨hstatus, h.fresh _ le_rfl⟩
  · rw [hcodes, List.length_append] at hlength
    exact Nat.le_of_add_right_le hlength

theorem DeviceWorld.Once.approved (h : w.Once r) {record_id : Nat} {row : DeviceCode} (hrow : w.codes[record_id]? = some row)
    (hstatus : row.status = .pending) {approve : DeviceCode → DeviceCode} (happrove : ∀ row, (approve row).status = .approved)
    (hcodes : w'.codes = w.codes.modify record_id approve)
    (happroved : ∀ id, r'.approved id = if record_id = id then r.approved id + 1 else r.approved id) : w'.Once r' := by
  refine ⟨fun id row' hrow' => ?_, fun id hlength => ?_⟩
  · rw [hcodes, List.getElem?_modify] at hrow'
    rw [happroved id]
    obtain ⟨row'', hrow'', hmodified⟩ := Option.map_eq_some_iff.mp hrow'
    by_cases hid : record_id = id
    · subst hid
      obtain rfl := Option.some.inj (hrow''.symm.trans hrow)
      rw [if_pos rfl] at hmodified
      rw [← hmodified, if_pos rfl]
      rcases h.codes record_id row'' hrow with ⟨-, hcount⟩ | ⟨happroved', -⟩
      · exact Or.inr ⟨happrove row'', by rw [hcount]⟩
      · cases hstatus.symm.trans happroved'
    · rw [if_neg hid] at hmodified
      rw [← hmodified, if_neg hid]
      exact h.codes id row'' hrow''
  · rw [hcodes, List.length_modify] at hlength
    have hne : record_id ≠ id := by
      rintro rfl
      rw [List.getElem?_eq_none hlength] at hrow
      cases hrow
    rw [happroved id, if_neg hne]
    exact h.fresh id hlength

/-- Every step that is asked for approves only a pending code. -/
theorem DeviceWorld.Once.step (h : w.Once r) (a : DeviceAct) (horderly : w.Orderly r a) :
    (w.step setup a).1.Once (r.note setup w a) := by
  cases a with
  | tick | approve | poll => exact h.same rfl rfl
  | code device_code user_code fault =>
    rcases issueDeviceCode_cases w device_code user_code fault with heq | ⟨expires_at, heq⟩
    · exact h.same heq rfl
    · exact h.issued rfl heq
  | advance i fault =>
    unfold DeviceWorld.step
    unfold DeviceWorld.Orderly at horderly
    dsimp only at horderly ⊢
    cases hi : w.approvals[i]? with
    | none =>
      refine h.same rfl ?_
      unfold DeviceRecord.note
      cases fault with
      | some fault => rfl
      | none =>
        dsimp only
        rw [hi]
    | some a =>
      rw [hi] at horderly
      dsimp only at horderly ⊢
      rcases advance_codes setup w a fault with ⟨heq, hupdates⟩ | ⟨rfl, record_id, access_token, hupdating, heq⟩
      · exact h.same heq (note_approved setup r hi fault hupdates)
      · rw [hupdating] at horderly
        have hpending : (w.codes[record_id]?.any fun row => decide (row.status = .pending)) = true := horderly
        obtain ⟨row, hrow, hstatus⟩ := (Option.any_eq_true _ _).mp hpending
        refine h.approved hrow (of_decide_eq_true hstatus) ?_ heq fun id => ?_
        · intro row
          rfl
        · unfold DeviceRecord.note
          dsimp only
          rw [hi]
          unfold DeviceRecord.succeeds
          dsimp only
          rw [hupdating]
          exact if_congr (Option.some.injEq record_id id ▸ Iff.rfl) rfl rfl

end Once

/-- An approval that fails has written nothing, or may fail. -/
theorem advance_error {w : DeviceWorld} {r : DeviceRecord} {i : Nat} {a : Approval} (hi : w.approvals[i]? = some a)
    (hbacked : a.stage.Backed r.issued a.user_id) (hactive : a.stage.answer = none) {fault : Option Fault} {e : AdminError}
    (herror : (w.advance setup a fault).2.2 = .done (.error e)) (horderly : w.Orderly r (.advance i fault)) :
    (w.advance setup a fault).1 = w.codes ∧ (a.stage.written = false → (w.advance setup a fault).2.1 = w.accounts a.user_id) ∧
      (a.stage.written = true → w.MayFail r i a.user_id) := by
  obtain ⟨user_id, raw, nonce, refresh_token, stage⟩ := a
  unfold DeviceWorld.Orderly at horderly
  unfold DeviceWorld.advance at herror ⊢
  dsimp only at horderly herror hbacked hactive ⊢
  rw [hi] at horderly
  dsimp only at horderly
  cases stage with
  | checked record_id => exact ⟨rfl, fun _ => rfl, fun hwritten => absurd hwritten Bool.false_ne_true⟩
  | done answer => cases hactive
  | inserting record_id access_token =>
    cases fault with
    | some fault => exact ⟨rfl, fun _ => rfl, fun _ => horderly⟩
    | none => cases herror
  | updating record_id access_token =>
    cases fault with
    | some fault => exact ⟨rfl, fun _ => rfl, fun _ => horderly⟩
    | none => cases herror
  | issuing record_id stage =>
    cases stage with
    | done answer => exact absurd hbacked id
    | putting stage token_plain expires_at =>
      cases stage with
      | done answer => exact absurd hbacked id
      | stored token encrypted => cases fault <;> cases herror
      | encrypted token encrypted =>
        cases fault with
        | some fault => exact ⟨rfl, fun _ => rfl, fun hwritten => absurd hwritten Bool.false_ne_true⟩
        | none => cases herror
    | selecting token_plain expires_at =>
      refine ⟨rfl, fun hwritten => absurd hwritten.symm Bool.false_ne_true, fun _ => horderly ?_⟩
      cases fault with
      | some fault => exact Or.inl rfl
      | none =>
        unfold Account.advanceIssue at herror
        dsimp only at herror
        cases hrow : (w.accounts user_id).vault.row with
        | none => exact Or.inr rfl
        | some encrypted =>
          rw [hrow] at herror
          cases herror
    | upserting token_plain expires_at token_id =>
      cases fault with
      | some fault => exact ⟨rfl, fun _ => rfl, fun _ => horderly⟩
      | none => cases herror

/-- An approval that ends with an error leaves the codes, and what its user has. -/
theorem step_left {w : DeviceWorld} {r : DeviceRecord} (h : w.Backed r) (a : DeviceAct) (horderly : w.Orderly r a) {i : Nat}
    {e : AdminError} (hanswer : (w.step setup a).2 = some (.approved i (.error e))) : w.Left setup (w.step setup a).1 r i := by
  cases a with
  | tick | code => cases hanswer
  | poll device_code wait fault => cases Option.some.inj hanswer
  | approve user_id user_code refresh_token raw nonce wait fault =>
    obtain ⟨answer, -, heq⟩ := Option.map_eq_some_iff.mp hanswer
    obtain ⟨rfl, rfl⟩ := DeviceAnswer.approved.inj heq
    refine ⟨rfl, fun _ => rfl, fun a ha => ?_⟩
    rw [List.getElem?_eq_none le_rfl] at ha
    cases ha
  | advance j fault =>
    unfold DeviceWorld.step at hanswer ⊢
    dsimp only at hanswer ⊢
    cases hj : w.approvals[j]? with
    | none =>
      rw [hj] at hanswer
      cases hanswer
    | some a =>
      rw [hj] at hanswer
      dsimp only at hanswer ⊢
      split_ifs at hanswer with hactive
      obtain ⟨answer, hdone, heq⟩ := Option.map_eq_some_iff.mp hanswer
      obtain ⟨rfl, rfl⟩ := DeviceAnswer.approved.inj heq
      have herror : (w.advance setup a fault).2.2 = .done (.error e) := by
        generalize (w.advance setup a fault).2.2 = stage at hdone
        cases stage with
        | done answer => rw [Option.some.inj hdone]
        | checked | issuing | inserting | updating => cases hdone
      obtain ⟨hcodes, haccount, hfail⟩ := advance_error hj (h.approvals a (List.mem_of_getElem? hj))
        (Option.not_isSome_iff_eq_none.mp hactive) herror horderly
      refine ⟨hcodes, fun hwritten => ?_, fun b hb hwritten hbusy hsucceeded token hkept => ?_⟩
      · rw [hj, Option.any_some] at hwritten
        dsimp only
        rw [haccount hwritten, Function.update_eq_self]
      · obtain rfl := Option.some.inj (hj.symm.trans hb)
        rcases hfail hwritten with hnone | hsome | hother
        · rw [hnone] at hkept
          cases hkept
        · rw [hsucceeded] at hsome
          cases hsome
        · rw [hbusy] at hother
          cases hother

theorem poll_granted {w : DeviceWorld} {r : DeviceRecord} (h : w.Backed r) {device_code : String} {wait : Nat} {fault : Option Fault}
    {info : DeviceTokenInfo} (hpoll : w.poll setup device_code wait fault = .ok info) :
    ∃ row ∈ w.codes, row.device_code = device_code ∧ row.Granted r.issued info.access_token := by
  unfold DeviceWorld.poll at hpoll
  cases fault with
  | some fault => cases hpoll
  | none =>
    dsimp only at hpoll
    cases hfind : w.codes.find? fun row => decide (row.device_code = device_code) with
    | none =>
      rw [hfind] at hpoll
      cases hpoll
    | some row =>
      rw [hfind] at hpoll
      dsimp only at hpoll
      have hcode := List.find?_some hfind
      have hmem := List.mem_of_find?_eq_some hfind
      split_ifs at hpoll with hexpired
      cases hstatus : row.status with
      | pending | denied | other =>
        rw [hstatus] at hpoll
        cases hpoll
      | approved =>
        rw [hstatus] at hpoll
        obtain ⟨user_id, approved_at, access_token, huser, hat, hle, htoken, hissued⟩ := h.codes row hmem hstatus
        rw [htoken] at hpoll
        cases hrefresh : row.refresh_token with
        | none =>
          rw [hrefresh] at hpoll
          cases hpoll
        | some refresh_token =>
          rw [hrefresh] at hpoll
          obtain rfl := Except.ok.inj hpoll
          refine ⟨row, hmem, of_decide_eq_true hcode, hstatus, ⟨approved_at, hat, ?_⟩, user_id, huser, hissued⟩
          omega

theorem poll_of_polled {w : DeviceWorld} {a : DeviceAct} {device_code : String} {answer : Except AdminError DeviceTokenInfo}
    (h : (w.step setup a).2 = some (.polled device_code answer)) : ∃ wait fault, w.poll setup device_code wait fault = answer := by
  cases a with
  | tick | code => cases h
  | approve =>
    obtain ⟨_, -, heq⟩ := Option.map_eq_some_iff.mp h
    cases heq
  | advance i fault =>
    unfold DeviceWorld.step at h
    dsimp only at h
    cases hi : w.approvals[i]? with
    | none =>
      rw [hi] at h
      cases h
    | some a =>
      rw [hi] at h
      dsimp only at h
      split_ifs at h
      obtain ⟨_, -, heq⟩ := Option.map_eq_some_iff.mp h
      cases heq
  | poll device_code' wait fault =>
    obtain ⟨rfl, rfl⟩ := DeviceAnswer.polled.inj (Option.some.inj h)
    exact ⟨wait, fault, rfl⟩

/-- In every run, the tokens that carry over were issued. -/
theorem state_backed (setup : DeviceSetup) (clock : Int) (accounts : String → Account) (acts : List DeviceAct) :
    ((watchedDevices setup clock accounts).state acts).1.Backed ((watchedDevices setup clock accounts).state acts).2 :=
  Machine.invariant (M := watchedDevices setup clock accounts) (I := fun s => s.1.Backed s.2)
    ⟨fun _ hrow => absurd hrow List.not_mem_nil, fun _ ha => absurd ha List.not_mem_nil⟩ (fun _ a hs => hs.step a) acts

instance DeviceWorld.decidableOrderly (w : DeviceWorld) (r : DeviceRecord) (a : DeviceAct) : Decidable (w.Orderly r a) := by
  unfold DeviceWorld.Orderly DeviceWorld.MayFail
  rcases a with _ | _ | _ | ⟨i, fault⟩ | _ <;> dsimp only
  case advance =>
    generalize w.approvals[i]? = approval
    rcases approval with _ | ⟨user_id, raw, nonce, refresh_token, stage⟩ <;> dsimp only
    · infer_instance
    · rcases stage with _ | ⟨_, _ | _ | _ | _⟩ | _ | _ | _ <;> rcases fault with _ | _ <;> dsimp only <;> infer_instance
  all_goals infer_instance

def devices : DeviceSetup := ⟨digestAt aliceDigests, .ofTable aliceTokens, 1, fun _ => 1⟩

/-- Alice has the first token, and the others have none. -/
def aliceHasToken (user_id : String) : Account :=
  if user_id = "alice" then
    ⟨⟨(aliceTokens.head?).map fun row => row.1 ++ row.2.2, none⟩,
      some ⟨"2a926ac2771900d446877c2c590b5d3ef122da459860d0101b824b1ced866dbd", 1, none, none⟩⟩
  else ⟨⟨none, none⟩, none⟩

/-- Bob approves a code, and it is polled. -/
def bobApproves : List DeviceAct :=
  [.code "dev" "usr" none, .approve "bob" "usr" "refresh" (List.replicate 32 1) zeroNonce 0 none, .advance 0 none, .advance 0 none,
    .advance 0 none, .advance 0 none, .advance 0 none, .advance 0 none, .advance 0 none, .poll "dev" 0 none]

/-- Alice and Bob approve one code, and both have checked it before one of them updates it. -/
def bothApprove : List DeviceAct :=
  [.code "dev" "usr" none, .approve "alice" "usr" "refresh" (List.replicate 32 0) zeroNonce 0 none,
    .approve "bob" "usr" "refresh" (List.replicate 32 1) zeroNonce 0 none, .advance 0 none, .advance 0 none, .advance 0 none,
    .advance 0 none, .advance 0 none, .advance 0 none, .advance 0 none, .advance 1 none, .advance 1 none, .advance 1 none,
    .advance 1 none, .advance 1 none, .advance 1 none, .advance 1 none]

/-- Alice, who has a token, approves a code, and the insertion of the refresh token is next. -/
def aliceApproves : List DeviceAct :=
  [.code "dev" "usr" none, .approve "alice" "usr" "refresh" (List.replicate 32 1) zeroNonce 0 none, .advance 0 none, .advance 0 none,
    .advance 0 none, .advance 0 none, .advance 0 none]

end Admin

end Opsense
