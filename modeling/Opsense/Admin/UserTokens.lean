import Opsense.Admin.Account
import Opsense.Lib.Entries
import Opsense.Lib.Machine

/-!
# Issuing, revoking and verifying the token of a user

Any number of issues, revocations and verifications of one user, one statement at a time. An issue writes the token to the vault and its
hash to the user with two statements. When the second one fails, or the statements of two issues cross, the two disagree, and no token
is accepted. `token_revoke` answers success whether or not its statement has failed. Apart from this the token of the last issue is accepted until it expires or is revoked, and no other (`user_tokens_verify`).
-/

namespace Opsense

namespace Admin

structure AccountWorld where
  account : Account
  issues : List IssueStage
  checks : List CheckStage

inductive AccountAct
  | issue (raw : Bytes) (nonce : Nonce) (expires_at : Option Int) (fault : Option Fault)
  | advance (i : Nat) (fault : Option Fault)
  | revoke (now : Int) (fault : Option Fault)
  | tokenRevoke (token : String) (now : Int) (connection fault : Option Fault)
  | verify (token : String) (now : Int) (fault : Option Fault)
  | check (i : Nat) (fault : Option Fault)

/-- The answer of a verification that has ended. -/
def CheckStage.answer : CheckStage → Option (Except AdminError (Option String))
  | .done answer => some answer
  | .reading _ _ => none

/-- A step, with the answer of the verification that it ends. -/
def AccountWorld.step (setup : AccountSetup) (w : AccountWorld) : AccountAct → AccountWorld × Option (Nat × Except AdminError (Option String))
  | .issue raw nonce expires_at fault => ({ w with issues := w.issues ++ [Account.issue setup raw nonce expires_at fault] }, none)
  | .advance i fault =>
    match w.issues[i]? with
    | none => (w, none)
    | some stage =>
      let (account, stage) := w.account.advanceIssue setup fault stage
      ({ w with account, issues := w.issues.set i stage }, none)
  | .revoke now fault => ({ w with account := (w.account.revoke setup now fault).1 }, none)
  | .tokenRevoke token now connection fault =>
    match connection with
    | some _ => (w, none)
    | none => ({ w with account := w.account.tokenRevoke setup token now fault }, none)
  | .verify token now fault =>
    let stage := w.account.verify setup token now fault
    ({ w with checks := w.checks ++ [stage] }, stage.answer.map (w.checks.length, ·))
  | .check i fault =>
    match w.checks[i]? with
    | none => (w, none)
    | some stage =>
      let stage' := w.account.check setup fault stage
      ({ w with checks := w.checks.set i stage' }, if stage.answer.isSome then none else stage'.answer.map (i, ·))

def accountMachine (setup : AccountSetup) : Machine AccountWorld AccountAct (Option (Nat × Except AdminError (Option String))) :=
  ⟨⟨⟨⟨none, none⟩, none⟩, [], []⟩, AccountWorld.step setup⟩

/-! ## The record of a run -/

def IssueStage.ended : IssueStage → Bool
  | .done _ => true
  | _ => false

/-- No issue is in progress. -/
def AccountWorld.Idle (w : AccountWorld) : Prop := ∀ stage ∈ w.issues, stage.ended = true

instance (w : AccountWorld) : Decidable w.Idle := inferInstanceAs (Decidable (∀ stage ∈ w.issues, stage.ended = true))

/-- Of a verification: no issue was in progress during it, and its token was the one of the last successful issue, not expired and not
revoked, when it has begun. -/
structure CheckRecord where
  calm : Bool
  valid : Bool

/-- The token of the last successful issue and when it expires, whether a revocation of it was answered with success, and the
verifications. -/
structure TokenHistory where
  last : Option (String × Option Int)
  revoked : Bool
  checks : Nat → CheckRecord

namespace TokenHistory

def new : TokenHistory := ⟨none, false, fun _ => ⟨false, false⟩⟩

def valid (r : TokenHistory) (token : String) (now : Int) : Bool :=
  !r.revoked && r.last.any fun issued => decide (issued.1 = token) && !issued.2.any fun expires_at => decide (expires_at < now)

def note (setup : AccountSetup) (r : TokenHistory) (w : AccountWorld) : AccountAct → TokenHistory
  | .issue _ _ _ _ => { r with checks := fun i => { r.checks i with calm := false } }
  | .advance i fault =>
    match w.issues[i]?, fault with
    | some (.upserting token_plain expires_at _), none => { r with last := some (token_plain, expires_at.map formatDtForDb), revoked := false }
    | _, _ => r
  | .revoke now fault => { r with revoked := r.revoked || (w.account.revoke setup now fault).2.isOk }
  | .tokenRevoke token _ connection _ =>
    { r with revoked := r.revoked || (connection.isNone && r.last.any fun issued => decide (issued.1 = token)) }
  | .verify token now _ => { r with checks := Function.update r.checks w.checks.length ⟨decide w.Idle, r.valid token now⟩ }
  | .check _ _ => r

end TokenHistory

def watchedAccount (setup : AccountSetup) :
    Machine (AccountWorld × TokenHistory) AccountAct (Option (Nat × Except AdminError (Option String))) :=
  (accountMachine setup).watched .new fun r w a => r.note setup w a

/-- The failure that a step of a verification meets. -/
def AccountAct.fault : AccountAct → Option Fault
  | .verify _ _ fault | .check _ fault => fault
  | _ => none

/-- The vault has the text of the token that the user has the hash of. -/
def Account.Matched (setup : AccountSetup) (account : Account) : Prop :=
  ∀ row, account.user = some row → ∃ token, account.vault.Holds setup.cipher token ∧ row.token_hash = setup.sha256_hex token

/-- A verification during which no issue is in progress accepts exactly a valid token, unless a call of its own fails. -/
def CheckRecord.Right (setup : AccountSetup) (record : CheckRecord) (fault : Option Fault) (answer : Except AdminError (Option String)) :
    Prop :=
  record.calm = true → answer = .ok (if record.valid then some setup.user_id else none) ∨ fault.isSome = true ∧ ∃ e, answer = .error e

/-- Where no issue is in progress the vault and the user have the same token, and every verification answers as it should. -/
structure TokensVerify (setup : AccountSetup) (acts : List AccountAct) : Prop where
  matched : ∀ pre, pre <+: acts → ((accountMachine setup).state pre).Idle → ((accountMachine setup).state pre).account.Matched setup
  verified : ∀ pre a, pre ++ [a] <+: acts → ∀ i answer,
    (watchedAccount setup).out ((watchedAccount setup).state pre) a = some (i, answer) →
    CheckRecord.Right setup ((((watchedAccount setup).state pre).2.note setup ((watchedAccount setup).state pre).1 a).checks i) a.fault answer

/-! ## What is asked of a run -/

/-- The token that an issue has written to the vault and not to the user yet. -/
def IssueStage.holding : IssueStage → Option String
  | .putting (.stored _ _) token_plain _ | .selecting token_plain _ | .upserting token_plain _ _ => some token_plain
  | _ => none

/-- The vault has the token of an issue that has yet to write the user. -/
def IssueStage.Covers (cipher : Cipher) (vault : Vault) (stage : IssueStage) : Prop :=
  (stage.holding.any fun token => decide (vault.Holds cipher token)) = true

/-- Another issue has yet to write the user, and the vault has its token. -/
def AccountWorld.Covered (setup : AccountSetup) (w : AccountWorld) (i : Nat) : Prop :=
  ∃ stage ∈ w.issues.eraseIdx i, stage.Covers setup.cipher w.account.vault

/-- An issue writes the hash of the token that the vault has and does not fail before that, unless another issue is going to write what
the vault has; and `token_revoke` does not fail at its statement when there is something to revoke. -/
def AccountWorld.Orderly (setup : AccountSetup) (w : AccountWorld) : AccountAct → Prop
  | .advance i fault =>
    match w.issues[i]? with
    | some (.selecting _ _) => fault.isSome = true ∨ w.account.vault.row = none → w.account.Matched setup ∨ w.Covered setup i
    | some (.upserting token_plain _ _) =>
      if fault.isSome = true then w.account.Matched setup ∨ w.Covered setup i
      else w.account.vault.Holds setup.cipher token_plain ∨ w.Covered setup i
    | _ => True
  | .tokenRevoke token _ connection fault => connection = none → fault.isSome = true → ¬ w.account.Revocable setup token
  | _ => True

/-! ## What a run keeps -/

variable {setup : AccountSetup}

/-- What an issue carries is made of its token. -/
def IssueStage.Sound (setup : AccountSetup) : IssueStage → Prop
  | .putting (.encrypted token encrypted) token_plain _ | .putting (.stored token encrypted) token_plain _ =>
    token = token_plain ∧ Sops.decrypt setup.cipher encrypted = .ok token_plain
  | .putting (.done _) _ _ => False
  | .upserting _ _ token_id => token_id = setup.token_id
  | _ => True

/-- What the row of a user says of its token: the hash, when it expires, and whether it is revoked. -/
def UserRow.about (row : UserRow) : String × Option Int × Bool := (row.token_hash, row.expires_at, row.revoked_at.isSome)

/-- The vault and the user have the same token, but for issues in progress; and the user has the last token that was issued. -/
structure AccountWorld.Kept (setup : AccountSetup) (w : AccountWorld) (r : TokenHistory) : Prop where
  matched : w.account.Matched setup ∨ ∃ stage ∈ w.issues, stage.Covers setup.cipher w.account.vault
  sound : ∀ stage ∈ w.issues, stage.Sound setup
  token_id : ∀ row, w.account.user = some row → row.token_id = setup.token_id
  last : w.account.user.map UserRow.about = r.last.map fun issued => (setup.sha256_hex issued.1, issued.2, r.revoked)
  checks : ∀ i token token_id, w.checks[i]? = some (.reading token token_id) → (r.checks i).calm = true →
    w.Idle ∧ token_id = setup.token_id ∧ w.account.vault.Holds setup.cipher token ∧ (r.checks i).valid = true

theorem IssueStage.not_covers_of_ended {cipher : Cipher} {vault : Vault} {stage : IssueStage} (h : stage.ended = true) :
    ¬ stage.Covers cipher vault := by
  cases stage with
  | done answer => exact Bool.false_ne_true
  | putting | selecting | upserting => cases h

namespace AccountWorld.Kept

variable {w : AccountWorld} {r : TokenHistory} (h : w.Kept setup r)

include h

/-- Where no issue is in progress, the vault and the user have the same token. -/
theorem matched_of_idle (hidle : w.Idle) : w.account.Matched setup := by
  refine h.matched.resolve_right ?_
  rintro ⟨stage, hstage, hcovers⟩
  exact IssueStage.not_covers_of_ended (hidle stage hstage) hcovers

theorem replace {i : Nat} {stage stage' : IssueStage} (hi : w.issues[i]? = some stage) (hactive : stage.ended = false)
    {account' : Account} {r' : TokenHistory}
    (hmatched : account'.Matched setup ∨ stage'.Covers setup.cipher account'.vault ∨
      ∃ other ∈ w.issues.eraseIdx i, other.Covers setup.cipher account'.vault)
    (hsound : stage'.Sound setup) (htoken_id : ∀ row, account'.user = some row → row.token_id = setup.token_id)
    (hlast : account'.user.map UserRow.about = r'.last.map fun issued => (setup.sha256_hex issued.1, issued.2, r'.revoked))
    (hchecks : r'.checks = r.checks) : Kept setup ⟨account', w.issues.set i stage', w.checks⟩ r' where
  matched := by
    refine hmatched.imp_right ?_
    rintro (hcovers | ⟨other, hother, hcovers⟩)
    · exact ⟨stage', (mem_set_iff_eraseIdx hi stage' stage').mpr (Or.inl rfl), hcovers⟩
    · exact ⟨other, (mem_set_iff_eraseIdx hi stage' other).mpr (Or.inr hother), hcovers⟩
  sound := by
    intro other hother
    rcases (mem_set_iff_eraseIdx hi stage' other).mp hother with rfl | hother
    · exact hsound
    · exact h.sound other ((mem_iff_eraseIdx hi other).mpr (Or.inr hother))
  token_id := htoken_id
  last := hlast
  checks := by
    -- a verification during which no issue is in progress does not see this one
    intro j token token_id hj hcalm
    rw [hchecks] at hcalm
    have hended := (h.checks j token token_id hj hcalm).1 stage (List.mem_of_getElem? hi)
    rw [hactive] at hended
    cases hended

/-- An issue in progress has taken a step that changes neither the row of the vault nor the user. -/
theorem replace_same {i : Nat} {stage stage' : IssueStage} (hi : w.issues[i]? = some stage) (hactive : stage.ended = false)
    {cache : Option (Option String)} (hsound : stage'.Sound setup)
    (hcovers : stage.Covers setup.cipher w.account.vault → stage'.Covers setup.cipher w.account.vault ∨ w.account.Matched setup ∨
      w.Covered setup i) : Kept setup ⟨⟨⟨w.account.vault.row, cache⟩, w.account.user⟩, w.issues.set i stage', w.checks⟩ r := by
  refine h.replace hi hactive ?_ hsound h.token_id h.last rfl
  rcases h.matched with hmatched | ⟨other, hother, hcovers'⟩
  · exact Or.inl hmatched
  · rcases (mem_iff_eraseIdx hi other).mp hother with rfl | hother
    · rcases hcovers hcovers' with hcovers | hmatched | hcovered
      · exact Or.inr (Or.inl hcovers)
      · exact Or.inl hmatched
      · exact Or.inr (Or.inr hcovered)
    · exact Or.inr (Or.inr ⟨other, hother, hcovers'⟩)

theorem fails {i : Nat} {stage : IssueStage} (hi : w.issues[i]? = some stage) (hactive : stage.ended = false)
    (hmatched : w.account.Matched setup ∨ w.Covered setup i) (e : AdminError) :
    Kept setup ⟨w.account, w.issues.set i (.done (.error e)), w.checks⟩ r :=
  h.replace_same hi hactive trivial fun _ => Or.inr hmatched

theorem advance {i : Nat} {stage : IssueStage} (hi : w.issues[i]? = some stage) (fault : Option Fault)
    (horderly : w.Orderly setup (.advance i fault)) : Kept setup ⟨(w.account.advanceIssue setup fault stage).1,
      w.issues.set i (w.account.advanceIssue setup fault stage).2, w.checks⟩ (r.note setup w (.advance i fault)) := by
  have hsound := h.sound stage (List.mem_of_getElem? hi)
  unfold AccountWorld.Orderly at horderly
  unfold TokenHistory.note
  dsimp only at horderly ⊢
  rw [hi] at horderly ⊢
  cases stage with
  | done answer =>
    obtain ⟨hlength, hget⟩ := List.getElem?_eq_some_iff.mp hi
    have hset : w.issues.set i (.done answer) = w.issues := by rw [← hget, List.set_getElem_self]
    have hsame : (w.account.advanceIssue setup fault (.done answer)).2 = .done answer := rfl
    rw [hsame, hset]
    exact h
  | putting stage token_plain expires_at =>
    cases stage with
    | done answer => exact absurd hsound id
    | encrypted token encrypted =>
      obtain ⟨rfl, hdecrypt⟩ := hsound
      cases fault with
      | some fault => exact h.replace_same hi rfl trivial fun hcovers => absurd hcovers Bool.false_ne_true
      | none =>
        refine h.replace hi rfl (Or.inr (Or.inl ?_)) ⟨rfl, hdecrypt⟩ h.token_id h.last rfl
        exact decide_eq_true ⟨encrypted, rfl, hdecrypt⟩
    | stored token encrypted =>
      cases fault <;> exact h.replace_same hi rfl trivial Or.inl
  | selecting token_plain expires_at =>
    cases fault with
    | some fault => exact h.fails hi rfl (horderly (Or.inl rfl)) _
    | none =>
      unfold Account.advanceIssue
      dsimp only
      cases hrow : w.account.vault.row with
      | none => exact h.fails hi rfl (horderly (Or.inr hrow)) _
      | some encrypted => exact h.replace_same hi rfl rfl Or.inl
  | upserting token_plain expires_at token_id =>
    cases fault with
    | some fault => exact h.fails hi rfl horderly _
    | none =>
      refine h.replace hi rfl ?_ trivial ?_ rfl rfl
      · rcases horderly with hholds | hcovered
        · refine Or.inl fun row hrow => ?_
          obtain rfl := Option.some.inj hrow
          exact ⟨token_plain, hholds, rfl⟩
        · exact Or.inr (Or.inr hcovered)
      · intro row hrow
        obtain rfl := Option.some.inj hrow
        exact hsound

theorem begin_issue {stage : IssueStage} (hsound : stage.Sound setup) : Kept setup ⟨w.account, w.issues ++ [stage], w.checks⟩
    { r with checks := fun i => { r.checks i with calm := false } } where
  matched := by
    refine h.matched.imp_right ?_
    rintro ⟨other, hother, hcovers⟩
    exact ⟨other, List.mem_append_left _ hother, hcovers⟩
  sound := by
    intro other hother
    rcases List.mem_append.mp hother with hother | hother
    · exact h.sound other hother
    · rwa [List.mem_singleton.mp hother]
  token_id := h.token_id
  last := h.last
  checks := fun _ _ _ _ hcalm => absurd hcalm Bool.false_ne_true

/-- The last token, by the row of the user. -/
theorem last_none (huser : w.account.user = none) : r.last = none := by
  have hlast := h.last
  rw [huser] at hlast
  exact Option.map_eq_none_iff.mp hlast.symm

theorem last_some {row : UserRow} (huser : w.account.user = some row) : ∃ token expires_at, r.last = some (token, expires_at) ∧
    row.token_hash = setup.sha256_hex token ∧ row.expires_at = expires_at ∧ row.revoked_at.isSome = r.revoked := by
  have hlast := h.last
  rw [huser] at hlast
  obtain ⟨⟨token, expires_at⟩, hsome, habout⟩ := Option.map_eq_some_iff.mp hlast.symm
  obtain ⟨hhash, hrest⟩ := Prod.mk.inj habout
  obtain ⟨hexpires, hrevoked⟩ := Prod.mk.inj hrest
  exact ⟨token, expires_at, hsome, hhash.symm, hexpires.symm, hrevoked.symm⟩

/-- The row of the user is revoked or not, and so is the last token. -/
theorem with_user {user' : Option UserRow} {revoked : Bool}
    (hrows : ∀ row', user' = some row' → ∃ row, w.account.user = some row ∧ row'.token_hash = row.token_hash ∧
      row'.token_id = row.token_id)
    (hlast : user'.map UserRow.about = r.last.map fun issued => (setup.sha256_hex issued.1, issued.2, revoked)) :
    Kept setup ⟨⟨w.account.vault, user'⟩, w.issues, w.checks⟩ { r with revoked } where
  matched := by
    refine h.matched.imp_left fun hmatched row' hrow' => ?_
    obtain ⟨row, hrow, hhash, -⟩ := hrows row' hrow'
    obtain ⟨token, hholds, htoken⟩ := hmatched row hrow
    exact ⟨token, hholds, hhash.trans htoken⟩
  sound := h.sound
  token_id := by
    intro row' hrow'
    obtain ⟨row, hrow, -, hid⟩ := hrows row' hrow'
    rw [hid]
    exact h.token_id row hrow
  last := hlast
  checks := h.checks

theorem revoke (now : Int) (fault : Option Fault) : Kept setup ⟨(w.account.revoke setup now fault).1, w.issues, w.checks⟩
    (r.note setup w (.revoke now fault)) := by
  unfold TokenHistory.note
  dsimp only
  unfold Account.revoke
  cases fault with
  | some fault =>
    dsimp only
    rw [show (Except.error (fault.raise setup.tenant_id "") : Except AdminError Unit).isOk = false from rfl, Bool.or_false]
    exact h
  | none =>
    dsimp only
    cases huser : w.account.user with
    | none =>
      rw [Except.isOk, Except.toBool, Bool.or_false]
      exact h
    | some row =>
      refine h.with_user (fun row' hrow' => ?_) ?_
      · obtain rfl := Option.some.inj hrow'
        exact ⟨row, huser, rfl, rfl⟩
      · obtain ⟨token, expires_at, hlast, hhash, hexpires, -⟩ := h.last_some huser
        rw [hlast]
        unfold UserRow.about
        dsimp only [Option.map_some]
        rw [hhash, hexpires, Except.isOk, Except.toBool, Bool.or_true]
        rfl

/-- A token that cannot be revoked is revoked already, if it is the last one. -/
theorem revoked_of_not_revocable {token : String} (hnot : ¬ w.account.Revocable setup token) :
    (r.revoked || r.last.any fun issued => decide (issued.1 = token)) = r.revoked := by
  cases huser : w.account.user with
  | none => rw [h.last_none huser, Option.any_none, Bool.or_false]
  | some row =>
    obtain ⟨token', expires_at, hlast, hrow, -, hrevoked⟩ := h.last_some huser
    rw [hlast, Option.any_some]
    by_cases heq : token' = token
    · subst heq
      have hsome : row.revoked_at ≠ none := fun hnone => hnot ⟨row, huser, hrow, hnone⟩
      rw [← hrevoked, Option.isSome_iff_ne_none.mpr hsome, Bool.true_or]
    · rw [decide_eq_false heq, Bool.or_false]

theorem tokenRevoke (hhash : Function.Injective setup.sha256_hex) (token : String) (now : Int) (fault : Option Fault)
    (horderly : fault.isSome = true → ¬ w.account.Revocable setup token) :
    Kept setup ⟨w.account.tokenRevoke setup token now fault, w.issues, w.checks⟩ (r.note setup w (.tokenRevoke token now none fault)) := by
  unfold TokenHistory.note
  dsimp only [Option.isNone_none]
  rw [Bool.true_and]
  by_cases hmine : w.account.Revocable setup token
  · obtain rfl : fault = none := Option.not_isSome_iff_eq_none.mp fun hsome => horderly hsome hmine
    obtain ⟨row, huser, hrow, hnone⟩ := hmine
    obtain ⟨token', expires_at, hlast, hrow', hexpires, -⟩ := h.last_some huser
    obtain rfl : token' = token := hhash (hrow'.symm.trans hrow)
    unfold Account.tokenRevoke
    dsimp only
    rw [huser, Option.map_some, if_pos ⟨hrow, hnone⟩]
    refine h.with_user (fun row' hrow' => ?_) ?_
    · obtain rfl := Option.some.inj hrow'
      exact ⟨row, huser, rfl, rfl⟩
    · rw [hlast, Option.any_some, decide_eq_true rfl, Bool.or_true]
      unfold UserRow.about
      dsimp only [Option.map_some]
      rw [hrow, hexpires]
      rfl
  · rw [Account.tokenRevoke_of_not_revocable setup w.account hmine, h.revoked_of_not_revocable hmine]
    exact h

/-- What a verification reads of the user tells whether its token is valid. -/
theorem verify_cases (hhash : Function.Injective setup.sha256_hex) (token : String) (now : Int) :
    (w.account.verify setup token now none = .done (.ok none) ∧ r.valid token now = false) ∨
      ∃ row, w.account.user = some row ∧ row.token_hash = setup.sha256_hex token ∧
        w.account.verify setup token now none = .reading token row.token_id ∧ r.valid token now = true := by
  unfold Account.verify TokenHistory.valid
  dsimp only
  cases huser : w.account.user with
  | none =>
    rw [h.last_none huser, Option.any_none, Bool.and_false]
    exact Or.inl ⟨rfl, rfl⟩
  | some row =>
    obtain ⟨token', expires_at, hlast, hrow, hexpires, hrevoked⟩ := h.last_some huser
    rw [hlast, Option.any_some, Option.filter_some]
    dsimp only
    by_cases hsame : row.token_hash = setup.sha256_hex token
    · obtain rfl : token' = token := hhash (hrow.symm.trans hsame)
      rw [decide_eq_true hsame, decide_eq_true rfl, if_pos rfl, ← hexpires, ← hrevoked, Bool.true_and]
      dsimp only
      cases hexpired : row.expires_at.any fun expires_at => decide (expires_at < now) with
      | true =>
        rw [if_pos rfl, Bool.not_true, Bool.and_false]
        exact Or.inl ⟨rfl, rfl⟩
      | false =>
        rw [if_neg Bool.false_ne_true]
        cases row.revoked_at.isSome with
        | true => exact Or.inl ⟨rfl, rfl⟩
        | false => exact Or.inr ⟨row, rfl, hsame, rfl, rfl⟩
    · have hne : token' ≠ token := by
        rintro rfl
        exact hsame hrow
      rw [decide_eq_false hsame, decide_eq_false hne, Bool.false_and, Bool.and_false, if_neg Bool.false_ne_true]
      exact Or.inl ⟨rfl, rfl⟩

omit h in
theorem note_verify_self (token : String) (now : Int) (fault : Option Fault) :
    (r.note setup w (.verify token now fault)).checks w.checks.length = ⟨decide w.Idle, r.valid token now⟩ :=
  Function.update_self _ _ _

theorem verify (hhash : Function.Injective setup.sha256_hex) (token : String) (now : Int) (fault : Option Fault) :
    Kept setup ⟨w.account, w.issues, w.checks ++ [w.account.verify setup token now fault]⟩ (r.note setup w (.verify token now fault)) := by
  refine ⟨h.matched, h.sound, h.token_id, h.last, fun i token' token_id hi hcalm => ?_⟩
  dsimp only at hi
  rcases getElem?_snoc hi with hi | ⟨rfl, hnew⟩
  · have hne : i ≠ w.checks.length := (List.getElem?_eq_some_iff.mp hi).1.ne
    have hother : (r.note setup w (.verify token now fault)).checks i = r.checks i := Function.update_of_ne hne _ _
    rw [hother] at hcalm ⊢
    exact h.checks i token' token_id hi hcalm
  · rw [note_verify_self] at hcalm ⊢
    have hidle : w.Idle := of_decide_eq_true hcalm
    cases fault with
    | some fault => cases hnew
    | none =>
      rcases h.verify_cases hhash token now with ⟨hdone, -⟩ | ⟨row, huser, hrow, hreading, hvalid⟩
      · rw [hdone] at hnew
        cases hnew
      · rw [hreading] at hnew
        obtain ⟨rfl, rfl⟩ := CheckStage.reading.inj hnew
        obtain ⟨token'', hholds, hrow'⟩ := h.matched_of_idle hidle row huser
        obtain rfl : token'' = token' := hhash (hrow'.symm.trans hrow)
        exact ⟨hidle, h.token_id row huser, hholds, hvalid⟩

theorem verify_right (hhash : Function.Injective setup.sha256_hex) (token : String) (now : Int) (fault : Option Fault)
    {answer : Except AdminError (Option String)} (hanswer : (w.account.verify setup token now fault).answer = some answer) :
    CheckRecord.Right setup ⟨decide w.Idle, r.valid token now⟩ fault answer := by
  intro _
  cases fault with
  | some fault =>
    obtain rfl := Option.some.inj hanswer
    exact Or.inr ⟨rfl, _, rfl⟩
  | none =>
    rcases h.verify_cases hhash token now with ⟨hdone, hvalid⟩ | ⟨row, -, -, hreading, -⟩
    · rw [hdone] at hanswer
      obtain rfl := Option.some.inj hanswer
      rw [hvalid]
      exact Or.inl rfl
    · rw [hreading] at hanswer
      cases hanswer

theorem check {i : Nat} {stage : CheckStage} (hi : w.checks[i]? = some stage) (fault : Option Fault) :
    Kept setup ⟨w.account, w.issues, w.checks.set i (w.account.check setup fault stage)⟩ r := by
  refine ⟨h.matched, h.sound, h.token_id, h.last, fun j token token_id hj hcalm => ?_⟩
  dsimp only at hj
  by_cases hji : j = i
  · subst hji
    rw [List.getElem?_set_self (List.getElem?_eq_some_iff.mp hi).1] at hj
    have hended : ∃ answer, w.account.check setup fault stage = .done answer := by
      unfold Account.check
      cases stage with
      | done answer => exact ⟨answer, rfl⟩
      | reading token token_id =>
        dsimp only
        cases w.account.getById setup token_id fault with
        | error e => exact ⟨_, rfl⟩
        | ok stored =>
          dsimp only
          split_ifs <;> exact ⟨_, rfl⟩
    obtain ⟨answer, hanswer⟩ := hended
    rw [hanswer] at hj
    cases hj
  · rw [List.getElem?_set_ne (Ne.symm hji)] at hj
    exact h.checks j token token_id hj hcalm

theorem check_right {i : Nat} {token : String} {token_id : Int} (hi : w.checks[i]? = some (.reading token token_id)) (fault : Option Fault)
    {answer : Except AdminError (Option String)} (hanswer : (w.account.check setup fault (.reading token token_id)).answer = some answer) :
    (r.checks i).Right setup fault answer := by
  intro hcalm
  obtain ⟨-, rfl, ⟨encrypted, hrow, hdecrypt⟩, hvalid⟩ := h.checks i token token_id hi hcalm
  unfold Account.check at hanswer
  dsimp only at hanswer
  cases fault with
  | some fault =>
    obtain rfl := Option.some.inj hanswer
    exact Or.inr ⟨rfl, _, rfl⟩
  | none =>
    have hread : w.account.getById setup setup.token_id none = .ok token := by
      unfold Account.getById
      dsimp only
      rw [hrow, Option.filter_some, if_pos (decide_eq_true rfl)]
      dsimp only
      rw [hdecrypt]
      rfl
    rw [hread] at hanswer
    dsimp only at hanswer
    rw [if_pos rfl] at hanswer
    obtain rfl := Option.some.inj hanswer
    rw [hvalid]
    exact Or.inl rfl

end AccountWorld.Kept

theorem issue_sound (hcipher : setup.cipher.Correct) (raw : Bytes) (nonce : Nonce) (expires_at : Option Int) (fault : Option Fault) :
    (Account.issue setup raw nonce expires_at fault).Sound setup := by
  unfold Account.issue Vault.put
  cases fault with
  | some fault => trivial
  | none =>
    dsimp only
    cases hencrypt : Sops.encrypt setup.cipher nonce (tokenPlain raw) with
    | error e => trivial
    | ok encrypted => exact ⟨rfl, Sops.decrypt_encrypt hcipher hencrypt⟩

/-- Every step that is asked for keeps what a run keeps. -/
theorem AccountWorld.Kept.step (hcipher : setup.cipher.Correct) (hhash : Function.Injective setup.sha256_hex) {w : AccountWorld}
    {r : TokenHistory} (h : w.Kept setup r) (a : AccountAct) (horderly : w.Orderly setup a) :
    (w.step setup a).1.Kept setup (r.note setup w a) := by
  cases a with
  | issue raw nonce expires_at fault => exact h.begin_issue (issue_sound hcipher raw nonce expires_at fault)
  | advance i fault =>
    cases hi : w.issues[i]? with
    | none =>
      unfold AccountWorld.step TokenHistory.note
      dsimp only
      rw [hi]
      exact h
    | some stage =>
      have hkept := h.advance hi fault horderly
      unfold AccountWorld.step
      dsimp only
      rw [hi]
      exact hkept
  | revoke now fault => exact h.revoke now fault
  | tokenRevoke token now connection fault =>
    cases connection with
    | some connection =>
      unfold TokenHistory.note
      dsimp only [Option.isNone_some]
      rw [Bool.false_and, Bool.or_false]
      exact h
    | none => exact h.tokenRevoke hhash token now fault (horderly rfl)
  | verify token now fault => exact h.verify hhash token now fault
  | check i fault =>
    unfold AccountWorld.step
    dsimp only
    cases hi : w.checks[i]? with
    | none => exact h
    | some stage => exact h.check hi fault

/-- Every verification answers as it should. -/
theorem AccountWorld.Kept.right (hhash : Function.Injective setup.sha256_hex) {w : AccountWorld} {r : TokenHistory} (h : w.Kept setup r)
    (a : AccountAct) {i : Nat} {answer : Except AdminError (Option String)} (hanswer : (w.step setup a).2 = some (i, answer)) :
    ((r.note setup w a).checks i).Right setup a.fault answer := by
  cases a with
  | issue | revoke => cases hanswer
  | tokenRevoke token now connection fault => cases connection <;> cases hanswer
  | advance j fault =>
    unfold AccountWorld.step at hanswer
    dsimp only at hanswer
    cases hj : w.issues[j]? with
    | none =>
      rw [hj] at hanswer
      cases hanswer
    | some stage =>
      rw [hj] at hanswer
      cases hanswer
  | verify token now fault =>
    obtain ⟨answer', hdone, heq⟩ := Option.map_eq_some_iff.mp hanswer
    obtain ⟨rfl, rfl⟩ := Prod.mk.inj heq
    rw [note_verify_self]
    exact h.verify_right hhash token now fault hdone
  | check j fault =>
    unfold AccountWorld.step at hanswer
    dsimp only at hanswer
    cases hj : w.checks[j]? with
    | none =>
      rw [hj] at hanswer
      cases hanswer
    | some stage =>
      rw [hj] at hanswer
      dsimp only at hanswer
      split_ifs at hanswer with hactive
      obtain ⟨answer', hdone, heq⟩ := Option.map_eq_some_iff.mp hanswer
      obtain ⟨rfl, rfl⟩ := Prod.mk.inj heq
      cases stage with
      | done answer => exact absurd rfl hactive
      | reading token token_id => exact h.check_right hj fault hdone

theorem matched_iff (account : Account) : (account.user.all fun row => (account.vault.plain setup.cipher).any fun token =>
    decide (row.token_hash = setup.sha256_hex token)) = true ↔ account.Matched setup := by
  rw [Option.all_eq_true]
  refine forall_congr' fun row => imp_congr_right fun _ => ?_
  rw [Option.any_eq_true]
  exact exists_congr fun token => and_congr Vault.plain_eq_some decide_eq_true_iff

instance (account : Account) : Decidable (account.Matched setup) := decidable_of_iff _ (matched_iff account)

instance AccountWorld.decidableOrderly (w : AccountWorld) (a : AccountAct) : Decidable (w.Orderly setup a) := by
  unfold AccountWorld.Orderly AccountWorld.Covered IssueStage.Covers
  (repeat' split) <;> infer_instance

/-- Two tokens and their digests. -/
def aliceDigests : List (String × String) :=
  [(tokenPlain (List.replicate 32 0), "2a926ac2771900d446877c2c590b5d3ef122da459860d0101b824b1ced866dbd"),
    (tokenPlain (List.replicate 32 1), "cd8e17b1f091fba6a747daaf80783f2c740ca958aad738eafd1563b4f3e33561")]

/-- The two tokens, encrypted with the key of 32 zeros. -/
def aliceTokens : List (Bytes × Bytes × Bytes) :=
  [(zeroNonce.1, intoBytes (tokenPlain (List.replicate 32 0)),
      [175, 197, 52, 98, 125, 80, 91, 94, 55, 126, 245, 227, 138, 195, 173, 40, 66, 80, 51, 250, 7, 150, 26, 68, 225, 146, 197, 190, 69,
        54, 5, 190, 237, 122, 129, 24, 125, 122, 209, 75, 113, 216, 105, 20, 119, 60, 6, 199, 119, 113, 251, 209, 177, 139, 79, 0, 81,
        76, 45, 211, 155, 60, 10, 47, 224, 244, 191, 67, 123, 105, 237, 98, 25, 94, 21, 82, 93, 228, 109, 226, 119, 121, 77, 88]),
    (zeroNonce.1, intoBytes (tokenPlain (List.replicate 32 1)),
      [175, 197, 52, 98, 125, 81, 91, 95, 55, 127, 245, 226, 138, 194, 173, 41, 66, 81, 51, 251, 7, 151, 26, 69, 225, 147, 197, 191, 69,
        55, 5, 191, 237, 123, 129, 25, 125, 123, 209, 74, 113, 217, 105, 21, 119, 61, 6, 198, 119, 112, 251, 208, 177, 138, 79, 1, 81,
        77, 45, 210, 155, 61, 10, 46, 224, 245, 191, 66, 140, 136, 46, 160, 199, 23, 155, 194, 128, 89, 109, 95, 29, 184, 41, 202])]

/-- Alice is a user of tenant 1, and the row of her service has the id 1. -/
def alice : AccountSetup := ⟨digestAt aliceDigests, .ofTable aliceTokens, 1, "alice", 1⟩

theorem alice_cipher_correct : alice.cipher.Correct := Cipher.ofTable_correct (by decide +kernel)

theorem alice_digests_injective : Function.Injective alice.sha256_hex :=
  digestAt_injective (by decide +kernel) (by decide +kernel)

/-- A token is issued, verified, and revoked through `token_revoke`. -/
def aliceRevokes : List AccountAct :=
  [.issue (List.replicate 32 0) zeroNonce none none, .advance 0 none, .advance 0 none, .advance 0 none, .advance 0 none,
    .verify (tokenPlain (List.replicate 32 0)) 5 none, .check 0 none, .tokenRevoke (tokenPlain (List.replicate 32 0)) 6 none none,
    .verify (tokenPlain (List.replicate 32 0)) 7 none]

/-- A token is issued; another issue fails when it writes the user; and the first token is verified. -/
def aliceIssueFails : List AccountAct :=
  [.issue (List.replicate 32 0) zeroNonce none none, .advance 0 none, .advance 0 none, .advance 0 none, .advance 0 none,
    .issue (List.replicate 32 1) zeroNonce none none, .advance 1 none, .advance 1 none, .advance 1 none,
    .advance 1 (some (.sqlx "connection reset")), .verify (tokenPlain (List.replicate 32 0)) 5 none]

end Admin

end Opsense
