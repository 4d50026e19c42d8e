import Opsense.Admin.Vault
import Opsense.Lib.Entries
import Opsense.Lib.Machine

/-!
# The token cache and the database

Any number of gets and puts of one service, one step at a time. A get caches that there is no token before it asks the database, and
takes that back only at its end; so another get, or every later one when the first fails, is told that the service is not found. A get
that was slow caches the token it has read after a put has cached the next one, and two puts may cache in the other order than they
store. Apart from this a get answers the token of the last put (`tokens_coherent`).
-/

namespace Opsense

namespace Admin

inductive TokenOp
  | get (stage : GetStage)
  | put (stage : PutStage)

structure TokenWorld where
  vault : Vault
  ops : List TokenOp

inductive TokenAct
  | get
  | put (token_plain : String) (nonce : Nonce) (fault : Option Fault)
  | advance (i : Nat) (fault : Option Fault)
  | evict

/-- The answer of a get that has ended. -/
def GetStage.answer : GetStage → Option (Except AdminError String)
  | .done answer => some answer
  | _ => none

variable (cipher : Cipher) (tenant_id : Int) (service_name : String)

/-- A step, with the answer of the get that it ends. -/
def TokenWorld.step (w : TokenWorld) : TokenAct → TokenWorld × Option (Nat × Except AdminError String)
  | .get =>
    let stage := w.vault.get tenant_id service_name
    (⟨w.vault, w.ops ++ [.get stage]⟩, stage.answer.map (w.ops.length, ·))
  | .put token_plain nonce fault => (⟨w.vault, w.ops ++ [.put (Vault.put cipher tenant_id token_plain nonce fault)]⟩, none)
  | .advance i fault =>
    match w.ops[i]? with
    | none => (w, none)
    | some (.get stage) =>
      let (vault, stage') := w.vault.advanceGet cipher tenant_id service_name fault stage
      (⟨vault, w.ops.set i (.get stage')⟩, if stage.answer.isSome then none else stage'.answer.map (i, ·))
    | some (.put stage) =>
      let (vault, stage') := w.vault.advancePut tenant_id fault stage
      (⟨vault, w.ops.set i (.put stage')⟩, none)
  | .evict => (⟨{ w.vault with cache := none }, w.ops⟩, none)

/-- The service may have a token, and nothing is cached. -/
def tokenMachine (row : Option Bytes) : Machine TokenWorld TokenAct (Option (Nat × Except AdminError String)) :=
  ⟨⟨⟨row, none⟩, []⟩, TokenWorld.step cipher tenant_id service_name⟩

/-! ## The record of a run -/

/-- The token that a put has stored and has not cached yet. -/
def TokenOp.storing : TokenOp → Option Bytes
  | .put (.stored _ encrypted) => some encrypted
  | _ => none

/-- A get between what it caches first and its end, or a put between its statement and its end. -/
def TokenOp.inWindow : TokenOp → Bool
  | .get .selecting | .get (.decrypting _) | .put (.stored _ _) => true
  | _ => false

/-- Of a get: the database had no token at some moment of it, and the token of the last put before it, when none is stored since. -/
structure GetRecord where
  absent : Bool
  expects : Option String

/-- The token of the put that has ended last, when none is stored since, and the gets. -/
structure TokenRecord where
  settled : Option String
  gets : Nat → GetRecord

namespace TokenRecord

def saw (r : TokenRecord) (w : TokenWorld) : TokenRecord :=
  { r with gets := fun i => { r.gets i with absent := (r.gets i).absent || w.vault.row.isNone } }

def begins (r : TokenRecord) (w : TokenWorld) : TokenRecord :=
  { r with gets := Function.update r.gets w.ops.length ⟨w.vault.row.isNone, r.settled⟩ }

def stores (r : TokenRecord) : TokenRecord := ⟨none, fun i => { r.gets i with expects := none }⟩

def ends (r : TokenRecord) (w : TokenWorld) (i : Nat) (token_plain : String) : TokenRecord :=
  { r with settled := if (w.ops.eraseIdx i).any (·.storing.isSome) then none else some token_plain }

def note (r : TokenRecord) (w : TokenWorld) : TokenAct → TokenRecord
  | .get => (r.saw w).begins w
  | .advance i fault =>
    match w.ops[i]?, fault with
    | some (.put (.encrypted _ _)), none => (r.saw w).stores
    | some (.put (.stored token_plain _)), _ => (r.saw w).ends w i token_plain
    | _, _ => r.saw w
  | .put _ _ _ | .evict => r.saw w

end TokenRecord

/-- Before a run. -/
def TokenRecord.new : TokenRecord := ⟨none, fun _ => ⟨false, none⟩⟩

def watchedTokens (row : Option Bytes) : Machine (TokenWorld × TokenRecord) TokenAct (Option (Nat × Except AdminError String)) :=
  (tokenMachine cipher tenant_id service_name row).watched .new fun r w a => r.note w a

/-- What a get may answer: the token of the last put, unless a call of its own fails, and that the service is not found only when the
database had no token at some moment. -/
structure Coherent (record : GetRecord) (a : TokenAct) (answer : Except AdminError String) : Prop where
  latest : ∀ token, record.expects = some token →
    answer = .ok token ∨ ∃ i fault, a = .advance i (some fault) ∧ answer = .error (fault.raise tenant_id "Decrypt")
  found : answer = .error (notFoundService tenant_id service_name) → record.absent = true

/-- Every get of a run answers as it may. -/
def TokensCoherent (row : Option Bytes) (acts : List TokenAct) : Prop :=
  ∀ pre a, pre ++ [a] <+: acts → ∀ i answer,
    (watchedTokens cipher tenant_id service_name row).out ((watchedTokens cipher tenant_id service_name row).state pre) a = some (i, answer) →
    Coherent tenant_id service_name
      ((((watchedTokens cipher tenant_id service_name row).state pre).2.note
        ((watchedTokens cipher tenant_id service_name row).state pre).1 a).gets i) a answer

/-! ## What is asked of a run -/

/-- The token that an operation caches is stored, or a put that has stored another is going to cache that one. -/
def TokenWorld.Current (w : TokenWorld) (i : Nat) (encrypted : Bytes) : Prop :=
  w.vault.row = some encrypted ∨ ∃ op ∈ w.ops.eraseIdx i, op.storing.isSome = true ∧ op.storing = w.vault.row

/-- A get that fails does not leave behind that there is no token when there is one, unless another operation is going to correct it. -/
def TokenWorld.Mended (w : TokenWorld) (i : Nat) : Prop :=
  w.vault.cache = some none → w.vault.row = none ∨ ∃ op ∈ w.ops.eraseIdx i, op.inWindow = true

/-- No get looks in the cache while another operation has yet to correct what it finds there, a get that fails leaves nothing to correct,
and nothing is cached that was replaced. -/
def TokenWorld.Orderly (w : TokenWorld) : TokenAct → Prop
  | .get => w.vault.cache = some none → w.vault.row = none ∨ ∀ op ∈ w.ops, op.inWindow = false
  | .advance i fault =>
    match w.ops[i]?, fault with
    | some (.get .selecting), some _ => w.Mended i
    | some (.get (.decrypting _)), some _ => w.Mended i
    | some (.get (.decrypting encrypted)), none =>
      match Sops.decrypt cipher encrypted with
      | .error _ => w.Mended i
      | .ok _ => w.Current i encrypted
    | some (.put (.stored _ encrypted)), _ => w.Current i encrypted
    | _, _ => True
  | .put _ _ _ | .evict => True

/-! ## What a run keeps -/

variable {cipher tenant_id service_name}

theorem TokenOp.put_ne_get (stage : PutStage) (stage' : GetStage) : TokenOp.put stage ≠ .get stage' := by
  intro h
  cases h

/-- A put encrypts its token. -/
def TokenOp.Encrypts (cipher : Cipher) : TokenOp → Prop
  | .put (.encrypted token_plain encrypted) | .put (.stored token_plain encrypted) => Sops.decrypt cipher encrypted = .ok token_plain
  | _ => True

/-- What a get has read is this token. -/
def GetStage.Reads (cipher : Cipher) (token : String) : GetStage → Prop
  | .decrypting encrypted_bytes => Sops.decrypt cipher encrypted_bytes = .ok token
  | _ => True

/-- A put has stored what the database holds. -/
def TokenOp.Stored (row : Option Bytes) (op : TokenOp) : Prop := op.storing.isSome = true ∧ op.storing = row

/-- What is cached is what the database holds, but for operations in their windows; and a get that expects a token has read no other. -/
structure TokenWorld.Kept (cipher : Cipher) (w : TokenWorld) (r : TokenRecord) : Prop where
  negative : w.vault.cache = some none → w.vault.row = none ∨ ∃ op ∈ w.ops, op.inWindow = true
  positive : ∀ token, w.vault.cache = some (some token) → w.vault.Holds cipher token ∨ ∃ op ∈ w.ops, op.Stored w.vault.row
  puts : ∀ op ∈ w.ops, op.Encrypts cipher
  settled : ∀ token, r.settled = some token → w.vault.Holds cipher token ∧ ∀ op ∈ w.ops, op.storing = none
  gets : ∀ i stage, w.ops[i]? = some (.get stage) → stage.answer = none → ∀ token, (r.gets i).expects = some token →
    r.settled = some token ∧ stage.Reads cipher token

namespace TokenWorld.Kept

variable {w : TokenWorld} {r : TokenRecord} (h : w.Kept cipher r)

include h

theorem begin_op (op : TokenOp) (hencrypts : op.Encrypts cipher) (hstoring : op.storing = none) {r' : TokenRecord}
    (hsettled : r'.settled = r.settled) (hgets : ∀ i ≠ w.ops.length, (r'.gets i).expects = (r.gets i).expects)
    (hop : ∀ stage, op = .get stage → stage.answer = none → (∀ token, stage.Reads cipher token) ∧
      (r'.gets w.ops.length).expects = r.settled) : Kept cipher ⟨w.vault, w.ops ++ [op]⟩ r' where
  negative := by
    intro hcache
    refine (h.negative hcache).imp_right ?_
    rintro ⟨op', hop', hwindow⟩
    exact ⟨op', List.mem_append_left _ hop', hwindow⟩
  positive := by
    intro token hcache
    refine (h.positive token hcache).imp_right ?_
    rintro ⟨op', hop', hstored⟩
    exact ⟨op', List.mem_append_left _ hop', hstored⟩
  puts := by
    intro op' hop'
    rcases List.mem_append.mp hop' with hop' | hop'
    · exact h.puts op' hop'
    · rwa [List.mem_singleton.mp hop']
  settled := by
    intro token htoken
    rw [hsettled] at htoken
    refine ⟨(h.settled token htoken).1, fun op' hop' => ?_⟩
    rcases List.mem_append.mp hop' with hop' | hop'
    · exact (h.settled token htoken).2 op' hop'
    · rwa [List.mem_singleton.mp hop']
  gets := by
    intro i stage hi hanswer token htoken
    dsimp only at hi
    rw [hsettled]
    rcases getElem?_snoc hi with hi | ⟨rfl, hnew⟩
    · rw [hgets i (List.getElem?_eq_some_iff.mp hi).1.ne] at htoken
      exact h.gets i stage hi hanswer token htoken
    · obtain ⟨hreads, hexpects⟩ := hop stage hnew.symm hanswer
      exact ⟨hexpects.symm.trans htoken, hreads token⟩

variable {i : Nat}

theorem replace {op op' : TokenOp} (hi : w.ops[i]? = some op) {vault' : Vault} {r' : TokenRecord}
    (hnegative : vault'.cache = some none → vault'.row = none ∨ op'.inWindow = true ∨ ∃ other ∈ w.ops.eraseIdx i, other.inWindow = true)
    (hpositive : ∀ token, vault'.cache = some (some token) → vault'.Holds cipher token ∨ op'.Stored vault'.row ∨ ∃ other ∈ w.ops.eraseIdx i, other.Stored vault'.row)
    (hencrypts : op'.Encrypts cipher)
    (hsettled : ∀ token, r'.settled = some token → vault'.Holds cipher token ∧ op'.storing = none ∧ ∀ other ∈ w.ops.eraseIdx i, other.storing = none)
    (hop : ∀ stage, op' = .get stage → stage.answer = none → ∀ token, (r'.gets i).expects = some token → r'.settled = some token ∧ stage.Reads cipher token)
    (hgets : ∀ j stage, j ≠ i → w.ops[j]? = some (.get stage) → stage.answer = none → ∀ token, (r'.gets j).expects = some token → r'.settled = some token ∧ stage.Reads cipher token) :
    Kept cipher ⟨vault', w.ops.set i op'⟩ r' where
  negative := by
    intro hcache
    refine (hnegative hcache).imp_right ?_
    rintro (hwindow | ⟨other, hother, hwindow⟩)
    · exact ⟨op', (mem_set_iff_eraseIdx hi op' op').mpr (Or.inl rfl), hwindow⟩
    · exact ⟨other, (mem_set_iff_eraseIdx hi op' other).mpr (Or.inr hother), hwindow⟩
  positive := by
    intro token hcache
    refine (hpositive token hcache).imp_right ?_
    rintro (hstored | ⟨other, hother, hstored⟩)
    · exact ⟨op', (mem_set_iff_eraseIdx hi op' op').mpr (Or.inl rfl), hstored⟩
    · exact ⟨other, (mem_set_iff_eraseIdx hi op' other).mpr (Or.inr hother), hstored⟩
  puts := by
    intro other hother
    rcases (mem_set_iff_eraseIdx hi op' other).mp hother with rfl | hother
    · exact hencrypts
    · exact h.puts other ((mem_iff_eraseIdx hi other).mpr (Or.inr hother))
  settled := by
    intro token htoken
    obtain ⟨hholds, hstoring, hothers⟩ := hsettled token htoken
    refine ⟨hholds, fun other hother => ?_⟩
    rcases (mem_set_iff_eraseIdx hi op' other).mp hother with rfl | hother
    · exact hstoring
    · exact hothers other hother
  gets := by
    intro j stage hj hanswer token htoken
    dsimp only at hj
    by_cases hji : j = i
    · subst hji
      rw [List.getElem?_set_self (List.getElem?_eq_some_iff.mp hi).1] at hj
      exact hop stage (Option.some.inj hj) hanswer token htoken
    · rw [List.getElem?_set_ne (Ne.symm hji)] at hj
      exact hgets j stage hji hj hanswer token htoken

variable {stage : GetStage}

omit h in
/-- What a put has stored is stored by another operation than a get. -/
theorem stored_others (hi : w.ops[i]? = some (.get stage)) (hstored : ∃ op ∈ w.ops, op.Stored w.vault.row) :
    ∃ other ∈ w.ops.eraseIdx i, other.Stored w.vault.row := by
  obtain ⟨op, hop, hstored⟩ := hstored
  rcases (mem_iff_eraseIdx hi op).mp hop with rfl | hop
  · exact absurd hstored.1 Bool.false_ne_true
  · exact ⟨op, hop, hstored⟩

theorem replace_get {stage stage' : GetStage} (hi : w.ops[i]? = some (.get stage)) {vault' : Vault} (hrow : vault'.row = w.vault.row)
    (hnegative : vault'.cache = some none → vault'.row = none ∨ (TokenOp.get stage').inWindow = true ∨ ∃ other ∈ w.ops.eraseIdx i, other.inWindow = true)
    (hpositive : ∀ token, vault'.cache = some (some token) → w.vault.cache = some (some token) ∨ vault'.Holds cipher token ∨ ∃ other ∈ w.ops.eraseIdx i, other.Stored vault'.row)
    (hreads : stage'.answer = none → stage.answer = none ∧ ∀ token, (r.gets i).expects = some token → r.settled = some token → stage'.Reads cipher token) :
    Kept cipher ⟨vault', w.ops.set i (.get stage')⟩ (r.saw w) := by
  refine h.replace hi hnegative ?_ trivial ?_ ?_ (fun j stage _ => h.gets j stage)
  · intro token hcache
    rcases hpositive token hcache with hcache' | hcurrent
    · rcases h.positive token hcache' with ⟨encrypted, hrow', hdecrypt⟩ | hstored
      · exact Or.inl ⟨encrypted, hrow.trans hrow', hdecrypt⟩
      · rw [hrow]
        exact Or.inr (Or.inr (stored_others hi hstored))
    · exact hcurrent.imp_right Or.inr
  · intro token htoken
    obtain ⟨⟨encrypted, hrow', hdecrypt⟩, hstoring⟩ := h.settled token htoken
    exact ⟨⟨encrypted, hrow.trans hrow', hdecrypt⟩, rfl, fun other hother =>
      hstoring other ((mem_iff_eraseIdx hi other).mpr (Or.inr hother))⟩
  · intro stage'' heq hanswer token htoken
    obtain rfl := TokenOp.get.inj heq
    obtain ⟨hactive, hread⟩ := hreads hanswer
    have hsettled := (h.gets i stage hi hactive token htoken).1
    exact ⟨hsettled, hread token htoken hsettled⟩

/-- A get that ends without an answer of its own leaves the cache as it may. -/
theorem fail_get (hi : w.ops[i]? = some (.get stage)) (hmended : w.Mended i) (e : AdminError) :
    Kept cipher ⟨w.vault, w.ops.set i (.get (.done (.error e)))⟩ (r.saw w) :=
  h.replace_get hi rfl (fun hcache => (hmended hcache).imp_right Or.inr) (fun _ hcache => Or.inl hcache)
    (fun hanswer => absurd hanswer (Option.some_ne_none _))

theorem advance_get (hi : w.ops[i]? = some (.get stage)) (fault : Option Fault) (horderly : w.Orderly cipher (.advance i fault)) :
    Kept cipher ⟨(w.vault.advanceGet cipher tenant_id service_name fault stage).1,
      w.ops.set i (.get (w.vault.advanceGet cipher tenant_id service_name fault stage).2)⟩ (r.saw w) := by
  unfold Orderly at horderly
  dsimp only at horderly
  rw [hi] at horderly
  have hothers : (TokenOp.get stage).inWindow = false → w.vault.cache = some none →
      w.vault.row = none ∨ ∃ other ∈ w.ops.eraseIdx i, other.inWindow = true := by
    intro hout hcache
    refine (h.negative hcache).imp_right ?_
    rintro ⟨op, hop, hwindow⟩
    rcases (mem_iff_eraseIdx hi op).mp hop with rfl | hop
    · rw [hout] at hwindow
      cases hwindow
    · exact ⟨op, hop, hwindow⟩
  cases stage with
  | missed =>
    exact h.replace_get hi rfl (fun _ => Or.inr (Or.inl rfl)) (fun _ hcache => absurd (Option.some.inj hcache) (Option.some_ne_none _).symm) (fun _ => ⟨rfl, fun _ _ _ => trivial⟩)
  | selecting =>
    cases fault with
    | some fault => exact h.fail_get hi horderly _
    | none =>
      unfold Vault.advanceGet
      dsimp only
      cases hrow : w.vault.row with
      | none => exact h.fail_get hi (fun _ => Or.inl hrow) _
      | some encrypted =>
        refine h.replace_get hi rfl (fun _ => Or.inr (Or.inl rfl)) (fun _ hcache => Or.inl hcache) (fun _ => ⟨rfl, ?_⟩)
        intro token _ hsettled
        obtain ⟨encrypted', hrow', hdecrypt⟩ := (h.settled token hsettled).1
        obtain rfl := Option.some.inj (hrow.symm.trans hrow')
        exact hdecrypt
  | decrypting encrypted =>
    cases fault with
    | some fault => exact h.fail_get hi horderly _
    | none =>
      unfold Vault.advanceGet
      dsimp only at horderly ⊢
      cases hdecrypt : Sops.decrypt cipher encrypted with
      | error e =>
        rw [hdecrypt] at horderly
        exact h.fail_get hi horderly _
      | ok token =>
        rw [hdecrypt] at horderly
        refine h.replace_get hi rfl (fun hcache => absurd (Option.some.inj hcache) (Option.some_ne_none _)) ?_ (fun hanswer => absurd hanswer (Option.some_ne_none _))
        intro token' hcache
        obtain rfl : token = token' := Option.some.inj (Option.some.inj hcache)
        rcases horderly with hrow | hstored
        · exact Or.inr (Or.inl ⟨encrypted, hrow, hdecrypt⟩)
        · exact Or.inr (Or.inr hstored)
  | done answer =>
    exact h.replace_get hi rfl (fun hcache => (hothers rfl hcache).imp_right Or.inr) (fun _ hcache => Or.inl hcache)
      (fun hanswer => absurd hanswer (Option.some_ne_none _))

/-- A put has taken a step that is not in its window. -/
theorem replace_put {stage stage' : PutStage} (hi : w.ops[i]? = some (.put stage)) (hout : (TokenOp.put stage).inWindow = false)
    (hstoring : (TokenOp.put stage).storing = none) (hstoring' : (TokenOp.put stage').storing = none)
    (hencrypts : (TokenOp.put stage').Encrypts cipher) : Kept cipher ⟨w.vault, w.ops.set i (.put stage')⟩ (r.saw w) := by
  refine h.replace hi ?_ ?_ hencrypts ?_ (fun stage' heq => absurd heq (TokenOp.put_ne_get _ stage')) (fun j stage _ => h.gets j stage)
  · intro hcache
    refine (h.negative hcache).imp_right ?_
    rintro ⟨op, hop, hwindow⟩
    rcases (mem_iff_eraseIdx hi op).mp hop with rfl | hop
    · rw [hout] at hwindow
      cases hwindow
    · exact Or.inr ⟨op, hop, hwindow⟩
  · intro token hcache
    refine (h.positive token hcache).imp_right ?_
    rintro ⟨op, hop, hstored⟩
    rcases (mem_iff_eraseIdx hi op).mp hop with rfl | hop
    · rw [TokenOp.Stored, hstoring] at hstored
      exact absurd hstored.1 Bool.false_ne_true
    · exact Or.inr ⟨op, hop, hstored⟩
  · intro token htoken
    obtain ⟨hholds, hothers⟩ := h.settled token htoken
    exact ⟨hholds, hstoring', fun other hother => hothers other ((mem_iff_eraseIdx hi other).mpr (Or.inr hother))⟩

theorem stores_put {token_plain : String} {encrypted : Bytes} (hi : w.ops[i]? = some (.put (.encrypted token_plain encrypted))) :
    Kept cipher ⟨{ w.vault with row := some encrypted }, w.ops.set i (.put (.stored token_plain encrypted))⟩ (r.saw w).stores := by
  refine h.replace hi (fun _ => Or.inr (Or.inl rfl)) (fun _ _ => Or.inr (Or.inl ⟨rfl, rfl⟩)) ?_ ?_ (fun stage' heq => absurd heq (TokenOp.put_ne_get _ stage')) ?_
  · exact h.puts (.put (.encrypted token_plain encrypted)) (List.mem_of_getElem? hi)
  · intro token htoken
    exact absurd htoken.symm (Option.some_ne_none token)
  · intro j stage _ _ _ token htoken
    exact absurd htoken.symm (Option.some_ne_none token)

theorem ends_put {token_plain : String} {encrypted : Bytes} (hi : w.ops[i]? = some (.put (.stored token_plain encrypted)))
    (hcurrent : w.Current i encrypted) : Kept cipher
      ⟨{ w.vault with cache := some (some token_plain) }, w.ops.set i (.put (.done (.ok ())))⟩ ((r.saw w).ends w i token_plain) := by
  have hmem := List.mem_of_getElem? hi
  have hencrypts : Sops.decrypt cipher encrypted = .ok token_plain := h.puts (.put (.stored token_plain encrypted)) hmem
  refine h.replace hi (fun hcache => absurd (Option.some.inj hcache) (Option.some_ne_none _)) ?_ trivial ?_ (fun stage' heq => absurd heq (TokenOp.put_ne_get _ stage')) ?_
  · intro token hcache
    obtain rfl : token_plain = token := Option.some.inj (Option.some.inj hcache)
    exact hcurrent.imp (fun hrow => ⟨encrypted, hrow, hencrypts⟩) Or.inr
  · intro token htoken
    unfold TokenRecord.ends at htoken
    dsimp only at htoken
    split_ifs at htoken with hany
    obtain rfl := Option.some.inj htoken
    have hothers : ∀ other ∈ w.ops.eraseIdx i, other.storing = none := by
      intro other hother
      have hsome := List.any_eq_false.mp (Bool.eq_false_of_not_eq_true hany) other hother
      exact Option.not_isSome_iff_eq_none.mp hsome
    refine ⟨?_, rfl, hothers⟩
    rcases hcurrent with hrow | ⟨other, hother, hsome, -⟩
    · exact ⟨encrypted, hrow, hencrypts⟩
    · rw [hothers other hother] at hsome
      cases hsome
  · -- a get that expects a token has begun when no put was in its window, and none has stored since
    intro j stage _ hj hanswer token htoken
    have hnone := (h.settled token (h.gets j stage hj hanswer token htoken).1).2 (.put (.stored token_plain encrypted)) hmem
    cases hnone

/-- What a get answers that takes its last step. -/
theorem advance_coherent (hi : w.ops[i]? = some (.get stage)) (hactive : stage.answer = none) {fault : Option Fault}
    {answer : Except AdminError String} (hanswer : (w.vault.advanceGet cipher tenant_id service_name fault stage).2.answer = some answer) :
    Coherent tenant_id service_name ((r.saw w).gets i) (.advance i fault) answer := by
  have hexpects := h.gets i stage hi hactive
  have hfault : ∀ failure, fault = some failure → answer = .error (failure.raise tenant_id "Decrypt") →
      Coherent tenant_id service_name ((r.saw w).gets i) (.advance i fault) answer := by
    rintro failure rfl rfl
    exact ⟨fun _ _ => Or.inr ⟨i, failure, rfl, rfl⟩,
      fun hfound => absurd (Except.error.inj hfound) (raise_ne_notFound tenant_id service_name failure)⟩
  unfold Vault.advanceGet at hanswer
  cases stage with
  | missed => cases hanswer
  | selecting =>
    cases fault with
    | some failure => exact hfault failure rfl (Option.some.inj hanswer).symm
    | none =>
      dsimp only at hanswer
      cases hrow : w.vault.row with
      | some encrypted =>
        rw [hrow] at hanswer
        cases hanswer
      | none =>
        rw [hrow] at hanswer
        obtain rfl := Option.some.inj hanswer
        refine ⟨fun token htoken => ?_, fun _ => ?_⟩
        · obtain ⟨⟨encrypted, hrow', -⟩, -⟩ := h.settled token (hexpects token htoken).1
          rw [hrow] at hrow'
          cases hrow'
        · unfold TokenRecord.saw
          dsimp only
          rw [hrow]
          exact Bool.or_true _
  | decrypting encrypted =>
    cases fault with
    | some failure => exact hfault failure rfl (Option.some.inj hanswer).symm
    | none =>
      dsimp only at hanswer
      cases hdecrypt : Sops.decrypt cipher encrypted with
      | error e =>
        rw [hdecrypt] at hanswer
        obtain rfl := Option.some.inj hanswer
        refine ⟨fun token htoken => ?_, fun hfound => ?_⟩
        · have hread := hdecrypt.symm.trans (hexpects token htoken).2
          cases hread
        · exact absurd (Except.error.inj hfound) (decryptFailed_ne_notFound tenant_id service_name e)
      | ok token =>
        rw [hdecrypt] at hanswer
        obtain rfl := Option.some.inj hanswer
        refine ⟨fun token' htoken => Or.inl ?_, fun hfound => ?_⟩
        · obtain rfl := Except.ok.inj (hdecrypt.symm.trans (hexpects token' htoken).2)
          rfl
        · cases hfound
  | done answer' => cases hactive

end TokenWorld.Kept

theorem note_get_self (r : TokenRecord) (w : TokenWorld) :
    (r.note w .get).gets w.ops.length = ⟨w.vault.row.isNone, r.settled⟩ :=
  Function.update_self _ _ _

theorem note_get_of_ne (r : TokenRecord) (w : TokenWorld) {i : Nat} (hi : i ≠ w.ops.length) :
    (r.note w .get).gets i = (r.saw w).gets i :=
  Function.update_of_ne hi _ _

theorem get_reads (v : Vault) (token : String) : (v.get tenant_id service_name).Reads cipher token := by
  unfold Vault.get
  rcases v.cache with _ | _ | token' <;> trivial

theorem put_encrypts (hcipher : cipher.Correct) (token_plain : String) (nonce : Nonce) (fault : Option Fault) :
    (TokenOp.put (Vault.put cipher tenant_id token_plain nonce fault)).Encrypts cipher := by
  unfold Vault.put
  cases fault with
  | some fault => trivial
  | none =>
    dsimp only
    cases hencrypt : Sops.encrypt cipher nonce token_plain with
    | error e => trivial
    | ok encrypted => exact Sops.decrypt_encrypt hcipher hencrypt

theorem put_not_stored (token_plain : String) (nonce : Nonce) (fault : Option Fault) :
    (TokenOp.put (Vault.put cipher tenant_id token_plain nonce fault)).storing = none := by
  unfold Vault.put
  cases fault with
  | some fault => rfl
  | none =>
    dsimp only
    cases Sops.encrypt cipher nonce token_plain <;> rfl

/-- Every step that is asked for keeps what a run keeps. -/
theorem step_kept (hcipher : cipher.Correct) {w : TokenWorld} {r : TokenRecord} (h : w.Kept cipher r) (a : TokenAct)
    (horderly : w.Orderly cipher a) : (w.step cipher tenant_id service_name a).1.Kept cipher (r.note w a) := by
  cases a with
  | get =>
    refine h.begin_op (.get (w.vault.get tenant_id service_name)) trivial rfl rfl (fun i hi => ?_) (fun stage heq _ => ?_)
    · rw [note_get_of_ne r w hi]
      rfl
    · obtain rfl := TokenOp.get.inj heq
      rw [note_get_self]
      exact ⟨get_reads w.vault, rfl⟩
  | put token_plain nonce fault =>
    exact h.begin_op _ (put_encrypts hcipher token_plain nonce fault) (put_not_stored token_plain nonce fault) rfl (fun _ _ => rfl)
      (fun stage heq => absurd heq (TokenOp.put_ne_get _ stage))
  | advance i fault =>
    have hget := horderly
    unfold TokenWorld.step TokenRecord.note
    dsimp only
    unfold TokenWorld.Orderly at horderly
    dsimp only at horderly
    cases hi : w.ops[i]? with
    | none => exact ⟨h.negative, h.positive, h.puts, h.settled, h.gets⟩
    | some op =>
      rw [hi] at horderly
      cases op with
      | get stage =>
        cases fault <;> exact h.advance_get hi _ hget
      | put stage =>
        cases stage with
        | encrypted token_plain encrypted =>
          cases fault with
          | some fault => exact h.replace_put hi rfl rfl rfl trivial
          | none => exact h.stores_put hi
        | stored token_plain encrypted => cases fault <;> exact h.ends_put hi horderly
        | done answer => cases fault <;> exact h.replace_put hi rfl rfl rfl trivial
  | evict =>
    refine ⟨fun hcache => absurd hcache.symm (Option.some_ne_none _), fun _ hcache => absurd hcache.symm (Option.some_ne_none _),
      h.puts, h.settled, h.gets⟩

/-- Every step that is asked for answers as it may. -/
theorem step_coherent {w : TokenWorld} {r : TokenRecord} (h : w.Kept cipher r) (a : TokenAct) (horderly : w.Orderly cipher a) {i : Nat}
    {answer : Except AdminError String} (hanswer : (w.step cipher tenant_id service_name a).2 = some (i, answer)) :
    Coherent tenant_id service_name ((r.note w a).gets i) a answer := by
  cases a with
  | put | evict => cases hanswer
  | get =>
    unfold TokenWorld.step Vault.get at hanswer
    dsimp only at hanswer
    rcases hcache : w.vault.cache with _ | _ | token
    · rw [hcache] at hanswer
      cases hanswer
    · rw [hcache] at hanswer
      obtain ⟨rfl, rfl⟩ := Prod.mk.inj (Option.some.inj hanswer)
      have hrow : w.vault.row = none := by
        rcases h.negative hcache with hrow | ⟨op, hop, hwindow⟩
        · exact hrow
        · refine (horderly hcache).resolve_right fun hout => ?_
          rw [hout op hop] at hwindow
          cases hwindow
      rw [note_get_self]
      refine ⟨fun token htoken => ?_, fun _ => ?_⟩
      · obtain ⟨⟨encrypted, hrow', -⟩, -⟩ := h.settled token htoken
        rw [hrow] at hrow'
        cases hrow'
      · dsimp only
        rw [hrow]
        rfl
    · rw [hcache] at hanswer
      obtain ⟨rfl, rfl⟩ := Prod.mk.inj (Option.some.inj hanswer)
      rw [note_get_self]
      refine ⟨fun token' htoken => Or.inl ?_, fun hfound => ?_⟩
      · obtain ⟨hholds, hothers⟩ := h.settled token' htoken
        rcases h.positive token hcache with hholds' | ⟨op, hop, hstored, -⟩
        · rw [hholds.unique hholds']
        · rw [hothers op hop] at hstored
          cases hstored
      · cases hfound
  | advance j fault =>
    unfold TokenWorld.step at hanswer
    dsimp only at hanswer
    cases hj : w.ops[j]? with
    | none =>
      rw [hj] at hanswer
      cases hanswer
    | some op =>
      rw [hj] at hanswer
      cases op with
      | put stage => cases hanswer
      | get stage =>
        dsimp only at hanswer
        split_ifs at hanswer with hactive
        have hnone : stage.answer = none := Option.not_isSome_iff_eq_none.mp hactive
        obtain ⟨answer', hdone, heq⟩ := Option.map_eq_some_iff.mp hanswer
        obtain ⟨rfl, rfl⟩ := Prod.mk.inj heq
        have hrecord : (r.note w (.advance j fault)).gets j = (r.saw w).gets j := by
          unfold TokenRecord.note
          dsimp only
          rw [hj]
        rw [hrecord]
        exact h.advance_coherent hj hnone hdone

/-- A get answers the token of the last put, and that a service is not found only when it has no token. -/
theorem tokens_coherent (hcipher : cipher.Correct) (row : Option Bytes) (acts : List TokenAct)
    (horderly : (tokenMachine cipher tenant_id service_name row).Along (fun w a => w.Orderly cipher a) acts) :
    TokensCoherent cipher tenant_id service_name row acts := by
  have hwatched : (watchedTokens cipher tenant_id service_name row).Along (fun s a => s.1.Orderly cipher a) acts := by
    intro pre a hpre
    rw [watchedTokens, Machine.watched_state]
    exact horderly pre a hpre
  have hinit : TokenWorld.Kept cipher ⟨⟨row, none⟩, []⟩ .new := by
    refine ⟨fun hcache => ?_, fun _ hcache => ?_, fun _ hop => ?_, fun _ htoken => ?_, fun _ _ _ _ _ htoken => ?_⟩
    · exact absurd hcache.symm (Option.some_ne_none _)
    · exact absurd hcache.symm (Option.some_ne_none _)
    · exact absurd hop List.not_mem_nil
    · exact absurd htoken.symm (Option.some_ne_none _)
    · exact absurd htoken.symm (Option.some_ne_none _)
  intro pre a hpre i answer hanswer
  have hkept : ((watchedTokens cipher tenant_id service_name row).state pre).1.Kept cipher
      ((watchedTokens cipher tenant_id service_name row).state pre).2 :=
    Machine.invariant_of_along (I := fun s => s.1.Kept cipher s.2) hinit (fun s a hs ha => step_kept hcipher hs a ha) pre
      (hwatched.restrict ((List.prefix_append pre [a]).trans hpre))
  exact step_coherent hkept a (hwatched pre a hpre) hanswer

instance TokenWorld.decidableOrderly (w : TokenWorld) (a : TokenAct) : Decidable (w.Orderly cipher a) := by
  unfold TokenWorld.Orderly TokenWorld.Mended TokenWorld.Current
  (repeat' split) <;> infer_instance

/-- AES-256-GCM with the key of 32 zeros, at one token. -/
def abcCipher : Cipher :=
  .ofTable [(zeroNonce.1, intoBytes "abc", [175, 197, 35, 84, 16, 158, 246, 90, 47, 92, 203, 179, 240, 82, 9, 120, 20, 223, 60])]

theorem abcCipher_correct : abcCipher.Correct := by
  refine Cipher.ofTable_correct fun row hrow row' hrow' _ _ => ?_
  rw [List.mem_singleton.mp hrow, List.mem_singleton.mp hrow']

/-- A token is put, is evicted from the cache, and is asked for again. -/
def abcPutAndGot : List TokenAct :=
  [.put "abc" zeroNonce none, .advance 0 none, .advance 0 none, .evict, .get, .advance 1 none, .advance 1 none, .advance 1 none, .get]

theorem tokens_coherent_abc : TokensCoherent abcCipher 1 "github" none abcPutAndGot :=
  tokens_coherent abcCipher_correct none abcPutAndGot (by
    rw [Machine.along_iff_alongFrom]
    decide +kernel)

/-- The same, but the statement of the get fails; then another get. -/
def abcFailed : List TokenAct :=
  [.put "abc" zeroNonce none, .advance 0 none, .advance 0 none, .evict, .get, .advance 1 none, .advance 1 (some (.sqlx "connection reset"))]

/-- A stored token is not found, though no call of that get fails. -/
theorem stored_token_not_found :
    ((watchedTokens abcCipher 1 "github" none).state abcFailed).1.vault.row.isSome = true ∧
    (watchedTokens abcCipher 1 "github" none).out ((watchedTokens abcCipher 1 "github" none).state abcFailed) .get =
      some (2, .error (.other "Not found service github, tenant 1")) ∧
    ¬ TokensCoherent abcCipher 1 "github" none (abcFailed ++ [.get]) := by
  have hout : (watchedTokens abcCipher 1 "github" none).out ((watchedTokens abcCipher 1 "github" none).state abcFailed) .get =
      some (2, .error (.other "Not found service github, tenant 1")) := by decide +kernel
  refine ⟨by decide +kernel, hout, fun h => ?_⟩
  have habsent := (h abcFailed .get (List.prefix_refl _) 2 _ hout).found (by decide +kernel)
  have hstored : ((((watchedTokens abcCipher 1 "github" none).state abcFailed).2.note
      ((watchedTokens abcCipher 1 "github" none).state abcFailed).1 .get).gets 2).absent = false := by decide +kernel
  rw [hstored] at habsent
  cases habsent

end Admin

end Opsense
