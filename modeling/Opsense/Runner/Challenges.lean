import Opsense.Runner.Agreement

/-!
# Roles that are granted

A challenge is attached to a session with the role it is for; a verification takes it under the lock, compares it with the response,
and takes the lock again to grant the role or to put the challenge back (`opsense-runner/src/session.rs`). The role that is granted is
the one the session asks for at that time. Each role answers its own challenge in each run in which no challenge is attached to a session while one of its challenges is verified
(`roles_answer_challenges`).
-/

namespace Opsense

namespace Runner

/-- A step of the runner, or a call of `attach_challenge`. -/
inductive ChallengeStep where
  | attach (instant : Nat) (session_id : String) (plaintext : Bytes) (requested_role : Option String)
  | run (a : RunnerStep)

/-- A runner whose sessions may also be given challenges directly. -/
def challenges (scheme : SignatureScheme) (auth : Option LocalAuth) (encrypt : Bytes → Bytes → Except String Bytes) (idle : Nat) :
    Machine RunnerState ChallengeStep Unit where
  init := (runner scheme auth encrypt idle).init
  step t
    | .attach instant session_id plaintext requested_role =>
      ({ t with registry := t.registry.attachChallenge instant session_id plaintext requested_role }, ())
    | .run a => (runner scheme auth encrypt idle).step t a

/-! ## The record of a run -/

/-- What a step does to the challenges. -/
inductive ChallengeEvent where
  | attached (session_id : String) (plaintext : Bytes) (requested_role : Option String)
  | entered (session_id : String)
  | took (op : Nat) (session_id : String)
  | granted (op : Nat) (session_id role : String)
  | restored (op : Nat) (session_id : String)
  | removed (session_id : String)
  | asked (op : Nat) (response : Bytes)
  | nothing
deriving DecidableEq

/-- What the next step of an operation does to the challenges. -/
def Stage.event (s : SessionRegistry) (op : Nat) : Stage → ChallengeEvent
  | .startInsert _ id => .entered id
  | .startAttach params id plaintext => if id ∈ s.sessions then .attached id plaintext (some params.requested_role) else .nothing
  | .verifyTake session_id _ =>
    match (s.sessions.lookup session_id).bind SessionMeta.pending_challenge with
    | none => .nothing
    | some _ => .took op session_id
  | .verifySettle session_id _ true =>
    match (s.sessions.lookup session_id).bind SessionMeta.requested_role with
    | none => .nothing
    | some role => .granted op session_id role
  | .verifySettle session_id _ false => if session_id ∈ s.sessions then .restored op session_id else .nothing
  | .closeRemove session_id => .removed session_id
  | _ => .nothing

def event (t : RunnerState) : ChallengeStep → ChallengeEvent
  | .attach _ session_id plaintext requested_role =>
    if session_id ∈ t.registry.sessions then .attached session_id plaintext requested_role else .nothing
  | .run (.verify _ response) => .asked t.ops.length response
  | .run (.step op _) => (t.ops[op]?.map (Stage.event t.registry op)).getD .nothing
  | .run (.sweep _ _) =>
    match t.sweeper with
    | .removing id _ => .removed id
    | _ => .nothing
  | .run _ => .nothing

/-- A challenge: the session, its incarnation, and the role it was attached with. -/
structure Attached where
  session_id : String
  incarnation : Nat
  plaintext : Bytes
  requested_role : Option String
deriving DecidableEq

/-- What happened so far. A challenge is known by its place among those attached. -/
structure Record where
  attached : List Attached
  /-- How often each session was entered. -/
  incarnations : String → Nat
  /-- The challenge that waits for a session. -/
  pending : String → Option Nat
  /-- The challenge that an operation has taken. -/
  taken : Nat → Option Nat
  /-- The response that an operation brings. -/
  responses : Nat → Option Bytes
  /-- The challenges that a role was granted for. -/
  granted : List Nat

namespace Record

def empty : Record := ⟨[], fun _ => 0, fun _ => none, fun _ => none, fun _ => none, []⟩

def note (r : Record) : ChallengeEvent → Record
  | .attached session_id plaintext requested_role => { r with
      attached := r.attached ++ [⟨session_id, r.incarnations session_id, plaintext, requested_role⟩]
      pending := Function.update r.pending session_id (some r.attached.length) }
  | .entered session_id => { r with
      incarnations := Function.update r.incarnations session_id (r.incarnations session_id + 1)
      pending := Function.update r.pending session_id none }
  | .took op session_id => { r with
      taken := Function.update r.taken op (r.pending session_id)
      pending := Function.update r.pending session_id none }
  | .granted op _ _ => { r with granted := r.granted ++ (r.taken op).toList }
  | .restored op session_id => { r with pending := Function.update r.pending session_id (r.taken op) }
  | .removed session_id => { r with pending := Function.update r.pending session_id none }
  | .asked op response => { r with responses := Function.update r.responses op (some response) }
  | .nothing => r

end Record

/-- The runner with the record of its challenges. -/
def recorded (scheme : SignatureScheme) (auth : Option LocalAuth) (encrypt : Bytes → Bytes → Except String Bytes) (idle : Nat) :
    Machine (RunnerState × Record) ChallengeStep Unit :=
  (challenges scheme auth encrypt idle).watched .empty fun r t a => r.note (event t a)

/-! ## What is asked of a run -/

def roleOf (t : RunnerState) (id : String) : Option String := (t.registry.sessions.lookup id).bind SessionMeta.role

/-- The response of an operation is the plaintext of a challenge that no role was granted for, and that was attached to this incarnation
of the session with this role. -/
def Answered (r : Record) (op : Nat) (session_id role : String) : Prop :=
  ∃ n ∈ r.taken op, n ∉ r.granted ∧ ∃ c ∈ r.attached[n]?, r.responses op = some c.plaintext ∧ c.session_id = session_id ∧
    c.incarnation = r.incarnations session_id ∧ c.requested_role = some role

/-- A step gives a session no role but by a grant; a grant answers its challenge; and a challenge that is put back takes the place of no
later one. -/
structure Sound (t : RunnerState) (r : Record) (a : ChallengeStep) (t' : RunnerState) : Prop where
  roles : ∀ id role, roleOf t' id = some role → roleOf t id = some role ∨ ∃ op, event t a = .granted op id role
  answered : ∀ op id role, event t a = .granted op id role → Answered r op id role
  latest : ∀ op id, event t a = .restored op id → ∀ n ∈ r.taken op, ∀ m ∈ r.pending id, m ≤ n

/-- The challenge that a verification has taken, and has not settled. -/
def Stage.holds : Stage → Option (String × Bytes)
  | .verifyCheck session_id _ plaintext => some (session_id, plaintext)
  | .verifySettle session_id plaintext _ => some (session_id, plaintext)
  | _ => none

/-- No challenge is attached to a session while one of its challenges is verified. -/
def Unhurried (t : RunnerState) (a : ChallengeStep) : Prop :=
  match event t a with
  | .attached id _ _ => ∀ stage ∈ t.ops, ∀ held ∈ stage.holds, held.1 ≠ id
  | _ => True

instance (r : Record) (op : Nat) (session_id role : String) : Decidable (Answered r op session_id role) := by
  unfold Answered
  infer_instance

instance (t : RunnerState) (a : ChallengeStep) : Decidable (Unhurried t a) := by
  unfold Unhurried
  split <;> infer_instance

/-! ## One session -/

/-- The challenge of a session and the role it asks for. -/
def viewOf (t : RunnerState) (id : String) : Option (Option Bytes × Option String) :=
  (t.registry.sessions.lookup id).map fun h => (h.pending_challenge, h.requested_role)

/-- The challenge of a session that an operation holds. -/
def Stage.heldOf (id : String) (stage : Stage) : Option Bytes := stage.holds.bind fun held => if held.1 = id then some held.2 else none

def heldOf (t : RunnerState) (id : String) (op : Nat) : Option Bytes := t.ops[op]?.bind (Stage.heldOf id)

/-- What a step does to one session. -/
inductive Turned (id : String) (v : Option (Option Bytes × Option String)) (held : Nat → Option Bytes) :
    ChallengeEvent → Option (Option Bytes × Option String) → (Nat → Option Bytes) → Prop
  /-- The step is about another session, or about none. -/
  | elsewhere {e held'} (hheld : ∀ op p, held' op = some p → held op = some p) (hattached : ∀ p role, e ≠ .attached id p role)
      (hentered : e ≠ .entered id) (htook : ∀ op id', e = .took op id' → id' ≠ id ∧ held' op = none)
      (hgranted : ∀ op role, e ≠ .granted op id role) (hrestored : ∀ op, e ≠ .restored op id) (hremoved : e ≠ .removed id) :
      Turned id v held e v held'
  | attached {held'} (hheld : ∀ op p, held' op = some p → held op = some p) (hv : v.isSome = true) (p : Bytes) (role : Option String) :
      Turned id v held (.attached id p role) (some (some p, role)) held'
  | entered {held'} (hheld : ∀ op p, held' op = some p → held op = some p) : Turned id v held (.entered id) (some (none, none)) held'
  | took {held'} (op : Nat) {p : Bytes} {role : Option String} (hv : v = some (some p, role))
      (hheld : held' = Function.update held op (some p)) : Turned id v held (.took op id) (some (none, role)) held'
  | granted {held'} (op : Nat) {p : Bytes} {pending : Option Bytes} {role : String} (hv : v = some (pending, some role))
      (hop : held op = some p) (hheld : held' = Function.update held op none) :
      Turned id v held (.granted op id role) (some (pending, none)) held'
  | restored {held'} (op : Nat) {p : Bytes} {pending : Option Bytes} {role : Option String} (hv : v = some (pending, role))
      (hop : held op = some p) (hheld : held' = Function.update held op none) :
      Turned id v held (.restored op id) (some (some p, role)) held'
  | removed {held'} (hheld : ∀ op p, held' op = some p → held op = some p) : Turned id v held (.removed id) none held'

variable {scheme : SignatureScheme} {auth : Option LocalAuth} {encrypt : Bytes → Bytes → Except String Bytes} {idle : Nat}
  {t : RunnerState} {r : Record}

/-- A challenge of a session that is known by its number, and that no role was granted for. -/
def Live (r : Record) (id : String) (p : Bytes) (n : Nat) : Prop :=
  n ∉ r.granted ∧ ∃ c, r.attached[n]? = some c ∧ c.session_id = id ∧ c.plaintext = p

/-- The role that a session asks for is that of a challenge of this incarnation. -/
def Fits (r : Record) (id : String) (role : Option String) (n : Nat) : Prop :=
  role = none ∨ ∃ c, r.attached[n]? = some c ∧ c.incarnation = r.incarnations id ∧ c.requested_role = role

/-- A session has at most one challenge, which waits for it or is held by one operation, and the role it asks for is that of its
challenge. -/
structure KeptAt (id : String) (v : Option (Option Bytes × Option String)) (held : Nat → Option Bytes) (r : Record) : Prop where
  pending : ∀ n, r.pending id = some n → ∃ p role, v = some (some p, role) ∧ Live r id p n ∧ Fits r id role n
  waits : r.pending id = none → ∀ w ∈ v, w.1 = none
  taken : ∀ op p, held op = some p → r.pending id = none ∧ ∃ n, r.taken op = some n ∧ Live r id p n ∧ ∀ w ∈ v, Fits r id w.2 n
  alone : ∀ op op' p p', held op = some p → held op' = some p' → op = op'

/-- The response of a verification is the one in the record, and equals the challenge it has passed. -/
def Stage.Answers (response : Option Bytes) : Stage → Prop
  | .verifyTake _ response' => response = some response'
  | .verifyCheck _ response' _ => response = some response'
  | .verifySettle _ plaintext true => response = some plaintext
  | _ => True

/-- The record of a run in which no challenge is attached while another one is verified. -/
structure Tracked (t : RunnerState) (r : Record) : Prop where
  keptAt : ∀ id, KeptAt id (viewOf t id) (heldOf t id) r
  bound : ∀ n ∈ r.granted, n < r.attached.length
  answers : ∀ op (stage : Stage), t.ops[op]? = some stage → stage.Answers (r.responses op)

theorem Live.mono {r' : Record} {id : String} {p : Bytes} {n : Nat} (h : Live r id p n)
    (hattached : ∀ (n : Nat) c, r.attached[n]? = some c → r'.attached[n]? = some c) (hgranted : n ∈ r'.granted → n ∈ r.granted) :
    Live r' id p n := by
  obtain ⟨hn, c, hc, hid, hp⟩ := h
  exact ⟨fun hmem => hn (hgranted hmem), c, hattached n c hc, hid, hp⟩

theorem Fits.mono {r' : Record} {id : String} {role : Option String} {n : Nat} (h : Fits r id role n)
    (hattached : ∀ (n : Nat) c, r.attached[n]? = some c → r'.attached[n]? = some c) (hincarnation : r'.incarnations id = r.incarnations id) :
    Fits r' id role n := by
  rcases h with rfl | ⟨c, hc, hincarnation', hrole⟩
  · exact .inl rfl
  · exact .inr ⟨c, hattached n c hc, hincarnation'.trans hincarnation.symm, hrole⟩

variable {held held' : Nat → Option Bytes} {v : Option (Option Bytes × Option String)}

/-- A step about another session keeps the challenge of a session. -/
theorem KeptAt.frame {id : String} {r' : Record} (h : KeptAt id v held r)
    (hheld : ∀ op p, held' op = some p → held op = some p ∧ r'.taken op = r.taken op) (hpending : r'.pending id = r.pending id)
    (hincarnation : r'.incarnations id = r.incarnations id) (hattached : ∀ (n : Nat) c, r.attached[n]? = some c → r'.attached[n]? = some c)
    (hgranted : ∀ n p, Live r id p n → n ∈ r'.granted → n ∈ r.granted) : KeptAt id v held' r' := by
  refine ⟨fun n hn => ?_, fun hnone => h.waits (hpending ▸ hnone), fun op p hop => ?_, fun op op' p p' hop hop' => ?_⟩
  · obtain ⟨p, role, hv, hlive, hfits⟩ := h.pending n (hpending ▸ hn)
    exact ⟨p, role, hv, hlive.mono hattached (hgranted n p hlive), hfits.mono hattached hincarnation⟩
  · obtain ⟨hop, htaken⟩ := hheld op p hop
    obtain ⟨hnone, n, hn, hlive, hfits⟩ := h.taken op p hop
    exact ⟨hpending.trans hnone, n, htaken.trans hn, hlive.mono hattached (hgranted n p hlive),
      fun w hw => (hfits w hw).mono hattached hincarnation⟩
  · exact h.alone op op' p p' (hheld op p hop).1 (hheld op' p' hop').1

theorem getElem?_append_some {c : Attached} (cs : List Attached) (c' : Attached) (n : Nat) (h : cs[n]? = some c) :
    (cs ++ [c'])[n]? = some c :=
  (List.getElem?_append_left (List.getElem?_eq_some_iff.mp h).1).trans h

variable {op : Nat}

/-- When the operation that holds the challenge settles it, no operation holds one. -/
theorem KeptAt.released {id : String} {p : Bytes} (h : KeptAt id v held r) (hop : held op = some p)
    (hheld : held' = Function.update held op none) (op' : Nat) (p' : Bytes) :
    held' op' ≠ some p' := by
  intro hop'
  by_cases heq : op' = op
  · subst heq
    rw [hheld, Function.update_self] at hop'
    cases hop'
  · rw [hheld, Function.update_of_ne heq] at hop'
    exact heq (h.alone op' op p' p hop' hop)

/-- A step about another session, or about none, keeps the challenge of a session. -/
theorem KeptAt.elsewhere {id : String} {e : ChallengeEvent} (h : KeptAt id v held r) (hheld : ∀ op p, held' op = some p → held op = some p)
    (hattached : ∀ p role, e ≠ .attached id p role) (hentered : e ≠ .entered id)
    (htook : ∀ op id', e = .took op id' → id' ≠ id ∧ held' op = none) (hgranted : ∀ op role, e ≠ .granted op id role)
    (hrestored : ∀ op, e ≠ .restored op id) (hremoved : e ≠ .removed id)
    (hother : ∀ op id' role n, e = .granted op id' role → id' ≠ id → r.taken op = some n → ∃ c, r.attached[n]? = some c ∧ c.session_id = id') :
    KeptAt id v held' (r.note e) := by
  cases e with
  | attached id' p role =>
    have hid : id ≠ id' := fun heq => hattached p role (heq ▸ rfl)
    exact h.frame (fun op p hop => ⟨hheld op p hop, rfl⟩) (Function.update_of_ne hid _ _) rfl
      (fun n c hc => getElem?_append_some _ _ n hc) (fun n p _ hn => hn)
  | entered id' =>
    have hid : id ≠ id' := fun heq => hentered (heq ▸ rfl)
    exact h.frame (fun op p hop => ⟨hheld op p hop, rfl⟩) (Function.update_of_ne hid _ _) (Function.update_of_ne hid _ _)
      (fun n c hc => hc) (fun n p _ hn => hn)
  | took op' id' =>
    obtain ⟨hid, hop'⟩ := htook op' id' rfl
    refine h.frame (fun op p hop => ⟨hheld op p hop, Function.update_of_ne ?_ _ _⟩) (Function.update_of_ne hid.symm _ _) rfl
      (fun n c hc => hc) (fun n p _ hn => hn)
    rintro rfl
    rw [hop'] at hop
    cases hop
  | granted op' id' role =>
    have hid : id' ≠ id := fun heq => hgranted op' role (heq ▸ rfl)
    refine h.frame (fun op p hop => ⟨hheld op p hop, rfl⟩) rfl rfl (fun n c hc => hc) fun n p hlive hn => ?_
    rcases List.mem_append.mp hn with hold | hnew
    · exact hold
    · obtain ⟨c, hc, hsession⟩ := hother op' id' role n rfl hid (Option.mem_toList.mp hnew)
      obtain ⟨-, c', hc', hsession', -⟩ := hlive
      obtain rfl := Option.some.inj (hc.symm.trans hc')
      exact absurd (hsession.symm.trans hsession') hid
  | restored op' id' =>
    have hid : id ≠ id' := fun heq => hrestored op' (heq ▸ rfl)
    exact h.frame (fun op p hop => ⟨hheld op p hop, rfl⟩) (Function.update_of_ne hid _ _) rfl (fun n c hc => hc) (fun n p _ hn => hn)
  | removed id' =>
    have hid : id ≠ id' := fun heq => hremoved (heq ▸ rfl)
    exact h.frame (fun op p hop => ⟨hheld op p hop, rfl⟩) (Function.update_of_ne hid _ _) rfl (fun n c hc => hc) (fun n p _ hn => hn)
  | asked op' response =>
    exact h.frame (fun op p hop => ⟨hheld op p hop, rfl⟩) rfl rfl (fun n c hc => hc) (fun n p _ hn => hn)
  | nothing => exact h.frame (fun op p hop => ⟨hheld op p hop, rfl⟩) rfl rfl (fun n c hc => hc) (fun n p _ hn => hn)

/-- A session is given a challenge when no operation holds one of its. -/
theorem keptAt_attached {id : String} {held' : Nat → Option Bytes} (hbound : ∀ n ∈ r.granted, n < r.attached.length)
    (hnone : ∀ op p, held' op ≠ some p) (p : Bytes) (role : Option String) :
    KeptAt id (some (some p, role)) held' (r.note (.attached id p role)) := by
  have hpending : (r.note (.attached id p role)).pending id = some r.attached.length := Function.update_self _ _ _
  refine ⟨fun n hn => ?_, fun hn => absurd (hpending.symm.trans hn) (by simp), fun op p' hop => absurd hop (hnone op p'),
    fun op op' p' p'' hop => absurd hop (hnone op p')⟩
  obtain rfl : r.attached.length = n := Option.some.inj (hpending.symm.trans hn)
  have hlast : (r.attached ++ [⟨id, r.incarnations id, p, role⟩])[r.attached.length]? = some ⟨id, r.incarnations id, p, role⟩ :=
    List.getElem?_concat_length
  exact ⟨p, role, rfl, ⟨fun hmem => lt_irrefl _ (hbound _ hmem), _, hlast, rfl, rfl⟩, .inr ⟨_, hlast, rfl, rfl⟩⟩

/-- A session that is started or removed has no challenge that waits. -/
theorem KeptAt.restarted {id : String} {v v' : Option (Option Bytes × Option String)} {r' : Record} (h : KeptAt id v held r)
    (hheld : ∀ op p, held' op = some p → held op = some p) (hpending : r'.pending id = none) (hv' : ∀ w ∈ v', w = (none, none))
    (htaken : r'.taken = r.taken) (hattached : r'.attached = r.attached) (hgranted : r'.granted = r.granted) : KeptAt id v' held' r' := by
  refine ⟨fun n hn => absurd (hpending.symm.trans hn) (by simp), fun _ w hw => by rw [hv' w hw], fun op p hop => ?_,
    fun op op' p p' hop hop' => h.alone op op' p p' (hheld op p hop) (hheld op' p' hop')⟩
  obtain ⟨-, n, hn, hlive, -⟩ := h.taken op p (hheld op p hop)
  have hlive' : Live r' id p n := hlive.mono (fun n c hc => hattached ▸ hc) fun hn => hgranted ▸ hn
  exact ⟨hpending, n, (congrFun htaken op).trans hn, hlive', fun w hw => .inl (by rw [hv' w hw])⟩

/-- An operation takes the challenge that waits. -/
theorem KeptAt.took {id : String} (h : KeptAt id v held r) (op : Nat) {p : Bytes} {role : Option String} (hv : v = some (some p, role))
    (hheld : held' = Function.update held op (some p)) :
    KeptAt id (some (none, role)) held' (r.note (.took op id)) := by
  have hpending : (r.note (.took op id)).pending id = none := Function.update_self _ _ _
  have hone : ∀ op' p', held' op' = some p' → op' = op ∧ p' = p := by
    intro op' p' hop'
    by_cases heq : op' = op
    · subst heq
      rw [hheld, Function.update_self] at hop'
      exact ⟨rfl, (Option.some.inj hop').symm⟩
    · rw [hheld, Function.update_of_ne heq] at hop'
      have := h.waits (h.taken op' p' hop').1 _ hv
      cases this
  refine ⟨fun n hn => absurd (hpending.symm.trans hn) (by simp), fun _ w hw => Option.some.inj hw ▸ rfl, fun op' p' hop' => ?_,
    fun op' op'' p' p'' hop' hop'' => (hone op' p' hop').1.trans (hone op'' p'' hop'').1.symm⟩
  obtain ⟨rfl, rfl⟩ := hone op' p' hop'
  cases hn : r.pending id with
  | none =>
    have := h.waits hn _ hv
    cases this
  | some n =>
    obtain ⟨q, role', hv', hlive, hfits⟩ := h.pending n hn
    have heq : (some q, role') = (some p', role) := Option.some.inj (hv'.symm.trans hv)
    injection heq with hp hrole
    obtain rfl := Option.some.inj hp
    subst hrole
    refine ⟨hpending, n, (Function.update_self _ _ _).trans hn, hlive, fun w hw => ?_⟩
    rw [← Option.some.inj hw]
    exact hfits

/-- What a step does to a session keeps its challenge. -/
theorem KeptAt.step {id : String} {v v' : Option (Option Bytes × Option String)} {e : ChallengeEvent} (h : KeptAt id v held r)
    (hbound : ∀ n ∈ r.granted, n < r.attached.length) (hturned : Turned id v held e v' held')
    (hfree : ∀ p role, e = .attached id p role → ∀ op, held op = none)
    (hother : ∀ op id' role n, e = .granted op id' role → id' ≠ id → r.taken op = some n → ∃ c, r.attached[n]? = some c ∧ c.session_id = id') :
    KeptAt id v' held' (r.note e) := by
  cases hturned with
  | elsewhere hheld hattached hentered htook hgranted hrestored hremoved =>
    exact h.elsewhere hheld hattached hentered htook hgranted hrestored hremoved hother
  | attached hheld hv p role =>
    refine keptAt_attached hbound (fun op p' hop => ?_) p role
    have := hfree p role rfl op
    rw [hheld op p' hop] at this
    cases this
  | entered hheld => exact h.restarted hheld (Function.update_self _ _ _) (fun w hw => (Option.some.inj hw).symm) rfl rfl rfl
  | took op hv hheld => exact h.took op hv hheld
  | granted op hv hop hheld =>
    rename_i p pending role
    obtain ⟨hnone, -⟩ := h.taken op p hop
    have hgone := h.released hop hheld
    refine ⟨fun n hn => absurd (hnone.symm.trans hn) (by simp), fun _ w hw => ?_, fun op' p' hop' => absurd hop' (hgone op' p'),
      fun op' op'' p' p'' hop' => absurd hop' (hgone op' p')⟩
    rw [← Option.some.inj hw]
    exact h.waits hnone (pending, some role) hv
  | restored op hv hop hheld =>
    rename_i p pending role
    obtain ⟨-, n, hn, hlive, hfits⟩ := h.taken op p hop
    have hpending : (r.note (.restored op id)).pending id = some n := (Function.update_self _ _ _).trans hn
    have hgone := h.released hop hheld
    refine ⟨fun n' hn' => ?_, fun hnone => absurd (hpending.symm.trans hnone) (by simp), fun op' p' hop' => absurd hop' (hgone op' p'),
      fun op' op'' p' p'' hop' => absurd hop' (hgone op' p')⟩
    obtain rfl := Option.some.inj (hpending.symm.trans hn')
    exact ⟨p, role, rfl, hlive, hfits _ hv⟩
  | removed hheld => exact h.restarted hheld (Function.update_self _ _ _) (fun w hw => absurd hw (by simp)) rfl rfl rfl

/-! ## What a step does to the challenges of a session -/

theorem Turned.quiet {id : String} {v v' : Option (Option Bytes × Option String)} (hv : v' = v)
    (hheld : ∀ op p, held' op = some p → held op = some p) : Turned id v held .nothing v' held' := by
  subst hv
  exact .elsewhere hheld (fun _ _ h => by cases h) (fun h => by cases h) (fun _ _ h => by cases h) (fun _ _ h => by cases h)
    (fun _ h => by cases h) (fun h => by cases h)

variable {stage : Stage}

theorem heldOf_begin (stages : List Stage) (hstage : stage.holds = none) (id : String) (op : Nat) (p : Bytes)
    (h : (stages ++ [stage])[op]?.bind (Stage.heldOf id) = some p) : stages[op]?.bind (Stage.heldOf id) = some p := by
  obtain ⟨stage', hop, hheld⟩ := Option.bind_eq_some_iff.mp h
  rcases getElem?_snoc hop with hold | ⟨-, rfl⟩
  · exact Option.bind_eq_some_iff.mpr ⟨stage', hold, hheld⟩
  · rw [Stage.heldOf, hstage] at hheld
    cases hheld

theorem heldOf_set {stages : List Stage} (hop : stages[op]? = some stage) (stage' : Stage) (id : String) :
    (fun op' => (stages.set op stage')[op']?.bind (Stage.heldOf id)) =
      Function.update (fun op' => stages[op']?.bind (Stage.heldOf id)) op (stage'.heldOf id) := by
  funext op'
  by_cases heq : op' = op
  · subst heq
    rw [Function.update_self, List.getElem?_set_self (List.getElem?_eq_some_iff.mp hop).1, Option.bind_some]
  · rw [Function.update_of_ne heq, List.getElem?_set_ne (Ne.symm heq)]

/-- An operation that holds nothing new after its step. -/
theorem heldOf_set_le {stages : List Stage} (hop : stages[op]? = some stage) {stage' : Stage} {id : String}
    (hstage' : ∀ p, stage'.heldOf id = some p → stage.heldOf id = some p) (op' : Nat) (p : Bytes)
    (h : (stages.set op stage')[op']?.bind (Stage.heldOf id) = some p) : stages[op']?.bind (Stage.heldOf id) = some p := by
  have hset := congrFun (heldOf_set hop stage' id) op'
  rw [hset] at h
  by_cases heq : op' = op
  · subst heq
    rw [Function.update_self] at h
    rw [hop, Option.bind_some]
    exact hstage' p h
  · rwa [Function.update_of_ne heq] at h

variable {s : SessionRegistry}

theorem holds_advance {env : Env} {held : String × Bytes} (h : (advance scheme auth encrypt s env stage).2.holds = some held) :
    stage.holds = some held ∨
      ∃ response, stage = .verifyTake held.1 response ∧ (s.sessions.lookup held.1).bind SessionMeta.pending_challenge = some held.2 := by
  have hfollows := advance_follows scheme auth encrypt s env stage
  generalize (advance scheme auth encrypt s env stage).2 = stage' at h hfollows
  cases hfollows with
  | took response htake =>
    obtain rfl := Option.some.inj h
    exact .inr ⟨response, rfl, htake⟩
  | compared session_id response plaintext => exact .inl h
  | _ => cases h

theorem heldOf_advance {env : Env} {id : String} (hstage : ∀ response, stage ≠ .verifyTake id response) (p : Bytes)
    (h : (advance scheme auth encrypt s env stage).2.heldOf id = some p) : stage.heldOf id = some p := by
  unfold Stage.heldOf at h ⊢
  cases hholds : (advance scheme auth encrypt s env stage).2.holds with
  | none =>
    rw [hholds] at h
    cases h
  | some held =>
    rw [hholds, Option.bind_some] at h
    rcases holds_advance hholds with hold | ⟨response, rfl, -⟩
    · rwa [hold, Option.bind_some]
    · split_ifs at h with hid
      subst hid
      exact absurd rfl (hstage response)

/-- A change of one session, seen from another. -/
theorem Turned.other {id id' : String} (hid : id ≠ id') {e : ChallengeEvent}
    (he : e = .entered id' ∨ e = .removed id' ∨ ∃ p role, e = .attached id' p role) (hheld : ∀ op p, held' op = some p → held op = some p) :
    Turned id v held e v held' := by
  rcases he with rfl | rfl | ⟨p, role, rfl⟩
  · exact .elsewhere hheld (fun _ _ h => by cases h) (fun h => hid (ChallengeEvent.entered.inj h).symm) (fun _ _ h => by cases h)
      (fun _ _ h => by cases h) (fun _ h => by cases h) (fun h => by cases h)
  · exact .elsewhere hheld (fun _ _ h => by cases h) (fun h => by cases h) (fun _ _ h => by cases h)
      (fun _ _ h => by cases h) (fun _ h => by cases h) (fun h => hid (ChallengeEvent.removed.inj h).symm)
  · exact .elsewhere hheld (fun _ _ h => hid (ChallengeEvent.attached.inj h).1.symm) (fun h => by cases h) (fun _ _ h => by cases h)
      (fun _ _ h => by cases h) (fun _ h => by cases h) (fun h => by cases h)

theorem mem_sessions_iff {id : String} : id ∈ s.sessions ↔ (s.sessions.lookup id).isSome = true :=
  Finmap.lookup_isSome.symm

theorem turned_attach (id : String) (instant : Nat) (session_id : String) (p : Bytes) (role : Option String)
    {held' : Nat → Option Bytes} (hheld : ∀ op p, held' op = some p → heldOf t id op = some p) :
    Turned id (viewOf t id) (heldOf t id) (if session_id ∈ t.registry.sessions then .attached session_id p role else .nothing)
      ((if id = session_id then
        (t.registry.sessions.lookup id).map fun h => { h with pending_challenge := some p, requested_role := role, last_active := instant }
        else t.registry.sessions.lookup id).map fun h => (h.pending_challenge, h.requested_role)) held' := by
  unfold viewOf
  by_cases hid : id = session_id
  · subst hid
    rw [if_pos rfl]
    cases hentry : t.registry.sessions.lookup id with
    | none =>
      rw [if_neg fun hmem => by rw [mem_sessions_iff, hentry] at hmem; cases hmem]
      exact .quiet rfl hheld
    | some h =>
      rw [if_pos (mem_sessions_iff.mpr (by rw [hentry]; rfl))]
      exact .attached hheld rfl p role
  · rw [if_neg hid]
    split_ifs
    · exact .other hid (.inr (.inr ⟨p, role, rfl⟩)) hheld
    · exact .quiet rfl hheld

theorem turned_removed (id session_id : String) {held' : Nat → Option Bytes}
    (hheld : ∀ op p, held' op = some p → heldOf t id op = some p) : Turned id (viewOf t id) (heldOf t id) (.removed session_id)
      ((if id = session_id then none else t.registry.sessions.lookup id).map fun h => (h.pending_challenge, h.requested_role)) held' := by
  unfold viewOf
  by_cases hid : id = session_id
  · subst hid
    rw [if_pos rfl]
    exact .removed hheld
  · rw [if_neg hid]
    exact .other hid (.inr (.inl rfl)) hheld

theorem turned_take {session_id : String} {response : Bytes} (hop : t.ops[op]? = some (.verifyTake session_id response)) (env : Env)
    (id : String) :
    Turned id (viewOf t id) (heldOf t id) (Stage.event t.registry op (.verifyTake session_id response))
      ((entryAfter env id (t.registry.sessions.lookup id) (.verifyTake session_id response)).map fun h =>
        (h.pending_challenge, h.requested_role))
      (fun op' => (t.ops.set op (advance scheme auth encrypt t.registry env (.verifyTake session_id response)).2)[op']?.bind
        (Stage.heldOf id)) := by
  have hquiet : ∀ {stage'}, Stage.heldOf id stage' = none → ∀ op' p, (t.ops.set op stage')[op']?.bind (Stage.heldOf id) = some p →
      heldOf t id op' = some p := by
    intro stage' hstage'
    exact heldOf_set_le hop fun p hp => by rw [hstage'] at hp; cases hp
  unfold Stage.event advance SessionRegistry.takeChallenge entryAfter viewOf
  dsimp only
  cases hentry : t.registry.sessions.lookup session_id with
  | none =>
    rw [Option.bind_none]
    refine .quiet ?_ (hquiet rfl)
    split_ifs with hid
    · rw [hid, hentry]
      rfl
    · rfl
  | some h =>
    rw [Option.bind_some]
    dsimp only
    cases hpending : h.pending_challenge with
    | none =>
      refine .quiet ?_ (hquiet rfl)
      split_ifs with hid
      · rw [hid, hentry, Option.map_some, Option.map_some, Option.map_some, hpending]
      · rfl
    | some p =>
      dsimp only
      by_cases hid : id = session_id
      · subst hid
        rw [if_pos rfl, hentry, Option.map_some, Option.map_some, Option.map_some, hpending]
        refine .took op rfl ((heldOf_set hop _ id).trans (congrArg _ ?_))
        unfold Stage.heldOf
        rw [Stage.holds, Option.bind_some, if_pos rfl]
      · rw [if_neg hid]
        have hheld : Stage.heldOf id (.verifyCheck session_id response p) = none := by
          unfold Stage.heldOf
          rw [Stage.holds, Option.bind_some, if_neg (Ne.symm hid)]
        refine .elsewhere (hquiet hheld) (fun _ _ h => by cases h) (fun h => by cases h) (fun op' id' h => ?_) (fun _ _ h => by cases h)
          (fun _ h => by cases h) (fun h => by cases h)
        obtain ⟨rfl, rfl⟩ := ChallengeEvent.took.inj h
        refine ⟨Ne.symm hid, ?_⟩
        rw [List.getElem?_set_self (List.getElem?_eq_some_iff.mp hop).1, Option.bind_some, hheld]

theorem turned_settle {session_id : String} {plaintext : Bytes} {ok : Bool}
    (hop : t.ops[op]? = some (.verifySettle session_id plaintext ok)) (env : Env) (result : Except String Unit) (id : String) :
    Turned id (viewOf t id) (heldOf t id) (Stage.event t.registry op (.verifySettle session_id plaintext ok))
      ((entryAfter env id (t.registry.sessions.lookup id) (.verifySettle session_id plaintext ok)).map fun h =>
        (h.pending_challenge, h.requested_role))
      (fun op' => (t.ops.set op (.done result))[op']?.bind (Stage.heldOf id)) := by
  have hquiet : ∀ op' p, (t.ops.set op (.done result))[op']?.bind (Stage.heldOf id) = some p → heldOf t id op' = some p :=
    heldOf_set_le hop fun p hp => by cases hp
  by_cases hid : id = session_id
  · subst hid
    have hheld : heldOf t id op = some plaintext := by
      unfold heldOf Stage.heldOf
      rw [hop, Option.bind_some, Stage.holds, Option.bind_some, if_pos rfl]
    unfold entryAfter viewOf
    dsimp only
    rw [if_pos rfl]
    cases hentry : t.registry.sessions.lookup id with
    | none =>
      have hevent : Stage.event t.registry op (.verifySettle id plaintext ok) = .nothing := by
        cases ok with
        | true =>
          unfold Stage.event
          dsimp only
          rw [hentry]
          rfl
        | false => exact if_neg fun hmem => by rw [mem_sessions_iff, hentry] at hmem; cases hmem
      rw [hevent]
      exact .quiet (by cases ok <;> rfl) hquiet
    | some h =>
      cases ok with
      | true =>
        unfold Stage.event
        dsimp only
        rw [hentry, Option.bind_some, if_pos rfl]
        cases hrole : h.requested_role with
        | none => exact .quiet (by rw [Option.map_some, Option.map_some, Option.map_some, hrole]) hquiet
        | some role => exact .granted op (by rw [Option.map_some, hrole]) hheld (heldOf_set hop _ id)
      | false =>
        have hevent : Stage.event t.registry op (.verifySettle id plaintext false) = .restored op id :=
          if_pos (mem_sessions_iff.mpr (by rw [hentry]; rfl))
        rw [hevent]
        exact .restored op rfl hheld (heldOf_set hop _ id)
  · have hentry : entryAfter env id (t.registry.sessions.lookup id) (.verifySettle session_id plaintext ok) =
        t.registry.sessions.lookup id := if_neg hid
    rw [hentry]
    have hevent : ∀ e, Stage.event t.registry op (.verifySettle session_id plaintext ok) = e →
        e = .nothing ∨ (∃ role, e = .granted op session_id role) ∨ e = .restored op session_id := by
      intro e he
      subst he
      cases ok with
      | true =>
        unfold Stage.event
        dsimp only
        cases (t.registry.sessions.lookup session_id).bind SessionMeta.requested_role with
        | none => exact .inl rfl
        | some role => exact .inr (.inl ⟨role, rfl⟩)
      | false =>
        unfold Stage.event
        dsimp only
        split_ifs
        · exact .inr (.inr rfl)
        · exact .inl rfl
    rcases hevent _ rfl with he | ⟨role, he⟩ | he
    · rw [he]
      exact .quiet rfl hquiet
    · rw [he]
      exact .elsewhere hquiet (fun _ _ h => by cases h) (fun h => by cases h) (fun _ _ h => by cases h)
        (fun _ _ h => hid (ChallengeEvent.granted.inj h).2.1.symm) (fun _ h => by cases h) (fun h => by cases h)
    · rw [he]
      exact .elsewhere hquiet (fun _ _ h => by cases h) (fun h => by cases h) (fun _ _ h => by cases h) (fun _ _ h => by cases h)
        (fun _ h => hid (ChallengeEvent.restored.inj h).2.symm) (fun h => by cases h)

theorem turned_advance (hop : t.ops[op]? = some stage) (env : Env) (id : String) :
    Turned id (viewOf t id) (heldOf t id) (stage.event t.registry op)
      (((advance scheme auth encrypt t.registry env stage).1.sessions.lookup id).map fun h => (h.pending_challenge, h.requested_role))
      (fun op' => (t.ops.set op (advance scheme auth encrypt t.registry env stage).2)[op']?.bind (Stage.heldOf id)) := by
  have hquiet : (∀ response, stage ≠ .verifyTake id response) → ∀ op' p,
      (t.ops.set op (advance scheme auth encrypt t.registry env stage).2)[op']?.bind (Stage.heldOf id) = some p →
        heldOf t id op' = some p := fun hne => heldOf_set_le hop (heldOf_advance hne)
  rw [lookup_advance]
  cases stage with
  | startInsert params id' =>
    have hheld := hquiet fun response h => by cases h
    unfold entryAfter
    dsimp only
    by_cases hid : id = id'
    · subst hid
      rw [if_pos rfl]
      exact .entered hheld
    · rw [if_neg hid]
      exact .other hid (.inl rfl) hheld
  | startAttach params id' plaintext =>
    exact turned_attach id env.instant id' plaintext (some params.requested_role) (hquiet fun response h => by cases h)
  | verifyTake session_id response => exact turned_take hop env id
  | verifySettle session_id plaintext ok => exact turned_settle hop env (.ok ()) id
  | closeRemove session_id => exact turned_removed id session_id (hquiet fun response h => by cases h)
  | executeTouch req =>
    refine .quiet ?_ (hquiet fun response h => by cases h)
    unfold entryAfter viewOf
    dsimp only
    split_ifs <;> cases t.registry.sessions.lookup id <;> rfl
  | closeTouch session_id =>
    refine .quiet ?_ (hquiet fun response h => by cases h)
    unfold entryAfter viewOf
    dsimp only
    split_ifs <;> cases t.registry.sessions.lookup id <;> rfl
  | _ => exact .quiet rfl (hquiet fun response h => by cases h)

theorem turned_step (scheme : SignatureScheme) (auth : Option LocalAuth) (encrypt : Bytes → Bytes → Except String Bytes) (idle : Nat)
    (t : RunnerState) (a : ChallengeStep) (id : String) :
    Turned id (viewOf t id) (heldOf t id) (event t a) (viewOf ((challenges scheme auth encrypt idle).next t a) id)
      (heldOf ((challenges scheme auth encrypt idle).next t a) id) := by
  cases a with
  | attach instant session_id plaintext role =>
    have hview := turned_attach id instant session_id plaintext role (t := t) fun op p hop => hop
    rw [← lookup_modify] at hview
    exact hview
  | run a =>
    cases a with
    | start params ctx => exact .quiet rfl (heldOf_begin t.ops rfl id)
    | execute req ctx => exact .quiet rfl (heldOf_begin t.ops rfl id)
    | close session_id ctx => exact .quiet rfl (heldOf_begin t.ops rfl id)
    | verify session_id response =>
      exact .elsewhere (heldOf_begin t.ops rfl id) (fun _ _ h => by cases h) (fun h => by cases h) (fun _ _ h => by cases h)
        (fun _ _ h => by cases h) (fun _ h => by cases h) (fun h => by cases h)
    | step op env =>
      unfold event challenges runner runnerStep Machine.next
      dsimp only
      cases hop : t.ops[op]? with
      | none => exact .quiet rfl fun op p h => h
      | some stage => exact turned_advance hop { env with pid := op } id
    | sweep instant expired =>
      unfold event
      dsimp only
      cases hsweeper : t.sweeper with
      | waiting =>
        refine .quiet ?_ fun op p h => h
        unfold challenges runner runnerStep Machine.next sweepStep viewOf
        dsimp only
        rw [hsweeper]
      | closing ids =>
        refine .quiet ?_ fun op p h => h
        unfold challenges runner runnerStep Machine.next sweepStep viewOf
        dsimp only
        rw [hsweeper]
        cases ids with
        | nil => rfl
        | cons id' ids => exact congrArg _ (lookup_backendClose t.registry id' id)
      | removing id' ids =>
        have hview : viewOf ((challenges scheme auth encrypt idle).next t (.run (.sweep instant expired))) id =
            (if id = id' then none else t.registry.sessions.lookup id).map fun h => (h.pending_challenge, h.requested_role) := by
          unfold challenges runner runnerStep Machine.next sweepStep viewOf
          dsimp only
          rw [hsweeper]
          exact congrArg _ (lookup_removeSession t.registry id' id)
        rw [hview]
        exact turned_removed id id' fun op p h => h

/-! ## Runs -/

theorem granted_stage {a : ChallengeStep} {id role : String} (h : event t a = .granted op id role) :
    ∃ plaintext, t.ops[op]? = some (.verifySettle id plaintext true) := by
  cases a with
  | attach instant session_id plaintext role' =>
    unfold event at h
    dsimp only at h
    split_ifs at h
  | run a =>
    cases a with
    | step op' env =>
      unfold event at h
      dsimp only at h
      cases hop : t.ops[op']? with
      | none =>
        rw [hop] at h
        cases h
      | some stage =>
        rw [hop, Option.map_some, Option.getD_some] at h
        cases stage with
        | verifySettle session_id plaintext ok =>
          cases ok with
          | true =>
            unfold Stage.event at h
            dsimp only at h
            split at h
            · cases h
            · obtain ⟨rfl, rfl, -⟩ := ChallengeEvent.granted.inj h
              exact ⟨plaintext, hop⟩
          | false =>
            unfold Stage.event at h
            dsimp only at h
            split_ifs at h
        | startAttach params id' plaintext =>
          unfold Stage.event at h
          dsimp only at h
          split_ifs at h
        | verifyTake session_id response =>
          unfold Stage.event at h
          dsimp only at h
          split at h <;> cases h
        | _ => cases h
    | sweep instant expired =>
      unfold event at h
      dsimp only at h
      split at h <;> cases h
    | _ => cases h

theorem heldOf_settle {id : String} {plaintext : Bytes} {ok : Bool} (h : t.ops[op]? = some (.verifySettle id plaintext ok)) :
    heldOf t id op = some plaintext := by
  unfold heldOf Stage.heldOf
  rw [h, Option.bind_some, Stage.holds, Option.bind_some, if_pos rfl]

/-- A session whose challenge is attached has none that is verified. -/
theorem heldOf_none {a : ChallengeStep} {id : String} {p : Bytes} {role : Option String} (h : Unhurried t a)
    (he : event t a = .attached id p role) (op : Nat) : heldOf t id op = none := by
  unfold Unhurried at h
  rw [he] at h
  unfold heldOf Stage.heldOf
  cases hop : t.ops[op]? with
  | none => rfl
  | some stage =>
    rw [Option.bind_some]
    cases hholds : stage.holds with
    | none => rfl
    | some held =>
      rw [Option.bind_some]
      exact if_neg (h stage (List.mem_of_getElem? hop) held hholds)

theorem answers_advance {env : Env} {response : Option Bytes} (h : stage.Answers response) :
    (advance scheme auth encrypt s env stage).2.Answers response := by
  have hfollows := advance_follows scheme auth encrypt s env stage
  generalize (advance scheme auth encrypt s env stage).2 = stage' at hfollows ⊢
  cases hfollows with
  | took response' htake => exact h
  | compared session_id response' plaintext =>
    cases hok : LocalAuth.verifyChallenge plaintext response' with
    | false => trivial
    | true => exact h.trans (congrArg some (of_decide_eq_true hok).symm)
  | _ => trivial

theorem note_responses (r : Record) (e : ChallengeEvent) (he : ∀ op response, e ≠ .asked op response) :
    (r.note e).responses = r.responses := by
  cases e with
  | asked op response => exact absurd rfl (he op response)
  | _ => rfl

theorem Tracked.answers_begin (h : Tracked t r) (stage : Stage) (r' : Record) (hstage : stage.Answers (r'.responses t.ops.length))
    (hresponses : ∀ op, op < t.ops.length → r'.responses op = r.responses op) (op : Nat) (stage' : Stage)
    (hop : (t.ops ++ [stage])[op]? = some stage') : stage'.Answers (r'.responses op) := by
  rcases getElem?_snoc hop with hop | ⟨rfl, rfl⟩
  · rw [hresponses op (List.getElem?_eq_some_iff.mp hop).1]
    exact h.answers op stage' hop
  · exact hstage

theorem event_step_asked (op : Nat) (env : Env) (op' : Nat) (response : Bytes) : event t (.run (.step op env)) ≠ .asked op' response := by
  intro h
  unfold event at h
  dsimp only at h
  cases hop : t.ops[op]? with
  | none =>
    rw [hop] at h
    cases h
  | some stage =>
    rw [hop, Option.map_some, Option.getD_some] at h
    unfold Stage.event at h
    split at h <;> first | cases h | (split at h <;> cases h)

theorem Tracked.answers_step (h : Tracked t r) (a : ChallengeStep) (op : Nat) (stage : Stage)
    (hop : ((challenges scheme auth encrypt idle).next t a).ops[op]? = some stage) :
    stage.Answers ((r.note (event t a)).responses op) := by
  cases a with
  | attach instant session_id plaintext role =>
    have he : (r.note (event t (.attach instant session_id plaintext role))).responses = r.responses := by
      refine note_responses r _ fun op' response he => ?_
      unfold event at he
      dsimp only at he
      split_ifs at he
    rw [he]
    exact h.answers op stage hop
  | run a =>
    cases a with
    | start params ctx => exact h.answers_begin (.startCheck params ctx) r trivial (fun _ _ => rfl) op stage hop
    | execute req ctx => exact h.answers_begin (.executeCheck req ctx) r trivial (fun _ _ => rfl) op stage hop
    | close session_id ctx => exact h.answers_begin (.closeCheck session_id ctx) r trivial (fun _ _ => rfl) op stage hop
    | verify session_id response =>
      have hself : (r.note (.asked t.ops.length response)).responses t.ops.length = some response := Function.update_self _ _ _
      exact h.answers_begin (.verifyTake session_id response) (r.note (.asked t.ops.length response)) hself
        (fun op' hlt => Function.update_of_ne hlt.ne _ _) op stage hop
    | step op' env =>
      rw [note_responses r _ (event_step_asked op' env)]
      unfold challenges runner runnerStep Machine.next at hop
      dsimp only at hop
      cases hop' : t.ops[op']? with
      | none =>
        rw [hop'] at hop
        exact h.answers op stage hop
      | some stage' =>
        rw [hop'] at hop
        dsimp only at hop
        by_cases heq : op' = op
        · subst heq
          rw [List.getElem?_set_self (List.getElem?_eq_some_iff.mp hop').1] at hop
          rw [← Option.some.inj hop]
          exact answers_advance (h.answers op' stage' hop')
        · rw [List.getElem?_set_ne heq] at hop
          exact h.answers op stage hop
    | sweep instant expired =>
      have he : (r.note (event t (.run (.sweep instant expired)))).responses = r.responses := by
        refine note_responses r _ fun op' response he => ?_
        unfold event at he
        dsimp only at he
        split at he <;> cases he
      rw [he]
      exact h.answers op stage hop

theorem Tracked.step (h : Tracked t r) (a : ChallengeStep) (hunhurried : Unhurried t a) :
    Tracked ((challenges scheme auth encrypt idle).next t a) (r.note (event t a)) := by
  have hgranted : ∀ {op id role n}, event t a = .granted op id role → r.taken op = some n →
      ∃ c, r.attached[n]? = some c ∧ c.session_id = id := by
    intro op id role n he hn
    obtain ⟨plaintext, hop⟩ := granted_stage he
    obtain ⟨-, n', hn', ⟨-, c, hc, hid, -⟩, -⟩ := (h.keptAt id).taken op plaintext (heldOf_settle hop)
    obtain rfl := Option.some.inj (hn.symm.trans hn')
    exact ⟨c, hc, hid⟩
  refine ⟨fun id => ?_, fun n hn => ?_, h.answers_step a⟩
  · exact (h.keptAt id).step h.bound (turned_step scheme auth encrypt idle t a id)
      (fun p role he op => heldOf_none hunhurried he op) fun op id' role n he _ hn => hgranted he hn
  · generalize he : event t a = e at hn hgranted ⊢
    cases e with
    | attached id p role =>
      refine (h.bound n hn).trans ?_
      simp [Record.note]
    | granted op id role =>
      rcases List.mem_append.mp hn with hold | hnew
      · exact h.bound n hold
      · obtain ⟨c, hc, -⟩ := hgranted rfl (Option.mem_toList.mp hnew)
        exact (List.getElem?_eq_some_iff.mp hc).1
    | _ => exact h.bound n hn

/-! ## Roles -/

/-- An operation gives a session no role but one that it asks for. -/
theorem role_entryAfter {env : Env} {id : String} {entry : Option SessionMeta} {role : String}
    (h : (entryAfter env id entry stage).bind SessionMeta.role = some role) : entry.bind SessionMeta.role = some role ∨
      ∃ plaintext, stage = .verifySettle id plaintext true ∧ entry.bind SessionMeta.requested_role = some role := by
  cases stage with
  | startInsert params id' =>
    unfold entryAfter at h
    dsimp only at h
    split_ifs at h
    · cases h
    · exact .inl h
  | verifySettle session_id plaintext ok =>
    unfold entryAfter at h
    dsimp only at h
    split_ifs at h with hid hok
    · subst hid hok
      cases entry with
      | none => cases h
      | some h' => exact .inr ⟨plaintext, rfl, h⟩
    · cases entry <;> exact .inl h
    · exact .inl h
  | closeRemove session_id =>
    unfold entryAfter at h
    dsimp only at h
    split_ifs at h
    · cases h
    · exact .inl h
  | startAttach params id' plaintext =>
    unfold entryAfter at h
    dsimp only at h
    split_ifs at h <;> cases entry <;> exact .inl h
  | verifyTake session_id response =>
    unfold entryAfter at h
    dsimp only at h
    split_ifs at h <;> cases entry <;> exact .inl h
  | executeTouch req =>
    unfold entryAfter at h
    dsimp only at h
    split_ifs at h <;> cases entry <;> exact .inl h
  | closeTouch session_id =>
    unfold entryAfter at h
    dsimp only at h
    split_ifs at h <;> cases entry <;> exact .inl h
  | _ => exact .inl h

theorem roleOf_step (a : ChallengeStep) {id role : String}
    (h : roleOf ((challenges scheme auth encrypt idle).next t a) id = some role) :
    roleOf t id = some role ∨ ∃ op, event t a = .granted op id role := by
  cases a with
  | attach instant session_id plaintext role' =>
    have hlookup := lookup_modify t.registry session_id (fun h => { h with
      pending_challenge := some plaintext, requested_role := role', last_active := instant }) id
    refine .inl ?_
    unfold roleOf at h ⊢
    change (((t.registry.modify session_id _).sessions.lookup id).bind SessionMeta.role) = some role at h
    rw [hlookup] at h
    split_ifs at h
    · cases hentry : t.registry.sessions.lookup id with
      | none =>
        rw [hentry] at h
        cases h
      | some h' =>
        rw [hentry] at h
        exact h
    · exact h
  | run a =>
    cases a with
    | step op env =>
      unfold challenges runner runnerStep Machine.next at h
      dsimp only at h
      cases hop : t.ops[op]? with
      | none =>
        rw [hop] at h
        exact .inl h
      | some stage =>
        rw [hop] at h
        unfold roleOf at h
        dsimp only at h
        rw [lookup_advance] at h
        rcases role_entryAfter h with hold | ⟨plaintext, rfl, hrole⟩
        · exact .inl hold
        · refine .inr ⟨op, ?_⟩
          unfold event
          dsimp only
          rw [hop, Option.map_some, Option.getD_some]
          unfold Stage.event
          dsimp only
          rw [hrole]
    | sweep instant expired =>
      refine .inl ?_
      unfold challenges runner runnerStep Machine.next sweepStep roleOf at h
      dsimp only at h
      cases hsweeper : t.sweeper with
      | waiting =>
        rw [hsweeper] at h
        exact h
      | closing ids =>
        rw [hsweeper] at h
        cases ids with
        | nil => exact h
        | cons id' ids =>
          dsimp only at h
          rwa [lookup_backendClose] at h
      | removing id' ids =>
        rw [hsweeper] at h
        dsimp only at h
        rw [lookup_removeSession] at h
        split_ifs at h
        · cases h
        · exact h
    | _ => exact .inl h

theorem Tracked.sound (h : Tracked t r) (a : ChallengeStep) : Sound t r a ((challenges scheme auth encrypt idle).next t a) := by
  refine ⟨fun id role hrole => roleOf_step a hrole, fun op id role he => ?_, fun op id he n _ m hm => ?_⟩
  · have hturned := turned_step scheme auth encrypt idle t a id
    rw [he] at hturned
    generalize viewOf ((challenges scheme auth encrypt idle).next t a) id = v' at hturned
    generalize heldOf ((challenges scheme auth encrypt idle).next t a) id = held' at hturned
    obtain ⟨plaintext, hop⟩ := granted_stage he
    obtain ⟨-, n, hn, ⟨hfresh, c, hc, hid, hplaintext⟩, hfits⟩ := (h.keptAt id).taken op plaintext (heldOf_settle hop)
    refine ⟨n, hn, hfresh, c, hc, ?_, hid, ?_⟩
    · rw [hplaintext]
      exact h.answers op _ hop
    · cases hturned with
      | elsewhere _ _ _ _ hgranted => exact absurd rfl (hgranted op role)
      | granted op hv hheld hupdate =>
        rcases hfits _ hv with hnone | ⟨c', hc', hincarnation, hrole⟩
        · cases hnone
        · obtain rfl := Option.some.inj (hc.symm.trans hc')
          exact ⟨hincarnation, hrole⟩
  · have hturned := turned_step scheme auth encrypt idle t a id
    rw [he] at hturned
    generalize viewOf ((challenges scheme auth encrypt idle).next t a) id = v' at hturned
    generalize heldOf ((challenges scheme auth encrypt idle).next t a) id = held' at hturned
    cases hturned with
    | elsewhere _ _ _ _ _ hrestored => exact absurd rfl (hrestored op)
    | restored op hv hheld hupdate =>
      have hnone := ((h.keptAt id).taken op _ hheld).1
      rw [hnone] at hm
      cases hm

theorem tracked_init (scheme : SignatureScheme) (auth : Option LocalAuth) (encrypt : Bytes → Bytes → Except String Bytes) (idle : Nat) :
    Tracked (runner scheme auth encrypt idle).init Record.empty :=
  ⟨fun id => ⟨fun n hn => (by cases hn), fun _ w hw => (by cases hw), fun op p hop => (by cases hop),
    fun op op' p p' hop => (by cases hop)⟩, fun n hn => absurd hn List.not_mem_nil, fun op stage hop => by cases hop⟩

/-- A role that a session is granted answers a challenge of its own, once, and no challenge takes the place of a later one, in each run
in which no challenge is attached to a session while one of its challenges is verified. -/
theorem roles_answer_challenges (scheme : SignatureScheme) (auth : Option LocalAuth) (encrypt : Bytes → Bytes → Except String Bytes)
    (idle : Nat) (as : List ChallengeStep) (h : (recorded scheme auth encrypt idle).Along (fun s a => Unhurried s.1 a) as) :
    (recorded scheme auth encrypt idle).Along (fun s a => Sound s.1 s.2 a ((challenges scheme auth encrypt idle).next s.1 a)) as := by
  intro pre a hpre
  have htracked : Tracked ((recorded scheme auth encrypt idle).state pre).1 ((recorded scheme auth encrypt idle).state pre).2 := by
    refine Machine.invariant_of_along (I := fun s => Tracked s.1 s.2) ?_ ?_ pre (h.restrict ((List.prefix_append _ _).trans hpre))
    · exact tracked_init scheme auth encrypt idle
    · exact fun s b hs hb => hs.step b hb
  exact htracked.sound a

/-- A runner with a key for challenges. -/
def challengedRunner : Machine (RunnerState × Record) ChallengeStep Unit :=
  recorded twoKeys (some ⟨some zeroKey⟩) (fun key plaintext => .ok (key ++ plaintext)) 10

/-- The steps of a start that asks for a role, with the challenge `random`. -/
def startAs (op : Nat) (role : String) (random : Bytes) : List ChallengeStep :=
  .run (.start ⟨zeroId, true, role⟩ (some ⟨zeroId, 100, 1, List.replicate 64 1⟩)) ::
    List.replicate 5 (.run (.step op ⟨100, 100, 0, .ok zeroId, true, .ok (), random⟩))

def stepAlone (op : Nat) : ChallengeStep := .run (.step op ⟨100, 100, 0, .ok zeroId, true, .ok (), []⟩)

/-- A challenge is answered. -/
def answeredInTime : List ChallengeStep := startAs 0 "user" [1, 2] ++ [.run (.verify zeroId [1, 2]), stepAlone 1, stepAlone 1, stepAlone 1]

theorem roles_answer_challenges_inTime :
    challengedRunner.Along
      (fun s a => Sound s.1 s.2 a ((challenges twoKeys (some ⟨some zeroKey⟩) (fun key plaintext => .ok (key ++ plaintext)) 10).next s.1 a))
      answeredInTime ∧ roleOf (challengedRunner.state answeredInTime).1 zeroId = some "user" := by
  refine ⟨roles_answer_challenges twoKeys (some ⟨some zeroKey⟩) (fun key plaintext => .ok (key ++ plaintext)) 10 answeredInTime ?_,
    by decide +kernel⟩
  rw [Machine.along_iff_alongFrom]
  decide +kernel

/-- The session is started again, for another role, between the two locks of a verification. -/
def startedBetween (response : Bytes) : List ChallengeStep :=
  startAs 0 "user" [1, 2] ++ [.run (.verify zeroId response), stepAlone 1] ++ startAs 2 "admin" [3, 4] ++ [stepAlone 1]

/-- The response to the challenge of one role is granted another role, in another incarnation of the session; and where the response is
wrong, the challenge takes the place of the later one. -/
theorem role_of_another_challenge :
    ¬ challengedRunner.Along
      (fun s a => Sound s.1 s.2 a ((challenges twoKeys (some ⟨some zeroKey⟩) (fun key plaintext => .ok (key ++ plaintext)) 10).next s.1 a))
      (startedBetween [1, 2] ++ [stepAlone 1]) ∧
    roleOf (challengedRunner.state (startedBetween [1, 2] ++ [stepAlone 1])).1 zeroId = some "admin" ∧
    event (challengedRunner.state (startedBetween [9])).1 (stepAlone 1) = .restored 1 zeroId ∧
      (challengedRunner.state (startedBetween [9])).2.taken 1 = some 0 ∧
      (challengedRunner.state (startedBetween [9])).2.pending zeroId = some 1 := by
  have hgranted : event (challengedRunner.state (startedBetween [1, 2])).1 (stepAlone 1) = .granted 1 zeroId "admin" := by decide +kernel
  have hanswered : ¬ Answered (challengedRunner.state (startedBetween [1, 2])).2 1 zeroId "admin" := by decide +kernel
  exact ⟨fun h => hanswered (h.last.answered 1 zeroId "admin" hgranted), by decide +kernel⟩

end Runner

end Opsense
