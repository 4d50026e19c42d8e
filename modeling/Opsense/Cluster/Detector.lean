import Mathlib
import Opsense.Lib.Machine

/-!
# Failure detection

What a node of the mesh thinks of its peers: `mark_alive`, `tick_suspects`, `tick_reap` and `report_missing` of
`opsense-mlib/src/gossip.rs`. A peer that has been silent is suspected, and a suspect is dead when it has been silent for longer, or
enough reports have come in that it is missing. Reports are counted, not the peers they come from: where every report that is counted
comes from a known peer that has not reported before, a peer that is dead early has been reported by as many peers as the quorum asks
for (`safe_of_heard`).
-/

namespace Opsense

inductive NodeState where
  | alive
  | suspect
  | dead
deriving DecidableEq, Repr

structure Peer where
  url : String
  state : NodeState
  /-- Milliseconds by the clock of the caller. -/
  lastSeenMs : Nat
  /-- A `u32`. -/
  confirmations : Nat
deriving DecidableEq

/-- The part of a node that observes; its peers are in the order of their ids. -/
structure Detector where
  nodeId : String
  peers : List (String × Peer)
  quorum : Nat
  settledSinceMs : Nat
deriving DecidableEq

namespace Detector

def new (node_id : String) (quorum now_ms : Nat) : Detector := ⟨node_id, [], max quorum 1, now_ms⟩

def lookup (peers : List (String × Peer)) (id : String) : Option Peer := (peers.find? fun x => x.1 = id).map Prod.snd

/-- A peer that is not known yet is added at its place. -/
def insert (id : String) (peer : Peer) : List (String × Peer) → List (String × Peer)
  | [] => [(id, peer)]
  | x :: peers => if id < x.1 then (id, peer) :: x :: peers else x :: insert id peer peers

/-- The peers that are changed, in place. -/
def update (f : String → Peer → Peer) (peers : List (String × Peer)) : List (String × Peer) := peers.map fun x => (x.1, f x.1 x.2)

/-- A peer answered. -/
def markAlive (d : Detector) (url node_id : String) (now_ms : Nat) : Detector :=
  if node_id = d.nodeId then d
  else
    match lookup d.peers node_id with
    | some peer =>
      { d with
        peers := update (fun id p => if id = node_id then ⟨url, .alive, now_ms, 0⟩ else p) d.peers
        settledSinceMs := if peer.state ≠ .alive then now_ms else d.settledSinceMs }
    | none => { d with peers := insert node_id ⟨url, .alive, now_ms, 0⟩ d.peers, settledSinceMs := now_ms }

/-- A peer has been silent for longer than the window. -/
def stale (window_ms now_ms : Nat) (p : Peer) : Bool := p.state = .alive ∧ window_ms < now_ms - p.lastSeenMs

/-- A suspect has been silent for too long, or enough reports have come in. -/
def expired (quorum dead_after_ms now_ms : Nat) (p : Peer) : Bool :=
  p.state = .suspect ∧ (dead_after_ms < now_ms - p.lastSeenMs ∨ quorum ≤ p.confirmations)

/-- The peers with a property change, and are returned. -/
def tick (due : Peer → Bool) (change : Peer → Peer) (d : Detector) (now_ms : Nat) : Detector × List String :=
  let newly := (d.peers.filter fun x => due x.2).map Prod.fst
  ({ d with
      peers := update (fun _ p => if due p then change p else p) d.peers
      settledSinceMs := if newly = [] then d.settledSinceMs else now_ms },
    newly)

def tickSuspects (d : Detector) (window_ms now_ms : Nat) : Detector × List String :=
  tick (stale window_ms now_ms) (fun p => { p with state := .suspect, confirmations := 0 }) d now_ms

def tickReap (d : Detector) (dead_after_ms now_ms : Nat) : Detector × List String :=
  tick (expired d.quorum dead_after_ms now_ms) (fun p => { p with state := .dead }) d now_ms

/-- A report that a peer is missing is counted: its reporter is not dead, and the peer is suspected. -/
def counted (d : Detector) (reporter target : String) : Bool :=
  (lookup d.peers reporter).map Peer.state ≠ some .dead ∧ (lookup d.peers target).map Peer.state = some .suspect

/-- A peer reports another one. The count wraps; a build with overflow checks panics instead. -/
def reportMissing (d : Detector) (reporter target : String) : Detector :=
  if counted d reporter target then
    { d with peers := update (fun id p => if id = target then { p with confirmations := (p.confirmations + 1) % 2 ^ 32 } else p) d.peers }
  else d

inductive Act where
  | markAlive (url node_id : String) (now_ms : Nat)
  | tickSuspects (window_ms now_ms : Nat)
  | tickReap (dead_after_ms now_ms : Nat)
  | reportMissing (reporter target : String)
deriving DecidableEq

def step (d : Detector) : Act → Detector × List String
  | .markAlive url node_id now_ms => (d.markAlive url node_id now_ms, [])
  | .tickSuspects window_ms now_ms => d.tickSuspects window_ms now_ms
  | .tickReap dead_after_ms now_ms => d.tickReap dead_after_ms now_ms
  | .reportMissing reporter target => (d.reportMissing reporter target, [])

def machine (node_id : String) (quorum now_ms : Nat) : Machine Detector Act (List String) where
  init := new node_id quorum now_ms
  step := step

/-! ## What a step does to a peer -/

theorem lookup_update (f : String → Peer → Peer) (peers : List (String × Peer)) (id : String) :
    lookup (update f peers) id = (lookup peers id).map (f id) := by
  induction peers with
  | nil => rfl
  | cons x peers ih =>
    by_cases h : x.1 = id
    · simp [lookup, update, h]
    · simpa [lookup, update, h] using ih

theorem lookup_insert {node_id : String} {peers : List (String × Peer)} (h : lookup peers node_id = none) (peer : Peer) (id : String) :
    lookup (insert node_id peer peers) id = if id = node_id then some peer else lookup peers id := by
  induction peers with
  | nil =>
    by_cases hid : id = node_id <;> simp [lookup, insert, hid, eq_comm]
  | cons x peers ih =>
    have hne : x.1 ≠ node_id := by
      intro heq
      simp [lookup, heq] at h
    have hrest : lookup peers node_id = none := by
      simpa [lookup, hne] using h
    unfold insert
    split_ifs with hlt hid
    · subst hid
      simp [lookup]
    · simp [lookup, Ne.symm hid]
    · subst id
      simpa [lookup, hne] using ih hrest
    · by_cases hx : x.1 = id
      · simp [lookup, hx]
      · simpa [lookup, hx, ‹¬id = node_id›] using ih hrest

section Steps

variable (d : Detector) (id : String)

theorem lookup_markAlive (url node_id : String) (now_ms : Nat) : lookup (d.markAlive url node_id now_ms).peers id =
    if id = node_id ∧ node_id ≠ d.nodeId then some ⟨url, .alive, now_ms, 0⟩ else lookup d.peers id := by
  unfold markAlive
  by_cases hown : node_id = d.nodeId
  · simp [hown]
  · rw [if_neg hown]
    cases hp : lookup d.peers node_id with
    | none => simp [lookup_insert hp, hown]
    | some p =>
      simp only [lookup_update]
      by_cases hid : id = node_id
      · subst hid
        simp [hp, hown]
      · simp [hid]

theorem lookup_tickSuspects (window_ms now_ms : Nat) : lookup (d.tickSuspects window_ms now_ms).1.peers id =
    (lookup d.peers id).map fun p => if stale window_ms now_ms p then { p with state := .suspect, confirmations := 0 } else p := by
  simp only [tickSuspects, tick, lookup_update]

theorem lookup_tickReap (dead_after_ms now_ms : Nat) : lookup (d.tickReap dead_after_ms now_ms).1.peers id =
    (lookup d.peers id).map fun p => if expired d.quorum dead_after_ms now_ms p then { p with state := .dead } else p := by
  simp only [tickReap, tick, lookup_update]

theorem lookup_reportMissing (reporter target : String) : lookup (d.reportMissing reporter target).peers id =
    if id = target ∧ counted d reporter target then
      (lookup d.peers id).map fun p => { p with confirmations := (p.confirmations + 1) % 2 ^ 32 }
    else lookup d.peers id := by
  unfold reportMissing
  by_cases hcounted : counted d reporter target
  · rw [if_pos hcounted, lookup_update]
    by_cases hid : id = target <;> simp [hid, hcounted]
  · simp [hcounted]

theorem nodeId_step (a : Act) : (d.step a).1.nodeId = d.nodeId ∧ (d.step a).1.quorum = d.quorum := by
  cases a with
  | markAlive url node_id now_ms =>
    simp only [step, markAlive]
    split_ifs
    · simp
    · cases lookup d.peers node_id <;> simp
  | tickSuspects window_ms now_ms => exact ⟨rfl, rfl⟩
  | tickReap dead_after_ms now_ms => exact ⟨rfl, rfl⟩
  | reportMissing reporter target =>
    simp only [step, reportMissing]
    split_ifs <;> simp

end Steps

/-! ## Who has reported a peer -/

def stateOf (d : Detector) (id : String) : Option NodeState := (lookup d.peers id).map Peer.state

section Runs

variable (node_id : String) (quorum now_ms : Nat)

/-- After the run, the step makes the peer a suspect. -/
def Suspects (as : List Act) (a : Act) (target : String) : Prop :=
  stateOf ((machine node_id quorum now_ms).state as) target ≠ some .suspect ∧
    stateOf ((machine node_id quorum now_ms).state (as ++ [a])) target = some .suspect

/-- In the run a known peer reported the target, which has not become a suspect since. -/
def Reported (as : List Act) (target reporter : String) : Prop :=
  ∃ before after, as = before ++ .reportMissing reporter target :: after ∧
    (lookup ((machine node_id quorum now_ms).state before).peers reporter).isSome ∧
    ∀ mid a, mid ++ [a] <+: after → ¬Suspects node_id quorum now_ms (before ++ .reportMissing reporter target :: mid) a target

/-- So many different known peers have reported the target since it became a suspect. -/
def Confirmed (as : List Act) (target : String) (n : Nat) : Prop :=
  ∃ reporters : List String, reporters.Nodup ∧ n ≤ reporters.length ∧ ∀ r ∈ reporters, Reported node_id quorum now_ms as target r

/-- Every report that is counted comes from a known peer that has not reported the target since it became a suspect. -/
def Heard (as : List Act) : Prop :=
  ∀ pre reporter target, pre ++ [.reportMissing reporter target] <+: as →
    counted ((machine node_id quorum now_ms).state pre) reporter target →
      (lookup ((machine node_id quorum now_ms).state pre).peers reporter).isSome ∧
        ¬Reported node_id quorum now_ms pre target reporter

/-- Peers only die as suspects, and before they have been silent for long enough only if the quorum has confirmed it; an answer clears
the suspicion and what was counted. -/
structure Safe (as : List Act) : Prop where
  dead : ∀ pre a, pre ++ [a] <+: as → ∀ id, stateOf ((machine node_id quorum now_ms).state pre) id ≠ some .dead →
    stateOf ((machine node_id quorum now_ms).state (pre ++ [a])) id = some .dead →
      ∃ p dead_after now, lookup ((machine node_id quorum now_ms).state pre).peers id = some p ∧ p.state = .suspect ∧
        a = .tickReap dead_after now ∧
        (now - p.lastSeenMs ≤ dead_after → Confirmed node_id quorum now_ms pre id (max quorum 1))
  cleared : ∀ pre url id now, pre ++ [.markAlive url id now] <+: as → id ≠ node_id →
    lookup ((machine node_id quorum now_ms).state (pre ++ [.markAlive url id now])).peers id = some ⟨url, .alive, now, 0⟩

variable {node_id : String} {quorum now_ms : Nat}

theorem state_snoc (as : List Act) (a : Act) : (machine node_id quorum now_ms).state (as ++ [a]) =
    (((machine node_id quorum now_ms).state as).step a).1 := Machine.state_snoc _ _ _

/-- The id of the node and its quorum stay. -/
theorem state_nodeId (as : List Act) : ((machine node_id quorum now_ms).state as).nodeId = node_id ∧
    ((machine node_id quorum now_ms).state as).quorum = max quorum 1 := by
  induction as using List.reverseRecOn with
  | nil => exact ⟨rfl, rfl⟩
  | append_singleton as a ih =>
    rw [state_snoc, (nodeId_step _ a).1, (nodeId_step _ a).2]
    exact ih

variable {as : List Act}

theorem Reported.snoc {a : Act} {target reporter : String} (h : Reported node_id quorum now_ms as target reporter)
    (hnot : ¬Suspects node_id quorum now_ms as a target) : Reported node_id quorum now_ms (as ++ [a]) target reporter := by
  obtain ⟨before, after, rfl, hknown, hsince⟩ := h
  refine ⟨before, after ++ [a], by simp, hknown, ?_⟩
  intro mid b hmid
  rcases List.prefix_concat_iff.mp hmid with heq | hmid
  · obtain ⟨rfl, hb⟩ := List.append_inj' heq rfl
    rw [List.singleton_inj] at hb
    exact hb ▸ hnot
  · exact hsince mid b hmid

theorem reported_last {target reporter : String} (hknown : (lookup ((machine node_id quorum now_ms).state as).peers reporter).isSome) :
    Reported node_id quorum now_ms (as ++ [.reportMissing reporter target]) target reporter := by
  refine ⟨as, [], rfl, hknown, ?_⟩
  intro mid a hmid
  simp at hmid

/-- While a suspect stays one, what was confirmed of it stays. -/
theorem Confirmed.snoc {a : Act} {target : String} {n : Nat} (h : Confirmed node_id quorum now_ms as target n)
    (hsuspect : stateOf ((machine node_id quorum now_ms).state as) target = some .suspect) :
    Confirmed node_id quorum now_ms (as ++ [a]) target n := by
  obtain ⟨reporters, hnodup, hn, hreported⟩ := h
  refine ⟨reporters, hnodup, hn, ?_⟩
  intro r hr
  exact (hreported r hr).snoc fun hsuspects => hsuspects.1 hsuspect

theorem confirmed_zero (as : List Act) (target : String) : Confirmed node_id quorum now_ms as target 0 :=
  ⟨[], by simp, by simp, by simp⟩

theorem Heard.init {a : Act} (h : Heard node_id quorum now_ms (as ++ [a])) : Heard node_id quorum now_ms as :=
  fun pre reporter target hpre => h pre reporter target (hpre.trans (List.prefix_append _ _))

/-- What is counted of a suspect is confirmed. -/
theorem confirmed_of_heard (h : Heard node_id quorum now_ms as) {id : String} {p : Peer}
    (hp : lookup ((machine node_id quorum now_ms).state as).peers id = some p) (hsuspect : p.state = .suspect) :
    Confirmed node_id quorum now_ms as id p.confirmations := by
  induction as using List.reverseRecOn generalizing p with
  | nil => cases hp
  | append_singleton as a ih =>
    have ih := fun {p} => ih (p := p) h.init
    -- a peer that is a suspect as it was before
    have hsame : lookup ((machine node_id quorum now_ms).state as).peers id = some p →
        Confirmed node_id quorum now_ms (as ++ [a]) id p.confirmations := by
      intro hbefore
      refine (ih hbefore hsuspect).snoc ?_
      rw [stateOf, hbefore, Option.map_some, hsuspect]
    rw [state_snoc] at hp
    cases a with
    | markAlive url id' now =>
      simp only [step, lookup_markAlive] at hp
      split_ifs at hp
      · obtain rfl := Option.some.inj hp
        cases hsuspect
      · exact hsame hp
    | tickSuspects window now =>
      simp only [step, lookup_tickSuspects] at hp
      obtain ⟨p₀, hbefore, heq⟩ := Option.map_eq_some_iff.mp hp
      split_ifs at heq
      · subst heq
        exact confirmed_zero _ _
      · exact hsame (heq ▸ hbefore)
    | tickReap dead_after now =>
      simp only [step, lookup_tickReap] at hp
      obtain ⟨p₀, hbefore, heq⟩ := Option.map_eq_some_iff.mp hp
      split_ifs at heq
      · subst heq
        cases hsuspect
      · exact hsame (heq ▸ hbefore)
    | reportMissing reporter target =>
      simp only [step, lookup_reportMissing] at hp
      split_ifs at hp with hcounted
      · obtain ⟨rfl, hcounted⟩ := hcounted
        obtain ⟨p₀, hbefore, rfl⟩ := Option.map_eq_some_iff.mp hp
        obtain ⟨hknown, hnew⟩ := h as reporter id (List.prefix_refl _) hcounted
        obtain ⟨reporters, hnodup, hn, hreported⟩ := ih hbefore hsuspect
        have hstate : stateOf ((machine node_id quorum now_ms).state as) id = some .suspect := by
          rw [stateOf, hbefore, Option.map_some]
          exact congrArg some hsuspect
        refine ⟨reporter :: reporters, List.nodup_cons.mpr ⟨fun hmem => hnew (hreported _ hmem), hnodup⟩, ?_, ?_⟩
        · have := Nat.mod_le (p₀.confirmations + 1) (2 ^ 32)
          simp only [List.length_cons]
          omega
        · intro r hr
          rcases List.mem_cons.mp hr with rfl | hr
          · exact reported_last hknown
          · exact (hreported r hr).snoc fun hsuspects => hsuspects.1 hstate
      · exact hsame hp

/-- A peer that dies was a suspect, and is dead for its silence or for what was counted. -/
theorem dead_of_step {d : Detector} {a : Act} {id : String} (hbefore : stateOf d id ≠ some .dead)
    (hafter : stateOf (d.step a).1 id = some .dead) : ∃ p dead_after now, lookup d.peers id = some p ∧ p.state = .suspect ∧
      a = .tickReap dead_after now ∧ (dead_after < now - p.lastSeenMs ∨ d.quorum ≤ p.confirmations) := by
  unfold stateOf at hbefore hafter
  cases a with
  | markAlive url id' now =>
    simp only [step, lookup_markAlive] at hafter
    split_ifs at hafter
    · cases hafter
    · exact absurd hafter hbefore
  | tickSuspects window now =>
    simp only [step, lookup_tickSuspects, Option.map_map] at hafter
    obtain ⟨p, hp, heq⟩ := Option.map_eq_some_iff.mp hafter
    simp only [Function.comp_apply] at heq
    split_ifs at heq
    exact absurd (by rw [hp, Option.map_some, heq]) hbefore
  | tickReap dead_after now =>
    simp only [step, lookup_tickReap, Option.map_map] at hafter
    obtain ⟨p, hp, heq⟩ := Option.map_eq_some_iff.mp hafter
    simp only [Function.comp_apply] at heq
    split_ifs at heq with hexpired
    · obtain ⟨hsuspect, hor⟩ := of_decide_eq_true hexpired
      exact ⟨p, dead_after, now, hp, hsuspect, rfl, hor⟩
    · exact absurd (by rw [hp, Option.map_some, heq]) hbefore
  | reportMissing reporter target =>
    simp only [step, lookup_reportMissing] at hafter
    split_ifs at hafter
    · rw [Option.map_map] at hafter
      exact absurd hafter hbefore
    · exact absurd hafter hbefore

/-- In a run whose reports come from known peers, each for the first time since the target became a suspect, detection is safe. -/
theorem safe_of_heard {as : List Act} (h : Heard node_id quorum now_ms as) : Safe node_id quorum now_ms as := by
  constructor
  · intro pre a hpre id hbefore hafter
    rw [state_snoc] at hafter
    obtain ⟨p, dead_after, now, hp, hsuspect, rfl, hor⟩ := dead_of_step hbefore hafter
    refine ⟨p, dead_after, now, hp, hsuspect, rfl, ?_⟩
    intro hearly
    have hheard : Heard node_id quorum now_ms pre := fun pre' reporter target hpre' =>
      h pre' reporter target ((hpre'.trans (List.prefix_append _ _)).trans hpre)
    obtain ⟨reporters, hnodup, hn, hreported⟩ := confirmed_of_heard hheard hp hsuspect
    rw [(state_nodeId pre).2] at hor
    exact ⟨reporters, hnodup, by omega, hreported⟩
  · intro pre url id now _ hid
    rw [state_snoc]
    simp only [step, lookup_markAlive]
    rw [(state_nodeId pre).1]
    simp [hid]

end Runs

/-- One peer suspected, and reported by the other one. -/
def reportedOnce : List Act :=
  [.markAlive "http://node-b" "node-b" 0, .markAlive "http://node-c" "node-c" 100, .tickSuspects 10 100,
    .reportMissing "node-c" "node-b", .tickReap 1000 100]

theorem safe_reportedOnce : Safe "node-a" 1 0 reportedOnce := by
  refine safe_of_heard ?_
  intro pre reporter target hpre hcounted
  have hshort : pre = reportedOnce.take 3 ∧ reporter = "node-c" ∧ target = "node-b" := by
    obtain ⟨rest, hrest⟩ := hpre
    unfold reportedOnce at *
    rcases pre with _ | ⟨a, _ | ⟨b, _ | ⟨c, _ | ⟨d, _ | ⟨e, pre⟩⟩⟩⟩⟩ <;> simp at hrest
    obtain ⟨rfl, rfl, rfl, ⟨rfl, rfl⟩, -⟩ := hrest
    simp
  obtain ⟨rfl, rfl, rfl⟩ := hshort
  refine ⟨by decide +kernel, ?_⟩
  rintro ⟨before, after, heq, -, -⟩
  have hmem : Act.reportMissing "node-c" "node-b" ∈ reportedOnce.take 3 := by
    rw [heq]
    simp
  revert hmem
  decide

/-- One peer suspected, and reported twice by the other one. -/
def reportedTwice : List Act :=
  [.markAlive "http://node-b" "node-b" 0, .markAlive "http://node-c" "node-c" 100, .tickSuspects 10 100,
    .reportMissing "node-c" "node-b", .reportMissing "node-c" "node-b", .tickReap 1000 100]

/-- Two reports of one peer are a quorum of two. -/
theorem noisy_reporter : ¬Safe "node-a" 2 0 reportedTwice := by
  intro h
  obtain ⟨p, dead_after, now, hp, -, ha, hconfirmed⟩ :=
    h.dead (reportedTwice.take 5) (.tickReap 1000 100) (List.prefix_refl _) "node-b" (by decide +kernel) (by decide +kernel)
  obtain ⟨rfl, rfl⟩ := Act.tickReap.inj ha
  obtain ⟨reporters, hnodup, htwo, hreported⟩ := hconfirmed (by omega)
  have hsub : reporters ⊆ ["node-c"] := by
    intro r hr
    obtain ⟨before, after, heq, -, -⟩ := hreported r hr
    have hmem : Act.reportMissing r "node-b" ∈ reportedTwice.take 5 := by
      rw [heq]
      simp
    simpa [reportedTwice] using hmem
  have hone := (hnodup.subperm hsub).length_le
  simp at hone htwo
  omega

end Detector

end Opsense
