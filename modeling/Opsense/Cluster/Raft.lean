import Opsense.Lib.Machine
import Opsense.Lib.Text

/-!
# The map of clusters a log decides

A command changes the map of clusters or is refused before it enters the log; the state of a node is the map that the commands
of its log lead to. A request to group nodes into a cluster that exists asks whether its members are among those requested,
where it must ask the converse: when the request adds members and leaves none out, they are not added.
-/

namespace Opsense

/-- A set of nodes that serve one pipeline. -/
structure Cluster where
  id : String
  members : Finset String
  pipeline : String
  epoch : Nat
deriving DecidableEq

/-- A cluster of one member. -/
def Cluster.solo (id node_id pipeline : String) : Cluster := ⟨id, {node_id}, pipeline, 0⟩

def Cluster.has (c : Cluster) (node_id : String) : Bool := node_id ∈ c.members

/-- The clusters by their ids. -/
abbrev ClusterMap := AList fun _ : String => Cluster

namespace ClusterMap

/-- What the log holds. -/
inductive Command where
  | create (cluster : Cluster)
  | addMember (cluster_id node_id : String)
  | removeMember (cluster_id node_id : String)
  | group (cluster_id : String) (members : Finset String) (pipeline : String)
  | dissolve (cluster_id : String)
deriving DecidableEq

/-- Why a command is refused. -/
inductive Refusal where
  | noMembers
  | exists' (cluster_id : String)
  | noCluster (cluster_id : String)
  | noNode
  | otherPipeline (cluster_id existing pipeline : String)
deriving DecidableEq

/-- The text of a refusal; `debug` writes a text as `{:?}` does. -/
def Refusal.message (debug : String → String) : Refusal → String
  | .noMembers => "cụm phải có ít nhất một thành viên"
  | .exists' cluster_id => "cụm " ++ cluster_id ++ " đã tồn tại"
  | .noCluster cluster_id => "không có cụm " ++ cluster_id
  | .noNode => "node_id rỗng"
  | .otherPipeline cluster_id existing pipeline => "cụm " ++ cluster_id ++ " đang phục vụ pipeline " ++ debug existing ++
      ", không thể đổi sang " ++ debug pipeline ++ " — hãy giải thể rồi tạo lại"

inductive Outcome where
  | noop
  | applied
  | rejected (why : Refusal)
deriving DecidableEq

def addMember (state : ClusterMap) (cluster_id node_id : String) : ClusterMap × Outcome :=
  if trim node_id.toList = [] then (state, .rejected .noNode)
  else
    match state.lookup cluster_id with
    | none => (state, .rejected (.noCluster cluster_id))
    | some c =>
      if node_id ∈ c.members then (state, .noop)
      else (state.insert cluster_id { c with members := insert node_id c.members }, .applied)

def removeMember (state : ClusterMap) (cluster_id node_id : String) : ClusterMap × Outcome :=
  match state.lookup cluster_id with
  | none => (state, .rejected (.noCluster cluster_id))
  | some c =>
    if node_id ∉ c.members then (state, .noop)
    else
      let members := c.members.erase node_id
      -- a cluster is not left empty
      if members = ∅ then (state.erase cluster_id, .applied)
      else (state.insert cluster_id { c with members := members }, .applied)

/-- What a command does to the map. -/
def apply (state : ClusterMap) : Command → ClusterMap × Outcome
  | .create cluster =>
    if cluster.members = ∅ then (state, .rejected .noMembers)
    else
      match state.lookup cluster.id with
      | some existing => if existing = cluster then (state, .noop) else (state, .rejected (.exists' cluster.id))
      | none => (state.insert cluster.id cluster, .applied)
  | .addMember cluster_id node_id => addMember state cluster_id node_id
  | .removeMember cluster_id node_id => removeMember state cluster_id node_id
  | .group cluster_id members pipeline =>
    if hne : members.Nonempty then
      match state.lookup cluster_id with
      | some existing =>
        if existing.pipeline ≠ pipeline then
          (state, .rejected (.otherPipeline cluster_id existing.pipeline pipeline))
        else if existing.members ⊆ members then (state, .noop)
        else (state.insert cluster_id { existing with members := existing.members ∪ members }, .applied)
      | none =>
        let cluster := Cluster.solo cluster_id (members.min' hne) pipeline
        (state.insert cluster_id { cluster with members := cluster.members ∪ members }, .applied)
    else (state, .rejected .noMembers)
  | .dissolve cluster_id =>
    match state.lookup cluster_id with
    | some _ => (state.erase cluster_id, .applied)
    | none => (state, .rejected (.noCluster cluster_id))

/-- The map that takes the commands of a log. -/
def machine : Machine ClusterMap Command Outcome where
  init := ∅
  step := apply

end ClusterMap

/-! ## A node -/

/-- The state of a node, with an engine that decides or without one. -/
structure Raft where
  node_id : String
  state : ClusterMap
  consensus : Bool

/-- A proposal with what the engine answers when it is given the command: whether it was committed, or an error. -/
structure Proposal where
  cmd : ClusterMap.Command
  answer : Except String Bool

namespace Raft

/-- A command that is not refused is given to the engine, and applied when the engine returns no error. -/
def propose (r : Raft) (p : Proposal) : Raft × Except String ClusterMap.Outcome :=
  let trial := ClusterMap.apply r.state p.cmd
  match trial.2 with
  | .rejected why => (r, .ok (.rejected why))
  | outcome =>
    if r.consensus then
      match p.answer with
      | .error e => (r, .error e)
      | .ok _ => ({ r with state := trial.1 }, .ok outcome)
    else (r, .error "chưa cắm engine quyết định: không thể commit lệnh vào log")

def machine (node_id : String) (consensus : Bool) : Machine Raft Proposal (Except String ClusterMap.Outcome) where
  init := ⟨node_id, ∅, consensus⟩
  step := propose

/-- The commands of a run that entered the log. -/
def log (t : List (Proposal × Except String ClusterMap.Outcome)) : List ClusterMap.Command :=
  t.filterMap fun e =>
    match e.2 with
    | .ok (.rejected _) => none
    | .ok _ => some e.1.cmd
    | .error _ => none

inductive Role where
  | master
  | standby
deriving DecidableEq

/-- The role of the node in a cluster, as the engine that names the leader decides; outside the cluster it has no say. -/
def roleOf (r : Raft) (leader_of : String → Option String) (cluster_id : String) : Role :=
  match r.state.lookup cluster_id with
  | none => .master
  | some c =>
    if c.has r.node_id then
      if r.consensus ∧ leader_of cluster_id = some r.node_id then .master else .standby
    else .master

end Raft

/-! ## The laws of a step -/

namespace ClusterMap

/-- What the command asks for holds of the map. -/
def Command.Holds (state : ClusterMap) : Command → Prop
  | .create cluster => state.lookup cluster.id = some cluster
  | .addMember cluster_id node_id => ∃ c, state.lookup cluster_id = some c ∧ node_id ∈ c.members
  | .removeMember cluster_id node_id => ∀ c, state.lookup cluster_id = some c → node_id ∉ c.members
  | .group cluster_id members pipeline =>
    ∃ c, state.lookup cluster_id = some c ∧ c.pipeline = pipeline ∧ members ⊆ c.members
  | .dissolve cluster_id => state.lookup cluster_id = none

/-- The laws of one command on one map. -/
structure Lawful (state : ClusterMap) (cmd : Command) : Prop where
  unchanged : (apply state cmd).2 = .noop ∨ (∃ why, (apply state cmd).2 = .rejected why) → (apply state cmd).1 = state
  noop : (apply state cmd).2 = .noop → cmd.Holds state
  grouped : ∀ cluster_id members pipeline, cmd = .group cluster_id members pipeline →
    (∀ why, (apply state cmd).2 ≠ .rejected why) →
    ∃ c, (apply state cmd).1.lookup cluster_id = some c ∧ members ⊆ c.members

/-- Every cluster has a member and is stored under its own id. -/
def Sound (state : ClusterMap) : Prop :=
  ∀ cluster_id c, state.lookup cluster_id = some c → c.members.Nonempty ∧ c.id = cluster_id

/-- A request to group does not ask for all the members of a cluster that exists and for others besides. -/
def Regular (state : ClusterMap) : Command → Prop
  | .group cluster_id members pipeline =>
    ∀ c, state.lookup cluster_id = some c → c.pipeline = pipeline → ¬c.members ⊂ members
  | _ => True

variable {state : ClusterMap}

theorem Sound.insert (h : Sound state) {cluster_id : String} {c : Cluster} (hne : c.members.Nonempty)
    (hid : c.id = cluster_id) : Sound (state.insert cluster_id c) := by
  intro key c' hc'
  by_cases hkey : key = cluster_id
  · subst hkey
    rw [AList.lookup_insert] at hc'
    obtain rfl := Option.some.inj hc'
    exact ⟨hne, hid⟩
  · rw [AList.lookup_insert_ne hkey] at hc'
    exact h key c' hc'

theorem Sound.erase (h : Sound state) (cluster_id : String) : Sound (state.erase cluster_id) := by
  intro key c' hc'
  by_cases hkey : key = cluster_id
  · subst hkey
    rw [AList.lookup_erase] at hc'
    cases hc'
  · rw [AList.lookup_erase_ne hkey] at hc'
    exact h key c' hc'

/-- A command keeps every cluster non-empty and under its id. -/
theorem Sound.apply (h : Sound state) (cmd : Command) : Sound (apply state cmd).1 := by
  cases cmd with
  | create cluster =>
    unfold ClusterMap.apply
    dsimp only
    split_ifs with hempty
    · exact h
    · split
      · split_ifs <;> exact h
      · exact h.insert (Finset.nonempty_iff_ne_empty.mpr hempty) rfl
  | addMember cluster_id node_id =>
    unfold ClusterMap.apply addMember
    dsimp only
    split_ifs
    · exact h
    · split
      · exact h
      · rename_i c hc
        split_ifs
        · exact h
        · exact h.insert (Finset.insert_nonempty _ _) (h cluster_id c hc).2
  | removeMember cluster_id node_id =>
    unfold ClusterMap.apply removeMember
    dsimp only
    split
    · exact h
    · rename_i c hc
      split_ifs with hmem hempty
      · exact h.erase cluster_id
      · exact h.insert (Finset.nonempty_iff_ne_empty.mpr hempty) (h cluster_id c hc).2
      · exact h
  | group cluster_id members pipeline =>
    unfold ClusterMap.apply
    dsimp only
    split_ifs with hne
    · split
      · rename_i c hc
        split_ifs
        · exact h
        · exact h
        · exact h.insert (hne.mono Finset.subset_union_right) (h cluster_id c hc).2
      · exact h.insert (hne.mono Finset.subset_union_right) rfl
    · exact h
  | dissolve cluster_id =>
    unfold ClusterMap.apply
    dsimp only
    split
    · exact h.erase cluster_id
    · exact h

/-- A command that is not applied leaves the map as it was. -/
theorem apply_unchanged (cmd : Command) (h : (apply state cmd).2 ≠ .applied) : (apply state cmd).1 = state := by
  cases cmd with
  | create cluster =>
    unfold apply at h ⊢
    dsimp only at h ⊢
    split_ifs at h ⊢
    · rfl
    · split at h
      · split_ifs <;> rfl
      · exact absurd rfl h
  | addMember cluster_id node_id =>
    unfold apply addMember at h ⊢
    dsimp only at h ⊢
    split_ifs at h ⊢
    · rfl
    · split at h
      · rfl
      · split_ifs at h ⊢
        · rfl
        · exact absurd rfl h
  | removeMember cluster_id node_id =>
    unfold apply removeMember at h ⊢
    dsimp only at h ⊢
    split at h
    · rfl
    · split_ifs at h ⊢
      · exact absurd rfl h
      · exact absurd rfl h
      · rfl
  | group cluster_id members pipeline =>
    unfold apply at h ⊢
    dsimp only at h ⊢
    split_ifs at h ⊢
    · split at h
      · split_ifs at h ⊢
        · rfl
        · rfl
        · exact absurd rfl h
      · exact absurd rfl h
    · rfl
  | dissolve cluster_id =>
    unfold apply at h ⊢
    dsimp only at h ⊢
    split at h
    · exact absurd rfl h
    · rfl

/-- A regular command that does nothing asks for what holds already. -/
theorem holds_of_noop {cmd : Command} (hreg : Regular state cmd) (h : (apply state cmd).2 = .noop) : cmd.Holds state := by
  cases cmd with
  | create cluster =>
    unfold apply at h
    dsimp only at h
    split_ifs at h
    split at h
    · rename_i existing hexisting
      split_ifs at h with heq
      exact hexisting.trans (congrArg some heq)
    · cases h
  | addMember cluster_id node_id =>
    unfold apply addMember at h
    dsimp only at h
    split_ifs at h
    split at h
    · cases h
    · rename_i c hc
      split_ifs at h with hmem
      exact ⟨c, hc, hmem⟩
  | removeMember cluster_id node_id =>
    unfold apply removeMember at h
    dsimp only at h
    split at h
    · cases h
    · rename_i c hc
      split_ifs at h with hmem
      intro c' hc'
      obtain rfl := Option.some.inj (hc'.symm.trans hc)
      exact hmem
  | group cluster_id members pipeline =>
    unfold apply at h
    dsimp only at h
    split_ifs at h
    split at h
    · rename_i c hc
      split_ifs at h with hpipe hsub
      have hpipe := not_not.mp hpipe
      refine ⟨c, hc, hpipe, ?_⟩
      have hnot : ¬c.members ⊂ members := hreg c hc hpipe
      exact (eq_of_subset_of_not_ssubset hsub hnot).ge
    · cases h
  | dissolve cluster_id =>
    unfold apply at h
    dsimp only at h
    split at h <;> cases h

/-- After a regular request to group that is not refused the cluster has the members requested. -/
theorem grouped_of_regular {cluster_id pipeline : String} {members : Finset String}
    (hreg : Regular state (.group cluster_id members pipeline))
    (h : ∀ why, (apply state (.group cluster_id members pipeline)).2 ≠ .rejected why) :
    ∃ c, (apply state (.group cluster_id members pipeline)).1.lookup cluster_id = some c ∧ members ⊆ c.members := by
  by_cases hnoop : (apply state (.group cluster_id members pipeline)).2 = .noop
  · obtain ⟨c, hc, -, hsub⟩ := holds_of_noop hreg hnoop
    have hne : (apply state (.group cluster_id members pipeline)).2 ≠ .applied := by
      rw [hnoop]
      exact nofun
    exact ⟨c, by rw [apply_unchanged _ hne]; exact hc, hsub⟩
  · unfold apply at h hnoop ⊢
    dsimp only at h hnoop ⊢
    split_ifs at h hnoop ⊢
    · cases hc : state.lookup cluster_id with
      | none => exact ⟨_, AList.lookup_insert _, Finset.subset_union_right⟩
      | some existing =>
        rw [hc] at h hnoop
        dsimp only at h hnoop ⊢
        split_ifs at h hnoop ⊢
        · exact absurd rfl (h _)
        · exact absurd rfl hnoop
        · exact ⟨_, AList.lookup_insert _, Finset.subset_union_right⟩
    · exact absurd rfl (h _)

/-- The commands that keep their laws on a map are the regular ones. -/
theorem lawful_iff (state : ClusterMap) (cmd : Command) : Lawful state cmd ↔ Regular state cmd := by
  constructor
  · intro h
    cases cmd with
    | group cluster_id members pipeline =>
      intro c hc hpipe hsub
      have hne : members.Nonempty := by
        obtain ⟨m, hm, -⟩ := Finset.exists_of_ssubset hsub
        exact ⟨m, hm⟩
      have hnoop : apply state (.group cluster_id members pipeline) = (state, .noop) := by
        unfold apply
        dsimp only
        rw [dif_pos hne, hc]
        dsimp only
        rw [if_neg (not_not.mpr hpipe), if_pos hsub.subset]
      obtain ⟨c', hc', hmembers⟩ := h.grouped cluster_id members pipeline rfl (by rw [hnoop]; exact nofun)
      rw [hnoop] at hc'
      obtain rfl := Option.some.inj (hc'.symm.trans hc)
      exact hsub.2 hmembers
    | create cluster => trivial
    | addMember cluster_id node_id => trivial
    | removeMember cluster_id node_id => trivial
    | dissolve cluster_id => trivial
  · intro hreg
    refine ⟨fun h => apply_unchanged cmd ?_, holds_of_noop hreg, ?_⟩
    · rcases h with h | ⟨why, h⟩ <;> rw [h] <;> exact nofun
    · rintro cluster_id members pipeline rfl h
      exact grouped_of_regular hreg h

theorem sound (cmds : List Command) : Sound (machine.state cmds) :=
  Machine.invariant (fun cluster_id c hc => by rw [show machine.init.lookup cluster_id = none from rfl] at hc; cases hc)
    (fun _ cmd h => h.apply cmd) cmds

end ClusterMap

namespace Raft

open ClusterMap

theorem log_snoc (t : List (Proposal × Except String ClusterMap.Outcome)) (e : Proposal × Except String ClusterMap.Outcome) :
    log (t ++ [e]) = log t ++ log [e] := List.filterMap_append

/-- A proposal is applied when it enters the log, and changes nothing otherwise. -/
theorem propose_state (r : Raft) (p : Proposal) :
    (propose r p).1.state = (log [(p, (propose r p).2)]).foldl ClusterMap.machine.next r.state := by
  unfold propose
  dsimp only
  split
  · rfl
  · rename_i outcome hout
    split_ifs
    · split
      · rfl
      · cases houtcome : (ClusterMap.apply r.state p.cmd).2 with
        | rejected why => exact absurd houtcome (hout why)
        | noop => rfl
        | applied => rfl
    · rfl

/-- The state of a node is the map the commands of its log lead to. -/
theorem state_eq_replay (node_id : String) (consensus : Bool) (ps : List Proposal) :
    ((machine node_id consensus).state ps).state =
      ClusterMap.machine.state (log ((machine node_id consensus).trace ps)) := by
  induction ps using List.reverseRecOn with
  | nil => rfl
  | append_singleton ps p ih =>
    rw [Machine.state_snoc, Machine.trace_snoc, log_snoc, Machine.state_append, ← ih]
    exact propose_state _ p

end Raft

namespace ClusterMap

/-- Along every sequence of commands: every step keeps its laws, every cluster is non-empty and under its id, and every node
whose log is the sequence is in the state it leads to; exactly when every request to group is regular. -/
theorem log_laws_iff (cmds : List Command) :
    ((∀ pre cmd, pre ++ [cmd] <+: cmds → Lawful (machine.state pre) cmd) ∧ Sound (machine.state cmds) ∧
      ∀ node_id consensus ps, Raft.log ((Raft.machine node_id consensus).trace ps) = cmds →
        ((Raft.machine node_id consensus).state ps).state = machine.state cmds) ↔
    machine.Along Regular cmds := by
  constructor
  · intro h pre cmd hpre
    exact (lawful_iff _ cmd).mp (h.1 pre cmd hpre)
  · intro h
    refine ⟨fun pre cmd hpre => (lawful_iff _ cmd).mpr (h pre cmd hpre), sound cmds, fun node_id consensus ps hlog => ?_⟩
    rw [← hlog]
    exact Raft.state_eq_replay node_id consensus ps

/-- A command that comes again changes nothing more. -/
theorem apply_again (state : ClusterMap) (cmd : Command) : (apply (apply state cmd).1 cmd).1 = (apply state cmd).1 := by
  by_cases happlied : (apply state cmd).2 = .applied
  · cases cmd with
    | create cluster =>
      unfold apply at happlied ⊢
      dsimp only at happlied ⊢
      split_ifs at happlied ⊢
      cases hc : state.lookup cluster.id with
      | some existing =>
        rw [hc] at happlied
        dsimp only at happlied
        split_ifs at happlied
      | none => simp
    | addMember cluster_id node_id =>
      unfold apply addMember at happlied ⊢
      dsimp only at happlied ⊢
      split_ifs at happlied ⊢
      cases hc : state.lookup cluster_id with
      | none => simp [hc] at happlied
      | some c => by_cases hmem : node_id ∈ c.members <;> simp [hc, hmem]
    | removeMember cluster_id node_id =>
      unfold apply removeMember at happlied ⊢
      dsimp only at happlied ⊢
      cases hc : state.lookup cluster_id with
      | none => simp [hc] at happlied
      | some c =>
        by_cases hmem : node_id ∈ c.members
        · by_cases hempty : c.members.erase node_id = ∅ <;> simp [hmem, hempty]
        · simp [hc, hmem]
    | group cluster_id members pipeline =>
      unfold apply at happlied ⊢
      dsimp only at happlied ⊢
      split_ifs at happlied ⊢
      cases hc : state.lookup cluster_id with
      | none => simp [Cluster.solo, Finset.min'_mem]
      | some existing =>
        rw [hc] at happlied
        dsimp only at happlied ⊢
        split_ifs at happlied ⊢ with hpipe hsub
        simp [hpipe, hsub, Finset.union_subset_iff, Finset.union_assoc]
    | dissolve cluster_id =>
      unfold apply
      cases hc : state.lookup cluster_id <;> simp [hc]
  · rw [apply_unchanged cmd happlied, apply_unchanged cmd happlied]

/-- A log in which commands come several times in a row leads where the log leads in which each comes once. -/
theorem replay_repeated (log : List (Command × Nat)) :
    machine.state (log.flatMap fun e => List.replicate (e.2 + 1) e.1) = machine.state (log.map Prod.fst) := by
  induction log using List.reverseRecOn with
  | nil => rfl
  | append_singleton log e ih =>
    have hlast : ∀ n s, (List.replicate (n + 1) e.1).foldl machine.next s = machine.next s e.1 := by
      intro n s
      induction n with
      | zero => rfl
      | succ n ih =>
        rw [List.replicate_succ', List.foldl_append, ih]
        exact apply_again s e.1
    rw [List.flatMap_append, List.map_append, Machine.state_append, Machine.state_append, ih, List.flatMap_singleton]
    exact hlast e.2 _

/-- Grouping two nodes into a cluster that one of them forms is answered with a no-op, and the other is not a member. -/
theorem group_leaves_member_out :
    let cmds := [Command.group "c1" {"node-a"} "grid"]
    let cmd := Command.group "c1" {"node-a", "node-b"} "grid"
    machine.out (machine.state cmds) cmd = .noop ∧
      ((machine.state (cmds ++ [cmd])).lookup "c1").map Cluster.members = some {"node-a"} ∧
      ¬Lawful (machine.state cmds) cmd := by
  refine ⟨by decide +kernel, by decide +kernel, ?_⟩
  rw [lawful_iff]
  intro h
  exact h ⟨"c1", {"node-a"}, "grid", 0⟩ (by decide +kernel) rfl (by decide +kernel)

end ClusterMap

end Opsense
