import Opsense.Cluster.Info
import Opsense.Lib.Entries
import Opsense.Lib.Machine

/-!
# Nodes that gossip

Nodes publish, send what they know to their peers, and merge what arrives; what was sent may arrive in any order, more than
once or never. While no node restarts, a node's own entry is the newest there is of it, so the nodes that have heard from one
another agree. A node that restarts counts its versions from zero again: what it publishes then is taken for old by the peers
that hold what it published before, and the node itself takes the old entry back from them.
-/

namespace Opsense

/-- A node: its id, what it published last, what it knows, and whether that changed. -/
structure Gossip where
  node_id : String
  published : Info
  known : InfoState
  dirty : Bool

namespace Gossip

def new (node_id : String) : Gossip := ⟨node_id, Info.default, InfoState.new, false⟩

def publish (g : Gossip) (info : Info) : Gossip :=
  { g with published := info, known := g.known.setLocal g.node_id info, dirty := true }

def apply (g : Gossip) (remote : InfoState) : Gossip :=
  let r := g.known.apply remote
  { g with known := r.1, dirty := g.dirty || r.2 }

end Gossip

/-- The nodes by their ids, and what was sent so far. -/
structure Mesh where
  nodes : String → Gossip
  sent : List InfoState

namespace Mesh

inductive Act where
  | publish (node : String) (info : Info)
  | send (node : String)
  /-- What was sent as the given one in the order of sending arrives at the node. -/
  | deliver (node : String) (index : Nat)
  /-- The node loses what it had in memory. -/
  | restart (node : String)
deriving DecidableEq

def setNode (s : Mesh) (node : String) (g : Gossip) : Mesh :=
  { s with nodes := fun i => if i = node then g else s.nodes i }

def step (s : Mesh) : Act → Mesh × Unit
  | .publish node info => (s.setNode node ((s.nodes node).publish info), ())
  | .send node => ({ s with sent := s.sent ++ [(s.nodes node).known] }, ())
  | .deliver node index =>
    match s.sent[index]? with
    | some remote => (s.setNode node ((s.nodes node).apply remote), ())
    | none => (s, ())
  | .restart node => (s.setNode node (Gossip.new node), ())

def machine : Machine Mesh Act Unit where
  init := ⟨Gossip.new, []⟩
  step := step

/-- The entry a node has of a node. -/
def entry (s : Mesh) (i n : String) : Option Entry := (s.nodes i).known.entry n

def info (s : Mesh) (i n : String) : Option Info := (s.nodes i).known.info n

/-- What a node published last. -/
def lastPublished (n : String) (as : List Act) : Option Info :=
  as.foldl (fun last a => match a with
    | .publish node info => if node = n then some info else last
    | _ => last) none

/-- In the run from a state the node `i` merged what `j` sent, and `j` did not publish after it sent that. -/
def CaughtUp (s : Mesh) (as : List Act) (i j : String) : Prop :=
  ∃ before between after, as = before ++ .send j :: (between ++ .deliver i (machine.stateFrom s before).sent.length :: after) ∧
    ∀ info, .publish j info ∉ between ++ after

/-! ## What a step does to the entries -/

variable {s : Mesh} {i n : String}

theorem nodes_setNode (s : Mesh) (node : String) (g : Gossip) (i : String) :
    (s.setNode node g).nodes i = if i = node then g else s.nodes i := rfl

theorem entry_publish (hid : ∀ i, (s.nodes i).node_id = i) (node : String) (info : Info) (i n : String) :
    (machine.next s (.publish node info)).entry i n =
      if i = node ∧ n = node then some (info, ⟨saturatingSucc (s.nodes node).known.lamport, node⟩) else s.entry i n := by
  unfold entry
  change ((s.setNode node ((s.nodes node).publish info)).nodes i).known.entry n = _
  rw [nodes_setNode]
  by_cases hi : i = node
  · subst hi
    rw [if_pos rfl]
    unfold Gossip.publish
    rw [InfoState.entry_setLocal, hid]
    simp only [true_and]
  · rw [if_neg hi, if_neg fun h => hi h.1]

theorem next_deliver_none {index : Nat} (h : s.sent[index]? = none) (node : String) :
    machine.next s (.deliver node index) = s := by
  simp only [Machine.next, machine, step, h]

theorem next_deliver {index : Nat} {remote : InfoState} (h : s.sent[index]? = some remote) (node : String) :
    machine.next s (.deliver node index) = s.setNode node ((s.nodes node).apply remote) := by
  simp only [Machine.next, machine, step, h]

theorem entry_deliver {index : Nat} {remote : InfoState} (h : s.sent[index]? = some remote) (node i n : String) :
    (machine.next s (.deliver node index)).entry i n =
      if i = node then InfoState.merged (s.entry i n) (remote.entry n) else s.entry i n := by
  rw [next_deliver h]
  unfold entry
  rw [nodes_setNode]
  split_ifs with hi
  · subst hi
    exact InfoState.entry_apply _ _ n
  · rfl

theorem entry_restart (s : Mesh) (node i n : String) :
    (machine.next s (.restart node)).entry i n = if i = node then none else s.entry i n := by
  change ((s.setNode node (Gossip.new node)).nodes i).known.entry n = _
  rw [nodes_setNode]
  split_ifs <;> rfl

theorem sent_next (s : Mesh) (a : Act) :
    (machine.next s a).sent = s.sent ∨ ∃ node, a = .send node ∧ (machine.next s a).sent = s.sent ++ [(s.nodes node).known] := by
  cases a with
  | publish node info => exact Or.inl rfl
  | send node => exact Or.inr ⟨node, rfl, rfl⟩
  | deliver node index =>
    cases h : s.sent[index]? with
    | none => exact Or.inl (by rw [next_deliver_none h])
    | some remote => exact Or.inl (by rw [next_deliver h]; rfl)
  | restart node => exact Or.inl rfl

theorem sent_isPrefix (s : Mesh) (as : List Act) : s.sent <+: (machine.stateFrom s as).sent := by
  refine Machine.invariant_from (I := fun t : Mesh => s.sent <+: t.sent) (List.prefix_refl _) fun t a _ ht => ?_
  rcases sent_next t a with h | ⟨node, -, h⟩
  · rw [h]
    exact ht
  · rw [h]
    exact ht.trans (List.prefix_append _ _)

/-- The nodes are stored under their ids. -/
theorem node_id_next (hid : ∀ i, (s.nodes i).node_id = i) (a : Act) (i : String) :
    ((machine.next s a).nodes i).node_id = i := by
  cases a with
  | publish node info =>
    change ((s.setNode node _).nodes i).node_id = i
    rw [nodes_setNode]
    split_ifs with hi
    · exact hi ▸ hid node
    · exact hid i
  | send node => exact hid i
  | deliver node index =>
    cases h : s.sent[index]? with
    | none => rw [next_deliver_none h]; exact hid i
    | some remote =>
      rw [next_deliver h, nodes_setNode]
      split_ifs with hi
      · exact hi ▸ hid node
      · exact hid i
  | restart node =>
    change ((s.setNode node _).nodes i).node_id = i
    rw [nodes_setNode]
    split_ifs with hi
    · exact hi.symm
    · exact hid i

/-! ## An entry that prevails -/

/-- The entry is the given one or older. -/
def Under (top e : Option Entry) : Prop := ∀ x, e = some x → ∃ t, top = some t ∧ (x = t ∨ x.2.lamport < t.2.lamport)

theorem under_none (top : Option Entry) : Under top none := nofun

theorem under_refl (top : Option Entry) : Under top top := by
  intro x hx
  exact ⟨x, hx, Or.inl rfl⟩

theorem Under.merged {top e remote : Option Entry} (he : Under top e) (hr : Under top remote) :
    Under top (InfoState.merged e remote) := by
  cases e with
  | none => rwa [InfoState.merged_none_left]
  | some current =>
    cases remote with
    | none => rwa [InfoState.merged_none_right]
    | some r =>
      unfold InfoState.merged
      dsimp only
      split_ifs
      · exact hr
      · exact he

theorem merged_top {top remote : Option Entry} (hr : Under top remote) : InfoState.merged top remote = top := by
  cases remote with
  | none => exact InfoState.merged_none_right top
  | some r =>
    obtain ⟨t, rfl, rfl | hlt⟩ := hr r rfl
    · unfold InfoState.merged Version.isNewerThan
      dsimp only
      split_ifs <;> rfl
    · unfold InfoState.merged Version.isNewerThan
      dsimp only
      rw [if_neg]
      rw [decide_eq_true_iff]
      omega

/-- The entry that prevails replaces what is there. -/
theorem merged_of_top {top e : Option Entry} (he : Under top e) : InfoState.merged e top = top := by
  cases e with
  | none => exact InfoState.merged_none_left top
  | some current =>
    obtain ⟨t, rfl, rfl | hlt⟩ := he current rfl
    · unfold InfoState.merged
      dsimp only
      split_ifs <;> rfl
    · unfold InfoState.merged Version.isNewerThan
      dsimp only
      rw [if_pos]
      rw [decide_eq_true_iff]
      exact Or.inl hlt

/-- The action is one of the nodes of the set, neither a restart nor a publication of `n`, and delivers nothing that was sent
before the first `base`. -/
def Calm (nodes : Set String) (base : Nat) (n : String) : Act → Prop
  | .publish node _ => node ∈ nodes ∧ node ≠ n
  | .send node => node ∈ nodes
  | .deliver node index => node ∈ nodes ∧ base ≤ index
  | .restart _ => False

/-- The node `n` has the entry of itself, and the nodes of the set and what was sent from `base` on have it or an older one. -/
structure Topped (nodes : Set String) (base : Nat) (n : String) (top : Option Entry) (s : Mesh) : Prop where
  ids : ∀ i, (s.nodes i).node_id = i
  own : s.entry n n = top
  nodes : ∀ i ∈ nodes, Under top (s.entry i n)
  sent : ∀ k remote, base ≤ k → s.sent[k]? = some remote → Under top (remote.entry n)

variable {nodes : Set String} {base : Nat} {top : Option Entry}

/-- A node that has the entry that prevails keeps it. -/
theorem Topped.kept (h : Topped nodes base n top s) {a : Act} (ha : Calm nodes base n a) {i : String} (hi : s.entry i n = top) :
    (machine.next s a).entry i n = top := by
  cases a with
  | publish node info =>
    rw [entry_publish h.ids, if_neg, hi]
    rintro ⟨-, heq⟩
    exact ha.2 heq.symm
  | send node => exact hi
  | deliver node index =>
    cases hr : s.sent[index]? with
    | none => rw [next_deliver_none hr]; exact hi
    | some remote =>
      rw [entry_deliver hr, hi]
      split_ifs
      · exact merged_top (h.sent index remote ha.2 hr)
      · rfl
  | restart node => exact ha.elim

theorem Topped.step (h : Topped nodes base n top s) {a : Act} (ha : Calm nodes base n a) :
    Topped nodes base n top (machine.next s a) := by
  have hids := node_id_next h.ids a
  have hown := h.kept ha h.own
  cases a with
  | publish node info =>
    refine ⟨hids, hown, fun i hi => ?_, h.sent⟩
    rw [entry_publish h.ids, if_neg]
    · exact h.nodes i hi
    · rintro ⟨-, heq⟩
      exact ha.2 heq.symm
  | send node =>
    refine ⟨hids, hown, h.nodes, fun k remote hk hremote => ?_⟩
    change (s.sent ++ [(s.nodes node).known])[k]? = some remote at hremote
    rcases getElem?_snoc hremote with hremote | ⟨-, rfl⟩
    · exact h.sent k remote hk hremote
    · exact h.nodes node ha
  | deliver node index =>
    obtain ⟨hnode, hbase⟩ := ha
    cases hr : s.sent[index]? with
    | none => rw [next_deliver_none hr]; exact h
    | some remote =>
      have hunder := h.sent index remote hbase hr
      refine ⟨hids, hown, fun i hi => ?_, fun k r hk hkr => ?_⟩
      · rw [entry_deliver hr]
        split_ifs
        · exact (h.nodes i hi).merged hunder
        · exact h.nodes i hi
      · rw [next_deliver hr] at hkr
        exact h.sent k r hk hkr
  | restart node => exact ha.elim

theorem Topped.run (h : Topped nodes base n top s) {as : List Act} (has : ∀ a ∈ as, Calm nodes base n a) :
    Topped nodes base n top (machine.stateFrom s as) :=
  Machine.invariant_from h fun _ a ha hs => hs.step (has a ha)

theorem Topped.keeps (h : Topped nodes base n top s) (hi : s.entry i n = top) {as : List Act}
    (has : ∀ a ∈ as, Calm nodes base n a) : (machine.stateFrom s as).entry i n = top :=
  (Machine.invariant_from (I := fun s => Topped nodes base n top s ∧ s.entry i n = top) ⟨h, hi⟩
    fun _ a ha hs => ⟨hs.1.step (has a ha), hs.1.kept (has a ha) hs.2⟩).2

/-- A node that merged what `n` sent has the entry that prevails. -/
theorem Topped.caughtUp (h : Topped nodes base n top s) (hbase : base ≤ s.sent.length) {before between after : List Act}
    (hn : n ∈ nodes) (hi : i ∈ nodes) (hbefore : ∀ a ∈ before, Calm nodes base n a)
    (hrest : ∀ a ∈ between ++ after, Calm nodes base n a) :
    (machine.stateFrom s (before ++ .send n :: (between ++
      .deliver i (machine.stateFrom s before).sent.length :: after))).entry i n = top := by
  rw [Machine.stateFrom_append]
  have hb := h.run hbefore
  have hlen : base ≤ (machine.stateFrom s before).sent.length := hbase.trans (sent_isPrefix s before).length_le
  generalize machine.stateFrom s before = s₁ at hb hlen
  rw [Machine.stateFrom_cons, Machine.stateFrom_append, Machine.stateFrom_cons]
  have hsend : Topped nodes base n top (machine.next s₁ (.send n)) := hb.step hn
  have hat : (machine.next s₁ (.send n)).sent[s₁.sent.length]? = some (s₁.nodes n).known := by
    change (s₁.sent ++ [(s₁.nodes n).known])[s₁.sent.length]? = _
    rw [List.getElem?_append_right le_rfl, Nat.sub_self]
    rfl
  have hbetween : ∀ a ∈ between, Calm nodes base n a := fun a ha => hrest a (List.mem_append_left _ ha)
  have hafter : ∀ a ∈ after, Calm nodes base n a := fun a ha => hrest a (List.mem_append_right _ ha)
  have hmid := hsend.run hbetween
  have hthere : (machine.stateFrom (machine.next s₁ (.send n)) between).sent[s₁.sent.length]? = some (s₁.nodes n).known := by
    obtain ⟨more, hmore⟩ := sent_isPrefix (machine.next s₁ (.send n)) between
    rw [← hmore, List.getElem?_append_left (List.getElem?_eq_some_iff.mp hat).1]
    exact hat
  have hcalm : Calm nodes base n (.deliver i s₁.sent.length) := ⟨hi, hlen⟩
  refine (hmid.step hcalm).keeps ?_ hafter
  have hown : (s₁.nodes n).known.entry n = top := hb.own
  rw [entry_deliver hthere, if_pos rfl, hown]
  exact merged_of_top (hmid.nodes i hi)

/-! ## Nodes that do not restart -/

/-- The action is one of the nodes of the set and not a restart, and a node that publishes has counts left. -/
def Lively (nodes : Set String) (s : Mesh) : Act → Prop
  | .publish node _ => node ∈ nodes ∧ (s.nodes node).known.lamport < U64_MAX
  | .send node => node ∈ nodes
  | .deliver node _ => node ∈ nodes
  | .restart _ => False

/-- The invariant of the runs without restarts: of every node there is nothing newer than what it has of itself, which is what
it published last. -/
structure Current (nodes : Set String) (as : List Act) (s : Mesh) : Prop where
  topped : ∀ n, Topped nodes 0 n (s.entry n n) s
  counted : ∀ n e, s.entry n n = some e → e.2.lamport ≤ (s.nodes n).known.lamport
  last : ∀ n, s.info n n = lastPublished n as
  outside : ∀ n, n ∉ nodes → s.entry n n = none

variable {as : List Act}

theorem lastPublished_snoc (n : String) (as : List Act) (a : Act) :
    lastPublished n (as ++ [a]) = match a with
      | .publish node info => if node = n then some info else lastPublished n as
      | _ => lastPublished n as := by
  unfold lastPublished
  rw [List.foldl_append]
  rfl

theorem Current.publish (h : Current nodes as s) {node : String} (hnode : node ∈ nodes)
    (hcount : (s.nodes node).known.lamport < U64_MAX) (info : Info) :
    Current nodes (as ++ [.publish node info]) (machine.next s (.publish node info)) := by
  have hids := (h.topped node).ids
  have hsucc : saturatingSucc (s.nodes node).known.lamport = (s.nodes node).known.lamport + 1 := by
    unfold saturatingSucc
    omega
  have hlamport : ∀ n, ((machine.next s (.publish node info)).nodes n).known.lamport =
      if n = node then (s.nodes node).known.lamport + 1 else (s.nodes n).known.lamport := by
    intro n
    change ((s.setNode node ((s.nodes node).publish info)).nodes n).known.lamport = _
    rw [nodes_setNode]
    split_ifs
    · exact hsucc
    · rfl
  refine ⟨fun n => ?_, fun n e he => ?_, fun n => ?_, fun n hn => ?_⟩
  · by_cases hn : n = node
    · subst hn
      have hown := entry_publish hids n info n n
      rw [if_pos ⟨rfl, rfl⟩] at hown
      have hnewer : ∀ e, Under (s.entry n n) e → Under (some (info, ⟨saturatingSucc (s.nodes n).known.lamport, n⟩)) e := by
        intro e he x hx
        obtain ⟨t, ht, hxt⟩ := he x hx
        have hcounted := h.counted n t ht
        refine ⟨_, rfl, Or.inr ?_⟩
        dsimp only
        rcases hxt with rfl | hlt <;> omega
      rw [hown]
      refine ⟨node_id_next hids _, hown, fun i hi => ?_, fun k remote hk hr => hnewer _ ((h.topped n).sent k remote hk hr)⟩
      rw [entry_publish hids]
      split_ifs
      · exact under_refl _
      · exact hnewer _ ((h.topped n).nodes i hi)
    · have hstep := (h.topped n).step (a := .publish node info) ⟨hnode, Ne.symm hn⟩
      rw [hstep.own]
      exact hstep
  · rw [entry_publish hids] at he
    rw [hlamport]
    split_ifs at he with hn
    · obtain rfl := Option.some.inj he
      rw [if_pos hn.1]
      exact hsucc.le
    · have hcounted := h.counted n e he
      split_ifs with hn'
      · subst hn'
        exact absurd ⟨rfl, rfl⟩ hn
      · exact hcounted
  · have hentry := entry_publish hids node info n n
    unfold Mesh.info InfoState.info
    change ((machine.next s (.publish node info)).entry n n).map Prod.fst = _
    rw [hentry, lastPublished_snoc]
    dsimp only
    by_cases hn : n = node
    · subst hn
      rw [if_pos ⟨rfl, rfl⟩, if_pos rfl]
      rfl
    · rw [if_neg fun hand => hn hand.1, if_neg (Ne.symm hn)]
      exact h.last n
  · rw [entry_publish hids, if_neg]
    · exact h.outside n hn
    · rintro ⟨rfl, -⟩
      exact hn hnode

/-- A step that publishes nothing. -/
theorem Current.quiet (h : Current nodes as s) {a : Act} (hcalm : ∀ n, Calm nodes 0 n a)
    (hlast : ∀ n, lastPublished n (as ++ [a]) = lastPublished n as)
    (hlamport : ∀ n, (s.nodes n).known.lamport ≤ ((machine.next s a).nodes n).known.lamport) : Current nodes (as ++ [a]) (machine.next s a) := by
  have hown : ∀ n, (machine.next s a).entry n n = s.entry n n := fun n => ((h.topped n).step (hcalm n)).own
  refine ⟨fun n => ?_, fun n e he => ?_, fun n => ?_, fun n hn => ?_⟩
  · rw [hown]
    exact (h.topped n).step (hcalm n)
  · rw [hown] at he
    exact (h.counted n e he).trans (hlamport n)
  · rw [hlast, ← h.last n]
    exact congrArg (Option.map Prod.fst) (hown n)
  · rw [hown]
    exact h.outside n hn

theorem Current.step (h : Current nodes as s) {a : Act} (ha : Lively nodes s a) :
    Current nodes (as ++ [a]) (machine.next s a) := by
  cases a with
  | publish node info => exact h.publish ha.1 ha.2 info
  | send node => exact h.quiet (fun _ => ha) (fun n => lastPublished_snoc n as _) fun _ => le_rfl
  | deliver node index =>
    refine h.quiet (fun _ => ⟨ha, Nat.zero_le _⟩) (fun n => lastPublished_snoc n as _) fun n => ?_
    cases hr : s.sent[index]? with
    | none => rw [next_deliver_none hr]
    | some remote =>
      rw [next_deliver hr, nodes_setNode]
      split_ifs with hn
      · subst hn
        exact InfoState.lamport_le_apply _ _
      · exact le_rfl
  | restart node => exact ha.elim

theorem current (nodes : Set String) (as : List Act) (h : machine.Along (Lively nodes) as) :
    Current nodes as (machine.state as) := by
  induction as using List.reverseRecOn with
  | nil =>
    refine ⟨fun n => ⟨fun _ => rfl, rfl, fun i _ => under_none _, fun k remote _ hr => ?_⟩, nofun, fun _ => rfl,
      fun _ _ => rfl⟩
    rw [show (machine.state []).sent = [] from rfl] at hr
    cases hr
  | append_singleton as a ih =>
    obtain ⟨has, ha⟩ := Machine.along_snoc.mp h
    rw [Machine.state_snoc]
    exact (ih has).step ha

/-- What is met along a run is met by each of its actions. -/
theorem lively_of_mem (h : machine.Along (Lively nodes) as) {a : Act} (ha : a ∈ as) : ∃ s, Lively nodes s a := by
  obtain ⟨before, after, rfl⟩ := List.append_of_mem ha
  exact ⟨_, h before a ⟨after, by rw [List.append_assoc]; rfl⟩⟩

theorem Lively.calm {a : Act} (h : Lively nodes s a) (hn : ∀ info, a ≠ .publish n info) : Calm nodes 0 n a := by
  cases a with
  | publish node info => exact ⟨h.1, fun heq => hn info (heq ▸ rfl)⟩
  | send node => exact h
  | deliver node index => exact ⟨h, Nat.zero_le _⟩
  | restart node => exact h.elim

/-- A node that merged what another sent after its last publication has the entry of it. -/
theorem entry_of_caughtUp (h : machine.Along (Lively nodes) as) (hi : i ∈ nodes) (hn : n ∈ nodes)
    (hcaught : CaughtUp machine.init as i n) : (machine.state as).entry i n = (machine.state as).entry n n := by
  obtain ⟨before, between, after, rfl, hquiet⟩ := hcaught
  have hbefore : machine.Along (Lively nodes) before := fun pre a hpre => h pre a (hpre.trans (List.prefix_append _ _))
  have hrest : ∀ a ∈ between ++ after, Calm nodes 0 n a := by
    intro a ha
    have hmem : a ∈ before ++ .send n :: (between ++ .deliver i (machine.stateFrom machine.init before).sent.length :: after) := by
      refine List.mem_append_right _ (List.mem_cons_of_mem _ ?_)
      rcases List.mem_append.mp ha with ha | ha
      · exact List.mem_append_left _ ha
      · exact List.mem_append_right _ (List.mem_cons_of_mem _ ha)
    obtain ⟨s, hs⟩ := lively_of_mem h hmem
    refine hs.calm fun info heq => ?_
    subst heq
    exact hquiet info ha
  have htop := (current nodes before hbefore).topped n
  have hcalm : ∀ a ∈ .send n :: (between ++ .deliver i (machine.state before).sent.length :: after), Calm nodes 0 n a := by
    intro a ha
    rcases List.mem_cons.mp ha with rfl | ha
    · exact hn
    · rcases List.mem_append.mp ha with ha | ha
      · exact hrest a (List.mem_append_left _ ha)
      · rcases List.mem_cons.mp ha with rfl | ha
        · exact ⟨hi, Nat.zero_le _⟩
        · exact hrest a (List.mem_append_right _ ha)
  have hentry : (machine.stateFrom (machine.state before) ([] ++ .send n :: (between ++
      .deliver i (machine.state before).sent.length :: after))).entry i n = (machine.state before).entry n n :=
    htop.caughtUp (Nat.zero_le _) hn hi nofun hrest
  rw [Machine.state_append]
  exact hentry.trans (htop.run hcalm).own.symm

/-- In every run of nodes that do not restart, once every node merged what every other sent after its last publication, all
nodes know the same, and of each node what it published last. -/
theorem nodes_converge (nodes : Set String) (as : List Act) (h : machine.Along (Lively nodes) as)
    (hcaught : ∀ i ∈ nodes, ∀ j ∈ nodes, i ≠ j → CaughtUp machine.init as i j) :
    (∀ i ∈ nodes, ∀ j ∈ nodes, ∀ n, (machine.state as).info i n = (machine.state as).info j n) ∧
    ∀ i ∈ nodes, ∀ n ∈ nodes, (machine.state as).info i n = lastPublished n as := by
  have hcurrent := current nodes as h
  have hown : ∀ i ∈ nodes, ∀ n ∈ nodes, (machine.state as).info i n = lastPublished n as := by
    intro i hi n hn
    rw [← hcurrent.last n]
    by_cases hin : i = n
    · rw [hin]
    · exact congrArg (Option.map Prod.fst) (entry_of_caughtUp h hi hn (hcaught i hi n hn hin))
  refine ⟨fun i hi j hj n => ?_, hown⟩
  by_cases hn : n ∈ nodes
  · rw [hown i hi n hn, hown j hj n hn]
  · -- nobody publishes for a node outside
    have hnone : ∀ i ∈ nodes, (machine.state as).entry i n = none := by
      intro i hi
      have hunder := (hcurrent.topped n).nodes i hi
      rw [hcurrent.outside n hn] at hunder
      refine Option.eq_none_iff_forall_ne_some.mpr fun x hx => ?_
      obtain ⟨t, ht, -⟩ := hunder x hx
      cases ht
    unfold Mesh.info InfoState.info
    exact congrArg (Option.map Prod.fst) ((hnone i hi).trans (hnone j hj).symm)

/-- The infos of three builds. -/
def build (version : String) : Info := ⟨version, 0, ""⟩

/-- Two nodes. -/
def twoNodes : Set String := {"node-a", "node-b"}

/-- Both nodes publish, and each merges what the other sends. -/
def bothPublish : List Act :=
  [.publish "node-a" (build "1"), .publish "node-b" (build "2"), .send "node-a", .deliver "node-b" 0, .send "node-b",
    .deliver "node-a" 1]

theorem caughtUp_bothPublish : ∀ i ∈ twoNodes, ∀ j ∈ twoNodes, i ≠ j → CaughtUp machine.init bothPublish i j := by
  rintro i (rfl | rfl) j (rfl | rfl) hij
  · exact absurd rfl hij
  · exact ⟨[.publish "node-a" (build "1"), .publish "node-b" (build "2"), .send "node-a", .deliver "node-b" 0], [], [], rfl,
      fun info h => absurd h List.not_mem_nil⟩
  · exact ⟨[.publish "node-a" (build "1"), .publish "node-b" (build "2")], [], [.send "node-b", .deliver "node-a" 1], rfl,
      fun info h => by simp at h⟩
  · exact absurd rfl hij

theorem nodes_converge_bothPublish :
    (∀ i ∈ twoNodes, ∀ j ∈ twoNodes, ∀ n, (machine.state bothPublish).info i n = (machine.state bothPublish).info j n) ∧
    ∀ i ∈ twoNodes, ∀ n ∈ twoNodes, (machine.state bothPublish).info i n = lastPublished n bothPublish := by
  have ha : "node-a" ∈ twoNodes := Or.inl rfl
  have hb : "node-b" ∈ twoNodes := Or.inr rfl
  refine nodes_converge twoNodes bothPublish (Machine.along_iff_alongFrom.mpr ?_) caughtUp_bothPublish
  exact ⟨⟨ha, by decide⟩, ⟨hb, by decide⟩, ha, hb, hb, ha, trivial⟩

/-! ## A node that restarted -/

/-- Every entry is of the author it says, with an info that was published. -/
structure Authentic (as : List Act) (s : Mesh) : Prop where
  ids : ∀ i, (s.nodes i).node_id = i
  nodes : ∀ i n e, s.entry i n = some e → e.2.author = n ∧ .publish n e.1 ∈ as
  sent : ∀ remote ∈ s.sent, ∀ n e, remote.entry n = some e → e.2.author = n ∧ .publish n e.1 ∈ as

theorem merged_cases (e r : Option Entry) : InfoState.merged e r = e ∨ InfoState.merged e r = r := by
  cases e with
  | none => exact Or.inr (InfoState.merged_none_left r)
  | some current =>
    cases r with
    | none => exact Or.inl rfl
    | some remote =>
      unfold InfoState.merged
      dsimp only
      split_ifs
      · exact Or.inr rfl
      · exact Or.inl rfl

theorem Authentic.step (h : Authentic as s) (a : Act) : Authentic (as ++ [a]) (machine.next s a) := by
  have hold : ∀ {n : String} {e : Entry}, e.2.author = n ∧ .publish n e.1 ∈ as → e.2.author = n ∧ .publish n e.1 ∈ as ++ [a] :=
    fun ⟨hauthor, hmem⟩ => ⟨hauthor, List.mem_append_left _ hmem⟩
  refine ⟨node_id_next h.ids a, fun i n e he => ?_, fun remote hr n e he => ?_⟩
  · cases a with
    | publish node info =>
      rw [entry_publish h.ids] at he
      split_ifs at he with hn
      · obtain rfl := Option.some.inj he
        exact ⟨hn.2.symm, List.mem_append_right _ (hn.2 ▸ List.mem_singleton_self _)⟩
      · exact hold (h.nodes i n e he)
    | send node => exact hold (h.nodes i n e he)
    | deliver node index =>
      cases hr : s.sent[index]? with
      | none => rw [next_deliver_none hr] at he; exact hold (h.nodes i n e he)
      | some remote =>
        rw [entry_deliver hr] at he
        split_ifs at he
        · rcases merged_cases (s.entry i n) (remote.entry n) with heq | heq
          · exact hold (h.nodes i n e (heq ▸ he))
          · exact hold (h.sent remote (List.mem_of_getElem? hr) n e (heq ▸ he))
        · exact hold (h.nodes i n e he)
    | restart node =>
      rw [entry_restart] at he
      split_ifs at he
      exact hold (h.nodes i n e he)
  · rcases sent_next s a with hsent | ⟨node, rfl, hsent⟩
    · exact hold (h.sent remote (hsent ▸ hr) n e he)
    · rw [hsent] at hr
      rcases List.mem_append.mp hr with hr | hr
      · exact hold (h.sent remote hr n e he)
      · obtain rfl := List.mem_singleton.mp hr
        exact hold (h.nodes node n e he)

theorem authentic (as : List Act) : Authentic as (machine.state as) := by
  induction as using List.reverseRecOn with
  | nil => exact ⟨fun _ => rfl, nofun, nofun⟩
  | append_singleton as a ih =>
    rw [Machine.state_snoc]
    exact ih.step a

/-- The node `i` has an entry of `n` that is not the info published with the count `lamport`, and not older. -/
structure Stuck (n i : String) (info : Info) (lamport : Nat) (s : Mesh) : Prop where
  ids : ∀ i, (s.nodes i).node_id = i
  held : ∃ e, s.entry i n = some e ∧ e.1 ≠ info ∧ lamport ≤ e.2.lamport
  nodes : ∀ j e, s.entry j n = some e → e.2.author = n ∧ (e.1 = info → e.2.lamport = lamport)
  sent : ∀ remote ∈ s.sent, ∀ e, remote.entry n = some e → e.2.author = n ∧ (e.1 = info → e.2.lamport = lamport)

variable {info : Info} {lamport : Nat}

/-- The node keeps such an entry, or takes one that is newer yet. -/
theorem Stuck.step (h : Stuck n i info lamport s) {a : Act} (ha : Calm nodes base n a) :
    Stuck n i info lamport (machine.next s a) := by
  have hids := node_id_next h.ids a
  cases a with
  | publish node info' =>
    have hother : ∀ j, (machine.next s (.publish node info')).entry j n = s.entry j n := by
      intro j
      rw [entry_publish h.ids, if_neg]
      rintro ⟨-, heq⟩
      exact ha.2 heq.symm
    refine ⟨hids, ?_, fun j e he => h.nodes j e (hother j ▸ he), h.sent⟩
    rw [hother]
    exact h.held
  | send node =>
    refine ⟨hids, h.held, h.nodes, fun remote hr e he => ?_⟩
    rcases List.mem_append.mp hr with hr | hr
    · exact h.sent remote hr e he
    · obtain rfl := List.mem_singleton.mp hr
      exact h.nodes node e he
  | deliver node index =>
    cases hr : s.sent[index]? with
    | none => rw [next_deliver_none hr]; exact h
    | some remote =>
      have hmem := List.mem_of_getElem? hr
      refine ⟨hids, ?_, fun j e he => ?_, fun r hr' => ?_⟩
      · rw [entry_deliver hr]
        split_ifs
        · obtain ⟨e, he, hne, hle⟩ := h.held
          rw [he]
          cases hre : remote.entry n with
          | none => exact ⟨e, InfoState.merged_none_right _, hne, hle⟩
          | some r =>
            unfold InfoState.merged Version.isNewerThan
            dsimp only
            split_ifs with hnewer
            · obtain ⟨hauthor, htag⟩ := h.sent remote hmem r hre
              rw [decide_eq_true_iff, (h.nodes i e he).1, hauthor] at hnewer
              have hlt : e.2.lamport < r.2.lamport := hnewer.resolve_right fun heq => lt_irrefl _ heq.2
              refine ⟨r, rfl, fun heq => ?_, by omega⟩
              have := htag heq
              omega
            · exact ⟨e, rfl, hne, hle⟩
        · exact h.held
      · rw [entry_deliver hr] at he
        split_ifs at he
        · rcases merged_cases (s.entry j n) (remote.entry n) with heq | heq
          · exact h.nodes j e (heq ▸ he)
          · exact h.sent remote hmem e (heq ▸ he)
        · exact h.nodes j e he
      · rw [next_deliver hr] at hr'
        exact h.sent r hr'
  | restart node => exact ha.elim

theorem Stuck.run (h : Stuck n i info lamport s) {as : List Act} (has : ∀ a ∈ as, Calm nodes base n a) :
    Stuck n i info lamport (machine.stateFrom s as) :=
  Machine.invariant_from h fun _ a ha hs => hs.step (has a ha)

/-- After any run, with restarts, a node publishes an info that it did not publish before, and then every pair of the live
nodes exchanges what it knows. All live nodes hold the info exactly when none of them held an entry of the node with a count
as large as the one the publication got. -/
theorem info_after_restart_iff (nodes : Set String) (as : List Act) (n : String) (hn : n ∈ nodes) (info : Info)
    (hnew : .publish n info ∉ as) (exchange : List Act)
    (hcalm : ∀ a ∈ exchange, Calm nodes (machine.state as).sent.length n a)
    (hpairs : ∀ i ∈ nodes, ∀ j ∈ nodes, i ≠ j → CaughtUp (machine.state (as ++ [.publish n info])) exchange i j) :
    (∀ i ∈ nodes, (machine.state (as ++ [.publish n info] ++ exchange)).info i n = some info) ↔
      ∀ i ∈ nodes, i ≠ n → ∀ e, (machine.state as).entry i n = some e →
        e.2.lamport < saturatingSucc ((machine.state as).nodes n).known.lamport := by
  have hauth := authentic as
  have hentry := entry_publish hauth.ids n info
  have hids := node_id_next hauth.ids (.publish n info)
  rw [Machine.state_append machine (as ++ [Act.publish n info]) exchange]
  rw [Machine.state_snoc] at hpairs ⊢
  generalize machine.state as = s at hauth hentry hids hcalm hpairs ⊢
  have hown : (machine.next s (.publish n info)).entry n n =
      some (info, ⟨saturatingSucc (s.nodes n).known.lamport, n⟩) := by
    rw [hentry, if_pos ⟨rfl, rfl⟩]
  have hother : ∀ i ≠ n, (machine.next s (.publish n info)).entry i n = s.entry i n := by
    intro i hi
    rw [hentry, if_neg fun h => hi h.1]
  constructor
  · intro hall i hi hin e he
    by_contra hlt
    have hstuck : Stuck n i info (saturatingSucc (s.nodes n).known.lamport) (machine.next s (.publish n info)) := by
      have hne : ∀ e : Entry, .publish n e.1 ∈ as → e.1 ≠ info := fun e hmem heq => hnew (heq ▸ hmem)
      refine ⟨hids, ⟨e, (hother i hin).trans he, hne e (hauth.nodes i n e he).2, not_lt.mp hlt⟩, fun j e' he' => ?_,
        fun remote hr e' he' => ?_⟩
      · by_cases hj : j = n
        · subst hj
          rw [hown] at he'
          obtain rfl := Option.some.inj he'
          exact ⟨rfl, fun _ => rfl⟩
        · rw [hother j hj] at he'
          obtain ⟨hauthor, hmem⟩ := hauth.nodes j n e' he'
          exact ⟨hauthor, fun heq => absurd heq (hne e' hmem)⟩
      · obtain ⟨hauthor, hmem⟩ := hauth.sent remote hr n e' he'
        exact ⟨hauthor, fun heq => absurd heq (hne e' hmem)⟩
    obtain ⟨e', he', hne', -⟩ := (hstuck.run hcalm).held
    have hinfo := hall i hi
    unfold Mesh.info InfoState.info at hinfo
    change ((machine.stateFrom (machine.next s (.publish n info)) exchange).entry i n).map Prod.fst = some info at hinfo
    rw [he'] at hinfo
    exact hne' (Option.some.inj hinfo)
  · intro hold i hi
    have htop : Topped nodes s.sent.length n (some (info, ⟨saturatingSucc (s.nodes n).known.lamport, n⟩))
        (machine.next s (.publish n info)) := by
      refine ⟨hids, hown, fun j hj => ?_, fun k remote hk hr => ?_⟩
      · by_cases hjn : j = n
        · rw [hjn, hown]
          exact under_refl _
        · rw [hother j hjn]
          intro x hx
          exact ⟨_, rfl, Or.inr (hold j hj hjn x hx)⟩
      · change s.sent[k]? = some remote at hr
        rw [List.getElem?_eq_none hk] at hr
        cases hr
    have hend : (machine.stateFrom (machine.next s (.publish n info)) exchange).entry i n =
        some (info, ⟨saturatingSucc (s.nodes n).known.lamport, n⟩) := by
      by_cases hin : i = n
      · rw [hin]
        exact (htop.run hcalm).own
      · obtain ⟨before, between, after, rfl, -⟩ := hpairs i hi n hn hin
        refine htop.caughtUp (le_of_eq rfl) hn hi (fun a ha => hcalm a (List.mem_append_left _ ha)) fun a ha => ?_
        refine hcalm a (List.mem_append_right _ (List.mem_cons_of_mem _ ?_))
        rcases List.mem_append.mp ha with ha | ha
        · exact List.mem_append_left _ ha
        · exact List.mem_append_right _ (List.mem_cons_of_mem _ ha)
    exact congrArg (Option.map Prod.fst) hend

/-- A node restarts, hears from its peer, and publishes. -/
def restartAndHear : List Act :=
  [.publish "node-a" (build "1"), .send "node-a", .deliver "node-b" 0, .restart "node-a", .send "node-b", .deliver "node-a" 1]

/-- The two nodes exchange what they know, after two sendings. -/
def exchange : List Act := [.send "node-a", .deliver "node-b" 2, .send "node-b", .deliver "node-a" 3]

theorem info_after_restart_iff_restartAndHear :
    (∀ i ∈ twoNodes, (machine.state (restartAndHear ++ [.publish "node-a" (build "2")] ++ exchange)).info i "node-a" =
        some (build "2")) ↔
      ∀ i ∈ twoNodes, i ≠ "node-a" → ∀ e, (machine.state restartAndHear).entry i "node-a" = some e →
        e.2.lamport < saturatingSucc ((machine.state restartAndHear).nodes "node-a").known.lamport := by
  have ha : "node-a" ∈ twoNodes := Or.inl rfl
  have hb : "node-b" ∈ twoNodes := Or.inr rfl
  refine info_after_restart_iff twoNodes restartAndHear "node-a" ha (build "2") (by decide) exchange (fun a hmem => ?_) ?_
  · have hlen : (machine.state restartAndHear).sent.length = 2 := by decide +kernel
    rw [hlen]
    unfold exchange at hmem
    simp only [List.mem_cons, List.not_mem_nil, or_false] at hmem
    rcases hmem with rfl | rfl | rfl | rfl
    · exact ha
    · exact ⟨hb, le_rfl⟩
    · exact hb
    · exact ⟨ha, by decide⟩
  · rintro i (rfl | rfl) j (rfl | rfl) hij
    · exact absurd rfl hij
    · exact ⟨[.send "node-a", .deliver "node-b" 2], [], [], rfl, fun info h => absurd h List.not_mem_nil⟩
    · exact ⟨[], [], [.send "node-b", .deliver "node-a" 3], rfl, fun info h => by simp at h⟩
    · exact absurd rfl hij

/-- A node that published twice restarts and publishes once: its peer keeps the old info, and the node takes it back. -/
theorem restart_takes_old_info_back :
    let before := [Act.publish "node-a" (build "1"), .publish "node-a" (build "2"), .send "node-a", .deliver "node-b" 0,
      .restart "node-a"]
    let after := [Act.send "node-a", .deliver "node-b" 1, .send "node-b", .deliver "node-a" 2]
    let s := machine.state (before ++ [.publish "node-a" (build "3")] ++ after)
    s.info "node-a" "node-a" = some (build "2") ∧ s.info "node-b" "node-a" = some (build "2") := by
  decide +kernel

end Mesh

end Opsense
