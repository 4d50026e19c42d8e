import Opsense.Runtime.Engine

/-!
# The nodes of a runtime

What the calls do to the table of names and the table of bootstraps. After any calls a name leads to a bootstrap of that name
(`Named`). As long as nothing is added under a name that is there, the two tables are inverse to each other, and as long as no
change makes a node an input or an output or takes that from it, the two sets hold the inputs and the outputs (`Booted`).
-/

namespace Opsense

namespace Runtime

variable {Body : Type} {e : Engine Body} {s : Runtime Body}

/-- A name leads to a bootstrap of that name; indices are given out once, and no bootstrap of the table was stopped. -/
structure Named (s : Runtime Body) : Prop where
  named : ∀ name idx, s.nodes.lookup name = some idx → ∃ b, s.bootstraps.lookup idx = some b ∧ b.component.id = name
  fresh : ∀ idx b, s.bootstraps.lookup idx = some b → idx < s.inc
  live : ∀ idx b, s.bootstraps.lookup idx = some b → b.cancelled = false

/-- A bootstrap is found under its name. -/
structure Placed (s : Runtime Body) : Prop extends Named s where
  booted : ∀ idx b, s.bootstraps.lookup idx = some b → s.nodes.lookup b.component.id = some idx

/-- A bootstrap is found under its name as well, and the two sets hold the inputs and the outputs. -/
structure Booted (s : Runtime Body) : Prop extends Named s where
  booted : ∀ idx b, s.bootstraps.lookup idx = some b → s.nodes.lookup b.component.id = some idx
  inputs : ∀ idx, idx ∈ s.inputs ↔ ∃ b, s.bootstraps.lookup idx = some b ∧ b.component.component_type = .input
  outputs : ∀ idx, idx ∈ s.outputs ↔ ∃ b, s.bootstraps.lookup idx = some b ∧ b.component.component_type = .output

theorem Booted.placed (h : Booted s) : Placed s := ⟨h.toNamed, h.booted⟩

theorem Named.injective (h : Named s) {name name' : String} {idx : Nat} (h₁ : s.nodes.lookup name = some idx)
    (h₂ : s.nodes.lookup name' = some idx) : name = name' := by
  obtain ⟨b, hb, hname⟩ := h.named name idx h₁
  obtain ⟨b', hb', hname'⟩ := h.named name' idx h₂
  obtain rfl := Option.some.inj (hb.symm.trans hb')
  exact hname.symm.trans hname'

theorem mem_iff_lookup {α β : Type} [DecidableEq α] {t : AList fun _ : α => β} {a : α} : a ∈ t ↔ ∃ b, t.lookup a = some b := by
  rw [← AList.lookup_isSome, Option.isSome_iff_exists]

theorem lookup_insert {α β : Type} [DecidableEq α] (t : AList fun _ : α => β) (a a' : α) (b : β) :
    (t.insert a b).lookup a' = if a' = a then some b else t.lookup a' := by
  split_ifs with h
  · rw [h, AList.lookup_insert]
  · rw [AList.lookup_insert_ne h]

theorem lookup_erase {α β : Type} [DecidableEq α] (t : AList fun _ : α => β) (a a' : α) :
    (t.erase a).lookup a' = if a' = a then none else t.lookup a' := by
  split_ifs with h
  · rw [h, AList.lookup_erase]
  · rw [AList.lookup_erase_ne h]

/-! ## Additions -/

theorem Named.notMem_inc (h : Named s) : s.inc ∉ s.bootstraps := by
  intro hmem
  obtain ⟨b, hb⟩ := mem_iff_lookup.mp hmem
  exact absurd (h.fresh _ b hb) (lt_irrefl _)

theorem Named.lookup_register (h : Named s) (c : Component Body) (idx : Nat) :
    (s.register c).bootstraps.lookup idx = if idx = s.inc then some ⟨c, false⟩ else s.bootstraps.lookup idx := by
  unfold register
  dsimp only
  rw [if_neg h.notMem_inc, lookup_insert]

theorem Named.register (h : Named s) (c : Component Body) : Named (s.register c) := by
  have hboot := h.lookup_register c
  refine ⟨fun name idx hname => ?_, fun idx b hb => ?_, fun idx b hb => ?_⟩
  · have hnodes : (s.register c).nodes = if c.id ∈ s.nodes then s.nodes else s.nodes.insert c.id s.inc := rfl
    rw [hnodes] at hname
    have hold : s.nodes.lookup name = some idx → ∃ b, (s.register c).bootstraps.lookup idx = some b ∧ b.component.id = name := by
      intro hname
      obtain ⟨b, hb, hid⟩ := h.named name idx hname
      have hlt := h.fresh idx b hb
      exact ⟨b, by rw [hboot, if_neg (by omega), hb], hid⟩
    split_ifs at hname
    · exact hold hname
    · rw [lookup_insert] at hname
      split_ifs at hname with heq
      · obtain rfl := Option.some.inj hname
        exact ⟨⟨c, false⟩, by rw [hboot, if_pos rfl], heq.symm⟩
      · exact hold hname
  · rw [hboot] at hb
    have hinc : (s.register c).inc = s.inc + 1 := rfl
    split_ifs at hb with heq
    · omega
    · have := h.fresh idx b hb
      omega
  · rw [hboot] at hb
    split_ifs at hb
    · exact (Option.some.inj hb) ▸ rfl
    · exact h.live idx b hb

/-- The additions reach the tables one after another, up to one that cannot be prepared. -/
theorem addNewNodes_induction {P : Runtime Body → Prop} (e : Engine Body)
    (hadd : ∀ s c, P s → P (s.register c) ∧ P { s.register c with tasks := insert s.inc (s.register c).tasks }) :
    ∀ (cs : List (Component Body)) (s : Runtime Body), P s → P (addNewNodes e cs s).1 := by
  intro cs
  induction cs with
  | nil => intro s hs; exact hs
  | cons c cs ih =>
    intro s hs
    unfold addNewNodes
    dsimp only
    cases e.prepare s.inc c with
    | error error => exact (hadd s c hs).1
    | ok _ => exact ih _ (hadd s c hs).2

theorem Placed.register (h : Placed s) {c : Component Body} (hnew : c.id ∉ s.nodes) : Placed (s.register c) := by
  have hboot := h.toNamed.lookup_register c
  have hnodes : (s.register c).nodes = s.nodes.insert c.id s.inc := if_neg hnew
  refine ⟨h.toNamed.register c, fun idx b hb => ?_⟩
  rw [hboot] at hb
  rw [hnodes, lookup_insert]
  split_ifs at hb with heq
  · obtain rfl := Option.some.inj hb
    rw [if_pos rfl, heq]
  · have hb' := h.booted idx b hb
    have hne : b.component.id ≠ c.id := fun hid => hnew (mem_iff_lookup.mpr ⟨idx, hid ▸ hb'⟩)
    rw [if_neg hne, hb']

theorem Booted.register (h : Booted s) {c : Component Body} (hnew : c.id ∉ s.nodes) : Booted (s.register c) := by
  have hplaced := h.placed.register hnew
  have hboot := h.toNamed.lookup_register c
  have hset : ∀ (kind : ComponentType) (old : Finset Nat),
      (∀ idx, idx ∈ old ↔ ∃ b, s.bootstraps.lookup idx = some b ∧ b.component.component_type = kind) →
      ∀ idx, idx ∈ (if c.component_type = kind then insert s.inc old else old) ↔
        ∃ b, (s.register c).bootstraps.lookup idx = some b ∧ b.component.component_type = kind := by
    intro kind old hold idx
    rw [hboot]
    by_cases heq : idx = s.inc
    · have hnone : s.bootstraps.lookup s.inc = none := AList.lookup_eq_none.mpr h.toNamed.notMem_inc
      have hnot : s.inc ∉ old := fun hmem => by
        obtain ⟨b, hb, -⟩ := (hold _).mp hmem
        rw [hnone] at hb
        nomatch hb
      subst heq
      rw [if_pos rfl]
      split_ifs with hkind <;> simp [hkind, hnot]
    · rw [if_neg heq, ← hold]
      split_ifs
      · simp [heq]
      · exact Iff.rfl
  exact ⟨hplaced.toNamed, hplaced.booted, hset .input s.inputs h.inputs, hset .output s.outputs h.outputs⟩

/-! ## Changes and removals -/

/-- A change finds its node and gives it the new component. -/
theorem Named.changeNode_cases (h : Named s) {c : Component Body} {idx : Nat} (hidx : s.nodes.lookup c.id = some idx) :
    ∃ b, s.bootstraps.lookup idx = some b ∧ b.component.id = c.id ∧
      changeNode s c = ({ s with bootstraps := s.bootstraps.insert idx { b with component := c } }, .ok ()) := by
  obtain ⟨b, hb, hid⟩ := h.named c.id idx hidx
  refine ⟨b, hb, hid, ?_⟩
  unfold changeNode
  rw [hidx]
  dsimp only
  rw [hb]

theorem Named.changeNode (h : Named s) (c : Component Body) : Named (changeNode s c).1 := by
  cases hidx : s.nodes.lookup c.id with
  | none =>
    unfold Runtime.changeNode
    rw [hidx]
    exact h
  | some idx =>
    obtain ⟨b, hb, hid, heq⟩ := h.changeNode_cases hidx
    rw [heq]
    refine ⟨fun name idx' hname => ?_, fun idx' b' hb' => ?_, fun idx' b' hb' => ?_⟩
    · obtain ⟨b', hb', hid'⟩ := h.named name idx' hname
      dsimp only
      rw [lookup_insert]
      split_ifs with heq'
      · subst heq'
        exact ⟨_, rfl, h.injective hidx hname⟩
      · exact ⟨b', hb', hid'⟩
    · dsimp only at hb' ⊢
      rw [lookup_insert] at hb'
      split_ifs at hb' with heq'
      · exact heq' ▸ h.fresh idx b hb
      · exact h.fresh idx' b' hb'
    · dsimp only at hb'
      rw [lookup_insert] at hb'
      split_ifs at hb'
      · exact (Option.some.inj hb') ▸ h.live idx b hb
      · exact h.live idx' b' hb'

/-- A change is of the kind of node that the node was: both are inputs or neither is, and both are outputs or neither is. -/
def SameKind (b c : Component Body) : Prop :=
  (b.component_type = .input ↔ c.component_type = .input) ∧ (b.component_type = .output ↔ c.component_type = .output)

instance (b c : Component Body) : Decidable (SameKind b c) := by unfold SameKind; infer_instance

theorem Placed.changeNode (h : Placed s) {c : Component Body} {idx : Nat} (hidx : s.nodes.lookup c.id = some idx) : Placed (changeNode s c).1 := by
  have hnamed := h.toNamed.changeNode c
  obtain ⟨b, hb, hid, heq⟩ := h.toNamed.changeNode_cases hidx
  rw [heq] at hnamed ⊢
  refine ⟨hnamed, fun idx' b' hb' => ?_⟩
  dsimp only at hb' ⊢
  rw [lookup_insert] at hb'
  split_ifs at hb' with heq'
  · obtain rfl := Option.some.inj hb'
    exact heq' ▸ hidx
  · exact h.booted idx' b' hb'

theorem Booted.changeNode (h : Booted s) {c : Component Body} {idx : Nat} (hidx : s.nodes.lookup c.id = some idx)
    (hkind : ∀ b, s.bootstraps.lookup idx = some b → SameKind b.component c) : Booted (changeNode s c).1 := by
  have hplaced := h.placed.changeNode hidx
  obtain ⟨b, hb, hid, heq⟩ := h.toNamed.changeNode_cases hidx
  rw [heq] at hplaced ⊢
  have hset : ∀ (kind : ComponentType), (b.component.component_type = kind ↔ c.component_type = kind) → ∀ idx',
      (∃ b', s.bootstraps.lookup idx' = some b' ∧ b'.component.component_type = kind) ↔
        ∃ b', (s.bootstraps.insert idx { b with component := c }).lookup idx' = some b' ∧ b'.component.component_type = kind := by
    intro kind hsame idx'
    rw [lookup_insert]
    split_ifs with heq'
    · subst heq'
      simp [hb, hsame]
    · exact Iff.rfl
  exact ⟨hplaced.toNamed, hplaced.booted, fun idx' => (h.inputs idx').trans (hset .input (hkind b hb).1 idx'),
    fun idx' => (h.outputs idx').trans (hset .output (hkind b hb).2 idx')⟩

/-- A removal of a node that is there takes it out of the tables. -/
theorem Named.removeNode_cases (h : Named s) {id : Nat} {b : Bootstrap Body} (hb : s.bootstraps.lookup id = some b) :
    removeNode s id = ({ s with
      bootstraps := s.bootstraps.erase id
      tasks := s.tasks.erase id
      inputs := s.inputs.erase id
      outputs := s.outputs.erase id
      nodes := s.nodes.erase b.component.id }, .ok ()) := by
  unfold removeNode
  rw [hb]
  dsimp only
  rw [h.live id b hb]
  rfl

theorem Named.removeNode (h : Named s) (id : Nat) : Named (removeNode s id).1 := by
  cases hb : s.bootstraps.lookup id with
  | none =>
    unfold Runtime.removeNode
    rw [hb]
    exact h
  | some b =>
    rw [h.removeNode_cases hb]
    refine ⟨fun name idx hname => ?_, fun idx b' hb' => ?_, fun idx b' hb' => ?_⟩
    · dsimp only at hname ⊢
      rw [lookup_erase] at hname
      split_ifs at hname with hne
      obtain ⟨b', hb', hid'⟩ := h.named name idx hname
      refine ⟨b', ?_, hid'⟩
      rw [lookup_erase, if_neg, hb']
      -- the name of the node that is removed is removed as well
      rintro rfl
      obtain rfl := Option.some.inj (hb.symm.trans hb')
      exact hne hid'.symm
    · dsimp only at hb' ⊢
      rw [lookup_erase] at hb'
      split_ifs at hb'
      exact h.fresh idx b' hb'
    · dsimp only at hb'
      rw [lookup_erase] at hb'
      split_ifs at hb'
      exact h.live idx b' hb'

theorem Placed.removeNode (h : Placed s) (id : Nat) : Placed (removeNode s id).1 := by
  have hnamed := h.toNamed.removeNode id
  cases hb : s.bootstraps.lookup id with
  | none =>
    unfold Runtime.removeNode
    rw [hb]
    exact h
  | some b =>
    rw [h.toNamed.removeNode_cases hb] at hnamed ⊢
    refine ⟨hnamed, fun idx b' hb' => ?_⟩
    dsimp only at hb' ⊢
    rw [lookup_erase] at hb'
    split_ifs at hb' with hne
    have hidx := h.booted idx b' hb'
    rw [lookup_erase, if_neg, hidx]
    intro hid
    rw [hid, h.booted id b hb] at hidx
    exact hne (Option.some.inj hidx).symm

theorem Booted.removeNode (h : Booted s) (id : Nat) : Booted (removeNode s id).1 := by
  have hplaced := h.placed.removeNode id
  cases hb : s.bootstraps.lookup id with
  | none =>
    unfold Runtime.removeNode
    rw [hb]
    exact h
  | some b =>
    rw [h.toNamed.removeNode_cases hb] at hplaced ⊢
    have hset : ∀ (kind : ComponentType) (old : Finset Nat),
        (∀ idx, idx ∈ old ↔ ∃ b, s.bootstraps.lookup idx = some b ∧ b.component.component_type = kind) →
        ∀ idx, idx ∈ old.erase id ↔ ∃ b, (s.bootstraps.erase id).lookup idx = some b ∧ b.component.component_type = kind := by
      intro kind old hold idx
      rw [Finset.mem_erase, lookup_erase, hold]
      by_cases heq : idx = id <;> simp [heq]
    exact ⟨hplaced.toNamed, hplaced.booted, hset .input s.inputs h.inputs, hset .output s.outputs h.outputs⟩

/-! ## Every call -/

/-- What holds before the steps of a loop and is kept by each of them holds after it, also when it ends with an error. -/
theorem each_induction {α : Type} {P : Runtime Body → Prop} {step : Runtime Body → α → Runtime Body × Except String Unit}
    (as : List α) (hstep : ∀ s, ∀ a ∈ as, P s → P (step s a).1) (s : Runtime Body) (hs : P s) : P (each step as s).1 := by
  induction as generalizing s with
  | nil => exact hs
  | cons a as ih =>
    have hnext := hstep s a List.mem_cons_self hs
    unfold each
    cases hresult : step s a with
    | mk s' answer =>
      rw [hresult] at hnext
      cases answer with
      | error error => exact hnext
      | ok _ => exact ih (fun s a ha => hstep s a (List.mem_cons_of_mem _ ha)) s' hnext

/-- The tables of nodes are the same. -/
structure SameNodes (s s' : Runtime Body) : Prop where
  nodes : s'.nodes = s.nodes
  bootstraps : s'.bootstraps = s.bootstraps
  inc : s'.inc = s.inc
  inputs : s'.inputs = s.inputs
  outputs : s'.outputs = s.outputs

theorem SameNodes.trans {s' s'' : Runtime Body} (h : SameNodes s s') (h' : SameNodes s' s'') : SameNodes s s'' :=
  ⟨h'.nodes.trans h.nodes, h'.bootstraps.trans h.bootstraps, h'.inc.trans h.inc, h'.inputs.trans h.inputs,
    h'.outputs.trans h.outputs⟩

theorem Named.congr {s' : Runtime Body} (h : Named s) (hsame : SameNodes s s') : Named s' := by
  refine ⟨?_, ?_, ?_⟩
  · rw [hsame.nodes, hsame.bootstraps]; exact h.named
  · rw [hsame.bootstraps, hsame.inc]; exact h.fresh
  · rw [hsame.bootstraps]; exact h.live

theorem Booted.congr {s' : Runtime Body} (h : Booted s) (hsame : SameNodes s s') : Booted s' := by
  refine ⟨h.toNamed.congr hsame, ?_, ?_, ?_⟩
  · rw [hsame.nodes, hsame.bootstraps]; exact h.booted
  · rw [hsame.inputs, hsame.bootstraps]; exact h.inputs
  · rw [hsame.outputs, hsame.bootstraps]; exact h.outputs

theorem linkAdd_frame (s : Runtime Body) (c : Component Body) : SameNodes s (linkAdd s c) := by
  unfold linkAdd
  split <;> exact ⟨rfl, rfl, rfl, rfl, rfl⟩

theorem linkChange_frame (s : Runtime Body) (c : Component Body) : SameNodes s (linkChange s c) := by
  unfold linkChange
  split <;> exact ⟨rfl, rfl, rfl, rfl, rfl⟩

theorem unlinkRemoved_frame (s : Runtime Body) (dels : List Nat) : SameNodes s (unlinkRemoved s dels) :=
  ⟨rfl, rfl, rfl, rfl, rfl⟩

/-- Links that are made one after another leave the tables of nodes. -/
theorem foldl_frame {step : Runtime Body → Component Body → Runtime Body} (hstep : ∀ s c, SameNodes s (step s c))
    (cs : List (Component Body)) (s : Runtime Body) : SameNodes s (cs.foldl step s) := by
  induction cs generalizing s with
  | nil => exact ⟨rfl, rfl, rfl, rfl, rfl⟩
  | cons c cs ih => exact (hstep s c).trans (ih (step s c))

/-- What holds before the changes of a reload and is kept by each of their steps holds when one of them fails, and at their end. -/
theorem apply_induction {P : Runtime Body → Prop} (e : Engine Body) (p : Plan Body)
    (hadd : ∀ s c, P s → P (s.register c) ∧ P { s.register c with tasks := insert s.inc (s.register c).tasks })
    (hlinks : ∀ s sources sinks senders broadcasts, P s →
      P { s with sources := sources, sinks := sinks, senders := senders, broadcasts := broadcasts })
    (hchange : ∀ s, ∀ c ∈ p.diffs, P s → P (changeNode s c).1) (hremove : ∀ s, ∀ id ∈ p.dels, P s → P (removeNode s id).1)
    (h : P s) : ((s.apply e p).2 ≠ .ok () ∧ P (s.apply e p).1) ∨
      ∃ t permits, P t ∧ (s.apply e p).1 = { t with permits := permits, generation := t.generation + 1 } := by
  have hfold : ∀ link : Runtime Body → Component Body → Runtime Body, (∀ s c, P s → P (link s c)) →
      ∀ (cs : List (Component Body)) s, P s → P (cs.foldl link s) := by
    intro link hlink cs
    induction cs with
    | nil => exact fun _ hs => hs
    | cons c cs ih => exact fun s hs => ih _ (hlink s c hs)
  have hadded := addNewNodes_induction e hadd p.adds s h
  unfold Runtime.apply
  generalize addNewNodes e p.adds s = added at hadded ⊢
  rcases added with ⟨s₁, error | ⟨⟩⟩
  · exact .inl ⟨nofun, hadded⟩
  · have hlinked := hfold linkAdd (fun s c hs => by unfold linkAdd; split; exacts [hlinks s _ _ _ _ hs, hs]) p.adds s₁ hadded
    have hchanged := each_induction p.diffs hchange _ hlinked
    dsimp only
    generalize each Runtime.changeNode p.diffs (p.adds.foldl linkAdd s₁) = changed at hchanged ⊢
    rcases changed with ⟨s₂, error | ⟨⟩⟩
    · exact .inl ⟨nofun, hchanged⟩
    · have hrelinked := hfold linkChange (fun s c hs => by unfold linkChange; split; exacts [hs, hlinks s _ _ _ _ hs]) p.diffs s₂ hchanged
      have hremoved := each_induction p.dels hremove _ hrelinked
      dsimp only
      generalize each Runtime.removeNode p.dels (p.diffs.foldl linkChange s₂) = removed at hremoved ⊢
      rcases removed with ⟨s₃, error | ⟨⟩⟩
      · exact .inl ⟨nofun, hremoved⟩
      · exact .inr ⟨s₃.unlinkRemoved p.dels, _, hlinks s₃ _ _ _ _ hremoved, rfl⟩

theorem Named.apply (h : Named s) (e : Engine Body) (p : Plan Body) : Named (s.apply e p).1 := by
  obtain ⟨-, hs⟩ | ⟨t, permits, ht, heq⟩ := apply_induction e p
    (fun s c (hs : Named s) => ⟨hs.register c, (hs.register c).congr ⟨rfl, rfl, rfl, rfl, rfl⟩⟩)
    (fun _ _ _ _ _ hs => hs.congr ⟨rfl, rfl, rfl, rfl, rfl⟩) (fun _ c _ hs => hs.changeNode c) (fun _ id _ hs => hs.removeNode id) h
  · exact hs
  · rw [heq]
    exact ht.congr ⟨rfl, rfl, rfl, rfl, rfl⟩

theorem Named.reload (h : Named s) (e : Engine Body) (components : List (Component Body)) : Named (s.reload e components).1 := by
  unfold Runtime.reload
  cases s.plan e components with
  | error error => exact h
  | ok p =>
    dsimp only
    cases s.validate e p with
    | error error => exact h
    | ok _ => exact h.apply e p

theorem broadcast_frame (s : Runtime Body) (id : String) : SameNodes s (s.broadcast id).1 := by
  unfold Runtime.broadcast
  cases s.nodes.lookup id with
  | none => exact ⟨rfl, rfl, rfl, rfl, rfl⟩
  | some idx =>
    dsimp only
    split_ifs <;> exact ⟨rfl, rfl, rfl, rfl, rfl⟩

/-- A call other than a reload leaves the tables of nodes and the links. -/
theorem step_frame (e : Engine Body) (s : Runtime Body) {a : RuntimeAct Body} (ha : ∀ components, a ≠ .reload components) :
    SameNodes s (step e s a).1 ∧ (step e s a).1.sources = s.sources ∧ (step e s a).1.sinks = s.sinks := by
  cases a with
  | reload components => exact absurd rfl (ha components)
  | start =>
    unfold step
    dsimp only
    split_ifs <;> exact ⟨⟨rfl, rfl, rfl, rfl, rfl⟩, rfl, rfl⟩
  | broadcast id =>
    refine ⟨broadcast_frame s id, ?_⟩
    unfold step Runtime.broadcast
    dsimp only
    cases s.nodes.lookup id with
    | none => exact ⟨rfl, rfl⟩
    | some idx =>
      dsimp only
      split_ifs <;> exact ⟨rfl, rfl⟩
  | waitForShutdown => exact ⟨⟨rfl, rfl, rfl, rfl, rfl⟩, rfl, rfl⟩

theorem named_new : Named (new : Runtime Body) := by
  refine ⟨fun name idx hname => ?_, fun idx b hb => ?_, fun idx b hb => ?_⟩
  · simp [new] at hname
  · simp [new] at hb
  · simp [new] at hb

/-- After any calls a name leads to a bootstrap of that name. -/
theorem named (e : Engine Body) (as : List (RuntimeAct Body)) : Named ((machine e).state as) := by
  refine Machine.invariant (I := Named) named_new (fun s a hs => ?_) as
  by_cases ha : ∃ components, a = .reload components
  · obtain ⟨components, rfl⟩ := ha
    exact hs.reload e components
  · push Not at ha
    exact hs.congr (step_frame e s ha).1

end Runtime

end Opsense
