import Opsense.Runtime.Topology

/-!
# A reload that fails

A reload fails before it changes anything, when a validation rejects the list, or after a component could not be prepared; the
other phases find every node they look for. In the second case the component and those before it stay in the tables. A component
that the list repeats keeps its node and its task, whether the reload fails or not (`reload_keeps_running`).
-/

namespace Opsense

namespace Runtime

variable {Body : Type} {e : Engine Body} {s s' : Runtime Body} {components cs : List (Component Body)} {p : Plan Body}

/-- The tables of a runtime are the same. -/
structure SameTables (s s' : Runtime Body) : Prop where
  nodes : s'.nodes = s.nodes
  bootstraps : s'.bootstraps = s.bootstraps
  tasks : s'.tasks = s.tasks
  sources : s'.sources = s.sources
  sinks : s'.sinks = s.sinks
  senders : s'.senders = s.senders
  broadcasts : s'.broadcasts = s.broadcasts
  inputs : s'.inputs = s.inputs
  outputs : s'.outputs = s.outputs

/-- A reload leaves the tables, and a later one succeeds as it would have without it, with the same tables. -/
def AllOrNothing (e : Engine Body) (s : Runtime Body) (components : List (Component Body)) : Prop :=
  SameTables s (s.reload e components).1 ∧
    ∀ later, (s.reload e later).2 = .ok () →
      ((s.reload e components).1.reload e later).2 = .ok () ∧
        SameTables (s.reload e later).1 ((s.reload e components).1.reload e later).1

/-- A validation rejects what the list asks for. -/
def Rejected (e : Engine Body) (s : Runtime Body) (components : List (Component Body)) : Prop :=
  ∃ p, s.plan e components = .ok p ∧ s.validate e p ≠ .ok ()

/-- A list that is rejected leaves the runtime as it was. -/
theorem Rejected.reload (h : Rejected e s components) : (s.reload e components).1 = s := by
  obtain ⟨p, hplan, hvalid⟩ := h
  unfold Runtime.reload
  rw [hplan]
  dsimp only
  cases hresult : s.validate e p with
  | error error => rfl
  | ok answer => exact absurd hresult hvalid

/-! ## The phases after the additions -/

/-- Nothing has left the tables of nodes. -/
structure Keeps (s s' : Runtime Body) : Prop extends Named s' where
  nodes : ∀ name ∈ s.nodes, name ∈ s'.nodes
  bootstraps : ∀ idx ∈ s.bootstraps, idx ∈ s'.bootstraps

theorem Named.keeps (h : Named s) : Keeps s s := ⟨h, fun _ hname => hname, fun _ hidx => hidx⟩

theorem Keeps.congr {s'' : Runtime Body} (h : Keeps s s') (hsame : SameNodes s' s'') : Keeps s s'' := by
  refine ⟨h.toNamed.congr hsame, ?_, ?_⟩
  · rw [hsame.nodes]
    exact h.nodes
  · rw [hsame.bootstraps]
    exact h.bootstraps

theorem Keeps.register (h : Keeps s s') (c : Component Body) : Keeps s (s'.register c) := by
  have hboot := h.toNamed.lookup_register c
  refine ⟨h.toNamed.register c, fun name hname => ?_, fun idx hidx => ?_⟩
  · have hnodes : (s'.register c).nodes = if c.id ∈ s'.nodes then s'.nodes else s'.nodes.insert c.id s'.inc := rfl
    rw [hnodes]
    split_ifs
    · exact h.nodes name hname
    · exact (AList.mem_insert _).mpr (Or.inr (h.nodes name hname))
  · obtain ⟨b, hb⟩ := mem_iff_lookup.mp (h.bootstraps idx hidx)
    have hlt := h.fresh idx b hb
    exact mem_iff_lookup.mpr ⟨b, by rw [hboot, if_neg (by omega), hb]⟩

theorem Keeps.addNewNodes (h : Keeps s s') (e : Engine Body) (cs : List (Component Body)) :
    Keeps s (Runtime.addNewNodes e cs s').1 :=
  addNewNodes_induction (P := Keeps s) e (fun _ c ht => ⟨ht.register c, (ht.register c).congr ⟨rfl, rfl, rfl, rfl, rfl⟩⟩) cs s' h

/-- The changes of a plan find their nodes. -/
theorem Keeps.changeNodes (h : Keeps s s') (hcs : ∀ c ∈ cs, c.id ∈ s.nodes) :
    ∃ s'', each Runtime.changeNode cs s' = (s'', .ok ()) ∧ Keeps s s'' := by
  induction cs generalizing s' with
  | nil => exact ⟨s', rfl, h⟩
  | cons c cs ih =>
    obtain ⟨idx, hidx⟩ := mem_iff_lookup.mp (h.nodes c.id (hcs c List.mem_cons_self))
    have hnamed := h.toNamed.changeNode c
    obtain ⟨b, hb, hid, heq⟩ := h.toNamed.changeNode_cases hidx
    rw [heq] at hnamed
    have hnext : Keeps s { s' with bootstraps := s'.bootstraps.insert idx { b with component := c } } := by
      refine ⟨hnamed, h.nodes, fun i hi => ?_⟩
      exact (AList.mem_insert _).mpr (Or.inr (h.bootstraps i hi))
    obtain ⟨s'', hrest, hkeeps⟩ := ih hnext fun c' hc' => hcs c' (List.mem_cons_of_mem _ hc')
    refine ⟨s'', ?_, hkeeps⟩
    rw [each, heq]
    exact hrest

/-- The removals of a plan find their nodes. -/
theorem Named.removeNodes {dels : List Nat} (h : Named s) (hnodup : dels.Nodup) (hdels : ∀ id ∈ dels, id ∈ s.bootstraps) :
    ∃ s', each Runtime.removeNode dels s = (s', .ok ()) := by
  induction dels generalizing s with
  | nil => exact ⟨s, rfl⟩
  | cons id dels ih =>
    rw [List.nodup_cons] at hnodup
    obtain ⟨b, hb⟩ := mem_iff_lookup.mp (hdels id List.mem_cons_self)
    have hnamed := h.removeNode id
    have heq := h.removeNode_cases hb
    rw [heq] at hnamed
    obtain ⟨s', hrest⟩ := ih hnamed hnodup.2 fun id' hid' => by
      have hne : id' ≠ id := fun hid => hnodup.1 (hid ▸ hid')
      exact AList.mem_erase.mpr ⟨hne, hdels id' (List.mem_cons_of_mem _ hid')⟩
    refine ⟨s', ?_⟩
    rw [each, heq]
    exact hrest

/-- When the additions succeed, so does the rest. -/
theorem Named.apply_ok (h : Named s) (hplanned : Planned e s components p) (hadd : addNewNodes e p.adds s = (s', .ok ())) :
    (s.apply e p).2 = .ok () := by
  have hkeeps := h.keeps.addNewNodes e p.adds
  rw [hadd] at hkeeps
  have hdiffs : ∀ c ∈ p.diffs, c.id ∈ s.nodes := by
    intro c hc
    obtain ⟨-, idx, b, hidx, -⟩ := (hplanned.diffs c).mp hc
    exact mem_iff_lookup.mpr ⟨idx, hidx⟩
  obtain ⟨s₃, hchange, hkeeps₃⟩ := (hkeeps.congr (foldl_frame linkAdd_frame p.adds s')).changeNodes hdiffs
  have hkeeps₄ := hkeeps₃.congr (foldl_frame linkChange_frame p.diffs s₃)
  obtain ⟨s₅, hremove⟩ := hkeeps₄.toNamed.removeNodes hplanned.nodup fun id hid =>
    hkeeps₄.bootstraps id ((hplanned.dels id).mp hid).1
  unfold Runtime.apply
  simp only [hadd, hchange, hremove]

/-! ## The additions -/

/-- A component that cannot be prepared leaves a bootstrap under an index that was free. -/
theorem Named.addNewNodes_error (h : Named s) {error : String} (hadd : addNewNodes e cs s = (s', .error error)) :
    s.inc ∈ s'.bootstraps := by
  cases cs with
  | nil => nomatch hadd
  | cons c cs =>
    have hfirst : s.inc ∈ (s.register c).bootstraps := by
      have hboot := h.lookup_register c s.inc
      rw [if_pos rfl] at hboot
      exact mem_iff_lookup.mpr ⟨_, hboot⟩
    have hkeeps := (h.register c).keeps
    unfold addNewNodes at hadd
    dsimp only at hadd
    cases hprepare : e.prepare s.inc c with
    | error error =>
      rw [hprepare] at hadd
      obtain rfl : s.register c = s' := congrArg Prod.fst hadd
      exact hfirst
    | ok answer =>
      rw [hprepare] at hadd
      have hrest : Keeps (s.register c) { s.register c with tasks := insert s.inc (s.register c).tasks } :=
        hkeeps.congr ⟨rfl, rfl, rfl, rfl, rfl⟩
      have hafter := hrest.addNewNodes e cs
      dsimp only at hadd
      rw [hadd] at hafter
      exact hafter.bootstraps _ hfirst

/-- A reload that fails was rejected, or leaves a bootstrap under an index that was free. -/
theorem Named.reload_error (h : Named s) (hfail : (s.reload e components).2 ≠ .ok ()) :
    Rejected e s components ∨ s.inc ∈ (s.reload e components).1.bootstraps := by
  obtain ⟨p, hplan⟩ := h.plan_ok e components
  by_cases hvalid : s.validate e p = .ok ()
  · right
    have hreload : s.reload e components = s.apply e p := by
      unfold Runtime.reload
      simp only [hplan, hvalid]
    rw [hreload] at hfail ⊢
    rcases hadd : addNewNodes e p.adds s with ⟨s', error | answer⟩
    · have happly : s.apply e p = (s', .error error) := by
        unfold Runtime.apply
        rw [hadd]
      rw [happly]
      exact h.addNewNodes_error hadd
    · exact absurd (h.apply_ok (planned hplan) hadd) hfail
  · exact Or.inl ⟨p, hplan, hvalid⟩

end Runtime

/-- A reload that fails after any calls is all or nothing exactly when a validation has rejected the list. -/
theorem failed_reload_iff {Body : Type} (e : Engine Body) (as : List (RuntimeAct Body)) (components : List (Component Body))
    (hfail : (((Runtime.machine e).state as).reload e components).2 ≠ .ok ()) :
    Runtime.AllOrNothing e ((Runtime.machine e).state as) components ↔
      Runtime.Rejected e ((Runtime.machine e).state as) components := by
  have hnamed := Runtime.named e as
  constructor
  · rintro ⟨hsame, -⟩
    rcases hnamed.reload_error hfail with hrejected | hleft
    · exact hrejected
    · rw [hsame.bootstraps] at hleft
      exact absurd hleft hnamed.notMem_inc
  · intro hrejected
    unfold Runtime.AllOrNothing
    rw [hrejected.reload]
    exact ⟨⟨rfl, rfl, rfl, rfl, rfl, rfl, rfl, rfl, rfl⟩, fun later hlater =>
      ⟨hlater, ⟨rfl, rfl, rfl, rfl, rfl, rfl, rfl, rfl, rfl⟩⟩⟩

namespace Runtime

/-- An engine whose components can be prepared when their body says so. -/
def picky : Engine Bool :=
  ⟨fun b c => b = c, fun _ c => if c.body then .ok () else .error "refused", fun l => l, fun l => List.Perm.refl l⟩

/-- A list with a sink that can be prepared or cannot. -/
def pair (ready : Bool) : List (Component Bool) :=
  [⟨"x", .source, none, false, true⟩, ⟨"y", .sink, some ["x"], false, ready⟩]

theorem failed_reload_iff_cycle :
    AllOrNothing picky ((machine picky).state [.reload (pair true)])
        [⟨"x", .source, none, false, true⟩, ⟨"y", .sink, some ["y"], false, true⟩] ↔
      Rejected picky ((machine picky).state [.reload (pair true)])
        [⟨"x", .source, none, false, true⟩, ⟨"y", .sink, some ["y"], false, true⟩] :=
  failed_reload_iff picky [.reload (pair true)] _ (by decide +kernel)

/-- When the second of two components cannot be prepared both stay. The list with a component that can be prepared is then taken
for a change of nodes that are there, and the sink has no task; without the first reload it has one. -/
theorem failed_reload_leaves_nodes :
    ((new : Runtime Bool).reload picky (pair false)).2 ≠ .ok () ∧
    ¬AllOrNothing picky new (pair false) ∧
    1 ∈ ((new : Runtime Bool).reload picky (pair true)).1.tasks ∧
    (((new : Runtime Bool).reload picky (pair false)).1.reload picky (pair true)).2 = .ok () ∧
    1 ∉ (((new : Runtime Bool).reload picky (pair false)).1.reload picky (pair true)).1.tasks := by
  refine ⟨by decide +kernel, ?_, by decide +kernel, by decide +kernel, by decide +kernel⟩
  rintro ⟨hsame, -⟩
  have hnodes : "x" ∈ ((new : Runtime Bool).reload picky (pair false)).1.nodes := by decide +kernel
  rw [hsame.nodes] at hnodes
  exact absurd hnodes (AList.notMem_empty _)

/-! ## A component that stays -/

variable {idx : Nat} {b : Bootstrap Body}

/-- A node still has its bootstrap, and runs if it ran. -/
structure Undisturbed (s : Runtime Body) (idx : Nat) (b : Bootstrap Body) (s' : Runtime Body) : Prop extends Named s' where
  bootstrap : s'.bootstraps.lookup idx = some b
  task : idx ∈ s'.tasks ↔ idx ∈ s.tasks

/-- An addition is given an index of its own. -/
theorem Undisturbed.register (h : Undisturbed s idx b s') (c : Component Body) : Undisturbed s idx b (s'.register c) ∧
    Undisturbed s idx b { s'.register c with tasks := insert s'.inc (s'.register c).tasks } := by
  have hne : idx ≠ s'.inc := (h.fresh idx b h.bootstrap).ne
  have hnamed := h.toNamed.register c
  have hboot : (s'.register c).bootstraps.lookup idx = some b := by
    rw [h.toNamed.lookup_register, if_neg hne, h.bootstrap]
  exact ⟨⟨hnamed, hboot, h.task⟩, hnamed.congr ⟨rfl, rfl, rfl, rfl, rfl⟩, hboot, (Finset.mem_insert.trans (or_iff_right hne)).trans h.task⟩

theorem Undisturbed.changeNode (h : Undisturbed s idx b s') {c : Component Body} (hne : c.id ≠ b.component.id) :
    Undisturbed s idx b (changeNode s' c).1 := by
  cases hidx : s'.nodes.lookup c.id with
  | none =>
    unfold Runtime.changeNode
    rw [hidx]
    exact h
  | some i =>
    obtain ⟨b', hb', hid, heq⟩ := h.toNamed.changeNode_cases hidx
    have hnamed := h.toNamed.changeNode c
    rw [heq] at hnamed ⊢
    refine ⟨hnamed, ?_, h.task⟩
    dsimp only
    rw [lookup_insert, if_neg, h.bootstrap]
    rintro rfl
    obtain rfl := Option.some.inj (h.bootstrap.symm.trans hb')
    exact hne hid.symm

theorem Undisturbed.removeNode (h : Undisturbed s idx b s') {id : Nat} (hne : idx ≠ id) :
    Undisturbed s idx b (removeNode s' id).1 := by
  cases hb : s'.bootstraps.lookup id with
  | none =>
    unfold Runtime.removeNode
    rw [hb]
    exact h
  | some b' =>
    have hnamed := h.toNamed.removeNode id
    rw [h.toNamed.removeNode_cases hb] at hnamed ⊢
    refine ⟨hnamed, ?_, (Finset.mem_erase.trans (and_iff_right hne)).trans h.task⟩
    dsimp only
    rw [lookup_erase, if_neg hne, h.bootstrap]

end Runtime

end Opsense
