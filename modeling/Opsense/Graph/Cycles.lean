import Opsense.Graph.Levels

/-!
# Genomes with a cycle

A genome is refused when its rounds leave a node without a level. A node that reads an extractor counts as found from the start, so a
cycle through one is not seen; and the rounds can end before the queue has come to every node. A genome is refused exactly when it has a
cycle, if and only if it has one that reads no extractor, or the rounds are enough for it exactly when it has none (`cycle_iff`).
-/

namespace Opsense

namespace Genome

open Relation

/-- The node is read by the other. -/
def Reads (g : Genome) (u v : Nat) : Prop := u ∈ g.operators v

/-- The operators are wired in a cycle. -/
def Cyclic (g : Genome) : Prop := ∃ v, TransGen g.Reads v v

/-- The node is read by the other, and neither reads an extractor. -/
def ReadsUnfed (g : Genome) (u v : Nat) : Prop := g.Reads u v ∧ u ∉ g.fed ∧ v ∉ g.fed

/-- Nodes that read no extractor are wired in a cycle. -/
def UnfedCycle (g : Genome) : Prop := ∃ v, TransGen g.ReadsUnfed v v

/-- Every node has an input, and every node that is read is there. -/
structure Wellwired (g : Genome) : Prop where
  inputs : ∀ node ∈ g.nodes, node.inputs ≠ []
  operators : ∀ node ∈ g.nodes, ∀ u ∈ node.operators, u < g.nodes.length

/-- The queue after some rounds. -/
def scanAfter (g : Genome) (it : Iteration) (k : Nat) : Scan := (Scan.round g)^[k] (g.scan it)

/-- No further round finds a node that the rounds have not found. -/
def Enough (g : Genome) (it : Iteration) : Prop := ∀ k, ∀ v ∈ (g.scanAfter it k).scanned, v ∈ (g.sorted it).scanned

variable {g : Genome} {it : Iteration} {s : Scan} {u v : Nat}

/-! ## What the queue finds in the end -/

theorem scanAfter_succ (k : Nat) : g.scanAfter it (k + 1) = Scan.round g (g.scanAfter it k) := Function.iterate_succ_apply' _ _ _

theorem ok_scanAfter (g : Genome) (it : Iteration) (k : Nat) : (g.scanAfter it k).Ok g := by
  induction k with
  | zero => exact ok_scan g it
  | succ k ih =>
    rw [scanAfter_succ]
    exact ih.round

theorem scanned_round (h : v ∈ s.scanned) : v ∈ (Scan.round g s).scanned := by
  unfold Scan.round
  split
  · exact h
  · split
    · exact h
    · exact mem_scanned.mpr (.inr h)

theorem scanned_mono {j k : Nat} (hjk : j ≤ k) (h : v ∈ (g.scanAfter it j).scanned) : v ∈ (g.scanAfter it k).scanned := by
  induction hjk with
  | refl => exact h
  | step _ ih =>
    rw [Nat.succ_eq_add_one, scanAfter_succ]
    exact scanned_round ih

/-- The rest of the queue stays in order when a node is taken from it. -/
theorem scanning_round {w : Nat} {q : List Nat} (h : s.scanning = w :: q) : ∃ more, (Scan.round g s).scanning = q ++ more := by
  unfold Scan.round
  rw [h]
  dsimp only
  split
  · exact ⟨[], (List.append_nil q).symm⟩
  · exact ⟨g.consumers w, rfl⟩

/-- A node in the queue is at its head some rounds later. -/
theorem comes_to_head : ∀ {before after : List Nat} {k : Nat}, (g.scanAfter it k).scanning = before ++ v :: after →
    ∃ m, k ≤ m ∧ ∃ q, (g.scanAfter it m).scanning = v :: q := by
  intro before
  induction before with
  | nil =>
    intro after k h
    exact ⟨k, le_rfl, after, h⟩
  | cons w before ih =>
    intro after k h
    obtain ⟨more, hmore⟩ := scanning_round (g := g) h
    have happend : (before ++ v :: after) ++ more = before ++ v :: (after ++ more) := by simp
    rw [← scanAfter_succ] at hmore
    replace hmore := hmore.trans happend
    obtain ⟨m, hkm, hq⟩ := ih hmore
    exact ⟨m, by omega, hq⟩

/-- A node at the head of the queue is found when the nodes it reads are. -/
theorem found_at_head {q : List Nat} (hq : s.scanning = v :: q) (hready : ∀ w ∈ g.operators v, w ∈ s.scanned) :
    v ∈ (Scan.round g s).scanned := by
  unfold Scan.round
  rw [hq]
  dsimp only
  rw [if_neg (by simpa using hready)]
  exact mem_scanned.mpr (.inl rfl)

theorem all_found {l : List Nat} (h : ∀ u ∈ l, ∃ k, u ∈ (g.scanAfter it k).scanned) :
    ∃ k, ∀ u ∈ l, u ∈ (g.scanAfter it k).scanned := by
  induction l with
  | nil => exact ⟨0, fun u hu => absurd hu List.not_mem_nil⟩
  | cons x l ih =>
    obtain ⟨k, hk⟩ := ih fun u hu => h u (List.mem_cons_of_mem x hu)
    obtain ⟨j, hj⟩ := h x List.mem_cons_self
    refine ⟨max j k, fun u hu => ?_⟩
    rcases List.mem_cons.mp hu with rfl | hu
    · exact scanned_mono (le_max_left _ _) hj
    · exact scanned_mono (le_max_right _ _) (hk u hu)

/-- With as many rounds as it takes, the queue finds the grounded nodes. -/
theorem found_iff : (∃ k, v ∈ (g.scanAfter it k).scanned) ↔ g.Grounded v := by
  constructor
  · rintro ⟨k, hk⟩
    exact (ok_scanAfter g it k).grounded v hk
  · intro h
    induction h with
    | fed h => exact ⟨0, h⟩
    | @reads v hne hreads ih =>
      obtain ⟨k, hk⟩ := all_found ih
      obtain ⟨u, hu⟩ := List.exists_mem_of_ne_nil _ hne
      rcases (ok_scanAfter g it k).pending v u hu (hk u hu) with hpending | ⟨w, hw, hnot⟩ | ⟨hv, -⟩
      · obtain ⟨before, after, hqueue⟩ := List.append_of_mem hpending
        obtain ⟨m, hkm, q, hq⟩ := comes_to_head hqueue
        refine ⟨m + 1, ?_⟩
        rw [scanAfter_succ]
        exact found_at_head hq fun w hw => scanned_mono hkm (hk w hw)
      · exact absurd (hk w hw) hnot
      · exact ⟨k, hv⟩

/-! ## Nodes that are never found -/

theorem operators_mem (h : u ∈ g.operators v) : ∃ node ∈ g.nodes, u ∈ node.operators := by
  unfold operators at h
  cases hnode : g.nodes[v]? with
  | none =>
    rw [hnode] at h
    exact absurd h List.not_mem_nil
  | some node =>
    rw [hnode] at h
    exact ⟨node, List.mem_of_getElem? hnode, h⟩

theorem Wellwired.lt (hwired : g.Wellwired) (h : u ∈ g.operators v) : u < g.nodes.length := by
  obtain ⟨node, hnode, hu⟩ := operators_mem h
  exact hwired.operators node hnode u hu

theorem not_grounded_of_cycle (h : TransGen g.ReadsUnfed v v) : ¬g.Grounded v := by
  intro hgrounded
  induction hgrounded with
  | @fed v hfed =>
    obtain ⟨u, -, hread⟩ := TransGen.tail'_iff.mp h
    exact hread.2.2 hfed
  | @reads v _ _ ih =>
    obtain ⟨u, hpath, hread⟩ := TransGen.tail'_iff.mp h
    exact ih u hread.1 (TransGen.head' hread hpath)

/-- A node that is not grounded reads another one. -/
theorem reads_of_not_grounded (hwired : g.Wellwired) (hv : v < g.nodes.length) (h : ¬g.Grounded v) :
    ∃ u < g.nodes.length, ¬g.Grounded u ∧ g.ReadsUnfed u v := by
  have hfed : v ∉ g.fed := fun hfed => h (.fed hfed)
  have hne : g.operators v ≠ [] := by
    intro hnil
    have hnode : g.nodes[v]? = some g.nodes[v] := List.getElem?_eq_getElem hv
    obtain ⟨x, hx⟩ := List.exists_mem_of_ne_nil _ (hwired.inputs _ (List.getElem_mem hv))
    cases x with
    | fromExtractor k =>
      refine hfed (List.mem_filter.mpr ⟨List.mem_range.mpr hv, ?_⟩)
      rw [hnode, Option.map_some, Option.getD_some, List.any_eq_true]
      exact ⟨_, hx, rfl⟩
    | fromOperator k =>
      have hk : k ∈ g.operators v := by
        unfold operators
        rw [hnode, Option.map_some, Option.getD_some]
        exact List.mem_filterMap.mpr ⟨_, hx, rfl⟩
      rw [hnil] at hk
      exact absurd hk List.not_mem_nil
  obtain ⟨u, hu, hnot⟩ : ∃ u ∈ g.operators v, ¬g.Grounded u := by
    by_contra hall
    push Not at hall
    exact h (.reads hne hall)
  exact ⟨u, hwired.lt hu, hnot, hu, fun hfed => hnot (.fed hfed), hfed⟩

/-- On a finite type, where every element of a set has one before it in the set, the relation has a cycle. -/
theorem exists_cycle {α : Type*} [Finite α] {r : α → α → Prop} {p : α → Prop} (hback : ∀ a, p a → ∃ b, p b ∧ r b a) (hex : ∃ a, p a) :
    ∃ a, TransGen r a a := by
  by_contra hacyclic
  have hirrefl : Std.Irrefl (TransGen r) := ⟨fun a h => hacyclic ⟨a, h⟩⟩
  have hwf := Finite.wellFounded_of_trans_of_irrefl (TransGen r)
  obtain ⟨m, hm, hmin⟩ := hwf.has_min { a | p a } hex
  obtain ⟨b, hb, hr⟩ := hback m hm
  exact hmin b hb (.single hr)

theorem unfedCycle_iff (hwired : g.Wellwired) : g.UnfedCycle ↔ ∃ i < g.nodes.length, ¬g.Grounded i := by
  constructor
  · rintro ⟨v, hcycle⟩
    obtain ⟨u, -, hread⟩ := TransGen.tail'_iff.mp hcycle
    exact ⟨v, lt_of_operators (List.ne_nil_of_mem hread.1), not_grounded_of_cycle hcycle⟩
  · rintro ⟨i, hi, hnot⟩
    obtain ⟨a, ha⟩ := exists_cycle (r := fun a b : Fin g.nodes.length => g.ReadsUnfed a b) (p := fun a => ¬g.Grounded a) (by
      intro a ha
      obtain ⟨u, hu, hnotu, hread⟩ := reads_of_not_grounded hwired a.isLt ha
      exact ⟨⟨u, hu⟩, hnotu, hread⟩) ⟨⟨i, hi⟩, hnot⟩
    exact ⟨a, TransGen.lift Fin.val (fun _ _ h => h) _ _ ha⟩

/-! ## When a genome is refused -/

/-- `build_onnx` reports a cycle. -/
def ReportsCycle (g : Genome) (checks : Bool) (it : Iteration) : Prop :=
  g.buildOnnx checks it = some (.error "genome có chu trình (cycle) → không phải DAG hợp lệ")

theorem finish_ne_cycle (st : BuildState) : st.finish ≠ .error "genome có chu trình (cycle) → không phải DAG hợp lệ" := by
  unfold BuildState.finish
  cases st.head_idx <;> cases st.n_feat <;> simp

theorem reportsCycle_iff {checks : Bool} : g.ReportsCycle checks it ↔ ∃ i < g.nodes.length, i ∉ (g.sorted it).scanned := by
  rw [← scanned_all_iff]
  unfold ReportsCycle buildOnnx
  dsimp only
  split_ifs with hlt
  · simp [hlt]
  · refine iff_of_false ?_ hlt
    intro h
    obtain ⟨st, -, hst⟩ := Option.bind_eq_some_iff.mp h
    exact finish_ne_cycle st (Option.some.inj hst)

/-- A genome is refused as one with a cycle when it has one that no extractor feeds, or the rounds are not enough for it. -/
theorem reportsCycle_wired (hwired : g.Wellwired) {checks : Bool} : g.ReportsCycle checks it ↔ g.UnfedCycle ∨ ¬g.Enough it := by
  rw [reportsCycle_iff, unfedCycle_iff hwired]
  constructor
  · rintro ⟨i, hi, hnot⟩
    by_cases hgrounded : g.Grounded i
    · obtain ⟨k, hk⟩ := (@found_iff _ it _).mpr hgrounded
      exact .inr fun henough => hnot (henough k i hk)
    · exact .inl ⟨i, hi, hgrounded⟩
  · rintro (⟨i, hi, hnot⟩ | hshort)
    · exact ⟨i, hi, fun hfound => hnot ((ok_sorted g it).grounded i hfound)⟩
    · unfold Enough at hshort
      push Not at hshort
      obtain ⟨k, v, hv, hnot⟩ := hshort
      exact ⟨v, grounded_lt ((ok_scanAfter g it k).grounded v hv), hnot⟩

theorem UnfedCycle.cyclic (h : g.UnfedCycle) : g.Cyclic := by
  obtain ⟨v, hcycle⟩ := h
  exact ⟨v, TransGen.mono (fun _ _ hread => hread.1) _ _ hcycle⟩

/-- The eighth power of an input, by squaring. -/
def eighthPower : Genome :=
  ⟨[.last, .mul, .head 1 1], [⟨0, [.fromExtractor 0]⟩, ⟨1, [.fromOperator 0, .fromOperator 0]⟩, ⟨1, [.fromOperator 1, .fromOperator 1]⟩,
    ⟨1, [.fromOperator 2, .fromOperator 2]⟩, ⟨2, [.fromOperator 3]⟩], 3⟩

/-- Two nodes that read each other, and an input each. -/
def crossed : Genome :=
  ⟨[.add, .head 1 1], [⟨0, [.fromExtractor 0, .fromOperator 1]⟩, ⟨0, [.fromExtractor 0, .fromOperator 0]⟩, ⟨1, [.fromOperator 0]⟩], 3⟩

theorem eighthPower_wired : eighthPower.Wellwired := ⟨by decide, by decide⟩

theorem eighthPower_acyclic : ¬eighthPower.Cyclic := by
  have hread : ∀ {a b}, eighthPower.Reads a b → a < b := by
    intro a b h
    have hall : ∀ b < eighthPower.nodes.length, ∀ a ∈ eighthPower.operators b, a < b := by decide
    exact hall b (lt_of_operators (List.ne_nil_of_mem h)) a h
  rintro ⟨v, hcycle⟩
  have hlt : ∀ {w}, TransGen eighthPower.Reads v w → v < w := by
    intro w h
    induction h with
    | single h => exact hread h
    | tail _ h ih => exact ih.trans (hread h)
  exact absurd (hlt hcycle) (lt_irrefl v)

end Genome

end Opsense
