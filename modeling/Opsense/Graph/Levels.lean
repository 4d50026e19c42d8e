import Opsense.Graph.WellFormed
import Opsense.Lib.Walks

/-!
# The levels of the queue

When no more walks start at the nodes that read an extractor than there are rounds, the queue ends empty. It has then found the nodes
that are grounded, and given each of them a level above the nodes it reads (`sorted_settled`).
-/

namespace Opsense

namespace Genome

/-- A node that reads an extractor, or reads nodes that are all grounded. -/
inductive Grounded (g : Genome) : Nat → Prop where
  | fed {i : Nat} (h : i ∈ g.fed) : Grounded g i
  | reads {i : Nat} (h : g.operators i ≠ []) (hreads : ∀ u ∈ g.operators i, Grounded g u) : Grounded g i

/-- A node that reads no node, or one that is not there: the queue gives it no level. -/
def Loose (g : Genome) (i : Nat) : Prop := g.operators i = [] ∨ ∃ u ∈ g.operators i, g.nodes.length ≤ u

/-- At most as many walks start at the nodes that read an extractor as there are rounds. -/
def Few (g : Genome) : Prop := walkCount g.consumers (2 * g.nodes.length + 1) (g.fed.flatMap g.consumers) ≤ 2 * g.nodes.length

variable {g : Genome} {it : Iteration} {s : Scan} {u v : Nat}

theorem mem_fed_lt (h : v ∈ g.fed) : v < g.nodes.length := List.mem_range.mp (List.mem_filter.mp h).1

theorem lt_of_operators (h : g.operators v ≠ []) : v < g.nodes.length := by
  by_contra hv
  refine h ?_
  unfold operators
  rw [List.getElem?_eq_none (not_lt.mp hv)]
  rfl

@[simp] theorem mem_consumers : v ∈ g.consumers u ↔ u ∈ g.operators v := by
  unfold consumers
  simp only [List.mem_flatMap, List.mem_range, List.mem_filterMap]
  constructor
  · rintro ⟨i, -, k, hk, heq⟩
    split at heq
    · case isTrue hku =>
      cases heq
      exact hku ▸ hk
    · cases heq
  · intro h
    exact ⟨v, lt_of_operators (List.ne_nil_of_mem h), u, h, if_pos rfl⟩

theorem foldr_max_le_iff {l : List Nat} {m : Nat} : l.foldr max 0 ≤ m ↔ ∀ x ∈ l, x ≤ m := by
  induction l with
  | nil => simp
  | cons x l ih => simp [ih]

/-- What holds in every round: a node with a node it reads in the set is in the queue, waits for another, or has its level. -/
structure Scan.Ok (g : Genome) (s : Scan) : Prop where
  fed : ∀ i ∈ g.fed, i ∈ s.scanned
  nodup : s.scanned.Nodup
  grounded : ∀ i ∈ s.scanned, g.Grounded i
  queued : ∀ i ∈ s.scanning, g.operators i ≠ []
  leveled : ∀ i, s.levels i ≠ 0 → g.operators i ≠ [] ∧ ∀ u ∈ g.operators i, u ∈ s.scanned
  pending : ∀ v u, u ∈ g.operators v → u ∈ s.scanned → v ∈ s.scanning ∨ (∃ w ∈ g.operators v, w ∉ s.scanned) ∨
    v ∈ s.scanned ∧ s.levels v = 1 + ((g.operators v).map s.levels).foldr max 0

theorem ok_scan (g : Genome) (it : Iteration) : (g.scan it).Ok g where
  fed := fun i hi => hi
  nodup := List.nodup_range.filter _
  grounded := fun i hi => .fed hi
  queued := by
    intro i hi
    obtain ⟨u, -, hu⟩ := List.mem_flatMap.mp hi
    exact List.ne_nil_of_mem (mem_consumers.mp hu)
  leveled := fun i hi => absurd rfl hi
  pending := by
    intro v u hu hscanned
    exact .inl (List.mem_flatMap.mpr ⟨u, (it.perm _).mem_iff.mpr hscanned, mem_consumers.mpr hu⟩)

/-- A node that waits for another is taken from the queue. -/
theorem Scan.Ok.skip {i : Nat} {q : List Nat} (h : s.Ok g) (hq : s.scanning = i :: q) (hwaits : ∃ w ∈ g.operators i, w ∉ s.scanned) :
    Scan.Ok g { s with scanning := q } where
  fed := h.fed
  nodup := h.nodup
  grounded := h.grounded
  queued := fun j hj => h.queued j (hq ▸ List.mem_cons_of_mem i hj)
  leveled := h.leveled
  pending := by
    intro v u hu hscanned
    rcases h.pending v u hu hscanned with hmem | hrest
    · rw [hq, List.mem_cons] at hmem
      rcases hmem with rfl | hmem
      · exact .inr (.inl hwaits)
      · exact .inl hmem
    · exact .inr hrest

theorem mem_scanned {i j : Nat} : j ∈ (if i ∈ s.scanned then s.scanned else i :: s.scanned) ↔ j = i ∨ j ∈ s.scanned := by
  split
  · case isTrue hi => exact ⟨.inr, fun hj => hj.elim (· ▸ hi) id⟩
  · exact List.mem_cons

/-- A node that does not read the one that gets its level is where it was, or has just got the level. -/
theorem Scan.Ok.pending_level {i : Nat} {q : List Nat} {levels : Nat → Nat} {scanned : List Nat} (h : s.Ok g) (hq : s.scanning = i :: q)
    (hlevels : levels = Function.update s.levels i (1 + ((g.operators i).map s.levels).foldr max 0))
    (hscanned : ∀ j, j ∈ scanned ↔ j = i ∨ j ∈ s.scanned) (hiv : i ∉ g.operators v) (hu : u ∈ g.operators v) (hmem : u ∈ scanned) :
    v ∈ q ∨ (∃ w ∈ g.operators v, w ∉ scanned) ∨ v ∈ scanned ∧ levels v = 1 + ((g.operators v).map levels).foldr max 0 := by
  have hkeep : (g.operators v).map levels = (g.operators v).map s.levels := by
    refine List.map_congr_left fun w hw => ?_
    rw [hlevels, Function.update_of_ne]
    rintro rfl
    exact hiv hw
  have hu' : u ∈ s.scanned := by
    refine ((hscanned u).mp hmem).resolve_left ?_
    rintro rfl
    exact hiv hu
  rw [hkeep]
  by_cases hvi : v = i
  · subst hvi
    refine .inr (.inr ⟨(hscanned v).mpr (.inl rfl), ?_⟩)
    rw [hlevels, Function.update_self]
  rw [hlevels, Function.update_of_ne hvi]
  rcases h.pending v u hu hu' with hpending | ⟨w, hw, hnot⟩ | ⟨hv, hlevel⟩
  · rw [hq, List.mem_cons] at hpending
    exact .inl (hpending.resolve_left hvi)
  · refine .inr (.inl ⟨w, hw, fun hmem' => hnot (((hscanned w).mp hmem').resolve_left ?_)⟩)
    rintro rfl
    exact hiv hw
  · exact .inr (.inr ⟨(hscanned v).mpr (.inr hv), hlevel⟩)

/-- A node that waits for none gets its level, and what reads it joins the queue. -/
theorem Scan.Ok.level {i : Nat} {q : List Nat} (h : s.Ok g) (hq : s.scanning = i :: q) (hready : ∀ w ∈ g.operators i, w ∈ s.scanned) :
    Scan.Ok g
      { scanning := q ++ g.consumers i
        levels := Function.update s.levels i (1 + ((g.operators i).map s.levels).foldr max 0)
        scanned := if i ∈ s.scanned then s.scanned else i :: s.scanned } := by
  have hi : g.operators i ≠ [] := h.queued i (hq ▸ List.mem_cons_self)
  constructor
  · exact fun j hj => mem_scanned.mpr (.inr (h.fed j hj))
  · dsimp only
    split
    · exact h.nodup
    · case isFalse hi => exact List.nodup_cons.mpr ⟨hi, h.nodup⟩
  · intro j hj
    rcases mem_scanned.mp hj with rfl | hj
    · exact .reads hi fun w hw => h.grounded w (hready w hw)
    · exact h.grounded j hj
  · intro j hj
    rcases List.mem_append.mp hj with hj | hj
    · exact h.queued j (hq ▸ List.mem_cons_of_mem i hj)
    · exact List.ne_nil_of_mem (mem_consumers.mp hj)
  · intro j hj
    dsimp only at hj ⊢
    by_cases hji : j = i
    · subst hji
      exact ⟨hi, fun w hw => mem_scanned.mpr (.inr (hready w hw))⟩
    · rw [Function.update_of_ne hji] at hj
      obtain ⟨hne, hall⟩ := h.leveled j hj
      exact ⟨hne, fun w hw => mem_scanned.mpr (.inr (hall w hw))⟩
  · intro v u hu hmem
    by_cases hiv : i ∈ g.operators v
    · exact .inl (List.mem_append_right _ (mem_consumers.mpr hiv))
    · exact (h.pending_level hq rfl (fun _ => mem_scanned) hiv hu hmem).imp_left (List.mem_append_left _)

theorem Scan.Ok.round (h : s.Ok g) : (Scan.round g s).Ok g := by
  unfold Scan.round
  split
  · exact h
  · case h_2 i q hq =>
    split
    · case isTrue hwaits =>
      simp only [List.any_eq_true, decide_eq_true_eq] at hwaits
      exact h.skip hq hwaits
    · case isFalse hready =>
      simp only [List.any_eq_true, decide_eq_true_eq, not_exists, not_and, not_not] at hready
      exact h.level hq hready

theorem ok_sorted (g : Genome) (it : Iteration) : (g.sorted it).Ok g := by
  unfold sorted
  generalize 2 * g.nodes.length = n
  induction n with
  | zero => exact ok_scan g it
  | succ n ih =>
    rw [Function.iterate_succ_apply']
    exact ih.round

/-- Where few walks start at the nodes that read an extractor, the queue ends empty. -/
theorem sorted_drained (hfew : g.Few) : (g.sorted it).scanning = [] := by
  have hperm : (g.scan it).scanning.Perm (g.fed.flatMap g.consumers) := (it.perm g.fed).flatMap_right g.consumers
  have hcount := @walkCount_perm Nat g.consumers _ _ hperm (2 * g.nodes.length + 1)
  have hwalks : walks g.consumers (2 * g.nodes.length + 1) (g.scan it).scanning = [] := by
    refine walks_eq_nil_of_le (walks_eq_nil ?_) (Nat.le_succ _)
    rw [hcount]
    exact hfew
  refine @queue_drained Nat Scan g.consumers Scan.scanning (Scan.round g) ?_ ?_ _ _ _ hwalks (hcount.trans_le hfew)
  · intro s hs
    unfold Scan.round
    rw [hs]
    exact hs
  · intro s i q hs
    unfold Scan.round
    rw [hs]
    dsimp only
    split
    · exact .inl rfl
    · exact .inr rfl

/-! ## When the queue ends empty -/

theorem scanned_of_grounded (hfew : g.Few) (h : g.Grounded v) : v ∈ (g.sorted it).scanned := by
  have hok := ok_sorted g it
  induction h with
  | fed h => exact hok.fed _ h
  | @reads v hne hreads ih =>
    obtain ⟨u, hu⟩ := List.exists_mem_of_ne_nil _ hne
    rcases hok.pending v u hu (ih u hu) with hpending | ⟨w, hw, hnot⟩ | ⟨hv, -⟩
    · rw [sorted_drained hfew] at hpending
      exact absurd hpending List.not_mem_nil
    · exact absurd (ih w hw) hnot
    · exact hv

theorem grounded_lt (h : g.Grounded v) : v < g.nodes.length := by
  cases h with
  | fed h => exact mem_fed_lt h
  | reads hne _ => exact lt_of_operators hne

/-- Nodes have levels, in number, exactly when each of them has one. -/
theorem scanned_all_iff : (g.sorted it).scanned.length < g.nodes.length ↔ ∃ i < g.nodes.length, i ∉ (g.sorted it).scanned := by
  have hok := ok_sorted g it
  have hsub : ∀ i ∈ (g.sorted it).scanned, i ∈ List.range g.nodes.length :=
    fun i hi => List.mem_range.mpr (grounded_lt (hok.grounded i hi))
  constructor
  · intro hlt
    by_contra hall
    push Not at hall
    have hle := (List.subperm_of_subset List.nodup_range fun i hi => hall i (List.mem_range.mp hi)).length_le
    rw [List.length_range] at hle
    omega
  · rintro ⟨i, hi, hnot⟩
    have hle := (List.subperm_of_subset (List.nodup_cons.mpr ⟨hnot, hok.nodup⟩)
      (List.cons_subset.mpr ⟨List.mem_range.mpr hi, hsub⟩)).length_le
    rw [List.length_cons, List.length_range] at hle
    omega

theorem left_iff (hfew : g.Few) : (g.sorted it).scanned.length < g.nodes.length ↔ ∃ i < g.nodes.length, ¬g.Grounded i := by
  rw [scanned_all_iff]
  refine exists_congr fun i => and_congr_right fun _ => not_congr ?_
  exact ⟨(ok_sorted g it).grounded i, scanned_of_grounded hfew⟩

/-- A node has a level above those of the nodes it reads, when all of these are there. -/
theorem level_lt (hfew : g.Few) (hall : ∀ i < g.nodes.length, i ∈ (g.sorted it).scanned) (hthere : ∀ w ∈ g.operators v, w < g.nodes.length)
    (hu : u ∈ g.operators v) : (g.sorted it).levels u < (g.sorted it).levels v := by
  rcases (ok_sorted g it).pending v u hu (hall u (hthere u hu)) with hpending | ⟨w, hw, hnot⟩ | ⟨-, hlevel⟩
  · rw [sorted_drained hfew] at hpending
    exact absurd hpending List.not_mem_nil
  · exact absurd (hall w (hthere w hw)) hnot
  · rw [hlevel, Nat.add_comm, Nat.lt_succ_iff]
    exact foldr_max_le_iff.mp le_rfl _ (List.mem_map_of_mem hu)

/-- A node has no level exactly when it reads none, or one that is not there. -/
theorem level_eq_zero_iff (hfew : g.Few) (hall : ∀ i < g.nodes.length, i ∈ (g.sorted it).scanned) :
    (g.sorted it).levels v = 0 ↔ g.Loose v := by
  constructor
  · intro hzero
    by_contra hloose
    unfold Loose at hloose
    push Not at hloose
    obtain ⟨hne, hthere⟩ := hloose
    obtain ⟨u, hu⟩ := List.exists_mem_of_ne_nil _ hne
    have hlt := level_lt hfew hall hthere hu
    omega
  · intro hloose
    by_contra hlevel
    obtain ⟨hne, hscanned⟩ := (ok_sorted g it).leveled v hlevel
    rcases hloose with hnil | ⟨w, hw, hout⟩
    · exact hne hnil
    · exact absurd (grounded_lt ((ok_sorted g it).grounded w (hscanned w hw))) (not_lt.mpr hout)

/-- A node that reads one that is not there is emitted among the first, with the nodes that read none, the higher index before: of those
its operator reads, each is one of these and has a higher index. -/
def Wired (g : Genome) : Prop :=
  ∀ v < g.nodes.length, (∃ w ∈ g.operators v, g.nodes.length ≤ w) → ∀ u ∈ g.readsAt v, u < g.nodes.length ∧ v < u ∧ g.Loose u

theorem readsAt_subset : ∀ u ∈ g.readsAt v, u ∈ g.operators v := by
  intro u hu
  have hoperators : g.operators v = (g.inputsAt v).filterMap In.operator? := by
    unfold operators inputsAt
    cases g.nodes[v]? <;> rfl
  rw [hoperators]
  exact ((List.take_sublist _ _).filterMap _).subset hu

theorem ordered_iff (hfew : g.Few) (hall : ∀ i < g.nodes.length, i ∈ (g.sorted it).scanned) : g.Ordered (g.sorted it) ↔ g.Wired := by
  constructor
  · intro hordered v hv hout u hu
    obtain ⟨hu', hbefore⟩ := hordered v hv u hu
    have hzero := (level_eq_zero_iff hfew hall).mpr (.inr hout)
    unfold Scan.Before at hbefore
    rw [hzero] at hbefore
    refine ⟨hu', by omega, (level_eq_zero_iff hfew hall).mp (by omega)⟩
  · intro hwired v hv u hu
    by_cases hout : ∃ w ∈ g.operators v, g.nodes.length ≤ w
    · obtain ⟨hu', hlt, hloose⟩ := hwired v hv hout u hu
      refine ⟨hu', .inr ⟨?_, hlt⟩⟩
      rw [(level_eq_zero_iff hfew hall).mpr hloose, (level_eq_zero_iff hfew hall).mpr (.inr hout)]
    · push Not at hout
      have hmem := readsAt_subset u hu
      exact ⟨hout u hmem, .inl (level_lt hfew hall hout hmem)⟩

/-! ## When the graph is well formed -/

/-- The genome is refused as one with a cycle: a node is not grounded or, when more walks start than there are rounds, the rounds leave
one without a level. -/
def Rejects (g : Genome) (it : Iteration) : Prop :=
  g.Few ∧ (∃ i < g.nodes.length, ¬g.Grounded i) ∨ ¬g.Few ∧ (g.sorted it).scanned.length < g.nodes.length

/-- The nodes are emitted after those they read. -/
def InOrder (g : Genome) (it : Iteration) : Prop := g.Few ∧ g.Wired ∨ ¬g.Few ∧ g.Ordered (g.sorted it)

/-- A rate of change of an input, and a head that reads it. -/
def rocGenome : Genome := ⟨[.roc 1, .head 1 1], [⟨0, [.fromExtractor 0]⟩, ⟨1, [.fromOperator 0]⟩], 3⟩

end Genome

end Opsense
