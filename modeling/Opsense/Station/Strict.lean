import Opsense.Station.SetStore

/-!
# The strict query of a station without a storage

`query_range` answers only when every block of its window covers what is asked of it. A block keeps its coverage as one
interval, from the earliest beginning to the latest end of the updates that visited it since it was there, so seconds between
two updates count as covered although none of them asked for these.
-/

namespace Opsense

namespace MemoryStation

open TimeseriesStation

/-- The first second of the block that an update covers. -/
def effFrom (d b : Int) (u : Update) : Int := max u.query_from (Block.start d b)

/-- The last second of the block that an update covers. -/
def effTo (d b : Int) (u : Update) : Int := min u.query_to (Block.finish d b)

/-- The updates that visit a block, from the first one that has a record for it on. -/
def counted (d : Int) (us : List Update) (b : Int) : List Update :=
  (us.filter fun u => Visits d b u).dropWhile fun u => recordsOf d b u = []

/-- A second lies in the range of an update. -/
def Asked (us : List Update) (t : Int) : Prop := ∃ u ∈ us, u.query_from ≤ t ∧ t ≤ u.query_to

/-- Every second of a block between the beginning of one of its updates and the end of another lies in the range of an update. -/
def Gapless (d : Int) (us : List Update) : Prop :=
  ∀ b t, (∃ u ∈ counted d us b, effFrom d b u ≤ t) → (∃ u ∈ counted d us b, t ≤ effTo d b u) → Asked us t

/-- The ranges of the updates begin and end at times from the first second on. -/
def Nonneg (us : List Update) : Prop :=
  ∀ u ∈ us, (0 ≤ u.query_from ∧ u.query_from < 2 ^ 63) ∧ 0 ≤ u.query_to ∧ u.query_to < 2 ^ 63

instance (us : List Update) : Decidable (Nonneg us) :=
  inferInstanceAs (Decidable (∀ u ∈ us, (0 ≤ u.query_from ∧ u.query_from < 2 ^ 63) ∧ 0 ≤ u.query_to ∧ u.query_to < 2 ^ 63))

variable {d b : Int} {us : List Update}

/-! ## The coverage of a block -/

/-- The range of a block reaches from the earliest beginning to the latest end of the updates. -/
structure Spans (d b : Int) (us : List Update) (block : Block) : Prop where
  from_iff : ∀ t, block.range.1 ≤ t ↔ 2 ^ 63 - 1 ≤ t ∨ ∃ u ∈ us, effFrom d b u ≤ t
  to_iff : ∀ t, t ≤ block.range.2 ↔ t ≤ 0 ∨ ∃ u ∈ us, t ≤ effTo d b u

theorem spans_empty (d b : Int) : Spans d b [] Block.empty := ⟨fun t => by simp [Block.empty], fun t => by simp [Block.empty]⟩

/-- An update widens the range by what it covers of the block. -/
theorem Spans.update {block : Block} (h : Spans d b us block) (u : Update) :
    Spans d b (us ++ [u]) (block.update d b u.records u.query_from u.query_to u.now) := by
  constructor
  · intro t
    have hmin : (block.update d b u.records u.query_from u.query_to u.now).range.1 = min block.range.1 (effFrom d b u) := rfl
    rw [hmin, min_le_iff, h.from_iff, or_assoc]
    simp [or_and_right, exists_or]
  · intro t
    have hmax : (block.update d b u.records u.query_from u.query_to u.now).range.2 = max block.range.2 (effTo d b u) := rfl
    rw [hmax, le_max_iff, h.to_iff, or_assoc]
    simp [or_and_right, exists_or]

theorem counted_snoc (d : Int) (us : List Update) (u : Update) (b : Int) : counted d (us ++ [u]) b =
    if Visits d b u ∧ (counted d us b ≠ [] ∨ recordsOf d b u ≠ []) then counted d us b ++ [u] else counted d us b := by
  unfold counted
  rw [List.filter_append]
  by_cases hvisits : Visits d b u
  · rw [List.filter_cons_of_pos (by simpa using hvisits), List.filter_nil, List.dropWhile_append]
    by_cases hnil : (us.filter fun u => Visits d b u).dropWhile (fun u => recordsOf d b u = []) = []
    · by_cases hrecords : recordsOf d b u = [] <;> simp [hnil, hrecords, hvisits]
    · simp [hnil, hvisits]
  · rw [List.filter_cons_of_neg (by simpa using hvisits), List.filter_nil, List.append_nil, if_neg fun h => hvisits h.1]

/-- A block is there when an update counts for it, and its range is made of the updates that count. -/
theorem blockOf_spans (d : Int) (us : List Update) (b : Int) :
    (blockOf d us b = none ∧ counted d us b = []) ∨
    ∃ block, blockOf d us b = some block ∧ counted d us b ≠ [] ∧ Spans d b (counted d us b) block := by
  induction us using List.reverseRecOn with
  | nil => exact Or.inl ⟨rfl, rfl⟩
  | append_singleton us u ih =>
    rw [blockOf_snoc, counted_snoc]
    unfold feed
    by_cases hvisits : Visits d b u
    · rw [if_pos hvisits]
      unfold visit
      dsimp only
      rcases ih with ⟨hnone, hcounted⟩ | ⟨block, hblock, hcounted, hspans⟩
      · have hitems : (Block.empty.update d b u.records u.query_from u.query_to u.now).items = [] ↔ recordsOf d b u = [] := by
          rw [items_update, Log.distinct_eq_nil]
          exact Iff.rfl
        rw [hnone, hcounted, Option.getD_none]
        by_cases hrecords : recordsOf d b u = []
        · left
          simp [hitems.mpr hrecords, hrecords]
        · right
          have hne : ¬(none = (none : Option Block) ∧
              (Block.empty.update d b u.records u.query_from u.query_to u.now).items = []) :=
            fun h => hrecords (hitems.mp h.2)
          rw [if_neg hne, if_pos ⟨hvisits, Or.inr hrecords⟩]
          exact ⟨_, rfl, by simp, (spans_empty d b).update u⟩
      · right
        rw [hblock, if_neg (by simp), if_pos ⟨hvisits, Or.inl hcounted⟩, Option.getD_some]
        exact ⟨_, rfl, by simp, hspans.update u⟩
    · rw [if_neg hvisits, if_neg fun h => hvisits h.1]
      exact ih

theorem mem_of_mem_counted {u : Update} (h : u ∈ counted d us b) : u ∈ us ∧ Visits d b u := by
  obtain ⟨hu, hvisits⟩ := List.mem_filter.mp (List.dropWhile_subset _ h)
  exact ⟨hu, of_decide_eq_true hvisits⟩

/-! ## The seconds that are covered -/

/-- The block that an update visits is not after its end nor before its beginning. -/
theorem bounds_of_visits (hd : 0 < d) {u : Update} (hfrom : 0 ≤ u.query_from) (hto : 0 ≤ u.query_to) (h : Visits d b u) :
    0 ≤ Block.start d b ∧ Block.start d b ≤ u.query_to ∧ u.query_from ≤ Block.finish d b := by
  obtain ⟨h1, h2⟩ := Block.mem_ids.mp h
  have hb : 0 ≤ b := (Int.tdiv_nonneg hfrom hd.le).trans h1
  refine ⟨Int.mul_nonneg hb hd.le, ?_, ?_⟩
  · calc Block.start d b ≤ Block.start d (Block.idOf d u.query_to) := Int.mul_le_mul_of_nonneg_right h2 hd.le
      _ ≤ u.query_to := (Block.covers_idOf hd hto).1
  · have hstep : (Block.idOf d u.query_from + 1) * d ≤ (b + 1) * d := Int.mul_le_mul_of_nonneg_right (by omega) hd.le
    have hin := (Block.covers_idOf hd hfrom).2
    unfold Block.finish at hin ⊢
    omega

/-- A second that a block covers for a query lies between the updates of the block. -/
theorem between_of_covered (hd : 0 < d) (htimes : Nonneg us) {block : Block} (hblock : blockOf d us b = some block)
    {from_ts to_ts t : Int} (hcovered : covered d b from_ts to_ts block = true) (hfrom : from_ts ≤ t) (hto : t ≤ to_ts)
    (ht : Block.Covers d b t) : (∃ u ∈ counted d us b, effFrom d b u ≤ t) ∧ ∃ u ∈ counted d us b, t ≤ effTo d b u := by
  rcases blockOf_spans d us b with ⟨hnone, -⟩ | ⟨block', hblock', hcounted, hspans⟩
  · rw [hblock] at hnone
    nomatch hnone
  · obtain rfl := Option.some.inj (hblock.symm.trans hblock')
    obtain ⟨hlow, hhigh⟩ := Bool.and_eq_true_iff.mp hcovered
    have hlow : block.range.1 ≤ t := le_trans (of_decide_eq_true hlow) (max_le hfrom ht.1)
    have hhigh : t ≤ block.range.2 := le_trans (le_min hto ht.2) (of_decide_eq_true hhigh)
    -- the ends that the default range has lie within what any update covers
    obtain ⟨u, hu⟩ := List.exists_mem_of_ne_nil _ hcounted
    obtain ⟨hus, hvisits⟩ := mem_of_mem_counted hu
    obtain ⟨⟨hu0, hu63⟩, hv0, hv63⟩ := htimes u hus
    obtain ⟨-, hstart, hfinish⟩ := bounds_of_visits hd hu0 hv0 hvisits
    constructor
    · rcases (hspans.from_iff t).mp hlow with hmax | hex
      · exact ⟨u, hu, max_le (by omega) (by omega)⟩
      · exact hex
    · rcases (hspans.to_iff t).mp hhigh with hzero | hex
      · exact ⟨u, hu, le_min (by omega) (by omega)⟩
      · exact hex

/-- A window between the updates of a block is covered. -/
theorem covered_of_counted {u u' : Update} (hu : u ∈ counted d us b) (hu' : u' ∈ counted d us b) :
    ∃ block, blockOf d us b = some block ∧ covered d b (effFrom d b u) (effTo d b u') block = true := by
  rcases blockOf_spans d us b with ⟨-, hnil⟩ | ⟨block, hblock, -, hspans⟩
  · rw [hnil] at hu
    exact absurd hu List.not_mem_nil
  · refine ⟨block, hblock, Bool.and_eq_true_iff.mpr ⟨decide_eq_true ?_, decide_eq_true ?_⟩⟩
    · exact ((hspans.from_iff _).mpr (Or.inr ⟨u, hu, le_refl _⟩)).trans (le_max_left _ _)
    · exact (min_le_left _ _).trans ((hspans.to_iff _).mpr (Or.inr ⟨u', hu', le_refl _⟩))

/-- After every run of updates, with queries between them, whose times are from the first second on and whose blocks have room:
a strict query that answers was asked for every second of its window by some update, and answers what `query_recent` does,
exactly when in every block all seconds between the updates that count for it were asked for. -/
theorem strict_range_iff (h : Host) (capacity : Nat) (as : List MemoryAct) (htimes : Nonneg (updates as))
    (hfits : Fits h capacity (updates as)) :
    let s := (machine h capacity).state as
    (∀ from_ts to_ts r, 0 ≤ from_ts → (queryRange h s from_ts to_ts).2 = some r →
      (∀ t, from_ts ≤ t → t ≤ to_ts → Asked (updates as) t) ∧
      (windowFitsBlockCap h from_ts to_ts = true → r = (queryRecent h s from_ts to_ts).2)) ↔
    Gapless h.block_duration (updates as) := by
  intro s
  have hs : Holds h capacity (blockOf h.block_duration (updates as)) s := holds_run h capacity as hfits
  have hd := h.block_duration_pos
  have hstrict := fun from_ts to_ts r => (hs.readRange from_ts to_ts (blocksOf h from_ts to_ts) []).2 r
  have hrecent := fun from_ts to_ts => (hs.readRecent from_ts to_ts (recentBlocks h from_ts to_ts) []).2
  constructor
  · rintro hsound b t ⟨u, hu, hfrom⟩ ⟨u', hu', hto⟩
    -- the window from the one update to the other is in the block
    obtain ⟨hus, hvisits⟩ := mem_of_mem_counted hu
    obtain ⟨hus', hvisits'⟩ := mem_of_mem_counted hu'
    obtain ⟨hstart, -, hfinish⟩ := bounds_of_visits hd (htimes u hus).1.1 (htimes u hus).2.1 hvisits
    obtain ⟨-, hstart', -⟩ := bounds_of_visits hd (htimes u' hus').1.1 (htimes u' hus').2.1 hvisits'
    have hle := Block.start_le_finish hd b
    have hfirst : Block.Covers h.block_duration b (effFrom h.block_duration b u) :=
      ⟨le_max_right _ _, max_le hfinish hle⟩
    have hlast : Block.Covers h.block_duration b (effTo h.block_duration b u') := ⟨le_min hstart' hle, min_le_right _ _⟩
    have hfirst0 : 0 ≤ effFrom h.block_duration b u := hstart.trans hfirst.1
    have hlast0 : 0 ≤ effTo h.block_duration b u' := hstart.trans hlast.1
    have hone : blocksOf h (effFrom h.block_duration b u) (effTo h.block_duration b u') = [b] := by
      unfold blocksOf
      rw [← Block.Covers.unique hd hfirst (Block.covers_idOf hd hfirst0), ← Block.Covers.unique hd hlast (Block.covers_idOf hd hlast0)]
      unfold Block.ids
      simp
    obtain ⟨block, hblock, hcovered⟩ := covered_of_counted hu hu'
    have hanswer := (hstrict (effFrom h.block_duration b u) (effTo h.block_duration b u') _).mpr ⟨fun b' hb' => by
      rw [hone, List.mem_singleton] at hb'
      subst hb'
      exact ⟨block, hblock, hcovered⟩, rfl⟩
    exact (hsound _ _ _ hfirst0 hanswer).1 t hfrom hto
  · intro hgapless from_ts to_ts r hnonneg hr
    obtain ⟨hall, hresult⟩ := (hstrict from_ts to_ts r).mp hr
    refine ⟨fun t hfrom hto => ?_, fun hcap => ?_⟩
    · have hmem : Block.idOf h.block_duration t ∈ blocksOf h from_ts to_ts :=
        Block.mem_ids.mpr ⟨Block.idOf_mono hd hfrom, Block.idOf_mono hd hto⟩
      obtain ⟨block, hblock, hcovered⟩ := hall _ hmem
      obtain ⟨hex, hex'⟩ := between_of_covered hd htimes hblock hcovered hfrom hto (Block.covers_idOf hd (hnonneg.trans hfrom))
      exact hgapless _ t hex hex'
    · unfold queryRecent
      rw [hrecent, recentBlocks_of_fits hcap]
      exact hresult

/-- Two updates of one block, the second of which begins where the first ends. -/
def adjoining : List MemoryAct := [.updateRange ⟨[cpuAt 1], 0, 4, 0⟩, .updateRange ⟨[cpuAt 8], 5, 9, 1⟩]

/-- Every second of the block was asked for. -/
theorem strict_range_iff_adjoining :
    let s := (machine (hostOf []) 32).state adjoining
    (queryRange (hostOf []) s 0 9).2 = some [cpuAt 1, cpuAt 8] ∧ ∀ t, 0 ≤ t → t ≤ 9 → Asked (updates adjoining) t := by
  have hgapless : Gapless (hostOf []).block_duration (updates adjoining) := by
    rintro b t ⟨u, hu, hfrom⟩ ⟨u', hu', hto⟩
    have hbounds : ∀ u ∈ updates adjoining, 0 ≤ u.query_from ∧ u.query_to ≤ 9 := by decide
    have ht0 : 0 ≤ t := (hbounds u (mem_of_mem_counted hu).1).1.trans ((le_max_left _ _).trans hfrom)
    have ht9 : t ≤ 9 := (hto.trans (min_le_left _ _)).trans (hbounds u' (mem_of_mem_counted hu').1).2
    by_cases ht : t ≤ 4
    · exact ⟨⟨[cpuAt 1], 0, 4, 0⟩, by simp [updates, adjoining], ht0, ht⟩
    · exact ⟨⟨[cpuAt 8], 5, 9, 1⟩, by simp [updates, adjoining], by dsimp only; omega, ht9⟩
  have hanswer : (queryRange (hostOf []) ((machine (hostOf []) 32).state adjoining) 0 9).2 = some [cpuAt 1, cpuAt 8] := by
    decide +kernel
  exact ⟨hanswer, ((strict_range_iff (hostOf []) 32 adjoining (by decide +kernel) (by decide +kernel)).mpr hgapless 0 9 _
    (by decide) hanswer).1⟩

/-- Two updates of one block, with seconds between them that none of them asks for. -/
def apartUpdates : List MemoryAct := [.updateRange ⟨[cpuAt 1], 0, 2, 0⟩, .updateRange ⟨[cpuAt 8], 7, 9, 1⟩]

/-- The strict query of the whole block answers, although nobody asked for its fifth second. -/
theorem gap_counts_as_covered :
    let s := (machine (hostOf []) 32).state apartUpdates
    Nonneg (updates apartUpdates) ∧ Fits (hostOf []) 32 (updates apartUpdates) ∧
    (queryRange (hostOf []) s 0 9).2 = some [cpuAt 1, cpuAt 8] ∧ ¬Asked (updates apartUpdates) 5 := by
  refine ⟨by decide +kernel, by decide +kernel, by decide +kernel, ?_⟩
  unfold Asked
  decide +kernel

end MemoryStation

end Opsense
