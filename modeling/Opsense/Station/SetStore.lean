import Opsense.Station.Contents
import Opsense.Station.Memory

/-!
# A station without a storage as a set of observations

Updates may overlap, repeat and come in any order. As long as their blocks have room, a query returns the observations of its
window that were written, in the order of time, and writing them again changes nothing. The exception is a pair of different
observations with one identity: `obs_identity` joins the labels to one text, and different labels may give the same text.
-/

namespace Opsense

namespace MemoryStation

open TimeseriesStation

/-- The observations that the updates were given. -/
def written (us : List Update) : List Observation := us.flatMap Update.records

/-- Every record is from the first second on and inside its update's range. -/
def InRange (us : List Update) : Prop := ∀ u ∈ us, ∀ o ∈ u.records, 0 ≤ o.ts ∧ u.query_from ≤ o.ts ∧ o.ts ≤ u.query_to

instance (us : List Update) : Decidable (InRange us) :=
  inferInstanceAs (Decidable (∀ u ∈ us, ∀ o ∈ u.records, 0 ≤ o.ts ∧ u.query_from ≤ o.ts ∧ o.ts ≤ u.query_to))

/-- What a query sees of a block. -/
def shown (d : Int) (us : List Update) (from_ts to_ts b : Int) : List Observation :=
  ((blockOf d us b).map (Block.window d b from_ts to_ts)).getD []

/-- A query returns the observations of the window, each once and in the order of time. -/
structure Exact (us : List Update) (from_ts to_ts : Int) (result : List Observation) : Prop where
  mem : ∀ o, o ∈ result ↔ o ∈ written us ∧ from_ts ≤ o.ts ∧ o.ts ≤ to_ts
  once : result.Nodup
  sorted : result.Pairwise fun o o' => o.ts ≤ o'.ts

/-- No two observations have one identity. -/
def Apart (us : List Update) : Prop := ∀ o ∈ written us, ∀ o' ∈ written us, obsIdentity o = obsIdentity o' → o = o'

variable {d b : Int} {us : List Update} {from_ts to_ts : Int}

/-! ## The records of a block -/

variable {o : Observation}

theorem written_of_mem_fed (ho : o ∈ fed d us b) : o ∈ written us := by
  obtain ⟨u, hu, ho⟩ := List.mem_flatMap.mp ho
  split_ifs at ho
  · exact List.mem_flatMap.mpr ⟨u, hu, (List.mem_filter.mp ho).1⟩
  · exact absurd ho List.not_mem_nil

/-- A record in the range of its update reaches the block of its time, when the time is one of the block. -/
theorem mem_fed_of_covers (hd : 0 < d) {u : Update} (hu : u ∈ us) (ho : o ∈ u.records) (hfrom : u.query_from ≤ o.ts)
    (hto : o.ts ≤ u.query_to) (hcovers : Block.Covers d (Block.idOf d o.ts) o.ts) :
    o ∈ fed d us (Block.idOf d o.ts) := by
  have hvisits : Visits d (Block.idOf d o.ts) u := Block.mem_ids.mpr ⟨Block.idOf_mono hd hfrom, Block.idOf_mono hd hto⟩
  refine List.mem_flatMap.mpr ⟨u, hu, ?_⟩
  rw [if_pos hvisits]
  exact List.mem_filter.mpr ⟨ho, decide_eq_true hcovers⟩

/-- A record in the range of its update reaches its block. -/
theorem mem_fed (hd : 0 < d) (hrange : InRange us) :
    o ∈ fed d us b ↔ o ∈ written us ∧ b = Block.idOf d o.ts := by
  constructor
  · intro ho
    obtain ⟨u, hu, hin⟩ := List.mem_flatMap.mp (written_of_mem_fed ho)
    have hcovers := Block.covers_idOf hd (hrange u hu o hin).1
    exact ⟨written_of_mem_fed ho, Block.Covers.unique hd (covers_of_mem_fed ho) hcovers⟩
  · rintro ⟨hwritten, rfl⟩
    obtain ⟨u, hu, ho⟩ := List.mem_flatMap.mp hwritten
    obtain ⟨hnonneg, hfrom, hto⟩ := hrange u hu o ho
    exact mem_fed_of_covers hd hu ho hfrom hto (Block.covers_idOf hd hnonneg)

theorem shown_eq (d : Int) (us : List Update) (from_ts to_ts b : Int) : shown d us from_ts to_ts b =
    Block.window d b from_ts to_ts ⟨Log.distinct obsIdentity Observation.ts (fed d us b), (0, 0), 0⟩ := by
  unfold shown
  cases hblock : blockOf d us b with
  | none =>
    rw [blockOf_eq_none.mp hblock]
    rfl
  | some block =>
    rw [← items_of_blockOf hblock]
    rfl

theorem mem_shown : o ∈ shown d us from_ts to_ts b ↔
    o ∈ Log.distinct obsIdentity Observation.ts (fed d us b) ∧ from_ts ≤ o.ts ∧ o.ts ≤ to_ts := by
  rw [shown_eq, Block.mem_window]
  constructor
  · rintro ⟨ho, hfrom, hto, -⟩
    exact ⟨ho, hfrom, hto⟩
  · rintro ⟨ho, hfrom, hto⟩
    exact ⟨ho, hfrom, hto, covers_of_mem_fed (Log.mem_of_mem_distinct ho)⟩

theorem shown_sublist : List.Sublist (shown d us from_ts to_ts b) (Log.distinct obsIdentity Observation.ts (fed d us b)) := by
  rw [shown_eq]
  exact List.filter_sublist

/-- What a query sees of a block is in the order of time, each identity once. -/
theorem pairwise_shown (d : Int) (us : List Update) (from_ts to_ts b : Int) :
    (shown d us from_ts to_ts b).Pairwise fun o o' => o.ts ≤ o'.ts ∧ obsIdentity o ≠ obsIdentity o' :=
  ((Log.pairwise_distinct _).and (List.pairwise_map.mp (Log.nodup_kinds_distinct _))).sublist shown_sublist

/-- A time of an earlier block is earlier. -/
theorem lt_of_covers (hd : 0 < d) {b' ts ts' : Int} (hlt : b < b') (h : Block.Covers d b ts) (h' : Block.Covers d b' ts') : ts < ts' := by
  have hmul : (b + 1) * d ≤ b' * d := Int.mul_le_mul_of_nonneg_right (by omega) hd.le
  have h1 : ts ≤ (b + 1) * d - 1 := h.2
  have h2 : b' * d ≤ ts' := h'.1
  omega

theorem pairwise_ids (start_block end_block : Int) : (Block.ids start_block end_block).Pairwise (· < ·) := by
  unfold Block.ids
  refine List.pairwise_map.mpr (List.pairwise_lt_range.imp fun hlt => ?_)
  omega

/-! ## What a query returns -/

/-- The blocks follow one another in the order of time. -/
theorem pairwise_flatMap_shown (hd : 0 < d) (start_block end_block : Int) :
    ((Block.ids start_block end_block).flatMap (shown d us from_ts to_ts)).Pairwise
      fun o o' => o.ts ≤ o'.ts ∧ obsIdentity o ≠ obsIdentity o' := by
  refine List.pairwise_flatMap.mpr ⟨fun b _ => pairwise_shown d us from_ts to_ts b, ?_⟩
  refine (pairwise_ids start_block end_block).imp fun {b b'} hlt o ho o' ho' => ?_
  have hcovers := covers_of_mem_fed (Log.mem_of_mem_distinct (mem_shown.mp ho).1)
  have hcovers' := covers_of_mem_fed (Log.mem_of_mem_distinct (mem_shown.mp ho').1)
  have hts := lt_of_covers hd hlt hcovers hcovers'
  exact ⟨hts.le, fun heq => absurd (identity_ts o o' heq) hts.ne⟩

/-- A query over a window within the cap returns observations of every identity written in its window. -/
theorem mem_flatMap_shown (hd : 0 < d) (hrange : InRange us) :
    o ∈ (Block.ids (Block.idOf d from_ts) (Block.idOf d to_ts)).flatMap (shown d us from_ts to_ts) ↔
      o ∈ Log.distinct obsIdentity Observation.ts (fed d us (Block.idOf d o.ts)) ∧ from_ts ≤ o.ts ∧ o.ts ≤ to_ts := by
  rw [List.mem_flatMap]
  constructor
  · rintro ⟨b, -, ho⟩
    have hmem := mem_shown.mp ho
    have hb := ((mem_fed hd hrange).mp (Log.mem_of_mem_distinct hmem.1)).2
    exact hb ▸ hmem
  · rintro ⟨ho, hfrom, hto⟩
    exact ⟨_, Block.mem_ids.mpr ⟨Block.idOf_mono hd hfrom, Block.idOf_mono hd hto⟩, mem_shown.mpr ⟨ho, hfrom, hto⟩⟩

/-- Where identities are apart, a block holds every observation written for it. -/
theorem mem_distinct_fed (hapart : Apart us) (hsub : ∀ o ∈ fed d us b, o ∈ written us) :
    o ∈ Log.distinct obsIdentity Observation.ts (fed d us b) ↔ o ∈ fed d us b := by
  refine ⟨Log.mem_of_mem_distinct, fun ho => ?_⟩
  have hkind : obsIdentity o ∈ (Log.distinct obsIdentity Observation.ts (fed d us b)).map obsIdentity :=
    Log.mem_kinds_distinct.mpr (List.mem_map_of_mem ho)
  obtain ⟨o', ho', heq⟩ := List.mem_map.mp hkind
  have hfed' := Log.mem_of_mem_distinct ho'
  rwa [← hapart o' (hsub o' hfed') o (hsub o ho) heq]

theorem queryRecent_eq {h : Host} {capacity : Nat} {s : MemoryStation} (hs : Holds h capacity (blockOf h.block_duration us) s)
    (hcap : windowFitsBlockCap h from_ts to_ts = true) : (queryRecent h s from_ts to_ts).2 =
      (Block.ids (Block.idOf h.block_duration from_ts) (Block.idOf h.block_duration to_ts)).flatMap
        (shown h.block_duration us from_ts to_ts) := by
  have hanswer := (hs.readRecent from_ts to_ts (recentBlocks h from_ts to_ts) []).2
  unfold queryRecent
  rw [hanswer, recentBlocks_of_fits hcap, List.nil_append]
  rfl

/-- An observation that reached the block of its time is in the answer of every query of a window with its time. -/
theorem mem_queryRecent {h : Host} {capacity : Nat} {s : MemoryStation} (hs : Holds h capacity (blockOf h.block_duration us) s)
    (hapart : Apart us) (ho : o ∈ fed h.block_duration us (Block.idOf h.block_duration o.ts))
    (hcap : windowFitsBlockCap h from_ts to_ts = true) (hfrom : from_ts ≤ o.ts) (hto : o.ts ≤ to_ts) :
    o ∈ (queryRecent h s from_ts to_ts).2 := by
  have hd := h.block_duration_pos
  rw [queryRecent_eq hs hcap]
  have hblock := Block.mem_ids.mpr ⟨Block.idOf_mono hd hfrom, Block.idOf_mono hd hto⟩
  refine List.mem_flatMap.mpr ⟨_, hblock, mem_shown.mpr ⟨?_, hfrom, hto⟩⟩
  exact (mem_distinct_fed hapart fun o ho => written_of_mem_fed ho).mpr ho

/-- What queries return is exact for every window within the cap exactly when identities are apart. -/
theorem exact_iff (h : Host) (us : List Update) (hrange : InRange us) :
    (∀ from_ts to_ts, windowFitsBlockCap h from_ts to_ts = true →
      Exact us from_ts to_ts ((blocksOf h from_ts to_ts).flatMap (shown h.block_duration us from_ts to_ts))) ↔ Apart us := by
  have hd := h.block_duration_pos
  have hpairwise : ∀ from_ts to_ts : Int, ((blocksOf h from_ts to_ts).flatMap
      (shown h.block_duration us from_ts to_ts)).Pairwise fun o o' => o.ts ≤ o'.ts ∧ obsIdentity o ≠ obsIdentity o' :=
    fun from_ts to_ts => pairwise_flatMap_shown hd (Block.idOf h.block_duration from_ts) (Block.idOf h.block_duration to_ts)
  constructor
  · intro hexact o ho o' ho' heq
    -- both are in the answer for their second, which has every identity once
    have hts := identity_ts o o' heq
    have hfits : windowFitsBlockCap h o.ts o.ts = true := by
      unfold windowFitsBlockCap MAX_BLOCKS_PER_QUERY
      simp
    have hmem := (hexact o.ts o.ts hfits).mem
    have hin := (hmem o).mpr ⟨ho, le_refl _, le_refl _⟩
    have hin' := (hmem o').mpr ⟨ho', hts.le, hts.ge⟩
    have honce : (((blocksOf h o.ts o.ts).flatMap (shown h.block_duration us o.ts o.ts)).map obsIdentity).Nodup :=
      List.pairwise_map.mpr ((hpairwise o.ts o.ts).imp And.right)
    exact List.inj_on_of_nodup_map honce hin hin' heq
  · intro hapart from_ts to_ts hfits
    refine ⟨fun o => ?_, ?_, (hpairwise from_ts to_ts).imp And.left⟩
    · unfold blocksOf
      rw [mem_flatMap_shown hd hrange,
        mem_distinct_fed hapart (fun o ho => ((mem_fed hd hrange).mp ho).1), mem_fed hd hrange]
      simp
    · exact (hpairwise from_ts to_ts).imp fun hne heq => hne.2 (congrArg obsIdentity heq)

/-! ## Writing again -/

/-- The records of an update that is repeated are there. -/
theorem fed_again (d : Int) {u : Update} (hu : u ∈ us) (now b : Int) :
    ∃ again, fed d (us ++ [{ u with now }]) b = fed d us b ++ again ∧ ∀ o ∈ again, o ∈ fed d us b := by
  refine ⟨_, fed_snoc d us { u with now } b, fun o ho => List.mem_flatMap.mpr ⟨u, hu, ?_⟩⟩
  split_ifs at ho with hvisits
  · have hvisits' : Visits d b u := hvisits
    rw [if_pos hvisits']
    exact ho
  · exact absurd ho List.not_mem_nil

theorem shown_again (d : Int) {u : Update} (hu : u ∈ us) (now from_ts to_ts b : Int) :
    shown d (us ++ [{ u with now }]) from_ts to_ts b = shown d us from_ts to_ts b := by
  obtain ⟨again, heq, hold⟩ := fed_again d hu now b
  rw [shown_eq, shown_eq, heq, Log.distinct_append_old identity_ts fun o ho => List.mem_map_of_mem (hold o ho)]

theorem fits_again {h : Host} {capacity : Nat} (hfits : Fits h capacity us) {u : Update} (hu : u ∈ us) (now : Int) :
    Fits h capacity (us ++ [{ u with now }]) := by
  refine hfits.mono fun b hb => ?_
  obtain ⟨again, heq, hold⟩ := fed_again h.block_duration hu now b
  rw [mem_touched] at hb ⊢
  rw [heq] at hb
  intro hnil
  rw [hnil] at hb hold
  exact hb (List.eq_nil_iff_forall_not_mem.mpr fun o ho => absurd (hold o ho) List.not_mem_nil)

/-- After every run of updates, with queries between them, whose records are in the range of their update and from the first
second on and whose blocks have room: a query over a window within the block cap returns exactly the observations that were
written in the window, each once and in the order of time, and an update that is repeated changes no query, exactly when no
two observations that were written have one identity. -/
theorem memory_set_store_iff (h : Host) (capacity : Nat) (as : List MemoryAct) (hrange : InRange (updates as))
    (hfits : Fits h capacity (updates as)) :
    let s := (machine h capacity).state as
    ((∀ from_ts to_ts, windowFitsBlockCap h from_ts to_ts = true →
        Exact (updates as) from_ts to_ts (queryRecent h s from_ts to_ts).2) ∧
      ∀ u ∈ updates as, ∀ now from_ts to_ts,
        (queryRecent h (updateRange h s { u with now }) from_ts to_ts).2 = (queryRecent h s from_ts to_ts).2) ↔
    Apart (updates as) := by
  intro s
  have hs : Holds h capacity (blockOf h.block_duration (updates as)) s := holds_run h capacity as hfits
  have hanswer := fun from_ts to_ts => (hs.readRecent from_ts to_ts (recentBlocks h from_ts to_ts) []).2
  rw [← exact_iff h (updates as) hrange]
  constructor
  · rintro ⟨hexact, -⟩ from_ts to_ts hcap
    have hresult := hexact from_ts to_ts hcap
    unfold queryRecent at hresult
    rwa [hanswer, recentBlocks_of_fits hcap] at hresult
  · intro hexact
    refine ⟨fun from_ts to_ts hcap => ?_, fun u hu now from_ts to_ts => ?_⟩
    · unfold queryRecent
      rw [hanswer, recentBlocks_of_fits hcap]
      exact hexact from_ts to_ts hcap
    · have hagain := ((hs.snoc { u with now } (fits_again hfits hu now)).readRecent from_ts to_ts
        (recentBlocks h from_ts to_ts) []).2
      unfold queryRecent
      rw [hanswer, hagain]
      exact congrArg _ (List.flatMap_congr fun b _ => shown_again h.block_duration hu now from_ts to_ts b)

/-- Updates that overlap, with a query between them. -/
def overlapping : List MemoryAct :=
  [.updateRange ⟨[cpuAt 12, cpuAt 1], 0, 15, 0⟩, .queryRecent 0 15, .updateRange ⟨[cpuAt 3, cpuAt 12], 2, 19, 1⟩]

/-- Two blocks are touched, and a query of both returns the three observations. -/
theorem memory_set_store_iff_overlapping :
    let s := (machine (hostOf []) 2).state overlapping
    Exact (updates overlapping) 0 19 (queryRecent (hostOf []) s 0 19).2 ∧
      (queryRecent (hostOf []) s 0 19).2 = [cpuAt 1, cpuAt 3, cpuAt 12] :=
  ⟨((memory_set_store_iff (hostOf []) 2 overlapping (by decide +kernel) (by decide +kernel)).mpr (by
      unfold Apart
      decide +kernel)).1 0 19 (by decide +kernel), by decide +kernel⟩

/-- An observation with one label. -/
def labelled (key value : String) : Observation := { cpuAt 1 with labels := ⟨[(key, value)], List.pairwise_singleton _ _⟩ }

/-- The label `a` with the value `b=c`, and the label `a=b` with the value `c`. -/
def twoLabels : List MemoryAct := [.updateRange ⟨[labelled "a" "b=c", labelled "a=b" "c"], 0, 9, 0⟩]

/-- Of two observations with different labels of one text a query returns the first. -/
theorem label_text_collides :
    InRange (updates twoLabels) ∧ Fits (hostOf []) 32 (updates twoLabels) ∧
    ¬Exact (updates twoLabels) 0 9 (queryRecent (hostOf []) ((machine (hostOf []) 32).state twoLabels) 0 9).2 := by
  refine ⟨by decide +kernel, by decide +kernel, fun hexact => ?_⟩
  have hresult : (queryRecent (hostOf []) ((machine (hostOf []) 32).state twoLabels) 0 9).2 = [labelled "a" "b=c"] := by
    decide +kernel
  have hwritten : labelled "a=b" "c" ∈ written (updates twoLabels) := by decide +kernel
  have hmem := (hexact.mem (labelled "a=b" "c")).mpr ⟨hwritten, by decide, by decide⟩
  rw [hresult, List.mem_singleton] at hmem
  exact absurd hmem (by decide +kernel)

end MemoryStation

end Opsense
