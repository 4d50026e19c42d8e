import Opsense.Kernel.BlockCache

/-!
# What the block cache answers

A block holds the candles of its week that had appeared when it was last written, and is to claim of its week no part in which
candles are still to come (`Settled`). A fetch whose weeks meet `Claimable` keeps it so; then the cache answers what the
loader would.
-/

namespace Opsense

variable {F : Type}

/-! ## Weeks -/

/-- A week that begins at a time of an `i64`. -/
def IsWeek (bid : Int) : Prop := 0 ≤ bid ∧ bid * BLOCK_SECS < 2 ^ 63

theorem asU64_cast {t : Int} (h : 0 ≤ t) (hlt : t < 2 ^ 64) : (asU64 t : Int) = t := by
  unfold asU64
  rw [Int.emod_eq_of_lt h hlt, Int.toNat_of_nonneg h]

variable {bid : Int}

theorem IsWeek.start (h : IsWeek bid) : (blockStart bid : Int) = bid * BLOCK_SECS :=
  asU64_cast (Int.mul_nonneg h.1 (by decide)) (lt_trans h.2 (by norm_num))

theorem IsWeek.finish (h : IsWeek bid) : (blockStart (bid + 1) : Int) = (bid + 1) * BLOCK_SECS := by
  obtain ⟨h0, hlt⟩ := h
  have hwidth : BLOCK_SECS < 2 ^ 63 := by decide
  refine asU64_cast (Int.mul_nonneg (by omega) (by decide)) ?_
  rw [add_mul, one_mul]
  omega

theorem blockId_eq {ts : Nat} (h : ts < 2 ^ 63) : blockId ts = (ts : Int) / BLOCK_SECS := by
  unfold blockId
  rw [Int.bmod_eq_of_le (by omega) (by omega), Int.tdiv_eq_ediv_of_nonneg (by omega)]

/-- The weeks from that of one time to that of another. -/
theorem isWeek_of_mem {a b : Nat} (ha : a < 2 ^ 63) (hb : b < 2 ^ 63) (h : bid ∈ Block.ids (blockId a) (blockId b)) :
    IsWeek bid := by
  obtain ⟨h1, h2⟩ := Block.mem_ids.mp h
  rw [blockId_eq ha] at h1
  rw [blockId_eq hb] at h2
  unfold IsWeek BLOCK_SECS at *
  omega

/-- The week of a time contains it. -/
theorem blockId_bounds (ts : Nat) (h : ts < 2 ^ 63) : blockStart (blockId ts) ≤ ts ∧ ts < blockStart (blockId ts + 1) := by
  have hweek : IsWeek (blockId ts) := isWeek_of_mem h h (Block.mem_ids.mpr ⟨le_refl _, le_refl _⟩)
  have hstart := hweek.start
  have hfinish := hweek.finish
  rw [blockId_eq h] at *
  unfold BLOCK_SECS at *
  omega

theorem ids_cons {start_block end_block : Int} (h : start_block ≤ end_block) :
    Block.ids start_block end_block = start_block :: Block.ids (start_block + 1) end_block := by
  unfold Block.ids
  have hlen : (end_block - start_block + 1).toNat = (end_block - (start_block + 1) + 1).toNat + 1 := by omega
  rw [hlen, List.range_succ_eq_map, List.map_cons, List.map_map]
  refine List.cons_eq_cons.mpr ⟨by simp, List.map_congr_left fun i _ => ?_⟩
  simp only [Function.comp_apply]
  omega

theorem ids_nil {start_block end_block : Int} (h : end_block < start_block) : Block.ids start_block end_block = [] := by
  unfold Block.ids
  rw [Int.toNat_of_nonpos (by omega)]
  rfl

/-! ## What the loader answers -/

variable {series : Series F}

variable {clock from_ts to_ts : Nat}

theorem Series.mem_range {c : CandleStick F} :
    c ∈ series.range clock from_ts to_ts ↔ c ∈ series.candles ∧ from_ts ≤ c.t ∧ c.t < to_ts ∧ c.t < clock := by
  simp [Series.range]

theorem Series.range_ordered (clock from_ts to_ts : Nat) : Timeline.Ordered CandleStick.t (series.range clock from_ts to_ts) :=
  series.ascending.filter _

theorem Series.range_append {clock a b c : Nat} (hab : a ≤ b) (hbc : b ≤ c) :
    series.range clock a b ++ series.range clock b c = series.range clock a c := by
  have hwindow : ∀ x y, series.range clock x y =
      Timeline.window CandleStick.t (series.candles.filter fun candle => candle.t < clock) x y := by
    intro x y
    unfold Series.range Timeline.window
    rw [List.filter_filter]
    refine List.filter_congr fun candle _ => ?_
    simp [Bool.and_assoc]
  rw [hwindow, hwindow, hwindow]
  exact Timeline.window_append (series.ascending.filter _) (by omega) (by omega)

theorem Series.range_empty {clock a b : Nat} (h : b ≤ a) : series.range clock a b = [] := by
  refine List.eq_nil_iff_forall_not_mem.mpr fun c hc => ?_
  obtain ⟨-, h1, h2, -⟩ := Series.mem_range.mp hc
  omega

/-- A part of what the loader answered is what it answers for that part, at any time before which the candles were there. -/
theorem Series.slice_range {seen clock a b from_ts to_ts : Nat} (hle : from_ts ≤ to_ts)
    (hseen : ∀ c ∈ series.candles, from_ts ≤ c.t → c.t < to_ts → (c.t < clock ↔ (a ≤ c.t ∧ c.t < b ∧ c.t < seen))) :
    sliceOf (series.range seen a b) from_ts to_ts = series.range clock from_ts to_ts := by
  have hcast : ∀ (t : Nat), ∀ c ∈ series.range seen a b, decide (asU64 c.t < t) = decide (c.t < (t : Int)) := by
    intro t c hc
    obtain ⟨hmem, h1, -, -⟩ := Series.mem_range.mp hc
    rw [asU64_of_nonneg (by omega) (series.bounded c hmem)]
    exact decide_eq_decide.mpr (by omega)
  unfold sliceOf
  rw [partitionPoint_congr (hcast to_ts), partitionPoint_congr (hcast from_ts),
    Timeline.slice_eq_window (Series.range_ordered _ _ _) (by omega)]
  unfold Timeline.window Series.range
  rw [List.filter_filter]
  refine List.filter_congr fun c hc => ?_
  rw [← Bool.decide_and, decide_eq_decide]
  constructor
  · rintro ⟨⟨h1, h2⟩, h3⟩
    exact ⟨h1, h2, (hseen c hc h1 h2).mpr h3⟩
  · rintro ⟨h1, h2, h3⟩
    exact ⟨⟨h1, h2⟩, (hseen c hc h1 h2).mp h3⟩

/-! ## Blocks -/

/-- A candle is of a week. -/
def InWeek (bid : Int) (c : CandleStick F) : Prop := blockStart bid ≤ c.t ∧ c.t < blockStart (bid + 1)

instance (bid : Int) (c : CandleStick F) : Decidable (InWeek bid c) := by unfold InWeek; infer_instance

/-- The candles of a week that have appeared. -/
def Series.week (series : Series F) (clock : Nat) (bid : Int) : List (CandleStick F) :=
  series.range clock (blockStart bid) (blockStart (bid + 1))

/-- A block holds the candles of its week that had appeared at some time, and no other ones are in the part it covers. -/
def Settled (series : Series F) (clock : Nat) (bid : Int) (block : BlockCache F) : Prop :=
  ∃ seen ≤ clock, block.candles = series.week seen bid ∧
    ∀ c ∈ series.candles, InWeek bid c → c.t < block.covered_last → c.t < seen

theorem Settled.mono {clock clock' : Nat} (hle : clock ≤ clock') {block : BlockCache F} (h : Settled series clock bid block) :
    Settled series clock' bid block := by
  obtain ⟨seen, hseen, hcandles, hcovered⟩ := h
  exact ⟨seen, hseen.trans hle, hcandles, hcovered⟩

/-- What a block gives for a part that it covers is what the loader gives. -/
theorem Settled.subrange {clock : Nat} {block : BlockCache F} (h : Settled series clock bid block) {from_ts to_ts : Nat}
    (hfrom : blockStart bid ≤ from_ts) (hle : from_ts ≤ to_ts) (hto : to_ts ≤ blockStart (bid + 1)) (hcovered : to_ts ≤ block.covered_last) :
    block.subrange from_ts to_ts = series.range clock from_ts to_ts := by
  obtain ⟨seen, hseen, hcandles, hall⟩ := h
  unfold BlockCache.subrange
  rw [hcandles]
  refine Series.slice_range hle fun c hc h1 h2 => ?_
  have hin : InWeek bid c := ⟨by omega, by omega⟩
  have happeared := hall c hc hin (by omega)
  obtain ⟨h3, h4⟩ := hin
  omega

/-- `step_secs` of a block with the given candles. -/
def stepOf (candles : List (CandleStick F)) : Nat := if 0 < minGap candles then minGap candles else 300

/-- What an update is to claim of a week holds: no candle of the week is still to come, or the request goes beyond the clock and
none comes within a step of the last one that is there. -/
def Claimable (series : Series F) (clock now original_to : Nat) (bid : Int) : Prop :=
  (∀ c ∈ series.candles, InWeek bid c → c.t < clock) ∨
  (now < original_to ∧ ∃ last ∈ (series.week clock bid).getLast?, ∀ c ∈ series.candles, InWeek bid c → clock ≤ c.t →
    last.t + stepOf (series.week clock bid) ≤ c.t)

instance (series : Series F) (clock now original_to : Nat) (bid : Int) : Decidable (Claimable series clock now original_to bid) := by
  unfold Claimable; infer_instance

/-- A block that is merged with all that has appeared of its week holds just that. -/
theorem merge_candles {block : BlockCache F} {fresh : List (CandleStick F)} (hfresh : Timeline.Ordered CandleStick.t fresh)
    (hsub : ∀ c ∈ block.candles, c ∈ fresh) :
    (block.merge fresh).candles = fresh ∧ (fresh ≠ [] → (block.merge fresh).stepSecs = stepOf fresh) := by
  have hmerged := Timeline.merge_eq hfresh hsub
  unfold BlockCache.merge
  by_cases hnil : fresh.isEmpty = true
  · rw [if_pos hnil]
    have hempty := List.isEmpty_iff.mp hnil
    refine ⟨?_, fun hne => absurd hempty hne⟩
    rw [hempty] at hsub ⊢
    exact List.eq_nil_iff_forall_not_mem.mpr fun c hc => List.not_mem_nil (hsub c hc)
  · rw [if_neg hnil]
    dsimp only
    refine ⟨hmerged, fun _ => ?_⟩
    unfold BlockCache.stepSecs stepOf
    dsimp only
    rw [hmerged]

theorem cover_candles (block : BlockCache F) (effective_from effective_to original_to now : Nat) :
    (block.cover effective_from effective_to original_to now).candles = block.candles := rfl

/-- A block that is updated with all that has appeared of its week is settled, when its update claims what it may. -/
theorem settled_update {clock now original_to : Nat} {old : BlockCache F} (hold : Settled series clock bid old)
    (hclaim : Claimable series clock now original_to bid) (effective_from effective_to : Nat) :
    Settled series clock bid ((old.merge (series.week clock bid)).cover effective_from effective_to original_to now) := by
  obtain ⟨seen, hseen, hcandles, hcovered⟩ := hold
  have hsub : ∀ c ∈ old.candles, c ∈ series.week clock bid := by
    intro c hc
    rw [hcandles] at hc
    obtain ⟨h1, h2, h3, h4⟩ := Series.mem_range.mp hc
    exact Series.mem_range.mpr ⟨h1, h2, h3, by omega⟩
  have hordered : Timeline.Ordered CandleStick.t (series.week clock bid) := Series.range_ordered _ _ _
  obtain ⟨hmerged, hstep⟩ := merge_candles hordered hsub
  have hlast : (old.merge (series.week clock bid)).covered_last = old.covered_last := by
    unfold BlockCache.merge
    split_ifs <;> rfl
  refine ⟨clock, le_refl _, by rw [cover_candles, hmerged], fun c hc hin hlt => ?_⟩
  -- a candle below the old end was there before
  by_cases hbefore : c.t < old.covered_last
  · have := hcovered c hc hin hbefore
    omega
  · rcases hclaim with hcomplete | ⟨hlive, last, hgetLast, htrailing⟩
    · exact hcomplete c hc hin
    · by_contra hcome
      have hafter := htrailing c hc hin (by omega)
      have hmem : last ∈ series.week clock bid := List.mem_of_getLast? hgetLast
      obtain ⟨hseries, hstart, -, -⟩ := Series.mem_range.mp hmem
      have hne : series.week clock bid ≠ [] := List.ne_nil_of_mem hmem
      unfold BlockCache.cover at hlt
      dsimp only at hlt
      rw [hmerged, Option.mem_def.mp hgetLast, hlast, hstep hne] at hlt
      dsimp only at hlt
      rw [if_neg (by omega), asU64_of_nonneg (by omega) (series.bounded last hseries)] at hlt
      omega

/-! ## The cache -/

/-- The blocks of a cache are settled. -/
def Tidy (hash : Int → Fin 32) (series : Series F) (clock : Nat) (lru : BlockLru F) : Prop :=
  LruCache.Partitioned.Keeps hash 32 (Settled series clock) lru

variable {hash : Int → Fin 32}

variable {lru : BlockLru F}

theorem Tidy.mono {clock clock' : Nat} (hle : clock ≤ clock') (h : Tidy hash series clock lru) :
    Tidy hash series clock' lru :=
  LruCache.Partitioned.Keeps.mono h fun _ _ => Settled.mono hle

theorem tidy_new (clock : Nat) : Tidy hash series clock (LruCache.Partitioned.new 1024) := by
  have hroom : 0 < 1024 := by decide
  exact LruCache.Partitioned.keeps_new hash (by decide) hroom _

theorem Tidy.get {clock : Nat} (h : Tidy hash series clock lru) (bid : Int) :
    Tidy hash series clock (lru.get hash bid).1 ∧ ∀ block, (lru.get hash bid).2 = some block → Settled series clock bid block :=
  ⟨LruCache.Partitioned.Keeps.get h (by decide) (by decide) bid, fun block hblock => h.kept bid block hblock⟩

theorem readBlocks_cons (from_ts to_ts : Nat) (lru : BlockLru F) (b : Int) (bids : List Int) (result : List (CandleStick F)) :
    readBlocks hash from_ts to_ts lru (b :: bids) result =
      match lru.get hash b with
      | (lru, none) => (lru, none)
      | (lru, some block) =>
        if max from_ts (blockStart b) < block.covered_first ∨ min to_ts (blockStart (b + 1)) > block.covered_last then (lru, none)
        else readBlocks hash from_ts to_ts lru bids
          (result ++ block.subrange (max from_ts (blockStart b)) (min to_ts (blockStart (b + 1)))) := rfl

/-- A pass of the loop ends it without an answer, or goes on with what the loader gives for the part of the week. -/
theorem Tidy.readBlocks_cons (h : Tidy hash series clock lru) {b : Int} (hweek : IsWeek b) (hle : from_ts ≤ to_ts)
    (hfrom : from_ts ≤ blockStart (b + 1)) (hto : blockStart b ≤ to_ts) (bids : List Int) (result : List (CandleStick F)) :
    (∃ lru', Tidy hash series clock lru' ∧ readBlocks hash from_ts to_ts lru (b :: bids) result = (lru', none)) ∨
    ∃ lru', Tidy hash series clock lru' ∧ readBlocks hash from_ts to_ts lru (b :: bids) result =
      readBlocks hash from_ts to_ts lru' bids
        (result ++ series.range clock (max from_ts (blockStart b)) (min to_ts (blockStart (b + 1)))) := by
  obtain ⟨hnext, hblock⟩ := h.get b
  rw [Opsense.readBlocks_cons]
  cases hget : lru.get hash b with
  | mk lru' found =>
    rw [hget] at hnext hblock
    cases found with
    | none => exact Or.inl ⟨lru', hnext, rfl⟩
    | some block =>
      dsimp only
      split_ifs with hmiss
      · exact Or.inl ⟨lru', hnext, rfl⟩
      · have hstart := hweek.start
        have hfinish := hweek.finish
        push Not at hmiss
        unfold BLOCK_SECS at hstart hfinish
        rw [(hblock block rfl).subrange (le_max_right _ _) (by omega) (min_le_right _ _) hmiss.2]
        exact Or.inr ⟨lru', hnext, rfl⟩

/-- What the blocks of some weeks in a row give for a range is what the loader gives. -/
theorem Tidy.readBlocks (hle : from_ts ≤ to_ts) (k : Nat) {s : Int} (h : Tidy hash series clock lru)
    (hweeks : ∀ b ∈ Block.ids s (s + k), IsWeek b) (hfrom : from_ts ≤ blockStart (s + 1)) (hto : blockStart (s + k) ≤ to_ts)
    (result : List (CandleStick F)) :
    Tidy hash series clock (readBlocks hash from_ts to_ts lru (Block.ids s (s + k)) result).1 ∧
    ∀ candles, (readBlocks hash from_ts to_ts lru (Block.ids s (s + k)) result).2 = some candles →
      candles = result ++ series.range clock (max from_ts (blockStart s)) (min to_ts (blockStart (s + k + 1))) := by
  induction k generalizing s lru result with
  | zero =>
    have hids : Block.ids s (s + (0 : Nat)) = [s] := by rw [ids_cons (by omega), ids_nil (by omega)]
    rw [hids] at hweeks ⊢
    have hto' : blockStart s ≤ to_ts := by simpa using hto
    rcases h.readBlocks_cons (hweeks s (by simp)) hle hfrom hto' [] result with ⟨lru', hlru', heq⟩ | ⟨lru', hlru', heq⟩
    · rw [heq]
      exact ⟨hlru', nofun⟩
    · rw [heq]
      refine ⟨hlru', fun candles hcandles => ?_⟩
      simpa [Opsense.readBlocks] using hcandles.symm
  | succ k ih =>
    have hnext : s + ((k + 1 : Nat) : Int) = s + 1 + (k : Int) := by omega
    rw [hnext] at hweeks hto ⊢
    rw [ids_cons (by omega)] at hweeks ⊢
    have hmem : s + 1 ∈ Block.ids (s + 1) (s + 1 + k) := Block.mem_ids.mpr (by omega)
    have hlast : s + 1 + k ∈ Block.ids (s + 1) (s + 1 + k) := Block.mem_ids.mpr (by omega)
    have hstart := (hweeks s (by simp)).start
    have hstart₁ := (hweeks (s + 1) (List.mem_cons_of_mem _ hmem)).start
    have hfinish₁ := (hweeks (s + 1) (List.mem_cons_of_mem _ hmem)).finish
    have hstartk := (hweeks (s + 1 + k) (List.mem_cons_of_mem _ hlast)).start
    have hfinishk := (hweeks (s + 1 + k) (List.mem_cons_of_mem _ hlast)).finish
    unfold BLOCK_SECS at hstart hstart₁ hfinish₁ hstartk hfinishk
    rcases h.readBlocks_cons (hweeks s (by simp)) hle hfrom (by omega) (Block.ids (s + 1) (s + 1 + k)) result with
      ⟨lru', hlru', heq⟩ | ⟨lru', hlru', heq⟩
    · rw [heq]
      exact ⟨hlru', nofun⟩
    · rw [heq]
      obtain ⟨htidy, hall⟩ := ih hlru' (fun b hb => hweeks b (List.mem_cons_of_mem _ hb)) (by omega) hto
        (result ++ series.range clock (max from_ts (blockStart s)) (min to_ts (blockStart (s + 1))))
      refine ⟨htidy, fun candles hcandles => ?_⟩
      -- the parts of the weeks join
      have hmin : min to_ts (blockStart (s + 1)) = blockStart (s + 1) := by omega
      have hmax : max from_ts (blockStart (s + 1)) = blockStart (s + 1) := by omega
      rw [hall candles hcandles, hmin, hmax, List.append_assoc, Series.range_append (by omega) (by omega)]

/-- What the cache answers for a range is what the loader answers. -/
theorem Tidy.tryReadBlocks (h : Tidy hash series clock lru) (hlt : from_ts < to_ts) (hto : to_ts ≤ 2 ^ 63) :
    Tidy hash series clock (tryReadBlocks hash lru from_ts to_ts).1 ∧
    ∀ candles, (tryReadBlocks hash lru from_ts to_ts).2 = some candles → candles = series.range clock from_ts to_ts := by
  have hfrom63 : from_ts < 2 ^ 63 := by omega
  have hto63 : to_ts - 1 < 2 ^ 63 := by omega
  obtain ⟨hfrom₁, hfrom₂⟩ := blockId_bounds from_ts hfrom63
  obtain ⟨hto₁, hto₂⟩ := blockId_bounds (to_ts - 1) hto63
  have hids : blockId from_ts ≤ blockId (to_ts - 1) := by
    rw [blockId_eq hfrom63, blockId_eq hto63]
    exact Int.ediv_le_ediv (by decide) (by omega)
  have hweeks : ∀ b ∈ Block.ids (blockId from_ts) (blockId (to_ts - 1)), IsWeek b := fun b hb => isWeek_of_mem hfrom63 hto63 hb
  unfold Opsense.tryReadBlocks
  generalize blockId from_ts = s at *
  generalize blockId (to_ts - 1) = e at *
  obtain ⟨k, rfl⟩ := Int.le.dest hids
  obtain ⟨htidy, hall⟩ := h.readBlocks hlt.le k hweeks hfrom₂.le (by omega) []
  -- the kernel is not to run the loop to see what its parts are
  obtain ⟨r, hr⟩ : ∃ r, r = Opsense.readBlocks hash from_ts to_ts lru (Block.ids s (s + k)) [] := ⟨_, rfl⟩
  rw [← hr] at htidy hall ⊢
  refine ⟨htidy, fun candles hcandles => ?_⟩
  obtain ⟨result, hresult, rfl⟩ := Option.map_eq_some_iff.mp hcandles
  rw [hall result hresult, List.nil_append, max_eq_left hfrom₁, min_eq_left (by omega)]
  split_ifs with hempty
  · exact (List.isEmpty_iff.mp hempty.1).symm
  · exact Timeline.dedup_ordered (Series.range_ordered _ _ _)

/-- A pass of an update that claims what it may keeps the blocks settled. -/
theorem Tidy.updateWeek {clock query_from query_to now original_to : Nat} (h : Tidy hash series clock lru) (hweek : IsWeek bid)
    (hfrom : query_from ≤ blockStart bid) (hto : blockStart (bid + 1) ≤ query_to) (hclaim : Claimable series clock now original_to bid) :
    Tidy hash series clock
      (updateWeek hash (series.range clock query_from query_to) query_from query_to original_to now lru bid) := by
  have hfresh : sliceOf (series.range clock query_from query_to) (blockStart bid) (blockStart (bid + 1)) =
      series.week clock bid := by
    have hstart := hweek.start
    have hfinish := hweek.finish
    unfold BLOCK_SECS at hstart hfinish
    refine Series.slice_range (by omega) fun c hc h1 h2 => ?_
    omega
  obtain ⟨hnext, hblock⟩ := h.get bid
  have hold : Settled series clock bid ((lru.get hash bid).2.getD BlockCache.empty) := by
    cases hget : (lru.get hash bid).2 with
    | none =>
      -- a new block holds what had appeared at the beginning of time
      refine ⟨0, Nat.zero_le _, ?_, fun c hc hin hlt => by simpa [BlockCache.empty] using hlt⟩
      refine (List.eq_nil_iff_forall_not_mem.mpr fun c hc => ?_).symm
      obtain ⟨-, h1, -, h3⟩ := Series.mem_range.mp hc
      omega
    | some block => exact hblock block hget
  unfold Opsense.updateWeek
  dsimp only
  rw [hfresh]
  split_ifs
  · exact LruCache.Partitioned.Keeps.put hnext (by decide) (by decide) (settled_update hold hclaim _ _)
  · exact hnext

/-- An update that claims what it may keeps the blocks settled. -/
theorem Tidy.updateBlocks {clock now original_to : Nat} (h : Tidy hash series clock lru) {s e : Int} (hs : IsWeek s) (he : IsWeek e)
    (hclaim : ∀ bid ∈ Block.ids s e, Claimable series clock now original_to bid) :
    Tidy hash series clock (updateBlocks hash lru (series.range clock (blockStart s) (blockStart (e + 1)))
      (blockStart s) (blockStart (e + 1)) original_to now) := by
  have hstart := hs.start
  have hfinish := he.finish
  obtain ⟨hs0, hslt⟩ := hs
  obtain ⟨he0, helt⟩ := he
  have hfirst : blockId (blockStart s) = s := by
    rw [blockId_eq (by omega), hstart]
    exact Int.mul_ediv_cancel _ (by decide)
  have hlast : blockId (blockStart (e + 1) - 1) ≤ e := by
    by_cases hsmall : blockStart (e + 1) - 1 < 2 ^ 63
    · rw [blockId_eq hsmall]
      unfold BLOCK_SECS at *
      omega
    · -- the last second of the week is not a time of an `i64`
      have hneg : Int.bmod (blockStart (e + 1) - 1 : Nat) (2 ^ 64) ≤ 0 := by
        have hmod : ((blockStart (e + 1) - 1 : Nat) : Int) % 2 ^ 64 = (blockStart (e + 1) - 1 : Nat) := by
          unfold BLOCK_SECS at *
          exact Int.emod_eq_of_lt (by omega) (by omega)
        rw [Int.bmod_def]
        push_cast
        push_cast at hmod
        rw [hmod]
        split_ifs <;> omega
      have hdiv := Int.tdiv_le_tdiv (c := BLOCK_SECS) (by decide) hneg
      rw [Int.zero_tdiv] at hdiv
      exact hdiv.trans he0
  have hsub : ∀ bid ∈ Block.ids (blockId (blockStart s)) (blockId (blockStart (e + 1) - 1)), s ≤ bid ∧ bid ≤ e := by
    intro bid hbid
    obtain ⟨h1, h2⟩ := Block.mem_ids.mp hbid
    omega
  unfold Opsense.updateBlocks
  generalize Block.ids (blockId (blockStart s)) (blockId (blockStart (e + 1) - 1)) = bids at hsub ⊢
  induction bids generalizing lru with
  | nil => exact h
  | cons bid bids ih =>
    obtain ⟨h1, h2⟩ := hsub bid (by simp)
    have hweek : IsWeek bid := by
      unfold IsWeek BLOCK_SECS at *
      omega
    have hbstart := hweek.start
    have hbfinish := hweek.finish
    unfold BLOCK_SECS at *
    refine ih (h.updateWeek hweek (by omega) (by omega) (hclaim bid (Block.mem_ids.mpr ⟨h1, h2⟩))) fun b hb => ?_
    exact hsub b (List.mem_cons_of_mem _ hb)

/-! ## Fetches -/

theorem retryRange_series (series : Series F) (resolution : String) (from_ts to_ts now retries attempt : Nat) :
    retryRange (series.loader now) resolution from_ts to_ts retries attempt =
      match (List.range' attempt retries).find? fun k => !(series.range (now + k) from_ts to_ts).isEmpty with
      | some k => .ok (series.range (now + k) from_ts to_ts)
      | none => .error "live timeout after retry 3" := by
  induction retries generalizing attempt with
  | zero => rfl
  | succ retries ih =>
    have hanswer : series.loader now attempt from_ts to_ts resolution = .ok (series.range (now + attempt) from_ts to_ts) := rfl
    rw [retryRange, hanswer, List.range'_succ, List.find?_cons]
    cases hrange : series.range (now + attempt) from_ts to_ts with
    | nil => simpa using ih (attempt + 1)
    | cons c cs => simp [hrange]

/-- The loader answers once it has candles of the range or the range is over, and else the fetch gives up. -/
theorem fetchDirect_cases (series : Series F) (resolution : String) (from_ts to_ts now : Nat) :
    let clock := now + series.slept from_ts to_ts now
    ((series.range clock from_ts to_ts ≠ [] ∨ to_ts ≤ now) ∧
      fetchDirect (series.loader now) resolution from_ts to_ts now = .ok (series.range clock from_ts to_ts)) ∨
    ((series.range clock from_ts to_ts = [] ∧ now < to_ts) ∧
      ∃ e, fetchDirect (series.loader now) resolution from_ts to_ts now = .error e) := by
  intro clock
  have hclock : clock = now + series.slept from_ts to_ts now := rfl
  have hanswer : series.loader now 0 from_ts to_ts resolution = .ok (series.range (now + 0) from_ts to_ts) := rfl
  have hattempts : List.range 4 = 0 :: List.range' 1 3 := rfl
  rw [hclock]
  unfold Series.slept fetchDirect
  rw [hanswer, hattempts, List.find?_cons]
  cases hfirst : series.range (now + 0) from_ts to_ts with
  | cons c cs =>
    left
    rw [Nat.add_zero] at hfirst
    split_ifs with hover <;> simp [hfirst]
  | nil =>
    by_cases hover : to_ts ≤ now
    · left
      rw [if_pos hover, hfirst]
      exact ⟨Or.inr hover, if_neg (by omega)⟩
    · have hlater : to_ts > now := by omega
      rw [if_neg hover]
      dsimp only [List.isEmpty_nil, Bool.not_true]
      rw [if_pos hlater, retryRange_series]
      cases hfind : (List.range' 1 3).find? fun k => !(series.range (now + k) from_ts to_ts).isEmpty with
      | some k =>
        have hsome := List.find?_some hfind
        left
        exact ⟨Or.inl (by simpa using hsome), rfl⟩
      | none =>
        have hnone := List.find?_eq_none.mp hfind 3 (by decide)
        right
        exact ⟨⟨by simpa using hnone, hlater⟩, _, rfl⟩

/-! ## What a fetch answers -/

/-- The cache does not answer a fetch. -/
def Misses (m : Market F) (s : Fetched F) (f : Fetch) : Prop := (s.lookup m f).2 = none

/-- The time at which a fetch that is not answered from the cache has its answer. -/
def answeredAt (m : Market F) (s : Fetched F) (f : Fetch) : Nat :=
  s.clock + f.elapsed +
    if m.fetchFrom f < m.fetchTo f then m.series.slept (m.weeks f).1 (m.weeks f).2 (s.clock + f.elapsed) else 0

/-- What is asked of the weeks that a fetch asks the loader for, when it does so at one time and has the answer at another: the
calendar leaves no candle out, and what an update is to claim of each of them holds, unless the fetch gives up. -/
def Loads (m : Market F) (f : Fetch) (now clock : Nat) : Prop :=
  if m.fetchFrom f < m.fetchTo f then
    m.fetchTo f ≤ 2 ^ 63 ∧
    (∀ c ∈ m.series.range clock f.from_ts f.to_ts, (m.weeks f).1 ≤ c.t ∧ c.t < (m.weeks f).2) ∧
    (m.series.range clock (m.weeks f).1 (m.weeks f).2 ≠ [] ∨ (m.weeks f).2 ≤ now →
      ∀ bid ∈ Block.ids (blockId (m.fetchFrom f)) (blockId (m.fetchTo f - 1)), Claimable m.series clock now f.to_ts bid)
  else m.series.range clock f.from_ts f.to_ts = []

/-- What is asked of a fetch: that it ends at a time of an `i64`, and, when the cache does not answer, of the weeks it loads. -/
def Clear (m : Market F) (s : Fetched F) (f : Fetch) : Prop :=
  f.from_ts < f.to_ts → f.to_ts ≤ 2 ^ 63 ∧ (Misses m s f → Loads m f (s.clock + f.elapsed) (answeredAt m s f))

/-- A fetch answers what the loader does when it has its answer; or it fails, and the loader has nothing then. -/
def Transparent (m : Market F) (s : Fetched F) (f : Fetch) : Prop :=
  let r := fetchFromBlocks m s f
  let direct := m.series.range r.1.clock f.from_ts f.to_ts
  r.2 = .ok direct ∨ (direct = [] ∧ ∃ e, r.2 = .error e)

/-- A transparent fetch brings the candles that the loader has. -/
theorem Transparent.candles {m : Market F} {s : Fetched F} {f : Fetch} (h : Transparent m s f) :
    (fetchFromBlocks m s f).2.toOption.getD [] = m.series.range (fetchFromBlocks m s f).1.clock f.from_ts f.to_ts := by
  rcases h with hok | ⟨hnone, e, herror⟩
  · rw [hok]
    rfl
  · rw [herror, hnone]
    rfl

/-- The blocks of all caches are settled. -/
def AllTidy (m : Market F) (s : Fetched F) : Prop := ∀ key lru, s.cache key = some lru → Tidy m.hash m.series s.clock lru

variable {m : Market F} {s : Fetched F} {f : Fetch}

theorem AllTidy.put (h : AllTidy m s) {clock : Nat} (hle : s.clock ≤ clock) (key : String) (hlru : Tidy m.hash m.series clock lru) :
    AllTidy m ⟨clock, Function.update s.cache key (some lru)⟩ := by
  intro key' lru' hlru'
  dsimp only at hlru' ⊢
  rw [Function.update_apply] at hlru'
  split_ifs at hlru'
  · obtain rfl := Option.some.inj hlru'
    exact hlru
  · exact (h key' lru' hlru').mono hle

/-- A look at the cache keeps the blocks settled, and what it gives is what the loader gives. -/
theorem AllTidy.lookup (h : AllTidy m s) (hlt : f.from_ts < f.to_ts) (hto : f.to_ts ≤ 2 ^ 63) :
    AllTidy m (s.lookup m f).1 ∧ (s.lookup m f).1.clock = s.clock ∧
    ∀ candles, (s.lookup m f).2 = some candles → candles = m.series.range s.clock f.from_ts f.to_ts := by
  unfold Fetched.lookup
  cases hlru : s.cache f.cache_key with
  | none => exact ⟨h, rfl, nofun⟩
  | some lru =>
    obtain ⟨htidy, hall⟩ := (h f.cache_key lru hlru).tryReadBlocks hlt hto
    dsimp only
    obtain ⟨r, hr⟩ : ∃ r, r = tryReadBlocks m.hash lru f.from_ts f.to_ts := ⟨_, rfl⟩
    rw [← hr] at htidy hall ⊢
    exact ⟨h.put (le_refl _) _ htidy, rfl, hall⟩

/-- A load keeps the blocks settled, and what it gives is what the loader gives. -/
theorem AllTidy.load (h : AllTidy m s) (hlt : f.from_ts < f.to_ts)
    (hloads : Loads m f s.clock (s.clock + if m.fetchFrom f < m.fetchTo f then m.series.slept (m.weeks f).1 (m.weeks f).2 s.clock else 0)) :
    AllTidy m (s.load m f).1 ∧
    ((s.load m f).2 = .ok (m.series.range (s.load m f).1.clock f.from_ts f.to_ts) ∨
      m.series.range (s.load m f).1.clock f.from_ts f.to_ts = [] ∧ ∃ e, (s.load m f).2 = .error e) := by
  unfold Fetched.load
  by_cases hopen : m.fetchFrom f < m.fetchTo f
  · unfold Loads at hloads
    rw [if_pos hopen, if_pos hopen] at hloads
    obtain ⟨hto, hweeks, hclaim⟩ := hloads
    rw [if_neg (by omega)]
    dsimp only
    -- what is loaded holds the candles of the range
    have hslice : ∀ clock, (∀ c ∈ m.series.range clock f.from_ts f.to_ts, (m.weeks f).1 ≤ c.t ∧ c.t < (m.weeks f).2) →
        sliceOf (m.series.range clock (m.weeks f).1 (m.weeks f).2) f.from_ts f.to_ts = m.series.range clock f.from_ts f.to_ts := by
      intro clock hin
      refine Series.slice_range hlt.le fun c hc h1 h2 => ⟨fun h3 => ?_, fun h3 => h3.2.2⟩
      obtain ⟨h4, h5⟩ := hin c (Series.mem_range.mpr ⟨hc, h1, h2, h3⟩)
      exact ⟨h4, h5, h3⟩
    have hlater : AllTidy m { s with clock := s.clock + m.series.slept (m.weeks f).1 (m.weeks f).2 s.clock } :=
      fun key lru hlru => (h key lru hlru).mono (Nat.le_add_right _ _)
    rcases fetchDirect_cases m.series f.resolution (m.weeks f).1 (m.weeks f).2 s.clock with ⟨hok, hanswer⟩ | ⟨⟨hnone, -⟩, e, hanswer⟩
    · rw [hanswer]
      dsimp only
      rw [Timeline.sort_ordered (Series.range_ordered _ _ _), hslice _ hweeks]
      refine ⟨hlater.put (le_refl _) _ ?_, Or.inl rfl⟩
      have hcached : Tidy m.hash m.series (s.clock + m.series.slept (m.weeks f).1 (m.weeks f).2 s.clock)
          ((s.cache f.cache_key).getD (LruCache.Partitioned.new 1024)) := by
        cases hlru : s.cache f.cache_key with
        | none => exact tidy_new _
        | some lru => exact (h f.cache_key lru hlru).mono (Nat.le_add_right _ _)
      have hfrom63 : m.fetchFrom f < 2 ^ 63 := by omega
      have hto63 : m.fetchTo f - 1 < 2 ^ 63 := by omega
      have hfirst : IsWeek (blockId (m.fetchFrom f)) := isWeek_of_mem hfrom63 hfrom63 (Block.mem_ids.mpr ⟨le_refl _, le_refl _⟩)
      have hlast : IsWeek (blockId (m.fetchTo f - 1)) := isWeek_of_mem hto63 hto63 (Block.mem_ids.mpr ⟨le_refl _, le_refl _⟩)
      have hupdated := hcached.updateBlocks hfirst hlast (hclaim hok)
      have hbegin : blockStart (blockId (m.fetchFrom f)) = (m.weeks f).1 := by rw [Market.weeks]
      have hend : blockStart (blockId (m.fetchTo f - 1) + 1) = (m.weeks f).2 := by rw [Market.weeks]
      rw [hbegin, hend] at hupdated
      exact hupdated
    · rw [hanswer]
      refine ⟨hlater, Or.inr ⟨?_, e, rfl⟩⟩
      rw [← hslice _ hweeks, hnone]
      rfl
  · unfold Loads at hloads
    rw [if_neg hopen, if_neg hopen] at hloads
    rw [if_pos (by omega)]
    refine ⟨h, Or.inl ?_⟩
    rw [← hloads]
    rfl

/-- A fetch that meets the condition keeps the blocks settled and is transparent. -/
theorem AllTidy.fetch (h : AllTidy m s) (hclear : Clear m s f) :
    AllTidy m (fetchFromBlocks m s f).1 ∧ Transparent m s f := by
  have hlater : AllTidy m { s with clock := s.clock + f.elapsed } :=
    fun key lru hlru => (h key lru hlru).mono (Nat.le_add_right _ _)
  unfold Transparent fetchFromBlocks
  dsimp only
  by_cases hlt : f.from_ts < f.to_ts
  · obtain ⟨hto, hloads⟩ := hclear hlt
    obtain ⟨htidy, hclock, hall⟩ := hlater.lookup hlt hto
    rw [if_neg (by omega)]
    have hmisses : Misses m s f ↔ (Fetched.lookup m { s with clock := s.clock + f.elapsed } f).2 = none := by
      unfold Misses Fetched.lookup
      cases s.cache f.cache_key <;> rfl
    cases hlookup : Fetched.lookup m { s with clock := s.clock + f.elapsed } f with
    | mk s' answer =>
      rw [hlookup] at htidy hclock hall hmisses
      cases answer with
      | some candles =>
        refine ⟨htidy, Or.inl ?_⟩
        rw [hall candles rfl, hclock]
      | none =>
        have hload := hloads (hmisses.mpr rfl)
        unfold answeredAt at hload
        dsimp only at hclock ⊢
        rw [← hclock] at hload
        exact htidy.load hlt hload
  · rw [if_pos (by omega)]
    exact ⟨hlater, Or.inr ⟨Series.range_empty (by omega), _, rfl⟩⟩

/-- Along every run of fetches that meet the condition, every fetch answers what the loader does when it has its answer; where
it fails, the loader has nothing. -/
theorem fetches_transparent (m : Market F) (as : List Fetch) (hclear : (fetching m).Along (Clear m) as) :
    (fetching m).Along (Transparent m) as := by
  intro pre f hp
  have htidy : AllTidy m ((fetching m).state pre) := by
    refine Machine.invariant_of_along (fun key lru hlru => nomatch hlru) (fun s f hs hf => (hs.fetch hf).1) pre ?_
    exact hclear.restrict ((List.prefix_append _ _).trans hp)
  exact (htidy.fetch (hclear pre f hp)).2

instance (m : Market F) (s : Fetched F) (f : Fetch) : Decidable (Misses m s f) :=
  inferInstanceAs (Decidable ((s.lookup m f).2 = none))

instance (m : Market F) (f : Fetch) (now clock : Nat) : Decidable (Loads m f now clock) := by
  unfold Loads; infer_instance

instance (m : Market F) (s : Fetched F) (f : Fetch) : Decidable (Clear m s f) := by
  unfold Clear; infer_instance

/-- A market of the first three hours, in which every key has the shard of its week. -/
def hourly : Market Nat where
  series := {
    candles := [⟨3600, 1, 1, 1, 1, 1⟩, ⟨7200, 2, 2, 2, 2, 2⟩, ⟨10800, 3, 3, 3, 3, 3⟩]
    ascending := by unfold Timeline.Ordered; decide
    bounded := by decide }
  calendar := cryptoCalendar
  hash := fun bid => ⟨(bid % 32).toNat, by omega⟩

/-- A fetch of hourly candles. -/
def hours (elapsed from_ts to_ts : Nat) : Fetch := ⟨elapsed, from_ts, to_ts, "1H", "1H:trade"⟩

/-- Two fetches of what lies ahead, the second of which finds one candle more. -/
theorem fetches_transparent_hourly : (fetching hourly).Along (Transparent hourly) [hours 9000 3600 14400, hours 3600 3600 14400] ∧
    (fetchFromBlocks hourly ((fetching hourly).state [hours 9000 3600 14400]) (hours 3600 3600 14400)).2.toOption.map
      (List.map CandleStick.t) = some [3600, 7200, 10800] := by
  refine ⟨fetches_transparent hourly _ (Machine.along_iff_alongFrom.mpr ?_), by decide +kernel⟩
  decide +kernel

/-- After a fetch of an hour that is over, the week is taken to be over too: the candle of the hour after is not found. -/
theorem new_candle_hidden :
    let s := (fetching hourly).state [hours 9000 3600 7200]
    (fetchFromBlocks hourly s (hours 5400 10800 14400)).2.toOption.map (List.map CandleStick.t) = some [] ∧
    (hourly.series.range (s.clock + 5400) 10800 14400).map CandleStick.t = [10800] ∧
    ¬(fetching hourly).Along (Transparent hourly) [hours 9000 3600 7200, hours 5400 10800 14400] := by
  intro s
  refine ⟨by decide +kernel, by decide +kernel, fun halong => ?_⟩
  have hcandles := (halong [hours 9000 3600 7200] (hours 5400 10800 14400) (List.prefix_refl _)).candles
  revert hcandles
  decide +kernel

end Opsense
