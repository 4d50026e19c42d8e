import Opsense.Station.Contents

/-!
# Shutting a station down and opening it again

`shutdown` flushes and checkpoints the backend, which keeps the points it has, and a new station on the same backend starts with
an empty cache. A block reaches the backend when it is put while it is cached; the first put of a block only caches it, and
`shutdown` appends nothing. So the new station returns what the old one would have exactly when every cached block was put
again, and what is on the backend as its newest snapshot has the same observations.
-/

namespace Opsense

namespace TimeseriesStation

/-- The station opened on the backend of one that was shut down. -/
def reopen (s : TimeseriesStation) : TimeseriesStation := open' s.stored

/-- What the loop of `query_recent` returns for the given blocks, when no append runs meanwhile. -/
def recentOf (h : Host) (from_ts to_ts : Int) : TimeseriesStation → List Int → List Observation
  | _, [] => []
  | s, b :: blocks =>
    let r := readBlock h s b
    (r.2.map (Block.window h.block_duration b from_ts to_ts)).getD [] ++ recentOf h from_ts to_ts r.1 blocks

/-- What `query_recent` returns. -/
def recent (h : Host) (s : TimeseriesStation) (from_ts to_ts : Int) : List Observation :=
  recentOf h from_ts to_ts s (recentBlocks h from_ts to_ts)

/-- The step is one of an update, evicts nothing, and puts no block that cannot be read back. -/
def Steady (h : Host) (s : TimeseriesStation) : StationAct → Prop
  | .updateRange _ _ _ _ => True
  | .advance => PutsReadable h s ∧ ∀ b ∈ s.caches.mapping.keys, cached h (advance h s).1 b ≠ none
  | .append _ => True
  | _ => False

/-- The backend has a snapshot of the block, and the newest one has its items. -/
def Settled (h : Host) (s : TimeseriesStation) (b : Int) (block : Block) : Prop :=
  appended s.stored (seriesOf b) ≠ [] ∧
  ∀ a ∈ appended s.stored (seriesOf b), (∀ a' ∈ appended s.stored (seriesOf b), a'.ts ≤ a.ts) →
    (h.from_slice a.value).map Block.items = some block.items

variable {h : Host} {s s' : TimeseriesStation}

/-! ## The loop of a query -/

/-- The window of what is seen of each block. -/
def seen (h : Host) (s : TimeseriesStation) (from_ts to_ts b : Int) : List Observation :=
  ((view h s b).map (Block.window h.block_duration b from_ts to_ts)).getD []

/-- A query of a station whose uncached blocks are not on the backend changes nothing. -/
theorem recentOf_cached (hs : Ordered h s) (hcold : ∀ b, cached h s b = none → loadColdBlock h s b = none)
    (from_ts to_ts : Int) (blocks : List Int) :
    recentOf h from_ts to_ts s blocks = blocks.flatMap (seen h s from_ts to_ts) := by
  induction blocks generalizing s with
  | nil => rfl
  | cons b blocks ih =>
    obtain ⟨hview, htiers⟩ := readBlock_cases hs b
    have hframe : Frame h s (readBlock h s b).1 := by
      rcases htiers with ⟨-, hf⟩ | ⟨block, hnone, hsome, -⟩
      · exact hf
      · rw [hcold b hnone] at hsome
        cases hsome
    have hload : ∀ b', loadColdBlock h (readBlock h s b).1 b' = loadColdBlock h s b' := fun b' => by
      rw [loadColdBlock, loadColdBlock, hframe.stored]
    have hseen : seen h (readBlock h s b).1 from_ts to_ts = seen h s from_ts to_ts := by
      funext b'
      rw [seen, seen, view, view, hframe.cached, hload]
    rw [recentOf, ih hframe.ordered fun b' hb' => by rw [hload]; exact hcold b' (hframe.cached b' ▸ hb'), hseen, hview]
    rfl

/-- A query of a station that caches nothing but what is on the backend sees the backend. -/
theorem recentOf_cold (hs : Ordered h s) (hcached : ∀ b block, cached h s b = some block → loadColdBlock h s b = some block)
    (from_ts to_ts : Int) (blocks : List Int) :
    recentOf h from_ts to_ts s blocks =
      blocks.flatMap fun b => ((loadColdBlock h s b).map (Block.window h.block_duration b from_ts to_ts)).getD [] := by
  induction blocks generalizing s with
  | nil => rfl
  | cons b blocks ih =>
    obtain ⟨hview, htiers⟩ := readBlock_cases hs b
    have hseen : view h s b = loadColdBlock h s b := by
      unfold view
      cases hc : cached h s b with
      | none => rfl
      | some block => rw [hcached b block hc]; rfl
    have hafter : Ordered h (readBlock h s b).1 ∧ (readBlock h s b).1.stored = s.stored ∧
        ∀ b' block, cached h (readBlock h s b).1 b' = some block → loadColdBlock h s b' = some block := by
      rcases htiers with ⟨-, hf⟩ | ⟨block, hnone, hsome, hp⟩
      · exact ⟨hf.ordered, hf.stored, fun b' block hb' => hcached b' block (hf.cached b' ▸ hb')⟩
      · refine ⟨hp.ordered, hp.stored, fun b' block' hb' => ?_⟩
        rcases hp.tiers with ⟨hb, -, -⟩ | ⟨-, -, hpeek⟩ | ⟨old, v, -, -, -, -, hpeek⟩
        · exact absurd hnone hb
        · rw [hpeek] at hb'
          split_ifs at hb' with h1
          · exact h1 ▸ hsome.trans hb'
          · exact hcached b' block' hb'
        · rw [hpeek] at hb'
          split_ifs at hb' with h1
          · exact h1 ▸ hsome.trans hb'
          · exact hcached b' block' hb'
    have hload : ∀ b', loadColdBlock h (readBlock h s b).1 b' = loadColdBlock h s b' := fun b' => by
      rw [loadColdBlock, loadColdBlock, hafter.2.1]
    rw [recentOf, ih hafter.1 fun b' block hb' => by rw [hload]; exact hafter.2.2 b' block hb', hview, hseen]
    simp only [hload]
    rfl

/-! ## Runs of updates -/

/-- The block has items, all of its own times, and can be read back. -/
structure Full (h : Host) (b : Int) (block : Block) : Prop where
  nonempty : block.items ≠ []
  covers : ∀ o ∈ block.items, Block.Covers h.block_duration b o.ts
  readsBack : ReadsBack h block

/-- The invariant of the runs of updates in which nothing is evicted. -/
structure Warm (h : Host) (s : TimeseriesStation) : Prop where
  ordered : Ordered h s
  full : ∀ b block, cached h s b = some block → Full h b block
  snapshots : ∀ a ∈ s.spawned, ∃ b block, IsSnapshot h b block a ∧ Full h b block ∧ cached h s b ≠ none
  stored : ∀ a ∈ s.stored, a ∈ s.spawned
  job : s.job = none ∨ ∃ records query_from query_to now blocks,
    s.job = some (.updateRange records query_from query_to now blocks)

theorem mem_keys_of_cached {b : Int} (hb : cached h s b ≠ none) : b ∈ s.caches.mapping.keys := by
  refine AList.mem_keys.mp ?_
  by_contra hb'
  apply hb
  rw [cached, LruCache.peek_eq, AList.lookup_eq_none.mpr hb']
  rfl

theorem Warm.frame (hw : Warm h s) (hf : Frame h s s') (hj : s'.job = none ∨ ∃ records query_from query_to now blocks,
    s'.job = some (.updateRange records query_from query_to now blocks)) : Warm h s' := by
  refine ⟨hf.ordered, fun b block hb => hw.full b block (hf.cached b ▸ hb), fun a ha => ?_, fun a ha => ?_, hj⟩
  · obtain ⟨b, block, hsnap, hfull, hc⟩ := hw.snapshots a (hf.spawned ▸ ha)
    exact ⟨b, block, hsnap, hfull, hf.cached b ▸ hc⟩
  · rw [hf.spawned]
    exact hw.stored a (hf.stored ▸ ha)

theorem Warm.puts (hw : Warm h s) {b : Int} {block : Block} (hp : Puts h s b block s') (hb : Full h b block)
    (hkeep : ∀ b', cached h s b' ≠ none → cached h s' b' ≠ none)
    (hj : s'.job = none ∨ ∃ records query_from query_to now blocks,
      s'.job = some (.updateRange records query_from query_to now blocks)) : Warm h s' := by
  have hfull : (∀ b', cached h s' b' = if b' = b then some block else cached h s b') →
      ∀ b' block', cached h s' b' = some block' → Full h b' block' := by
    intro hpeek b' block' hb'
    rw [hpeek] at hb'
    split_ifs at hb' with h1
    · exact Option.some.inj hb' ▸ h1 ▸ hb
    · exact hw.full b' block' hb'
  have hold : ∀ a ∈ s.spawned, ∃ b block, IsSnapshot h b block a ∧ Full h b block ∧ cached h s' b ≠ none := by
    intro a ha
    obtain ⟨b', block', hsnap, hfull', hc⟩ := hw.snapshots a ha
    exact ⟨b', block', hsnap, hfull', hkeep b' hc⟩
  rcases hp.tiers with ⟨-, ⟨a, hsnap, -, hspawn⟩, hpeek⟩ | ⟨-, hspawn, hpeek⟩ | ⟨old, v, hne, -, hc, -, hpeek⟩
  · refine ⟨hp.ordered, hfull hpeek, fun a' ha' => ?_, fun a' ha' => ?_, hj⟩
    · rw [hspawn] at ha'
      rcases List.mem_append.mp ha' with hin | hin
      · exact hold a' hin
      · obtain rfl := List.mem_singleton.mp hin
        exact ⟨b, block, hsnap, hb, by rw [hpeek, if_pos rfl]; exact nofun⟩
    · rw [hspawn]
      exact List.mem_append_left _ (hw.stored a' (hp.stored ▸ ha'))
  · refine ⟨hp.ordered, hfull hpeek, fun a' ha' => hold a' (hspawn ▸ ha'), fun a' ha' => ?_, hj⟩
    rw [hspawn]
    exact hw.stored a' (hp.stored ▸ ha')
  · refine absurd ?_ (hkeep old (by rw [hc]; exact nofun))
    rw [hpeek, if_neg hne, if_pos rfl]

theorem full_updated (hw : Warm h s) {records : List Observation} {query_from query_to now b : Int}
    (hput : cached h s b ≠ none ∨ (updated h s records query_from query_to now b).items ≠ [])
    (hread : ReadsBack h (updated h s records query_from query_to now b)) :
    Full h b (updated h s records query_from query_to now b) := by
  refine ⟨?_, fun o ho => ?_, hread⟩
  · rcases hput with hc | hne
    · obtain ⟨block, hblock⟩ := Option.ne_none_iff_exists'.mp hc
      obtain ⟨o, ho⟩ := List.exists_mem_of_ne_nil _ (hw.full b block hblock).nonempty
      have hin : o ∈ ((cached h s b).getD Block.empty).items := by rw [hblock]; exact ho
      obtain ⟨o', ho', -⟩ := Block.exists_mem_update h.block_duration b records query_from query_to now
        (Or.inl hin)
      exact List.ne_nil_of_mem ho'
    · exact hne
  · rcases Block.mem_of_mem_update ho with hin | ⟨-, hc⟩
    · cases hc : cached h s b with
      | none =>
        rw [hc] at hin
        cases hin
      | some block =>
        rw [hc] at hin
        exact (hw.full b block hc).covers o hin
    · exact hc

theorem Warm.step (hw : Warm h s) (a : StationAct) (ha : Steady h s a) : Warm h ((machine h).next s a) := by
  unfold Machine.next machine
  cases a with
  | updateRange records query_from query_to now =>
    dsimp only [TimeseriesStation.step, begin']
    cases s.job with
    | some j => exact hw
    | none => exact hw.frame ⟨hw.ordered, fun _ => rfl, rfl, rfl, rfl⟩ (Or.inr ⟨_, _, _, _, _, rfl⟩)
  | queryRecent from_ts to_ts => exact ha.elim
  | queryRange from_ts to_ts => exact ha.elim
  | clear => exact ha.elim
  | advance =>
    obtain ⟨hread, hkeep⟩ := ha
    have hkeep : ∀ b, cached h s b ≠ none → cached h (advance h s).1 b ≠ none :=
      fun b hb => hkeep b (mem_keys_of_cached hb)
    change Warm h (advance h s).1
    rcases hw.job with hj | ⟨records, query_from, query_to, now, blocks, hj⟩
    · have hadv : advance h s = (s, .busy) := by simp [advance, hj]
      rw [hadv]
      exact hw
    · cases blocks with
      | nil =>
        have hadv : advance h s = ({ s with job := none }, .done) := by simp [advance, hj]
        rw [hadv]
        exact hw.frame ⟨hw.ordered, fun _ => rfl, rfl, rfl, rfl⟩ (Or.inl rfl)
      | cons b blocks =>
        have hadv : advance h s = ({ updateBlock h s records query_from query_to now b with
            job := some (.updateRange records query_from query_to now blocks) }, .pending) := by simp [advance, hj]
        unfold PutsReadable at hread
        rw [hj] at hread
        rw [hadv] at hkeep ⊢
        rcases updateBlock_cases hw.ordered records query_from query_to now b with ⟨-, -, hf⟩ | ⟨hput, hp⟩
        · exact hw.frame ⟨hf.ordered, hf.cached, hf.spawned, hf.executed, hf.stored⟩ (Or.inr ⟨_, _, _, _, _, rfl⟩)
        · have hreads := hread.resolve_left fun hskip => hput.elim (fun hne => hne hskip.1) fun hne => hne hskip.2
          exact hw.puts ⟨hp.ordered, hp.executed, hp.stored, hp.tiers⟩ (full_updated hw hput hreads) hkeep
            (Or.inr ⟨_, _, _, _, _, rfl⟩)
  | append index =>
    change Warm h (runAppend s index).1
    unfold runAppend
    split
    · rename_i a ha
      split_ifs
      · exact hw
      · refine ⟨hw.ordered, hw.full, hw.snapshots, fun a' ha' => ?_, hw.job⟩
        rcases List.mem_append.mp ha' with hin | hin
        · exact hw.stored a' hin
        · rw [List.mem_singleton.mp hin]
          exact List.mem_of_getElem? ha
    · exact hw

/-! ## The new station -/

/-- The host with another backend. -/
def withLatest (h : Host) (latest : List Append → Bytes → Option (Nat × Bytes)) : Host := { h with latest := latest }

/-- A station that was shut down in the state `s` and opened again returns what it would have returned, on every backend. -/
def SameAfterReopen (h : Host) (s : TimeseriesStation) : Prop :=
  ∀ latest, LatestByTime latest → ∀ from_ts to_ts, windowFitsBlockCap h from_ts to_ts = true →
    recent (withLatest h latest) (reopen s) from_ts to_ts = recent (withLatest h latest) s from_ts to_ts

/-- What is on the backend was made of a block that is cached. -/
theorem Warm.onBackend (hw : Warm h s) {a : Append} {b : Int} (ha : a ∈ appended s.stored (seriesOf b)) :
    cached h s b ≠ none ∧ ∃ block, Full h b block ∧ h.from_slice a.value = some block := by
  obtain ⟨hin, hseries⟩ := List.mem_filter.mp ha
  obtain ⟨b', block, hsnap, hfull, hc⟩ := hw.snapshots a (hw.stored a hin)
  obtain rfl := seriesOf_injective (hsnap.1.symm.trans (of_decide_eq_true hseries))
  refine ⟨hc, block, hfull, ?_⟩
  rw [hsnap.2]
  exact hfull.readsBack

variable {latest : List Append → Bytes → Option (Nat × Bytes)}

theorem recent_old (hw : Warm h s) (hlatest : LatestByTime latest) {from_ts to_ts : Int}
    (hfits : windowFitsBlockCap h from_ts to_ts = true) : recent (withLatest h latest) s from_ts to_ts =
      (blocksOf h from_ts to_ts).flatMap (seen (withLatest h latest) s from_ts to_ts) := by
  have hblocks : recentBlocks (withLatest h latest) from_ts to_ts = blocksOf h from_ts to_ts := recentBlocks_of_fits hfits
  rw [recent, hblocks]
  refine recentOf_cached (h := withLatest h latest) hw.ordered (fun b hb => ?_) from_ts to_ts _
  cases hl : latest s.stored (seriesOf b) with
  | none =>
    unfold loadColdBlock withLatest
    dsimp only
    rw [hl]
    rfl
  | some p =>
    obtain ⟨a, ha, -⟩ := hlatest.newest hl
    exact absurd hb (hw.onBackend ha).1

theorem recent_new {from_ts to_ts : Int} (hfits : windowFitsBlockCap h from_ts to_ts = true) :
    recent (withLatest h latest) (reopen s) from_ts to_ts = (blocksOf h from_ts to_ts).flatMap fun b =>
      ((loadColdBlock (withLatest h latest) s b).map (Block.window h.block_duration b from_ts to_ts)).getD [] := by
  have hblocks : recentBlocks (withLatest h latest) from_ts to_ts = blocksOf h from_ts to_ts := recentBlocks_of_fits hfits
  have hopen : Ordered (withLatest h latest) (reopen s) := ⟨_, refines_open _ _⟩
  rw [recent, hblocks]
  refine recentOf_cold hopen (fun b block hb => ?_) from_ts to_ts _
  have hnone : cached (withLatest h latest) (reopen s) b = none := cached_open _ b
  rw [hnone] at hb
  cases hb

/-- Over the times of one block a query returns what the block has. -/
theorem flatMap_block {b : Int} {f : Int → List Observation} (hf : ∀ b', b' ≠ b → f b' = []) :
    (blocksOf h (Block.start h.block_duration b) (Block.finish h.block_duration b)).flatMap f = f b := by
  have hmem : b ∈ blocksOf h (Block.start h.block_duration b) (Block.finish h.block_duration b) := by
    refine Block.mem_ids.mpr ⟨(Block.idOf_start h.block_duration_pos b).le, ?_⟩
    have hmono := Block.idOf_mono h.block_duration_pos (Block.start_le_finish h.block_duration_pos b)
    rwa [Block.idOf_start h.block_duration_pos] at hmono
  have hnodup := Block.nodup_ids (Block.idOf h.block_duration (Block.start h.block_duration b))
    (Block.idOf h.block_duration (Block.finish h.block_duration b))
  unfold blocksOf at hmem ⊢
  obtain ⟨xs, ys, hsplit⟩ := List.append_of_mem hmem
  rw [hsplit] at hnodup ⊢
  have hother : ∀ b' ∈ xs ++ ys, b' ≠ b := by
    intro b' hb' heq
    subst heq
    rw [List.nodup_middle, List.nodup_cons] at hnodup
    exact hnodup.1 hb'
  have hnil : ∀ zs : List Int, (∀ b' ∈ zs, b' ≠ b) → zs.flatMap f = [] := fun zs hzs =>
    List.flatMap_eq_nil_iff.mpr fun b' hb' => hf b' (hzs b' hb')
  rw [List.flatMap_append, List.flatMap_cons, hnil xs fun b' hb' => hother b' (List.mem_append_left _ hb'),
    hnil ys fun b' hb' => hother b' (List.mem_append_right _ hb'), List.nil_append, List.append_nil]

theorem fits_block (h : Host) (b : Int) :
    windowFitsBlockCap h (Block.start h.block_duration b) (Block.finish h.block_duration b) = true := by
  have hle := Block.idOf_finish_le h.block_duration_pos b
  unfold windowFitsBlockCap MAX_BLOCKS_PER_QUERY
  rw [Block.idOf_start h.block_duration_pos]
  exact decide_eq_true (by omega)

/-- A station that returns the same after it was opened again has on the backend what it has cached. -/
theorem cold_of_same (hw : Warm h s) (hlatest : LatestByTime latest) (hsame : SameAfterReopen h s) {b : Int} {block : Block}
    (hb : cached h s b = some block) : ((loadColdBlock (withLatest h latest) s b).map
      (Block.window h.block_duration b (Block.start h.block_duration b) (Block.finish h.block_duration b))).getD [] =
      block.items := by
  have hpos := h.block_duration_pos
  have heq := hsame latest hlatest _ _ (fits_block h b)
  have hother : ∀ (v : Option Block) (b' : Int), b' ≠ b → (v.map
      (Block.window h.block_duration b' (Block.start h.block_duration b) (Block.finish h.block_duration b))).getD [] = [] := by
    intro v b' hne
    cases v with
    | none => rfl
    | some v => exact Block.window_other hpos hne v
  have hseen : ∀ b' ≠ b, seen (withLatest h latest) s (Block.start h.block_duration b) (Block.finish h.block_duration b) b' = [] :=
    fun b' => hother _ b'
  rw [recent_old hw hlatest (fits_block h b), recent_new (fits_block h b), flatMap_block fun b' => hother _ b',
    flatMap_block hseen] at heq
  rw [heq]
  have hview : view (withLatest h latest) s b = some block := by
    have hc : cached (withLatest h latest) s b = some block := hb
    rw [view, hc]
    rfl
  rw [seen, hview]
  exact Block.window_all (hw.full b block hb).covers

/-- The backend that answers with the given append where it may. -/
def preferring (a : Append) (log : List Append) (series : Bytes) : Option (Nat × Bytes) :=
  if a ∈ appended log series ∧ ∀ a' ∈ appended log series, a'.ts ≤ a.ts then some a.point
  else (Log.newest Append.ts (appended log series)).map Append.point

theorem latestByTime_preferring (a : Append) : LatestByTime (preferring a) where
  newest := by
    intro log series p hp
    unfold preferring at hp
    split_ifs at hp with hpref
    · exact ⟨a, hpref.1, Option.some.inj hp, hpref.2⟩
    · exact Lakehouse.latestByTime_newest.newest hp
  none := by
    intro log series hnone
    unfold preferring at hnone
    split_ifs at hnone
    exact Lakehouse.latestByTime_newest.none hnone

/-- Along every run of updates in which nothing is evicted, with any interleaving of the appends, a station opened on the
backend after a shutdown returns for every window within the block cap what the old one would have returned, whatever the
backend does with snapshots of one time, exactly when the backend has a snapshot of every cached block and the newest one has
the items of the block. -/
theorem same_after_reopen_iff (h : Host) (as : List StationAct) (hsteady : (machine h).Along (Steady h) as) :
    SameAfterReopen h ((machine h).state as) ↔
      ∀ b block, cached h ((machine h).state as) b = some block → Settled h ((machine h).state as) b block := by
  have hw : Warm h ((machine h).state as) := by
    refine Machine.invariant_of_along (C := Steady h) (I := Warm h) ?_ (fun s a hw ha => hw.step a ha) as hsteady
    refine ⟨(open_within h fun _ => False).ordered, fun b block hb => ?_, nofun, nofun, Or.inl rfl⟩
    rw [show cached h (machine h).init b = none from cached_open h b] at hb
    cases hb
  generalize (machine h).state as = s at hw
  constructor
  · intro hsame b block hb
    refine ⟨fun hnil => ?_, fun a ha hmax => ?_⟩
    · -- no snapshot: the new station returns nothing for the block
      have hcold := cold_of_same hw Lakehouse.latestByTime_newest hsame hb
      have hnone : loadColdBlock (withLatest h fun log series =>
          (Log.newest Append.ts (appended log series)).map Append.point) s b = none := by
        unfold loadColdBlock withLatest
        dsimp only
        rw [hnil]
        rfl
      rw [hnone] at hcold
      exact (hw.full b block hb).nonempty hcold.symm
    · -- the snapshot is what some backend answers with
      have hcold := cold_of_same hw (latestByTime_preferring a) hsame hb
      obtain ⟨-, block', hfull, hread⟩ := hw.onBackend ha
      have hsome : loadColdBlock (withLatest h (preferring a)) s b = some block' := by
        unfold loadColdBlock withLatest preferring
        dsimp only
        rw [if_pos ⟨ha, hmax⟩]
        exact hread
      rw [hsome] at hcold
      rw [hread, Option.map_some, ← hcold]
      exact congrArg some (Block.window_all hfull.covers).symm
  · intro hsettled latest hlatest from_ts to_ts hfits
    rw [recent_old hw hlatest hfits, recent_new hfits]
    refine List.flatMap_congr fun b _ => ?_
    cases hb : cached h s b with
    | none =>
      have hc : cached (withLatest h latest) s b = none := hb
      rw [seen, view, hc, Option.none_or]
      rfl
    | some block =>
      obtain ⟨hne, hitems⟩ := hsettled b block hb
      have hc : cached (withLatest h latest) s b = some block := hb
      rw [seen, view, hc, Option.some_or]
      cases hl : latest s.stored (seriesOf b) with
      | none => exact absurd (hlatest.none hl) hne
      | some p =>
        obtain ⟨a, ha, rfl, hmax⟩ := hlatest.newest hl
        obtain ⟨block', hread, heq⟩ := Option.map_eq_some_iff.mp (hitems a ha hmax)
        have hsome : loadColdBlock (withLatest h latest) s b = some block' := by
          unfold loadColdBlock withLatest
          dsimp only
          rw [hl]
          exact hread
        rw [hsome, Option.map_some, Option.map_some, Option.getD_some, Option.getD_some]
        unfold Block.window
        rw [heq]
        rfl

instance (h : Host) (s : TimeseriesStation) : ∀ a, Decidable (Steady h s a)
  | .updateRange _ _ _ _ => inferInstanceAs (Decidable True)
  | .advance => inferInstanceAs (Decidable (PutsReadable h s ∧ ∀ b ∈ s.caches.mapping.keys, cached h (advance h s).1 b ≠ none))
  | .append _ => inferInstanceAs (Decidable True)
  | .queryRecent _ _ => inferInstanceAs (Decidable False)
  | .queryRange _ _ => inferInstanceAs (Decidable False)
  | .clear => inferInstanceAs (Decidable False)

/-- Two updates of one block, and the append the second spawned. -/
theorem same_after_reopen_iff_twoUpdates :
    SameAfterReopen (hostOf [oneCpu]) ((machine (hostOf [oneCpu])).state (twoUpdates ++ [StationAct.append 0])) ↔
      ∀ b block, cached (hostOf [oneCpu]) ((machine (hostOf [oneCpu])).state (twoUpdates ++ [StationAct.append 0])) b = some block →
        Settled (hostOf [oneCpu]) ((machine (hostOf [oneCpu])).state (twoUpdates ++ [StationAct.append 0])) b block :=
  same_after_reopen_iff _ _ (Machine.along_iff_alongFrom.mpr (by decide +kernel))

/-- One update of a block, put for the first time. -/
def oneUpdate : List StationAct := [.updateRange [cpuAt 1] 0 9 0, .advance, .advance]

/-- A block that was put once is on no backend: the station has its observation, and the one opened after the shutdown does
not, though no append was left to run. -/
theorem first_put_lost_on_reopen :
    let s := (machine (hostOf [oneCpu])).state oneUpdate
    s.spawned = [] ∧ windowFitsBlockCap (hostOf [oneCpu]) 0 9 = true ∧
      recent (hostOf [oneCpu]) s 0 9 = [cpuAt 1] ∧ recent (hostOf [oneCpu]) (reopen s) 0 9 = [] := by
  decide +kernel

end TimeseriesStation

end Opsense
