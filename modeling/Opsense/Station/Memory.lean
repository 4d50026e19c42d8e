import Opsense.Lib.Distinct
import Opsense.Station.Station

/-!
# A station without a storage

`TimeseriesStation::new` gives a station that has a cache of some capacity and no storage: a block that the cache gives up is
lost, and a block that is not cached is not there. `blockOf` is what a station with room for everything would hold under a
block, from the updates alone. As long as the blocks that records reach are not more than the capacity, the cache holds just
that (`holds_run`).
-/

namespace Opsense

/-- The arguments of `update_range`. -/
structure Update where
  records : List Observation
  query_from : Int
  query_to : Int
  now : Int
deriving DecidableEq

/-- A call of a station. -/
inductive MemoryAct where
  | updateRange (u : Update)
  | queryRecent (from_ts to_ts : Int)
  | queryRange (from_ts to_ts : Int)
deriving DecidableEq

/-- A station without a storage is its cache. -/
abbrev MemoryStation := LruCache Int Block STATION_SHARDS

namespace MemoryStation

open TimeseriesStation

/-- One pass of the loop of `update_range`. An empty block that was not in the cache is not put there. -/
def updateBlock (h : Host) (u : Update) (s : MemoryStation) (block_id : Int) : MemoryStation :=
  let (s, found) := s.get h.hash block_id
  let existed := found.isSome
  let (s, found) := s.get h.hash block_id
  let block := (found.getD Block.empty).update h.block_duration block_id u.records u.query_from u.query_to u.now
  if ¬existed ∧ block.items = [] then s else (LruCache.Shared.put h.hash s block_id block).1

def updateRange (h : Host) (s : MemoryStation) (u : Update) : MemoryStation :=
  (blocksOf h u.query_from u.query_to).foldl (updateBlock h u) s

/-- The loop of `query_recent`. -/
def readRecent (h : Host) (from_ts to_ts : Int) : MemoryStation → List Int → List Observation → MemoryStation × List Observation
  | s, [], result => (s, result)
  | s, b :: blocks, result =>
    let (s, block) := s.get h.hash b
    let items := (block.map (Block.window h.block_duration b from_ts to_ts)).getD []
    readRecent h from_ts to_ts s blocks (result ++ items)

def queryRecent (h : Host) (s : MemoryStation) (from_ts to_ts : Int) : MemoryStation × List Observation :=
  readRecent h from_ts to_ts s (recentBlocks h from_ts to_ts) []

/-- The loop of `query_range`. -/
def readRange (h : Host) (from_ts to_ts : Int) :
    MemoryStation → List Int → List Observation → MemoryStation × Option (List Observation)
  | s, [], result => (s, some result)
  | s, b :: blocks, result =>
    match s.get h.hash b with
    | (s, none) => (s, none)
    | (s, some block) =>
      if covered h.block_duration b from_ts to_ts block then
        readRange h from_ts to_ts s blocks (result ++ block.window h.block_duration b from_ts to_ts)
      else (s, none)

def queryRange (h : Host) (s : MemoryStation) (from_ts to_ts : Int) : MemoryStation × Option (List Observation) :=
  readRange h from_ts to_ts s (blocksOf h from_ts to_ts) []

/-- One call. -/
def step (h : Host) (s : MemoryStation) : MemoryAct → MemoryStation × Reply
  | .updateRange u => (updateRange h s u, .done)
  | .queryRecent from_ts to_ts =>
    let r := queryRecent h s from_ts to_ts
    (r.1, .recent from_ts to_ts r.2)
  | .queryRange from_ts to_ts =>
    let r := queryRange h s from_ts to_ts
    (r.1, .range from_ts to_ts r.2)

/-- A station over its runs. Of its host it uses the width of a block and the hash. -/
def machine (h : Host) (capacity : Nat) : Machine MemoryStation MemoryAct Reply := ⟨LruCache.Shared.new capacity, step h⟩

/-- The updates of a run. -/
def updates (as : List MemoryAct) : List Update := as.filterMap fun
  | .updateRange u => some u
  | _ => none

/-! ## What the updates make of a block -/

/-- The update visits the block. -/
def Visits (d b : Int) (u : Update) : Prop := b ∈ Block.ids (Block.idOf d u.query_from) (Block.idOf d u.query_to)

instance (d b : Int) (u : Update) : Decidable (Visits d b u) := by unfold Visits; infer_instance

/-- The records of an update that are of the block. -/
def recordsOf (d b : Int) (u : Update) : List Observation := u.records.filter fun o => Block.Covers d b o.ts

/-- What a visit makes of a block, which may not be there. -/
def visit (d b : Int) (u : Update) (block : Option Block) : Option Block :=
  let block' := (block.getD Block.empty).update d b u.records u.query_from u.query_to u.now
  if block = none ∧ block'.items = [] then none else some block'

/-- What an update makes of a block. -/
def feed (d b : Int) (block : Option Block) (u : Update) : Option Block := if Visits d b u then visit d b u block else block

/-- What the updates make of a block when no block is ever lost. -/
def blockOf (d : Int) (us : List Update) (b : Int) : Option Block := us.foldl (feed d b) none

/-- The records that reach a block. -/
def fed (d : Int) (us : List Update) (b : Int) : List Observation :=
  us.flatMap fun u => if Visits d b u then recordsOf d b u else []

/-- The blocks that records reach. -/
def touched (d : Int) (us : List Update) : List Int :=
  (us.flatMap fun u => (Block.ids (Block.idOf d u.query_from) (Block.idOf d u.query_to)).filter fun b =>
    recordsOf d b u ≠ []).dedup

variable {d b : Int}

@[simp] theorem blockOf_nil (d b : Int) : blockOf d [] b = none := rfl

@[simp] theorem blockOf_snoc (d : Int) (us : List Update) (u : Update) (b : Int) :
    blockOf d (us ++ [u]) b = feed d b (blockOf d us b) u := by
  simp [blockOf]

@[simp] theorem fed_snoc (d : Int) (us : List Update) (u : Update) (b : Int) :
    fed d (us ++ [u]) b = fed d us b ++ if Visits d b u then recordsOf d b u else [] := by
  simp [fed]

variable {us : List Update}

theorem covers_of_mem_fed {o : Observation} (h : o ∈ fed d us b) : Block.Covers d b o.ts := by
  obtain ⟨u, -, ho⟩ := List.mem_flatMap.mp h
  split_ifs at ho
  · exact of_decide_eq_true (List.mem_filter.mp ho).2
  · exact absurd ho List.not_mem_nil

theorem mem_touched : b ∈ touched d us ↔ fed d us b ≠ [] := by
  unfold touched fed
  rw [List.mem_dedup, List.mem_flatMap, Ne, List.flatMap_eq_nil_iff]
  push Not
  refine exists_congr fun u => and_congr_right fun _ => ?_
  rw [List.mem_filter, decide_eq_true_eq]
  unfold Visits
  split_ifs with hvisits <;> simp [hvisits]

instance : DecidableEq ObsIdentity :=
  have : DecidableEq (TelemetryKind × Signal × UInt64 × Option LogLevel × String) := inferInstance
  instDecidableEqProd

theorem identity_ts (o o' : Observation) (h : obsIdentity o = obsIdentity o') : o.ts = o'.ts := (Prod.mk.inj h).1

/-- The dedup of a block keeps the first observation of every identity. -/
theorem retainFirst_eq (seen : List ObsIdentity) (os : List Observation) :
    Block.retainFirst seen os = Log.keepFirst obsIdentity seen os := by
  induction os generalizing seen with
  | nil => rfl
  | cons o os ih =>
    unfold Block.retainFirst
    by_cases hseen : obsIdentity o ∈ seen
    · rw [if_pos hseen, Log.keepFirst_old hseen, ih]
    · rw [if_neg hseen, Log.keepFirst_new hseen, ih]

theorem items_update (u : Update) (block : Block) :
    (block.update d b u.records u.query_from u.query_to u.now).items =
      Log.distinct obsIdentity Observation.ts (block.items ++ recordsOf d b u) :=
  retainFirst_eq _ _

/-- A block holds the distinct records that reached it, and is not there before one did. -/
theorem items_blockOf (d : Int) (us : List Update) (b : Int) : (blockOf d us b).map Block.items =
    if fed d us b = [] then none else some (Log.distinct obsIdentity Observation.ts (fed d us b)) := by
  induction us using List.reverseRecOn with
  | nil => rfl
  | append_singleton us u ih =>
    rw [blockOf_snoc, fed_snoc]
    unfold feed
    by_cases hvisits : Visits d b u
    · rw [if_pos hvisits, if_pos hvisits]
      unfold visit
      dsimp only
      cases hblock : blockOf d us b with
      | none =>
        rw [hblock] at ih
        have hfed : fed d us b = [] := by
          by_contra hne
          rw [if_neg hne] at ih
          cases ih
        rw [hfed, List.nil_append, Option.getD_none, items_update]
        have hempty : Block.empty.items ++ recordsOf d b u = recordsOf d b u := rfl
        rw [hempty]
        simp only [Log.distinct_eq_nil, true_and]
        split_ifs with hnil
        · rfl
        · rw [Option.map_some, items_update, hempty]
      | some block =>
        rw [hblock] at ih
        have hne : fed d us b ≠ [] := by
          intro hnil
          rw [if_pos hnil] at ih
          cases ih
        rw [if_neg hne] at ih
        rw [if_neg (by simp), if_neg (by simp [hne]), Option.map_some, Option.getD_some, items_update, Option.some.inj ih,
          Log.distinct_distinct_append identity_ts]
    · rw [if_neg hvisits, if_neg hvisits, List.append_nil, ih]

theorem blockOf_eq_none : blockOf d us b = none ↔ fed d us b = [] := by
  have hitems := items_blockOf d us b
  split_ifs at hitems with hnil
  · simpa [hnil] using hitems
  · refine iff_of_false (fun hnone => ?_) hnil
    rw [hnone] at hitems
    cases hitems

theorem items_of_blockOf {block : Block} (h : blockOf d us b = some block) :
    block.items = Log.distinct obsIdentity Observation.ts (fed d us b) := by
  have hne : fed d us b ≠ [] := fun hnil => by rw [blockOf_eq_none.mpr hnil] at h; nomatch h
  have hitems := items_blockOf d us b
  rw [h, if_neg hne] at hitems
  exact Option.some.inj hitems

/-! ## What the cache holds -/

/-- The cache holds the given blocks. -/
structure Holds (h : Host) (capacity : Nat) (blocks : Int → Option Block) (s : MemoryStation) : Prop where
  refines : ∃ r : Recency Int Block h.hash, LruCache.Shared.Refines h.hash capacity s r
  cached : ∀ b, LruCache.peek h.hash s b = blocks b

variable {h : Host} {capacity : Nat} {blocks : Int → Option Block} {s : MemoryStation}

theorem Holds.get (hs : Holds h capacity blocks s) (b : Int) :
    Holds h capacity blocks (s.get h.hash b).1 ∧ (s.get h.hash b).2 = blocks b := by
  obtain ⟨r, hr⟩ := hs.refines
  exact ⟨⟨⟨_, (hr.get b).2⟩, fun b' => (peek_get hr b b').trans (hs.cached b')⟩, hs.cached b⟩

/-- A put does not take a block out, when the blocks that are there and the one that is put have room. -/
theorem Holds.put (hs : Holds h capacity blocks s) {room : List Int} (hlen : room.length ≤ capacity)
    (hblocks : ∀ b', blocks b' ≠ none → b' ∈ room) {b : Int} (hb : b ∈ room) (block : Block) :
    Holds h capacity (Function.update blocks b (some block)) (LruCache.Shared.put h.hash s b block).1 := by
  obtain ⟨r, hr⟩ := hs.refines
  have hcap : 0 < capacity := lt_of_lt_of_le (List.length_pos_of_mem hb) hlen
  have hwritten : (∀ k, LruCache.peek h.hash (LruCache.Shared.put h.hash s b block).1 k =
      if k = b then some block else LruCache.peek h.hash s k) →
      Holds h capacity (Function.update blocks b (some block)) (LruCache.Shared.put h.hash s b block).1 := by
    intro hpeek
    refine ⟨⟨_, (hr.put b block).2⟩, fun b' => ?_⟩
    rw [hpeek, hs.cached, Function.update_apply]
  rcases put_cases hcap hr b block with ⟨-, -, hpeek⟩ | ⟨-, -, hpeek⟩ | ⟨old, v, hne, hnone, hold, -, hpeek⟩
  · exact hwritten hpeek
  · exact hwritten hpeek
  · -- the block is new and the cache is not full
    exfalso
    have hfull : capacity ≤ r.size := by
      have hlost : (r.put capacity b block).1.find old = none := by
        rw [← (hr.put b block).2.peek, hpeek, if_neg hne, if_pos rfl]
      exact (Recency.victim_of_lost ((hr.peek old).symm.trans hold) hlost).2.1
    have hsize : r.size ≤ (room.erase b).length := by
      refine Recency.size_le fun k hk => ?_
      rw [← hr.peek] at hk
      have hkb : k ≠ b := fun heq => hk (heq ▸ hnone)
      rw [hs.cached] at hk
      exact (List.mem_erase_of_ne hkb).mpr (hblocks k hk)
    rw [List.length_erase_of_mem hb] at hsize
    have := List.length_pos_of_mem hb
    omega

/-- A visit of an update makes of the block what it makes of it alone. -/
theorem Holds.updateBlock (hs : Holds h capacity blocks s) {room : List Int} (hlen : room.length ≤ capacity)
    (hblocks : ∀ b', blocks b' ≠ none → b' ∈ room) (u : Update) {b : Int} (hb : visit h.block_duration b u (blocks b) ≠ none → b ∈ room) :
    Holds h capacity (Function.update blocks b (visit h.block_duration b u (blocks b))) (updateBlock h u s b) := by
  obtain ⟨hs₁, hfound₁⟩ := hs.get b
  obtain ⟨hs₂, hfound₂⟩ := hs₁.get b
  unfold MemoryStation.updateBlock
  dsimp only
  rw [hfound₁, hfound₂]
  unfold visit at hb ⊢
  dsimp only at hb ⊢
  by_cases hskip : blocks b = none ∧
      (((blocks b).getD Block.empty).update h.block_duration b u.records u.query_from u.query_to u.now).items = []
  · rw [if_pos hskip, if_pos ⟨by simp [hskip.1], hskip.2⟩]
    rw [← hskip.1, Function.update_eq_self]
    exact hs₂
  · have hskip' : ¬(¬(blocks b).isSome = true ∧
        (((blocks b).getD Block.empty).update h.block_duration b u.records u.query_from u.query_to u.now).items = []) := by
      rw [Option.not_isSome_iff_eq_none]
      exact hskip
    rw [if_neg hskip] at hb ⊢
    rw [if_neg hskip']
    exact hs₂.put hlen hblocks (hb (Option.some_ne_none _)) _

/-- An update makes of every block what it makes of it alone. -/
theorem Holds.updateRange (hs : Holds h capacity blocks s) {room : List Int} (hlen : room.length ≤ capacity)
    (u : Update) (hblocks : ∀ b, blocks b ≠ none → b ∈ room)
    (hfeed : ∀ b, feed h.block_duration b (blocks b) u ≠ none → b ∈ room) :
    Holds h capacity (fun b => feed h.block_duration b (blocks b) u) (updateRange h s u) := by
  have hloop : ∀ (bs : List Int) (blocks : Int → Option Block) (s : MemoryStation), bs.Nodup → Holds h capacity blocks s →
      (∀ b, blocks b ≠ none → b ∈ room) → (∀ b ∈ bs, visit h.block_duration b u (blocks b) ≠ none → b ∈ room) →
      Holds h capacity (fun b => if b ∈ bs then visit h.block_duration b u (blocks b) else blocks b)
        (bs.foldl (MemoryStation.updateBlock h u) s) := by
    intro bs
    induction bs with
    | nil => intro blocks s _ hs _ _; simpa using hs
    | cons b bs ih =>
      intro blocks s hbs hs hblocks hvisit
      obtain ⟨hnot, hbs⟩ := List.nodup_cons.mp hbs
      have hother : ∀ b' ∈ bs, Function.update blocks b (visit h.block_duration b u (blocks b)) b' = blocks b' :=
        fun b' hb' => Function.update_of_ne (ne_of_mem_of_not_mem hb' hnot) _ _
      have hnext := ih (Function.update blocks b (visit h.block_duration b u (blocks b))) _ hbs
        (hs.updateBlock hlen hblocks u (hvisit b (by simp))) (fun b' hb' => ?_) (fun b' hb' hne => ?_)
      · refine ⟨hnext.refines, fun b' => ?_⟩
        rw [List.foldl_cons, hnext.cached]
        by_cases hmem : b' ∈ bs
        · rw [if_pos hmem, if_pos (List.mem_cons_of_mem _ hmem), hother b' hmem]
        · rw [if_neg hmem]
          by_cases heq : b' = b
          · subst heq
            rw [if_pos List.mem_cons_self, Function.update_self]
          · rw [if_neg (List.not_mem_cons_of_ne_of_not_mem heq hmem), Function.update_of_ne heq]
      · by_cases heq : b' = b
        · subst heq
          rw [Function.update_self] at hb'
          exact hvisit b' (by simp) hb'
        · rw [Function.update_of_ne heq] at hb'
          exact hblocks b' hb'
      · rw [hother b' hb'] at hne
        exact hvisit b' (List.mem_cons_of_mem _ hb') hne
  refine hloop _ blocks s (Block.nodup_ids _ _) hs hblocks fun b hb hne => hfeed b ?_
  have hvisits : Visits h.block_duration b u := hb
  unfold feed
  rwa [if_pos hvisits]

/-- A query answers from the blocks and leaves them. -/
theorem Holds.readRecent (hs : Holds h capacity blocks s) (from_ts to_ts : Int) (bs : List Int) (result : List Observation) :
    Holds h capacity blocks (readRecent h from_ts to_ts s bs result).1 ∧ (readRecent h from_ts to_ts s bs result).2 =
      result ++ bs.flatMap fun b => ((blocks b).map (Block.window h.block_duration b from_ts to_ts)).getD [] := by
  induction bs generalizing s result with
  | nil => exact ⟨hs, by simp [MemoryStation.readRecent]⟩
  | cons b bs ih =>
    obtain ⟨hs', hfound⟩ := hs.get b
    obtain ⟨hnext, hresult⟩ := ih hs' (result ++ ((blocks b).map (Block.window h.block_duration b from_ts to_ts)).getD [])
    unfold MemoryStation.readRecent
    dsimp only
    rw [hfound]
    refine ⟨hnext, ?_⟩
    rw [hresult, List.flatMap_cons, List.append_assoc]

/-- A strict query answers when every block is there and covers what is asked of it. -/
theorem Holds.readRange (hs : Holds h capacity blocks s) (from_ts to_ts : Int) (bs : List Int) (result : List Observation) :
    Holds h capacity blocks (readRange h from_ts to_ts s bs result).1 ∧
    ∀ r, (readRange h from_ts to_ts s bs result).2 = some r ↔
      (∀ b ∈ bs, ∃ block, blocks b = some block ∧ covered h.block_duration b from_ts to_ts block = true) ∧
      r = result ++ bs.flatMap fun b => ((blocks b).map (Block.window h.block_duration b from_ts to_ts)).getD [] := by
  induction bs generalizing s result with
  | nil =>
    refine ⟨hs, fun r => ?_⟩
    rw [List.flatMap_nil, List.append_nil]
    constructor
    · intro heq
      exact ⟨fun b hb => absurd hb List.not_mem_nil, (Option.some.inj heq).symm⟩
    · rintro ⟨-, rfl⟩
      rfl
  | cons b bs ih =>
    obtain ⟨hs', hfound⟩ := hs.get b
    unfold MemoryStation.readRange
    rcases hget : s.get h.hash b with ⟨s', found⟩
    rw [hget] at hs' hfound
    subst hfound
    cases hblock : blocks b with
    | none =>
      refine ⟨hs', fun r => iff_of_false nofun ?_⟩
      rintro ⟨hall, -⟩
      obtain ⟨block, heq, -⟩ := hall b (by simp)
      rw [hblock] at heq
      nomatch heq
    | some block =>
      dsimp only
      split_ifs with hcovered
      · obtain ⟨hnext, hresult⟩ := ih hs' (result ++ block.window h.block_duration b from_ts to_ts)
        refine ⟨hnext, fun r => ?_⟩
        rw [hresult, List.forall_mem_cons, List.flatMap_cons, hblock, List.append_assoc]
        simp [hcovered]
      · refine ⟨hs', fun r => iff_of_false nofun ?_⟩
        rintro ⟨hall, -⟩
        obtain ⟨block', heq, hcov⟩ := hall b (by simp)
        obtain rfl := Option.some.inj (hblock.symm.trans heq)
        exact hcovered hcov

/-! ## Runs -/

theorem holds_new (h : Host) (capacity : Nat) : Holds h capacity (fun _ => none) (LruCache.Shared.new capacity) := by
  have hr := (LruCache.Shared.simulates (V := Block) h.hash capacity).init
  exact ⟨⟨_, hr⟩, fun b => (hr.peek b).trans (Recency.find_empty b)⟩

theorem touched_mono {us us' : List Update} (h : us <+: us') : touched d us ⊆ touched d us' := by
  intro b hb
  obtain ⟨rest, rfl⟩ := h
  rw [mem_touched] at hb ⊢
  unfold fed at hb ⊢
  rw [List.flatMap_append]
  exact fun hnil => hb (List.append_eq_nil_iff.mp hnil).1

theorem nodup_touched (d : Int) (us : List Update) : (touched d us).Nodup := List.nodup_dedup _

/-- The blocks that records reach have room in the cache. -/
def Fits (h : Host) (capacity : Nat) (us : List Update) : Prop := (touched h.block_duration us).length ≤ capacity

instance (h : Host) (capacity : Nat) (us : List Update) : Decidable (Fits h capacity us) :=
  inferInstanceAs (Decidable (_ ≤ _))

theorem Fits.mono {us us' : List Update} (hfits : Fits h capacity us') (hsub : touched h.block_duration us ⊆ touched h.block_duration us') :
    Fits h capacity us :=
  ((nodup_touched _ us).subperm hsub).length_le.trans hfits

theorem mem_touched_of_blockOf (hb : blockOf d us b ≠ none) : b ∈ touched d us :=
  mem_touched.mpr fun hnil => hb (blockOf_eq_none.mpr hnil)

theorem Holds.snoc (hs : Holds h capacity (blockOf h.block_duration us) s) (u : Update) (hfits : Fits h capacity (us ++ [u])) :
    Holds h capacity (blockOf h.block_duration (us ++ [u])) (MemoryStation.updateRange h s u) := by
  have hnext := hs.updateRange hfits u
    (fun b hb => touched_mono (List.prefix_append us [u]) (mem_touched_of_blockOf hb))
    (fun b hb => mem_touched_of_blockOf (by rwa [blockOf_snoc]))
  exact ⟨hnext.refines, fun b => (hnext.cached b).trans (blockOf_snoc _ us u b).symm⟩

/-- After every run whose blocks have room the cache holds what the updates make of every block. -/
theorem holds_run (h : Host) (capacity : Nat) (as : List MemoryAct) (hfits : Fits h capacity (updates as)) :
    Holds h capacity (blockOf h.block_duration (updates as)) ((machine h capacity).state as) := by
  induction as using List.reverseRecOn with
  | nil => exact holds_new h capacity
  | append_singleton as a ih =>
    rw [Machine.state_snoc]
    have hupdates : updates (as ++ [a]) = updates as ++ updates [a] := List.filterMap_append
    rw [hupdates] at hfits ⊢
    have hs := ih (hfits.mono (touched_mono (List.prefix_append _ _)))
    cases a with
    | updateRange u => exact hs.snoc u hfits
    | queryRecent from_ts to_ts =>
      have hnone : updates [MemoryAct.queryRecent from_ts to_ts] = [] := rfl
      rw [hnone, List.append_nil]
      exact (hs.readRecent from_ts to_ts _ []).1
    | queryRange from_ts to_ts =>
      have hnone : updates [MemoryAct.queryRange from_ts to_ts] = [] := rfl
      rw [hnone, List.append_nil]
      exact (hs.readRange from_ts to_ts _ []).1

end MemoryStation

end Opsense
