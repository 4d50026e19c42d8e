import Opsense.Lru.Shared
import Opsense.Station.Block
import Opsense.Storage.Snapshots

/-!
# The timeseries station

`TimeseriesStation` of `opsense-core/src/station.rs` with a backend, as `from_storage` builds it: a cache of `HOT_BLOCKS`
blocks whose `persist_point` appends the block's JSON to the series of the block. Calls follow one another, and each takes a
step for every block it visits, so that an append that was spawned before may run between two steps; `clear` takes one step
for the cache and one for the backend. What is outside of the repository is in `Host`. The state keeps the appends spawned so
far and which of them ran. The tasks that flush and trim the backend on a schedule are left out.
-/

namespace Opsense

def HOT_BLOCKS : Nat := 32

def STATION_SHARDS : Nat := 32

def MAX_BLOCKS_PER_QUERY : Int := 20000

/-- What a station runs on: its configured block width, the hash of the cache, `serde_json`, the clock and the backend. -/
structure Host where
  block_duration : Int
  block_duration_pos : 0 < block_duration
  hash : Int → Fin STATION_SHARDS
  to_vec : Block → Bytes
  from_slice : Bytes → Option Block
  clock : Nat → Nat
  /-- The latest point of a series after the given appends. -/
  latest : List Append → Bytes → Option (Nat × Bytes)

/-- The call a station is in, with the blocks it has yet to visit. -/
inductive Job where
  | updateRange (records : List Observation) (query_from query_to now : Int) (blocks : List Int)
  | queryRecent (from_ts to_ts : Int) (blocks : List Int) (result : List Observation)
  | queryRange (from_ts to_ts : Int) (blocks : List Int) (result : List Observation)
  | clear
deriving DecidableEq

/-- A step of a station: a call begins, the call it is in goes on, or an append that was spawned runs. -/
inductive StationAct where
  | updateRange (records : List Observation) (query_from query_to now : Int)
  | queryRecent (from_ts to_ts : Int)
  | queryRange (from_ts to_ts : Int)
  | clear
  | advance
  | append (index : Nat)

/-- What a step gives: nothing, that it did not begin because the station is in another call, or what the call returns. -/
inductive Reply where
  | pending
  | busy
  | done
  | recent (from_ts to_ts : Int) (result : List Observation)
  | range (from_ts to_ts : Int) (result : Option (List Observation))
deriving DecidableEq

structure TimeseriesStation where
  caches : LruCache Int Block STATION_SHARDS
  spawned : List Append
  /-- The indices of the appends that ran. -/
  executed : List Nat
  /-- The appends that ran since the backend was cleared. -/
  stored : List Append
  job : Option Job

namespace TimeseriesStation

/-- A station on a backend that already completed some appends. -/
def open' (stored : List Append) : TimeseriesStation where
  caches := LruCache.Shared.new HOT_BLOCKS
  spawned := []
  executed := []
  stored := stored
  job := none

/-- The series of a block. -/
def seriesOf (block_id : Int) : Bytes := intoBytes ("blk:" ++ toString block_id)

/-- What `from_storage` gives the cache. -/
def attached (h : Host) : Attached Int Block where
  series_of := seriesOf
  encode := h.to_vec
  timestamp_of := none
  clock := h.clock

/-- Spawn the appends of the hooks that the cache called. -/
def spawn (h : Host) (s : TimeseriesStation) (hooks : List (Hook Int Block)) : TimeseriesStation :=
  { s with
    spawned := s.spawned ++ ((Attached.persisted hooks).zipIdx s.spawned.length).map fun p =>
      (attached h).persistPoint p.2 p.1.1 p.1.2 }

/-- `caches.get` -/
def cacheGet (h : Host) (s : TimeseriesStation) (block_id : Int) : TimeseriesStation × Option Block :=
  let r := s.caches.get h.hash block_id
  ({ s with caches := r.1 }, r.2)

/-- `caches.put` -/
def cachePut (h : Host) (s : TimeseriesStation) (block_id : Int) (block : Block) : TimeseriesStation :=
  let r := LruCache.Shared.put h.hash s.caches block_id block
  spawn h { s with caches := r.1 } r.2

def loadColdBlock (h : Host) (s : TimeseriesStation) (block_id : Int) : Option Block :=
  (h.latest s.stored (seriesOf block_id)).bind fun p => h.from_slice p.2

/-- One pass of the loop of `update_range`. An empty block that was not in the cache is not put there. -/
def updateBlock (h : Host) (s : TimeseriesStation) (records : List Observation) (query_from query_to now : Int)
    (block_id : Int) : TimeseriesStation :=
  let (s, found) := cacheGet h s block_id
  let existed := found.isSome
  let (s, found) := cacheGet h s block_id
  let block := (found.getD Block.empty).update h.block_duration block_id records query_from query_to now
  if ¬existed ∧ block.items = [] then s else cachePut h s block_id block

/-- The block a query reads: that of the cache, or else that of the backend, which is put into the cache. -/
def readBlock (h : Host) (s : TimeseriesStation) (block_id : Int) : TimeseriesStation × Option Block :=
  match cacheGet h s block_id with
  | (s, some block) => (s, some block)
  | (s, none) =>
    match loadColdBlock h s block_id with
    | some block => (cachePut h s block_id block, some block)
    | none => (s, none)

/-- The block covers what a strict query asks of it. -/
def covered (d block_id from_ts to_ts : Int) (block : Block) : Bool :=
  max from_ts (Block.start d block_id) ≥ block.range.1 && min to_ts (Block.finish d block_id) ≤ block.range.2

def windowFitsBlockCap (h : Host) (from_ts to_ts : Int) : Bool :=
  Block.idOf h.block_duration to_ts - Block.idOf h.block_duration from_ts < MAX_BLOCKS_PER_QUERY

/-- The blocks of a window. -/
def blocksOf (h : Host) (from_ts to_ts : Int) : List Int :=
  Block.ids (Block.idOf h.block_duration from_ts) (Block.idOf h.block_duration to_ts)

/-- The blocks `query_recent` visits: the most recent ones, when there are too many. -/
def recentBlocks (h : Host) (from_ts to_ts : Int) : List Int :=
  let end_block := Block.idOf h.block_duration to_ts
  let start_block := Block.idOf h.block_duration from_ts
  let start_block := if end_block - start_block + 1 > MAX_BLOCKS_PER_QUERY then end_block - MAX_BLOCKS_PER_QUERY + 1 else start_block
  Block.ids start_block end_block

/-- The call the station is in goes on by one block, or returns. -/
def advance (h : Host) (s : TimeseriesStation) : TimeseriesStation × Reply :=
  match s.job with
  | none => (s, .busy)
  | some (.updateRange _ _ _ _ []) => ({ s with job := none }, .done)
  | some (.updateRange records query_from query_to now (b :: blocks)) =>
    ({ updateBlock h s records query_from query_to now b with job := some (.updateRange records query_from query_to now blocks) },
      .pending)
  | some (.queryRecent from_ts to_ts [] result) => ({ s with job := none }, .recent from_ts to_ts result)
  | some (.queryRecent from_ts to_ts (b :: blocks) result) =>
    let (s, block) := readBlock h s b
    let items := (block.map (Block.window h.block_duration b from_ts to_ts)).getD []
    ({ s with job := some (.queryRecent from_ts to_ts blocks (result ++ items)) }, .pending)
  | some (.queryRange from_ts to_ts [] result) => ({ s with job := none }, .range from_ts to_ts (some result))
  | some (.queryRange from_ts to_ts (b :: blocks) result) =>
    match readBlock h s b with
    | (s, none) => ({ s with job := none }, .range from_ts to_ts none)
    | (s, some block) =>
      if covered h.block_duration b from_ts to_ts block then
        ({ s with job := some (.queryRange from_ts to_ts blocks (result ++ block.window h.block_duration b from_ts to_ts)) },
          .pending)
      else ({ s with job := none }, .range from_ts to_ts none)
  | some .clear => ({ s with stored := [], job := none }, .done)

/-- Begin a call, unless the station is in another one. -/
def begin' (s : TimeseriesStation) (job : Job) : TimeseriesStation × Reply :=
  match s.job with
  | none => ({ s with job := some job }, .pending)
  | some _ => (s, .busy)

/-- The append with the given index runs, unless it ran before. -/
def runAppend (s : TimeseriesStation) (index : Nat) : TimeseriesStation × Reply :=
  match s.spawned[index]? with
  | some a =>
    if index ∈ s.executed then (s, .busy)
    else ({ s with executed := s.executed ++ [index], stored := s.stored ++ [a] }, .pending)
  | none => (s, .busy)

/-- One step of the station. -/
def step (h : Host) (s : TimeseriesStation) : StationAct → TimeseriesStation × Reply
  | .updateRange records query_from query_to now =>
    begin' s (.updateRange records query_from query_to now (blocksOf h query_from query_to))
  | .queryRecent from_ts to_ts => begin' s (.queryRecent from_ts to_ts (recentBlocks h from_ts to_ts) [])
  | .queryRange from_ts to_ts => begin' s (.queryRange from_ts to_ts (blocksOf h from_ts to_ts) [])
  | .clear =>
    match s.job with
    | none => ({ s with caches := (LruCache.Shared.clear s.caches).1, job := some .clear }, .pending)
    | some _ => (s, .busy)
  | .advance => advance h s
  | .append index => runAppend s index

/-- The station over its runs. -/
def machine (h : Host) : Machine TimeseriesStation StationAct Reply := ⟨open' [], step h⟩

/-- The block a reader of the cache sees. -/
def cached (h : Host) (s : TimeseriesStation) (block_id : Int) : Option Block := LruCache.peek h.hash s.caches block_id

theorem seriesOf_injective {a b : Int} (h : seriesOf a = seriesOf b) : a = b := by
  have htext := congrArg String.toList (intoBytes_injective h)
  rw [String.toList_append, String.toList_append] at htext
  exact Int.repr_injective (String.toList_injective (List.append_cancel_left htext))

theorem recentBlocks_of_fits {h : Host} {from_ts to_ts : Int} (hfits : windowFitsBlockCap h from_ts to_ts = true) :
    recentBlocks h from_ts to_ts = blocksOf h from_ts to_ts := by
  unfold windowFitsBlockCap at hfits
  unfold recentBlocks blocksOf
  have := of_decide_eq_true hfits
  dsimp only
  rw [if_neg (by omega)]

/-! ## What an operation does to the cache -/

section Cache

variable {K V : Type} [DecidableEq K] {S : Nat} {hash : K → Fin S} {capacity : Nat} {c : LruCache K V S}
  {r : Recency K V hash}

/-- Everything a put can do: it replaces the value of the key and persists the new one, or puts the key into a free node, or
puts it in the place of another entry and persists that one. -/
theorem put_cases (hcap : 0 < capacity) (hr : LruCache.Shared.Refines hash capacity c r) (key : K) (value : V) :
    let c' := (LruCache.Shared.put hash c key value).1
    let hooks := (LruCache.Shared.put hash c key value).2
    (LruCache.peek hash c key ≠ none ∧ hooks = [.updating key value, .persist key value] ∧
      ∀ k, LruCache.peek hash c' k = if k = key then some value else LruCache.peek hash c k) ∨
    (LruCache.peek hash c key = none ∧ hooks = [] ∧
      ∀ k, LruCache.peek hash c' k = if k = key then some value else LruCache.peek hash c k) ∨
    ∃ old v, old ≠ key ∧ LruCache.peek hash c key = none ∧ LruCache.peek hash c old = some v ∧
      hooks = [.removing old v, .persist old v] ∧
      ∀ k, LruCache.peek hash c' k = if k = key then some value else if k = old then none else LruCache.peek hash c k := by
  obtain ⟨hhooks, hr'⟩ := hr.put key value
  simp only [hr.peek, hr'.peek, hhooks]
  unfold Recency.put Recency.accept
  cases hkey : r.find key with
  | some v =>
    refine Or.inl ⟨nofun, rfl, fun k => ?_⟩
    rw [Recency.find_write]
  | none =>
    right
    dsimp only
    split_ifs with hsize
    · refine Or.inl ⟨rfl, rfl, fun k => ?_⟩
      rw [Recency.find_write]
    · cases hv : r.victim with
      | none =>
        have := Recency.size_eq_zero_of_victim hv
        omega
      | some e =>
        obtain ⟨old, v⟩ := e
        have hold := Recency.find_victim hv
        refine Or.inr ⟨old, v, ?_, rfl, hold, rfl, fun k => ?_⟩
        · rintro rfl
          rw [hkey] at hold
          cases hold
        · rw [Recency.find_write, Recency.find_forget]

theorem peek_get (hr : LruCache.Shared.Refines hash capacity c r) (key k : K) :
    LruCache.peek hash (c.get hash key).1 k = LruCache.peek hash c k := by
  rw [(hr.get key).2.peek, hr.peek]
  unfold Recency.get
  cases hf : r.find key with
  | none => rfl
  | some v =>
    dsimp only
    rw [Recency.find_write]
    split_ifs with hk
    · rw [hk, hf]
    · rfl

end Cache

/-- The cache refines the recency lists. -/
def Ordered (h : Host) (s : TimeseriesStation) : Prop :=
  ∃ r : Recency Int Block h.hash, LruCache.Shared.Refines h.hash HOT_BLOCKS s.caches r

variable {h : Host} {s : TimeseriesStation}

theorem hot_pos : 0 < HOT_BLOCKS := by decide

/-- The snapshot of a block as it is appended to the series of the block. -/
def IsSnapshot (h : Host) (b : Int) (block : Block) (a : Append) : Prop := a.series = seriesOf b ∧ a.value = h.to_vec block

/-- Nothing but the call the station is in differs, up to the order of the cache. -/
structure Frame (h : Host) (s s' : TimeseriesStation) : Prop where
  ordered : Ordered h s'
  cached : ∀ b, cached h s' b = cached h s b
  spawned : s'.spawned = s.spawned
  executed : s'.executed = s.executed
  stored : s'.stored = s.stored

/-- A put of a block caches it. It spawns the block's snapshot when there was one before, and otherwise nothing or the
snapshot of another block, which leaves the cache. -/
structure Puts (h : Host) (s : TimeseriesStation) (b : Int) (block : Block) (s' : TimeseriesStation) : Prop where
  ordered : Ordered h s'
  executed : s'.executed = s.executed
  stored : s'.stored = s.stored
  tiers : (cached h s b ≠ none ∧ (∃ a, IsSnapshot h b block a ∧ a.ts = h.clock s.spawned.length ∧
        s'.spawned = s.spawned ++ [a]) ∧
      ∀ b', cached h s' b' = if b' = b then some block else cached h s b') ∨
    (cached h s b = none ∧ s'.spawned = s.spawned ∧
      ∀ b', cached h s' b' = if b' = b then some block else cached h s b') ∨
    ∃ old v, old ≠ b ∧ cached h s b = none ∧ cached h s old = some v ∧
      (∃ a, IsSnapshot h old v a ∧ a.ts = h.clock s.spawned.length ∧ s'.spawned = s.spawned ++ [a]) ∧
      ∀ b', cached h s' b' = if b' = b then some block else if b' = old then none else cached h s b'

theorem cachePut_puts (hs : Ordered h s) (b : Int) (block : Block) : Puts h s b block (cachePut h s b block) := by
  obtain ⟨r, hr⟩ := hs
  refine ⟨⟨_, (hr.put b block).2⟩, rfl, rfl, ?_⟩
  unfold cached cachePut spawn
  dsimp only
  rcases put_cases hot_pos hr b block with ⟨hb, hhooks, hpeek⟩ | ⟨hb, hhooks, hpeek⟩ | ⟨old, v, hne, hb, hold, hhooks, hpeek⟩
  · refine Or.inl ⟨hb, ⟨(attached h).persistPoint s.spawned.length b block, ⟨rfl, rfl⟩, rfl, ?_⟩, hpeek⟩
    rw [hhooks]
    rfl
  · refine Or.inr (Or.inl ⟨hb, ?_, hpeek⟩)
    rw [hhooks]
    simp [Attached.persisted]
  · refine Or.inr (Or.inr ⟨old, v, hne, hb, hold,
      ⟨(attached h).persistPoint s.spawned.length old v, ⟨rfl, rfl⟩, rfl, ?_⟩, hpeek⟩)
    rw [hhooks]
    rfl

theorem cacheGet_frame (hs : Ordered h s) (b : Int) : Frame h s (cacheGet h s b).1 := by
  obtain ⟨r, hr⟩ := hs
  exact ⟨⟨_, (hr.get b).2⟩, fun b' => peek_get hr b b', rfl, rfl, rfl⟩

theorem Frame.trans {s' s'' : TimeseriesStation} (h₁ : Frame h s s') (h₂ : Frame h s' s'') : Frame h s s'' :=
  ⟨h₂.ordered, fun b => (h₂.cached b).trans (h₁.cached b), h₂.spawned.trans h₁.spawned, h₂.executed.trans h₁.executed,
    h₂.stored.trans h₁.stored⟩

/-- A put after steps that change nothing is a put. -/
theorem Frame.puts {s' s'' : TimeseriesStation} {b : Int} {block : Block} (h₁ : Frame h s s') (h₂ : Puts h s' b block s'') :
    Puts h s b block s'' := by
  obtain ⟨hord, hex, hst, htiers⟩ := h₂
  refine ⟨hord, hex.trans h₁.executed, hst.trans h₁.stored, ?_⟩
  simpa only [h₁.cached, h₁.spawned] using htiers

/-- The block that a visit of `update_range` makes. -/
def updated (h : Host) (s : TimeseriesStation) (records : List Observation) (query_from query_to now : Int) (b : Int) : Block :=
  ((cached h s b).getD Block.empty).update h.block_duration b records query_from query_to now

/-- A visit of `update_range` puts the block, unless that is empty and was not cached. -/
theorem updateBlock_cases (hs : Ordered h s) (records : List Observation) (query_from query_to now : Int) (b : Int) :
    (cached h s b = none ∧ (updated h s records query_from query_to now b).items = [] ∧
      Frame h s (updateBlock h s records query_from query_to now b)) ∨
    ((cached h s b ≠ none ∨ (updated h s records query_from query_to now b).items ≠ []) ∧
      Puts h s b (updated h s records query_from query_to now b) (updateBlock h s records query_from query_to now b)) := by
  have h₁ := cacheGet_frame hs b
  have h₂ := h₁.trans (cacheGet_frame h₁.ordered b)
  have hfound : (cacheGet h (cacheGet h s b).1 b).2 = cached h s b := h₁.cached b
  unfold updateBlock
  dsimp only
  rw [hfound]
  change (_ ∧ _ ∧ Frame h s (if ¬(cached h s b).isSome ∧ (updated h s records query_from query_to now b).items = [] then _
    else _)) ∨ (_ ∧ Puts h s b _ (if ¬(cached h s b).isSome ∧ (updated h s records query_from query_to now b).items = [] then _
    else _))
  split_ifs with hskip
  · obtain ⟨hnone, hempty⟩ := hskip
    exact Or.inl ⟨by simpa using hnone, hempty, h₂⟩
  · refine Or.inr ⟨?_, h₂.puts (cachePut_puts h₂.ordered b _)⟩
    cases hb : cached h s b with
    | none => exact Or.inr fun hempty => hskip ⟨by simp [hb], hempty⟩
    | some v => exact Or.inl nofun

/-- What a query sees of a block. -/
def view (h : Host) (s : TimeseriesStation) (b : Int) : Option Block := (cached h s b).or (loadColdBlock h s b)

/-- A visit of a query gives what it sees of the block, and puts the block when it comes from the backend. -/
theorem readBlock_cases (hs : Ordered h s) (b : Int) :
    (readBlock h s b).2 = view h s b ∧
    (((cached h s b ≠ none ∨ loadColdBlock h s b = none) ∧ Frame h s (readBlock h s b).1) ∨
      ∃ block, cached h s b = none ∧ loadColdBlock h s b = some block ∧ Puts h s b block (readBlock h s b).1) := by
  have hframe := cacheGet_frame hs b
  have hget : cacheGet h s b = ((cacheGet h s b).1, cached h s b) := rfl
  have hcold : loadColdBlock h (cacheGet h s b).1 b = loadColdBlock h s b := rfl
  unfold readBlock view
  rw [hget]
  cases hb : cached h s b with
  | some block => exact ⟨rfl, Or.inl ⟨Or.inl nofun, hframe⟩⟩
  | none =>
    dsimp only
    rw [hcold]
    cases hc : loadColdBlock h s b with
    | none => exact ⟨rfl, Or.inl ⟨Or.inr rfl, hframe⟩⟩
    | some block => exact ⟨rfl, Or.inr ⟨block, rfl, rfl, hframe.puts (cachePut_puts hframe.ordered b block)⟩⟩

end TimeseriesStation

end Opsense
