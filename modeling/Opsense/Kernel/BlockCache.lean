import Opsense.Kernel.Evaluate
import Opsense.Lib.Timeline
import Opsense.Lru.Partitioned
import Opsense.Station.Block

/-!
# The block cache of the kernel

`fetch_candles_from_loader` of `opsense-qlib/src/portfolio.rs` with what it calls: the candles it loads are kept in weekly
blocks, one `LruCache` of them for each cache key, and every block notes the part of its week that it covers. The loader
answers with the candles of a fixed series that are before the clock. A fetch that is answered from the cache does not ask
the loader, and one that is not asks for whole weeks.
-/

namespace Opsense

/-- `BLOCK_SECS`, a week. -/
def BLOCK_SECS : Int := 7 * 24 * 60 * 60

/-- `block_id`, of the time as an `i64` -/
def blockId (ts : Nat) : Int := (Int.bmod ts (2 ^ 64)).tdiv BLOCK_SECS

/-- `(bid * BLOCK_SECS) as u64` -/
def blockStart (bid : Int) : Nat := asU64 (bid * BLOCK_SECS)

variable {F : Type}

/-- The candles from one time on and before another. -/
def sliceOf (candles : List (CandleStick F)) (from_ts to_ts : Nat) : List (CandleStick F) :=
  (candles.take (partitionPoint (fun c => asU64 c.t < to_ts) candles)).drop
    (partitionPoint (fun c => asU64 c.t < from_ts) candles)

/-- `min_gap`: the least distance of two candles that follow each other, or 0. -/
def minGap (candles : List (CandleStick F)) : Nat :=
  (((candles.zip candles.tail).map fun w => (w.2.t - w.1.t).natAbs).filter fun d => 0 < d).min?.getD 0

/-- A weekly block: its candles, and the part of its week that it covers. -/
structure BlockCache (F : Type) where
  candles : List (CandleStick F)
  covered_first : Nat
  covered_last : Nat
  min_gap : Nat

namespace BlockCache

def empty : BlockCache F := ⟨[], 2 ^ 64 - 1, 0, 0⟩

def subrange (block : BlockCache F) (from_ts to_ts : Nat) : List (CandleStick F) := sliceOf block.candles from_ts to_ts

def stepSecs (block : BlockCache F) : Nat := if 0 < block.min_gap then block.min_gap else 300

/-- The first part of a pass of `update_blocks`: the new candles join the block. -/
def merge (block : BlockCache F) (fresh : List (CandleStick F)) : BlockCache F :=
  if fresh.isEmpty then block
  else
    let candles := Timeline.dedup CandleStick.t (Timeline.sort CandleStick.t (block.candles ++ fresh))
    { block with candles := candles, min_gap := minGap candles }

/-- The second part: the block covers more. A request that ended before the clock covers all that was asked for; one that did
not covers one step after the last candle. -/
def cover (block : BlockCache F) (effective_from effective_to original_to now : Nat) : BlockCache F :=
  { block with
    covered_first := min block.covered_first effective_from
    covered_last :=
      match block.candles.getLast? with
      | some last =>
        if original_to ≤ now then max block.covered_last effective_to
        else
          let extent := min (asU64 last.t + block.stepSecs) (2 ^ 64 - 1)
          min (max block.covered_last extent) effective_to
      | none => max block.covered_last effective_to }

end BlockCache

abbrev BlockLru (F : Type) := LruCache Int (BlockCache F) 32

/-- The loop of `try_read_blocks`. -/
def readBlocks (hash : Int → Fin 32) (from_ts to_ts : Nat) :
    BlockLru F → List Int → List (CandleStick F) → BlockLru F × Option (List (CandleStick F))
  | lru, [], result => (lru, some result)
  | lru, bid :: bids, result =>
    let needed_start := max from_ts (blockStart bid)
    let needed_end := min to_ts (blockStart (bid + 1))
    match lru.get hash bid with
    | (lru, none) => (lru, none)
    | (lru, some block) =>
      if needed_start < block.covered_first ∨ needed_end > block.covered_last then (lru, none)
      else readBlocks hash from_ts to_ts lru bids (result ++ block.subrange needed_start needed_end)

def tryReadBlocks (hash : Int → Fin 32) (lru : BlockLru F) (from_ts to_ts : Nat) :
    BlockLru F × Option (List (CandleStick F)) :=
  let r := readBlocks hash from_ts to_ts lru (Block.ids (blockId from_ts) (blockId (to_ts - 1))) []
  (r.1, r.2.map fun result => if result.isEmpty ∧ from_ts < to_ts then [] else Timeline.dedup CandleStick.t result)

/-- One pass of the loop of `update_blocks`. -/
def updateWeek (hash : Int → Fin 32) (candles : List (CandleStick F)) (query_from query_to original_to now : Nat)
    (lru : BlockLru F) (bid : Int) : BlockLru F :=
  let fresh := sliceOf candles (blockStart bid) (blockStart (bid + 1))
  let (lru, cached) := lru.get hash bid
  let old := cached.getD BlockCache.empty
  let block := (old.merge fresh).cover (max query_from (blockStart bid)) (min query_to (blockStart (bid + 1))) original_to now
  if ¬fresh.isEmpty ∨ block.covered_first ≠ old.covered_first ∨ block.covered_last ≠ old.covered_last then
    (LruCache.Partitioned.put hash lru bid block).1
  else lru

def updateBlocks (hash : Int → Fin 32) (lru : BlockLru F) (candles : List (CandleStick F))
    (query_from query_to original_to now : Nat) : BlockLru F :=
  (Block.ids (blockId query_from) (blockId (query_to - 1))).foldl (updateWeek hash candles query_from query_to original_to now) lru

/-! ## The loader and the fetch -/

/-- A series of candles with one candle for each time. -/
structure Series (F : Type) where
  candles : List (CandleStick F)
  ascending : Timeline.Ordered CandleStick.t candles
  bounded : ∀ c ∈ candles, c.t < 2 ^ 63

/-- What the loader answers: the candles of the range that are before the clock. -/
def Series.range (series : Series F) (clock from_ts to_ts : Nat) : List (CandleStick F) :=
  series.candles.filter fun c => from_ts ≤ c.t ∧ c.t < to_ts ∧ c.t < clock

/-- The loader of a fetch that begins at a time: each request but the first one comes after a second of sleep. -/
def Series.loader (series : Series F) (now : Nat) : DataLoader F :=
  fun attempt from_ts to_ts _ => .ok (series.range (now + attempt) from_ts to_ts)

/-- The seconds that `fetch_direct` sleeps. -/
def Series.slept (series : Series F) (from_ts to_ts now : Nat) : Nat :=
  if to_ts ≤ now then 0
  else ((List.range 4).find? fun attempt => !(series.range (now + attempt) from_ts to_ts).isEmpty).getD 3

/-- What a portfolio fetches from: the series of its loader, its calendar, and the hash of its caches. -/
structure Market (F : Type) where
  series : Series F
  calendar : Calendar
  hash : Int → Fin 32

/-- A fetch, which comes some time after the one before it. -/
structure Fetch where
  elapsed : Nat
  from_ts : Nat
  to_ts : Nat
  resolution : String
  cache_key : String

/-- The clock and the caches of a portfolio. -/
structure Fetched (F : Type) where
  clock : Nat
  cache : String → Option (BlockLru F)

/-- The time from which a fetch needs candles, as the calendar has it. -/
def Market.fetchFrom (m : Market F) (f : Fetch) : Nat := m.calendar.next (f.from_ts - toTimestampSecs f.resolution) f.resolution

/-- The time up to which a fetch needs candles, as the calendar has it. -/
def Market.fetchTo (m : Market F) (f : Fetch) : Nat := m.calendar.next (f.to_ts - toTimestampSecs f.resolution) f.resolution

/-- The weeks a fetch asks the loader for. -/
def Market.weeks (m : Market F) (f : Fetch) : Nat × Nat :=
  (blockStart (blockId (m.fetchFrom f)), blockStart (blockId (m.fetchTo f - 1) + 1))

/-- The answer of the cache, with the cache after it. -/
def Fetched.lookup (m : Market F) (s : Fetched F) (f : Fetch) : Fetched F × Option (List (CandleStick F)) :=
  match s.cache f.cache_key with
  | none => (s, none)
  | some lru =>
    let r := tryReadBlocks m.hash lru f.from_ts f.to_ts
    ({ s with cache := Function.update s.cache f.cache_key (some r.1) }, r.2)

/-- A fetch that is not answered from the cache, with the clock when it has its answer. -/
def Fetched.load (m : Market F) (s : Fetched F) (f : Fetch) : Fetched F × Except String (List (CandleStick F)) :=
  if m.fetchFrom f ≥ m.fetchTo f then (s, .ok [])
  else
    let now := s.clock
    let (block_from, block_to) := m.weeks f
    let s := { s with clock := now + m.series.slept block_from block_to now }
    match fetchDirect (m.series.loader now) f.resolution block_from block_to now with
    | .error e => (s, .error e)
    | .ok candles =>
      let candles_full := Timeline.sort CandleStick.t candles
      let lru := (s.cache f.cache_key).getD (LruCache.Partitioned.new 1024)
      let lru := updateBlocks m.hash lru candles_full block_from block_to f.to_ts now
      ({ s with cache := Function.update s.cache f.cache_key (some lru) }, .ok (sliceOf candles_full f.from_ts f.to_ts))

/-- `fetch_candles_from_loader` with the cache on. -/
def fetchFromBlocks (m : Market F) (s : Fetched F) (f : Fetch) : Fetched F × Except String (List (CandleStick F)) :=
  let s := { s with clock := s.clock + f.elapsed }
  if f.from_ts ≥ f.to_ts then
    (s, .error ("`from` (" ++ toString f.from_ts ++ ") should be smaller than `to` (" ++ toString f.to_ts ++ ")"))
  else
    match s.lookup m f with
    | (s, some candles) => (s, .ok candles)
    | (s, none) => s.load m f

/-- A portfolio over its fetches, with empty caches at first. -/
def fetching (m : Market F) : Machine (Fetched F) Fetch (Except String (List (CandleStick F))) :=
  ⟨⟨0, fun _ => none⟩, fetchFromBlocks m⟩

end Opsense
