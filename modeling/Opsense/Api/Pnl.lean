import Opsense.Lib.Groups
import Opsense.Lib.Newest
import Opsense.Station.Block

/-!
# Profit and loss of the orders

`opsense/src/api/repl/pnl.rs`: the rows of one order are reduced to its newest one (`filter_dedupOrders`), the rows fall into
buckets by their aligned times, gaps are filled, and the buckets are added up before anything is divided. Sizes, percentages and
prices are exact rationals; `parse` reads a label as a number and `real` is the number that an observation's bits stand for.
Times are far enough from the ends of `i64` for the aligned ones.
-/

namespace Opsense

namespace Pnl

/-- `align_bucket`: `div_euclid` is the division of integers here. -/
def alignBucket (ts bucket_secs : Int) : Int := if bucket_secs = 0 then 0 else ts / bucket_secs * bucket_secs

/-! ## One row for each order -/

def orderId (o : Observation) : Option String := o.labels.get "order_id"

/-- One pass of the first loop of `dedup_orders`. -/
def keepLatest (latest : Finmap fun _ : String => Int × Nat) (row : Observation × Nat) : Finmap fun _ : String => Int × Nat :=
  match orderId row.1 with
  | none => latest
  | some id =>
    match latest.lookup id with
    | none => latest.insert id (row.1.ts, row.2)
    | some prev => if prev.1 > row.1.ts then latest else latest.insert id (row.1.ts, row.2)

def dedupOrders (rows : List Observation) : List Observation :=
  let latest := rows.zipIdx.foldl keepLatest ∅
  let keep := latest.entries.map fun entry => entry.2.2
  (rows.zipIdx.filter fun row => orderId row.1 = none ∨ row.2 ∈ keep).map Prod.fst

section Dedup

variable {rows : List Observation} {k : String}

theorem lookup_keepLatest (latest : Finmap fun _ : String => Int × Nat) (row : Observation × Nat) :
    (keepLatest latest row).lookup k =
      if orderId row.1 = some k then
        some (match latest.lookup k with
          | none => (row.1.ts, row.2)
          | some prev => if prev.1 > row.1.ts then prev else (row.1.ts, row.2))
      else latest.lookup k := by
  unfold keepLatest
  cases hid : orderId row.1 with
  | none => rw [if_neg nofun]
  | some id =>
    dsimp only
    by_cases hk : id = k
    · subst hk
      rw [if_pos rfl]
      cases hl : latest.lookup id with
      | none => exact Finmap.lookup_insert _
      | some prev =>
        dsimp only
        split_ifs
        · exact hl
        · exact Finmap.lookup_insert _
    · rw [if_neg fun h => hk (Option.some.inj h)]
      cases latest.lookup id with
      | none => exact Finmap.lookup_insert_of_ne _ (Ne.symm hk)
      | some prev =>
        dsimp only
        split_ifs
        · rfl
        · exact Finmap.lookup_insert_of_ne _ (Ne.symm hk)

/-- The newest of the rows of an order. -/
def latestRow (rows : List (Observation × Nat)) (k : String) : Option (Observation × Nat) :=
  Log.newest (fun row => row.1.ts) (rows.filter fun row => orderId row.1 = some k)

/-- The map of `dedup_orders` holds the time and the place of the newest row of each order. -/
theorem lookup_latest (rows : List (Observation × Nat)) :
    (rows.foldl keepLatest ∅).lookup k = (latestRow rows k).map fun row => (row.1.ts, row.2) := by
  induction rows using List.reverseRecOn with
  | nil => rfl
  | append_singleton rows row ih =>
    rw [List.foldl_concat, lookup_keepLatest, ih]
    unfold latestRow
    rw [List.filter_append]
    by_cases hid : orderId row.1 = some k
    · rw [if_pos hid, List.filter_cons_of_pos (by simpa using hid), List.filter_nil, Log.newest_snoc]
      cases Log.newest (fun row => row.1.ts) (rows.filter fun row => orderId row.1 = some k) with
      | none => rfl
      | some n =>
        simp only [Option.map_some, Log.newer, gt_iff_lt]
        by_cases hle : n.1.ts ≤ row.1.ts
        · rw [if_neg (not_lt.mpr hle), if_pos hle]
          rfl
        · rw [if_pos (not_le.mp hle), if_neg hle]
          rfl
    · rw [if_neg hid, List.filter_cons_of_neg (by simpa using hid), List.filter_nil, List.append_nil]

/-- The places that are kept are those of the newest rows. -/
theorem mem_keep {i : Nat} : (i ∈ (rows.zipIdx.foldl keepLatest ∅).entries.map fun entry => entry.2.2) ↔
    ∃ id row, latestRow rows.zipIdx id = some row ∧ row.2 = i := by
  rw [Multiset.mem_map]
  constructor
  · rintro ⟨⟨id, latest⟩, hmem, rfl⟩
    have hl := lookup_latest (k := id) rows.zipIdx
    rw [Finmap.lookup_eq_some_iff.mpr hmem, eq_comm, Option.map_eq_some_iff] at hl
    obtain ⟨row, hrow, rfl⟩ := hl
    exact ⟨id, row, hrow, rfl⟩
  · rintro ⟨id, row, hrow, rfl⟩
    have hl := lookup_latest (k := id) rows.zipIdx
    rw [hrow] at hl
    exact ⟨⟨id, row.1.ts, row.2⟩, Finmap.lookup_eq_some_iff.mp hl, rfl⟩

theorem mem_of_latestRow {row : Observation × Nat} (h : latestRow rows.zipIdx k = some row) :
    row ∈ rows.zipIdx ∧ orderId row.1 = some k := by
  have hmem := List.mem_filter.mp (Log.newest_mem h)
  exact ⟨hmem.1, by simpa using hmem.2⟩

/-- A row of an order is kept exactly if it is the newest one of that order. -/
theorem keep_iff {row : Observation × Nat} (hrow : row ∈ rows.zipIdx) (hid : orderId row.1 = some k) :
    (orderId row.1 = none ∨ row.2 ∈ (rows.zipIdx.foldl keepLatest ∅).entries.map fun entry => entry.2.2) ↔
      latestRow rows.zipIdx k = some row := by
  rw [mem_keep, hid]
  constructor
  · rintro (h | ⟨id, latest, hlatest, hplace⟩)
    · cases h
    · -- a place has one row
      obtain ⟨hmem, hid'⟩ := mem_of_latestRow hlatest
      rw [List.mem_zipIdx_iff_getElem?] at hrow hmem
      rw [hplace] at hmem
      have heq : latest = row := Prod.ext (Option.some.inj (hmem.symm.trans hrow)) hplace
      subst heq
      rw [hid] at hid'
      rw [Option.some.inj hid', hlatest]
  · exact fun h => Or.inr ⟨k, row, h, rfl⟩

theorem dedupOrders_sublist (rows : List Observation) : (dedupOrders rows).Sublist rows := by
  have h := (List.filter_sublist (p := fun row => orderId row.1 = none ∨
    row.2 ∈ (rows.zipIdx.foldl keepLatest ∅).entries.map fun entry => entry.2.2) (l := rows.zipIdx)).map Prod.fst
  rwa [List.zipIdx_map_fst] at h

theorem filter_zipIdx (p : Observation → Bool) (rows : List Observation) :
    (rows.zipIdx.filter fun row => p row.1).map Prod.fst = rows.filter p := by
  conv_rhs => rw [← List.zipIdx_map_fst 0 rows, List.filter_map]
  rfl

/-- Rows without an order are all kept. -/
theorem filter_dedupOrders_none (rows : List Observation) :
    ((dedupOrders rows).filter fun o => orderId o = none) = rows.filter fun o => orderId o = none := by
  unfold dedupOrders
  dsimp only
  rw [List.filter_map, List.filter_filter, ← filter_zipIdx]
  refine congrArg _ (List.filter_congr fun row _ => ?_)
  simp +contextual

/-- Of the rows of an order the newest one is kept. -/
theorem filter_dedupOrders (rows : List Observation) (k : String) :
    ((dedupOrders rows).filter fun o => orderId o = some k) =
      (Log.newest Observation.ts (rows.filter fun o => orderId o = some k)).toList := by
  have hmap : Log.newest Observation.ts (rows.filter fun o => orderId o = some k) = (latestRow rows.zipIdx k).map Prod.fst := by
    rw [latestRow, ← filter_zipIdx, Log.newest_map]
  rw [hmap]
  unfold dedupOrders
  dsimp only
  rw [List.filter_map, List.filter_filter]
  have hrow : ∀ row ∈ rows.zipIdx, (decide (orderId row.1 = some k) && decide (orderId row.1 = none ∨
      row.2 ∈ (rows.zipIdx.foldl keepLatest ∅).entries.map fun entry => entry.2.2)) = decide (latestRow rows.zipIdx k = some row) := by
    intro row hmem
    rw [Bool.eq_iff_iff, Bool.and_eq_true, decide_eq_true_iff, decide_eq_true_iff, decide_eq_true_iff]
    constructor
    · rintro ⟨hid, h⟩
      exact (keep_iff hmem hid).mp h
    · intro h
      have hid := (mem_of_latestRow h).2
      exact ⟨hid, (keep_iff hmem hid).mpr h⟩
  refine (congrArg _ (List.filter_congr hrow)).trans ?_
  cases hlatest : latestRow rows.zipIdx k with
  | none => simp
  | some latest =>
    have hmem := (mem_of_latestRow hlatest).1
    have hnodup : rows.zipIdx.Nodup := List.Nodup.of_map Prod.snd (List.nodup_zipIdx_map_snd rows)
    simp only [Option.some.injEq, eq_comm (a := latest)]
    rw [List.filter_eq, List.count_eq_one_of_mem hnodup hmem]
    rfl

end Dedup

/-! ## Buckets -/

structure PnlBucket where
  bucket_ts : Int := 0
  trades : Nat := 0
  wins : Nat := 0
  losses : Nat := 0
  win_rate : ℚ := 0
  net_pnl_abs : ℚ := 0
  net_pnl_pct : ℚ := 0
  gross_profit_abs : ℚ := 0
  gross_loss_abs : ℚ := 0
  notional : ℚ := 0
  avg_win_pct : ℚ := 0
  avg_loss_pct : ℚ := 0
  long_trades : Nat := 0
  short_trades : Nat := 0
  open_count : Nat := 0
  open_notional : ℚ := 0
  pnl_pct_sum : ℚ := 0
  win_pct_sum : ℚ := 0
  loss_pct_sum : ℚ := 0
deriving DecidableEq

namespace PnlBucket

def new (bucket_ts : Int) : PnlBucket := { bucket_ts }

def addClosed (size pnl_pct : ℚ) (dtype : String) (b : PnlBucket) : PnlBucket :=
  let b := { b with
    trades := b.trades + 1, net_pnl_abs := b.net_pnl_abs + size * pnl_pct, pnl_pct_sum := b.pnl_pct_sum + pnl_pct
    notional := b.notional + size }
  let b := if pnl_pct > 0 then
      { b with
        wins := b.wins + 1, gross_profit_abs := b.gross_profit_abs + size * pnl_pct
        win_pct_sum := b.win_pct_sum + pnl_pct }
    else
      { b with
        losses := b.losses + 1, gross_loss_abs := b.gross_loss_abs + size * pnl_pct
        loss_pct_sum := b.loss_pct_sum + pnl_pct }
  if dtype = "long" then { b with long_trades := b.long_trades + 1 }
  else if dtype = "short" then { b with short_trades := b.short_trades + 1 }
  else b

def addOpen (size : ℚ) (b : PnlBucket) : PnlBucket :=
  { b with open_count := b.open_count + 1, open_notional := b.open_notional + size }

/-- `roll_up_raw` leaves the time and the averages alone. -/
def rollUpRaw (b other : PnlBucket) : PnlBucket :=
  { b with
    trades := b.trades + other.trades
    wins := b.wins + other.wins
    losses := b.losses + other.losses
    long_trades := b.long_trades + other.long_trades
    short_trades := b.short_trades + other.short_trades
    open_count := b.open_count + other.open_count
    net_pnl_abs := b.net_pnl_abs + other.net_pnl_abs
    pnl_pct_sum := b.pnl_pct_sum + other.pnl_pct_sum
    gross_profit_abs := b.gross_profit_abs + other.gross_profit_abs
    gross_loss_abs := b.gross_loss_abs + other.gross_loss_abs
    win_pct_sum := b.win_pct_sum + other.win_pct_sum
    loss_pct_sum := b.loss_pct_sum + other.loss_pct_sum
    notional := b.notional + other.notional
    open_notional := b.open_notional + other.open_notional }

def finalize (b : PnlBucket) : PnlBucket :=
  let b := if b.trades > 0 then { b with win_rate := b.wins / b.trades, net_pnl_pct := b.pnl_pct_sum / b.trades } else b
  let b := if b.wins > 0 then { b with avg_win_pct := b.win_pct_sum / b.wins } else b
  if b.losses > 0 then { b with avg_loss_pct := b.loss_pct_sum / b.losses } else b

end PnlBucket

/-! ## What is added up, and what is divided -/

/-- The fields that are added up. -/
inductive Summed where
  | trades
  | wins
  | losses
  | long_trades
  | short_trades
  | open_count
  | net_pnl_abs
  | pnl_pct_sum
  | gross_profit_abs
  | gross_loss_abs
  | win_pct_sum
  | loss_pct_sum
  | notional
  | open_notional

namespace PnlBucket

/-- The sums of a bucket. -/
def sums (b : PnlBucket) : Summed → ℚ
  | .trades => b.trades
  | .wins => b.wins
  | .losses => b.losses
  | .long_trades => b.long_trades
  | .short_trades => b.short_trades
  | .open_count => b.open_count
  | .net_pnl_abs => b.net_pnl_abs
  | .pnl_pct_sum => b.pnl_pct_sum
  | .gross_profit_abs => b.gross_profit_abs
  | .gross_loss_abs => b.gross_loss_abs
  | .win_pct_sum => b.win_pct_sum
  | .loss_pct_sum => b.loss_pct_sum
  | .notional => b.notional
  | .open_notional => b.open_notional

/-- Nothing has been divided yet. -/
structure Raw (b : PnlBucket) : Prop where
  win_rate : b.win_rate = 0
  net_pnl_pct : b.net_pnl_pct = 0
  avg_win_pct : b.avg_win_pct = 0
  avg_loss_pct : b.avg_loss_pct = 0

/-- The averages are those of the sums; without trades they are zero. -/
structure Averaged (b : PnlBucket) : Prop where
  win_rate : b.win_rate = b.sums .wins / b.sums .trades
  net_pnl_pct : b.net_pnl_pct = b.sums .pnl_pct_sum / b.sums .trades
  avg_win_pct : b.avg_win_pct = b.sums .win_pct_sum / b.sums .wins
  avg_loss_pct : b.avg_loss_pct = b.sums .loss_pct_sum / b.sums .losses

theorem sums_new (ts : Int) : (new ts).sums = 0 := by
  funext field
  cases field <;> simp [sums, new]

theorem raw_new (ts : Int) : (new ts).Raw := ⟨rfl, rfl, rfl, rfl⟩

theorem sums_rollUpRaw (b other : PnlBucket) : (b.rollUpRaw other).sums = b.sums + other.sums := by
  funext field
  cases field <;> simp [sums, rollUpRaw]

theorem Raw.rollUpRaw {b : PnlBucket} (h : b.Raw) (other : PnlBucket) : (b.rollUpRaw other).Raw :=
  ⟨h.win_rate, h.net_pnl_pct, h.avg_win_pct, h.avg_loss_pct⟩

theorem Raw.addClosed {b : PnlBucket} (h : b.Raw) (size pnl_pct : ℚ) (dtype : String) : (b.addClosed size pnl_pct dtype).Raw := by
  unfold PnlBucket.addClosed
  dsimp only
  split_ifs <;> exact ⟨h.win_rate, h.net_pnl_pct, h.avg_win_pct, h.avg_loss_pct⟩

@[simp] theorem bucket_ts_addClosed (b : PnlBucket) (size pnl_pct : ℚ) (dtype : String) :
    (b.addClosed size pnl_pct dtype).bucket_ts = b.bucket_ts := by
  unfold PnlBucket.addClosed
  dsimp only
  split_ifs <;> rfl

@[simp] theorem sums_finalize (b : PnlBucket) : b.finalize.sums = b.sums := by
  unfold finalize
  dsimp only
  funext field
  split_ifs <;> cases field <;> rfl

@[simp] theorem bucket_ts_finalize (b : PnlBucket) : b.finalize.bucket_ts = b.bucket_ts := by
  unfold finalize
  dsimp only
  split_ifs <;> rfl

/-- The division leaves no average out. -/
theorem Raw.finalize {b : PnlBucket} (h : b.Raw) : b.finalize.Averaged := by
  have hwin : b.finalize.win_rate = b.wins / b.trades := by
    unfold PnlBucket.finalize
    dsimp only
    split_ifs <;> simp_all [h.win_rate]
  have hnet : b.finalize.net_pnl_pct = b.pnl_pct_sum / b.trades := by
    unfold PnlBucket.finalize
    dsimp only
    split_ifs <;> simp_all [h.net_pnl_pct]
  have havg : b.finalize.avg_win_pct = b.win_pct_sum / b.wins := by
    unfold PnlBucket.finalize
    dsimp only
    split_ifs <;> simp_all [h.avg_win_pct]
  have hloss : b.finalize.avg_loss_pct = b.loss_pct_sum / b.losses := by
    unfold PnlBucket.finalize
    dsimp only
    split_ifs <;> simp_all [h.avg_loss_pct]
  constructor <;> rw [sums_finalize] <;> assumption

/-- Before anything is divided a bucket is its time and its sums. -/
theorem Raw.eq {a b : PnlBucket} (ha : a.Raw) (hb : b.Raw) (hts : a.bucket_ts = b.bucket_ts) (hsums : a.sums = b.sums) : a = b := by
  have hfield := congrFun hsums
  obtain ⟨ha1, ha2, ha3, ha4⟩ := ha
  obtain ⟨hb1, hb2, hb3, hb4⟩ := hb
  have h1 := hfield .trades
  have h2 := hfield .wins
  have h3 := hfield .losses
  have h4 := hfield .long_trades
  have h5 := hfield .short_trades
  have h6 := hfield .open_count
  have h7 := hfield .net_pnl_abs
  have h8 := hfield .pnl_pct_sum
  have h9 := hfield .gross_profit_abs
  have h10 := hfield .gross_loss_abs
  have h11 := hfield .win_pct_sum
  have h12 := hfield .loss_pct_sum
  have h13 := hfield .notional
  have h14 := hfield .open_notional
  cases a
  cases b
  simp only [sums, Nat.cast_inj] at h1 h2 h3 h4 h5 h6 h7 h8 h9 h10 h11 h12 h13 h14
  simp_all

theorem foldl_rollUpRaw (buckets : List PnlBucket) {b : PnlBucket} (h : b.Raw) :
    (buckets.foldl rollUpRaw b).sums = b.sums + (buckets.map sums).sum ∧ (buckets.foldl rollUpRaw b).Raw ∧
      (buckets.foldl rollUpRaw b).bucket_ts = b.bucket_ts := by
  induction buckets generalizing b with
  | nil => exact ⟨by simp, h, rfl⟩
  | cons other buckets ih =>
    obtain ⟨hsums, hraw, hts⟩ := ih (h.rollUpRaw other)
    exact ⟨by rw [List.foldl_cons, hsums, sums_rollUpRaw, List.map_cons, List.sum_cons, add_assoc], hraw, hts⟩

end PnlBucket

structure PnlSummary where
  interval : String := ""
  bucket_secs : Int := 0
  from_ts : Int := 0
  to_ts : Int := 0
  complete : Bool := false
  trades : Nat := 0
  zero_size_rows : Nat := 0
  net_pnl_abs : ℚ := 0
  net_pnl_pct : ℚ := 0
  gross_profit_abs : ℚ := 0
  gross_loss_abs : ℚ := 0
  notional : ℚ := 0
  wins : Nat := 0
  losses : Nat := 0
  win_rate : ℚ := 0
  avg_win_pct : ℚ := 0
  avg_loss_pct : ℚ := 0
  long_trades : Nat := 0
  short_trades : Nat := 0
  open_count : Nat := 0
  open_notional : ℚ := 0
  unrealized_abs : ℚ := 0
  mark_price : Option ℚ := none
  total : PnlBucket := {}
  buckets : List PnlBucket := []
deriving DecidableEq

/-! ## `aggregate` -/

section Aggregate

variable (parse : String → Option ℚ) (real : UInt64 → ℚ)

def status (o : Observation) : String := (o.labels.get "status").getD ""

def dtype (o : Observation) : String := (o.labels.get "dtype").getD ""

def size (o : Observation) : ℚ := ((o.labels.get "size").bind parse).getD 0

def pnlPct (o : Observation) : ℚ := ((o.labels.get "pnl_pct").bind parse).getD 0

/-- A row whose status the loop of `aggregate` does not skip. -/
def Listed (o : Observation) : Prop := status o = "closed" ∨ status o = "open"

instance (o : Observation) : Decidable (Listed o) := inferInstanceAs (Decidable (_ ∨ _))

/-- What the loop does to the row's bucket. -/
def count (b : PnlBucket) (o : Observation) : PnlBucket :=
  if status o = "closed" then b.addClosed (size parse o) (pnlPct parse o) (dtype o)
  else if size parse o > 0 then b.addOpen (size parse o)
  else b

/-- The row joins its bucket, a new one if it is the first. -/
def join (bucket_secs : Int) (b : Option PnlBucket) (o : Observation) : PnlBucket :=
  count parse (b.getD (.new (alignBucket o.ts bucket_secs))) o

/-- The buckets after the loop over the rows. -/
def tallied (bucket_secs : Int) (rows : List Observation) : Finmap fun _ : Int => PnlBucket :=
  Groups.collect (join parse bucket_secs) (fun o => alignBucket o.ts bucket_secs) ∅ (rows.filter Listed)

/-- The loop that fills the gaps from `current` on. -/
def fillGaps {bucket_secs : Int} (h : 0 < bucket_secs) (max_bucket current : Int) (buckets : Finmap fun _ : Int => PnlBucket) :
    Finmap fun _ : Int => PnlBucket :=
  if current ≤ max_bucket then
    fillGaps h max_bucket (current + bucket_secs)
      (if current ∈ buckets then buckets else buckets.insert current (.new current))
  else buckets
termination_by (max_bucket + 1 - current).toNat
decreasing_by omega

/-- The buckets with the gaps between the first and the last one filled. -/
def filled (bucket_secs : Int) (buckets : Finmap fun _ : Int => PnlBucket) : Finmap fun _ : Int => PnlBucket :=
  if h : 0 < bucket_secs then
    match (Groups.inOrder buckets.keys).head?, (Groups.inOrder buckets.keys).getLast? with
    | some min_bucket, some max_bucket => fillGaps h max_bucket min_bucket buckets
    | _, _ => buckets
  else buckets

/-- `BTreeMap::values` -/
def values (buckets : Finmap fun _ : Int => PnlBucket) : List PnlBucket := (Groups.inOrder buckets.keys).filterMap buckets.lookup

/-- What an open order adds to `unrealized_abs`. -/
def unrealized (mark fee_roundtrip : ℚ) (o : Observation) : ℚ :=
  if o.labels.get "status" ≠ some "open" then 0
  else if size parse o = 0 then 0
  else if real o.value = 0 then 0
  else size parse o *
    if dtype o = "long" then (mark - real o.value) / real o.value - fee_roundtrip
    else if dtype o = "short" then (real o.value - mark) / real o.value - fee_roundtrip
    else 0

/-- The text of the width in `aggregate`. -/
def intervalText (bucket_secs : Int) : String :=
  if bucket_secs = 0 then "0"
  else if bucket_secs = 60 then "1m"
  else if bucket_secs = 300 then "5m"
  else if bucket_secs = 900 then "15m"
  else if bucket_secs = 1800 then "30m"
  else if bucket_secs = 3600 then "1h"
  else if bucket_secs = 14400 then "4h"
  else if bucket_secs = 86400 then "1d"
  else if bucket_secs = 604800 then "1w"
  else if bucket_secs = 2592000 then "1M"
  else toString bucket_secs ++ "s"

def aggregate (rows : List Observation) (bucket_secs : Int) (mark_price : Option ℚ) (fee_roundtrip : ℚ) : PnlSummary :=
  let summary : PnlSummary :=
    { interval := intervalText bucket_secs, bucket_secs, from_ts := (rows.head?.map Observation.ts).getD 0
      to_ts := (rows.getLast?.map Observation.ts).getD 0, complete := true }
  if rows = [] then summary
  else
    let buckets := values (filled bucket_secs (tallied parse bucket_secs rows))
    -- everything is added up before anything is divided
    let total := (buckets.foldl PnlBucket.rollUpRaw (.new 0)).finalize
    { summary with
      zero_size_rows := rows.countP fun o => status o = "closed" ∧ size parse o = 0
      unrealized_abs := match mark_price with
        | none => 0
        | some mark => (rows.map (unrealized parse real mark fee_roundtrip)).sum
      buckets := buckets.map PnlBucket.finalize
      trades := total.trades
      wins := total.wins
      losses := total.losses
      win_rate := total.win_rate
      net_pnl_abs := total.net_pnl_abs
      net_pnl_pct := total.net_pnl_pct
      gross_profit_abs := total.gross_profit_abs
      gross_loss_abs := total.gross_loss_abs
      notional := total.notional
      avg_win_pct := total.avg_win_pct
      avg_loss_pct := total.avg_loss_pct
      long_trades := total.long_trades
      short_trades := total.short_trades
      open_count := total.open_count
      open_notional := total.open_notional
      total }

end Aggregate

end Pnl

end Opsense
