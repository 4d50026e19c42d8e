import Opsense.Lib.Groups
import Opsense.Lib.Machine
import Opsense.Lib.Checked
import Opsense.Station.Block

/-!
# The candle builder

`Tick2Candle` of `opsense-components/src/converters/tick2candle.rs`. Every message is a batch of observations. The priced ones join
the bar of their bucket, and the bars whose bucket is over by the largest time seen are written, five observations for a candle.
A price is a finite `f64` above zero, given by its bits, whose order is that of the numbers.
-/

namespace Opsense

/-- A finite `f64` above zero. -/
abbrev Price := { bits : Nat // 0 < bits ∧ bits < 0x7FF0000000000000 }

/-- `v.is_finite() && v > 0.0` -/
def Price.ofBits (v : UInt64) : Option Price :=
  if h : 0 < v.toNat ∧ v.toNat < 0x7FF0000000000000 then some ⟨v.toNat, h⟩ else none

/-- `n as f64` of a `u64`: the bits of the nearest number, of two the even one. -/
def asF64 (n : Nat) : UInt64 :=
  let exponent := n.log2
  if n = 0 then 0
  else if exponent ≤ 52 then
    UInt64.ofNat ((exponent + 1023) * 2 ^ 52 + (n * 2 ^ (52 - exponent) - 2 ^ 52))
  else
    let unit := 2 ^ (exponent - 52)
    let up := unit < 2 * (n % unit) ∨ (2 * (n % unit) = unit ∧ n / unit % 2 = 1)
    UInt64.ofNat ((exponent + 1023) * 2 ^ 52 + (n / unit + (if up then 1 else 0) - 2 ^ 52))

/-- A candle that is being built; no price as long as its bucket has no tick. -/
structure Bar where
  open_ : Option Price
  high : Option Price
  low : Option Price
  close : Option Price
  ticks : Nat
deriving DecidableEq

namespace Bar

/-- `Bar::default` -/
def empty : Bar := ⟨none, none, none, none, 0⟩

def push (bar : Bar) (price : Price) : Bar :=
  if bar.open_.isNone then
    { open_ := some price, high := some price, low := some price, close := some price, ticks := bar.ticks + 1 }
  else
    { bar with
      high := some (max (bar.high.getD price) price)
      low := some (min (bar.low.getD price) price)
      close := some price
      ticks := bar.ticks + 1 }

/-- The bar of the prices of a bucket. -/
def of (ps : List Price) : Bar := ⟨ps.head?, ps.max?, ps.min?, ps.getLast?, ps.length⟩

def isComplete (bar : Bar) : Bool := bar.open_.isSome && bar.close.isSome && 0 < bar.ticks

/-- The bits of a price, or of `0.0`. -/
def orDefault (price : Option Price) : UInt64 := (price.map fun p => UInt64.ofNat p.val).getD 0

def values (bar : Bar) : List UInt64 :=
  [orDefault bar.open_, orDefault bar.high, orDefault bar.low, orDefault bar.close, asF64 bar.ticks]

end Bar

def OHLCV_FIELDS : List String := ["o", "h", "l", "c", "v"]

theorem candleLabels_sorted (field resolution : String) :
    [("field", field), ("resolution", resolution)].Pairwise fun a b => a.1 < b.1 := by
  have hlt : "field" < "resolution" := by decide
  exact List.pairwise_pair.mpr hlt

/-- The component as it is configured. -/
structure Tick2Candle where
  resolution : String
  symbol : String
  unit_ms : Nat
deriving DecidableEq

namespace Tick2Candle

/-- The seconds of a unit. -/
def multOf (unit : List Char) : Nat :=
  match String.ofList unit with
  | "" | "s" => 1
  | "m" => 60
  | "h" | "H" => 3600
  | "d" | "D" => 86400
  | "w" | "W" => 604800
  | _ => 60

/-- The length of a bucket; the product is one of `u64`. -/
def bucketSecs (resolution : String) : Nat :=
  let s := trim resolution.toList
  let num := s.takeWhile Char.isDigit
  let unit := s.dropWhile Char.isDigit
  if unit = [] then
    match parseU64 s with
    | some n => if 0 < n then n else 60
    | none => 60
  else
    match parseU64 num with
    | none => 60
    | some n => max n 1 * multOf unit % 2 ^ 64

/-- `i64::try_from(step).unwrap_or(60)` -/
def stepSecs (step : Nat) : Int := if step < 2 ^ 63 then step else 60

/-- `i64::try_from(step).unwrap_or(60).max(1)` -/
def width (step : Nat) : Int := max (stepSecs step) 1

/-- The bucket of a time in seconds. -/
def bucketOf (ts_secs : Int) (step : Nat) : Int := ts_secs / width step * width step

/-- A time in seconds. -/
def tsToSecs (raw : Int) (unit_ms : Nat) : Int :=
  (clampI64 (raw * max (if unit_ms < 2 ^ 63 then (unit_ms : Int) else 1) 1)).tdiv 1000

/-- The price of a tick: its value, or its label. `parse` is `str::parse::<f64>`. -/
def tickPrice (parse : String → Option UInt64) (o : Observation) : Option Price :=
  match Price.ofBits o.value with
  | some price => some price
  | none => ((o.labels.val.lookup "price").bind parse).bind Price.ofBits

/-- The five observations of a candle. -/
def barObservations (bucket : Int) (bar : Bar) (symbol resolution : String) : List Observation :=
  (OHLCV_FIELDS.zip bar.values).map fun field =>
    { ts := bucket, metric_id := symbol, kind := .metric, signal := .raw, value := field.2
      labels := ⟨[("field", field.1), ("resolution", resolution)], candleLabels_sorted _ _⟩, severity := none }

/-- What a node keeps between two messages: the open bars and the largest time of a priced tick. -/
structure Running where
  opened : Finmap fun _ : Int => Bar
  max_ts_secs : Int
deriving DecidableEq

def Running.start : Running := ⟨∅, 0⟩

variable (parse : String → Option UInt64) (node : Tick2Candle)

/-- The length of a bucket of the node. -/
def step : Nat := bucketSecs node.resolution

/-- The time of a tick in seconds. -/
def secs (o : Observation) : Int := tsToSecs o.ts node.unit_ms

/-- An observation of the batch joins the bar of its bucket, when it has a price. -/
def take (s : Running) (o : Observation) : Running :=
  match tickPrice parse o with
  | none => s
  | some price =>
    let ts_secs := node.secs o
    let bucket := bucketOf ts_secs node.step
    { opened := s.opened.insert bucket (((s.opened.lookup bucket).getD .empty).push price)
      max_ts_secs := max s.max_ts_secs ts_secs }

/-- The buckets that are over, in ascending order. -/
def due (s : Running) : List Int :=
  (s.opened.keys.filter fun b => clampI64 (b + stepSecs node.step) ≤ s.max_ts_secs).sort

/-- The bar of a bucket that is over is taken out and written. -/
def writeBar (s : Running × List Observation) (b : Int) : Running × List Observation :=
  match s.1.opened.lookup b with
  | none => s
  | some bar =>
    ({ s.1 with opened := s.1.opened.erase b },
      if bar.isComplete then s.2 ++ barObservations b bar node.symbol node.resolution else s.2)

/-- A message arrives: the node's state after it, and the observations that are written. -/
def receive (s : Running) (batch : List Observation) : Running × List Observation :=
  if batch = [] then (s, [])
  else
    let s := batch.foldl (node.take parse) s
    (node.due s).foldl node.writeBar (s, [])

/-- The node from its start on. -/
def machine : Machine Running (List Observation) (List Observation) := ⟨.start, node.receive parse⟩

/-- The observations written in a run. -/
def written (batches : List (List Observation)) : List Observation :=
  ((node.machine parse).trace batches).flatMap Prod.snd

end Tick2Candle

end Opsense
