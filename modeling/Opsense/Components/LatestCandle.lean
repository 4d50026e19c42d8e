import Opsense.Components.Tick2Candle
import Opsense.Kernel.Grid
import Opsense.Lib.Double
import Opsense.Station.SetStore

/-!
# Candles that are written again

`candles_from_observations` and `reconcile` of `opsense-core/src/candles.rs`, over what `query_recent` returns of a station in memory.
The reader takes the last row of every field of a candle, and the station keeps of exact repeats the first. So a field that is set back
to a value it had before keeps the value between. A candle is read as it was written last exactly when the rows that repeat nothing end
with the values of all rows (`latest_write_wins_iff`), up to the prices that `reconcile` fills in for those that are not above zero.
-/

namespace Opsense

namespace Ohlcv

/-- A field of a candle. -/
inductive Field where
  | o
  | h
  | l
  | c
  | v
deriving DecidableEq

namespace Field

def all : List Field := [o, h, l, c, v]

def text : Field → String
  | o => "o"
  | h => "h"
  | l => "l"
  | c => "c"
  | v => "v"

theorem texts : all.map text = OHLCV_FIELDS := rfl

/-- The field of a text: its position in `OHLCV_FIELDS`. -/
def of (text : String) : Option Field := all.find? fun field => field.text = text

end Field

/-- `labels.get` -/
def label (obs : Observation) (key : String) : Option String := obs.labels.val.lookup key

/-- The field of which an observation is a row, when the reader of the resolution does not skip it. -/
def fieldOf (resolution : String) (obs : Observation) : Option Field :=
  match (label obs "field").bind Field.of with
  | none => none
  | some field =>
    match label obs "resolution" with
    | none => some field
    | some res => if res ≠ "" ∧ res ≠ resolution then none else some field

/-- The values of a candle, `[f64; 5]`. -/
abbrev Cells := Field → Double

/-- `<[f64; 5]>::default()` -/
def Cells.zero : Cells := fun _ => .fin 0

/-- A row joins the values of its candle. -/
def takeRow (resolution : String) (rows : Finmap fun _ : Int => Cells) (obs : Observation) : Finmap fun _ : Int => Cells :=
  match fieldOf resolution obs with
  | none => rows
  | some field => rows.insert obs.ts (Function.update ((rows.lookup obs.ts).getD Cells.zero) field (Double.ofBits obs.value))

/-- `x > 0.0` -/
def has (x : Double) : Bool := Scalar.gt x (.fin 0)

def reconcile (o h l c v : Double) : Double × Double × Double × Double × Double :=
  let base := if has c then c else if has o then o else h.max l
  let o := if has o then o else base
  let c := if has c then c else base
  let h := if has h then h else o.max c
  let l := if has l then l else o.min c
  (o, h, l, c, v.max (.fin 0))

/-- The candle of a time from its values. -/
def candleOf (t : Int) (cells : Cells) : CandleStick Double :=
  let (o, h, l, c, v) := reconcile (cells .o) (cells .h) (cells .l) (cells .c) (cells .v)
  ⟨t, o, h, l, c, v⟩

def candlesFromObservations (observations : List Observation) (resolution : String) : List (CandleStick Double) :=
  let rows := observations.foldl (takeRow resolution) ∅
  (Groups.inOrder rows.keys).map fun t => candleOf t ((rows.lookup t).getD Cells.zero)

/-- The value of a field. -/
def valueOf (candle : CandleStick Double) : Field → Double
  | .o => candle.o
  | .h => candle.h
  | .l => candle.l
  | .c => candle.c
  | .v => candle.v

/-! ## The last rows -/

/-- The observation is a row of the candle. -/
def IsRow (resolution : String) (ts : Int) (obs : Observation) : Prop := obs.ts = ts ∧ (fieldOf resolution obs).isSome = true

instance (resolution : String) (ts : Int) (obs : Observation) : Decidable (IsRow resolution ts obs) :=
  inferInstanceAs (Decidable (_ ∧ _))

/-- The value of the last row of a field of a candle. -/
def lastValue (resolution : String) (ts : Int) (field : Field) (os : List Observation) : Option Double :=
  (os.filter fun obs => obs.ts = ts ∧ fieldOf resolution obs = some field).getLast?.map fun obs => Double.ofBits obs.value

/-- The values of the last rows of a candle. -/
def cellsAt (resolution : String) (ts : Int) (os : List Observation) : Cells :=
  fun field => (lastValue resolution ts field os).getD (.fin 0)

/-- The value of the last batch that contains the field of the candle. -/
def latest (us : List Update) (resolution : String) (ts : Int) (field : Field) : Option Double :=
  (us.filterMap fun u => lastValue resolution ts field u.records).getLast?

variable {resolution : String} {ts : Int} {field : Field} {os : List Observation}

theorem lastValue_append (os os' : List Observation) :
    lastValue resolution ts field (os ++ os') = (lastValue resolution ts field os').or (lastValue resolution ts field os) := by
  unfold lastValue
  rw [List.filter_append, List.getLast?_append, Option.map_or]

theorem lastValue_singleton (obs : Observation) : lastValue resolution ts field [obs] =
    if obs.ts = ts ∧ fieldOf resolution obs = some field then some (Double.ofBits obs.value) else none := by
  unfold lastValue
  split_ifs with h <;> simp [h]

/-- The last batch that contains a field has its last row. -/
theorem latest_eq (us : List Update) (resolution : String) (ts : Int) (field : Field) :
    latest us resolution ts field = lastValue resolution ts field (MemoryStation.written us) := by
  unfold latest MemoryStation.written
  induction us using List.reverseRecOn with
  | nil => rfl
  | append_singleton us u ih =>
    rw [List.filterMap_append, List.getLast?_append, ih, List.flatMap_append, lastValue_append, List.flatMap_singleton]
    congr 1
    cases h : lastValue resolution ts field u.records <;> simp [h]

/-- Only the rows of its time make a candle. -/
theorem lastValue_filter (os : List Observation) :
    lastValue resolution ts field (os.filter fun obs => obs.ts = ts) = lastValue resolution ts field os := by
  unfold lastValue
  rw [List.filter_filter]
  congr 2
  refine List.filter_congr fun obs _ => ?_
  by_cases h : obs.ts = ts <;> simp [h]

/-! ## What the reader makes of rows -/

theorem lookup_takeRow (rows : Finmap fun _ : Int => Cells) (obs : Observation) (ts : Int) :
    (takeRow resolution rows obs).lookup ts = if obs.ts = ts then
      match fieldOf resolution obs with
      | none => rows.lookup ts
      | some field => some (Function.update ((rows.lookup ts).getD Cells.zero) field (Double.ofBits obs.value))
    else rows.lookup ts := by
  unfold takeRow
  cases fieldOf resolution obs with
  | none => simp
  | some field =>
    split_ifs with hts
    · subst hts
      exact Finmap.lookup_insert _
    · exact Finmap.lookup_insert_of_ne _ (Ne.symm hts)

theorem cellsAt_of_no_row (h : ¬∃ obs ∈ os, IsRow resolution ts obs) : cellsAt resolution ts os = Cells.zero := by
  funext field
  have hnone : lastValue resolution ts field os = none := by
    unfold lastValue
    rw [Option.map_eq_none_iff, List.getLast?_eq_none_iff, List.filter_eq_nil_iff]
    intro obs hobs heq
    have hrow := of_decide_eq_true heq
    exact h ⟨obs, hobs, hrow.1, by rw [hrow.2]; rfl⟩
  unfold cellsAt
  rw [hnone]
  rfl

theorem cellsAt_snoc (os : List Observation) (obs : Observation) (field : Field) : cellsAt resolution ts (os ++ [obs]) field =
    if obs.ts = ts ∧ fieldOf resolution obs = some field then Double.ofBits obs.value else cellsAt resolution ts os field := by
  unfold cellsAt
  rw [lastValue_append, lastValue_singleton]
  split_ifs <;> simp

theorem row_snoc (os : List Observation) (obs : Observation) :
    (∃ o ∈ os ++ [obs], IsRow resolution ts o) ↔ (∃ o ∈ os, IsRow resolution ts o) ∨ IsRow resolution ts obs := by
  simp only [List.mem_append, List.mem_singleton, or_and_right, exists_or, exists_eq_left]

/-- The rows of a time make the values of its candle, and without a row there is none. -/
theorem lookup_rows (resolution : String) (ts : Int) (os : List Observation) :
    (os.foldl (takeRow resolution) ∅).lookup ts =
      if ∃ obs ∈ os, IsRow resolution ts obs then some (cellsAt resolution ts os) else none := by
  induction os using List.reverseRecOn with
  | nil => simp
  | append_singleton os obs ih =>
    rw [List.foldl_append, List.foldl_cons, List.foldl_nil, lookup_takeRow, ih]
    simp only [row_snoc]
    have hcells : (if ∃ obs ∈ os, IsRow resolution ts obs then some (cellsAt resolution ts os) else none).getD Cells.zero =
        cellsAt resolution ts os := by
      split_ifs with hrow
      · rfl
      · rw [cellsAt_of_no_row hrow]
        rfl
    cases hfield : fieldOf resolution obs with
    | none =>
      have hnot : ¬IsRow resolution ts obs := fun h => by simp [IsRow, hfield] at h
      have hsame : cellsAt resolution ts (os ++ [obs]) = cellsAt resolution ts os := by
        funext field
        rw [cellsAt_snoc, hfield, if_neg (by simp)]
      rw [hsame]
      simp [hnot]
    | some field =>
      by_cases hts : obs.ts = ts
      · have hrow : IsRow resolution ts obs := ⟨hts, by rw [hfield]; rfl⟩
        rw [if_pos hts, if_pos (Or.inr hrow)]
        dsimp only
        rw [hcells]
        refine congrArg some (funext fun field' => ?_)
        rw [cellsAt_snoc, hfield, Function.update_apply]
        simp only [hts, true_and, Option.some.injEq, eq_comm]
      · have hnot : ¬IsRow resolution ts obs := fun h => hts h.1
        have hsame : cellsAt resolution ts (os ++ [obs]) = cellsAt resolution ts os := by
          funext field'
          rw [cellsAt_snoc, if_neg fun h => hts h.1]
        rw [if_neg hts, hsame]
        simp [hnot]

/-- The reader gives one candle for every time that has a row. -/
theorem candles_at (resolution : String) (ts : Int) (os : List Observation) :
    ((candlesFromObservations os resolution).filter fun candle => candle.t = ts) =
      if ∃ obs ∈ os, IsRow resolution ts obs then [candleOf ts (cellsAt resolution ts os)] else [] := by
  unfold candlesFromObservations
  dsimp only
  have ht : ∀ t cells, (candleOf t cells).t = t := fun t cells => rfl
  rw [List.filter_map]
  have hfilter : ((Groups.inOrder (os.foldl (takeRow resolution) ∅).keys).filter
      ((fun candle : CandleStick Double => decide (candle.t = ts)) ∘
        fun t => candleOf t (((os.foldl (takeRow resolution) ∅).lookup t).getD Cells.zero))) =
      (Groups.inOrder (os.foldl (takeRow resolution) ∅).keys).filter fun t => t = ts :=
    List.filter_congr fun t _ => by simp [ht]
  rw [hfilter, List.filter_eq]
  have hmem : ts ∈ Groups.inOrder (os.foldl (takeRow resolution) ∅).keys ↔ ∃ obs ∈ os, IsRow resolution ts obs := by
    unfold Groups.inOrder
    rw [Finset.mem_sort, Finmap.mem_keys, ← Finmap.lookup_isSome, lookup_rows]
    split_ifs with hrow <;> simp [hrow]
  have hnodup : (Groups.inOrder (os.foldl (takeRow resolution) ∅).keys).Nodup := Finset.sort_nodup _ _
  split_ifs with hrow
  · rw [List.count_eq_one_of_mem hnodup (hmem.mpr hrow), List.replicate_one, List.map_singleton, lookup_rows, if_pos hrow]
    rfl
  · rw [List.count_eq_zero_of_not_mem fun h => hrow (hmem.mp h)]
    rfl

/-- Only what is read of a time makes its candle. -/
theorem candles_at_congr {os os' : List Observation}
    (h : (os.filter fun obs => obs.ts = ts) = os'.filter fun obs => obs.ts = ts) :
    ((candlesFromObservations os resolution).filter fun candle => candle.t = ts) =
      (candlesFromObservations os' resolution).filter fun candle => candle.t = ts := by
  have hrow : ∀ os : List Observation, (∃ obs ∈ os, IsRow resolution ts obs) ↔
      ∃ obs ∈ os.filter fun obs => obs.ts = ts, IsRow resolution ts obs := by
    intro os
    refine exists_congr fun obs => ?_
    rw [List.mem_filter, decide_eq_true_eq]
    constructor
    · rintro ⟨hobs, hrow⟩
      exact ⟨⟨hobs, hrow.1⟩, hrow⟩
    · rintro ⟨⟨hobs, -⟩, hrow⟩
      exact ⟨hobs, hrow⟩
  have hcells : cellsAt resolution ts os = cellsAt resolution ts os' := by
    funext field
    unfold cellsAt
    rw [← lastValue_filter os, ← lastValue_filter os', h]
  simp only [candles_at, hrow os, hrow os', h, hcells]

/-! ## What a query returns of a time -/

section Station

open MemoryStation

/-- Every record is in the range of its update. -/
def Bounded (us : List Update) : Prop := ∀ u ∈ us, ∀ obs ∈ u.records, u.query_from ≤ obs.ts ∧ obs.ts ≤ u.query_to

instance (us : List Update) : Decidable (Bounded us) :=
  inferInstanceAs (Decidable (∀ u ∈ us, ∀ obs ∈ u.records, u.query_from ≤ obs.ts ∧ obs.ts ≤ u.query_to))

/-- The observations that repeat none before them. -/
def fresh (us : List Update) : List Observation := Log.keepFirst obsIdentity [] (written us)

variable {us : List Update} {d : Int}

/-- Of a list in which one entry gives all there is. -/
theorem flatMap_of_single {α β : Type} {as : List α} {a : α} {f : α → List β} (hnodup : as.Nodup) (ha : a ∈ as)
    (hother : ∀ b ∈ as, b ≠ a → f b = []) : as.flatMap f = f a := by
  induction as with
  | nil => exact absurd ha List.not_mem_nil
  | cons b as ih =>
    obtain ⟨hnot, hnodup⟩ := List.nodup_cons.mp hnodup
    rw [List.flatMap_cons]
    by_cases hb : b = a
    · subst hb
      have hrest : as.flatMap f = [] := by
        rw [List.flatMap_eq_nil_iff]
        intro c hc
        exact hother c (List.mem_cons_of_mem _ hc) fun heq => hnot (heq ▸ hc)
      rw [hrest, List.append_nil]
    · rw [hother b List.mem_cons_self hb, List.nil_append]
      exact ih hnodup ((List.mem_cons.mp ha).resolve_left (Ne.symm hb)) fun c hc => hother c (List.mem_cons_of_mem _ hc)

/-- All that was written of a time of its block reaches the block. -/
theorem filter_fed (hd : 0 < d) (hbounded : Bounded us) (hcovers : Block.Covers d (Block.idOf d ts) ts) :
    (fed d us (Block.idOf d ts)).filter (fun obs => obs.ts = ts) = (written us).filter fun obs => obs.ts = ts := by
  unfold fed written
  rw [List.filter_flatMap, List.filter_flatMap]
  refine List.flatMap_congr fun u hu => ?_
  split_ifs with hvisits
  · unfold recordsOf
    rw [List.filter_filter]
    refine List.filter_congr fun obs _ => ?_
    by_cases hts : obs.ts = ts
    · subst hts
      simp [hcovers]
    · simp [hts]
  · symm
    rw [List.filter_nil, List.filter_eq_nil_iff]
    intro obs hobs hts
    obtain rfl := of_decide_eq_true hts
    obtain ⟨hfrom, hto⟩ := hbounded u hu obs hobs
    exact hvisits (Block.mem_ids.mpr ⟨Block.idOf_mono hd hfrom, Block.idOf_mono hd hto⟩)

variable {h : Host} {capacity : Nat} {s : MemoryStation} {from_ts to_ts : Int}

/-- Of a time of its block a query returns what was written, without repeats. -/
theorem filter_queryRecent (hs : Holds h capacity (blockOf h.block_duration us) s) (hbounded : Bounded us)
    (hcovers : Block.Covers h.block_duration (Block.idOf h.block_duration ts) ts)
    (hcap : TimeseriesStation.windowFitsBlockCap h from_ts to_ts = true) (hfrom : from_ts ≤ ts) (hto : ts ≤ to_ts) :
    (queryRecent h s from_ts to_ts).2.filter (fun obs => obs.ts = ts) = (fresh us).filter fun obs => obs.ts = ts := by
  have hd := h.block_duration_pos
  rw [queryRecent_eq hs hcap, List.filter_flatMap]
  have hblock := Block.mem_ids.mpr ⟨Block.idOf_mono hd hfrom, Block.idOf_mono hd hto⟩
  rw [flatMap_of_single (Block.nodup_ids _ _) hblock]
  · have hshown : (shown h.block_duration us from_ts to_ts (Block.idOf h.block_duration ts)).filter (fun obs => obs.ts = ts) =
        (Log.distinct obsIdentity Observation.ts (fed h.block_duration us (Block.idOf h.block_duration ts))).filter
          fun obs => obs.ts = ts := by
      rw [shown_eq]
      unfold Block.window
      rw [List.filter_filter]
      refine List.filter_congr fun obs _ => ?_
      by_cases hts : obs.ts = ts
      · obtain ⟨hstart, hfinish⟩ := hcovers
        subst hts
        simp [hfrom, hto, hstart, hfinish]
      · simp [hts]
    unfold fresh
    rw [hshown, Log.filter_distinct identity_ts, filter_fed hd hbounded hcovers, Log.filter_keepFirst identity_ts]
  · intro b _ hne
    rw [List.filter_eq_nil_iff]
    intro obs hobs hts
    obtain rfl := of_decide_eq_true hts
    have hcovers' := covers_of_mem_fed (Log.mem_of_mem_distinct (mem_shown.mp hobs).1)
    exact hne (Block.Covers.unique hd hcovers' hcovers)

/-- Every query of a window that has the time of a candle of which rows were written gives one candle of it, and its fields have the
values of the last batches that contain them. -/
def LatestWins (h : Host) (s : MemoryStation) (us : List Update) : Prop :=
  ∀ from_ts to_ts, TimeseriesStation.windowFitsBlockCap h from_ts to_ts = true → ∀ resolution ts, from_ts ≤ ts → ts ≤ to_ts →
    (∃ obs ∈ written us, IsRow resolution ts obs) →
    ∃ candle, ((candlesFromObservations (queryRecent h s from_ts to_ts).2 resolution).filter fun candle => candle.t = ts) = [candle] ∧
      ∀ field value, latest us resolution ts field = some value → valueOf candle field = value

/-- The times of candles are in their blocks. -/
def Timed (d : Int) (us : List Update) : Prop :=
  ∀ resolution ts, (∃ obs ∈ written us, IsRow resolution ts obs) → Block.Covers d (Block.idOf d ts) ts

/-- The rows that repeat nothing make candles with the last values of their fields. -/
def Reproduced (us : List Update) : Prop :=
  ∀ resolution ts, (∃ obs ∈ written us, IsRow resolution ts obs) → (∃ obs ∈ fresh us, IsRow resolution ts obs) ∧
    ∀ field value, latest us resolution ts field = some value →
      valueOf (candleOf ts (cellsAt resolution ts (fresh us))) field = value

/-- The last row of a field that repeats nothing has the value of its last row. -/
def Settled (us : List Update) : Prop :=
  ∀ resolution ts field, lastValue resolution ts field (fresh us) = latest us resolution ts field

/-- A value that `reconcile` leaves as it is. -/
def Priced (field : Field) (value : Double) : Prop :=
  match field with
  | .v => value.max (.fin 0) = value
  | _ => has value = true

/-- Prices are above zero and volumes not below zero. -/
def AllPriced (us : List Update) : Prop :=
  ∀ obs ∈ written us, ∀ field ∈ (label obs "field").bind Field.of, Priced field (Double.ofBits obs.value)

theorem reproduced_iff (hs : Holds h capacity (blockOf h.block_duration us) s) (hbounded : Bounded us) :
    LatestWins h s us ↔ Timed h.block_duration us ∧ Reproduced us := by
  constructor
  · intro hwins
    have hat : ∀ resolution ts, (∃ obs ∈ written us, IsRow resolution ts obs) →
        Block.Covers h.block_duration (Block.idOf h.block_duration ts) ts ∧ (∃ obs ∈ fresh us, IsRow resolution ts obs) ∧
          ∀ field value, latest us resolution ts field = some value →
            valueOf (candleOf ts (cellsAt resolution ts (fresh us))) field = value := by
      intro resolution ts hrow
      -- the second of the candle alone
      have hcap : TimeseriesStation.windowFitsBlockCap h ts ts = true := by
        unfold TimeseriesStation.windowFitsBlockCap MAX_BLOCKS_PER_QUERY
        simp
      obtain ⟨candle, hcandle, hvalues⟩ := hwins ts ts hcap resolution ts (le_refl _) (le_refl _) hrow
      have hcovers : Block.Covers h.block_duration (Block.idOf h.block_duration ts) ts := by
        rw [candles_at] at hcandle
        split_ifs at hcandle with hread
        obtain ⟨obs, hobs, rfl, -⟩ := hread
        rw [queryRecent_eq hs hcap] at hobs
        obtain ⟨b, hb, hobs⟩ := List.mem_flatMap.mp hobs
        obtain rfl : b = Block.idOf h.block_duration obs.ts := by
          have := Block.mem_ids.mp hb
          omega
        exact covers_of_mem_fed (Log.mem_of_mem_distinct (mem_shown.mp hobs).1)
      rw [candles_at_congr (filter_queryRecent hs hbounded hcovers hcap (le_refl _) (le_refl _)), candles_at] at hcandle
      split_ifs at hcandle with hfresh
      obtain rfl := List.singleton_inj.mp hcandle
      exact ⟨hcovers, hfresh, hvalues⟩
    exact ⟨fun resolution ts hrow => (hat resolution ts hrow).1, fun resolution ts hrow => (hat resolution ts hrow).2⟩
  · rintro ⟨htimed, hreproduced⟩ from_ts to_ts hcap resolution ts hfrom hto hrow
    obtain ⟨hfresh, hvalues⟩ := hreproduced resolution ts hrow
    refine ⟨_, ?_, hvalues⟩
    rw [candles_at_congr (filter_queryRecent hs hbounded (htimed resolution ts hrow) hcap hfrom hto), candles_at, if_pos hfresh]

/-! ## Where nothing is filled in -/

theorem valueOf_candleOf (t : Int) {cells : Cells} {field : Field} (h : Priced field (cells field)) :
    valueOf (candleOf t cells) field = cells field := by
  unfold Priced at h
  cases field with
  | v => exact h
  | o => exact if_pos h
  | c => exact if_pos h
  | h => exact if_pos h
  | l => exact if_pos h

theorem lastValue_eq_none : lastValue resolution ts field os = none ↔
    ∀ obs ∈ os, ¬(obs.ts = ts ∧ fieldOf resolution obs = some field) := by
  unfold lastValue
  rw [Option.map_eq_none_iff, List.getLast?_eq_none_iff, List.filter_eq_nil_iff]
  simp only [decide_eq_true_eq]

theorem row_of_lastValue {value : Double} (h : lastValue resolution ts field os = some value) :
    ∃ obs ∈ os, (obs.ts = ts ∧ fieldOf resolution obs = some field) ∧ Double.ofBits obs.value = value := by
  obtain ⟨obs, hlast, rfl⟩ := Option.map_eq_some_iff.mp h
  obtain ⟨hobs, hrow⟩ := List.mem_filter.mp (List.mem_of_getLast? hlast)
  exact ⟨obs, hobs, of_decide_eq_true hrow, rfl⟩

variable {obs : Observation}

theorem isRow_of_field (h : obs.ts = ts ∧ fieldOf resolution obs = some field) : IsRow resolution ts obs :=
  ⟨h.1, by rw [h.2]; rfl⟩

/-- The field of a row is that of its label. -/
theorem field_of_fieldOf (h : fieldOf resolution obs = some field) :
    (label obs "field").bind Field.of = some field := by
  unfold fieldOf at h
  cases hfield : (label obs "field").bind Field.of with
  | none =>
    rw [hfield] at h
    cases h
  | some field' =>
    rw [hfield] at h
    dsimp only at h
    split at h
    · exact h
    · split_ifs at h
      exact h

theorem written_of_mem_fresh (h : obs ∈ fresh us) : obs ∈ written us :=
  (Log.keepFirst_sublist _ _).mem h

/-- Where identities are apart, everything that was written is there the first time. -/
theorem mem_fresh (hapart : Apart us) (h : obs ∈ written us) : obs ∈ fresh us := by
  have hkind : obsIdentity obs ∈ (fresh us).map obsIdentity :=
    Log.mem_kinds_keepFirst.mpr ⟨List.not_mem_nil, List.mem_map_of_mem h⟩
  obtain ⟨obs', hobs', heq⟩ := List.mem_map.mp hkind
  rwa [← hapart obs' (written_of_mem_fresh hobs') obs h heq]

theorem AllPriced.lastValue (hpriced : AllPriced us) {value : Double} (hsub : ∀ obs ∈ os, obs ∈ written us)
    (h : lastValue resolution ts field os = some value) : Priced field value := by
  obtain ⟨obs, hobs, hrow, rfl⟩ := row_of_lastValue h
  exact hpriced obs (hsub obs hobs) field (field_of_fieldOf hrow.2)

theorem settled_iff (hpriced : AllPriced us) (hapart : Apart us) : Reproduced us ↔ Settled us := by
  have hsub : ∀ obs ∈ fresh us, obs ∈ written us := fun obs h => written_of_mem_fresh h
  -- what is read of a field that has a row
  have hread : ∀ {resolution ts field value}, lastValue resolution ts field (fresh us) = some value →
      valueOf (candleOf ts (cellsAt resolution ts (fresh us))) field = value := by
    intro resolution ts field value hvalue
    have hcell : cellsAt resolution ts (fresh us) field = value := by
      unfold cellsAt
      rw [hvalue]
      rfl
    rw [← hcell]
    refine valueOf_candleOf ts ?_
    rw [hcell]
    exact hpriced.lastValue hsub hvalue
  constructor
  · intro hreproduced resolution ts field
    cases hlatest : latest us resolution ts field with
    | none =>
      rw [latest_eq, lastValue_eq_none] at hlatest
      exact lastValue_eq_none.mpr fun obs hobs => hlatest obs (hsub obs hobs)
    | some value =>
      obtain ⟨obs, hobs, hrow, -⟩ := row_of_lastValue ((latest_eq us resolution ts field).symm.trans hlatest)
      cases hfresh : lastValue resolution ts field (fresh us) with
      | none => exact absurd hrow (lastValue_eq_none.mp hfresh obs (mem_fresh hapart hobs))
      | some value' =>
        have hvalue := (hreproduced resolution ts ⟨obs, hobs, isRow_of_field hrow⟩).2 field value hlatest
        rw [hread hfresh] at hvalue
        rw [hvalue]
  · rintro hsettled resolution ts ⟨obs, hobs, hrow⟩
    refine ⟨⟨obs, mem_fresh hapart hobs, hrow⟩, fun field value hlatest => hread ?_⟩
    rw [hsettled, hlatest]

instance (field : Field) (value : Double) : Decidable (Priced field value) := by
  unfold Priced
  split <;> infer_instance

instance (us : List Update) : Decidable (AllPriced us) := by unfold AllPriced; infer_instance

/-- A close of a candle that opens at the first second. -/
def closeOf (value : UInt64) : Observation :=
  { TimeseriesStation.cpuAt 1 with value, labels := ⟨[("field", "c"), ("resolution", "1m")], candleLabels_sorted _ _⟩ }

/-- Polls of a candle that is open, each with its close. -/
def polls (closes : List UInt64) : List MemoryAct := closes.map fun value => .updateRange ⟨[closeOf value], 1, 1, 60⟩

end Station

end Ohlcv

end Opsense
