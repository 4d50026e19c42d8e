import Opsense.Components.LatestCandle
import Opsense.Lib.Magnitude

/-!
# Rows of candles

`row_to_observations` of `opsense-components/src/ohlcv.rs`, and what `candles_from_observations` makes of the rows of candles, in any
order, with others among them and with some of them lost. A candle that keeps a price is read with what is kept of it, and the prices
that are filled in do not leave its order (`candles_round_trip`).
-/

namespace Opsense

namespace Ohlcv

/-- `row_to_observations`, of the bits of the cells after the time. -/
def rowToObservations (ts : Int) (cells : Field → UInt64) (symbol resolution : String) : List Observation :=
  Field.all.map fun field =>
    { ts, metric_id := symbol, kind := .metric, signal := .raw, value := cells field
      labels := ⟨[("field", field.text), ("resolution", resolution)], candleLabels_sorted _ _⟩, severity := none }

/-- A candle in the bits of its cells, with prices above zero between its low and its high. -/
structure Candle where
  t : Int
  cells : Field → UInt64
  positive : ∀ field, field ≠ .v → has (Double.ofBits (cells field)) = true
  volume : Double.Le (.fin 0) (Double.ofBits (cells .v))
  l_le_o : Double.Le (Double.ofBits (cells .l)) (Double.ofBits (cells .o))
  o_le_h : Double.Le (Double.ofBits (cells .o)) (Double.ofBits (cells .h))
  l_le_c : Double.Le (Double.ofBits (cells .l)) (Double.ofBits (cells .c))
  c_le_h : Double.Le (Double.ofBits (cells .c)) (Double.ofBits (cells .h))

/-- The observation of a field of a candle. -/
def Candle.row (symbol resolution : String) (candle : Candle) (field : Field) : Observation :=
  { ts := candle.t, metric_id := symbol, kind := .metric, signal := .raw, value := candle.cells field
    labels := ⟨[("field", field.text), ("resolution", resolution)], candleLabels_sorted _ _⟩, severity := none }

/-- An observation of another resolution, or without the label of a field. -/
def Foreign (resolution : String) (obs : Observation) : Prop :=
  (label obs "field").bind Field.of = none ∨ ∃ res, label obs "resolution" = some res ∧ res ≠ "" ∧ res ≠ resolution

/-- What is kept of candles: some of their rows, and a price of each. -/
structure Kept (symbol resolution : String) (candles : List Candle) (kept : List Observation) : Prop where
  rows : kept.Subperm (candles.flatMap fun candle => rowToObservations candle.t candle.cells symbol resolution)
  price : ∀ candle ∈ candles, ∃ field, field ≠ .v ∧ candle.row symbol resolution field ∈ kept

/-- One candle is read for every time, in the order of times, with the fields that are kept and with its prices in order. -/
def RoundTrips (symbol resolution : String) (candles : List Candle) (kept os : List Observation) : Prop :=
  ((candlesFromObservations os resolution).map fun read => read.t).Pairwise (· < ·) ∧
    (∀ t, t ∈ (candlesFromObservations os resolution).map (fun read => read.t) ↔ t ∈ candles.map Candle.t) ∧
    ∀ candle ∈ candles, ∀ read ∈ candlesFromObservations os resolution, read.t = candle.t →
      (∀ field, candle.row symbol resolution field ∈ kept → valueOf read field = Double.ofBits (candle.cells field)) ∧
        Double.Le read.l read.o ∧ Double.Le read.o read.h ∧ Double.Le read.l read.c ∧ Double.Le read.c read.h

/-! ## Prices that are filled in -/

section Order

variable {a b : Double}

theorem max_of_le (h : Double.Le a b) : a.max b = b := by
  cases a <;> cases b <;> first
    | exact absurd h Bool.false_ne_true
    | rfl
    | exact (Double.max_fin _ _).trans (congrArg _ (max_eq_right (Double.le_fin.mp h)))

theorem max_of_ge (h : Double.Le b a) : a.max b = a := by
  cases a <;> cases b <;> first
    | exact absurd h Bool.false_ne_true
    | rfl
    | exact (Double.max_fin _ _).trans (congrArg _ (max_eq_left (Double.le_fin.mp h)))

theorem min_of_le (h : Double.Le a b) : a.min b = a := by
  cases a <;> cases b <;> first
    | exact absurd h Bool.false_ne_true
    | rfl
    | exact if_neg (Double.partialCmp_lt.not.mpr (not_lt.mpr (Double.le_fin.mp h)))

theorem min_of_ge (h : Double.Le b a) : a.min b = b := by
  cases a <;> cases b <;> first
    | exact absurd h Bool.false_ne_true
    | rfl
    | skip
  rename_i p q
  obtain hlt | rfl := (Double.le_fin.mp h).lt_or_eq
  · exact if_pos (Double.partialCmp_lt.mpr hlt)
  · exact min_of_le h

theorem le_of_has {x : Double} (h : has x = true) : Double.Le (.fin 0) x := by
  cases x with
  | fin q => exact Double.le_fin.mpr (Double.gt_fin.mp h).le
  | posInf => rfl
  | _ => exact absurd h Bool.false_ne_true

/-- The larger and the smaller of two prices bound both. -/
theorem le_max_min (ha : a ≠ .nan) (hb : b ≠ .nan) :
    (Double.Le a (a.max b) ∧ Double.Le b (a.max b)) ∧ Double.Le (a.min b) a ∧ Double.Le (a.min b) b := by
  obtain h | h := Double.le_total ha hb
  · rw [max_of_le h, min_of_le h]
    exact ⟨⟨h, Double.le_refl hb⟩, Double.le_refl ha, h⟩
  · rw [max_of_ge h, min_of_ge h]
    exact ⟨⟨Double.le_refl ha, h⟩, h, Double.le_refl hb⟩

end Order

section Filled

variable {p cells : Cells}

/-- Each of the cells is that of a price or is missing. -/
def Parts (p cells : Cells) : Prop := ∀ field, field ≠ .v → (has (p field) = true ∧ cells field = p field) ∨ cells field = .fin 0

/-- What stands for a missing open or close is between low and high. -/
theorem base_between (hlo : Double.Le (p .l) (p .o)) (hoh : Double.Le (p .o) (p .h)) (hlc : Double.Le (p .l) (p .c))
    (hch : Double.Le (p .c) (p .h)) (hparts : Parts p cells) (hsome : ∃ field, field ≠ .v ∧ has (cells field) = true) :
    ∀ x, x = (if has (cells .c) then cells .c else if has (cells .o) then cells .o else (cells .h).max (cells .l)) →
      Double.Le (p .l) x ∧ Double.Le x (p .h) := by
  have hzero : has (.fin 0) = false := rfl
  have hlh := Double.le_trans hlo hoh
  rintro x rfl
  obtain ⟨hc, ec⟩ | ec := hparts .c (by decide)
  · simp [ec, hc, hlc, hch]
  · obtain ⟨ho, eo⟩ | eo := hparts .o (by decide)
    · simp [ec, eo, ho, hzero, hlo, hoh]
    · simp only [ec, eo, hzero, Bool.false_eq_true, if_false]
      have hne := Double.ne_nan_of_le hlh
      obtain ⟨hh, eh⟩ | eh := hparts .h (by decide) <;> obtain ⟨hl, el⟩ | el := hparts .l (by decide)
      · rw [eh, el, max_of_ge hlh]
        exact ⟨hlh, Double.le_refl hne.2⟩
      · rw [eh, el, max_of_ge (le_of_has hh)]
        exact ⟨hlh, Double.le_refl hne.2⟩
      · rw [eh, el, max_of_le (le_of_has hl)]
        exact ⟨Double.le_refl hne.1, hlh⟩
      · obtain ⟨field, hfield, hhas⟩ := hsome
        cases field <;> simp_all

/-- Prices stay in order when some of them are filled in. -/
theorem filled_ordered {t : Int} (hlo : Double.Le (p .l) (p .o)) (hoh : Double.Le (p .o) (p .h)) (hlc : Double.Le (p .l) (p .c))
    (hch : Double.Le (p .c) (p .h)) (hparts : Parts p cells) (hsome : ∃ field, field ≠ .v ∧ has (cells field) = true) :
    Double.Le (candleOf t cells).l (candleOf t cells).o ∧ Double.Le (candleOf t cells).o (candleOf t cells).h ∧
      Double.Le (candleOf t cells).l (candleOf t cells).c ∧ Double.Le (candleOf t cells).c (candleOf t cells).h := by
  have hbase := base_between hlo hoh hlc hch hparts hsome _ rfl
  have hzero : has (.fin 0) = false := rfl
  have hopen : Double.Le (p .l) (candleOf t cells).o ∧ Double.Le (candleOf t cells).o (p .h) := by
    unfold candleOf reconcile
    obtain ⟨ho, eo⟩ | eo := hparts .o (by decide)
    · simpa [eo, ho] using ⟨hlo, hoh⟩
    · simpa [eo, hzero] using hbase
  have hclose : Double.Le (p .l) (candleOf t cells).c ∧ Double.Le (candleOf t cells).c (p .h) := by
    unfold candleOf reconcile
    obtain ⟨hc, ec⟩ | ec := hparts .c (by decide)
    · simpa [ec, hc] using ⟨hlc, hch⟩
    · simpa [ec, hzero] using hbase
  have hhigh : (candleOf t cells).h = if has (cells .h) then cells .h else (candleOf t cells).o.max (candleOf t cells).c := rfl
  have hlow : (candleOf t cells).l = if has (cells .l) then cells .l else (candleOf t cells).o.min (candleOf t cells).c := rfl
  obtain ⟨hmax, hmin⟩ := le_max_min (Double.ne_nan_of_le hopen.1).2 (Double.ne_nan_of_le hclose.1).2
  obtain ⟨hh, eh⟩ | eh := hparts .h (by decide) <;> obtain ⟨hl, el⟩ | el := hparts .l (by decide) <;>
    simp [*]

end Filled

section Rows

variable {symbol resolution : String} {candles : List Candle} {kept noise os : List Observation}

theorem fieldOf_row (candle : Candle) (field : Field) : fieldOf resolution (candle.row symbol resolution field) = some field := by
  have hfield : (label (candle.row symbol resolution field) "field").bind Field.of = some field := by cases field <;> rfl
  have hresolution : label (candle.row symbol resolution field) "resolution" = some resolution := by
    have hne : ("resolution" == "field") = false := by decide
    simp [label, Candle.row, List.lookup_cons, hne]
  simp [fieldOf, hfield, hresolution]

theorem fieldOf_foreign {obs : Observation} (h : Foreign resolution obs) : fieldOf resolution obs = none := by
  unfold fieldOf
  obtain h | ⟨res, hres, hne⟩ := h
  · rw [h]
  · cases (label obs "field").bind Field.of with
    | none => rfl
    | some field => simp [hres, hne]

/-- A row that is read as one of a candle is what is kept of it. -/
theorem eq_row (hkept : Kept symbol resolution candles kept)
    (hnoise : ∀ obs ∈ noise, Foreign resolution obs) (hperm : os.Perm (kept ++ noise)) {obs : Observation} (hobs : obs ∈ os)
    {field : Field} (hfield : fieldOf resolution obs = some field) :
    ∃ candle ∈ candles, obs = candle.row symbol resolution field ∧ obs ∈ kept := by
  obtain hobs | hobs := List.mem_append.mp (hperm.mem_iff.mp hobs)
  · obtain ⟨candle, hcandle, hrow⟩ := List.mem_flatMap.mp (hkept.rows.subset hobs)
    obtain ⟨field', -, rfl⟩ := List.mem_map.mp hrow
    obtain rfl := Option.some.inj ((fieldOf_row candle field').symm.trans hfield)
    exact ⟨candle, hcandle, rfl, hobs⟩
  · rw [fieldOf_foreign (hnoise obs hobs)] at hfield
    cases hfield

/-- A field of a candle has the value that is kept of it. -/
theorem cellsAt_kept (htimes : (candles.map Candle.t).Nodup) (hkept : Kept symbol resolution candles kept)
    (hnoise : ∀ obs ∈ noise, Foreign resolution obs) (hperm : os.Perm (kept ++ noise)) {candle : Candle} (hcandle : candle ∈ candles)
    (field : Field) :
    (candle.row symbol resolution field ∈ kept ∧ cellsAt resolution candle.t os field = Double.ofBits (candle.cells field)) ∨
      (candle.row symbol resolution field ∉ kept ∧ cellsAt resolution candle.t os field = .fin 0) := by
  have hrow : ∀ obs ∈ os, obs.ts = candle.t ∧ fieldOf resolution obs = some field → obs = candle.row symbol resolution field ∧ obs ∈ kept := by
    rintro obs hobs ⟨hts, hfield⟩
    obtain ⟨candle', hcandle', rfl, hmem⟩ := eq_row hkept hnoise hperm hobs hfield
    obtain rfl := List.inj_on_of_nodup_map htimes hcandle' hcandle hts
    exact ⟨rfl, hmem⟩
  unfold cellsAt
  by_cases hmem : candle.row symbol resolution field ∈ kept
  · left
    cases hlast : lastValue resolution candle.t field os with
    | none =>
      exact absurd ⟨rfl, fieldOf_row candle field⟩
        (lastValue_eq_none.mp hlast _ (hperm.mem_iff.mpr (List.mem_append_left _ hmem)))
    | some value =>
      obtain ⟨obs, hobs, hobs', rfl⟩ := row_of_lastValue hlast
      obtain ⟨rfl, -⟩ := hrow obs hobs hobs'
      exact ⟨hmem, rfl⟩
  · right
    rw [lastValue_eq_none.mpr fun obs hobs hobs' => ?_]
    · exact ⟨hmem, rfl⟩
    · obtain ⟨rfl, hin⟩ := hrow obs hobs hobs'
      exact hmem hin

/-- Candles that are taken apart to rows are read again, whatever the order of the rows and whatever else is among them, when a price of
each is kept. -/
theorem candles_round_trip (symbol resolution : String) (candles : List Candle) (kept noise os : List Observation)
    (htimes : (candles.map Candle.t).Nodup) (hkept : Kept symbol resolution candles kept)
    (hnoise : ∀ obs ∈ noise, Foreign resolution obs) (hperm : os.Perm (kept ++ noise)) :
    RoundTrips symbol resolution candles kept os := by
  have hprice : ∀ candle ∈ candles, ∃ obs ∈ os, IsRow resolution candle.t obs := by
    intro candle hcandle
    obtain ⟨field, -, hmem⟩ := hkept.price candle hcandle
    exact ⟨_, hperm.mem_iff.mpr (List.mem_append_left _ hmem), rfl, by rw [fieldOf_row]; rfl⟩
  have hread : (candlesFromObservations os resolution).map (fun read => read.t) =
      Groups.inOrder (os.foldl (takeRow resolution) ∅).keys := by
    unfold candlesFromObservations
    rw [List.map_map]
    exact List.map_id _
  refine ⟨?_, fun t => ?_, ?_⟩
  · rw [hread]
    exact (Finset.sortedLT_sort _).pairwise
  · rw [hread, Groups.inOrder, Finset.mem_sort, Finmap.mem_keys, ← Finmap.lookup_isSome, lookup_rows, List.mem_map]
    constructor
    · intro h
      split_ifs at h with hrow
      · obtain ⟨obs, hobs, rfl, hsome⟩ := hrow
        obtain ⟨field, hfield⟩ := Option.isSome_iff_exists.mp hsome
        obtain ⟨candle, hcandle, rfl, -⟩ := eq_row hkept hnoise hperm hobs hfield
        exact ⟨candle, hcandle, rfl⟩
      · cases h
    · rintro ⟨candle, hcandle, rfl⟩
      rw [if_pos (hprice candle hcandle)]
      rfl
  · intro candle hcandle read hin hts
    have hmem : read ∈ (candlesFromObservations os resolution).filter fun read => read.t = candle.t :=
      List.mem_filter.mpr ⟨hin, decide_eq_true hts⟩
    rw [candles_at, if_pos (hprice candle hcandle), List.mem_singleton] at hmem
    subst hmem
    have hcells := cellsAt_kept htimes hkept hnoise hperm hcandle
    constructor
    · intro field hfield
      obtain ⟨-, hcell⟩ | ⟨hnot, -⟩ := hcells field
      · rw [← hcell]
        refine valueOf_candleOf _ ?_
        rw [hcell]
        cases field with
        | v => exact max_of_ge candle.volume
        | _ => exact candle.positive _ (by decide)
      · exact absurd hfield hnot
    · refine filled_ordered candle.l_le_o candle.o_le_h candle.l_le_c candle.c_le_h (p := fun field => Double.ofBits (candle.cells field)) ?_ ?_
      · intro field hne
        exact (hcells field).imp (fun h => ⟨candle.positive field hne, h.2⟩) fun h => h.2
      · obtain ⟨field, hne, hmem⟩ := hkept.price candle hcandle
        refine ⟨field, hne, ?_⟩
        obtain ⟨-, hcell⟩ | ⟨hnot, -⟩ := hcells field
        · rw [hcell]
          exact candle.positive field hne
        · exact absurd hmem hnot

/-- A candle of the price 1.0 at a time, without volume. -/
def flat (t : Int) : Candle :=
  { t, cells := fun field => if field = .v then 0 else 0x3FF0000000000000
    positive := fun field h => by
      rw [if_neg h]
      decide +kernel
    volume := by decide +kernel, l_le_o := by decide +kernel, o_le_h := by decide +kernel, l_le_c := by decide +kernel,
    c_le_h := by decide +kernel }

/-- Of two candles the close of the one and the high of the other, the later one first, and an open of another resolution. -/
theorem candles_round_trip_two :
    RoundTrips "X" "1m" [flat 1, flat 2] [(flat 2).row "X" "1m" .h, (flat 1).row "X" "1m" .c]
      [(flat 2).row "X" "1m" .h, (flat 3).row "X" "1D" .o, (flat 1).row "X" "1m" .c] := by
  refine candles_round_trip "X" "1m" [flat 1, flat 2] [(flat 2).row "X" "1m" .h, (flat 1).row "X" "1m" .c]
    [(flat 3).row "X" "1D" .o] _ (by decide) ⟨by decide +kernel, ?_⟩ ?_ (by decide +kernel)
  · intro candle hcandle
    obtain rfl | rfl := List.mem_pair.mp hcandle
    · exact ⟨.c, by decide, by simp⟩
    · exact ⟨.h, by decide, by simp⟩
  · intro obs hobs
    obtain rfl := List.mem_singleton.mp hobs
    exact .inr ⟨"1D", by decide, by decide, by decide⟩

/-- A row without a resolution is read as one of any resolution. -/
theorem empty_resolution_is_read : label ((flat 2).row "X" "" .o) "resolution" = some "" ∧
    ¬RoundTrips "X" "1m" [flat 1] [(flat 1).row "X" "1m" .o] [(flat 1).row "X" "1m" .o, (flat 2).row "X" "" .o] := by
  refine ⟨by decide, fun h => ?_⟩
  have hread := candles_at "1m" 2 [(flat 1).row "X" "1m" .o, (flat 2).row "X" "" .o]
  rw [if_pos ⟨(flat 2).row "X" "" .o, by simp, by decide +kernel⟩] at hread
  have hmem := (List.mem_filter.mp (hread.symm ▸ List.mem_singleton_self _)).1
  exact absurd ((h.2.1 2).mp (List.mem_map.mpr ⟨_, hmem, rfl⟩)) (by decide)

end Rows

end Ohlcv

end Opsense
