import Opsense.Kernel.Forward
import Opsense.Lib.Text

/-!
# The backtest loop

`Portfolio::evaluate` repeats the kernel until the cursor reaches the end of the window, with the candles of a loader. Of the
calendars `CryptoCalendar` is modelled, of the two ways to fetch the one without the block cache. Sums of times wrap, as they
do in a release build. The clock and the loader may answer differently each time they are asked.
-/

namespace Opsense

/-! ## The calendar -/

/-- The seconds of a resolution; one that is not known is read as a number of seconds, else as a minute. -/
def toTimestampSecs (resolution : String) : Nat :=
  if resolution = "1" ∨ resolution = "1m" then 60
  else if resolution = "5" ∨ resolution = "5m" then 300
  else if resolution = "15" ∨ resolution = "15m" then 900
  else if resolution = "30" ∨ resolution = "30m" then 1800
  else if resolution = "1H" ∨ resolution = "60" then 3600
  else if resolution = "4H" then 14400
  else if resolution = "1D" then 86400
  else (parseU64 (resolution.toList.reverse.dropWhile fun c => !c.isDigit).reverse).getD 60

theorem toTimestampSecs_lt (resolution : String) : toTimestampSecs resolution < 2 ^ 64 := by
  unfold toTimestampSecs
  split_ifs
  all_goals try decide
  cases h : parseU64 (resolution.toList.reverse.dropWhile fun c => !c.isDigit).reverse with
  | none => decide
  | some n => exact parseU64_lt h

/-- `CryptoCalendar`: the market never closes, and an order is settled at once. -/
def cryptoCalendar : Calendar where
  next current_ts resolution := (current_ts + toTimestampSecs resolution) % 2 ^ 64
  settlementCandles := 0

/-! ## The loader -/

/-- A `DataLoader`, by what it answers to the `n`-th request of a fetch for a range at a resolution. -/
abbrev DataLoader (F : Type) := Nat → Nat → Nat → String → Except String (List (CandleStick F))

section Evaluate

variable {F : Type}

/-- Ask again, from request `attempt` on, until there are candles, but at most `retries` times. -/
def retryRange (loader : DataLoader F) (resolution : String) (from' to' : Nat) :
    Nat → Nat → Except String (List (CandleStick F))
  | 0, _ => .error "live timeout after retry 3"
  | retries + 1, attempt =>
    match loader attempt from' to' resolution with
    | .error e => .error e
    | .ok [] => retryRange loader resolution from' to' retries (attempt + 1)
    | .ok (c :: cs) => .ok (c :: cs)

/-- Ask for a range, again when it is empty and ends in the future. -/
def fetchDirect (loader : DataLoader F) (resolution : String) (from' to' now : Nat) :
    Except String (List (CandleStick F)) :=
  match loader 0 from' to' resolution with
  | .error e => .error e
  | .ok [] => if to' > now then retryRange loader resolution from' to' 3 1 else .ok []
  | .ok (c :: cs) => .ok (c :: cs)

/-- The candles from `from'` up to `to'`, without the block cache. -/
def fetchCandlesFromLoader (loader : DataLoader F) (calendar : Calendar) (from' to' : Nat) (resolution : String) (now : Nat) :
    Except String (List (CandleStick F)) :=
  if from' ≥ to' then
    .error ("`from` (" ++ toString from' ++ ") should be smaller than `to` (" ++ toString to' ++ ")")
  else
    let step := toTimestampSecs resolution
    let fetch_from := calendar.next (from' - step) resolution
    let fetch_to := calendar.next (to' - step) resolution
    if fetch_from ≥ fetch_to then .ok []
    else
      match fetchDirect loader resolution fetch_from fetch_to now with
      | .error e => .error e
      | .ok candles =>
        let candles_full := candles.insertionSort fun a b => a.t ≤ b.t
        -- the two partition points
        let start := (candles_full.takeWhile fun c => asU64 c.t < from').length
        let end' := (candles_full.takeWhile fun c => asU64 c.t < to').length
        .ok ((candles_full.take end').drop start)

/-! ## The loop -/

/-- What an evaluation depends on besides the portfolio: for each call of the kernel the loader, the clock, and what the
callbacks other than `fetch` answer. -/
structure Surroundings (F : Type) where
  loader : Nat → DataLoader F
  now : Nat → Nat
  answers : Nat → Callbacks F

/-- The callbacks of a call of the kernel. -/
def Surroundings.callbacks (m : Surroundings F) (pf : Portfolio F) (call : Nat) : Callbacks F :=
  { m.answers call with
    fetch := fun from' to' =>
      fetchCandlesFromLoader (m.loader call) pf.calendar from' to' pf.resolutionForTest (m.now call) }

/-- A call of the kernel that an evaluation makes: its number, the session before it, and its outcome. -/
structure KernelCall (F : Type) where
  number : Nat
  before : Session F
  outcome : Outcome F

/-- What an evaluation leaves: the session, whether it ended without an error, and the calls it made. -/
structure Evaluation (F : Type) where
  session : Session F
  result : Except String Unit
  calls : List (KernelCall F)

/-- The candles an evaluation processed. -/
def Evaluation.candles (e : Evaluation F) : List (CandleStick F) := e.calls.filterMap fun call => call.outcome.candle

variable [Scalar F]

/-- The loop of `evaluate`; it stops at the end of the window, after an error, and when the cursor does not move on. -/
def evaluateLoop (pf : Portfolio F) (m : Surroundings F) (to' : Nat) : Nat → Nat → Session F → Evaluation F
  | 0, _, s => ⟨s, .ok (), []⟩
  | fuel + 1, number, s =>
    if s.nextTs < to' then
      let outcome := forward pf (m.callbacks pf number) s
      match outcome.result with
      | .error e => ⟨outcome.session, .error e, [⟨number, s, outcome⟩]⟩
      | .ok _ =>
        if outcome.session.nextTs ≤ s.nextTs then ⟨outcome.session, .ok (), [⟨number, s, outcome⟩]⟩
        else
          let rest := evaluateLoop pf m to' fuel (number + 1) outcome.session
          { rest with calls := ⟨number, s, outcome⟩ :: rest.calls }
    else ⟨s, .ok (), []⟩

/-- The first time a session asks for candles from. -/
def startCursor (pf : Portfolio F) (from' to' : Nat) : Nat :=
  let first_valid := pf.calendar.next (from' - toTimestampSecs pf.resolutionForTest) pf.resolutionForTest
  if first_valid > from' ∧ first_valid < to' then first_valid else from'

/-- Process the window from `from'` up to `to'`. A session that was run before goes on where it stopped. The loop moves the
cursor with every call it goes on after, so it makes no more calls than there are seconds left. -/
def evaluate (pf : Portfolio F) (m : Surroundings F) (from' to' : Nat) (s : Session F) : Evaluation F :=
  let s := if s.nextTs = 0 then { s with nextTs := startCursor pf from' to' } else s
  evaluateLoop pf m to' (to' - s.nextTs) 0 s

/-! ## What a loader brings -/

/-- The candles of a series from `lo` up to `hi`. -/
def window (series : List (CandleStick F)) (lo hi : Nat) : List (CandleStick F) :=
  series.filter fun c => (lo : Int) ≤ c.t ∧ c.t < hi

/-- The loader answers every request with the candles of the series in the range, in some order. -/
def Exact (loader : DataLoader F) (series : List (CandleStick F)) : Prop :=
  ∀ attempt from' to' resolution, ∃ candles, loader attempt from' to' resolution = .ok candles ∧
    candles.Perm (window series from' to')

/-- A series in ascending order, with at least `step` seconds from each candle to the next, at times that are an `i64`. -/
structure Ascending (step : Nat) (series : List (CandleStick F)) : Prop where
  spaced : series.Pairwise fun a b : CandleStick F => a.t < b.t ∧ a.t + (step : Int) ≤ b.t
  inRange : ∀ c ∈ series, c.t < 2 ^ 63

variable {series : List (CandleStick F)}

omit [Scalar F] in
theorem mem_window {lo hi : Nat} {c : CandleStick F} :
    c ∈ window series lo hi ↔ c ∈ series ∧ (lo : Int) ≤ c.t ∧ c.t < hi := by
  simp [window]

omit [Scalar F] in
theorem Ascending.window {step : Nat} (h : Ascending step series) (lo hi : Nat) :
    (window series lo hi).Pairwise fun a b => a.t < b.t :=
  (h.spaced.imp And.left).sublist List.filter_sublist

omit [Scalar F] in
/-- A later candle of a series is later by a step. -/
theorem Ascending.step_le {step : Nat} (h : Ascending step series) {a b : CandleStick F} (ha : a ∈ series) (hb : b ∈ series)
    (hlt : a.t < b.t) : a.t + (step : Int) ≤ b.t := by
  refine List.Pairwise.forall_of_forall_of_flip (R := fun a b => a.t < b.t → a.t + (step : Int) ≤ b.t) ?_ ?_ ?_ ha hb hlt
  · intro x _ hx
    exact absurd hx (lt_irrefl _)
  · exact h.spaced.imp fun hab _ => hab.2
  · exact h.spaced.imp fun hab hba => absurd hba (not_lt_of_gt hab.1)

omit [Scalar F] in
theorem retryRange_exact {loader : DataLoader F} (h : Exact loader series) (resolution : String) (lo hi : Nat) :
    ∀ retries attempt, window series lo hi = [] →
      retryRange loader resolution lo hi retries attempt = .error "live timeout after retry 3"
  | 0, _, _ => rfl
  | retries + 1, attempt, hempty => by
    obtain ⟨candles, hload, hperm⟩ := h attempt lo hi resolution
    rw [hempty, List.perm_nil] at hperm
    unfold retryRange
    rw [hload, hperm]
    exact retryRange_exact h resolution lo hi retries (attempt + 1) hempty

omit [Scalar F] in
/-- An exact loader times out on an empty range that ends in the future, and else brings the range. -/
theorem fetchDirect_exact {loader : DataLoader F} (h : Exact loader series) (resolution : String) (lo hi now : Nat) :
    (window series lo hi = [] ∧ now < hi ∧ ∃ e, fetchDirect loader resolution lo hi now = .error e) ∨
    ((window series lo hi = [] → hi ≤ now) ∧
      ∃ candles, fetchDirect loader resolution lo hi now = .ok candles ∧ candles.Perm (window series lo hi)) := by
  obtain ⟨candles, hload, hperm⟩ := h 0 lo hi resolution
  unfold fetchDirect
  rw [hload]
  rcases candles with _ | ⟨c, cs⟩
  · have hempty : window series lo hi = [] := List.perm_nil.mp hperm.symm
    by_cases hnow : hi > now
    · rw [if_pos hnow, retryRange_exact h resolution lo hi 3 1 hempty]
      exact Or.inl ⟨hempty, hnow, _, rfl⟩
    · rw [if_neg hnow]
      exact Or.inr ⟨fun _ => by omega, [], rfl, hperm⟩
  · refine Or.inr ⟨fun hempty => ?_, c :: cs, rfl, hperm⟩
    rw [hempty, List.perm_nil] at hperm
    nomatch hperm

omit [Scalar F] in
/-- Sorting by time brings a shuffled part of a series back into its order. -/
theorem insertionSort_window {step : Nat} {series candles : List (CandleStick F)} (h : Ascending step series) {lo hi : Nat}
    (hperm : candles.Perm (window series lo hi)) :
    (candles.insertionSort fun a b => a.t ≤ b.t) = window series lo hi := by
  have htotal : Std.Total fun a b : CandleStick F => a.t ≤ b.t := ⟨fun a b => le_total a.t b.t⟩
  have htrans : IsTrans (CandleStick F) fun a b => a.t ≤ b.t := ⟨fun _ _ _ => le_trans⟩
  have hwindow := h.window lo hi
  refine ((List.perm_insertionSort _ candles).trans hperm).eq_of_pairwise (fun a b ha hb hab hba => ?_)
    (List.pairwise_insertionSort _ candles) (hwindow.imp le_of_lt)
  have hnodup : ((window series lo hi).map CandleStick.t).Nodup :=
    (List.pairwise_map.mpr hwindow).imp ne_of_lt
  exact List.inj_on_of_nodup_map hnodup (hperm.mem_iff.mp ((List.mem_insertionSort _).mp ha)) hb (le_antisymm hab hba)

omit [Scalar F] in
/-- In ascending order the candles before a time come first. -/
theorem takeWhile_before (hi : Nat) : ∀ {l : List (CandleStick F)}, l.Pairwise (fun a b : CandleStick F => a.t < b.t) →
    (∀ c ∈ l, 0 ≤ c.t ∧ c.t < 2 ^ 63) → (l.takeWhile fun c => asU64 c.t < hi) = l.filter fun c => c.t < (hi : Int)
  | [], _, _ => rfl
  | c :: l, hl, hrange => by
    obtain ⟨hc, hl⟩ := List.pairwise_cons.mp hl
    have ih := takeWhile_before hi hl fun x hx => hrange x (List.mem_cons_of_mem _ hx)
    obtain ⟨hnonneg, hlt⟩ := hrange c List.mem_cons_self
    have hcast := asU64_of_nonneg hnonneg hlt
    rw [List.takeWhile_cons, List.filter_cons, hcast]
    by_cases hbefore : c.t < (hi : Int)
    · rw [if_pos (by simp only [decide_eq_true_eq]; omega), if_pos (by simpa using hbefore), ih]
    · rw [if_neg (by simp only [decide_eq_true_eq]; omega), if_neg (by simpa using hbefore)]
      symm
      refine List.filter_eq_nil_iff.mpr fun x hx => ?_
      have := hc x hx
      simp only [decide_eq_true_eq]
      omega

/-- The range a fetch asks the loader for is empty and ends in the future. -/
def TimesOut (series : List (CandleStick F)) (step now lo hi : Nat) : Prop :=
  Max.max lo step < Max.max hi step ∧ window series (Max.max lo step) (Max.max hi step) = [] ∧ now < Max.max hi step

omit [Scalar F] in
/-- A fetch brings the candles of its range, those of the first `step` seconds of 1970 apart, unless it times out. -/
theorem fetchCandles_exact {loader : DataLoader F} (h : Exact loader series) {resolution : String}
    (hseries : Ascending (toTimestampSecs resolution) series) {lo hi : Nat} (now : Nat) (hlt : lo < hi) (hhi : hi < 2 ^ 64) :
    (TimesOut series (toTimestampSecs resolution) now lo hi ∧
      ∃ e, fetchCandlesFromLoader loader cryptoCalendar lo hi resolution now = .error e) ∨
    (¬TimesOut series (toTimestampSecs resolution) now lo hi ∧
      fetchCandlesFromLoader loader cryptoCalendar lo hi resolution now =
        .ok (window series (Max.max lo (toTimestampSecs resolution)) hi)) := by
  have hstep := toTimestampSecs_lt resolution
  set step := toTimestampSecs resolution with hstepdef
  have hfrom : cryptoCalendar.next (lo - step) resolution = Max.max lo step := by
    change (lo - step + step) % 2 ^ 64 = _
    omega
  have hto : cryptoCalendar.next (hi - step) resolution = Max.max hi step := by
    change (hi - step + step) % 2 ^ 64 = _
    omega
  unfold fetchCandlesFromLoader TimesOut
  simp only [← hstepdef, hfrom, hto]
  rw [if_neg (by omega)]
  by_cases hrange : Max.max lo step ≥ Max.max hi step
  · rw [if_pos hrange]
    refine Or.inr ⟨fun hout => by omega, congrArg Except.ok ?_⟩
    symm
    refine List.filter_eq_nil_iff.mpr fun c _ => ?_
    simp only [decide_eq_true_eq]
    omega
  · rw [if_neg hrange]
    rcases fetchDirect_exact h resolution (Max.max lo step) (Max.max hi step) now with
      ⟨hempty, hnow, e, he⟩ | ⟨hsoon, candles, hload, hperm⟩
    · rw [he]
      exact Or.inl ⟨⟨by omega, hempty, hnow⟩, e, rfl⟩
    · rw [hload]
      refine Or.inr ⟨fun hout => ?_, congrArg Except.ok ?_⟩
      · have := hsoon hout.2.1
        omega
      · rw [insertionSort_window hseries hperm]
        have hwindow := hseries.window (Max.max lo step) (Max.max hi step)
        have hrange : ∀ c ∈ window series (Max.max lo step) (Max.max hi step), 0 ≤ c.t ∧ c.t < 2 ^ 63 := by
          intro c hc
          obtain ⟨hmem, hlo, -⟩ := mem_window.mp hc
          have := hseries.inRange c hmem
          omega
        have hnone : (window series (Max.max lo step) (Max.max hi step)).takeWhile (fun c => asU64 c.t < lo) = [] := by
          rw [takeWhile_before _ hwindow hrange]
          refine List.filter_eq_nil_iff.mpr fun c hc => ?_
          have := (mem_window.mp hc).2.1
          simp only [decide_eq_true_eq]
          omega
        rw [hnone, List.length_nil, List.drop_zero, ← List.prefix_iff_eq_take.mp (List.takeWhile_prefix _),
          takeWhile_before _ hwindow hrange]
        unfold window
        rw [List.filter_filter]
        refine List.filter_congr fun c _ => ?_
        simp only [← Bool.decide_and, decide_eq_decide]
        omega

end Evaluate

end Opsense
