import Mathlib.Data.List.Find
import Opsense.Kernel.Evaluate

/-!
# Which backtests process every candle of their window

A backtest over a series of candles should process the candles of its window, each once and in order. `evaluate_iff` says
exactly when it does (`OnTrack`): no call fails while a candle is left, a range without a new candle is not left by a step of
the cursor over a candle behind the review time, and the next candle is not one behind the end of the window. The candles of
the first `step` seconds of 1970 are never asked for.
-/

namespace Opsense

section Backtest

variable {F : Type}

/-! ## The setting -/

/-- The resolution of a portfolio in seconds. -/
def Portfolio.step (pf : Portfolio F) : Nat := toTimestampSecs pf.resolutionForTest

/-- A backtest on a market that never closes, with an exact loader of a series, a strategy that always reviews later, and
callbacks that refuse no event. -/
structure Setting (pf : Portfolio F) (m : Surroundings F) (series : List (CandleStick F)) : Prop where
  calendar : pf.calendar = cryptoCalendar
  ascending : Ascending pf.step series
  exact : ∀ call, Exact (m.loader call) series
  quiet : ∀ call i e, (m.answers call).notify i e = .ok ()
  next : ∀ call t, t + 1 < 2 ^ 64 → t < (m.answers call).next t ∧ (m.answers call).next t < 2 ^ 64

/-- What holds of the session before each call: its times are `u64`, and the last candle is not from before 1970. -/
structure AtCall (from' : Nat) (s : Session F) : Prop where
  from_le : from' ≤ s.nextTs
  nextTs : s.nextTs < 2 ^ 64
  reviewAt : s.reviewAt < 2 ^ 64
  candleTs : 0 ≤ s.candleTs

/-- The candles of the window that a session has still before it. -/
def remaining (series : List (CandleStick F)) (to' : Nat) (s : Session F) : List (CandleStick F) :=
  (window series s.nextTs to').filter fun c => s.candleTs < c.t

/-- The review time in force once a call has rebuilt what was due. -/
def review (pf : Portfolio F) (m : Surroundings F) (call : Nat) (s : Session F) : Nat :=
  (rebuildDue (m.callbacks pf call) s).1.reviewAt

/-- The first new candle of the range a call asks for. -/
def ahead (pf : Portfolio F) (m : Surroundings F) (series : List (CandleStick F)) (call : Nat) (s : Session F) :
    Option (CandleStick F) :=
  (window series (Max.max s.nextTs pf.step) (review pf m call s)).find? fun c => s.candleTs < c.t

/-- A call fails: its rebuild does, or the range it asks for is empty and ends in the future. -/
def Fails (pf : Portfolio F) (m : Surroundings F) (series : List (CandleStick F)) (call : Nat) (s : Session F) : Prop :=
  (∃ e, (rebuildDue (m.callbacks pf call) s).2.2 = .error e) ∨
  ((rebuildDue (m.callbacks pf call) s).2.2 = .ok () ∧
    TimesOut series pf.step (m.now call) s.nextTs (review pf m call s))

variable {s : Session F} {series : List (CandleStick F)} {to' : Nat}

theorem mem_remaining {c : CandleStick F} :
    c ∈ remaining series to' s ↔ c ∈ series ∧ (s.nextTs : Int) ≤ c.t ∧ c.t < to' ∧ s.candleTs < c.t := by
  simp [remaining, mem_window, and_assoc]

variable {m : Surroundings F} {pf : Portfolio F}

/-- A call lasts until a later time than it starts from. -/
theorem review_bounds (h : Setting pf m series) (call : Nat) {from' : Nat} (hs : AtCall from' s) (hlast : s.nextTs + 1 < 2 ^ 64) :
    s.nextTs < review pf m call s ∧ review pf m call s < 2 ^ 64 := by
  have hnext := h.next call s.nextTs hlast
  unfold review
  rcases rebuildDue_cases (m.callbacks pf call) s with ⟨hlt, hr⟩ | ⟨-, e, -, hr⟩ | ⟨-, plan, -, ⟨e, -, hr⟩ | ⟨-, hr⟩⟩
  · rw [hr]
    exact ⟨hlt, hs.reviewAt⟩
  · rw [hr]
    exact hnext
  · rw [hr]
    exact hnext
  · rw [hr]
    exact hnext

/-! ## One call -/

/-- What a call of an evaluation does: it fails, or waits, or takes up the first new candle of its range. -/
inductive CallEffect (pf : Portfolio F) (m : Surroundings F) (series : List (CandleStick F)) (call : Nat) (s : Session F)
    (out : Outcome F) : Prop where
  | fails (e : String) : Fails pf m series call s → out.candle = none → out.result = .error e →
      CallEffect pf m series call s out
  | waits : ¬Fails pf m series call s → ahead pf m series call s = none → out.candle = none → out.result = .ok false →
      out.session.nextTs = (s.nextTs + pf.step) % 2 ^ 64 → out.session.candleTs = s.candleTs →
      out.session.reviewAt = review pf m call s → CallEffect pf m series call s out
  | takes (w : CandleStick F) : ¬Fails pf m series call s → ahead pf m series call s = some w → out.candle = some w →
      out.result = .ok true → out.session.nextTs = (w.t.toNat + pf.step) % 2 ^ 64 → out.session.candleTs = w.t →
      out.session.reviewAt = review pf m call s → CallEffect pf m series call s out

/-- In a batch of later candles the search for a new one compares times as they are. -/
theorem find_newer {step : Nat} (h : Ascending step series) (hs : 0 ≤ s.candleTs) (lo hi : Nat) :
    (window series lo hi).find? (newer s) = (window series lo hi).find? fun c => s.candleTs < c.t := by
  refine List.find?_congr fun c hc => ?_
  obtain ⟨hmem, hlo, -⟩ := mem_window.mp hc
  have hcast := asU64_of_nonneg (by omega : 0 ≤ c.t) (h.inRange c hmem)
  unfold newer
  rw [hcast, decide_eq_decide]
  omega

variable [Scalar F]

theorem call_effect (h : Setting pf m series) (call : Nat) {from' : Nat} (hs : AtCall from' s) (hlast : s.nextTs + 1 < 2 ^ 64) :
    CallEffect pf m series call s (forward pf (m.callbacks pf call) s) := by
  obtain ⟨hlater, hbound⟩ := review_bounds h call hs hlast
  obtain ⟨-, -, -, hts, -⟩ := rebuildDue_frame (m.callbacks pf call) s
  have hmax : Max.max (rebuildDue (m.callbacks pf call) s).1.reviewAt s.nextTs = review pf m call s :=
    Nat.max_eq_left hlater.le
  have hfetch := fetchCandles_exact (h.exact call) h.ascending (m.now call) hlater hbound
  rw [← h.calendar] at hfetch
  change (TimesOut series pf.step (m.now call) s.nextTs (review pf m call s) ∧
      ∃ e, (m.callbacks pf call).fetch s.nextTs (review pf m call s) = .error e) ∨
    (¬TimesOut series pf.step (m.now call) s.nextTs (review pf m call s) ∧
      (m.callbacks pf call).fetch s.nextTs (review pf m call s) =
        .ok (window series (Max.max s.nextTs pf.step) (review pf m call s))) at hfetch
  have hfind := find_newer h.ascending (s := (rebuildDue (m.callbacks pf call) s).1) (by rw [hts]; exact hs.candleTs)
    (Max.max s.nextTs pf.step) (review pf m call s)
  rw [hts] at hfind
  have hcases := forward_cases pf (m.callbacks pf call) s
  rw [hmax] at hcases
  rcases hcases with ⟨-, htook, -, ⟨⟨e, hresult, hwhy⟩, -⟩ | ⟨hreb, hresult, ⟨candles, hload, hnone⟩, hsession⟩⟩ |
    ⟨w, candles, -, hreb, hload, hw, heq⟩
  · rcases hwhy with hreb | ⟨hreb, hload⟩
    · exact .fails e (Or.inl ⟨e, hreb⟩) htook hresult
    · rcases hfetch with ⟨hout, -⟩ | ⟨-, hok⟩
      · exact .fails e (Or.inr ⟨hreb, hout⟩) htook hresult
      · rw [hload] at hok
        nomatch hok
  · rcases hfetch with ⟨-, e, he⟩ | ⟨hout, hok⟩
    · rw [hload] at he
      nomatch he
    · obtain rfl := Except.ok.inj (hload.symm.trans hok)
      refine .waits ?_ (hfind.symm.trans hnone) htook hresult ?_ ?_ ?_
      · rintro (⟨e, he⟩ | ⟨-, hout'⟩)
        · rw [hreb] at he
          nomatch he
        · exact hout hout'
      · rw [hsession, h.calendar]
        rfl
      · rw [hsession, hts]
      · rw [hsession]
        rfl
  · rcases hfetch with ⟨-, e, he⟩ | ⟨hout, hok⟩
    · rw [hload] at he
      nomatch he
    · obtain rfl := Except.ok.inj (hload.symm.trans hok)
      rcases processCandle_cases pf (m.callbacks pf call) (rebuildDue (m.callbacks pf call) s).1
          (rebuildDue (m.callbacks pf call) s).2.1 w with ⟨⟨e, herror, -⟩, -⟩ | ⟨-, hdone⟩
      · obtain ⟨k, ev, e', -, he⟩ := notifyAll_error_iff.mp ⟨e, herror⟩
        have hquiet := h.quiet call ((rebuildDue (m.callbacks pf call) s).2.1.length + k) ev
        change (m.answers call).notify _ ev = _ at he
        rw [hquiet] at he
        nomatch he
      · rw [heq, hdone]
        refine .takes w ?_ (hfind.symm.trans hw) rfl rfl ?_ rfl rfl
        · rintro (⟨e, he⟩ | ⟨-, hout'⟩)
          · rw [hreb] at he
            nomatch he
          · exact hout hout'
        · simp only [h.calendar]
          rfl

variable {w : CandleStick F}

omit [Scalar F] in
/-- Where a candle is taken up from: the series, no earlier than the cursor and the first `step` seconds, and new. -/
theorem ahead_spec {call : Nat} (h : ahead pf m series call s = some w) :
    w ∈ series ∧ (s.nextTs : Int) ≤ w.t ∧ (pf.step : Int) ≤ w.t ∧ w.t < review pf m call s ∧ s.candleTs < w.t := by
  have hnew := List.find?_some h
  obtain ⟨hmem, hlo, hhi⟩ := mem_window.mp (List.mem_of_find?_eq_some h)
  have hnew : s.candleTs < w.t := of_decide_eq_true hnew
  exact ⟨hmem, by omega, by omega, hhi, hnew⟩

/-- The session before the next call of an evaluation that goes on. -/
theorem AtCall.next (h : Setting pf m series) {call : Nat} {from' : Nat} (hs : AtCall from' s) (hlast : s.nextTs + 1 < 2 ^ 64)
    (hgo : s.nextTs < (forward pf (m.callbacks pf call) s).session.nextTs)
    (hok : ∀ e, (forward pf (m.callbacks pf call) s).result ≠ .error e) :
    AtCall from' (forward pf (m.callbacks pf call) s).session := by
  have hbound := (review_bounds h call hs hlast).2
  have hfrom := hs.from_le
  cases call_effect h call hs hlast with
  | fails e _ _ hresult => exact absurd hresult (hok e)
  | waits _ _ _ _ hnext hts hreview =>
    refine ⟨by omega, ?_, hreview ▸ hbound, hts ▸ hs.candleTs⟩
    rw [hnext]
    exact Nat.mod_lt _ (by decide)
  | takes w _ hw _ _ hnext hts hreview =>
    obtain ⟨-, hcursor, -⟩ := ahead_spec hw
    refine ⟨by omega, ?_, hreview ▸ hbound, hts ▸ by omega⟩
    rw [hnext]
    exact Nat.mod_lt _ (by decide)

/-! ## The loop, one call at a time -/

/-- The loop makes one call and stops, or goes on from the session the call leaves. -/
theorem evaluateLoop_cases (pf : Portfolio F) (m : Surroundings F) (fuel call : Nat) (hlt : s.nextTs < to') {out : Outcome F}
    (hout : forward pf (m.callbacks pf call) s = out) :
    (((∃ e, out.result = .error e) ∨ out.session.nextTs ≤ s.nextTs) ∧
      (evaluateLoop pf m to' (fuel + 1) call s).calls = [⟨call, s, out⟩]) ∨
    ((∀ e, out.result ≠ .error e) ∧ s.nextTs < out.session.nextTs ∧
      (evaluateLoop pf m to' (fuel + 1) call s).calls =
        ⟨call, s, out⟩ :: (evaluateLoop pf m to' fuel (call + 1) out.session).calls) := by
  rw [evaluateLoop, if_pos hlt, hout]
  dsimp only
  cases out.result with
  | error e => exact Or.inl ⟨Or.inl ⟨e, rfl⟩, rfl⟩
  | ok b =>
    dsimp only
    by_cases hstop : out.session.nextTs ≤ s.nextTs
    · rw [if_pos hstop]
      exact Or.inl ⟨Or.inr hstop, rfl⟩
    · rw [if_neg hstop]
      exact Or.inr ⟨fun e he => (nomatch he), by omega, rfl⟩

theorem evaluateLoop_done (pf : Portfolio F) (m : Surroundings F) (fuel call : Nat) (h : to' ≤ s.nextTs) :
    (evaluateLoop pf m to' fuel call s).calls = [] := by
  cases fuel with
  | zero => rfl
  | succ fuel =>
    unfold evaluateLoop
    rw [if_neg (by omega)]

/-- Every candle the loop processes is one of the series, no earlier than the cursor, and new. -/
theorem candles_spec (h : Setting pf m series) {from' to' : Nat} (hto : to' < 2 ^ 64) :
    ∀ (fuel call : Nat) (s : Session F), AtCall from' s →
      ∀ w ∈ (evaluateLoop pf m to' fuel call s).candles,
        w ∈ series ∧ (s.nextTs : Int) ≤ w.t ∧ (pf.step : Int) ≤ w.t ∧ s.candleTs < w.t := by
  intro fuel
  induction fuel with
  | zero => intro call s _ w hw; nomatch hw
  | succ fuel ih =>
    intro call s hs w hw
    by_cases hlt : s.nextTs < to'
    · have hlast : s.nextTs + 1 < 2 ^ 64 := by omega
      have htaken : ∀ w, (forward pf (m.callbacks pf call) s).candle = some w →
          w ∈ series ∧ (s.nextTs : Int) ≤ w.t ∧ (pf.step : Int) ≤ w.t ∧ s.candleTs < w.t := by
        intro w hw
        cases call_effect h call hs hlast with
        | fails e _ htook _ => rw [hw] at htook; nomatch htook
        | waits _ _ htook _ _ _ _ => rw [hw] at htook; nomatch htook
        | takes w' _ hahead htook _ _ _ _ =>
          obtain rfl := Option.some.inj (hw.symm.trans htook)
          obtain ⟨hmem, hcursor, hstep, -, hnew⟩ := ahead_spec hahead
          exact ⟨hmem, hcursor, hstep, hnew⟩
      have hforward : s.candleTs ≤ (forward pf (m.callbacks pf call) s).session.candleTs ∨
          ∃ e, (forward pf (m.callbacks pf call) s).result = .error e := by
        cases call_effect h call hs hlast with
        | fails e _ _ hresult => exact Or.inr ⟨e, hresult⟩
        | waits _ _ _ _ _ hts _ => exact Or.inl (by omega)
        | takes w' _ hahead _ _ _ hts _ =>
          have := (ahead_spec hahead).2.2.2.2
          exact Or.inl (by omega)
      unfold Evaluation.candles at hw
      rcases evaluateLoop_cases pf m fuel call hlt rfl with ⟨-, hcalls⟩ | ⟨hok, hgo, hcalls⟩
      · rw [hcalls] at hw
        obtain ⟨c, hc, htook⟩ := List.mem_filterMap.mp hw
        obtain rfl := List.mem_singleton.mp hc
        exact htaken w htook
      · rw [hcalls] at hw
        obtain ⟨c, hc, htook⟩ := List.mem_filterMap.mp hw
        rcases List.mem_cons.mp hc with rfl | hc
        · exact htaken w htook
        · obtain ⟨hmem, hcursor, hstep, hnew⟩ :=
            ih (call + 1) _ (hs.next h hlast hgo hok) w (List.mem_filterMap.mpr ⟨c, hc, htook⟩)
          rcases hforward with hts | ⟨e, he⟩
          · exact ⟨hmem, by omega, hstep, by omega⟩
          · exact absurd he (hok e)
    · unfold Evaluation.candles at hw
      rw [evaluateLoop_done pf m _ call (by omega)] at hw
      nomatch hw

/-! ## Calls that stay on track -/

/-- A call leaves no candle of the window behind and takes up none from behind its end. -/
structure OnTrack (pf : Portfolio F) (m : Surroundings F) (series : List (CandleStick F)) (to' call : Nat) (s : Session F) :
    Prop where
  /-- A call that fails has no candle before it. -/
  fails : Fails pf m series call s → remaining series to' s = []
  /-- The cursor leaves an empty range by a step that no candle behind the range falls into. -/
  waits : ¬Fails pf m series call s → ahead pf m series call s = none →
    ∀ x ∈ remaining series to' s, 0 < pf.step ∧ ((s.nextTs + pf.step : Nat) : Int) ≤ x.t
  /-- The next candle is in the window; where the cursor does not move on with it, it is the last. -/
  takes : ¬Fails pf m series call s → ∀ w, ahead pf m series call s = some w →
    w.t < to' ∧ (pf.step = 0 → w.t = s.nextTs → ∀ x ∈ remaining series to' s, x.t ≤ w.t)

/-- The candles of the window after a time. -/
def later (series : List (CandleStick F)) (to' : Nat) (t : Int) : List (CandleStick F) :=
  series.filter fun c => t < c.t ∧ c.t < to'

omit [Scalar F] in
/-- In ascending order, the candles from one of them on are that one and the later ones. -/
theorem filter_from_eq_cons : ∀ {l : List (CandleStick F)},
    l.Pairwise (fun a b : CandleStick F => a.t < b.t) → w ∈ l → w.t < to' →
    (l.filter fun c => w.t ≤ c.t ∧ c.t < (to' : Int)) = w :: l.filter fun c => w.t < c.t ∧ c.t < (to' : Int)
  | a :: l, hl, hw, hto => by
    obtain ⟨ha, hl⟩ := List.pairwise_cons.mp hl
    rcases List.mem_cons.mp hw with rfl | hw
    · rw [List.filter_cons_of_pos (by simpa using hto), List.filter_cons_of_neg (by simp)]
      refine congrArg (w :: ·) (List.filter_congr fun x hx => ?_)
      have := ha x hx
      rw [decide_eq_decide]
      omega
    · have := ha w hw
      rw [List.filter_cons_of_neg (by simp only [decide_eq_true_eq]; omega),
        List.filter_cons_of_neg (by simp only [decide_eq_true_eq]; omega)]
      exact filter_from_eq_cons hl hw hto

/-- The candles of the window are all after the first `step` seconds of 1970. -/
def StartsLate (pf : Portfolio F) (series : List (CandleStick F)) (from' to' : Nat) : Prop :=
  ∀ x ∈ window series from' to', 0 < x.t ∧ (pf.step : Int) ≤ x.t

omit [Scalar F] in
/-- The candle a call takes up is the first of those before it, when it is in the window. -/
theorem remaining_of_ahead (h : Setting pf m series) {from' to' call : Nat} (hstart : StartsLate pf series from' to') (hs : AtCall from' s)
    (hw : ahead pf m series call s = some w) (hto : w.t < to') :
    remaining series to' s = w :: later series to' w.t := by
  obtain ⟨hmem, hcursor, -, hreview, hnew⟩ := ahead_spec hw
  have hfrom := hs.from_le
  have hfirst : ∀ x ∈ series, (s.nextTs : Int) ≤ x.t → x.t < to' → s.candleTs < x.t → w.t ≤ x.t := by
    intro x hx hxcursor hxto hxnew
    have hlate := (hstart x (mem_window.mpr ⟨hx, by omega, hxto⟩)).2
    by_cases hxreview : x.t < review pf m call s
    · obtain ⟨-, pre, post, heq, hpre⟩ := List.find?_eq_some_iff_append.mp hw
      have hxmem : x ∈ window series (Max.max s.nextTs pf.step) (review pf m call s) :=
        mem_window.mpr ⟨hx, by omega, hxreview⟩
      have hsorted := h.ascending.window (Max.max s.nextTs pf.step) (review pf m call s)
      rw [heq] at hxmem hsorted
      rcases List.mem_append.mp hxmem with hx | hx
      · have hold := hpre x hx
        simp only [Bool.not_eq_true', decide_eq_false_iff_not] at hold
        omega
      · rcases List.mem_cons.mp hx with rfl | hx
        · exact le_refl _
        · have := (List.pairwise_cons.mp (List.pairwise_append.mp hsorted).2.1).1 x hx
          omega
    · omega
  have hsame : remaining series to' s = series.filter fun c => w.t ≤ c.t ∧ c.t < (to' : Int) := by
    unfold remaining window
    rw [List.filter_filter]
    refine List.filter_congr fun x hx => ?_
    rw [← Bool.decide_and, decide_eq_decide]
    constructor
    · rintro ⟨hxnew, hxcursor, hxto⟩
      exact ⟨hfirst x hx hxcursor hxto hxnew, hxto⟩
    · rintro ⟨hwx, hxto⟩
      exact ⟨by omega, by omega, hxto⟩
  rw [hsame, filter_from_eq_cons (h.ascending.spaced.imp And.left) hmem hto]
  rfl

/-! ## The loop -/

omit [Scalar F] in
theorem onTrack_of_fails {to' call : Nat} (h : Fails pf m series call s) : OnTrack pf m series to' call s ↔ remaining series to' s = [] :=
  ⟨fun ht => ht.fails h, fun hr => ⟨fun _ => hr, fun hn => absurd h hn, fun hn => absurd h hn⟩⟩

omit [Scalar F] in
theorem onTrack_of_waits {to' call : Nat} (h : ¬Fails pf m series call s) (hnone : ahead pf m series call s = none) :
    OnTrack pf m series to' call s ↔
      ∀ x ∈ remaining series to' s, 0 < pf.step ∧ ((s.nextTs + pf.step : Nat) : Int) ≤ x.t := by
  refine ⟨fun ht => ht.waits h hnone, fun hw => ⟨fun hf => absurd hf h, fun _ _ => hw, fun _ w hsome => ?_⟩⟩
  rw [hnone] at hsome
  nomatch hsome

omit [Scalar F] in
theorem onTrack_of_takes {to' call : Nat} (h : ¬Fails pf m series call s) (hsome : ahead pf m series call s = some w) :
    OnTrack pf m series to' call s ↔
      w.t < to' ∧ (pf.step = 0 → w.t = s.nextTs → ∀ x ∈ remaining series to' s, x.t ≤ w.t) := by
  refine ⟨fun ht => ht.takes h w hsome, fun hw => ⟨fun hf => absurd hf h, fun _ hnone => ?_, fun _ w' hsome' => ?_⟩⟩
  · rw [hsome] at hnone
    nomatch hnone
  · obtain rfl := Option.some.inj (hsome.symm.trans hsome')
    exact hw

omit [Scalar F] in
/-- After a call that waits and goes on, the same candles are before the session when none lies in the step it made. -/
theorem remaining_of_waits {s s' : Session F} (hnext : s'.nextTs = s.nextTs + pf.step) (hts : s'.candleTs = s.candleTs)
    (h : ∀ x ∈ remaining series to' s, ((s.nextTs + pf.step : Nat) : Int) ≤ x.t) :
    remaining series to' s' = remaining series to' s := by
  unfold remaining window
  rw [List.filter_filter, List.filter_filter, hnext, hts]
  refine List.filter_congr fun x hx => ?_
  rw [← Bool.decide_and, ← Bool.decide_and, decide_eq_decide]
  constructor
  · rintro ⟨hnew, hcursor, hto⟩
    exact ⟨hnew, by omega, hto⟩
  · rintro ⟨hnew, hcursor, hto⟩
    have := h x (mem_remaining.mpr ⟨hx, hcursor, hto, hnew⟩)
    exact ⟨hnew, this, hto⟩

omit [Scalar F] in
/-- After a call that takes a candle up, the later ones are before the session. -/
theorem remaining_of_takes (h : Ascending pf.step series) {s' : Session F} (hw : w ∈ series) (hnonneg : 0 ≤ w.t)
    (hnext : s'.nextTs = (w.t.toNat + pf.step) % 2 ^ 64) (hts : s'.candleTs = w.t) :
    remaining series to' s' = later series to' w.t := by
  have hstep : pf.step < 2 ^ 64 := toTimestampSecs_lt _
  have hrange := h.inRange w hw
  unfold remaining window later
  rw [List.filter_filter, hnext, hts]
  refine List.filter_congr fun x hx => ?_
  rw [← Bool.decide_and, decide_eq_decide]
  constructor
  · rintro ⟨hnew, -, hto⟩
    exact ⟨hnew, hto⟩
  · rintro ⟨hnew, hto⟩
    have := h.step_le hw hx hnew
    exact ⟨hnew, by omega, hto⟩

omit [Scalar F] in
/-- No candle is before a session whose cursor is behind the window. -/
theorem remaining_done (h : to' ≤ s.nextTs) :
    remaining series to' s = [] := by
  refine List.eq_nil_iff_forall_not_mem.mpr fun x hx => ?_
  obtain ⟨-, hcursor, hto, -⟩ := mem_remaining.mp hx
  omega

omit [Scalar F] in
/-- The loop ends after a call that waits: no candle is left out when none is before the session. -/
theorem remaining_of_last_wait (h : Ascending pf.step series) (hstop : (s.nextTs + pf.step) % 2 ^ 64 ≤ s.nextTs) :
    [] = remaining series to' s ↔ ∀ x ∈ remaining series to' s, 0 < pf.step ∧ ((s.nextTs + pf.step : Nat) : Int) ≤ x.t := by
  constructor
  · intro hempty x hx
    rw [← hempty] at hx
    exact absurd hx List.not_mem_nil
  · intro hall
    symm
    refine List.eq_nil_iff_forall_not_mem.mpr fun x hx => ?_
    have := hall x hx
    have := h.inRange x (mem_remaining.mp hx).1
    omega

omit [Scalar F] in
/-- The loop ends after a call that takes a candle up: no candle is left out when this is the last one. -/
theorem remaining_of_last_take (h : Ascending pf.step series) (hmem : w ∈ series) (hcursor : (s.nextTs : Int) ≤ w.t)
    (hstop : (w.t.toNat + pf.step) % 2 ^ 64 ≤ s.nextTs) (hcons : w.t < to' → remaining series to' s = w :: later series to' w.t) :
    [w] = remaining series to' s ↔
      w.t < to' ∧ (pf.step = 0 → w.t = s.nextTs → ∀ x ∈ remaining series to' s, x.t ≤ w.t) := by
  have hstep : pf.step < 2 ^ 64 := toTimestampSecs_lt _
  have hrange := h.inRange w hmem
  constructor
  · intro heq
    have hw : w ∈ remaining series to' s := by
      rw [← heq]
      exact List.mem_singleton_self w
    refine ⟨(mem_remaining.mp hw).2.2.1, fun _ _ x hx => ?_⟩
    rw [← heq] at hx
    obtain rfl := List.mem_singleton.mp hx
    exact le_refl _
  · rintro ⟨hto, hlast⟩
    rw [hcons hto]
    refine congrArg (w :: ·) (List.eq_nil_iff_forall_not_mem.mpr fun x hx => ?_).symm
    have hxin : x ∈ remaining series to' s := by
      rw [hcons hto]
      exact List.mem_cons_of_mem _ hx
    obtain ⟨hx, hxlater⟩ := List.mem_filter.mp hx
    have hxlater := (of_decide_eq_true hxlater).1
    have := h.step_le hmem hx hxlater
    have := h.inRange x hx
    have := hlast (by omega) (by omega) x hxin
    omega

/-- From a session within a window that starts late, the loop processes the candles before the session exactly when all its
calls stay on track. -/
theorem loop_iff (h : Setting pf m series) {from' to' : Nat} (hto64 : to' < 2 ^ 64) (hstart : StartsLate pf series from' to') :
    ∀ (fuel call : Nat) (s : Session F), AtCall from' s → to' - s.nextTs ≤ fuel →
      ((evaluateLoop pf m to' fuel call s).candles = remaining series to' s ↔
        ∀ c ∈ (evaluateLoop pf m to' fuel call s).calls, OnTrack pf m series to' c.number c.before) := by
  have hdone : ∀ (fuel call : Nat) (s : Session F), to' ≤ s.nextTs →
      ((evaluateLoop pf m to' fuel call s).candles = remaining series to' s ↔
        ∀ c ∈ (evaluateLoop pf m to' fuel call s).calls, OnTrack pf m series to' c.number c.before) := by
    intro fuel call s hle
    unfold Evaluation.candles
    rw [evaluateLoop_done pf m fuel call hle]
    exact iff_of_true (remaining_done hle).symm fun c hc => absurd hc List.not_mem_nil
  intro fuel
  induction fuel with
  | zero => exact fun call s _ hfuel => hdone 0 call s (by omega)
  | succ fuel ih =>
    intro call s hs hfuel
    by_cases hlt : s.nextTs < to'
    swap
    · exact hdone _ call s (by omega)
    have hstep : pf.step < 2 ^ 64 := toTimestampSecs_lt _
    have hlast : s.nextTs + 1 < 2 ^ 64 := by omega
    have hspec := fun s' (hs' : AtCall from' s') => candles_spec h hto64 fuel (call + 1) s' hs'
    unfold Evaluation.candles at ih hspec ⊢
    cases call_effect h call hs hlast with
    | fails e hfails htook hresult =>
      have hcalls : (evaluateLoop pf m to' (fuel + 1) call s).calls =
          [⟨call, s, forward pf (m.callbacks pf call) s⟩] := by
        rcases evaluateLoop_cases pf m fuel call hlt rfl with ⟨-, hcalls⟩ | ⟨hok, -, -⟩
        · exact hcalls
        · exact absurd hresult (hok e)
      rw [hcalls, List.forall_mem_singleton, onTrack_of_fails hfails]
      simp only [List.filterMap_cons, List.filterMap_nil, htook]
      exact eq_comm
    | waits hfails hnone htook hresult hnext hts hreview =>
      rcases evaluateLoop_cases pf m fuel call hlt rfl with ⟨hstop, hcalls⟩ | ⟨hok, hgo, hcalls⟩
      · have hstop : (s.nextTs + pf.step) % 2 ^ 64 ≤ s.nextTs := by
          rcases hstop with ⟨e, he⟩ | hstop
          · rw [hresult] at he
            nomatch he
          · rwa [hnext] at hstop
        rw [hcalls, List.forall_mem_singleton, onTrack_of_waits hfails hnone]
        simp only [List.filterMap_cons, List.filterMap_nil, htook]
        exact remaining_of_last_wait h.ascending hstop
      · have hnext' : (forward pf (m.callbacks pf call) s).session.nextTs = s.nextTs + pf.step := by omega
        have hrest := ih (call + 1) _ (hs.next h hlast hgo hok) (by omega)
        rw [hcalls, List.forall_mem_cons, onTrack_of_waits hfails hnone]
        simp only [List.filterMap_cons, htook]
        constructor
        · intro heq
          have hall : ∀ x ∈ remaining series to' s, 0 < pf.step ∧ ((s.nextTs + pf.step : Nat) : Int) ≤ x.t := by
            intro x hx
            rw [← heq] at hx
            have := (hspec _ (hs.next h hlast hgo hok) x hx).2.1
            exact ⟨by omega, by omega⟩
          exact ⟨hall, hrest.mp (heq.trans (remaining_of_waits hnext' hts fun x hx => (hall x hx).2).symm)⟩
        · rintro ⟨hall, hcallsOn⟩
          rw [hrest.mpr hcallsOn]
          exact remaining_of_waits hnext' hts fun x hx => (hall x hx).2
    | takes w hfails hsome htook hresult hnext hts hreview =>
      obtain ⟨hmem, hwcursor, -, -, -⟩ := ahead_spec hsome
      have hrange := h.ascending.inRange w hmem
      have hcons : w.t < to' → remaining series to' s = w :: later series to' w.t :=
        remaining_of_ahead h hstart hs hsome
      rcases evaluateLoop_cases pf m fuel call hlt rfl with ⟨hstop, hcalls⟩ | ⟨hok, hgo, hcalls⟩
      · have hstop : (w.t.toNat + pf.step) % 2 ^ 64 ≤ s.nextTs := by
          rcases hstop with ⟨e, he⟩ | hstop
          · rw [hresult] at he
            nomatch he
          · rwa [hnext] at hstop
        rw [hcalls, List.forall_mem_singleton, onTrack_of_takes hfails hsome]
        simp only [List.filterMap_cons, List.filterMap_nil, htook]
        exact remaining_of_last_take h.ascending hmem hwcursor hstop hcons
      · have hrest := ih (call + 1) _ (hs.next h hlast hgo hok) (by omega)
        have hlater : remaining series to' _ = later series to' _ := remaining_of_takes h.ascending hmem (by omega) hnext hts
        rw [hcalls, List.forall_mem_cons, onTrack_of_takes hfails hsome]
        simp only [List.filterMap_cons, htook]
        constructor
        · intro heq
          have hw : w ∈ remaining series to' s := by
            rw [← heq]
            exact List.mem_cons_self
          have hto := (mem_remaining.mp hw).2.2.1
          rw [hcons hto, ← hlater] at heq
          exact ⟨⟨hto, fun hzero hsame => by omega⟩, hrest.mp (List.cons.inj heq).2⟩
        · rintro ⟨⟨hto, -⟩, hcallsOn⟩
          rw [hcons hto, hrest.mpr hcallsOn, hlater]

/-! ## The whole backtest -/

omit [Scalar F] in
/-- A fresh session starts at the beginning of the window, or after the first `step` seconds of 1970. -/
theorem startCursor_bounds (h : pf.calendar = cryptoCalendar) {from' : Nat} (to' : Nat) (hfrom : from' < 2 ^ 64) :
    from' ≤ startCursor pf from' to' ∧ startCursor pf from' to' ≤ Max.max from' pf.step ∧
      startCursor pf from' to' < 2 ^ 64 := by
  have hstep : pf.step < 2 ^ 64 := toTimestampSecs_lt _
  have hnext : pf.calendar.next (from' - toTimestampSecs pf.resolutionForTest) pf.resolutionForTest =
      Max.max from' pf.step := by
    rw [h]
    change (from' - pf.step + pf.step) % 2 ^ 64 = _
    omega
  unfold startCursor
  simp only [hnext]
  split_ifs <;> omega

/-- A backtest from a fresh session processes the candles of its window, each once and in order, and no other candle, exactly
when the window starts late enough and every call stays on track. -/
theorem evaluate_iff (pf : Portfolio F) (m : Surroundings F) (series : List (CandleStick F)) (from' to' : Nat)
    (h : Setting pf m series) (hfrom : from' < 2 ^ 64) (hto : to' < 2 ^ 64) :
    (evaluate pf m from' to' Session.new).candles = window series from' to' ↔
      StartsLate pf series from' to' ∧
      ∀ c ∈ (evaluate pf m from' to' Session.new).calls, OnTrack pf m series to' c.number c.before := by
  obtain ⟨hle, hbound, hlt⟩ := startCursor_bounds h.calendar to' hfrom
  obtain ⟨s, heval, hcursor, hreview, hts⟩ : ∃ s : Session F,
      evaluate pf m from' to' Session.new = evaluateLoop pf m to' (to' - s.nextTs) 0 s ∧
      s.nextTs = startCursor pf from' to' ∧ s.reviewAt = 0 ∧ s.candleTs = 0 :=
    ⟨{ Session.new with nextTs := startCursor pf from' to' }, rfl, rfl, rfl, rfl⟩
  have hs : AtCall from' s := ⟨by omega, by omega, by omega, by omega⟩
  rw [heval]
  have hremaining : StartsLate pf series from' to' → remaining series to' s = window series from' to' := by
    intro hstart
    unfold remaining window
    rw [List.filter_filter]
    refine List.filter_congr fun x hx => ?_
    rw [← Bool.decide_and, decide_eq_decide]
    constructor
    · rintro ⟨-, hx', hto⟩
      exact ⟨by omega, hto⟩
    · rintro ⟨hx', hto⟩
      obtain ⟨hpos, hlate⟩ := hstart x (mem_window.mpr ⟨hx, hx', hto⟩)
      exact ⟨by omega, by omega, hto⟩
  constructor
  · intro heq
    have hstart : StartsLate pf series from' to' := by
      intro x hx
      rw [← heq] at hx
      obtain ⟨-, -, hstep, hnew⟩ := candles_spec h hto _ _ _ hs x hx
      exact ⟨by omega, hstep⟩
    refine ⟨hstart, (loop_iff h hto hstart _ 0 _ hs (le_refl _)).mp ?_⟩
    rw [heq, hremaining hstart]
  · rintro ⟨hstart, hcalls⟩
    rw [(loop_iff h hto hstart _ 0 _ hs (le_refl _)).mpr hcalls, hremaining hstart]

end Backtest

/-! ## A gap at the end of the window -/

def cryptoPortfolio : Portfolio ℚ := { minutePortfolio with calendar := cryptoCalendar }

/-- An exact loader of a series, and a strategy that reviews every hour. -/
def hourlySurroundings (series : List (CandleStick ℚ)) : Surroundings ℚ where
  loader _ _ from' to' _ := .ok (window series from' to')
  now _ := 1000000
  answers _ := { quietCallbacks [] with next := fun t => Min.min (t + 3600) (2 ^ 64 - 1) }

/-- Three minutes of candles, and one after a gap. -/
def gapSeries : List (CandleStick ℚ) :=
  [minuteCandle 600 140 160, minuteCandle 660 140 160, minuteCandle 720 140 160, minuteCandle 1800 140 160]

theorem gapSeries_setting : Setting cryptoPortfolio (hourlySurroundings gapSeries) gapSeries where
  calendar := rfl
  ascending := ⟨by decide +kernel, by decide +kernel⟩
  exact _ _ from' to' _ := ⟨window gapSeries from' to', rfl, List.Perm.refl _⟩
  quiet _ _ _ := rfl
  next _ t h := by
    change t < Min.min (t + 3600) (2 ^ 64 - 1) ∧ Min.min (t + 3600) (2 ^ 64 - 1) < 2 ^ 64
    omega

/-- The window of the first three candles ends right behind them, and all calls stay on track. -/
theorem evaluate_iff_gapSeries :
    (evaluate cryptoPortfolio (hourlySurroundings gapSeries) 600 780 Session.new).candles = window gapSeries 600 780 ∧
    ∀ c ∈ (evaluate cryptoPortfolio (hourlySurroundings gapSeries) 600 780 Session.new).calls,
      OnTrack cryptoPortfolio (hourlySurroundings gapSeries) gapSeries 780 c.number c.before := by
  have hcandles : (evaluate cryptoPortfolio (hourlySurroundings gapSeries) 600 780 Session.new).candles =
      window gapSeries 600 780 := by decide +kernel
  exact ⟨hcandles, ((evaluate_iff _ _ _ 600 780 gapSeries_setting (by decide) (by decide)).mp hcandles).2⟩

/-- A window that ends in the gap is left through it: the candle behind the gap is processed as well. -/
theorem gap_before_end_overruns :
    Setting cryptoPortfolio (hourlySurroundings gapSeries) gapSeries ∧
    (window gapSeries 600 840).map CandleStick.t = [600, 660, 720] ∧
    (evaluate cryptoPortfolio (hourlySurroundings gapSeries) 600 840 Session.new).candles.map CandleStick.t =
      [600, 660, 720, 1800] :=
  ⟨gapSeries_setting, by decide +kernel, by decide +kernel⟩

end Opsense
