import Opsense.Kernel.Evaluate

/-!
# The stock calendar

`StockCalendar` of `opsense-qlib/src/calendar.rs`. The session is tested by the hour in Vietnam and the jumps outside of it go to
nine o'clock of the other clock, which is after the session: on a trading day the calendar goes on until the weekend and from there
to Monday. It finds the next instant of a session where there is no trading day in between (`stockNext_iff`). Sums of times wrap, as
they do in a release build.
-/

namespace Opsense

/-- Unix time to the hour in Vietnam. -/
def hourVn (ts : Nat) : Nat := (ts % 86400 / 3600 + 7) % 24

/-- Saturday or Sunday of the universal time; the first day was a Thursday. -/
def isWeekend (ts : Nat) : Bool :=
  let dow := (ts / 86400 + 4) % 7
  dow == 0 || dow == 6

def nextMonday00 (ts : Nat) : Nat :=
  let days := ts / 86400
  let dow := (days + 4) % 7
  let add := if dow = 0 then 1 else if dow = 6 then 2 else 0
  (days + add) * 86400 % 2 ^ 64

def nextMonday09 (ts : Nat) : Nat := (nextMonday00 ts + 2 * 3600) % 2 ^ 64

/-- One round of the loop: the time it goes on with, none when it ends. -/
def stockStep (ts : Nat) : Option Nat :=
  if isWeekend ts then some (nextMonday09 ts)
  else if hourVn ts < 9 then some ((ts - ts % 86400 + 9 * 3600) % 2 ^ 64)
  else if 15 ≤ hourVn ts then some ((ts - ts % 86400 + 86400 + 9 * 3600) % 2 ^ 64)
  else none

/-- The loop, for a number of rounds. -/
def stockLoop : Nat → Nat → Option Nat
  | 0, _ => none
  | fuel + 1, ts =>
    match stockStep ts with
    | some ts' => stockLoop fuel ts'
    | none => some ts

/-- `StockCalendar::next` -/
def stockNext (fuel current_ts : Nat) (resolution : String) : Option Nat :=
  stockLoop fuel ((current_ts + toTimestampSecs resolution) % 2 ^ 64)

/-! ## The sessions -/

/-- A session is on a weekday in Vietnam, from nine to fifteen o'clock. -/
def InSession (ts : Nat) : Prop :=
  let ts_vn := ts + 7 * 3600
  isWeekend ts_vn = false ∧ 9 * 3600 ≤ ts_vn % 86400 ∧ ts_vn % 86400 < 15 * 3600

variable {ts : Nat}

/-- The loop ends exactly within a session. -/
theorem stockStep_none : stockStep ts = none ↔ InSession ts := by
  unfold stockStep InSession isWeekend hourVn
  dsimp only
  split_ifs <;> simp at * <;> omega

/-- The Monday after the week of a time, at nine in Vietnam. -/
def monday (ts : Nat) : Nat := (7 * ((ts / 86400 + 3) / 7) + 4) * 86400 + 7200

/-- Where the loop ends that starts outside of a session: at the Monday after the week, or at the first Monday there is when
that one overflows. -/
def stockTarget (ts : Nat) : Nat := if monday ts < 2 ^ 64 then monday ts else 352800

theorem stockTarget_of_lt (h : monday ts < 2 ^ 64) : stockTarget ts = monday ts := if_pos h

theorem stockTarget_of_not_lt (h : ¬monday ts < 2 ^ 64) : stockTarget ts = 352800 := if_neg h

/-- The rounds that are left. -/
def stockRank (ts : Nat) : Nat :=
  2 * (6 - (ts / 86400 + 3) % 7) + (if hourVn ts < 9 then 1 else 0) + if monday ts < 2 ^ 64 then 0 else 20

/-- The day and the second of a day of a time. -/
theorem monday_eq {d r : Nat} (hr : r < 86400) : monday (d * 86400 + r) = (7 * ((d + 3) / 7) + 4) * 86400 + 7200 := by
  unfold monday
  omega

theorem stockRank_eq {d r : Nat} (hr : r < 86400) :
    stockRank (d * 86400 + r) = 2 * (6 - (d + 3) % 7) + (if r < 7200 ∨ 61200 ≤ r then 1 else 0) +
      if monday (d * 86400 + r) < 2 ^ 64 then 0 else 20 := by
  have hday : (d * 86400 + r) / 86400 = d := by omega
  have hhour : hourVn (d * 86400 + r) < 9 ↔ r < 7200 ∨ 61200 ≤ r := by
    unfold hourVn
    omega
  unfold stockRank
  simp only [hday, hhour]

theorem stockStep_eq {d r : Nat} (hr : r < 86400) :
    stockStep (d * 86400 + r) =
      if 5 ≤ (d + 3) % 7 then some (monday (d * 86400 + r) % 2 ^ 64)
      else if r < 7200 ∨ 61200 ≤ r then some ((d * 86400 + 32400) % 2 ^ 64)
      else if 28800 ≤ r then some (((d + 1) * 86400 + 32400) % 2 ^ 64)
      else none := by
  have hday : (d * 86400 + r) / 86400 = d := by omega
  have hsecond : (d * 86400 + r) % 86400 = r := by omega
  have hweekend : isWeekend (d * 86400 + r) = true ↔ 5 ≤ (d + 3) % 7 := by
    unfold isWeekend
    simp only [hday, Bool.or_eq_true, beq_iff_eq]
    omega
  have hearly : hourVn (d * 86400 + r) < 9 ↔ r < 7200 ∨ 61200 ≤ r := by
    unfold hourVn
    omega
  have hlate : 15 ≤ hourVn (d * 86400 + r) ↔ 28800 ≤ r ∧ r < 61200 := by
    unfold hourVn
    omega
  have hmonday : 5 ≤ (d + 3) % 7 → nextMonday09 (d * 86400 + r) = monday (d * 86400 + r) % 2 ^ 64 := by
    intro hend
    have hadd : (if (d + 4) % 7 = 0 then 1 else if (d + 4) % 7 = 6 then 2 else 0) = 7 * ((d + 3) / 7) + 4 - d := by
      split_ifs <;> omega
    unfold nextMonday09 nextMonday00
    rw [monday_eq hr, hday]
    dsimp only
    have hsum : (d + (7 * ((d + 3) / 7) + 4 - d)) * 86400 + 2 * 3600 = (7 * ((d + 3) / 7) + 4) * 86400 + 7200 := by omega
    rw [hadd, Nat.mod_add_mod, hsum]
  unfold stockStep
  simp only [hweekend, hearly, hlate, hsecond]
  split_ifs with hend hbefore hlate' hafter hafter
  · rw [hmonday hend]
  · congr 2
    omega
  · congr 2
    omega
  · exact absurd hlate'.1 hafter
  · exact absurd ⟨hafter, by omega⟩ hlate'
  · rfl

/-- A round outside of a session goes to the target, or nearer to it. -/
theorem stockStep_some {ts ts' : Nat} (hlt : ts < 2 ^ 64) (h : stockStep ts = some ts') :
    ts' = stockTarget ts ∨ (stockStep ts').isSome ∧ ts' < 2 ^ 64 ∧ stockTarget ts' = stockTarget ts ∧ stockRank ts' < stockRank ts := by
  obtain ⟨d, r, hr, rfl⟩ : ∃ d r, r < 86400 ∧ ts = d * 86400 + r := ⟨ts / 86400, ts % 86400, by omega, by omega⟩
  have hd : d ≤ 213503982334601 := by omega
  -- at nine of the universal time, on a weekday of the week or on Saturday
  have hnine : ∀ e, (e + 3) / 7 = (d + 3) / 7 → (e + 3) % 7 < 6 →
      2 * (6 - (e + 3) % 7) < 2 * (6 - (d + 3) % 7) + (if r < 7200 ∨ 61200 ≤ r then 1 else 0) → e * 86400 < 2 ^ 64 →
      (stockStep ((e * 86400 + 32400) % 2 ^ 64)).isSome ∧ (e * 86400 + 32400) % 2 ^ 64 < 2 ^ 64 ∧
        stockTarget ((e * 86400 + 32400) % 2 ^ 64) = stockTarget (d * 86400 + r) ∧ stockRank ((e * 86400 + 32400) % 2 ^ 64) < stockRank (d * 86400 + r) := by
    intro e hweek hday hrank he
    rcases Nat.lt_or_ge (e * 86400 + 32400) (2 ^ 64) with hsmall | hover
    · have hmonday : monday (e * 86400 + 32400) = monday (d * 86400 + r) := by
        rw [monday_eq (by decide), monday_eq hr, hweek]
      rw [Nat.mod_eq_of_lt hsmall]
      refine ⟨?_, hsmall, ?_, ?_⟩
      · rw [stockStep_eq (by decide)]
        split_ifs <;> first | rfl | omega
      · unfold stockTarget
        rw [hmonday]
      · rw [stockRank_eq (by decide), stockRank_eq hr, hmonday, if_neg (by decide)]
        omega
    · obtain rfl : e = 213503982334601 := by omega
      have hmonday : ¬monday (d * 86400 + r) < 2 ^ 64 := by
        rw [monday_eq hr]
        omega
      refine ⟨by decide +kernel, by decide +kernel, ?_, ?_⟩
      · rw [stockTarget_of_not_lt hmonday]
        decide +kernel
      · rw [stockRank_eq hr, if_neg hmonday]
        have : stockRank ((213503982334601 * 86400 + 32400) % 2 ^ 64) = 7 := by decide +kernel
        omega
  rw [stockStep_eq hr] at h
  split_ifs at h with hend hbefore hlate
  · left
    have hweek : (d + 3) / 7 ≤ 30500568904942 := by
      clear hnine hlt
      omega
    have hbound : monday (d * 86400 + r) < 2 ^ 64 := by
      rw [monday_eq hr]
      clear hnine hlt hend hd
      omega
    rw [← Option.some.inj h, stockTarget_of_lt hbound, Nat.mod_eq_of_lt hbound]
  · right
    rw [← Option.some.inj h]
    refine hnine d rfl (by omega) ?_ (by clear hend hbefore hlt; omega)
    rw [if_pos hbefore]
    omega
  · right
    rw [← Option.some.inj h]
    refine hnine (d + 1) (by omega) (by omega) ?_ (by omega)
    rw [if_neg hbefore]
    omega

/-! ## The loop -/

/-- A time by its day and its second of the day. -/
theorem inSession_iff {d r : Nat} (hr : r < 86400) : InSession (d * 86400 + r) ↔ (d + 3) % 7 < 5 ∧ 7200 ≤ r ∧ r < 28800 := by
  rw [← stockStep_none, stockStep_eq hr]
  split_ifs <;> simp <;> omega

theorem stockTarget_inSession (ts : Nat) : InSession (stockTarget ts) := by
  rcases Nat.lt_or_ge (monday ts) (2 ^ 64) with hlt | hge
  · rw [stockTarget_of_lt hlt]
    unfold monday
    rw [inSession_iff (by decide)]
    omega
  · rw [stockTarget_of_not_lt (not_lt.mpr hge)]
    unfold InSession
    decide

theorem stockTarget_lt (ts : Nat) : stockTarget ts < 2 ^ 64 := by
  unfold stockTarget
  split_ifs with h
  · exact h
  · decide

theorem stockRank_lt (ts : Nat) : stockRank ts < 34 := by
  unfold stockRank
  split_ifs <;> omega

theorem stockLoop_inside {n ts : Nat} (h : InSession ts) : stockLoop (n + 1) ts = some ts := by
  rw [stockLoop, stockStep_none.mpr h]

/-- Outside of a session the loop ends at the target. -/
theorem stockLoop_outside : ∀ {n ts : Nat}, stockRank ts < n → ts < 2 ^ 64 → ¬InSession ts → stockLoop (n + 1) ts = some (stockTarget ts) := by
  intro n
  induction n with
  | zero => exact fun h => absurd h (Nat.not_lt_zero _)
  | succ n ih =>
    intro ts hrank hlt hout
    obtain ⟨ts', hstep⟩ := Option.ne_none_iff_exists'.mp (mt stockStep_none.mp hout)
    have hloop : stockLoop (n + 1 + 1) ts = stockLoop (n + 1) ts' := by
      rw [stockLoop, hstep]
    rw [hloop]
    rcases stockStep_some hlt hstep with hend | ⟨hsome, hlt', htarget, hless⟩
    · rw [hend, stockLoop_inside (stockTarget_inSession ts)]
    · have hout' : ¬InSession ts' := fun hin => by rw [stockStep_none.mpr hin] at hsome; cases hsome
      rw [ih (hless.trans_le (Nat.le_of_lt_succ hrank)) hlt' hout', htarget]

/-- More rounds do not change where the loop ends. -/
theorem stockLoop_unique : ∀ {m n ts t t' : Nat}, stockLoop m ts = some t → stockLoop n ts = some t' → t = t' := by
  intro m
  induction m with
  | zero => exact fun h => nomatch h
  | succ m ih =>
    intro n ts t t' hm hn
    cases n with
    | zero => cases hn
    | succ n =>
      unfold stockLoop at hm hn
      cases hstep : stockStep ts with
      | none =>
        rw [hstep] at hm hn
        exact Option.some.inj (hm.symm.trans hn)
      | some ts' =>
        rw [hstep] at hm hn
        exact ih hm hn

/-- Where the loop ends. -/
theorem stockLoop_eq {n ts t : Nat} (hlt : ts < 2 ^ 64) (h : stockLoop n ts = some t) :
    InSession ts ∧ t = ts ∨ ¬InSession ts ∧ t = stockTarget ts := by
  by_cases hin : InSession ts
  · exact .inl ⟨hin, stockLoop_unique h (stockLoop_inside (n := 0) hin)⟩
  · exact .inr ⟨hin, stockLoop_unique h (stockLoop_outside (stockRank_lt ts) hlt hin)⟩

/-- `StockCalendar` as the kernel takes it; a stock may be sold three candles after it was bought. -/
def stockCalendar : Calendar where
  next current_ts resolution := (stockNext 35 current_ts resolution).getD 0
  settlementCandles := 3

/-- The loop ends after at most thirty-five rounds, also where a sum has wrapped, and always at an instant of a session. -/
theorem stockNext_terminates (current_ts : Nat) (resolution : String) :
    stockNext 35 current_ts resolution = some (stockCalendar.next current_ts resolution) ∧
      InSession (stockCalendar.next current_ts resolution) := by
  have hends : ∃ t, stockNext 35 current_ts resolution = some t ∧ InSession t := by
    unfold stockNext
    by_cases hin : InSession ((current_ts + toTimestampSecs resolution) % 2 ^ 64)
    · exact ⟨_, stockLoop_inside hin, hin⟩
    · exact ⟨_, stockLoop_outside (stockRank_lt _) (Nat.mod_lt _ (by decide)) hin, stockTarget_inSession _⟩
  obtain ⟨t, ht, hin⟩ := hends
  have hnext : stockCalendar.next current_ts resolution = t := congrArg (Option.getD · 0) ht
  exact ⟨hnext ▸ ht, hnext ▸ hin⟩

/-! ## The next session -/

/-- The week has no session left: it is a weekend, or Friday after the session. -/
def WeekOver (ts : Nat) : Prop := 5 ≤ (ts / 86400 + 3) % 7 ∨ (ts / 86400 + 3) % 7 = 4 ∧ 28800 ≤ ts % 86400

theorem not_inSession_of_weekOver (h : WeekOver ts) : ¬InSession ts := by
  obtain ⟨d, r, hr, rfl⟩ : ∃ d r, r < 86400 ∧ ts = d * 86400 + r := ⟨ts / 86400, ts % 86400, by omega, by omega⟩
  unfold WeekOver at h
  rw [inSession_iff hr]
  omega

/-- The last instant there is lies on a Thursday. -/
theorem monday_lt (hlt : ts < 2 ^ 64) (h : WeekOver ts) : monday ts < 2 ^ 64 := by
  have hday : ts / 86400 ≤ 213503982334601 := by omega
  have hweek : (ts / 86400 + 3) / 7 ≤ 30500568904942 := by
    have hfriday : 4 ≤ (ts / 86400 + 3) % 7 := h.elim (fun hend => by omega) fun hfriday => hfriday.1.ge
    clear h hlt
    omega
  unfold monday
  clear h hlt hday
  omega

/-- After the sessions of a week the next one is that of Monday. -/
theorem isLeast_monday (h : WeekOver ts) : IsLeast {t | ts ≤ t ∧ InSession t} (monday ts) := by
  obtain ⟨d, r, hr, rfl⟩ : ∃ d r, r < 86400 ∧ ts = d * 86400 + r := ⟨ts / 86400, ts % 86400, by omega, by omega⟩
  unfold WeekOver at h
  rw [monday_eq hr]
  refine ⟨⟨by omega, (inSession_iff (by decide)).mpr (by omega)⟩, ?_⟩
  rintro t ⟨hle, hin⟩
  obtain ⟨e, q, hq, rfl⟩ : ∃ e q, q < 86400 ∧ t = e * 86400 + q := ⟨t / 86400, t % 86400, by omega, by omega⟩
  obtain ⟨hday, hafter, hbefore⟩ := (inSession_iff hq).mp hin
  have hlater : d ≤ e := by omega
  have hmonday : 7 * ((d + 3) / 7) + 4 ≤ e := by
    rcases h with hend | ⟨hfriday, hlate⟩
    · omega
    · omega
  exact Nat.add_le_add (Nat.mul_le_mul_right _ hmonday) hafter

/-- Before the last session of a week there is one before Monday. -/
theorem exists_session (hout : ¬InSession ts) (h : ¬WeekOver ts) : ∃ t, ts ≤ t ∧ InSession t ∧ t < monday ts := by
  obtain ⟨d, r, hr, rfl⟩ : ∃ d r, r < 86400 ∧ ts = d * 86400 + r := ⟨ts / 86400, ts % 86400, by omega, by omega⟩
  unfold WeekOver at h
  rw [inSession_iff hr] at hout
  rw [monday_eq hr]
  rcases Nat.lt_or_ge r 7200 with hbefore | hlate
  · exact ⟨d * 86400 + 7200, by omega, (inSession_iff (by decide)).mpr (by omega), by omega⟩
  · exact ⟨(d + 1) * 86400 + 7200, by omega, (inSession_iff (by decide)).mpr (by omega), by omega⟩

/-- The calendar answers with the next instant of a session exactly when it is in one or the sessions of the week are over. -/
theorem stockNext_iff (current_ts : Nat) (resolution : String) :
    (∃ fuel t, stockNext fuel current_ts resolution = some t ∧
        IsLeast {t | current_ts + toTimestampSecs resolution ≤ t ∧ InSession t} t) ↔
      current_ts + toTimestampSecs resolution < 2 ^ 64 ∧
        (InSession (current_ts + toTimestampSecs resolution) ∨ WeekOver (current_ts + toTimestampSecs resolution)) := by
  unfold stockNext
  generalize current_ts + toTimestampSecs resolution = s
  constructor
  · rintro ⟨fuel, t, hloop, ⟨hle, -⟩, hleast⟩
    have hlt : s < 2 ^ 64 := by
      have hmod : s % 2 ^ 64 < 2 ^ 64 := Nat.mod_lt _ (by decide)
      refine hle.trans_lt ?_
      rcases stockLoop_eq hmod hloop with ⟨-, heq⟩ | ⟨-, heq⟩ <;> rw [heq]
      · exact hmod
      · exact stockTarget_lt _
    refine ⟨hlt, ?_⟩
    rw [Nat.mod_eq_of_lt hlt] at hloop
    rcases stockLoop_eq hlt hloop with ⟨hin, -⟩ | ⟨hout, heq⟩
    · exact .inl hin
    · refine .inr (not_not.mp fun hweek => ?_)
      obtain ⟨t, hst, hin, hmonday⟩ := exists_session hout hweek
      have hearlier := hleast ⟨hst, hin⟩
      rw [heq] at hearlier hle
      rcases Nat.lt_or_ge (monday s) (2 ^ 64) with hsmall | hover
      · rw [stockTarget_of_lt hsmall] at hearlier
        exact absurd hmonday (not_lt.mpr hearlier)
      · -- the week after overflows, and the loop starts again long before
        rw [stockTarget_of_not_lt (not_lt.mpr hover)] at hle
        unfold monday at hover
        omega
  · rintro ⟨hlt, hin | hweek⟩
    · refine ⟨1, s, ?_, ⟨le_rfl, hin⟩, fun t ht => ht.1⟩
      rw [Nat.mod_eq_of_lt hlt, stockLoop_inside hin]
    · refine ⟨35, monday s, ?_, isLeast_monday hweek⟩
      rw [Nat.mod_eq_of_lt hlt, stockLoop_outside (stockRank_lt s) hlt (not_inSession_of_weekOver hweek), stockTarget_of_lt (monday_lt hlt hweek)]

/-- After the last minute of a Tuesday session the calendar answers with the next Monday; the session of Wednesday and two more
are passed over. -/
theorem tuesday_to_monday :
    stockNext 35 1699948740 "1m" = some 1700445600 ∧ 1699948740 + toTimestampSecs "1m" ≤ 1700013600 ∧ InSession 1700013600 ∧
      1700013600 + 5 * 86400 = 1700445600 := by
  refine ⟨by decide +kernel, by decide +kernel, ?_, rfl⟩
  unfold InSession
  decide

end Opsense
