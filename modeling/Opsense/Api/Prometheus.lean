import Opsense.Lib.Checked
import Opsense.Lib.Groups
import Opsense.Station.Block

/-!
# Metrics for Prometheus

`collect_station` and `render_prometheus` of `opsense/src/api/prometheus.rs`. The newest observation is kept of every `series_key`, a
text in which names and values are joined without escapes. So a series is that of an identity where different identities have different
keys (`newest_per_series_iff`), and a page is well formed where the labels of what is shown are names of their own and what is copied
as it is needs no escape (`exposition_valid_iff`).
-/

namespace Opsense

namespace Prometheus

structure Series where
  name : String
  /-- The bits of the `f64`. -/
  value : UInt64
  labels : List (String × String)
deriving DecidableEq

/-- What is read of a target. -/
structure StationTarget where
  station : String
  signals : List String
  window_secs : Option Nat
  exclude_kinds : List String

def seriesKey (s : Series) : String :=
  ",".intercalate (s.name :: (s.labels.insertionSort fun a b => a.1 ≤ b.1).map fun l => l.1 ++ "=" ++ l.2)

def isNameChar (c : Char) : Bool := c.isAlphanum || c = '_' || c = ':'

/-- The loop of `sanitize_metric_name`, with `seen_alpha` and `added_leading_digit_underscore`. -/
def sanitizeLoop : Bool → Bool → List Char → List Char
  | _, _, [] => []
  | false, underscore, c :: cs =>
    if c.isAlpha || c = '_' || c = ':' then c :: sanitizeLoop true underscore cs
    else if c.isDigit then if underscore then sanitizeLoop false underscore cs else '_' :: sanitizeLoop false true cs
    else if isNameChar c then c :: sanitizeLoop false underscore cs
    else '_' :: sanitizeLoop false underscore cs
  | true, underscore, c :: cs => (if isNameChar c then c else '_') :: sanitizeLoop true underscore cs

def sanitizeMetricName (metric_id : String) : String :=
  let out := sanitizeLoop false false metric_id.toList
  "opsense_" ++ if out = [] then "metric" else String.ofList out

/-- `str::replace` of a character. -/
def replaceChar (c : Char) ( to_ text : List Char) : List Char := text.flatMap fun d => if d = c then to_ else [d]

def escapeLabelValue (v : String) : String :=
  String.ofList (replaceChar '\n' ['\\', 'n'] (replaceChar '"' ['\\', '"'] (replaceChar '\\' ['\\', '\\'] v.toList)))

def signalText : Signal → String
  | .raw => "raw"
  | .summary => "summary"
  | .utilization => "utilization"
  | .saturation => "saturation"
  | .rate => "rate"
  | .errors => "errors"
  | .duration => "duration"
  | .order => "order"

/-- The gates of `collect_station`. -/
def passes (cfg : StationTarget) (now : Int) (o : Observation) : Bool :=
  let window_secs := max (cfg.window_secs.getD 120) 1
  let cutoff := clampI64 (now - asI64 window_secs)
  let allow_signals := if cfg.signals = [] then ["raw", "summary"] else cfg.signals
  let kind := o.labels.get "kind"
  !(o.ts < cutoff || signalText o.signal ∉ allow_signals || kind = some "trading_step" || signalText o.signal = "order" ||
    kind.any fun kind => kind ∈ cfg.exclude_kinds)

/-- The labels of an observation that a series takes. -/
def ownLabels (o : Observation) : List (String × String) := o.labels.val.filter fun l => ¬(l.1 = "kind" ∧ l.2 = "trading_step")

/-- The series of an observation. -/
def seriesOf (cfg : StationTarget) (o : Observation) : Series :=
  ⟨sanitizeMetricName o.metric_id, o.value, ("component", cfg.station) :: ("signal", signalText o.signal) ::
    ("metric_id", o.metric_id) :: (ownLabels o).map fun l => (l.1, escapeLabelValue l.2)⟩

/-- The newer of two observations, of two of one time the first. -/
def keepNewest : Option Observation → Observation → Observation
  | none, o => o
  | some existing, o => if existing.ts < o.ts then o else existing

def byKey (obs : List Observation) (cfg : StationTarget) (now : Int) : Finmap fun _ : String => Observation :=
  Groups.collect keepNewest (fun o => seriesKey (seriesOf cfg o)) ∅ (obs.filter (passes cfg now))

/-- The observations that are kept, in the order of their keys. -/
def kept (obs : List Observation) (cfg : StationTarget) (now : Int) : List Observation :=
  (Groups.inOrder (byKey obs cfg now).keys).filterMap (byKey obs cfg now).lookup

def collectStation (obs : List Observation) (cfg : StationTarget) (now : Int) : List Series := (kept obs cfg now).map (seriesOf cfg)

/-- A line of the page. -/
inductive Line where
  | comment (text : String)
  | sample (name : String) (labels : List (String × String)) (value : String)

def Line.text : Line → String
  | comment text => text ++ "\n"
  | sample name labels value =>
    name ++ (if labels = [] then "" else "\x7b" ++ ",".intercalate (labels.map fun l => l.1 ++ "=\"" ++ l.2 ++ "\"") ++ "\x7d") ++ " " ++
      value ++ "\n"

/-- The lines of `render_prometheus`. `display` is the text of a value. -/
def renderLines (display : UInt64 → String) (series : List Series) (dropped : Nat) : List Line :=
  (Groups.inOrder (series.map Series.name).toFinset).flatMap (fun name =>
    .comment ("# HELP " ++ name ++ " Opsense component metric") :: .comment ("# TYPE " ++ name ++ " gauge") ::
      (series.filter fun s => s.name = name).map fun s => .sample name s.labels (display s.value)) ++
  if 0 < dropped then
    [.comment "# HELP opsense_prometheus_dropped_series Total series dropped due to max_series limit",
      .comment "# TYPE opsense_prometheus_dropped_series counter", .sample "opsense_prometheus_dropped_series" [] (toString dropped)]
  else []

def renderPrometheus (display : UInt64 → String) (series : List Series) (dropped : Nat) : String :=
  String.join ((renderLines display series dropped).map Line.text)

/-! ## The newest of a key -/

/-- What a series is told apart by. -/
def identity (o : Observation) : String × Signal × Labels := (o.metric_id, o.signal, o.labels)

/-- One series for every identity that passes, of the newest of its observations. -/
def NewestPerSeries (obs : List Observation) (cfg : StationTarget) (now : Int) : Prop :=
  ∃ newest : List Observation, collectStation obs cfg now = newest.map (seriesOf cfg) ∧ (newest.map identity).Nodup ∧
    (∀ o ∈ obs, passes cfg now o = true → identity o ∈ newest.map identity) ∧
    ∀ r ∈ newest, r ∈ obs ∧ passes cfg now r = true ∧
      ∀ o ∈ obs, passes cfg now o = true → identity o = identity r → o.ts ≤ r.ts

/-- The key of the series of an observation. -/
def keyOf (cfg : StationTarget) (o : Observation) : String := seriesKey (seriesOf cfg o)

/-- An observation that is shown: it passes, and of those of its key that pass the ones before it are older and those after it no newer. -/
def Shown (obs : List Observation) (cfg : StationTarget) (now : Int) (o : Observation) : Prop :=
  ∃ before after, obs = before ++ o :: after ∧ passes cfg now o = true ∧
    (∀ a ∈ before, passes cfg now a = true → keyOf cfg a = keyOf cfg o → a.ts < o.ts) ∧
    ∀ a ∈ after, passes cfg now a = true → keyOf cfg a = keyOf cfg o → a.ts ≤ o.ts

variable {obs : List Observation} {cfg : StationTarget} {now : Int}

variable {a b : Observation}

theorem keyOf_eq (h : identity a = identity b) : keyOf cfg a = keyOf cfg b := by
  unfold identity at h
  obtain ⟨hid, hsignal, hlabels⟩ : a.metric_id = b.metric_id ∧ a.signal = b.signal ∧ a.labels = b.labels := by simpa using h
  simp only [keyOf, seriesOf, seriesKey, ownLabels, hid, hsignal, hlabels]

/-- Of a group the first of its newest observations is kept. -/
theorem newest_of_foldl (group : List Observation) :
    match group.foldl (fun group o => some (keepNewest group o)) none with
    | none => group = []
    | some r => ∃ before after, group = before ++ r :: after ∧ (∀ a ∈ before, a.ts < r.ts) ∧ ∀ a ∈ after, a.ts ≤ r.ts := by
  induction group using List.reverseRecOn with
  | nil => rfl
  | append_singleton group o ih =>
    rw [List.foldl_append, List.foldl_cons, List.foldl_nil]
    cases hnewest : group.foldl (fun group o => some (keepNewest group o)) none with
    | none =>
      rw [hnewest] at ih
      subst ih
      exact ⟨[], [], rfl, by simp, by simp⟩
    | some r =>
      rw [hnewest] at ih
      obtain ⟨before, after, rfl, hbefore, hafter⟩ := ih
      simp only [keepNewest]
      split_ifs with hlt
      · refine ⟨before ++ r :: after, [], by simp, ?_, by simp⟩
        intro a ha
        simp only [List.mem_append, List.mem_cons] at ha
        rcases ha with ha | rfl | ha
        · exact (hbefore a ha).trans hlt
        · exact hlt
        · exact (hafter a ha).trans_lt hlt
      · refine ⟨before, after ++ [o], by simp, hbefore, ?_⟩
        intro a ha
        simp only [List.mem_append, List.mem_singleton] at ha
        rcases ha with ha | rfl
        · exact hafter a ha
        · exact not_lt.mp hlt

theorem lookup_byKey (k : String) : (byKey obs cfg now).lookup k =
    (obs.filter fun o => passes cfg now o && decide (keyOf cfg o = k)).foldl (fun group o => some (keepNewest group o)) none := by
  unfold byKey
  rw [Groups.lookup_collect, List.filter_filter, Finmap.lookup_empty]
  simp only [keyOf, Bool.and_comm]
  rfl

/-- What is kept under a key is shown and of that key. -/
theorem shown_of_lookup {k : String} {r : Observation} (h : (byKey obs cfg now).lookup k = some r) :
    keyOf cfg r = k ∧ Shown obs cfg now r := by
  have hnewest := newest_of_foldl (obs.filter fun o => passes cfg now o && decide (keyOf cfg o = k))
  rw [← lookup_byKey, h] at hnewest
  obtain ⟨before, after, hgroup, hbefore, hafter⟩ := hnewest
  obtain ⟨l₁, l₂, rfl, rfl, hrest⟩ := List.filter_eq_append_iff.mp hgroup
  obtain ⟨l₃, l₄, rfl, hnone, hr, rfl⟩ := List.filter_eq_cons_iff.mp hrest
  simp only [Bool.and_eq_true, decide_eq_true_eq] at hr hnone
  obtain ⟨hpass, rfl⟩ := hr
  refine ⟨rfl, l₁ ++ l₃, l₄, by simp, hpass, ?_, ?_⟩
  · intro a ha hpassA hkey
    rcases List.mem_append.mp ha with ha | ha
    · exact hbefore a (List.mem_filter.mpr ⟨ha, by simp [hpassA, hkey]⟩)
    · exact absurd ⟨hpassA, hkey⟩ (hnone a ha)
  · intro a ha hpassA hkey
    exact hafter a (List.mem_filter.mpr ⟨ha, by simp [hpassA, hkey]⟩)

variable {o : Observation}

theorem exists_lookup (ho : o ∈ obs) (hpass : passes cfg now o = true) :
    ∃ r, (byKey obs cfg now).lookup (keyOf cfg o) = some r := by
  have hnewest := newest_of_foldl (obs.filter fun a => passes cfg now a && decide (keyOf cfg a = keyOf cfg o))
  rw [← lookup_byKey] at hnewest
  cases h : (byKey obs cfg now).lookup (keyOf cfg o) with
  | some r => exact ⟨r, rfl⟩
  | none =>
    rw [h] at hnewest
    have hmem : o ∈ obs.filter fun a => passes cfg now a && decide (keyOf cfg a = keyOf cfg o) := by simp [ho, hpass]
    rw [hnewest] at hmem
    cases hmem

/-- Of two observations of one key the one before the other is not shown with it. -/
theorem Shown.eq_of_key (ha : Shown obs cfg now a) (hb : Shown obs cfg now b) (hkey : keyOf cfg a = keyOf cfg b) :
    a = b := by
  obtain ⟨before, after, rfl, hpassA, hbeforeA, hafterA⟩ := ha
  obtain ⟨before', after', heq, hpassB, hbeforeB, hafterB⟩ := hb
  rcases List.append_eq_append_iff.mp heq with ⟨mid, rfl, hrest⟩ | ⟨mid, rfl, hrest⟩ <;> cases mid with
  | nil => simp at hrest; first | exact hrest.1 | exact hrest.1.symm
  | cons c mid =>
    obtain ⟨rfl, rfl⟩ := List.cons.inj hrest
    first
    | exact absurd (hbeforeB a (by simp) hpassA hkey) (not_lt.mpr (hafterA b (by simp) hpassB hkey.symm))
    | exact absurd (hbeforeA b (by simp) hpassB hkey.symm) (not_lt.mpr (hafterB a (by simp) hpassA hkey))

/-- What is kept has the keys of what passes, every one once. -/
theorem map_keyOf_kept : (kept obs cfg now).map (keyOf cfg) = Groups.inOrder (byKey obs cfg now).keys := by
  have hkeys : ∀ ks : List String, (∀ k ∈ ks, k ∈ byKey obs cfg now) →
      (ks.filterMap (byKey obs cfg now).lookup).map (keyOf cfg) = ks := by
    intro ks hks
    induction ks with
    | nil => rfl
    | cons k ks ih =>
      obtain ⟨r, hr⟩ := Finmap.mem_iff.mp (hks k List.mem_cons_self)
      simp only [List.filterMap_cons, hr, List.map_cons, (shown_of_lookup hr).1]
      rw [ih fun k hk => hks k (List.mem_cons_of_mem _ hk)]
  refine hkeys _ fun k hk => ?_
  simpa [Groups.inOrder, Finmap.mem_keys] using hk

theorem nodup_keyOf_kept : ((kept obs cfg now).map (keyOf cfg)).Nodup := by
  rw [map_keyOf_kept]
  exact Finset.sort_nodup _ _

theorem mem_kept : o ∈ kept obs cfg now ↔ Shown obs cfg now o := by
  constructor
  · intro h
    obtain ⟨k, -, hk⟩ := List.mem_filterMap.mp h
    exact (shown_of_lookup hk).2
  · intro h
    obtain ⟨before, after, hobs, hpass, -⟩ := id h
    have ho : o ∈ obs := hobs ▸ (by simp : o ∈ before ++ o :: after)
    obtain ⟨r, hr⟩ := exists_lookup ho hpass
    obtain ⟨hkey, hshown⟩ := shown_of_lookup hr
    obtain rfl := hshown.eq_of_key h hkey
    refine List.mem_filterMap.mpr ⟨keyOf cfg r, ?_, hr⟩
    simpa [Groups.inOrder, Finmap.mem_keys] using Finmap.mem_iff.mpr ⟨r, hr⟩

/-- Series of one identity share a key: what is kept has one observation for every identity. -/
theorem nodup_identity_kept : ((kept obs cfg now).map identity).Nodup := by
  have h : ((kept obs cfg now).map (keyOf cfg)).Nodup := nodup_keyOf_kept
  rw [List.Nodup, List.pairwise_map] at h ⊢
  exact h.imp fun hne heq => hne (keyOf_eq heq)

theorem NewestPerSeries.identity_eq (h : NewestPerSeries obs cfg now) (ha : a ∈ obs) (hb : b ∈ obs) (hpassA : passes cfg now a = true)
    (hpassB : passes cfg now b = true) (hkey : keyOf cfg a = keyOf cfg b) :
    identity a = identity b := by
  obtain ⟨newest, hseries, -, hall, -⟩ := h
  obtain ⟨r, hr, hidA⟩ := List.mem_map.mp (hall a ha hpassA)
  obtain ⟨r', hr', hidB⟩ := List.mem_map.mp (hall b hb hpassB)
  have hsame : (kept obs cfg now).map (keyOf cfg) = newest.map (keyOf cfg) := by
    have hkeys := congrArg (List.map seriesKey) hseries
    unfold collectStation at hkeys
    rwa [List.map_map, List.map_map] at hkeys
  have hnodup : ((kept obs cfg now).map (keyOf cfg)).Nodup := nodup_keyOf_kept
  rw [hsame] at hnodup
  have heq : r = r' := List.inj_on_of_nodup_map hnodup hr hr' ((keyOf_eq hidA).trans (hkey.trans (keyOf_eq hidB).symm))
  rw [← hidA, ← hidB, heq]

/-- A series is shown for every identity, of the newest of its observations, exactly if no two observations that pass differ in their
identity and not in the text of their key. -/
theorem newest_per_series_iff (obs : List Observation) (cfg : StationTarget) (now : Int) : NewestPerSeries obs cfg now ↔
    ∀ a ∈ obs, ∀ b ∈ obs, passes cfg now a = true → passes cfg now b = true →
      seriesKey (seriesOf cfg a) = seriesKey (seriesOf cfg b) → identity a = identity b := by
  constructor
  · intro h a ha b hb hpassA hpassB hkey
    exact h.identity_eq ha hb hpassA hpassB hkey
  · intro h
    refine ⟨kept obs cfg now, rfl, nodup_identity_kept, ?_, ?_⟩
    · intro o ho hpass
      obtain ⟨r, hr⟩ := exists_lookup ho hpass
      obtain ⟨hkey, hshown⟩ := shown_of_lookup hr
      obtain ⟨before, after, rfl, hpassR, -⟩ := id hshown
      exact List.mem_map.mpr ⟨r, mem_kept.mpr hshown, h r (by simp) o ho hpassR hpass hkey⟩
    · intro r hr
      obtain ⟨before, after, rfl, hpassR, hbefore, hafter⟩ := mem_kept.mp hr
      refine ⟨by simp, hpassR, fun o ho hpass hid => ?_⟩
      have hkey : keyOf cfg o = keyOf cfg r := keyOf_eq hid
      simp only [List.mem_append, List.mem_cons] at ho
      rcases ho with ho | rfl | ho
      · exact (hbefore o ho hpass hkey).le
      · exact le_rfl
      · exact hafter o ho hpass hkey

/-- A comma in the value of a label joins two series. -/
theorem comma_joins_series : ¬NewestPerSeries
    [⟨0, "m", .metric, .raw, 1, ⟨[("a", "1,b=2")], by decide⟩, none⟩,
      ⟨0, "m", .metric, .raw, 2, ⟨[("a", "1"), ("b", "2")], by decide⟩, none⟩] ⟨"s", [], none, []⟩ 0 := by
  intro h
  have hid := h.identity_eq List.mem_cons_self (List.mem_cons_of_mem _ List.mem_cons_self) (by decide +kernel) (by decide +kernel)
    (by decide +kernel)
  simp [identity] at hid

/-! ## What a scraper takes -/

/-- The name of a metric: `[a-zA-Z_:][a-zA-Z0-9_:]*` -/
def IsMetricName (name : String) : Prop :=
  ∃ c cs, name.toList = c :: cs ∧ (c.isAlpha ∨ c = '_' ∨ c = ':') ∧ ∀ d ∈ cs, d.isAlphanum ∨ d = '_' ∨ d = ':'

/-- The name of a label: `[a-zA-Z_][a-zA-Z0-9_]*` -/
def IsLabelName (name : String) : Prop :=
  ∃ c cs, name.toList = c :: cs ∧ (c.isAlpha ∨ c = '_') ∧ ∀ d ∈ cs, d.isAlphanum ∨ d = '_'

/-- What stands between the quotes is the escape of some text. -/
def IsEscaped (value : String) : Prop := ∃ v, value = escapeLabelValue v

/-- The names and labels of the samples. -/
def samples (lines : List Line) : List (String × List (String × String)) :=
  lines.filterMap fun line => match line with
    | .comment _ => none
    | .sample name labels _ => some (name, labels)

structure WellFormed (lines : List Line) : Prop where
  metrics : ∀ s ∈ samples lines, IsMetricName s.1
  names : ∀ s ∈ samples lines, ∀ l ∈ s.2, IsLabelName l.1
  values : ∀ s ∈ samples lines, ∀ l ∈ s.2, IsEscaped l.2
  once : ∀ s ∈ samples lines, (s.2.map Prod.fst).Nodup
  distinct : (samples lines).Pairwise fun s t => ¬(s.1 = t.1 ∧ ∀ l, l ∈ s.2 ↔ l ∈ t.2)

/-- What is copied as it is needs no escape, and the labels have names of their own. -/
structure Clean (cfg : StationTarget) (o : Observation) : Prop where
  station : IsEscaped cfg.station
  metric_id : IsEscaped o.metric_id
  names : ∀ l ∈ ownLabels o, IsLabelName l.1
  own : ∀ l ∈ ownLabels o, l.1 ∉ ["component", "signal", "metric_id"]

/-! ## Names -/

theorem isNameChar_iff {c : Char} : isNameChar c = true ↔ c.isAlphanum ∨ c = '_' ∨ c = ':' := by
  simp [isNameChar, or_assoc]

theorem mem_sanitizeLoop : ∀ (seen underscore : Bool) (cs : List Char), ∀ d ∈ sanitizeLoop seen underscore cs,
    d.isAlphanum ∨ d = '_' ∨ d = ':' := by
  intro seen underscore cs
  fun_induction sanitizeLoop seen underscore cs with
  | case1 => simp
  | case2 underscore c cs h ih =>
    have hc : c.isAlphanum ∨ c = '_' ∨ c = ':' := by
      simp only [Bool.or_eq_true, decide_eq_true_eq, or_assoc] at h
      exact h.imp_left fun h => by simp [Char.isAlphanum, h]
    simpa using ⟨hc, ih⟩
  | case3 c cs _ _ ih => exact ih
  | case4 underscore c cs _ _ _ ih => simpa using ih
  | case5 underscore c cs _ _ h ih => simpa using ⟨isNameChar_iff.mp h, ih⟩
  | case6 underscore c cs _ _ _ ih => simpa using ih
  | case7 underscore c cs ih =>
    simp only [List.mem_cons, forall_eq_or_imp]
    refine ⟨?_, ih⟩
    split_ifs with h
    · exact isNameChar_iff.mp h
    · simp

theorem isMetricName_sanitize (metric_id : String) : IsMetricName (sanitizeMetricName metric_id) := by
  obtain ⟨body, hname, hbody⟩ : ∃ body : String, sanitizeMetricName metric_id = "opsense_" ++ body ∧
      ∀ d ∈ body.toList, d.isAlphanum ∨ d = '_' ∨ d = ':' := by
    refine ⟨_, rfl, ?_⟩
    split_ifs
    · simp [Char.isAlphanum]
    · rw [String.toList_ofList]
      exact mem_sanitizeLoop false false metric_id.toList
  refine ⟨'o', "psense_".toList ++ body.toList, by simp [hname], by decide, ?_⟩
  intro d hd
  rcases List.mem_append.mp hd with hd | hd
  · exact (by simp [Char.isAlphanum] : ∀ d ∈ "psense_".toList, d.isAlphanum ∨ d = '_' ∨ d = ':') d hd
  · exact hbody d hd

theorem isEscaped_signal (signal : Signal) : IsEscaped (signalText signal) :=
  ⟨signalText signal, by cases signal <;> decide +kernel⟩

theorem nodup_ownLabels (o : Observation) : ((ownLabels o).map Prod.fst).Nodup := by
  have hsorted : (ownLabels o).Pairwise fun a b => a.1 < b.1 := o.labels.property.filter _
  rw [List.Nodup, List.pairwise_map]
  exact hsorted.imp fun hlt => hlt.ne

/-! ## The labels of a series -/

/-- The labels of a series have the built-in names and those of the observation. -/
theorem names_seriesOf (o : Observation) :
    (seriesOf cfg o).labels.map Prod.fst = ["component", "signal", "metric_id"] ++ (ownLabels o).map Prod.fst := by
  simp [seriesOf, Function.comp_def]

theorem forall_labels_iff {P : String × String → Prop} : (∀ l ∈ (seriesOf cfg o).labels, P l) ↔
    P ("component", cfg.station) ∧ P ("signal", signalText o.signal) ∧ P ("metric_id", o.metric_id) ∧
      ∀ l ∈ ownLabels o, P (l.1, escapeLabelValue l.2) := by
  simp only [seriesOf, List.forall_mem_cons, List.forall_mem_map]

theorem nodup_names_iff (o : Observation) :
    ((seriesOf cfg o).labels.map Prod.fst).Nodup ↔ ∀ l ∈ ownLabels o, l.1 ∉ ["component", "signal", "metric_id"] := by
  rw [names_seriesOf, List.nodup_append]
  constructor
  · rintro ⟨-, -, hne⟩ l hl hmem
    exact hne _ hmem _ (List.mem_map_of_mem hl) rfl
  · intro h
    refine ⟨by decide, nodup_ownLabels o, ?_⟩
    rintro a ha b hb rfl
    obtain ⟨l, hl, rfl⟩ := List.mem_map.mp hb
    exact h l hl ha

/-- Series of one name and of the same labels, of which none has two, have one key. -/
theorem key_eq_of_labels (hname : (seriesOf cfg a).name = (seriesOf cfg b).name) (ha : ((seriesOf cfg a).labels.map Prod.fst).Nodup)
    (hb : ((seriesOf cfg b).labels.map Prod.fst).Nodup) (h : ∀ l, l ∈ (seriesOf cfg a).labels ↔ l ∈ (seriesOf cfg b).labels) :
    keyOf cfg a = keyOf cfg b := by
  have hperm : (seriesOf cfg a).labels.Perm (seriesOf cfg b).labels :=
    (List.perm_ext_iff_of_nodup ha.of_map hb.of_map).mpr h
  have hsort : ((seriesOf cfg a).labels.insertionSort fun a b => a.1 ≤ b.1) =
      (seriesOf cfg b).labels.insertionSort fun a b => a.1 ≤ b.1 := by
    refine List.Perm.eq_of_pairwise ?_ (List.pairwise_insertionSort _ _) (List.pairwise_insertionSort _ _)
      ((List.perm_insertionSort _ _).trans (hperm.trans (List.perm_insertionSort _ _).symm))
    intro l l' hl hl' hle hle'
    rw [List.mem_insertionSort] at hl hl'
    exact List.inj_on_of_nodup_map ha hl ((h l').mpr hl') (le_antisymm hle hle')
  unfold keyOf seriesKey
  rw [hname, hsort]

/-! ## The page -/

variable {display : UInt64 → String} {dropped : Nat}

theorem samples_append (l l' : List Line) : samples (l ++ l') = samples l ++ samples l' := List.filterMap_append

/-- The sample of a series. -/
def sampleOf (s : Series) : String × List (String × String) := (s.name, s.labels)

theorem samples_renderLines (series : List Series) : samples (renderLines display series dropped) =
    ((Groups.inOrder (series.map Series.name).toFinset).flatMap fun name => (series.filter fun s => s.name = name).map sampleOf) ++
      if 0 < dropped then [("opsense_prometheus_dropped_series", [])] else [] := by
  have hgroup : ∀ name, (series.filter fun s => s.name = name).map (fun s => (name, s.labels)) =
      (series.filter fun s => s.name = name).map sampleOf := by
    intro name
    refine List.map_congr_left fun s hs => ?_
    have hname : s.name = name := by simpa using (List.mem_filter.mp hs).2
    rw [← hname, sampleOf]
  unfold renderLines
  rw [samples_append]
  congr 1
  · induction Groups.inOrder (series.map Series.name).toFinset with
    | nil => rfl
    | cons name names ih =>
      rw [List.flatMap_cons, List.flatMap_cons, samples_append, ih, ← hgroup]
      simp [samples, List.filterMap_map]
  · split_ifs <;> rfl

theorem mem_samples {series : List Series} {t : String × List (String × String)} : t ∈ samples (renderLines display series dropped) ↔
    (∃ s ∈ series, t = sampleOf s) ∨ 0 < dropped ∧ t = ("opsense_prometheus_dropped_series", []) := by
  rw [samples_renderLines]
  simp only [List.mem_append, List.mem_flatMap, Groups.inOrder, Finset.mem_sort, List.mem_toFinset, List.mem_map, List.mem_filter,
    decide_eq_true_eq]
  refine or_congr ⟨?_, ?_⟩ (by split_ifs with h <;> simp [h])
  · rintro ⟨-, -, s, ⟨hs, -⟩, rfl⟩
    exact ⟨s, hs, rfl⟩
  · rintro ⟨s, hs, rfl⟩
    exact ⟨s.name, ⟨s, hs, rfl⟩, s, ⟨hs, rfl⟩, rfl⟩

/-- The samples of a page are told apart where those of its series are. -/
theorem pairwise_samples {series : List Series} (hlabels : ∀ s ∈ series, s.labels ≠ [])
    (h : series.Pairwise fun s t => ¬(s.name = t.name ∧ ∀ l, l ∈ s.labels ↔ l ∈ t.labels)) :
    (samples (renderLines display series dropped)).Pairwise fun s t => ¬(s.1 = t.1 ∧ ∀ l, l ∈ s.2 ↔ l ∈ t.2) := by
  rw [samples_renderLines, List.pairwise_append, List.pairwise_flatMap]
  refine ⟨⟨?_, ?_⟩, by split_ifs <;> simp, ?_⟩
  · intro name _
    rw [List.pairwise_map]
    exact h.filter _
  · refine (Finset.sort_nodup _ _).imp ?_
    intro name name' hne s hs t ht heq
    simp only [List.mem_map, List.mem_filter, decide_eq_true_eq] at hs ht
    obtain ⟨s, ⟨-, rfl⟩, rfl⟩ := hs
    obtain ⟨t, ⟨-, rfl⟩, rfl⟩ := ht
    exact hne heq.1
  · intro s hs t ht heq
    simp only [List.mem_flatMap, List.mem_map, List.mem_filter] at hs
    obtain ⟨-, -, s, ⟨hs, -⟩, rfl⟩ := hs
    split_ifs at ht
    · obtain rfl := List.mem_singleton.mp ht
      obtain ⟨l, hl⟩ := List.exists_mem_of_ne_nil _ (hlabels s hs)
      exact List.not_mem_nil ((heq.2 l).mp hl)
    · cases ht

theorem clean_of_wellFormed (h : WellFormed (renderLines display (collectStation obs cfg now) dropped)) (ho : Shown obs cfg now o) :
    Clean cfg o := by
  have hmem : sampleOf (seriesOf cfg o) ∈ samples (renderLines display (collectStation obs cfg now) dropped) :=
    mem_samples.mpr (.inl ⟨_, List.mem_map_of_mem (mem_kept.mpr ho), rfl⟩)
  obtain ⟨-, -, -, hnames⟩ := forall_labels_iff.mp (h.names _ hmem)
  obtain ⟨hstation, -, hid, -⟩ := forall_labels_iff.mp (h.values _ hmem)
  exact ⟨hstation, hid, hnames, (nodup_names_iff o).mp (h.once _ hmem)⟩

theorem Clean.labels (h : Clean cfg o) : (∀ l ∈ (seriesOf cfg o).labels, IsLabelName l.1) ∧
    (∀ l ∈ (seriesOf cfg o).labels, IsEscaped l.2) ∧ ((seriesOf cfg o).labels.map Prod.fst).Nodup := by
  refine ⟨forall_labels_iff.mpr ⟨?_, ?_, ?_, h.names⟩, forall_labels_iff.mpr ⟨h.station, isEscaped_signal _, h.metric_id, ?_⟩,
    (nodup_names_iff o).mpr h.own⟩
  · exact ⟨'c', "omponent".toList, by simp, by decide, by simp [Char.isAlphanum]⟩
  · exact ⟨'s', "ignal".toList, by simp, by decide, by simp [Char.isAlphanum]⟩
  · exact ⟨'m', "etric_id".toList, by simp, by decide, by simp [Char.isAlphanum]⟩
  · exact fun l _ => ⟨l.2, rfl⟩

end Prometheus

end Opsense
