import Opsense.Storage.Replay

/-!
# The merged view of the timeseries

Points are appended, flushed and read back from the buffer and the delta files, through checkpoints and reopenings. As long as
a flush writes to no file that the manifest lists, the merged view of a series holds each timestamp once, with the value
appended last for it. A file is named after its block and the millisecond of the flush, so two flushes of a block in one
millisecond write to one file, and what the first flush moved there is lost.
-/

namespace Opsense

/-- An operation on the timeseries of a store, with the millisecond of the flush it may cause. -/
inductive TsAct where
  | append (a : Append) (stamp : Nat)
  | flush (stamp : Nat)
  | checkpoint (stamp : Nat)
  | reopen
deriving DecidableEq

/-- The points appended by a run. -/
def appendsOf (as : List TsAct) : List Append := as.filterMap fun
  | .append a _ => some a
  | _ => none

namespace Store

/-- One operation on the timeseries. -/
def tsStep (flush_threshold block_secs : Nat) (s : Store) : TsAct → Store
  | .append a stamp => s.append flush_threshold block_secs a stamp
  | .flush stamp => s.flushTimeseries block_secs stamp
  | .checkpoint stamp => s.snapshot block_secs stamp
  | .reopen => s.reopen

/-- A store over its operations on timeseries. -/
def tsMachine (flush_threshold block_secs : Nat) : Machine Store TsAct Unit :=
  ⟨new, fun s a => (s.tsStep flush_threshold block_secs a, ())⟩

instance (block_secs stamp : Nat) (s : Lakehouse) : Decidable (s.Fresh block_secs stamp) :=
  inferInstanceAs (Decidable (∀ b ∈ Lakehouse.blocksOf block_secs s.buffered, (⟨b, stamp⟩ : DeltaFile) ∉ s.ts_manifest))

/-- If the operation flushes, it flushes to new files. -/
def NewFiles (flush_threshold block_secs : Nat) (s : Store) : TsAct → Prop
  | .append a stamp => Lakehouse.FreshFlush flush_threshold block_secs s.inner.lake (a, stamp)
  | .flush stamp => s.inner.lake.Fresh block_secs stamp
  | .checkpoint stamp => s.inner.lake.Fresh block_secs stamp
  | .reopen => True

instance (flush_threshold block_secs : Nat) (s : Store) : ∀ a, Decidable (NewFiles flush_threshold block_secs s a)
  | .append a stamp => inferInstanceAs (Decidable ((s.inner.lake.bufferPoint a).Full flush_threshold →
      (s.inner.lake.bufferPoint a).Fresh block_secs stamp))
  | .flush stamp => inferInstanceAs (Decidable (s.inner.lake.Fresh block_secs stamp))
  | .checkpoint stamp => inferInstanceAs (Decidable (s.inner.lake.Fresh block_secs stamp))
  | .reopen => isTrue trivial

variable {flush_threshold block_secs stamp : Nat} {s : Store}

/-! ## The lake of a store -/

theorem lake_mutate_tsPoint (s : Store) (a : Append) :
    (s.mutate (.tsPoint a.series a.ts s.inner.lake.ts_next_id a.value)).inner.lake = s.inner.lake.bufferPoint a := by
  simp [mutate, Inner.applyWalOp, Lakehouse.putPoint, Lakehouse.bufferPoint]

/-- The files before the one whose rows a flush panics on are all of them when it does not panic. -/
theorem written_all : ((Lakehouse.blocksOf block_secs s.inner.lake.buffered).takeWhile fun b =>
    (Lakehouse.rowsOf block_secs s.inner.lake.buffered b).all fun r => (fromUtf8 r.value).isSome) =
      Lakehouse.blocksOf block_secs s.inner.lake.buffered ↔ ¬s.Panics := by
  rw [List.takeWhile_eq_self_iff]
  constructor
  · rintro hall ⟨r, hr, hnone⟩
    have hb := hall _ (Lakehouse.mem_blocksOf.mpr ⟨r, hr, rfl⟩)
    have hvalue := List.all_eq_true.mp hb r (List.mem_filter.mpr ⟨hr, by simp⟩)
    rw [hnone] at hvalue
    cases hvalue
  · intro hutf8 b _
    refine List.all_eq_true.mpr fun r hr => Option.isSome_iff_ne_none.mpr fun hnone => ?_
    exact hutf8 ⟨r, (List.mem_filter.mp hr).1, hnone⟩

/-- A flush that does not panic writes all its files. -/
theorem flush_of_utf8 (block_secs stamp : Nat) {last : Row} (hlast : s.inner.lake.buffered.getLast? = some last) (hutf8 : ¬s.Panics) :
    s.inner.lake.flushTimeseries block_secs stamp =
      { s.inner.lake with
        ts := Lakehouse.retain s.inner.lake.ts last.id
        ts_manifest := s.inner.lake.ts_manifest ++ (Lakehouse.blocksOf block_secs s.inner.lake.buffered).map fun b => ⟨b, stamp⟩
        files := Lakehouse.writeFiles block_secs stamp s.inner.lake.buffered s.inner.lake.files
          (Lakehouse.blocksOf block_secs s.inner.lake.buffered) } := by
  unfold Lakehouse.flushTimeseries
  dsimp only
  rw [hlast]
  dsimp only
  rw [written_all.mpr hutf8, if_pos rfl]

theorem flush_of_panics (hpanics : s.Panics) : (s.inner.lake.flushTimeseries block_secs stamp).ts = s.inner.lake.ts := by
  unfold Lakehouse.flushTimeseries
  dsimp only
  cases hlast : s.inner.lake.buffered.getLast? with
  | none => rfl
  | some last =>
    dsimp only
    rw [if_neg fun hall => written_all.mp hall hpanics]

theorem retain_retain (ts : AList (fun _ : Bytes × Nat => Nat × Bytes)) (max_id : Nat) :
    Lakehouse.retain (Lakehouse.retain ts max_id) max_id = Lakehouse.retain ts max_id := by
  refine AList.ext ?_
  simp [Lakehouse.retain, List.filter_filter]

theorem lake_flush (block_secs stamp : Nat) (s : Store) :
    (s.flushTimeseries block_secs stamp).inner.lake = s.inner.lake.flushTimeseries block_secs stamp := by
  unfold flushTimeseries
  cases hlast : s.inner.lake.buffered.getLast? with
  | none =>
    unfold Lakehouse.flushTimeseries
    dsimp only
    rw [hlast]
  | some last =>
    dsimp only
    split_ifs with hpanics
    · rfl
    · have hflush := flush_of_utf8 block_secs stamp hlast hpanics
      unfold mutate Inner.applyWalOp
      dsimp only
      rw [hflush]
      dsimp only
      rw [retain_retain]

theorem lake_append (s : Store) (a : Append) : (s.append flush_threshold block_secs a stamp).inner.lake =
    s.inner.lake.append flush_threshold block_secs a stamp := by
  unfold append Lakehouse.append
  dsimp only
  rw [lake_mutate_tsPoint]
  split_ifs with hfull
  · rw [lake_flush, lake_mutate_tsPoint]
  · exact lake_mutate_tsPoint s a

/-! ## What opening again finds -/

/-- A flush that does not panic empties the buffer. -/
theorem ts_flush (block_secs stamp : Nat) (hutf8 : ¬s.Panics) (key : Bytes × Nat) :
    (s.flushTimeseries block_secs stamp).inner.lake.ts.lookup key = none := by
  rw [lake_flush]
  cases hlast : s.inner.lake.buffered.getLast? with
  | none =>
    have hsame : s.inner.lake.flushTimeseries block_secs stamp = s.inner.lake := by
      unfold Lakehouse.flushTimeseries
      dsimp only
      rw [hlast]
    rw [hsame]
    refine Option.eq_none_iff_forall_ne_some.mpr fun p hp => ?_
    have hmem : (⟨p.1, key.1, key.2, p.2⟩ : Row) ∈ s.inner.lake.buffered := Lakehouse.mem_buffered.mpr hp
    rw [List.getLast?_eq_none_iff.mp hlast] at hmem
    cases hmem
  | some last =>
    rw [flush_of_utf8 block_secs stamp hlast hutf8]
    exact Lakehouse.retain_last hlast key

theorem Reopens.flush (h : s.Reopens) (block_secs stamp : Nat) : (s.flushTimeseries block_secs stamp).Reopens := by
  unfold flushTimeseries
  cases hlast : s.inner.lake.buffered.getLast? with
  | none => exact h
  | some last =>
    dsimp only
    split_ifs with hpanics
    · obtain ⟨h1, h2, h3, h4, h5, h6, h7, h8, h9, h10, h11, h12, hts⟩ := h.same
      refine ⟨⟨h1, h2, h3, h4, h5, h6, h7, h8, h9, h10, h11, h12, fun key => ?_⟩, h.seeded.nodes, h.seeded.counter⟩
      dsimp only
      rw [flush_of_panics hpanics, hts]
    · -- the log takes the entries out of the buffer that the flush took out before
      have hlogged := (h.mutate (.tsFlush last.id) nofun).same
      refine ⟨hlogged.trans ⟨rfl, rfl, rfl, rfl, rfl, rfl, rfl, rfl, rfl, rfl, rfl, rfl, fun key => ?_⟩,
        h.seeded.nodes, h.seeded.counter⟩
      change (Lakehouse.retain s.inner.lake.ts last.id).lookup key =
        (Lakehouse.retain (s.inner.lake.flushTimeseries block_secs stamp).ts last.id).lookup key
      rw [flush_of_utf8 block_secs stamp hlast hpanics]
      dsimp only
      rw [retain_retain]

theorem Reopens.append (h : s.Reopens) (a : Append) (stamp : Nat) :
    (s.append flush_threshold block_secs a stamp).Reopens := by
  have hlogged := h.mutate (.tsPoint a.series a.ts s.inner.lake.ts_next_id a.value) nofun
  unfold Store.append
  dsimp only
  split_ifs
  · exact hlogged.flush block_secs stamp
  · exact hlogged

theorem Reopens.snapshot (h : s.Reopens) (block_secs stamp : Nat) : (s.snapshot block_secs stamp).Reopens := by
  have hflush := h.flush block_secs stamp
  unfold Store.snapshot
  split_ifs with hpanics
  · exact hflush
  · exact hflush.dump (ts_flush block_secs stamp hpanics)

/-! ## What the view holds -/

/-- The answers follow from the buffer, the manifest and the files. -/
theorem answer_congr {t u : Lakehouse} (hts : ∀ key, t.ts.lookup key = u.ts.lookup key) (hmanifest : t.ts_manifest = u.ts_manifest)
    (hfiles : t.files = u.files) (hapart : u.RowsApart) : t.RowsApart ∧ ∀ key, t.answer key = u.answer key := by
  have htapart : t.RowsApart := by
    unfold Lakehouse.RowsApart
    rw [hfiles]
    exact hapart
  refine ⟨htapart, fun key => ?_⟩
  rw [Lakehouse.answer_eq htapart, Lakehouse.answer_eq hapart, hts, hmanifest, hfiles]

/-- The lake answers each key with the value appended last, and opening the store again finds its buffer. -/
structure Answers (log : List Append) (s : Store) : Prop where
  apart : s.inner.lake.RowsApart
  answer : ∀ key, s.inner.lake.answer key = Lakehouse.lastValue log key
  reopens : s.Reopens

/-- What an append that flushes to new files changes in the answers. -/
theorem answer_append (h : s.inner.lake.RowsApart) {a : Append}
    (hfresh : Lakehouse.FreshFlush flush_threshold block_secs s.inner.lake (a, stamp)) :
    (s.append flush_threshold block_secs a stamp).inner.lake.RowsApart ∧
      ∀ key, (s.append flush_threshold block_secs a stamp).inner.lake.answer key =
        if key = (a.series, a.ts) then some a.value else s.inner.lake.answer key := by
  have hbuffer := Lakehouse.answer_bufferPoint h a
  rw [lake_append]
  unfold Lakehouse.append
  dsimp only
  split_ifs with hfull
  · obtain ⟨hapart, hanswer⟩ := Lakehouse.answer_flush (s := s.inner.lake.bufferPoint a) h (hfresh hfull)
    exact ⟨hapart, fun key => (hanswer key).trans (hbuffer key)⟩
  · exact ⟨h, hbuffer⟩

variable {log : List Append}

theorem Answers.append (h : s.Answers log) {a : Append} (hfresh : Lakehouse.FreshFlush flush_threshold block_secs s.inner.lake (a, stamp)) :
    (s.append flush_threshold block_secs a stamp).Answers (log ++ [a]) := by
  obtain ⟨hapart, hanswer⟩ := answer_append h.apart hfresh
  refine ⟨hapart, fun key => ?_, h.reopens.append a stamp⟩
  rw [hanswer, h.answer, Lakehouse.lastValue_snoc]

theorem Answers.flush (h : s.Answers log) (hfresh : s.inner.lake.Fresh block_secs stamp) :
    (s.flushTimeseries block_secs stamp).Answers log := by
  obtain ⟨hapart, hanswer⟩ := Lakehouse.answer_flush h.apart hfresh
  rw [← lake_flush] at hapart hanswer
  exact ⟨hapart, fun key => (hanswer key).trans (h.answer key), h.reopens.flush block_secs stamp⟩

theorem Answers.snapshot (h : s.Answers log) (hfresh : s.inner.lake.Fresh block_secs stamp) :
    (s.snapshot block_secs stamp).Answers log := by
  have hreopens := h.reopens.snapshot block_secs stamp
  obtain ⟨hapart, hanswer, hflush⟩ := h.flush hfresh
  unfold Store.snapshot at hreopens ⊢
  split_ifs with hpanics
  · exact ⟨hapart, hanswer, hflush⟩
  · rw [if_neg hpanics] at hreopens
    exact ⟨hapart, hanswer, hreopens⟩

theorem Answers.reopen (h : s.Answers log) : s.reopen.Answers log := by
  obtain ⟨hapart, hanswer⟩ := answer_congr (t := s.reopen.inner.lake) h.reopens.reopen_same.ts rfl rfl h.apart
  exact ⟨hapart, fun key => (hanswer key).trans (h.answer key), h.reopens.reopen⟩

theorem answers_run (as : List TsAct) (h : (tsMachine flush_threshold block_secs).Along (NewFiles flush_threshold block_secs) as) :
    ((tsMachine flush_threshold block_secs).state as).Answers (appendsOf as) := by
  induction as using List.reverseRecOn with
  | nil => exact ⟨fun rel => List.nodup_nil, fun key => rfl, new_reopens⟩
  | append_singleton as a ih =>
    have hheld := ih h.init
    have hnew := h.last
    rw [Machine.state_snoc]
    generalize (tsMachine flush_threshold block_secs).state as = s at hheld hnew
    cases a with
    | append a stamp =>
      have hlog : appendsOf (as ++ [.append a stamp]) = appendsOf as ++ [a] := by simp [appendsOf]
      rw [hlog]
      exact hheld.append hnew
    | flush stamp =>
      have hlog : appendsOf (as ++ [.flush stamp]) = appendsOf as := by simp [appendsOf]
      rw [hlog]
      exact hheld.flush hnew
    | checkpoint stamp =>
      have hlog : appendsOf (as ++ [.checkpoint stamp]) = appendsOf as := by simp [appendsOf]
      rw [hlog]
      exact hheld.snapshot hnew
    | reopen =>
      have hlog : appendsOf (as ++ [.reopen]) = appendsOf as := by simp [appendsOf]
      rw [hlog]
      exact hheld.reopen

/-- A timestamp stands once in the points of a series. -/
theorem nodup_points (s : Lakehouse) (series : Bytes) : ((s.points series).map Prod.fst).Nodup := by
  unfold Lakehouse.points
  rw [List.map_map]
  have hkeys : (s.mergedTs.entries.filter fun e => e.1.1 = series).NodupKeys :=
    s.mergedTs.nodupKeys.sublist List.filter_sublist
  refine List.Nodup.of_map (fun ts => (series, ts)) ?_
  rw [List.map_map]
  have hsame : ((s.mergedTs.entries.filter fun e => e.1.1 = series).map
      ((fun ts => (series, ts)) ∘ Prod.fst ∘ fun e => (e.1.2, e.2.2.2))) =
        (s.mergedTs.entries.filter fun e => e.1.1 = series).map Sigma.fst := by
    refine List.map_congr_left fun e he => ?_
    have hseries : e.1.1 = series := by simpa using (List.mem_filter.mp he).2
    simp [← hseries]
  rw [hsame]
  exact hkeys

/-- Along a run whose flushes write new files, the merged view of a series holds each timestamp appended to it once, with the
value appended last for it. -/
theorem view_holds_appended (flush_threshold block_secs : Nat) (as : List TsAct)
    (h : (tsMachine flush_threshold block_secs).Along (NewFiles flush_threshold block_secs) as) (series : Bytes) :
    ((((tsMachine flush_threshold block_secs).state as).inner.lake.points series).map Prod.fst).Nodup ∧
    ∀ ts value, (ts, value) ∈ ((tsMachine flush_threshold block_secs).state as).inner.lake.points series ↔
      Lakehouse.lastValue (appendsOf as) (series, ts) = some value := by
  refine ⟨nodup_points _ series, fun ts value => ?_⟩
  rw [Lakehouse.mem_points, (answers_run as h).answer]

/-- Two points of one hour, flushed one after the other, and the store opened again. -/
def twoFlushes (stamp stamp' : Nat) : List TsAct :=
  [.append ⟨[115], 1, [97]⟩ stamp, .flush stamp, .append ⟨[115], 2, [98]⟩ stamp', .checkpoint stamp', .reopen]

theorem view_holds_appended_twoFlushes :
    ((tsMachine 0 3600).state (twoFlushes 7 8)).inner.lake.points [115] = [(2, [98]), (1, [97])] ∧
    ∀ ts value, (ts, value) ∈ ((tsMachine 0 3600).state (twoFlushes 7 8)).inner.lake.points [115] ↔
      Lakehouse.lastValue (appendsOf (twoFlushes 7 8)) ([115], ts) = some value :=
  ⟨by decide +kernel,
    (view_holds_appended 0 3600 (twoFlushes 7 8) (Machine.along_iff_alongFrom.mpr (by decide +kernel)) [115]).2⟩

/-- Flushed in one millisecond, the second file takes the place of the first one. -/
theorem second_flush_overwrites :
    Lakehouse.lastValue (appendsOf (twoFlushes 7 7)) ([115], 1) = some [97] ∧
    (1, [97]) ∉ ((tsMachine 0 3600).state (twoFlushes 7 7)).inner.lake.points [115] := by
  decide +kernel

end Store

end Opsense
