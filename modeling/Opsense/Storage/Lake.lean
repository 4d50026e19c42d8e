import Opsense.Storage.Timeseries

/-!
# What the lake answers

Every point appended to the lake is in its buffer or in one of its files, and a later append at the same time of the same
series stands in front of an earlier one: in the buffer it replaces it, and a file is merged over the files written before it.
Flushing changes no answer, provided that it writes to new files: of two flushes in one millisecond the second takes the place
of the first. So the latest point of a series is the newest one appended to it, and of those with that time the one appended last.
-/

namespace Opsense

namespace Lakehouse

/-- What a point is filed under. -/
def Row.key (r : Row) : Bytes × Nat := (r.series, r.ts)

/-- The value appended last under a key. -/
def lastValue (log : List Append) (key : Bytes × Nat) : Option Bytes :=
  ((appended log key.1).filter fun a => a.ts = key.2).getLast?.map Append.value

theorem lastValue_snoc (log : List Append) (a : Append) (key : Bytes × Nat) :
    lastValue (log ++ [a]) key = if key = (a.series, a.ts) then some a.value else lastValue log key := by
  obtain ⟨series, ts⟩ := key
  unfold lastValue appended
  rw [List.filter_append, List.filter_append]
  split_ifs with h
  · obtain ⟨rfl, rfl⟩ := Prod.mk.inj h
    simp
  · have hne : ¬(a.series = series ∧ a.ts = ts) := by
      rintro ⟨rfl, rfl⟩
      exact h rfl
    by_cases hs : a.series = series
    · have ht : ¬a.ts = ts := fun ht => hne ⟨hs, ht⟩
      simp [hs, ht]
    · simp [hs]

/-! ## The merge -/

/-- The value under a key after the merge. -/
def value (map : Merged) (key : Bytes × Nat) : Option Bytes := (map.lookup key).map fun p => p.2.2

/-- The row of a file under a key. -/
def rowAt (rows : List Row) (key : Bytes × Nat) : Option Row := rows.find? fun r => Row.key r = key

/-- A map of distinct keys inserted into another one takes precedence over it. -/
theorem lookup_insertAll (es : List (Sigma fun _ : Bytes × Nat => Nat × Bytes)) (hes : es.NodupKeys) (map : Merged)
    (key : Bytes × Nat) :
    (es.foldl (fun map e => map.insert e.1 (2 ^ 64 - 1, e.2.1, e.2.2)) map).lookup key =
      ((es.dlookup key).map fun p => (2 ^ 64 - 1, p.1, p.2)).or (map.lookup key) := by
  induction es generalizing map with
  | nil => simp
  | cons e es ih =>
    obtain ⟨hnot, hes⟩ := List.nodupKeys_cons.mp hes
    rw [List.foldl_cons, ih hes]
    by_cases hk : key = e.1
    · subst hk
      rw [List.dlookup_eq_none.mpr hnot, List.dlookup_cons_eq, AList.lookup_insert]
      rfl
    · rw [List.dlookup_cons_ne _ _ hk, AList.lookup_insert_ne hk]

/-- After the merge a key has its value of the buffer, or else that of the files. -/
theorem value_mergedTs (s : Lakehouse) (key : Bytes × Nat) :
    value s.mergedTs key = ((s.ts.lookup key).map Prod.snd).or (value s.mergedFiles key) := by
  rw [value, mergedTs, lookup_insertAll _ s.ts.nodupKeys]
  unfold AList.lookup value
  cases s.ts.entries.dlookup key <;> rfl

/-- Files merged before the file `fi` have smaller numbers. -/
def Below (fi : Nat) (map : Merged) : Prop := ∀ key p, map.lookup key = some p → p.1 < fi

/-- Rows of a file take precedence over the files merged before. -/
theorem lookup_mergeRows {fi : Nat} (rows : List Row) (hrows : (rows.map Row.key).Nodup) (map : Merged)
    (hmap : ∀ key ∈ rows.map Row.key, ∀ p, map.lookup key = some p → p.1 < fi) (key : Bytes × Nat) :
    (rows.foldl (mergeRow fi) map).lookup key =
      ((rowAt rows key).map fun r => (fi, r.id, r.value)).or (map.lookup key) := by
  induction rows generalizing map with
  | nil => simp [rowAt]
  | cons row rows ih =>
    obtain ⟨hnot, hrows⟩ := List.nodup_cons.mp hrows
    have hrow : mergeRow fi map row = map.insert (Row.key row) (fi, row.id, row.value) := by
      unfold mergeRow
      cases hl : map.lookup (row.series, row.ts) with
      | none => rfl
      | some p => exact if_pos (Or.inl (hmap (Row.key row) (by simp) p hl))
    have hother : ∀ key ∈ rows.map Row.key, key ≠ Row.key row := fun key hkey h => hnot (h ▸ hkey)
    rw [List.foldl_cons, hrow, ih hrows _ fun key hkey p hp => ?_]
    · by_cases hk : key = Row.key row
      · have hnone : rowAt rows key = none :=
          List.find?_eq_none.mpr fun r hr => by
            have hne := hother (Row.key r) (List.mem_map_of_mem hr)
            simpa [hk] using hne
        rw [hnone, hk, AList.lookup_insert, rowAt, List.find?_cons_of_pos (by simp)]
        rfl
      · rw [AList.lookup_insert_ne hk, rowAt, rowAt, List.find?_cons_of_neg (by simpa using Ne.symm hk)]
    · rw [AList.lookup_insert_ne (hother key hkey)] at hp
      exact hmap key (List.mem_cons_of_mem _ hkey) p hp

/-- The value under a key in the last file that has one. -/
def filed (files : DeltaFile → Option (List Row)) (manifest : List DeltaFile) (key : Bytes × Nat) : Option Bytes :=
  manifest.reverse.findSome? fun rel => (rowAt ((files rel).getD []) key).map Row.value

theorem filed_append (files : DeltaFile → Option (List Row)) (old written : List DeltaFile) (key : Bytes × Nat) :
    filed files (old ++ written) key = (filed files written key).or (filed files old key) := by
  rw [filed, List.reverse_append, List.findSome?_append]
  rfl

variable {files : DeltaFile → Option (List Row)}

/-- The merge of the files gives each key its value of the last file that has one. -/
theorem value_mergedFiles (hfiles : ∀ rel, (((files rel).getD []).map Row.key).Nodup) (manifest : List DeltaFile) :
    Below manifest.length (manifest.zipIdx.foldl (mergeFile files) ∅) ∧
    ∀ key, value (manifest.zipIdx.foldl (mergeFile files) ∅) key = filed files manifest key := by
  induction manifest using List.reverseRecOn with
  | nil =>
    refine ⟨fun key p hp => ?_, fun key => rfl⟩
    rw [List.zipIdx_nil, List.foldl_nil, AList.lookup_empty] at hp
    cases hp
  | append_singleton manifest rel ih =>
    obtain ⟨hbelow, hvalue⟩ := ih
    rw [List.zipIdx_append, List.foldl_append]
    generalize manifest.zipIdx.foldl (mergeFile files) ∅ = map at hbelow hvalue
    have hlookup := lookup_mergeRows _ (hfiles rel) map fun key _ p hp => hbelow key p hp
    have hfold : List.foldl (mergeFile files) map ([rel].zipIdx manifest.length) =
        ((files rel).getD []).foldl (mergeRow manifest.length) map := by
      simp [mergeFile]
    refine ⟨fun key p hp => ?_, fun key => ?_⟩
    · simp only [Nat.zero_add] at hp
      rw [hfold, hlookup] at hp
      rw [List.length_append, List.length_singleton]
      cases hr : rowAt ((files rel).getD []) key with
      | some r =>
        rw [hr] at hp
        obtain rfl := Option.some.inj hp
        exact Nat.lt_succ_self _
      | none =>
        rw [hr] at hp
        exact (hbelow key p hp).trans (Nat.lt_succ_self _)
    · simp only [Nat.zero_add]
      rw [hfold, value, hlookup, filed_append, ← hvalue key, value]
      cases hr : rowAt ((files rel).getD []) key with
      | some r => simp [filed, hr]
      | none => simp [filed, hr]

/-! ## Flushing -/

variable {block_secs stamp : Nat}

variable {s : Lakehouse}

theorem mem_buffered {r : Row} : r ∈ s.buffered ↔ s.ts.lookup (Row.key r) = some (r.id, r.value) := by
  unfold buffered
  rw [List.mem_insertionSort, List.mem_map]
  constructor
  · rintro ⟨e, he, rfl⟩
    exact AList.mem_lookup_iff.mpr he
  · intro h
    exact ⟨⟨Row.key r, (r.id, r.value)⟩, AList.mem_lookup_iff.mp h, rfl⟩

theorem nodup_buffered (s : Lakehouse) : (s.buffered.map Row.key).Nodup := by
  have hperm := (List.perm_insertionSort (fun a b : Row => a.id ≤ b.id)
    (s.ts.entries.map fun e => (⟨e.2.1, e.1.1, e.1.2, e.2.2⟩ : Row))).map Row.key
  refine hperm.nodup_iff.mpr ?_
  rw [List.map_map]
  exact s.ts.nodupKeys

/-- The row of the buffer under a key. -/
theorem rowAt_buffered (s : Lakehouse) (key : Bytes × Nat) :
    (rowAt s.buffered key).map Row.value = (s.ts.lookup key).map Prod.snd := by
  cases hr : rowAt s.buffered key with
  | some r =>
    have hkey : Row.key r = key := by simpa using List.find?_some hr
    rw [← hkey, mem_buffered.mp (List.mem_of_find?_eq_some hr)]
    rfl
  | none =>
    cases hl : s.ts.lookup key with
    | none => rfl
    | some p =>
      have hmem : (⟨p.1, key.1, key.2, p.2⟩ : Row) ∈ s.buffered := mem_buffered.mpr hl
      exact absurd (by simp [Row.key]) (List.find?_eq_none.mp hr _ hmem)

/-- The buffer is empty after the flush. -/
theorem retain_last {last : Row} (h : s.buffered.getLast? = some last) (key : Bytes × Nat) :
    (retain s.ts last.id).lookup key = none := by
  have hsorted : s.buffered.Pairwise fun a b => a.id ≤ b.id := by
    have : Std.Total fun a b : Row => a.id ≤ b.id := ⟨fun a b => le_total a.id b.id⟩
    have : IsTrans Row fun a b => a.id ≤ b.id := ⟨fun a b c => le_trans⟩
    exact List.pairwise_insertionSort _ _
  obtain ⟨pre, hpre⟩ := List.getLast?_eq_some_iff.mp h
  have hle : ∀ r ∈ s.buffered, r.id ≤ last.id := by
    intro r hr
    rw [hpre] at hr hsorted
    rcases List.mem_append.mp hr with hr | hr
    · exact (List.pairwise_append.mp hsorted).2.2 r hr last (by simp)
    · rw [List.mem_singleton.mp hr]
  refine AList.lookup_eq_none.mpr fun hmem => ?_
  obtain ⟨e, he, -⟩ := List.mem_map.mp (AList.mem_keys.mp hmem)
  obtain ⟨he, hlt⟩ := List.mem_filter.mp he
  have hrow : (⟨e.2.1, e.1.1, e.1.2, e.2.2⟩ : Row) ∈ s.buffered := mem_buffered.mpr (AList.mem_lookup_iff.mpr he)
  have hge : e.2.1 ≤ last.id := hle _ hrow
  exact absurd (of_decide_eq_true hlt) (not_lt_of_ge hge)

theorem writeFiles_other {pts : List Row} {blocks : List Nat} {rel : DeltaFile} (h : ∀ b ∈ blocks, rel ≠ ⟨b, stamp⟩) :
    writeFiles block_secs stamp pts files blocks rel = files rel := by
  unfold writeFiles
  induction blocks generalizing files with
  | nil => rfl
  | cons b blocks ih =>
    rw [List.foldl_cons, ih fun b hb => h b (List.mem_cons_of_mem _ hb), Function.update_of_ne (h b (by simp))]

theorem writeFiles_mem {pts : List Row} {blocks : List Nat} {b : Nat} (h : b ∈ blocks) :
    writeFiles block_secs stamp pts files blocks ⟨b, stamp⟩ = some (rowsOf block_secs pts b) := by
  unfold writeFiles
  induction blocks using List.reverseRecOn with
  | nil => cases h
  | append_singleton blocks b' ih =>
    rw [List.foldl_append, List.foldl_cons, List.foldl_nil]
    by_cases hb : b = b'
    · rw [hb, Function.update_self]
    · rw [Function.update_of_ne (by simpa using hb)]
      exact ih ((List.mem_append.mp h).resolve_right (by simpa using hb))

theorem mem_blocksOf {pts : List Row} {b : Nat} :
    b ∈ blocksOf block_secs pts ↔ ∃ r ∈ pts, blockIdOf block_secs r.series r.ts = b := by
  unfold blocksOf
  rw [List.mem_insertionSort, List.mem_dedup, List.mem_map]

/-- The row under a key is in the file of the key's block. -/
theorem rowAt_rowsOf (pts : List Row) (key : Bytes × Nat) (b : Nat) : rowAt (rowsOf block_secs pts b) key =
    if blockIdOf block_secs key.1 key.2 = b then rowAt pts key else none := by
  unfold rowAt rowsOf
  rw [List.find?_filter]
  split_ifs with hb
  · congr 1
    funext r
    by_cases hr : Row.key r = key
    · obtain rfl := hr
      simpa [Row.key] using hb
    · simp [hr]
  · refine List.find?_eq_none.mpr fun r _ => ?_
    by_cases hr : Row.key r = key
    · obtain rfl := hr
      simpa [Row.key] using fun h => absurd h hb
    · simp [hr]

/-- The files a flush writes hold the rows of the buffer. -/
theorem filed_written (pts : List Row) (files : DeltaFile → Option (List Row)) (key : Bytes × Nat) :
    filed (writeFiles block_secs stamp pts files (blocksOf block_secs pts))
      ((blocksOf block_secs pts).map fun b => ⟨b, stamp⟩) key = (rowAt pts key).map Row.value := by
  have hfile : ∀ b ∈ blocksOf block_secs pts,
      (rowAt ((writeFiles block_secs stamp pts files (blocksOf block_secs pts) ⟨b, stamp⟩).getD []) key).map Row.value =
        if blockIdOf block_secs key.1 key.2 = b then (rowAt pts key).map Row.value else none := by
    intro b hb
    rw [writeFiles_mem hb, Option.getD_some, rowAt_rowsOf]
    split_ifs <;> rfl
  unfold filed
  cases hf : (((blocksOf block_secs pts).map fun b => (⟨b, stamp⟩ : DeltaFile)).reverse).findSome? fun rel =>
      (rowAt ((writeFiles block_secs stamp pts files (blocksOf block_secs pts) rel).getD []) key).map Row.value with
  | some w =>
    obtain ⟨rel, hrel, hw⟩ := List.exists_of_findSome?_eq_some hf
    obtain ⟨b, hb, rfl⟩ := List.mem_map.mp (List.mem_reverse.mp hrel)
    rw [hfile b hb] at hw
    split_ifs at hw
    exact hw.symm
  | none =>
    cases hr : rowAt pts key with
    | none => rfl
    | some r =>
      -- the block of the key has a file, and the row is in it
      have hkey : Row.key r = key := by simpa using List.find?_some hr
      have hb : blockIdOf block_secs key.1 key.2 ∈ blocksOf block_secs pts :=
        mem_blocksOf.mpr ⟨r, List.mem_of_find?_eq_some hr, by rw [← hkey]; rfl⟩
      have hnone := List.findSome?_eq_none_iff.mp hf _ (List.mem_reverse.mpr (List.mem_map_of_mem hb))
      rw [hfile _ hb, if_pos rfl, hr] at hnone
      cases hnone

/-- Files the manifest does not list are written without changing what the listed ones hold. -/
theorem filed_writeFiles {pts : List Row} {blocks : List Nat} {manifest : List DeltaFile} (h : ∀ b ∈ blocks, ⟨b, stamp⟩ ∉ manifest)
    (key : Bytes × Nat) :
    filed (writeFiles block_secs stamp pts files blocks) manifest key = filed files manifest key := by
  have hsame : ∀ rel ∈ manifest, writeFiles block_secs stamp pts files blocks rel = files rel :=
    fun rel hrel => writeFiles_other fun b hb heq => h b hb (heq ▸ hrel)
  induction manifest using List.reverseRecOn with
  | nil => rfl
  | append_singleton manifest rel ih =>
    rw [filed_append, filed_append, ih (fun b hb hm => h b hb (List.mem_append_left _ hm))
      fun rel hrel => hsame rel (List.mem_append_left _ hrel)]
    unfold filed
    simp [hsame rel (by simp)]

/-- The files of the lake, each with one row under a key. -/
def RowsApart (s : Lakehouse) : Prop := ∀ rel, (((s.files rel).getD []).map Row.key).Nodup

theorem rowsApart_writeFiles (h : s.RowsApart) (blocks : List Nat) (rel : DeltaFile) :
    (((writeFiles block_secs stamp s.buffered s.files blocks rel).getD []).map Row.key).Nodup := by
  by_cases hrel : ∃ b ∈ blocks, rel = ⟨b, stamp⟩
  · obtain ⟨b, hb, rfl⟩ := hrel
    rw [writeFiles_mem hb]
    exact s.nodup_buffered.sublist (List.filter_sublist.map Row.key)
  · rw [writeFiles_other fun b hb heq => hrel ⟨b, hb, heq⟩]
    exact h rel

/-- What the lake answers for a key. -/
def answer (s : Lakehouse) (key : Bytes × Nat) : Option Bytes := value s.mergedTs key

theorem answer_eq (h : s.RowsApart) (key : Bytes × Nat) :
    s.answer key = ((s.ts.lookup key).map Prod.snd).or (filed s.files s.ts_manifest key) := by
  rw [answer, value_mergedTs, mergedFiles, (value_mergedFiles h s.ts_manifest).2]

/-- The flush writes to no file that the manifest lists. -/
def Fresh (block_secs stamp : Nat) (s : Lakehouse) : Prop :=
  ∀ b ∈ blocksOf block_secs s.buffered, ⟨b, stamp⟩ ∉ s.ts_manifest

/-- A flush does nothing, or writes all its files and empties the buffer, or panics after some of the files. -/
theorem flush_cases (block_secs stamp : Nat) (s : Lakehouse) :
    s.flushTimeseries block_secs stamp = s ∨
    (∃ last, s.buffered.getLast? = some last ∧ s.flushTimeseries block_secs stamp =
      { s with
        ts := retain s.ts last.id
        ts_manifest := s.ts_manifest ++ (blocksOf block_secs s.buffered).map fun b => ⟨b, stamp⟩
        files := writeFiles block_secs stamp s.buffered s.files (blocksOf block_secs s.buffered) }) ∨
    ∃ written, written ⊆ blocksOf block_secs s.buffered ∧ s.flushTimeseries block_secs stamp =
      { s with files := writeFiles block_secs stamp s.buffered s.files written } := by
  unfold flushTimeseries
  dsimp only
  split
  · exact Or.inl rfl
  · rename_i last hlast
    split_ifs with hall
    · rw [hall]
      exact Or.inr (Or.inl ⟨last, hlast, rfl⟩)
    · exact Or.inr (Or.inr ⟨_, List.takeWhile_subset _, rfl⟩)

/-- A flush to new files changes no answer. -/
theorem answer_flush (h : s.RowsApart) (hfresh : s.Fresh block_secs stamp) :
    (s.flushTimeseries block_secs stamp).RowsApart ∧
    ∀ key, (s.flushTimeseries block_secs stamp).answer key = s.answer key := by
  have hwritten : ∀ blocks rel, (((writeFiles block_secs stamp s.buffered s.files blocks rel).getD []).map Row.key).Nodup :=
    rowsApart_writeFiles h
  rcases flush_cases block_secs stamp s with heq | ⟨last, hlast, heq⟩ | ⟨written, hsub, heq⟩
  · rw [heq]
    exact ⟨h, fun key => rfl⟩
  · have happart : (s.flushTimeseries block_secs stamp).RowsApart := by rw [heq]; exact hwritten _
    refine ⟨happart, fun key => ?_⟩
    rw [answer_eq happart, answer_eq h, heq]
    dsimp only
    rw [retain_last hlast, filed_append, filed_written, rowAt_buffered, filed_writeFiles hfresh]
    rfl
  · have happart : (s.flushTimeseries block_secs stamp).RowsApart := by rw [heq]; exact hwritten _
    refine ⟨happart, fun key => ?_⟩
    rw [answer_eq happart, answer_eq h, heq]
    dsimp only
    rw [filed_writeFiles fun b hb => hfresh b (hsub hb)]

theorem answer_bufferPoint (h : s.RowsApart) (a : Append) (key : Bytes × Nat) :
    (s.bufferPoint a).answer key = if key = (a.series, a.ts) then some a.value else s.answer key := by
  have happart : (s.bufferPoint a).RowsApart := h
  rw [answer_eq happart, answer_eq h]
  unfold bufferPoint
  dsimp only
  split_ifs with hk
  · rw [hk, AList.lookup_insert]
    rfl
  · rw [AList.lookup_insert_ne hk]

/-! ## Runs -/

/-- If the append flushes, it flushes to new files. -/
def FreshFlush (flush_threshold block_secs : Nat) (s : Lakehouse) (a : Append × Nat) : Prop :=
  Full flush_threshold (s.bufferPoint a.1) → (s.bufferPoint a.1).Fresh block_secs a.2

/-- Along a run whose flushes write new files the lake answers each key with the value appended last under it. -/
theorem answer_run (flush_threshold block_secs : Nat) (as : List (Append × Nat))
    (h : (machine flush_threshold block_secs).Along (FreshFlush flush_threshold block_secs) as) (key : Bytes × Nat) :
    ((machine flush_threshold block_secs).state as).answer key = lastValue (as.map Prod.fst) key := by
  have hrun : ((machine flush_threshold block_secs).state as).RowsApart ∧
      ∀ key, ((machine flush_threshold block_secs).state as).answer key = lastValue (as.map Prod.fst) key := by
    induction as using List.reverseRecOn with
    | nil => exact ⟨fun rel => List.nodup_nil, fun key => rfl⟩
    | append_singleton as a ih =>
      obtain ⟨happart, hanswer⟩ := ih h.init
      have hfresh := h.last
      rw [Machine.state_snoc]
      generalize (machine flush_threshold block_secs).state as = s at happart hanswer hfresh
      have hbuffer := answer_bufferPoint happart a.1
      have hstep : (Machine.next (machine flush_threshold block_secs) s a).RowsApart ∧
          ∀ key, (Machine.next (machine flush_threshold block_secs) s a).answer key = (s.bufferPoint a.1).answer key := by
        change (s.append flush_threshold block_secs a.1 a.2).RowsApart ∧
          ∀ key, (s.append flush_threshold block_secs a.1 a.2).answer key = _
        unfold append
        dsimp only
        split_ifs with hfull
        · exact answer_flush (s := s.bufferPoint a.1) happart (hfresh hfull)
        · exact ⟨happart, fun key => rfl⟩
      refine ⟨hstep.1, fun key => ?_⟩
      rw [hstep.2, hbuffer, hanswer, List.map_append, List.map_singleton, lastValue_snoc]
  exact hrun.2 key

theorem mem_points {series : Bytes} {p : Nat × Bytes} :
    p ∈ s.points series ↔ s.answer (series, p.1) = some p.2 := by
  unfold points answer value
  rw [List.mem_map, Option.map_eq_some_iff]
  constructor
  · rintro ⟨e, he, rfl⟩
    obtain ⟨hin, hs⟩ := List.mem_filter.mp he
    obtain rfl := of_decide_eq_true hs
    exact ⟨e.2, AList.mem_lookup_iff.mpr hin, rfl⟩
  · rintro ⟨q, hq, hp⟩
    refine ⟨⟨(series, p.1), q⟩, List.mem_filter.mpr ⟨AList.mem_lookup_iff.mp hq, by simp⟩, ?_⟩
    exact Prod.ext rfl hp

/-- Of points at different times the one with the greatest time is the latest. -/
theorem latest_of_points {series : Bytes} {t : Nat} {v : Bytes} (hv : (t, v) ∈ s.points series) (hmax : ∀ p ∈ s.points series, p.1 ≤ t) :
    s.latest series 1 = [(t, v)] := by
  have hsorted : ((s.points series).insertionSort fun a b => b.1 ≤ a.1).Pairwise fun a b => b.1 ≤ a.1 := by
    have : Std.Total fun a b : Nat × Bytes => b.1 ≤ a.1 := ⟨fun a b => le_total b.1 a.1⟩
    have : IsTrans (Nat × Bytes) fun a b => b.1 ≤ a.1 := ⟨fun a b c hab hbc => hbc.trans hab⟩
    exact List.pairwise_insertionSort _ _
  have hmem : ∀ p, p ∈ (s.points series).insertionSort (fun a b => b.1 ≤ a.1) ↔ p ∈ s.points series :=
    fun p => List.mem_insertionSort _
  unfold latest
  cases hp : (s.points series).insertionSort (fun a b => b.1 ≤ a.1) with
  | nil =>
    have hin := (hmem (t, v)).mpr hv
    rw [hp] at hin
    cases hin
  | cons p ps =>
    rw [hp] at hsorted hmem
    have hin : p ∈ s.points series := (hmem p).mp (by simp)
    have hle : t ≤ p.1 := by
      rcases List.mem_cons.mp ((hmem (t, v)).mpr hv) with heq | hps
      · rw [← heq]
      · exact (List.pairwise_cons.mp hsorted).1 _ hps
    have ht : p.1 = t := le_antisymm (hmax p hin) hle
    have hanswer := mem_points.mp hin
    rw [ht, mem_points.mp hv] at hanswer
    have hpv : p = (t, v) := Prod.ext ht (Option.some.inj hanswer).symm
    rw [hpv]
    rfl

/-- The latest point of a series is the newest one appended to it. -/
theorem latest_one (flush_threshold block_secs : Nat) (as : List (Append × Nat))
    (h : (machine flush_threshold block_secs).Along (FreshFlush flush_threshold block_secs) as) (series : Bytes) :
    ((machine flush_threshold block_secs).state as).latest series 1 =
      ((Log.newest Append.ts (appended (as.map Prod.fst) series)).map Append.point).toList := by
  have hanswer := answer_run flush_threshold block_secs as h
  generalize (machine flush_threshold block_secs).state as = s at hanswer
  generalize as.map Prod.fst = log at hanswer
  have hpoint : ∀ p ∈ s.points series, ∃ a ∈ appended log series, a.ts = p.1 := by
    intro p hp
    have hv := mem_points.mp hp
    rw [hanswer, lastValue, Option.map_eq_some_iff] at hv
    obtain ⟨a, hlast, -⟩ := hv
    obtain ⟨ha, ht⟩ := List.mem_filter.mp (List.mem_of_getLast? hlast)
    exact ⟨a, ha, of_decide_eq_true ht⟩
  cases hn : Log.newest Append.ts (appended log series) with
  | none =>
    have hnil : s.points series = [] := by
      refine List.eq_nil_iff_forall_not_mem.mpr fun p hp => ?_
      obtain ⟨a, ha, -⟩ := hpoint p hp
      rw [Log.newest_eq_none.mp hn] at ha
      cases ha
    rw [latest, hnil]
    rfl
  | some n =>
    refine latest_of_points (mem_points.mpr ?_) fun p hp => ?_
    · rw [hanswer, lastValue, Log.getLast?_newest hn]
      rfl
    · obtain ⟨a, ha, ht⟩ := hpoint p hp
      exact ht ▸ Log.le_newest hn ha

/-- The answers of the lake as a function of its appends. -/
theorem latestByTime_newest : LatestByTime fun log series =>
    (Log.newest Append.ts (appended log series)).map Append.point where
  newest := by
    intro log series p hp
    obtain ⟨a, ha, rfl⟩ := Option.map_eq_some_iff.mp hp
    exact ⟨a, Log.newest_mem ha, rfl, fun a' ha' => Log.le_newest ha ha'⟩
  none := by
    intro log series hnone
    exact Log.newest_eq_none.mp (Option.map_eq_none_iff.mp hnone)

end Lakehouse

end Opsense
