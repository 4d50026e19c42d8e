import Opsense.Station.Clear
import Opsense.Station.Config
import Opsense.Storage.View

/-!
# Retention

The background task of a station drops the old partitions of its store. The station files a snapshot of a block under the
block's id, which is a time divided by the width of the station's blocks, and the store turns an id back into a time with the
width of its own partitions. `from_storage` gives the store the station's width only when an S3 is configured: a store without
one has partitions of an hour. So retention drops no observation it should keep exactly when the two widths agree on the block
of `keep_after` (`retention_safe_iff`).
-/

namespace Opsense

/-- What a station appends: a block with an id, whose observations are in the time of the block. -/
structure Snapshot (block_duration : Int) where
  block_id : Int
  block : Block
  covers : ∀ o ∈ block.items, Block.Covers block_duration block_id o.ts
  finish_lt : block.items ≠ [] → Block.finish block_duration block_id < 2 ^ 63

/-- The append of a snapshot with its JSON. -/
def Snapshot.append {d : Int} (to_string : Block → String) (snap : Snapshot d) (ts : Nat) : Append :=
  ⟨TimeseriesStation.seriesOf snap.block_id, ts, intoBytes (to_string snap.block)⟩

/-- A step of the store of a station whose blocks have the given width. -/
inductive StoreAct (block_duration : Int) where
  | append (snap : Snapshot block_duration) (ts stamp : Nat)
  | flush (stamp : Nat)
  | checkpoint (stamp : Nat)
  | retain (keep_after_ts : Nat)
  | reopen

namespace LakehouseStorage

variable {d : Int}

def step (to_string : Block → String) (l : LakehouseStorage) (s : Store) : StoreAct d → Store
  | .append snap ts stamp => s.append l.flush_threshold l.width (snap.append to_string ts) stamp
  | .flush stamp => s.flushTimeseries l.width stamp
  | .checkpoint stamp => s.snapshot l.width stamp
  | .retain keep_after_ts => s.retainBlockPartitions l.width keep_after_ts
  | .reopen => s.reopen

/-- The store of a station over its steps. -/
def machine (to_string : Block → String) (d : Int) (l : LakehouseStorage) : Machine Store (StoreAct d) Unit :=
  ⟨Store.new, fun s a => (l.step to_string s a, ())⟩

end LakehouseStorage

/-- The row is in a file that the manifest lists. -/
def Store.Flushed (s : Store) (rel : DeltaFile) (row : Row) : Prop :=
  rel ∈ s.inner.lake.ts_manifest ∧ row ∈ (s.inner.lake.files rel).getD []

/-- The snapshot holds an observation from `keep_after_ts` on. -/
def Snapshot.Recent {d : Int} (snap : Snapshot d) (keep_after_ts : Nat) : Prop :=
  ∃ o ∈ snap.block.items, (keep_after_ts : Int) ≤ o.ts

/-- In every run of the Parquet store, retention removes no flushed snapshot with an observation from `keep_after_ts` on. The
other backends keep the default `retain_older_than`, which removes nothing. -/
def Opened.RetentionSafe (to_string : Block → String) (opened : Opened) (keep_after_ts : Nat) : Prop :=
  ∀ storage, opened.timeseries = .parquet storage → ∀ as : List (StoreAct opened.block_duration),
    ∀ snap ts stamp, .append snap ts stamp ∈ as → snap.Recent keep_after_ts →
      ∀ rel row, ((storage.machine to_string opened.block_duration).state as).Flushed rel row →
        row.series = TimeseriesStation.seriesOf snap.block_id → row.ts = ts → row.value = intoBytes (to_string snap.block) →
          (((storage.machine to_string opened.block_duration).state as).retainBlockPartitions storage.width
            keep_after_ts).Flushed rel row

/-- The backend is no Parquet store, or an S3 is configured, or the hours before `keep_after_ts` end no later as blocks of the
station. Nothing is asked for a `keep_after_ts` that no observation reaches, as its block ends past the last `i64`. -/
def StorageConfig.WidthsAgree (cfg : StorageConfig) (keep_after_ts : Nat) : Prop :=
  trimText cfg.backend ∉ parquetNames ∨ cfg.s3.isSome ∨
    (keep_after_ts / 3600 : Nat) * asI64 cfg.block_secs ≤ keep_after_ts ∨
    2 ^ 63 < (keep_after_ts / asI64 cfg.block_secs + 1) * asI64 cfg.block_secs

/-! ## Which partition a block goes to -/

theorem intoBytes_blk : (intoBytes "blk:").length = 4 := by decide +kernel

/-- The partition of a block is its id. -/
theorem blockIdOf_seriesOf {block_id : Nat} (h : block_id < 2 ^ 64) (block_secs ts : Nat) :
    blockIdOf block_secs (TimeseriesStation.seriesOf block_id) ts = block_id := by
  have hseries : TimeseriesStation.seriesOf block_id = intoBytes "blk:" ++ intoBytes (toString (block_id : Int)) :=
    intoBytes_append _ _
  have hdrop : (TimeseriesStation.seriesOf block_id).drop 4 = intoBytes (toString (block_id : Int)) := by
    rw [hseries, List.drop_left' intoBytes_blk]
  have hdigits : (toString (block_id : Int)).toList = Nat.toDigits 10 block_id := Nat.toList_repr
  unfold blockIdOf
  dsimp only
  rw [if_pos (hseries ▸ List.prefix_append _ _), hdrop, fromUtf8_intoBytes, Option.getD_some, hdigits,
    trim_digits fun c hc => Nat.isDigit_of_mem_toDigits (by decide) (by decide) hc, parseU64_toDigits h, Option.getD_some]

/-- A snapshot with an observation not before zero has an id that a `u64` holds. -/
theorem Snapshot.id_bounds {d : Int} (snap : Snapshot d) {o : Observation} (ho : o ∈ snap.block.items) (hts : 0 ≤ o.ts) :
    0 < d ∧ 0 ≤ snap.block_id ∧ snap.block_id < 2 ^ 63 := by
  obtain ⟨hstart, hfinish⟩ := snap.covers o ho
  have hlt := snap.finish_lt (List.ne_nil_of_mem ho)
  unfold Block.start at hstart
  unfold Block.finish at hfinish hlt
  have hd : 0 < d := by
    have : (snap.block_id + 1) * d = snap.block_id * d + d := by ring
    omega
  refine ⟨hd, ?_, ?_⟩
  · by_contra hneg
    have : (snap.block_id + 1) * d ≤ 0 * d := Int.mul_le_mul_of_nonneg_right (by omega) hd.le
    omega
  · have : (snap.block_id + 1) * 1 ≤ (snap.block_id + 1) * d := by
      by_cases hid : 0 ≤ snap.block_id + 1
      · exact Int.mul_le_mul_of_nonneg_left (by omega) hid
      · have : (snap.block_id + 1) * d ≤ 0 * d := Int.mul_le_mul_of_nonneg_right (by omega) hd.le
        omega
    omega

/-- Such a snapshot goes to the partition of its id. -/
theorem Snapshot.partition {d : Int} (snap : Snapshot d) {o : Observation} (ho : o ∈ snap.block.items) (hts : 0 ≤ o.ts)
    (block_secs ts : Nat) : blockIdOf block_secs (TimeseriesStation.seriesOf snap.block_id) ts = snap.block_id.toNat := by
  obtain ⟨-, hid, hlt⟩ := snap.id_bounds ho hts
  have heq : snap.block_id = (snap.block_id.toNat : Int) := (Int.toNat_of_nonneg hid).symm
  rw [heq, Int.toNat_natCast]
  exact blockIdOf_seriesOf (by omega) block_secs ts

/-! ## Every file holds rows of its block -/

/-- The rows of a file are of the block the file is named after. -/
def Lakehouse.Filed (block_secs : Nat) (s : Lakehouse) : Prop :=
  ∀ rel, ∀ row ∈ (s.files rel).getD [], blockIdOf block_secs row.series row.ts = rel.block

theorem Lakehouse.Filed.flush {block_secs : Nat} {s : Lakehouse} (h : s.Filed block_secs) (stamp : Nat) :
    (s.flushTimeseries block_secs stamp).Filed block_secs := by
  have hwritten : ∀ blocks rel, ∀ row ∈ (Lakehouse.writeFiles block_secs stamp s.buffered s.files blocks rel).getD [],
      blockIdOf block_secs row.series row.ts = rel.block := by
    intro blocks rel row hrow
    by_cases hrel : ∃ b ∈ blocks, rel = ⟨b, stamp⟩
    · obtain ⟨b, hb, rfl⟩ := hrel
      rw [Lakehouse.writeFiles_mem hb, Option.getD_some] at hrow
      simpa using (List.mem_filter.mp hrow).2
    · rw [Lakehouse.writeFiles_other fun b hb heq => hrel ⟨b, hb, heq⟩] at hrow
      exact h rel row hrow
  rcases Lakehouse.flush_cases block_secs stamp s with heq | ⟨last, -, heq⟩ | ⟨written, -, heq⟩
  · rw [heq]
    exact h
  · rw [heq]
    exact hwritten _
  · rw [heq]
    exact hwritten _

theorem filed_retain {block_secs keep_after_ts : Nat} {s : Store} (h : s.inner.lake.Filed block_secs) :
    (s.retainBlockPartitions block_secs keep_after_ts).inner.lake.Filed block_secs := by
  unfold Store.retainBlockPartitions
  dsimp only
  split_ifs
  · exact h
  · intro rel row hrow
    dsimp only at hrow
    split_ifs at hrow
    · cases hrow
    · exact h rel row hrow

theorem filed_step {d : Int} (to_string : Block → String) (l : LakehouseStorage) {s : Store}
    (h : s.inner.lake.Filed l.width) (a : StoreAct d) : (l.step to_string s a).inner.lake.Filed l.width := by
  cases a with
  | append snap ts stamp =>
    unfold LakehouseStorage.step
    rw [Store.lake_append]
    unfold Lakehouse.append
    dsimp only
    split_ifs
    · exact Lakehouse.Filed.flush (s := s.inner.lake.bufferPoint _) h stamp
    · exact h
  | flush stamp =>
    unfold LakehouseStorage.step
    rw [Store.lake_flush]
    exact h.flush stamp
  | checkpoint stamp =>
    have hflush := h.flush stamp
    rw [← Store.lake_flush] at hflush
    unfold LakehouseStorage.step Store.snapshot
    split_ifs <;> exact hflush
  | retain keep_after_ts => exact filed_retain h
  | reopen => exact h

theorem filed_run {d : Int} (to_string : Block → String) (l : LakehouseStorage) (as : List (StoreAct d)) :
    ((l.machine to_string d).state as).inner.lake.Filed l.width :=
  Machine.invariant (M := l.machine to_string d) (I := fun s => s.inner.lake.Filed l.width)
    (fun _ _ hrow => absurd hrow List.not_mem_nil) (fun _ a h => filed_step to_string l h a) as

/-- Retention keeps the files of the blocks from `keepBlock` on. -/
theorem flushed_retain {block_secs keep_after_ts : Nat} {s : Store} {rel : DeltaFile} {row : Row} :
    (s.retainBlockPartitions block_secs keep_after_ts).Flushed rel row ↔
      s.Flushed rel row ∧ Store.keepBlock block_secs keep_after_ts ≤ rel.block := by
  unfold Store.retainBlockPartitions Store.Flushed
  dsimp only
  split_ifs with hnone
  · refine ⟨fun h => ⟨h, ?_⟩, fun h => h.1⟩
    by_contra hlt
    have hmem : rel ∈ s.inner.lake.ts_manifest.filter fun rel => rel.block < Store.keepBlock block_secs keep_after_ts :=
      List.mem_filter.mpr ⟨h.1, decide_eq_true (lt_of_not_ge hlt)⟩
    rw [hnone] at hmem
    cases hmem
  · have hremoved : Store.keepBlock block_secs keep_after_ts ≤ rel.block →
        rel ∉ s.inner.lake.ts_manifest.filter fun rel => rel.block < Store.keepBlock block_secs keep_after_ts := by
      intro hkeep hmem
      exact absurd (of_decide_eq_true (List.mem_filter.mp hmem).2) (not_lt.mpr hkeep)
    constructor
    · rintro ⟨hrel, hrow⟩
      obtain ⟨hrel, hkeep⟩ := List.mem_filter.mp hrel
      have hkeep := not_lt.mp (of_decide_eq_true hkeep)
      dsimp only at hrow
      rw [if_neg (hremoved hkeep)] at hrow
      exact ⟨⟨hrel, hrow⟩, hkeep⟩
    · rintro ⟨⟨hrel, hrow⟩, hkeep⟩
      refine ⟨List.mem_filter.mpr ⟨hrel, decide_eq_true (not_lt.mpr hkeep)⟩, ?_⟩
      dsimp only
      rw [if_neg (hremoved hkeep)]
      exact hrow

/-! ## The widths -/

/-- A block with an observation from `keep_after_ts` on is not older than the first partition that is kept, when the partitions
before that end no later as blocks of the station. -/
theorem keepBlock_le {d : Int} {width keep_after_ts : Nat} (hwidth : 0 < width) {snap : Snapshot d} {o : Observation}
    (ho : o ∈ snap.block.items) (hrecent : (keep_after_ts : Int) ≤ o.ts)
    (h : (keep_after_ts / width : Nat) * d ≤ keep_after_ts ∨ 2 ^ 63 < (keep_after_ts / d + 1) * d) :
    (Store.keepBlock width keep_after_ts : Int) ≤ snap.block_id := by
  obtain ⟨hd, hid, -⟩ := snap.id_bounds ho (by omega)
  have hfinish := (snap.covers o ho).2
  have hlast := snap.finish_lt (List.ne_nil_of_mem ho)
  unfold Block.finish at hfinish hlast
  have hkeep : Store.keepBlock width keep_after_ts = keep_after_ts / width := if_pos hwidth
  rw [hkeep]
  by_contra hlt
  have hlt : snap.block_id + 1 ≤ (keep_after_ts / width : Nat) := by omega
  rcases h with hends | hpast
  · have := Int.mul_le_mul_of_nonneg_right hlt hd.le
    omega
  · -- the block of `keep_after_ts` is no later than the block of the observation
    have hblock : (keep_after_ts : Int) / d < snap.block_id + 1 := Int.ediv_lt_of_lt_mul hd (by omega)
    have hmul : ((keep_after_ts : Int) / d + 1) * d ≤ (snap.block_id + 1) * d :=
      Int.mul_le_mul_of_nonneg_right (by omega) hd.le
    omega

theorem covers_at {d : Int} (keep_after_ts : Nat) (hd : 0 < d) : Block.Covers d (keep_after_ts / d) keep_after_ts := by
  have hlt := Int.lt_ediv_add_one_mul_self (keep_after_ts : Int) hd
  exact ⟨Int.ediv_mul_le _ hd.ne', by unfold Block.finish; omega⟩

/-- The block of `keep_after_ts` with an observation at that time. -/
def blockAt (keep_after_ts : Nat) : Block :=
  ⟨[⟨keep_after_ts, "cpu", .metric, .raw, 0, ⟨[], noLabels_sorted⟩, none⟩], (keep_after_ts, keep_after_ts), 0⟩

theorem blockAt_covers {d : Int} (keep_after_ts : Nat) (hd : 0 < d) :
    ∀ o ∈ (blockAt keep_after_ts).items, Block.Covers d (keep_after_ts / d) o.ts := by
  intro o ho
  obtain rfl := List.mem_singleton.mp ho
  exact covers_at keep_after_ts hd

theorem blockAt_finish_lt {d : Int} (keep_after_ts : Nat) (hfinish : (keep_after_ts / d + 1) * d ≤ 2 ^ 63) :
    (blockAt keep_after_ts).items ≠ [] → Block.finish d (keep_after_ts / d) < 2 ^ 63 := by
  intro _
  unfold Block.finish
  omega

/-- The snapshot of the block of `keep_after_ts` with an observation at that time. -/
def snapshotAt {d : Int} (keep_after_ts : Nat) (hd : 0 < d) (hfinish : (keep_after_ts / d + 1) * d ≤ 2 ^ 63) : Snapshot d where
  block_id := keep_after_ts / d
  block := blockAt keep_after_ts
  covers := blockAt_covers keep_after_ts hd
  finish_lt := blockAt_finish_lt keep_after_ts hfinish

/-- A snapshot appended to a new store and flushed is in the file of its block. -/
theorem flushed_of_append {d : Int} (to_string : Block → String) (l : LakehouseStorage) (snap : Snapshot d) (ts : Nat)
    {b : Nat} (hb : blockIdOf l.width (TimeseriesStation.seriesOf snap.block_id) ts = b) :
    ∃ as : List (StoreAct d), .append snap ts 0 ∈ as ∧
      ((l.machine to_string d).state as).Flushed ⟨b, 0⟩
        ⟨1, TimeseriesStation.seriesOf snap.block_id, ts, intoBytes (to_string snap.block)⟩ := by
  have hlake : ∃ as : List (StoreAct d), .append snap ts 0 ∈ as ∧
      ((l.machine to_string d).state as).inner.lake =
        (Lakehouse.new.bufferPoint (snap.append to_string ts)).flushTimeseries l.width 0 := by
    have happend : ((l.machine to_string d).state [.append snap ts 0]).inner.lake =
        Lakehouse.new.append l.flush_threshold l.width (snap.append to_string ts) 0 := Store.lake_append _ _
    unfold Lakehouse.append at happend
    dsimp only at happend
    split_ifs at happend with hfull
    · exact ⟨[.append snap ts 0], by simp, happend⟩
    · refine ⟨[.append snap ts 0] ++ [.flush 0], by simp, ?_⟩
      rw [Machine.state_snoc, ← happend]
      exact Store.lake_flush _ _ _
  obtain ⟨as, hmem, hlake⟩ := hlake
  refine ⟨as, hmem, ?_⟩
  have hbuffered : (Lakehouse.new.bufferPoint (snap.append to_string ts)).buffered =
      [⟨1, TimeseriesStation.seriesOf snap.block_id, ts, intoBytes (to_string snap.block)⟩] := rfl
  have hblocks : Lakehouse.blocksOf l.width
      [⟨1, TimeseriesStation.seriesOf snap.block_id, ts, intoBytes (to_string snap.block)⟩] = [b] := by
    simp [Lakehouse.blocksOf, hb]
  have hrows : Lakehouse.rowsOf l.width
      [⟨1, TimeseriesStation.seriesOf snap.block_id, ts, intoBytes (to_string snap.block)⟩] b =
        [⟨1, TimeseriesStation.seriesOf snap.block_id, ts, intoBytes (to_string snap.block)⟩] := by
    simp [Lakehouse.rowsOf, hb]
  unfold Store.Flushed
  rw [hlake]
  unfold Lakehouse.flushTimeseries
  dsimp only
  rw [hbuffered, hblocks]
  simp [hrows, fromUtf8_intoBytes, Lakehouse.writeFiles]

theorem fromStorage_ok {env : String → Option String} {id : String} {cfg : StorageConfig} {opened : Opened}
    (h : fromStorage env id cfg = .ok opened) : opened.block_duration = asI64 (cfg.forStation id).block_secs ∧
      openBackend env id (cfg.forStation id) "timeseries" = .ok opened.timeseries := by
  unfold fromStorage at h
  dsimp only at h
  cases hback : openBackend env id (cfg.forStation id) "timeseries" with
  | error e =>
    rw [hback] at h
    cases h
  | ok timeseries =>
    rw [hback] at h
    have hopened : ⟨asI64 (cfg.forStation id).block_secs, timeseries⟩ = opened := Except.ok.inj h
    rw [← hopened]
    simp only [and_self]

section Widths

variable {env : String → Option String} {id : String} {cfg : StorageConfig} {kind : String} {storage : LakehouseStorage}

theorem storage_width_pos (hback : openBackend env id cfg kind = .ok (.parquet storage)) : 0 < storage.width := by
  unfold LakehouseStorage.width
  rw [(openBackend_parquet hback).2]
  split_ifs <;> omega

/-- What the widths have to meet, said of the store that is opened. -/
theorem widthsAgree_iff (hback : openBackend env id cfg kind = .ok (.parquet storage)) {keep_after_ts : Nat} :
    cfg.WidthsAgree keep_after_ts ↔ ((keep_after_ts / storage.width : Nat) * asI64 cfg.block_secs ≤ keep_after_ts ∨
      2 ^ 63 < (keep_after_ts / asI64 cfg.block_secs + 1) * asI64 cfg.block_secs) := by
  obtain ⟨hname, hsecs⟩ := openBackend_parquet hback
  unfold StorageConfig.WidthsAgree LakehouseStorage.width
  rw [hsecs]
  generalize asI64 cfg.block_secs = d
  by_cases hs3 : cfg.s3.isSome
  · rw [if_pos hs3]
    refine ⟨fun _ => Or.inl ?_, fun _ => Or.inr (Or.inl hs3)⟩
    by_cases hd : 0 < d
    · have hmax : ((max d 1).toNat : Int) = d := by omega
      rw [Int.natCast_ediv, hmax]
      exact Int.ediv_mul_le _ hd.ne'
    · exact (Int.mul_nonpos_of_nonneg_of_nonpos (Int.natCast_nonneg _) (not_lt.mp hd)).trans (Int.natCast_nonneg _)
  · rw [if_neg hs3]
    constructor
    · rintro (hnot | hsome | hends)
      · exact absurd hname hnot
      · exact absurd hsome hs3
      · exact hends
    · exact fun h => Or.inr (Or.inr h)

end Widths

/-- Retention on the store of a station keeps every flushed observation from `keep_after_ts` on exactly when the width of the
store agrees with that of the station. -/
theorem retention_safe_iff (env : String → Option String) (to_string : Block → String) (id : String) (cfg : StorageConfig)
    (keep_after_ts : Nat) :
    (∀ opened, fromStorage env id cfg = .ok opened → opened.RetentionSafe to_string keep_after_ts) ↔
      (cfg.forStation id).WidthsAgree keep_after_ts := by
  have hopen : ∀ storage, openBackend env id (cfg.forStation id) "timeseries" = .ok (.parquet storage) →
      fromStorage env id cfg = .ok ⟨asI64 (cfg.forStation id).block_secs, .parquet storage⟩ := by
    intro storage hback
    unfold fromStorage
    dsimp only
    rw [hback]
    rfl
  constructor
  · intro hsafe
    by_contra hwidths
    obtain ⟨hname, hs3, hends, hpast⟩ : trimText (cfg.forStation id).backend ∈ parquetNames ∧ ¬(cfg.forStation id).s3.isSome ∧
        ¬((keep_after_ts / 3600 : Nat) * asI64 (cfg.forStation id).block_secs ≤ keep_after_ts) ∧
        ¬(2 ^ 63 < (keep_after_ts / asI64 (cfg.forStation id).block_secs + 1) * asI64 (cfg.forStation id).block_secs) := by
      simpa only [StorageConfig.WidthsAgree, not_or, not_not] using hwidths
    obtain ⟨storage, hback⟩ := openBackend_of_mem env id "timeseries" hname
    have hwidth : storage.width = 3600 := by
      unfold LakehouseStorage.width
      rw [(openBackend_parquet hback).2, if_neg hs3]
      rfl
    have hsafe := hsafe _ (hopen storage hback) storage rfl
    generalize asI64 (cfg.forStation id).block_secs = d at hends hpast hsafe
    have hd : 0 < d := by
      by_contra hd
      exact hends ((Int.mul_nonpos_of_nonneg_of_nonpos (Int.natCast_nonneg _) (not_lt.mp hd)).trans (Int.natCast_nonneg _))
    -- the snapshot with an observation at `keep_after_ts` goes to a partition that is dropped
    have hmem : (⟨keep_after_ts, "cpu", .metric, .raw, 0, ⟨[], noLabels_sorted⟩, none⟩ : Observation) ∈
        (snapshotAt keep_after_ts hd (not_lt.mp hpast)).block.items := List.mem_singleton_self _
    obtain ⟨as, happend, hflushed⟩ := flushed_of_append to_string storage (snapshotAt keep_after_ts hd (not_lt.mp hpast)) 0
      (Snapshot.partition _ hmem (Int.natCast_nonneg _) storage.width 0)
    have hkept := hsafe as _ 0 0 happend ⟨_, hmem, le_refl _⟩ _ _ hflushed rfl rfl rfl
    have hkeep : keep_after_ts / 3600 ≤ ((keep_after_ts : Int) / d).toNat := by
      have := (flushed_retain.mp hkept).2
      rw [hwidth] at this
      exact this
    have hblock : ((keep_after_ts / 3600 : Nat) : Int) ≤ keep_after_ts / d := by
      have := Int.ediv_nonneg (Int.natCast_nonneg keep_after_ts) hd.le
      omega
    exact hends ((Int.mul_le_mul_of_nonneg_right hblock hd.le).trans (Int.ediv_mul_le _ hd.ne'))
  · intro hwidths opened hopened storage hstorage as snap ts stamp hmem hrecent rel row hflushed hseries hts hvalue
    obtain ⟨o, ho, hrecent⟩ := hrecent
    obtain ⟨hduration, hback⟩ := fromStorage_ok hopened
    rw [hstorage] at hback
    have hblock : rel.block = snap.block_id.toNat := by
      rw [← filed_run to_string storage as rel row hflushed.2, hseries]
      exact Snapshot.partition snap ho (by omega) _ _
    have hkeep := keepBlock_le (storage_width_pos hback) ho hrecent (by
      rw [hduration]
      exact (widthsAgree_iff hback).mp hwidths)
    obtain ⟨-, hid, -⟩ := snap.id_bounds ho (by omega)
    exact flushed_retain.mpr ⟨hflushed, by omega⟩

/-- Blocks of a day on a local Parquet store. -/
def daily : StorageConfig := { StorageConfig.default with backend := "parquet", block_secs := 86400 }

/-- An observation of the second day, one hour into it. -/
def secondDay : Snapshot 86400 where
  block_id := 1
  block := ⟨[TimeseriesStation.cpuAt 90000], (86400, 172799), 90000⟩
  covers := by
    intro o ho
    obtain rfl := List.mem_singleton.mp ho
    decide
  finish_lt := fun _ => by decide

/-- The JSON of its block. -/
def secondDayJson : String :=
  TimeseriesStation.blockJson (TimeseriesStation.cpuJson "90000") "86400,172799" "90000"

theorem fromStorage_daily : fromStorage (fun _ => none) "grid" daily =
    .ok ⟨86400, .parquet ( LakehouseStorage.open' ".opsense/parquet/grid-timeseries")⟩ := by
  have hcfg : daily.forStation "grid" = daily := rfl
  have hbackend : trimText daily.backend = "parquet" := by decide +kernel
  have hpath : trimSlashes daily.data_dir ++ "/" ++ safeSegment "grid" ++ "-" ++ "timeseries" =
      ".opsense/parquet/grid-timeseries" := by decide +kernel
  have hwidth : asI64 daily.block_secs = 86400 := by decide
  have hs3 : daily.s3 = none := rfl
  unfold fromStorage openBackend
  dsimp only
  rw [hcfg, hbackend, if_neg (by decide), if_pos (by decide), hs3, hpath, hwidth]
  rfl

/-- A store without an S3 takes the second day for the second hour and drops it. -/
theorem second_day_dropped :
    fromStorage (fun _ => none) "grid" daily =
      .ok ⟨86400, .parquet ( LakehouseStorage.open' ".opsense/parquet/grid-timeseries")⟩ ∧
    ¬(⟨86400, .parquet ( LakehouseStorage.open' ".opsense/parquet/grid-timeseries")⟩ : Opened).RetentionSafe
      (fun _ => secondDayJson) 90000 := by
  refine ⟨fromStorage_daily, fun hsafe => ?_⟩
  obtain ⟨as, happend, hflushed⟩ := flushed_of_append (fun _ => secondDayJson)
    ( LakehouseStorage.open' ".opsense/parquet/grid-timeseries") secondDay 0
    (Snapshot.partition secondDay (List.mem_singleton_self _) (by decide) _ 0)
  have hkept := hsafe _ rfl as secondDay 0 0 happend ⟨_, List.mem_singleton_self _, le_refl _⟩ _ _ hflushed rfl rfl rfl
  exact absurd (flushed_retain.mp hkept).2 (by decide)

end Opsense
