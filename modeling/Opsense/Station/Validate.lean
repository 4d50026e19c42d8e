import Opsense.Lib.Listing
import Opsense.Station.Config

/-!
# A validated configuration, opened

`Config::validate` of `opsense-core/src/config.rs` looks at the outer storage table and at the overrides of the stations one by
one, `open_backend` acts on the two merged. A station of a validated configuration opens where what is missed in between is not
missing (`Openable`). The checks of `validate` that read nothing of the storage are a parameter.
-/

namespace Opsense

/-- The configuration, as far as the checks of the engine and the storage go. -/
structure Config where
  poll_interval_seconds : Nat
  storage : StorageConfig

/-- A Redis table that there is a DSN for. -/
def hasUrl (env : String → Option String) (r : Option RedisConfig) : Bool := r.any fun r => r.resolvedUrl env != ""

/-- The checks of the override of a station. -/
def checkStation (env : String → Option String) (cfg : StorageConfig) (station : Sigma fun _ : String => StationStorageOverride) :
    Except String Unit := do
  let ⟨id, own⟩ := station
  refuse (own.backend.any fun b => trimText b == "") ("storage.stations." ++ id ++ ".backend must not be empty")
  refuse (own.block_secs = some 0) ("storage.stations." ++ id ++ ".block_secs must be > 0 (parquet block partition width)")
  refuse ((own.backend.any fun b => trimText b == "redis") ∧ ¬hasUrl env (own.redis.or cfg.redis))
    ("storage.stations." ++ id ++
      ".backend = \"redis\" cần DSN: khai [storage.redis].url, hoặc env OPSENSE_REDIS_URL / REDIS_URL")

/-- `Config::validate`. The stations come in the order of an iteration over their map; `others` are the checks after those of the
storage. -/
def Config.validate (env : String → Option String) (others : Except String Unit) (cfg : Config)
    (stations : Listing cfg.storage.stations) : Except String Unit := do
  refuse (cfg.poll_interval_seconds = 0) "engine.poll_interval_seconds must be > 0"
  refuse (cfg.storage.s3.any fun s3 => s3.bucket == "") "storage.s3.bucket must be set (VD `opsense-lake`)"
  refuse (trimText cfg.storage.backend = "") "storage.backend must not be empty"
  refuse (cfg.storage.block_secs = 0) "storage.block_secs must be > 0 (parquet block partition width)"
  stations.entries.forM (checkStation env cfg.storage)
  refuse (trimText cfg.storage.backend = "redis" ∧ ¬hasUrl env cfg.storage.redis)
    "storage.backend = \"redis\" cần DSN: khai [storage.redis].url, hoặc env OPSENSE_REDIS_URL / REDIS_URL"
  others

/-- What a validated configuration has been checked for. -/
structure Validated (env : String → Option String) (cfg : StorageConfig) : Prop where
  bucket : ∀ s3, cfg.s3 = some s3 → s3.bucket ≠ ""
  width : cfg.block_secs ≠ 0
  dsn : trimText cfg.backend = "redis" → hasUrl env cfg.redis = true
  ownWidth : ∀ id own, cfg.stations.lookup id = some own → own.block_secs ≠ some 0
  ownDsn : ∀ id own b, cfg.stations.lookup id = some own → own.backend = some b → trimText b = "redis" →
    hasUrl env (own.redis.or cfg.redis) = true

theorem validate_validated {env : String → Option String} {others : Except String Unit} {cfg : Config}
    {stations : Listing cfg.storage.stations} (h : cfg.validate env others stations = .ok ()) : Validated env cfg.storage := by
  unfold Config.validate at h
  simp only [bind_unit_eq_ok, refuse_eq_ok, forM_eq_ok] at h
  obtain ⟨-, hbucket, -, hwidth, hstations, hdsn, -⟩ := h
  have hown : ∀ id own, cfg.storage.stations.lookup id = some own → checkStation env cfg.storage ⟨id, own⟩ = .ok () :=
    fun id own hlookup => hstations ⟨id, own⟩ (stations.mem_iff.mpr hlookup)
  unfold checkStation at hown
  simp only [bind_unit_eq_ok, refuse_eq_ok] at hown
  refine ⟨?_, hwidth, ?_, fun id own hlookup => (hown id own hlookup).2.1, ?_⟩
  · intro s3 hs3 hempty
    rw [hs3] at hbucket
    exact hbucket (by simp [hempty])
  · intro hredis
    by_contra hnot
    exact hdsn ⟨hredis, hnot⟩
  · intro id own b hlookup hb hredis
    by_contra hnot
    exact (hown id own hlookup).2.2 ⟨by simp [hb, hredis], hnot⟩

/-! ## Opening -/

/-- The names a backend is opened under. -/
def backendNames : List String := "memory" :: "sqlite" :: "redis" :: parquetNames

/-- Nothing about the configuration keeps the storage of a station from being opened, and the width of its blocks is positive. -/
structure OpensStation (env : String → Option String) (cfg : StorageConfig) (id : String) : Prop where
  opens : ∀ kind, ∃ backend, openBackend env id (cfg.forStation id) kind = .ok backend
  bucket : ∀ kind storage s3, openBackend env id (cfg.forStation id) kind = .ok (.parquet storage) → storage.s3 = some s3 →
    s3.bucket ≠ ""
  width : ∃ station, fromStorage env id cfg = .ok station ∧ 0 < station.block_duration

/-- What the checks miss of the table that is merged: the name of the backend, the DSN and the bucket of an override that
replaces the outer table, and a width that does not fit an `i64`. -/
structure Openable (env : String → Option String) (cfg : StorageConfig) (id : String) : Prop where
  name : trimText (cfg.forStation id).backend ∈ backendNames
  dsn : ∀ own r, cfg.stations.lookup id = some own → own.backend = none → own.redis = some r → trimText cfg.backend = "redis" →
    r.resolvedUrl env ≠ ""
  bucket : ∀ own s3, cfg.stations.lookup id = some own → own.s3 = some s3 →
    trimText (cfg.forStation id).backend ∈ parquetNames → s3.bucket ≠ ""
  width : (cfg.forStation id).block_secs < 2 ^ 63

/-- A backend is opened under its names, a Redis one with a DSN. -/
theorem openBackend_ok_iff {env : String → Option String} {id kind : String} {cfg : StorageConfig} :
    (∃ backend, openBackend env id cfg kind = .ok backend) ↔
      trimText cfg.backend ∈ backendNames ∧ (trimText cfg.backend = "redis" → hasUrl env cfg.redis = true) := by
  unfold openBackend backendNames
  dsimp only
  split_ifs with hmemory hparquet hsqlite hredis
  · rw [hmemory]
    simp
  · have hne : trimText cfg.backend ≠ "redis" := by
      intro hredis
      rw [hredis] at hparquet
      exact absurd hparquet (by decide)
    simp only [List.mem_cons, hparquet, or_true, true_and, hne, false_implies, iff_true]
    cases cfg.s3 <;> exact ⟨_, rfl⟩
  · rw [hsqlite]
    simp
  · rw [hredis]
    cases hr : cfg.redis with
    | none => simp [hasUrl]
    | some r => by_cases hurl : r.resolvedUrl env = "" <;> simp [hasUrl, hurl]
  · simp [hmemory, hparquet, hsqlite, hredis]

/-- The mirror of a Parquet store has the bucket that is configured. -/
theorem openBackend_bucket {env : String → Option String} {id kind : String} {cfg : StorageConfig} {storage : LakehouseStorage}
    {s3 : S3Config} (hopen : openBackend env id cfg kind = .ok (.parquet storage)) (hs3 : storage.s3 = some s3) :
    ∃ own, cfg.s3 = some own ∧ s3.bucket = own.bucket := by
  unfold openBackend at hopen
  dsimp only at hopen
  split_ifs at hopen
  · cases hopen
  · cases hown : cfg.s3 with
    | none =>
      rw [hown] at hopen
      rw [← BackendStorage.parquet.inj (Except.ok.inj hopen)] at hs3
      cases hs3
    | some own =>
      rw [hown] at hopen
      rw [← BackendStorage.parquet.inj (Except.ok.inj hopen)] at hs3
      exact ⟨own, rfl, by rw [← Option.some.inj hs3]; rfl⟩
  · cases hopen
  · cases hr : cfg.redis with
    | none =>
      rw [hr] at hopen
      cases hopen
    | some r =>
      rw [hr] at hopen
      dsimp only at hopen
      split_ifs at hopen
      cases hopen

/-- Under the names of a Parquet store an S3 table gives it a mirror with that bucket. -/
theorem openBackend_mirror (env : String → Option String) (id kind : String) {cfg : StorageConfig} {s3 : S3Config}
    (h : trimText cfg.backend ∈ parquetNames) (hs3 : cfg.s3 = some s3) :
    ∃ storage, openBackend env id cfg kind = .ok (.parquet storage) ∧ storage.s3 = some (mlibS3 env s3) := by
  have hmemory : trimText cfg.backend ≠ "memory" := by
    intro heq
    rw [heq] at h
    exact absurd h (by decide)
  unfold openBackend
  dsimp only
  rw [if_neg hmemory, if_pos h, hs3]
  exact ⟨_, rfl, rfl⟩

/-- The storage of a station, opened: the width is the configured one. -/
theorem fromStorage_eq (env : String → Option String) (id : String) (cfg : StorageConfig) :
    fromStorage env id cfg = (openBackend env id (cfg.forStation id) "timeseries").map (Opened.mk (asI64 (cfg.forStation id).block_secs)) := by
  unfold fromStorage
  dsimp only
  cases openBackend env id (cfg.forStation id) "timeseries" <;> rfl

theorem fromStorage_width {env : String → Option String} {id : String} {cfg : StorageConfig} {station : Opened}
    (h : fromStorage env id cfg = .ok station) : station.block_duration = asI64 (cfg.forStation id).block_secs := by
  rw [fromStorage_eq] at h
  cases hopen : openBackend env id (cfg.forStation id) "timeseries" with
  | error e =>
    rw [hopen] at h
    cases h
  | ok backend =>
    rw [hopen] at h
    simp only [Except.map, Except.ok.injEq] at h
    rw [← h]

namespace StorageConfig

variable {cfg : StorageConfig} {id : String}

theorem forStation_none (h : cfg.stations.lookup id = none) : cfg.forStation id = cfg := by
  unfold forStation
  rw [h]

theorem forStation_some {own : StationStorageOverride} (h : cfg.stations.lookup id = some own) :
    cfg.forStation id =
      { backend := own.backend.getD cfg.backend
        data_dir := own.data_dir.getD cfg.data_dir
        stations := ∅
        retention_secs := own.retention_secs.getD cfg.retention_secs
        block_secs := own.block_secs.getD cfg.block_secs
        s3 := own.s3.or cfg.s3
        redis := own.redis.or cfg.redis } := by
  unfold forStation
  rw [h]

end StorageConfig

namespace Validated

variable {env : String → Option String} {cfg : StorageConfig} {id : String}

/-- The width that is used is not zero. -/
theorem merged_width (h : Validated env cfg) : (cfg.forStation id).block_secs ≠ 0 := by
  cases hown : cfg.stations.lookup id with
  | none =>
    rw [StorageConfig.forStation_none hown]
    exact h.width
  | some own =>
    rw [StorageConfig.forStation_some hown]
    cases hwidth : own.block_secs with
    | none => exact h.width
    | some n =>
      rintro rfl
      exact h.ownWidth id own hown hwidth

/-- A DSN is missing exactly when an override brings a table without one to a backend that it does not choose. -/
theorem merged_dsn (h : Validated env cfg) :
    (trimText (cfg.forStation id).backend = "redis" → hasUrl env (cfg.forStation id).redis = true) ↔
      ∀ own r, cfg.stations.lookup id = some own → own.backend = none → own.redis = some r → trimText cfg.backend = "redis" →
        r.resolvedUrl env ≠ "" := by
  cases hown : cfg.stations.lookup id with
  | none =>
    rw [StorageConfig.forStation_none hown]
    refine iff_of_true h.dsn ?_
    intro own r hlookup
    cases hlookup
  | some own =>
    rw [StorageConfig.forStation_some hown]
    dsimp only
    cases hbackend : own.backend with
    | some b =>
      refine iff_of_true (fun hredis => h.ownDsn id own b hown hbackend hredis) ?_
      intro own' r hlookup hnone
      rw [← Option.some.inj hlookup, hbackend] at hnone
      cases hnone
    | none =>
      rw [Option.getD_none]
      cases hr : own.redis with
      | none =>
        refine iff_of_true h.dsn ?_
        intro own' r hlookup _ hsome
        rw [← Option.some.inj hlookup, hr] at hsome
        cases hsome
      | some r =>
        rw [Option.some_or]
        constructor
        · intro hurl own' r' hlookup _ hsome hredis
          rw [← Option.some.inj hlookup, hr] at hsome
          rw [← Option.some.inj hsome]
          simpa [hasUrl] using hurl hredis
        · intro hurl hredis
          simpa [hasUrl] using hurl own r rfl hbackend hr hredis

/-- An empty bucket is that of an override. -/
theorem merged_bucket (h : Validated env cfg) {s3 : S3Config} (hs3 : (cfg.forStation id).s3 = some s3) (hempty : s3.bucket = "") :
    ∃ own, cfg.stations.lookup id = some own ∧ own.s3 = some s3 := by
  cases hown : cfg.stations.lookup id with
  | none =>
    rw [StorageConfig.forStation_none hown] at hs3
    exact absurd hempty (h.bucket s3 hs3)
  | some own =>
    rw [StorageConfig.forStation_some hown] at hs3
    dsimp only at hs3
    cases hs : own.s3 with
    | none =>
      rw [hs, Option.none_or] at hs3
      exact absurd hempty (h.bucket s3 hs3)
    | some s3' =>
      rw [hs, Option.some_or] at hs3
      exact ⟨own, rfl, hs.trans hs3⟩

end Validated

end Opsense
