import Opsense.Lib.Checked
import Opsense.Storage.Inner

/-!
# The backend of a station

`StorageConfig` of `opsense-core/src/config.rs`, and the part of `opsense-core/src/station.rs` that opens a station's backend:
`for_station`, `open_backend` and `from_storage`, with every backend compiled in. What a server or a file system answers while
a backend is opened is left out, and so are the fields of the configuration that only its checks and its tasks read.
-/

namespace Opsense

structure S3Config where
  bucket : String
  pfx : String
  endpoint : Option String
  region : Option String
  access_key_id : Option String
  secret_access_key : Option String
  session_token : Option String
deriving DecidableEq

structure RedisConfig where
  url : String
  pfx : String
deriving DecidableEq

/-- What a station may override. -/
structure StationStorageOverride where
  backend : Option String
  data_dir : Option String
  retention_secs : Option Nat
  block_secs : Option Nat
  s3 : Option S3Config
  redis : Option RedisConfig

structure StorageConfig where
  backend : String
  data_dir : String
  stations : Table String StationStorageOverride
  retention_secs : Nat
  block_secs : Nat
  s3 : Option S3Config
  redis : Option RedisConfig

namespace StorageConfig

/-- `StorageConfig::default` -/
def default : StorageConfig where
  backend := "memory"
  data_dir := ".opsense/parquet"
  stations := ∅
  retention_secs := 0
  block_secs := 3600
  s3 := none
  redis := none

def forStation (cfg : StorageConfig) (id : String) : StorageConfig :=
  match cfg.stations.lookup id with
  | none => cfg
  | some own =>
    { backend := own.backend.getD cfg.backend
      data_dir := own.data_dir.getD cfg.data_dir
      stations := ∅
      retention_secs := own.retention_secs.getD cfg.retention_secs
      block_secs := own.block_secs.getD cfg.block_secs
      s3 := own.s3.or cfg.s3
      redis := own.redis.or cfg.redis }

end StorageConfig

/-- `str::trim` of a text. -/
def trimText (text : String) : String := String.ofList (trim text.toList)

namespace RedisConfig

/-- `resolved_url`, with the variables of the environment. -/
def resolvedUrl (env : String → Option String) (r : RedisConfig) : String :=
  if trimText r.url ≠ "" then trimText r.url
  else trimText (((env "OPSENSE_REDIS_URL").or (env "REDIS_URL")).getD "")

def resolvedPrefix (r : RedisConfig) : String := if trimText r.pfx = "" then "opsense" else trimText r.pfx

end RedisConfig

/-- The settings of an open Parquet store. -/
structure LakehouseStorage where
  «local» : String
  s3 : Option S3Config
  flush_threshold : Nat
  block_secs : Int
  lake_key : Option String

namespace LakehouseStorage

def openInner (path : String) (s3 : Option S3Config) (flush_threshold : Nat) (block_secs : Int) (lake_key : Option String) :
    LakehouseStorage :=
  ⟨path, s3, flush_threshold, max block_secs 1, lake_key⟩

/-- `LakehouseStorage::open` -/
def open' (path : String) : LakehouseStorage := openInner path none 0 3600 none

def openWithS3 (path : String) (s3 : S3Config) (flush_threshold : Nat) (block_secs : Int) (lake_key : String) :
    LakehouseStorage :=
  openInner path (some s3) flush_threshold block_secs (some lake_key)

/-- The width of its partitions. -/
def width (l : LakehouseStorage) : Nat := l.block_secs.toNat

end LakehouseStorage

inductive BackendStorage where
  | memory
  | parquet (storage : LakehouseStorage)
  | sqlite (path : String)
  | redis (url pfx : String)

def safeSegment (id : String) : String :=
  String.ofList (id.toList.map fun c => if c.isAlphanum ∨ c = '-' ∨ c = '_' then c else '_')

/-- `trim_end_matches('/')` -/
def trimSlashes (dir : String) : String := String.ofList (dir.toList.reverse.dropWhile (· = '/')).reverse

def backendError (id backend e : String) : String :=
  "failed to open storage backend '" ++ backend ++ "' for station '" ++ id ++ "': " ++ e

/-- The configured S3 with the credentials and the region of the environment for those it does not give. -/
def mlibS3 (env : String → Option String) (s3 : S3Config) : S3Config where
  bucket := s3.bucket
  pfx := s3.pfx
  endpoint := s3.endpoint
  region := (s3.region.or (env "OPSENSE_S3_REGION")).or (env "AWS_REGION")
  access_key_id := (s3.access_key_id.or (env "OPSENSE_S3_ACCESS_KEY_ID")).or (env "AWS_ACCESS_KEY_ID")
  secret_access_key := (s3.secret_access_key.or (env "OPSENSE_S3_SECRET_ACCESS_KEY")).or (env "AWS_SECRET_ACCESS_KEY")
  session_token := s3.session_token

/-- The names under which a Parquet store is opened. -/
def parquetNames : List String := ["parquet", "duckdb", "s3", "lakehouse"]

def openBackend (env : String → Option String) (id : String) (cfg : StorageConfig) (kind : String) :
    Except String BackendStorage :=
  let backend := trimText cfg.backend
  let data_dir := trimSlashes cfg.data_dir
  let segment := safeSegment id
  if backend = "memory" then .ok .memory
  else if backend ∈ parquetNames then
    let path := data_dir ++ "/" ++ segment ++ "-" ++ kind
    match cfg.s3 with
    | some s3 => .ok (.parquet (LakehouseStorage.openWithS3 path (mlibS3 env s3) 4096 (asI64 cfg.block_secs) segment))
    | none => .ok (.parquet (LakehouseStorage.open' path))
  else if backend = "sqlite" then .ok (.sqlite (data_dir ++ "/" ++ segment ++ "-" ++ kind ++ ".sqlite"))
  else if backend = "redis" then
    match cfg.redis with
    | none => .error (backendError id backend "thiếu [storage.redis].url (hoặc env OPSENSE_REDIS_URL / REDIS_URL)")
    | some r =>
      let url := r.resolvedUrl env
      if url = "" then
        .error (backendError id backend "[storage.redis].url rỗng và env OPSENSE_REDIS_URL / REDIS_URL cũng không có")
      else .ok (.redis url (r.resolvedPrefix ++ ":" ++ segment ++ "-" ++ kind))
  else .error ("unsupported storage backend '" ++ backend ++ "' for station '" ++ id ++ "' (kind '" ++ kind ++ "')")

/-- What `from_storage` sets up: the width of the station's blocks, and its backend. -/
structure Opened where
  block_duration : Int
  timeseries : BackendStorage

def fromStorage (env : String → Option String) (id : String) (cfg : StorageConfig) : Except String Opened := do
  let cfg := cfg.forStation id
  let timeseries ← openBackend env id cfg "timeseries"
  return ⟨asI64 cfg.block_secs, timeseries⟩

/-- A Parquet store is opened under its names only, with the configured width when there is an S3 and an hour otherwise. -/
theorem openBackend_parquet {env : String → Option String} {id : String} {cfg : StorageConfig} {kind : String}
    {storage : LakehouseStorage} : openBackend env id cfg kind = .ok (.parquet storage) →
    trimText cfg.backend ∈ parquetNames ∧
      storage.block_secs = if cfg.s3.isSome then max (asI64 cfg.block_secs) 1 else 3600 := by
  intro hopen
  unfold openBackend at hopen
  dsimp only at hopen
  split_ifs at hopen with hmemory hparquet hsqlite hredis
  · cases hopen
  · refine ⟨hparquet, ?_⟩
    cases hs3 : cfg.s3 with
    | none =>
      rw [hs3] at hopen
      rw [← BackendStorage.parquet.inj (Except.ok.inj hopen)]
      exact (if_neg Bool.false_ne_true).symm
    | some s3 =>
      rw [hs3] at hopen
      rw [← BackendStorage.parquet.inj (Except.ok.inj hopen)]
      exact (if_pos rfl).symm
  · cases hopen
  · cases hr : cfg.redis with
    | none =>
      rw [hr] at hopen
      cases hopen
    | some r =>
      rw [hr] at hopen
      dsimp only at hopen
      split_ifs at hopen
      cases hopen

/-- Under those names a Parquet store is opened. -/
theorem openBackend_of_mem (env : String → Option String) (id : String) {cfg : StorageConfig} (kind : String)
    (h : trimText cfg.backend ∈ parquetNames) : ∃ storage, openBackend env id cfg kind = .ok (.parquet storage) := by
  have hmemory : trimText cfg.backend ≠ "memory" := by
    rintro heq
    rw [heq] at h
    exact absurd h (by decide)
  unfold openBackend
  dsimp only
  rw [if_neg hmemory, if_pos h]
  cases cfg.s3 with
  | none => exact ⟨_, rfl⟩
  | some s3 => exact ⟨_, rfl⟩

end Opsense
