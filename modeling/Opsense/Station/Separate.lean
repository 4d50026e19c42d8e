import Opsense.Lib.Namespace
import Opsense.Station.Validate

/-!
# Where stations keep their storage

The places `open_backend` opens for a station: a directory or a file under `data_dir`, the keys of a Redis server under a prefix, and
the objects of a bucket under a prefix. They are made of the id of the station with every other character replaced by an
underscore, so two stations may be given the same file (`same_file`). Two stations share nothing exactly where their settings keep
them apart (`unshared_iff`). Paths are compared by their components, as they are written.
-/

namespace Opsense

inductive StationKind where
  | timeseries
  | pattern
  | category
deriving DecidableEq

def StationKind.name : StationKind → String
  | .timeseries => "timeseries"
  | .pattern => "pattern"
  | .category => "category"

/-- The file system, a Redis server, or a bucket at an endpoint. -/
inductive StorageRoot where
  | disk
  | redis (url : String)
  | s3 (endpoint : Option String) (bucket : String)
deriving DecidableEq

abbrev StoragePlace := Place StorageRoot (List Char)

/-- The components of a path; an absolute one starts with the root. -/
def diskPath (path : String) : List (List Char) :=
  (if path.toList.head? = some '/' then [['/']] else []) ++ (pieces '/' path.toList).filter fun p => p ≠ [] ∧ p ≠ ['.']

/-- The parts of an object key; the empty ones are dropped. -/
def objectPath (key : String) : List (List Char) := parts '/' key.toList

/-- The parts of the prefix of a key, each of which is followed by a colon. -/
def redisPath (pfx : String) : List (List Char) := pieces ':' pfx.toList

/-- `key`: an object of the lake. -/
def S3Config.key (s3 : S3Config) (rest : String) : String :=
  String.ofList ((s3.pfx.toList.dropWhile (· = '/')).reverse.dropWhile (· = '/')).reverse ++ "/" ++ rest

/-- Where an open backend keeps its contents. -/
def BackendStorage.places : BackendStorage → List StoragePlace
  | .memory => []
  | .parquet storage =>
    (.disk, diskPath storage.local) ::
      (storage.s3.map fun s3 => ((.s3 s3.endpoint s3.bucket, objectPath (s3.key (storage.lake_key.getD ""))) : StoragePlace)).toList
  | .sqlite path => [(.disk, diskPath path)]
  | .redis url pfx => [(.redis url, redisPath pfx)]

/-! ## Names -/

/-- The name of a station among those of a directory or a prefix. -/
def stationName (id : String) (kind : StationKind) : String := safeSegment id ++ "-" ++ kind.name

/-- What a station is called under `data_dir`, if it keeps anything there. -/
def localName (cfg : StorageConfig) (id : String) (kind : StationKind) : Option String :=
  if trimText cfg.backend ∈ parquetNames then some (stationName id kind)
  else if trimText cfg.backend = "sqlite" then some (stationName id kind ++ ".sqlite")
  else none

/-- `data_dir` as a path. -/
def dirPath (dir : String) : List (List Char) := diskPath (trimSlashes dir ++ "/")

/-- The path of the lake of a station: a station whose name is empty has the whole prefix. -/
def lakePath (s3 : S3Config) (name : String) : List (List Char) := objectPath s3.pfx ++ if name = "" then [] else [name.toList]

/-- The letters, the digits, the hyphen and the underscore. -/
def IsPlain (c : Char) : Prop := c.isAlphanum = true ∨ c = '-' ∨ c = '_'

theorem safeSegment_plain (id : String) : ∀ c ∈ (safeSegment id).toList, IsPlain c := by
  unfold safeSegment
  intro c hc
  rw [String.toList_ofList] at hc
  obtain ⟨d, -, rfl⟩ := List.mem_map.mp hc
  split_ifs with h
  · exact h
  · exact .inr (.inr rfl)

theorem kindName_plain (kind : StationKind) : ∀ c ∈ ("-" ++ kind.name).toList, IsPlain c := by
  unfold IsPlain
  cases kind <;> simp [StationKind.name, Char.isAlphanum, Char.isAlpha, Char.isLower]

theorem stationName_plain (id : String) (kind : StationKind) : ∀ c ∈ (stationName id kind).toList, IsPlain c := by
  intro c hc
  unfold stationName at hc
  rw [String.append_assoc, String.toList_append, List.mem_append] at hc
  exact hc.elim (safeSegment_plain id c) (kindName_plain kind c)

theorem not_plain : ¬IsPlain '/' ∧ ¬IsPlain ':' := by
  unfold IsPlain
  decide

theorem stationName_inj {id id' : String} {kind kind' : StationKind} :
    stationName id kind = stationName id' kind' ↔ safeSegment id = safeSegment id' ∧ kind = kind' := by
  constructor
  · intro h
    unfold stationName at h
    have hlist := congrArg String.toList h
    simp only [String.toList_append] at hlist
    have hkind : kind = kind' := by
      -- the names of the kinds end in different letters
      have hlast := congrArg List.getLast? hlist
      revert hlast
      cases kind <;> cases kind' <;> simp [StationKind.name]
    subst hkind
    refine ⟨String.toList_inj.mp ?_, rfl⟩
    rwa [List.append_cancel_right_eq, List.append_cancel_right_eq] at hlist
  · rintro ⟨hid, rfl⟩
    unfold stationName
    rw [hid]

/-! ## Paths to a station -/

theorem diskPath_concat {dir name : String} (hslash : '/' ∉ name.toList) (hnil : name ≠ "") (hdot : name ≠ ".") :
    diskPath (trimSlashes dir ++ "/" ++ name) = dirPath dir ++ [name.toList] := by
  have hkeep : name.toList ≠ [] ∧ name.toList ≠ ['.'] :=
    ⟨fun h => hnil (String.toList_inj.mp h), fun h => hdot (String.toList_inj.mp h)⟩
  unfold dirPath diskPath
  simp only [String.toList_append, List.append_assoc, String.reduceToList, List.cons_append, List.nil_append, pieces_append,
    pieces_of_notMem hslash]
  rw [List.filter_append, List.filter_append]
  simp [hkeep, pieces]

theorem redisPath_concat (pfx : String) {name : String} (h : ':' ∉ name.toList) :
    redisPath (pfx ++ ":" ++ name) = redisPath pfx ++ [name.toList] := by
  unfold redisPath
  simp only [String.toList_append, List.append_assoc, String.reduceToList, List.cons_append, List.nil_append, pieces_append,
    pieces_of_notMem h]

theorem objectPath_key (s3 : S3Config) {name : String} (h : '/' ∉ name.toList) :
    objectPath (s3.key name) = lakePath s3 name := by
  have htrim : parts '/' ((s3.pfx.toList.dropWhile (· = '/')).reverse.dropWhile (· = '/')).reverse = parts '/' s3.pfx.toList :=
    (parts_rdropWhile '/' _).trans (parts_dropWhile '/' _)
  have hname : name.toList = [] ↔ name = "" := by
    rw [← String.toList_inj]
    rfl
  unfold lakePath objectPath S3Config.key
  simp only [String.toList_append, List.append_assoc, String.toList_ofList, String.reduceToList, List.cons_append, List.nil_append,
    parts_append, htrim, parts_of_notMem h, hname]

theorem stationName_ends (id : String) (kind : StationKind) (ending : String) :
    ∃ c cs, (stationName id kind ++ ending).toList = c :: cs ∧ (c = '.' → cs ≠ []) := by
  unfold stationName
  cases h : (safeSegment id).toList with
  | nil => cases kind <;> simp [h, StationKind.name]
  | cons c cs => cases kind <;> simp [h, StationKind.name]

/-! ## What is opened -/

/-- The Redis that a station's settings lead to. -/
def StorageConfig.server (cfg : StorageConfig) : Option RedisConfig := if trimText cfg.backend = "redis" then cfg.redis else none

/-- The lake that a station's settings lead to. -/
def StorageConfig.lake (cfg : StorageConfig) : Option S3Config := if trimText cfg.backend ∈ parquetNames then cfg.s3 else none

/-- The storage of a station of the pipeline. -/
structure StationRef where
  id : String
  kind : StationKind
deriving DecidableEq

namespace StationRef

variable (env : String → Option String) (cfg : StorageConfig) (a b : StationRef)

/-- `open_backend` with the settings of the station, as each `from_storage` calls it. -/
def opened : Except String BackendStorage := openBackend env a.id (cfg.forStation a.id) a.kind.name

/-- The settings of a station. -/
abbrev own : StorageConfig := cfg.forStation a.id

/-- The name of a station under its `data_dir`. -/
abbrev file : Option String := localName (a.own cfg) a.id a.kind

/-- Where a file of a station is. -/
def filePath (name : String) : List (List Char) := dirPath (a.own cfg).data_dir ++ [name.toList]

/-- Where the keys of a station are on its Redis. -/
def keyPath (r : RedisConfig) : List (List Char) := redisPath r.resolvedPrefix ++ [(stationName a.id a.kind).toList]

/-- The places that the settings of a station lead to. -/
def places : List StoragePlace :=
  ((a.file cfg).map fun name => ((.disk, a.filePath cfg name) : StoragePlace)).toList ++
    ((a.own cfg).lake.map fun s3 => ((.s3 s3.endpoint s3.bucket, lakePath s3 (safeSegment a.id)) : StoragePlace)).toList ++
      ((a.own cfg).server.map fun r => ((.redis (r.resolvedUrl env), a.keyPath r) : StoragePlace)).toList

variable {env cfg a b}

theorem filePath_eq (cfg : StorageConfig) (a : StationRef) (ending : String) (h : ∀ c ∈ ending.toList, c ≠ '/') :
    diskPath (trimSlashes (a.own cfg).data_dir ++ "/" ++ (stationName a.id a.kind ++ ending)) =
      a.filePath cfg (stationName a.id a.kind ++ ending) := by
  obtain ⟨c, cs, hlist, hdot⟩ := stationName_ends a.id a.kind ending
  refine diskPath_concat ?_ ?_ ?_
  · rw [String.toList_append, List.mem_append]
    rintro (hmem | hmem)
    · exact not_plain.1 (stationName_plain _ _ _ hmem)
    · exact h _ hmem rfl
  · intro hempty
    rw [hempty] at hlist
    cases hlist
  · intro hpoint
    rw [hpoint] at hlist
    cases hlist
    exact hdot rfl rfl

/-- An open station keeps its contents at those places. -/
theorem places_of_opened {backend : BackendStorage} (h : a.opened env cfg = .ok backend) : backend.places = a.places env cfg := by
  have hslash : '/' ∉ (safeSegment a.id).toList := fun hmem => not_plain.1 (safeSegment_plain _ _ hmem)
  have hcolon : ':' ∉ (stationName a.id a.kind).toList := fun hmem => not_plain.2 (stationName_plain _ _ _ hmem)
  have hpath := filePath_eq cfg a "" (by simp)
  have hsqlitePath := filePath_eq cfg a ".sqlite" (by simp)
  simp only [String.append_empty] at hpath
  unfold stationName at hpath hsqlitePath hcolon
  simp only [← String.append_assoc] at hpath hsqlitePath hcolon
  unfold opened openBackend at h
  unfold places file localName StorageConfig.lake StorageConfig.server
  dsimp only at h
  split_ifs at h with hmemory hparquet hsqlite hredis
  · cases h
    simp [BackendStorage.places, hmemory, parquetNames]
  · have hnot : trimText (cfg.forStation a.id).backend ≠ "redis" := by
      intro heq
      rw [heq] at hparquet
      exact absurd hparquet (by decide)
    rw [if_pos hparquet, if_pos hparquet, if_neg hnot]
    cases hs3 : (cfg.forStation a.id).s3 with
    | none =>
      rw [hs3] at h
      cases h
      simp [BackendStorage.places, LakehouseStorage.open', LakehouseStorage.openInner, stationName, hpath]
    | some s3 =>
      rw [hs3] at h
      cases h
      simp [BackendStorage.places, LakehouseStorage.openWithS3, LakehouseStorage.openInner, stationName, hpath, mlibS3,
        objectPath_key _ hslash, lakePath]
  · cases h
    simp [BackendStorage.places, hsqlite, stationName, hsqlitePath, parquetNames]
  · rw [if_neg hparquet, if_neg hsqlite, if_neg hparquet, if_pos hredis]
    cases hr : (cfg.forStation a.id).redis with
    | none =>
      rw [hr] at h
      cases h
    | some r =>
      rw [hr] at h
      dsimp only at h
      split_ifs at h
      cases h
      have hkeys := redisPath_concat r.resolvedPrefix hcolon
      simp only [← String.append_assoc] at hkeys
      simp [BackendStorage.places, keyPath, stationName, hkeys]

/-! ## Two stations -/

theorem mem_places {place : StoragePlace} :
    place ∈ a.places env cfg ↔
      (∃ name, a.file cfg = some name ∧ place = (.disk, a.filePath cfg name)) ∨
        (∃ s3, (a.own cfg).lake = some s3 ∧ place = (.s3 s3.endpoint s3.bucket, lakePath s3 (safeSegment a.id))) ∨
          ∃ r, (a.own cfg).server = some r ∧ place = (.redis (r.resolvedUrl env), a.keyPath r) := by
  unfold places
  simp only [List.mem_append, Option.mem_toList, Option.map_eq_some_iff, or_assoc, eq_comm (b := place)]

variable (env cfg a b)

/-- Two stations of a configuration keep apart. On disk, and on one server, they are not the same name in the same place, and the
place of neither is within what the other one is given; in one bucket neither of the paths leads through the other. -/
structure Separate : Prop where
  disk : ∀ name name', a.file cfg = some name → b.file cfg = some name' →
    ¬(dirPath (a.own cfg).data_dir = dirPath (b.own cfg).data_dir ∧ name = name') ∧
      ¬a.filePath cfg name <+: dirPath (b.own cfg).data_dir ∧ ¬b.filePath cfg name' <+: dirPath (a.own cfg).data_dir
  server : ∀ r r', (a.own cfg).server = some r → (b.own cfg).server = some r' → r.resolvedUrl env = r'.resolvedUrl env →
    ¬(redisPath r.resolvedPrefix = redisPath r'.resolvedPrefix ∧ safeSegment a.id = safeSegment b.id ∧ a.kind = b.kind) ∧
      ¬a.keyPath r <+: redisPath r'.resolvedPrefix ∧ ¬b.keyPath r' <+: redisPath r.resolvedPrefix
  lake : ∀ s3 s3', (a.own cfg).lake = some s3 → (b.own cfg).lake = some s3' → s3.endpoint = s3'.endpoint →
    s3.bucket = s3'.bucket → Diverge (lakePath s3 (safeSegment a.id)) (lakePath s3' (safeSegment b.id))

variable {env cfg a b}

theorem diverge_filePath {name name' : String} :
    Diverge (a.filePath cfg name) (b.filePath cfg name') ↔
      ¬(dirPath (a.own cfg).data_dir = dirPath (b.own cfg).data_dir ∧ name = name') ∧
        ¬a.filePath cfg name <+: dirPath (b.own cfg).data_dir ∧ ¬b.filePath cfg name' <+: dirPath (a.own cfg).data_dir := by
  unfold filePath
  rw [diverge_concat_iff, String.toList_inj]

theorem diverge_keyPath {r r' : RedisConfig} :
    Diverge (a.keyPath r) (b.keyPath r') ↔
      ¬(redisPath r.resolvedPrefix = redisPath r'.resolvedPrefix ∧ safeSegment a.id = safeSegment b.id ∧ a.kind = b.kind) ∧
        ¬a.keyPath r <+: redisPath r'.resolvedPrefix ∧ ¬b.keyPath r' <+: redisPath r.resolvedPrefix := by
  unfold keyPath
  rw [diverge_concat_iff, String.toList_inj, stationName_inj]

/-- The places of two stations are independent where the stations keep apart. -/
theorem independent_places_iff : Independent (a.places env cfg) (b.places env cfg) ↔ Separate env cfg a b := by
  constructor
  · intro h
    refine ⟨?_, ?_, ?_⟩
    · intro name name' hname hname'
      have hp : (.disk, a.filePath cfg name) ∈ a.places env cfg := mem_places.mpr (.inl ⟨name, hname, rfl⟩)
      have hq : (.disk, b.filePath cfg name') ∈ b.places env cfg := mem_places.mpr (.inl ⟨name', hname', rfl⟩)
      have hdiverge := h.diverge hp hq (Eq.refl StorageRoot.disk)
      exact diverge_filePath.mp hdiverge
    · intro r r' hr hr' hurl
      have hp : (.redis (r.resolvedUrl env), a.keyPath r) ∈ a.places env cfg := mem_places.mpr (.inr (.inr ⟨r, hr, rfl⟩))
      have hq : (.redis (r'.resolvedUrl env), b.keyPath r') ∈ b.places env cfg := mem_places.mpr (.inr (.inr ⟨r', hr', rfl⟩))
      have hdiverge := h.diverge hp hq (congrArg StorageRoot.redis hurl)
      exact diverge_keyPath.mp hdiverge
    · intro s3 s3' hs3 hs3' hendpoint hbucket
      have hp : (.s3 s3.endpoint s3.bucket, lakePath s3 (safeSegment a.id)) ∈ a.places env cfg :=
        mem_places.mpr (.inr (.inl ⟨s3, hs3, rfl⟩))
      have hq : (.s3 s3'.endpoint s3'.bucket, lakePath s3' (safeSegment b.id)) ∈ b.places env cfg :=
        mem_places.mpr (.inr (.inl ⟨s3', hs3', rfl⟩))
      exact h.diverge hp hq (congrArg₂ StorageRoot.s3 hendpoint hbucket)
  · intro h p hp q hq hroot
    rcases mem_places.mp hp with ⟨name, hname, rfl⟩ | ⟨s3, hs3, rfl⟩ | ⟨r, hr, rfl⟩
    · rcases mem_places.mp hq with ⟨name', hname', rfl⟩ | ⟨s3', hs3', rfl⟩ | ⟨r', hr', rfl⟩
      · exact diverge_filePath.mpr (h.disk name name' hname hname')
      · nomatch hroot
      · nomatch hroot
    · rcases mem_places.mp hq with ⟨name', hname', rfl⟩ | ⟨s3', hs3', rfl⟩ | ⟨r', hr', rfl⟩
      · nomatch hroot
      · exact h.lake s3 s3' hs3 hs3' (StorageRoot.s3.inj hroot).1 (StorageRoot.s3.inj hroot).2
      · nomatch hroot
    · rcases mem_places.mp hq with ⟨name', hname', rfl⟩ | ⟨s3', hs3', rfl⟩ | ⟨r', hr', rfl⟩
      · nomatch hroot
      · nomatch hroot
      · exact diverge_keyPath.mpr (h.server r r' hr hr' (StorageRoot.redis.inj hroot))

end StationRef

/-- What the places of storage hold. -/
abbrev Disks := StoragePlace → Option (List UInt8)

/-- Two stations do not share storage: their places are independent, and nothing that the one writes changes what the other reads. -/
structure Unshared (a b : BackendStorage) : Prop where
  places : Independent a.places b.places
  kept : ∀ f : Disks → Disks, WritesWithin a.places f → ∀ g : Disks → Option (List UInt8), ReadsWithin b.places g →
    ∀ w, g (f w) = g w
  kept' : ∀ f : Disks → Disks, WritesWithin b.places f → ∀ g : Disks → Option (List UInt8), ReadsWithin a.places g →
    ∀ w, g (f w) = g w

end Opsense
