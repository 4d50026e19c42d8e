import Opsense.Lib.Listing
import Opsense.Lib.Traverse
import Opsense.Storage.ClearCrash

/-!
# A checkpoint, read back

`checkpoint` writes every table as rows of cells, in the order in which its map happens to be iterated, and `open` reads the rows
of every table back. The reader gives a column the integers, bytes and texts that the writer was given for it. What was there
is there again, unless a value of the buffer is not UTF-8: `value` is a column of text, and the checkpoint panics.
-/

namespace Opsense

/-- A column of a table. -/
inductive Col where
  | I (name : String)
  | B (name : String)
  | S (name : String)
deriving DecidableEq, Repr

/-- A cell of a row. -/
inductive Cell where
  | I (n : Nat)
  | B (bytes : Bytes)
  | S (text : String)
deriving DecidableEq, Repr

/-- The names of the tables. -/
inductive TableName where
  | rtNodes
  | rtChildren
  | rtRoots
  | rtMeta
  | rtKeylen
  | rtShortcuts
  | rtEdges
  | rtNodeMeta
  | rtChains
  | acPatterns
  | rtNodeBlooms
  | rtCounter
  | tsPoints
deriving DecidableEq, Repr

def tables : List (TableName × List Col) := [
  (.rtNodes, [.I "id", .B "prefix", .I "record"]),
  (.rtChildren, [.I "parent", .I "child"]),
  (.rtRoots, [.I "shard", .I "root"]),
  (.rtMeta, [.I "record", .B "meta"]),
  (.rtKeylen, [.I "record", .I "len"]),
  (.rtShortcuts, [.I "shard", .B "elem", .I "node_id"]),
  (.rtEdges, [.I "id", .B "data"]),
  (.rtNodeMeta, [.I "elem", .B "meta"]),
  (.rtChains, [.I "record", .B "chain"]),
  (.acPatterns, [.S "pattern", .I "id"]),
  (.rtNodeBlooms, [.I "id", .B "bloom"]),
  (.rtCounter, [.I "id", .I "next"]),
  (.tsPoints, [.I "id", .B "series", .I "ts", .S "value"])]

/-- The cell is of the kind of the column. -/
def Col.Holds : Col → Cell → Bool
  | .I _, .I _ => true
  | .B _, .B _ => true
  | .S _, .S _ => true
  | _, _ => false

/-- The cells of a row that are written. A cell of another kind than its column's panics. -/
def writeRow : List Col → List Cell → Option (List Cell)
  | [], _ => some []
  | _ :: _, [] => none
  | col :: cols, cell :: cells => if col.Holds cell then (writeRow cols cells).map (cell :: ·) else none

/-- `write_parquet`, as `read_parquet` reads the file. -/
def writeParquet (cols : List Col) (rows : List (List Cell)) : Option (List (List Cell)) := rows.mapM (writeRow cols)

/-- The files of a checkpoint. -/
abbrev TableFiles := List (TableName × List (List Cell))

namespace Inner

/-- The orders in which the maps of a state are iterated. -/
structure Iteration (s : Inner) where
  nodes : Listing s.nodes
  children : { l : List (Nat × Nat) // (l : Multiset (Nat × Nat)) = s.children.val }
  roots : Listing s.roots
  metas : Listing s.metas
  keylens : Listing s.keylens
  shortcuts : Listing s.shortcuts
  edges : Listing s.edges
  node_metas : Listing s.node_metas
  chains : Listing s.chains
  patterns : Listing s.patterns
  blooms : Listing s.blooms
  ts : { l : List (Sigma fun _ : Bytes × Nat => Nat × Bytes) // l.Perm s.lake.ts.entries }

/-- Every state is iterated in some order. -/
theorem iteration_nonempty (s : Inner) : Nonempty s.Iteration := by
  obtain ⟨nodes⟩ := Listing.nonempty s.nodes
  obtain ⟨roots⟩ := Listing.nonempty s.roots
  obtain ⟨metas⟩ := Listing.nonempty s.metas
  obtain ⟨keylens⟩ := Listing.nonempty s.keylens
  obtain ⟨shortcuts⟩ := Listing.nonempty s.shortcuts
  obtain ⟨edges⟩ := Listing.nonempty s.edges
  obtain ⟨node_metas⟩ := Listing.nonempty s.node_metas
  obtain ⟨chains⟩ := Listing.nonempty s.chains
  obtain ⟨patterns⟩ := Listing.nonempty s.patterns
  obtain ⟨blooms⟩ := Listing.nonempty s.blooms
  exact ⟨⟨nodes, ⟨s.children.val.toList, Multiset.coe_toList _⟩, roots, metas, keylens, shortcuts, edges, node_metas, chains,
    patterns, blooms, ⟨_, List.Perm.refl _⟩⟩⟩

/-- The rows of a table of numbers. -/
def numberRow (e : Sigma fun _ : Nat => Nat) : List Cell := [.I e.1, .I e.2]

/-- The rows of a table of bytes. -/
def bytesRow (e : Sigma fun _ : Nat => Bytes) : List Cell := [.I e.1, .B e.2]

/-- The rows of the buffer. A value that is not UTF-8 panics. -/
def pointRow (e : Sigma fun _ : Bytes × Nat => Nat × Bytes) : Option (List Cell) :=
  (fromUtf8 e.2.2).map fun text => [.I e.2.1, .B e.1.1, .I e.1.2, .S (String.ofList text)]

def tableRows (s : Inner) (it : s.Iteration) : TableName → Option (List (List Cell))
  | .rtNodes => some (it.nodes.entries.map fun e => [.I e.1, .B e.2.1, .I e.2.2])
  | .rtChildren => some (it.children.1.map fun e => [.I e.1, .I e.2])
  | .rtRoots => some (it.roots.entries.map numberRow)
  | .rtMeta => some (it.metas.entries.map bytesRow)
  | .rtKeylen => some (it.keylens.entries.map numberRow)
  | .rtShortcuts => some (it.shortcuts.entries.flatMap fun e => e.2.map fun node_id => [.I e.1.1, .B e.1.2, .I node_id])
  | .rtEdges => some (it.edges.entries.map bytesRow)
  | .rtNodeMeta => some (it.node_metas.entries.map bytesRow)
  | .rtChains => some (it.chains.entries.map bytesRow)
  | .acPatterns => some (it.patterns.entries.map fun e => [.S e.1, .I e.2])
  | .rtNodeBlooms => some (it.blooms.entries.map bytesRow)
  | .rtCounter => some [[.I 1, .I s.counter]]
  | .tsPoints => (it.ts.1.insertionSort fun a b => a.2.1 ≤ b.2.1).mapM pointRow

/-- The files that `checkpoint` writes, unless it panics. -/
def writeTables (s : Inner) (it : s.Iteration) : Option TableFiles :=
  tables.mapM fun table => ((s.tableRows it table.1).bind (writeParquet table.2)).map (Prod.mk table.1)

/-- A row of `rt_nodes` is loaded. A cell of another kind skips the row, here and in the other tables. -/
def loadNode (t : Table Nat (Bytes × Nat)) : List Cell → Table Nat (Bytes × Nat)
  | .I id :: .B pfx :: .I record :: _ => t.insert id (pfx, record)
  | _ => t

def loadChild (t : Finset (Nat × Nat)) : List Cell → Finset (Nat × Nat)
  | .I parent :: .I child :: _ => insert (parent, child) t
  | _ => t

def loadShortcut (t : Table (Nat × Bytes) (List Nat)) : List Cell → Table (Nat × Bytes) (List Nat)
  | .I shard :: .B elem :: .I node_id :: _ =>
    let list := (t.lookup (shard, elem)).getD []
    t.insert (shard, elem) (if node_id ∈ list then list else list ++ [node_id])
  | _ => t

def loadPattern (loaded : Table String Nat × Nat) : List Cell → Table String Nat × Nat
  | .S pattern :: .I id :: _ =>
    (if pattern ∈ loaded.1 then loaded.1 else loaded.1.insert pattern id, max loaded.2 (id + 1))
  | _ => loaded

def loadCounter (counter : Nat) : List Cell → Nat
  | .I _ :: .I next :: _ => next
  | _ => counter

/-- A row of a table of numbers is loaded. -/
def loadNumber (t : Table Nat Nat) : List Cell → Table Nat Nat
  | .I key :: .I value :: _ => t.insert key value
  | _ => t

/-- A row of a table of bytes is loaded. -/
def loadBytes (t : Table Nat Bytes) : List Cell → Table Nat Bytes
  | .I key :: .B value :: _ => t.insert key value
  | _ => t

def tsRow : List Cell → Option Row
  | .I id :: .B series :: .I ts :: .S value :: _ => some ⟨id, series, ts, intoBytes value⟩
  | _ => none

def applyTableRows (s : Inner) (rows : List (List Cell)) : TableName → Inner
  | .rtNodes => { s with nodes := rows.foldl loadNode s.nodes }
  | .rtChildren => { s with children := rows.foldl loadChild s.children }
  | .rtRoots => { s with roots := rows.foldl loadNumber s.roots }
  | .rtMeta => { s with metas := rows.foldl loadBytes s.metas }
  | .rtKeylen => { s with keylens := rows.foldl loadNumber s.keylens }
  | .rtShortcuts => { s with shortcuts := rows.foldl loadShortcut s.shortcuts }
  | .rtEdges => { s with edges := rows.foldl loadBytes s.edges }
  | .rtNodeMeta => { s with node_metas := rows.foldl loadBytes s.node_metas }
  | .rtChains => { s with chains := rows.foldl loadBytes s.chains }
  | .acPatterns =>
    let loaded := rows.foldl loadPattern (s.patterns, s.pattern_next)
    { s with patterns := loaded.1, pattern_next := loaded.2 }
  | .rtNodeBlooms => { s with blooms := rows.foldl loadBytes s.blooms }
  | .rtCounter => { s with counter := rows.foldl loadCounter s.counter }
  | .tsPoints => { s with lake := (rows.filterMap tsRow).foldl Lakehouse.putPoint s.lake }

/-- `load_tables`, into the state that `open` begins with. -/
def loadTables (generation : Nat) (files : TableFiles) : Inner :=
  let s := { new with generation, fresh := false }
  let s := tables.foldl (fun s table => ((files.lookup table.1).map fun rows => s.applyTableRows rows table.1).getD s) s
  { s with nodes := seedNodes s.nodes, counter := if s.counter < 1 then 1 else s.counter }

end Inner

/-- `checkpoint`, unless it panics, and the store is opened again. -/
def Store.checkpointReopen (s : Store) (it : s.inner.Iteration) : Option Store :=
  (s.inner.writeTables it).map fun files =>
    let generation := s.inner.generation + 1
    Store.reopen ⟨{ s.inner with generation }, ⟨some (Inner.loadTables generation files), ⟨some generation, []⟩⟩⟩

namespace Inner

/-! ## Writing -/

variable {rows : List (List Cell)}

/-- Rows of the kinds of the columns are written as they are. -/
theorem writeParquet_rows {cols : List Col} (h : ∀ row ∈ rows, writeRow cols row = some row) :
    writeParquet cols rows = some rows := by
  unfold writeParquet
  rw [mapM_eq_map (g := id) h, List.map_id]

theorem writeParquet_map {α : Type} {cols : List Col} {row : α → List Cell} (h : ∀ a, writeRow cols (row a) = some (row a))
    (l : List α) : writeParquet cols (l.map row) = some (l.map row) := by
  refine writeParquet_rows fun r hr => ?_
  obtain ⟨a, -, rfl⟩ := List.mem_map.mp hr
  exact h a

/-- A point of the buffer is written and read as it is. -/
theorem pointRow_some {e : Sigma fun _ : Bytes × Nat => Nat × Bytes} {cells : List Cell} (h : pointRow e = some cells) :
    tsRow cells = some ⟨e.2.1, e.1.1, e.1.2, e.2.2⟩ := by
  obtain ⟨text, htext, rfl⟩ := Option.map_eq_some_iff.mp h
  unfold tsRow
  dsimp only
  rw [← fromUtf8_eq_some.mp htext]

/-- What is found under the name of a table. -/
theorem lookup_mapM {β : Type} {f : TableName × List Col → Option β} {ts : List (TableName × List Col)}
    {files : List (TableName × β)} (h : ts.mapM (fun table => (f table).map (Prod.mk table.1)) = some files)
    (hts : (ts.map Prod.fst).Nodup) {table : TableName × List Col} (htable : table ∈ ts) : files.lookup table.1 = f table := by
  have hfiles := mapM_some h
  clear h
  induction hfiles with
  | nil => exact absurd htable List.not_mem_nil
  | @cons first file ts files hfile _ ih =>
    obtain ⟨rows, hrows, rfl⟩ := Option.map_eq_some_iff.mp hfile
    obtain ⟨hnot, hts⟩ := List.nodup_cons.mp hts
    rcases List.mem_cons.mp htable with rfl | htable
    · rw [hrows]
      exact List.lookup_cons_self
    · have hne : table.1 ≠ first.1 := fun heq => hnot (heq ▸ List.mem_map_of_mem htable)
      rw [List.lookup_cons, beq_false_of_ne hne]
      exact ih hts htable

variable {s : Inner} (it : s.Iteration)

/-- Every table has rows of the kinds of its columns. -/
theorem tableRows_written {table : TableName × List Col} (htable : table ∈ tables) :
    (s.tableRows it table.1).bind (writeParquet table.2) = s.tableRows it table.1 := by
  unfold tables at htable
  simp only [List.mem_cons, List.not_mem_nil, or_false] at htable
  rcases htable with rfl | rfl | rfl | rfl | rfl | rfl | rfl | rfl | rfl | rfl | rfl | rfl | rfl
  · exact writeParquet_map (fun _ => rfl) _
  · exact writeParquet_map (fun _ => rfl) _
  · exact writeParquet_map (fun _ => rfl) _
  · exact writeParquet_map (fun _ => rfl) _
  · exact writeParquet_map (fun _ => rfl) _
  · refine writeParquet_rows fun row hrow => ?_
    obtain ⟨e, -, hrow⟩ := List.mem_flatMap.mp hrow
    obtain ⟨node_id, -, rfl⟩ := List.mem_map.mp hrow
    rfl
  · exact writeParquet_map (fun _ => rfl) _
  · exact writeParquet_map (fun _ => rfl) _
  · exact writeParquet_map (fun _ => rfl) _
  · exact writeParquet_map (fun _ => rfl) _
  · exact writeParquet_map (fun _ => rfl) _
  · rfl
  · cases hpoints : s.tableRows it .tsPoints with
    | none => rfl
    | some rows =>
      refine writeParquet_rows fun row hrow => ?_
      obtain ⟨e, -, he⟩ := mem_mapM hpoints hrow
      obtain ⟨text, -, rfl⟩ := Option.map_eq_some_iff.mp he
      rfl

/-- The rows that the points are read as. -/
theorem points_read (h : s.tableRows it .tsPoints = some rows) :
    rows.filterMap tsRow = (it.ts.1.insertionSort fun a b => a.2.1 ≤ b.2.1).map fun e => ⟨e.2.1, e.1.1, e.1.2, e.2.2⟩ := by
  have hpairs := mapM_some h
  clear h
  generalize (it.ts.1.insertionSort fun a b => a.2.1 ≤ b.2.1) = points at hpairs
  induction hpairs with
  | nil => rfl
  | cons hrow _ ih => rw [List.filterMap_cons_some (pointRow_some hrow), ih, List.map_cons]

/-- A point of the iteration is a row of the buffer. -/
theorem mem_points {e : Sigma fun _ : Bytes × Nat => Nat × Bytes} :
    e ∈ (it.ts.1.insertionSort fun a b => a.2.1 ≤ b.2.1) ↔ (⟨e.2.1, e.1.1, e.1.2, e.2.2⟩ : Row) ∈ s.lake.buffered := by
  rw [List.mem_insertionSort, it.ts.2.mem_iff, Lakehouse.mem_buffered]
  exact AList.mem_lookup_iff.symm

theorem tableRows_none : s.tableRows it .tsPoints = none ↔ ∃ r ∈ s.lake.buffered, fromUtf8 r.value = none := by
  refine mapM_none.trans ⟨fun h => ?_, fun h => ?_⟩
  · obtain ⟨e, he, hnone⟩ := h
    exact ⟨_, (mem_points it).mp he, Option.map_eq_none_iff.mp hnone⟩
  · obtain ⟨r, hr, hnone⟩ := h
    exact ⟨⟨Lakehouse.Row.key r, r.id, r.value⟩, (mem_points it).mpr hr, Option.map_eq_none_iff.mpr hnone⟩

/-- The checkpoint panics on a value that is not UTF-8, and on nothing else. -/
theorem writeTables_none : s.writeTables it = none ↔ ∃ r ∈ s.lake.buffered, fromUtf8 r.value = none := by
  have hrows : ∀ table ∈ tables, ((s.tableRows it table.1).bind (writeParquet table.2)).map (Prod.mk table.1) = none ↔
      s.tableRows it table.1 = none := by
    intro table htable
    rw [tableRows_written it htable, Option.map_eq_none_iff]
  rw [← tableRows_none it]
  refine mapM_none.trans ⟨fun h => ?_, fun h => ?_⟩
  · obtain ⟨table, htable, hnone⟩ := h
    have hnone := (hrows table htable).mp hnone
    obtain ⟨name, cols⟩ := table
    cases name with
    | tsPoints => exact hnone
    | _ => nomatch hnone
  · have hmem : (TableName.tsPoints, [Col.I "id", .B "series", .I "ts", .S "value"]) ∈ tables := by decide
    exact ⟨_, hmem, (hrows _ hmem).mpr h⟩

/-! ## Reading -/

theorem load_numbers {t : Table Nat Nat} (l : Listing t) : (l.entries.map numberRow).foldl loadNumber ∅ = t := by
  rw [List.foldl_map]
  exact l.foldl_insert fun key hkey => absurd hkey Finmap.notMem_empty

theorem load_bytes {t : Table Nat Bytes} (l : Listing t) : (l.entries.map bytesRow).foldl loadBytes ∅ = t := by
  rw [List.foldl_map]
  exact l.foldl_insert fun key hkey => absurd hkey Finmap.notMem_empty

/-- The sentinel that is there before is in the table. -/
theorem load_nodes {t : Table Nat (Bytes × Nat)} (l : Listing t) (hroot : 0 ∈ t) :
    (l.entries.map fun e => [Cell.I e.1, .B e.2.1, .I e.2.2]).foldl loadNode (seedNodes ∅) = t := by
  rw [List.foldl_map]
  refine l.foldl_insert fun key hkey => ?_
  have hzero : key = 0 := by
    rcases Finmap.mem_insert.mp hkey with heq | hmem
    · exact heq
    · exact absurd hmem Finmap.notMem_empty
  exact hzero ▸ hroot

theorem load_children {t : Finset (Nat × Nat)} {l : List (Nat × Nat)} (hl : (l : Multiset (Nat × Nat)) = t.val) :
    (l.map fun e => [Cell.I e.1, .I e.2]).foldl loadChild ∅ = t := by
  have hfold : ∀ base : Finset (Nat × Nat), ∀ link,
      link ∈ (l.map fun e => [Cell.I e.1, .I e.2]).foldl loadChild base ↔ link ∈ l ∨ link ∈ base := by
    clear hl
    induction l with
    | nil => simp
    | cons e l ih =>
      intro base link
      rw [List.map_cons, List.foldl_cons, ih]
      simp only [loadChild, Finset.mem_insert, List.mem_cons, Prod.mk.eta]
      tauto
  ext link
  have hmem : link ∈ t ↔ link ∈ l := by rw [← Finset.mem_val, ← hl, Multiset.mem_coe]
  rw [hfold, hmem]
  simp

theorem load_patterns {t : Table String Nat} (l : Listing t) (next : Nat) :
    ((l.entries.map fun e => [Cell.S e.1, .I e.2]).foldl loadPattern (∅, next)).1 = t := by
  have hfold : ∀ (es : List (Sigma fun _ : String => Nat)) (loaded : Table String Nat × Nat),
      ((es.map fun e => [Cell.S e.1, .I e.2]).foldl loadPattern loaded).1 =
        es.foldl (fun t e => if e.1 ∈ t then t else t.insert e.1 e.2) loaded.1 := by
    intro es
    induction es with
    | nil => intro loaded; rfl
    | cons e es ih =>
      intro loaded
      rw [List.map_cons, List.foldl_cons, ih, List.foldl_cons]
      rfl
  rw [hfold]
  exact l.foldl_new fun t' e _ hnew => if_neg hnew

theorem load_list {key : Nat × Bytes} {list : List Nat} (hne : list ≠ []) (hnodup : list.Nodup)
    {t : Table (Nat × Bytes) (List Nat)} (hnew : key ∉ t) :
    (list.map fun node_id => [Cell.I key.1, .B key.2, .I node_id]).foldl loadShortcut t = t.insert key list := by
  induction list using List.reverseRecOn with
  | nil => exact absurd rfl hne
  | append_singleton list n ih =>
    obtain ⟨hlist, -, hdisjoint⟩ := List.nodup_append.mp hnodup
    have hnot : n ∉ list := fun hmem => hdisjoint n hmem n (by simp) rfl
    rw [List.map_append, List.foldl_append]
    by_cases hnil : list = []
    · subst hnil
      have hnone : t.lookup (key.1, key.2) = none := Finmap.lookup_eq_none.mpr hnew
      simp [loadShortcut, hnone]
    · rw [ih hnil hlist]
      simp [loadShortcut, hnot, Finmap.insert_insert]

theorem load_shortcuts {t : Table (Nat × Bytes) (List Nat)} (l : Listing t)
    (ht : ∀ key list, t.lookup key = some list → list ≠ [] ∧ list.Nodup) :
    (l.entries.flatMap fun e => e.2.map fun node_id => [Cell.I e.1.1, .B e.1.2, .I node_id]).foldl loadShortcut ∅ = t := by
  rw [List.foldl_flatMap]
  refine l.foldl_new fun t' e he hnew => ?_
  obtain ⟨hne, hnodup⟩ := ht e.1 e.2 (l.mem_iff.mp he)
  exact load_list hne hnodup hnew

/-- No list of shortcuts is empty, and none has a node twice. -/
def Listed (s : Inner) : Prop := ∀ key list, s.shortcuts.lookup key = some list → list ≠ [] ∧ list.Nodup

theorem load_points (h : s.tableRows it .tsPoints = some rows) (key : Bytes × Nat) :
    ((rows.filterMap tsRow).foldl Lakehouse.putPoint Lakehouse.new).ts.lookup key = s.lake.ts.lookup key := by
  rw [points_read it h]
  refine lookup_putPoints_rows ?_ (fun r => ?_) (fun _ => rfl) key
  · rw [List.map_map]
    have hperm : ((it.ts.1.insertionSort fun a b => a.2.1 ≤ b.2.1).map Sigma.fst).Perm (s.lake.ts.entries.map Sigma.fst) :=
      ((List.perm_insertionSort _ _).trans it.ts.2).map _
    exact hperm.nodup_iff.mpr s.lake.ts.nodupKeys
  · rw [List.mem_map]
    constructor
    · rintro ⟨e, he, rfl⟩
      exact (mem_points it).mp he
    · intro hr
      exact ⟨⟨Lakehouse.Row.key r, r.id, r.value⟩, (mem_points it).mpr hr, rfl⟩

/-- The tables are what is loaded from the files that were written of them. -/
theorem loadTables_same {files : TableFiles} (h : s.writeTables it = some files) (hseeded : s.Seeded) (hlisted : s.Listed)
    (generation : Nat) : SameTables (loadTables generation files) s := by
  have hfile : ∀ table ∈ tables, files.lookup table.1 = s.tableRows it table.1 := fun table htable =>
    (lookup_mapM h (by decide) htable).trans (tableRows_written it htable)
  have hutf8 : s.tableRows it .tsPoints ≠ none := by
    rw [Ne, tableRows_none, ← writeTables_none it, h]
    exact Option.some_ne_none _
  obtain ⟨points, hpoints⟩ := Option.ne_none_iff_exists'.mp hutf8
  have hload : loadTables generation files =
      let loaded := tables.foldl (fun t table => ((s.tableRows it table.1).map fun rows => t.applyTableRows rows table.1).getD t)
        { new with generation, fresh := false }
      { loaded with nodes := seedNodes loaded.nodes, counter := if loaded.counter < 1 then 1 else loaded.counter } := by
    have hfold : ∀ t₀ : Inner,
        tables.foldl (fun t table => ((files.lookup table.1).map fun rows => t.applyTableRows rows table.1).getD t) t₀ =
        tables.foldl (fun t table => ((s.tableRows it table.1).map fun rows => t.applyTableRows rows table.1).getD t) t₀ :=
      fun t₀ => List.foldl_ext _ _ _ fun t table htable => by rw [hfile table htable]
    unfold loadTables
    dsimp only
    rw [hfold]
  rw [hload]
  unfold tables
  simp only [List.foldl_cons, List.foldl_nil, hpoints]
  exact ⟨(congrArg seedNodes (load_nodes it.nodes hseeded.nodes)).trans (if_pos hseeded.nodes), load_children it.children.2, load_numbers it.roots, load_bytes it.metas, load_numbers it.keylens,
    load_shortcuts it.shortcuts hlisted, load_bytes it.edges, load_bytes it.node_metas, load_bytes it.chains,
    load_patterns it.patterns 1, load_bytes it.blooms, if_neg (not_lt.mpr hseeded.counter), load_points it hpoints⟩

/-! ## Reachable stores -/

theorem Listed.applyWalOp {s : Inner} (h : s.Listed) (op : WalOp) : (s.applyWalOp op).Listed := by
  intro key list hlist
  cases op with
  | shortcut shard elem node_id =>
    have hlist : (s.shortcuts.insert (shard, elem) _).lookup key = some list := hlist
    by_cases hkey : key = (shard, elem)
    · subst hkey
      rw [Finmap.lookup_insert] at hlist
      obtain rfl := Option.some.inj hlist
      cases hold : s.shortcuts.lookup (shard, elem) with
      | none => simp
      | some old =>
        obtain ⟨hne, hnodup⟩ := h _ _ hold
        rw [Option.getD_some]
        split_ifs with hmem
        · exact ⟨hne, hnodup⟩
        · refine ⟨by simp, List.nodup_append.mpr ⟨hnodup, by simp, ?_⟩⟩
          intro a ha b hb hab
          rw [List.mem_singleton.mp hb] at hab
          exact hmem (hab ▸ ha)
    · rw [Finmap.lookup_insert_of_ne _ hkey] at hlist
      exact h key list hlist
  | clearTable table =>
    rw [applyWalOp_clearTable] at hlist
    dsimp only at hlist
    split_ifs at hlist
    · rw [Finmap.lookup_empty] at hlist
      nomatch hlist
    · exact h key list hlist
  | _ => exact h key list hlist

end Inner

namespace Store

variable {s : Store}

theorem listed_mutates (h : s.inner.Listed) (ops : List WalOp) : (ops.foldl mutate s).inner.Listed := by
  induction ops generalizing s with
  | nil => exact h
  | cons op ops ih => exact ih (s := s.mutate op) (h.applyWalOp op)

theorem listed_of_shortcuts {t : Store} (h : s.inner.Listed) (hst : t.inner.shortcuts = s.inner.shortcuts) : t.inner.Listed := by
  unfold Inner.Listed
  rw [hst]
  exact h

theorem shortcuts_flush (block_secs stamp : Nat) (s : Store) :
    (s.flushTimeseries block_secs stamp).inner.shortcuts = s.inner.shortcuts := by
  unfold flushTimeseries
  cases s.inner.lake.buffered.getLast? with
  | none => rfl
  | some last =>
    dsimp only
    split_ifs <;> rfl

theorem listed_lakeStep (h : s.inner.Listed) (hreopens : s.Reopens) (flush_threshold block_secs : Nat) (a : LakeAct) :
    (s.lakeStep flush_threshold block_secs a).inner.Listed := by
  cases a with
  | write w =>
    obtain ⟨ops, heq, -⟩ := s.write_records w
    rw [lakeStep, heq]
    exact listed_mutates h ops
  | stop w k =>
    obtain ⟨ops, heq, hops⟩ := s.write_records w
    rw [lakeStep, heq]
    exact listed_of_shortcuts (listed_mutates h (ops.take k)) (stopped_same hreopens hops k).shortcuts
  | ts a =>
    refine listed_of_shortcuts h ?_
    cases a with
    | append a stamp =>
      change (s.append flush_threshold block_secs a stamp).inner.shortcuts = _
      unfold append
      dsimp only
      split_ifs
      · exact shortcuts_flush block_secs stamp _
      · rfl
    | flush stamp => exact shortcuts_flush block_secs stamp s
    | checkpoint stamp =>
      change (s.snapshot block_secs stamp).inner.shortcuts = _
      unfold snapshot
      split_ifs <;> exact shortcuts_flush block_secs stamp s
    | reopen => exact hreopens.reopen_same.shortcuts
  | clearSeries series stamp =>
    refine listed_of_shortcuts h ?_
    change (s.clearSeries block_secs stamp series).inner.shortcuts = _
    rw [clearSeries_eq]
    exact shortcuts_flush block_secs stamp _
  | clearAllSeries => exact listed_of_shortcuts h rfl
  | retain keep_after_ts =>
    refine listed_of_shortcuts h ?_
    change (s.retainBlockPartitions block_secs keep_after_ts).inner.shortcuts = _
    unfold retainBlockPartitions
    dsimp only
    split_ifs <;> rfl

theorem listed_run (flush_threshold block_secs : Nat) (as : List LakeAct) :
    ((lakeMachine flush_threshold block_secs).state as).inner.Listed := by
  induction as using List.reverseRecOn with
  | nil =>
    intro key list hlist
    nomatch hlist
  | append_singleton as a ih =>
    rw [Machine.state_snoc]
    exact listed_lakeStep ih (reopens flush_threshold block_secs as) flush_threshold block_secs a

/-- After a checkpoint that does not panic and a reopening every table is what it was, and the delta files are listed. -/
theorem checkpointReopen_same (hreopens : s.Reopens) (hlisted : s.inner.Listed) {it : s.inner.Iteration} {t : Store}
    (h : s.checkpointReopen it = some t) : Inner.SameTables t.inner s.inner ∧
      t.inner.lake.ts_manifest = s.inner.lake.ts_manifest ∧ t.inner.lake.files = s.inner.lake.files := by
  obtain ⟨files, hfiles, rfl⟩ := Option.map_eq_some_iff.mp h
  exact ⟨(Inner.open_same _ _ _).trans (Inner.loadTables_same it hfiles hreopens.seeded hlisted _), rfl, rfl⟩

/-- A buffer and delta files that are the same answer the same. -/
theorem answer_same {t : Store} (happart : s.inner.lake.RowsApart) (hts : ∀ key, t.inner.lake.ts.lookup key = s.inner.lake.ts.lookup key)
    (hmanifest : t.inner.lake.ts_manifest = s.inner.lake.ts_manifest) (hfiles : t.inner.lake.files = s.inner.lake.files)
    (key : Bytes × Nat) : t.inner.lake.answer key = s.inner.lake.answer key := by
  have happart' : t.inner.lake.RowsApart := by
    unfold Lakehouse.RowsApart
    rw [hfiles]
    exact happart
  rw [Lakehouse.answer_eq happart', Lakehouse.answer_eq happart, hts, hmanifest, hfiles]

end Store

/-- A checkpoint of a reachable store, in whatever order its maps are iterated, does not panic, and its reopening finds every
table and every point, exactly when every value of the buffer is UTF-8. -/
theorem checkpoint_round_trip (flush_threshold block_secs : Nat) (as : List LakeAct)
    (it : ((Store.lakeMachine flush_threshold block_secs).state as).inner.Iteration) :
    let s := (Store.lakeMachine flush_threshold block_secs).state as
    (∃ t, s.checkpointReopen it = some t ∧ Inner.SameTables t.inner s.inner ∧
      ∀ series p, p ∈ t.inner.lake.points series ↔ p ∈ s.inner.lake.points series) ↔
    ∀ r ∈ s.inner.lake.buffered, (fromUtf8 r.value).isSome := by
  intro s
  have hreopens : s.Reopens := Store.reopens flush_threshold block_secs as
  have happart : s.inner.lake.RowsApart := Store.apart_run flush_threshold block_secs as
  have hutf8 : (∀ r ∈ s.inner.lake.buffered, (fromUtf8 r.value).isSome) ↔ s.inner.writeTables it ≠ none := by
    rw [Ne, Inner.writeTables_none]
    simp [Option.isSome_iff_ne_none]
  rw [hutf8]
  constructor
  · rintro ⟨t, ht, -⟩ hnone
    unfold Store.checkpointReopen at ht
    rw [hnone] at ht
    nomatch ht
  · intro hsome
    obtain ⟨files, hfiles⟩ := Option.ne_none_iff_exists'.mp hsome
    have ht := congrArg (Option.map fun files => Store.reopen
      ⟨{ s.inner with generation := s.inner.generation + 1 },
        ⟨some (Inner.loadTables (s.inner.generation + 1) files), ⟨some (s.inner.generation + 1), []⟩⟩⟩) hfiles
    obtain ⟨hsame, hmanifest, hdelta⟩ := Store.checkpointReopen_same hreopens (Store.listed_run flush_threshold block_secs as) ht
    refine ⟨_, ht, hsame, fun series p => ?_⟩
    rw [Lakehouse.mem_points, Lakehouse.mem_points, Store.answer_same happart hsame.ts hmanifest hdelta]

/-- A point whose value is the byte 255 is appended, and the store is checkpointed. -/
theorem binary_value_panics :
    let s := (Store.lakeMachine 0 10).state [.ts (.append ⟨[97], 1, [255]⟩ 1)]
    ¬∀ it : s.inner.Iteration, ∃ t, s.checkpointReopen it = some t ∧ Inner.SameTables t.inner s.inner ∧
      ∀ series p, p ∈ t.inner.lake.points series ↔ p ∈ s.inner.lake.points series := by
  intro s hall
  obtain ⟨it⟩ := s.inner.iteration_nonempty
  obtain ⟨t, ht, -⟩ := hall it
  have hrow : ∃ r ∈ s.inner.lake.buffered, fromUtf8 r.value = none := by decide +kernel
  unfold Store.checkpointReopen at ht
  rw [(Inner.writeTables_none it).mpr hrow] at ht
  nomatch ht

end Opsense
