import Opsense.Lib.Updates
import Opsense.Storage.Category

/-!
# A log replayed twice

Every operation of the log writes a cell of the tables outright, adds to it what is missing, or takes away from it, and so the
log may be applied to tables that hold its operations already. A checkpoint that stops after it switched to the new tables and
before it cut the log leaves such tables.
-/

namespace Opsense

/-- What an operation does to one cell of a table. -/
inductive CellAct (ν : Type) where
  | keep
  | put (v : ν)
  | putNew (v : ν)
  | drop

namespace CellAct

variable {ν : Type}

def run (x : Option ν) : CellAct ν → Option ν
  | keep => x
  | put v => some v
  | putNew v => x.or (some v)
  | drop => none

theorem settling : Settling (run (ν := ν)) := by
  have hput : ∀ v : ν, Resets run (put v) := fun v x y => rfl
  have hdrop : Resets (run (ν := ν)) drop := fun x y => rfl
  intro a
  cases a with
  | put v => exact Or.inl (hput v)
  | drop => exact Or.inl hdrop
  | keep => exact Or.inr ⟨fun x => rfl, fun b x _ _ => rfl⟩
  | putNew v =>
    refine Or.inr ⟨fun x => ?_, fun b x hb hx => ?_⟩
    · simp [run]
    · cases b with
      | put w => exact absurd (hput w) hb
      | drop => exact absurd hdrop hb
      | keep => exact hx
      | putNew w => cases x <;> rfl

end CellAct

namespace Inner

variable {ν : Type}

/-- A part of the state that an operation changes as the step does. -/
def Reads (read : Inner → ν) (step : ν → WalOp → ν) : Prop := ∀ s op, read (s.applyWalOp op) = step (read s) op

theorem Reads.foldl {read : Inner → ν} {step : ν → WalOp → ν} (h : Reads read step) (ops : List WalOp) (s : Inner) :
    read (ops.foldl applyWalOp s) = ops.foldl step (read s) := by
  induction ops generalizing s with
  | nil => rfl
  | cons op ops ih => rw [List.foldl_cons, ih, h, List.foldl_cons]

/-- Where the steps settle, the operations may be applied twice. -/
theorem Reads.twice (read : Inner → ν) {step : ν → WalOp → ν} (hstep : Settling step) (h : Reads read step) (ops : List WalOp)
    (s : Inner) : read (ops.foldl applyWalOp (ops.foldl applyWalOp s)) = read (ops.foldl applyWalOp s) := by
  rw [h.foldl, h.foldl, hstep.foldl_foldl]

/-- Every operation acts on the cell alone. -/
theorem cell_twice (read : Inner → Option ν) (act : WalOp → CellAct ν)
    (h : ∀ s op, read (s.applyWalOp op) = (act op).run (read s)) (ops : List WalOp) (s : Inner) :
    read (ops.foldl applyWalOp (ops.foldl applyWalOp s)) = read (ops.foldl applyWalOp s) :=
  Reads.twice read (CellAct.settling.comap act) h ops s

/-- Every operation acts on the cells of the table alone. -/
theorem table_twice {κ : Type} [DecidableEq κ] (table : Inner → Table κ ν) (act : κ → WalOp → CellAct ν)
    (h : ∀ key s op, (table (s.applyWalOp op)).lookup key = (act key op).run ((table s).lookup key)) (ops : List WalOp) (s : Inner) :
    table (ops.foldl applyWalOp (ops.foldl applyWalOp s)) = table (ops.foldl applyWalOp s) :=
  Finmap.ext_lookup fun key => cell_twice (fun s => (table s).lookup key) (act key) (h key) ops s

/-! ## The tables -/

theorem lookup_insert_cell {κ : Type} [DecidableEq κ] (t : Table κ ν) (key k : κ) (v : ν) :
    (t.insert k v).lookup key = (if key = k then CellAct.put v else .keep).run (t.lookup key) := by
  split_ifs with hk
  · subst hk
    exact Finmap.lookup_insert _
  · exact Finmap.lookup_insert_of_ne _ hk

theorem lookup_clear_cell {κ : Type} [DecidableEq κ] (t : Table κ ν) (key : κ) (c : Prop) [Decidable c] :
    (if c then (∅ : Table κ ν) else t).lookup key = (if c then CellAct.drop else .keep).run (t.lookup key) := by
  split_ifs
  · exact Finmap.lookup_empty key
  · rfl

/-- What clearing a table leaves. -/
theorem applyWalOp_clearTable (s : Inner) (table : String) : s.applyWalOp (.clearTable table) =
    { s with
      edges := if table = "rt_edges" then ∅ else s.edges
      chains := if table = "rt_chains" then ∅ else s.chains
      shortcuts := if table = "rt_shortcuts" then ∅ else s.shortcuts
      node_metas := if table = "rt_node_meta" then ∅ else s.node_metas
      patterns := if table = "ac_patterns" then ∅ else s.patterns
      pattern_next := if table = "ac_patterns" then 1 else s.pattern_next } := by
  by_cases h1 : table = "rt_edges"
  · subst h1
    rfl
  by_cases h2 : table = "rt_chains"
  · subst h2
    rfl
  by_cases h3 : table = "rt_shortcuts"
  · subst h3
    rfl
  by_cases h4 : table = "rt_node_meta"
  · subst h4
    rfl
  by_cases h5 : table = "ac_patterns"
  · subst h5
    rfl
  simp only [applyWalOp, if_neg h1, if_neg h2, if_neg h3, if_neg h4, if_neg h5]

variable (ops : List WalOp) (s : Inner)

theorem nodes_twice : (ops.foldl applyWalOp (ops.foldl applyWalOp s)).nodes = (ops.foldl applyWalOp s).nodes := by
  refine table_twice (fun s => s.nodes) (fun
    | key, .node id pfx record => if key = id then .put (pfx, record) else .keep
    | _, _ => .keep) (fun key s op => ?_) ops s
  cases op with
  | node id pfx record => exact lookup_insert_cell s.nodes key id (pfx, record)
  | clearTable table => rw [applyWalOp_clearTable]; rfl
  | _ => rfl

theorem roots_twice : (ops.foldl applyWalOp (ops.foldl applyWalOp s)).roots = (ops.foldl applyWalOp s).roots := by
  refine table_twice (fun s => s.roots) (fun
    | key, .root shard root => if key = shard then .put root else .keep
    | _, _ => .keep) (fun key s op => ?_) ops s
  cases op with
  | root shard root => exact lookup_insert_cell s.roots key shard root
  | clearTable table => rw [applyWalOp_clearTable]; rfl
  | _ => rfl

theorem metas_twice : (ops.foldl applyWalOp (ops.foldl applyWalOp s)).metas = (ops.foldl applyWalOp s).metas := by
  refine table_twice (fun s => s.metas) (fun
    | key, .meta record data => if key = record then .put data else .keep
    | _, _ => .keep) (fun key s op => ?_) ops s
  cases op with
  | «meta» record data => exact lookup_insert_cell s.metas key record data
  | clearTable table => rw [applyWalOp_clearTable]; rfl
  | _ => rfl

theorem keylens_twice : (ops.foldl applyWalOp (ops.foldl applyWalOp s)).keylens = (ops.foldl applyWalOp s).keylens := by
  refine table_twice (fun s => s.keylens) (fun
    | key, .keyLen record len => if key = record then .put len else .keep
    | _, _ => .keep) (fun key s op => ?_) ops s
  cases op with
  | keyLen record len => exact lookup_insert_cell s.keylens key record len
  | clearTable table => rw [applyWalOp_clearTable]; rfl
  | _ => rfl

theorem blooms_twice : (ops.foldl applyWalOp (ops.foldl applyWalOp s)).blooms = (ops.foldl applyWalOp s).blooms := by
  refine table_twice (fun s => s.blooms) (fun
    | key, .bloom id bloom => if key = id then .put bloom else .keep
    | _, _ => .keep) (fun key s op => ?_) ops s
  cases op with
  | bloom id bloom => exact lookup_insert_cell s.blooms key id bloom
  | clearTable table => rw [applyWalOp_clearTable]; rfl
  | _ => rfl

theorem edges_twice : (ops.foldl applyWalOp (ops.foldl applyWalOp s)).edges = (ops.foldl applyWalOp s).edges := by
  refine table_twice (fun s => s.edges) (fun
    | key, .edge id data => if key = id then .put data else .keep
    | _, .clearTable table => if table = "rt_edges" then .drop else .keep
    | _, _ => .keep) (fun key s op => ?_) ops s
  cases op with
  | edge id data => exact lookup_insert_cell s.edges key id data
  | clearTable table =>
    rw [applyWalOp_clearTable]
    exact lookup_clear_cell s.edges key _
  | _ => rfl

theorem node_metas_twice : (ops.foldl applyWalOp (ops.foldl applyWalOp s)).node_metas = (ops.foldl applyWalOp s).node_metas := by
  refine table_twice (fun s => s.node_metas) (fun
    | key, .nodeMeta elem data => if key = elem then .put data else .keep
    | _, .clearTable table => if table = "rt_node_meta" then .drop else .keep
    | _, _ => .keep) (fun key s op => ?_) ops s
  cases op with
  | nodeMeta elem data => exact lookup_insert_cell s.node_metas key elem data
  | clearTable table =>
    rw [applyWalOp_clearTable]
    exact lookup_clear_cell s.node_metas key _
  | _ => rfl

theorem chains_twice : (ops.foldl applyWalOp (ops.foldl applyWalOp s)).chains = (ops.foldl applyWalOp s).chains := by
  refine table_twice (fun s => s.chains) (fun
    | key, .chain record chain => if key = record then .put chain else .keep
    | _, .clearTable table => if table = "rt_chains" then .drop else .keep
    | _, _ => .keep) (fun key s op => ?_) ops s
  cases op with
  | chain record chain => exact lookup_insert_cell s.chains key record chain
  | clearTable table =>
    rw [applyWalOp_clearTable]
    exact lookup_clear_cell s.chains key _
  | _ => rfl

theorem children_twice : (ops.foldl applyWalOp (ops.foldl applyWalOp s)).children = (ops.foldl applyWalOp s).children := by
  have hcell : ∀ link : Nat × Nat, (if link ∈ (ops.foldl applyWalOp (ops.foldl applyWalOp s)).children then some () else none) =
      if link ∈ (ops.foldl applyWalOp s).children then some () else none := fun link =>
    cell_twice (fun s => if link ∈ s.children then some () else none) (fun
      | .child parent child => if link = (parent, child) then .put () else .keep
      | .childDel parent child => if link = (parent, child) then .drop else .keep
      | _ => .keep) (fun s op => by
        cases op with
        | child parent child => by_cases hlink : link = (parent, child) <;> simp [applyWalOp, CellAct.run, hlink]
        | childDel parent child => by_cases hlink : link = (parent, child) <;> simp [applyWalOp, CellAct.run, hlink]
        | clearTable table => rw [applyWalOp_clearTable]; rfl
        | _ => rfl) ops s
  ext link
  have hlink := hcell link
  split_ifs at hlink with h1 h2 h2
  · exact iff_of_true h1 h2
  · exact iff_of_false h1 h2

/-- A pattern keeps the id it has. -/
theorem patterns_twice : (ops.foldl applyWalOp (ops.foldl applyWalOp s)).patterns = (ops.foldl applyWalOp s).patterns := by
  refine table_twice (fun s => s.patterns) (fun
    | key, .pattern p id => if key = p then .putNew id else .keep
    | key, .patternDel p => if key = p then .drop else .keep
    | _, .clearTable table => if table = "ac_patterns" then .drop else .keep
    | _, _ => .keep) (fun key s op => ?_) ops s
  cases op with
  | pattern p id =>
    change (if p ∈ s.patterns then s.patterns else s.patterns.insert p id).lookup key = _
    by_cases hkey : key = p
    · subst hkey
      dsimp only
      rw [if_pos rfl]
      split_ifs with hmem
      · obtain ⟨i, hi⟩ := Finmap.mem_iff.mp hmem
        rw [hi]
        rfl
      · rw [Finmap.lookup_insert, Finmap.lookup_eq_none.mpr hmem]
        rfl
    · dsimp only
      rw [if_neg hkey]
      split_ifs
      · rfl
      · exact Finmap.lookup_insert_of_ne _ hkey
  | patternDel p =>
    change (s.patterns.erase p).lookup key = _
    by_cases hkey : key = p
    · subst hkey
      dsimp only
      rw [if_pos rfl]
      exact Finmap.lookup_erase key s.patterns
    · dsimp only
      rw [if_neg hkey]
      exact Finmap.lookup_erase_ne hkey
  | clearTable table =>
    rw [applyWalOp_clearTable]
    exact lookup_clear_cell s.patterns key _
  | _ => rfl

theorem counter_twice : (ops.foldl applyWalOp (ops.foldl applyWalOp s)).counter = (ops.foldl applyWalOp s).counter := by
  refine Option.some.inj (cell_twice (fun s => some s.counter) (fun
    | .counter next => .put next
    | _ => .keep) (fun s op => ?_) ops s)
  cases op with
  | clearTable table => rw [applyWalOp_clearTable]; rfl
  | _ => rfl

/-! ### The lists of shortcuts -/

/-- What an operation does to one list of shortcuts. -/
def shortcutStep (key : Nat × Bytes) (list : Option (List Nat)) : WalOp → Option (List Nat)
  | .shortcut shard elem node_id =>
    if key = (shard, elem) then some (if node_id ∈ list.getD [] then list.getD [] else list.getD [] ++ [node_id]) else list
  | .clearTable table => if table = "rt_shortcuts" then none else list
  | _ => list

/-- A list that holds the node stays as it is. -/
theorem shortcutStep_fixed (key : Nat × Bytes) (node_id : Nat) (list : Option (List Nat)) :
    shortcutStep key list (.shortcut key.1 key.2 node_id) = list ↔ ∃ l, list = some l ∧ node_id ∈ l := by
  unfold shortcutStep
  dsimp only
  rw [if_pos rfl]
  constructor
  · intro h
    cases list with
    | none => nomatch h
    | some l =>
      refine ⟨l, rfl, ?_⟩
      by_contra hnot
      rw [Option.getD_some, if_neg hnot] at h
      have hlen := congrArg List.length (Option.some.inj h)
      simp at hlen
  · rintro ⟨l, rfl, hmem⟩
    rw [Option.getD_some, if_pos hmem]

theorem shortcutStep_mem (key : Nat × Bytes) (node_id : Nat) (list : Option (List Nat)) :
    ∃ l, shortcutStep key list (.shortcut key.1 key.2 node_id) = some l ∧ node_id ∈ l ∧ list.getD [] ⊆ l := by
  unfold shortcutStep
  dsimp only
  rw [if_pos rfl]
  split_ifs with hmem
  · exact ⟨_, rfl, hmem, List.Subset.refl _⟩
  · exact ⟨_, rfl, List.mem_append_right _ (List.mem_singleton_self _), List.subset_append_left _ _⟩

theorem shortcutStep_settling (key : Nat × Bytes) : Settling (shortcutStep key) := by
  intro op
  cases op with
  | shortcut shard elem node_id =>
    by_cases hkey : key = (shard, elem)
    · subst hkey
      refine Or.inr ⟨fun x => ?_, fun op x hreset hx => ?_⟩
      · obtain ⟨l, heq, hmem, -⟩ := shortcutStep_mem (shard, elem) node_id x
        exact (shortcutStep_fixed (shard, elem) node_id _).mpr ⟨l, heq, hmem⟩
      · -- no step but a clearing takes the node out of the list
        obtain ⟨l, rfl, hmem⟩ := (shortcutStep_fixed (shard, elem) node_id x).mp hx
        cases op with
        | shortcut shard' elem' n =>
          by_cases hkey : (shard, elem) = (shard', elem')
          · obtain ⟨rfl, rfl⟩ := Prod.mk.inj hkey
            obtain ⟨l', heq, -, hsub⟩ := shortcutStep_mem (shard, elem) n (some l)
            exact (shortcutStep_fixed (shard, elem) node_id _).mpr ⟨l', heq, hsub hmem⟩
          · have hother : shortcutStep (shard, elem) (some l) (.shortcut shard' elem' n) = some l := if_neg hkey
            rw [hother]
            exact hx
        | clearTable table =>
          by_cases htable : table = "rt_shortcuts"
          · subst htable
            exact absurd (fun x y => rfl) hreset
          · have hother : shortcutStep (shard, elem) (some l) (.clearTable table) = some l := if_neg htable
            rw [hother]
            exact hx
        | _ => exact hx
    · have hother : ∀ x, shortcutStep key x (.shortcut shard elem node_id) = x := fun x => if_neg hkey
      exact Or.inr ⟨fun x => hother _, fun op x _ _ => hother _⟩
  | clearTable table =>
    by_cases htable : table = "rt_shortcuts"
    · subst htable
      exact Or.inl fun x y => rfl
    · have hother : ∀ x, shortcutStep key x (.clearTable table) = x := fun x => if_neg htable
      exact Or.inr ⟨fun x => hother _, fun op x _ _ => hother _⟩
  | _ => exact Or.inr ⟨fun x => rfl, fun op x _ _ => rfl⟩

theorem shortcuts_twice :
    (ops.foldl applyWalOp (ops.foldl applyWalOp s)).shortcuts = (ops.foldl applyWalOp s).shortcuts := by
  refine Finmap.ext_lookup fun key => Reads.twice (fun s => s.shortcuts.lookup key)
    (shortcutStep_settling key) (fun s op => ?_) ops s
  cases op with
  | shortcut shard elem node_id =>
    refine (lookup_insert_cell s.shortcuts key (shard, elem) _).trans ?_
    unfold shortcutStep
    dsimp only
    by_cases hkey : key = (shard, elem)
    · subst hkey
      rw [if_pos rfl, if_pos rfl]
      rfl
    · rw [if_neg hkey, if_neg hkey]
      rfl
  | clearTable table =>
    rw [applyWalOp_clearTable]
    refine (lookup_clear_cell s.shortcuts key _).trans ?_
    unfold shortcutStep
    dsimp only
    split_ifs <;> rfl
  | _ => rfl

/-! ### The buffer -/

/-- What an operation does to the point of the buffer under a key. -/
def pointStep (key : Bytes × Nat) (point : Option (Nat × Bytes)) : WalOp → Option (Nat × Bytes)
  | .tsPoint series ts id value => if key = (series, ts) then some (id, value) else point
  | .tsFlush max_id => point.filter fun p => max_id < p.1
  | .tsReplace points => (points.foldl Lakehouse.putPoint Lakehouse.new).ts.lookup key
  | .tsClearAll => none
  | .clearSeries series => point.filter fun _ => key.1 ≠ series
  | _ => point

/-- A step that filters the point is undone by none but a step that writes it. -/
theorem pointStep_filter (key : Bytes × Nat) {op : WalOp} (p : Nat × Bytes → Bool)
    (hop : ∀ x, pointStep key x op = x.filter p) :
    (∀ x, pointStep key (pointStep key x op) op = pointStep key x op) ∧ ∀ op' x, ¬Resets (pointStep key) op' →
      pointStep key x op = x → pointStep key (pointStep key x op') op = pointStep key x op' := by
  have hcomm : ∀ (x : Option (Nat × Bytes)) (q : Nat × Bytes → Bool), x.filter p = x → (x.filter q).filter p = x.filter q := by
    intro x q hx
    cases x with
    | none => rfl
    | some v =>
      have hv : p v = true := by simpa [Option.filter_some] using hx
      cases hq : q v <;> simp [Option.filter_some, hq, hv]
  refine ⟨fun x => ?_, fun op' x hreset hx => ?_⟩
  · rw [hop, hop, Option.filter_filter]
    simp
  · rw [hop] at hx ⊢
    cases op' with
    | tsPoint series ts id value =>
      by_cases hkey : key = (series, ts)
      · exact absurd (fun x y => (if_pos hkey).trans (if_pos hkey).symm) hreset
      · have hother : pointStep key x (.tsPoint series ts id value) = x := if_neg hkey
        rw [hother, hx]
    | tsFlush max_id => exact hcomm x _ hx
    | tsReplace points => exact absurd (fun x y => rfl) hreset
    | tsClearAll => exact absurd (fun x y => rfl) hreset
    | clearSeries series => exact hcomm x _ hx
    | _ => exact hx

theorem pointStep_settling (key : Bytes × Nat) : Settling (pointStep key) := by
  intro op
  cases op with
  | tsPoint series ts id value =>
    by_cases hkey : key = (series, ts)
    · exact Or.inl fun x y => (if_pos hkey).trans (if_pos hkey).symm
    · have hother : ∀ x, pointStep key x (.tsPoint series ts id value) = x := fun x => if_neg hkey
      exact Or.inr ⟨fun x => hother _, fun op x _ _ => hother _⟩
  | tsFlush max_id => exact Or.inr (pointStep_filter key _ fun x => rfl)
  | tsReplace points => exact Or.inl fun x y => rfl
  | tsClearAll => exact Or.inl fun x y => rfl
  | clearSeries series => exact Or.inr (pointStep_filter key _ fun x => rfl)
  | _ => exact Or.inr ⟨fun x => rfl, fun op x _ _ => rfl⟩

theorem ts_twice (key : Bytes × Nat) : (ops.foldl applyWalOp (ops.foldl applyWalOp s)).lake.ts.lookup key =
    (ops.foldl applyWalOp s).lake.ts.lookup key := by
  refine Reads.twice (fun s => s.lake.ts.lookup key) (pointStep_settling key) (fun s op => ?_) ops s
  cases op with
  | tsPoint series ts id value =>
    unfold pointStep
    dsimp only
    split_ifs with hkey
    · rw [hkey]
      exact AList.lookup_insert _
    · exact AList.lookup_insert_ne hkey
  | tsFlush max_id => exact lookup_retain _ _ _
  | tsReplace points => exact lookup_putPoints (s := { s.lake with ts := ∅ }) (t := Lakehouse.new) points (fun _ => rfl) key
  | clearSeries series => exact lookup_dropSeries _ _ _
  | clearTable table => rw [applyWalOp_clearTable]; rfl
  | _ => rfl

/-- Applied to tables that hold them, operations change nothing. -/
theorem sameTables_twice : SameTables (ops.foldl applyWalOp (ops.foldl applyWalOp s)) (ops.foldl applyWalOp s) :=
  ⟨nodes_twice ops s, children_twice ops s, roots_twice ops s, metas_twice ops s, keylens_twice ops s, shortcuts_twice ops s,
    edges_twice ops s, node_metas_twice ops s, chains_twice ops s, patterns_twice ops s, blooms_twice ops s, counter_twice ops s,
    ts_twice ops s⟩

end Inner

/-! ## A checkpoint that stops -/

namespace Inner

/-- Points of different keys take the place of those there were. -/
theorem lookup_putPoints_nodup {rows : List Row} (hrows : (rows.map Lakehouse.Row.key).Nodup) (t : Lakehouse) (key : Bytes × Nat) :
    (rows.foldl Lakehouse.putPoint t).ts.lookup key =
      ((Lakehouse.rowAt rows key).map fun r => (r.id, r.value)).or (t.ts.lookup key) := by
  induction rows generalizing t with
  | nil => rfl
  | cons r rows ih =>
    obtain ⟨hnot, hrows⟩ := List.nodup_cons.mp hrows
    rw [List.foldl_cons, ih hrows]
    by_cases hkey : Lakehouse.Row.key r = key
    · have hnone : Lakehouse.rowAt rows key = none := by
        refine List.find?_eq_none.mpr fun r' hr' heq => hnot ?_
        rw [hkey, ← of_decide_eq_true heq]
        exact List.mem_map_of_mem hr'
      have hsome : Lakehouse.rowAt (r :: rows) key = some r := List.find?_cons_of_pos (by simpa using hkey)
      rw [hnone, hsome, ← hkey]
      exact AList.lookup_insert _
    · have hrest : Lakehouse.rowAt (r :: rows) key = Lakehouse.rowAt rows key := List.find?_cons_of_neg (by simpa using hkey)
      rw [hrest]
      exact congrArg _ (AList.lookup_insert_ne (Ne.symm hkey))

/-- The points of a buffer, put into an empty one in any order. -/
theorem lookup_putPoints_rows {s t : Lakehouse} {rows : List Row} (hrows : (rows.map Lakehouse.Row.key).Nodup)
    (hmem : ∀ r, r ∈ rows ↔ r ∈ s.buffered) (h : ∀ key, t.ts.lookup key = none) (key : Bytes × Nat) :
    (rows.foldl Lakehouse.putPoint t).ts.lookup key = s.ts.lookup key := by
  rw [lookup_putPoints_nodup hrows, h, Option.or_none]
  cases hr : Lakehouse.rowAt rows key with
  | some r =>
    have hkey : Lakehouse.Row.key r = key := by simpa using List.find?_some hr
    rw [← hkey, Lakehouse.mem_buffered.mp ((hmem r).mp (List.mem_of_find?_eq_some hr))]
    rfl
  | none =>
    cases hl : s.ts.lookup key with
    | none => rfl
    | some p =>
      have hrow : (⟨p.1, key.1, key.2, p.2⟩ : Row) ∈ rows := (hmem _).mpr (Lakehouse.mem_buffered.mpr hl)
      exact absurd (by simp [Lakehouse.Row.key]) (List.find?_eq_none.mp hr _ hrow)

/-- The points of the buffer, put into an empty one. -/
theorem lookup_buffered (s t : Lakehouse) (h : ∀ key, t.ts.lookup key = none) (key : Bytes × Nat) :
    (s.buffered.foldl Lakehouse.putPoint t).ts.lookup key = s.ts.lookup key :=
  lookup_putPoints_rows s.nodup_buffered (fun _ => Iff.rfl) h key

/-- Loading the dump of a state gives its tables. -/
theorem reloaded_sameTables {s : Inner} (h : s.Seeded) : SameTables s.reloaded s :=
  ⟨if_pos h.nodes, rfl, rfl, rfl, rfl, rfl, rfl, rfl, rfl, rfl, rfl, if_neg (not_lt.mpr h.counter),
    lookup_buffered s.lake _ fun _ => rfl⟩

end Inner

namespace Store

/-- The process stops in `checkpoint` when `_current` names the new tables and the log is not cut yet, and the store is opened
again. -/
def stoppedCheckpoint (s : Store) : Store :=
  let inner := { s.inner with generation := s.inner.generation + 1 }
  reopen ⟨inner, ⟨some inner.reloaded, s.disk.wal⟩⟩

/-- The log is replayed over the tables it was folded into. -/
theorem stoppedCheckpoint_same {s : Store} (h : s.Reopens) : Inner.SameTables s.stoppedCheckpoint.inner s.inner := by
  have hseeded : Inner.Seeded { s.inner with generation := s.inner.generation + 1 } := ⟨h.seeded.nodes, h.seeded.counter⟩
  have hgeneration : Inner.SameTables { s.inner with generation := s.inner.generation + 1 } s.inner :=
    ⟨rfl, rfl, rfl, rfl, rfl, rfl, rfl, rfl, rfl, rfl, rfl, rfl, fun _ => rfl⟩
  have htables := hgeneration.trans h.same.symm
  have htwice := Inner.sameTables_twice s.disk.wal.ops (s.disk.tables.getD Inner.new)
  refine (Inner.open_same _ _ _).trans (Inner.SameTables.trans ?_ h.same)
  exact (Inner.sameTables_foldl _ ((Inner.reloaded_sameTables hseeded).trans htables)).trans htwice

end Store

/-- Applied to tables that hold them, operations change nothing, whatever they are. So a checkpoint of any reachable store that
stops between its switch to the new tables and the cut of the log loses and changes nothing. -/
theorem replay_idempotent :
    (∀ (ops : List WalOp) (s : Inner),
      Inner.SameTables (ops.foldl Inner.applyWalOp (ops.foldl Inner.applyWalOp s)) (ops.foldl Inner.applyWalOp s)) ∧
    ∀ (flush_threshold block_secs : Nat) (as : List LakeAct),
      Inner.SameTables ((Store.lakeMachine flush_threshold block_secs).state as).stoppedCheckpoint.inner
        ((Store.lakeMachine flush_threshold block_secs).state as).inner ∧
      ((Store.lakeMachine flush_threshold block_secs).state as).stoppedCheckpoint.inner.lake.ts_manifest =
        ((Store.lakeMachine flush_threshold block_secs).state as).inner.lake.ts_manifest ∧
      ((Store.lakeMachine flush_threshold block_secs).state as).stoppedCheckpoint.inner.lake.files =
        ((Store.lakeMachine flush_threshold block_secs).state as).inner.lake.files :=
  ⟨Inner.sameTables_twice, fun flush_threshold block_secs as =>
    ⟨Store.stoppedCheckpoint_same (Store.reopens flush_threshold block_secs as), rfl, rfl⟩⟩

end Opsense
