import Mathlib

/-!
# What the nodes publish about themselves

Every node keeps an entry for each node it has heard of, with the version its author gave it. Merging the entries of a peer
keeps the newer version of each.
-/

namespace Opsense

/-- The largest `u64`. -/
def U64_MAX : Nat := 2 ^ 64 - 1

/-- `u64::saturating_add(1)` -/
def saturatingSucc (n : Nat) : Nat := min (n + 1) U64_MAX

theorem saturatingSucc_le (n : Nat) : saturatingSucc n ≤ U64_MAX := min_le_right _ _

theorem le_saturatingSucc {n : Nat} (h : n ≤ U64_MAX) : n ≤ saturatingSucc n := le_min (Nat.le_succ n) h

structure Version where
  lamport : Nat
  author : String
deriving DecidableEq

def Version.isNewerThan (self other : Version) : Bool :=
  decide (other.lamport < self.lamport ∨ (other.lamport = self.lamport ∧ other.author < self.author))

structure Info where
  version : String
  started_at : Nat
  note : String
deriving DecidableEq

def Info.default : Info := ⟨"", 0, ""⟩

/-- An info with its version. -/
abbrev Entry := Info × Version

/-- What a node knows, and sends to its peers. -/
structure InfoState where
  lamport : Nat
  entries : AList fun _ : String => Entry
  lamport_le : lamport ≤ U64_MAX

namespace InfoState

def new : InfoState := ⟨0, ∅, Nat.zero_le _⟩

def entry (s : InfoState) (node_id : String) : Option Entry := s.entries.lookup node_id

def info (s : InfoState) (node_id : String) : Option Info := (s.entry node_id).map Prod.fst

/-- A node overwrites its own info. -/
def setLocal (s : InfoState) (node_id : String) (info : Info) : InfoState :=
  let lamport := saturatingSucc s.lamport
  ⟨lamport, s.entries.insert node_id (info, ⟨lamport, node_id⟩), saturatingSucc_le _⟩

/-- One entry of the peer. -/
def mergeEntry (acc : (AList fun _ : String => Entry) × Bool) (e : Sigma fun _ : String => Entry) :
    (AList fun _ : String => Entry) × Bool :=
  match acc.1.lookup e.1 with
  | none => (acc.1.insert e.1 e.2, true)
  | some current => if e.2.2.isNewerThan current.2 then (acc.1.insert e.1 e.2, true) else acc

/-- The entries of a peer are merged in; tells whether anything changed. -/
def apply (s remote : InfoState) : InfoState × Bool :=
  let lamport := max s.lamport remote.lamport
  let (entries, changed) := remote.entries.entries.foldl mergeEntry (s.entries, false)
  (⟨if changed then saturatingSucc lamport else lamport, entries, by
    split_ifs
    · exact saturatingSucc_le _
    · exact max_le s.lamport_le remote.lamport_le⟩, changed)

/-! ## Merging, entry by entry -/

/-- What is kept of an entry and the entry of a peer. -/
def merged : Option Entry → Option Entry → Option Entry
  | current, none => current
  | none, some remote => some remote
  | some current, some remote => if remote.2.isNewerThan current.2 then some remote else some current

@[simp] theorem merged_none_right (e : Option Entry) : merged e none = e := by cases e <;> rfl

@[simp] theorem merged_none_left (e : Option Entry) : merged none e = e := by cases e <;> rfl

theorem lookup_mergeEntry (acc : (AList fun _ : String => Entry) × Bool) (e : Sigma fun _ : String => Entry) (id : String) :
    (mergeEntry acc e).1.lookup id = if id = e.1 then merged (acc.1.lookup id) (some e.2) else acc.1.lookup id := by
  unfold mergeEntry
  by_cases hid : id = e.1
  · subst hid
    rw [if_pos rfl]
    cases hc : acc.1.lookup e.1 with
    | none => exact AList.lookup_insert _
    | some current =>
      dsimp only [merged]
      split_ifs
      · exact AList.lookup_insert _
      · exact hc
  · rw [if_neg hid]
    split
    · exact AList.lookup_insert_ne hid
    · split_ifs
      · exact AList.lookup_insert_ne hid
      · rfl

theorem lookup_mergeEntries (es : List (Sigma fun _ : String => Entry)) (hes : (es.map Sigma.fst).Nodup)
    (acc : (AList fun _ : String => Entry) × Bool) (id : String) :
    (es.foldl mergeEntry acc).1.lookup id = merged (acc.1.lookup id) (es.dlookup id) := by
  induction es generalizing acc with
  | nil => exact (merged_none_right _).symm
  | cons e es ih =>
    rw [List.map_cons, List.nodup_cons] at hes
    rw [List.foldl_cons, ih hes.2, lookup_mergeEntry]
    by_cases hid : id = e.1
    · subst hid
      have hnone : es.dlookup e.1 = none := List.dlookup_eq_none.mpr hes.1
      rw [if_pos rfl, hnone, merged_none_right, List.dlookup_cons_eq]
    · rw [if_neg hid, List.dlookup_cons_ne _ _ hid]

/-- After a merge every entry is the newer of the two. -/
theorem entry_apply (s remote : InfoState) (id : String) :
    (apply s remote).1.entry id = merged (s.entry id) (remote.entry id) :=
  lookup_mergeEntries _ remote.entries.nodupKeys _ id

theorem lamport_le_apply (s remote : InfoState) : s.lamport ≤ (apply s remote).1.lamport := by
  have hmax : s.lamport ≤ max s.lamport remote.lamport := le_max_left _ _
  unfold apply
  dsimp only
  split_ifs
  · exact hmax.trans (le_saturatingSucc (max_le s.lamport_le remote.lamport_le))
  · exact hmax

theorem entry_setLocal (s : InfoState) (node_id : String) (info : Info) (id : String) :
    (s.setLocal node_id info).entry id =
      if id = node_id then some (info, ⟨saturatingSucc s.lamport, node_id⟩) else s.entry id := by
  unfold setLocal entry
  split_ifs with hid
  · subst hid
    exact AList.lookup_insert _
  · exact AList.lookup_insert_ne hid

end InfoState

end Opsense
