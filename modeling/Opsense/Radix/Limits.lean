import Opsense.Lib.Distinct
import Opsense.Radix.Dfs
import Opsense.Radix.Map

/-!
# A search with a depth and a limit

`Search::search` of `opsense-mlib/src/search.rs`: the nodes in which the first element of the pattern stands are searched from, one
after another, until there are as many records as the limit, and then those whose key is too long for the depth are left out. So the
limit counts records that are left out later (`search_limit_iff`).
-/

namespace Opsense

namespace Search

variable {σ T : Type} [DecidableEq T] (B : Backend σ) (E : Element T)

/-- The records are as many as the limit. -/
def full {α : Type} (limit : Option Nat) (records : List α) : Bool := limit.any fun n => n ≤ records.length

/-- The loop over the records of a candidate. -/
def addHits (limit : Option Nat) : List Nat → List Nat → List Nat
  | [], record_ids => record_ids
  | rid :: rids, record_ids =>
    if rid ∈ record_ids then addHits limit rids record_ids
    else if full limit (record_ids ++ [rid]) then record_ids ++ [rid]
    else addHits limit rids (record_ids ++ [rid])

/-- The loop over the candidates. -/
def gather (dfs : Nat → Option (Except SearchError (List Nat))) (offset limit : Option Nat) :
    List Nat → List Nat → Option (Except SearchError (List Nat))
  | [], record_ids => some (.ok record_ids)
  | node_id :: candidates, record_ids =>
    if offset.any fun offset_val => node_id < offset_val then gather dfs offset limit candidates record_ids
    else if full limit record_ids then some (.ok record_ids)
    else
      match dfs node_id with
      | none => none
      | some (.error e) => some (.error e)
      | some (.ok rids) => gather dfs offset limit candidates (addHits limit rids record_ids)

/-- The depth leaves a record to the answer: its key has at most `depth + 1` elements. A record without a key length is too long. -/
def keeps (key_lens : Table Nat Nat) (depth : Option Nat) (rid : Nat) : Bool :=
  rid ≠ EMPTY && depth.all fun d => (key_lens.lookup rid).getD (2 ^ 64 - 1) ≤ (d + 1) % 2 ^ 64

/-- The loop over the records that were found. -/
def resolve (key_lens : Table Nat Nat) (metas : Table Nat Bytes) (depth limit : Option Nat) :
    List Nat → List (Nat × Option Bytes) → List (Nat × Option Bytes)
  | [], results => results
  | rid :: record_ids, results =>
    if keeps key_lens depth rid then
      let results := results ++ [(rid, metas.lookup rid)]
      if full limit results then results else resolve key_lens metas depth limit record_ids results
    else resolve key_lens metas depth limit record_ids results

/-- `search_dfs` from a candidate. -/
def searchFromNode (sharding : Nat) (s : Index σ) (steps : Nat) (pattern : List T) (node_id : Nat) :
    Option (Except SearchError (List Nat)) :=
  (Radix.searchDfs B E (trie E sharding) s.store steps node_id pattern (kmpMatcher pattern) none none).map fun r =>
    (r.map Prod.fst).mapError SearchError.ofRadix

/-- `get_shortcut_nodes`, in the order in which the storage gives the members of a set. -/
def candidatesOf (order : Finset Nat → List Nat) (sharding : Nat) (s : Index σ) (first : T) : List Nat :=
  order ((s.shortcuts.filter fun m => m.1 = shardOf E first sharding ∧ m.2.1 = E.encode first).image fun m => m.2.2)

/-- `search`. It gives nothing when a search from a candidate is not done after `steps`. -/
def search (order : Finset Nat → List Nat) (metas : Table Nat Bytes) (sharding : Nat) (s : Index σ) (steps : Nat) (pattern : List T)
    (depth offset limit : Option Nat) : Option (Except SearchError (List (Nat × Option Bytes))) :=
  match pattern with
  | [] => some (.error .notFound)
  | first :: _ =>
    match gather (searchFromNode B E sharding s steps pattern) offset limit
        (candidatesOf E order (trie (T := T) E sharding).sharding s first) [] with
    | none => none
    | some (.error e) => some (.error e)
    | some (.ok record_ids) =>
      if record_ids = [] then some (.error .notFound)
      else
        let results := resolve s.key_lens metas depth limit record_ids []
        if results = [] then some (.error .notFound) else some (.ok results)

variable {B E} {dfs : Nat → Option (Except SearchError (List Nat))} {offset limit : Option Nat} {n : Nat}

/-! ## What is gathered -/

/-- What the candidates that are not skipped give, one after another. -/
def traversed (dfs : Nat → Option (Except SearchError (List Nat))) (offset : Option Nat) :
    List Nat → Option (Except SearchError (List Nat))
  | [] => some (.ok [])
  | node_id :: candidates =>
    if offset.any fun offset_val => node_id < offset_val then traversed dfs offset candidates
    else
      match dfs node_id with
      | none => none
      | some (.error e) => some (.error e)
      | some (.ok rids) => (traversed dfs offset candidates).map (Except.map (rids ++ ·))

/-- The records of the traversals from all candidates, in the order in which they are met first. -/
def hitsOf (B : Backend σ) (E : Element T) (order : Finset Nat → List Nat) (sharding : Nat) (s : Index σ) (steps : Nat)
    (pattern : List T) (offset : Option Nat) : Option (List Nat) :=
  match pattern with
  | [] => none
  | first :: _ =>
    match traversed (searchFromNode B E sharding s steps pattern) offset
        (candidatesOf E order (trie (T := T) E sharding).sharding s first) with
    | some (.ok rids) => some (Log.keepFirst id [] rids)
    | _ => none

theorem full_none {α : Type} (records : List α) : ¬full none records = true := Bool.false_ne_true

theorem full_some {α : Type} {records : List α} : full (some n) records = true ↔ n ≤ records.length := decide_eq_true_iff

theorem addHits_none (rids record_ids : List Nat) :
    addHits none rids record_ids = record_ids ++ Log.keepFirst id record_ids rids := by
  induction rids generalizing record_ids with
  | nil => simp [addHits, Log.keepFirst]
  | cons rid rids ih =>
    unfold addHits
    split_ifs with hmem hfull
    · rw [ih, Log.keepFirst_old hmem]
    · exact absurd hfull (full_none _)
    · have hsame : Log.keepFirst id (record_ids ++ [rid]) rids = Log.keepFirst id (id rid :: record_ids) rids := by
        refine Log.keepFirst_congr fun a _ => ?_
        simp [or_comm]
      rw [ih, Log.keepFirst_new hmem, hsame, List.append_assoc]
      rfl

/-- A limit takes the first of the records. -/
theorem addHits_take (rids : List Nat) {record_ids : List Nat} (h : record_ids.length < n) :
    addHits (some n) rids record_ids = (addHits none rids record_ids).take n := by
  induction rids generalizing record_ids with
  | nil => exact (List.take_of_length_le h.le).symm
  | cons rid rids ih =>
    unfold addHits
    split_ifs with hmem hfull hnone hnone
    · exact ih h
    · exact absurd hnone (full_none _)
    · have hlen : n = (record_ids ++ [rid]).length := by
        have hle := full_some.mp hfull
        rw [List.length_append, List.length_singleton] at hle ⊢
        omega
      rw [addHits_none, hlen, List.take_left]
    · exact absurd hnone (full_none _)
    · exact ih (not_le.mp (mt full_some.mpr hfull))

theorem keepFirst_append_id (seen rids rids' : List Nat) :
    seen ++ Log.keepFirst id seen (rids ++ rids') =
      (seen ++ Log.keepFirst id seen rids) ++ Log.keepFirst id (seen ++ Log.keepFirst id seen rids) rids' := by
  rw [Log.keepFirst_append, List.append_assoc]
  refine congrArg _ (congrArg _ (Log.keepFirst_congr fun a _ => ?_))
  have hkinds : a ∈ (Log.keepFirst id seen rids).map id ↔ a ∉ seen ∧ a ∈ rids.map id := Log.mem_kinds_keepFirst
  simp only [List.map_id] at hkinds ⊢
  rw [List.mem_append, List.mem_append, id_eq, hkinds]
  tauto

theorem gather_none (candidates record_ids : List Nat) : gather dfs offset none candidates record_ids =
    (traversed dfs offset candidates).map (Except.map fun rids => record_ids ++ Log.keepFirst id record_ids rids) := by
  induction candidates generalizing record_ids with
  | nil => simp [gather, traversed, Log.keepFirst, Except.map]
  | cons node_id candidates ih =>
    unfold gather traversed
    split_ifs with hskip hfull
    · exact ih record_ids
    · exact absurd hfull (full_none _)
    · rcases dfs node_id with _ | error | rids
      · rfl
      · rfl
      · dsimp only
        rw [ih, addHits_none, Option.map_map]
        refine Option.map_congr fun r _ => ?_
        cases r with
        | error e => rfl
        | ok rids' => exact congrArg Except.ok (keepFirst_append_id record_ids rids rids').symm

/-- With a limit the first records are gathered, if all candidates answer. -/
theorem gather_some {candidates record_ids rids : List Nat} (h : record_ids.length ≤ n)
    (hrids : traversed dfs offset candidates = some (.ok rids)) :
    gather dfs offset (some n) candidates record_ids =
      some (.ok ((record_ids ++ Log.keepFirst id record_ids rids).take n)) := by
  induction candidates generalizing record_ids rids with
  | nil =>
    obtain rfl : [] = rids := by simpa [traversed] using hrids
    simp [gather, Log.keepFirst, List.take_of_length_le h]
  | cons node_id candidates ih =>
    unfold traversed at hrids
    unfold gather
    split_ifs at hrids ⊢ with hskip hfull
    · exact ih h hrids
    · have hlen : n = record_ids.length := le_antisymm (full_some.mp hfull) h
      rw [hlen, List.take_left]
    · rcases hdfs : dfs node_id with _ | error | found
      · rw [hdfs] at hrids
        cases hrids
      · rw [hdfs] at hrids
        cases hrids
      · rw [hdfs] at hrids
        obtain ⟨r, hr, hmap⟩ := Option.map_eq_some_iff.mp hrids
        cases r with
        | error e => cases hmap
        | ok rids' =>
          obtain rfl : found ++ rids' = rids := by simpa [Except.map] using hmap
          have hlt : record_ids.length < n := not_le.mp (mt full_some.mpr hfull)
          have htake := addHits_take found hlt
          rw [addHits_none] at htake
          dsimp only
          rw [ih (htake ▸ List.length_take_le _ _) hr, htake, keepFirst_append_id]
          generalize record_ids ++ Log.keepFirst id record_ids found = ids
          refine congrArg (fun ids => some (Except.ok ids)) ?_
          by_cases hle : ids.length ≤ n
          · rw [List.take_of_length_le hle]
          · -- nothing that comes later is taken
            have hids : (ids.take n).length = n := List.length_take_of_le (by omega)
            rw [List.take_append_of_le_length (by omega), List.take_append_of_le_length (by omega), List.take_take, min_self]

/-! ## What is left -/

variable {key_lens : Table Nat Nat} {metas : Table Nat Bytes} {depth : Option Nat}

theorem resolve_none (record_ids : List Nat) (results : List (Nat × Option Bytes)) :
    resolve key_lens metas depth none record_ids results =
      results ++ (record_ids.filter (keeps key_lens depth)).map fun rid => (rid, metas.lookup rid) := by
  induction record_ids generalizing results with
  | nil => simp [resolve]
  | cons rid record_ids ih =>
    unfold resolve
    dsimp only
    split_ifs with hkeep hfull
    · exact absurd hfull (full_none _)
    · rw [ih, List.filter_cons_of_pos hkeep, List.map_cons, List.append_assoc]
      rfl
    · rw [ih, List.filter_cons_of_neg hkeep]

/-- The second limit leaves nothing out of as many records as the limit. -/
theorem resolve_some {record_ids : List Nat} {results : List (Nat × Option Bytes)} (h : results.length + record_ids.length ≤ n) :
    resolve key_lens metas depth (some n) record_ids results =
      results ++ (record_ids.filter (keeps key_lens depth)).map fun rid => (rid, metas.lookup rid) := by
  induction record_ids generalizing results with
  | nil => simp [resolve]
  | cons rid record_ids ih =>
    rw [List.length_cons] at h
    unfold resolve
    dsimp only
    split_ifs with hkeep hfull
    · have hlast : record_ids = [] := by
        have hle := full_some.mp hfull
        rw [List.length_append, List.length_singleton] at hle
        exact List.eq_nil_of_length_eq_zero (by omega)
      subst hlast
      rw [List.filter_cons_of_pos hkeep]
      rfl
    · rw [ih (by simp only [List.length_append, List.length_singleton]; omega), List.filter_cons_of_pos hkeep, List.map_cons,
        List.append_assoc]
      rfl
    · rw [ih (by omega), List.filter_cons_of_neg hkeep]

/-! ## The limit and the depth -/

/-- One of the first `n` is left out, and a later one is kept. -/
def Cut (n : Nat) (keep : Nat → Bool) (hits : List Nat) : Prop :=
  (∃ rid ∈ hits.take n, keep rid = false) ∧ ∃ rid ∈ hits.drop n, keep rid = true

instance (n : Nat) (keep : Nat → Bool) (hits : List Nat) : Decidable (Cut n keep hits) :=
  inferInstanceAs (Decidable ((∃ rid ∈ hits.take n, keep rid = false) ∧ ∃ rid ∈ hits.drop n, keep rid = true))

/-- Taking the first before others are left out leaves as many as taking them after it, unless the first are cut. -/
theorem length_filter_take_iff (n : Nat) (keep : Nat → Bool) (hits : List Nat) :
    ((hits.take n).filter keep).length = min n (hits.filter keep).length ↔ ¬Cut n keep hits := by
  have hsum : (hits.filter keep).length = ((hits.take n).filter keep).length + ((hits.drop n).filter keep).length := by
    rw [← List.length_append, ← List.filter_append, List.take_append_drop]
  have hfirst : ((hits.take n).filter keep).length ≤ (hits.take n).length := List.length_filter_le _ _
  have htake : (hits.take n).length = min n hits.length := List.length_take
  rw [hsum]
  constructor
  · rintro hmin ⟨⟨rid, hrid, hout⟩, rid', hrid', hin⟩
    have hlt : ((hits.take n).filter keep).length < (hits.take n).length := by
      refine lt_of_le_of_ne hfirst fun heq => ?_
      have hall := List.length_filter_eq_length_iff.mp heq rid hrid
      rw [hout] at hall
      cases hall
    have hpos : 0 < ((hits.drop n).filter keep).length := List.length_pos_of_mem (List.mem_filter.mpr ⟨hrid', hin⟩)
    omega
  · intro hcut
    by_cases hlater : ∃ rid ∈ hits.drop n, keep rid = true
    · have hall : ((hits.take n).filter keep).length = (hits.take n).length := by
        refine List.length_filter_eq_length_iff.mpr fun rid hrid => ?_
        by_contra hout
        exact hcut ⟨⟨rid, hrid, Bool.eq_false_iff.mpr hout⟩, hlater⟩
      have hlong : n < hits.length := by
        obtain ⟨rid, hrid, -⟩ := hlater
        have := List.length_pos_of_mem hrid
        rw [List.length_drop] at this
        omega
      omega
    · have hnone : (hits.drop n).filter keep = [] := by
        refine List.filter_eq_nil_iff.mpr fun rid hrid hin => hlater ⟨rid, hrid, hin⟩
      rw [hnone, List.length_nil]
      omega

/-- The records of an answer: none for `NotFound`. -/
def answered {α : Type} : Option (Except SearchError (List α)) → Option (List α)
  | some (.ok results) => some results
  | some (.error .notFound) => some []
  | _ => none

/-- When the search without a limit answers with `all`, that with the limit `n` answers with `n` of these, or all if they are fewer. -/
def LimitsLast (search : Option Nat → Option (Except SearchError (List (Nat × Option Bytes)))) (n : Nat) : Prop :=
  ∀ all, answered (search none) = some all →
    ∃ few, answered (search (some n)) = some few ∧ few.length = min n all.length ∧ ∀ r ∈ few, r ∈ all

/-- A search from a node fails by its storage only. -/
theorem searchFromNode_error {sharding : Nat} {s : Index σ} {steps node_id : Nat} (first : T) (rest : List T) {e : SearchError}
    (h : searchFromNode B E sharding s steps (first :: rest) node_id = some (.error e)) : e ≠ .notFound := by
  unfold searchFromNode Radix.searchDfs at h
  obtain ⟨r, hr, hmap⟩ := Option.map_eq_some_iff.mp h
  dsimp only at hr
  match hstart : Radix.dfsStart B E (trie E sharding) s.store node_id first none with
  | none =>
    rw [hstart] at hr
    obtain rfl := Option.some.inj hr
    cases hmap
  | some (none, records) =>
    rw [hstart] at hr
    obtain rfl := Option.some.inj hr
    cases hmap
  | some (some state, records) =>
    rw [hstart] at hr
    obtain ⟨r', -, rfl⟩ := Option.map_eq_some_iff.mp hr
    cases r' with
    | error e' =>
      obtain rfl : SearchError.ofRadix (.categoryStorage e') = e := by simpa [Except.map, Except.mapError] using hmap
      exact nofun
    | ok r' => cases hmap

theorem traversed_error (hdfs : ∀ node_id e, dfs node_id = some (.error e) → e ≠ .notFound) {candidates : List Nat} {e : SearchError}
    (h : traversed dfs offset candidates = some (.error e)) : e ≠ .notFound := by
  induction candidates with
  | nil => cases h
  | cons node_id candidates ih =>
    unfold traversed at h
    split_ifs at h
    · exact ih h
    · match hnode : dfs node_id with
      | none =>
        rw [hnode] at h
        cases h
      | some (.error e') =>
        rw [hnode] at h
        obtain rfl : e' = e := by simpa using h
        exact hdfs node_id e' hnode
      | some (.ok rids) =>
        rw [hnode] at h
        obtain ⟨r, hr, hmap⟩ := Option.map_eq_some_iff.mp h
        cases r with
        | error e' =>
          obtain rfl : e' = e := by simpa [Except.map] using hmap
          exact ih hr
        | ok rids' => cases hmap

/-- The answer for the records that are gathered. -/
theorem answered_results (record_ids : List Nat) (results : List (Nat × Option Bytes)) (h : record_ids = [] → results = []) :
    answered (if record_ids = [] then some (.error .notFound)
      else if results = [] then some (.error .notFound) else some (.ok results)) = some results := by
  split_ifs with hids hresults
  · rw [h hids]
    rfl
  · rw [hresults]
    rfl
  · rfl

section

variable {order : Finset Nat → List Nat} {sharding : Nat} {s : Index σ} {steps : Nat} {pattern : List T}

/-- What a search answers when its traversals do. -/
theorem search_of_hits (metas : Table Nat Bytes) (depth : Option Nat) {hits : List Nat}
    (h : hitsOf B E order sharding s steps pattern offset = some hits) (n : Nat) :
    answered (search B E order metas sharding s steps pattern depth offset none) =
        some ((hits.filter (keeps s.key_lens depth)).map fun rid => (rid, metas.lookup rid)) ∧
      answered (search B E order metas sharding s steps pattern depth offset (some n)) =
        some (((hits.take n).filter (keeps s.key_lens depth)).map fun rid => (rid, metas.lookup rid)) := by
  cases pattern with
  | nil => cases h
  | cons first rest =>
    unfold hitsOf at h
    dsimp only at h
    unfold search
    dsimp only
    split at h
    · rename_i rids hrids
      obtain rfl := Option.some.inj h
      have hsome := gather_some (show ([] : List Nat).length ≤ n from Nat.zero_le n) hrids
      rw [List.nil_append] at hsome
      rw [gather_none, hrids, hsome]
      dsimp only [Option.map_some, Except.map]
      rw [List.nil_append]
      constructor
      · rw [answered_results, resolve_none, List.nil_append]
        intro hnil
        rw [resolve_none, hnil]
        rfl
      · have hlen : ([] : List (Nat × Option Bytes)).length + ((Log.keepFirst id [] rids).take n).length ≤ n := by
          rw [List.length_nil, Nat.zero_add]
          exact List.length_take_le _ _
        rw [answered_results, resolve_some hlen, List.nil_append]
        intro hnil
        rw [resolve_some hlen, hnil]
        rfl
    · cases h

/-- A search without a limit answers only when its traversals do. -/
theorem hits_of_answered {all : List (Nat × Option Bytes)} (hpattern : pattern ≠ [])
    (h : answered (search B E order metas sharding s steps pattern depth offset none) = some all) :
    ∃ hits, hitsOf B E order sharding s steps pattern offset = some hits := by
  obtain ⟨first, rest, rfl⟩ := List.exists_cons_of_ne_nil hpattern
  unfold search at h
  unfold hitsOf
  dsimp only at h ⊢
  rw [gather_none] at h
  match htraversed : traversed (searchFromNode B E sharding s steps (first :: rest)) offset
      (candidatesOf E order (trie (T := T) E sharding).sharding s first) with
  | none =>
    rw [htraversed] at h
    cases h
  | some (.error e) =>
    rw [htraversed] at h
    have hne := traversed_error (fun node_id e => searchFromNode_error first rest) htraversed
    cases e with
    | notFound => exact absurd rfl hne
    | duplicated => cases h
    | storage error => cases h
    | panicked => cases h
  | some (.ok rids) => exact ⟨_, rfl⟩

end

end Search

open Search in
/-- For every index and every order of the candidates, every pattern, depth, offset and limit: a search with the limit gives as many of
the records of the search without it as it should, unless among the records in the order in which the traversals meet them one of the
first `n` is too long for the depth and a later one is not. -/
theorem search_limit_iff {σ T : Type} [DecidableEq T] (B : Backend σ) (E : Element T) (order : Finset Nat → List Nat)
    (metas : Table Nat Bytes) (sharding : Nat) (s : Index σ) (steps : Nat) (pattern : List T) (depth offset : Option Nat) (n : Nat) :
    LimitsLast (search B E order metas sharding s steps pattern depth offset) n ↔
      ∀ hits, hitsOf B E order sharding s steps pattern offset = some hits → ¬Cut n (keeps s.key_lens depth) hits := by
  constructor
  · intro h hits hhits
    obtain ⟨hall, hfew⟩ := search_of_hits metas depth hhits n
    obtain ⟨few, hfew', hlen, -⟩ := h _ hall
    obtain rfl := Option.some.inj (hfew.symm.trans hfew')
    rw [List.length_map, List.length_map] at hlen
    exact (length_filter_take_iff n _ hits).mp hlen
  · intro h all hall
    by_cases hpattern : pattern = []
    · subst hpattern
      obtain rfl : [] = all := Option.some.inj hall
      exact ⟨[], rfl, (Nat.min_zero n).symm, nofun⟩
    · obtain ⟨hits, hhits⟩ := hits_of_answered hpattern hall
      obtain ⟨hall', hfew⟩ := search_of_hits metas depth hhits n
      obtain rfl := Option.some.inj (hall.symm.trans hall')
      refine ⟨_, hfew, ?_, fun r hr => ?_⟩
      · rw [List.length_map, List.length_map]
        exact (length_filter_take_iff n _ hits).mpr (h hits hhits)
      · exact ((((List.take_sublist n hits).filter _).map _).subset hr)

/-- A key of three elements, and one of two. -/
def longThenShort : List (Radix.Insertion (BitVec 8)) := [⟨[97, 98, 99], 1, []⟩, ⟨[97, 100], 2, []⟩]

/-- The elements of a set of small numbers, in their order. -/
def ascending (c : Finset Nat) : List Nat := (List.range 8).filter fun i => i ∈ c

/-- With depth 1 a search gives the record of the shorter key, and with the limit 1 it gives none. -/
theorem limit_counts_what_is_left_out :
    Search.search Kind.inMemory.backend (Element.int false 1 (by decide)) ascending ∅ 1
        ((Search.machine Kind.inMemory.backend (Element.int false 1 (by decide)) 1).state longThenShort) 8 [97] (some 1) none none =
        some (.ok [(2, none)]) ∧
      Search.search Kind.inMemory.backend (Element.int false 1 (by decide)) ascending ∅ 1
        ((Search.machine Kind.inMemory.backend (Element.int false 1 (by decide)) 1).state longThenShort) 8 [97] (some 1) none (some 1) =
        some (.error .notFound) ∧
      ¬Search.LimitsLast (Search.search Kind.inMemory.backend (Element.int false 1 (by decide)) ascending ∅ 1
        ((Search.machine Kind.inMemory.backend (Element.int false 1 (by decide)) 1).state longThenShort) 8 [97] (some 1) none) 1 := by
  have hall : Search.search Kind.inMemory.backend (Element.int false 1 (by decide)) ascending ∅ 1
      ((Search.machine Kind.inMemory.backend (Element.int false 1 (by decide)) 1).state longThenShort) 8 [97] (some 1) none none =
      some (.ok [(2, none)]) := by decide +kernel
  have hfew : Search.search Kind.inMemory.backend (Element.int false 1 (by decide)) ascending ∅ 1
      ((Search.machine Kind.inMemory.backend (Element.int false 1 (by decide)) 1).state longThenShort) 8 [97] (some 1) none (some 1) =
      some (.error .notFound) := by decide +kernel
  refine ⟨hall, hfew, fun hlimits => ?_⟩
  obtain ⟨few, hanswer, hlen, -⟩ := hlimits [(2, none)] (by rw [hall]; rfl)
  rw [hfew] at hanswer
  obtain rfl : [] = few := Option.some.inj hanswer
  cases hlen

end Opsense
