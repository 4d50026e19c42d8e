import Opsense.Radix.Hits

/-!
# A search that is interrupted

The calls of one search on the trees of an index, each from the checkpoint of the one before it, share the turns of the search that
is not interrupted, and give its hits (`search_resumes`). A call whose deadline has passed when it begins gives back the checkpoint
it was given (`passed_deadline_repeats`).
-/

namespace Opsense

/-- A call of `search_dfs`: how many turns it takes, and what it gives. -/
structure DfsCall where
  turns : Nat
  hits : List Nat
  checkpoint : Option DfsCheckpoint
deriving DecidableEq, Repr

/-- A call of the loop, as a call of `search_dfs`. -/
def DfsCall.ofTurns : Nat × ((DfsState × List Nat) ⊕ List Nat) → DfsCall
  | (turns, .inl (state, records)) => ⟨turns, [], some ⟨some state, records⟩⟩
  | (turns, .inr records) => ⟨turns, records, none⟩

/-- The turns of the first calls, up to this one. -/
def turnsTo (calls : List DfsCall) (i : Nat) : Nat := ((calls.take (i + 1)).map DfsCall.turns).sum

/-- The calls of a search of so many turns that finds these records. -/
structure Resumes (deadlines : List Nat) (n : Nat) (found : List Nat) (calls : List DfsCall) : Prop where
  hits : calls.flatMap DfsCall.hits = found
  turns : (calls.map DfsCall.turns).sum = n
  ends : ∀ c ∈ calls.getLast?, c.checkpoint = none
  /-- A call is interrupted by its deadline. -/
  deadline : ∀ (i : Nat) (c : DfsCall), calls[i]? = some c → c.checkpoint ≠ none → deadlines[i]? = some c.turns
  /-- A checkpoint is given again only without a turn in between. -/
  progress : ∀ (i j : Nat) (c c' : DfsCall), calls[i]? = some c → calls[j]? = some c' → c.checkpoint ≠ none → c'.checkpoint ≠ none →
    (c.checkpoint = c'.checkpoint ↔ turnsTo calls i = turnsTo calls j)

namespace Radix

variable {σ T : Type} [DecidableEq T] (B : Backend σ) (E : Element T) (R : Radix T)

/-- How many turns a call of `search_dfs` takes. -/
def dfsTurns (s : σ) (fuel begin_ : Nat) (pattern : List T) (matcher : SearchMatcher T) (resume : Option DfsCheckpoint)
    (deadline : Option Nat) : Nat :=
  match pattern with
  | [] => 0
  | first :: _ =>
    match dfsStart B E R s begin_ first resume with
    | some (some state, records) => Resumable.turns (dfsTurn B E s pattern matcher) fuel deadline (state, records)
    | _ => 0

/-- One call of `search_dfs` after another, as in `searchCalls`: all of them. -/
def searchRuns (s : σ) (fuel begin_ : Nat) (pattern : List T) (matcher : SearchMatcher T) :
    List Nat → Option DfsCheckpoint → Option (Except RadixError (List DfsCall))
  | [], resume =>
    (searchDfs B E R s fuel begin_ pattern matcher resume none).map (Except.map fun a =>
      [⟨dfsTurns B E R s fuel begin_ pattern matcher resume none, a.1, a.2⟩])
  | deadline :: deadlines, resume =>
    let turns := dfsTurns B E R s fuel begin_ pattern matcher resume (some deadline)
    match searchDfs B E R s fuel begin_ pattern matcher resume (some deadline) with
    | none => none
    | some (.error e) => some (.error e)
    | some (.ok (hits, none)) => some (.ok [⟨turns, hits, none⟩])
    | some (.ok (hits, some cp)) =>
      (searchRuns s fuel begin_ pattern matcher deadlines (some cp)).map (Except.map (⟨turns, hits, some cp⟩ :: ·))

variable {B E R} {s : σ} {matcher : SearchMatcher T}

/-- The calls of a search are those of its loop. -/
theorem searchRuns_calls (fuel begin_ : Nat) (first : T) (rest : List T) (deadlines : List Nat) (cp : Option DfsCheckpoint)
    {state : DfsState} {records : List Nat} {cs : List (Nat × ((DfsState × List Nat) ⊕ List Nat))}
    (hstart : dfsStart B E R s begin_ first cp = some (some state, records))
    (h : Resumable.calls (dfsTurn B E s (first :: rest) matcher) fuel deadlines (state, records) = some (.ok cs)) :
    searchRuns B E R s fuel begin_ (first :: rest) matcher deadlines cp = some (.ok (cs.map DfsCall.ofTurns)) := by
  have hturns : ∀ deadline, dfsTurns B E R s fuel begin_ (first :: rest) matcher cp deadline =
      Resumable.turns (dfsTurn B E s (first :: rest) matcher) fuel deadline (state, records) := by
    intro deadline
    simp only [dfsTurns, hstart]
  induction deadlines generalizing cp state records cs with
  | nil =>
    unfold Resumable.calls at h
    unfold searchRuns searchDfs
    simp only [hstart, hturns]
    cases hdrive : Resumable.drive (dfsTurn B E s (first :: rest) matcher) fuel none (state, records) with
    | none => simp [hdrive] at h
    | some r =>
      rw [hdrive] at h
      rcases r with error | ⟨state', records'⟩ | records'
      · simp [Except.map] at h
      · obtain rfl : [_] = cs := by simpa [Except.map] using h
        rfl
      · obtain rfl : [_] = cs := by simpa [Except.map] using h
        rfl
  | cons deadline deadlines ih =>
    unfold Resumable.calls at h
    unfold searchRuns searchDfs
    simp only [hstart, hturns]
    cases hdrive : Resumable.drive (dfsTurn B E s (first :: rest) matcher) fuel (some deadline) (state, records) with
    | none => simp [hdrive] at h
    | some r =>
      rw [hdrive] at h
      rcases r with error | ⟨state', records'⟩ | records'
      · simp [Except.map] at h
      · dsimp only at h
        cases hcalls : Resumable.calls (dfsTurn B E s (first :: rest) matcher) fuel deadlines (state', records') with
        | none => simp [hcalls] at h
        | some r =>
          rw [hcalls] at h
          cases r with
          | error e => simp [Except.map] at h
          | ok cs' =>
            obtain rfl : _ :: cs' = cs := by simpa [Except.map] using h
            have hrest := ih (some ⟨some state', records'⟩) rfl hcalls fun _ => by simp [dfsTurns, dfsStart]
            simp only [Except.mapError, Except.map, Option.map_some]
            rw [hrest]
            rfl
      · obtain rfl : [_] = cs := by simpa [Except.map] using h
        rfl

end Radix

open Resumable

/-- The calls of a loop are those of a search. -/
theorem resumes_of_shared {turn : DfsState × List Nat → Except StorageError ((DfsState × List Nat) ⊕ List Nat)} {n : Nat}
    {k : DfsState × List Nat} {found : List Nat} {deadlines : List Nat} {cs : List (Nat × ((DfsState × List Nat) ⊕ List Nat))}
    (h : EndsAfter turn n k found) (hshared : Shared turn deadlines n k found cs) :
    Resumes deadlines n found (cs.map DfsCall.ofTurns) := by
  have hturns : ∀ cs : List (Nat × ((DfsState × List Nat) ⊕ List Nat)),
      (cs.map DfsCall.ofTurns).map DfsCall.turns = cs.map Prod.fst := by
    intro cs
    rw [List.map_map]
    refine List.map_congr_left fun c _ => ?_
    rcases c with ⟨turns, ⟨state, records⟩ | records⟩ <;> rfl
  have hleft : ∀ (i : Nat) (c : DfsCall), (cs.map DfsCall.ofTurns)[i]? = some c → c.checkpoint ≠ none →
      ∃ state records, cs[i]? = some (c.turns, .inl (state, records)) ∧ c.checkpoint = some ⟨some state, records⟩ := by
    intro i c hi hne
    obtain ⟨⟨turns, left⟩, hcs, rfl⟩ : ∃ a, cs[i]? = some a ∧ DfsCall.ofTurns a = c := by simpa using hi
    rcases left with ⟨state, records⟩ | records
    · exact ⟨state, records, hcs, rfl⟩
    · exact absurd rfl hne
  obtain ⟨marks, left, hmarks⟩ := hshared.last
  refine ⟨?_, by rw [hturns, hshared.total], ?_, ?_, ?_⟩
  · have hnone : ∀ marks : List (Nat × (DfsState × List Nat)),
        (marks.map fun m => DfsCall.ofTurns (m.1, .inl m.2)).flatMap DfsCall.hits = [] := by
      intro marks
      rw [List.flatMap_eq_nil_iff]
      intro c hc
      obtain ⟨m, -, rfl⟩ := List.mem_map.mp hc
      rfl
    rw [hmarks, List.map_append, List.map_map, List.flatMap_append]
    simpa [DfsCall.ofTurns] using hnone marks
  · rw [hmarks]
    simp [DfsCall.ofTurns]
  · intro i c hi hne
    obtain ⟨state, records, hcs, -⟩ := hleft i c hi hne
    exact hshared.deadline i _ _ hcs
  · intro i j c c' hi hj hne hne'
    obtain ⟨state, records, hcs, hcp⟩ := hleft i c hi hne
    obtain ⟨state', records', hcs', hcp'⟩ := hleft j c' hj hne'
    have hiff := hshared.state_eq_iff h hcs hcs'
    simp only [turnsTo, ← List.map_take, hturns]
    rw [hcp, hcp', ← hiff]
    simp

variable {σ T : Type} [DecidableEq T] {B : Backend σ} {E : Element T} {R : Radix T}

/-- However a search for a pattern is interrupted, from the root of its shard or from any node of the trees: its calls share the turns
of the search that is not. -/
def SearchResumes (B : Backend σ) (E : Element T) (R : Radix T) (s : σ) : Prop :=
  ∀ begin_ pattern (matcher : SearchMatcher T), (begin_ = EMPTY ∨ Reached B s begin_) → pattern ≠ [] →
    ∃ n found, ∀ fuel, n ≤ fuel →
      Radix.searchDfs B E R s fuel begin_ pattern matcher none none = some (.ok (found, none)) ∧
        ∀ deadlines, ∃ calls, Radix.searchRuns B E R s fuel begin_ pattern matcher deadlines none = some (.ok calls) ∧
          Resumes deadlines n found calls

theorem Trees.searchResumes {Open : σ → Nat → Nat → Prop} {b : Nat} {s : Index σ} {trees : Nat → Forest Nat T Nat}
    {stored : List (List T × Nat)} (S : B.Serial Open) (h : Trees B E R Open s b trees stored) : SearchResumes B E R s.store := by
  intro begin_ pattern matcher hbegin hpattern
  obtain ⟨first, rest, rfl⟩ := List.exists_cons_of_ne_nil hpattern
  generalize hid : (if begin_ = EMPTY then B.getRoot s.store (shardOf E first R.sharding) else begin_) = id
  by_cases hempty : id = EMPTY
  · have hstart : Radix.dfsStart B E R s.store begin_ first none = none := by
      simp only [Radix.dfsStart, hid, if_pos hempty]
    refine ⟨0, [], fun fuel _ => ⟨by simp only [Radix.searchDfs, hstart], fun deadlines => ⟨[⟨0, [], none⟩], ?_, ?_⟩⟩⟩
    · cases deadlines <;> simp [Radix.searchRuns, Radix.searchDfs, Radix.dfsTurns, hstart, Except.map]
    · refine ⟨rfl, rfl, by simp, ?_, ?_⟩
      · intro i c hi hne
        cases i with
        | zero =>
          obtain rfl : _ = c := by simpa using hi
          exact absurd rfl hne
        | succ i => simp at hi
      · intro i j c c' hi _ hne
        cases i with
        | zero =>
          obtain rfl : _ = c := by simpa using hi
          exact absurd rfl hne
        | succ i => simp at hi
  · have hreached : Reached B s.store id := by
      split_ifs at hid with heq
      · subst hid
        exact Reached.root _ hempty
      · exact hid ▸ hbegin.resolve_left heq
    obtain ⟨i, hname⟩ := h.exists_name S hreached
    rw [Forest.names_eq] at hname
    obtain ⟨⟨id', piece, value, below⟩, hn, rfl⟩ := List.mem_map.mp hname
    obtain ⟨found, hends, -⟩ := Radix.visit_ends (first :: rest) matcher S h.opened ((h.planted i).holds.of_mem hn)
      ((h.rooted i).wf_of_mem hn) (Forest.nodup_names_of_mem (h.planted i).nodup hn)
    obtain ⟨n, hn⟩ := hends.exists_after
    have hstart : Radix.dfsStart B E R s.store begin_ first none = some (some (.search [⟨id', 0, 0, 0⟩]), []) := by
      simp only [Radix.dfsStart, hid, if_neg hempty]
    refine ⟨n, found, fun fuel hfuel => ⟨?_, fun deadlines => ?_⟩⟩
    · rcases hn.call hfuel none with ⟨hdone, -⟩ | ⟨d, k', hd, -⟩
      · simp [Radix.searchDfs, hstart, hdone, Except.map, Except.mapError]
      · cases hd
    · obtain ⟨cs, hcalls, hshared⟩ := hn.shared hfuel deadlines
      exact ⟨_, Radix.searchRuns_calls fuel begin_ first rest deadlines none hstart hcalls, resumes_of_shared hn hshared⟩

/-- On every backend, over any elements and any number of shards, and whatever was inserted: the calls of an interrupted search give
the hits of the one that is not and take its turns, and a checkpoint is given again exactly by a call that has taken no turn since. -/
theorem search_resumes (k : Kind) (E : Element T) (R : Radix T) (sharding : Nat) (as : List (Radix.Insertion T)) :
    SearchResumes k.backend E R ((R.machine k.backend E).state as).store ∧
      SearchResumes k.backend E (Search.trie E sharding) ((Search.machine k.backend E sharding).state as).store := by
  obtain ⟨Open, S⟩ := k.serial
  constructor
  · obtain ⟨b, trees, h⟩ := inv_of_steps (R := R) ⟨1, _, Trees.new S⟩ (Radix.machine_steps S) as
    exact h.searchResumes S
  · obtain ⟨⟨b, trees, h⟩, -⟩ := inv_of_steps (R := Search.trie E sharding) ⟨⟨1, _, Trees.new S⟩, rfl⟩
      (Search.machine_steps S sharding) as
    exact h.searchResumes S

/-- Two calls whose deadlines have passed when they begin give the same checkpoint. -/
theorem passed_deadline_repeats :
    (Radix.searchRuns Kind.inMemory.backend (Element.int false 1 (by decide)) (Radix.new (BitVec 8) 1)
        (((Radix.new (BitVec 8) 1).machine Kind.inMemory.backend (Element.int false 1 (by decide))).state nestedKeys).store 8 EMPTY
        [97] (Search.kmpMatcher [97]) [1, 0] none) =
      some (.ok [⟨1, [], some ⟨some (.collect 1 [(1, 0)]), []⟩⟩, ⟨0, [], some ⟨some (.collect 1 [(1, 0)]), []⟩⟩,
        ⟨6, [1, 2, 1, 3, 1], none⟩]) := by
  decide +kernel

end Opsense
