import Opsense.Station.Contents

/-!
# Clearing a station

`clear` empties the cache and then the backend. An append that was spawned before and is still in flight is stopped by neither:
when it runs after the backend was emptied, the block it carries is there again, and the next query that visits the block
reads it. Nothing else survives: along every run in which no append is in flight when the backend is emptied, a query returns
only what was passed to the station since `clear` was called.
-/

namespace Opsense

namespace TimeseriesStation

/-- What is known of the observations passed since `clear` was called last, after one more step. -/
def notePassed (passed : List Observation) : StationAct × Reply → List Observation
  | (.updateRange records _ _ _, .pending) => passed ++ records
  | (.clear, .pending) => []
  | _ => passed

/-- The observations passed to `update_range` since `clear` was called last. -/
def passedSince (trace : List (StationAct × Reply)) : List Observation := trace.foldl notePassed []

/-- No append is in flight when `clear` empties the backend. -/
def Drained (s : TimeseriesStation) : Prop :=
  s.job = some .clear → ∀ i, i < s.spawned.length → i ∈ s.executed

/-- What is asked of a step. -/
def Final (h : Host) (s : TimeseriesStation) : StationAct → Prop
  | .advance => PutsReadable h s ∧ Drained s
  | _ => True

variable {h : Host} {s : TimeseriesStation}

@[simp] theorem passedSince_snoc (trace : List (StationAct × Reply)) (a : StationAct × Reply) :
    passedSince (trace ++ [a]) = notePassed (passedSince trace) a := by
  simp [passedSince]

/-- While `clear` waits for the backend the cache is empty; otherwise the station holds only what was passed since. -/
def Since (h : Host) (s : TimeseriesStation) (trace : List (StationAct × Reply)) : Prop :=
  (s.job = some .clear ∧ Ordered h s ∧ ∀ b, cached h s b = none) ∨
  (s.job ≠ some .clear ∧ Within h (fun o => o ∈ passedSince trace) s ∧ JobWithin (fun o => o ∈ passedSince trace) s.job)

theorem clear_caches (hs : Ordered h s) :
    Ordered h { s with caches := (LruCache.Shared.clear s.caches).1 } ∧
    ∀ b, cached h { s with caches := (LruCache.Shared.clear s.caches).1 } b = none := by
  obtain ⟨r, hr⟩ := hs
  obtain ⟨-, hr'⟩ := hr.clear
  refine ⟨⟨_, hr'⟩, fun b => ?_⟩
  exact (hr'.peek b).trans (Recency.find_empty b)

variable {trace : List (StationAct × Reply)}

theorem since_begin (hs : Since h s trace) {a : StationAct} {job : Job} (hclear : job ≠ .clear)
    (hbusy : passedSince (trace ++ [(a, Reply.busy)]) = passedSince trace)
    (hpassed : ∀ o ∈ passedSince trace, o ∈ passedSince (trace ++ [(a, Reply.pending)]))
    (hjob : JobWithin (fun o => o ∈ passedSince (trace ++ [(a, Reply.pending)])) (some job)) :
    Since h (begin' s job).1 (trace ++ [(a, (begin' s job).2)]) := by
  unfold begin'
  cases hj : s.job with
  | some j =>
    rcases hs with ⟨hc, hrest⟩ | ⟨hc, hw, hwjob⟩
    · exact Or.inl ⟨hc, hrest⟩
    · refine Or.inr ⟨hc, ?_⟩
      rw [hbusy]
      exact ⟨hw, hwjob⟩
  | none =>
    rcases hs with ⟨hc, -⟩ | ⟨-, hw, -⟩
    · rw [hj] at hc
      cases hc
    · exact Or.inr ⟨by simpa using hclear, (hw.mono hpassed).withJob _, hjob⟩

/-- A call that goes on is not followed by another one. -/
theorem advance_ne_clear (h : Host) (s : TimeseriesStation) : (advance h s).1.job ≠ some .clear := by
  unfold advance
  split <;> try simp_all
  split <;> try simp_all
  split_ifs <;> simp

theorem since_advance (hlatest : LatestByTime h.latest) (hs : Since h s trace) (hf : Final h s .advance) :
    Since h (advance h s).1 (trace ++ [(StationAct.advance, (advance h s).2)]) ∧
    ReplyWithin (fun o => o ∈ passedSince trace) (advance h s).2 := by
  have hpassed : passedSince (trace ++ [(StationAct.advance, (advance h s).2)]) = passedSince trace := by
    rw [passedSince_snoc]
    rfl
  unfold Since
  rw [hpassed]
  rcases hs with ⟨hc, hord, hempty⟩ | ⟨hc, hw, hjob⟩
  · -- the backend is emptied, and nothing is in flight
    have hadv : advance h s = ({ s with stored := [], job := none }, .done) := by
      unfold advance
      rw [hc]
    rw [hadv]
    refine ⟨Or.inr ⟨nofun, ⟨hord, ?_, ?_, ?_⟩, trivial⟩, trivial⟩
    · intro b block hb
      have hnone : cached h s b = none := hempty b
      exact absurd (hnone.symm.trans hb) nofun
    · intro i a ha hi
      exact absurd (hf.2 hc i (List.getElem?_eq_some_iff.mp ha).1) hi
    · simp
  · obtain ⟨hw', hjob', hreply⟩ := hw.advance hlatest hjob hf.1
    exact ⟨Or.inr ⟨advance_ne_clear h s, hw', hjob'⟩, hreply⟩

theorem since_step (hlatest : LatestByTime h.latest) (hs : Since h s trace) (a : StationAct) (hf : Final h s a) :
    Since h ((machine h).next s a) (trace ++ [(a, (machine h).out s a)]) ∧
    ReplyWithin (fun o => o ∈ passedSince trace) ((machine h).out s a) := by
  have hreply : ∀ job, ReplyWithin (fun o => o ∈ passedSince trace) (begin' s job).2 := by
    intro job
    unfold begin'
    cases s.job <;> trivial
  unfold Machine.next Machine.out machine
  cases a with
  | updateRange records query_from query_to now =>
    dsimp only [step]
    refine ⟨since_begin hs nofun (by simp [notePassed]) (fun o ho => ?_) fun o ho => ?_, hreply _⟩
    · rw [passedSince_snoc]
      exact List.mem_append_left _ ho
    · rw [passedSince_snoc]
      exact List.mem_append_right _ ho
  | queryRecent from_ts to_ts =>
    dsimp only [step]
    exact ⟨since_begin hs nofun (by simp [notePassed]) (by simp [notePassed])
      fun o ho => absurd ho List.not_mem_nil, hreply _⟩
  | queryRange from_ts to_ts =>
    dsimp only [step]
    exact ⟨since_begin hs nofun (by simp [notePassed]) (by simp [notePassed])
      fun o ho => absurd ho List.not_mem_nil, hreply _⟩
  | clear =>
    dsimp only [step]
    cases hj : s.job with
    | none =>
      rcases hs with ⟨hc, -⟩ | ⟨-, hw, -⟩
      · rw [hj] at hc
        cases hc
      · exact ⟨Or.inl ⟨rfl, clear_caches hw.ordered⟩, trivial⟩
    | some job =>
      refine ⟨?_, trivial⟩
      unfold Since
      rw [passedSince_snoc]
      exact hs
  | advance => exact since_advance hlatest hs hf
  | append index =>
    have hpassed : passedSince (trace ++ [(StationAct.append index, (runAppend s index).2)]) = passedSince trace := by
      rw [passedSince_snoc]
      rfl
    have hrun : ReplyWithin (fun o => o ∈ passedSince trace) (runAppend s index).2 := by
      unfold runAppend
      split
      · split_ifs <;> trivial
      · trivial
    refine ⟨?_, hrun⟩
    unfold Since
    dsimp only [step]
    rw [hpassed]
    rcases hs with ⟨hc, hord, hempty⟩ | ⟨hc, hw, hjob⟩
    · have hsame : (runAppend s index).1.caches = s.caches ∧ (runAppend s index).1.job = s.job := by
        unfold runAppend
        split
        · split_ifs <;> exact ⟨rfl, rfl⟩
        · exact ⟨rfl, rfl⟩
      refine Or.inl ⟨hsame.2.trans hc, ?_, fun b => ?_⟩
      · unfold Ordered
        rw [hsame.1]
        exact hord
      · unfold cached
        rw [hsame.1]
        exact hempty b
    · obtain ⟨hw', hsame⟩ := hw.runAppend index
      exact Or.inr ⟨hsame ▸ hc, hw', hsame.symm ▸ hjob⟩

/-- Along every run in which no append is in flight when `clear` empties the backend, with any interleaving of the appends
otherwise, a query returns only observations that were passed to `update_range` since `clear` was called last. -/
theorem clear_is_final (h : Host) (hlatest : LatestByTime h.latest) (as : List StationAct)
    (hfinal : (machine h).Along (Final h) as) :
    ∀ pre a, pre ++ [a] <+: as →
      ReplyWithin (fun o => o ∈ passedSince ((machine h).trace pre)) ((machine h).out ((machine h).state pre) a) := by
  intro pre a hpre
  have hsince : Since h ((machine h).state pre) ((machine h).trace pre) := by
    refine Machine.invariant_trace (C := Final h) (I := Since h) ?_ (fun s t a hs hf => (since_step hlatest hs a hf).1) pre
      (hfinal.restrict ((List.prefix_append _ _).trans hpre))
    exact Or.inr ⟨nofun, open_within h _, trivial⟩
  exact (since_step hlatest hsince a (hfinal pre a hpre)).2

instance (h : Host) (s : TimeseriesStation) : ∀ a, Decidable (Final h s a)
  | .advance => inferInstanceAs (Decidable (PutsReadable h s ∧ (s.job = some .clear → ∀ i, i < s.spawned.length → i ∈ s.executed)))
  | .updateRange _ _ _ _ => isTrue trivial
  | .queryRecent _ _ => isTrue trivial
  | .queryRange _ _ => isTrue trivial
  | .clear => isTrue trivial
  | .append _ => isTrue trivial

/-- The append runs before the backend is emptied, and a query follows. -/
def drainedClear : List StationAct := twoUpdates ++ ([.append 0, .clear, .advance, .queryRecent 0 9, .advance] : List StationAct)

/-- The append runs after the backend was emptied, and a query follows. -/
def lateAppend : List StationAct := twoUpdates ++ ([.clear, .advance, .append 0, .queryRecent 0 9, .advance] : List StationAct)

/-- The query returns nothing. -/
theorem clear_is_final_drainedClear :
    (machine (hostOf [oneCpu])).Along (Final (hostOf [oneCpu])) (drainedClear ++ [.advance]) ∧
    ReplyWithin (fun o => o ∈ ([] : List Observation))
      ((machine (hostOf [oneCpu])).out ((machine (hostOf [oneCpu])).state drainedClear) .advance) := by
  have hfinal : (machine (hostOf [oneCpu])).Along (Final (hostOf [oneCpu])) (drainedClear ++ [StationAct.advance]) :=
    Machine.along_iff_alongFrom.mpr (by decide +kernel)
  refine ⟨hfinal, ?_⟩
  have hreply := clear_is_final (hostOf [oneCpu]) Lakehouse.latestByTime_newest _ hfinal drainedClear .advance
    (List.prefix_refl _)
  have hpassed : passedSince ((machine (hostOf [oneCpu])).trace drainedClear) = [] := by decide +kernel
  rwa [hpassed] at hreply

/-- Every append has run, nothing was passed to the station since `clear`, and the query returns the observation that was
passed before. -/
theorem late_append_survives_clear :
    passedSince ((machine (hostOf [oneCpu])).trace lateAppend) = [] ∧
    ((machine (hostOf [oneCpu])).state lateAppend).executed = [0] ∧
    ((machine (hostOf [oneCpu])).state lateAppend).spawned.length = 1 ∧
    (machine (hostOf [oneCpu])).out ((machine (hostOf [oneCpu])).state lateAppend) .advance = .recent 0 9 [cpuAt 1] := by
  decide +kernel

end TimeseriesStation

end Opsense
