import Opsense.Station.Contents

/-!
# What a station keeps

An observation that was written is in the cached block of its time, or else in the snapshot that was spawned last for that
block. A write keeps this if the block is cached or was never evicted, since it does not look at the backend; a read keeps it if
the backend already has the last snapshot of a block that is not cached, and nothing as new that differs. Along every run whose
visits meet these conditions `query_recent` returns everything that was written in its window.
-/

namespace Opsense

namespace TimeseriesStation

/-- What a step writes: the records of a call in the window of the call. -/
def noteWritten : StationAct × Reply → List Observation
  | (.updateRange records query_from query_to _, .pending) =>
    records.filter fun o => query_from ≤ o.ts ∧ o.ts ≤ query_to ∧ 0 ≤ o.ts
  | _ => []

/-- The observations written in a run, from the first second on. -/
def written (trace : List (StationAct × Reply)) : List Observation := trace.flatMap noteWritten

/-- The backend has the snapshot spawned last for the block, and no other one as new. -/
def UpToDate (s : TimeseriesStation) (b : Int) : Prop :=
  ∀ a, (appended s.spawned (seriesOf b)).getLast? = some a →
    a ∈ s.stored ∧ ∀ a' ∈ appended s.stored (seriesOf b), a'.value = a.value ∨ a'.ts < a.ts

/-- The block visited next is cached, or was never appended when it is written, or is up to date when it is read. -/
def SafeVisit (h : Host) (s : TimeseriesStation) : Prop :=
  match s.job with
  | some (.updateRange records _ _ _ (b :: _)) =>
    cached h s b = none → (∃ o ∈ records, Block.Covers h.block_duration b o.ts) → appended s.spawned (seriesOf b) = []
  | some (.queryRecent _ _ (b :: _) _) => cached h s b = none → UpToDate s b
  | some (.queryRange _ _ (b :: _) _) => cached h s b = none → UpToDate s b
  | _ => True

/-- What is asked of a step. -/
def Safe (h : Host) (P : Observation → Prop) (s : TimeseriesStation) : StationAct → Prop
  | .updateRange records _ _ _ => ∀ o ∈ records, P o
  | .advance => PutsReadable h s ∧ SafeVisit h s
  | .clear => False
  | _ => True

/-- Different observations have different identities. -/
def Apart (P : Observation → Prop) : Prop := ∀ o o', P o → P o' → obsIdentity o = obsIdentity o' → o = o'

/-- The observation is in the cached block of its time, or else in the snapshot spawned last for it. -/
def Kept (h : Host) (s : TimeseriesStation) (o : Observation) : Prop :=
  let b := Block.idOf h.block_duration o.ts
  (∃ block, cached h s b = some block ∧ o ∈ block.items) ∨
  (cached h s b = none ∧ ∃ a block, (appended s.spawned (seriesOf b)).getLast? = some a ∧ a.value = h.to_vec block ∧
    ReadsBack h block ∧ o ∈ block.items)

variable {h : Host} {P : Observation → Prop} {s s' : TimeseriesStation} {o : Observation}

theorem Kept.frame (hk : Kept h s o) (hf : Frame h s s') : Kept h s' o := by
  unfold Kept at hk ⊢
  dsimp only at hk ⊢
  rw [hf.cached, hf.spawned]
  exact hk

/-- An append for another block. -/
theorem appended_snoc_other {spawned : List Append} {a : Append} {b b' : Int} {block : Block} (ha : IsSnapshot h b block a)
    (hb : b' ≠ b) : appended (spawned ++ [a]) (seriesOf b') = appended spawned (seriesOf b') := by
  have hne : ¬a.series = seriesOf b' := by
    rw [ha.1]
    exact fun heq => hb (seriesOf_injective heq).symm
  rw [appended, List.filter_append, List.filter_cons_of_neg (by simpa using hne)]
  simp [appended]

/-- A put keeps every observation of other blocks, and those that are in the block put. -/
theorem Kept.puts (hw : Within h P s) {b : Int} {block : Block} (hp : Puts h s b block s')
    (hk : if Block.idOf h.block_duration o.ts = b then o ∈ block.items else Kept h s o) : Kept h s' o := by
  unfold Kept at hk ⊢
  dsimp only at hk ⊢
  generalize Block.idOf h.block_duration o.ts = b' at hk
  split_ifs at hk with hb
  · subst hb
    refine Or.inl ⟨block, ?_, hk⟩
    rcases hp.tiers with ⟨-, -, hpeek⟩ | ⟨-, -, hpeek⟩ | ⟨old, v, -, -, -, -, hpeek⟩ <;> rw [hpeek, if_pos rfl]
  · rcases hp.tiers with ⟨-, ⟨a, hsnap, -, hspawn⟩, hpeek⟩ | ⟨-, hspawn, hpeek⟩ | ⟨old, v, -, -, hold, ⟨a, hsnap, -, hspawn⟩, hpeek⟩
    · rw [hpeek, if_neg hb, hspawn, appended_snoc_other hsnap hb]
      exact hk
    · rw [hpeek, if_neg hb, hspawn]
      exact hk
    · rw [hpeek, if_neg hb, hspawn]
      split_ifs with hbo
      · -- the block is evicted, and the snapshot of what was cached is its last one
        subst hbo
        refine Or.inr ⟨rfl, a, v, ?_, hsnap.2, (hw.inCache _ v hold).readsBack, ?_⟩
        · rw [appended, List.filter_append, List.filter_cons_of_pos (by simpa using hsnap.1), List.filter_nil,
            List.getLast?_concat]
        · rcases hk with ⟨block', hc, ho⟩ | ⟨hc, -⟩
          · rw [hold] at hc
            exact Option.some.inj hc ▸ ho
          · rw [hold] at hc
            cases hc
      · rw [appended_snoc_other hsnap hbo]
        exact hk

/-- A visit of `update_range` keeps what was written and the records of the block. -/
theorem kept_updateBlock (hw : Within h P s) (hapart : Apart P) {records : List Observation} (hrecords : ∀ o ∈ records, P o)
    {query_from query_to now b : Int}
    (hsafe : cached h s b = none → (∃ o ∈ records, Block.Covers h.block_duration b o.ts) →
      appended s.spawned (seriesOf b) = [])
    (hts : 0 ≤ o.ts) (hP : P o) (hk : (o ∈ records ∧ Block.idOf h.block_duration o.ts = b) ∨ Kept h s o) :
    Kept h (updateBlock h s records query_from query_to now b) o := by
  have hin : ∀ {block : Block}, (o ∈ block.items ∨ (o ∈ records ∧ Block.Covers h.block_duration b o.ts)) →
      cached h s b = some block ∨ (cached h s b = none ∧ block = Block.empty) →
      o ∈ (updated h s records query_from query_to now b).items := by
    intro block ho hc
    have hblock : (cached h s b).getD Block.empty = block := by
      rcases hc with hc | ⟨hc, rfl⟩ <;> rw [hc] <;> rfl
    obtain ⟨o', ho', hid⟩ := Block.exists_mem_update h.block_duration b records query_from query_to now (hblock ▸ ho)
    obtain rfl := hapart o' o (updated_within hw hrecords o' ho') hP hid
    exact ho'
  have hcovers : Block.Covers h.block_duration (Block.idOf h.block_duration o.ts) o.ts :=
    Block.covers_idOf h.block_duration_pos hts
  rcases updateBlock_cases hw.ordered records query_from query_to now b with ⟨hnone, hempty, hf⟩ | ⟨hput, hp⟩
  · rcases hk with ⟨ho, rfl⟩ | hk
    · have := hin (Or.inr ⟨ho, hcovers⟩) (Or.inr ⟨hnone, rfl⟩)
      rw [hempty] at this
      cases this
    · exact hk.frame hf
  · refine Kept.puts hw hp ?_
    split_ifs with hb
    · rcases hk with ⟨ho, -⟩ | hk
      · cases hc : cached h s b with
        | some block => exact hin (Or.inr ⟨ho, hb ▸ hcovers⟩) (Or.inl hc)
        | none => exact hin (Or.inr ⟨ho, hb ▸ hcovers⟩) (Or.inr ⟨hc, rfl⟩)
      · unfold Kept at hk
        rw [hb] at hk
        rcases hk with ⟨block, hc, ho⟩ | ⟨hc, a, block, hlast, -⟩
        · exact hin (Or.inl ho) (Or.inl hc)
        · -- the block was evicted before, so no record may be written to it
          obtain ⟨o', ho'⟩ := List.exists_mem_of_ne_nil _ (hput.resolve_left fun hne => hne hc)
          rcases Block.mem_of_mem_update ho' with hmem | ⟨hr, hcov⟩
          · rw [hc] at hmem
            cases hmem
          · rw [hsafe hc ⟨o', hr, hcov⟩] at hlast
            cases hlast
    · exact hk.resolve_left fun hk => hb hk.2

/-- The backend gives the block back when it is up to date. -/
theorem cold_of_upToDate (hlatest : LatestByTime h.latest) (hk : Kept h s o)
    (hnone : cached h s (Block.idOf h.block_duration o.ts) = none)
    (hup : UpToDate s (Block.idOf h.block_duration o.ts)) :
    ∃ block, loadColdBlock h s (Block.idOf h.block_duration o.ts) = some block ∧ o ∈ block.items := by
  rcases hk with ⟨block, hc, -⟩ | ⟨-, a, block, hlast, hvalue, hread, ho⟩
  · rw [hnone] at hc
    cases hc
  · obtain ⟨ha, hothers⟩ := hup a hlast
    have hmem : a ∈ appended s.stored (seriesOf (Block.idOf h.block_duration o.ts)) :=
      List.mem_filter.mpr ⟨ha, (List.mem_filter.mp (List.mem_of_getLast? hlast)).2⟩
    refine ⟨block, ?_, ho⟩
    unfold loadColdBlock
    cases hl : h.latest s.stored (seriesOf (Block.idOf h.block_duration o.ts)) with
    | none =>
      rw [hlatest.none hl] at hmem
      cases hmem
    | some p =>
      obtain ⟨a', ha', rfl, hmax⟩ := hlatest.newest hl
      have hsame : a'.value = a.value := (hothers a' ha').resolve_right (not_lt_of_ge (hmax a hmem))
      change h.from_slice a'.value = some block
      rw [hsame, hvalue]
      exact hread

/-- A visit of a query keeps what was written, and gives the observations of the block. -/
theorem kept_readBlock (hw : Within h P s) (hlatest : LatestByTime h.latest) {b : Int}
    (hsafe : cached h s b = none → UpToDate s b) (hk : Kept h s o) :
    Kept h (readBlock h s b).1 o ∧
    (Block.idOf h.block_duration o.ts = b → ∃ block, (readBlock h s b).2 = some block ∧ o ∈ block.items) := by
  obtain ⟨hview, htiers⟩ := readBlock_cases hw.ordered b
  have hseen : Block.idOf h.block_duration o.ts = b → ∃ block, view h s b = some block ∧ o ∈ block.items := by
    rintro rfl
    unfold view
    cases hc : cached h s (Block.idOf h.block_duration o.ts) with
    | none =>
      obtain ⟨block, hcold, ho⟩ := cold_of_upToDate hlatest hk hc (hsafe hc)
      exact ⟨block, hcold, ho⟩
    | some block =>
      rcases hk with ⟨block', hc', ho⟩ | ⟨hc', -⟩
      · rw [hc] at hc'
        exact ⟨block, rfl, Option.some.inj hc' ▸ ho⟩
      · rw [hc] at hc'
        cases hc'
  refine ⟨?_, fun hb => hview ▸ hseen hb⟩
  rcases htiers with ⟨-, hf⟩ | ⟨block, hnone, hcold, hp⟩
  · exact hk.frame hf
  · refine Kept.puts hw hp ?_
    split_ifs with hb
    · obtain ⟨block', hv, ho⟩ := hseen hb
      rw [view, hnone, hcold] at hv
      exact Option.some.inj hv ▸ ho
    · exact hk

/-! ## Runs -/

/-- The call the station is in has yet to write the observation. -/
def Pending (h : Host) (s : TimeseriesStation) (o : Observation) : Prop :=
  match s.job with
  | some (.updateRange records _ _ _ blocks) => o ∈ records ∧ Block.idOf h.block_duration o.ts ∈ blocks
  | _ => False

/-- A query has what it asks for of the blocks it visited. -/
def Collected (h : Host) (W : List Observation) : Option Job → Prop
  | some (.queryRecent from_ts to_ts blocks result) => windowFitsBlockCap h from_ts to_ts = true →
    ∀ o ∈ W, from_ts ≤ o.ts → o.ts ≤ to_ts → o ∈ result ∨ Block.idOf h.block_duration o.ts ∈ blocks
  | _ => True

/-- A query returns every observation of its window. -/
def Complete (h : Host) (W : List Observation) : Reply → Prop
  | .recent from_ts to_ts result => windowFitsBlockCap h from_ts to_ts = true →
    ∀ o ∈ W, from_ts ≤ o.ts → o.ts ≤ to_ts → o ∈ result
  | _ => True

/-- The invariant of the runs. -/
structure Durable (h : Host) (P : Observation → Prop) (W : List Observation) (s : TimeseriesStation) : Prop where
  within : Within h P s
  job : JobWithin P s.job
  notClearing : s.job ≠ some .clear
  written : ∀ o ∈ W, 0 ≤ o.ts ∧ P o
  kept : ∀ o ∈ W, Pending h s o ∨ Kept h s o
  collected : Collected h W s.job

theorem Kept.withJob (hk : Kept h s o) (job : Option Job) : Kept h { s with job := job } o := hk

variable {W : List Observation}

/-- A write of a block: what was pending for it is kept. -/
theorem Durable.updateBlock (hd : Durable h P W s) (hapart : Apart P) {records : List Observation} {query_from query_to now b : Int}
    {blocks : List Int} (hjob : s.job = some (.updateRange records query_from query_to now (b :: blocks))) (hread : PutsReadable h s)
    (hsafe : SafeVisit h s) : Durable h P W { TimeseriesStation.updateBlock h s records query_from query_to now b with
      job := some (.updateRange records query_from query_to now blocks) } := by
  unfold PutsReadable at hread
  unfold SafeVisit at hsafe
  rw [hjob] at hread hsafe
  have hrecords : ∀ o ∈ records, P o := by
    have := hd.job
    rw [hjob] at this
    exact this
  refine ⟨(hd.within.updateBlock hrecords hread).withJob _, hrecords, nofun, hd.written, fun o ho => ?_, trivial⟩
  obtain ⟨hts, hP⟩ := hd.written o ho
  have hkeep : (o ∈ records ∧ Block.idOf h.block_duration o.ts = b) ∨ Kept h s o →
      Kept h (TimeseriesStation.updateBlock h s records query_from query_to now b) o :=
    kept_updateBlock hd.within hapart hrecords hsafe hts hP
  rcases hd.kept o ho with hpend | hk
  · unfold Pending at hpend
    rw [hjob] at hpend
    obtain ⟨hr, hb⟩ := hpend
    rcases List.mem_cons.mp hb with hb | hb
    · exact Or.inr (hkeep (Or.inl ⟨hr, hb⟩))
    · exact Or.inl ⟨hr, hb⟩
  · exact Or.inr (hkeep (Or.inr hk))

/-- While a query runs nothing is pending. -/
theorem Durable.kept_of_query (hd : Durable h P W s)
    (hjob : ∀ records query_from query_to now blocks, s.job ≠ some (.updateRange records query_from query_to now blocks)) :
    ∀ o ∈ W, Kept h s o := by
  intro o ho
  refine (hd.kept o ho).resolve_left fun hpend => ?_
  unfold Pending at hpend
  split at hpend
  · rename_i heq
    exact hjob _ _ _ _ _ heq
  · exact hpend

/-- The station is in no call, or in another one that writes nothing, when everything is kept. -/
theorem Durable.withJob (hd : Durable h P W s) (hkept : ∀ o ∈ W, Kept h s o) {job : Option Job} (hjob : JobWithin P job)
    (hclear : job ≠ some .clear) (hcollected : Collected h W job) :
    Durable h P W { s with job := job } :=
  ⟨hd.within.withJob job, hjob, hclear, hd.written, fun o ho => Or.inr (hkept o ho), hcollected⟩

/-- A visit of a query keeps everything. -/
theorem Durable.readBlock (hd : Durable h P W s) (hlatest : LatestByTime h.latest) (hkept : ∀ o ∈ W, Kept h s o) {b : Int}
    (hsafe : cached h s b = none → UpToDate s b) {job : Option Job} (hjob : JobWithin P job) (hclear : job ≠ some .clear)
    (hcollected : Collected h W job) :
    Durable h P W { (TimeseriesStation.readBlock h s b).1 with job := job } :=
  ⟨(hd.within.readBlock hlatest b).1.withJob job, hjob, hclear, hd.written,
    fun o ho => Or.inr (kept_readBlock hd.within hlatest hsafe (hkept o ho)).1, hcollected⟩

/-- What a query has after one more block. -/
theorem collected_cons (hW : ∀ o ∈ W, 0 ≤ o.ts) {from_ts to_ts b : Int} {blocks : List Int} {result : List Observation}
    {block : Option Block} (hcol : Collected h W (some (.queryRecent from_ts to_ts (b :: blocks) result)))
    (hblock : ∀ o ∈ W, Block.idOf h.block_duration o.ts = b → ∃ v, block = some v ∧ o ∈ v.items) :
    Collected h W (some (.queryRecent from_ts to_ts blocks
      (result ++ (block.map (Block.window h.block_duration b from_ts to_ts)).getD []))) := by
  intro hfits o ho hfrom hto
  rcases hcol hfits o ho hfrom hto with hr | hb
  · exact Or.inl (List.mem_append_left _ hr)
  · rcases List.mem_cons.mp hb with hb | hb
    · obtain ⟨v, rfl, hin⟩ := hblock o ho hb
      refine Or.inl (List.mem_append_right _ (Block.mem_window.mpr ⟨hin, hfrom, hto, ?_⟩))
      exact hb ▸ Block.covers_idOf h.block_duration_pos (hW o ho)
    · exact Or.inr hb

/-- A step of a call keeps the invariant, and a query that returns is complete. -/
theorem Durable.advance (hd : Durable h P W s) (hlatest : LatestByTime h.latest) (hapart : Apart P) (hread : PutsReadable h s)
    (hsafe : SafeVisit h s) :
    Durable h P W (advance h s).1 ∧ Complete h W (advance h s).2 := by
  have hjob' := (hd.within.advance hlatest hd.job hread).2.1
  have hcol := hd.collected
  have hvisit := hsafe
  unfold SafeVisit at hvisit
  rcases hj : s.job with _ | ⟨records, query_from, query_to, now, blocks⟩ | ⟨from_ts, to_ts, blocks, result⟩ |
      ⟨from_ts, to_ts, blocks, result⟩ | _
  · have hadv : TimeseriesStation.advance h s = (s, .busy) := by simp [TimeseriesStation.advance, hj]
    rw [hadv]
    exact ⟨hd, trivial⟩
  · cases blocks with
    | nil =>
      have hadv : TimeseriesStation.advance h s = ({ s with job := none }, .done) := by
        simp [TimeseriesStation.advance, hj]
      rw [hadv]
      refine ⟨hd.withJob (fun o ho => (hd.kept o ho).resolve_left fun hpend => ?_) trivial nofun trivial, trivial⟩
      unfold Pending at hpend
      rw [hj] at hpend
      exact absurd hpend.2 List.not_mem_nil
    | cons b blocks =>
      have hadv : TimeseriesStation.advance h s =
          ({ TimeseriesStation.updateBlock h s records query_from query_to now b with
            job := some (.updateRange records query_from query_to now blocks) }, .pending) := by
        simp [TimeseriesStation.advance, hj]
      rw [hadv]
      exact ⟨hd.updateBlock hapart hj hread hsafe, trivial⟩
  · have hkept := hd.kept_of_query fun _ _ _ _ _ heq => by rw [hj] at heq; cases heq
    rw [hj] at hcol hvisit
    cases blocks with
    | nil =>
      have hadv : TimeseriesStation.advance h s = ({ s with job := none }, .recent from_ts to_ts result) := by
        simp [TimeseriesStation.advance, hj]
      rw [hadv]
      refine ⟨hd.withJob hkept trivial nofun trivial, fun hfits o ho hfrom hto => ?_⟩
      exact (hcol hfits o ho hfrom hto).resolve_right List.not_mem_nil
    | cons b blocks =>
      have hadv : TimeseriesStation.advance h s = ({ (TimeseriesStation.readBlock h s b).1 with
          job := some (.queryRecent from_ts to_ts blocks (result ++
            ((TimeseriesStation.readBlock h s b).2.map (Block.window h.block_duration b from_ts to_ts)).getD [])) },
          .pending) := by
        simp [TimeseriesStation.advance, hj]
      rw [hadv] at hjob' ⊢
      refine ⟨hd.readBlock hlatest hkept hvisit hjob' nofun ?_, trivial⟩
      exact collected_cons (fun o ho => (hd.written o ho).1) hcol
        fun o ho => (kept_readBlock hd.within hlatest hvisit (hkept o ho)).2
  · have hkept := hd.kept_of_query fun _ _ _ _ _ heq => by rw [hj] at heq; cases heq
    rw [hj] at hvisit
    cases blocks with
    | nil =>
      have hadv : TimeseriesStation.advance h s = ({ s with job := none }, .range from_ts to_ts (some result)) := by
        simp [TimeseriesStation.advance, hj]
      rw [hadv]
      exact ⟨hd.withJob hkept trivial nofun trivial, trivial⟩
    | cons b blocks =>
      have hadv : ∃ job reply, TimeseriesStation.advance h s = ({ (TimeseriesStation.readBlock h s b).1 with job := job }, reply) ∧
          job ≠ some .clear ∧ Collected h W job ∧ Complete h W reply := by
        unfold TimeseriesStation.advance
        rw [hj]
        dsimp only
        rcases hr : TimeseriesStation.readBlock h s b with ⟨s₁, _ | block⟩
        · exact ⟨none, .range from_ts to_ts none, rfl, nofun, trivial, trivial⟩
        · dsimp only
          split_ifs
          · exact ⟨some (.queryRange from_ts to_ts blocks (result ++ block.window h.block_duration b from_ts to_ts)), .pending,
              rfl, by simp, trivial, trivial⟩
          · exact ⟨none, .range from_ts to_ts none, rfl, nofun, trivial, trivial⟩
      obtain ⟨job, reply, hadv, hclear, hcollected, hcomplete⟩ := hadv
      rw [hadv] at hjob' ⊢
      exact ⟨hd.readBlock hlatest hkept hvisit hjob' hclear hcollected, hcomplete⟩
  · exact absurd hj hd.notClearing

theorem written_snoc (trace : List (StationAct × Reply)) (a : StationAct × Reply) :
    written (trace ++ [a]) = written trace ++ noteWritten a := by
  simp [written]

/-- A call begins: what it is to write is pending. -/
theorem Durable.begin (hd : Durable h P W s) (hj : s.job = none) {W' : List Observation} {job : Job} (hW : ∀ o ∈ W', 0 ≤ o.ts ∧ P o)
    (hpend : ∀ o ∈ W', Pending h { s with job := some job } o) (hjob : JobWithin P (some job)) (hclear : job ≠ .clear)
    (hcollected : Collected h (W ++ W') (some job)) :
    Durable h P (W ++ W') { s with job := some job } := by
  have hkept := hd.kept_of_query fun _ _ _ _ _ heq => by rw [hj] at heq; cases heq
  refine ⟨hd.within.withJob _, hjob, by simpa using hclear, fun o ho => ?_, fun o ho => ?_, hcollected⟩
  · rcases List.mem_append.mp ho with ho | ho
    · exact hd.written o ho
    · exact hW o ho
  · rcases List.mem_append.mp ho with ho | ho
    · exact Or.inr ((hkept o ho).withJob _)
    · exact Or.inl (hpend o ho)

/-- A query begins: nothing more is to be written. -/
theorem Durable.beginQuery (hd : Durable h P W s) (hj : s.job = none) {job : Job} (hjob : JobWithin P (some job)) (hclear : job ≠ .clear)
    (hcollected : Collected h W (some job)) :
    Durable h P W { s with job := some job } := by
  have hkept := hd.kept_of_query fun _ _ _ _ _ heq => by rw [hj] at heq; cases heq
  exact ⟨hd.within.withJob _, hjob, by simpa using hclear, hd.written, fun o ho => Or.inr ((hkept o ho).withJob _), hcollected⟩

/-- A query that begins visits the block of every observation of its window. -/
theorem mem_blocksOf {from_ts to_ts : Int} (hfrom : from_ts ≤ o.ts) (hto : o.ts ≤ to_ts) :
    Block.idOf h.block_duration o.ts ∈ blocksOf h from_ts to_ts :=
  Block.mem_ids.mpr ⟨Block.idOf_mono h.block_duration_pos hfrom, Block.idOf_mono h.block_duration_pos hto⟩

theorem Durable.runAppend (hd : Durable h P W s) (index : Nat) :
    Durable h P W (runAppend s index).1 := by
  obtain ⟨hw, hjob⟩ := hd.within.runAppend index
  have hsame : (TimeseriesStation.runAppend s index).1.caches = s.caches ∧
      (TimeseriesStation.runAppend s index).1.spawned = s.spawned := by
    unfold TimeseriesStation.runAppend
    split
    · split_ifs <;> exact ⟨rfl, rfl⟩
    · exact ⟨rfl, rfl⟩
  refine ⟨hw, hjob.symm ▸ hd.job, hjob.symm ▸ hd.notClearing, hd.written, fun o ho => ?_, hjob.symm ▸ hd.collected⟩
  unfold Pending Kept cached
  rw [hjob, hsame.1, hsame.2]
  exact hd.kept o ho

/-- One step, and what it returns. -/
theorem durable_step (hlatest : LatestByTime h.latest) (hapart : Apart P) {trace : List (StationAct × Reply)}
    (hd : Durable h P (written trace) s) (a : StationAct) (hs : Safe h P s a) :
    Durable h P (written (trace ++ [(a, (machine h).out s a)])) ((machine h).next s a) ∧
    Complete h (written trace) ((machine h).out s a) := by
  rw [written_snoc]
  have hbusy : Durable h P (written trace ++ []) s := by rwa [List.append_nil]
  unfold Machine.next Machine.out machine
  cases a with
  | updateRange records query_from query_to now =>
    dsimp only [step, begin']
    cases hj : s.job with
    | some j => exact ⟨hbusy, trivial⟩
    | none =>
      refine ⟨hd.begin hj (fun o ho => ?_) (fun o ho => ?_) hs nofun trivial, trivial⟩
      · obtain ⟨hr, hw⟩ := List.mem_filter.mp ho
        exact ⟨(of_decide_eq_true hw).2.2, hs o hr⟩
      · obtain ⟨hr, hw⟩ := List.mem_filter.mp ho
        have hw := of_decide_eq_true hw
        exact ⟨hr, mem_blocksOf hw.1 hw.2.1⟩
  | queryRecent from_ts to_ts =>
    dsimp only [step, begin']
    cases hj : s.job with
    | some j => exact ⟨hbusy, trivial⟩
    | none =>
      refine ⟨(List.append_nil (written trace)).symm ▸ hd.beginQuery hj (fun o ho => absurd ho List.not_mem_nil) nofun
        fun hfits o ho hfrom hto => Or.inr ?_, trivial⟩
      rw [recentBlocks_of_fits hfits]
      exact mem_blocksOf hfrom hto
  | queryRange from_ts to_ts =>
    dsimp only [step, begin']
    cases hj : s.job with
    | some j => exact ⟨hbusy, trivial⟩
    | none =>
      exact ⟨(List.append_nil (written trace)).symm ▸ hd.beginQuery hj (fun o ho => absurd ho List.not_mem_nil) nofun trivial, trivial⟩
  | clear => exact hs.elim
  | advance =>
    obtain ⟨hd', hcomplete⟩ := hd.advance hlatest hapart hs.1 hs.2
    exact ⟨(List.append_nil (written trace)).symm ▸ hd', hcomplete⟩
  | append index =>
    refine ⟨(List.append_nil (written trace)).symm ▸ hd.runAppend index, ?_⟩
    dsimp only [step, runAppend]
    split
    · split_ifs <;> trivial
    · trivial

instance (s : TimeseriesStation) (b : Int) : Decidable (UpToDate s b) :=
  decidable_of_iff (∀ a ∈ (appended s.spawned (seriesOf b)).getLast?.toList,
      a ∈ s.stored ∧ ∀ a' ∈ appended s.stored (seriesOf b), a'.value = a.value ∨ a'.ts < a.ts)
    (by simp [UpToDate])

instance (h : Host) (s : TimeseriesStation) : Decidable (SafeVisit h s) := by
  unfold SafeVisit; split <;> infer_instance

instance (h : Host) (P : Observation → Prop) [DecidablePred P] (s : TimeseriesStation) : ∀ a, Decidable (Safe h P s a)
  | .advance => inferInstanceAs (Decidable (PutsReadable h s ∧ SafeVisit h s))
  | .updateRange records _ _ _ => inferInstanceAs (Decidable (∀ o ∈ records, P o))
  | .queryRecent _ _ => isTrue trivial
  | .queryRange _ _ => isTrue trivial
  | .clear => isFalse nofun
  | .append _ => isTrue trivial

/-- Two updates of a block and a query of it. -/
def updatesAndQuery : List StationAct := twoUpdates ++ ([.queryRecent 0 9, .advance] : List StationAct)

/-- The first two blocks as they are evicted, with their JSON. -/
def evictedCpus : List (Block × String) :=
  [(⟨[cpuAt 0], (0, 9), 0⟩, blockJson (cpuJson "0") "0,9" "0"),
    (⟨[cpuAt 10], (10, 19), 0⟩, blockJson (cpuJson "10") "10,19" "0")]

/-- One update writes an observation to each of 33 blocks, which evicts the first one; another update writes to the first block
again, which evicts the second one; the append of each runs at once, and a query follows. -/
def writeEvicted : List StationAct :=
  .updateRange ((List.range 33).map fun i : Nat => cpuAt (10 * (i : Int))) 0 329 0 :: List.replicate 34 .advance ++
    ([.append 0, .updateRange [cpuAt 1] 0 9 1, .advance, .append 1, .advance, .queryRecent 0 9, .advance] : List StationAct)

end TimeseriesStation

end Opsense
