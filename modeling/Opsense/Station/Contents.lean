import Opsense.Lib.Entries
import Opsense.Station.Station

/-!
# What a station holds

Every observation a station holds, in its cache, on its backend, in an append in flight or in the call it is in, was passed to
it: `Within` says that a set of observations contains them all, and every step keeps it, given that the records of the calls
are in the set and that every block `update_range` puts can be read back from its JSON.
-/

namespace Opsense

namespace TimeseriesStation

/-- The JSON of the block can be read back. -/
def ReadsBack (h : Host) (block : Block) : Prop := h.from_slice (h.to_vec block) = some block

/-- The block that `update_range` puts next can be read back from its JSON. -/
def PutsReadable (h : Host) (s : TimeseriesStation) : Prop :=
  match s.job with
  | some (.updateRange records query_from query_to now (b :: _)) =>
    (cached h s b = none ∧ (updated h s records query_from query_to now b).items = []) ∨
    ReadsBack h (updated h s records query_from query_to now b)
  | _ => True

/-- The block holds only the given observations and can be read back. -/
structure Genuine (h : Host) (P : Observation → Prop) (block : Block) : Prop where
  within : ∀ o ∈ block.items, P o
  readsBack : ReadsBack h block

/-- The append of a block of the given observations. -/
def Made (h : Host) (P : Observation → Prop) (a : Append) : Prop :=
  ∃ b block, IsSnapshot h b block a ∧ Genuine h P block

/-- The station holds only the given observations. -/
structure Within (h : Host) (P : Observation → Prop) (s : TimeseriesStation) : Prop where
  ordered : Ordered h s
  inCache : ∀ b block, cached h s b = some block → Genuine h P block
  inFlight : ∀ i a, s.spawned[i]? = some a → i ∉ s.executed → Made h P a
  stored : ∀ a ∈ s.stored, Made h P a

/-- The call carries only the given observations. -/
def JobWithin (P : Observation → Prop) : Option Job → Prop
  | some (.updateRange records _ _ _ _) => ∀ o ∈ records, P o
  | some (.queryRecent _ _ _ result) => ∀ o ∈ result, P o
  | some (.queryRange _ _ _ result) => ∀ o ∈ result, P o
  | some .clear => True
  | none => True

/-- The reply has only the given observations. -/
def ReplyWithin (P : Observation → Prop) : Reply → Prop
  | .recent _ _ result => ∀ o ∈ result, P o
  | .range _ _ result => ∀ o ∈ result.getD [], P o
  | _ => True

variable {h : Host} {P : Observation → Prop} {s s' : TimeseriesStation}

variable {Q : Observation → Prop}

theorem Genuine.mono (hPQ : ∀ o, P o → Q o) {block : Block} (hb : Genuine h P block) :
    Genuine h Q block :=
  ⟨fun o ho => hPQ o (hb.within o ho), hb.readsBack⟩

theorem Made.mono (hPQ : ∀ o, P o → Q o) {a : Append} (ha : Made h P a) : Made h Q a := by
  obtain ⟨b, block, hsnap, hb⟩ := ha
  exact ⟨b, block, hsnap, hb.mono hPQ⟩

theorem Within.mono (hPQ : ∀ o, P o → Q o) (hw : Within h P s) : Within h Q s :=
  ⟨hw.ordered, fun b block hb => (hw.inCache b block hb).mono hPQ, fun i a ha hi => (hw.inFlight i a ha hi).mono hPQ,
    fun a ha => (hw.stored a ha).mono hPQ⟩

theorem Within.withJob (hw : Within h P s) (job : Option Job) : Within h P { s with job := job } :=
  ⟨hw.ordered, hw.inCache, hw.inFlight, hw.stored⟩

theorem Within.frame (hw : Within h P s) (hf : Frame h s s') : Within h P s' := by
  refine ⟨hf.ordered, fun b block hb => ?_, fun i a ha hi => ?_, fun a ha => ?_⟩
  · exact hw.inCache b block (hf.cached b ▸ hb)
  · rw [hf.spawned] at ha
    rw [hf.executed] at hi
    exact hw.inFlight i a ha hi
  · exact hw.stored a (hf.stored ▸ ha)

/-- One more append in flight. -/
theorem made_of_snoc {spawned : List Append} {executed : List Nat} {a : Append} (ha : Made h P a)
    (hin : ∀ i a, spawned[i]? = some a → i ∉ executed → Made h P a) {i : Nat} {a' : Append}
    (hi : (spawned ++ [a])[i]? = some a') (hex : i ∉ executed) : Made h P a' := by
  rcases getElem?_snoc hi with hi | ⟨-, rfl⟩
  · exact hin i a' hi hex
  · exact ha

theorem Within.puts (hw : Within h P s) {b : Int} {block : Block} (hp : Puts h s b block s')
    (hblock : Genuine h P block) : Within h P s' := by
  have hcached : ∀ b' block', (cached h s' b' = if b' = b then some block else cached h s b') →
      cached h s' b' = some block' → Genuine h P block' := by
    intro b' block' heq hb'
    rw [heq] at hb'
    split_ifs at hb' with h1
    · exact Option.some.inj hb' ▸ hblock
    · exact hw.inCache b' block' hb'
  refine ⟨hp.ordered, ?_, ?_, fun a ha => hw.stored a (hp.stored ▸ ha)⟩
  · intro b' block' hb'
    rcases hp.tiers with ⟨-, -, hpeek⟩ | ⟨-, -, hpeek⟩ | ⟨old, v, -, -, -, -, hpeek⟩
    · exact hcached b' block' (hpeek b') hb'
    · exact hcached b' block' (hpeek b') hb'
    · by_cases hold : b' = old ∧ b' ≠ b
      · rw [hpeek, if_neg hold.2, if_pos hold.1] at hb'
        cases hb'
      · refine hcached b' block' ?_ hb'
        rw [hpeek]
        split_ifs with h1 h2
        · rfl
        · exact absurd ⟨h2, h1⟩ hold
        · rfl
  · intro i a ha hi
    rw [hp.executed] at hi
    rcases hp.tiers with ⟨-, ⟨a', hsnap, -, hspawn⟩, -⟩ | ⟨-, hspawn, -⟩ | ⟨old, v, -, -, hold, ⟨a', hsnap, -, hspawn⟩, -⟩
    · rw [hspawn] at ha
      exact made_of_snoc ⟨b, block, hsnap, hblock⟩ hw.inFlight ha hi
    · exact hw.inFlight i a (hspawn ▸ ha) hi
    · rw [hspawn] at ha
      exact made_of_snoc ⟨old, v, hsnap, hw.inCache old v hold⟩ hw.inFlight ha hi

/-- A block of the backend was made of the observations. -/
theorem Within.cold (hw : Within h P s) (hlatest : LatestByTime h.latest) {b : Int} {block : Block}
    (hb : loadColdBlock h s b = some block) : Genuine h P block := by
  obtain ⟨p, hp, hfrom⟩ := Option.bind_eq_some_iff.mp hb
  obtain ⟨a, ha, rfl, -⟩ := hlatest.newest hp
  obtain ⟨b', block', hsnap, hgen⟩ := hw.stored a (List.mem_filter.mp ha).1
  have hvalue : h.from_slice a.value = some block' := by rw [hsnap.2]; exact hgen.readsBack
  obtain rfl := Option.some.inj (hfrom.symm.trans hvalue)
  exact hgen

theorem Within.view (hw : Within h P s) (hlatest : LatestByTime h.latest) {b : Int} {block : Block}
    (hb : view h s b = some block) : Genuine h P block := by
  unfold TimeseriesStation.view at hb
  cases hc : cached h s b with
  | some block' =>
    rw [hc] at hb
    exact Option.some.inj hb ▸ hw.inCache b block' hc
  | none =>
    rw [hc] at hb
    exact hw.cold hlatest hb

theorem updated_within (hw : Within h P s) {records : List Observation} (hrecords : ∀ o ∈ records, P o)
    {query_from query_to now b : Int} : ∀ o ∈ (updated h s records query_from query_to now b).items, P o := by
  intro o ho
  rcases Block.mem_of_mem_update ho with hin | ⟨hin, -⟩
  · cases hc : cached h s b with
    | some block =>
      rw [hc] at hin
      exact (hw.inCache b block hc).within o hin
    | none =>
      rw [hc] at hin
      cases hin
  · exact hrecords o hin

theorem Within.updateBlock (hw : Within h P s) {records : List Observation} (hrecords : ∀ o ∈ records, P o)
    {query_from query_to now b : Int}
    (hread : (cached h s b = none ∧ (updated h s records query_from query_to now b).items = []) ∨
      ReadsBack h (updated h s records query_from query_to now b)) :
    Within h P (updateBlock h s records query_from query_to now b) := by
  rcases updateBlock_cases hw.ordered records query_from query_to now b with ⟨-, -, hf⟩ | ⟨hput, hp⟩
  · exact hw.frame hf
  · refine hw.puts hp ⟨updated_within hw hrecords, hread.resolve_left ?_⟩
    rintro ⟨hnone, hempty⟩
    exact hput.elim (fun hne => hne hnone) fun hne => hne hempty

theorem Within.readBlock (hw : Within h P s) (hlatest : LatestByTime h.latest) (b : Int) :
    Within h P (readBlock h s b).1 ∧ ∀ block, (readBlock h s b).2 = some block → ∀ o ∈ block.items, P o := by
  obtain ⟨hview, htiers⟩ := readBlock_cases hw.ordered b
  refine ⟨?_, fun block hb => (hw.view hlatest (hview ▸ hb)).within⟩
  rcases htiers with ⟨-, hf⟩ | ⟨block, -, hcold, hp⟩
  · exact hw.frame hf
  · exact hw.puts hp (hw.cold hlatest hcold)

theorem mem_append_window {result : List Observation} {b from_ts to_ts : Int} {block : Option Block}
    (hresult : ∀ o ∈ result, P o) (hblock : ∀ v, block = some v → ∀ o ∈ v.items, P o) :
    ∀ o ∈ result ++ (block.map (Block.window h.block_duration b from_ts to_ts)).getD [], P o := by
  intro o ho
  rcases List.mem_append.mp ho with ho | ho
  · exact hresult o ho
  · cases block with
    | none => cases ho
    | some v => exact hblock v rfl o (Block.mem_window.mp ho).1

/-- A step of the call keeps the station within the observations, and so is what it returns. -/
theorem Within.advance (hlatest : LatestByTime h.latest) (hw : Within h P s) (hjob : JobWithin P s.job)
    (hread : PutsReadable h s) :
    Within h P (advance h s).1 ∧ JobWithin P (advance h s).1.job ∧ ReplyWithin P (advance h s).2 := by
  unfold PutsReadable at hread
  unfold TimeseriesStation.advance
  split
  · exact ⟨hw, hjob, trivial⟩
  · exact ⟨hw.withJob _, trivial, trivial⟩
  · rename_i records query_from query_to now b blocks heq
    rw [heq] at hjob hread
    exact ⟨(hw.updateBlock hjob hread).withJob _, hjob, trivial⟩
  · rename_i from_ts to_ts result heq
    rw [heq] at hjob
    exact ⟨hw.withJob _, trivial, hjob⟩
  · rename_i from_ts to_ts b blocks result heq
    rw [heq] at hjob
    obtain ⟨hw', hblock⟩ := hw.readBlock hlatest b
    exact ⟨hw'.withJob _, mem_append_window hjob hblock, trivial⟩
  · rename_i from_ts to_ts result heq
    rw [heq] at hjob
    exact ⟨hw.withJob _, trivial, hjob⟩
  · rename_i from_ts to_ts b blocks result heq
    rw [heq] at hjob
    obtain ⟨hw', hblock⟩ := hw.readBlock hlatest b
    split
    · rename_i s₁ hr
      rw [hr] at hw'
      exact ⟨hw'.withJob _, trivial, by simp [ReplyWithin]⟩
    · rename_i s₁ block hr
      rw [hr] at hw' hblock
      split_ifs
      · exact ⟨hw'.withJob _, @mem_append_window h _ _ _ _ _ (some block) hjob hblock, trivial⟩
      · exact ⟨hw'.withJob _, trivial, by simp [ReplyWithin]⟩
  · exact ⟨⟨hw.ordered, hw.inCache, hw.inFlight, by simp⟩, trivial, trivial⟩

/-- An append that runs was in flight. -/
theorem Within.runAppend (hw : Within h P s) (index : Nat) :
    Within h P (runAppend s index).1 ∧ (runAppend s index).1.job = s.job := by
  unfold TimeseriesStation.runAppend
  split
  · rename_i a ha
    split_ifs with hex
    · exact ⟨hw, rfl⟩
    · refine ⟨⟨hw.ordered, hw.inCache, fun i a' ha' hi => ?_, fun a' ha' => ?_⟩, rfl⟩
      · exact hw.inFlight i a' ha' fun hin => hi (List.mem_append_left _ hin)
      · rcases List.mem_append.mp ha' with hin | hin
        · exact hw.stored a' hin
        · rw [List.mem_singleton.mp hin]
          exact hw.inFlight index a ha hex
  · exact ⟨hw, rfl⟩

theorem refines_open (h : Host) (stored : List Append) :
    LruCache.Shared.Refines h.hash HOT_BLOCKS (open' stored).caches Recency.empty :=
  (LruCache.Shared.simulates h.hash HOT_BLOCKS).init

theorem cached_open {stored : List Append} (h : Host) (b : Int) : cached h (open' stored) b = none :=
  ((refines_open h stored).peek b).trans (Recency.find_empty b)

/-- A station that was just opened holds nothing. -/
theorem open_within (h : Host) (P : Observation → Prop) : Within h P (open' []) := by
  refine ⟨⟨_, refines_open h []⟩, fun b block hb => ?_, nofun, nofun⟩
  rw [cached_open] at hb
  cases hb

instance (h : Host) (block : Block) : Decidable (ReadsBack h block) := by
  unfold ReadsBack; infer_instance

instance decidablePut (h : Host) (s : TimeseriesStation) (records : List Observation) (query_from query_to now b : Int) :
    Decidable ((cached h s b = none ∧ (updated h s records query_from query_to now b).items = []) ∨
      ReadsBack h (updated h s records query_from query_to now b)) :=
  inferInstance

instance (h : Host) : ∀ s, Decidable (PutsReadable h s)
  | ⟨caches, spawned, executed, stored, some (.updateRange records query_from query_to now (b :: blocks))⟩ =>
    decidablePut h ⟨caches, spawned, executed, stored, some (.updateRange records query_from query_to now (b :: blocks))⟩
      records query_from query_to now b
  | ⟨_, _, _, _, none⟩ => isTrue trivial
  | ⟨_, _, _, _, some .clear⟩ => isTrue trivial
  | ⟨_, _, _, _, some (.updateRange _ _ _ _ [])⟩ => isTrue trivial
  | ⟨_, _, _, _, some (.queryRecent _ _ _ _)⟩ => isTrue trivial
  | ⟨_, _, _, _, some (.queryRange _ _ _ _)⟩ => isTrue trivial

/-! ## A station to run -/

/-- The value 1.0 of a metric. -/
def cpuAt (ts : Int) : Observation :=
  ⟨ts, "cpu", .metric, .raw, 0x3FF0000000000000, ⟨[], noLabels_sorted⟩, none⟩

/-- The JSON of such an observation. -/
def cpuJson (ts : String) : String :=
  "\x7b\"ts\":" ++ ts ++ ",\"metric_id\":\"cpu\",\"kind\":\"metric\",\"signal\":\"raw\",\"value\":1.0," ++
    "\"labels\":\x7b\x7d,\"severity\":null\x7d"

/-- The JSON of a block. -/
def blockJson (items range last_updated : String) : String :=
  "\x7b\"items\":[" ++ items ++ "],\"range\":[" ++ range ++ "],\"last_updated\":" ++ last_updated ++ "\x7d"

/-- A host with blocks of ten seconds, on a lake, that writes and reads the JSON of the given blocks. -/
def hostOf (texts : List (Block × String)) : Host where
  block_duration := 10
  block_duration_pos := by decide
  hash := fun _ => ⟨0, by decide⟩
  to_vec := fun block => intoBytes (((texts.find? fun t => t.1 = block).map Prod.snd).getD "")
  from_slice := fun bytes => (texts.find? fun t => intoBytes t.2 = bytes).map Prod.fst
  clock := id
  latest := fun log series => (Log.newest Append.ts (appended log series)).map Append.point

/-- A block that was updated, with its JSON. -/
def oneCpu : Block × String := (⟨[cpuAt 1], (0, 9), 0⟩, blockJson (cpuJson "1") "0,9" "0")

/-- Two updates of one block, which spawn the append of the second. -/
def twoUpdates : List StationAct :=
  [.updateRange [cpuAt 1] 0 9 0, .advance, .advance, .updateRange [cpuAt 1] 0 9 0, .advance, .advance]

end TimeseriesStation

end Opsense
