import Opsense.Station.SetStore
import Opsense.Storage.Inner

/-!
# The stations of nodes that are started again

`HttpOrigin::run` and `HttpSource::run` of `opsense-components/src/http.rs`, with `Context::registry` and `Context::station` of
`opsense-core/src/context.rs`, on stations in memory. Nodes are started and stopped in any order while the context
stays. A node builds a station when it starts and offers it to the context, which keeps the first of an id for good. A source then
asks the context for the station of its id, but an origin writes to the one that it built. Where the id was not taken, what
a running node wrote is in the answers of the station of its id (`writer_shares_station`).
-/

namespace Opsense

namespace Http

open MemoryStation

inductive Node where
  | httpOrigin (id : String)
  | httpSource (id : String) (station : Bool)
deriving DecidableEq

def Node.id : Node → String
  | .httpOrigin id => id
  | .httpSource id _ => id

/-- Where the `run` of a node stands: before it builds its station, before it offers it, before it asks for the station of its id, in
its loop with the station that it writes to, and dropped. -/
inductive Stage where
  | begun
  | built (station : Nat)
  | offered
  | running (station : Option Nat)
  | stopped
deriving DecidableEq

structure NodeRun where
  node : Node
  stage : Stage
deriving DecidableEq

inductive ErrorKind where
  | alreadyExists
  | notFound
deriving DecidableEq

/-- The stations of a context by their ids. A station is given by its place among all that were built. -/
abbrev Context := Table String Nat

/-- `Context::registry` -/
def Context.registry (stations : Context) (id : String) (station : Nat) : Except (ErrorKind × String) Context :=
  if id ∈ stations then .error (.alreadyExists, s!"Station '{id}' already registered") else .ok (stations.insert id station)

/-- `Context::station` -/
def Context.station (stations : Context) (name : String) : Except (ErrorKind × String) Nat :=
  match stations.lookup name with
  | none => .error (.notFound, s!"Station '{name}' not found")
  | some station => .ok station

/-- How both nodes call `Context::registry`: an id that is taken is not an error to them. -/
def Context.offer (stations : Context) (id : String) (station : Nat) : Except (ErrorKind × String) Context :=
  match stations.registry id station with
  | .error (.alreadyExists, _) => .ok stations
  | registered => registered

/-- A station that a node of the id built. -/
structure Built where
  id : String
  caches : MemoryStation

structure World where
  context : Context
  stations : List Built
  runs : List NodeRun

/-- A node starts, goes a step on the way to its loop, gets a batch in its loop, or is dropped; or a station is read. -/
inductive Act where
  | start (node : Node)
  | advance (run : Nat)
  | write (run : Nat) (batch : List Observation) (now : Int)
  | stop (run : Nat)
  | query (id : String) (from_ts to_ts : Int)
deriving DecidableEq

def World.new : World := ⟨∅, [], []⟩

/-- The node builds a station. -/
def Node.hasStation : Node → Bool
  | .httpOrigin _ => true
  | .httpSource _ station => station

/-- Where a node goes on after it offered its station: an origin with what it built, a source to ask the context. -/
def Node.afterOffer (node : Node) (station : Nat) : Stage :=
  match node with
  | .httpOrigin _ => .running (some station)
  | .httpSource _ _ => .offered

/-- The next step of a run on the way to its loop. -/
def advance (w : World) (run : NodeRun) : World × Stage :=
  match run.stage with
  | .begun =>
    if run.node.hasStation then
      ({ w with stations := w.stations ++ [⟨run.node.id, LruCache.Shared.new HOT_BLOCKS⟩] }, .built w.stations.length)
    else (w, .running none)
  | .built station =>
    match w.context.offer run.node.id station with
    | .error _ => (w, .stopped)
    | .ok context => ({ w with context }, run.node.afterOffer station)
  | .offered =>
    match w.context.station run.node.id with
    | .error _ => (w, .stopped)
    | .ok station => (w, .running (some station))
  | stage => (w, stage)

/-- What a node passes to `update_range` for a batch. -/
def Node.update (node : Node) (batch : List Observation) (now : Int) : Update :=
  let from_ts := (batch.map Observation.ts).min?.getD now
  let to_ts := (batch.map Observation.ts).max?.getD now
  match node with
  | .httpOrigin _ => ⟨batch, from_ts, to_ts, now⟩
  | .httpSource _ _ => ⟨batch, from_ts, to_ts, to_ts⟩

variable (host : String → Host)

/-- A call on a station that was built. -/
def World.call (w : World) (station : Nat) (a : MemoryAct) : World × Option Reply :=
  match w.stations[station]? with
  | none => (w, none)
  | some s =>
    let r := MemoryStation.step (host s.id) s.caches a
    ({ w with stations := w.stations.set station { s with caches := r.1 } }, some r.2)

def step (w : World) : Act → World × Option Reply
  | .start node => ({ w with runs := w.runs ++ [⟨node, .begun⟩] }, none)
  | .advance i =>
    match w.runs[i]? with
    | none => (w, none)
    | some run =>
      let (w, stage) := advance w run
      ({ w with runs := w.runs.set i { run with stage } }, none)
  | .write i batch now =>
    match w.runs[i]? with
    | some ⟨node, .running (some station)⟩ =>
      if batch = [] then (w, none) else w.call host station (.updateRange (node.update batch now))
    | _ => (w, none)
  | .stop i =>
    match w.runs[i]? with
    | none => (w, none)
    | some run => ({ w with runs := w.runs.set i { run with stage := .stopped } }, none)
  | .query id from_ts to_ts =>
    match w.context.station id with
    | .error _ => (w, none)
    | .ok station => w.call host station (.queryRecent from_ts to_ts)

def machine : Machine World Act (Option Reply) := ⟨.new, step host⟩

/-! ## What was done -/

/-- The calls on every station, and what every run wrote. -/
structure Record where
  calls : Nat → List MemoryAct
  written : Nat → List Observation

def Record.new : Record := ⟨fun _ => [], fun _ => []⟩

def Record.call (r : Record) (station : Nat) (a : MemoryAct) : Record :=
  { r with calls := Function.update r.calls station (r.calls station ++ [a]) }

def Record.write (r : Record) (i : Nat) (batch : List Observation) : Record :=
  { r with written := Function.update r.written i (r.written i ++ batch) }

def Record.note (r : Record) (w : World) : Act → Record
  | .write i batch now =>
    match w.runs[i]? with
    | some ⟨node, .running (some station)⟩ =>
      if batch = [] then r else (r.call station (.updateRange (node.update batch now))).write i batch
    | _ => r
  | .query id from_ts to_ts =>
    match w.context.station id with
    | .error _ => r
    | .ok station => r.call station (.queryRecent from_ts to_ts)
  | _ => r

/-- The machine with a record of what was done. -/
def watched : Machine (World × Record) Act (Option Reply) := (machine host).watched .new fun r w a => r.note w a

/-- The blocks of every station have room in its cache. -/
def NoEviction (w : World) (r : Record) : Prop :=
  ∀ k : Fin w.stations.length, Fits (host w.stations[k].id) HOT_BLOCKS (updates (r.calls k))

/-- Every observation that a running node has written is in the answers of the station of its id, when the window is within the cap of
blocks and has the time of the observation. -/
def Returned (w : World) (r : Record) : Prop :=
  ∀ (i : Nat) node station, w.runs[i]? = some ⟨node, .running (some station)⟩ → ∀ o ∈ r.written i, ∀ from_ts to_ts,
    TimeseriesStation.windowFitsBlockCap (host node.id) from_ts to_ts = true → from_ts ≤ o.ts → o.ts ≤ to_ts →
    ∃ result, (step host w (.query node.id from_ts to_ts)).2 = some (.recent from_ts to_ts result) ∧ o ∈ result

/-- An origin offers its station when there is none of its id. A node writes observations whose times are in their blocks, and none
that has the identity of another one of the station. -/
def Orderly (w : World) (r : Record) : Act → Prop
  | .advance i =>
    match w.runs[i]? with
    | some ⟨.httpOrigin id, .built _⟩ => id ∉ w.context
    | _ => True
  | .write i batch _ =>
    match w.runs[i]? with
    | some ⟨node, .running (some station)⟩ => ∀ o ∈ batch,
      Block.Covers (host node.id).block_duration (Block.idOf (host node.id).block_duration o.ts) o.ts ∧
      ∀ o' ∈ written (updates (r.calls station)) ++ batch, obsIdentity o = obsIdentity o' → o = o'
    | _ => True
  | _ => True

instance (w : World) (r : Record) : Decidable (NoEviction host w r) := by
  unfold NoEviction; infer_instance

instance (w : World) (r : Record) (a : Act) : Decidable (Orderly host w r a) := by
  unfold Orderly; (repeat' split) <;> infer_instance

variable {host} {w : World} {r : Record}

/-! ## Where a run goes -/

theorem offer_eq (stations : Context) (id : String) (station : Nat) :
    stations.offer id station = .ok (if id ∈ stations then stations else stations.insert id station) := by
  unfold Context.offer Context.registry
  split_ifs <;> rfl

theorem station_of_lookup {stations : Context} {name : String} {station : Nat} (h : stations.lookup name = some station) :
    stations.station name = .ok station := by
  unfold Context.station
  rw [h]

theorem lookup_of_station {stations : Context} {name : String} {station : Nat} (h : stations.station name = .ok station) :
    stations.lookup name = some station := by
  unfold Context.station at h
  cases hlookup : stations.lookup name with
  | none =>
    rw [hlookup] at h
    cases h
  | some station' =>
    rw [hlookup] at h
    exact congrArg some (Except.ok.inj h)

/-- An offer keeps the stations that are there. -/
theorem lookup_offer {stations : Context} {id name : String} {station k : Nat} (h : stations.lookup name = some k) :
    (if id ∈ stations then stations else stations.insert id station).lookup name = some k := by
  split_ifs with hid
  · exact h
  · have hne : name ≠ id := by
      rintro rfl
      exact hid (Finmap.lookup_isSome.mp (h ▸ rfl))
    rw [Finmap.lookup_insert_of_ne _ hne, h]

/-- A step on the way to the loop builds a station, offers the one that was built, or changes nothing but the run, which is in its loop
with a station only when it was before or the context has the station. -/
theorem advance_cases (w : World) (run : NodeRun) :
    (∃ stage, advance w run = (w, stage) ∧ (∀ k, stage ≠ .built k) ∧
      ∀ k, stage = .running (some k) → run.stage = .running (some k) ∨ w.context.lookup run.node.id = some k) ∨
    advance w run =
      ({ w with stations := w.stations ++ [⟨run.node.id, LruCache.Shared.new HOT_BLOCKS⟩] }, .built w.stations.length) ∨
    ∃ k, run.stage = .built k ∧ advance w run =
      ({ w with context := if run.node.id ∈ w.context then w.context else w.context.insert run.node.id k }, run.node.afterOffer k) := by
  unfold advance
  cases run.stage with
  | begun =>
    dsimp only
    by_cases hstation : run.node.hasStation = true
    · rw [if_pos hstation]
      exact Or.inr (Or.inl rfl)
    · rw [if_neg hstation]
      exact Or.inl ⟨_, rfl, by simp, by simp⟩
  | built k =>
    refine Or.inr (Or.inr ⟨k, rfl, ?_⟩)
    dsimp only
    rw [offer_eq]
  | offered =>
    left
    dsimp only
    cases hstation : w.context.station run.node.id with
    | error e => exact ⟨_, rfl, by simp, by simp⟩
    | ok k =>
      refine ⟨_, rfl, by simp, ?_⟩
      intro k' hk'
      cases hk'
      exact Or.inr (lookup_of_station hstation)
  | running station => exact Or.inl ⟨_, rfl, by simp, fun k hk => Or.inl hk⟩
  | stopped => exact Or.inl ⟨_, rfl, by simp, by simp⟩

theorem afterOffer_ne_built (node : Node) (k k' : Nat) : node.afterOffer k ≠ .built k' := by
  cases node <;> simp [Node.afterOffer]

/-! ## What the batches of a node reach -/

theorem Node.update_records (node : Node) (batch : List Observation) (now : Int) : (node.update batch now).records = batch := by
  cases node <;> rfl

variable {batch : List Observation}

/-- The range of an update has the times of its batch. -/
theorem Node.update_range (node : Node) {now : Int} {o : Observation} (ho : o ∈ batch) :
    (node.update batch now).query_from ≤ o.ts ∧ o.ts ≤ (node.update batch now).query_to := by
  have hts : o.ts ∈ batch.map Observation.ts := List.mem_map_of_mem ho
  have hfrom : (batch.map Observation.ts).min?.getD now ≤ o.ts := by
    cases hmin : (batch.map Observation.ts).min? with
    | none => exact absurd (List.min?_eq_none_iff.mp hmin) (List.ne_nil_of_mem hts)
    | some m => exact (List.min?_eq_some_iff.mp hmin).2 _ hts
  have hto : o.ts ≤ (batch.map Observation.ts).max?.getD now := by
    cases hmax : (batch.map Observation.ts).max? with
    | none => exact absurd (List.max?_eq_none_iff.mp hmax) (List.ne_nil_of_mem hts)
    | some m => exact (List.max?_eq_some_iff.mp hmax).2 _ hts
  cases node <;> exact ⟨hfrom, hto⟩

/-- What reached a block stays there. -/
theorem mem_fed_append {d b : Int} {us : List Update} {o : Observation} (ho : o ∈ fed d us b) (us' : List Update) :
    o ∈ fed d (us ++ us') b := by
  unfold fed at ho ⊢
  rw [List.flatMap_append]
  exact List.mem_append_left _ ho

theorem updates_append (as bs : List MemoryAct) : updates (as ++ bs) = updates as ++ updates bs := List.filterMap_append

/-- Identities stay apart when no new record has the identity of another record. -/
theorem apart_snoc {us : List Update} (hapart : Apart us) {u : Update}
    (hnew : ∀ o ∈ u.records, ∀ o' ∈ written us ++ u.records, obsIdentity o = obsIdentity o' → o = o') : Apart (us ++ [u]) := by
  have hwritten : written (us ++ [u]) = written us ++ u.records := by simp [written]
  intro o ho o' ho' heq
  rw [hwritten] at ho ho'
  rcases List.mem_append.mp ho with hold | hin
  · rcases List.mem_append.mp ho' with hold' | hin'
    · exact hapart o hold o' hold' heq
    · exact (hnew o' hin' o ho heq.symm).symm
  · exact hnew o hin o' ho' heq

/-! ## What a call adds to the record -/

theorem Record.call_self (r : Record) (k : Nat) (a : MemoryAct) : (r.call k a).calls k = r.calls k ++ [a] := Function.update_self _ _ _

theorem Record.call_other (r : Record) {k k' : Nat} (h : k' ≠ k) (a : MemoryAct) : (r.call k a).calls k' = r.calls k' :=
  Function.update_of_ne h _ _

theorem Record.write_self (r : Record) (i : Nat) (batch : List Observation) : (r.write i batch).written i = r.written i ++ batch :=
  Function.update_self _ _ _

theorem Record.write_other (r : Record) {i j : Nat} (h : j ≠ i) (batch : List Observation) : (r.write i batch).written j = r.written j :=
  Function.update_of_ne h _ _

/-- What reached a block reaches it after one more call. -/
theorem mem_fed_call {d b : Int} {k : Nat} {o : Observation} (h : o ∈ fed d (updates (r.calls k)) b) (k' : Nat) (a : MemoryAct) :
    o ∈ fed d (updates ((r.call k' a).calls k)) b := by
  by_cases heq : k = k'
  · subst heq
    rw [Record.call_self, updates_append]
    exact mem_fed_append h _
  · rw [Record.call_other r heq]
    exact h

theorem call_eq {k : Nat} {s : Built} (hs : w.stations[k]? = some s) (a : MemoryAct) : (w.call host k a).1 =
    { w with stations := w.stations.set k { s with caches := (MemoryStation.step (host s.id) s.caches a).1 } } := by
  unfold World.call
  rw [hs]

/-! ## What every step keeps -/

/-- The stations are as their calls made them, those of the context were built for their ids, a node in its loop has the station of its
id, and what a run wrote reached that station. -/
structure Kept (host : String → Host) (w : World) (r : Record) : Prop where
  made : ∀ (k : Nat) (s : Built), w.stations[k]? = some s → s.caches = (MemoryStation.machine (host s.id) HOT_BLOCKS).state (r.calls k)
  uncalled : ∀ k, w.stations.length ≤ k → r.calls k = []
  unstarted : ∀ i, w.runs.length ≤ i → r.written i = []
  registered : ∀ id k, w.context.lookup id = some k → ∃ s, w.stations[k]? = some s ∧ s.id = id
  own : ∀ (i : Nat) node k, w.runs[i]? = some ⟨node, .built k⟩ → ∃ s, w.stations[k]? = some s ∧ s.id = node.id
  shares : ∀ (i : Nat) node k, w.runs[i]? = some ⟨node, .running (some k)⟩ → w.context.lookup node.id = some k
  reached : ∀ (i : Nat) run, w.runs[i]? = some run → ∀ o ∈ r.written i, ∃ k, w.context.lookup run.node.id = some k ∧
    o ∈ fed (host run.node.id).block_duration (updates (r.calls k)) (Block.idOf (host run.node.id).block_duration o.ts)
  apart : ∀ k, Apart (updates (r.calls k))

theorem kept_new (host : String → Host) : Kept host .new .new where
  made k s hs := by simp [World.new] at hs
  uncalled _ _ := rfl
  unstarted _ _ := rfl
  registered id k hk := by simp [World.new] at hk
  own i node k hrun := by simp [World.new] at hrun
  shares i node k hrun := by simp [World.new] at hrun
  reached i run hrun := by simp [World.new] at hrun
  apart _ o ho := by simp [Record.new, updates, written] at ho

theorem Kept.start (hk : Kept host w r) (node : Node) : Kept host { w with runs := w.runs ++ [⟨node, .begun⟩] } r where
  made := hk.made
  uncalled := hk.uncalled
  unstarted i hi := hk.unstarted i (by simp at hi; omega)
  registered := hk.registered
  own i node' k hrun := by
    rcases getElem?_snoc hrun with hrun | ⟨-, heq⟩
    · exact hk.own i node' k hrun
    · cases heq
  shares i node' k hrun := by
    rcases getElem?_snoc hrun with hrun | ⟨-, heq⟩
    · exact hk.shares i node' k hrun
    · cases heq
  reached i run hrun o ho := by
    rcases getElem?_snoc hrun with hrun | ⟨hi, -⟩
    · exact hk.reached i run hrun o ho
    · rw [hk.unstarted i hi.ge] at ho
      exact absurd ho List.not_mem_nil
  apart := hk.apart

/-- A run goes on to a stage that the stations and the context allow. -/
theorem Kept.goOn (hk : Kept host w r) {i : Nat} {run : NodeRun} (hrun : w.runs[i]? = some run) {stage : Stage}
    (hown : ∀ k, stage = .built k → ∃ s, w.stations[k]? = some s ∧ s.id = run.node.id)
    (hshares : ∀ k, stage = .running (some k) → w.context.lookup run.node.id = some k) :
    Kept host { w with runs := w.runs.set i { run with stage } } r where
  made := hk.made
  uncalled := hk.uncalled
  unstarted j hj := hk.unstarted j (by simpa using hj)
  registered := hk.registered
  own j node k hj := by
    rcases getElem?_replaced hj with hj | ⟨-, heq⟩
    · exact hk.own j node k hj
    · obtain ⟨rfl, rfl⟩ := NodeRun.mk.inj heq
      exact hown k rfl
  shares j node k hj := by
    rcases getElem?_replaced hj with hj | ⟨-, heq⟩
    · exact hk.shares j node k hj
    · obtain ⟨rfl, rfl⟩ := NodeRun.mk.inj heq
      exact hshares k rfl
  reached j run' hj o ho := by
    rcases getElem?_replaced hj with hj | ⟨rfl, rfl⟩
    · exact hk.reached j run' hj o ho
    · exact hk.reached j run hrun o ho
  apart := hk.apart

theorem Kept.build (hk : Kept host w r) (id : String) :
    Kept host { w with stations := w.stations ++ [⟨id, LruCache.Shared.new HOT_BLOCKS⟩] } r := by
  have hold : ∀ {k : Nat} {s : Built}, w.stations[k]? = some s → (w.stations ++ [⟨id, LruCache.Shared.new HOT_BLOCKS⟩])[k]? = some s := by
    intro k s hs
    rw [List.getElem?_append_left (List.getElem?_eq_some_iff.mp hs).1, hs]
  refine ⟨fun k s hs => ?_, fun k hlen => hk.uncalled k (by simp at hlen; omega), hk.unstarted, fun name k hlookup => ?_,
    fun i node k hrun => ?_, hk.shares, hk.reached, hk.apart⟩
  · rcases getElem?_snoc hs with hs | ⟨hlen, rfl⟩
    · exact hk.made k s hs
    · rw [hk.uncalled k hlen.ge]
      rfl
  · obtain ⟨s, hs, hid⟩ := hk.registered name k hlookup
    exact ⟨s, hold hs, hid⟩
  · obtain ⟨s, hs, hid⟩ := hk.own i node k hrun
    exact ⟨s, hold hs, hid⟩

theorem Kept.offer (hk : Kept host w r) {id : String} {k : Nat} (hbuilt : ∃ s, w.stations[k]? = some s ∧ s.id = id) :
    Kept host { w with context := if id ∈ w.context then w.context else w.context.insert id k } r := by
  refine ⟨hk.made, hk.uncalled, hk.unstarted, fun name k' hlookup => ?_, hk.own, fun i node k' hrun => ?_,
    fun i run hrun o ho => ?_, hk.apart⟩
  · dsimp only at hlookup
    split_ifs at hlookup with hid
    · exact hk.registered name k' hlookup
    · by_cases hname : name = id
      · subst hname
        rw [Finmap.lookup_insert] at hlookup
        exact Option.some.inj hlookup ▸ hbuilt
      · rw [Finmap.lookup_insert_of_ne _ hname] at hlookup
        exact hk.registered name k' hlookup
  · exact lookup_offer (hk.shares i node k' hrun)
  · obtain ⟨k', hlookup, hfed⟩ := hk.reached i run hrun o ho
    exact ⟨k', lookup_offer hlookup, hfed⟩

theorem Kept.call (hk : Kept host w r) {k : Nat} {s : Built} (hs : w.stations[k]? = some s) {a : MemoryAct}
    (hapart : Apart (updates (r.calls k ++ [a]))) : Kept host (w.call host k a).1 (r.call k a) := by
  have hlt : k < w.stations.length := (List.getElem?_eq_some_iff.mp hs).1
  have hold : ∀ {k' : Nat} {id : String}, (∃ s, w.stations[k']? = some s ∧ s.id = id) →
      ∃ s', (w.stations.set k { s with caches := (MemoryStation.step (host s.id) s.caches a).1 })[k']? = some s' ∧ s'.id = id := by
    rintro k' id ⟨s', hs', rfl⟩
    by_cases heq : k = k'
    · subst heq
      obtain rfl := Option.some.inj (hs.symm.trans hs')
      exact ⟨_, List.getElem?_set_self hlt, rfl⟩
    · exact ⟨s', (List.getElem?_set_ne heq).trans hs', rfl⟩
  rw [call_eq hs]
  refine ⟨fun k' s' hs' => ?_, fun k' hlen => ?_, hk.unstarted, fun id k' hlookup => hold (hk.registered id k' hlookup),
    fun i node k' hrun => hold (hk.own i node k' hrun), hk.shares, fun i run hrun o ho => ?_, fun k' => ?_⟩
  · by_cases heq : k = k'
    · subst heq
      rw [List.getElem?_set_self hlt] at hs'
      obtain rfl := Option.some.inj hs'
      rw [Record.call_self, Machine.state_snoc, ← hk.made k s hs]
      rfl
    · rw [List.getElem?_set_ne heq] at hs'
      rw [Record.call_other r (Ne.symm heq)]
      exact hk.made k' s' hs'
  · rw [List.length_set] at hlen
    rw [Record.call_other r (by omega)]
    exact hk.uncalled k' hlen
  · obtain ⟨k', hlookup, hfed⟩ := hk.reached i run hrun o ho
    exact ⟨k', hlookup, mem_fed_call hfed k a⟩
  · by_cases heq : k' = k
    · subst heq
      rw [Record.call_self]
      exact hapart
    · rw [Record.call_other r heq]
      exact hk.apart k'

theorem Kept.write (hk : Kept host w r) {i : Nat} {run : NodeRun} (hrun : w.runs[i]? = some run)
    (hbatch : ∀ o ∈ batch, ∃ k, w.context.lookup run.node.id = some k ∧ o ∈ fed (host run.node.id).block_duration (updates (r.calls k)) (Block.idOf (host run.node.id).block_duration o.ts)) :
    Kept host w (r.write i batch) := by
  refine ⟨hk.made, hk.uncalled, fun j hj => ?_, hk.registered, hk.own, hk.shares, fun j run' hj o ho => ?_, hk.apart⟩
  · have hlt : i < w.runs.length := (List.getElem?_eq_some_iff.mp hrun).1
    rw [Record.write_other r (by omega)]
    exact hk.unstarted j hj
  · by_cases heq : j = i
    · subst heq
      obtain rfl := Option.some.inj (hrun.symm.trans hj)
      rw [Record.write_self] at ho
      rcases List.mem_append.mp ho with ho | ho
      · exact hk.reached j run hrun o ho
      · exact hbatch o ho
    · rw [Record.write_other r heq] at ho
      exact hk.reached j run' hj o ho

theorem Kept.advance (hk : Kept host w r) {i : Nat} (horderly : Orderly host w r (.advance i)) :
    Kept host ((machine host).next w (.advance i)) r := by
  unfold Machine.next machine step
  dsimp only
  cases hrun : w.runs[i]? with
  | none => exact hk
  | some run =>
    dsimp only
    rcases advance_cases w run with ⟨stage, heq, hbuilt, hrunning⟩ | heq | ⟨k, hstage, heq⟩
    · rw [heq]
      refine hk.goOn hrun (fun k hk' => absurd hk' (hbuilt k)) fun k hstage => ?_
      rcases hrunning k hstage with hold | hlookup
      · exact hk.shares i run.node k (hrun.trans (congrArg (fun stage => some (NodeRun.mk run.node stage)) hold))
      · exact hlookup
    · rw [heq]
      refine (hk.build run.node.id).goOn hrun ?_ ?_
      · intro k hk'
        obtain rfl := Stage.built.inj hk'
        exact ⟨_, List.getElem?_concat_length, rfl⟩
      · intro k hk'
        cases hk'
    · rw [heq]
      have hbuilt := hk.own i run.node k (hrun.trans (congrArg (fun stage => some (NodeRun.mk run.node stage)) hstage))
      refine (hk.offer hbuilt).goOn hrun (fun k' hk' => absurd hk' (afterOffer_ne_built run.node k k')) fun k' hk' => ?_
      -- only an origin goes on with what it built, and its id was free
      obtain ⟨node, stage⟩ := run
      dsimp only at hstage hk' ⊢
      subst hstage
      unfold Orderly at horderly
      dsimp only at horderly
      rw [hrun] at horderly
      cases node with
      | httpOrigin id =>
        obtain rfl : k = k' := by simpa [Node.afterOffer] using hk'
        have hfree : id ∉ w.context := horderly
        have hid : (Node.httpOrigin id).id = id := rfl
        rw [hid, if_neg hfree, Finmap.lookup_insert]
      | httpSource id station =>
        cases hk'

theorem Kept.writes (hk : Kept host w r) {i : Nat} {now : Int} (horderly : Orderly host w r (.write i batch now)) :
    Kept host ((machine host).next w (.write i batch now)) (r.note w (.write i batch now)) := by
  unfold Machine.next machine step Record.note
  unfold Orderly at horderly
  dsimp only at horderly ⊢
  split at horderly
  · rename_i node k hrun
    by_cases hbatch : batch = []
    · rw [if_pos hbatch, if_pos hbatch]
      exact hk
    · rw [if_neg hbatch, if_neg hbatch]
      have hlookup := hk.shares i node k hrun
      obtain ⟨s, hs, -⟩ := hk.registered node.id k hlookup
      have hupdates : updates (r.calls k ++ [.updateRange (node.update batch now)]) =
          updates (r.calls k) ++ [node.update batch now] := updates_append _ _
      have hcalled := hk.call hs (a := .updateRange (node.update batch now)) (by
        rw [hupdates]
        refine apart_snoc (hk.apart k) fun o ho o' ho' => ?_
        rw [Node.update_records] at ho ho'
        exact (horderly o ho).2 o' ho')
      have hruns : (w.call host k (.updateRange (node.update batch now))).1.runs[i]? = some ⟨node, .running (some k)⟩ := by
        rw [call_eq hs]
        exact hrun
      refine hcalled.write hruns fun o ho => ⟨k, ?_, ?_⟩
      · rw [call_eq hs]
        exact hlookup
      rw [Record.call_self, hupdates]
      refine mem_fed_of_covers (host node.id).block_duration_pos (List.mem_append_right _ (List.mem_singleton_self _)) ?_
        (node.update_range ho).1 (node.update_range ho).2 (horderly o ho).1
      rwa [Node.update_records]
  · exact hk

theorem Kept.query (hk : Kept host w r) (id : String) (from_ts to_ts : Int) :
    Kept host ((machine host).next w (.query id from_ts to_ts)) (r.note w (.query id from_ts to_ts)) := by
  unfold Machine.next machine step Record.note
  dsimp only
  cases hstation : w.context.station id with
  | error e => exact hk
  | ok k =>
    obtain ⟨s, hs, -⟩ := hk.registered id k (lookup_of_station hstation)
    refine hk.call hs ?_
    have hupdates : updates [MemoryAct.queryRecent from_ts to_ts] = [] := rfl
    rw [updates_append, hupdates, List.append_nil]
    exact hk.apart k

theorem Kept.step (hk : Kept host w r) {a : Act} (horderly : Orderly host w r a) :
    Kept host ((machine host).next w a) (r.note w a) := by
  cases a with
  | start node => exact hk.start node
  | advance i => exact hk.advance horderly
  | write i batch now => exact hk.writes horderly
  | stop i =>
    unfold Machine.next machine Http.step
    dsimp only
    cases hrun : w.runs[i]? with
    | none => exact hk
    | some run => exact hk.goOn hrun (fun k hk' => by cases hk') fun k hk' => by cases hk'
  | query id from_ts to_ts => exact hk.query id from_ts to_ts

/-- A node in its loop reads back what it wrote. -/
theorem Kept.returned (hk : Kept host w r) (hroom : NoEviction host w r) : Returned host w r := by
  intro i node station hrun o ho from_ts to_ts hcap hfrom hto
  obtain ⟨k, hlookup, hfed⟩ := hk.reached i _ hrun o ho
  obtain ⟨s, hs, hid⟩ := hk.registered node.id k hlookup
  obtain ⟨hlt, heq⟩ := List.getElem?_eq_some_iff.mp hs
  have hfits : Fits (host s.id) HOT_BLOCKS (updates (r.calls k)) := heq ▸ hroom ⟨k, hlt⟩
  have hholds := holds_run (host s.id) HOT_BLOCKS (r.calls k) hfits
  rw [← hk.made k s hs, hid] at hholds
  refine ⟨(queryRecent (host node.id) s.caches from_ts to_ts).2, ?_, mem_queryRecent hholds (hk.apart k) hfed hcap hfrom hto⟩
  unfold Http.step
  dsimp only
  rw [station_of_lookup hlookup]
  unfold World.call
  dsimp only
  rw [hs, ← hid]
  rfl

/-- In every run of starts, changes and stops of nodes in which an origin offers its station only when there is none of its id, and the
observations that are written have times of their blocks and identities of their own: as long as no station gives up a block, every
observation that a running node wrote is in what `query_recent` returns on the station of its id. -/
theorem writer_shares_station (host : String → Host) (acts : List Act)
    (horderly : (watched host).Along (fun (s : World × Record) a => Orderly host s.1 s.2 a) acts) :
    let s := (watched host).state acts
    NoEviction host s.1 s.2 → Returned host s.1 s.2 := by
  have hkept : Kept host ((watched host).state acts).1 ((watched host).state acts).2 :=
    Machine.invariant_of_along (M := watched host) (I := fun s => Kept host s.1 s.2) (kept_new host) (fun s a hk ha => hk.step ha) acts horderly
  exact fun hroom => hkept.returned hroom

/-- An origin that writes once, and a source that is removed after it wrote and added again. -/
def reloaded : List Act :=
  [.start (.httpOrigin "btc"), .advance 0, .advance 0, .write 0 [TimeseriesStation.cpuAt 1] 1,
    .start (.httpSource "eth" true), .advance 1, .advance 1, .advance 1, .write 1 [TimeseriesStation.cpuAt 12] 12, .stop 1,
    .start (.httpSource "eth" true), .advance 2, .advance 2, .advance 2, .write 2 [TimeseriesStation.cpuAt 3] 3]

theorem writer_shares_station_reloaded :
    let s := (watched fun _ => TimeseriesStation.hostOf []).state reloaded
    Returned (fun _ => TimeseriesStation.hostOf []) s.1 s.2 ∧
      (step (fun _ => TimeseriesStation.hostOf []) s.1 (.query "eth" 0 19)).2 =
        some (.recent 0 19 [TimeseriesStation.cpuAt 3, TimeseriesStation.cpuAt 12]) :=
  ⟨writer_shares_station (fun _ => TimeseriesStation.hostOf []) reloaded
    (by
      rw [Machine.along_iff_alongFrom]
      decide +kernel) (by decide +kernel), by decide +kernel⟩

/-- An origin that is started again, and writes. -/
def restarted : List Act :=
  [.start (.httpOrigin "btc"), .advance 0, .advance 0, .stop 0,
    .start (.httpOrigin "btc"), .advance 1, .advance 1, .write 1 [TimeseriesStation.cpuAt 1] 1]

/-- What an origin writes that was started again is not on the station of its id. -/
theorem restarted_origin_unread :
    let s := (watched fun _ => TimeseriesStation.hostOf []).state restarted
    NoEviction (fun _ => TimeseriesStation.hostOf []) s.1 s.2 ∧ ¬Returned (fun _ => TimeseriesStation.hostOf []) s.1 s.2 := by
  refine ⟨by decide +kernel, fun hreturned => ?_⟩
  obtain ⟨result, hanswer, hmem⟩ := hreturned 1 (.httpOrigin "btc") 1 (by decide +kernel) (TimeseriesStation.cpuAt 1)
    (by decide +kernel) 0 9 (by decide +kernel) (by decide) (by decide)
  have hempty : (step (fun _ => TimeseriesStation.hostOf [])
      ((watched fun _ => TimeseriesStation.hostOf []).state restarted).1 (.query "btc" 0 9)).2 = some (.recent 0 9 []) := by
    decide +kernel
  obtain ⟨-, -, rfl⟩ := Reply.recent.inj (Option.some.inj (hempty.symm.trans hanswer))
  exact absurd hmem List.not_mem_nil

end Http

end Opsense
