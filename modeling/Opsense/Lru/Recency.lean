import Opsense.Lru.Cache

/-!
# What an LRU cache is for

`Recency` is the cache without its arena: for each shard the entries it holds, the most recently used first. Putting or
reading an entry moves it to the front of its shard's list; a put that finds the cache full gives up the last entry of the
first shard that holds one.

Its calls and answers alone tell which value a key should hold (`held`), and how long ago a key was last used (`idle`): `find`
returns the first (`find_eq_held`), and each list is in the order of the second (`pairwise_idle`).
-/

namespace Opsense

/-- The entries of each shard, the most recently used first. A key is only in the list of the shard it hashes to. -/
structure Recency (K V : Type) [DecidableEq K] {S : Nat} (hash : K → Fin S) where
  lists : Fin S → AList (fun _ : K => V)
  home : ∀ s k, k ∈ lists s → hash k = s

namespace Recency

variable {K V : Type} [DecidableEq K] {S : Nat} {hash : K → Fin S}

/-- The value a key holds. -/
def find (r : Recency K V hash) (key : K) : Option V := (r.lists (hash key)).lookup key

/-- The number of entries. -/
def size (r : Recency K V hash) : Nat := ((List.finRange S).flatMap fun s => (r.lists s).keys).length

/-- No entries. -/
def empty : Recency K V hash := ⟨fun _ => ∅, fun _ k h => absurd h (AList.notMem_empty k)⟩

/-- Let a key hold a value, as the most recent entry of its shard. -/
def write (r : Recency K V hash) (key : K) (value : V) : Recency K V hash where
  lists := Function.update r.lists (hash key) ((r.lists (hash key)).insert key value)
  home := by
    intro s k hk
    by_cases hs : s = hash key
    · subst hs
      rw [Function.update_self, AList.mem_insert] at hk
      rcases hk with rfl | hk
      · rfl
      · exact r.home _ _ hk
    · rw [Function.update_of_ne hs] at hk
      exact r.home _ _ hk

/-- Drop the entry of a key. -/
def forget (r : Recency K V hash) (key : K) : Recency K V hash where
  lists := Function.update r.lists (hash key) ((r.lists (hash key)).erase key)
  home := by
    intro s k hk
    by_cases hs : s = hash key
    · subst hs
      rw [Function.update_self, AList.mem_erase] at hk
      exact r.home _ _ hk.2
    · rw [Function.update_of_ne hs] at hk
      exact r.home _ _ hk

/-- The entry a full cache gives up: the last one of the first shard that holds any. -/
def victim (r : Recency K V hash) : Option (K × V) :=
  (List.finRange S).findSome? fun s => (r.lists s).entries.getLast?.map fun e => (e.1, e.2)

/-- Let a key that holds nothing hold a value, with the entry given up for it. -/
def accept (capacity : Nat) (r : Recency K V hash) (key : K) (value : V) : Recency K V hash × List (Hook K V) :=
  if r.size < capacity then (r.write key value, [])
  else
    match r.victim with
    | none => (r, [])
    | some (k, v) => ((r.forget k).write key value, [.removing k v, .persist k v])

def put (capacity : Nat) (r : Recency K V hash) (key : K) (value : V) : Recency K V hash × List (Hook K V) :=
  match r.find key with
  | some _ => (r.write key value, [.updating key value, .persist key value])
  | none => r.accept capacity key value

def get (r : Recency K V hash) (key : K) : Recency K V hash × Option V :=
  match r.find key with
  | none => (r, none)
  | some v => (r.write key v, some v)

def remove (r : Recency K V hash) (key : K) : Recency K V hash × Option V × List (Hook K V) :=
  match r.find key with
  | none => (r, none, [])
  | some v => (r.forget key, some v, [.persist key v])

/-- One call of the cache. -/
def step (capacity : Nat) (r : Recency K V hash) : Call K V → Recency K V hash × Answer K V
  | .put key value => let a := r.put capacity key value; (a.1, { hooks := a.2 })
  | .get key => let a := r.get key; (a.1, { value := a.2 })
  | .remove key => let a := r.remove key; (a.1, { value := a.2.1, hooks := a.2.2 })
  | .clear => (empty, { removed := r.size })

/-- The cache over its runs. -/
def machine (hash : K → Fin S) (capacity : Nat) : Machine (Recency K V hash) (Call K V) (Answer K V) :=
  ⟨empty, step capacity⟩

/-! ## Lists after a write -/

theorem write_lists (r : Recency K V hash) (key : K) (value : V) :
    (r.write key value).lists = Function.update r.lists (hash key) ((r.lists (hash key)).insert key value) := rfl

theorem forget_lists (r : Recency K V hash) (key : K) :
    (r.forget key).lists = Function.update r.lists (hash key) ((r.lists (hash key)).erase key) := rfl

@[simp] theorem find_empty (key : K) : (empty : Recency K V hash).find key = none := AList.lookup_empty key

@[simp] theorem find_write (r : Recency K V hash) (key k : K) (value : V) :
    (r.write key value).find k = if k = key then some value else r.find k := by
  by_cases hk : k = key
  · subst hk
    simp [find, write]
  · rw [if_neg hk, find, find, write_lists]
    by_cases hs : hash k = hash key
    · rw [hs, Function.update_self, AList.lookup_insert_ne hk]
    · rw [Function.update_of_ne hs]

@[simp] theorem find_forget (r : Recency K V hash) (key k : K) :
    (r.forget key).find k = if k = key then none else r.find k := by
  by_cases hk : k = key
  · subst hk
    simp [find, forget]
  · rw [if_neg hk, find, find, forget_lists]
    by_cases hs : hash k = hash key
    · rw [hs, Function.update_self, AList.lookup_erase_ne hk]
    · rw [Function.update_of_ne hs]

variable {r : Recency K V hash}

/-- An entry of a list is what its key holds. -/
theorem find_of_mem {s : Fin S} {e : Sigma fun _ : K => V} (he : e ∈ (r.lists s).entries) :
    r.find e.1 = some e.2 := by
  have hs : hash e.1 = s := r.home s e.1 (List.mem_map_of_mem he)
  rw [find, hs]
  exact AList.mem_lookup_iff.mpr he

theorem mem_of_find {k : K} {v : V} (h : r.find k = some v) :
    ⟨k, v⟩ ∈ (r.lists (hash k)).entries :=
  AList.mem_lookup_iff.mp h

/-- The entry given up is the last one of some list. -/
theorem victim_mem {k : K} {v : V} (h : r.victim = some (k, v)) :
    ∃ s, (r.lists s).entries.getLast? = some ⟨k, v⟩ := by
  obtain ⟨s, -, hs⟩ := List.exists_of_findSome?_eq_some h
  obtain ⟨e, he, hev⟩ := Option.map_eq_some_iff.mp hs
  obtain ⟨rfl, rfl⟩ := Prod.mk.inj hev
  exact ⟨s, he⟩

theorem find_victim {k : K} {v : V} (h : r.victim = some (k, v)) : r.find k = some v := by
  obtain ⟨s, hs⟩ := victim_mem h
  exact find_of_mem (e := ⟨k, v⟩) (List.mem_of_getLast? hs)

/-- Only an empty cache has nothing to give up. -/
theorem size_eq_zero_of_victim (h : r.victim = none) : r.size = 0 := by
  rw [victim, List.findSome?_eq_none_iff] at h
  refine List.length_eq_zero_iff.mpr (List.flatMap_eq_nil_iff.mpr fun s hs => ?_)
  have hnil : (r.lists s).entries = [] := by simpa using h s hs
  rw [AList.keys, hnil]
  rfl

/-- There are no more entries than keys that hold something. -/
theorem size_le {keys : List K} (h : ∀ k, r.find k ≠ none → k ∈ keys) : r.size ≤ keys.length := by
  have hnodup : ((List.finRange S).flatMap fun s => (r.lists s).keys).Nodup := by
    refine List.nodup_flatMap.mpr ⟨fun s _ => (r.lists s).nodupKeys, ?_⟩
    refine List.Pairwise.imp (fun {s t} hne => ?_) (List.nodup_finRange S)
    intro k hs ht
    exact hne ((r.home s k hs).symm.trans (r.home t k ht))
  refine (List.subperm_of_subset hnodup fun k hk => ?_).length_le
  obtain ⟨s, -, hs⟩ := List.mem_flatMap.mp hk
  obtain ⟨e, he, rfl⟩ := List.mem_map.mp hs
  refine h e.1 ?_
  rw [find_of_mem he]
  exact Option.some_ne_none _

/-! ## What a trace says -/

/-- The entries a call reported to the removal hook. -/
def reported (hooks : List (Hook K V)) : List (K × V) :=
  hooks.filterMap fun
    | .removing k v => some (k, v)
    | _ => none

/-- What a key holds after a call, given what it held before. -/
def noteCall (key : K) (before : Option V) : Call K V × Answer K V → Option V
  | (.put k v, ans) => if key = k then some v else if key ∈ (reported ans.hooks).map Prod.fst then none else before
  | (.get _, _) => before
  | (.remove k, _) => if key = k then none else before
  | (.clear, _) => none

/-- The value of the last put of a key, unless the key was removed, cleared or reported as evicted since. -/
def held (key : K) (trace : List (Call K V × Answer K V)) : Option V := trace.foldl (noteCall key) none

@[simp] theorem held_nil (key : K) : held key ([] : List (Call K V × Answer K V)) = none := rfl

@[simp] theorem held_snoc (key : K) (trace : List (Call K V × Answer K V)) (a : Call K V × Answer K V) :
    held key (trace ++ [a]) = noteCall key (held key trace) a := by
  simp [held]

/-- A run that puts nothing leaves every key with nothing. -/
theorem held_eq_none {σ : Type} (M : Machine σ (Call K V) (Answer K V)) (key : K) (as : List (Call K V))
    (h : ∀ k v, .put k v ∉ as) : held key (M.trace as) = none := by
  induction as using List.reverseRecOn with
  | nil => rfl
  | append_singleton as a ih =>
    have hbefore : held key (M.trace as) = none := ih fun k v hm => h k v (List.mem_append_left _ hm)
    rw [Machine.trace_snoc, held_snoc, hbefore]
    cases a with
    | put k v => exact absurd (List.mem_append_right as (List.mem_singleton_self _)) (h k v)
    | get k => rfl
    | remove k => exact ite_self _
    | clear => rfl

end Recency

/-- The call puts or reads the key. -/
def Call.uses {K V : Type} [DecidableEq K] (key : K) : Call K V → Bool
  | .put k _ => k = key
  | .get k => k = key
  | .remove _ => false
  | .clear => false

namespace Recency

variable {K V : Type} [DecidableEq K] {S : Nat} {hash : K → Fin S}

/-- How many calls were made since the last one that put or read the key. -/
def idle (key : K) (as : List (Call K V)) : Nat := (as.reverse.takeWhile fun a => !a.uses key).length

theorem idle_snoc (key : K) (as : List (Call K V)) (a : Call K V) :
    idle key (as ++ [a]) = if a.uses key then 0 else idle key as + 1 := by
  by_cases h : a.uses key <;> simp [idle, h]

/-! ## The value a key holds -/

variable {capacity : Nat}

/-- After a put every key holds what the trace says. -/
theorem find_put (hcap : 0 < capacity) (r : Recency K V hash) (key k : K) (value : V) :
    (r.put capacity key value).1.find k =
      noteCall k (r.find k) (.put key value, { hooks := (r.put capacity key value).2 }) := by
  rw [put]
  cases hkey : r.find key with
  | some v => simp [noteCall, reported]
  | none =>
    simp only [accept]
    split_ifs with hsize
    · simp [noteCall, reported]
    · cases hv : r.victim with
      | none => exact absurd (size_eq_zero_of_victim hv) (by omega)
      | some e =>
        obtain ⟨ek, ev⟩ := e
        simp [noteCall, reported]

/-- One call leaves every key with what the trace says. -/
theorem find_step (hcap : 0 < capacity) (r : Recency K V hash) (a : Call K V) (k : K) :
    (r.step capacity a).1.find k = noteCall k (r.find k) (a, (r.step capacity a).2) := by
  cases a with
  | put key value => exact find_put hcap r key k value
  | get key =>
    simp only [step, get, noteCall]
    cases h : r.find key with
    | none => rfl
    | some v =>
      by_cases hk : k = key
      · subst hk
        simp [h]
      · simp [hk]
  | remove key =>
    simp only [step, remove, noteCall]
    cases h : r.find key with
    | none =>
      by_cases hk : k = key
      · subst hk
        simp [h]
      · simp [hk]
    | some v => simp
  | clear => simp [step, noteCall]

/-- A cache with room for an entry holds, for every key, the value of its last put, unless the key was removed, cleared or
reported as evicted since. -/
theorem find_eq_held (hcap : 0 < capacity) (as : List (Call K V)) (k : K) :
    ((machine hash capacity).state as).find k = held k ((machine hash capacity).trace as) := by
  induction as using List.reverseRecOn with
  | nil => simp [machine]
  | append_singleton as a ih =>
    rw [Machine.state_snoc, Machine.trace_snoc, held_snoc, ← ih]
    exact find_step hcap _ a k

/-- A cache without capacity holds nothing. -/
theorem find_zero (hash : K → Fin S) (as : List (Call K V)) (k : K) : ((machine hash 0).state as).find k = none := by
  have hempty : ∀ as, (machine (V := V) hash 0).state as = empty := by
    refine Machine.invariant (I := fun r => r = empty) rfl fun r a hr => ?_
    subst hr
    have hvictim : (empty : Recency K V hash).victim = none := by
      rw [victim, List.findSome?_eq_none_iff]
      exact fun s _ => rfl
    cases a with
    | put key value => simp [Machine.next, machine, step, put, accept, hvictim]
    | get key => simp [Machine.next, machine, step, get]
    | remove key => simp [Machine.next, machine, step, remove]
    | clear => rfl
  rw [hempty]
  exact find_empty k

/-! ## What a put evicts -/

/-- What a put reports to the removal hook: the victim, if the key was new and the cache full. -/
theorem reported_put (capacity : Nat) (r : Recency K V hash) (key : K) (value : V) :
    reported (r.put capacity key value).2 =
      if r.find key = none ∧ capacity ≤ r.size then r.victim.toList else [] := by
  unfold put accept
  cases hkey : r.find key with
  | some v => simp [reported]
  | none =>
    by_cases hsize : r.size < capacity
    · simp [reported, hsize]
    · cases hv : r.victim with
      | none => simp [reported, hsize]
      | some e => simp [reported, hsize, Nat.le_of_not_lt hsize]

variable {r : Recency K V hash}

/-- An entry that is there before a put and not after it is the victim, and the cache was full. -/
theorem victim_of_lost {key k : K} {value v : V} (hf : r.find k = some v) (hl : (r.put capacity key value).1.find k = none) :
    r.find key = none ∧ capacity ≤ r.size ∧ r.victim = some (k, v) := by
  unfold put accept at hl
  cases hkey : r.find key with
  | some v' =>
    simp only [hkey, find_write] at hl
    split_ifs at hl
    exact absurd (hf.symm.trans hl) (by simp)
  | none =>
    simp only [hkey] at hl
    split_ifs at hl with hsize
    · rw [find_write] at hl
      split_ifs at hl
      exact absurd (hf.symm.trans hl) (by simp)
    · refine ⟨rfl, Nat.le_of_not_lt hsize, ?_⟩
      cases hv : r.victim with
      | none =>
        simp only [hv] at hl
        exact absurd (hf.symm.trans hl) (by simp)
      | some e =>
        obtain ⟨ek, ev⟩ := e
        simp only [hv, find_write, find_forget] at hl
        split_ifs at hl with h1 h2
        · subst h2
          rw [Option.some.inj (hf.symm.trans (find_victim hv))]
        · exact absurd (hf.symm.trans hl) (by simp)

/-- What a put reports is what it takes out. -/
theorem mem_reported_put {key k : K} {value v : V} :
    (k, v) ∈ reported (r.put capacity key value).2 ↔
      r.find k = some v ∧ (r.put capacity key value).1.find k = none := by
  constructor
  · intro h
    rw [reported_put] at h
    split_ifs at h with hc
    · obtain ⟨hkey, hsize⟩ := hc
      rw [Option.mem_toList] at h
      have hfind := find_victim h
      refine ⟨hfind, ?_⟩
      have hne : k ≠ key := by
        rintro rfl
        rw [hkey] at hfind
        nomatch hfind
      unfold put accept
      simp [hkey, Nat.not_lt.mpr hsize, show r.victim = some (k, v) from h, hne]
    · nomatch h
  · rintro ⟨hf, hl⟩
    obtain ⟨hkey, hsize, hv⟩ := victim_of_lost hf hl
    rw [reported_put, if_pos ⟨hkey, hsize⟩, hv]
    simp

/-! ## The order of the entries -/

/-- Every list is in the order of use, the most recent first. -/
def ByUse (r : Recency K V hash) (as : List (Call K V)) : Prop :=
  ∀ s, (r.lists s).entries.Pairwise fun e f => idle e.1 as < idle f.1 as

variable {as : List (Call K V)}

/-- A call that uses none of the keys of a list leaves their order. -/
theorem pairwise_snoc {a : Call K V} {es : List (Sigma fun _ : K => V)} (h : es.Pairwise fun e f => idle e.1 as < idle f.1 as)
    (ha : ∀ e ∈ es, a.uses e.1 = false) :
    es.Pairwise fun e f => idle e.1 (as ++ [a]) < idle f.1 (as ++ [a]) := by
  refine h.imp_of_mem fun {e f} he hf hlt => ?_
  rw [idle_snoc, idle_snoc, ha e he, ha f hf]
  simpa using hlt

/-- A call that uses a key puts it before every key it does not use. -/
theorem ByUse.write (h : r.ByUse as) {a : Call K V} {key : K} (value : V) (hu : ∀ k, a.uses k = decide (key = k)) :
    (r.write key value).ByUse (as ++ [a]) := by
  intro s
  rw [write_lists]
  by_cases hs : s = hash key
  · subst hs
    simp only [Function.update_self, AList.entries_insert]
    have hsub : (List.kerase key (r.lists (hash key)).entries).Sublist (r.lists (hash key)).entries :=
      List.kerase_sublist _ _
    have hnot : ∀ e ∈ List.kerase key (r.lists (hash key)).entries, key ≠ e.1 := by
      rintro e he rfl
      exact List.notMem_keys_kerase e.1 (r.lists _).nodupKeys (List.mem_map_of_mem he)
    refine List.pairwise_cons.mpr ⟨fun e he => ?_, pairwise_snoc ((h _).sublist hsub) fun e he => ?_⟩
    · rw [idle_snoc, idle_snoc, hu, hu]
      simp [hnot e he]
    · simp [hu, hnot e he]
  · simp only [Function.update_of_ne hs]
    refine pairwise_snoc (h s) fun e he => ?_
    rw [hu, decide_eq_false_iff_not]
    rintro rfl
    exact hs (r.home s _ (List.mem_map_of_mem he)).symm

/-- Dropping an entry leaves the order of the others. -/
theorem ByUse.forget (h : r.ByUse as) (key : K) :
    (r.forget key).ByUse as := by
  intro s
  rw [forget_lists]
  by_cases hs : s = hash key
  · subst hs
    simp only [Function.update_self]
    exact (h _).sublist (List.kerase_sublist _ _)
  · simpa only [Function.update_of_ne hs] using h s

/-- A call that uses none of the keys leaves the order. -/
theorem ByUse.other (h : r.ByUse as) {a : Call K V} (hu : ∀ k, r.find k ≠ none → a.uses k = false) : r.ByUse (as ++ [a]) :=
  fun s => pairwise_snoc (h s) fun e he => hu e.1 (by simp [find_of_mem he])

/-- One call keeps every list in the order of use. -/
theorem ByUse.step (h : r.ByUse as) (a : Call K V) :
    (r.step capacity a).1.ByUse (as ++ [a]) := by
  cases a with
  | put key value =>
    simp only [Recency.step, put]
    have hw : ∀ r' : Recency K V hash, r'.ByUse as → (r'.write key value).ByUse (as ++ [.put key value]) :=
      fun r' h' => h'.write value fun k => rfl
    cases hkey : r.find key with
    | some v => exact hw r h
    | none =>
      simp only [accept]
      split_ifs with hsize
      · exact hw r h
      · cases hv : r.victim with
        | some e => exact hw _ (h.forget e.1)
        | none =>
          -- nothing to give up: the put is dropped, and it used a key that holds nothing
          refine h.other fun k hk => ?_
          rw [Call.uses, decide_eq_false_iff_not]
          rintro rfl
          exact hk hkey
  | get key =>
    simp only [Recency.step, get]
    cases hkey : r.find key with
    | some v => exact h.write v fun k => rfl
    | none =>
      refine h.other fun k hk => ?_
      rw [Call.uses, decide_eq_false_iff_not]
      rintro rfl
      exact hk hkey
  | remove key =>
    simp only [Recency.step, remove]
    cases hkey : r.find key with
    | none => exact h.other fun _ _ => rfl
    | some v => exact (h.forget key).other fun _ _ => rfl
  | clear =>
    intro s
    exact List.Pairwise.nil

/-- Along every run each list is in the order of use. -/
theorem byUse (hash : K → Fin S) (capacity : Nat) (as : List (Call K V)) : ((machine hash capacity).state as).ByUse as := by
  induction as using List.reverseRecOn with
  | nil => intro s; exact List.Pairwise.nil
  | append_singleton as a ih => rw [Machine.state_snoc]; exact ih.step a

/-- The entry given up is the least recently used of its shard. -/
theorem idle_lt_victim {k : K} {v : V} {k' : K} {v' : V} (hv : ((machine hash capacity).state as).victim = some (k, v))
    (hf : ((machine hash capacity).state as).find k' = some v') (hne : k' ≠ k) (hs : hash k' = hash k) :
    idle k' as < idle k as := by
  obtain ⟨s, hlast⟩ := victim_mem hv
  have hks : hash k = s := Recency.home _ s k (List.mem_map_of_mem (f := Sigma.fst) (List.mem_of_getLast? hlast))
  have hmem := mem_of_find hf
  rw [hs, hks] at hmem
  have hord := byUse hash capacity as s
  obtain ⟨init, hinit⟩ := List.getLast?_eq_some_iff.mp hlast
  rw [hinit] at hmem hord
  rcases List.mem_append.mp hmem with hm | hm
  · exact (List.pairwise_append.mp hord).2.2 _ hm _ List.mem_cons_self
  · rw [List.mem_singleton] at hm
    exact absurd (congrArg Sigma.fst hm) hne

end Recency

end Opsense
