import Mathlib
import Opsense.Lib.Machine

/-!
# Snowflake ids

A generator packs the time and the sequence number of the last id into one word, and threads move it with a
compare-exchange. A call of `generate` reads the clock, loads the word, and then exchanges it; the three steps of different
threads interleave in any order, and a weak exchange may fail although the word is the one that was loaded.
-/

namespace Opsense

/-- What is fixed when a generator is made; `new` panics on a larger machine id. -/
structure SnowflakeId where
  start_time : Nat
  machine_id : Nat
  machine_id_lt : machine_id < 1 <<< 10

namespace SnowflakeId

/-- Where a thread stands in the loop of `generate`. -/
inductive Thread where
  /-- At the head of the loop. -/
  | head
  | clocked (current_ts : Nat)
  | loaded (old_state new_ts new_seq : Nat)
deriving DecidableEq

/-- The shared word and the threads. -/
structure Shared where
  state : Nat
  threads : Nat → Thread

inductive Act where
  | clock (thread now_ms : Nat)
  | load (thread : Nat)
  /-- The exchange, which may fail for no reason. -/
  | exchange (thread : Nat) (spurious : Bool)

/-- The time and the sequence number after those of the loaded word; `none` when the sequence numbers of its time are used up
and the loop starts again. -/
def advance (current_ts old_state : Nat) : Option (Nat × Nat) :=
  let old_ts := old_state >>> 12
  let old_seq := old_state &&& 0xFFF
  if current_ts > old_ts then some (current_ts, 0)
  else
    let next_seq := (old_seq + 1) &&& 0xFFF
    if next_seq = 0 then none else some (old_ts, next_seq)

/-- `(new_ts << 12) | new_seq` in a word of 64 bits. -/
def pack (new_ts new_seq : Nat) : Nat := ((new_ts <<< 12) % 2 ^ 64) ||| new_seq

/-- The id as an unsigned word. -/
def word (g : SnowflakeId) (new_ts new_seq : Nat) : Nat :=
  ((new_ts &&& 0xFFFFFFFFFF) <<< 22) ||| ((new_seq &&& 0xFFF) <<< 10) ||| (g.machine_id &&& 0x3FF)

/-- `as i64` of an unsigned word. -/
def asI64 (n : Nat) : Int := if n < 2 ^ 63 then n else (n : Int) - 2 ^ 64

def Shared.setThread (s : Shared) (thread : Nat) (t : Thread) : Shared :=
  { s with threads := fun i => if i = thread then t else s.threads i }

/-- A step of the loop of one thread; an exchange that succeeds returns the id. -/
def step (g : SnowflakeId) (s : Shared) : Act → Shared × Option Int
  | .clock thread now_ms =>
    match s.threads thread with
    | .head => (s.setThread thread (.clocked (now_ms - g.start_time)), none)
    | _ => (s, none)
  | .load thread =>
    match s.threads thread with
    | .clocked current_ts =>
      match advance current_ts s.state with
      | some (new_ts, new_seq) => (s.setThread thread (.loaded s.state new_ts new_seq), none)
      | none => (s.setThread thread .head, none)
    | _ => (s, none)
  | .exchange thread spurious =>
    match s.threads thread with
    | .loaded old_state new_ts new_seq =>
      if s.state = old_state ∧ spurious = false then
        ({ s with state := pack new_ts new_seq }.setThread thread .head, some (asI64 (g.word new_ts new_seq)))
      else (s.setThread thread .head, none)
    | _ => (s, none)

def machine (g : SnowflakeId) : Machine Shared Act (Option Int) where
  init := ⟨0, fun _ => .head⟩
  step := step g

/-- The ids a run returned, in the order of the exchanges that succeeded. -/
def ids (t : List (Act × Option Int)) : List Int := t.filterMap Prod.snd

/-- The time is one of the window `w` of the 40 bits an id has for it, and fits the 52 bits the shared word has. -/
def InWindow (w ts : Nat) : Prop := ts / 2 ^ 40 = w ∧ ts < 2 ^ 52

/-- Every reading of the clock is in the window. -/
def ReadsWindow (g : SnowflakeId) (w : Nat) (_ : Shared) : Act → Prop
  | .clock _ now_ms => InWindow w (now_ms - g.start_time)
  | _ => True

/-! ## Words as numbers -/

theorem pack_eq {ts seq : Nat} (hts : ts < 2 ^ 52) (hseq : seq < 2 ^ 12) : pack ts seq = ts * 2 ^ 12 + seq := by
  unfold pack
  rw [Nat.shiftLeft_eq, Nat.mod_eq_of_lt (by omega), ← Nat.shiftLeft_eq, ← Nat.shiftLeft_add_eq_or_of_lt hseq]

/-- The three fields of an id do not overlap. -/
theorem word_eq (g : SnowflakeId) {ts seq : Nat} (hseq : seq < 2 ^ 12) :
    g.word ts seq = ts % 2 ^ 40 * 2 ^ 22 + seq * 2 ^ 10 + g.machine_id := by
  have hm : g.machine_id < 2 ^ 10 := g.machine_id_lt
  have hts : ts &&& 0xFFFFFFFFFF = ts % 2 ^ 40 := Nat.and_two_pow_sub_one_eq_mod ts 40
  have hmask : seq &&& 0xFFF = seq := (Nat.and_two_pow_sub_one_eq_mod seq 12).trans (Nat.mod_eq_of_lt hseq)
  have hid : g.machine_id &&& 0x3FF = g.machine_id :=
    (Nat.and_two_pow_sub_one_eq_mod g.machine_id 10).trans (Nat.mod_eq_of_lt hm)
  have hjoin : (ts % 2 ^ 40) <<< 22 + seq <<< 10 = (ts % 2 ^ 40 * 2 ^ 12 + seq) <<< 10 := by
    simp only [Nat.shiftLeft_eq]
    omega
  unfold word
  rw [hts, hmask, hid, ← Nat.shiftLeft_add_eq_or_of_lt (by rw [Nat.shiftLeft_eq]; omega), hjoin,
    ← Nat.shiftLeft_add_eq_or_of_lt hm, Nat.shiftLeft_eq]
  omega

theorem asI64_eq {n : Nat} (h : n < 2 ^ 63) : asI64 n = n := if_pos h

/-- What the loop moves on to is after what was loaded, and the sequence number stays within its bits. -/
theorem advance_spec {current_ts old_state ts seq : Nat} (h : advance current_ts old_state = some (ts, seq)) :
    seq < 2 ^ 12 ∧ old_state < ts * 2 ^ 12 + seq ∧ (ts = current_ts ∨ ts = old_state / 2 ^ 12 ∧ current_ts ≤ ts) := by
  have hts : old_state >>> 12 = old_state / 2 ^ 12 := Nat.shiftRight_eq_div_pow _ _
  have hseq : old_state &&& 0xFFF = old_state % 2 ^ 12 := Nat.and_two_pow_sub_one_eq_mod old_state 12
  have hnext : (old_state % 2 ^ 12 + 1) &&& 0xFFF = (old_state % 2 ^ 12 + 1) % 2 ^ 12 :=
    Nat.and_two_pow_sub_one_eq_mod _ 12
  unfold advance at h
  dsimp only at h
  rw [hts, hseq, hnext] at h
  split_ifs at h with hlater hover
  · obtain ⟨rfl, rfl⟩ := Prod.mk.inj (Option.some.inj h)
    exact ⟨by omega, by omega, Or.inl rfl⟩
  · obtain ⟨rfl, rfl⟩ := Prod.mk.inj (Option.some.inj h)
    exact ⟨by omega, by omega, Or.inr ⟨rfl, by omega⟩⟩

/-! ## The invariant -/

/-- The word is the first one, or has a time of the window. -/
def Packed (w state : Nat) : Prop := state = 0 ∨ InWindow w (state / 2 ^ 12)

/-- The id of a word. -/
def idOf (g : SnowflakeId) (state : Nat) : Int := g.word (state / 2 ^ 12) (state % 2 ^ 12)

/-- The ids of the words of one window are in the order of the words. -/
theorem idOf_lt (g : SnowflakeId) {w s s' : Nat} (hs : InWindow w (s / 2 ^ 12)) (hs' : InWindow w (s' / 2 ^ 12))
    (h : s < s') : g.idOf s < g.idOf s' := by
  obtain ⟨hw, -⟩ := hs
  obtain ⟨hw', -⟩ := hs'
  unfold idOf
  rw [word_eq g (Nat.mod_lt _ (by decide)), word_eq g (Nat.mod_lt _ (by decide))]
  omega

/-- What a thread holds. -/
def Thread.Sound (w : Nat) : Thread → Prop
  | .head => True
  | .clocked current_ts => InWindow w current_ts
  | .loaded old_state new_ts new_seq => InWindow w new_ts ∧ new_seq < 2 ^ 12 ∧ old_state < new_ts * 2 ^ 12 + new_seq

/-- The invariant of the runs that read the clock within one window: the ids returned are those of words before the shared
one, in their order. -/
structure Sound (g : SnowflakeId) (w : Nat) (s : Shared) (returned : List Int) : Prop where
  packed : Packed w s.state
  threads : ∀ i, (s.threads i).Sound w
  ids : ∀ id ∈ returned, ∃ state, InWindow w (state / 2 ^ 12) ∧ state ≤ s.state ∧ id = g.idOf state
  increasing : returned.Pairwise (· < ·)

variable {g : SnowflakeId} {w : Nat} {s : Shared} {returned : List Int}

theorem Sound.setThread (h : Sound g w s returned) (thread : Nat) {t : Thread} (ht : t.Sound w) :
    Sound g w (s.setThread thread t) returned := by
  refine ⟨h.packed, fun i => ?_, h.ids, h.increasing⟩
  unfold Shared.setThread
  dsimp only
  split_ifs
  · exact ht
  · exact h.threads i

/-- What is loaded after the clock was read in the window leads to a word of the window. -/
theorem Packed.advance {current_ts state ts seq : Nat} (hs : Packed w state) (hts : InWindow w current_ts)
    (h : advance current_ts state = some (ts, seq)) : (Thread.loaded state ts seq).Sound w := by
  obtain ⟨hseq, hlt, rfl | ⟨rfl, hle⟩⟩ := advance_spec h
  · exact ⟨hts, hseq, hlt⟩
  · refine ⟨?_, hseq, hlt⟩
    rcases hs with rfl | hs
    · -- the first word has the time 0, so the clock reads 0 as well
      obtain rfl : current_ts = 0 := by omega
      exact hts
    · exact hs

theorem Sound.exchange (h : Sound g w s returned) {thread ts seq : Nat} (ht : (Thread.loaded s.state ts seq).Sound w) :
    Sound g w ({ s with state := pack ts seq }.setThread thread .head) (returned ++ [asI64 (g.word ts seq)]) := by
  obtain ⟨hts, hseq, hlt⟩ := ht
  have hpack := pack_eq hts.2 hseq
  have hdiv : (ts * 2 ^ 12 + seq) / 2 ^ 12 = ts := by omega
  have hmod : (ts * 2 ^ 12 + seq) % 2 ^ 12 = seq := by omega
  have hin : InWindow w ((ts * 2 ^ 12 + seq) / 2 ^ 12) := hdiv.symm ▸ hts
  have hid : asI64 (g.word ts seq) = g.idOf (ts * 2 ^ 12 + seq) := by
    have hm : g.machine_id < 2 ^ 10 := g.machine_id_lt
    rw [idOf, hdiv, hmod, asI64_eq]
    rw [word_eq g hseq]
    omega
  have hafter : Sound g w { s with state := pack ts seq } (returned ++ [asI64 (g.word ts seq)]) := by
    rw [hpack, hid]
    refine ⟨Or.inr hin, h.threads, fun id hmem => ?_, ?_⟩
    · rcases List.mem_append.mp hmem with hmem | hmem
      · obtain ⟨state, hstate, hle, rfl⟩ := h.ids id hmem
        exact ⟨state, hstate, hle.trans hlt.le, rfl⟩
      · exact ⟨_, hin, le_refl _, List.mem_singleton.mp hmem⟩
    · rw [List.pairwise_append]
      refine ⟨h.increasing, List.pairwise_singleton _ _, fun id hmem id' hmem' => ?_⟩
      obtain ⟨state, hstate, hle, rfl⟩ := h.ids id hmem
      rw [List.mem_singleton.mp hmem']
      exact idOf_lt g hstate hin (hle.trans_lt hlt)
  exact hafter.setThread thread trivial

theorem Sound.step (h : Sound g w s returned) (a : Act) (ha : ReadsWindow g w s a) :
    Sound g w (step g s a).1 (returned ++ (step g s a).2.toList) := by
  have hsame : Sound g w s (returned ++ (none : Option Int).toList) := by
    rw [Option.toList_none, List.append_nil]
    exact h
  cases a with
  | clock thread now_ms =>
    unfold SnowflakeId.step
    dsimp only
    split
    · exact hsame.setThread thread ha
    · exact hsame
  | load thread =>
    unfold SnowflakeId.step
    dsimp only
    split
    · rename_i current_ts hthread
      have hts : InWindow w current_ts := by
        have hsound := h.threads thread
        rw [hthread] at hsound
        exact hsound
      split
      · rename_i ts seq hadvance
        exact hsame.setThread thread (h.packed.advance hts hadvance)
      · exact hsame.setThread thread trivial
    · exact hsame
  | exchange thread spurious =>
    unfold SnowflakeId.step
    dsimp only
    split
    · rename_i old ts seq hthread
      have hloaded : (Thread.loaded old ts seq).Sound w := by
        have hsound := h.threads thread
        rw [hthread] at hsound
        exact hsound
      split_ifs with hequal
      · obtain ⟨rfl, -⟩ := hequal
        exact h.exchange hloaded
      · exact hsame.setThread thread trivial
    · exact hsame

theorem ids_snoc (t : List (Act × Option Int)) (a : Act) (r : Option Int) : ids (t ++ [(a, r)]) = ids t ++ r.toList := by
  cases r <;> simp [ids]

theorem sound (g : SnowflakeId) (w : Nat) (as : List Act) (h : (machine g).Along (ReadsWindow g w) as) :
    Sound g w ((machine g).state as) (ids ((machine g).trace as)) := by
  refine Machine.invariant_trace (C := ReadsWindow g w) (I := fun s t => Sound g w s (ids t)) ?_ ?_ as h
  · exact ⟨Or.inl rfl, fun _ => trivial, nofun, List.Pairwise.nil⟩
  · intro s t a hs ha
    rw [ids_snoc]
    exact hs.step a ha

/-- In every interleaving of the steps of `generate` in which the clock stays within one window, the ids are pairwise
distinct, increase in the order of the exchanges, and have the time, the sequence number and the machine each in its own bits;
the shared word has its time and sequence number each in its own bits as well. -/
theorem ids_increase (g : SnowflakeId) (w : Nat) (as : List Act) (h : (machine g).Along (ReadsWindow g w) as) :
    (ids ((machine g).trace as)).Nodup ∧
    (ids ((machine g).trace as)).Pairwise (· < ·) ∧
    (∀ id ∈ ids ((machine g).trace as), ∃ ts seq, InWindow w ts ∧ seq < 2 ^ 12 ∧
      id = ((ts % 2 ^ 40 * 2 ^ 22 + seq * 2 ^ 10 + g.machine_id : Nat) : Int)) ∧
    ∀ i old ts seq, ((machine g).state as).threads i = .loaded old ts seq →
      seq < 2 ^ 12 ∧ pack ts seq / 2 ^ 12 = ts ∧ pack ts seq % 2 ^ 12 = seq := by
  have hs := sound g w as h
  refine ⟨hs.increasing.imp ne_of_lt, hs.increasing, fun id hid => ?_, fun i old ts seq hthread => ?_⟩
  · obtain ⟨state, hstate, -, rfl⟩ := hs.ids id hid
    refine ⟨state / 2 ^ 12, state % 2 ^ 12, hstate, Nat.mod_lt _ (by decide), ?_⟩
    rw [idOf, word_eq g (Nat.mod_lt _ (by decide))]
  · have hsound := hs.threads i
    rw [hthread] at hsound
    obtain ⟨hts, hseq, -⟩ := hsound
    rw [pack_eq hts.2 hseq]
    exact ⟨hseq, by omega, by omega⟩

instance (w ts : Nat) : Decidable (InWindow w ts) := inferInstanceAs (Decidable (_ ∧ _))

instance (g : SnowflakeId) (w : Nat) (s : Shared) : ∀ a, Decidable (ReadsWindow g w s a)
  | .clock _ now_ms => inferInstanceAs (Decidable (InWindow w (now_ms - g.start_time)))
  | .load _ => inferInstanceAs (Decidable True)
  | .exchange _ _ => inferInstanceAs (Decidable True)

/-- A generator of the machine 42. -/
def machine42 : SnowflakeId := ⟨1000, 42, by decide⟩

/-- Two threads load the same word; the second exchanges it after its clock went back. -/
def twoThreads : List Act :=
  [.clock 0 1005, .clock 1 1005, .load 0, .load 1, .exchange 0 false, .exchange 1 false, .clock 1 1003, .load 1, .exchange 1 false]

example : ids ((machine machine42).trace twoThreads) = [5 * 2 ^ 22 + 42, 5 * 2 ^ 22 + 2 ^ 10 + 42] := by decide +kernel

theorem ids_increase_twoThreads :
    (ids ((machine machine42).trace twoThreads)).Nodup ∧
    (ids ((machine machine42).trace twoThreads)).Pairwise (· < ·) ∧
    (∀ id ∈ ids ((machine machine42).trace twoThreads), ∃ ts seq, InWindow 0 ts ∧ seq < 2 ^ 12 ∧
      id = ((ts % 2 ^ 40 * 2 ^ 22 + seq * 2 ^ 10 + machine42.machine_id : Nat) : Int)) ∧
    ∀ i old ts seq, ((machine machine42).state twoThreads).threads i = .loaded old ts seq →
      seq < 2 ^ 12 ∧ pack ts seq / 2 ^ 12 = ts ∧ pack ts seq % 2 ^ 12 = seq :=
  ids_increase machine42 0 twoThreads (Machine.along_iff_alongFrom.mpr (by decide +kernel))

end SnowflakeId

end Opsense
