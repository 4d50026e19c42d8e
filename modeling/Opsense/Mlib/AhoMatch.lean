import Opsense.Mlib.AhoTrie

/-!
# What the matcher finds

After the breadth-first pass over the states the failure of each is the state of the longest word that its own word ends in and that
is shorter (`optimize_links`). So the state after any blocks is that of the longest word they end in, and a sample matches exactly
when it contains a pattern (`similar_iff_contains`). A failure is a shorter word, and no loop over failures goes on for ever.
-/

namespace Opsense

namespace Aho

open Automaton

variable {words : List (List String)} {m : Automaton} {P : List (List String)} {s k : Nat} {u w : List String} {b : String}

/-! ## The failures -/

/-- The failure of a state is the state of the longest word its word ends in, apart from itself. -/
def Failing (words : List (List String)) (m : Automaton) (i : Nat) : Prop :=
  ∀ w, words[i]? = some w → ∃ u, words[m.failureOf i]? = some u ∧ Longest {w | w ∈ words} w.tail u

theorem find?_key (t : Mapping) (b : String) : (t.toList.find? fun e => e.1 = b) = t[b]?.map fun s => (b, s) := by
  cases hfind : t.toList.find? fun e => e.1 = b with
  | none =>
    cases ht : t[b]? with
    | none => rfl
    | some s =>
      rw [List.find?_eq_none] at hfind
      simpa using hfind (b, s) (Std.TreeMap.mem_toList_iff_getElem?_eq_some.mpr ht)
  | some e =>
    obtain ⟨key, s⟩ := e
    obtain rfl : key = b := by simpa using List.find?_some hfind
    rw [Std.TreeMap.mem_toList_iff_getElem?_eq_some.mp (List.mem_of_find?_eq_some hfind)]
    rfl

theorem Trie.eq_zero_iff (h : Trie words m P) (hs : words[s]? = some u) : s = 0 ↔ u = [] := by
  constructor
  · rintro rfl
    exact Option.some.inj (hs.symm.trans h.root)
  · rintro rfl
    exact h.state_eq hs h.root

/-- From a state whose failures are right the label leads to the longest word. -/
theorem findFailure_spec (h : Trie words m P) (hshort : ∀ i w, words[i]? = some w → w.length < k → Failing words m i)
    (b : String) (hs : words[s]? = some u) (hk : u.length < k) : ∃ r v, (∀ fuel, u.length + 2 ≤ fuel →
      m.findFailure b fuel s false = some r) ∧ Longest {w | w ∈ words} (u ++ [b]) v ∧ words[r.getD 0]? = some v := by
  induction hn : u.length using Nat.strong_induction_on generalizing s u with
  | _ n ih =>
    subst hn
    cases hnext : (m.nextOf s)[b]? with
    | some j =>
      have hj := (h.child s u hs b j).mp hnext
      refine ⟨some j, u ++ [b], fun fuel hfuel => ?_, longest_self (List.mem_of_getElem? hj), hj⟩
      obtain ⟨fuel, rfl⟩ := Nat.exists_eq_add_of_le' (show 1 ≤ fuel by omega)
      simp [findFailure, find?_key, hnext]
    | none =>
      have hnot := h.not_mem hs hnext
      obtain ⟨u', hs', hlong⟩ := hshort s u hs hk u hs
      by_cases hu : u = []
      · subst hu
        obtain rfl := (h.eq_zero_iff hs).mpr rfl
        have hzero : m.failureOf 0 = 0 := (h.eq_zero_iff hs').mpr (List.suffix_nil.mp hlong.suffix)
        refine ⟨none, [], fun fuel hfuel => ?_, longest_nil h.beginnings hnot, h.root⟩
        obtain ⟨fuel, rfl⟩ := Nat.exists_eq_add_of_le' hfuel
        simp [findFailure, find?_key, hnext, hzero]
      · have hlt : u'.length < u.length := by
          have hle := hlong.length_le
          have hpos := List.length_pos_iff.mpr hu
          rw [List.length_tail] at hle
          omega
        have hne : m.failureOf s ≠ s := by
          intro heq
          rw [heq, hs] at hs'
          rw [Option.some.inj hs'] at hlt
          exact lt_irrefl _ hlt
        obtain ⟨r, v, hrun, hv, hr⟩ := ih _ hlt hs' (hlt.trans hk) rfl
        refine ⟨r, v, fun fuel hfuel => ?_, hlong.fall h.beginnings hu hnot hv, hr⟩
        obtain ⟨fuel, rfl⟩ := Nat.exists_eq_add_of_le' (show 1 ≤ fuel by omega)
        simpa [findFailure, find?_key, hnext, hne] using hrun fuel (by omega)

/-- Only the failures have changed. -/
theorem Trie.withFailure (h : Trie words m P) {failure : List Nat} (hlength : failure.length = words.length) :
    Trie words { m with failure } P :=
  ⟨h.labels, h.next, h.back, hlength, h.output, h.root, h.top, h.nodup, h.child, h.up, h.roots, h.outputs, h.kept⟩

/-- The tables when the failures of the words shorter than `k` are known. -/
structure Linked (words : List (List String)) (m : Automaton) (P : List (List String)) (k : Nat) : Prop extends Trie words m P where
  shorter : ∀ i w, words[i]? = some w → w.length < k → Failing words m i
  others : ∀ i, m.failureOf i = 0 ∨ Failing words m i

/-- The failure of a state of the next length. -/
theorem Linked.setFailure (h : Linked words m P k) {i : Nat} (hi : words[i]? = some w) (hk : w.length = k) :
    ∃ m', (∀ fuel, words.length + 2 ≤ fuel → m.setFailure fuel i = some m') ∧ Linked words m' P k ∧ m'.next = m.next ∧
      Failing words m' i ∧ ∀ j, Failing words m j → Failing words m' j := by
  have hroot : w.tail = [] → m.failureOf i = 0 → Failing words m i := by
    intro htail hzero v hv
    obtain rfl : w = v := Option.some.inj (hi.symm.trans hv)
    rw [hzero, htail]
    exact ⟨[], h.root, longest_self h.beginnings.nil⟩
  by_cases hback : m.back.getD i 0 = 0
  · refine ⟨m, fun fuel _ => ?_, h, rfl, (h.others i).elim (hroot ?_) id, fun j hj => hj⟩
    · exact if_pos hback
    · by_cases hi0 : i = 0
      · rw [(h.eq_zero_iff hi).mp hi0]
        rfl
      · obtain ⟨v, b, l, rfl, -, hl, -, hv⟩ := h.up i w hi hi0
        rw [← hl, hback, h.root] at hv
        rw [← Option.some.inj hv]
        rfl
  · have hi0 : i ≠ 0 := by
      rintro rfl
      exact hback h.top
    obtain ⟨v, b, l, rfl, hlabel, hl, -, hv⟩ := h.up i w hi hi0
    rw [hl] at hback
    have hlt : v.length < k := by
      rw [← hk]
      simp
    have hvne : v ≠ [] := fun hnil => hback ((h.eq_zero_iff hv).mpr hnil)
    obtain ⟨u, hu, hlong⟩ := h.shorter l v hv hlt v hv
    have hle := hlong.length_le
    rw [List.length_tail] at hle
    obtain ⟨r, x, hrun, hx, hr⟩ := findFailure_spec h.toTrie h.shorter b hu (by omega)
    have hstate : ∀ {m' : Automaton}, words[m'.failureOf i]? = some x → Failing words m' i := by
      intro m' hfail w hw
      obtain rfl : v ++ [b] = w := Option.some.inj (hi.symm.trans hw)
      rw [List.tail_append_of_ne_nil hvne]
      exact ⟨x, hfail, hlong.snoc h.beginnings hx⟩
    have hfuel : ∀ fuel, words.length + 2 ≤ fuel → u.length + 2 ≤ fuel := by
      intro fuel hfuel
      have hlength := h.length_le hu
      have hlt := (List.getElem?_eq_some_iff.mp hu).1
      omega
    cases r with
    | none =>
      have hset : ∀ fuel, words.length + 2 ≤ fuel → m.setFailure fuel i = some m := by
        intro fuel hle
        simp only [Automaton.setFailure, hl, if_neg hback, hlabel, hrun fuel (hfuel fuel hle), Option.map_some]
      refine ⟨m, hset, h, rfl, (h.others i).elim (fun hzero => hstate ?_) id, fun j hj => hj⟩
      rw [hzero]
      exact hr
    | some j =>
      have hset : ∀ fuel, words.length + 2 ≤ fuel → m.setFailure fuel i = some { m with failure := m.failure.set i j } := by
        intro fuel hle
        simp only [Automaton.setFailure, hl, if_neg hback, hlabel, hrun fuel (hfuel fuel hle), Option.map_some]
      have hilt : i < m.failure.length := h.failure ▸ (List.getElem?_eq_some_iff.mp hi).1
      have hfailure : ∀ j', ({ m with failure := m.failure.set i j } : Automaton).failureOf j' = if i = j' then j else m.failureOf j' := by
        intro j'
        simp only [failureOf, List.getD_eq_getElem?_getD]
        split_ifs with heq
        · subst heq
          rw [List.getElem?_set_self hilt]
          rfl
        · rw [List.getElem?_set_ne heq]
      have hself : Failing words { m with failure := m.failure.set i j } i := by
        refine hstate ?_
        rw [hfailure, if_pos rfl]
        exact hr
      have hkeep : ∀ j', Failing words m j' → Failing words { m with failure := m.failure.set i j } j' := by
        intro j' hj'
        by_cases heq : i = j'
        · exact heq ▸ hself
        · intro w hw
          rw [hfailure, if_neg heq]
          exact hj' w hw
      refine ⟨_, hset, ⟨h.withFailure (by rw [List.length_set, h.failure]), fun i' w hi' hlt => hkeep i' (h.shorter i' w hi' hlt), ?_⟩,
        rfl, hself, hkeep⟩
      intro j'
      by_cases heq : i = j'
      · exact .inr (heq ▸ hself)
      · refine (h.others j').imp (fun hzero => ?_) (hkeep j')
        rw [hfailure, if_neg heq, hzero]

/-! ## The pass over the states -/

/-- The states after a state, in the order of their blocks. -/
def childrenOf (next : List Mapping) (i : Nat) : List Nat := (next.getD i ∅).toList.map Prod.snd

/-- The states of the words of a length. -/
def levelOf (next : List Mapping) : Nat → List Nat
  | 0 => [0]
  | k + 1 => (levelOf next k).flatMap (childrenOf next)

theorem Trie.mem_levelOf (h : Trie words m P) (k i : Nat) : i ∈ levelOf m.next k ↔ ∃ w, words[i]? = some w ∧ w.length = k := by
  have hchild : ∀ j i, i ∈ childrenOf m.next j ↔ ∃ b : String, (m.nextOf j)[b]? = some i := by
    intro j i
    constructor
    · intro hi
      obtain ⟨⟨b, i⟩, hmem, rfl⟩ := List.mem_map.mp hi
      exact ⟨b, Std.TreeMap.mem_toList_iff_getElem?_eq_some.mp hmem⟩
    · rintro ⟨b, hb⟩
      exact List.mem_map.mpr ⟨(b, i), Std.TreeMap.mem_toList_iff_getElem?_eq_some.mpr hb, rfl⟩
  induction k generalizing i with
  | zero =>
    rw [levelOf, List.mem_singleton]
    constructor
    · rintro rfl
      exact ⟨[], h.root, rfl⟩
    · rintro ⟨w, hi, hw⟩
      exact (h.eq_zero_iff hi).mpr (List.length_eq_zero_iff.mp hw)
  | succ k ih =>
    simp only [levelOf, List.mem_flatMap, ih, hchild]
    constructor
    · rintro ⟨j, ⟨v, hj, rfl⟩, b, hb⟩
      exact ⟨v ++ [b], (h.child j v hj b i).mp hb, by simp⟩
    · rintro ⟨w, hi, hw⟩
      have hne : i ≠ 0 := by
        rintro rfl
        obtain rfl := (h.eq_zero_iff hi).mp rfl
        cases hw
      obtain ⟨v, b, j, rfl, -, -, -, hj⟩ := h.up i w hi hne
      exact ⟨j, ⟨v, hj, by simpa using hw⟩, b, (h.child j v hj b i).mpr hi⟩

/-- The pass over states of one length. -/
theorem Linked.mapFailures (is : List Nat) : ∀ {m : Automaton}, Linked words m P k →
    (∀ i ∈ is, ∃ w, words[i]? = some w ∧ w.length = k) → ∀ queue, ∃ m',
      (∀ fuel, words.length + 2 ≤ fuel → Automaton.mapFailures (fuel + is.length) (is ++ queue) m =
        Automaton.mapFailures fuel (queue ++ is.flatMap (childrenOf m.next)) m') ∧
      Linked words m' P k ∧ m'.next = m.next ∧ (∀ i ∈ is, Failing words m' i) ∧ ∀ j, Failing words m j → Failing words m' j := by
  induction is with
  | nil => exact fun {m} h _ queue => ⟨m, by simp, h, rfl, by simp, fun j hj => hj⟩
  | cons i is ih =>
    intro m h hlevel queue
    obtain ⟨w, hi, hk⟩ := hlevel i List.mem_cons_self
    obtain ⟨m₁, hset, h₁, hnext₁, hdone, hkeep₁⟩ := h.setFailure hi hk
    obtain ⟨m₂, hrun, h₂, hnext₂, hall, hkeep₂⟩ := ih h₁ (fun j hj => hlevel j (List.mem_cons_of_mem _ hj))
      (queue ++ childrenOf m.next i)
    refine ⟨m₂, fun fuel hfuel => ?_, h₂, hnext₂.trans hnext₁, ?_, fun j hj => hkeep₂ j (hkeep₁ j hj)⟩
    · have hstep := hrun fuel hfuel
      rw [hnext₁] at hstep
      rw [List.length_cons, ← Nat.add_assoc, List.cons_append, Automaton.mapFailures, hset _ (by omega)]
      simp only [nextOf, hnext₁, List.flatMap_cons]
      rw [List.append_assoc, ← List.append_assoc queue]
      exact hstep
    · intro j hj
      rcases List.mem_cons.mp hj with rfl | hj
      · exact hkeep₂ _ hdone
      · exact hall j hj

/-- The pass over the states that are left, from those of one length on. -/
theorem Linked.run (n : Nat) : ∀ {k : Nat} {m : Automaton}, Linked words m P k → words.length ≤ k + n → ∃ m',
    (∃ enough, ∀ fuel, enough ≤ fuel → Automaton.mapFailures fuel (levelOf m.next k) m = some m') ∧ Trie words m' P ∧
      ∀ i, Failing words m' i := by
  induction n with
  | zero =>
    intro k m h hk
    have hshort : ∀ (i : Nat) (w : List String), words[i]? = some w → w.length < k := by
      intro i w hi
      have hle := h.length_le hi
      have hlt := (List.getElem?_eq_some_iff.mp hi).1
      omega
    have hnil : levelOf m.next k = [] := by
      rw [List.eq_nil_iff_forall_not_mem]
      intro i hi
      obtain ⟨w, hw, hlen⟩ := (h.mem_levelOf k i).mp hi
      exact absurd hlen (hshort i w hw).ne
    refine ⟨m, ⟨0, fun fuel _ => ?_⟩, h.toTrie, fun i w hi => h.shorter i w hi (hshort i w hi) w hi⟩
    rw [hnil]
    cases fuel <;> rfl
  | succ n ih =>
    intro k m h hk
    obtain ⟨m₁, hrun, h₁, hnext, hlevel, hkeep⟩ := h.mapFailures (levelOf m.next k) (fun i hi => (h.mem_levelOf k i).mp hi) []
    have hlinked : Linked words m₁ P (k + 1) := by
      refine ⟨h₁.toTrie, fun i w hi hlt => ?_, h₁.others⟩
      by_cases hlen : w.length = k
      · exact hlevel i ((h.mem_levelOf k i).mpr ⟨w, hi, hlen⟩)
      · exact h₁.shorter i w hi (by omega)
    obtain ⟨m', ⟨enough, henough⟩, h', hall⟩ := ih hlinked (by omega)
    refine ⟨m', ⟨max enough (words.length + 2) + (levelOf m.next k).length, fun fuel hfuel => ?_⟩, h', hall⟩
    obtain ⟨fuel, rfl⟩ : ∃ fuel', fuel = fuel' + (levelOf m.next k).length := ⟨fuel - (levelOf m.next k).length, by omega⟩
    have hstep := hrun fuel (by omega)
    rw [List.append_nil, List.nil_append] at hstep
    have hrest := henough fuel (by omega)
    rw [hnext] at hrest
    rw [hstep]
    exact hrest

/-- The automaton that `optimize` makes: its outputs are those of the patterns, and its failures are right. -/
theorem optimize_links (a : AhoCorasick) : ∃ words P a', (∃ enough, ∀ fuel, enough ≤ fuel → a.optimize fuel = some a') ∧
    a'.callbacks = a.callbacks ∧ a'.is_optimized = true ∧ Trie words a'.toAutomaton P ∧ (∀ i, Failing words a'.toAutomaton i) ∧
    ∀ w, w ∈ P ↔ ∃ p ∈ a.patterns, a.callbacks.split_fn p = w := by
  obtain ⟨words, P, h, hP⟩ := build_trie a
  have hlinked : Linked words a.build P 0 := ⟨h.toTrie, fun i w _ hlt => absurd hlt (Nat.not_lt_zero _), fun i => .inl (h.failures i)⟩
  obtain ⟨m, ⟨enough, henough⟩, htrie, hall⟩ := hlinked.run words.length (by omega)
  refine ⟨words, P, { a with toAutomaton := m, is_optimized := true }, ⟨enough, fun fuel hfuel => ?_⟩, rfl, rfl, htrie, hall, hP⟩
  rw [AhoCorasick.optimize, show [0] = levelOf a.build.next 0 from rfl, henough fuel hfuel]
  rfl

/-! ## Reading a sample -/

section Scan

variable (h : Trie words m P) (hall : ∀ i, Failing words m i)

include hall in
/-- The rest of a word that is not empty is longer than the word of its failure. -/
theorem failure_lt (hs : words[s]? = some u) (hu : u ≠ []) :
    ∃ u', words[m.failureOf s]? = some u' ∧ Longest {w | w ∈ words} u.tail u' ∧ u'.length < u.length := by
  obtain ⟨u', hs', hlong⟩ := hall s u hs
  have hle := hlong.length_le
  have hpos := List.length_pos_iff.mpr hu
  rw [List.length_tail] at hle
  exact ⟨u', hs', hlong, by omega⟩

include h hall

/-- Over the failures every pattern is found that the word ends in. -/
theorem probe_spec (hP : [] ∉ P) (hs : words[s]? = some u) :
    ∃ r, (∀ fuel, u.length ≤ fuel → m.probe fuel s = some r) ∧ (r = true ↔ ∃ p ∈ P, p <:+ u) := by
  induction hn : u.length using Nat.strong_induction_on generalizing s u with
  | _ n ih =>
    subst hn
    have hsub : {p | p ∈ P} ⊆ {w | w ∈ words} := h.kept
    cases s with
    | zero =>
      obtain rfl := (h.eq_zero_iff hs).mp rfl
      refine ⟨false, fun fuel _ => by cases fuel <;> rfl, iff_of_false Bool.false_ne_true ?_⟩
      rintro ⟨p, hp, hsuf⟩
      exact hP (List.suffix_nil.mp hsuf ▸ hp)
    | succ s =>
      have hu : u ≠ [] := fun hnil => Nat.succ_ne_zero s ((h.eq_zero_iff hs).mpr hnil)
      obtain ⟨u', hs', hlong, hlt⟩ := failure_lt hall hs hu
      have hends := ends_iff_mem_or hsub hu hlong
      have hout := h.outputs _ u hs
      by_cases hmem : u ∈ P
      · refine ⟨true, fun fuel hfuel => ?_, iff_of_true rfl (hends.mpr (.inl hmem))⟩
        obtain ⟨fuel, rfl⟩ := Nat.exists_eq_add_of_le' (show 1 ≤ fuel by omega)
        rw [probe, if_pos (hout.mpr hmem)]
      · obtain ⟨r, hrun, hr⟩ := ih _ hlt hs' rfl
        refine ⟨r, fun fuel hfuel => ?_, ?_⟩
        · obtain ⟨fuel, rfl⟩ := Nat.exists_eq_add_of_le' (show 1 ≤ fuel by omega)
          rw [probe, if_neg (mt hout.mp hmem), hrun fuel (by omega)]
        · rw [hr]
          exact ⟨fun hp => hends.mpr (.inr hp), fun hp => (hends.mp hp).resolve_left hmem⟩

omit hall in
theorem rootInput_spec (b : String) :
    words[m.rootInput .default b]? = some [b] ∨ [b] ∉ words ∧ m.rootInput .default b = 0 := by
  have hlabel : ∀ i b', words[i]? = some [b'] → m.labels.getD i "" = b' := by
    intro i b' hi
    have hne : i ≠ 0 := fun h0 => List.cons_ne_nil _ _ ((h.eq_zero_iff hi).mp h0)
    obtain ⟨v, b'', k, heq, hl, -, -, -⟩ := h.up i _ hi hne
    obtain ⟨-, heq⟩ := List.append_inj' (show [] ++ [b'] = v ++ [b''] from heq) rfl
    rw [hl, List.singleton_inj.mp heq]
  unfold rootInput
  cases hfind : m.root_inputs.find? fun first_id => Callbacks.default.compare_fn b (m.labels.getD first_id "") with
  | none =>
    refine .inr ⟨fun hmem => ?_, rfl⟩
    obtain ⟨i, hi⟩ := List.mem_iff_getElem?.mp hmem
    have hnot := List.find?_eq_none.mp hfind i ((h.roots i).mpr ⟨b, hi⟩)
    rw [hlabel i b hi] at hnot
    exact hnot (beq_self_eq_true b)
  | some i =>
    obtain ⟨b', hi⟩ := (h.roots i).mp (List.mem_of_find?_eq_some hfind)
    have hcompare := List.find?_some hfind
    rw [hlabel i b' hi] at hcompare
    rw [beq_iff_eq.mp (show (b == b') = true from hcompare)]
    exact .inl hi

omit h hall in
theorem transition_default (m : Automaton) (s : Nat) (b : String) :
    m.transition .default s b = ((m.nextOf s)[b]?).getD 0 := by
  have hmapping : Callbacks.default.mapping_fn b (m.nextOf s) = (m.nextOf s)[b]? := rfl
  unfold transition
  rw [hmapping]
  cases hnext : (m.nextOf s)[b]? with
  | some j => rfl
  | none =>
    have hfind := find?_key (m.nextOf s) b
    rw [hnext, Option.map_none, List.find?_eq_none] at hfind
    have hnone : ((m.nextOf s).toList.find? fun e => Callbacks.default.compare_fn b e.1) = none := by
      rw [List.find?_eq_none]
      intro e he heq
      refine hfind e he (decide_eq_true ?_)
      exact (beq_iff_eq.mp (show (b == e.1) = true from heq)).symm
    dsimp only
    rw [hnone]
    rfl

omit h hall in
theorem scan_next {s' : Nat} (hnext : (if s = 0 then m.rootInput .default b else m.transition .default s b) = s')
    (hstay : ¬(s ≠ 0 ∧ s' = 0)) (fuel : Nat) (blocks : List String) : m.scan .default (fuel + 1) s (b :: blocks) =
      (m.probe fuel s').bind fun found => if found then some true else m.scan .default fuel s' blocks := by
  rw [scan, hnext, if_neg hstay]
  cases m.probe fuel s' with
  | none => rfl
  | some found => cases found <;> rfl

omit h hall in
theorem scan_fall (hs : s ≠ 0) (hnone : (m.nextOf s)[b]? = none) (fuel : Nat) (blocks : List String) :
    m.scan .default (fuel + 1) s (b :: blocks) = m.scan .default fuel (m.failureOf s) (b :: blocks) := by
  rw [scan, if_neg hs, transition_default, hnone]
  exact if_pos ⟨hs, rfl⟩

/-- A block leads to the longest word, after as many failures as it takes. -/
theorem step_spec (b : String) (hs : words[s]? = some u) : ∃ s' v d, words[s']? = some v ∧
    Longest {w | w ∈ words} (u ++ [b]) v ∧ ∀ fuel blocks, m.scan .default (fuel + d + 1) s (b :: blocks) =
      (m.probe fuel s').bind fun found => if found then some true else m.scan .default fuel s' blocks := by
  induction hn : u.length using Nat.strong_induction_on generalizing s u with
  | _ n ih =>
    subst hn
    by_cases hu : u = []
    · subst hu
      obtain rfl := (h.eq_zero_iff hs).mpr rfl
      have hrun := scan_next (m := m) (b := b) (if_pos rfl) fun hne => hne.1 rfl
      rcases rootInput_spec h b with hword | ⟨hnot, hzero⟩
      · exact ⟨_, _, 0, hword, longest_self (List.mem_of_getElem? hword), hrun⟩
      · rw [hzero] at hrun
        exact ⟨_, _, 0, h.root, longest_nil h.beginnings hnot, hrun⟩
    · have hs0 : s ≠ 0 := fun h0 => hu ((h.eq_zero_iff hs).mp h0)
      cases hnext : (m.nextOf s)[b]? with
      | some j =>
        have hj := (h.child s u hs b j).mp hnext
        have hj0 : j ≠ 0 := fun h0 => List.append_ne_nil_of_right_ne_nil u (List.cons_ne_nil b []) ((h.eq_zero_iff hj).mp h0)
        refine ⟨j, u ++ [b], 0, hj, longest_self (List.mem_of_getElem? hj), scan_next ?_ fun hne => hj0 hne.2⟩
        rw [if_neg hs0, transition_default, hnext]
        rfl
      | none =>
        obtain ⟨u', hs', hlong, hlt⟩ := failure_lt hall hs hu
        obtain ⟨s', v, d, hv, hlongest, hrun⟩ := ih _ hlt hs' rfl
        refine ⟨s', v, d + 1, hv, hlong.fall h.beginnings hu (h.not_mem hs hnext) hlongest, fun fuel blocks => ?_⟩
        rw [← Nat.add_assoc, scan_fall hs0 hnext]
        exact hrun fuel blocks

/-- A sample matches, from a state on, when a pattern is met in it. -/
theorem scan_spec (hP : [] ∉ P) (blocks : List String) : ∀ {s : Nat} {u before : List String}, words[s]? = some u →
    Longest {w | w ∈ words} before u → ∃ r, (∃ enough, ∀ fuel, enough ≤ fuel → m.scan .default fuel s blocks = some r) ∧
      (r = true ↔ Met {p | p ∈ P} before blocks) := by
  induction blocks with
  | nil =>
    intro s u before _ _
    exact ⟨false, ⟨0, fun fuel _ => by cases fuel <;> rfl⟩, iff_of_false Bool.false_ne_true (met_nil _ before)⟩
  | cons b blocks ih =>
    intro s u before hs hlong
    obtain ⟨s', v, d, hs', hlongest, hrun⟩ := step_spec h hall b hs
    have hbefore := hlong.snoc h.beginnings hlongest
    obtain ⟨found, hprobe, hfound⟩ := probe_spec h hall hP hs'
    have hends : found = true ↔ ∃ p ∈ P, p <:+ before ++ [b] := hfound.trans (hbefore.ends_iff h.kept).symm
    obtain ⟨r, ⟨enough, henough⟩, hr⟩ := ih hs' hbefore
    refine ⟨found || r, ⟨max enough v.length + d + 1, fun fuel hfuel => ?_⟩, ?_⟩
    · obtain ⟨fuel, rfl⟩ : ∃ fuel', fuel = fuel' + d + 1 := ⟨fuel - (d + 1), by omega⟩
      rw [hrun, hprobe fuel (by omega), Option.bind_some, henough fuel (by omega)]
      cases found <;> rfl
    · rw [met_cons, Bool.or_eq_true, hends, hr]
      exact Iff.rfl

end Scan

/-! ## Patterns -/

theorem split_default (s : String) : Callbacks.default.split_fn s = s.toList.map String.singleton := by
  have hchars : ∀ cs : List Char, (cs.map String.singleton).filter (fun block => !block.isEmpty) = cs.map String.singleton := by
    intro cs
    rw [List.filter_eq_self]
    intro block hblock
    obtain ⟨c, -, rfl⟩ := List.mem_map.mp hblock
    simp
  simp [Callbacks.default, Callbacks.splitEmpty, hchars]

theorem singleton_injective : Function.Injective String.singleton := by
  intro c c' heq
  simpa using congrArg String.toList heq

/-- A text contains another one when its characters do. -/
theorem infix_blocks_iff (p s : List Char) : p.map String.singleton <:+: s.map String.singleton ↔ p <:+: s := by
  rw [List.infix_map_iff]
  constructor
  · rintro ⟨l, hl, heq⟩
    rwa [List.map_injective_iff.mpr singleton_injective heq]
  · intro hp
    exact ⟨p, hp, rfl⟩

/-- The patterns that have been added are those of the mapping. -/
theorem mem_patterns_addAll (ps : List String) : (∀ p, (ps.foldl AhoCorasick.add .new).pattern_mapping.contains p = true ↔
    p ∈ (ps.foldl AhoCorasick.add .new).patterns) ∧ (ps.foldl AhoCorasick.add .new).callbacks = .default ∧
      ∀ p, p ∈ (ps.foldl AhoCorasick.add .new).patterns ↔ p ∈ ps ∧ p ≠ "" := by
  induction ps using List.reverseRecOn with
  | nil => simp [AhoCorasick.new, AhoCorasick.newWithCallbacks]
  | append_singleton ps q ih =>
    obtain ⟨hmapping, hcallbacks, hpatterns⟩ := ih
    rw [List.foldl_append, List.foldl_cons, List.foldl_nil]
    generalize ps.foldl AhoCorasick.add .new = a at hmapping hcallbacks hpatterns
    unfold AhoCorasick.add
    split_ifs with hnew
    · have hne : q ≠ "" := by
        rintro rfl
        simp at hnew
      refine ⟨fun p => ?_, hcallbacks, fun p => ?_⟩
      · rw [Std.TreeMap.contains_insert, Bool.or_eq_true, hmapping, beq_iff_eq, Std.LawfulEqCmp.compare_eq_iff_eq]
        simp only [List.mem_append, List.mem_singleton]
        rw [or_comm, eq_comm]
      · simp only [List.mem_append, List.mem_singleton, hpatterns]
        constructor
        · rintro (⟨hp, hp'⟩ | rfl)
          · exact ⟨.inl hp, hp'⟩
          · exact ⟨.inr rfl, hne⟩
        · rintro ⟨hp | rfl, hp'⟩
          · exact .inl ⟨hp, hp'⟩
          · exact .inr rfl
    · refine ⟨hmapping, hcallbacks, fun p => ?_⟩
      have hold : q = "" ∨ q ∈ ps := by
        by_contra hnot
        rw [not_or] at hnot
        have hcontains : a.pattern_mapping.contains q = false := by
          rw [← Bool.not_eq_true, hmapping]
          exact fun hq => hnot.2 ((hpatterns q).mp hq).1
        exact hnew (by simpa [hnot.1] using hcontains)
      rw [hpatterns, List.mem_append, List.mem_singleton]
      constructor
      · rintro ⟨hp, hp'⟩
        exact ⟨.inl hp, hp'⟩
      · rintro ⟨hp | rfl, hp'⟩
        · exact ⟨hp, hp'⟩
        · exact ⟨hold.resolve_left hp', hp'⟩

/-- With the default callbacks, whatever patterns were added: `optimize` comes to an end, and after it `similar` comes to an end and
finds a match in a sample exactly when one of the patterns, but for the empty one, occurs in it. -/
theorem similar_iff_contains (ps : List String) : ∃ a,
    (∃ enough, ∀ fuel, enough ≤ fuel → (ps.foldl AhoCorasick.add .new).optimize fuel = some a) ∧
      ∀ sample : String, ∃ enough, ∀ fuel, enough ≤ fuel →
        a.similar fuel sample = some (decide (∃ p ∈ ps, p ≠ "" ∧ p.toList <:+: sample.toList)) := by
  obtain ⟨-, hcallbacks, hpatterns⟩ := mem_patterns_addAll ps
  obtain ⟨words, P, a, hrun, hcb, hoptimized, htrie, hall, hP⟩ := optimize_links (ps.foldl AhoCorasick.add .new)
  refine ⟨a, hrun, fun sample => ?_⟩
  rw [hcallbacks] at hcb hP
  have hP' : ∀ w, w ∈ P ↔ ∃ p ∈ ps, p ≠ "" ∧ p.toList.map String.singleton = w := by
    intro w
    simp only [hP, hpatterns, split_default, and_assoc]
  have hnil : [] ∉ P := by
    rw [hP']
    rintro ⟨p, -, hne, hmap⟩
    exact hne (by simpa using hmap)
  obtain ⟨r, ⟨enough, henough⟩, hr⟩ := scan_spec htrie hall hnil (sample.toList.map String.singleton) htrie.root
    (longest_self htrie.beginnings.nil)
  refine ⟨enough, fun fuel hfuel => ?_⟩
  rw [AhoCorasick.similar, hoptimized, hcb, split_default]
  refine (henough fuel hfuel).trans (congrArg some ?_)
  rw [Bool.eq_iff_iff, decide_eq_true_eq, hr, met_iff_infix hnil]
  constructor
  · rintro ⟨w, hw, hinfix⟩
    obtain ⟨p, hp, hne, rfl⟩ := (hP' w).mp hw
    exact ⟨p, hp, hne, (infix_blocks_iff _ _).mp hinfix⟩
  · rintro ⟨p, hp, hne, hinfix⟩
    exact ⟨_, (hP' _).mpr ⟨p, hp, hne, rfl⟩, (infix_blocks_iff _ _).mpr hinfix⟩

/-- `bce` begins within `abcd`. -/
example : (((["abcd", "bce"].foldl AhoCorasick.add .new).optimize 12).bind fun a => a.similar 12 "abce") = some true := by
  decide +kernel

end Aho

end Opsense
