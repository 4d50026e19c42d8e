import Opsense.Lib.Entries
import Opsense.Mlib.AhoCorasick

/-!
# The words of the automaton

Every state of the automaton stands for a word of blocks: the tables say which state a word with one block more is (`Trie`). The
words are the beginnings of the patterns, and the states with an output are those of the patterns (`build_trie`).
-/

namespace Opsense

namespace Aho

open Automaton

variable {words : List (List String)} {m : Automaton} {P : List (List String)} {s state : Nat} {u w : List String} {b : String}

/-- The tables of an automaton whose states stand for these words, where those of `P` have an output. -/
structure Trie (words : List (List String)) (m : Automaton) (P : List (List String)) : Prop where
  labels : m.labels.length = words.length
  next : m.next.length = words.length
  back : m.back.length = words.length
  failure : m.failure.length = words.length
  output : m.output.length = words.length
  root : words[0]? = some []
  top : m.back.getD 0 0 = 0
  nodup : words.Nodup
  child : ∀ i w, words[i]? = some w → ∀ b j, (m.nextOf i)[b]? = some j ↔ words[j]? = some (w ++ [b])
  up : ∀ i w, words[i]? = some w → i ≠ 0 → ∃ v b k, w = v ++ [b] ∧ m.labels.getD i "" = b ∧ m.back.getD i 0 = k ∧ k < i ∧
    words[k]? = some v
  roots : ∀ i, i ∈ m.root_inputs ↔ ∃ b, words[i]? = some [b]
  outputs : ∀ i w, words[i]? = some w → ((m.output.getD i none).isSome = true ↔ w ∈ P)
  kept : ∀ p ∈ P, p ∈ words

namespace Trie

/-- A word has one state. -/
theorem state_eq (h : Trie words m P) {i j : Nat} (hi : words[i]? = some w) (hj : words[j]? = some w) : i = j := by
  obtain ⟨hlt, hi⟩ := List.getElem?_eq_some_iff.mp hi
  obtain ⟨hlt', hj⟩ := List.getElem?_eq_some_iff.mp hj
  exact (List.Nodup.getElem_inj_iff h.nodup).mp (hi.trans hj.symm)

theorem beginnings (h : Trie words m P) : Beginnings {w | w ∈ words} := by
  constructor
  · exact List.mem_of_getElem? h.root
  · intro w a hw
    obtain ⟨i, hi⟩ := List.mem_iff_getElem?.mp hw
    have hne : i ≠ 0 := by
      rintro rfl
      rw [h.root] at hi
      simp at hi
    obtain ⟨v, b, k, heq, -, -, -, hk⟩ := h.up i _ hi hne
    obtain ⟨rfl, -⟩ := List.append_inj' heq rfl
    exact List.mem_of_getElem? hk

/-- The number of a state is at least the length of its word. -/
theorem length_le (h : Trie words m P) {i : Nat} (hi : words[i]? = some w) : w.length ≤ i := by
  induction i using Nat.strong_induction_on generalizing w with
  | _ i ih =>
    by_cases hne : i = 0
    · subst hne
      rw [h.root] at hi
      obtain rfl := Option.some.inj hi
      exact le_rfl
    · obtain ⟨v, b, k, rfl, -, -, hlt, hk⟩ := h.up i w hi hne
      have hle := ih k hlt hk
      simp only [List.length_append, List.length_singleton]
      omega

/-- A state and a block without a next state. -/
theorem not_mem (h : Trie words m P) (hs : words[s]? = some u) (hnone : (m.nextOf s)[b]? = none) : u ++ [b] ∉ words := by
  intro hmem
  obtain ⟨j, hj⟩ := List.mem_iff_getElem?.mp hmem
  have hsome := (h.child s u hs b j).mpr hj
  rw [hnone] at hsome
  cases hsome

end Trie

section Grow

/-- The words with that of a new state. -/
theorem word_snoc (words : List (List String)) (u : List String) (b : String) (i : Nat) (w : List String) :
    (words ++ [u ++ [b]])[i]? = some w ↔ words[i]? = some w ∨ i = words.length ∧ w = u ++ [b] := by
  constructor
  · exact getElem?_snoc
  · rintro (hi | ⟨rfl, rfl⟩)
    · rw [List.getElem?_append_left (List.getElem?_eq_some_iff.mp hi).1, hi]
    · exact List.getElem?_concat_length

theorem getD_snoc {α : Type} (as : List α) (a d : α) (i : Nat) :
    (as ++ [a]).getD i d = if i = as.length then a else as.getD i d := by
  simp only [List.getD_eq_getElem?_getD]
  split_ifs with heq
  · simp [heq]
  · rcases Nat.lt_or_gt_of_ne heq with hlt | hgt
    · rw [List.getElem?_append_left hlt]
    · rw [List.getElem?_eq_none (by simp; omega), List.getElem?_eq_none (by omega)]

theorem nextOf_grow (h : m.next.length = m.labels.length) (hlt : s < m.labels.length) (i : Nat) :
    (m.grow s b).nextOf i =
      if i = m.labels.length then ∅ else if i = s then (m.nextOf i).insert b m.labels.length else m.nextOf i := by
  simp only [Automaton.grow, nextOf, getD_snoc, List.length_modify, h]
  split_ifs with hend heq
  · rfl
  · subst heq
    simp [List.getD_eq_getElem?_getD, List.getElem?_eq_getElem (h.symm ▸ hlt)]
  · simp [List.getD_eq_getElem?_getD, Ne.symm heq]

/-- The tables of a new state, whose word is not among the others. -/
theorem Trie.grow (h : Trie words m P) (hs : words[s]? = some u) (hnone : (m.nextOf s)[b]? = none) :
    Trie (words ++ [u ++ [b]]) (m.grow s b) P := by
  have hnew := h.not_mem hs hnone
  have hlt : s < words.length := (List.getElem?_eq_some_iff.mp hs).1
  have hold : ∀ {i : Nat} {w : List String}, words[i]? = some w → i ≠ words.length := fun hi =>
    (List.getElem?_eq_some_iff.mp hi).1.ne
  refine ⟨by simp [Automaton.grow, h.labels], by simp [Automaton.grow, h.next], by simp [Automaton.grow, h.back],
    by simp [Automaton.grow, h.failure], by simp [Automaton.grow, h.output], (word_snoc words u b 0 []).mpr (.inl h.root), ?_, ?_, ?_, ?_,
    ?_, ?_, fun p hp => List.mem_append_left _ (h.kept p hp)⟩
  · simp only [Automaton.grow, getD_snoc, h.back]
    rw [if_neg (by omega), h.top]
  · refine List.nodup_append.mpr ⟨h.nodup, List.nodup_singleton _, ?_⟩
    rintro v hv w hw rfl
    exact hnew (List.mem_singleton.mp hw ▸ hv)
  · intro i w hi b' j
    rw [nextOf_grow (h.next.trans h.labels.symm) (h.labels ▸ hlt), h.labels, word_snoc words u b]
    rcases (word_snoc words u b i w).mp hi with hi | ⟨rfl, rfl⟩
    · rw [if_neg (hold hi)]
      by_cases his : i = s
      · subst his
        obtain rfl : u = w := Option.some.inj (hs.symm.trans hi)
        rw [if_pos rfl, Std.TreeMap.getElem?_insert]
        by_cases hb : b = b'
        · subst hb
          simp only [Std.LawfulEqCmp.compare_eq_iff_eq, if_true, Option.some.injEq]
          constructor
          · rintro rfl
            exact .inr ⟨rfl, trivial⟩
          · rintro (hj | ⟨rfl, -⟩)
            · exact absurd (List.mem_of_getElem? hj) hnew
            · rfl
        · rw [if_neg (by simpa [Std.LawfulEqCmp.compare_eq_iff_eq] using hb), h.child i u hi]
          simp [Ne.symm hb]
      · rw [if_neg his, h.child i w hi]
        have hne : w ≠ u := by
          intro heq
          exact his (h.state_eq hi (heq ▸ hs))
        simp [hne]
    · -- nothing goes on from the new word
      rw [if_pos rfl]
      simp only [Std.TreeMap.getElem?_emptyc, reduceCtorEq, false_iff, not_or, not_and]
      constructor
      · intro hj
        exact hnew (h.beginnings.init _ b' (List.mem_of_getElem? hj))
      · simp
  · intro i w hi hne
    simp only [Automaton.grow, getD_snoc, h.labels, h.back]
    rcases (word_snoc words u b i w).mp hi with hi | ⟨rfl, rfl⟩
    · obtain ⟨v, b', k, hw, hlabel, hback, hk, hword⟩ := h.up i w hi hne
      rw [if_neg (hold hi), if_neg (hold hi)]
      exact ⟨v, b', k, hw, hlabel, hback, hk, (word_snoc words u b k v).mpr (.inl hword)⟩
    · rw [if_pos rfl, if_pos rfl]
      exact ⟨u, b, s, rfl, rfl, rfl, hlt, (word_snoc words u b s u).mpr (.inl hs)⟩
  · intro i
    simp only [word_snoc words u b]
    have hroots : i ∈ (m.grow s b).root_inputs ↔ i ∈ m.root_inputs ∨ s = 0 ∧ i = words.length := by
      simp only [Automaton.grow, h.labels]
      split_ifs with hs0 <;> simp [hs0]
    have hu : s = 0 ↔ u = [] := by
      constructor
      · rintro rfl
        exact Option.some.inj (hs.symm.trans h.root)
      · rintro rfl
        exact h.state_eq hs h.root
    rw [hroots, h.roots, hu]
    constructor
    · rintro (⟨b', hb'⟩ | ⟨rfl, rfl⟩)
      · exact ⟨b', .inl hb'⟩
      · exact ⟨b, .inr ⟨rfl, rfl⟩⟩
    · rintro ⟨b', hb' | ⟨rfl, heq⟩⟩
      · exact .inl ⟨b', hb'⟩
      · exact .inr ⟨by simpa using congrArg List.length heq, rfl⟩
  · intro i w hi
    simp only [Automaton.grow, getD_snoc, h.output]
    rcases (word_snoc words u b i w).mp hi with hi | ⟨rfl, rfl⟩
    · rw [if_neg (hold hi)]
      exact h.outputs i w hi
    · rw [if_pos rfl]
      exact iff_of_false Bool.false_ne_true fun hmem => hnew (h.kept _ hmem)

end Grow

/-! ## Patterns -/

/-- The tables before the failures are known. -/
structure Built (words : List (List String)) (m : Automaton) (P : List (List String)) : Prop extends Trie words m P where
  failures : ∀ i, m.failureOf i = 0

theorem built_root : Built [[]] .root [] := by
  refine ⟨⟨rfl, rfl, rfl, rfl, rfl, rfl, rfl, List.nodup_singleton _, ?_, ?_, ?_, ?_, fun p hp => absurd hp List.not_mem_nil⟩, ?_⟩
  · intro i w hi b j
    obtain ⟨rfl, rfl⟩ : i = 0 ∧ w = [] := by
      cases i <;> simp at hi
      exact ⟨rfl, hi⟩
    cases j <;> simp [root, nextOf]
  · intro i w hi hne
    cases i with
    | zero => exact absurd rfl hne
    | succ i => simp at hi
  · intro i
    cases i <;> simp [root]
  · intro i w hi
    cases i <;> simp [root] at hi ⊢
  · intro i
    cases i <;> simp [root, failureOf]

namespace Built

/-- A block leads to the word with the block. -/
theorem addBlock (h : Built words m P) (hs : words[s]? = some u) (b : String) :
    ∃ words' m' s', Automaton.addBlock (m, s, words.length) b = (m', s', words'.length) ∧ Built words' m' P ∧
      words'[s']? = some (u ++ [b]) := by
  unfold Automaton.addBlock
  dsimp only
  cases hnext : (m.nextOf s)[b]? with
  | some s' => exact ⟨words, m, s', rfl, h, (h.child s u hs b s').mp hnext⟩
  | none =>
    refine ⟨words ++ [u ++ [b]], m.grow s b, words.length, by simp, ⟨h.toTrie.grow hs hnext, fun i => ?_⟩,
      List.getElem?_concat_length⟩
    have hfail := h.failures i
    simp only [Automaton.grow, failureOf, getD_snoc] at hfail ⊢
    split_ifs
    · rfl
    · exact hfail

theorem addBlocks (h : Built words m P) (hs : words[s]? = some u) (bs : List String) :
    ∃ words' m' s', bs.foldl Automaton.addBlock (m, s, words.length) = (m', s', words'.length) ∧ Built words' m' P ∧
      words'[s']? = some (u ++ bs) := by
  induction bs generalizing words m s u with
  | nil => exact ⟨words, m, s, rfl, h, by rwa [List.append_nil]⟩
  | cons b bs ih =>
    obtain ⟨words', m', s', hstep, h', hs'⟩ := h.addBlock hs b
    obtain ⟨words'', m'', s'', hrun, h'', hs''⟩ := ih h' hs'
    exact ⟨words'', m'', s'', by rw [List.foldl_cons, hstep, hrun], h'', by simpa using hs''⟩

/-- The state of a pattern gets an output. -/
theorem setOutput (h : Built words m P) (hs : words[s]? = some u) (i : Nat) :
    Built words { m with output := m.output.set s (some i) } (u :: P) := by
  have hlt : s < m.output.length := by
    rw [h.output]
    exact (List.getElem?_eq_some_iff.mp hs).1
  refine ⟨⟨h.labels, h.next, h.back, h.failure, by simp [h.output], h.root, h.top, h.nodup, h.child, h.up, h.roots, ?_, ?_⟩, h.failures⟩
  · intro j w hj
    have hout := h.outputs j w hj
    rw [List.getD_eq_getElem?_getD] at hout ⊢
    by_cases heq : s = j
    · subst heq
      obtain rfl : u = w := Option.some.inj (hs.symm.trans hj)
      simp [List.getElem?_set_self hlt]
    · have hne : w ≠ u := by
        intro hw
        exact heq (h.state_eq hs (hw ▸ hj))
      rw [List.getElem?_set_ne heq, hout]
      simp [hne]
  · intro p hp
    rcases List.mem_cons.mp hp with rfl | hp
    · exact List.mem_of_getElem? hs
    · exact h.kept p hp

theorem addPatterns (h : Built words m P) (split_fn : String → List String) (patterns : List (String × Nat)) :
    ∃ words' m' P', patterns.foldl (addPattern split_fn) (m, words.length) = (m', words'.length) ∧ Built words' m' P' ∧
      ∀ w, w ∈ P' ↔ w ∈ P ∨ ∃ p ∈ patterns, split_fn p.1 = w := by
  induction patterns generalizing words m P with
  | nil => exact ⟨words, m, P, rfl, h, by simp⟩
  | cons p patterns ih =>
    obtain ⟨words', m', s', hblocks, h', hs'⟩ := h.addBlocks h.root (split_fn p.1)
    obtain ⟨words'', m'', P'', hrun, h'', hP⟩ := ih (h'.setOutput hs' p.2)
    refine ⟨words'', m'', P'', ?_, h'', ?_⟩
    · rw [List.foldl_cons]
      simp only [addPattern, hblocks]
      exact hrun
    · intro w
      simp only [hP, List.nil_append, List.mem_cons, exists_eq_or_imp, eq_comm (a := w)]
      tauto

end Built

/-- The states with an output are those of the patterns. -/
theorem build_trie (a : AhoCorasick) :
    ∃ words P, Built words a.build P ∧ ∀ w, w ∈ P ↔ ∃ p ∈ a.patterns, a.callbacks.split_fn p = w := by
  obtain ⟨words, m, P, hrun, h, hP⟩ := built_root.addPatterns a.callbacks.split_fn a.patterns.zipIdx
  refine ⟨words, P, ?_, ?_⟩
  · rw [AhoCorasick.build, show (1 : Nat) = [([] : List String)].length from rfl, hrun]
    exact h
  · intro w
    rw [hP]
    constructor
    · rintro (hnil | ⟨p, hp, rfl⟩)
      · cases hnil
      · exact ⟨p.1, List.fst_mem_of_mem_zipIdx hp, rfl⟩
    · rintro ⟨p, hp, rfl⟩
      obtain ⟨i, hi⟩ := List.mem_iff_getElem?.mp hp
      exact .inr ⟨(p, i), List.mem_zipIdx_iff_getElem?.mpr hi, rfl⟩

end Aho

end Opsense
