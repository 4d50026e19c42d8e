import Mathlib

/-!
# The longest suffix in a set of words

`Longest W w u` says that `u` is the longest suffix of `w` among the words of `W`. In a set that is closed under dropping the last
letter it is found letter by letter (`Longest.snoc`), and where a word with one letter more is not in the set it is found from the
longest suffix of the rest of the word (`Longest.fall`). What ends in a word of the set ends in the longest suffix as well
(`Longest.ends_iff`).
-/

namespace Opsense

variable {α : Type*} {W P : Set (List α)} {u v w : List α} {a : α}

/-- A set of words with their beginnings. -/
structure Beginnings (W : Set (List α)) : Prop where
  nil : [] ∈ W
  init : ∀ w a, w ++ [a] ∈ W → w ∈ W

structure Longest (W : Set (List α)) (w u : List α) : Prop where
  mem : u ∈ W
  suffix : u <:+ w
  longest : ∀ v ∈ W, v <:+ w → v <:+ u

theorem longest_self (h : w ∈ W) : Longest W w w := ⟨h, List.suffix_rfl, fun _ _ hv => hv⟩

theorem Longest.length_le (h : Longest W w u) : u.length ≤ w.length := h.suffix.length_le

/-- With one letter more, the longest suffix comes from the one before. -/
theorem Longest.snoc (hW : Beginnings W) (h : Longest W w u) (h' : Longest W (u ++ [a]) v) : Longest W (w ++ [a]) v := by
  refine ⟨h'.mem, h'.suffix.trans ?_, ?_⟩
  · obtain ⟨t, rfl⟩ := h.suffix
    exact ⟨t, by simp⟩
  · intro x hx hsuf
    refine h'.longest x hx ?_
    rcases List.suffix_concat_iff.mp hsuf with rfl | ⟨t, rfl, ht⟩
    · exact List.nil_suffix
    · obtain ⟨s, hs⟩ := h.longest t (hW.init t a hx) ht
      exact ⟨s, by rw [← hs, List.append_assoc]⟩

/-- Where no word goes on with the letter, the rest of the word decides. -/
theorem Longest.fall (hW : Beginnings W) (hu : u ≠ []) (hnot : u ++ [a] ∉ W) {f : List α} (hf : Longest W u.tail f)
    (h : Longest W (f ++ [a]) v) : Longest W (u ++ [a]) v := by
  have htail := hf.snoc hW h
  obtain ⟨b, u, rfl⟩ := List.exists_cons_of_ne_nil hu
  refine ⟨htail.mem, htail.suffix.trans (List.suffix_cons b _), ?_⟩
  intro x hx hsuf
  rcases List.suffix_cons_iff.mp hsuf with rfl | hsuf
  · exact absurd hx hnot
  · exact htail.longest x hx hsuf

/-- No word is the letter alone. -/
theorem longest_nil (hW : Beginnings W) (hnot : [a] ∉ W) : Longest W [a] [] := by
  refine ⟨hW.nil, List.nil_suffix, ?_⟩
  intro x hx hsuf
  rcases List.suffix_cons_iff.mp hsuf with rfl | hsuf
  · exact absurd hx hnot
  · exact hsuf

/-- A word ends in one of these words exactly when its longest suffix does. -/
theorem Longest.ends_iff (hP : P ⊆ W) (h : Longest W w u) : (∃ p ∈ P, p <:+ w) ↔ ∃ p ∈ P, p <:+ u := by
  constructor
  · rintro ⟨p, hp, hsuf⟩
    exact ⟨p, hp, h.longest p (hP hp) hsuf⟩
  · rintro ⟨p, hp, hsuf⟩
    exact ⟨p, hp, hsuf.trans h.suffix⟩

/-- The words a word ends in are the word itself and those its rest ends in. -/
theorem ends_iff_mem_or (hP : P ⊆ W) (hu : u ≠ []) {f : List α} (hf : Longest W u.tail f) :
    (∃ p ∈ P, p <:+ u) ↔ u ∈ P ∨ ∃ p ∈ P, p <:+ f := by
  rw [← hf.ends_iff hP]
  obtain ⟨b, u, rfl⟩ := List.exists_cons_of_ne_nil hu
  constructor
  · rintro ⟨p, hp, hsuf⟩
    rcases List.suffix_cons_iff.mp hsuf with rfl | hsuf
    · exact .inl hp
    · exact .inr ⟨p, hp, hsuf⟩
  · rintro (hp | ⟨p, hp, hsuf⟩)
    · exact ⟨_, hp, List.suffix_rfl⟩
    · exact ⟨p, hp, hsuf.trans (List.suffix_cons b u)⟩

/-- The words that are met while a text is read, letter by letter. -/
def Met (P : Set (List α)) (before text : List α) : Prop := ∃ t, t ≠ [] ∧ t <+: text ∧ ∃ p ∈ P, p <:+ before ++ t

theorem met_nil (P : Set (List α)) (before : List α) : ¬Met P before [] := by
  rintro ⟨t, hne, ht, -⟩
  exact hne (List.prefix_nil.mp ht)

theorem met_cons (P : Set (List α)) (before : List α) (a : α) (text : List α) :
    Met P before (a :: text) ↔ (∃ p ∈ P, p <:+ before ++ [a]) ∨ Met P (before ++ [a]) text := by
  constructor
  · rintro ⟨t, hne, ht, hp⟩
    obtain ⟨b, t, rfl⟩ := List.exists_cons_of_ne_nil hne
    obtain ⟨rfl, hrest⟩ := List.cons_prefix_cons.mp ht
    by_cases hnil : t = []
    · subst hnil
      exact .inl hp
    · exact .inr ⟨t, hnil, hrest, by simpa using hp⟩
  · rintro (hp | ⟨t, hne, ht, hp⟩)
    · exact ⟨[a], List.cons_ne_nil _ _, by simp, hp⟩
    · exact ⟨a :: t, List.cons_ne_nil _ _, by simpa using ht, by simpa using hp⟩

/-- Words that are not empty are met in a text exactly when it contains one. -/
theorem met_iff_infix (hP : [] ∉ P) (text : List α) : Met P [] text ↔ ∃ p ∈ P, p <:+: text := by
  constructor
  · rintro ⟨t, -, ht, p, hp, hsuf⟩
    exact ⟨p, hp, List.infix_iff_suffix_prefix.mpr ⟨t, hsuf, ht⟩⟩
  · rintro ⟨p, hp, hinfix⟩
    obtain ⟨t, hsuf, ht⟩ := List.infix_iff_suffix_prefix.mp hinfix
    refine ⟨t, ?_, ht, p, hp, hsuf⟩
    rintro rfl
    exact hP (List.suffix_nil.mp hsuf ▸ hp)

end Opsense
