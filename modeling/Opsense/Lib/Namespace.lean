import Mathlib

/-!
# Places in a hierarchy

A store keeps its contents under keys that are paths from a root, and a part of a program keeps to the keys at some places and below
them. Two parts whose places do not lie within each other do not see what the other
writes (`independent_iff_frame`).
-/

namespace Opsense

section Paths

variable {κ : Type*}

/-- Neither of two paths leads through the other. -/
def Diverge (l m : List κ) : Prop := ¬l <+: m ∧ ¬m <+: l

theorem Diverge.symm {l m : List κ} (h : Diverge l m) : Diverge m l := ⟨h.2, h.1⟩

/-- No path leads through both of two paths that diverge. -/
theorem Diverge.not_both {l m p : List κ} (h : Diverge l m) (hl : l <+: p) : ¬m <+: p :=
  fun hm => (List.prefix_or_prefix_of_prefix hl hm).elim h.1 h.2

/-- Two places in directories: they are not the same, and neither of the directories is within the place in the other one. -/
theorem diverge_concat_iff {l m : List κ} {x y : κ} :
    Diverge (l ++ [x]) (m ++ [y]) ↔ ¬(l = m ∧ x = y) ∧ ¬l ++ [x] <+: m ∧ ¬m ++ [y] <+: l := by
  unfold Diverge
  rw [List.prefix_concat_iff, List.prefix_concat_iff, List.append_singleton_inj, List.append_singleton_inj, eq_comm (a := m),
    eq_comm (a := y)]
  tauto

/-- The parts of a text between separators. -/
def pieces [DecidableEq κ] (sep : κ) : List κ → List (List κ)
  | [] => [[]]
  | c :: cs =>
    if c = sep then [] :: pieces sep cs
    else
      match pieces sep cs with
      | [] => [[c]]
      | p :: ps => (c :: p) :: ps

theorem pieces_ne_nil [DecidableEq κ] (sep : κ) (cs : List κ) : pieces sep cs ≠ [] := by
  cases cs with
  | nil => exact List.cons_ne_nil _ _
  | cons c cs =>
    unfold pieces
    split
    · exact List.cons_ne_nil _ _
    · split <;> exact List.cons_ne_nil _ _

theorem pieces_append [DecidableEq κ] (sep : κ) (a b : List κ) : pieces sep (a ++ sep :: b) = pieces sep a ++ pieces sep b := by
  induction a with
  | nil => simp [pieces]
  | cons c a ih =>
    rw [List.cons_append, pieces, pieces, ih]
    split
    · rfl
    · cases h : pieces sep a with
      | nil => exact absurd h (pieces_ne_nil sep a)
      | cons p ps => rfl

theorem pieces_of_notMem [DecidableEq κ] {sep : κ} {cs : List κ} (h : sep ∉ cs) : pieces sep cs = [cs] := by
  induction cs with
  | nil => rfl
  | cons c cs ih =>
    rw [List.mem_cons, not_or] at h
    rw [pieces, if_neg (Ne.symm h.1), ih h.2]

/-- The parts of a text that are not empty. -/
def parts [DecidableEq κ] (sep : κ) (cs : List κ) : List (List κ) := (pieces sep cs).filter fun p => p ≠ []

theorem parts_append [DecidableEq κ] (sep : κ) (a b : List κ) : parts sep (a ++ sep :: b) = parts sep a ++ parts sep b := by
  unfold parts
  rw [pieces_append, List.filter_append]

/-- Separators at the beginning make no part. -/
theorem parts_dropWhile [DecidableEq κ] (sep : κ) (cs : List κ) : parts sep (cs.dropWhile (· = sep)) = parts sep cs := by
  induction cs with
  | nil => rfl
  | cons c cs ih =>
    by_cases hc : c = sep
    · subst hc
      rw [List.dropWhile_cons_of_pos (by simp), ih]
      exact (parts_append c [] cs).symm
    · rw [List.dropWhile_cons_of_neg (by simpa using hc)]

/-- Nor do separators at the end. -/
theorem parts_rdropWhile [DecidableEq κ] (sep : κ) (cs : List κ) : parts sep (cs.rdropWhile (· = sep)) = parts sep cs := by
  induction cs using List.reverseRecOn with
  | nil => rfl
  | append_singleton cs c ih =>
    by_cases hc : c = sep
    · subst hc
      rw [List.rdropWhile_concat_pos _ _ _ (by simp), ih, parts_append]
      exact (List.append_nil _).symm
    · rw [List.rdropWhile_concat_neg _ _ _ (by simpa using hc)]

theorem parts_of_notMem [DecidableEq κ] {sep : κ} {cs : List κ} (h : sep ∉ cs) : parts sep cs = if cs = [] then [] else [cs] := by
  unfold parts
  rw [pieces_of_notMem h]
  split <;> simp_all

end Paths

section Stores

variable {ρ κ β : Type*}

/-- A key: a root and a path from it. -/
abbrev Place (ρ κ : Type*) := ρ × List κ

/-- The key is at one of the places or below it. -/
def Within (places : List (Place ρ κ)) (key : Place ρ κ) : Prop := ∃ l ∈ places, l.1 = key.1 ∧ l.2 <+: key.2

/-- Nothing but what is within the places is changed. -/
def WritesWithin (places : List (Place ρ κ)) (f : (Place ρ κ → β) → Place ρ κ → β) : Prop :=
  ∀ w key, ¬Within places key → f w key = w key

/-- The answer depends on nothing but what is within the places. -/
def ReadsWithin {α : Type*} (places : List (Place ρ κ)) (g : (Place ρ κ → β) → α) : Prop :=
  ∀ w w', (∀ key, Within places key → w key = w' key) → g w = g w'

/-- No place of the one part is within a place of the other. -/
def Independent (l m : List (Place ρ κ)) : Prop := ∀ a ∈ l, ∀ b ∈ m, a.1 = b.1 → Diverge a.2 b.2

variable {l m : List (Place ρ κ)}

theorem Independent.diverge {a b : Place ρ κ} (h : Independent l m) (ha : a ∈ l) (hb : b ∈ m) (hroot : a.1 = b.1) : Diverge a.2 b.2 :=
  h a ha b hb hroot

/-- What is written within places does not change what is read within others that are independent of them. -/
theorem Independent.frame {α : Type*} (h : Independent l m) {f : (Place ρ κ → β) → Place ρ κ → β} (hf : WritesWithin l f)
    {g : (Place ρ κ → β) → α} (hg : ReadsWithin m g) (w : Place ρ κ → β) : g (f w) = g w := by
  refine hg _ _ fun key hkey => hf w key ?_
  rintro ⟨a, ha, hroot, hprefix⟩
  obtain ⟨b, hb, hroot', hprefix'⟩ := hkey
  exact (h a ha b hb (hroot.trans hroot'.symm)).not_both hprefix hprefix'

theorem Independent.symm (h : Independent l m) : Independent m l :=
  fun b hb a ha hroot => (h a ha b hb hroot.symm).symm

/-- A key within places of both is written for the one and read for the other. -/
theorem interferes_of_within [Nontrivial β] {key : Place ρ κ} (hl : Within l key) (hm : Within m key) :
    ∃ (f : (Place ρ κ → β) → Place ρ κ → β) (g : (Place ρ κ → β) → β) (w : Place ρ κ → β),
      WritesWithin l f ∧ ReadsWithin m g ∧ g (f w) ≠ g w := by
  classical
  obtain ⟨x, y, hxy⟩ := exists_pair_ne β
  refine ⟨fun w => Function.update w key y, fun w => w key, fun _ => x, ?_, ?_, ?_⟩
  · intro w other hother
    refine Function.update_of_ne ?_ y w
    rintro rfl
    exact hother hl
  · intro w w' h
    exact h key hm
  · simpa using hxy.symm

/-- Places are independent exactly where nothing written within the ones changes what is read within the others. -/
theorem independent_iff_frame [Nontrivial β] :
    Independent l m ↔ ∀ f : (Place ρ κ → β) → Place ρ κ → β, WritesWithin l f →
      ∀ g : (Place ρ κ → β) → β, ReadsWithin m g → ∀ w, g (f w) = g w := by
  constructor
  · intro h f hf g hg w
    exact h.frame hf hg w
  · intro h a ha b hb hroot
    -- the deeper of the two places is within both
    have hnot : ∀ key, Within l key → ¬Within m key := by
      intro key hl hm
      obtain ⟨f, g, w, hf, hg, hne⟩ := interferes_of_within (β := β) hl hm
      exact hne (h f hf g hg w)
    constructor
    · intro hprefix
      exact hnot b ⟨a, ha, hroot, hprefix⟩ ⟨b, hb, rfl, List.prefix_rfl⟩
    · intro hprefix
      exact hnot a ⟨a, ha, rfl, List.prefix_rfl⟩ ⟨b, hb, hroot.symm, hprefix⟩

end Stores

end Opsense
