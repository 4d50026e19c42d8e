import Mathlib

/-!
# The readings of a text of entries

Entries of a key and a value are written one after the other, with a mark between the key and the value and a mark at the end of an
entry. Nothing is escaped, so that a text has several readings. Two lists of entries have one text when they are joined by steps that
move the end of a key or cut a value (`text_eq_iff`), and a list is the only reading of its text when it has no entry, or one entry
without a mark between key and value in it (`eq_of_alone`, `exists_other`).
-/

namespace Opsense

namespace Readings

variable {α : Type*} (mark stop : α)

/-- The text of entries: each its key, `mark`, its value and `stop`. -/
def text (es : List (List α × List α)) : List α := es.flatMap fun e => e.1 ++ mark :: (e.2 ++ [stop])

/-- One step between two readings: a key ends at a later mark, or a value is cut at a stop into a value and one more entry. -/
inductive Moved : List (List α × List α) → List (List α × List α) → Prop
  | shift (es fs : List (List α × List α)) (k w v : List α) :
      Moved (es ++ (k, w ++ mark :: v) :: fs) (es ++ (k ++ mark :: w, v) :: fs)
  | cut (es fs : List (List α × List α)) (k v k' v' : List α) :
      Moved (es ++ (k, v ++ stop :: (k' ++ mark :: v')) :: fs) (es ++ (k, v) :: (k', v') :: fs)

/-- No entry, or one whose key and value are free of the mark between them. -/
def Alone (es : List (List α × List α)) : Prop := es = [] ∨ ∃ k v, es = [(k, v)] ∧ mark ∉ k ∧ mark ∉ v

variable {mark stop} {es fs : List (List α × List α)}

@[simp] theorem text_nil : text mark stop [] = [] := rfl

theorem text_cons (k v : List α) (es : List (List α × List α)) :
    text mark stop ((k, v) :: es) = k ++ mark :: (v ++ stop :: text mark stop es) := by
  unfold text
  simp

theorem text_append (es fs : List (List α × List α)) :
    text mark stop (es ++ fs) = text mark stop es ++ text mark stop fs := List.flatMap_append

theorem mark_mem_text (e : List α × List α) (es : List (List α × List α)) : mark ∈ text mark stop (e :: es) := by
  obtain ⟨k, v⟩ := e
  rw [text_cons]
  simp

/-- A text is cut at its first mark in one way. -/
theorem first_mark {k k' w w' : List α} (hk : mark ∉ k) (hk' : mark ∉ k') (h : k ++ mark :: w = k' ++ mark :: w') :
    k = k' ∧ w = w' := by
  rcases List.append_eq_append_iff.mp h with ⟨l, rfl, hl⟩ | ⟨l, rfl, hl⟩
  · cases l with
    | nil => simpa using hl
    | cons c l =>
      obtain ⟨rfl, -⟩ := List.cons_eq_cons.mp hl
      simp at hk'
  · cases l with
    | nil => simpa using hl.symm
    | cons c l =>
      obtain ⟨rfl, -⟩ := List.cons_eq_cons.mp hl
      simp at hk

/-! ## Steps and texts -/

theorem Moved.text_eq (h : Moved mark stop es fs) : text mark stop es = text mark stop fs := by
  cases h with
  | shift es fs k w v => simp [text_append, text_cons]
  | cut es fs k v k' v' => simp [text_append, text_cons]

theorem text_eq_of_chain (h : Relation.EqvGen (Moved mark stop) es fs) : text mark stop es = text mark stop fs := by
  induction h with
  | rel es fs hmoved => exact hmoved.text_eq
  | refl es => rfl
  | symm es fs _ ih => exact ih.symm
  | trans es fs gs _ _ ih ih' => exact ih.trans ih'

/-- All entries join to one whose key ends at the first mark. -/
theorem exists_joined (mark stop : α) (e : List α × List α) (es : List (List α × List α)) :
    ∃ k v, mark ∉ k ∧ Relation.EqvGen (Moved mark stop) (e :: es) [(k, v)] := by
  obtain ⟨k, v⟩ := e
  have hone : ∃ v', Relation.EqvGen (Moved mark stop) ((k, v) :: es) [(k, v')] := by
    induction es generalizing v with
    | nil => exact ⟨v, .refl _⟩
    | cons f es ih =>
      obtain ⟨v', hv'⟩ := ih (v ++ stop :: (f.1 ++ mark :: f.2))
      exact ⟨v', .trans _ _ _ (.symm _ _ (.rel _ _ (.cut [] es k v f.1 f.2))) hv'⟩
  obtain ⟨v', hv'⟩ := hone
  by_cases hk : mark ∈ k
  · obtain ⟨p, s, rfl, hp⟩ := List.eq_append_cons_of_mem hk
    exact ⟨p, s ++ mark :: v', hp, .trans _ _ _ hv' (.symm _ _ (.rel _ _ (.shift [] [] p s v')))⟩
  · exact ⟨k, v', hk, hv'⟩

/-- Entries have one text when steps lead from the ones to the others. -/
theorem text_eq_iff : text mark stop es = text mark stop fs ↔ Relation.EqvGen (Moved mark stop) es fs := by
  refine ⟨fun h => ?_, text_eq_of_chain⟩
  match es, fs with
  | [], [] => exact .refl _
  | [], f :: fs => exact absurd (h ▸ mark_mem_text f fs) List.not_mem_nil
  | e :: es, [] => exact absurd (h ▸ mark_mem_text e es) List.not_mem_nil
  | e :: es, f :: fs =>
    obtain ⟨k, v, hk, hes⟩ := exists_joined mark stop e es
    obtain ⟨k', v', hk', hfs⟩ := exists_joined mark stop f fs
    have htext : text mark stop [(k, v)] = text mark stop [(k', v')] :=
      (text_eq_of_chain hes).symm.trans (h.trans (text_eq_of_chain hfs))
    rw [text_cons, text_cons] at htext
    obtain ⟨rfl, hrest⟩ := first_mark hk hk' htext
    obtain rfl : v = v' := List.append_cancel_right hrest
    exact .trans _ _ _ hes (.symm _ _ hfs)

/-! ## Texts with one reading -/

/-- Such entries are the only reading of their text. -/
theorem eq_of_alone (hne : mark ≠ stop) (h : Alone mark es) (htext : text mark stop es = text mark stop fs) : fs = es := by
  rcases h with rfl | ⟨k, v, rfl, hk, hv⟩
  · cases fs with
    | nil => rfl
    | cons f fs => exact absurd (htext ▸ mark_mem_text f fs) List.not_mem_nil
  · cases fs with
    | nil => exact absurd (htext ▸ mark_mem_text (k, v) []) List.not_mem_nil
    | cons f fs =>
      obtain ⟨k', v'⟩ := f
      have hrest : mark ∉ v ++ stop :: text mark stop [] := by simp [hv, hne]
      rw [text_cons, text_cons] at htext
      obtain ⟨rfl, -, hvalue⟩ := (List.append_cons_inj_of_notMem hk hrest).mp htext
      cases fs with
      | nil => rw [List.append_cancel_right hvalue]
      | cons f fs =>
        rw [hvalue] at hrest
        exact absurd (List.mem_append_right _ (List.mem_cons_of_mem _ (mark_mem_text f fs))) hrest

/-- Any other entries have the text of one entry that they are not. -/
theorem exists_other (stop : α) (h : ¬Alone mark es) : ∃ e, [e] ≠ es ∧ text mark stop es = text mark stop [e] := by
  match es with
  | [] => exact absurd (Or.inl rfl) h
  | [(k, v)] =>
    by_cases hk : mark ∈ k
    · obtain ⟨p, s, rfl⟩ := List.append_of_mem hk
      exact ⟨(p, s ++ mark :: v), by simp, ((Moved.shift [] [] p s v).text_eq).symm⟩
    · have hv : mark ∈ v := by
        by_contra hv
        exact h (Or.inr ⟨k, v, rfl, hk, hv⟩)
      obtain ⟨p, s, rfl⟩ := List.append_of_mem hv
      exact ⟨(k ++ mark :: p, s), by simp, (Moved.shift [] [] k p s).text_eq⟩
  | e :: f :: es =>
    obtain ⟨k, v, -, hchain⟩ := exists_joined mark stop e (f :: es)
    exact ⟨(k, v), by simp, text_eq_of_chain hchain⟩

end Readings

end Opsense
