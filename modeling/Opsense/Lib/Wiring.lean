import Mathlib

/-!
# Lines that read and define names

A program of lines, each of which reads some names and defines others: what is read must be given, or defined by an earlier line. A
program that is put together of blocks is checked block by block (`backed_flatMap`).
-/

namespace Opsense

/-- A line: the names it reads, and those it defines. -/
abbrev Line (α : Type*) := List α × List α

variable {α ι : Type*}

/-- The names that lines define. -/
def definedBy (lines : List (Line α)) : List α := lines.flatMap Prod.snd

/-- Every line reads names that are given, or defined by a line before it. -/
def Backed (given : List α) (lines : List (Line α)) : Prop :=
  ∀ before line after, lines = before ++ line :: after → ∀ x ∈ line.1, x ∈ given ∨ x ∈ definedBy before

@[simp] theorem definedBy_nil : definedBy ([] : List (Line α)) = [] := rfl

@[simp] theorem definedBy_append (l m : List (Line α)) : definedBy (l ++ m) = definedBy l ++ definedBy m := List.flatMap_append

@[simp] theorem definedBy_cons (line : Line α) (l : List (Line α)) : definedBy (line :: l) = line.2 ++ definedBy l := rfl

theorem definedBy_flatMap (is : List ι) (lines : ι → List (Line α)) :
    definedBy (is.flatMap lines) = is.flatMap fun i => definedBy (lines i) := by
  unfold definedBy
  rw [List.flatMap_assoc]

/-- A line whose names are renamed. -/
def Line.map {β : Type*} (f : α → β) (line : Line α) : Line β := (line.1.map f, line.2.map f)

theorem definedBy_map {β : Type*} (f : α → β) (lines : List (Line α)) :
    definedBy (lines.map (Line.map f)) = (definedBy lines).map f := by
  unfold definedBy
  rw [List.flatMap_map, List.map_flatMap]
  rfl

variable {given : List α} {lines : List (Line α)}

theorem Backed.map {β : Type*} (h : Backed given lines) (f : α → β) :
    Backed (given.map f) (lines.map (Line.map f)) := by
  intro before line after heq x hx
  obtain ⟨before', rest, rfl, rfl, hrest⟩ := List.map_eq_append_iff.mp heq
  obtain ⟨line', after', rfl, rfl, -⟩ := List.map_eq_cons_iff.mp hrest
  obtain ⟨y, hy, rfl⟩ := List.mem_map.mp hx
  rw [definedBy_map]
  exact (h before' line' after' rfl y hy).imp (List.mem_map_of_mem) (List.mem_map_of_mem)

theorem backed_nil (given : List α) : Backed given [] := by
  intro before line after h
  exact absurd h.symm (by simp)

theorem Backed.mono {given given' : List α} (h : Backed given lines) (hsub : ∀ x ∈ given, x ∈ given') :
    Backed given' lines := by
  intro before line after heq x hx
  exact (h before line after heq x hx).imp_left (hsub x)

/-- What is read is given or defined. -/
theorem Backed.reads_mem (h : Backed given lines) :
    ∀ x ∈ lines.flatMap Prod.fst, x ∈ given ++ definedBy lines := by
  intro x hx
  obtain ⟨line, hline, hmem⟩ := List.mem_flatMap.mp hx
  obtain ⟨before, after, rfl⟩ := List.append_of_mem hline
  rw [definedBy_append, List.mem_append, List.mem_append]
  exact (h before line after rfl x hmem).imp_right .inl

theorem backed_append {l m : List (Line α)} :
    Backed given (l ++ m) ↔ Backed given l ∧ Backed (given ++ definedBy l) m := by
  constructor
  · intro h
    constructor
    · intro before line after heq x hx
      exact h before line (after ++ m) (by rw [heq, List.append_assoc, List.cons_append]) x hx
    · intro before line after heq x hx
      have hback := h (l ++ before) line after (by rw [heq, List.append_assoc]) x hx
      rw [definedBy_append, List.mem_append] at hback
      rw [List.mem_append]
      tauto
  · rintro ⟨hl, hm⟩ before line after heq x hx
    rcases List.append_eq_append_iff.mp heq with ⟨c, rfl, hc⟩ | ⟨c, rfl, hc⟩
    · -- the line is one of the second part
      rw [definedBy_append, List.mem_append]
      have hback := hm c line after hc x hx
      rw [List.mem_append] at hback
      tauto
    · cases c with
      | nil =>
        have hback := hm [] line after hc.symm x hx
        rw [List.mem_append] at hback
        simpa using hback
      | cons line' c =>
        rw [List.cons_append] at hc
        obtain ⟨rfl, -⟩ := List.cons.inj hc
        exact hl before line c rfl x hx

theorem backed_singleton {line : Line α} : Backed given [line] ↔ ∀ x ∈ line.1, x ∈ given := by
  constructor
  · intro h x hx
    simpa using h [] line [] rfl x hx
  · intro h before line' after heq x hx
    cases before with
    | nil => exact .inl (h x ((List.cons.inj heq).1 ▸ hx))
    | cons line'' before => simp at heq

theorem backed_cons {line : Line α} :
    Backed given (line :: lines) ↔ (∀ x ∈ line.1, x ∈ given) ∧ Backed (given ++ line.2) lines := by
  have h : Backed given ([line] ++ lines) ↔ _ := backed_append
  rw [backed_singleton] at h
  simpa using h

/-- A program of blocks is checked block by block, with what the blocks before define. -/
theorem backed_flatMap {is : List ι} {lines : ι → List (Line α)} :
    Backed given (is.flatMap lines) ↔
      ∀ before i after, is = before ++ i :: after →
        Backed (given ++ before.flatMap fun j => definedBy (lines j)) (lines i) := by
  induction is using List.reverseRecOn with
  | nil =>
    refine ⟨fun _ before i after h => ?_, fun _ => backed_nil given⟩
    exact absurd h.symm (by simp)
  | append_singleton is i ih =>
    rw [List.flatMap_append, backed_append, ih, definedBy_flatMap, List.flatMap_singleton]
    constructor
    · rintro ⟨hold, hlast⟩ before j after heq
      rcases List.eq_nil_or_concat after with rfl | ⟨after, k, rfl⟩
      · obtain ⟨rfl, hj⟩ := List.append_inj' heq rfl
        obtain ⟨rfl, -⟩ := List.cons.inj hj
        exact hlast
      · rw [List.concat_eq_append, ← List.cons_append, ← List.append_assoc] at heq
        exact hold before j after (List.append_inj' heq rfl).1
    · intro h
      constructor
      · intro before j after heq
        exact h before j (after ++ [i]) (by rw [heq, List.append_assoc, List.cons_append])
      · exact h is i [] rfl

end Opsense
