import Mathlib

/-!
# The newest entry of a log

Entries of a log carry a time. The newest one has the greatest time, and among those with that time it was logged last.
Whoever reads a log by time gets this entry; whoever reads it by position gets the last one.
-/

namespace Opsense

namespace Log

variable {α τ : Type*} [LinearOrder τ] (time : α → τ)

/-- The newer of an entry and the next one. -/
def newer : Option α → α → Option α
  | none, a => some a
  | some b, a => if time b ≤ time a then some a else some b

/-- The last of the entries with the greatest time. -/
def newest (log : List α) : Option α := log.foldl (newer time) none

@[simp] theorem newest_nil : newest time [] = none := rfl

theorem newest_snoc (log : List α) (a : α) : newest time (log ++ [a]) = newer time (newest time log) a := by
  simp [newest]

/-- The newest entry is one of the log, none is newer, and it is the last one of its time. -/
theorem newest_spec (log : List α) : (log = [] ∧ newest time log = none) ∨ ∃ n, newest time log = some n ∧ n ∈ log ∧
    (∀ a ∈ log, time a ≤ time n) ∧ (log.filter fun a => time a = time n).getLast? = some n := by
  induction log using List.reverseRecOn with
  | nil => exact Or.inl ⟨rfl, rfl⟩
  | append_singleton log a ih =>
    right
    rw [newest_snoc]
    rcases ih with ⟨rfl, hnone⟩ | ⟨n, hn, hmem, hmax, hlast⟩
    · exact ⟨a, by rw [hnone]; rfl, by simp, by simp, by simp⟩
    · rw [hn, newer]
      split_ifs with hle
      · refine ⟨a, rfl, by simp, fun b hb => ?_, by simp⟩
        rcases List.mem_append.mp hb with hb | hb
        · exact (hmax b hb).trans hle
        · rw [List.mem_singleton.mp hb]
      · refine ⟨n, rfl, List.mem_append_left _ hmem, fun b hb => ?_, ?_⟩
        · rcases List.mem_append.mp hb with hb | hb
          · exact hmax b hb
          · rw [List.mem_singleton.mp hb]
            exact (lt_of_not_ge hle).le
        · rw [List.filter_append, List.filter_cons_of_neg (by simpa using fun h => hle h.ge), List.filter_nil,
            List.append_nil, hlast]

variable {time}

/-- The newest of the images is the image of the newest. -/
theorem newest_map {β : Type*} (f : β → α) (log : List β) :
    newest time (log.map f) = (newest (fun b => time (f b)) log).map f := by
  induction log using List.reverseRecOn with
  | nil => rfl
  | append_singleton log b ih =>
    rw [List.map_append, List.map_singleton, newest_snoc, newest_snoc, ih]
    cases newest (fun b => time (f b)) log with
    | none => rfl
    | some n =>
      simp only [newer, Option.map_some]
      split_ifs <;> rfl

variable {log : List α}

theorem newest_eq_none : newest time log = none ↔ log = [] := by
  rcases newest_spec time log with ⟨hnil, hnone⟩ | ⟨n, hn, hmem, -, -⟩
  · simp [hnil]
  · rw [hn]
    refine ⟨nofun, ?_⟩
    rintro rfl
    exact absurd hmem List.not_mem_nil

theorem newest_mem {n : α} (h : newest time log = some n) : n ∈ log := by
  rcases newest_spec time log with ⟨-, hnone⟩ | ⟨n', hn, hmem, -, -⟩
  · rw [hnone] at h
    cases h
  · rw [hn] at h
    exact Option.some.inj h ▸ hmem

theorem le_newest {n : α} (h : newest time log = some n) {a : α} (ha : a ∈ log) : time a ≤ time n := by
  rcases newest_spec time log with ⟨-, hnone⟩ | ⟨n', hn, -, hmax, -⟩
  · rw [hnone] at h
    cases h
  · rw [hn] at h
    exact Option.some.inj h ▸ hmax a ha

/-- The newest entry is the last one of its time. -/
theorem getLast?_newest {n : α} (h : newest time log = some n) :
    (log.filter fun a => time a = time n).getLast? = some n := by
  rcases newest_spec time log with ⟨-, hnone⟩ | ⟨n', hn, -, -, hlast⟩
  · rw [hnone] at h
    cases h
  · rw [hn] at h
    exact Option.some.inj h ▸ hlast

end Log

end Opsense
