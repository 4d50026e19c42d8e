import Opsense.Mlib.AnalysisGrid

/-!
# Transition analysis

`TransitionAnalysis::new` of `opsense-mlib/src/transition.rs`: from the occupancy of a grid, the dominant cell of each bucket of time,
the moves between the dominant cells of neighbouring buckets, and how long each cell stays dominant. What the loops leave is said in
terms of the row of dominant cells (`new_eq`).
-/

namespace Opsense

open Partial Tables

structure TransitionAnalysis (F : Type) where
  grid : AnalysisGrid F
  intervalSecs : Int
  /-- The cells with points in each interval, with their counts. -/
  intervals : List (List (Nat × Nat))
  /-- The sparse transition matrix: where each cell moved to, and how often. -/
  transitions : List (List (Nat × Nat))
  cellsFrom : List Nat
  cellsDown : List Nat
  cellsUp : List Nat
  cellsStay : List Nat
  /-- The lengths of the stays in each cell. -/
  dwell : List (List Nat)
deriving DecidableEq

namespace TransitionAnalysis

variable {F : Type}

/-- `windows(2)` -/
def windows (l : List Nat) : List (Nat × Nat) := l.zip l.tail

/-- The entries of a bucket that are not 0. -/
def sparse (bucket : List Nat) : List (Nat × Nat) := (bucket.zipIdx.filter fun x => 0 < x.1).map fun x => (x.2, x.1)

/-- The greater of two counts with their cells, the later one of two that are equal. -/
def laterMax (best x : Nat × Nat) : Nat × Nat := if x.1 < best.1 then best else x

/-- `max_by_key`, and cell 0 without a cell. -/
def dominantCell (bucket : List Nat) : Nat :=
  match bucket.zipIdx with
  | [] => 0
  | x :: xs => (xs.foldl laterMax x).2

/-- A move is counted by the cell it comes from. -/
def countMove (num_cells : Nat) (ta : TransitionAnalysis F) (pair : Nat × Nat) : TransitionAnalysis F :=
  let from' := pair.1
  let to' := pair.2
  if num_cells ≤ from' ∨ num_cells ≤ to' then ta
  else
    let ta := { ta with cellsFrom := ta.cellsFrom.modify from' (· + 1) }
    let ta :=
      if to' < from' then { ta with cellsDown := ta.cellsDown.modify from' (· + 1) }
      else if from' < to' then { ta with cellsUp := ta.cellsUp.modify from' (· + 1) }
      else { ta with cellsStay := ta.cellsStay.modify from' (· + 1) }
    { ta with transitions := ta.transitions.modify from' fun row => bump row to' }

/-- A stay is over. -/
def closeRun (num_cells cell run_len : Nat) (dwell : List (List Nat)) : List (List Nat) :=
  if cell < num_cells then dwell.modify cell (· ++ [run_len]) else dwell

/-- The length of the present stay, and the stays that are over. -/
def dwellStep (num_cells : Nat) (s : Nat × List (List Nat)) (pair : Nat × Nat) : Nat × List (List Nat) :=
  if pair.2 = pair.1 then (s.1 + 1, s.2) else (1, closeRun num_cells pair.1 s.1 s.2)

/-- The lengths of the stays in each cell. -/
def dwellTimes (num_cells : Nat) (dominant : List Nat) : List (List Nat) :=
  let s := (windows dominant).foldl (dwellStep num_cells) (1, List.replicate num_cells [])
  match dominant.getLast? with
  | none => s.2
  | some last => closeRun num_cells last s.1 s.2

/-- The analysis before the loops. -/
def start (grid : AnalysisGrid F) (interval_secs : Int) (num_cells : Nat) (intervals : List (List (Nat × Nat))) : TransitionAnalysis F where
  grid := grid
  intervalSecs := interval_secs
  intervals := intervals
  transitions := List.replicate num_cells []
  cellsFrom := List.replicate num_cells 0
  cellsDown := List.replicate num_cells 0
  cellsUp := List.replicate num_cells 0
  cellsStay := List.replicate num_cells 0
  dwell := []

def new [Rounding F] (checks : Bool) (grid : AnalysisGrid F) (data : List (Int × F)) (interval_secs : Int) :
    Except Panic (TransitionAnalysis F) := do
  let occ ← grid.occupancy checks data interval_secs
  let num_cells := grid.numCells
  let dominant := occ.map dominantCell
  let ta := (windows dominant).foldl (countMove num_cells) (start grid interval_secs num_cells (occ.map sparse))
  return { ta with dwell := dwellTimes num_cells dominant }

def numBuckets (ta : TransitionAnalysis F) : Nat := ta.intervals.length

/-- The entry of a counter. -/
def entry (counter : List Nat) (c : Nat) : Nat := counter[c]?.getD 0

/-- Where a cell moved to. -/
def row (ta : TransitionAnalysis F) (c : Nat) : List (Nat × Nat) := ta.transitions[c]?.getD []

def dwellTimesOf (ta : TransitionAnalysis F) (cell : Nat) : List Nat := ta.dwell[cell]?.getD []

/-! ## Dominant cells -/

theorem laterMax_fst (best x : Nat × Nat) : (laterMax best x).1 = max best.1 x.1 := by
  unfold laterMax
  split_ifs <;> omega

theorem laterMax_eq (best x : Nat × Nat) : laterMax best x = best ∨ laterMax best x = x := by
  unfold laterMax
  split_ifs
  · exact Or.inl rfl
  · exact Or.inr rfl

/-- What is left of a pass is one of its elements, and none has more. -/
theorem foldl_laterMax (x : Nat × Nat) (xs : List (Nat × Nat)) :
    xs.foldl laterMax x ∈ x :: xs ∧ ∀ y ∈ x :: xs, y.1 ≤ (xs.foldl laterMax x).1 := by
  induction xs generalizing x with
  | nil => simp
  | cons z zs ih =>
    obtain ⟨hmem, hmax⟩ := ih (laterMax x z)
    have hfst := hmax _ List.mem_cons_self
    rw [laterMax_fst] at hfst
    rw [List.foldl_cons]
    constructor
    · rcases List.mem_cons.mp hmem with heq | hmem
      · rw [heq]
        rcases laterMax_eq x z with h | h <;> simp [h]
      · simp [hmem]
    · intro y hy
      rcases List.mem_cons.mp hy with rfl | hy
      · omega
      rcases List.mem_cons.mp hy with rfl | hy
      · omega
      · exact hmax y (List.mem_cons_of_mem _ hy)

/-- The dominant cell of a bucket is one of its cells, and none has more points. -/
theorem dominantCell_spec {bucket : List Nat} (h : bucket ≠ []) : dominantCell bucket < bucket.length ∧
    ∀ c < bucket.length, bucket[c]?.getD 0 ≤ bucket[dominantCell bucket]?.getD 0 := by
  unfold dominantCell
  cases hzip : bucket.zipIdx with
  | nil => exact absurd (List.zipIdx_eq_nil_iff.mp hzip) h
  | cons x xs =>
    obtain ⟨hmem, hmax⟩ := foldl_laterMax x xs
    rw [← hzip] at hmem hmax
    have hat : bucket[(xs.foldl laterMax x).2]? = some (xs.foldl laterMax x).1 := List.mk_mem_zipIdx_iff_getElem?.mp hmem
    refine ⟨(List.getElem?_eq_some_iff.mp hat).1, ?_⟩
    intro c hc
    have hcell : (bucket[c], c) ∈ bucket.zipIdx := List.mk_mem_zipIdx_iff_getElem?.mpr (List.getElem?_eq_getElem hc)
    simpa [hat, hc] using hmax _ hcell

/-- The counts of a bucket are those of its entries that are not 0. -/
theorem sum_sparse (bucket : List Nat) : ((sparse bucket).map Prod.snd).sum = bucket.sum := by
  have hzip : ∀ k, (((bucket.zipIdx k).filter fun x => 0 < x.1).map Prod.fst).sum = bucket.sum := by
    induction bucket with
    | nil => simp
    | cons n bucket ih =>
      intro k
      rw [List.zipIdx_cons]
      rcases Nat.eq_zero_or_pos n with rfl | hpos
      · simp [ih]
      · simp [hpos, ih]
  unfold sparse
  rw [List.map_map]
  exact hzip 0

/-! ## What the loops leave -/

/-- How many moves from each cell are in a direction. -/
def inDirection (n : Nat) (d : Nat → Nat → Prop) [DecidableRel d] (moves : List (Nat × Nat)) : List Nat :=
  tabulate n fun c => moves.countP fun m => m.1 = c ∧ d m.2 c

/-- The analysis of a row of moves. -/
def tallied (grid : AnalysisGrid F) (interval_secs : Int) (n : Nat) (intervals : List (List (Nat × Nat))) (dwell : List (List Nat))
    (moves : List (Nat × Nat)) : TransitionAnalysis F where
  grid := grid
  intervalSecs := interval_secs
  intervals := intervals
  transitions := tabulate n fun c => bumped ((moves.filter fun m => m.1 = c).map Prod.snd)
  cellsFrom := tabulate n fun c => moves.countP fun m => m.1 = c
  cellsDown := inDirection n (· < ·) moves
  cellsUp := inDirection n (· > ·) moves
  cellsStay := inDirection n (· = ·) moves
  dwell := dwell

section Loops

variable {grid : AnalysisGrid F} {interval_secs : Int} {n : Nat} {intervals : List (List (Nat × Nat))}

theorem start_eq_tallied : start grid interval_secs n intervals = tallied grid interval_secs n intervals [] [] := by
  simp [start, tallied, inDirection, bumped, replicate_eq_tabulate]

theorem modify_rows (moves : List (Nat × Nat)) (m : Nat × Nat) :
    (tabulate n fun c => bumped ((moves.filter fun m => m.1 = c).map Prod.snd)).modify m.1 (fun row => bump row m.2) =
      tabulate n fun c => bumped (((moves ++ [m]).filter fun m => m.1 = c).map Prod.snd) := by
  rw [modify_tabulate]
  apply tabulate_congr
  intro c _
  rw [List.filter_append]
  by_cases hc : m.1 = c
  · simp [hc, bumped]
  · simp [hc, Ne.symm hc]

theorem modify_inDirection {d : Nat → Nat → Prop} [DecidableRel d] (moves : List (Nat × Nat)) {m : Nat × Nat} (h : d m.2 m.1) :
    (inDirection n d moves).modify m.1 (· + 1) = inDirection n d (moves ++ [m]) := by
  refine modify_count moves fun c _ => ?_
  rw [decide_eq_decide]
  constructor
  · rintro ⟨rfl, -⟩
    rfl
  · rintro rfl
    exact ⟨rfl, h⟩

theorem inDirection_of_not {d : Nat → Nat → Prop} [DecidableRel d] (moves : List (Nat × Nat)) {m : Nat × Nat} (h : ¬d m.2 m.1) :
    inDirection n d moves = inDirection n d (moves ++ [m]) := by
  refine count_of_not moves fun c _ => ?_
  rw [decide_eq_false_iff_not]
  rintro ⟨rfl, hd⟩
  exact h hd

/-- One more move is counted: by its cell, by its direction and in the row of its cell. -/
theorem countMove_tallied (moves : List (Nat × Nat)) {m : Nat × Nat} (h : m.1 < n ∧ m.2 < n) :
    countMove n (tallied grid interval_secs n intervals [] moves) m = tallied grid interval_secs n intervals [] (moves ++ [m]) := by
  have hfrom : (tabulate n fun c => moves.countP fun m => m.1 = c).modify m.1 (· + 1) =
      tabulate n fun c => (moves ++ [m]).countP fun m => m.1 = c :=
    modify_count moves fun c _ => by simp [eq_comm]
  unfold countMove tallied
  simp only
  rw [if_neg (by omega), hfrom]
  split_ifs with hdown hup
  · have hup : ¬m.2 > m.1 := by omega
    have hstay : ¬m.2 = m.1 := by omega
    rw [modify_rows, modify_inDirection moves hdown, inDirection_of_not (d := (· > ·)) moves hup,
      inDirection_of_not (d := (· = ·)) moves hstay]
  · have hstay : ¬m.2 = m.1 := by omega
    rw [modify_rows, modify_inDirection (d := (· > ·)) moves hup, inDirection_of_not (d := (· < ·)) moves hdown,
      inDirection_of_not (d := (· = ·)) moves hstay]
  · have hstay : m.2 = m.1 := by omega
    rw [modify_rows, modify_inDirection (d := (· = ·)) moves hstay, inDirection_of_not (d := (· < ·)) moves hdown,
      inDirection_of_not (d := (· > ·)) moves hup]

theorem foldl_countMove {moves : List (Nat × Nat)} (h : ∀ m ∈ moves, m.1 < n ∧ m.2 < n) :
    moves.foldl (countMove n) (start grid interval_secs n intervals) = tallied grid interval_secs n intervals [] moves := by
  induction moves using List.reverseRecOn with
  | nil => exact start_eq_tallied
  | append_singleton moves m ih =>
    rw [List.foldl_append, ih fun m hm => h m (List.mem_append_left _ hm), List.foldl_cons, List.foldl_nil]
    exact countMove_tallied moves (h m (by simp))

theorem closeRun_tabulate {f : Nat → List Nat} {cell : Nat} (h : cell < n) (run_len : Nat) :
    closeRun n cell run_len (tabulate n f) = tabulate n fun c => if c = cell then f c ++ [run_len] else f c := by
  rw [closeRun, if_pos h, modify_tabulate]

/-- The stays of a cell, the present one with them, are as long together as the cell was dominant. -/
theorem foldl_dwellStep {d : Nat} {rest : List Nat} (h : ∀ c ∈ d :: rest, c < n) (run_len : Nat) (f : Nat → List Nat)
    {s : Nat × List (List Nat)} (hs : s = (windows (d :: rest)).foldl (dwellStep n) (run_len, tabulate n f)) :
    ∃ g : Nat → List Nat, closeRun n ((d :: rest).getLast (by simp)) s.1 s.2 = tabulate n g ∧
      ∀ c, (g c).sum = (f c).sum + (if c = d then run_len else 0) + rest.count c := by
  induction rest generalizing d run_len f with
  | nil =>
    subst hs
    refine ⟨_, closeRun_tabulate (h d (by simp)) run_len, ?_⟩
    intro c
    split_ifs <;> simp
  | cons e rest ih =>
    have hwindows : windows (d :: e :: rest) = (d, e) :: windows (e :: rest) := rfl
    have hrest : ∀ c ∈ e :: rest, c < n := fun c hc => h c (List.mem_cons_of_mem _ hc)
    rw [hwindows, List.foldl_cons, dwellStep] at hs
    rw [List.getLast_cons_cons]
    simp only at hs
    split_ifs at hs with heq
    · obtain ⟨g, hg, hsum⟩ := ih hrest (run_len + 1) f hs
      refine ⟨g, hg, ?_⟩
      intro c
      rw [hsum c, List.count_cons, heq]
      by_cases hc : c = d
      · simp [hc]
        omega
      · simp [hc, Ne.symm hc]
    · rw [closeRun_tabulate (h d (by simp))] at hs
      obtain ⟨g, hg, hsum⟩ := ih hrest 1 _ hs
      refine ⟨g, hg, ?_⟩
      intro c
      rw [hsum c, List.count_cons]
      by_cases hc : c = d
      · subst hc
        simp [heq, Ne.symm heq]
      · by_cases he : c = e
        · subst he
          simp [hc]
          omega
        · simp [hc, he, Ne.symm he]

/-- The stays of a cell are as long together as the cell was dominant. -/
theorem dwellTimes_spec {dominant : List Nat} (h : ∀ c ∈ dominant, c < n) :
    ∃ g : Nat → List Nat, dwellTimes n dominant = tabulate n g ∧ ∀ c, (g c).sum = dominant.count c := by
  cases dominant with
  | nil => exact ⟨fun _ => [], by simp [dwellTimes, windows, replicate_eq_tabulate], by simp⟩
  | cons d rest =>
    obtain ⟨g, hg, hsum⟩ := foldl_dwellStep h 1 (fun _ => []) rfl
    refine ⟨g, ?_, ?_⟩
    · rw [← hg, dwellTimes, List.getLast?_eq_getLast_of_ne_nil (by simp), replicate_eq_tabulate]
    · intro c
      rw [hsum c, List.count_cons]
      by_cases hc : c = d
      · simp [hc]
        omega
      · simp [hc, Ne.symm hc]

end Loops

theorem windows_lt {n : Nat} {l : List Nat} (h : ∀ c ∈ l, c < n) : ∀ m ∈ windows l, m.1 < n ∧ m.2 < n := by
  intro m hm
  obtain ⟨h1, h2⟩ := List.of_mem_zip hm
  exact ⟨h _ h1, h _ (List.mem_of_mem_tail h2)⟩

theorem length_windows (l : List Nat) : (windows l).length = l.length - 1 := by
  simp [windows]

section New

variable [Rounding F] {checks : Bool} {grid : AnalysisGrid F} {data : List (Int × F)} {interval_secs : Int}

/-- The buckets of an occupancy: none, or those of the counts. -/
theorem occupancy_cases {occ : List (List Nat)} (h : grid.occupancy checks data interval_secs = .ok occ) :
    ((data = [] ∨ interval_secs ≤ 0) ∧ occ = []) ∨
      (data ≠ [] ∧ 0 < interval_secs ∧ occ = grid.counts data interval_secs) := by
  by_cases hnone : data = [] ∨ interval_secs ≤ 0
  · rw [AnalysisGrid.occupancy_of_not_pos checks grid hnone] at h
    exact Or.inl ⟨hnone, (Except.ok.inj h).symm⟩
  · obtain ⟨hdata, hle⟩ := not_or.mp hnone
    exact Or.inr ⟨hdata, not_le.mp hle, (AnalysisGrid.gives_occupancy checks grid hdata (not_le.mp hle)).eq h⟩

theorem dominantCell_lt {occ : List (List Nat)} (h : grid.occupancy checks data interval_secs = .ok occ) :
    ∀ c ∈ occ.map dominantCell, c < grid.numCells := by
  rcases occupancy_cases h with ⟨-, rfl⟩ | ⟨-, -, rfl⟩
  · simp
  · intro c hc
    obtain ⟨row, hrow, rfl⟩ := List.mem_map.mp hc
    obtain ⟨b, -, rfl⟩ := List.mem_map.mp hrow
    have hpos := grid.numCells_pos
    have hne : (tabulate grid.numCells fun c => data.countP fun p =>
        AnalysisGrid.pointBucket data interval_secs p = b ∧ grid.clampedCell p.2 = c) ≠ [] := by
      rw [ne_eq, ← List.length_eq_zero_iff, length_tabulate]
      omega
    simpa using (dominantCell_spec hne).1

/-- What `new` returns, in terms of the occupancy. -/
theorem new_eq {ta : TransitionAnalysis F} (h : new checks grid data interval_secs = .ok ta) :
    ∃ occ, grid.occupancy checks data interval_secs = .ok occ ∧
      ta = tallied grid interval_secs grid.numCells (occ.map sparse) (dwellTimes grid.numCells (occ.map dominantCell))
        (windows (occ.map dominantCell)) := by
  unfold new at h
  cases hocc : grid.occupancy checks data interval_secs with
  | error e =>
    rw [hocc] at h
    cases h
  | ok occ =>
    rw [hocc, ok_bind] at h
    refine ⟨occ, rfl, ?_⟩
    have hmoves : (windows (occ.map dominantCell)).foldl (countMove grid.numCells)
        (start grid interval_secs grid.numCells (occ.map sparse)) = _ := foldl_countMove (windows_lt (dominantCell_lt hocc))
    simp only [hmoves] at h
    exact (Except.ok.inj h).symm

/-! ## The books balance -/

/-- The counters of a cell and its row of the matrix say the same. -/
structure CellBalance (ta : TransitionAnalysis F) (c : Nat) : Prop where
  directions : entry ta.cellsFrom c = entry ta.cellsDown c + entry ta.cellsUp c + entry ta.cellsStay c
  row : entry ta.cellsFrom c = total (fun _ => true) (ta.row c)
  once : ((ta.row c).map Prod.fst).Nodup
  down : entry ta.cellsDown c = total (· < c) (ta.row c)
  up : entry ta.cellsUp c = total (· > c) (ta.row c)
  stay : entry ta.cellsStay c = total (· = c) (ta.row c)

/-- The counters add up to the moves between the buckets, the stays to the buckets, and the counts of the intervals to the points. -/
structure Balances (data : List (Int × F)) (ta : TransitionAnalysis F) : Prop where
  cells : ∀ c, CellBalance ta c
  moves : (ta.cellsFrom.sum : Int) = ta.numBuckets - 1
  dwell : (ta.dwell.map List.sum).sum = ta.numBuckets
  points : (ta.intervals.map fun interval => (interval.map Prod.snd).sum).sum = data.length

omit [Rounding F] in
theorem entry_tabulate (n : Nat) (f : Nat → Nat) (c : Nat) : entry (tabulate n f) c = if c < n then f c else 0 := by
  unfold entry
  rw [getElem?_tabulate]
  split_ifs <;> rfl

omit [Rounding F] in
theorem row_tallied (n : Nat) (intervals : List (List (Nat × Nat))) (dwell : List (List Nat)) (moves : List (Nat × Nat)) (c : Nat) :
    (tallied grid interval_secs n intervals dwell moves).row c =
      if c < n then bumped ((moves.filter fun m => m.1 = c).map Prod.snd) else [] := by
  unfold row tallied
  rw [getElem?_tabulate]
  split_ifs <;> rfl

/-- The part of a row in a direction. -/
theorem total_row (p : Nat → Bool) (moves : List (Nat × Nat)) (c : Nat) :
    total p (bumped ((moves.filter fun m => m.1 = c).map Prod.snd)) = moves.countP fun m => m.1 = c ∧ p m.2 := by
  rw [total_bumped, List.countP_map, List.countP_filter]
  apply List.countP_congr
  intro m _
  simp [and_comm]

/-- A move is in one of the directions. -/
theorem countP_directions (moves : List (Nat × Nat)) (c : Nat) : (moves.countP fun m => m.1 = c) =
    (moves.countP fun m => m.1 = c ∧ m.2 < c) + (moves.countP fun m => m.1 = c ∧ m.2 > c) + moves.countP fun m => m.1 = c ∧ m.2 = c := by
  induction moves with
  | nil => rfl
  | cons m moves ih =>
    simp only [List.countP_cons, decide_eq_true_eq]
    grind

omit [Rounding F] in
/-- Whatever the moves, the counters of a cell and its row say the same. -/
theorem cellBalance_tallied (n : Nat) (intervals : List (List (Nat × Nat))) (dwell : List (List Nat)) (moves : List (Nat × Nat)) (c : Nat) :
    CellBalance (tallied grid interval_secs n intervals dwell moves) c := by
  have hrow := @row_tallied F grid interval_secs n intervals dwell moves c
  by_cases hc : c < n
  · rw [if_pos hc] at hrow
    refine ⟨?_, ?_, ?_, ?_, ?_, ?_⟩
    · simp only [tallied, inDirection, entry_tabulate, if_pos hc]
      exact countP_directions moves c
    · rw [hrow, total_row]
      simp [tallied, entry_tabulate, hc]
    · rw [hrow]
      exact nodup_bumped _
    all_goals
      rw [hrow, total_row]
      simp [tallied, inDirection, entry_tabulate, hc]
  · rw [if_neg hc] at hrow
    refine ⟨by simp [tallied, inDirection, entry_tabulate, hc], ?_, ?_, ?_, ?_, ?_⟩
    all_goals
      rw [hrow]
      simp [tallied, inDirection, entry_tabulate, hc, total]

/-- The stays are as long together as there are dominant cells. -/
theorem sum_dwellTimes {n : Nat} {dominant : List Nat} (h : ∀ c ∈ dominant, c < n) :
    ((dwellTimes n dominant).map List.sum).sum = dominant.length := by
  obtain ⟨g, hg, hsum⟩ := dwellTimes_spec h
  rw [hg, ← sum_count id h, tabulate, List.map_map]
  congr 1
  apply List.map_congr_left
  intro c _
  rw [Function.comp_apply, hsum c, List.count_eq_countP]
  rfl

/-- The books of every analysis balance. Without a point or with an interval that is not positive there are no buckets; otherwise the
buckets hold all points, and there is one move fewer than there are buckets. -/
theorem new_balances {ta : TransitionAnalysis F} (h : new checks grid data interval_secs = .ok ta) :
    (∀ c, CellBalance ta c) ∧ (ta.dwell.map List.sum).sum = ta.numBuckets ∧
      (data ≠ [] → 0 < interval_secs → Balances data ta) ∧
      (data = [] ∨ interval_secs ≤ 0 → ta.numBuckets = 0 ∧ ta.cellsFrom.sum = 0) := by
  obtain ⟨occ, hocc, rfl⟩ := new_eq h
  have hlt := dominantCell_lt hocc
  have hcells : ∀ c, CellBalance _ c := @cellBalance_tallied F grid interval_secs grid.numCells
    (occ.map sparse) (dwellTimes grid.numCells (occ.map dominantCell)) (windows (occ.map dominantCell))
  have hdwell : ((dwellTimes grid.numCells (occ.map dominantCell)).map List.sum).sum = (occ.map sparse).length := by
    rw [sum_dwellTimes hlt]
    simp
  have hfrom : (tabulate grid.numCells fun c => (windows (occ.map dominantCell)).countP fun m => m.1 = c).sum = occ.length - 1 := by
    rw [sum_count Prod.fst fun m hm => (windows_lt hlt m hm).1, length_windows, List.length_map]
  refine ⟨hcells, hdwell, ?_, ?_⟩
  · intro hdata hpos
    rcases occupancy_cases hocc with ⟨hnone, -⟩ | ⟨-, -, hocc⟩
    · rcases hnone with hnone | hnone
      · exact absurd hnone hdata
      · omega
    · have hlength : 0 < occ.length := by
        rw [hocc, AnalysisGrid.length_counts]
        exact AnalysisGrid.numBuckets_pos _ _
      refine ⟨hcells, ?_, hdwell, ?_⟩
      · simp only [tallied, numBuckets, hfrom, List.length_map]
        omega
      · have hsparse : ((occ.map sparse).map fun interval => (interval.map Prod.snd).sum) = occ.map List.sum := by
          rw [List.map_map]
          apply List.map_congr_left
          intro bucket _
          exact sum_sparse bucket
        simp only [tallied]
        rw [hsparse, hocc, AnalysisGrid.sum_counts]
  · intro hnone
    rcases occupancy_cases hocc with ⟨-, rfl⟩ | ⟨hdata, hpos, -⟩
    · exact ⟨rfl, hfrom⟩
    · rcases hnone with hnone | hnone
      · exact absurd hnone hdata
      · omega

end New

open AnalysisGrid (tenGrid)

/-- Two points a minute apart, by the minute. -/
theorem new_balances_minute : Balances [(0, (5 : ℚ)), (60, 5)]
    ⟨tenGrid, 60, [[(0, 1)], [(0, 1)]], [[(0, 1)]], [1], [0], [0], [1], [[2]]⟩ :=
  (@new_balances ℚ _ true tenGrid _ 60 _ (by decide +kernel)).2.2.1 (by simp) (by decide)

/-- With an interval of 0 a point is in no interval, and there is no bucket to move from. -/
theorem books_without_interval : ∃ ta, new true tenGrid [(0, 5)] 0 = .ok ta ∧ ¬Balances [(0, 5)] ta := by
  refine ⟨⟨tenGrid, 0, [], [[]], [0], [0], [0], [0], [[]]⟩, by decide +kernel, ?_⟩
  intro h
  exact absurd h.points (by decide)

/-! ## Moves between buckets with points -/

section Gaps

variable [Rounding F]

/-- How many points of a bucket are in a cell. -/
def pointCount (grid : AnalysisGrid F) (data : List (Int × F)) (interval_secs : Int) (i c : Nat) : Nat :=
  data.countP fun p => AnalysisGrid.pointBucket data interval_secs p = i ∧ grid.clampedCell p.2 = c

/-- Buckets stand for cells that have points in them, as many as any other cell; moves are between neighbouring buckets that stand for
their cells, and a cell stays for no more buckets than stand for it. -/
structure CountsOnly (grid : AnalysisGrid F) (data : List (Int × F)) (interval_secs : Int) (ta : TransitionAnalysis F)
    (dom : Nat → Option Nat) : Prop where
  dominant : ∀ i < ta.numBuckets, ∀ a, dom i = some a →
    0 < pointCount grid data interval_secs i a ∧
      ∀ c < grid.numCells, pointCount grid data interval_secs i c ≤ pointCount grid data interval_secs i a
  moved : ∀ a b, total (· = b) (ta.row a) ≤
    (List.range (ta.numBuckets - 1)).countP fun i => dom i = some a ∧ dom (i + 1) = some b
  down : ∀ a, entry ta.cellsDown a ≤ (List.range (ta.numBuckets - 1)).countP fun i => dom i = some a ∧ (dom (i + 1)).any (· < a)
  up : ∀ a, entry ta.cellsUp a ≤ (List.range (ta.numBuckets - 1)).countP fun i => dom i = some a ∧ (dom (i + 1)).any (· > a)
  stay : ∀ a, entry ta.cellsStay a ≤ (List.range (ta.numBuckets - 1)).countP fun i => dom i = some a ∧ (dom (i + 1)).any (· = a)
  dwell : ∀ a, (ta.dwellTimesOf a).sum ≤ (List.range ta.numBuckets).countP fun i => dom i = some a

/-- Everything that is counted comes from buckets with points. -/
def FromData (grid : AnalysisGrid F) (data : List (Int × F)) (interval_secs : Int) (ta : TransitionAnalysis F) : Prop :=
  ∃ dom, CountsOnly grid data interval_secs ta dom

omit [Rounding F] in
/-- Every interval up to that of a point, from the first timestamp on, holds a point. -/
def NoGap (data : List (Int × F)) (interval_secs : Int) : Prop :=
  ∀ p ∈ data, ∀ k : Nat, (k : Int) ≤ (p.1 - AnalysisGrid.tStart data) / interval_secs →
    ∃ q ∈ data, (q.1 - AnalysisGrid.tStart data) / interval_secs = k

theorem windows_tabulate (n : Nat) (f : Nat → Nat) : windows (tabulate n f) = (List.range (n - 1)).map fun i => (f i, f (i + 1)) := by
  apply List.ext_getElem
  · simp [windows]
  · intro i h1 h2
    simp [windows, tabulate]

variable {checks : Bool} {grid : AnalysisGrid F} {data : List (Int × F)} {interval_secs : Int}

/-- The dominant cell of a bucket. -/
def dominantOf (grid : AnalysisGrid F) (data : List (Int × F)) (interval_secs : Int) (i : Nat) : Nat :=
  dominantCell (tabulate grid.numCells (pointCount grid data interval_secs i))

theorem dominantOf_spec (i : Nat) : dominantOf grid data interval_secs i < grid.numCells ∧
    ∀ c < grid.numCells, pointCount grid data interval_secs i c ≤
      pointCount grid data interval_secs i (dominantOf grid data interval_secs i) := by
  have hne : tabulate grid.numCells (pointCount grid data interval_secs i) ≠ [] := by
    rw [ne_eq, ← List.length_eq_zero_iff, length_tabulate]
    have := grid.numCells_pos
    omega
  obtain ⟨hlt, hmax⟩ := dominantCell_spec hne
  rw [length_tabulate] at hlt hmax
  refine ⟨hlt, ?_⟩
  intro c hc
  have hle := hmax c hc
  rwa [getD_tabulate _ _ hc, getD_tabulate _ _ hlt] at hle

/-- A bucket with a point has points in its dominant cell. -/
theorem pointCount_dominantOf_pos {p : Int × F} (hp : p ∈ data) :
    0 < pointCount grid data interval_secs (AnalysisGrid.pointBucket data interval_secs p)
      (dominantOf grid data interval_secs (AnalysisGrid.pointBucket data interval_secs p)) := by
  refine lt_of_lt_of_le ?_ ((dominantOf_spec _).2 _ (grid.clampedCell_lt p.2))
  rw [pointCount, List.countP_pos_iff]
  exact ⟨p, hp, by simp⟩

/-- What `new` returns for points and a positive interval. -/
theorem new_eq_of_pos {ta : TransitionAnalysis F} (hdata : data ≠ []) (hpos : 0 < interval_secs)
    (h : new checks grid data interval_secs = .ok ta) : ta.numBuckets = AnalysisGrid.buckets data interval_secs ∧
      ∃ intervals, ta = tallied grid interval_secs grid.numCells intervals
        (dwellTimes grid.numCells (tabulate (AnalysisGrid.buckets data interval_secs) (dominantOf grid data interval_secs)))
        ((List.range (AnalysisGrid.buckets data interval_secs - 1)).map fun i =>
          (dominantOf grid data interval_secs i, dominantOf grid data interval_secs (i + 1))) := by
  obtain ⟨occ, hocc, rfl⟩ := new_eq h
  rcases occupancy_cases hocc with ⟨hnone, -⟩ | ⟨-, -, rfl⟩
  · rcases hnone with hnone | hnone
    · exact absurd hnone hdata
    · omega
  · have hdominant : (grid.counts data interval_secs).map dominantCell =
        tabulate (AnalysisGrid.buckets data interval_secs) (dominantOf grid data interval_secs) := by
      rw [AnalysisGrid.counts, tabulate, List.map_map]
      rfl
    rw [hdominant, windows_tabulate]
    exact ⟨by simp [numBuckets, tallied], _, rfl⟩

omit [Rounding F] in
theorem dwellTimesOf_tallied {n nb : Nat} {f : Nat → Nat} (hf : ∀ i, f i < n) (intervals : List (List (Nat × Nat)))
    (moves : List (Nat × Nat)) (a : Nat) :
    ((tallied grid interval_secs n intervals (dwellTimes n (tabulate nb f)) moves).dwellTimesOf a).sum =
      if a < n then (List.range nb).countP fun i => f i = a else 0 := by
  have hlt : ∀ c ∈ tabulate nb f, c < n := by
    intro c hc
    obtain ⟨i, -, rfl⟩ := List.mem_map.mp hc
    exact hf i
  obtain ⟨g, hg, hsum⟩ := dwellTimes_spec hlt
  unfold dwellTimesOf tallied
  simp only [hg, getElem?_tabulate]
  split_ifs
  · simp only [Option.getD_some, hsum, tabulate, List.count_eq_countP, List.countP_map]
    rfl
  · rfl

/-- What is counted comes from buckets with points exactly if all buckets have points: the stays add up to the buckets. -/
theorem fromData_iff_filled {ta : TransitionAnalysis F} (hdata : data ≠ []) (hpos : 0 < interval_secs)
    (h : new checks grid data interval_secs = .ok ta) : FromData grid data interval_secs ta ↔
      ∀ i < AnalysisGrid.buckets data interval_secs, ∃ p ∈ data, AnalysisGrid.pointBucket data interval_secs p = i := by
  obtain ⟨hbuckets, intervals, hta⟩ := new_eq_of_pos hdata hpos h
  have hlt : ∀ i, dominantOf grid data interval_secs i < grid.numCells := fun i => (dominantOf_spec i).1
  have hdwell : ∀ a, (ta.dwellTimesOf a).sum = if a < grid.numCells then
      (List.range ta.numBuckets).countP fun i => dominantOf grid data interval_secs i = a else 0 := by
    intro a
    rw [hbuckets, hta]
    exact dwellTimesOf_tallied hlt _ _ a
  constructor
  · rintro ⟨dom, hdom⟩ i hi
    have hsum := sum_count (dominantOf grid data interval_secs) fun i (_ : i ∈ List.range ta.numBuckets) => hlt i
    have hle : (tabulate grid.numCells fun a => (List.range ta.numBuckets).countP fun i => dominantOf grid data interval_secs i = a).sum ≤
        (tabulate grid.numCells fun a => (List.range ta.numBuckets).countP fun i => dom i = some a).sum := by
      refine List.sum_le_sum fun a ha => ?_
      have := hdom.dwell a
      rwa [hdwell, if_pos (List.mem_range.mp ha)] at this
    have hall := hle.trans (sum_count_le dom grid.numCells (List.range ta.numBuckets))
    rw [hsum] at hall
    have hsome := List.countP_eq_length.mp (le_antisymm List.countP_le_length hall)
    have hi' : i < ta.numBuckets := hbuckets ▸ hi
    obtain ⟨a, ha⟩ := Option.isSome_iff_exists.mp (hsome i (List.mem_range.mpr hi'))
    obtain ⟨p, hp, hpi⟩ := List.countP_pos_iff.mp (hdom.dominant i hi' a ha).1
    exact ⟨p, hp, (of_decide_eq_true hpi).1⟩
  · intro hfilled
    refine ⟨fun i => some (dominantOf grid data interval_secs i), ?_, ?_, ?_, ?_, ?_, ?_⟩
    · intro i hi a ha
      obtain rfl : dominantOf grid data interval_secs i = a := Option.some.inj ha
      obtain ⟨p, hp, rfl⟩ := hfilled i (hbuckets ▸ hi)
      exact ⟨pointCount_dominantOf_pos hp, (dominantOf_spec _).2⟩
    · intro a b
      rw [hbuckets, hta, row_tallied]
      split_ifs
      · rw [total_row, List.countP_map]
        simp [Function.comp_def]
      · simp [total]
    iterate 3
      intro a
      rw [hbuckets, hta]
      simp only [tallied, inDirection, entry_tabulate, List.countP_map]
      split_ifs
      · simp [Function.comp_def]
      · simp
    · intro a
      rw [hdwell]
      split_ifs <;> simp

omit [Rounding F] in
/-- The timestamps of sorted points are between the first and the last one. -/
theorem mem_span {p : Int × F} (hsorted : data.Pairwise fun p q => p.1 ≤ q.1) (hp : p ∈ data) :
    AnalysisGrid.tStart data ≤ p.1 ∧ p.1 ≤ AnalysisGrid.tEnd data := by
  have hlast := hsorted
  cases data with
  | nil => cases hp
  | cons first rest =>
    constructor
    · rcases List.mem_cons.mp hp with rfl | hp
      · exact le_rfl
      · exact (List.pairwise_cons.mp hsorted).1 p hp
    · have : Std.Refl fun p q : Int × F => p.1 ≤ q.1 := ⟨fun p => le_rfl⟩
      have hle := hlast.rel_getLast hp
      simpa [AnalysisGrid.tEnd, List.getLast?_eq_getLast_of_ne_nil (List.cons_ne_nil first rest)] using hle

omit [Rounding F] in
/-- Where the span of sorted points fits, a point is in the bucket of its interval, and the last point in the last bucket. -/
theorem pointBucket_of_sorted (hpos : 0 < interval_secs) (hsorted : data.Pairwise fun p q => p.1 ≤ q.1)
    (hfit : FitsI64 (AnalysisGrid.tEnd data - AnalysisGrid.tStart data)) {p : Int × F} (hp : p ∈ data) :
    AnalysisGrid.pointBucket data interval_secs p = ((p.1 - AnalysisGrid.tStart data) / interval_secs).toNat ∧
      AnalysisGrid.buckets data interval_secs =
        ((AnalysisGrid.tEnd data - AnalysisGrid.tStart data) / interval_secs).toNat + 1 := by
  obtain ⟨hlow, hhigh⟩ := mem_span hsorted hp
  have hfits : FitsI64 (p.1 - AnalysisGrid.tStart data) := ⟨by omega, by have := hfit.2; omega⟩
  have hbuckets : AnalysisGrid.buckets data interval_secs =
      ((AnalysisGrid.tEnd data - AnalysisGrid.tStart data) / interval_secs).toNat + 1 := by
    rw [AnalysisGrid.buckets_eq hfit, AnalysisGrid.numBuckets_of_lt hpos (by omega) hfit.2,
      Int.tdiv_eq_ediv_of_nonneg (by omega)]
  have hle : (p.1 - AnalysisGrid.tStart data) / interval_secs ≤ (AnalysisGrid.tEnd data - AnalysisGrid.tStart data) / interval_secs :=
    Int.ediv_le_ediv hpos (by omega)
  refine ⟨?_, hbuckets⟩
  rw [AnalysisGrid.pointBucket_eq hfits, AnalysisGrid.bucket, AnalysisGrid.asU64_tdiv_of_nonneg (by omega) hfits.2 hpos, hbuckets]
  omega

/-- A span past the end of an `i64` wraps, and leaves one bucket if any. -/
theorem buckets_of_not_fits (hpos : 0 < interval_secs) (hsorted : data.Pairwise fun p q => p.1 ≤ q.1) (hdata : data ≠ [])
    (hrange : ∀ p ∈ data, FitsI64 p.1) (hfit : ¬FitsI64 (AnalysisGrid.tEnd data - AnalysisGrid.tStart data))
    (hcapable : AnalysisGrid.Capable grid (AnalysisGrid.buckets data interval_secs)) : AnalysisGrid.buckets data interval_secs = 1 := by
  obtain ⟨last, hlast, hend⟩ := AnalysisGrid.exists_tEnd hdata
  obtain ⟨first, rest, rfl⟩ := List.exists_cons_of_ne_nil hdata
  have hstart : AnalysisGrid.tStart (first :: rest) = first.1 := rfl
  have hfirst := hrange first List.mem_cons_self
  have hle := (mem_span hsorted hlast).1
  have hlast := hrange last hlast
  have hwrapped := AnalysisGrid.fitsI64_wrapped (AnalysisGrid.tEnd (first :: rest)) (AnalysisGrid.tStart (first :: rest))
  have hneg : AnalysisGrid.wrapped (AnalysisGrid.tEnd (first :: rest)) (AnalysisGrid.tStart (first :: rest)) < 0 := by
    unfold FitsI64 at hfit hfirst hlast
    unfold AnalysisGrid.wrapped
    rw [Int.bmod_def, Int.emod_eq_of_lt (by omega) (by omega), if_neg (by omega)]
    omega
  have hlt := AnalysisGrid.lt_of_capable hpos hwrapped hcapable.2
  unfold AnalysisGrid.buckets
  rw [AnalysisGrid.numBuckets_of_lt hpos hlt hwrapped.2, AnalysisGrid.tdiv_of_small hlt hneg]
  rfl

/-- Of sorted points with a positive interval, what is counted comes from buckets with points exactly if there is no gap, or the span
is past the end of an `i64`. -/
theorem transitions_from_data_iff {ta : TransitionAnalysis F} (hpos : 0 < interval_secs)
    (hsorted : data.Pairwise fun p q => p.1 ≤ q.1) (hrange : ∀ p ∈ data, FitsI64 p.1)
    (h : new checks grid data interval_secs = .ok ta) : FromData grid data interval_secs ta ↔
      NoGap data interval_secs ∨ ¬FitsI64 (AnalysisGrid.tEnd data - AnalysisGrid.tStart data) := by
  rcases eq_or_ne data [] with rfl | hdata
  · refine iff_of_true ?_ (Or.inl (by simp [NoGap]))
    obtain ⟨occ, hocc, rfl⟩ := new_eq h
    rcases occupancy_cases hocc with ⟨-, rfl⟩ | ⟨hne, -⟩
    · refine ⟨fun _ => none, by simp [numBuckets, tallied], ?_, ?_, ?_, ?_, ?_⟩
      · intro a b
        rw [row_tallied]
        split_ifs <;> simp [windows, bumped, total]
      iterate 3
        intro a
        simp [tallied, inDirection, entry_tabulate, windows]
      · intro a
        simp [dwellTimesOf, tallied, dwellTimes, windows]
    · exact absurd rfl hne
  rw [fromData_iff_filled hdata hpos h]
  by_cases hfit : FitsI64 (AnalysisGrid.tEnd data - AnalysisGrid.tStart data)
  · have hpoint : ∀ p ∈ data, _ := fun p hp => pointBucket_of_sorted hpos hsorted hfit hp
    have hnonneg : ∀ p ∈ data, 0 ≤ (p.1 - AnalysisGrid.tStart data) / interval_secs := fun p hp =>
      Int.ediv_nonneg (by have := (mem_span hsorted hp).1; omega) hpos.le
    obtain ⟨last, hlast, hend⟩ := AnalysisGrid.exists_tEnd hdata
    rw [or_iff_left (not_not.mpr hfit)]
    constructor
    · intro hfilled p hp k hk
      have hle : (p.1 - AnalysisGrid.tStart data) / interval_secs ≤
          (AnalysisGrid.tEnd data - AnalysisGrid.tStart data) / interval_secs :=
        Int.ediv_le_ediv hpos (by have := (mem_span hsorted hp).2; omega)
      obtain ⟨q, hq, hqk⟩ := hfilled k (by rw [(hpoint p hp).2]; omega)
      rw [(hpoint q hq).1] at hqk
      exact ⟨q, hq, by have := hnonneg q hq; omega⟩
    · intro hgap i hi
      rw [(hpoint last hlast).2, ← hend] at hi
      obtain ⟨q, hq, hqi⟩ := hgap last hlast i (by have := hnonneg last hlast; omega)
      exact ⟨q, hq, by rw [(hpoint q hq).1]; omega⟩
  · refine iff_of_true ?_ (Or.inr hfit)
    obtain ⟨occ, hocc, -⟩ := new_eq h
    have hcapable := ((AnalysisGrid.gives_occupancy checks grid hdata hpos).exists_iff.mp ⟨occ, hocc⟩).2.1
    intro i hi
    obtain ⟨p, hp⟩ := List.exists_mem_of_ne_nil data hdata
    have hlt := @AnalysisGrid.pointBucket_lt F data interval_secs p
    rw [buckets_of_not_fits hpos hsorted hdata hrange hfit hcapable] at hi hlt
    exact ⟨p, hp, by omega⟩

end Gaps

/-- Two points a minute apart, by the minute. -/
theorem transitions_from_data_iff_minute : FromData tenGrid [(0, 5), (60, 5)] 60
      ⟨tenGrid, 60, [[(0, 1)], [(0, 1)]], [[(0, 1)]], [1], [0], [0], [1], [[2]]⟩ ↔
    NoGap [(0, (5 : ℚ)), (60, 5)] 60 ∨ ¬FitsI64 (AnalysisGrid.tEnd [(0, (5 : ℚ)), (60, 5)] - AnalysisGrid.tStart [(0, (5 : ℚ)), (60, 5)]) :=
  @transitions_from_data_iff ℚ _ true tenGrid _ 60 _ (by decide) (by simp) (by decide) (by decide +kernel)

/-- A minute without points between two points is a stay in the only cell. -/
theorem gap_is_a_stay : ∃ ta, new true tenGrid [(0, 5), (120, 5)] 60 = .ok ta ∧ ¬FromData tenGrid [(0, 5), (120, 5)] 60 ta := by
  refine ⟨⟨tenGrid, 60, [[(0, 1)], [], [(0, 1)]], [[(0, 2)]], [2], [0], [0], [2], [[3]]⟩, by decide +kernel, ?_⟩
  rintro ⟨dom, hdom⟩
  have hdwell : (List.range 3).length ≤ (List.range 3).countP fun i => dom i = some 0 := hdom.dwell 0
  have hall := List.countP_eq_length.mp (le_antisymm List.countP_le_length hdwell)
  have hmiddle : dom 1 = some 0 := of_decide_eq_true (hall 1 (by decide))
  have hpoint := (hdom.dominant 1 (by decide) 0 hmiddle).1
  revert hpoint
  decide +kernel

end TransitionAnalysis

end Opsense
