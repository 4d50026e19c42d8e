import Opsense.Mlib.RcfTree

/-!
# The forest and its window

Every tree of a forest holds the points of the window, each of them once, and counts them right (`trees_hold_window`), along every
run in which no leaf is cut twice: where a point is scored, the cut it makes can be undone, and where a point is put in to stay, the
leaf it reaches is not cut. A leaf that is cut gets the point once for the cut and once more below it.
-/

namespace Opsense

namespace Rcf

variable {ρ : Type} {next : ρ → Double × ρ} {ln : Double → Double} {cap stack id : Nat} {p : Point} {rng : ρ} {t : Node}

/-! ## One tree after another -/

/-- Every tree meets a condition when its turn comes. -/
def EachTree (C : Node → ρ → Prop) (f : Node → ρ → Option (Node × ρ × Double)) : List Node → ρ → Prop
  | [], _ => True
  | tree :: trees, rng => C tree rng ∧ ∀ r ∈ f tree rng, EachTree C f trees r.2.1

instance decidableEachTree (C : Node → ρ → Prop) [∀ t rng, Decidable (C t rng)] (f : Node → ρ → Option (Node × ρ × Double)) :
    ∀ trees rng, Decidable (EachTree C f trees rng)
  | [], _ => isTrue trivial
  | tree :: trees, rng =>
    have (r : Node × ρ × Double) : Decidable (EachTree C f trees r.2.1) := decidableEachTree C f trees r.2.1
    inferInstanceAs (Decidable (C tree rng ∧ ∀ r ∈ f tree rng, EachTree C f trees r.2.1))

/-- What is done to every tree is done to all, where each meets the condition. -/
theorem eachTree_some {I J : Node → Prop} {C : Node → ρ → Prop} {f : Node → ρ → Option (Node × ρ × Double)}
    (hf : ∀ t rng, I t → C t rng → ∃ t' rng' x, f t rng = some (t', rng', x) ∧ J t') :
    ∀ (trees : List Node) (rng : ρ) (total : Double), (∀ t ∈ trees, I t) → EachTree C f trees rng →
      ∃ trees' rng' total', eachTree f trees rng total = some (trees', rng', total') ∧ ∀ t ∈ trees', J t := by
  intro trees
  induction trees with
  | nil => exact fun rng total _ _ => ⟨[], rng, total, rfl, fun t ht => absurd ht List.not_mem_nil⟩
  | cons t trees ih =>
    intro rng total hI hC
    obtain ⟨t', rng', x, htree, hJ⟩ := hf t rng (hI t List.mem_cons_self) hC.1
    obtain ⟨trees', rng'', total', htrees, hall⟩ :=
      ih rng' (total + x) (fun t ht => hI t (List.mem_cons_of_mem _ ht)) (hC.2 _ htree)
    refine ⟨t' :: trees', rng'', total', ?_, ?_⟩
    · rw [eachTree, htree, Option.bind_some]
      dsimp only
      rw [htrees, Option.map_some]
    · intro u hu
      rcases List.mem_cons.mp hu with rfl | hu
      · exact hJ
      · exact hall u hu

/-! ## A tree and the window -/

/-- A tree that holds the points of a window. -/
def Keeps (window : List Stored) (t : Node) : Prop := t.Sound ∧ t.entries.Perm window

/-- A tree a point is scored in does not cut a leaf so that it could not be undone. -/
def Scorable (next : ρ → Double × ρ) (cap id : Nat) (p : Point) (t : Node) (rng : ρ) : Prop :=
  skips p true t = true ∨ Undone next cap id p (t.reach p) rng

/-- A tree a point is put into does not cut the leaf. -/
def Growable (next : ρ → Double × ρ) (cap : Nat) (p : Point) (t : Node) (rng : ρ) : Prop :=
  WhenCut next cap (t.reach p) rng fun _ _ _ => False

instance : Decidable (Scorable next cap id p t rng) := inferInstanceAs (Decidable (_ ∨ Undone _ _ _ _ _ _))

instance : Decidable (Growable next cap p t rng) := inferInstanceAs (Decidable (WhenCut _ _ _ _ _))

variable {forest : RcfForest ρ} {window : List Stored}

theorem scoreTree_keeps (hstack : 3 ≤ stack) (hid : ∀ e ∈ window, e.1 ≠ id) (ht : Keeps window t)
    (h : Scorable next forest.cfg.leaf_capacity id p t rng) :
    ∃ t' rng' x, forest.scoreTree next ln stack id p t rng = some (t', rng', x) ∧ Keeps window t' := by
  obtain ⟨hsound, hperm⟩ := ht
  have hfresh : ∀ e ∈ t.entries, e.1 ≠ id := fun e he => hid e (hperm.mem_iff.mp he)
  unfold RcfForest.scoreTree insert
  by_cases hskip : skips p true t = true
  · rw [if_pos hskip, Option.bind_some]
    dsimp only
    rw [remove_of_not_mem hfresh]
    exact ⟨t, rng, _, rfl, hsound, hperm⟩
  · obtain ⟨stack', rfl⟩ := Nat.exists_eq_add_of_le' hstack
    obtain ⟨node, rng', siblings, hinsert, t', hremove, hsound', hperm'⟩ :=
      insertInner_remove hsound hfresh (h.resolve_left hskip) stack'
    rw [if_neg hskip, hinsert, Option.map_some, Option.bind_some]
    dsimp only
    rw [hremove]
    exact ⟨t', rng', _, rfl, hsound', hperm'.trans hperm⟩

theorem growTree_keeps (hstack : 3 ≤ stack) (hid : ∀ e ∈ window, e.1 ≠ id) (ht : Keeps window t)
    (h : Growable next forest.cfg.leaf_capacity p t rng) :
    ∃ t' rng' x, forest.growTree next stack id p t rng = some (t', rng', x) ∧ Keeps (window ++ [(id, p)]) t' := by
  obtain ⟨hsound, hperm⟩ := ht
  have hfresh : ∀ e ∈ t.entries, e.1 ≠ id := fun e he => hid e (hperm.mem_iff.mp he)
  have hskip : ¬skips p false t = true := by
    cases t <;> simp [skips]
  obtain ⟨stack', rfl⟩ := Nat.exists_eq_add_of_le' (Nat.le_of_succ_le (Nat.le_of_succ_le hstack))
  obtain ⟨node, rng', siblings, hinsert, hsound', hperm'⟩ := insertInner_grow hsound hfresh h stack'
  unfold RcfForest.growTree insert
  rw [if_neg hskip, hinsert]
  exact ⟨node, rng', _, rfl, hsound', hperm'.trans ((hperm.cons _).trans (List.perm_append_singleton _ _).symm)⟩

/-- The oldest point of the window leaves a tree. -/
theorem remove_keeps {old : Stored} (hnodup : ((old :: window).map Prod.fst).Nodup) (ht : Keeps (old :: window) t) :
    ∃ t', (t.remove old.1).map Prod.fst = some t' ∧ Keeps window t' := by
  obtain ⟨hsound, hperm⟩ := ht
  have hids := hperm.map Prod.fst
  obtain ⟨t', hremove, hsound', hperm'⟩ := remove_sound hsound (hids.nodup_iff.mpr hnodup)
    (hids.mem_iff.mpr List.mem_cons_self)
  refine ⟨t', by rw [hremove]; rfl, hsound', hperm'.trans ((hperm.filter _).trans ?_)⟩
  have hrest : ∀ e ∈ window, e.1 ≠ old.1 := by
    intro e he heq
    exact (List.nodup_cons.mp hnodup).1 (heq ▸ List.mem_map_of_mem he)
  rw [List.filter_cons_of_neg (by simp), List.filter_eq_self.mpr fun e he => by simpa using hrest e he]

/-! ## The forest -/

/-- The trees hold the window, whose ids are apart and have all been given. -/
structure RcfForest.Holds (forest : RcfForest ρ) : Prop where
  trees : ∀ t ∈ forest.trees, Keeps forest.window t
  nodup : (forest.window.map Prod.fst).Nodup
  given : ∀ e ∈ forest.window, e.1 < forest.next_id

theorem evict_holds (h : forest.Holds) : ∃ forest', forest.evict = some forest' ∧ forest'.Holds := by
  unfold RcfForest.evict
  cases hwindow : forest.window with
  | nil => exact ⟨forest, rfl, h⟩
  | cons old window =>
    dsimp only
    split_ifs with hfull
    · have hkeeps := h.trees
      have hnodup := h.nodup
      have hgiven := h.given
      rw [hwindow] at hkeeps hnodup hgiven
      have hall : ∀ trees : List Node, (∀ t ∈ trees, Keeps (old :: window) t) →
          ∃ trees', (trees.mapM fun (t : Node) => (t.remove old.1).map Prod.fst) = some trees' ∧ ∀ t ∈ trees', Keeps window t := by
        intro trees htrees
        induction trees with
        | nil => exact ⟨[], rfl, fun t ht => absurd ht List.not_mem_nil⟩
        | cons t trees ih =>
          obtain ⟨t', ht', hkeeps'⟩ := remove_keeps hnodup (htrees t List.mem_cons_self)
          obtain ⟨trees', htrees', hall⟩ := ih fun t ht => htrees t (List.mem_cons_of_mem _ ht)
          refine ⟨t' :: trees', ?_, ?_⟩
          · rw [List.mapM_cons, ht', htrees']
            rfl
          · intro u hu
            rcases List.mem_cons.mp hu with rfl | hu
            · exact hkeeps'
            · exact hall u hu
      obtain ⟨trees, htrees, hkeeps'⟩ := hall forest.trees hkeeps
      refine ⟨{ forest with window, trees }, by rw [htrees]; rfl, hkeeps', (List.nodup_cons.mp hnodup).2, ?_⟩
      exact fun e he => hgiven e (List.mem_cons_of_mem _ he)
    · exact ⟨forest, rfl, h⟩

/-- Where a point can be scored in every tree, and then put in. -/
def RcfForest.Grows (next : ρ → Double × ρ) (ln : Double → Double) (stack : Nat) (forest : RcfForest ρ) (p : Point) : Prop :=
  EachTree (Scorable next forest.cfg.leaf_capacity forest.next_id p) (forest.scoreTree next ln stack forest.next_id p)
      forest.trees forest.rng ∧
    ∀ r ∈ eachTree (forest.scoreTree next ln stack forest.next_id p) forest.trees forest.rng 0.0,
      EachTree (Growable next forest.cfg.leaf_capacity p) (forest.growTree next stack forest.next_id p) r.1 r.2.1

theorem insertShingled_holds (hstack : 3 ≤ stack) (h : forest.Holds) (hgrows : forest.Grows next ln stack p) :
    ∃ forest' x, forest.insertShingled next ln stack p = some (forest', x) ∧ forest'.Holds := by
  have hid : ∀ e ∈ forest.window, e.1 ≠ forest.next_id := fun e he => (h.given e he).ne
  obtain ⟨trees, rng, total, hscore, hkeeps⟩ := eachTree_some (f := forest.scoreTree next ln stack forest.next_id p)
    (C := Scorable next forest.cfg.leaf_capacity forest.next_id p) (fun t rng ht hC => scoreTree_keeps hstack hid ht hC)
    forest.trees forest.rng 0.0 h.trees hgrows.1
  obtain ⟨trees', rng', total', hgrow, hkeeps'⟩ := eachTree_some (f := forest.growTree next stack forest.next_id p)
    (C := Growable next forest.cfg.leaf_capacity p) (fun t rng ht hC => growTree_keeps hstack hid ht hC)
    trees rng 0.0 hkeeps (hgrows.2 _ hscore)
  obtain ⟨grown, hgrown⟩ : ∃ grown : RcfForest ρ, grown = { forest with
      rng := rng', trees := trees', window := forest.window ++ [(forest.next_id, p)], next_id := forest.next_id + 1 } := ⟨_, rfl⟩
  have hholds : grown.Holds := by
    subst hgrown
    refine ⟨hkeeps', ?_, ?_⟩
    · rw [List.map_append]
      refine List.nodup_append.mpr ⟨h.nodup, List.nodup_singleton _, ?_⟩
      intro a ha b hb
      obtain ⟨e, he, rfl⟩ := List.mem_map.mp ha
      rw [List.mem_singleton.mp hb]
      exact hid e he
    · intro e he
      rcases List.mem_append.mp he with he | he
      · exact Nat.lt_succ_of_lt (h.given e he)
      · rw [List.mem_singleton.mp he]
        exact Nat.lt_succ_self _
  obtain ⟨forest', hevict, hholds'⟩ := evict_holds hholds
  refine ⟨forest', total / Scalar.ofNat forest.cfg.num_trees, ?_, hholds'⟩
  unfold RcfForest.insertShingled
  dsimp only
  rw [hscore, Option.bind_some]
  dsimp only
  rw [hgrow, Option.bind_some]
  dsimp only
  rw [← hgrown, hevict, Option.map_some]

/-- Where the vector that `add` makes can be scored and put in. -/
def RcfForest.Adds (next : ρ → Double × ρ) (ln : Double → Double) (stack : Nat) (forest : RcfForest ρ) (point : Point) : Prop :=
  if 1 < forest.cfg.shingle_size then
    forest.cfg.shingle_size ≤ (forest.shingle ++ [point]).length →
      Grows next ln stack { forest with shingle := (forest.shingle ++ [point]).tail } (forest.shingle ++ [point]).flatten
  else forest.Grows next ln stack point

/-- Where the vector that `score` looks at can be scored. -/
def RcfForest.Scores (next : ρ → Double × ρ) (ln : Double → Double) (stack : Nat) (forest : RcfForest ρ) (point : Point) : Prop :=
  EachTree (Scorable next forest.cfg.leaf_capacity forest.next_id (forest.scored point))
    (forest.scoreTree next ln stack forest.next_id (forest.scored point)) forest.trees forest.rng

/-- No leaf is cut twice by a call: the trees in which a point is scored undo its cut, and the trees into which it is put do not cut a
leaf. -/
def CutsOnce (next : ρ → Double × ρ) (ln : Double → Double) (stack : Nat) : Option (RcfForest ρ) → RcfCall → Prop
  | none, _ => True
  | some forest, .add point => point.length = forest.dims → forest.Adds next ln stack point
  | some forest, .score point => point.length = forest.dims → forest.Scores next ln stack point

instance : Decidable (forest.Grows next ln stack p) := by
  unfold RcfForest.Grows
  infer_instance

instance : Decidable (forest.Adds next ln stack p) := by
  unfold RcfForest.Adds
  infer_instance

instance : Decidable (forest.Scores next ln stack p) := by
  unfold RcfForest.Scores
  infer_instance

instance : ∀ (forest : Option (RcfForest ρ)) (call : RcfCall), Decidable (CutsOnce next ln stack forest call)
  | none, _ => isTrue trivial
  | some forest, .add point => inferInstanceAs (Decidable (point.length = forest.dims → forest.Adds next ln stack point))
  | some forest, .score point => inferInstanceAs (Decidable (point.length = forest.dims → forest.Scores next ln stack point))

theorem add_holds (hstack : 3 ≤ stack) (h : forest.Holds) (honce : CutsOnce next ln stack (some forest) (.add p)) :
    ∃ forest' x, forest.add next ln stack p = some (forest', x) ∧ forest'.Holds := by
  unfold RcfForest.add
  by_cases hdims : p.length ≠ forest.dims
  · rw [if_pos hdims]
    exact ⟨forest, _, rfl, h⟩
  rw [if_neg hdims]
  replace honce := honce (not_not.mp hdims)
  unfold RcfForest.Adds at honce
  by_cases hshingles : 1 < forest.cfg.shingle_size
  · rw [if_pos hshingles] at honce ⊢
    dsimp only
    by_cases hshort : (forest.shingle ++ [p]).length < forest.cfg.shingle_size
    · rw [if_pos hshort]
      exact ⟨_, _, rfl, h.trees, h.nodup, h.given⟩
    · rw [if_neg hshort]
      have htail : RcfForest.Holds { forest with shingle := (forest.shingle ++ [p]).tail } :=
        ⟨h.trees, h.nodup, h.given⟩
      obtain ⟨forest', x, hinsert, hholds⟩ := insertShingled_holds hstack htail (honce (not_lt.mp hshort))
      rw [hinsert]
      exact ⟨forest', _, rfl, hholds⟩
  · rw [if_neg hshingles] at honce ⊢
    obtain ⟨forest', x, hinsert, hholds⟩ := insertShingled_holds hstack h honce
    rw [hinsert]
    exact ⟨forest', _, rfl, hholds⟩

theorem score_holds (hstack : 3 ≤ stack) (h : forest.Holds)
    (honce : CutsOnce next ln stack (some forest) (.score p)) :
    ∃ forest' x, forest.score next ln stack p = some (forest', x) ∧ forest'.Holds := by
  unfold RcfForest.score
  by_cases hdims : p.length ≠ forest.dims
  · rw [if_pos hdims]
    exact ⟨forest, _, rfl, h⟩
  rw [if_neg hdims]
  have hid : ∀ e ∈ forest.window, e.1 ≠ forest.next_id := fun e he => (h.given e he).ne
  obtain ⟨trees, rng, total, hscore, hkeeps⟩ := eachTree_some
    (f := forest.scoreTree next ln stack forest.next_id (forest.scored p))
    (C := Scorable next forest.cfg.leaf_capacity forest.next_id (forest.scored p))
    (fun t rng ht hC => scoreTree_keeps hstack hid ht hC)
    forest.trees forest.rng 0.0 h.trees (honce (not_not.mp hdims))
  dsimp only
  rw [hscore]
  exact ⟨_, _, rfl, hkeeps, h.nodup, fun e he => Nat.lt_succ_of_lt (h.given e he)⟩

/-- Every tree holds the points of the window, each once, and counts them right, along every run in which no leaf is cut twice; no
call of it fails. -/
theorem trees_hold_window (next : ρ → Double × ρ) (ln : Double → Double) (stack : Nat) (hstack : 3 ≤ stack) (cfg : RcfConfig)
    (dims : Nat) (rng : ρ) (calls : List RcfCall) (hfinite : ∀ call ∈ calls, FinitePoint call.point)
    (honce : (machine next ln stack cfg dims rng).Along (CutsOnce next ln stack) calls) :
    ∃ forest, (machine next ln stack cfg dims rng).state calls = some forest ∧ (forest.window.map Prod.fst).Nodup ∧
      ∀ t ∈ forest.trees, t.Sound ∧ t.entries.Perm forest.window := by
  have hrun : ∃ forest, (machine next ln stack cfg dims rng).state calls = some forest ∧ forest.Holds := by
    induction calls using List.reverseRecOn with
    | nil =>
      refine ⟨_, rfl, ?_, List.nodup_nil, fun e he => absurd he List.not_mem_nil⟩
      intro t ht
      rw [List.eq_of_mem_replicate ht]
      exact ⟨trivial, .refl _⟩
    | append_singleton calls call ih =>
      obtain ⟨forest, hstate, hholds⟩ := ih (fun call hcall => hfinite call (List.mem_append_left _ hcall)) honce.init
      have hlast := honce.last
      rw [hstate] at hlast
      have hcall : ∃ forest' x, forest.call next ln stack call = some (forest', x) ∧ forest'.Holds := by
        cases call with
        | add point => exact add_holds hstack hholds hlast
        | score point =>
          obtain ⟨forest', x, hscore, hholds'⟩ := score_holds hstack hholds hlast
          refine ⟨forest', x.map some, ?_, hholds'⟩
          unfold RcfForest.call
          dsimp only
          rw [hscore]
          rfl
      obtain ⟨forest', x, hcall, hholds'⟩ := hcall
      refine ⟨forest', ?_, hholds'⟩
      rw [Machine.state_snoc, hstate]
      unfold Machine.next machine
      dsimp only
      rw [Option.bind_some, hcall]
  obtain ⟨forest, hstate, hholds⟩ := hrun
  exact ⟨forest, hstate, hholds.nodup, hholds.trees⟩

/-- Four points with a sample of three: the first is evicted. -/
theorem trees_hold_window_fourPoints :
    (∀ call ∈ ([0, 1, 2, 3].map fun n => RcfCall.add [.fin n]), FinitePoint call.point) ∧
      ∃ forest, (machine xorShift (fun x => x) 3 ⟨2, 3, 1, 1⟩ 1 0x9E3779B97F4A7C15).state
        ([0, 1, 2, 3].map fun n => .add [.fin n]) = some forest ∧ (forest.window.map Prod.fst).Nodup ∧
          ∀ t ∈ forest.trees, t.Sound ∧ t.entries.Perm forest.window :=
  ⟨by decide, trees_hold_window xorShift (fun x => x) 3 le_rfl ⟨2, 3, 1, 1⟩ 1 0x9E3779B97F4A7C15
    ([0, 1, 2, 3].map fun n => .add [.fin n]) (by decide) (Machine.along_iff_alongFrom.mpr (by decide +kernel))⟩

/-- A point far from the others is not scored in a tree, and cuts a leaf of two points when it is put in: it is there three times. -/
theorem far_point_stored_thrice :
    ((machine xorShift (fun x => x) 10 ⟨1, 3, 1, 1⟩ 1 0x9E3779B97F4A7C15).state
      ([0, 10, 5, 100].map fun n => .add [.fin n])).map (fun forest =>
        (forest.window.map Prod.fst, forest.trees.map fun t => (t.size, t.entries.map Prod.fst))) =
      some ([2, 3, 4], [(3, [3, 2, 4, 4, 4])]) := by
  decide +kernel

end Rcf

end Opsense
