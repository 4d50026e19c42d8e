import Opsense.Mlib.RcfReach
import Opsense.Mlib.RcfRename
import Opsense.Mlib.RcfTree

/-!
# What a score leaves behind

A point that is scored is put into every tree and taken out again. It leaves a tree as it was exactly when it marks nothing there
(`Unmarked`): it extends no bounds on its way down, and the leaf it reaches is not cut, or is cut so that the points of the leaf are
all on the other side (`scoreTree_iff`). A forest that was made by any calls is as it was after a score, and gives every point the
score it gave before, exactly when the point marks none of its trees (`transient_iff`).
-/

namespace Opsense

namespace Rcf

variable {ρ : Type} {next : ρ → Double × ρ} {ln : Double → Double} {cap stack id : Nat} {p : Point} {rng rng' : ρ} {t t' : Node}
  {es : List Stored}

/-! ## One tree -/

/-- A point marks nothing in a tree: it is within the bounds of the branches on its way, and the leaf it reaches has points, and is
not cut but for a cut that all of them are on the other side of. -/
def Unmarked (next : ρ → Double × ρ) (cap : Nat) (p : Point) : Node → ρ → Prop
  | .empty, _ => True
  | .leaf entries, rng =>
    entries ≠ [] ∧ WhenCut next cap entries rng fun cut_dim cut _ => ∀ e ∈ entries, goesLeft e.2 cut_dim cut ≠ goesLeft p cut_dim cut
  | .branch left right cut_dim cut bbox _, rng =>
    bbox.update p = bbox ∧ if goesLeft p cut_dim cut then Unmarked next cap p left rng else Unmarked next cap p right rng

/-- The random numbers that are left when a point has been put into a tree that it does not mark. -/
def drawn (next : ρ → Double × ρ) (cap : Nat) (p : Point) : Node → ρ → ρ
  | .empty, rng => rng
  | .leaf entries, rng => if entries.length < cap then rng else (splitCut next (entries.map Prod.snd) rng).2
  | .branch left right cut_dim cut _ _, rng => if goesLeft p cut_dim cut then drawn next cap p left rng else drawn next cap p right rng

deriving instance DecidableEq for BBox

instance decidableUnmarked : ∀ t rng, Decidable (Unmarked next cap p t rng)
  | .empty, _ => isTrue trivial
  | .leaf entries, rng => inferInstanceAs (Decidable (entries ≠ [] ∧ WhenCut next cap entries rng _))
  | .branch left right cut_dim cut bbox _, rng =>
    have := decidableUnmarked left rng
    have := decidableUnmarked right rng
    inferInstanceAs (Decidable (bbox.update p = bbox ∧
      if goesLeft p cut_dim cut then Unmarked next cap p left rng else Unmarked next cap p right rng))

section Fork

variable {gl : Bool} {near far : Node} {cut_dim : Nat} {cut : Double} {bbox bbox' : BBox} {size size' : Nat}

/-- A new point is taken out of the side it is on. -/
theorem remove_fork_eq (hfar : ∀ e ∈ far.entries, e.1 ≠ id) :
    (fork gl near far cut_dim cut bbox (size + 1)).remove id = (near.remove id).map fun r =>
      if r.2 then (if r.1.isEmpty then far else if far.isEmpty then r.1 else fork gl r.1 far cut_dim cut bbox size, true)
      else (fork gl near far cut_dim cut bbox (size + 1), false) := by
  have hother := remove_of_not_mem hfar
  have hboth : ∀ t : Node, t.isEmpty = true → far.isEmpty = true → t = far := fun t ht hfar =>
    (Node.eq_empty_of_isEmpty ht).trans (Node.eq_empty_of_isEmpty hfar).symm
  cases gl with
  | true =>
    simp only [fork, if_true, Node.remove]
    cases near.remove id with
    | none => rfl
    | some r =>
      obtain ⟨n, found⟩ := r
      cases found <;> simp [hother]
  | false =>
    simp only [fork, Bool.false_eq_true, if_false, Node.remove, hother, Option.bind_some]
    cases near.remove id with
    | none => rfl
    | some r =>
      obtain ⟨n, found⟩ := r
      cases found with
      | false => simp
      | true =>
        simp only [Option.bind_some, if_true, Nat.succ_ne_zero, if_false, Nat.add_sub_cancel, Option.map_some, Option.some.injEq,
          Prod.mk.injEq, and_true]
        split_ifs with hf hn hn
        · exact hboth n hn hf
        · rfl
        · rfl
        · rfl

theorem fork_injective {near' : Node} (h : fork gl near far cut_dim cut bbox size = fork gl near' far cut_dim cut bbox' size') :
    near = near' ∧ bbox = bbox' ∧ size = size' := by
  cases gl <;> simp [fork] at h <;> tauto

theorem far_ne_fork : far ≠ fork gl near far cut_dim cut bbox size := by
  intro heq
  have hsize := congrArg sizeOf heq
  cases gl <;> simp [fork] at hsize <;> omega

theorem whole_fork : (fork gl near far cut_dim cut bbox size).Whole ↔
    near.Whole ∧ far.Whole ∧ near.isEmpty = false ∧ far.isEmpty = false := by
  cases gl
  · simp only [fork, Bool.false_eq_true, if_false, Node.Whole]
    tauto
  · rfl

theorem unmarked_fork (hgl : goesLeft p cut_dim cut = gl) :
    Unmarked next cap p (fork gl near far cut_dim cut bbox size) rng ↔ bbox.update p = bbox ∧ Unmarked next cap p near rng := by
  cases gl <;> simp [fork, Unmarked, hgl]

theorem drawn_fork (hgl : goesLeft p cut_dim cut = gl) :
    drawn next cap p (fork gl near far cut_dim cut bbox size) rng = drawn next cap p near rng := by
  cases gl <;> simp [fork, drawn, hgl]

end Fork

/-- A point is put into a tree and taken out again. -/
def putAndTake (next : ρ → Double × ρ) (cap id : Nat) (p : Point) (stack : Nat) (t : Node) (rng : ρ) :
    Option ((Node × Bool) × ρ) :=
  (insertInner next cap id p stack t rng).bind fun r => (r.1.remove id).map fun taken => (taken, r.2.1)

/-- In a branch only the side of the point counts. -/
theorem putAndTake_fork {near far : Node} {cut_dim : Nat} {cut : Double} {bbox : BBox} {size : Nat}
    (hfar : ∀ e ∈ far.entries, e.1 ≠ id) :
    putAndTake next cap id p stack (fork (goesLeft p cut_dim cut) near far cut_dim cut bbox size) rng =
      (insertInner next cap id p stack near rng).bind fun r => (r.1.remove id).map fun taken =>
        (if taken.2 then
          (if taken.1.isEmpty then far else if far.isEmpty then taken.1
            else fork (goesLeft p cut_dim cut) taken.1 far cut_dim cut (bbox.update p) size, true)
        else (fork (goesLeft p cut_dim cut) r.1 far cut_dim cut (bbox.update p) (size + 1), false), r.2.1) := by
  unfold putAndTake
  cases hinsert : insertInner next cap id p stack near rng with
  | none =>
    have hnone : insertInner next cap id p stack (fork (goesLeft p cut_dim cut) near far cut_dim cut bbox size) rng = none := by
      cases hgl : goesLeft p cut_dim cut <;> simp [fork, insertInner, hgl, hinsert]
    rw [hnone]
    rfl
  | some r =>
    obtain ⟨node, rng₁, siblings⟩ := r
    rw [insertInner_fork rfl hinsert, Option.bind_some, Option.bind_some]
    dsimp only
    rw [remove_fork_eq hfar, Option.map_map]
    rfl

/-- A leaf that is not cut has the point at its end. -/
theorem insertLeaf_stays (h : es.length < cap ∧ rng' = rng ∨ ¬es.length < cap ∧ splitCut next (es.map Prod.snd) rng = (none, rng'))
    (stack : Nat) : insertLeaf next cap id p (stack + 1) es rng = some (.leaf (es ++ [(id, p)]), rng', []) := by
  rcases h with ⟨hroom, rfl⟩ | ⟨hfull, hsplit⟩
  · rw [insertLeaf, if_pos hroom]
  · rw [insertLeaf, if_neg hfull, hsplit]

variable (id p) in
/-- A leaf that is cut is a branch of two leaves, and the point is put into the one on its side once more. -/
theorem insertLeaf_cut {cut_dim : Nat} {cut : Double} (hid : ∀ e ∈ es, e.1 ≠ id) (hfull : ¬es.length < cap)
    (hsplit : splitCut next (es.map Prod.snd) rng = (some (cut_dim, cut), rng')) : ∃ bbox, ∀ stack,
      insertLeaf next cap id p (stack + 1) es rng =
        (insertLeaf next cap id p stack
          ((es.filter fun e => goesLeft e.2 cut_dim cut = goesLeft p cut_dim cut) ++ [(id, p)]) rng').map fun r =>
            (fork (goesLeft p cut_dim cut) r.1 (.leaf (es.filter fun e => goesLeft e.2 cut_dim cut = !goesLeft p cut_dim cut)) cut_dim
              cut bbox (es.length + 1), r.2.1,
              (es.filter fun e => goesLeft e.2 cut_dim cut = !goesLeft p cut_dim cut).length :: r.2.2) := by
  rcases insertLeaf_cases next cap id p es rng fun e he heq => absurd heq (hid e he) with
    hleaf | ⟨cut_dim', cut', rng₁, bbox, -, hsplit', hcut⟩
  · -- with a stack of one a leaf is only given when it is not cut
    obtain ⟨rng₁, hleaf⟩ := hleaf 0
    rw [insertLeaf, if_neg hfull, hsplit] at hleaf
    simp only [insertLeaf, Option.map_none, ite_self, reduceCtorEq] at hleaf
  · obtain ⟨heq, rfl⟩ := Prod.mk.inj (hsplit.symm.trans hsplit')
    obtain ⟨rfl, rfl⟩ := Prod.mk.inj (Option.some.inj heq)
    exact ⟨bbox, hcut⟩

theorem ne_leaf_fork {gl : Bool} {near far : Node} {cut_dim : Nat} {cut : Double} {bbox : BBox} {size : Nat} :
    fork gl near far cut_dim cut bbox size ≠ .leaf es := by
  cases gl <;> simp [fork]

/-- A leaf that the point does not mark. -/
theorem putAndTake_leaf (hid : ∀ e ∈ es, e.1 ≠ id) (h : Unmarked next cap p (.leaf es) rng) (stack : Nat) :
    putAndTake next cap id p (stack + 2) (.leaf es) rng = some ((.leaf es, true), drawn next cap p (.leaf es) rng) := by
  obtain ⟨hne, hcut⟩ := h
  have hback : leafOrEmpty es = .leaf es := if_neg hne
  have hstays : ∀ rng', (es.length < cap ∧ rng' = rng ∨ ¬es.length < cap ∧ splitCut next (es.map Prod.snd) rng = (none, rng')) →
      putAndTake next cap id p (stack + 2) (.leaf es) rng = some ((.leaf es, true), rng') := by
    intro rng' hleaf
    have hremove := remove_leaf_new (p := p) hid 1 Nat.one_ne_zero
    rw [putAndTake, insertInner, insertLeaf_stays hleaf (stack + 1), Option.bind_some]
    dsimp only
    rw [show es ++ [(id, p)] = es ++ List.replicate 1 (id, p) from rfl, hremove, hback]
    rfl
  by_cases hroom : es.length < cap
  · rw [drawn, if_pos hroom]
    exact hstays rng (.inl ⟨hroom, rfl⟩)
  rw [drawn, if_neg hroom]
  rcases hsplit : splitCut next (es.map Prod.snd) rng with ⟨- | ⟨cut_dim, cut⟩, rng₁⟩
  · exact hstays rng₁ (.inr ⟨hroom, hsplit⟩)
  · -- the point is alone on its side, twice, and goes
    have hapart := hcut.resolve_left hroom cut_dim cut rng₁ hsplit
    have hnear : (es.filter fun e => goesLeft e.2 cut_dim cut = goesLeft p cut_dim cut) = [] :=
      List.filter_eq_nil_iff.mpr fun e he => by simpa using hapart e he
    have hfar : (es.filter fun e => goesLeft e.2 cut_dim cut = !goesLeft p cut_dim cut) = es :=
      List.filter_eq_self.mpr fun e he => by simpa using Bool.eq_not_of_ne (hapart e he)
    obtain ⟨bbox, hinsert⟩ := insertLeaf_cut id p hid hroom hsplit
    have htwice : insertLeaf next cap id p (stack + 1) [(id, p)] rng₁ = some (.leaf [(id, p), (id, p)], rng₁, []) := by
      refine insertLeaf_stays ?_ stack
      by_cases hone : ([(id, p)] : List Stored).length < cap
      · exact .inl ⟨hone, rfl⟩
      · have hsame : ∀ q ∈ ([(id, p)] : List Stored).map Prod.snd, q = p := by simp
        exact .inr ⟨hone, splitCut_same next hsame rng₁⟩
    have hremove : (Node.leaf [(id, p), (id, p)]).remove id = some (.empty, true) :=
      remove_leaf_new (fun e he => absurd he List.not_mem_nil) 2 (by decide)
    rw [putAndTake, insertInner, hinsert, hnear, hfar, List.nil_append, htwice, Option.map_some, Option.bind_some]
    dsimp only
    rw [remove_fork_eq (show ∀ e ∈ (Node.leaf es).entries, e.1 ≠ id from hid), hremove]
    rfl

/-- A tree that the point does not mark is as it was. -/
theorem putAndTake_unmarked (ht : t.Whole) (hid : ∀ e ∈ t.entries, e.1 ≠ id) (h : Unmarked next cap p t rng) (stack : Nat) :
    putAndTake next cap id p (stack + 2) t rng = some ((t, true), drawn next cap p t rng) := by
  induction t with
  | empty =>
    have hremove : (Node.leaf [(id, p)]).remove id = some (.empty, true) :=
      remove_leaf_new (fun e he => absurd he List.not_mem_nil) 1 Nat.one_ne_zero
    rw [putAndTake, insertInner, Option.bind_some]
    dsimp only
    rw [hremove]
    rfl
  | leaf es => exact putAndTake_leaf hid h stack
  | branch left right cut_dim cut bbox size ihl ihr =>
    obtain ⟨near, far, hfork, hnear⟩ := branch_eq_fork p left right cut_dim cut bbox size
    rw [hfork] at ht hid h ⊢
    obtain ⟨hwhole, -, hnearempty, hfarempty⟩ := whole_fork.mp ht
    obtain ⟨hbounds, hunmarked⟩ := (unmarked_fork rfl).mp h
    have hidnear : ∀ e ∈ near.entries, e.1 ≠ id := fun e he => hid e (entries_fork.mem_iff.mpr (List.mem_append_left _ he))
    have hidfar : ∀ e ∈ far.entries, e.1 ≠ id := fun e he => hid e (entries_fork.mem_iff.mpr (List.mem_append_right _ he))
    have hchild : putAndTake next cap id p (stack + 2) near rng = some ((near, true), drawn next cap p near rng) := by
      rcases hnear with rfl | rfl
      · exact ihl hwhole hidnear hunmarked
      · exact ihr hwhole hidnear hunmarked
    obtain ⟨r, hinsert, hremove⟩ := Option.bind_eq_some_iff.mp hchild
    obtain ⟨taken, htaken, heq⟩ := Option.map_eq_some_iff.mp hremove
    obtain ⟨rfl, hrng⟩ := Prod.mk.inj heq
    rw [putAndTake_fork hidfar, hinsert, Option.bind_some, htaken, Option.map_some, drawn_fork rfl, ← hrng]
    simp [hnearempty, hfarempty, hbounds]

/-- A tree that is as it was is not marked. -/
theorem unmarked_of_putAndTake {found : Bool} (ht : t.Whole) (hid : ∀ e ∈ t.entries, e.1 ≠ id)
    (h : putAndTake next cap id p stack t rng = some ((t, found), rng')) : Unmarked next cap p t rng := by
  induction t generalizing found rng' with
  | empty => trivial
  | leaf es =>
    replace hid : ∀ e ∈ es, e.1 ≠ id := hid
    obtain ⟨stack, rfl⟩ : ∃ stack', stack = stack' + 1 := by
      cases stack with
      | zero => simp [putAndTake, insertInner, insertLeaf] at h
      | succ stack => exact ⟨stack, rfl⟩
    have hstays : ∀ rng₁, (es.length < cap ∧ rng₁ = rng ∨ ¬es.length < cap ∧ splitCut next (es.map Prod.snd) rng = (none, rng₁)) →
        es ≠ [] := by
      rintro rng₁ hleaf rfl
      rw [putAndTake, insertInner, insertLeaf_stays hleaf stack, Option.bind_some] at h
      simp [Node.remove] at h
    by_cases hroom : es.length < cap
    · exact ⟨hstays rng (.inl ⟨hroom, rfl⟩), .inl hroom⟩
    rcases hsplit : splitCut next (es.map Prod.snd) rng with ⟨- | ⟨cut_dim, cut⟩, rng₁⟩
    · refine ⟨hstays rng₁ (.inr ⟨hroom, hsplit⟩), .inr fun cut_dim cut rng₂ hcut => ?_⟩
      rw [hsplit] at hcut
      cases congrArg Prod.fst hcut
    · obtain ⟨bbox, hinsert⟩ := insertLeaf_cut id p hid hroom hsplit
      have hidfar : ∀ e ∈ (Node.leaf (es.filter fun e => goesLeft e.2 cut_dim cut = !goesLeft p cut_dim cut)).entries, e.1 ≠ id :=
        fun e he => hid e (List.mem_filter.mp he).1
      rw [putAndTake, insertInner, hinsert, Option.bind_map] at h
      obtain ⟨r, -, hremove⟩ := Option.bind_eq_some_iff.mp h
      dsimp only [Function.comp] at hremove
      rw [remove_fork_eq hidfar, Option.map_map] at hremove
      obtain ⟨taken, -, heq⟩ := Option.map_eq_some_iff.mp hremove
      -- the branch is a leaf again only when it is left with the leaf on the other side
      have hall : (es.filter fun e => goesLeft e.2 cut_dim cut = !goesLeft p cut_dim cut) = es := by
        have hnode := congrArg (fun x : (Node × Bool) × ρ => x.1.1) heq
        dsimp only [Function.comp] at hnode
        split_ifs at hnode with hfound hempty hfar
        · simpa using hnode
        · cases hfar
        · exact absurd hnode ne_leaf_fork
        · exact absurd hnode ne_leaf_fork
      refine ⟨?_, .inr fun cut_dim' cut' rng₂ hcut e he => ?_⟩
      · rintro rfl
        cases hsplit
      · obtain ⟨hcut, -⟩ := Prod.mk.inj (hsplit.symm.trans hcut)
        obtain ⟨rfl, rfl⟩ := Prod.mk.inj (Option.some.inj hcut)
        have hside := List.filter_eq_self.mp hall e he
        rw [decide_eq_true_eq] at hside
        rw [hside]
        exact Bool.not_ne_self _
  | branch left right cut_dim cut bbox size ihl ihr =>
    obtain ⟨near, far, hfork, hnear⟩ := branch_eq_fork p left right cut_dim cut bbox size
    rw [hfork] at ht hid h ⊢
    obtain ⟨hwhole, -, hnearempty, hfarempty⟩ := whole_fork.mp ht
    have hidnear : ∀ e ∈ near.entries, e.1 ≠ id := fun e he => hid e (entries_fork.mem_iff.mpr (List.mem_append_left _ he))
    have hidfar : ∀ e ∈ far.entries, e.1 ≠ id := fun e he => hid e (entries_fork.mem_iff.mpr (List.mem_append_right _ he))
    rw [putAndTake_fork hidfar] at h
    obtain ⟨r, hinsert, hremove⟩ := Option.bind_eq_some_iff.mp h
    obtain ⟨taken, htaken, heq⟩ := Option.map_eq_some_iff.mp hremove
    have hnode := congrArg (fun x : (Node × Bool) × ρ => x.1.1) heq
    have hkept : near = taken.1 ∧ bbox.update p = bbox := by
      dsimp only at hnode
      split_ifs at hnode with hfound hempty hfar
      · exact absurd hnode far_ne_fork
      · rw [hfarempty] at hfar
        cases hfar
      · obtain ⟨hn, hb, -⟩ := fork_injective hnode
        exact ⟨hn.symm, hb⟩
      · obtain ⟨-, -, hsize⟩ := fork_injective hnode
        omega
    have hchild : putAndTake next cap id p stack near rng = some ((near, taken.2), r.2.1) := by
      rw [putAndTake, hinsert, Option.bind_some, htaken, hkept.1]
      rfl
    refine (unmarked_fork rfl).mpr ⟨hkept.2, ?_⟩
    rcases hnear with rfl | rfl
    · exact ihl hwhole hidnear hchild
    · exact ihr hwhole hidnear hchild

/-- A tree that a point can be scored in without a mark: it is skipped, or not marked. -/
def Spared (next : ρ → Double × ρ) (cap : Nat) (p : Point) (t : Node) (rng : ρ) : Prop :=
  skips p true t = true ∨ Unmarked next cap p t rng

/-- The random numbers that such a tree leaves. -/
def leftOver (next : ρ → Double × ρ) (cap : Nat) (p : Point) (t : Node) (rng : ρ) : ρ :=
  if skips p true t then rng else drawn next cap p t rng

variable {forest : RcfForest ρ}

theorem scoreTree_eq (ht : ∀ e ∈ t.entries, e.1 ≠ id) :
    (forest.scoreTree next ln stack id p t rng).map (fun r => (r.1, r.2.1)) =
      if skips p true t then some (t, rng)
      else (putAndTake next forest.cfg.leaf_capacity id p stack t rng).map fun r => (r.1.1, r.2) := by
  unfold RcfForest.scoreTree insert putAndTake
  split_ifs with hskip
  · rw [Option.bind_some]
    dsimp only
    rw [remove_of_not_mem ht]
    rfl
  · cases insertInner next forest.cfg.leaf_capacity id p stack t rng with
    | none => rfl
    | some r =>
      obtain ⟨node, rng₁, siblings⟩ := r
      simp only [Option.map_some, Option.bind_some, Option.map_map]
      rfl

/-- A score leaves a tree as it was exactly when the tree is spared. -/
theorem scoreTree_iff (hstack : 2 ≤ stack) (ht : t.Whole) (hid : ∀ e ∈ t.entries, e.1 ≠ id) :
    (∃ x, forest.scoreTree next ln stack id p t rng = some (t, rng', x)) ↔
      Spared next forest.cfg.leaf_capacity p t rng ∧ rng' = leftOver next forest.cfg.leaf_capacity p t rng := by
  have hexists : (∃ x, forest.scoreTree next ln stack id p t rng = some (t, rng', x)) ↔
      (forest.scoreTree next ln stack id p t rng).map (fun r => (r.1, r.2.1)) = some (t, rng') := by
    rw [Option.map_eq_some_iff]
    constructor
    · rintro ⟨x, h⟩
      exact ⟨_, h, rfl⟩
    · rintro ⟨⟨t', rng₁, x⟩, h, heq⟩
      obtain ⟨rfl, rfl⟩ := Prod.mk.inj heq
      exact ⟨x, h⟩
  obtain ⟨stack, rfl⟩ := Nat.exists_eq_add_of_le' hstack
  rw [hexists, scoreTree_eq hid, Spared, leftOver]
  split_ifs with hskip
  · simp [hskip, eq_comm]
  · have hput := fun h : Unmarked next forest.cfg.leaf_capacity p t rng => putAndTake_unmarked ht hid h stack
    constructor
    · intro h
      obtain ⟨⟨⟨t', found⟩, rng₁⟩, hrun, heq⟩ := Option.map_eq_some_iff.mp h
      obtain ⟨rfl, rfl⟩ := Prod.mk.inj heq
      have hunmarked := unmarked_of_putAndTake ht hid hrun
      rw [hput hunmarked] at hrun
      exact ⟨.inr hunmarked, (Prod.mk.inj (Option.some.inj hrun)).2.symm⟩
    · rintro ⟨hspared, rfl⟩
      rw [hput (hspared.resolve_left hskip)]
      rfl

/-! ## The forest -/

/-- Every tree is spared when its turn comes, with the random numbers that the trees before it have left. -/
def AllSpared (next : ρ → Double × ρ) (cap : Nat) (p : Point) : List Node → ρ → Prop
  | [], _ => True
  | tree :: trees, rng => Spared next cap p tree rng ∧ AllSpared next cap p trees (leftOver next cap p tree rng)

instance decidableAllSpared : ∀ trees rng, Decidable (AllSpared next cap p trees rng)
  | [], _ => isTrue trivial
  | tree :: trees, rng =>
    have := decidableAllSpared trees (leftOver next cap p tree rng)
    inferInstanceAs (Decidable ((skips p true tree = true ∨ Unmarked next cap p tree rng) ∧ AllSpared next cap p trees _))

theorem eachTree_iff (hstack : 2 ≤ stack) (trees : List Node) (htrees : ∀ t ∈ trees, t.Whole ∧ ∀ e ∈ t.entries, e.1 ≠ id) :
    ∀ (rng : ρ) (total : Double), (∃ r, eachTree (forest.scoreTree next ln stack id p) trees rng total = some (trees, r)) ↔
      AllSpared next forest.cfg.leaf_capacity p trees rng := by
  induction trees with
  | nil => exact fun rng total => iff_of_true ⟨_, rfl⟩ trivial
  | cons t trees ih =>
    intro rng total
    obtain ⟨hwhole, hid⟩ := htrees t List.mem_cons_self
    have hrest := ih fun t ht => htrees t (List.mem_cons_of_mem _ ht)
    have hone := fun rng' => @scoreTree_iff ρ next ln stack id p rng rng' t forest hstack hwhole hid
    rw [AllSpared]
    constructor
    · rintro ⟨r, h⟩
      obtain ⟨⟨t', rng₁, x⟩, hstep, h⟩ := Option.bind_eq_some_iff.mp h
      obtain ⟨⟨trees', r'⟩, htail, heq⟩ := Option.map_eq_some_iff.mp h
      obtain ⟨hcons, rfl⟩ := Prod.mk.inj heq
      obtain ⟨rfl, rfl⟩ := List.cons.inj hcons
      obtain ⟨hspared, rfl⟩ := (hone rng₁).mp ⟨x, hstep⟩
      exact ⟨hspared, (hrest _ _).mp ⟨_, htail⟩⟩
    · rintro ⟨hspared, hall⟩
      obtain ⟨x, hstep⟩ := (hone _).mpr ⟨hspared, rfl⟩
      obtain ⟨r, htail⟩ := (hrest _ (total + x)).mpr hall
      refine ⟨r, ?_⟩
      rw [eachTree, hstep, Option.bind_some]
      dsimp only
      rw [htail]
      rfl

/-- A score of a point leaves the trees, the window and the shingle as they were, and the score of every point, with any random
numbers, is what it would have been before. -/
def Transient (next : ρ → Double × ρ) (ln : Double → Double) (stack : Nat) (forest : RcfForest ρ) (p : Point) : Prop :=
  ∃ forest' answer, forest.score next ln stack p = some (forest', answer) ∧ forest'.trees = forest.trees ∧
    forest'.window = forest.window ∧ forest'.shingle = forest.shingle ∧
    ∀ q rng, (RcfForest.score next ln stack { forest' with rng } q).map Prod.snd =
      (RcfForest.score next ln stack { forest with rng } q).map Prod.snd

/-- Whatever was called before: a score is transient exactly when its point has the wrong number of coordinates or marks no tree. -/
theorem transient_iff (next : ρ → Double × ρ) (ln : Double → Double) (stack : Nat) (hstack : 2 ≤ stack) (cfg : RcfConfig) (dims : Nat)
    (rng : ρ) (calls : List RcfCall) (forest : RcfForest ρ)
    (hstate : (machine next ln stack cfg dims rng).state calls = some forest) (p : Point) :
    Transient next ln stack forest p ↔
      p.length ≠ forest.dims ∨ AllSpared next forest.cfg.leaf_capacity (forest.scored p) forest.trees forest.rng := by
  have hfit := state_fit hstate
  have hfresh : ∀ id, forest.next_id ≤ id → ∀ t ∈ forest.trees, ∀ e ∈ t.entries, e.1 ≠ id := fun id hle t ht e he =>
    (((hfit t ht).2 e he).trans_le hle).ne
  have htrees : ∀ t ∈ forest.trees, t.Whole ∧ ∀ e ∈ t.entries, e.1 ≠ forest.next_id := fun t ht =>
    ⟨(hfit t ht).1, hfresh _ le_rfl t ht⟩
  have hspared := fun total => @eachTree_iff ρ next ln stack forest.next_id (forest.scored p) forest hstack forest.trees htrees
    forest.rng total
  by_cases hdims : p.length ≠ forest.dims
  · refine iff_of_true ⟨forest, _, if_pos hdims, rfl, rfl, rfl, fun q rng => rfl⟩ (.inl hdims)
  rw [or_iff_right hdims, ← hspared 0.0]
  constructor
  · rintro ⟨forest', answer, hscore, heq, -⟩
    rw [RcfForest.score, if_neg hdims] at hscore
    obtain ⟨⟨trees, r⟩, hrun, hforest⟩ := Option.map_eq_some_iff.mp hscore
    obtain ⟨rfl, -⟩ := Prod.mk.inj hforest
    obtain rfl : trees = forest.trees := heq
    exact ⟨r, hrun⟩
  · rintro ⟨⟨rng', total⟩, hrun⟩
    refine ⟨{ forest with rng := rng', next_id := forest.next_id + 1 }, .ok (total / Scalar.ofNat forest.cfg.num_trees), ?_,
      rfl, rfl, rfl, fun q rng => ?_⟩
    · rw [RcfForest.score, if_neg hdims]
      dsimp only
      rw [hrun]
      rfl
    · unfold RcfForest.score
      dsimp only
      split_ifs
      · rfl
      · have hsame := @score_fresh ρ next (forest.scored q) ln stack forest _ _ (hfresh _ le_rfl) (hfresh _ (Nat.le_succ _)) rng 0.0
        have hanswer := congrArg (Option.map fun r : ρ × Double =>
          (Except.ok (r.2 / Scalar.ofNat forest.cfg.num_trees) : Except String Double)) hsame
        rw [Option.map_map, Option.map_map] at hanswer
        rw [Option.map_map, Option.map_map]
        exact hanswer

/-- One point is in the tree, and another one is scored. -/
theorem transient_iff_onePoint :
    ∃ forest, (machine xorShift (fun x => x) 10 ⟨1, 3, 1, 1⟩ 1 0x9E3779B97F4A7C15).state [.add [.fin 0]] = some forest ∧
      Transient xorShift (fun x => x) 10 forest [.fin 5] := by
  have hsome : ((machine xorShift (fun x => x) 10 ⟨1, 3, 1, 1⟩ 1 0x9E3779B97F4A7C15).state [.add [.fin 0]]).isSome = true := by
    decide +kernel
  have hspared : ∀ forest ∈ (machine xorShift (fun x => x) 10 ⟨1, 3, 1, 1⟩ 1 0x9E3779B97F4A7C15).state [.add [.fin 0]],
      AllSpared xorShift forest.cfg.leaf_capacity (forest.scored [.fin 5]) forest.trees forest.rng := by
    decide +kernel
  obtain ⟨forest, hstate⟩ := Option.isSome_iff_exists.mp hsome
  exact ⟨forest, hstate, (transient_iff xorShift (fun x => x) 10 (by decide) ⟨1, 3, 1, 1⟩ 1 0x9E3779B97F4A7C15 [.add [.fin 0]] forest
    hstate [.fin 5]).mpr (.inr (hspared forest hstate))⟩

/-- The points 0 and 10 are in one leaf. A score of 5 cuts it, and the cut stays, so that 100 gets another score. -/
theorem scored_point_leaves_cut :
    ∃ forest, (machine xorShift (fun x => x) 10 ⟨1, 3, 1, 1⟩ 1 0x9E3779B97F4A7C15).state [.add [.fin 0], .add [.fin 10]] =
      some forest ∧ ¬Transient xorShift (fun x => x) 10 forest [.fin 5] := by
  have hbefore : (((machine xorShift (fun x => x) 10 ⟨1, 3, 1, 1⟩ 1 0x9E3779B97F4A7C15).state [.add [.fin 0], .add [.fin 10]]).bind
      fun forest => RcfForest.score xorShift (fun x => x) 10 { forest with rng := 7 } [.fin 100]).map Prod.snd =
        some (.ok (.fin 1)) := by
    decide +kernel
  have hafter : (((machine xorShift (fun x => x) 10 ⟨1, 3, 1, 1⟩ 1 0x9E3779B97F4A7C15).state [.add [.fin 0], .add [.fin 10]]).bind
      fun forest => (forest.score xorShift (fun x => x) 10 [.fin 5]).bind fun r =>
        RcfForest.score xorShift (fun x => x) 10 { r.1 with rng := 7 } [.fin 100]).map Prod.snd = some (.ok (.fin (3 / 2))) := by
    decide +kernel
  cases hstate : (machine xorShift (fun x => x) 10 ⟨1, 3, 1, 1⟩ 1 0x9E3779B97F4A7C15).state [.add [.fin 0], .add [.fin 10]] with
  | none =>
    rw [hstate] at hbefore
    cases hbefore
  | some forest =>
    refine ⟨forest, rfl, ?_⟩
    rintro ⟨forest', answer, hscore, -, -, -, hsame⟩
    rw [hstate, Option.bind_some] at hbefore hafter
    rw [hscore, Option.bind_some] at hafter
    have heq := (hafter.symm.trans (hsame [.fin 100] 7)).trans hbefore
    revert heq
    decide +kernel

end Rcf

end Opsense
