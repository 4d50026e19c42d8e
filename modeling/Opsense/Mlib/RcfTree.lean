import Opsense.Mlib.Rcf

/-!
# Points in a cut tree

A branch is seen from the side of a point (`fork`): the child the point belongs to, and the other one. What is put into a tree and
taken out again leaves the points as they were, where the leaf it reaches is cut at most so that nothing is counted twice
(`insertInner_remove`); a point that is put in to stay joins the points, where the leaf is not cut (`insertInner_grow`).
-/

namespace Opsense

namespace Rcf

variable {ρ : Type} {next : ρ → Double × ρ} {cap id : Nat} {p : Point} {es : List Stored} {rng : ρ}

/-- Every branch counts its points, which are on their sides of its cut, and has some on both. -/
def Node.Sound : Node → Prop
  | .empty => True
  | .leaf entries => entries ≠ []
  | .branch left right cut_dim cut _ size =>
    left.Sound ∧ right.Sound ∧ left.entries ≠ [] ∧ right.entries ≠ [] ∧ size = left.entries.length + right.entries.length ∧
      (∀ e ∈ left.entries, goesLeft e.2 cut_dim cut = true) ∧ ∀ e ∈ right.entries, goesLeft e.2 cut_dim cut = false

/-- The points of the leaf a point belongs to. -/
def Node.reach (p : Point) : Node → List Stored
  | .empty => []
  | .leaf entries => entries
  | .branch left right cut_dim cut _ _ => if goesLeft p cut_dim cut then left.reach p else right.reach p

/-- A branch, from the side of a point. -/
def fork (goes_left : Bool) (near far : Node) (cut_dim : Nat) (cut : Double) (bbox : BBox) (size : Nat) : Node :=
  if goes_left then .branch near far cut_dim cut bbox size else .branch far near cut_dim cut bbox size

section Fork

variable {gl : Bool} {near far : Node} {cut_dim : Nat} {cut : Double} {bbox : BBox} {size : Nat}

theorem entries_fork : (fork gl near far cut_dim cut bbox size).entries.Perm (near.entries ++ far.entries) := by
  cases gl
  · exact List.perm_append_comm
  · exact .refl _

theorem sound_fork : (fork gl near far cut_dim cut bbox size).Sound ↔ near.Sound ∧ far.Sound ∧ near.entries ≠ [] ∧
    far.entries ≠ [] ∧ size = near.entries.length + far.entries.length ∧
      (∀ e ∈ near.entries, goesLeft e.2 cut_dim cut = gl) ∧ ∀ e ∈ far.entries, goesLeft e.2 cut_dim cut = !gl := by
  cases gl
  · have hcomm : near.entries.length + far.entries.length = far.entries.length + near.entries.length := Nat.add_comm _ _
    simp only [fork, Node.Sound, hcomm, Bool.false_eq_true, if_false, Bool.not_false]
    tauto
  · rfl

theorem Node.eq_empty_of_isEmpty {t : Node} (h : t.isEmpty = true) : t = .empty := by
  cases t
  · rfl
  all_goals cases h

theorem Node.not_isEmpty {t : Node} (h : t.entries ≠ []) : t.isEmpty = false := by
  cases t
  · exact absurd rfl h
  all_goals rfl

/-- An id that is not in a tree is not found. -/
theorem remove_of_not_mem {t : Node} (h : ∀ e ∈ t.entries, e.1 ≠ id) : t.remove id = some (t, false) := by
  induction t with
  | empty => rfl
  | leaf entries =>
    have hall : (entries.filter fun e => e.1 ≠ id) = entries := by
      refine List.filter_eq_self.mpr fun e he => ?_
      simpa using h e he
    unfold Node.remove
    dsimp only
    rw [hall, if_neg (lt_irrefl _)]
  | branch left right cut_dim cut bbox size ihl ihr =>
    have hl := ihl fun e he => h e (List.mem_append_left _ he)
    have hr := ihr fun e he => h e (List.mem_append_right _ he)
    unfold Node.remove
    rw [hl, Option.bind_some, if_neg Bool.false_ne_true, hr]
    rfl

/-- An id is taken out of the side it is on. -/
theorem remove_fork {near' : Node} (hfar : ∀ e ∈ far.entries, e.1 ≠ id) (hne : far.entries ≠ [])
    (hsize : size ≠ 0) (hnear : near.remove id = some (near', true)) : (fork gl near far cut_dim cut bbox size).remove id =
      some (if near'.isEmpty then far else fork gl near' far cut_dim cut bbox (size - 1), true) := by
  have hempty := Node.not_isEmpty hne
  have hother := remove_of_not_mem hfar
  cases gl
  · simp only [fork, Bool.false_eq_true, if_false]
    unfold Node.remove
    rw [hother, hnear]
    simp only [Option.bind_some, Bool.false_eq_true, if_false, if_true, hempty, hsize]
  · simp only [fork, if_true]
    unfold Node.remove
    rw [hnear]
    simp only [Option.bind_some, if_true, hempty, Bool.false_eq_true, if_false, hsize]

theorem insertInner_fork (hgl : goesLeft p cut_dim cut = gl) {stack : Nat} {node : Node} {rng' : ρ} {siblings : List Nat}
    (h : insertInner next cap id p stack near rng = some (node, rng', siblings)) :
    insertInner next cap id p stack (fork gl near far cut_dim cut bbox size) rng =
      some (fork gl node far cut_dim cut (bbox.update p) (size + 1), rng', far.size :: siblings) := by
  cases gl
  · simp only [fork, Bool.false_eq_true, if_false, insertInner, hgl, h, Option.map_some]
  · simp only [fork, if_true, insertInner, hgl, h, Option.map_some]

theorem reach_fork (hgl : goesLeft p cut_dim cut = gl) : (fork gl near far cut_dim cut bbox size).reach p = near.reach p := by
  cases gl
  · simp only [fork, Bool.false_eq_true, if_false, Node.reach, hgl]
  · simp only [fork, if_true, Node.reach, hgl]

end Fork

/-! ## Leaves -/

/-- When a leaf is full and cut, the cut and the random numbers it leaves are so. -/
def WhenCut (next : ρ → Double × ρ) (cap : Nat) (es : List Stored) (rng : ρ) (C : Nat → Double → ρ → Prop) : Prop :=
  es.length < cap ∨ ∀ cut_dim cut rng', splitCut next (es.map Prod.snd) rng = (some (cut_dim, cut), rng') → C cut_dim cut rng'

instance decidableWhenCut (C : Nat → Double → ρ → Prop) [∀ cut_dim cut rng, Decidable (C cut_dim cut rng)] :
    Decidable (WhenCut next cap es rng C) :=
  match h : splitCut next (es.map Prod.snd) rng with
  | (none, _) => isTrue (.inr fun _ _ _ hsplit => absurd (congrArg Prod.fst (h.symm.trans hsplit)) (Option.some_ne_none _).symm)
  | (some (cut_dim, cut), rng') => decidable_of_iff (es.length < cap ∨ C cut_dim cut rng')
    ⟨fun hC => hC.imp_right fun hC _ _ _ hsplit => by cases h.symm.trans hsplit; exact hC,
      fun hC => hC.imp_right fun hC => hC cut_dim cut rng' h⟩

/-- A cut that can be undone: it leaves a point on the other side, and the leaf on the side of the new point is not cut, or cut so
that the new point is alone. -/
def Undone (next : ρ → Double × ρ) (cap id : Nat) (p : Point) (es : List Stored) (rng : ρ) : Prop :=
  WhenCut next cap es rng fun cut_dim cut rng' =>
    (∃ e ∈ es, goesLeft e.2 cut_dim cut ≠ goesLeft p cut_dim cut) ∧
      WhenCut next cap ((es.filter fun e => goesLeft e.2 cut_dim cut = goesLeft p cut_dim cut) ++ [(id, p)]) rng'
        fun cut_dim' cut' _ => ∀ e ∈ es, goesLeft e.2 cut_dim cut = goesLeft p cut_dim cut →
          goesLeft e.2 cut_dim' cut' ≠ goesLeft p cut_dim' cut'

instance : Decidable (Undone next cap id p es rng) := by
  unfold Undone
  infer_instance

/-- The new point stays in the leaf, or the leaf is cut. -/
theorem insertLeaf_cases (next : ρ → Double × ρ) (cap id : Nat) (p : Point) (es : List Stored) (rng : ρ)
    (hid : ∀ e ∈ es, e.1 = id → e.2 = p) :
    (∀ stack, ∃ rng', insertLeaf next cap id p (stack + 1) es rng = some (.leaf (es ++ [(id, p)]), rng', [])) ∨
      ∃ cut_dim cut rng' bbox, ¬es.length < cap ∧ splitCut next (es.map Prod.snd) rng = (some (cut_dim, cut), rng') ∧
        ∀ stack, insertLeaf next cap id p (stack + 1) es rng =
          (insertLeaf next cap id p stack
            ((es.filter fun e => goesLeft e.2 cut_dim cut = goesLeft p cut_dim cut) ++ [(id, p)]) rng').map fun r =>
              (fork (goesLeft p cut_dim cut) r.1 (.leaf (es.filter fun e => goesLeft e.2 cut_dim cut = !goesLeft p cut_dim cut)) cut_dim
                cut bbox (es.length + 1), r.2.1,
                (es.filter fun e => goesLeft e.2 cut_dim cut = !goesLeft p cut_dim cut).length :: r.2.2) := by
  by_cases hfull : es.length < cap
  · refine .inl fun stack => ⟨rng, ?_⟩
    rw [insertLeaf, if_pos hfull]
  cases hsplit : splitCut next (es.map Prod.snd) rng with
  | mk cut? rng' =>
    cases cut? with
    | none =>
      refine .inl fun stack => ⟨rng', ?_⟩
      rw [insertLeaf, if_neg hfull, hsplit]
    | some cut =>
      obtain ⟨cut_dim, cut⟩ := cut
      have hlength : (es.filter fun e => goesLeft e.2 cut_dim cut).length +
          (es.filter fun e => !goesLeft e.2 cut_dim cut).length = es.length :=
        (List.length_eq_length_filter_add _).symm
      cases hgl : goesLeft p cut_dim cut with
      | true =>
        have hany : ((es.filter fun e => goesLeft e.2 cut_dim cut) ++ [(id, p)]).any (fun e => e.1 = id) = true := by simp
        refine .inr ⟨cut_dim, cut, rng', ((((es.filter fun e => goesLeft e.2 cut_dim cut) ++ [(id, p)]) ++
          es.filter fun e => !goesLeft e.2 cut_dim cut).map Prod.snd).foldl BBox.update (BBox.fromPoint p), hfull, rfl,
          fun stack => ?_⟩
        rw [insertLeaf, if_neg hfull, hsplit]
        have hsize : (es.filter fun e => goesLeft e.2 cut_dim cut).length + 1 +
            (es.filter fun e => !goesLeft e.2 cut_dim cut).length = es.length + 1 := by omega
        simp only [hgl, if_true, hany, List.length_append, List.length_singleton, hsize, Bool.decide_eq_true, Bool.not_true,
          Bool.decide_eq_false, fork]
      | false =>
        -- the points with the id are on the side of the new one
        have hany : (es.filter fun e => goesLeft e.2 cut_dim cut).any (fun e => e.1 = id) = false := by
          refine List.any_eq_false.mpr fun e he => ?_
          obtain ⟨he, hleft⟩ := List.mem_filter.mp he
          have hne : e.1 ≠ id := by
            intro heq
            rw [hid e he heq, hgl] at hleft
            cases hleft
          simpa using hne
        refine .inr ⟨cut_dim, cut, rng', (((es.filter fun e => goesLeft e.2 cut_dim cut) ++
          ((es.filter fun e => !goesLeft e.2 cut_dim cut) ++ [(id, p)])).map Prod.snd).foldl BBox.update (BBox.fromPoint p), hfull,
          rfl, fun stack => ?_⟩
        rw [insertLeaf, if_neg hfull, hsplit]
        have hsize : (es.filter fun e => goesLeft e.2 cut_dim cut).length +
            ((es.filter fun e => !goesLeft e.2 cut_dim cut).length + 1) = es.length + 1 := by omega
        simp only [hgl, Bool.false_eq_true, if_false, hany, List.length_append, List.length_singleton, hsize, Bool.decide_eq_true,
          Bool.not_false, Bool.decide_eq_false, fork]

/-! ### A leaf of one point -/

theorem mergeWith_self {change : Double → Double → Double} (h : ∀ a, change a a = a) (p : Point) : mergeWith change p p = p := by
  induction p with
  | nil => rfl
  | cons a p ih => rw [mergeWith, h, ih]

theorem foldl_mergeWith_self {change : Double → Double → Double} (h : ∀ a, change a a = a) {ps : List Point}
    (hps : ∀ q ∈ ps, q = p) : ps.foldl (mergeWith change) p = p := by
  induction ps with
  | nil => rfl
  | cons q ps ih =>
    rw [List.foldl_cons, hps q List.mem_cons_self, mergeWith_self h]
    exact ih fun q hq => hps q (List.mem_cons_of_mem _ hq)

/-- The coordinates of a point are finite. -/
def FinitePoint (p : Point) : Prop := ∀ x ∈ p, x.isFinite = true

/-- A number has no extent, whatever it is. -/
theorem max_sub_self (x : Double) : Scalar.max (x - x) (0.0 : Double) = .fin 0 := by
  rw [Double.zero_eq]
  cases x with
  | fin q =>
    have hsub : Double.fin q - .fin q = Double.ofRat (q + -q) := rfl
    rw [hsub, add_neg_cancel, Double.ofRat_of_lt le_rfl (roundMag_zero.symm ▸ Double.bound_pos), roundMag_zero]
    rfl
  | _ => rfl

theorem extents_self (p : Point) :
    (List.zipWith (fun a b => Scalar.max (b - a) (0.0 : Double)) p p).foldl (· + ·) 0.0 = (0.0 : Double) := by
  have hadd : (Double.fin 0 + .fin 0 : Double) = .fin 0 := by
    have hsum : (Double.fin 0 + .fin 0 : Double) = Double.ofRat (0 + 0) := rfl
    rw [hsum, add_zero, Double.ofRat_of_lt le_rfl (roundMag_zero.symm ▸ Double.bound_pos), roundMag_zero]
  induction p with
  | nil => rfl
  | cons x p ih =>
    rw [List.zipWith_cons_cons, List.foldl_cons, max_sub_self, Double.zero_eq, hadd]
    rwa [Double.zero_eq] at ih

instance : Decidable (FinitePoint p) := inferInstanceAs (Decidable (∀ x ∈ p, x.isFinite = true))

/-- A leaf of one point, however often, is not cut. -/
theorem splitCut_same (next : ρ → Double × ρ) {ps : List Point} (hps : ∀ q ∈ ps, q = p) (rng : ρ) :
    splitCut next ps rng = (none, rng) := by
  cases ps with
  | nil => rfl
  | cons q ps =>
    have hq := hps q List.mem_cons_self
    have hps := fun q' hq' => hps q' (List.mem_cons_of_mem _ hq')
    have hlow : ∀ a, lower a a = a := fun a => ite_self a
    have hhigh : ∀ a, higher a a = a := fun a => ite_self a
    subst hq
    unfold splitCut bounds
    dsimp only
    rw [foldl_mergeWith_self hlow hps, foldl_mergeWith_self hhigh hps, extents_self, if_pos]
    exact Double.le_refl (Double.zero_eq ▸ nofun)

theorem remove_leaf (id : Nat) (es : List Stored) (hid : ∃ e ∈ es, e.1 = id) :
    (Node.leaf es).remove id =
      some (if (es.filter fun e => e.1 ≠ id) = [] then .empty else .leaf (es.filter fun e => e.1 ≠ id), true) := by
  obtain ⟨e, he, heq⟩ := hid
  have hless : (es.filter fun e => e.1 ≠ id).length < es.length := by
    refine List.length_filter_lt_length_iff_exists.mpr ⟨e, he, ?_⟩
    simpa using heq
  unfold Node.remove
  dsimp only
  rw [if_pos hless]

theorem filter_new (hid : ∀ e ∈ es, e.1 ≠ id) (copies : Nat) :
    ((es ++ List.replicate copies (id, p)).filter fun e => e.1 ≠ id) = es := by
  rw [List.filter_append, List.filter_eq_self.mpr fun e he => by simpa using hid e he]
  have hnone : ((List.replicate copies ((id, p) : Stored)).filter fun e => e.1 ≠ id) = [] := by
    refine List.filter_eq_nil_iff.mpr fun e he => ?_
    rw [List.eq_of_mem_replicate he]
    simp
  rw [hnone, List.append_nil]

/-- The leaf that is left when the new point goes. -/
def leafOrEmpty (es : List Stored) : Node := if es = [] then .empty else .leaf es

theorem remove_leaf_new (hid : ∀ e ∈ es, e.1 ≠ id) (copies : Nat) (hcopies : copies ≠ 0) :
    (Node.leaf (es ++ List.replicate copies (id, p))).remove id = some (leafOrEmpty es, true) := by
  have hmem : ∃ e ∈ es ++ List.replicate copies ((id, p) : Stored), e.1 = id :=
    ⟨(id, p), List.mem_append_right _ (List.mem_replicate.mpr ⟨hcopies, rfl⟩), rfl⟩
  rw [remove_leaf id _ hmem, filter_new hid]
  rfl

/-- In a leaf the new point is already in, a cut leaves it alone. -/
theorem insertLeaf_again (hid : ∀ e ∈ es, e.1 ≠ id)
    (h : WhenCut next cap (es ++ [(id, p)]) rng fun cut_dim cut _ => ∀ e ∈ es, goesLeft e.2 cut_dim cut ≠ goesLeft p cut_dim cut)
    (stack : Nat) : ∃ node rng' siblings, insertLeaf next cap id p (stack + 2) (es ++ [(id, p)]) rng = some (node, rng', siblings) ∧
      node.remove id = some (leafOrEmpty es, true) := by
  have hcopies : ∀ e ∈ es ++ [((id, p) : Stored)], e.1 = id → e.2 = p := by
    intro e he heq
    rcases List.mem_append.mp he with he | he
    · exact absurd heq (hid e he)
    · rw [List.mem_singleton.mp he]
  rcases insertLeaf_cases next cap id p _ rng hcopies with hleaf | ⟨cut_dim, cut, rng', bbox, hfull, hsplit, hcut⟩
  · obtain ⟨rng', hleaf⟩ := hleaf (stack + 1)
    refine ⟨_, _, _, hleaf, ?_⟩
    rw [List.append_assoc]
    exact remove_leaf_new hid 2 (by decide)
  · -- the other points are on the other side
    have hapart := h.resolve_left hfull cut_dim cut rng' hsplit
    have hne : es ≠ [] := by
      rintro rfl
      have hone : ∀ q ∈ ([((id, p) : Stored)]).map Prod.snd, q = p := by simp
      rw [List.nil_append, splitCut_same next hone] at hsplit
      cases congrArg Prod.fst hsplit
    have hnear : ((es ++ [((id, p) : Stored)]).filter fun e => goesLeft e.2 cut_dim cut = goesLeft p cut_dim cut) = [(id, p)] := by
      rw [List.filter_append, List.filter_eq_nil_iff.mpr fun e he => by simpa using hapart e he]
      simp
    have hfar : ((es ++ [((id, p) : Stored)]).filter fun e => goesLeft e.2 cut_dim cut = !goesLeft p cut_dim cut) = es := by
      rw [List.filter_append, List.filter_eq_self.mpr fun e he => by simpa using Bool.eq_not_of_ne (hapart e he)]
      simp
    have hthree : ∃ rng'', insertLeaf next cap id p (stack + 1) ([(id, p)] ++ [(id, p)]) rng' =
        some (.leaf ([(id, p)] ++ [(id, p)] ++ [(id, p)]), rng'', []) := by
      have hsame : ∀ q ∈ ([((id, p) : Stored)] ++ [(id, p)]).map Prod.snd, q = p := by simp
      rcases insertLeaf_cases next cap id p ([(id, p)] ++ [(id, p)]) rng' (by simp) with hleaf | ⟨_, _, _, _, _, hsplit', _⟩
      · exact hleaf stack
      · rw [splitCut_same next hsame] at hsplit'
        cases congrArg Prod.fst hsplit'
    obtain ⟨rng'', hthree⟩ := hthree
    have hresult := hcut (stack + 1)
    rw [hnear, hfar, hthree, Option.map_some] at hresult
    refine ⟨_, _, _, hresult, ?_⟩
    have halone : (Node.leaf ([(id, p)] ++ [(id, p)] ++ [(id, p)])).remove id = some (.empty, true) :=
      remove_leaf_new (fun e he => absurd he List.not_mem_nil) 3 (by decide)
    refine (remove_fork (show ∀ e ∈ (Node.leaf es).entries, e.1 ≠ id from hid) hne (Nat.succ_ne_zero _) halone).trans ?_
    rw [leafOrEmpty, if_neg hne]
    rfl

/-- A point that is put into a leaf and taken out again. -/
theorem insertLeaf_remove (hid : ∀ e ∈ es, e.1 ≠ id) (hne : es ≠ []) (h : Undone next cap id p es rng)
    (stack : Nat) : ∃ node rng' siblings, insertLeaf next cap id p (stack + 3) es rng = some (node, rng', siblings) ∧
      ∃ t, node.remove id = some (t, true) ∧ t.Sound ∧ t.entries.Perm es := by
  rcases insertLeaf_cases next cap id p es rng fun e he heq => absurd heq (hid e he) with
    hleaf | ⟨cut_dim, cut, rng', bbox, hfull, hsplit, hcut⟩
  · obtain ⟨rng', hleaf⟩ := hleaf (stack + 2)
    refine ⟨_, _, _, hleaf, .leaf es, ?_, hne, .refl _⟩
    refine (remove_leaf_new (p := p) hid 1 Nat.one_ne_zero).trans ?_
    rw [leafOrEmpty, if_neg hne]
  · obtain ⟨⟨e, he, hother⟩, hagain⟩ := h.resolve_left hfull cut_dim cut rng' hsplit
    obtain ⟨near, hnear⟩ : ∃ near, near = es.filter fun e => goesLeft e.2 cut_dim cut = goesLeft p cut_dim cut := ⟨_, rfl⟩
    obtain ⟨far, hfar⟩ : ∃ far, far = es.filter fun e => goesLeft e.2 cut_dim cut = !goesLeft p cut_dim cut := ⟨_, rfl⟩
    rw [← hnear] at hagain
    rw [← hnear, ← hfar] at hcut
    have hperm : (near ++ far).Perm es := by
      have hnot : far = es.filter fun e => !decide (goesLeft e.2 cut_dim cut = goesLeft p cut_dim cut) := by
        rw [hfar]
        refine List.filter_congr fun e _ => ?_
        cases goesLeft e.2 cut_dim cut <;> cases goesLeft p cut_dim cut <;> rfl
      rw [hnear, hnot]
      exact List.filter_append_perm _ _
    have hmem : ∀ e ∈ near, e ∈ es ∧ goesLeft e.2 cut_dim cut = goesLeft p cut_dim cut := by
      intro e he
      rw [hnear] at he
      simpa using he
    have hmem' : ∀ e ∈ far, e ∈ es ∧ goesLeft e.2 cut_dim cut = !goesLeft p cut_dim cut := by
      intro e he
      rw [hfar] at he
      simpa using he
    have hfarne : far ≠ [] := by
      rw [hfar]
      exact List.ne_nil_of_mem (List.mem_filter.mpr ⟨he, by simpa using Bool.eq_not_of_ne hother⟩)
    obtain ⟨node, rng'', siblings, hinsert, hremove⟩ := insertLeaf_again (fun e he => hid e (hmem e he).1)
      (hagain.imp_right fun hc d c r hs e he => hc d c r hs e (hmem e he).1 (hmem e he).2) stack
    have hresult := hcut (stack + 2)
    rw [hinsert, Option.map_some] at hresult
    refine ⟨_, _, _, hresult, _, remove_fork (fun e he => hid e (hmem' e he).1) hfarne (Nat.succ_ne_zero _) hremove, ?_⟩
    by_cases hnil : near = []
    · -- the new point was alone on its side
      have hempty : (leafOrEmpty near).isEmpty = true := by
        rw [leafOrEmpty, if_pos hnil]
        rfl
      rw [if_pos hempty]
      rw [hnil, List.nil_append] at hperm
      exact ⟨hfarne, hperm⟩
    · have hleaf : leafOrEmpty near = .leaf near := if_neg hnil
      have hlen := hperm.length_eq
      rw [List.length_append] at hlen
      rw [hleaf, if_neg (by exact Bool.false_ne_true)]
      refine ⟨sound_fork.mpr ⟨hnil, hfarne, hnil, hfarne, hlen.symm, fun e he => (hmem e he).2, fun e he => (hmem' e he).2⟩, ?_⟩
      exact entries_fork.trans hperm

/-! ## Trees -/

/-- A branch as the point sees it. -/
theorem branch_eq_fork (p : Point) (left right : Node) (cut_dim : Nat) (cut : Double) (bbox : BBox) (size : Nat) :
    ∃ near far, Node.branch left right cut_dim cut bbox size = fork (goesLeft p cut_dim cut) near far cut_dim cut bbox size ∧
      (near = left ∨ near = right) := by
  cases hgl : goesLeft p cut_dim cut with
  | true => exact ⟨left, right, rfl, .inl rfl⟩
  | false => exact ⟨right, left, rfl, .inr rfl⟩

/-- A point that is put into a tree and taken out again. -/
theorem insertInner_remove {t : Node} (ht : t.Sound) (hid : ∀ e ∈ t.entries, e.1 ≠ id)
    (h : Undone next cap id p (t.reach p) rng) (stack : Nat) :
    ∃ node rng' siblings, insertInner next cap id p (stack + 3) t rng = some (node, rng', siblings) ∧
      ∃ t', node.remove id = some (t', true) ∧ t'.Sound ∧ t'.entries.Perm t.entries := by
  induction t with
  | empty =>
    refine ⟨_, _, _, rfl, .empty, ?_, trivial, .refl _⟩
    exact remove_leaf_new (p := p) (fun e he => absurd he List.not_mem_nil) 1 Nat.one_ne_zero
  | leaf es => exact insertLeaf_remove hid ht h stack
  | branch left right cut_dim cut bbox size ihl ihr =>
    obtain ⟨near, far, hfork, hnear⟩ := branch_eq_fork p left right cut_dim cut bbox size
    rw [hfork] at ht hid h ⊢
    obtain ⟨hnearsound, hfarsound, hnearne, hfarne, hsize, hnearside, hfarside⟩ := sound_fork.mp ht
    have hidnear : ∀ e ∈ near.entries, e.1 ≠ id := fun e he => hid e (entries_fork.mem_iff.mpr (List.mem_append_left _ he))
    have hidfar : ∀ e ∈ far.entries, e.1 ≠ id := fun e he => hid e (entries_fork.mem_iff.mpr (List.mem_append_right _ he))
    rw [reach_fork rfl] at h
    have hchild : ∃ node rng' siblings, insertInner next cap id p (stack + 3) near rng = some (node, rng', siblings) ∧
        ∃ t', node.remove id = some (t', true) ∧ t'.Sound ∧ t'.entries.Perm near.entries := by
      rcases hnear with rfl | rfl
      · exact ihl hnearsound hidnear h
      · exact ihr hnearsound hidnear h
    obtain ⟨node, rng', siblings, hinsert, t', hremove, hsound, hperm⟩ := hchild
    refine ⟨_, _, _, insertInner_fork rfl hinsert, _, remove_fork hidfar hfarne (Nat.succ_ne_zero _) hremove, ?_⟩
    have hne : t'.entries ≠ [] := fun hnil => hnearne (List.perm_nil.mp (hnil ▸ hperm).symm)
    rw [Node.not_isEmpty hne, if_neg Bool.false_ne_true, Nat.add_sub_cancel]
    refine ⟨sound_fork.mpr ⟨hsound, hfarsound, hne, hfarne, by rw [hsize, hperm.length_eq], ?_, hfarside⟩, ?_⟩
    · exact fun e he => hnearside e (hperm.mem_iff.mp he)
    · exact (entries_fork.trans (hperm.append_right _)).trans entries_fork.symm

/-- A point that is put in to stay, where the leaf it reaches is not cut. -/
theorem insertInner_grow {t : Node} (ht : t.Sound) (hid : ∀ e ∈ t.entries, e.1 ≠ id)
    (h : WhenCut next cap (t.reach p) rng fun _ _ _ => False) (stack : Nat) :
    ∃ node rng' siblings, insertInner next cap id p (stack + 1) t rng = some (node, rng', siblings) ∧ node.Sound ∧
      node.entries.Perm ((id, p) :: t.entries) := by
  induction t with
  | empty => exact ⟨_, _, _, rfl, List.cons_ne_nil _ _, .refl _⟩
  | leaf es =>
    rcases insertLeaf_cases next cap id p es rng fun e he heq => absurd heq (hid e he) with
      hleaf | ⟨cut_dim, cut, rng', bbox, hfull, hsplit, -⟩
    · obtain ⟨rng', hleaf⟩ := hleaf stack
      exact ⟨_, _, _, hleaf, List.append_ne_nil_of_left_ne_nil ht _, List.perm_append_singleton _ _⟩
    · exact (h.resolve_left hfull cut_dim cut rng' hsplit).elim
  | branch left right cut_dim cut bbox size ihl ihr =>
    obtain ⟨near, far, hfork, hnear⟩ := branch_eq_fork p left right cut_dim cut bbox size
    rw [hfork] at ht hid h ⊢
    obtain ⟨hnearsound, hfarsound, hnearne, hfarne, hsize, hnearside, hfarside⟩ := sound_fork.mp ht
    have hidnear : ∀ e ∈ near.entries, e.1 ≠ id := fun e he => hid e (entries_fork.mem_iff.mpr (List.mem_append_left _ he))
    rw [reach_fork rfl] at h
    have hchild : ∃ node rng' siblings, insertInner next cap id p (stack + 1) near rng = some (node, rng', siblings) ∧ node.Sound ∧
        node.entries.Perm ((id, p) :: near.entries) := by
      rcases hnear with rfl | rfl
      · exact ihl hnearsound hidnear h
      · exact ihr hnearsound hidnear h
    obtain ⟨node, rng', siblings, hinsert, hsound, hperm⟩ := hchild
    refine ⟨_, _, _, insertInner_fork rfl hinsert, sound_fork.mpr ⟨hsound, hfarsound, ?_, hfarne, ?_, ?_, hfarside⟩, ?_⟩
    · exact fun hnil => absurd (hnil ▸ hperm).length_eq (by simp)
    · rw [hsize, hperm.length_eq, List.length_cons]
      omega
    · intro e he
      rcases List.mem_cons.mp (hperm.mem_iff.mp he) with rfl | he
      · rfl
      · exact hnearside e he
    · have happend : node.entries ++ far.entries |>.Perm ((id, p) :: (near.entries ++ far.entries)) := hperm.append_right _
      exact (entries_fork.trans happend).trans (entries_fork.symm.cons _)

/-- Where an id is taken out of one side. -/
theorem remove_fork_sound {gl : Bool} {near near' far : Node} {cut_dim : Nat} {cut : Double} {bbox : BBox} {size : Nat}
    (hfork : (fork gl near far cut_dim cut bbox size).Sound) (hnodup : (near.entries.map Prod.fst).Nodup)
    (hid : id ∈ near.entries.map Prod.fst) (hfar : ∀ e ∈ far.entries, e.1 ≠ id) (hremove : near.remove id = some (near', true))
    (hsound : near'.Sound) (hperm : near'.entries.Perm (near.entries.filter fun e => e.1 ≠ id)) :
    ∃ t', (fork gl near far cut_dim cut bbox size).remove id = some (t', true) ∧ t'.Sound ∧
      t'.entries.Perm ((fork gl near far cut_dim cut bbox size).entries.filter fun e => e.1 ≠ id) := by
  obtain ⟨hnearsound, hfarsound, hnearne, hfarne, hsize, hnearside, hfarside⟩ := sound_fork.mp hfork
  have hrest : ((fork gl near far cut_dim cut bbox size).entries.filter fun e => e.1 ≠ id).Perm
      (near'.entries ++ far.entries) := by
    have hall : (far.entries.filter fun e => e.1 ≠ id) = far.entries :=
      List.filter_eq_self.mpr fun e he => by simpa using hfar e he
    refine (entries_fork.filter _).trans ?_
    rw [List.filter_append, hall]
    exact hperm.symm.append_right _
  have hpos := List.length_pos_iff.mpr hnearne
  refine ⟨_, remove_fork hfar hfarne (by omega) hremove, ?_⟩
  cases hempty : near'.isEmpty with
  | true =>
    rw [Node.eq_empty_of_isEmpty hempty] at hrest
    exact ⟨hfarsound, hrest.symm⟩
  | false =>
    have hne : near'.entries ≠ [] := by
      cases near' with
      | empty => cases hempty
      | leaf entries => exact hsound
      | branch left right => exact List.append_ne_nil_of_left_ne_nil hsound.2.2.1 _
    have hlength : near.entries.length = near'.entries.length + 1 := by
      have honce := List.length_erase_of_mem hid
      rw [hnodup.erase_eq_filter, List.filter_map, List.length_map, List.length_map] at honce
      have heq : near'.entries.length = (near.entries.filter ((fun x => x != id) ∘ Prod.fst)).length := by
        refine hperm.length_eq.trans (congrArg List.length (List.filter_congr fun e _ => ?_))
        exact Bool.eq_iff_iff.mpr (by simp)
      omega
    refine ⟨sound_fork.mpr ⟨hsound, hfarsound, hne, hfarne, by omega, fun e he => ?_, hfarside⟩,
      entries_fork.trans hrest.symm⟩
    exact hnearside e (List.mem_filter.mp (hperm.mem_iff.mp he)).1

/-- An id that is in a tree once is taken out. -/
theorem remove_sound {t : Node} (ht : t.Sound) (hnodup : (t.entries.map Prod.fst).Nodup) (hid : id ∈ t.entries.map Prod.fst) :
    ∃ t', t.remove id = some (t', true) ∧ t'.Sound ∧ t'.entries.Perm (t.entries.filter fun e => e.1 ≠ id) := by
  induction t with
  | empty => cases hid
  | leaf es =>
    obtain ⟨e, he, heq⟩ := List.mem_map.mp hid
    refine ⟨_, remove_leaf id es ⟨e, he, heq⟩, ?_⟩
    split_ifs with hnil
    · exact ⟨trivial, hnil ▸ .refl _⟩
    · exact ⟨hnil, .refl _⟩
  | branch left right cut_dim cut bbox size ihl ihr =>
    have hboth : (left.entries.map Prod.fst ++ right.entries.map Prod.fst).Nodup := List.map_append ▸ hnodup
    obtain ⟨hleft, hright, hdisjoint⟩ := List.nodup_append.mp hboth
    have hside : id ∈ left.entries.map Prod.fst ∨ id ∈ right.entries.map Prod.fst :=
      List.mem_append.mp (List.map_append ▸ hid)
    rcases hside with hside | hside
    · obtain ⟨t', hremove, hsound, hperm⟩ := ihl ht.1 hleft hside
      exact remove_fork_sound (show (fork true left right cut_dim cut bbox size).Sound from ht) hleft hside
        (fun e he heq => hdisjoint _ hside _ (List.mem_map_of_mem he) heq.symm) hremove hsound hperm
    · obtain ⟨t', hremove, hsound, hperm⟩ := ihr ht.2.1 hright hside
      exact remove_fork_sound (show (fork false right left cut_dim cut bbox size).Sound from ht) hright hside
        (fun e he heq => hdisjoint _ (List.mem_map_of_mem he) _ hside heq) hremove hsound hperm

end Rcf

end Opsense
