import Opsense.Mlib.Rcf

/-!
# Other ids

With other ids a forest does the same (`eachTree_mapIds`): a score does not depend on the id that is given to its point, as long as no
tree holds it (`score_fresh`).
-/

namespace Opsense

namespace Rcf

variable {ρ : Type} (next : ρ → Double × ρ) (cap id : Nat) (p : Point) {σ : Nat → Nat}

def renamed (σ : Nat → Nat) (es : List Stored) : List Stored := es.map fun e => (σ e.1, e.2)

@[simp] theorem renamed_nil (σ : Nat → Nat) : renamed σ [] = [] := rfl

@[simp] theorem renamed_eq_nil {es : List Stored} : renamed σ es = [] ↔ es = [] := List.map_eq_nil_iff

@[simp] theorem length_renamed (es : List Stored) : (renamed σ es).length = es.length := List.length_map _

@[simp] theorem points_renamed (es : List Stored) : (renamed σ es).map Prod.snd = es.map Prod.snd := by
  simp [renamed]

@[simp] theorem renamed_append (es fs : List Stored) : renamed σ (es ++ fs) = renamed σ es ++ renamed σ fs := List.map_append

theorem renamed_singleton (id : Nat) (p : Point) : [(σ id, p)] = renamed σ [(id, p)] := rfl

/-- Points are chosen by their coordinates. -/
theorem filter_renamed (q : Point → Bool) (es : List Stored) :
    (renamed σ es).filter (fun e => q e.2) = renamed σ (es.filter fun e => q e.2) := by
  simp [renamed, List.filter_map, Function.comp_def]

theorem any_renamed (hσ : Function.Injective σ) (es : List Stored) :
    ((renamed σ es).any fun e => e.1 = σ id) = es.any fun e => e.1 = id := by
  simp [renamed, List.any_map, Function.comp_def, hσ.eq_iff]

theorem filter_ne_renamed (hσ : Function.Injective σ) (es : List Stored) :
    (renamed σ es).filter (fun e => e.1 ≠ σ id) = renamed σ (es.filter fun e => e.1 ≠ id) := by
  simp [renamed, List.filter_map, Function.comp_def, hσ.eq_iff]

/-- The ids of some points are left as they are. -/
theorem renamed_eq_self {es : List Stored} (h : ∀ e ∈ es, σ e.1 = e.1) : renamed σ es = es := by
  have hid : ∀ e ∈ es, (σ e.1, e.2) = e := fun e he => Prod.ext (h e he) rfl
  exact (List.map_congr_left hid).trans (List.map_id es)

namespace Node

/-- The tree with other ids. -/
def mapIds (σ : Nat → Nat) : Node → Node
  | empty => empty
  | branch left right cut_dim cut bbox size => branch (left.mapIds σ) (right.mapIds σ) cut_dim cut bbox size
  | leaf entries => leaf (renamed σ entries)

@[simp] theorem size_mapIds (t : Node) : (t.mapIds σ).size = t.size := by
  cases t <;> simp [mapIds, size]

@[simp] theorem isEmpty_mapIds (t : Node) : (t.mapIds σ).isEmpty = t.isEmpty := by
  cases t <;> rfl

theorem mapIds_eq_self {t : Node} (h : ∀ e ∈ t.entries, σ e.1 = e.1) : t.mapIds σ = t := by
  induction t with
  | empty => rfl
  | leaf es => exact congrArg leaf (renamed_eq_self h)
  | branch left right cut_dim cut bbox size ihl ihr =>
    rw [mapIds, ihl fun e he => h e (List.mem_append_left _ he), ihr fun e he => h e (List.mem_append_right _ he)]

theorem remove_mapIds (hσ : Function.Injective σ) (t : Node) :
    (t.mapIds σ).remove (σ id) = (t.remove id).map fun r => (r.1.mapIds σ, r.2) := by
  induction t with
  | empty => rfl
  | leaf es =>
    simp only [mapIds, remove, filter_ne_renamed id hσ, length_renamed, renamed_eq_nil]
    split_ifs <;> rfl
  | branch left right cut_dim cut bbox size ihl ihr =>
    have hout : ∀ l r : Node, (if (l.mapIds σ).isEmpty then r.mapIds σ else if (r.mapIds σ).isEmpty then l.mapIds σ
          else branch (l.mapIds σ) (r.mapIds σ) cut_dim cut bbox (size - 1)) =
        (if l.isEmpty then r else if r.isEmpty then l else branch l r cut_dim cut bbox (size - 1)).mapIds σ := by
      intro l r
      simp only [isEmpty_mapIds]
      split_ifs <;> rfl
    simp only [mapIds, remove, ihl, ihr]
    cases left.remove id with
    | none => rfl
    | some l =>
      obtain ⟨l, found⟩ := l
      cases found with
      | true =>
        simp only [Option.map_some, Option.bind_some, if_true, hout]
        split_ifs <;> rfl
      | false =>
        cases right.remove id with
        | none => rfl
        | some r =>
          obtain ⟨r, found⟩ := r
          simp only [Option.map_some, Option.bind_some, Bool.false_eq_true, if_false, hout]
          split_ifs <;> rfl

end Node

section Insertion

theorem insertLeaf_renamed (hσ : Function.Injective σ) (stack : Nat) : ∀ (es : List Stored) (rng : ρ),
    insertLeaf next cap (σ id) p stack (renamed σ es) rng =
      (insertLeaf next cap id p stack es rng).map fun r => (r.1.mapIds σ, r.2) := by
  induction stack with
  | zero => exact fun es rng => rfl
  | succ stack ih =>
    intro es rng
    have hleft := fun cut_dim cut => filter_renamed (σ := σ) (fun q => goesLeft q cut_dim cut) es
    have hright := fun cut_dim cut => filter_renamed (σ := σ) (fun q => !goesLeft q cut_dim cut) es
    have hany := any_renamed (σ := σ) id hσ
    rw [insertLeaf, insertLeaf, length_renamed, points_renamed]
    split_ifs with hroom
    · simp [Node.mapIds, renamed_singleton]
    cases splitCut next (es.map Prod.snd) rng with
    | mk cut? rng =>
      cases cut? with
      | none => simp [Node.mapIds, renamed_singleton]
      | some cut =>
        obtain ⟨cut_dim, cut⟩ := cut
        simp only [hleft, hright]
        cases goesLeft p cut_dim cut <;>
        · simp only [if_true, Bool.false_eq_true, if_false, renamed_singleton, ← renamed_append, hany, length_renamed,
            points_renamed, ih]
          split_ifs <;> rw [Option.map_map, Option.map_map] <;> rfl

theorem insertInner_mapIds (hσ : Function.Injective σ) (stack : Nat) (t : Node) (rng : ρ) :
    insertInner next cap (σ id) p stack (t.mapIds σ) rng =
      (insertInner next cap id p stack t rng).map fun r => (r.1.mapIds σ, r.2) := by
  induction t with
  | empty => rfl
  | leaf es => exact insertLeaf_renamed next cap id p hσ stack es rng
  | branch left right cut_dim cut bbox size ihl ihr =>
    simp only [Node.mapIds, insertInner, ihl, ihr, Node.size_mapIds]
    split_ifs <;> simp [Option.map_map, Function.comp_def, Node.mapIds]

theorem insert_mapIds (hσ : Function.Injective σ) (transient : Bool) (stack : Nat) (t : Node) (rng : ρ) :
    insert next cap (σ id) p transient stack (t.mapIds σ) rng =
      (insert next cap id p transient stack t rng).map fun r => (r.1.mapIds σ, r.2) := by
  have hskips : skips p transient (t.mapIds σ) = skips p transient t := by
    cases t <;> rfl
  simp only [insert, hskips, insertInner_mapIds next cap id p hσ, Node.size_mapIds]
  split_ifs
  · rfl
  · simp [Option.map_map, Function.comp_def]

end Insertion

section Forest

variable {next} (ln : Double → Double) (stack : Nat) (forest : RcfForest ρ)

theorem scoreTree_mapIds (hσ : Function.Injective σ) (t : Node) (rng : ρ) :
    forest.scoreTree next ln stack (σ id) p (t.mapIds σ) rng =
      (forest.scoreTree next ln stack id p t rng).map fun r => (r.1.mapIds σ, r.2) := by
  simp only [RcfForest.scoreTree, insert_mapIds next forest.cfg.leaf_capacity id p hσ]
  cases insert next forest.cfg.leaf_capacity id p true stack t rng with
  | none => rfl
  | some r => simp [Node.remove_mapIds id hσ, Option.map_map, Function.comp_def]

/-- What is done to trees with other ids is done to the trees. -/
theorem eachTree_mapIds {f g : Node → ρ → Option (Node × ρ × Double)}
    (hfg : ∀ t rng, g (t.mapIds σ) rng = (f t rng).map fun r => (r.1.mapIds σ, r.2)) (trees : List Node) : ∀ (rng : ρ) (total : Double),
      eachTree g (trees.map (Node.mapIds σ)) rng total =
        (eachTree f trees rng total).map fun r => (r.1.map (Node.mapIds σ), r.2) := by
  induction trees with
  | nil => exact fun rng total => rfl
  | cons t trees ih =>
    intro rng total
    simp only [List.map_cons, eachTree, hfg]
    cases f t rng with
    | none => rfl
    | some r => simp [ih, Option.map_map, Function.comp_def]

/-- The score of a point is the same under every id that no tree holds. -/
theorem score_fresh {a b : Nat} (ha : ∀ t ∈ forest.trees, ∀ e ∈ t.entries, e.1 ≠ a) (hb : ∀ t ∈ forest.trees, ∀ e ∈ t.entries, e.1 ≠ b)
    (rng : ρ) (total : Double) :
    (eachTree (forest.scoreTree next ln stack b p) forest.trees rng total).map Prod.snd =
      (eachTree (forest.scoreTree next ln stack a p) forest.trees rng total).map Prod.snd := by
  have hself : forest.trees.map (Node.mapIds (Equiv.swap a b)) = forest.trees := by
    refine (List.map_congr_left fun t ht => ?_).trans (List.map_id _)
    exact Node.mapIds_eq_self fun e he => Equiv.swap_apply_of_ne_of_ne (ha t ht e he) (hb t ht e he)
  have hscore := eachTree_mapIds (g := forest.scoreTree next ln stack (Equiv.swap a b a) p)
    (scoreTree_mapIds a p ln stack forest (Equiv.swap a b).injective) forest.trees rng total
  rw [hself, Equiv.swap_apply_left] at hscore
  rw [hscore, Option.map_map]
  rfl

end Forest

end Rcf

end Opsense
