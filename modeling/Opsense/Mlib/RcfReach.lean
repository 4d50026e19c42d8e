import Opsense.Mlib.Rcf

/-!
# The forests that are made

Whatever is called, no branch of a tree has an empty child, and every id in a tree has been given (`state_fit`).
-/

namespace Opsense

namespace Rcf

variable {ρ : Type} {next : ρ → Double × ρ} {ln : Double → Double} {cap stack id : Nat} {p : Point} {rng rng' : ρ} {t t' : Node}
  {siblings : List Nat}

/-! ## Trees without holes -/

/-- No branch has an empty child. -/
def Node.Whole : Node → Prop
  | .empty => True
  | .leaf _ => True
  | .branch left right _ _ _ _ => left.Whole ∧ right.Whole ∧ left.isEmpty = false ∧ right.isEmpty = false

/-- What comes of a tree: it has no holes, and its points are those of before, but for those of an id. -/
def Node.Follows (id : Nat) (es : List Stored) (t : Node) : Prop := t.Whole ∧ ∀ e ∈ t.entries, e ∈ es ∨ e.1 = id

theorem insertLeaf_follows (stack : Nat) : ∀ {es : List Stored} {rng : ρ},
    insertLeaf next cap id p stack es rng = some (t, rng', siblings) → t.Follows id es ∧ t.isEmpty = false := by
  induction stack generalizing t rng' siblings with
  | zero => exact fun h => absurd h (Option.some_ne_none _).symm
  | succ stack ih =>
    intro es rng h
    have hsnoc : ∀ fs : List Stored, ∀ e ∈ fs ++ [(id, p)], e ∈ fs ∨ e.1 = id := by
      intro fs e he
      rcases List.mem_append.mp he with he | he
      · exact .inl he
      · exact .inr (by rw [List.mem_singleton.mp he])
    rw [insertLeaf] at h
    split_ifs at h with hroom
    · obtain ⟨rfl, -⟩ : _ = t ∧ _ := by simpa using h
      exact ⟨⟨trivial, hsnoc es⟩, rfl⟩
    rcases hsplit : splitCut next (es.map Prod.snd) rng with ⟨- | ⟨cut_dim, cut⟩, rng₁⟩
    · rw [hsplit] at h
      obtain ⟨rfl, -⟩ : _ = t ∧ _ := by simpa using h
      exact ⟨⟨trivial, hsnoc es⟩, rfl⟩
    · rw [hsplit] at h
      dsimp only at h
      have hside : ∀ q : Stored → Bool, ∀ e ∈ es.filter q, e ∈ es ∨ e.1 = id := fun q e he => .inl (List.mem_filter.mp he).1
      have hleft : ∀ e ∈ (if goesLeft p cut_dim cut then (es.filter fun e => goesLeft e.2 cut_dim cut) ++ [(id, p)]
          else es.filter fun e => goesLeft e.2 cut_dim cut), e ∈ es ∨ e.1 = id := by
        split_ifs
        · exact fun e he => (hsnoc _ e he).elim (hside _ e) .inr
        · exact hside _
      have hright : ∀ e ∈ (if goesLeft p cut_dim cut then es.filter fun e => !goesLeft e.2 cut_dim cut
          else (es.filter fun e => !goesLeft e.2 cut_dim cut) ++ [(id, p)]), e ∈ es ∨ e.1 = id := by
        split_ifs
        · exact hside _
        · exact fun e he => (hsnoc _ e he).elim (hside _ e) .inr
      generalize (if goesLeft p cut_dim cut then (es.filter fun e => goesLeft e.2 cut_dim cut) ++ [(id, p)]
        else es.filter fun e => goesLeft e.2 cut_dim cut) = left at h hleft
      generalize (if goesLeft p cut_dim cut then es.filter fun e => !goesLeft e.2 cut_dim cut
        else (es.filter fun e => !goesLeft e.2 cut_dim cut) ++ [(id, p)]) = right at h hright
      split_ifs at h with hany
      · obtain ⟨⟨node, rng₂, siblings₂⟩, hrec, heq⟩ := Option.map_eq_some_iff.mp h
        obtain ⟨rfl, -⟩ : _ = t ∧ _ := by simpa using heq
        obtain ⟨⟨hwhole, hmem⟩, hempty⟩ := ih hrec
        refine ⟨⟨⟨hwhole, trivial, hempty, rfl⟩, fun e he => ?_⟩, rfl⟩
        rcases List.mem_append.mp he with he | he
        · exact (hmem e he).elim (hleft e) .inr
        · exact hright e he
      · obtain ⟨⟨node, rng₂, siblings₂⟩, hrec, heq⟩ := Option.map_eq_some_iff.mp h
        obtain ⟨rfl, -⟩ : _ = t ∧ _ := by simpa using heq
        obtain ⟨⟨hwhole, hmem⟩, hempty⟩ := ih hrec
        refine ⟨⟨⟨trivial, hwhole, rfl, hempty⟩, fun e he => ?_⟩, rfl⟩
        rcases List.mem_append.mp he with he | he
        · exact hleft e he
        · exact (hmem e he).elim (hright e) .inr

theorem insertInner_follows (ht : t.Whole) (h : insertInner next cap id p stack t rng = some (t', rng', siblings)) :
    t'.Follows id t.entries ∧ t'.isEmpty = false := by
  induction t generalizing t' rng' siblings with
  | empty =>
    obtain ⟨rfl, -⟩ : _ = t' ∧ _ := by simpa [insertInner] using h
    refine ⟨⟨trivial, fun e he => .inr ?_⟩, rfl⟩
    rw [List.mem_singleton.mp he]
  | leaf es => exact insertLeaf_follows stack h
  | branch left right cut_dim cut bbox size ihl ihr =>
    obtain ⟨hl, hr, hl', hr'⟩ := ht
    simp only [insertInner] at h
    split_ifs at h
    · obtain ⟨⟨node, rng₂, siblings₂⟩, hrec, heq⟩ := Option.map_eq_some_iff.mp h
      obtain ⟨rfl, -⟩ : _ = t' ∧ _ := by simpa using heq
      obtain ⟨⟨hwhole, hmem⟩, hempty⟩ := ihl hl hrec
      refine ⟨⟨⟨hwhole, hr, hempty, hr'⟩, fun e he => ?_⟩, rfl⟩
      rcases List.mem_append.mp he with he | he
      · exact (hmem e he).imp_left (List.mem_append_left _)
      · exact .inl (List.mem_append_right _ he)
    · obtain ⟨⟨node, rng₂, siblings₂⟩, hrec, heq⟩ := Option.map_eq_some_iff.mp h
      obtain ⟨rfl, -⟩ : _ = t' ∧ _ := by simpa using heq
      obtain ⟨⟨hwhole, hmem⟩, hempty⟩ := ihr hr hrec
      refine ⟨⟨⟨hl, hwhole, hl', hempty⟩, fun e he => ?_⟩, rfl⟩
      rcases List.mem_append.mp he with he | he
      · exact .inl (List.mem_append_left _ he)
      · exact (hmem e he).imp_left (List.mem_append_right _)

theorem insert_follows {transient : Bool} (ht : t.Whole)
    (h : insert next cap id p transient stack t rng = some (t', rng', siblings)) : t'.Follows id t.entries := by
  unfold insert at h
  split_ifs at h
  · obtain ⟨rfl, -⟩ : t = t' ∧ _ := by simpa using h
    exact ⟨ht, fun e he => .inl he⟩
  · obtain ⟨⟨node, rng₂, siblings₂⟩, hrec, heq⟩ := Option.map_eq_some_iff.mp h
    obtain ⟨rfl, -⟩ : node = t' ∧ _ := by simpa using heq
    exact (insertInner_follows ht hrec).1

/-- A tree that points are taken out of. -/
theorem remove_follows {found : Bool} (ht : t.Whole) (h : t.remove id = some (t', found)) :
    t'.Whole ∧ ∀ e ∈ t'.entries, e ∈ t.entries := by
  induction t generalizing t' found with
  | empty =>
    obtain ⟨rfl, -⟩ : _ = t' ∧ _ := by simpa [Node.remove] using h
    exact ⟨trivial, fun e he => he⟩
  | leaf es =>
    simp only [Node.remove] at h
    split_ifs at h with hless hnil
    · obtain ⟨rfl, -⟩ : _ = t' ∧ _ := by simpa using h
      exact ⟨trivial, fun e he => absurd he List.not_mem_nil⟩
    · obtain ⟨rfl, -⟩ : _ = t' ∧ _ := by simpa using h
      exact ⟨trivial, fun e he => (List.mem_filter.mp he).1⟩
    · obtain ⟨rfl, -⟩ : _ = t' ∧ _ := by simpa using h
      exact ⟨trivial, fun e he => he⟩
  | branch left right cut_dim cut bbox size ihl ihr =>
    have hkeep := ht
    obtain ⟨hl, hr, hl', hr'⟩ := ht
    simp only [Node.remove] at h
    obtain ⟨⟨l, lfound⟩, hleft, h⟩ := Option.bind_eq_some_iff.mp h
    obtain ⟨⟨r, rfound⟩, hright, h⟩ := Option.bind_eq_some_iff.mp h
    obtain ⟨hlwhole, hlmem⟩ := ihl hl hleft
    have hrside : r.Whole ∧ ∀ e ∈ r.entries, e ∈ right.entries := by
      split_ifs at hright
      · obtain ⟨rfl, -⟩ : right = r ∧ _ := by simpa using hright
        exact ⟨hr, fun e he => he⟩
      · exact ihr hr hright
    obtain ⟨hrwhole, hrmem⟩ := hrside
    split_ifs at h with hfound hzero hlempty hrempty
    · obtain ⟨rfl, -⟩ : r = t' ∧ _ := by simpa using h
      exact ⟨hrwhole, fun e he => List.mem_append_right _ (hrmem e he)⟩
    · obtain ⟨rfl, -⟩ : l = t' ∧ _ := by simpa using h
      exact ⟨hlwhole, fun e he => List.mem_append_left _ (hlmem e he)⟩
    · obtain ⟨rfl, -⟩ : _ = t' ∧ _ := by simpa using h
      refine ⟨⟨hlwhole, hrwhole, by simpa using hlempty, by simpa using hrempty⟩, fun e he => ?_⟩
      exact List.mem_append.mpr ((List.mem_append.mp he).imp (hlmem e) (hrmem e))
    · obtain ⟨rfl, -⟩ : _ = t' ∧ _ := by simpa using h
      exact ⟨hkeep, fun e he => he⟩

/-! ## The forests that are made -/

/-- A tree without holes all of whose ids are smaller. -/
def Node.Below (bound : Nat) (t : Node) : Prop := t.Whole ∧ ∀ e ∈ t.entries, e.1 < bound

theorem Node.Below.mono {bound bound' : Nat} (h : t.Below bound) (hle : bound ≤ bound') : t.Below bound' :=
  ⟨h.1, fun e he => (h.2 e he).trans_le hle⟩

theorem Node.Follows.below {bound : Nat} (h : t'.Follows id t.entries) (ht : t.Below bound) (hid : id < bound) : t'.Below bound :=
  ⟨h.1, fun e he => (h.2 e he).elim (ht.2 e) fun heq => heq ▸ hid⟩

theorem remove_below {bound : Nat} {found : Bool} (ht : t.Below bound) (h : t.remove id = some (t', found)) : t'.Below bound :=
  ⟨(remove_follows ht.1 h).1, fun e he => ht.2 e ((remove_follows ht.1 h).2 e he)⟩

variable {forest forest' : RcfForest ρ}

theorem scoreTree_below {bound : Nat} {x : Double} (hid : id < bound) (ht : t.Below bound)
    (h : forest.scoreTree next ln stack id p t rng = some (t', rng', x)) : t'.Below bound := by
  obtain ⟨⟨node, rng₁, siblings⟩, hinsert, h⟩ := Option.bind_eq_some_iff.mp h
  obtain ⟨⟨node', found⟩, hremove, heq⟩ := Option.map_eq_some_iff.mp h
  obtain ⟨rfl, -⟩ : node' = t' ∧ _ := by simpa using heq
  exact remove_below ((insert_follows ht.1 hinsert).below ht hid) hremove

theorem growTree_below {bound : Nat} {x : Double} (hid : id < bound) (ht : t.Below bound)
    (h : forest.growTree next stack id p t rng = some (t', rng', x)) : t'.Below bound := by
  obtain ⟨⟨node, rng₁, siblings⟩, hinsert, heq⟩ := Option.map_eq_some_iff.mp h
  obtain ⟨rfl, -⟩ : node = t' ∧ _ := by simpa using heq
  exact (insert_follows ht.1 hinsert).below ht hid

theorem eachTree_all {I : Node → Prop} {f : Node → ρ → Option (Node × ρ × Double)}
    (hf : ∀ {t rng t' rng' x}, I t → f t rng = some (t', rng', x) → I t') (trees : List Node) :
    ∀ {trees' : List Node} {rng rng' : ρ} {total total' : Double}, (∀ t ∈ trees, I t) →
      eachTree f trees rng total = some (trees', rng', total') → ∀ t ∈ trees', I t := by
  induction trees with
  | nil =>
    intro trees' rng rng' total total' _ h
    obtain ⟨rfl, -⟩ : [] = trees' ∧ _ := by simpa [eachTree] using h
    exact fun t ht => absurd ht List.not_mem_nil
  | cons t trees ih =>
    intro trees' rng rng' total total' hI h
    obtain ⟨⟨t₁, rng₁, x⟩, hstep, h⟩ := Option.bind_eq_some_iff.mp h
    obtain ⟨⟨trees₁, rest⟩, hrest, heq⟩ := Option.map_eq_some_iff.mp h
    obtain ⟨rfl, -⟩ : t₁ :: trees₁ = trees' ∧ _ := by simpa using heq
    intro u hu
    rcases List.mem_cons.mp hu with rfl | hu
    · exact hf (hI t List.mem_cons_self) hstep
    · exact ih (fun t ht => hI t (List.mem_cons_of_mem _ ht)) hrest u hu

/-- The trees of a forest have no holes, and their ids have been given. -/
def RcfForest.Fit (forest : RcfForest ρ) : Prop := ∀ t ∈ forest.trees, t.Below forest.next_id

theorem evict_fit (hfit : forest.Fit) (h : forest.evict = some forest') : forest'.Fit := by
  unfold RcfForest.evict at h
  split at h
  · obtain rfl := Option.some.inj h
    exact hfit
  split_ifs at h
  · obtain ⟨trees, htrees, rfl⟩ := Option.map_eq_some_iff.mp h
    have hall : ∀ (trees trees' : List Node) (old : Nat), (∀ t ∈ trees, t.Below forest.next_id) →
        (trees.mapM fun (t : Node) => (t.remove old).map Prod.fst) = some trees' → ∀ t ∈ trees', t.Below forest.next_id := by
      intro trees trees' old hbelow hmap
      induction trees generalizing trees' with
      | nil =>
        obtain rfl : [] = trees' := by simpa using hmap
        exact fun t ht => absurd ht List.not_mem_nil
      | cons t trees ih =>
        rw [List.mapM_cons] at hmap
        obtain ⟨t', ht', hmap⟩ := Option.bind_eq_some_iff.mp hmap
        obtain ⟨rest, hrest, hmap⟩ := Option.bind_eq_some_iff.mp hmap
        obtain rfl : t' :: rest = trees' := by simpa using hmap
        obtain ⟨⟨t₁, found⟩, hremove, rfl⟩ := Option.map_eq_some_iff.mp ht'
        intro u hu
        rcases List.mem_cons.mp hu with rfl | hu
        · exact remove_below (hbelow t List.mem_cons_self) hremove
        · exact ih rest (fun t ht => hbelow t (List.mem_cons_of_mem _ ht)) hrest u hu
    exact hall _ _ _ hfit htrees
  · obtain rfl := Option.some.inj h
    exact hfit

theorem insertShingled_fit {x : Double} (hfit : forest.Fit) (h : forest.insertShingled next ln stack p = some (forest', x)) :
    forest'.Fit := by
  obtain ⟨⟨trees, rng₁, total⟩, hscore, h⟩ := Option.bind_eq_some_iff.mp h
  obtain ⟨⟨trees', rng₂, total'⟩, hgrow, h⟩ := Option.bind_eq_some_iff.mp h
  obtain ⟨grown, hevict, heq⟩ := Option.map_eq_some_iff.mp h
  obtain ⟨rfl, -⟩ : grown = forest' ∧ _ := by simpa using heq
  have hnew : forest.next_id < forest.next_id + 1 := Nat.lt_succ_self _
  have hscored := eachTree_all (scoreTree_below hnew) _ (fun t ht => (hfit t ht).mono hnew.le) hscore
  have hgrown : RcfForest.Fit { forest with
      rng := rng₂, trees := trees', window := forest.window ++ [(forest.next_id, p)], next_id := forest.next_id + 1 } :=
    eachTree_all (growTree_below hnew) _ hscored hgrow
  exact evict_fit hgrown hevict

theorem call_fit {call : RcfCall} {answer : Except String (Option Double)} (hfit : forest.Fit)
    (h : forest.call next ln stack call = some (forest', answer)) : forest'.Fit := by
  cases call with
  | add point =>
    simp only [RcfForest.call, RcfForest.add] at h
    split_ifs at h
    · obtain ⟨rfl, -⟩ : forest = forest' ∧ _ := by simpa using h
      exact hfit
    · obtain ⟨rfl, -⟩ : _ = forest' ∧ _ := by simpa using h
      exact hfit
    · obtain ⟨⟨grown, x⟩, hinsert, heq⟩ := Option.map_eq_some_iff.mp h
      obtain ⟨rfl, -⟩ : grown = forest' ∧ _ := by simpa using heq
      have hfit' : RcfForest.Fit { forest with shingle := (forest.shingle ++ [point]).tail } := hfit
      exact insertShingled_fit hfit' hinsert
    · obtain ⟨⟨grown, x⟩, hinsert, heq⟩ := Option.map_eq_some_iff.mp h
      obtain ⟨rfl, -⟩ : grown = forest' ∧ _ := by simpa using heq
      exact insertShingled_fit hfit hinsert
  | score point =>
    obtain ⟨⟨scored, x⟩, hscore, heq⟩ := Option.map_eq_some_iff.mp h
    obtain ⟨rfl, -⟩ : scored = forest' ∧ _ := by simpa using heq
    simp only [RcfForest.score] at hscore
    split_ifs at hscore
    · obtain ⟨rfl, -⟩ : forest = scored ∧ _ := by simpa using hscore
      exact hfit
    · obtain ⟨⟨trees, rng₁, total⟩, htrees, heq⟩ := Option.map_eq_some_iff.mp hscore
      obtain ⟨rfl, -⟩ : _ = scored ∧ _ := by simpa using heq
      have hnew : forest.next_id < forest.next_id + 1 := Nat.lt_succ_self _
      exact eachTree_all (scoreTree_below hnew) _ (fun t ht => (hfit t ht).mono hnew.le) htrees

/-- Whatever was called, if no call has failed. -/
theorem state_fit {cfg : RcfConfig} {dims : Nat} {calls : List RcfCall}
    (h : (machine next ln stack cfg dims rng).state calls = some forest) : forest.Fit := by
  induction calls using List.reverseRecOn generalizing forest with
  | nil =>
    obtain rfl := Option.some.inj h
    intro t ht
    rw [List.eq_of_mem_replicate ht]
    exact ⟨trivial, fun e he => absurd he List.not_mem_nil⟩
  | append_singleton calls call ih =>
    rw [Machine.state_snoc] at h
    cases hstate : (machine next ln stack cfg dims rng).state calls with
    | none =>
      rw [hstate] at h
      exact absurd h (Option.some_ne_none _).symm
    | some before =>
      rw [hstate] at h
      simp only [Machine.next, machine, Option.bind_some] at h
      cases hcall : before.call next ln stack call with
      | none =>
        rw [hcall] at h
        exact absurd h (Option.some_ne_none _).symm
      | some r =>
        obtain ⟨after, answer⟩ := r
        rw [hcall] at h
        obtain rfl := Option.some.inj h
        exact call_fit (ih hstate) hcall

end Rcf

end Opsense
