import Mathlib

/-!
# Search for a cycle

A depth-first search with three colours: a node is grey while it is being visited and black when all that can be reached from
it was visited. An edge to a grey node closes a cycle. The search finds a cycle exactly when there is one
(`findCycle_eq_none`), and what it finds is one (`findCycle_closes`). The black nodes are closed under edges and lie on no cycle
(`Done`); the grey nodes are those of the path (`OnPath`). Each visit makes a white node grey, so the depth is never reached.
-/

namespace Opsense

namespace DepthFirst

inductive Color where
  | white
  | gray
  | black
deriving DecidableEq

variable {α : Type*} [DecidableEq α]

/-- The nodes that a node leads to, one after another. -/
def scan (visit : α → (α → Color) → Option (List α) × (α → Color)) (path : List α) :
    List α → (α → Color) → Option (List α) × (α → Color)
  | [], color => (none, color)
  | n :: ns, color =>
    match color n with
    | .gray => (some (path.drop (path.idxOf n) ++ [n]), color)
    | .white =>
      match visit n color with
      | (some cycle, color) => (some cycle, color)
      | (none, color) => scan visit path ns color
    | .black => scan visit path ns color

/-- Visit a node, to a depth that is never reached. -/
def visit (next : α → List α) : Nat → List α → α → (α → Color) → Option (List α) × (α → Color)
  | 0, path, _, color => (some path, color)
  | depth + 1, path, node, color =>
    let path := path ++ [node]
    match scan (visit next depth path) path (next node) (Function.update color node .gray) with
    | (some cycle, color) => (some cycle, color)
    | (none, color) => (none, Function.update color node .black)

/-- Visit the roots that were not visited yet. -/
def visitRoots (next : α → List α) (depth : Nat) : List α → (α → Color) → Option (List α)
  | [], _ => none
  | root :: roots, color =>
    if color root = .white then
      match visit next depth [] root color with
      | (some cycle, _) => some cycle
      | (none, color) => visitRoots next depth roots color
    else visitRoots next depth roots color

/-- The nodes of a graph with the given roots. -/
def allNodes (next : α → List α) (roots : List α) : Finset α := (roots ++ roots.flatMap next).toFinset

/-- Look for a cycle of a graph whose edges begin at the roots. -/
def findCycle (next : α → List α) (roots : List α) : Option (List α) :=
  visitRoots next (allNodes next roots).card roots fun _ => .white

/-- There is an edge. -/
def Edge (next : α → List α) (a b : α) : Prop := b ∈ next a

/-- No node leads back to itself. -/
def Acyclic (next : α → List α) : Prop := ∀ a, ¬Relation.TransGen (Edge next) a a

/-- A black node leads to black nodes only and lies on no cycle. -/
structure Done (next : α → List α) (color : α → Color) : Prop where
  closed : ∀ a, color a = .black → ∀ b ∈ next a, color b = .black
  acyclic : ∀ a, color a = .black → ¬Relation.TransGen (Edge next) a a

/-- A visit makes white nodes black and leaves the others. -/
structure Grown (color color' : α → Color) : Prop where
  black : ∀ a, color a = .black → color' a = .black
  gray : ∀ a, color' a = .gray ↔ color a = .gray

variable {next : α → List α} {color color' color'' : α → Color}

omit [DecidableEq α] in
theorem Grown.refl (color : α → Color) : Grown color color := ⟨fun _ h => h, fun _ => Iff.rfl⟩

omit [DecidableEq α] in
theorem Grown.trans (h : Grown color color') (h' : Grown color' color'') : Grown color color'' :=
  ⟨fun a ha => h'.black a (h.black a ha), fun a => (h'.gray a).trans (h.gray a)⟩

omit [DecidableEq α] in
theorem Grown.white (h : Grown color color') {a : α} (ha : color' a = .white) : color a = .white := by
  cases hcolor : color a with
  | white => rfl
  | gray =>
    have := (h.gray a).mpr hcolor
    rw [ha] at this
    nomatch this
  | black =>
    have := h.black a hcolor
    rw [ha] at this
    nomatch this

omit [DecidableEq α] in
/-- What is reached from a black node is black. -/
theorem Done.reach (h : Done next color) {a b : α} (hab : Relation.ReflTransGen (Edge next) a b) (ha : color a = .black) :
    color b = .black := by
  induction hab with
  | refl => exact ha
  | tail _ hbc ih => exact h.closed _ ih _ hbc

variable {node : α}

/-- A node that leads to black nodes only may become black. -/
theorem Done.finish (h : Done next color) (hgray : color node = .gray) (hnext : ∀ n ∈ next node, color n = .black) :
    Done next (Function.update color node .black) := by
  have hkeep : ∀ a, color a = .black → Function.update color node .black a = .black := by
    intro a ha
    rw [Function.update_apply]
    split_ifs
    · rfl
    · exact ha
  constructor
  · intro a ha b hb
    rw [Function.update_apply] at ha
    split_ifs at ha with heq
    · exact hkeep b (hnext b (heq ▸ hb))
    · exact hkeep b (h.closed a ha b hb)
  · intro a ha hcycle
    rw [Function.update_apply] at ha
    split_ifs at ha with heq
    · -- the first step leads to a black node, from which the grey one is not reached
      subst heq
      obtain ⟨n, hn, hreach⟩ := Relation.TransGen.head'_iff.mp hcycle
      have hblack := h.reach hreach (hnext n hn)
      rw [hgray] at hblack
      nomatch hblack
    · exact h.acyclic a ha hcycle

theorem Grown.begin (hwhite : color node = .white) (h : Grown (Function.update color node .gray) color') :
    Grown color (Function.update color' node .black) := by
  constructor
  · intro a ha
    rw [Function.update_apply]
    split_ifs with heq
    · rfl
    · exact h.black a (by rw [Function.update_of_ne heq]; exact ha)
  · intro a
    rw [Function.update_apply]
    split_ifs with heq
    · subst heq
      simp [hwhite]
    · rw [h.gray, Function.update_of_ne heq]

/-- What a visit that finds no cycle leaves. -/
def VisitsWell (next : α → List α) (visit : α → (α → Color) → Option (List α) × (α → Color)) : Prop :=
  ∀ n color color', Done next color → color n = .white → visit n color = (none, color') →
    Done next color' ∧ Grown color color' ∧ color' n = .black

variable {f : α → (α → Color) → Option (List α) × (α → Color)}

theorem scan_none (hf : VisitsWell next f) (path : List α) {ns : List α} (hdone : Done next color)
    (h : scan f path ns color = (none, color')) :
    Done next color' ∧ Grown color color' ∧ ∀ n ∈ ns, color' n = .black := by
  induction ns generalizing color with
  | nil =>
    obtain rfl := (Prod.mk.inj h).2
    exact ⟨hdone, Grown.refl _, by simp⟩
  | cons n ns ih =>
    rw [scan] at h
    cases hcolor : color n with
    | gray => simp [hcolor] at h
    | black =>
      simp only [hcolor] at h
      obtain ⟨hdone', hgrown, hall⟩ := ih hdone h
      exact ⟨hdone', hgrown, by simpa using ⟨hgrown.black n hcolor, hall⟩⟩
    | white =>
      simp only [hcolor] at h
      cases hvisit : f n color with
      | mk found color₁ =>
        rw [hvisit] at h
        cases found with
        | some cycle => simp at h
        | none =>
          obtain ⟨hdone₁, hgrown₁, hblack⟩ := hf n color color₁ hdone hcolor hvisit
          obtain ⟨hdone', hgrown, hall⟩ := ih hdone₁ h
          exact ⟨hdone', hgrown₁.trans hgrown, by simpa using ⟨hgrown.black n hblack, hall⟩⟩

theorem Done.start (h : Done next color) (hwhite : color node = .white) :
    Done next (Function.update color node .gray) := by
  have hblack : ∀ a, Function.update color node .gray a = .black ↔ color a = .black := by
    intro a
    rw [Function.update_apply]
    split_ifs with heq
    · subst heq
      simp [hwhite]
    · exact Iff.rfl
  exact ⟨fun a ha b hb => (hblack b).mpr (h.closed a ((hblack a).mp ha) b hb), fun a ha => h.acyclic a ((hblack a).mp ha)⟩

theorem visit_none (next : α → List α) (depth : Nat) (path : List α) : VisitsWell next (visit next depth path) := by
  induction depth generalizing path with
  | zero => intro n color color' _ _ h; simp [visit] at h
  | succ depth ih =>
    intro node color color' hdone hwhite h
    rw [visit] at h
    cases hscan : scan (visit next depth (path ++ [node])) (path ++ [node]) (next node) (Function.update color node .gray) with
    | mk found color₁ =>
      rw [hscan] at h
      cases found with
      | some cycle => simp at h
      | none =>
        obtain rfl := (Prod.mk.inj h).2
        obtain ⟨hdone₁, hgrown, hall⟩ := scan_none (ih (path ++ [node])) _ (hdone.start hwhite) hscan
        have hgray : color₁ node = .gray := (hgrown.gray node).mpr (Function.update_self _ _ _)
        exact ⟨hdone₁.finish hgray hall, Grown.begin hwhite hgrown, Function.update_self _ _ _⟩

/-! ## White nodes -/

/-- How many nodes are white. -/
def whites (nodes : Finset α) (color : α → Color) : Nat := (nodes.filter fun a => color a = .white).card

omit [DecidableEq α] in
theorem Grown.whites_le (h : Grown color color') (nodes : Finset α) : whites nodes color' ≤ whites nodes color := by
  refine Finset.card_le_card fun a ha => ?_
  obtain ⟨hmem, hwhite⟩ := Finset.mem_filter.mp ha
  exact Finset.mem_filter.mpr ⟨hmem, h.white hwhite⟩

variable {nodes : Finset α}

theorem whites_start (hmem : node ∈ nodes) (hwhite : color node = .white) :
    whites nodes (Function.update color node .gray) < whites nodes color := by
  refine Finset.card_lt_card (Finset.ssubset_iff_of_subset (fun a ha => ?_) |>.mpr ⟨node, ?_, ?_⟩)
  · obtain ⟨ha, hcolor⟩ := Finset.mem_filter.mp ha
    rw [Function.update_apply] at hcolor
    split_ifs at hcolor
    exact Finset.mem_filter.mpr ⟨ha, hcolor⟩
  · exact Finset.mem_filter.mpr ⟨hmem, hwhite⟩
  · simp

variable {cycle : List α} {depth : Nat}

/-! ## The search -/

variable {roots : List α}

theorem visitRoots_none (hdone : Done next color) (h : visitRoots next depth roots color = none) :
    ∃ color', Done next color' ∧ Grown color color' ∧ ∀ a ∈ roots, color a ≠ .gray → color' a = .black := by
  induction roots generalizing color with
  | nil => exact ⟨color, hdone, Grown.refl _, by simp⟩
  | cons root roots ih =>
    rw [visitRoots] at h
    by_cases hwhite : color root = .white
    · rw [if_pos hwhite] at h
      cases hvisit : visit next depth [] root color with
      | mk found color₁ =>
        rw [hvisit] at h
        cases found with
        | some cycle => simp at h
        | none =>
          obtain ⟨hdone₁, hgrown₁, hblack⟩ := visit_none next depth [] root color color₁ hdone hwhite hvisit
          obtain ⟨color', hdone', hgrown, hall⟩ := ih hdone₁ h
          refine ⟨color', hdone', hgrown₁.trans hgrown, fun a ha hne => ?_⟩
          rcases List.mem_cons.mp ha with rfl | ha
          · exact hgrown.black a hblack
          · exact hall a ha fun hgray => hne ((hgrown₁.gray a).mp hgray)
    · rw [if_neg hwhite] at h
      obtain ⟨color', hdone', hgrown, hall⟩ := ih hdone h
      refine ⟨color', hdone', hgrown, fun a ha hne => ?_⟩
      rcases List.mem_cons.mp ha with rfl | ha
      · cases hcolor : color a with
        | white => exact absurd hcolor hwhite
        | gray => exact absurd hcolor hne
        | black => exact hgrown.black a hcolor
      · exact hall a ha hne

/-! ## What is found -/

/-- A path along edges that ends where it begins. -/
structure Closes (next : α → List α) (cycle : List α) : Prop where
  ends : ∃ a, cycle.head? = some a ∧ cycle.getLast? = some a
  long : 2 ≤ cycle.length
  edges : cycle.IsChain (Edge next)

omit [DecidableEq α] in
theorem Closes.not_acyclic (h : Closes next cycle) : ¬Acyclic next := by
  obtain ⟨⟨a, hhead, hlast⟩, hlong, hedges⟩ := h
  match cycle with
  | b :: c :: rest =>
    obtain rfl : b = a := Option.some.inj hhead
    obtain ⟨hedge, hrest⟩ := List.isChain_cons_cons.mp hedges
    rw [List.getLast?_cons_cons, List.getLast?_eq_some_getLast (List.cons_ne_nil c rest)] at hlast
    exact fun hacyclic => hacyclic b (.head' hedge
      (List.relationReflTransGen_of_exists_isChain_cons rest hrest (Option.some.inj hlast)))

/-- The grey nodes are those of the path, which goes along edges. -/
structure OnPath (next : α → List α) (color : α → Color) (path : List α) : Prop where
  gray : ∀ a, color a = .gray ↔ a ∈ path
  chain : path.IsChain (Edge next)

omit [DecidableEq α] in
theorem OnPath.of_grown {path : List α} (h : OnPath next color path) (hgrown : Grown color color') : OnPath next color' path :=
  ⟨fun a => (hgrown.gray a).trans (h.gray a), h.chain⟩

theorem OnPath.start {path : List α} (h : OnPath next color path) (hlast : ∀ a ∈ path.getLast?, Edge next a node) :
    OnPath next (Function.update color node .gray) (path ++ [node]) := by
  constructor
  · intro a
    rw [Function.update_apply, List.mem_append, List.mem_singleton]
    split_ifs with heq
    · simp [heq]
    · simp [heq, h.gray]
  · rw [List.isChain_append]
    refine ⟨h.chain, List.isChain_singleton node, fun a ha b hb => ?_⟩
    obtain rfl : node = b := by simpa using hb
    exact hlast a ha

/-- The way from a node of the path on, back to it. -/
theorem OnPath.closes {path : List α} {node n : α} (h : OnPath next color path) (hlast : path.getLast? = some node)
    (hedge : Edge next node n) (hn : n ∈ path) : Closes next (path.drop (path.idxOf n) ++ [n]) := by
  have hlt : path.idxOf n < path.length := List.idxOf_lt_length_iff.mpr hn
  have hne : path.drop (path.idxOf n) ≠ [] := by
    rw [Ne, List.drop_eq_nil_iff]
    omega
  have hhead : (path.drop (path.idxOf n)).head? = some n := by
    rw [List.head?_drop, List.getElem?_idxOf hn]
  have hend : (path.drop (path.idxOf n)).getLast? = some node := by
    rw [List.getLast?_drop, if_neg (by omega), hlast]
  refine ⟨⟨n, ?_, List.getLast?_concat⟩, ?_, ?_⟩
  · rw [List.head?_append, hhead]
    rfl
  · have := List.length_pos_of_ne_nil hne
    rw [List.length_append, List.length_singleton]
    omega
  · rw [List.isChain_append]
    refine ⟨h.chain.suffix (List.drop_suffix _ _), List.isChain_singleton n, fun a ha b hb => ?_⟩
    rw [hend] at ha
    obtain rfl : node = a := by simpa using ha
    obtain rfl : n = b := by simpa using hb
    exact hedge

/-- A visit from the end of a path gives a cycle or nothing. -/
def FindsClosed (next : α → List α) (nodes : Finset α) (depth : Nat) (path : List α)
    (visit : α → (α → Color) → Option (List α) × (α → Color)) : Prop :=
  ∀ n color color' cycle, n ∈ nodes → Done next color → color n = .white → whites nodes color ≤ depth → OnPath next color path →
    (∀ a ∈ path.getLast?, Edge next a n) → visit n color = (some cycle, color') → Closes next cycle

theorem scan_closed {path : List α} (hf : VisitsWell next f) (hclosed : FindsClosed next nodes depth path f)
    (hlast : path.getLast? = some node) {ns : List α} (hns : ∀ n ∈ ns, n ∈ nodes ∧ Edge next node n) (hdone : Done next color)
    (hdepth : whites nodes color ≤ depth) (hpath : OnPath next color path) (h : scan f path ns color = (some cycle, color')) :
    Closes next cycle := by
  induction ns generalizing color with
  | nil => simp [scan] at h
  | cons n ns ih =>
    obtain ⟨hmem, hedge⟩ := hns n (by simp)
    have hrest : ∀ n ∈ ns, n ∈ nodes ∧ Edge next node n := fun n' hn' => hns n' (List.mem_cons_of_mem _ hn')
    rw [scan] at h
    cases hcolor : color n with
    | gray =>
      simp only [hcolor] at h
      obtain rfl := Option.some.inj (Prod.mk.inj h).1
      exact hpath.closes hlast hedge ((hpath.gray n).mp hcolor)
    | black =>
      simp only [hcolor] at h
      exact ih hrest hdone hdepth hpath h
    | white =>
      simp only [hcolor] at h
      cases hvisit : f n color with
      | mk found color₁ =>
        rw [hvisit] at h
        cases found with
        | some cycle₁ =>
          obtain rfl := Option.some.inj (Prod.mk.inj h).1
          refine hclosed n color color₁ cycle₁ hmem hdone hcolor hdepth hpath (fun a ha => ?_) hvisit
          rw [hlast] at ha
          obtain rfl : node = a := by simpa using ha
          exact hedge
        | none =>
          obtain ⟨hdone₁, hgrown, -⟩ := hf n color color₁ hdone hcolor hvisit
          exact ih hrest hdone₁ ((hgrown.whites_le nodes).trans hdepth) (hpath.of_grown hgrown) h

theorem visit_closed (hnodes : ∀ a ∈ nodes, ∀ b ∈ next a, b ∈ nodes) (depth : Nat) (path : List α) :
    FindsClosed next nodes depth path (visit next depth path) := by
  induction depth generalizing path with
  | zero =>
    intro n color color' cycle hmem _ hwhite hdepth _ _
    have hlt := whites_start hmem hwhite
    omega
  | succ depth ih =>
    intro node color color' cycle hmem hdone hwhite hdepth hpath hlast h
    rw [visit] at h
    cases hscan : scan (visit next depth (path ++ [node])) (path ++ [node]) (next node) (Function.update color node .gray) with
    | mk found color₁ =>
      rw [hscan] at h
      cases found with
      | none => simp at h
      | some cycle₁ =>
        obtain rfl := Option.some.inj (Prod.mk.inj h).1
        have hlt := whites_start hmem hwhite
        exact scan_closed (visit_none next depth _) (ih (path ++ [node])) List.getLast?_concat
          (fun n hn => ⟨hnodes node hmem n hn, hn⟩) (hdone.start hwhite) (by omega) (hpath.start hlast) hscan

theorem visitRoots_closed (hnodes : ∀ a ∈ nodes, ∀ b ∈ next a, b ∈ nodes) (hroots : ∀ a ∈ roots, a ∈ nodes)
    (hdepth : whites nodes color ≤ depth) (hdone : Done next color) (hpath : OnPath next color [])
    (h : visitRoots next depth roots color = some cycle) : Closes next cycle := by
  induction roots generalizing color with
  | nil => simp [visitRoots] at h
  | cons root roots ih =>
    have hrest : ∀ a ∈ roots, a ∈ nodes := fun a ha => hroots a (List.mem_cons_of_mem _ ha)
    rw [visitRoots] at h
    by_cases hwhite : color root = .white
    · rw [if_pos hwhite] at h
      cases hvisit : visit next depth [] root color with
      | mk found color₁ =>
        rw [hvisit] at h
        cases found with
        | some cycle₁ =>
          obtain rfl := Option.some.inj h
          exact visit_closed hnodes depth [] root color color₁ cycle₁ (hroots root (by simp)) hdone hwhite hdepth hpath nofun hvisit
        | none =>
          obtain ⟨hdone₁, hgrown, -⟩ := visit_none next depth [] root color color₁ hdone hwhite hvisit
          exact ih hrest ((hgrown.whites_le nodes).trans hdepth) hdone₁ (hpath.of_grown hgrown) h
    · rw [if_neg hwhite] at h
      exact ih hrest hdepth hdone hpath h

/-! ## The depth -/

theorem scan_congr {f g : α → (α → Color) → Option (List α) × (α → Color)} (hf : VisitsWell next f) (path : List α) {ns : List α}
    (hns : ∀ n ∈ ns, n ∈ nodes)
    (hsame : ∀ n color, n ∈ nodes → Done next color → color n = .white → whites nodes color ≤ depth → f n color = g n color)
    (hdone : Done next color) (hdepth : whites nodes color ≤ depth) : scan f path ns color = scan g path ns color := by
  induction ns generalizing color with
  | nil => rfl
  | cons n ns ih =>
    have hrest : ∀ n ∈ ns, n ∈ nodes := fun n' hn' => hns n' (List.mem_cons_of_mem _ hn')
    rw [scan, scan]
    cases hcolor : color n with
    | gray => rfl
    | black => exact ih hrest hdone hdepth
    | white =>
      simp only
      rw [← hsame n color (hns n (by simp)) hdone hcolor hdepth]
      cases hvisit : f n color with
      | mk found color₁ =>
        cases found with
        | some cycle => rfl
        | none =>
          obtain ⟨hdone₁, hgrown, -⟩ := hf n color color₁ hdone hcolor hvisit
          exact ih hrest hdone₁ ((hgrown.whites_le nodes).trans hdepth)

/-- A depth of as many nodes as are white is never reached. -/
theorem visit_depth (hnodes : ∀ a ∈ nodes, ∀ b ∈ next a, b ∈ nodes) {depth depth' : Nat} (path : List α) (hmem : node ∈ nodes)
    (hdone : Done next color) (hwhite : color node = .white) (hdepth : whites nodes color ≤ depth) (hdepth' : depth ≤ depth') :
    visit next depth path node color = visit next depth' path node color := by
  induction depth generalizing depth' path node color with
  | zero =>
    have hlt := whites_start hmem hwhite
    omega
  | succ depth ih =>
    obtain ⟨depth', rfl⟩ : ∃ d, depth' = d + 1 := ⟨depth' - 1, by omega⟩
    have hlt := whites_start hmem hwhite
    have hsame := scan_congr (g := visit next depth' (path ++ [node])) (visit_none next depth (path ++ [node]))
      (path ++ [node]) (fun n hn => hnodes node hmem n hn)
      (fun n color hn hdone hwhite hle => ih (path ++ [node]) hn hdone hwhite hle (by omega)) (hdone.start hwhite) (by omega)
    rw [visit, visit, hsame]

theorem visitRoots_depth (hnodes : ∀ a ∈ nodes, ∀ b ∈ next a, b ∈ nodes) (hroots : ∀ a ∈ roots, a ∈ nodes) {depth depth' : Nat}
    (hdepth : whites nodes color ≤ depth) (hdepth' : depth ≤ depth') (hdone : Done next color) :
    visitRoots next depth roots color = visitRoots next depth' roots color := by
  induction roots generalizing color with
  | nil => rfl
  | cons root roots ih =>
    have hrest : ∀ a ∈ roots, a ∈ nodes := fun a ha => hroots a (List.mem_cons_of_mem _ ha)
    rw [visitRoots, visitRoots]
    by_cases hwhite : color root = .white
    · rw [if_pos hwhite, if_pos hwhite, ← visit_depth hnodes [] (hroots root (by simp)) hdone hwhite hdepth hdepth']
      cases hvisit : visit next depth [] root color with
      | mk found color₁ =>
        cases found with
        | some cycle => rfl
        | none =>
          obtain ⟨hdone₁, hgrown, -⟩ := visit_none next depth [] root color color₁ hdone hwhite hvisit
          exact ih hrest ((hgrown.whites_le nodes).trans hdepth) hdone₁
    · rw [if_neg hwhite, if_neg hwhite]
      exact ih hrest hdepth hdone

/-! ## The whole search -/

omit [DecidableEq α] in
theorem done_white (next : α → List α) : Done next fun _ => Color.white := ⟨nofun, nofun⟩

theorem mem_allNodes {a : α} : a ∈ allNodes next roots ↔ a ∈ roots ∨ ∃ b ∈ roots, a ∈ next b := by
  simp [allNodes]

/-- The nodes that lead on are roots, so that an edge does not lead out of the graph. -/
theorem allNodes_closed (hroots : ∀ a, next a ≠ [] → a ∈ roots) :
    ∀ a ∈ allNodes next roots, ∀ b ∈ next a, b ∈ allNodes next roots := by
  intro a _ b hb
  exact mem_allNodes.mpr (Or.inr ⟨a, hroots a (List.ne_nil_of_mem hb), hb⟩)

omit [DecidableEq α] in
theorem whites_white (nodes : Finset α) : whites nodes (fun _ => Color.white) = nodes.card := by
  simp [whites]

/-- What is found goes along edges and ends where it begins. -/
theorem findCycle_closes (hroots : ∀ a, next a ≠ [] → a ∈ roots) (h : findCycle next roots = some cycle) : Closes next cycle :=
  visitRoots_closed (allNodes_closed hroots) (fun a ha => mem_allNodes.mpr (Or.inl ha)) (whites_white _).le (done_white next)
    ⟨by simp, List.isChain_nil⟩ h

/-- The search finds no cycle exactly when there is none. -/
theorem findCycle_eq_none (hroots : ∀ a, next a ≠ [] → a ∈ roots) :
    findCycle next roots = none ↔ Acyclic next := by
  constructor
  · intro h a hcycle
    obtain ⟨color', hdone', -, hall⟩ := visitRoots_none (done_white next) h
    -- a node on a cycle leads on, so it is a root
    obtain ⟨b, hab, -⟩ := Relation.TransGen.head'_iff.mp hcycle
    have hmem : a ∈ roots := hroots a (List.ne_nil_of_mem hab)
    exact hdone'.acyclic a (hall a hmem (by simp)) hcycle
  · intro hacyclic
    cases h : findCycle next roots with
    | none => rfl
    | some cycle => exact absurd hacyclic (findCycle_closes hroots h).not_acyclic

/-- The search visits no deeper than there are nodes. -/
theorem findCycle_depth (hroots : ∀ a, next a ≠ [] → a ∈ roots) (hdepth : (allNodes next roots).card ≤ depth) :
    visitRoots next depth roots (fun _ => .white) = findCycle next roots :=
  (visitRoots_depth (allNodes_closed hroots) (fun _ ha => mem_allNodes.mpr (Or.inl ha)) (whites_white _).le hdepth
    (done_white next)).symm

end DepthFirst

end Opsense
