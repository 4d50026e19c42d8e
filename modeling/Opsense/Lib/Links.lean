import Mathlib.Data.List.Basic
import Mathlib.Data.List.Nodup
import Mathlib.Logic.Function.Basic

/-!
# Linked lists threaded through an index type

The lists of an arena are not stored: each node holds the index of the next node and of the previous one, and whoever owns
a list holds its two ends. `Links.Seg` says which lists of indices such links spell, and the lemmas say what the two edits
of such a list do to it: cutting a node out (`Dll.unlink`) and putting a node in front (`Dll.pushFront`). An edit writes
only links of the nodes at the seam, so the other lists of the arena stay what they were (`Dll.congr`).
-/

namespace Opsense

/-- The forward and backward links of the nodes of an arena. -/
@[ext] structure Links (ι : Type*) where
  next : ι → Option ι
  prev : ι → Option ι

/-- The two ends of a list, as its owner holds them. -/
@[ext] structure Ends (ι : Type*) where
  first : Option ι
  last : Option ι
deriving DecidableEq, Repr

namespace Links

variable {ι : Type*} [DecidableEq ι]

/-- Write the forward link of a node. -/
def setNext (L : Links ι) (i : ι) (x : Option ι) : Links ι := { L with next := Function.update L.next i x }

/-- Write the backward link of a node. -/
def setPrev (L : Links ι) (i : ι) (x : Option ι) : Links ι := { L with prev := Function.update L.prev i x }

@[simp] theorem setNext_prev (L : Links ι) (i : ι) (x : Option ι) : (L.setNext i x).prev = L.prev := rfl

@[simp] theorem setPrev_next (L : Links ι) (i : ι) (x : Option ι) : (L.setPrev i x).next = L.next := rfl

@[simp] theorem setNext_next (L : Links ι) (i j : ι) (x : Option ι) :
    (L.setNext i x).next j = if j = i then x else L.next j := by
  simp [setNext, Function.update_apply]

@[simp] theorem setPrev_prev (L : Links ι) (i j : ι) (x : Option ι) :
    (L.setPrev i x).prev j = if j = i then x else L.prev j := by
  simp [setPrev, Function.update_apply]

/-! ## Segments -/

omit [DecidableEq ι] in
/-- The nodes `xs` are linked one after the other, with `p` before the first and `q` after the last. -/
def Seg (L : Links ι) : Option ι → List ι → Option ι → Prop
  | _, [], _ => True
  | p, a :: xs, q => L.prev a = p ∧ L.next a = xs.head?.or q ∧ Seg L (some a) xs q

variable {L : Links ι} {p q : Option ι}

omit [DecidableEq ι] in
/-- Two linked lists one after the other: each is linked, and the seam points both ways. -/
theorem seg_append {xs ys : List ι} :
    L.Seg p (xs ++ ys) q ↔ L.Seg p xs (ys.head?.or q) ∧ L.Seg (xs.getLast?.or p) ys q := by
  induction xs generalizing p with
  | nil => simp [Seg]
  | cons a xs ih =>
    have hl : (a :: xs).getLast?.or p = xs.getLast?.or (some a) := by
      cases h : xs.getLast? <;> simp [List.getLast?_cons, h]
    rw [List.cons_append, Seg, Seg, ih, hl, List.head?_append, Option.or_assoc]
    exact ⟨fun ⟨h1, h2, h3, h4⟩ => ⟨⟨h1, h2, h3⟩, h4⟩, fun ⟨⟨h1, h2, h3⟩, h4⟩ => ⟨h1, h2, h3, h4⟩⟩

variable {xs : List ι}

omit [DecidableEq ι] in
/-- A segment reads only the links of its own nodes. -/
theorem Seg.congr {L L' : Links ι} (h : L.Seg p xs q) (hn : ∀ i ∈ xs, L'.next i = L.next i) (hp : ∀ i ∈ xs, L'.prev i = L.prev i) :
    L'.Seg p xs q := by
  induction xs generalizing p with
  | nil => trivial
  | cons a xs ih =>
    obtain ⟨h1, h2, h3⟩ := h
    refine ⟨(hp a List.mem_cons_self).trans h1, (hn a List.mem_cons_self).trans h2, ih h3 ?_ ?_⟩
    · exact fun i hi => hn i (List.mem_cons_of_mem _ hi)
    · exact fun i hi => hp i (List.mem_cons_of_mem _ hi)

/-- Writing a link of a node outside a segment leaves the segment as it was. -/
theorem Seg.setNext_of_notMem {i : ι} {x : Option ι} (h : L.Seg p xs q) (hi : i ∉ xs) : (L.setNext i x).Seg p xs q :=
  h.congr (fun j hj => by simp [show j ≠ i from fun e => hi (e ▸ hj)]) (fun _ _ => rfl)

theorem Seg.setPrev_of_notMem {i : ι} {x : Option ι} (h : L.Seg p xs q) (hi : i ∉ xs) : (L.setPrev i x).Seg p xs q :=
  h.congr (fun _ _ => rfl) (fun j hj => by simp [show j ≠ i from fun e => hi (e ▸ hj)])

/-- Writing the forward link of the last node of a segment changes what the segment ends in. -/
theorem Seg.setNext_last {p q r : Option ι} {b : ι} (h : L.Seg p xs q) (hb : xs.getLast? = some b) (hnd : xs.Nodup) :
    (L.setNext b r).Seg p xs r := by
  obtain ⟨ys, rfl⟩ := List.getLast?_eq_some_iff.mp hb
  have hbys : b ∉ ys := by
    intro hmem
    exact (List.nodup_append.mp hnd).2.2 b hmem b List.mem_cons_self rfl
  rw [seg_append] at h ⊢
  obtain ⟨h1, h2, -, -⟩ := h
  refine ⟨?_, h2, ?_, trivial⟩
  · exact Seg.setNext_of_notMem h1 hbys
  · simp

/-- Writing the backward link of the first node of a segment changes what the segment begins after. -/
theorem Seg.setPrev_first {p q r : Option ι} {b : ι} (h : L.Seg p xs q) (hb : xs.head? = some b) (hnd : xs.Nodup) :
    (L.setPrev b r).Seg r xs q := by
  obtain ⟨ys, rfl⟩ := List.head?_eq_some_iff.mp hb
  obtain ⟨-, h2, h3⟩ := h
  exact ⟨by simp, h2, Seg.setPrev_of_notMem h3 (List.nodup_cons.mp hnd).1⟩

/-! ## The two edits -/

/-- The forward link of `p` becomes `n`, where there is a `p`. -/
def linkNext (L : Links ι) (p n : Option ι) : Links ι :=
  match p with
  | some p => L.setNext p n
  | none => L

/-- The backward link of `n` becomes `p`, where there is an `n`. -/
def linkPrev (L : Links ι) (p n : Option ι) : Links ι :=
  match n with
  | some n => L.setPrev n p
  | none => L

@[simp] theorem linkNext_none (L : Links ι) (n : Option ι) : L.linkNext none n = L := rfl

@[simp] theorem linkPrev_none (L : Links ι) (p : Option ι) : L.linkPrev p none = L := rfl

theorem linkNext_next_of_ne {p n : Option ι} {i : ι} (h : p ≠ some i) :
    (L.linkNext p n).next i = L.next i := by
  cases p with
  | none => rfl
  | some p => simp [linkNext, show i ≠ p from fun e => h (e ▸ rfl)]

@[simp] theorem linkNext_prev (L : Links ι) (p n : Option ι) : (L.linkNext p n).prev = L.prev := by
  cases p <;> rfl

theorem linkPrev_prev_of_ne {p n : Option ι} {i : ι} (h : n ≠ some i) :
    (L.linkPrev p n).prev i = L.prev i := by
  cases n with
  | none => rfl
  | some n => simp [linkPrev, show i ≠ n from fun e => h (e ▸ rfl)]

@[simp] theorem linkPrev_next (L : Links ι) (p n : Option ι) : (L.linkPrev p n).next = L.next := by
  cases n <;> rfl

/-- Joining two segments of one list without the node that was between them. -/
theorem Seg.join {xs ys : List ι} {a : ι} (h : L.Seg none (xs ++ a :: ys) none) (hnd : (xs ++ a :: ys).Nodup) :
    ((L.linkNext xs.getLast? ys.head?).linkPrev xs.getLast? ys.head?).Seg none (xs ++ ys) none := by
  obtain ⟨hx, -, -, hy⟩ := seg_append.mp h
  have hdis := (List.nodup_append.mp hnd).2.2
  have hndx := (List.nodup_append.mp hnd).1
  have hndy := (List.nodup_cons.mp (List.nodup_append.mp hnd).2.1).2
  rw [seg_append, Option.or_none, Option.or_none]
  refine ⟨?_, ?_⟩
  · -- the first part: its last node now points past the cut, and the second write is to a node of the other part
    have h1 : (L.linkNext xs.getLast? ys.head?).Seg none xs ys.head? := by
      cases hb : xs.getLast? with
      | none => rw [List.getLast?_eq_none_iff.mp hb]; trivial
      | some b => exact hx.setNext_last hb hndx
    cases hc : ys.head? with
    | none => simpa [linkPrev, hc] using h1
    | some c =>
      rw [hc] at h1
      refine Seg.setPrev_of_notMem h1 fun hmem => hdis c hmem c ?_ rfl
      exact List.mem_cons_of_mem _ (List.mem_of_mem_head? hc)
  · have h1 : (L.linkNext xs.getLast? ys.head?).Seg (some a) ys none := by
      refine hy.congr (fun i hi => linkNext_next_of_ne fun e => ?_) (by simp)
      exact hdis i (List.mem_of_getLast? e) i (List.mem_cons_of_mem _ hi) rfl
    cases hc : ys.head? with
    | none => rw [List.head?_eq_none_iff.mp hc]; trivial
    | some c => rw [hc] at h1; exact h1.setPrev_first hc hndy

/-! ## Forward lists -/

omit [DecidableEq ι] in
/-- The nodes `xs` are linked forward, from the head `h` to the end. -/
def NextSeg (L : Links ι) : Option ι → List ι → Prop
  | h, [] => h = none
  | h, a :: xs => h = some a ∧ NextSeg L (L.next a) xs

omit [DecidableEq ι] in
theorem NextSeg.congr {L L' : Links ι} {h : Option ι} (hs : L.NextSeg h xs) (hn : ∀ i ∈ xs, L'.next i = L.next i) : L'.NextSeg h xs := by
  induction xs generalizing h with
  | nil => exact hs
  | cons a xs ih =>
    obtain ⟨h1, h2⟩ := hs
    refine ⟨h1, ih ?_ fun i hi => hn i (List.mem_cons_of_mem _ hi)⟩
    rw [hn a List.mem_cons_self]
    exact h2

omit [DecidableEq ι] in
/-- Consecutive indices, each linked to the next below `n`, are a forward list. -/
theorem NextSeg.range' {L : Links ℕ} {n : ℕ} (hL : ∀ i, i < n → L.next i = if i + 1 < n then some (i + 1) else none) :
    ∀ a k, a + k = n → L.NextSeg (if a < n then some a else none) (List.range' a k) := by
  intro a k
  induction k generalizing a with
  | zero =>
    intro h
    exact if_neg (by omega)
  | succ k ih =>
    intro h
    have ha : a < n := by omega
    refine ⟨if_pos ha, ?_⟩
    rw [hL a ha]
    exact ih (a + 1) (by omega)

/-- Pushing a node in front of a forward list it is not in. -/
theorem NextSeg.push {h : Option ι} {i : ι} (hs : L.NextSeg h xs) (hi : i ∉ xs) :
    (L.setNext i h).NextSeg (some i) (i :: xs) := by
  refine ⟨rfl, ?_⟩
  have hih : (L.setNext i h).next i = h := by simp
  rw [hih]
  exact hs.congr fun j hj => by simp [show j ≠ i from fun e => hi (e ▸ hj)]

end Links

/-! ## Doubly linked lists with their ends -/

section Dll

variable {ι : Type*} [DecidableEq ι]

omit [DecidableEq ι] in
/-- The ends `e` and the links `L` spell the list `xs`, each node once. -/
structure Dll (L : Links ι) (e : Ends ι) (xs : List ι) : Prop where
  first : e.first = xs.head?
  last : e.last = xs.getLast?
  seg : L.Seg none xs none
  nodup : xs.Nodup

variable {e : Ends ι}

omit [DecidableEq ι] in
/-- A list reads only the links of its own nodes. -/
theorem Dll.congr {L L' : Links ι} {xs : List ι} (h : Dll L e xs) (hn : ∀ i ∈ xs, L'.next i = L.next i)
    (hp : ∀ i ∈ xs, L'.prev i = L.prev i) : Dll L' e xs :=
  ⟨h.first, h.last, h.seg.congr hn hp, h.nodup⟩

omit [DecidableEq ι] in
theorem Dll.empty (L : Links ι) : Dll L ⟨none, none⟩ [] := ⟨rfl, rfl, trivial, List.nodup_nil⟩

variable {L : Links ι} {xs ys : List ι}

omit [DecidableEq ι] in
/-- A node of a list points to its neighbours in it. -/
theorem Dll.prev_next {a : ι} (h : Dll L e (xs ++ a :: ys)) :
    L.prev a = xs.getLast? ∧ L.next a = ys.head? := by
  obtain ⟨-, h2, h3, -⟩ := Links.seg_append.mp h.seg
  exact ⟨by simpa using h2, by simpa using h3⟩

omit [DecidableEq ι] in
theorem sublist_middle (xs ys : List ι) (a : ι) : (xs ++ ys).Sublist (xs ++ a :: ys) :=
  (List.Sublist.refl xs).append (List.sublist_cons_self a ys)

/-- Linking the neighbours of a node of a list writes no link outside the list. -/
theorem Dll.links_outside {a : ι} (h : Dll L e (xs ++ a :: ys)) :
    ∀ i, i ∉ xs ++ a :: ys →
      ((L.linkNext (L.prev a) (L.next a)).linkPrev (L.prev a) (L.next a)).next i = L.next i ∧
      ((L.linkNext (L.prev a) (L.next a)).linkPrev (L.prev a) (L.next a)).prev i = L.prev i := by
  intro i hi
  have hp : L.prev a ≠ some i := by
    rw [h.prev_next.1]
    exact fun e => hi (List.mem_append_left _ (List.mem_of_getLast? e))
  have hn : L.next a ≠ some i := by
    rw [h.prev_next.2]
    exact fun e => hi (List.mem_append_right _ (List.mem_cons_of_mem _ (List.mem_of_mem_head? e)))
  rw [Links.linkPrev_next, Links.linkNext_next_of_ne hp, Links.linkPrev_prev_of_ne hn, Links.linkNext_prev]
  exact ⟨rfl, rfl⟩

/-- The ends after the node `i` with neighbours `p` and `n` is cut out. -/
def Ends.cut (e : Ends ι) (p n : Option ι) : Ends ι :=
  ⟨if p = none then n else e.first, if n = none then p else e.last⟩

/-- Cutting a node out of a list: its neighbours point to each other, and an end that pointed to it points past it. -/
theorem Dll.unlink {a : ι} (h : Dll L e (xs ++ a :: ys)) :
    Dll ((L.linkNext (L.prev a) (L.next a)).linkPrev (L.prev a) (L.next a)) (e.cut (L.prev a) (L.next a))
      (xs ++ ys) := by
  obtain ⟨hp, hn⟩ := h.prev_next
  rw [hp, hn]
  refine ⟨?_, ?_, Links.Seg.join h.seg h.nodup, ?_⟩
  · rw [Ends.cut, h.first]
    cases xs with
    | nil => simp
    | cons b xs => simp
  · rw [Ends.cut, h.last]
    rcases List.eq_nil_or_concat ys with rfl | ⟨ys, b, rfl⟩
    · simp
    · simp [List.getLast?_cons]
  · exact (sublist_middle xs ys a).nodup h.nodup

/-- Putting a node in front of a list it is not in. The node points to the old first node and to nothing before it, and the
old first node points back to it. -/
theorem Dll.pushFront {xs : List ι} {a : ι} (h : Dll L e xs) (ha : a ∉ xs) (l : Option ι) (hl : l = (a :: xs).getLast?) :
    Dll (((L.setNext a e.first).setPrev a none).linkPrev (some a) e.first) ⟨some a, l⟩ (a :: xs) := by
  refine ⟨rfl, hl, ?_, List.nodup_cons.mpr ⟨ha, h.nodup⟩⟩
  have hseg : ((L.setNext a e.first).setPrev a none).Seg none xs none :=
    (h.seg.setNext_of_notMem ha).setPrev_of_notMem ha
  rw [h.first] at hseg ⊢
  refine ⟨?_, ?_, ?_⟩
  · rw [Links.linkPrev_prev_of_ne fun e => ha (List.mem_of_mem_head? e)]
    simp
  · simp
  · cases xs with
    | nil => trivial
    | cons b xs => exact hseg.setPrev_first rfl h.nodup

/-- Moving a node that is not the first to the front: it is cut out and put in front of what is left. The ends keep the
first node until the move has read it, so the new first node points to the old one. -/
theorem Dll.toFront {a : ι} (h : Dll L e (xs ++ a :: ys)) (hne : xs ≠ []) :
    Dll (((((L.linkNext (L.prev a) (L.next a)).linkPrev (L.prev a) (L.next a)).setNext a e.first).setPrev a none).linkPrev
        (some a) e.first) ⟨some a, if some a = e.last then L.prev a else e.last⟩ (a :: (xs ++ ys)) := by
  have ha : a ∉ xs ++ ys := by
    have hp := List.perm_middle.nodup_iff.mp h.nodup
    exact (List.nodup_cons.mp hp).1
  obtain ⟨hp, hn⟩ := h.prev_next
  have hfirst : (e.cut (L.prev a) (L.next a)).first = e.first := by
    have : xs.getLast? ≠ none := by simpa using hne
    simp [Ends.cut, hp, this]
  have hpush := h.unlink.pushFront ha (if some a = e.last then L.prev a else e.last) ?_
  · rwa [hfirst] at hpush
  · rw [h.last, hp]
    rcases List.eq_nil_or_concat ys with rfl | ⟨ys, b, rfl⟩
    · cases hx : xs.getLast? with
      | none => exact absurd (List.getLast?_eq_none_iff.mp hx) hne
      | some b => simp [List.getLast?_cons, hx]
    · have hab : a ≠ b := by
        rintro rfl
        exact ha (by simp)
      simp [List.getLast?_cons, hab]

end Dll

/-! ## Families of lists over one arena -/

section Family

variable {ι σ : Type*}

/-- The lists of an arena: each is spelled by the links and its own ends, and no node is in two of them. -/
structure Family (L : Links ι) (e : σ → Ends ι) (ls : σ → List ι) : Prop where
  dll : ∀ s, Dll L (e s) (ls s)
  disjoint : ∀ s t i, i ∈ ls s → i ∈ ls t → s = t

variable {e : σ → Ends ι} {ls : σ → List ι}

/-- An edit of one list of a family that writes no link outside its own nodes, old and new, keeps the family, as long as
the new nodes are in no other list. -/
theorem Family.update [DecidableEq σ] {L L' : Links ι} (h : Family L e ls) {s : σ} {e' : Ends ι} {xs : List ι} (hd : Dll L' e' xs)
    (hnew : ∀ i ∈ xs, ∀ t, i ∈ ls t → t = s) (hn : ∀ i, i ∉ ls s → i ∉ xs → L'.next i = L.next i)
    (hp : ∀ i, i ∉ ls s → i ∉ xs → L'.prev i = L.prev i) :
    Family L' (Function.update e s e') (Function.update ls s xs) := by
  have hoff : ∀ t, t ≠ s → ∀ i ∈ ls t, i ∉ ls s ∧ i ∉ xs := by
    intro t ht i hi
    exact ⟨fun his => ht (h.disjoint t s i hi his), fun hix => ht (hnew i hix t hi)⟩
  refine ⟨fun t => ?_, fun t u i ht hu => ?_⟩
  · by_cases hts : t = s
    · subst hts
      simpa using hd
    · rw [Function.update_of_ne hts, Function.update_of_ne hts]
      exact (h.dll t).congr (fun i hi => hn i (hoff t hts i hi).1 (hoff t hts i hi).2)
        (fun i hi => hp i (hoff t hts i hi).1 (hoff t hts i hi).2)
  · by_cases hts : t = s <;> by_cases hus : u = s
    · rw [hts, hus]
    · subst hts
      rw [Function.update_self] at ht
      rw [Function.update_of_ne hus] at hu
      exact absurd ht (hoff u hus i hu).2
    · subst hus
      rw [Function.update_self] at hu
      rw [Function.update_of_ne hts] at ht
      exact absurd hu (hoff t hts i ht).2
    · rw [Function.update_of_ne hts] at ht
      rw [Function.update_of_ne hus] at hu
      exact h.disjoint t u i ht hu

/-- A family reads only the links of the nodes of its lists. -/
theorem Family.congr {L L' : Links ι} (h : Family L e ls) (hn : ∀ s, ∀ i ∈ ls s, L'.next i = L.next i)
    (hp : ∀ s, ∀ i ∈ ls s, L'.prev i = L.prev i) : Family L' e ls :=
  ⟨fun s => (h.dll s).congr (hn s) (hp s), h.disjoint⟩

variable [DecidableEq ι] [DecidableEq σ]

/-- Cutting a node out of one list of a family. -/
theorem Family.unlink {L : Links ι} (h : Family L e ls) {s : σ} {xs ys : List ι} {a : ι} (hs : ls s = xs ++ a :: ys) :
    Family ((L.linkNext (L.prev a) (L.next a)).linkPrev (L.prev a) (L.next a))
      (Function.update e s ((e s).cut (L.prev a) (L.next a))) (Function.update ls s (xs ++ ys)) := by
  have hd : Dll L (e s) (xs ++ a :: ys) := hs ▸ h.dll s
  have hmem : ∀ i ∈ xs ++ ys, i ∈ ls s := hs ▸ (sublist_middle xs ys a).subset
  refine h.update hd.unlink (fun i hi t ht => h.disjoint t s i ht (hmem i hi)) ?_ ?_
  · exact fun i hi _ => (hd.links_outside i (hs ▸ hi)).1
  · exact fun i hi _ => (hd.links_outside i (hs ▸ hi)).2

/-- Moving a node of one list of a family to its front. -/
theorem Family.toFront {L : Links ι} (h : Family L e ls) {s : σ} {xs ys : List ι} {a : ι} (hs : ls s = xs ++ a :: ys) (hne : xs ≠ []) :
    Family (((((L.linkNext (L.prev a) (L.next a)).linkPrev (L.prev a) (L.next a)).setNext a (e s).first).setPrev a
        none).linkPrev (some a) (e s).first)
      (Function.update e s ⟨some a, if some a = (e s).last then L.prev a else (e s).last⟩)
      (Function.update ls s (a :: (xs ++ ys))) := by
  have hd : Dll L (e s) (xs ++ a :: ys) := hs ▸ h.dll s
  have ha : a ∈ ls s := by rw [hs]; simp
  have hmem : ∀ i ∈ xs ++ ys, i ∈ ls s := hs ▸ (sublist_middle xs ys a).subset
  refine h.update (hd.toFront hne) (fun i hi t ht => ?_) (fun i hi _ => ?_) (fun i hi _ => ?_)
  · rcases List.mem_cons.mp hi with rfl | hi
    · exact h.disjoint t s _ ht ha
    · exact h.disjoint t s i ht (hmem i hi)
  · have hia : i ≠ a := fun e => hi (e ▸ ha)
    simp [hia, (hd.links_outside i (hs ▸ hi)).1]
  · have hia : i ≠ a := fun e => hi (e ▸ ha)
    have hfirst : (e s).first ≠ some i := by
      rw [(h.dll s).first]
      exact fun e => hi (List.mem_of_mem_head? e)
    rw [Links.linkPrev_prev_of_ne hfirst]
    simp [hia, (hd.links_outside i (hs ▸ hi)).2]

/-- Putting a node that is in no list in front of one list of a family. -/
theorem Family.pushFront {L : Links ι} (h : Family L e ls) {s : σ} {a : ι} (ha : ∀ t, a ∉ ls t) (l : Option ι)
    (hl : l = (a :: ls s).getLast?) :
    Family (((L.setNext a (e s).first).setPrev a none).linkPrev (some a) (e s).first) (Function.update e s ⟨some a, l⟩)
      (Function.update ls s (a :: ls s)) := by
  refine h.update ((h.dll s).pushFront (ha s) l hl) (fun i hi t ht => ?_) (fun i _ hi => ?_) (fun i hs hi => ?_)
  · rcases List.mem_cons.mp hi with rfl | hi
    · exact absurd ht (ha t)
    · exact h.disjoint t s i ht hi
  · have hia : i ≠ a := fun e => hi (e ▸ List.mem_cons_self)
    simp [hia]
  · have hia : i ≠ a := fun e => hi (e ▸ List.mem_cons_self)
    have hfirst : (e s).first ≠ some i := by
      rw [(h.dll s).first]
      exact fun e => hs (List.mem_of_mem_head? e)
    rw [Links.linkPrev_prev_of_ne hfirst]
    simp [hia]

omit [DecidableEq ι] in
/-- All nodes of a family of lists, with one list replaced: the new list and the nodes of the others. -/
theorem flatMap_update_perm {l : List σ} (hl : l.Nodup) {s : σ} (hs : s ∈ l) (ls : σ → List ι) (xs : List ι) :
    (l.flatMap (Function.update ls s xs)).Perm (xs ++ (l.erase s).flatMap ls) := by
  have hperm := (List.perm_cons_erase hs).flatMap_right (Function.update ls s xs)
  have hrest : (l.erase s).flatMap (Function.update ls s xs) = (l.erase s).flatMap ls := by
    refine List.flatMap_congr fun t ht => ?_
    have hts : t ≠ s := (hl.mem_erase_iff.mp ht).1
    rw [Function.update_of_ne hts]
  rwa [List.flatMap_cons, Function.update_self, hrest] at hperm

omit [DecidableEq ι] in
/-- All nodes of a family of lists: those of one list and those of the others. -/
theorem flatMap_perm {l : List σ} (hl : l.Nodup) {s : σ} (hs : s ∈ l) (ls : σ → List ι) :
    (l.flatMap ls).Perm (ls s ++ (l.erase s).flatMap ls) := by
  have h := flatMap_update_perm hl hs ls (ls s)
  rwa [Function.update_eq_self] at h

end Family

end Opsense
