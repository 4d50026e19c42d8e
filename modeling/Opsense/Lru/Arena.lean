import Mathlib.Data.List.Count
import Opsense.Lru.Cache

/-!
# The lists of the arena

What the operations do to the links. `Chains` says that the free list and the lists of the shards hold every node of the
arena once, but for the nodes an operation has in hand; each piece of an operation takes one such state to the next.
Moving a node between lists changes no entry (`SameEntries`), so these lemmas and the ones about entries never meet.
-/

namespace Opsense

namespace LruCache

variable {K V : Type} [DecidableEq K] {S : Nat}

/-! ## What the writes change -/

section Writes

variable (c : LruCache K V S) (i j : Nat) (x p n : Option Nat) (s : Fin S) (ht : HeadTail)

omit [DecidableEq K]

@[simp] theorem links_setNext : (c.setNext i x).links = c.links.setNext i x := by
  ext1
  · funext j
    by_cases hj : j = i <;> simp [links, setNext, Function.update_apply, hj]
  · funext j
    by_cases hj : j = i <;> simp [links, setNext, Function.update_apply, hj]

@[simp] theorem links_setPrev : (c.setPrev i x).links = c.links.setPrev i x := by
  ext1
  · funext j
    by_cases hj : j = i <;> simp [links, setPrev, Function.update_apply, hj]
  · funext j
    by_cases hj : j = i <;> simp [links, setPrev, Function.update_apply, hj]

@[simp] theorem links_setValue (v : Option V) : (c.setValue i v).links = c.links := by
  ext1 <;> funext j <;> by_cases hj : j = i <;> simp [links, setValue, Function.update_apply, hj]

@[simp] theorem links_setEntry (k : Option K) (v : Option V) : (c.setEntry i k v).links = c.links := by
  ext1 <;> funext j <;> by_cases hj : j = i <;> simp [links, setEntry, Function.update_apply, hj]

@[simp] theorem links_setShard : (c.setShard s ht).links = c.links := rfl

@[simp] theorem links_withFreeHead : ({ c with freeHead := x } : LruCache K V S).links = c.links := rfl

@[simp] theorem links_withMapping (m : AList (fun _ : K => Nat)) :
    ({ c with mapping := m } : LruCache K V S).links = c.links := rfl

@[simp] theorem links_linkNext : (c.linkNext p n).links = c.links.linkNext p n := by
  cases p with
  | none => rfl
  | some p => exact links_setNext c p n

@[simp] theorem links_linkPrev : (c.linkPrev p n).links = c.links.linkPrev p n := by
  cases n with
  | none => rfl
  | some n => exact links_setPrev c n p

@[simp] theorem shards_setNext : (c.setNext i x).shards = c.shards := rfl

@[simp] theorem shards_setPrev : (c.setPrev i x).shards = c.shards := rfl

@[simp] theorem shards_setValue (v : Option V) : (c.setValue i v).shards = c.shards := rfl

@[simp] theorem shards_setEntry (k : Option K) (v : Option V) : (c.setEntry i k v).shards = c.shards := rfl

@[simp] theorem shards_setShard : (c.setShard s ht).shards = Function.update c.shards s ht := rfl

@[simp] theorem shards_linkNext : (c.linkNext p n).shards = c.shards := by cases p <;> rfl

@[simp] theorem shards_linkPrev : (c.linkPrev p n).shards = c.shards := by cases n <;> rfl

end Writes

/-- Two caches hold the same entries at the same nodes, under the same mapping. Moving nodes between lists changes none of
this. -/
structure SameEntries (c c' : LruCache K V S) : Prop where
  mapping : c'.mapping = c.mapping
  len : c'.len = c.len
  key : ∀ i, (c'.caching i).key = (c.caching i).key
  value : ∀ i, (c'.caching i).value = (c.caching i).value

omit [DecidableEq K] in
theorem SameEntries.rfl' (c : LruCache K V S) : SameEntries c c := ⟨rfl, rfl, fun _ => rfl, fun _ => rfl⟩

omit [DecidableEq K] in
theorem SameEntries.trans {c c' c'' : LruCache K V S} (h : SameEntries c c') (h' : SameEntries c' c'') :
    SameEntries c c'' :=
  ⟨h'.mapping.trans h.mapping, h'.len.trans h.len, fun i => (h'.key i).trans (h.key i),
    fun i => (h'.value i).trans (h.value i)⟩

omit [DecidableEq K] in
theorem SameEntries.setNext (c : LruCache K V S) (i : Nat) (x : Option Nat) : SameEntries c (c.setNext i x) := by
  refine ⟨rfl, rfl, fun j => ?_, fun j => ?_⟩ <;> by_cases hj : j = i <;> simp [LruCache.setNext, hj]

omit [DecidableEq K] in
theorem SameEntries.setPrev (c : LruCache K V S) (i : Nat) (x : Option Nat) : SameEntries c (c.setPrev i x) := by
  refine ⟨rfl, rfl, fun j => ?_, fun j => ?_⟩ <;> by_cases hj : j = i <;> simp [LruCache.setPrev, hj]

omit [DecidableEq K] in
theorem SameEntries.setShard (c : LruCache K V S) (s : Fin S) (ht : HeadTail) : SameEntries c (c.setShard s ht) :=
  ⟨rfl, rfl, fun _ => rfl, fun _ => rfl⟩

omit [DecidableEq K] in
theorem SameEntries.linkNext (c : LruCache K V S) (p n : Option Nat) : SameEntries c (c.linkNext p n) := by
  cases p with
  | none => exact rfl' c
  | some p => exact SameEntries.setNext c p n

omit [DecidableEq K] in
theorem SameEntries.linkPrev (c : LruCache K V S) (p n : Option Nat) : SameEntries c (c.linkPrev p n) := by
  cases n with
  | none => exact rfl' c
  | some n => exact SameEntries.setPrev c n p

/-! ## Moving a node to the front -/

section MoveToFront

omit [DecidableEq K]

variable (c : LruCache K V S) (s : Fin S) (i : Nat)

theorem moveToFront_of_first (h : (c.shards s).first = some i ∨ (c.shards s).first = none) :
    c.moveToFrontInsideLock s i = c := if_pos h

theorem moveToFront_eq (h : ¬ ((c.shards s).first = some i ∨ (c.shards s).first = none)) :
    c.moveToFrontInsideLock s i =
      ((((((c.linkNext (c.links.prev i) (c.links.next i)).linkPrev (c.links.prev i) (c.links.next i)).setNext i
        (c.shards s).first).setPrev i none).linkPrev (some i) (c.shards s).first).setShard s
          ⟨some i, if some i = (c.shards s).last then c.links.prev i else (c.shards s).last⟩) := if_neg h

/-- Moving a node to the front changes no entry. -/
theorem SameEntries.moveToFront : SameEntries c (c.moveToFrontInsideLock s i) := by
  by_cases h : (c.shards s).first = some i ∨ (c.shards s).first = none
  · rw [moveToFront_of_first c s i h]
    exact rfl' c
  · rw [moveToFront_eq c s i h]
    refine SameEntries.trans ?_ (setShard _ _ _)
    refine SameEntries.trans ?_ (linkPrev _ _ _)
    refine SameEntries.trans ?_ (setPrev _ _ _)
    refine SameEntries.trans ?_ (setNext _ _ _)
    exact (linkNext c _ _).trans (linkPrev _ _ _)

@[simp] theorem freeHead_linkNext (p n : Option Nat) : (c.linkNext p n).freeHead = c.freeHead := by cases p <;> rfl

@[simp] theorem freeHead_linkPrev (p n : Option Nat) : (c.linkPrev p n).freeHead = c.freeHead := by cases n <;> rfl

@[simp] theorem freeHead_setNext (x : Option Nat) : (c.setNext i x).freeHead = c.freeHead := rfl

@[simp] theorem freeHead_setPrev (x : Option Nat) : (c.setPrev i x).freeHead = c.freeHead := rfl

@[simp] theorem freeHead_setShard (ht : HeadTail) : (c.setShard s ht).freeHead = c.freeHead := rfl

@[simp] theorem freeHead_moveToFront : (c.moveToFrontInsideLock s i).freeHead = c.freeHead := by
  by_cases h : (c.shards s).first = some i ∨ (c.shards s).first = none
  · rw [moveToFront_of_first c s i h]
  · simp [moveToFront_eq c s i h]

variable {c s i}

/-- Only the node, its neighbours and the first node are written to. -/
theorem moveToFront_links_of_ne {j : Nat} (hj : j ≠ i) (hf : (c.shards s).first ≠ some j)
    (hp : c.links.prev i ≠ some j) (hn : c.links.next i ≠ some j) :
    (c.moveToFrontInsideLock s i).links.next j = c.links.next j ∧
    (c.moveToFrontInsideLock s i).links.prev j = c.links.prev j := by
  by_cases h : (c.shards s).first = some i ∨ (c.shards s).first = none
  · rw [moveToFront_of_first c s i h]
    exact ⟨rfl, rfl⟩
  · rw [moveToFront_eq c s i h]
    simp only [links_setShard, links_linkPrev, links_setPrev, links_setNext, links_linkNext]
    rw [Links.linkPrev_next, Links.linkPrev_prev_of_ne hf]
    simp [hj, Links.linkNext_next_of_ne hp, Links.linkPrev_prev_of_ne hn]

/-- In the list of a shard, the node becomes the first one. -/
theorem family_moveToFront {ls : Fin S → List Nat} (h : Family c.links c.shards ls) {xs ys : List Nat}
    (hs : ls s = xs ++ i :: ys) :
    Family (c.moveToFrontInsideLock s i).links (c.moveToFrontInsideLock s i).shards
      (Function.update ls s (i :: (xs ++ ys))) := by
  have hfirst : (c.shards s).first = (ls s).head? := (h.dll s).first
  by_cases hxs : xs = []
  · -- the node is the first one already
    subst hxs
    have hls : Function.update ls s (i :: ([] ++ ys)) = ls := by
      rw [List.nil_append] at hs ⊢
      rw [← hs, Function.update_eq_self]
    rw [hls, moveToFront_of_first c s i (Or.inl (by rw [hfirst, hs]; rfl))]
    exact h
  · have hne : ¬ ((c.shards s).first = some i ∨ (c.shards s).first = none) := by
      obtain ⟨b, xs, rfl⟩ := List.exists_cons_of_ne_nil hxs
      have hnd := (h.dll s).nodup
      rw [hs] at hnd
      rw [hfirst, hs]
      rintro (hb | hb)
      · rw [List.cons_append, List.head?_cons, Option.some.injEq] at hb
        subst hb
        exact (List.nodup_cons.mp hnd).1 (by simp)
      · simp at hb
    rw [moveToFront_eq c s i hne]
    simpa using h.toFront hs hxs

/-- A node of no list that links to nothing joins the front of a list that is not empty. -/
theorem family_moveToFront_loose {ls : Fin S → List Nat} (h : Family c.links c.shards ls) (hi : ∀ t, i ∉ ls t)
    (hp : c.links.prev i = none) (hn : c.links.next i = none) (hne : ls s ≠ []) :
    Family (c.moveToFrontInsideLock s i).links (c.moveToFrontInsideLock s i).shards
      (Function.update ls s (i :: ls s)) := by
  have hlast : (c.shards s).last = (ls s).getLast? := (h.dll s).last
  have hne' : ¬ ((c.shards s).first = some i ∨ (c.shards s).first = none) := by
    rw [(h.dll s).first]
    rintro (hb | hb)
    · exact hi s (List.mem_of_mem_head? hb)
    · exact hne (List.head?_eq_none_iff.mp hb)
  have hil : some i ≠ (c.shards s).last := by
    rw [hlast]
    exact fun e => hi s (List.mem_of_getLast? e.symm)
  rw [moveToFront_eq c s i hne', hp, hn, if_neg hil]
  have hl : (c.shards s).last = (i :: ls s).getLast? := by
    obtain ⟨b, hb⟩ := Option.ne_none_iff_exists'.mp (mt List.getLast?_eq_none_iff.mp hne)
    rw [hlast, List.getLast?_cons, hb]
    rfl
  have hpush := h.pushFront hi (c.shards s).last hl
  simpa using hpush

end MoveToFront

/-! ## The pieces of the operations on a shared arena -/

namespace Shared

omit [DecidableEq K]

theorem sameEntries_unlink (c : LruCache K V S) (s : Fin S) (i : Nat) : SameEntries c (unlinkInsideLock c s i) := by
  unfold unlinkInsideLock
  refine SameEntries.trans ?_ (SameEntries.setNext _ i none)
  refine SameEntries.trans ?_ (SameEntries.setPrev _ i none)
  refine SameEntries.trans ?_ (SameEntries.setShard _ s _)
  exact (SameEntries.linkNext c _ _).trans (SameEntries.linkPrev _ _ _)

theorem links_unlink (c : LruCache K V S) (s : Fin S) (i : Nat) : (unlinkInsideLock c s i).links =
    ((((c.links.linkNext (c.links.prev i) (c.links.next i)).linkPrev (c.links.prev i) (c.links.next i)).setPrev i
      none).setNext i none) := by
  unfold unlinkInsideLock
  simp only [links_setNext, links_setPrev, links_setShard, links_linkPrev, links_linkNext]
  rfl

theorem shards_unlink (c : LruCache K V S) (s : Fin S) (i : Nat) : (unlinkInsideLock c s i).shards =
    Function.update c.shards s ((c.shards s).cut (c.links.prev i) (c.links.next i)) := by
  unfold unlinkInsideLock
  simp only [shards_setNext, shards_setPrev, shards_setShard, shards_linkPrev, shards_linkNext]
  rfl

theorem freeHead_unlink (c : LruCache K V S) (s : Fin S) (i : Nat) : (unlinkInsideLock c s i).freeHead = c.freeHead := by
  unfold unlinkInsideLock
  simp

theorem sameEntries_joinShard (c : LruCache K V S) (s : Fin S) (i : Nat) : SameEntries c (joinShard c s i) := by
  unfold joinShard
  split_ifs
  · exact ((SameEntries.setPrev c i none).trans (SameEntries.setNext _ i none)).trans (SameEntries.setShard _ s _)
  · exact SameEntries.moveToFront c s i

theorem sameEntries_freePush (c : LruCache K V S) (i : Nat) : SameEntries c (freePush c i) := by
  refine (SameEntries.setNext c i c.freeHead).trans ?_
  exact ⟨rfl, rfl, fun _ => rfl, fun _ => rfl⟩

/-- The free list `free` and the lists `ls` of the shards hold every node of the arena once, but for the nodes `loose`
that an operation has in hand. Nodes outside the lists of the shards do not point back, and a loose node points nowhere. -/
structure Chains (c : LruCache K V S) (loose free : List Nat) (ls : Fin S → List Nat) : Prop where
  freeSeg : c.links.NextSeg c.freeHead free
  family : Family c.links c.shards ls
  cover : (loose ++ free ++ (List.finRange S).flatMap ls).Perm (List.range c.len)
  noPrev : ∀ i ∈ loose ++ free, c.links.prev i = none
  noNext : ∀ i ∈ loose, c.links.next i = none

namespace Chains

variable {c c' : LruCache K V S} {loose free : List Nat} {ls : Fin S → List Nat}

/-- Every node is there once. -/
theorem nodup (h : Chains c loose free ls) : (loose ++ free ++ (List.finRange S).flatMap ls).Nodup :=
  h.cover.nodup_iff.mpr List.nodup_range

theorem notMem_lists (h : Chains c loose free ls) {i : Nat} (hi : i ∈ loose ++ free) (s : Fin S) : i ∉ ls s := by
  intro his
  have hflat : i ∈ (List.finRange S).flatMap ls := List.mem_flatMap.mpr ⟨s, List.mem_finRange s, his⟩
  exact (List.nodup_append.mp h.nodup).2.2 i hi i hflat rfl

theorem notMem_free (h : Chains c loose free ls) {i : Nat} (hi : i ∈ loose) : i ∉ free := by
  intro hif
  exact (List.nodup_append.mp (List.nodup_append.mp h.nodup).1).2.2 i hi i hif rfl

/-- What is read is the links, the ends of the lists, the head of the free list and the size of the arena. -/
theorem congr (h : Chains c loose free ls) (hl : c'.links = c.links) (hs : c'.shards = c.shards)
    (hf : c'.freeHead = c.freeHead) (hn : c'.len = c.len) : Chains c' loose free ls := by
  refine ⟨?_, ?_, ?_, ?_, ?_⟩
  · rw [hl, hf]; exact h.freeSeg
  · rw [hl, hs]; exact h.family
  · rw [hn]; exact h.cover
  · rw [hl]; exact h.noPrev
  · rw [hl]; exact h.noNext

/-- Replacing the list of one shard, with what leaves it or joins it in hand or in the free list. -/
theorem cover_update (h : Chains c loose free ls) {loose' free' : List Nat} {s : Fin S} {xs : List Nat}
    (hcount : ∀ i, (loose' ++ free' ++ xs).count i = (loose ++ free ++ ls s).count i) :
    (loose' ++ free' ++ (List.finRange S).flatMap (Function.update ls s xs)).Perm (List.range c.len) := by
  refine List.Perm.trans ?_ h.cover
  have hnew := flatMap_update_perm (List.nodup_finRange S) (List.mem_finRange s) ls xs
  have hold := flatMap_perm (List.nodup_finRange S) (List.mem_finRange s) ls
  refine List.perm_iff_count.mpr fun i => ?_
  have h1 := List.perm_iff_count.mp hnew i
  have h2 := List.perm_iff_count.mp hold i
  have h3 := hcount i
  simp only [List.count_append] at h1 h2 h3 ⊢
  omega

theorem fresh_next (len i : Nat) (hi : i < len) :
    (freshCaching len i : Node K V).next = if i + 1 < len then some (i + 1) else none := by
  simp [freshCaching, hi]

/-- A cache whose every node is free, linked in order. -/
theorem fresh (c : LruCache K V S) (hc : c.caching = freshCaching c.len) (hs : ∀ s, c.shards s = ⟨none, none⟩)
    (hf : c.freeHead = if c.len = 0 then none else some 0) : Chains c [] (List.range c.len) fun _ => [] := by
  refine ⟨?_, ⟨fun s => ?_, ?_⟩, ?_, ?_, ?_⟩
  · have hhead : c.freeHead = if 0 < c.len then some 0 else none := by
      rw [hf]
      by_cases h0 : c.len = 0
      · simp [h0]
      · rw [if_neg h0, if_pos (Nat.pos_of_ne_zero h0)]
    rw [hhead, List.range_eq_range']
    refine Links.NextSeg.range' (fun i hi => ?_) 0 c.len (Nat.zero_add _)
    simp only [links, hc]
    exact fresh_next c.len i hi
  · rw [hs s]
    exact Dll.empty _
  · intro s t i hi
    simp at hi
  · have hnil : (List.finRange S).flatMap (fun _ => ([] : List Nat)) = [] := List.flatMap_eq_nil_iff.mpr fun _ _ => rfl
    rw [hnil, List.append_nil, List.nil_append]
  · intro i hi
    simp only [links, hc, freshCaching]
    split_ifs <;> rfl
  · intro i hi
    simp at hi

theorem freePop_nil (h : Chains c [] [] ls) : freePop c = none := by
  have hhead : c.freeHead = none := h.freeSeg
  unfold freePop
  rw [hhead]

/-- The head of the free list comes off, into the hands of the caller. -/
theorem freePop_cons {i : Nat} (h : Chains c [] (i :: free) ls) :
    ∃ c', freePop c = some (c', i) ∧ Chains c' [i] free ls ∧ SameEntries c c' := by
  obtain ⟨hhead, hrest⟩ := h.freeSeg
  have hnd : i ∉ free := by
    have := (List.nodup_append.mp h.nodup).1
    exact (List.nodup_cons.mp this).1
  have hi : ∀ s, i ∉ ls s := h.notMem_lists (by simp)
  refine ⟨({ c with freeHead := c.links.next i } : LruCache K V S).setNext i none, ?_, ⟨?_, ?_, ?_, ?_, ?_⟩, ?_⟩
  · unfold freePop
    rw [hhead]
    rfl
  · rw [links_setNext]
    refine hrest.congr fun j hj => ?_
    have hji : j ≠ i := fun e => hnd (e ▸ hj)
    simp [hji]
  · refine Family.congr h.family (fun s j hj => ?_) (fun s j hj => ?_)
    · have hji : j ≠ i := fun e => hi s (e ▸ hj)
      simp [hji]
    · simp
  · exact h.cover
  · intro j hj
    rw [links_setNext, Links.setNext_prev]
    exact h.noPrev j (by simpa using hj)
  · intro j hj
    rw [List.mem_singleton] at hj
    simp [hj]
  · refine SameEntries.trans ?_ (SameEntries.setNext _ i none)
    exact ⟨rfl, rfl, fun _ => rfl, fun _ => rfl⟩

/-- The node in hand goes back to the free list. -/
theorem freePush {i : Nat} (h : Chains c [i] free ls) : Chains (freePush c i) [] (i :: free) ls := by
  have hnd : i ∉ free := h.notMem_free List.mem_cons_self
  have hi : ∀ s, i ∉ ls s := h.notMem_lists (by simp)
  have hlinks : (Shared.freePush c i).links = c.links.setNext i c.freeHead := links_setNext c i _
  refine ⟨?_, ?_, ?_, ?_, ?_⟩
  · rw [hlinks]
    exact h.freeSeg.push hnd
  · rw [hlinks]
    refine Family.congr h.family (fun s j hj => ?_) (fun s j hj => ?_)
    · have hji : j ≠ i := fun e => hi s (e ▸ hj)
      simp [hji]
    · simp
  · exact h.cover
  · intro j hj
    rw [hlinks, Links.setNext_prev]
    exact h.noPrev j (by simpa using hj)
  · intro j hj
    simp at hj

/-- A node cut out of the list of its shard is in hand. -/
theorem unlink (h : Chains c [] free ls) {s : Fin S} {xs ys : List Nat} {i : Nat} (hs : ls s = xs ++ i :: ys) :
    Chains (unlinkInsideLock c s i) [i] free (Function.update ls s (xs ++ ys)) := by
  have hfam := h.family.unlink hs
  have hnd : (xs ++ i :: ys).Nodup := hs ▸ (h.family.dll s).nodup
  have his : i ∈ ls s := by rw [hs]; simp
  have hif : i ∉ free := fun hif => h.notMem_lists (by simpa using hif) s his
  have hout : ∀ t, i ∉ Function.update ls s (xs ++ ys) t := by
    intro t hit
    by_cases hts : t = s
    · subst hts
      rw [Function.update_self] at hit
      exact (List.nodup_cons.mp (List.perm_middle.nodup_iff.mp hnd)).1 hit
    · rw [Function.update_of_ne hts] at hit
      exact hts (h.family.disjoint t s i hit his)
  have hold : ∀ j, j ∈ free → (unlinkInsideLock c s i).links.next j = c.links.next j ∧
      (unlinkInsideLock c s i).links.prev j = c.links.prev j := by
    intro j hj
    have hji : j ≠ i := fun e => hif (e ▸ hj)
    have hjs : j ∉ xs ++ i :: ys := hs ▸ h.notMem_lists (by simpa using hj) s
    have hd : Dll c.links (c.shards s) (xs ++ i :: ys) := hs ▸ h.family.dll s
    obtain ⟨h1, h2⟩ := hd.links_outside j hjs
    rw [links_unlink]
    simp [hji, h1, h2]
  refine ⟨?_, ?_, ?_, ?_, ?_⟩
  · rw [freeHead_unlink]
    exact h.freeSeg.congr fun j hj => (hold j hj).1
  · rw [links_unlink, shards_unlink]
    refine hfam.congr (fun t j hj => ?_) (fun t j hj => ?_)
    · have hji : j ≠ i := fun e => hout t (e ▸ hj)
      simp [hji]
    · have hji : j ≠ i := fun e => hout t (e ▸ hj)
      simp [hji]
  · rw [(sameEntries_unlink c s i).len]
    refine h.cover_update fun j => ?_
    rw [hs]
    simp only [List.count_append, List.count_cons, List.count_nil]
    omega
  · intro j hj
    rcases List.mem_append.mp hj with hj | hj
    · rw [List.mem_singleton] at hj
      simp [links_unlink, hj]
    · rw [(hold j hj).2]
      exact h.noPrev j (by simpa using hj)
  · intro j hj
    rw [List.mem_singleton] at hj
    simp [links_unlink, hj]

/-- An edit of the list of one shard that leaves the free nodes alone. -/
theorem edit (h : Chains c loose free ls) {s : Fin S} {xs : List Nat} (hlen : c'.len = c.len)
    (hhead : c'.freeHead = c.freeHead) (hfam : Family c'.links c'.shards (Function.update ls s xs))
    (hfree : ∀ j ∈ free, c'.links.next j = c.links.next j ∧ c'.links.prev j = c.links.prev j)
    (hcount : ∀ i, (free ++ xs).count i = (loose ++ free ++ ls s).count i) :
    Chains c' [] free (Function.update ls s xs) := by
  refine ⟨?_, hfam, ?_, ?_, ?_⟩
  · rw [hhead]
    exact h.freeSeg.congr fun j hj => (hfree j hj).1
  · rw [hlen]
    exact h.cover_update hcount
  · intro j hj
    rw [(hfree j hj).2]
    exact h.noPrev j (List.mem_append_right _ hj)
  · intro j hj
    simp at hj

/-- The node in hand joins the front of the list of a shard. -/
theorem join {i : Nat} (h : Chains c [i] free ls) (s : Fin S) :
    Chains (joinShard c s i) [] free (Function.update ls s (i :: ls s)) := by
  have hi : ∀ t, i ∉ ls t := h.notMem_lists (by simp)
  have hp : c.links.prev i = none := h.noPrev i (by simp)
  have hn : c.links.next i = none := h.noNext i (by simp)
  have hif : i ∉ free := h.notMem_free List.mem_cons_self
  have hcount : ∀ j, (free ++ (i :: ls s)).count j = ([i] ++ free ++ ls s).count j := by
    intro j
    simp only [List.count_append, List.count_cons, List.count_nil]
    omega
  have hlen : (Shared.joinShard c s i).len = c.len := (sameEntries_joinShard c s i).len
  by_cases hnil : ls s = []
  · have hfirst : (c.shards s).first = none := by rw [(h.family.dll s).first, hnil]; rfl
    have heq : Shared.joinShard c s i = ((c.setPrev i none).setNext i none).setShard s ⟨some i, some i⟩ := if_pos hfirst
    refine h.edit hlen (by rw [heq]; rfl) ?_ (fun j hj => ?_) hcount
    · have hlast : some i = (i :: ls s).getLast? := by rw [hnil]; rfl
      have hpush := h.family.pushFront hi (some i) hlast
      rw [hfirst] at hpush
      rw [heq]
      refine Family.congr (by simpa using hpush) (fun t j hj => ?_) (fun t j hj => ?_)
      · by_cases hji : j = i <;> simp [hji]
      · by_cases hji : j = i <;> simp [hji]
    · have hji : j ≠ i := fun e => hif (e ▸ hj)
      rw [heq]
      simp [hji]
  · have hfirst : (c.shards s).first ≠ none := by
      rw [(h.family.dll s).first]
      exact mt List.head?_eq_none_iff.mp hnil
    have heq : Shared.joinShard c s i = c.moveToFrontInsideLock s i := if_neg hfirst
    refine h.edit hlen (by rw [heq]; simp) ?_ (fun j hj => ?_) hcount
    · rw [heq]
      exact family_moveToFront_loose h.family hi hp hn hnil
    · have hji : j ≠ i := fun e => hif (e ▸ hj)
      have hjs : j ∉ ls s := h.notMem_lists (List.mem_append_right _ hj) s
      rw [heq]
      refine moveToFront_links_of_ne hji ?_ (by simp [hp]) (by simp [hn])
      rw [(h.family.dll s).first]
      exact fun e => hjs (List.mem_of_mem_head? e)

/-- A node in the list of a shard moves to its front. -/
theorem toFront (h : Chains c [] free ls) {s : Fin S} {xs ys : List Nat} {i : Nat} (hs : ls s = xs ++ i :: ys) :
    Chains (c.moveToFrontInsideLock s i) [] free (Function.update ls s (i :: (xs ++ ys))) := by
  have hd : Dll c.links (c.shards s) (xs ++ i :: ys) := hs ▸ h.family.dll s
  refine h.edit (SameEntries.moveToFront c s i).len (by simp) (family_moveToFront h.family hs) (fun j hj => ?_)
    (fun j => ?_)
  · have hjs : j ∉ xs ++ i :: ys := hs ▸ h.notMem_lists (by simpa using hj) s
    refine moveToFront_links_of_ne ?_ ?_ ?_ ?_
    · exact fun e => hjs (e ▸ List.mem_append_right _ List.mem_cons_self)
    · rw [hd.first]
      exact fun e => hjs (List.mem_of_mem_head? e)
    · rw [hd.prev_next.1]
      exact fun e => hjs (List.mem_append_left _ (List.mem_of_getLast? e))
    · rw [hd.prev_next.2]
      exact fun e => hjs (List.mem_append_right _ (List.mem_cons_of_mem _ (List.mem_of_mem_head? e)))
  · rw [hs]
    simp only [List.count_append, List.count_cons, List.count_nil]
    omega

end Chains

end Shared

end LruCache

end Opsense
