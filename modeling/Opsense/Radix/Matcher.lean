import Opsense.Lib.ForestTrails

/-!
# The matcher of a search

`opsense-mlib/src/search.rs`: `lps`, `kmp_match` and `kmp_matcher`, which says of the piece of a node whether the pattern ends in it,
and otherwise with which numbers of elements the search goes on below. The table of `lps` gives shorter beginnings of the pattern
(`lps_borders`), so that the loop of `kmp_match` ends (`kmpLoop_fuel`), and never loses its place: the matcher is sound for its
pattern (`kmpMatcher_sound`).
-/

namespace Opsense

structure OnMatchCallback where
  found : Bool
  continuations : List Nat
deriving DecidableEq, Repr

/-- `SearchMatcher`: what is asked with the piece of a node, the pattern and how much of the pattern is read. -/
abbrev SearchMatcher (T : Type) := List T → List T → Nat → OnMatchCallback

/-- A matcher finds nothing in an empty piece, and finds one element at the start of a piece. -/
structure SearchMatcher.Sees {T : Type} (matcher : SearchMatcher T) : Prop where
  nil : ∀ pattern k, (matcher [] pattern k).found = false
  head : ∀ a piece, (matcher (a :: piece) [a] 0).found = true

/-- A matcher finds the pattern only in what is read, and goes on only with what of it ends what is read. -/
def SearchMatcher.Sound {T : Type} (matcher : SearchMatcher T) (pattern : List T) : Prop :=
  Forest.Sound pattern fun piece k => ((matcher piece pattern k).found, (matcher piece pattern k).continuations)

namespace Search

variable {T : Type} [DecidableEq T]

/-- The inner loop of `lps`. Each turn makes `j` smaller, so `fuel` is never used up. -/
def fallBack (pattern : List T) (table : List Nat) (i : Nat) : Nat → Nat → Nat
  | 0, j => j
  | fuel + 1, j => if 0 < j ∧ pattern[i]? ≠ pattern[j]? then fallBack pattern table i fuel (table.getD (j - 1) 0) else j

/-- A turn of the loop of `lps`. -/
def lpsTurn (pattern : List T) (t : List Nat × Nat) (i : Nat) : List Nat × Nat :=
  let j := fallBack pattern t.1 i t.2 t.2
  if pattern[i]? = pattern[j]? then (t.1.set i (j + 1), j + 1) else (t.1, j)

def lps (pattern : List T) : List Nat :=
  ((List.range' 1 (pattern.length - 1)).foldl (lpsTurn pattern) (List.replicate pattern.length 0, 0)).1

/-! ## The table -/

/-- What is relied on of a table: each entry before `n` is a shorter beginning of the pattern that ends like the one it is for. -/
def Borders (pattern : List T) (table : List Nat) (n : Nat) : Prop :=
  ∀ i < n, table.getD i 0 ≤ i ∧ pattern.take (table.getD i 0) <:+ pattern.take (i + 1)

omit [DecidableEq T] in
/-- A text that ends with a beginning of the pattern, and one letter more. -/
theorem take_succ_suffix {pattern text : List T} {k : Nat} {a : T} (h : pattern.take k <:+ text) (ha : pattern[k]? = some a) :
    pattern.take (k + 1) <:+ text ++ [a] := by
  obtain ⟨t, rfl⟩ := h
  rw [List.take_add_one, ha, List.append_assoc]
  exact List.suffix_append _ _

theorem fallBack_spec {pattern : List T} {table : List Nat} {i : Nat} (ht : Borders pattern table i) {fuel j : Nat} (hfuel : j ≤ fuel)
    (hj : j < i) (hsuf : pattern.take j <:+ pattern.take i) :
    fallBack pattern table i fuel j ≤ j ∧ pattern.take (fallBack pattern table i fuel j) <:+ pattern.take i ∧
      (pattern[i]? ≠ pattern[fallBack pattern table i fuel j]? → fallBack pattern table i fuel j = 0) := by
  induction fuel generalizing j with
  | zero =>
    obtain rfl : j = 0 := Nat.le_zero.mp hfuel
    exact ⟨le_refl 0, hsuf, fun _ => rfl⟩
  | succ fuel ih =>
    unfold fallBack
    split_ifs with hback
    · obtain ⟨hle, hborder⟩ := ht (j - 1) (by omega)
      rw [Nat.sub_add_cancel hback.1] at hborder
      obtain ⟨hle', hsuf', hzero⟩ := ih (j := table.getD (j - 1) 0) (by omega) (by omega) (hborder.trans hsuf)
      exact ⟨by omega, hsuf', hzero⟩
    · refine ⟨le_refl j, hsuf, fun hne => ?_⟩
      by_contra hj0
      exact hback ⟨Nat.pos_of_ne_zero hj0, hne⟩

/-- What holds before the turn `i` of the loop. -/
structure Filling (pattern : List T) (t : List Nat × Nat) (i : Nat) : Prop where
  length : t.1.length = pattern.length
  borders : Borders pattern t.1 i
  rest : ∀ l, i ≤ l → t.1.getD l 0 = 0
  lt : t.2 < i
  ends : pattern.take t.2 <:+ pattern.take i

theorem Filling.turn {pattern : List T} {t : List Nat × Nat} {i : Nat} (h : Filling pattern t i) (hi : i < pattern.length) :
    Filling pattern (lpsTurn pattern t i) (i + 1) := by
  obtain ⟨table, j⟩ := t
  obtain ⟨hle, hsuf, hzero⟩ := fallBack_spec h.borders (le_refl j) h.lt h.ends
  have hlt : j < i := h.lt
  have hnext : pattern.take (i + 1) = pattern.take i ++ [pattern[i]] := by
    rw [List.take_add_one, List.getElem?_eq_getElem hi]
    rfl
  unfold lpsTurn
  dsimp only
  generalize fallBack pattern table i j j = l at hle hsuf hzero
  split_ifs with hsame
  · have hends : pattern.take (l + 1) <:+ pattern.take (i + 1) := by
      rw [hnext]
      refine take_succ_suffix hsuf ?_
      rw [← hsame, List.getElem?_eq_getElem hi]
    have hlen : i < table.length := lt_of_lt_of_eq hi h.length.symm
    refine ⟨?_, fun e he => ?_, fun e he => ?_, by dsimp only; omega, hends⟩
    · exact (List.length_set).trans h.length
    · by_cases heq : e = i
      · subst heq
        rw [List.getD_eq_getElem?_getD, List.getElem?_set_self hlen]
        exact ⟨by simp only [Option.getD_some]; omega, hends⟩
      · rw [List.getD_eq_getElem?_getD, List.getElem?_set_ne (Ne.symm heq), ← List.getD_eq_getElem?_getD]
        exact h.borders e (by omega)
    · rw [List.getD_eq_getElem?_getD, List.getElem?_set_ne (by omega), ← List.getD_eq_getElem?_getD]
      exact h.rest e (by omega)
  · obtain rfl : l = 0 := hzero hsame
    refine ⟨h.length, fun e he => ?_, fun e he => h.rest e (by omega), Nat.succ_pos i, List.nil_suffix⟩
    by_cases heq : e = i
    · subst heq
      have h0 : table.getD e 0 = 0 := h.rest e (le_refl e)
      dsimp only
      rw [h0]
      exact ⟨Nat.zero_le _, List.nil_suffix⟩
    · exact h.borders e (by omega)

theorem Filling.turns {pattern : List T} (count : Nat) {t : List Nat × Nat} {i : Nat} (h : Filling pattern t i)
    (hi : i + count ≤ pattern.length) :
    Filling pattern ((List.range' i count).foldl (lpsTurn pattern) t) (i + count) := by
  induction count generalizing t i with
  | zero => exact h
  | succ count ih =>
    rw [List.range'_succ, List.foldl_cons, Nat.add_comm count 1, ← Nat.add_assoc]
    exact ih (h.turn (by omega)) (by omega)

/-- The table of a pattern. -/
theorem lps_borders (pattern : List T) : Borders pattern (lps pattern) pattern.length := by
  by_cases hp : pattern = []
  · subst hp
    exact fun i hi => absurd hi (Nat.not_lt_zero i)
  · have hpos : 0 < pattern.length := List.length_pos_of_ne_nil hp
    have hzero : ∀ l, (List.replicate pattern.length 0).getD l 0 = 0 := by
      intro l
      rw [List.getD_eq_getElem?_getD, List.getElem?_replicate]
      split_ifs <;> rfl
    have hstart : Filling pattern (List.replicate pattern.length 0, 0) 1 := by
      refine ⟨List.length_replicate, fun i hi => ?_, fun l _ => hzero l, Nat.one_pos, List.nil_suffix⟩
      rw [hzero]
      exact ⟨Nat.zero_le i, List.nil_suffix⟩
    have hend := hstart.turns (pattern.length - 1) (by omega)
    rw [Nat.add_sub_cancel' (by omega)] at hend
    exact hend.borders

/-! ## Matching -/

/-- What follows the comparison in a turn of the loop of `kmp_match`. -/
def kmpRest (pattern data : List T) (table : List Nat) (do_recursive : Bool) (next : Nat → Nat → Bool → Bool × Bool × Nat × Nat)
    (pattern_pos data_pos : Nat) (keep : Bool) : Bool × Bool × Nat × Nat :=
  if pattern_pos = pattern.length then (true, false, data_pos, pattern_pos)
  else if data_pos < data.length ∧ pattern[pattern_pos]? ≠ data[data_pos]? then
    if do_recursive then
      if pattern_pos ≠ 0 then next (table.getD (pattern_pos - 1) 0) data_pos keep else next pattern_pos (data_pos + 1) false
    else (false, false, data_pos, pattern_pos)
  else next pattern_pos data_pos keep

/-- The loop of `kmp_match`. Each turn makes `2 * (data.len() - data_pos) + pattern_pos` smaller, so `fuel` is never used up. -/
def kmpLoop (pattern data : List T) (table : List Nat) (do_recursive : Bool) : Nat → Nat → Nat → Bool → Bool × Bool × Nat × Nat
  | 0, pattern_pos, data_pos, _ => (false, false, data_pos, pattern_pos)
  | fuel + 1, pattern_pos, data_pos, keep =>
    let next := kmpLoop pattern data table do_recursive fuel
    if data_pos < data.length then
      if data[data_pos]? = pattern[pattern_pos]? then
        kmpRest pattern data table do_recursive next (pattern_pos + 1) (data_pos + 1) true
      else kmpRest pattern data table do_recursive next pattern_pos data_pos keep
    else (false, keep, data_pos, pattern_pos)

/-- `kmp_match`: whether the pattern is found, whether a part of it is kept, and the two places. -/
def kmpMatch (pattern data : List T) (table : List Nat) (pattern_pos data_pos : Nat) (do_recursive : Bool) :
    Bool × Bool × Nat × Nat :=
  kmpLoop pattern data table do_recursive (2 * (data.length - data_pos) + pattern_pos + 1) pattern_pos data_pos false

variable {pattern data : List T} {table : List Nat} {do_recursive : Bool}

/-- More turns change nothing, so the loop ends with those it has. -/
theorem kmpLoop_fuel (ht : Borders pattern table pattern.length) {fuel pattern_pos data_pos : Nat} (keep : Bool)
    (hpos : pattern_pos ≤ pattern.length) (hfuel : 2 * (data.length - data_pos) + pattern_pos < fuel) :
    kmpLoop pattern data table do_recursive (fuel + 1) pattern_pos data_pos keep =
      kmpLoop pattern data table do_recursive fuel pattern_pos data_pos keep := by
  induction fuel generalizing pattern_pos data_pos keep with
  | zero => omega
  | succ fuel ih =>
    have hrest : ∀ l d keep', l ≤ pattern.length → 2 * (data.length - d) + l ≤ fuel →
        (2 * (data.length - d) + l < fuel ∨ (d < data.length ∧ pattern[l]? ≠ data[d]?)) →
        kmpRest pattern data table do_recursive (kmpLoop pattern data table do_recursive (fuel + 1)) l d keep' =
          kmpRest pattern data table do_recursive (kmpLoop pattern data table do_recursive fuel) l d keep' := by
      intro l d keep' hl hle hor
      unfold kmpRest
      split_ifs with hall hmiss hrec hzero
      · rfl
      · have hborder := (ht (l - 1) (by omega)).1
        exact ih keep' (by omega) (by omega)
      · exact ih false hl (by omega)
      · rfl
      · exact ih keep' hl (hor.resolve_right hmiss)
    rw [kmpLoop]
    conv_rhs => rw [kmpLoop]
    split_ifs with hdp hhit
    · have hlt : pattern_pos < pattern.length := by
        by_contra hge
        rw [List.getElem?_eq_none (not_lt.mp hge), List.getElem?_eq_getElem hdp] at hhit
        cases hhit
      exact hrest _ _ _ hlt (by omega) (Or.inl (by omega))
    · exact hrest _ _ _ hpos (by omega) (Or.inr ⟨hdp, Ne.symm hhit⟩)
    · rfl

/-- A part of the pattern that is kept at the end of the piece goes to the continuations. -/
def pushKept (pattern : List T) (do_recursive : Bool) (r : Bool × Bool × Nat × Nat) (continuations : List Nat) : List Nat :=
  if do_recursive ∧ r.2.1 ∧ r.2.2.2 < pattern.length then continuations ++ [r.2.2.2] else continuations

/-- The loop of the scan block: nothing when the pattern is found, else the continuations. -/
def scanFrom (pattern pfx : List T) (table : List Nat) : List Nat → List Nat → Option (List Nat)
  | [], continuations => some continuations
  | scan_pos :: scan, continuations =>
    if pfx[scan_pos]? = pattern[0]? then
      let do_rec := decide (pfx.length - scan_pos < pattern.length)
      let r := kmpMatch pattern pfx table 0 scan_pos do_rec
      if r.1 then none else scanFrom pattern pfx table scan (pushKept pattern do_rec r continuations)
    else scanFrom pattern pfx table scan continuations

def kmpMatcher (pattern : List T) : SearchMatcher T := fun pfx pat pattern_pos =>
  let table := lps pattern
  let do_recursive := decide (pfx.length < pat.length - pattern_pos)
  let r := kmpMatch pat pfx table pattern_pos 0 do_recursive
  if r.1 then ⟨true, []⟩
  else
    match if pattern_pos = 0 then scanFrom pat pfx table (List.range' 1 (pfx.length - 1)) [] else some [] with
    | none => ⟨true, []⟩
    | some continuations => ⟨false, pushKept pat do_recursive r continuations⟩

/-! ## What it sees -/

theorem kmpMatch_nil (pattern : List T) (table : List Nat) (pattern_pos data_pos : Nat) (do_recursive : Bool) :
    kmpMatch pattern [] table pattern_pos data_pos do_recursive = (false, false, data_pos, pattern_pos) := by
  simp [kmpMatch, kmpLoop]

theorem kmpMatch_head (a : T) (data : List T) (table : List Nat) (do_recursive : Bool) :
    (kmpMatch [a] (a :: data) table 0 0 do_recursive).1 = true := by
  simp [kmpMatch, kmpLoop, kmpRest]

theorem kmpMatcher_sees (pattern : List T) : (kmpMatcher pattern).Sees := by
  constructor
  · intro pat k
    unfold kmpMatcher
    simp only [kmpMatch_nil]
    cases k <;> rfl
  · intro a piece
    unfold kmpMatcher
    dsimp only
    rw [if_pos (kmpMatch_head _ _ _ _)]

/-! ## What it keeps -/

variable {before : List T}

/-- What a result says of the text that is read: the pattern is in it, or a part of the pattern that is kept ends it. -/
def Keeps (pattern text : List T) (r : Bool × Bool × Nat × Nat) : Prop :=
  (r.1 = true → pattern <:+: text) ∧ (r.2.1 = true → r.2.2.2 < pattern.length ∧ pattern.take r.2.2.2 <:+ text)

theorem kmpRest_keeps (ht : Borders pattern table pattern.length) {next : Nat → Nat → Bool → Bool × Bool × Nat × Nat}
    {pattern_pos data_pos : Nat} (keep : Bool) (hpos : pattern_pos ≤ pattern.length)
    (hends : pattern.take pattern_pos <:+ before ++ data.take data_pos)
    (hback : ∀ l keep', l < pattern_pos → pattern.take l <:+ before ++ data.take data_pos →
      Keeps pattern (before ++ data) (next l data_pos keep'))
    (hskip : data_pos < data.length → pattern_pos = 0 → Keeps pattern (before ++ data) (next pattern_pos (data_pos + 1) false))
    (hsame : pattern_pos < pattern.length → ¬(data_pos < data.length ∧ pattern[pattern_pos]? ≠ data[data_pos]?) →
      Keeps pattern (before ++ data) (next pattern_pos data_pos keep)) :
    Keeps pattern (before ++ data) (kmpRest pattern data table do_recursive next pattern_pos data_pos keep) := by
  unfold kmpRest
  split_ifs with hall hmiss hrec hzero
  · refine ⟨fun _ => ?_, nofun⟩
    rw [hall, List.take_length] at hends
    exact hends.isInfix.trans ((List.prefix_append_right_inj before).mpr (List.take_prefix _ _)).isInfix
  · obtain ⟨hle, hborder⟩ := ht (pattern_pos - 1) (by omega)
    rw [Nat.sub_add_cancel (Nat.pos_of_ne_zero hzero)] at hborder
    exact hback _ keep (by omega) (hborder.trans hends)
  · exact hskip hmiss.1 (not_not.mp hzero)
  · exact ⟨nofun, nofun⟩
  · exact hsame (lt_of_le_of_ne hpos hall) hmiss

theorem kmpLoop_keeps (ht : Borders pattern table pattern.length) {fuel pattern_pos data_pos : Nat} (keep : Bool)
    (hpos : pattern_pos < pattern.length) (hdata : data_pos ≤ data.length)
    (hends : pattern.take pattern_pos <:+ before ++ data.take data_pos) :
    Keeps pattern (before ++ data) (kmpLoop pattern data table do_recursive fuel pattern_pos data_pos keep) := by
  induction fuel generalizing pattern_pos data_pos keep with
  | zero => exact ⟨nofun, nofun⟩
  | succ fuel ih =>
    unfold kmpLoop
    dsimp only
    split_ifs with hdp hhit
    · have hnext : pattern.take (pattern_pos + 1) <:+ before ++ data.take (data_pos + 1) := by
        have hat := List.getElem?_eq_getElem hdp
        have htake : data.take (data_pos + 1) = data.take data_pos ++ [data[data_pos]] := by
          rw [List.take_add_one, hat]
          rfl
        rw [htake, ← List.append_assoc]
        exact take_succ_suffix hends (hhit.symm.trans hat)
      exact kmpRest_keeps ht true hpos hnext (fun l keep' hl hend => ih keep' (by omega) hdp hend)
        (fun _ hzero => absurd hzero (Nat.succ_ne_zero _)) fun hlt _ => ih true hlt hdp hnext
    · refine kmpRest_keeps ht keep hpos.le hends (fun l keep' hl hend => ih keep' (by omega) hdata hend) (fun _ hzero => ?_)
        fun _ hno => absurd ⟨hdp, Ne.symm hhit⟩ hno
      subst hzero
      exact ih false hpos hdp List.nil_suffix
    · have hlast : data_pos = data.length := by omega
      subst hlast
      rw [List.take_length] at hends
      exact ⟨nofun, fun _ => ⟨hpos, hends⟩⟩

/-- `kmp_match` never loses its place. -/
theorem kmpMatch_keeps (ht : Borders pattern table pattern.length) (do_recursive : Bool) (before : List T)
    {pattern_pos data_pos : Nat} (hpos : pattern_pos < pattern.length) (hdata : data_pos ≤ data.length)
    (hends : pattern.take pattern_pos <:+ before ++ data.take data_pos) :
    Keeps pattern (before ++ data) (kmpMatch pattern data table pattern_pos data_pos do_recursive) :=
  kmpLoop_keeps ht false hpos hdata hends

/-- The beginnings of the pattern that end the text. -/
def Kept (pattern text : List T) (ls : List Nat) : Prop := ∀ l ∈ ls, l < pattern.length ∧ pattern.take l <:+ text

omit [DecidableEq T] in
theorem Kept.push {text : List T} {ls : List Nat} {r : Bool × Bool × Nat × Nat} (h : Kept pattern text ls)
    (hr : Keeps pattern text r) (do_recursive : Bool) : Kept pattern text (pushKept pattern do_recursive r ls) := by
  intro l hl
  unfold pushKept at hl
  split_ifs at hl with hkeep
  · rcases List.mem_append.mp hl with hl | hl
    · exact h l hl
    · obtain rfl := List.mem_singleton.mp hl
      exact hr.2 hkeep.2.1
  · exact h l hl

/-- The continuations of the scan are beginnings of the pattern that end the text. -/
theorem scanFrom_kept {pfx : List T} (ht : Borders pattern table pattern.length) (hp : 0 < pattern.length) {scan : List Nat}
    (hscan : ∀ i ∈ scan, i ≤ pfx.length) {continuations : List Nat} (hc : Kept pattern (before ++ pfx) continuations) :
    (scanFrom pattern pfx table scan continuations = none → pattern <:+: before ++ pfx) ∧
      ∀ ls, scanFrom pattern pfx table scan continuations = some ls → Kept pattern (before ++ pfx) ls := by
  induction scan generalizing continuations with
  | nil =>
    refine ⟨nofun, fun ls hls => ?_⟩
    obtain rfl := Option.some.inj hls
    exact hc
  | cons i scan ih =>
    have hscan' : ∀ i ∈ scan, i ≤ pfx.length := fun l hl => hscan l (List.mem_cons_of_mem _ hl)
    have hends := kmpMatch_keeps ht (decide (pfx.length - i < pattern.length)) before hp (hscan i List.mem_cons_self)
      List.nil_suffix
    unfold scanFrom
    dsimp only
    split_ifs with hhit hfound
    · exact ⟨fun _ => hends.1 hfound, nofun⟩
    · exact ih hscan' (hc.push hends _)
    · exact ih hscan' hc

/-- With the beginning of the pattern that is read, the matcher keeps its place. -/
theorem kmpMatcher_kept {k : Nat} {pfx : List T} (hk : k < pattern.length) (hbefore : pattern.take k <:+ before) :
    ((kmpMatcher pattern pfx pattern k).found = true → pattern <:+: before ++ pfx) ∧
      Kept pattern (before ++ pfx) (kmpMatcher pattern pfx pattern k).continuations := by
  have ht := lps_borders pattern
  have hsuf : pattern.take k <:+ before ++ pfx.take 0 := by simpa using hbefore
  have hends := kmpMatch_keeps ht (decide (pfx.length < pattern.length - k)) before hk (Nat.zero_le _) hsuf
  have hplaces : ∀ i ∈ List.range' 1 (pfx.length - 1), i ≤ pfx.length := by
    intro i hi
    rw [List.mem_range'_1] at hi
    omega
  have hscan : ∀ o, (if k = 0 then scanFrom pattern pfx (lps pattern) (List.range' 1 (pfx.length - 1)) [] else some []) = o →
      (o = none → pattern <:+: before ++ pfx) ∧ ∀ ls, o = some ls → Kept pattern (before ++ pfx) ls := by
    rintro o rfl
    split_ifs
    · exact scanFrom_kept ht (Nat.zero_lt_of_lt hk) hplaces nofun
    · refine ⟨nofun, fun ls hls => ?_⟩
      obtain rfl := Option.some.inj hls
      exact nofun
  unfold kmpMatcher
  dsimp only
  split
  · case isTrue hfound => exact ⟨fun _ => hends.1 hfound, nofun⟩
  · split
    · case h_1 ho => exact ⟨fun _ => (hscan _ ho).1 rfl, nofun⟩
    · case h_2 ls ho => exact ⟨nofun, ((hscan _ ho).2 ls rfl).push hends _⟩

/-- The matcher of a pattern is sound for it. -/
theorem kmpMatcher_sound (pattern : List T) : (kmpMatcher pattern).Sound pattern :=
  ⟨fun _ _ hk => (kmpMatcher_kept hk (List.suffix_refl _)).1, fun _ _ hk => (kmpMatcher_kept hk (List.suffix_refl _)).2⟩

end Search

end Opsense
