import Opsense.Api.Pnl

/-!
# Each order is counted once

Of each order the newest row is left (`OnePerOrder`). What the rows add is added up by buckets and then over all buckets, and
the division comes last, so that the total does not depend on the width and its averages are means over the orders
(`aggregate_dedup_exact`).
-/

namespace Opsense

namespace Pnl

section Aggregate

variable (parse : String → Option ℚ) (real : UInt64 → ℚ)

/-! ## What an order adds -/

/-- What a row adds to each sum. -/
def share (o : Observation) : Summed → ℚ
  | .trades => if status o = "closed" then 1 else 0
  | .wins => if status o = "closed" ∧ pnlPct parse o > 0 then 1 else 0
  | .losses => if status o = "closed" ∧ ¬pnlPct parse o > 0 then 1 else 0
  | .long_trades => if status o = "closed" ∧ dtype o = "long" then 1 else 0
  | .short_trades => if status o = "closed" ∧ dtype o = "short" then 1 else 0
  | .open_count => if status o = "open" ∧ size parse o > 0 then 1 else 0
  | .net_pnl_abs => if status o = "closed" then size parse o * pnlPct parse o else 0
  | .pnl_pct_sum => if status o = "closed" then pnlPct parse o else 0
  | .gross_profit_abs => if status o = "closed" ∧ pnlPct parse o > 0 then size parse o * pnlPct parse o else 0
  | .gross_loss_abs => if status o = "closed" ∧ ¬pnlPct parse o > 0 then size parse o * pnlPct parse o else 0
  | .win_pct_sum => if status o = "closed" ∧ pnlPct parse o > 0 then pnlPct parse o else 0
  | .loss_pct_sum => if status o = "closed" ∧ ¬pnlPct parse o > 0 then pnlPct parse o else 0
  | .notional => if status o = "closed" then size parse o else 0
  | .open_notional => if status o = "open" ∧ size parse o > 0 then size parse o else 0

variable {parse real} {rows : List Observation} {w : Int}

theorem share_unlisted {o : Observation} (h : ¬Listed o) : share parse o = 0 := by
  obtain ⟨hclosed, hopen⟩ := not_or.mp h
  funext field
  cases field <;> simp [share, hclosed, hopen]

theorem sums_count (b : PnlBucket) {o : Observation} (h : Listed o) : (count parse b o).sums = b.sums + share parse o := by
  funext field
  unfold count
  by_cases hclosed : status o = "closed"
  · rw [if_pos hclosed]
    unfold PnlBucket.addClosed
    by_cases hwin : pnlPct parse o > 0
    · by_cases hlong : dtype o = "long"
      · cases field <;> simp [PnlBucket.sums, share, hclosed, hwin, hlong]
      · by_cases hshort : dtype o = "short" <;> cases field <;> simp [PnlBucket.sums, share, hclosed, hwin, hlong, hshort]
    · by_cases hlong : dtype o = "long"
      · cases field <;> simp [PnlBucket.sums, share, hclosed, hwin, hlong]
      · by_cases hshort : dtype o = "short" <;> cases field <;> simp [PnlBucket.sums, share, hclosed, hwin, hlong, hshort]
  · have hopen : status o = "open" := h.resolve_left hclosed
    rw [if_neg hclosed]
    by_cases hsize : size parse o > 0
    · rw [if_pos hsize]
      cases field <;> simp [PnlBucket.sums, PnlBucket.addOpen, share, hopen, hsize]
    · rw [if_neg hsize]
      cases field <;> simp [PnlBucket.sums, share, hopen, hsize]

theorem raw_count {b : PnlBucket} (h : b.Raw) (o : Observation) : (count parse b o).Raw := by
  unfold count
  split_ifs
  · exact h.addClosed _ _ _
  · exact ⟨h.win_rate, h.net_pnl_pct, h.avg_win_pct, h.avg_loss_pct⟩
  · exact h

theorem bucket_ts_count (b : PnlBucket) (o : Observation) : (count parse b o).bucket_ts = b.bucket_ts := by
  unfold count
  split_ifs
  · exact b.bucket_ts_addClosed _ _ _
  · rfl
  · rfl

variable (parse) in
/-- The bucket of some rows. -/
def tally (k : Int) (rows : List Observation) : PnlBucket := rows.foldl (count parse) (.new k)

theorem foldl_count (parse : String → Option ℚ) {b : PnlBucket} (hb : b.Raw) (hrows : ∀ o ∈ rows, Listed o) :
    (rows.foldl (count parse) b).sums = b.sums + (rows.map (share parse)).sum ∧ (rows.foldl (count parse) b).Raw ∧
      (rows.foldl (count parse) b).bucket_ts = b.bucket_ts := by
  induction rows generalizing b with
  | nil => exact ⟨by simp, hb, rfl⟩
  | cons o rows ih =>
    obtain ⟨hsums, hraw, hts⟩ := ih (raw_count hb o) fun o' ho' => hrows o' (List.mem_cons_of_mem _ ho')
    refine ⟨?_, hraw, hts.trans (bucket_ts_count b o)⟩
    rw [List.foldl_cons, hsums, sums_count b (hrows o List.mem_cons_self), List.map_cons, List.sum_cons, add_assoc]

/-- The sums of a bucket are what its rows add. -/
theorem tally_spec (parse : String → Option ℚ) (k : Int) (hrows : ∀ o ∈ rows, Listed o) :
    (tally parse k rows).sums = (rows.map (share parse)).sum ∧ (tally parse k rows).Raw ∧
      (tally parse k rows).bucket_ts = k := by
  obtain ⟨hsums, hraw, hts⟩ := foldl_count parse (PnlBucket.raw_new k) hrows
  exact ⟨by rw [tally, hsums, PnlBucket.sums_new, zero_add], hraw, hts⟩

/-! ## The buckets of a run -/

/-- The rows that fall into a bucket. -/
def rowsOf (w : Int) (rows : List Observation) (k : Int) : List Observation :=
  (rows.filter Listed).filter fun o => alignBucket o.ts w = k

theorem foldl_join (b : PnlBucket) (rows : List Observation) :
    rows.foldl (fun b o => some (join parse w b o)) (some b) = some (rows.foldl (count parse) b) := by
  induction rows generalizing b with
  | nil => rfl
  | cons o rows ih => exact ih (count parse b o)

/-- The loop leaves a bucket for each aligned time of a row, made of the rows of that time. -/
theorem lookup_tallied (rows : List Observation) (k : Int) :
    (tallied parse w rows).lookup k = if rowsOf w rows k = [] then none else some (tally parse k (rowsOf w rows k)) := by
  unfold tallied
  rw [Groups.lookup_collect, Finmap.lookup_empty]
  change (rowsOf w rows k).foldl _ none = _
  have hk : ∀ o ∈ rowsOf w rows k, alignBucket o.ts w = k := by
    intro o ho
    simpa using (List.mem_filter.mp ho).2
  cases hrows : rowsOf w rows k with
  | nil => rfl
  | cons o os =>
    rw [hrows] at hk
    rw [if_neg nofun, List.foldl_cons]
    have hjoin : join parse w none o = count parse (.new k) o := by
      rw [← hk o List.mem_cons_self]
      rfl
    rw [hjoin, foldl_join]
    rfl

theorem mem_tallied {k : Int} : k ∈ tallied parse w rows ↔ ∃ o ∈ rows, Listed o ∧ alignBucket o.ts w = k := by
  rw [← Finmap.lookup_isSome, lookup_tallied]
  constructor
  · intro h
    obtain ⟨o, ho⟩ := List.exists_mem_of_ne_nil (rowsOf w rows k) fun hnil => by simp [hnil] at h
    have hmem := List.mem_filter.mp ho
    have hlisted := List.mem_filter.mp hmem.1
    exact ⟨o, hlisted.1, by simpa using hlisted.2, by simpa using hmem.2⟩
  · rintro ⟨o, ho, hlisted, hk⟩
    rw [if_neg]
    · rfl
    · exact List.ne_nil_of_mem (List.mem_filter.mpr ⟨List.mem_filter.mpr ⟨ho, by simpa using hlisted⟩, by simpa using hk⟩)

theorem dvd_alignBucket (ts w : Int) : w ∣ alignBucket ts w := by
  unfold alignBucket
  split_ifs
  · exact dvd_zero w
  · exact dvd_mul_left w _

/-- A step of the loop that fills the gaps leaves the other places alone. -/
theorem lookup_entryOr (buckets : Finmap fun _ : Int => PnlBucket) (current k : Int) :
    (if current ∈ buckets then buckets else buckets.insert current (.new current)).lookup k =
      (buckets.lookup k).or (if k = current then some (.new k) else none) := by
  by_cases hk : k = current
  · subst hk
    rw [if_pos rfl]
    by_cases hmem : k ∈ buckets
    · obtain ⟨b, hb⟩ := Option.isSome_iff_exists.mp (Finmap.lookup_isSome.mpr hmem)
      rw [if_pos hmem, hb]
      rfl
    · rw [if_neg hmem, Finmap.lookup_insert, Finmap.lookup_eq_none.mpr hmem]
      rfl
  · rw [if_neg hk, Option.or_none]
    split_ifs
    · rfl
    · exact Finmap.lookup_insert_of_ne _ hk

/-- The loop makes the missing buckets one width apart, up to the last one. -/
theorem lookup_fillGaps (hw : 0 < w) (last current k : Int) (buckets : Finmap fun _ : Int => PnlBucket) :
    (fillGaps hw last current buckets).lookup k =
      (buckets.lookup k).or (if current ≤ k ∧ k ≤ last ∧ w ∣ k - current then some (.new k) else none) := by
  fun_induction fillGaps hw last current buckets with
  | case1 current buckets hle ih =>
    rw [dite_eq_ite] at ih
    rw [ih, lookup_entryOr, Option.or_assoc]
    congr 1
    by_cases hk : k = current
    · subst hk
      rw [if_pos rfl, Option.some_or, if_pos ⟨le_rfl, hle, by simp⟩]
    · rw [if_neg hk, Option.none_or]
      refine if_congr ⟨?_, ?_⟩ rfl rfl
      · rintro ⟨hge, hlast, hdvd⟩
        refine ⟨by omega, hlast, ?_⟩
        have hsub : k - current = k - (current + w) + w := by omega
        rw [hsub]
        exact dvd_add hdvd dvd_rfl
      · rintro ⟨hge, hlast, hdvd⟩
        have hstep := Int.le_of_dvd (by omega) hdvd
        refine ⟨by omega, hlast, ?_⟩
        have hsub : k - (current + w) = k - current - w := by omega
        rw [hsub]
        exact dvd_sub hdvd dvd_rfl
  | case2 current buckets hle => rw [if_neg (by omega), Option.or_none]

/-- The buckets that come out: those of the rows, and a new one at each multiple of the width between two of them. -/
theorem lookup_filled (hw : 0 < w) {buckets : Finmap fun _ : Int => PnlBucket} (hdvd : ∀ k ∈ buckets.keys, w ∣ k) (k : Int) :
    (filled w buckets).lookup k = (buckets.lookup k).or
      (if w ∣ k ∧ (∃ a ∈ buckets.keys, a ≤ k) ∧ ∃ b ∈ buckets.keys, k ≤ b then some (.new k) else none) := by
  have hmem (a : Int) : a ∈ Groups.inOrder buckets.keys ↔ a ∈ buckets.keys := Finset.mem_sort _
  have hsorted : (Groups.inOrder buckets.keys).Pairwise (· ≤ ·) := Finset.pairwise_sort _ _
  unfold filled
  rw [dif_pos hw]
  cases hks : Groups.inOrder buckets.keys with
  | nil =>
    dsimp only [List.head?_nil, List.getLast?_nil]
    rw [if_neg, Option.or_none]
    rintro ⟨-, ⟨a, ha, -⟩, -⟩
    rw [← hmem, hks] at ha
    cases ha
  | cons first ks =>
    rw [List.head?_cons, List.getLast?_eq_some_getLast (List.cons_ne_nil first ks)]
    dsimp only
    rw [lookup_fillGaps]
    rw [hks] at hsorted
    have hfirst : first ∈ buckets.keys := by
      rw [← hmem, hks]
      exact List.mem_cons_self
    have hend : (first :: ks).getLast (List.cons_ne_nil first ks) ∈ buckets.keys := by
      rw [← hmem, hks]
      exact List.getLast_mem _
    congr 1
    refine if_congr ⟨?_, ?_⟩ rfl rfl
    · rintro ⟨hge, hle, hk⟩
      exact ⟨(Int.dvd_iff_dvd_of_dvd_sub hk).mpr (hdvd first hfirst), ⟨first, hfirst, hge⟩, ⟨_, hend, hle⟩⟩
    · rintro ⟨hk, ⟨a, ha, hak⟩, ⟨b, hb, hkb⟩⟩
      rw [← hmem, hks] at ha hb
      refine ⟨le_trans ?_ hak, hkb.trans (hsorted.rel_getLast hb), dvd_sub hk (hdvd first hfirst)⟩
      rcases List.mem_cons.mp ha with rfl | ha
      · exact le_rfl
      · exact (List.pairwise_cons.mp hsorted).1 a ha

variable (parse) in
/-- The times of the buckets that come out. -/
def places (w : Int) (rows : List Observation) : List Int := Groups.inOrder (filled w (tallied parse w rows)).keys

theorem dvd_of_mem_tallied {k : Int} (h : k ∈ (tallied parse w rows).keys) : w ∣ k := by
  obtain ⟨o, -, -, rfl⟩ := mem_tallied.mp (Finmap.mem_keys.mp h)
  exact dvd_alignBucket o.ts w

theorem mem_keys_filled {k : Int} : k ∈ (filled w (tallied parse w rows)).keys ↔ k ∈ (tallied parse w rows).keys ∨
    0 < w ∧ w ∣ k ∧ (∃ a ∈ (tallied parse w rows).keys, a ≤ k) ∧ ∃ b ∈ (tallied parse w rows).keys, k ≤ b := by
  rw [Finmap.mem_keys, ← Finmap.lookup_isSome, Finmap.mem_keys (a := k), ← Finmap.lookup_isSome]
  by_cases hw : 0 < w
  · rw [lookup_filled hw (fun _ => dvd_of_mem_tallied), Option.isSome_or, Bool.or_eq_true]
    refine or_congr_right ⟨fun h => ?_, fun h => ?_⟩
    · split_ifs at h with hk
      · exact ⟨hw, hk⟩
      · cases h
    · rw [if_pos h.2]
      rfl
  · rw [filled, dif_neg hw]
    simp [hw]

/-- Each bucket that comes out is made of the rows of its time. -/
theorem values_filled (w : Int) (rows : List Observation) :
    values (filled w (tallied parse w rows)) = (places parse w rows).map fun k => tally parse k (rowsOf w rows k) := by
  unfold values places
  rw [← List.filterMap_eq_map]
  refine List.filterMap_congr fun k hk => ?_
  have hmem : k ∈ filled w (tallied parse w rows) := Finmap.mem_keys.mp ((Finset.mem_sort _).mp hk)
  obtain ⟨b, hb⟩ := Option.isSome_iff_exists.mp (Finmap.lookup_isSome.mpr hmem)
  rw [hb]
  -- a bucket of a gap is new, and no row has its time
  have htally : b = tally parse k (rowsOf w rows k) := by
    by_cases hw : 0 < w
    · rw [lookup_filled hw (fun _ => dvd_of_mem_tallied), lookup_tallied] at hb
      by_cases hrows : rowsOf w rows k = []
      · rw [if_pos hrows, Option.none_or] at hb
        split_ifs at hb
        rw [hrows]
        exact (Option.some.inj hb).symm
      · rw [if_neg hrows] at hb
        exact (Option.some.inj hb).symm
    · rw [filled, dif_neg hw, lookup_tallied] at hb
      split_ifs at hb
      exact (Option.some.inj hb).symm
  rw [htally]
  rfl

theorem dvd_of_mem_places {k : Int} (h : k ∈ places parse w rows) : w ∣ k := by
  rcases mem_keys_filled.mp ((Finset.mem_sort _).mp h) with hk | ⟨-, hk, -⟩
  · exact dvd_of_mem_tallied hk
  · exact hk

theorem mem_places (parse : String → Option ℚ) {o : Observation} (ho : o ∈ rows) (hlisted : Listed o) : alignBucket o.ts w ∈ places parse w rows :=
  (Finset.mem_sort _).mpr (mem_keys_filled.mpr (Or.inl (Finmap.mem_keys.mpr (mem_tallied.mpr ⟨o, ho, hlisted, rfl⟩))))

/-- The buckets follow one another at their width, without a gap. -/
theorem isChain_places (hw : 0 ≤ w) : (places parse w rows).IsChain fun a b => a < b ∧ b = a + w := by
  have hsorted : (places parse w rows).Pairwise (· < ·) := Finset.sortedLT_sort _ |>.pairwise
  rcases hw.eq_or_lt with rfl | hw
  · -- of width zero there is one bucket at most
    have hzero : ∀ k ∈ places parse 0 rows, k = 0 := fun k hk => zero_dvd_iff.mp (dvd_of_mem_places hk)
    cases hks : places parse 0 rows with
    | nil => exact .nil
    | cons a ks =>
      cases ks with
      | nil => exact .singleton a
      | cons b ks =>
        rw [hks] at hsorted hzero
        have hlt := (List.pairwise_cons.mp hsorted).1 b List.mem_cons_self
        have ha := hzero a List.mem_cons_self
        have hb := hzero b (by simp)
        omega
  · have hmem {k : Int} : k ∈ places parse w rows ↔ w ∣ k ∧ (∃ a ∈ (tallied parse w rows).keys, a ≤ k) ∧
        ∃ b ∈ (tallied parse w rows).keys, k ≤ b := by
      rw [places, Groups.inOrder, Finset.mem_sort, mem_keys_filled]
      constructor
      · rintro (hk | hk)
        · exact ⟨dvd_of_mem_tallied hk, ⟨k, hk, le_rfl⟩, ⟨k, hk, le_rfl⟩⟩
        · exact hk.2
      · exact fun hk => Or.inr ⟨hw, hk⟩
    have hgap : ∀ a ∈ places parse w rows, ∀ b ∈ places parse w rows, a < b → a + w ≤ b := by
      intro a ha b hb hab
      have := Int.le_of_dvd (by omega) (dvd_sub (dvd_of_mem_places hb) (dvd_of_mem_places ha))
      omega
    refine Groups.isChain_of_width hw hsorted hgap fun a ha b hb hab => ?_
    obtain ⟨hdvd, ⟨first, hfirst, hle⟩, -⟩ := hmem.mp ha
    obtain ⟨-, -, last, hlast, hge⟩ := hmem.mp hb
    exact hmem.mpr ⟨dvd_add hdvd dvd_rfl, ⟨first, hfirst, by omega⟩, ⟨last, hlast, (hgap a ha b hb hab).trans hge⟩⟩

/-! ## The sums of all buckets -/

theorem sum_rowsOf (w : Int) (rows : List Observation) :
    ((places parse w rows).map fun k => ((rowsOf w rows k).map (share parse)).sum).sum = (rows.map (share parse)).sum := by
  have hkey : ∀ o ∈ rows.filter Listed, alignBucket o.ts w ∈ (filled w (tallied parse w rows)).keys := by
    intro o ho
    obtain ⟨hmem, hlisted⟩ := List.mem_filter.mp ho
    exact (Finset.mem_sort _).mp (mem_places parse hmem (by simpa using hlisted))
  refine (Groups.sum_inOrder _ (share parse) hkey).trans ?_
  -- a row that is not listed adds nothing
  have hsum := List.sum_map_filter_add_sum_map_filter_not (fun o => Listed o) (share parse) rows
  rw [← hsum, left_eq_add]
  refine List.sum_eq_zero fun x hx => ?_
  obtain ⟨o, ho, rfl⟩ := List.mem_map.mp hx
  exact share_unlisted (by simpa using (List.mem_filter.mp ho).2)

variable (parse) in
/-- Everything added up, before the division. -/
def rolledUp (w : Int) (rows : List Observation) : PnlBucket :=
  (values (filled w (tallied parse w rows))).foldl PnlBucket.rollUpRaw (.new 0)

theorem listed_of_mem_rowsOf (w : Int) (rows : List Observation) (k : Int) : ∀ o ∈ rowsOf w rows k, Listed o := by
  intro o ho
  simpa using (List.mem_filter.mp (List.mem_filter.mp ho).1).2

/-- The total is made of what the rows add, whatever the width. -/
theorem rolledUp_spec (parse : String → Option ℚ) (w : Int) (rows : List Observation) :
    (rolledUp parse w rows).sums = (rows.map (share parse)).sum ∧ (rolledUp parse w rows).Raw ∧
      (rolledUp parse w rows).bucket_ts = 0 := by
  obtain ⟨hsums, hraw, hts⟩ := PnlBucket.foldl_rollUpRaw (values (filled w (tallied parse w rows))) (PnlBucket.raw_new 0)
  refine ⟨?_, hraw, hts⟩
  rw [rolledUp, hsums, PnlBucket.sums_new, zero_add, values_filled, List.map_map, ← sum_rowsOf (w := w)]
  refine congrArg List.sum (List.map_congr_left fun k _ => ?_)
  exact (tally_spec parse k (listed_of_mem_rowsOf w rows k)).1

theorem rolledUp_width (w v : Int) (rows : List Observation) : rolledUp parse w rows = rolledUp parse v rows := by
  obtain ⟨hsums, hraw, hts⟩ := rolledUp_spec parse w rows
  obtain ⟨hsums', hraw', hts'⟩ := rolledUp_spec parse v rows
  exact hraw.eq hraw' (hts.trans hts'.symm) (hsums.trans hsums'.symm)

/-! ## Means -/

/-- The mean of some numbers; of none it is zero. -/
def mean (xs : List ℚ) : ℚ := xs.sum / xs.length

variable (parse) in
/-- The percentages of the closed orders. -/
def closedPcts (rows : List Observation) : List ℚ := (rows.filter fun o => status o = "closed").map (pnlPct parse)

/-- What the rows of a kind add to a sum. -/
theorem sum_share (field : Summed) (p : Observation → Prop) [DecidablePred p] (amount : Observation → ℚ)
    (h : ∀ o, share parse o field = if p o then amount o else 0) (rows : List Observation) :
    (rows.map (share parse)).sum field = ((rows.filter p).map amount).sum := by
  rw [Pi.list_sum_apply, List.map_map]
  have hmap : rows.map ((fun f => f field) ∘ share parse) = rows.map fun o => if p o then amount o else 0 :=
    List.map_congr_left fun o _ => h o
  rw [hmap, List.sum_map_ite]
  simp

/-- The percentages of the closed orders of a kind. -/
theorem filter_closedPcts (p : ℚ → Prop) [DecidablePred p] (rows : List Observation) :
    (closedPcts parse rows).filter p = (rows.filter fun o => status o = "closed" ∧ p (pnlPct parse o)).map (pnlPct parse) := by
  rw [closedPcts, List.filter_map, List.filter_filter]
  refine congrArg _ (List.filter_congr fun o _ => ?_)
  simp [and_comm]

/-- A sum of ones over a kind of rows counts them, and the division by it is a mean. -/
theorem div_eq_mean {sum number : Summed} {p : Observation → Prop} [DecidablePred p]
    (hsum : ∀ o, share parse o sum = if p o then pnlPct parse o else 0) (hnumber : ∀ o, share parse o number = if p o then 1 else 0)
    (rows : List Observation) :
    (rows.map (share parse)).sum sum / (rows.map (share parse)).sum number = mean ((rows.filter p).map (pnlPct parse)) := by
  rw [sum_share sum p _ hsum, sum_share number p _ hnumber, mean]
  simp

/-- The time is in the bucket: of width zero there is one bucket for all times. -/
def Within (w k ts : Int) : Prop := w = 0 ∨ k ≤ ts ∧ ts < k + w

instance (w k ts : Int) : Decidable (Within w k ts) := inferInstanceAs (Decidable (_ ∨ _))

/-- A time is aligned to the multiple of the width it is within. -/
theorem alignBucket_eq_iff (hw : 0 ≤ w) {k : Int} (hk : w ∣ k) (ts : Int) : alignBucket ts w = k ↔ Within w k ts := by
  rcases hw.eq_or_lt with rfl | hw
  · rw [zero_dvd_iff.mp hk]
    simp [alignBucket, Within]
  · have hle := Int.ediv_mul_le ts hw.ne'
    have hlt := Int.lt_ediv_add_one_mul_self ts hw
    have halign : alignBucket ts w = ts / w * w := if_neg hw.ne'
    rw [add_one_mul] at hlt
    rw [halign]
    constructor
    · rintro rfl
      exact Or.inr ⟨hle, hlt⟩
    · rintro (h | ⟨hge, hlt'⟩)
      · omega
      · have hdvd : w ∣ ts / w * w - k := dvd_sub (dvd_mul_left w _) hk
        have hzero := Int.eq_zero_of_abs_lt_dvd hdvd (abs_lt.mpr ⟨by omega, by omega⟩)
        omega

/-- The fields of a summary that repeat those of its total. -/
structure PnlSummary.Repeats (s : PnlSummary) : Prop where
  trades : s.trades = s.total.trades
  wins : s.wins = s.total.wins
  losses : s.losses = s.total.losses
  win_rate : s.win_rate = s.total.win_rate
  net_pnl_abs : s.net_pnl_abs = s.total.net_pnl_abs
  net_pnl_pct : s.net_pnl_pct = s.total.net_pnl_pct
  gross_profit_abs : s.gross_profit_abs = s.total.gross_profit_abs
  gross_loss_abs : s.gross_loss_abs = s.total.gross_loss_abs
  notional : s.notional = s.total.notional
  avg_win_pct : s.avg_win_pct = s.total.avg_win_pct
  avg_loss_pct : s.avg_loss_pct = s.total.avg_loss_pct
  long_trades : s.long_trades = s.total.long_trades
  short_trades : s.short_trades = s.total.short_trades
  open_count : s.open_count = s.total.open_count
  open_notional : s.open_notional = s.total.open_notional

/-- Of each order the newest row is there, the last one of its time, and every row without an order. -/
structure OnePerOrder (rows kept : List Observation) : Prop where
  sublist : kept.Sublist rows
  order (id : String) : (kept.filter fun o => orderId o = some id) =
    (Log.newest Observation.ts (rows.filter fun o => orderId o = some id)).toList
  no_order : (kept.filter fun o => orderId o = none) = rows.filter fun o => orderId o = none

/-- The rows are counted once each: in the bucket of their time, and with it in the total. -/
structure CountedOnce (parse : String → Option ℚ) (w : Int) (rows : List Observation) (s : PnlSummary) : Prop where
  contiguous : (s.buckets.map PnlBucket.bucket_ts).IsChain fun a b => a < b ∧ b = a + w
  aligned : ∀ b ∈ s.buckets, w ∣ b.bucket_ts
  covered : ∀ o ∈ rows, Listed o → ∃ b ∈ s.buckets, Within w b.bucket_ts o.ts
  sums : ∀ b ∈ s.buckets, b.sums = ((rows.filter fun o => Within w b.bucket_ts o.ts).map (share parse)).sum
  averages : ∀ b ∈ s.buckets, b.Averaged
  total : s.total.sums = (s.buckets.map PnlBucket.sums).sum
  rows : s.total.sums = (rows.map (share parse)).sum
  repeats : s.Repeats

/-- The averages of a summary are those of the closed orders, each with the same weight. -/
structure TrueMeans (parse : String → Option ℚ) (rows : List Observation) (s : PnlSummary) : Prop where
  win_rate : s.win_rate = (((closedPcts parse rows).filter (0 < ·)).length : ℚ) / (closedPcts parse rows).length
  net_pnl_pct : s.net_pnl_pct = mean (closedPcts parse rows)
  avg_win_pct : s.avg_win_pct = mean ((closedPcts parse rows).filter (0 < ·))
  avg_loss_pct : s.avg_loss_pct = mean ((closedPcts parse rows).filter (¬0 < ·))

/-! ## What is returned -/

variable (mark_price : Option ℚ) (fee_roundtrip : ℚ)

theorem places_nil : places parse w [] = [] := by
  rw [List.eq_nil_iff_forall_not_mem]
  intro k hk
  have hnone : ∀ k, k ∉ (tallied parse w []).keys := by
    intro k hk
    obtain ⟨o, ho, -⟩ := mem_tallied.mp (Finmap.mem_keys.mp hk)
    cases ho
  rcases mem_keys_filled.mp ((Finset.mem_sort _).mp hk) with h | ⟨-, -, ⟨a, ha, -⟩, -⟩
  · exact hnone k h
  · exact hnone a ha

variable (parse real)

theorem total_aggregate (w : Int) (rows : List Observation) :
    (aggregate parse real rows w mark_price fee_roundtrip).total = (rolledUp parse w rows).finalize := by
  unfold aggregate
  dsimp only
  split_ifs with h
  · subst h
    obtain ⟨hsums, hraw, hts⟩ := rolledUp_spec parse w []
    rw [hraw.eq (PnlBucket.raw_new 0) hts (hsums.trans (PnlBucket.sums_new 0).symm)]
    rfl
  · rfl

theorem buckets_aggregate (w : Int) (rows : List Observation) :
    (aggregate parse real rows w mark_price fee_roundtrip).buckets =
      (places parse w rows).map fun k => (tally parse k (rowsOf w rows k)).finalize := by
  unfold aggregate
  dsimp only
  split_ifs with h
  · rw [h, places_nil]
    rfl
  · rw [values_filled, List.map_map]
    rfl

theorem repeats_aggregate (w : Int) (rows : List Observation) :
    (aggregate parse real rows w mark_price fee_roundtrip).Repeats := by
  unfold aggregate
  dsimp only
  split_ifs <;> constructor <;> rfl

/-- The rows of a bucket are those whose time is in it, apart from rows that add nothing. -/
theorem sum_rowsOf_within (hw : 0 ≤ w) {k : Int} (hk : w ∣ k) (rows : List Observation) :
    ((rowsOf w rows k).map (share parse)).sum = ((rows.filter fun o => Within w k o.ts).map (share parse)).sum := by
  have hsum := List.sum_map_filter_add_sum_map_filter_not (fun o => Listed o) (share parse) (rows.filter fun o => Within w k o.ts)
  have hzero : (((rows.filter fun o => Within w k o.ts).filter fun o => ¬Listed o).map (share parse)).sum = 0 := by
    refine List.sum_eq_zero fun x hx => ?_
    obtain ⟨o, ho, rfl⟩ := List.mem_map.mp hx
    exact share_unlisted (by simpa using (List.mem_filter.mp ho).2)
  rw [← hsum, hzero, add_zero, rowsOf, List.filter_filter, List.filter_filter]
  refine congrArg List.sum (congrArg _ (List.filter_congr fun o _ => ?_))
  rw [decide_eq_decide.mpr (alignBucket_eq_iff hw hk o.ts), Bool.and_comm]

theorem aggregate_countedOnce (hw : 0 ≤ w) (rows : List Observation) :
    CountedOnce parse w rows (aggregate parse real rows w mark_price fee_roundtrip) := by
  have hplace (k : Int) := tally_spec parse k (listed_of_mem_rowsOf w rows k)
  have htimes : (aggregate parse real rows w mark_price fee_roundtrip).buckets.map PnlBucket.bucket_ts = places parse w rows := by
    rw [buckets_aggregate, List.map_map]
    refine (List.map_congr_left fun k _ => ?_).trans (List.map_id _)
    exact (PnlBucket.bucket_ts_finalize _).trans (hplace k).2.2
  have hbucket {b : PnlBucket} (hb : b ∈ (aggregate parse real rows w mark_price fee_roundtrip).buckets) :
      ∃ k ∈ places parse w rows, b = (tally parse k (rowsOf w rows k)).finalize ∧ b.bucket_ts = k := by
    rw [buckets_aggregate] at hb
    obtain ⟨k, hk, rfl⟩ := List.mem_map.mp hb
    exact ⟨k, hk, rfl, (PnlBucket.bucket_ts_finalize _).trans (hplace k).2.2⟩
  obtain ⟨hsums, -, -⟩ := rolledUp_spec parse w rows
  refine ⟨?_, ?_, ?_, ?_, ?_, ?_, ?_, repeats_aggregate parse real mark_price fee_roundtrip w rows⟩
  · rw [htimes]
    exact isChain_places hw
  · intro b hb
    obtain ⟨k, hk, -, hts⟩ := hbucket hb
    rw [hts]
    exact dvd_of_mem_places hk
  · intro o ho hlisted
    have hmem := mem_places parse (w := w) ho hlisted
    rw [← htimes] at hmem
    obtain ⟨b, hb, hts⟩ := List.mem_map.mp hmem
    refine ⟨b, hb, ?_⟩
    rw [hts]
    exact (alignBucket_eq_iff hw (dvd_alignBucket o.ts w) o.ts).mp rfl
  · intro b hb
    obtain ⟨k, hk, hbk, hts⟩ := hbucket hb
    rw [hts, hbk, PnlBucket.sums_finalize, (hplace k).1]
    exact sum_rowsOf_within parse hw (dvd_of_mem_places hk) rows
  · intro b hb
    obtain ⟨k, -, rfl, -⟩ := hbucket hb
    exact (hplace k).2.1.finalize
  · rw [total_aggregate, PnlBucket.sums_finalize, hsums, buckets_aggregate, List.map_map, ← sum_rowsOf (w := w)]
    refine congrArg List.sum (List.map_congr_left fun k _ => ?_)
    exact ((PnlBucket.sums_finalize _).trans (hplace k).1).symm
  · rw [total_aggregate, PnlBucket.sums_finalize, hsums]

theorem aggregate_trueMeans (w : Int) (rows : List Observation) :
    TrueMeans parse rows (aggregate parse real rows w mark_price fee_roundtrip) := by
  obtain ⟨hsums, hraw, -⟩ := rolledUp_spec parse w rows
  have hrepeats := repeats_aggregate parse real mark_price fee_roundtrip w rows
  have hfinal := hraw.finalize
  rw [← total_aggregate parse real mark_price fee_roundtrip] at hfinal
  obtain ⟨hrate, hnet, hwin, hloss⟩ := hfinal
  have htotal := total_aggregate parse real mark_price fee_roundtrip w rows
  rw [htotal, PnlBucket.sums_finalize, hsums, ← htotal] at hrate hnet hwin hloss
  refine ⟨?_, ?_, ?_, ?_⟩
  · rw [hrepeats.win_rate, hrate, sum_share .wins _ (fun _ => 1) fun o => rfl, sum_share .trades _ (fun _ => 1) fun o => rfl,
      filter_closedPcts, closedPcts]
    simp
  · rw [hrepeats.net_pnl_pct, hnet]
    exact div_eq_mean (fun o => rfl) (fun o => rfl) rows
  · rw [hrepeats.avg_win_pct, hwin, filter_closedPcts]
    exact div_eq_mean (fun o => rfl) (fun o => rfl) rows
  · rw [hrepeats.avg_loss_pct, hloss, filter_closedPcts]
    exact div_eq_mean (fun o => rfl) (fun o => rfl) rows

end Aggregate

/-- Each order is counted once at every interval: by its newest row, in the bucket of that row's time; the buckets follow one
another without a gap and add up to the total, the averages are those of the orders, and the total is the same at all
intervals. -/
theorem aggregate_dedup_exact (parse : String → Option ℚ) (real : UInt64 → ℚ) (rows : List Observation) (mark_price : Option ℚ)
    (fee_roundtrip : ℚ) :
    OnePerOrder rows (dedupOrders rows) ∧
      (∀ w : ℕ, CountedOnce parse w (dedupOrders rows) (aggregate parse real (dedupOrders rows) w mark_price fee_roundtrip) ∧
        TrueMeans parse (dedupOrders rows) (aggregate parse real (dedupOrders rows) w mark_price fee_roundtrip)) ∧
      ∀ w v : ℕ, (aggregate parse real (dedupOrders rows) w mark_price fee_roundtrip).total =
        (aggregate parse real (dedupOrders rows) v mark_price fee_roundtrip).total := by
  refine ⟨⟨dedupOrders_sublist rows, filter_dedupOrders rows, filter_dedupOrders_none rows⟩, fun w => ⟨?_, ?_⟩, fun w v => ?_⟩
  · exact aggregate_countedOnce parse real mark_price fee_roundtrip (Int.natCast_nonneg w) _
  · exact aggregate_trueMeans parse real mark_price fee_roundtrip w _
  · rw [total_aggregate, total_aggregate, rolledUp_width w v]

end Pnl

end Opsense
