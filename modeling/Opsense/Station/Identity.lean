import Opsense.Lib.Readings
import Opsense.Station.Memory

/-!
# What the identity of an observation tells apart

`obs_identity` writes the labels of an observation to one text and escapes nothing, so two observations that differ in their labels
alone may have one identity. They have it when steps lead from the labels of the one to those of the other (`Confused`). An
observation without labels, or with one label free of `=`, has its identity for itself (`Plain`).
-/

namespace Opsense

namespace Observation

variable {a b : Observation}

/-- The labels as the lists of their characters. -/
def entries (o : Observation) : List (List Char × List Char) := o.labels.val.map fun l => (l.1.toList, l.2.toList)

/-- The observations agree in all but their labels. -/
structure SameButLabels (a b : Observation) : Prop where
  ts : a.ts = b.ts
  metric_id : a.metric_id = b.metric_id
  kind : a.kind = b.kind
  signal : a.signal = b.signal
  value : a.value = b.value
  severity : a.severity = b.severity

/-- The observations differ in their labels alone, and moving an `=` between the key and the value of a label, or cutting a value at
a `U+0001` into two labels, leads from the labels of the one to those of the other. -/
structure Confused (a b : Observation) : Prop where
  same : SameButLabels a b
  labels : a.labels ≠ b.labels
  chain : Relation.EqvGen (Readings.Moved '=' '\u0001') a.entries b.entries

/-- No label, or one without `=` in its key and its value. -/
def Plain (o : Observation) : Prop := Readings.Alone '=' o.entries

theorem entries_injective (h : a.entries = b.entries) : a.labels = b.labels := by
  refine Subtype.ext ((List.map_injective_iff.mpr fun l l' heq => ?_) h)
  obtain ⟨hkey, hvalue⟩ := Prod.mk.inj heq
  exact Prod.ext (String.toList_injective hkey) (String.toList_injective hvalue)

theorem SameButLabels.eq (h : SameButLabels a b) (hlabels : a.labels = b.labels) : a = b := by
  obtain ⟨h1, h2, h3, h4, h5, h6⟩ := h
  cases a
  cases b
  simp_all

/-- The text of the labels in an identity. -/
theorem toList_labels (o : Observation) :
    (String.join (o.labels.val.map fun l => l.1 ++ "=" ++ l.2 ++ "\u0001")).toList = Readings.text '=' '\u0001' o.entries := by
  unfold entries
  induction o.labels.val with
  | nil => rfl
  | cons l ls ih =>
    rw [List.map_cons, String.join_cons, String.toList_append, ih, List.map_cons, Readings.text_cons]
    simp [String.toList_append]

theorem identity_eq_iff : obsIdentity a = obsIdentity b ↔
    SameButLabels a b ∧ Readings.text '=' '\u0001' a.entries = Readings.text '=' '\u0001' b.entries := by
  rw [← toList_labels, ← toList_labels, String.toList_inj]
  simp only [obsIdentity, Prod.mk.injEq]
  constructor
  · rintro ⟨h1, h2, h3, h4, h5, h6, h7⟩
    exact ⟨⟨h1, h2, h3, h4, h5, h6⟩, h7⟩
  · rintro ⟨⟨h1, h2, h3, h4, h5, h6⟩, h7⟩
    exact ⟨h1, h2, h3, h4, h5, h6, h7⟩

/-- Different observations have one identity when they are confused. -/
theorem confused_iff : Confused a b ↔ obsIdentity a = obsIdentity b ∧ a ≠ b := by
  rw [identity_eq_iff, Readings.text_eq_iff]
  constructor
  · rintro ⟨hsame, hlabels, hchain⟩
    exact ⟨⟨hsame, hchain⟩, fun heq => hlabels (heq ▸ rfl)⟩
  · rintro ⟨⟨hsame, hchain⟩, hne⟩
    exact ⟨hsame, fun hlabels => hne (hsame.eq hlabels), hchain⟩

theorem identity_exact_pair : (obsIdentity a = obsIdentity b ↔ a = b) ↔ ¬Confused a b := by
  rw [confused_iff, not_and_not_right]
  exact ⟨fun h => h.mp, fun h => ⟨h, fun heq => heq ▸ rfl⟩⟩

theorem oneLabel_sorted (key value : String) : [(key, value)].Pairwise fun a b => a.1 < b.1 := List.pairwise_singleton _ _

/-- One label instead of those of an observation. -/
def relabel (o : Observation) (key value : String) : Observation := { o with labels := ⟨[(key, value)], oneLabel_sorted key value⟩ }

/-- The identity of a plain observation is its own, and that of any other is shared with an observation of one label. -/
theorem forall_not_confused_iff (a : Observation) : (∀ b, ¬Confused a b) ↔ a.Plain := by
  constructor
  · intro h
    by_contra hplain
    obtain ⟨⟨k, v⟩, hne, htext⟩ := Readings.exists_other '\u0001' hplain
    have hentries : (a.relabel (String.ofList k) (String.ofList v)).entries = [(k, v)] := by
      simp [entries, relabel]
    refine h (a.relabel (String.ofList k) (String.ofList v)) ⟨⟨rfl, rfl, rfl, rfl, rfl, rfl⟩, fun heq => hne ?_, ?_⟩
    · rw [← hentries]
      unfold entries
      rw [heq]
    · rw [hentries]
      exact Readings.text_eq_iff.mp htext
  · rintro hplain b ⟨-, hlabels, hchain⟩
    exact hlabels (entries_injective (Readings.eq_of_alone (by decide) hplain (Readings.text_eq_of_chain hchain))).symm

end Observation

open Observation in
/-- The identity tells two observations apart unless they are confused. It is exact for an observation beside all others when the
observation is plain, and the dedup of a block keeps an observation that differs from all others of the block unless one confused with
it came before. -/
theorem identity_exact_iff (a b : Observation) (d id : Int) (records : List Observation) (query_from query_to now : Int)
    (block : Block) :
    ((obsIdentity a = obsIdentity b ↔ a = b) ↔ ¬Confused a b) ∧
      ((∀ b, obsIdentity a = obsIdentity b ↔ a = b) ↔ a.Plain) ∧
      (((block.items ++ records.filter fun o => Block.Covers d id o.ts).count a = 1 →
          a ∈ (block.update d id records query_from query_to now).items) ↔
        ¬((block.items ++ records.filter fun o => Block.Covers d id o.ts).count a = 1 ∧
          ∃ o, List.Sublist [o, a] (block.items ++ records.filter fun o => Block.Covers d id o.ts) ∧ Confused o a)) := by
  refine ⟨identity_exact_pair, (forall_congr' fun b => identity_exact_pair).trans (forall_not_confused_iff a), ?_⟩
  have hitems : (block.update d id records query_from query_to now).items =
      Log.distinct obsIdentity Observation.ts (block.items ++ records.filter fun o => Block.Covers d id o.ts) :=
    MemoryStation.items_update ⟨records, query_from, query_to, now⟩ block
  rw [hitems, not_and]
  refine forall_congr' fun hcount => ?_
  rw [Log.mem_distinct_iff_before MemoryStation.identity_ts hcount, not_exists]
  refine forall_congr' fun o => ?_
  rw [not_and]
  refine forall_congr' fun hbefore => ?_
  rw [confused_iff, not_and_not_right]
  refine ⟨fun hne heq => absurd heq hne, fun hdiff heq => ?_⟩
  -- an observation before the only one of its kind is another one
  obtain rfl := hdiff heq
  have htwo := hbefore.count_le o
  rw [hcount] at htwo
  simp at htwo

/-- An order of the book `A` that is open. -/
def openOrder : Observation :=
  { ts := 1, metric_id := "orders", kind := .metric, signal := .order, value := 0,
    labels := ⟨[("book", "A"), ("state", "open")], by decide⟩, severity := none }

/-- An order of a book whose name holds the end of a label. -/
def oddOrder : Observation := openOrder.relabel "book" "A\u0001state=open"

/-- A block drops one of the two orders. -/
theorem odd_order_dropped : obsIdentity openOrder = obsIdentity oddOrder ∧ openOrder ≠ oddOrder ∧
    (Block.empty.update 10 0 [openOrder, oddOrder] 0 9 0).items = [openOrder] := by
  decide +kernel

end Opsense
