import Opsense.Lib.Text

/-!
# Observations and blocks

`Observation` of `opsense-model/src/events.rs` and `Block` of `opsense-core/src/station.rs`. A block is written by
`update_range`, one pass of whose loop is `Block.update`. A value is given by its bits, as the identity of an observation
compares it, and the labels of an observation are the entries of its map in the order of their keys. Times are far enough from
the ends of `i64` for the bounds of their block.
-/

namespace Opsense

inductive TelemetryKind where
  | metric
  | log
  | trace
deriving DecidableEq, Repr

inductive Signal where
  | utilization
  | saturation
  | rate
  | errors
  | duration
  | raw
  | summary
  | order
deriving DecidableEq, Repr

inductive LogLevel where
  | debug
  | info
  | warn
  | error
deriving DecidableEq, Repr

/-- A `HashMap<String, String>`: its entries, in the order of their keys. -/
abbrev Labels := { entries : List (String × String) // entries.Pairwise fun a b => a.1 < b.1 }

/-- `HashMap::get` -/
def Labels.get (labels : Labels) (key : String) : Option String := (labels.val.find? fun l => l.1 = key).map Prod.snd

theorem noLabels_sorted : ([] : List (String × String)).Pairwise fun a b => a.1 < b.1 := List.Pairwise.nil

structure Observation where
  ts : Int
  metric_id : String
  kind : TelemetryKind
  signal : Signal
  /-- The bits of the `f64`. -/
  value : UInt64
  labels : Labels
  severity : Option LogLevel
deriving DecidableEq

/-- What `obs_identity` compares. -/
abbrev ObsIdentity := Int × String × TelemetryKind × Signal × UInt64 × Option LogLevel × String

/-- `obs_identity`: everything of an observation, its sorted labels joined to one text. -/
def obsIdentity (o : Observation) : ObsIdentity :=
  (o.ts, o.metric_id, o.kind, o.signal, o.value, o.severity,
    String.join (o.labels.val.map fun l => l.1 ++ "=" ++ l.2 ++ "\u0001"))

structure Block where
  items : List Observation
  range : Int × Int
  last_updated : Int
deriving DecidableEq

namespace Block

/-- `Block::default` -/
def empty : Block := ⟨[], (2 ^ 63 - 1, 0), 0⟩

/-- `get_block_id` -/
def idOf (block_duration timestamp : Int) : Int := timestamp.tdiv block_duration

/-- The first time of a block. -/
def start (block_duration block_id : Int) : Int := block_id * block_duration

/-- The last time of a block. -/
def finish (block_duration block_id : Int) : Int := (block_id + 1) * block_duration - 1

/-- The time is one of the block. -/
def Covers (block_duration block_id ts : Int) : Prop := start block_duration block_id ≤ ts ∧ ts ≤ finish block_duration block_id

instance (block_duration block_id ts : Int) : Decidable (Covers block_duration block_id ts) := by
  unfold Covers; infer_instance

/-- `start_block..=end_block` -/
def ids (start_block end_block : Int) : List Int :=
  (List.range (end_block - start_block + 1).toNat).map fun i : Nat => start_block + (i : Int)

/-- Keep the first of the observations with one identity. -/
def retainFirst (seen : List ObsIdentity) : List Observation → List Observation
  | [] => []
  | o :: os =>
    if obsIdentity o ∈ seen then retainFirst seen os else o :: retainFirst (obsIdentity o :: seen) os

/-- One pass of the loop of `update_range`: the records of the block join its items. -/
def update (block_duration block_id : Int) (records : List Observation) (query_from query_to now : Int) (block : Block) :
    Block :=
  let items := block.items ++ records.filter fun o => Covers block_duration block_id o.ts
  { items := retainFirst [] (items.insertionSort fun a b => a.ts ≤ b.ts)
    range := (min block.range.1 (max query_from (start block_duration block_id)),
      max block.range.2 (min query_to (finish block_duration block_id)))
    last_updated := now }

/-- The items of a block a query asks for. -/
def window (block_duration block_id from_ts to_ts : Int) (block : Block) : List Observation :=
  block.items.filter fun o =>
    max from_ts (start block_duration block_id) ≤ o.ts ∧ o.ts ≤ min to_ts (finish block_duration block_id)

/-! ## Which block a time belongs to -/

variable {d : Int}

theorem covers_idOf (hd : 0 < d) {ts : Int} (hts : 0 ≤ ts) : Covers d (idOf d ts) ts := by
  unfold Covers start finish idOf
  rw [Int.tdiv_eq_ediv_of_nonneg hts]
  have hlt := Int.lt_ediv_add_one_mul_self ts hd
  exact ⟨Int.ediv_mul_le ts hd.ne', by omega⟩

theorem idOf_mono (hd : 0 < d) {a b : Int} (h : a ≤ b) : idOf d a ≤ idOf d b := Int.tdiv_le_tdiv hd h

theorem mem_ids {start_block end_block b : Int} : b ∈ ids start_block end_block ↔ start_block ≤ b ∧ b ≤ end_block := by
  unfold ids
  rw [List.mem_map]
  constructor
  · rintro ⟨i, hi, rfl⟩
    have := List.mem_range.mp hi
    omega
  · rintro ⟨h1, h2⟩
    exact ⟨(b - start_block).toNat, List.mem_range.mpr (by omega), by omega⟩

theorem nodup_ids (start_block end_block : Int) : (ids start_block end_block).Nodup := by
  refine List.Nodup.map (fun i j h => ?_) List.nodup_range
  omega

/-- A time is in one block only. -/
theorem Covers.unique (hd : 0 < d) {a b ts : Int} (ha : Covers d a ts) (hb : Covers d b ts) : a = b := by
  have hle : ∀ {a b : Int}, Covers d a ts → Covers d b ts → a ≤ b := by
    intro a b ha hb
    by_contra hlt
    have hmul : (b + 1) * d ≤ a * d := Int.mul_le_mul_of_nonneg_right (by omega) hd.le
    have h1 : a * d ≤ ts := ha.1
    have h2 : ts ≤ (b + 1) * d - 1 := hb.2
    omega
  exact le_antisymm (hle ha hb) (hle hb ha)

theorem idOf_start (hd : 0 < d) (b : Int) : idOf d (start d b) = b := Int.mul_tdiv_cancel b hd.ne'

theorem start_le_finish (hd : 0 < d) (b : Int) : start d b ≤ finish d b := by
  have hsucc : (b + 1) * d = b * d + d := by rw [Int.add_mul, Int.one_mul]
  unfold start finish
  omega

theorem idOf_finish_le (hd : 0 < d) (b : Int) : idOf d (finish d b) ≤ b + 1 := by
  calc idOf d (finish d b) ≤ idOf d (start d (b + 1)) := idOf_mono hd (by unfold start finish; omega)
    _ = b + 1 := idOf_start hd (b + 1)

/-! ## What an update keeps -/

variable {o : Observation}

theorem mem_of_mem_retainFirst {seen : List ObsIdentity} {os : List Observation} (h : o ∈ retainFirst seen os) : o ∈ os := by
  induction os generalizing seen with
  | nil => exact h
  | cons o' os ih =>
    unfold retainFirst at h
    split_ifs at h with hseen
    · exact List.mem_cons_of_mem _ (ih h)
    · rcases List.mem_cons.mp h with rfl | h
      · exact List.mem_cons_self
      · exact List.mem_cons_of_mem _ (ih h)

/-- Every observation not seen before is kept, up to its identity. -/
theorem exists_mem_retainFirst {seen : List ObsIdentity} {os : List Observation} (h : o ∈ os) (hseen : obsIdentity o ∉ seen) :
    ∃ o' ∈ retainFirst seen os, obsIdentity o' = obsIdentity o := by
  induction os generalizing seen with
  | nil => cases h
  | cons o' os ih =>
    unfold retainFirst
    by_cases heq : obsIdentity o' = obsIdentity o
    · rw [if_neg (heq ▸ hseen)]
      exact ⟨o', List.mem_cons_self, heq⟩
    · have hos : o ∈ os := (List.mem_cons.mp h).resolve_left fun ho => heq (ho ▸ rfl)
      split_ifs
      · exact ih hos hseen
      · obtain ⟨o'', ho'', hid⟩ := ih hos
          (List.not_mem_cons_of_ne_of_not_mem (Ne.symm heq) hseen)
        exact ⟨o'', List.mem_cons_of_mem _ ho'', hid⟩

/-- An update brings in nothing but the records of the block. -/
theorem mem_of_mem_update {b : Int} {records : List Observation} {query_from query_to now : Int} {block : Block}
    (h : o ∈ (update d b records query_from query_to now block).items) :
    o ∈ block.items ∨ (o ∈ records ∧ Covers d b o.ts) := by
  have := List.mem_append.mp ((List.mem_insertionSort _).mp (mem_of_mem_retainFirst h))
  rcases this with h | h
  · exact Or.inl h
  · obtain ⟨hr, hc⟩ := List.mem_filter.mp h
    exact Or.inr ⟨hr, of_decide_eq_true hc⟩

/-- An update keeps what the block held and the records of the block, up to their identity. -/
theorem exists_mem_update (d b : Int) (records : List Observation) (query_from query_to now : Int) {block : Block}
    (h : o ∈ block.items ∨ (o ∈ records ∧ Covers d b o.ts)) :
    ∃ o' ∈ (update d b records query_from query_to now block).items, obsIdentity o' = obsIdentity o := by
  refine exists_mem_retainFirst ((List.mem_insertionSort _).mpr (List.mem_append.mpr ?_)) List.not_mem_nil
  rcases h with h | ⟨hr, hc⟩
  · exact Or.inl h
  · exact Or.inr (List.mem_filter.mpr ⟨hr, decide_eq_true hc⟩)

theorem mem_window {b from_ts to_ts : Int} {block : Block} :
    o ∈ window d b from_ts to_ts block ↔ o ∈ block.items ∧ from_ts ≤ o.ts ∧ o.ts ≤ to_ts ∧ Covers d b o.ts := by
  unfold window Covers
  rw [List.mem_filter, decide_eq_true_eq]
  constructor
  · rintro ⟨h, h1, h2⟩
    exact ⟨h, by omega, by omega, by omega, by omega⟩
  · rintro ⟨h, h1, h2, h3, h4⟩
    exact ⟨h, by omega, by omega⟩

/-- A window as wide as the block shows all of it. -/
theorem window_all {b : Int} {block : Block} (h : ∀ o ∈ block.items, Covers d b o.ts) :
    window d b (start d b) (finish d b) block = block.items := by
  unfold window
  refine List.filter_eq_self.mpr fun o ho => decide_eq_true ?_
  obtain ⟨h1, h2⟩ := h o ho
  exact ⟨by omega, by omega⟩

/-- Such a window shows nothing of another block. -/
theorem window_other (hd : 0 < d) {b b' : Int} (hne : b' ≠ b) (block : Block) :
    window d b' (start d b) (finish d b) block = [] := by
  refine List.eq_nil_iff_forall_not_mem.mpr fun o ho => ?_
  obtain ⟨-, h1, h2, hcovers⟩ := mem_window.mp ho
  exact hne (Covers.unique hd hcovers ⟨h1, h2⟩)

end Block

end Opsense
