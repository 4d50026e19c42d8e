import Opsense.Lib.Checked
import Opsense.Radix.Bloom

/-!
# United Bloom filters, and filters read from any bytes

The operations of `opsense-mlib/src/bloom.rs` with the places where they stop: an index past the words, a product past the end of its
type, the assertion of `union`. A filter that is put together from others contains what was inserted into them if no filter takes one
with fewer hashes (`run_contains`), and the bytes of which `deserialize` makes a filter that never looks past its words are those with a
header of this kind (`safe_iff`).
-/

namespace Opsense

open Partial

namespace BloomFilter

/-- `BloomFilter::new`. Past the largest power of two, `next_power_of_two` panics, or gives 0 in a build without overflow checks. -/
def tryNew (checks : Bool) (m k : Nat) : Except Panic BloomFilter :=
  if 2 ^ 63 < m then if checks = true then .error .overflow else .ok (new 0 k) else .ok (new m k)

/-- `set_bit` -/
def trySetBit (bits : List (BitVec 64)) (pos : Nat) : Except Panic (List (BitVec 64)) :=
  if bits.length ≤ pos / 64 then .error .index else .ok (setBit bits pos)

/-- `get_bit` -/
def tryGetBit (bits : List (BitVec 64)) (pos : Nat) : Except Panic Bool :=
  if bits.length ≤ pos / 64 then .error .index else .ok (getBit bits pos)

/-- The loop of `contains`, over the places that are left. -/
def tryContainsLoop (bits : List (BitVec 64)) : List Nat → Except Panic Bool
  | [] => .ok true
  | pos :: places => do
    let set ← tryGetBit bits pos
    if !set then .ok false else tryContainsLoop bits places

section

variable (bf : BloomFilter)

/-- `insert` -/
def tryInsert (data : Bytes) : Except Panic BloomFilter := do
  let bits ← (bf.places data).foldlM trySetBit bf.bits
  .ok { bf with bits := bits }

/-- `contains` -/
def tryContains (data : Bytes) : Except Panic Bool := tryContainsLoop bf.bits (bf.places data)

def union (other : BloomFilter) : Except String BloomFilter :=
  if bf.bits.length ≠ other.bits.length then .error "bloom size mismatch"
  else .ok { bf with bits := List.zipWith (· ||| ·) bf.bits other.bits }

end

/-- `deserialize`. A list of words takes fewer than `2 ^ 63` bytes. -/
def tryDeserialize (checks : Bool) (data : Bytes) : Except Panic (Option BloomFilter) :=
  if data.length < 32 then .ok none
  else do
    let header := data.take 32
    let rest := data.drop 32
    let bits_len := (ofLeBytes (header.take 8)).toNat
    let size ← mulU64 checks bits_len 8
    if rest.length < size then .ok none
    else if 2 ^ 63 ≤ bits_len * 8 then .error .capacity
    else
      .ok (some ⟨(List.range bits_len).map fun i => ofLeBytes ((rest.drop (i * 8)).take 8), ofLeBytes ((header.drop 8).take 8),
        ofLeBytes ((header.drop 16).take 8), ofLeBytes ((header.drop 24).take 8)⟩)

/-! ## Places within the words -/

variable {bf other : BloomFilter}

variable {bits : List (BitVec 64)}

theorem trySetBit_eq {pos : Nat} (h : pos / 64 < bits.length) : trySetBit bits pos = .ok (setBit bits pos) :=
  if_neg (not_le.mpr h)

theorem foldlM_trySetBit {places : List Nat} (h : ∀ p ∈ places, p / 64 < bits.length) :
    places.foldlM trySetBit bits = .ok (places.foldl setBit bits) := by
  induction places generalizing bits with
  | nil => rfl
  | cons p places ih =>
    rw [List.foldlM_cons, trySetBit_eq (h p List.mem_cons_self), ok_bind]
    refine ih fun p' hp' => ?_
    simpa using h p' (List.mem_cons_of_mem _ hp')

theorem tryInsert_eq {data : Bytes} (h : ∀ p ∈ bf.places data, p / 64 < bf.bits.length) : bf.tryInsert data = .ok (bf.insert data) := by
  rw [tryInsert, foldlM_trySetBit h, ok_bind]
  rfl

theorem tryContainsLoop_eq {places : List Nat} (h : ∀ p ∈ places, p / 64 < bits.length) :
    tryContainsLoop bits places = .ok (places.all (getBit bits)) := by
  induction places with
  | nil => rfl
  | cons p places ih =>
    have hrest := ih fun p' hp' => h p' (List.mem_cons_of_mem _ hp')
    have hget : tryGetBit bits p = .ok (getBit bits p) := if_neg (not_le.mpr (h p List.mem_cons_self))
    rw [tryContainsLoop, hget, ok_bind, hrest]
    cases hbit : getBit bits p <;> simp [hbit]

theorem tryContains_eq {data : Bytes} (h : ∀ p ∈ bf.places data, p / 64 < bf.bits.length) :
    bf.tryContains data = .ok (bf.contains data) := tryContainsLoop_eq h

/-- The first place past the words stops an insertion. -/
theorem foldlM_trySetBit_error {places : List Nat} {pos : Nat} (hmem : pos ∈ places) (hout : bits.length ≤ pos / 64) :
    ∃ e, places.foldlM trySetBit bits = .error e := by
  induction places generalizing bits with
  | nil => cases hmem
  | cons p places ih =>
    rw [List.foldlM_cons]
    by_cases hp : bits.length ≤ p / 64
    · exact ⟨.index, by rw [trySetBit, if_pos hp, error_bind]⟩
    · rw [not_le] at hp
      rw [trySetBit_eq hp, ok_bind]
      refine ih ?_ (by simpa using hout)
      rcases List.mem_cons.mp hmem with rfl | hmem
      · omega
      · exact hmem

/-! ## Filters that are put together -/

/-- How a filter is made: `new`, `insert`, `union` with another filter, and `serialize` with `deserialize` of the bytes. -/
inductive Build where
  | new (m k : BitVec 64)
  | insert (b : Build) (data : Bytes)
  | union (b other : Build)
  | reread (b : Build)

namespace Build

/-- The filter, unless the code stops. -/
def run (checks : Bool) : Build → Option BloomFilter
  | .new m k => (tryNew checks m.toNat k.toNat).toOption
  | .insert b data => (b.run checks).bind fun bf => (bf.tryInsert data).toOption
  | .union b other => (b.run checks).bind fun bf => (other.run checks).bind fun other => (bf.union other).toOption
  | .reread b => (b.run checks).bind fun bf => (tryDeserialize checks bf.serialize).toOption.join

/-- What was inserted into one of the filters. -/
def inserted : Build → List Bytes
  | .new _ _ => []
  | .insert b data => data :: b.inserted
  | .union b other => b.inserted ++ other.inserted
  | .reread b => b.inserted

/-- The number of hashes. -/
def hashes : Build → BitVec 64
  | .new _ k => k
  | .insert b _ => b.hashes
  | .union b _ => b.hashes
  | .reread b => b.hashes

/-- No filter takes in one with fewer hashes, unless nothing was inserted into it. -/
def Covered : Build → Prop
  | .new _ _ => True
  | .insert b _ => b.Covered
  | .union b other => b.Covered ∧ other.Covered ∧ (b.hashes ≤ other.hashes ∨ other.inserted = [])
  | .reread b => b.Covered

end Build

/-- The words are those of the mask. -/
structure Sized (bf : BloomFilter) : Prop where
  mask_succ : bf.m_mask.toNat + 1 = 64 * bf.bits.length
  length_lt : bf.bits.length < 2 ^ 60

theorem Sized.wf (h : bf.Sized) : bf.Wf :=
  ⟨by have := h.mask_succ; omega, h.length_lt.trans (by norm_num)⟩

theorem Sized.insert (h : bf.Sized) (data : Bytes) : (bf.insert data).Sized := by
  have hlen : (bf.insert data).bits.length = bf.bits.length := (foldl_setBit (h.wf.places_lt data)).1
  exact ⟨hlen ▸ h.mask_succ, hlen ▸ h.length_lt⟩

/-- A power of two within `usize`. -/
theorem nextPowerOfTwo_cases {m : Nat} (hm : m ≤ 2 ^ 63) : ∃ e ≤ 63, nextPowerOfTwo m = 2 ^ e := by
  unfold nextPowerOfTwo
  split_ifs with hone
  · exact ⟨0, by omega, rfl⟩
  · refine ⟨_, ?_, rfl⟩
    have hlog : (m - 1).log2 < 63 := (Nat.log2_lt (by omega)).mpr (by omega)
    omega

theorem sized_new {m : Nat} (hm : m ≤ 2 ^ 63) (k : Nat) : (new m k).Sized := by
  obtain ⟨e, he, hpow⟩ := nextPowerOfTwo_cases hm
  obtain ⟨n, hn, hmax⟩ : ∃ n ≤ 57, max (nextPowerOfTwo m) 64 = 64 * 2 ^ n := by
    rw [hpow]
    by_cases hsmall : e ≤ 6
    · exact ⟨0, by omega, max_eq_right (Nat.pow_le_pow_right (by omega) hsmall)⟩
    · refine ⟨e - 6, by omega, ?_⟩
      rw [max_eq_left (Nat.pow_le_pow_right (by omega) (by omega : 6 ≤ e)), ← Nat.pow_add 2 6, Nat.add_sub_cancel' (by omega)]
  have hpos : 0 < 2 ^ n := Nat.two_pow_pos n
  have hlt : 2 ^ n < 2 ^ 58 := Nat.pow_lt_pow_right (by omega) (by omega)
  have hlen : (new m k).bits.length = 2 ^ n := by
    simp only [new, hmax, List.length_replicate, Nat.mul_div_cancel_left _ (by omega : 0 < 64)]
  have hmask : (new m k).m_mask.toNat = 64 * 2 ^ n - 1 := by
    simp only [new, hmax, BitVec.toNat_ofNat]
    exact Nat.mod_eq_of_lt (by omega)
  exact ⟨by omega, by omega⟩

/-- Where the sizes are equal, the bits of either filter are set. -/
theorem getBit_zipWith {a b : List (BitVec 64)} (h : a.length = b.length) (pos : Nat) :
    getBit (List.zipWith (· ||| ·) a b) pos = (getBit a pos || getBit b pos) := by
  rw [getBit_eq, getBit_eq, getBit_eq, List.getD_eq_getElem?_getD, List.getD_eq_getElem?_getD, List.getD_eq_getElem?_getD,
    List.getElem?_zipWith]
  by_cases hpos : pos / 64 < a.length
  · simp [hpos, h ▸ hpos]
  · simp [hpos, h ▸ hpos]

/-- With as many hashes or fewer, the places are among those of the other filter. -/
theorem places_subset (hk : bf.k ≤ other.k) (hmask : bf.m_mask = other.m_mask) (data : Bytes) : bf.places data ⊆ other.places data := by
  intro p hp
  obtain ⟨i, hi, rfl⟩ := List.mem_map.mp hp
  refine List.mem_map.mpr ⟨i, List.mem_range.mpr (lt_of_lt_of_le (List.mem_range.mp hi) hk), ?_⟩
  rw [hmask]

/-- A filter that takes in another one of its size, with no fewer hashes, contains what either contains. -/
theorem contains_union {bf' : BloomFilter} (h : bf.Sized) (ho : other.Sized) (hunion : bf.union other = .ok bf') :
    bf'.Sized ∧ bf'.k = bf.k ∧ (∀ data, bf.contains data = true → bf'.contains data = true) ∧
      (bf.k ≤ other.k → ∀ data, other.contains data = true → bf'.contains data = true) := by
  unfold union at hunion
  split_ifs at hunion with hlen
  rw [not_not] at hlen
  cases hunion
  have hmask : bf.m_mask = other.m_mask := by
    have := h.mask_succ
    have := ho.mask_succ
    exact BitVec.eq_of_toNat_eq (by omega)
  refine ⟨⟨?_, ?_⟩, rfl, ?_, ?_⟩
  · simpa [hlen] using h.mask_succ
  · simpa [hlen] using ho.length_lt
  · intro data hin
    refine List.all_eq_true.mpr fun p hp => ?_
    rw [getBit_zipWith hlen, List.all_eq_true.mp hin p hp, Bool.true_or]
  · intro hk data hin
    refine List.all_eq_true.mpr fun p hp => ?_
    rw [getBit_zipWith hlen, List.all_eq_true.mp hin p (places_subset hk hmask data hp), Bool.or_true]

/-! ## Reading from bytes -/

/-- The number of words that the header announces. -/
def bitsLen (data : Bytes) : Nat := (ofLeBytes ((data.take 32).take 8)).toNat

/-- The number of hashes in the header. -/
def headerK (data : Bytes) : BitVec 64 := ofLeBytes (((data.take 32).drop 8).take 8)

/-- The mask in the header. -/
def headerMask (data : Bytes) : BitVec 64 := ofLeBytes (((data.take 32).drop 24).take 8)

/-- What reading does, by what the header says. -/
theorem tryDeserialize_cases (checks : Bool) (data : Bytes) :
    (data.length < 32 ∧ tryDeserialize checks data = .ok none) ∨
    (32 ≤ data.length ∧ checks = true ∧ 2 ^ 64 ≤ bitsLen data * 8 ∧ ∃ e, tryDeserialize checks data = .error e) ∨
    (32 ≤ data.length ∧ (checks = true → bitsLen data * 8 < 2 ^ 64) ∧ data.length - 32 < bitsLen data * 8 % 2 ^ 64 ∧
      tryDeserialize checks data = .ok none) ∨
    (32 ≤ data.length ∧ (checks = true → bitsLen data * 8 < 2 ^ 64) ∧ bitsLen data * 8 % 2 ^ 64 ≤ data.length - 32 ∧
      2 ^ 63 ≤ bitsLen data * 8 ∧ ∃ e, tryDeserialize checks data = .error e) ∨
    (32 ≤ data.length ∧ bitsLen data * 8 < 2 ^ 63 ∧ bitsLen data * 8 ≤ data.length - 32 ∧
      ∃ bf, tryDeserialize checks data = .ok (some bf) ∧ deserialize data = some bf ∧ bf.k = headerK data ∧
        bf.m_mask = headerMask data ∧ bf.bits.length = bitsLen data) := by
  unfold tryDeserialize
  by_cases hshort : data.length < 32
  · exact Or.inl ⟨hshort, if_pos hshort⟩
  rw [if_neg hshort]
  rw [not_lt] at hshort
  refine Or.inr ?_
  rcases gives_mulU64 checks (bitsLen data) 8 with ⟨hfits, hmul⟩ | ⟨hover, e, hmul⟩
  · refine Or.inr ?_
    change mulU64 checks (ofLeBytes ((data.take 32).take 8)).toNat 8 = _ at hmul
    simp only [hmul, ok_bind, List.length_drop]
    by_cases hfew : data.length - 32 < bitsLen data * 8 % 2 ^ 64
    · exact Or.inl ⟨hshort, hfits, hfew, if_pos hfew⟩
    rw [if_neg hfew]
    rw [not_lt] at hfew
    refine Or.inr ?_
    by_cases hcapacity : 2 ^ 63 ≤ bitsLen data * 8
    · exact Or.inl ⟨hshort, hfits, hfew, hcapacity, .capacity, if_pos hcapacity⟩
    · have hlt : bitsLen data * 8 < 2 ^ 63 := not_le.mp hcapacity
      have hmod : bitsLen data * 8 % 2 ^ 64 = bitsLen data * 8 := Nat.mod_eq_of_lt (by omega)
      rw [hmod] at hfew
      refine Or.inr ⟨hshort, hlt, hfew, _, if_neg hcapacity, ?_, rfl, rfl, ?_⟩
      · unfold deserialize
        rw [if_neg (by omega)]
        simp only [List.length_drop]
        exact if_neg (by simpa [bitsLen] using hfew)
      · simp [bitsLen]
  · refine Or.inl ⟨hshort, by tauto, by by_contra hlt; exact hover fun _ => not_le.mp hlt, e, ?_⟩
    change mulU64 checks (ofLeBytes ((data.take 32).take 8)).toNat 8 = _ at hmul
    simp only [hmul, error_bind]

/-- A filter of a size that `new` makes is read back as it was written. -/
theorem tryDeserialize_serialize (checks : Bool) (h : bf.Sized) : tryDeserialize checks bf.serialize = .ok (some bf) := by
  have hlength := h.length_lt
  have hlen : bf.serialize.length = 32 + bf.bits.length * 8 := by
    simp only [serialize, List.length_append, length_leBytes, length_words]
  have hread : deserialize bf.serialize = some bf := deserialize_serialize (hlength.trans (by norm_num))
  have hbits : bitsLen bf.serialize = bf.bits.length := by
    have htake : (bf.serialize.take 32).take 8 = leBytes (.ofNat 64 bf.bits.length) := by
      rw [List.take_take]
      simp only [serialize, List.append_assoc]
      exact List.take_left' (by simp)
    rw [bitsLen, htake, ofLeBytes_leBytes, BitVec.toNat_ofNat, Nat.mod_eq_of_lt (by omega)]
  rcases tryDeserialize_cases checks bf.serialize with
    ⟨h1, -⟩ | ⟨-, -, h2, -⟩ | ⟨-, -, h3, -⟩ | ⟨-, -, -, h4, -⟩ | ⟨-, -, -, bf', h5, h6, -⟩
  · omega
  · rw [hbits] at h2
    omega
  · rw [hbits] at h3
    omega
  · rw [hbits] at h4
    omega
  · rw [h6] at hread
    rw [h5, Option.some.inj hread]

/-! ## What a filter contains -/

/-- A filter in which no filter took one with fewer hashes contains what was inserted. -/
theorem run_contains {checks : Bool} {b : Build} (hcovered : b.Covered) {bf : BloomFilter} (hrun : b.run checks = some bf) :
    bf.Sized ∧ bf.k = b.hashes ∧ ∀ data ∈ b.inserted, bf.contains data = true := by
  induction b generalizing bf with
  | new m k =>
    have hnew : ∃ m' ≤ 2 ^ 63, bf = new m' k.toNat := by
      simp only [Build.run, tryNew] at hrun
      split_ifs at hrun with hlarge hchecks
      · cases hrun
      · exact ⟨0, by omega, (Option.some.inj hrun).symm⟩
      · exact ⟨m.toNat, not_lt.mp hlarge, (Option.some.inj hrun).symm⟩
    obtain ⟨m', hm', rfl⟩ := hnew
    exact ⟨sized_new hm' _, by simp [new, Build.hashes], by simp [Build.inserted]⟩
  | insert b data ih =>
    obtain ⟨bf₀, hrun₀, hinsert⟩ := Option.bind_eq_some_iff.mp hrun
    obtain ⟨hsized, hk, hin⟩ := ih hcovered hrun₀
    rw [tryInsert_eq (hsized.wf.places_lt data)] at hinsert
    obtain rfl := Option.some.inj hinsert
    refine ⟨hsized.insert data, hk, ?_⟩
    intro data' hdata'
    rcases List.mem_cons.mp hdata' with rfl | hdata'
    · exact contains_insert_self hsized.wf _
    · exact contains_insert_of_contains hsized.wf data (hin data' hdata')
  | union b other ihb iho =>
    obtain ⟨hb, ho, hless⟩ := hcovered
    obtain ⟨bf₀, hrun₀, hunion⟩ := Option.bind_eq_some_iff.mp hrun
    obtain ⟨bf₁, hrun₁, hunion⟩ := Option.bind_eq_some_iff.mp hunion
    obtain ⟨hsized, hk, hin⟩ := ihb hb hrun₀
    obtain ⟨hsized', hk', hin'⟩ := iho ho hrun₁
    rcases hresult : bf₀.union bf₁ with e | bf'
    · rw [hresult] at hunion
      cases hunion
    rw [hresult] at hunion
    obtain rfl := Option.some.inj hunion
    obtain ⟨hsized'', hk'', hleft, hright⟩ := contains_union hsized hsized' hresult
    refine ⟨hsized'', hk''.trans hk, ?_⟩
    intro data hdata
    rcases List.mem_append.mp hdata with hdata | hdata
    · exact hleft data (hin data hdata)
    · rcases hless with hless | hempty
      · exact hright (by rw [hk, hk']; exact hless) data (hin' data hdata)
      · rw [hempty] at hdata
        cases hdata
  | reread b ih =>
    obtain ⟨bf₀, hrun₀, hread⟩ := Option.bind_eq_some_iff.mp hrun
    obtain ⟨hsized, hk, hin⟩ := ih hcovered hrun₀
    rw [tryDeserialize_serialize checks hsized] at hread
    obtain rfl := Option.some.inj hread
    exact ⟨hsized, hk, hin⟩

/-! ## Reading safely -/

/-- No insertion and no question looks past the words. A slice has fewer than `2 ^ 63` bytes. -/
def InBounds (bf : BloomFilter) : Prop :=
  ∀ data : Bytes, data.length < 2 ^ 63 → (∃ bf', bf.tryInsert data = .ok bf') ∧ ∃ set, bf.tryContains data = .ok set

/-- The bytes are refused, or read as a filter that stays within its words. -/
def ReadsSafely (checks : Bool) (data : Bytes) : Prop :=
  ∃ read, tryDeserialize checks data = .ok read ∧ ∀ bf, read = some bf → bf.InBounds

/-- The bytes are too few, or the mask of a filter that hashes is within the words. -/
def SafeHeader (checks : Bool) (data : Bytes) : Prop :=
  data.length < 32 ∨ (checks = true → bitsLen data * 8 < 2 ^ 64) ∧
    (data.length - 32 < bitsLen data * 8 % 2 ^ 64 ∨
      bitsLen data * 8 < 2 ^ 64 ∧ (headerK data = 0 ∨ (headerMask data).toNat < 64 * bitsLen data))

/-- Bytes whose first hash has every bit set. -/
def allOnesHashed : Bytes := [101, 106, 41, 62, 54, 37, 23, 254, 37, 52, 14, 6, 95, 71, 61, 11, 51, 62, 62, 110, 99, 51]

theorem hash_allOnesHashed : (hash128 allOnesHashed).1 = BitVec.allOnes 64 := by decide +kernel

/-- The first place of these bytes is the mask. -/
theorem mask_mem_places (hk : bf.k ≠ 0) : bf.m_mask.toNat ∈ bf.places allOnesHashed := by
  have hpos : 0 < bf.k.toNat := Nat.pos_of_ne_zero fun h => hk (BitVec.eq_of_toNat_eq h)
  refine List.mem_map.mpr ⟨0, List.mem_range.mpr hpos, ?_⟩
  rw [hash_allOnesHashed, BitVec.zero_mul, BitVec.add_zero, BitVec.allOnes_and]

/-- A filter stays within its words exactly if it hashes nothing, or its mask is within them. -/
theorem inBounds_iff : bf.InBounds ↔ bf.k = 0 ∨ bf.m_mask.toNat < 64 * bf.bits.length := by
  constructor
  · intro hin
    by_contra hout
    rw [not_or, not_lt] at hout
    have hlong : bf.bits.length ≤ bf.m_mask.toNat / 64 := by omega
    obtain ⟨⟨bf', hinsert⟩, -⟩ := hin allOnesHashed (by decide)
    obtain ⟨e, herror⟩ := foldlM_trySetBit_error (mask_mem_places hout.1) hlong
    rw [tryInsert, herror] at hinsert
    cases hinsert
  · intro hsafe data _
    have hplaces : ∀ p ∈ bf.places data, p / 64 < bf.bits.length := by
      intro p hp
      obtain ⟨i, hi, rfl⟩ := List.mem_map.mp hp
      rcases hsafe with hk | hmask
      · rw [hk] at hi
        simp at hi
      · have hle : (((hash128 data).1 + .ofNat 64 i * (hash128 data).2) &&& bf.m_mask).toNat ≤ bf.m_mask.toNat := by
          rw [BitVec.toNat_and]
          exact Nat.and_le_right
        omega
    exact ⟨⟨_, tryInsert_eq hplaces⟩, _, tryContains_eq hplaces⟩

theorem safe_iff (checks : Bool) {data : Bytes} (hdata : data.length < 2 ^ 63) : ReadsSafely checks data ↔ SafeHeader checks data := by
  unfold ReadsSafely SafeHeader
  rcases tryDeserialize_cases checks data with ⟨hshort, hread⟩ | ⟨hlong, hchecks, hover, e, hread⟩ | ⟨hlong, hfits, hfew, hread⟩ |
    ⟨hlong, hfits, hmany, hcapacity, e, hread⟩ | ⟨hlong, hlt, hmany, bf, hread, -, hk, hmask, hlen⟩
  · exact iff_of_true ⟨none, hread, fun bf hbf => by cases hbf⟩ (Or.inl hshort)
  · refine iff_of_false ?_ ?_
    · rintro ⟨read, hread', -⟩
      rw [hread] at hread'
      cases hread'
    · rintro (hshort | ⟨hfits, -⟩)
      · omega
      · have := hfits hchecks
        omega
  · exact iff_of_true ⟨none, hread, fun bf hbf => by cases hbf⟩ (Or.inr ⟨hfits, Or.inl hfew⟩)
  · refine iff_of_false ?_ ?_
    · rintro ⟨read, hread', -⟩
      rw [hread] at hread'
      cases hread'
    · rintro (hshort | ⟨-, hfew | ⟨hlt, -⟩⟩) <;> omega
  · have hbounds : (∃ read, tryDeserialize checks data = .ok read ∧ ∀ bf, read = some bf → bf.InBounds) ↔ bf.InBounds := by
      constructor
      · rintro ⟨read, hread', hin⟩
        rw [hread] at hread'
        exact hin bf (Except.ok.inj hread').symm
      · intro hin
        refine ⟨_, hread, fun bf' hbf' => ?_⟩
        rwa [← Option.some.inj hbf']
    rw [hbounds, inBounds_iff, hk, hmask, hlen]
    constructor
    · intro hsafe
      exact Or.inr ⟨fun _ => by omega, Or.inr ⟨by omega, hsafe⟩⟩
    · rintro (hshort | ⟨-, hfew | ⟨-, hsafe⟩⟩)
      · omega
      · omega
      · exact hsafe

/-- What was inserted into one of the united filters is contained, if no filter took one with fewer hashes; and a filter is read safely
exactly from bytes with a safe header. -/
theorem bloom_sound (checks : Bool) :
    (∀ b : Build, b.Covered → ∀ bf, b.run checks = some bf → ∀ data ∈ b.inserted, bf.tryContains data = .ok true) ∧
      ∀ data : Bytes, data.length < 2 ^ 63 → (ReadsSafely checks data ↔ SafeHeader checks data) := by
  refine ⟨?_, fun data hdata => safe_iff checks hdata⟩
  intro b hcovered bf hrun data hdata
  obtain ⟨hsized, -, hin⟩ := run_contains hcovered hrun
  rw [tryContains_eq (hsized.wf.places_lt data), hin data hdata]

/-- Two filters with as many hashes, united. -/
def twoUnited : Build := .union (.insert (.new 64 2) [97]) (.insert (.new 64 2) [98])

theorem bloom_sound_two : twoUnited.run true = some ⟨[288230376155979776], 2, 64, 63⟩ ∧
    (∀ data ∈ twoUnited.inserted, tryContains ⟨[288230376155979776], 2, 64, 63⟩ data = .ok true) ∧
    (ReadsSafely true [] ↔ SafeHeader true []) := by
  have hcovered : twoUnited.Covered := ⟨trivial, trivial, Or.inl (BitVec.le_refl _)⟩
  have hrun : twoUnited.run true = some ⟨[288230376155979776], 2, 64, 63⟩ := by decide +kernel
  exact ⟨hrun, (bloom_sound true).1 twoUnited hcovered _ hrun, (bloom_sound true).2 [] (by decide)⟩

/-- A filter with two hashes that takes in one with one. -/
def fewerHashes : Build := .union (.new 64 2) (.insert (.new 64 1) [97])

/-- One word, one hash, and a mask of 127. -/
def wideMask : Bytes := leBytes 1 ++ leBytes 1 ++ leBytes 64 ++ leBytes 127 ++ leBytes 0

/-- What was inserted into the filter with one hash is not contained in the union; and a filter read from bytes whose mask is past the
words stops at an insertion. -/
theorem united_not_contained : (fewerHashes.run true = some ⟨[65536], 2, 64, 63⟩ ∧ [97] ∈ fewerHashes.inserted ∧
      tryContains ⟨[65536], 2, 64, 63⟩ [97] = .ok false) ∧
    tryDeserialize true wideMask = .ok (some ⟨[0], 1, 64, 127⟩) ∧ tryInsert ⟨[0], 1, 64, 127⟩ allOnesHashed = .error .index := by
  refine ⟨⟨?_, ?_, ?_⟩, ?_, ?_⟩ <;> decide +kernel

end BloomFilter

end Opsense
