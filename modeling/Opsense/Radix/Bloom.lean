import Opsense.Radix.Radix

/-!
# Bloom filters

`opsense-mlib/src/bloom.rs`: a set of byte strings as bits at places that a string is hashed to. `contains` may say yes of a string
that was not inserted, but never no of one that was (`contains_insertAll`), also after the filter is written and read back
(`deserialize_serialize`).
-/

namespace Opsense

/-- `BloomFilter`, with its words of bits, the number of hashes, the number of bits and the mask of a place. -/
structure BloomFilter where
  bits : List (BitVec 64)
  k : BitVec 64
  m : BitVec 64
  m_mask : BitVec 64
deriving DecidableEq, Repr

namespace BloomFilter

/-- `usize::next_power_of_two` -/
def nextPowerOfTwo (m : Nat) : Nat := if m ≤ 1 then 1 else 2 ^ ((m - 1).log2 + 1)

/-- `BloomFilter::new` -/
def new (m k : Nat) : BloomFilter :=
  let m := max (nextPowerOfTwo m) 64
  ⟨List.replicate (m / 64) 0, .ofNat 64 k, .ofNat 64 m, .ofNat 64 (m - 1)⟩

/-- One of the loops of `hash128`, from its seed. -/
def fxHash (seed : BitVec 64) (data : Bytes) : BitVec 64 :=
  data.foldl (fun h byte => (h ^^^ byte.toBitVec.setWidth 64) * 0x517cc1b727220a95#64) seed

def hash128 (data : Bytes) : BitVec 64 × BitVec 64 :=
  let h1 := fxHash 0#64 data
  let h2 := fxHash 0xa5a5a5a5a5a5a5a5#64 data
  (h1 ^^^ (h1 >>> 32), h2 ^^^ (h2 >>> 32))

/-- `set_bit`, at a place within the words. -/
def setBit (bits : List (BitVec 64)) (pos : Nat) : List (BitVec 64) := bits.modify (pos / 64) (· ||| 1#64 <<< (pos % 64))

/-- `get_bit`, at a place within the words. -/
def getBit (bits : List (BitVec 64)) (pos : Nat) : Bool := (bits.getD (pos / 64) 0#64 >>> (pos % 64)) &&& 1#64 == 1#64

variable (bf : BloomFilter)

/-- The places of `data`, in the loops of `insert` and `contains`. -/
def places (data : Bytes) : List Nat :=
  let h := hash128 data
  (List.range bf.k.toNat).map fun i => ((h.1 + .ofNat 64 i * h.2) &&& bf.m_mask).toNat

def insert (data : Bytes) : BloomFilter := { bf with bits := (bf.places data).foldl setBit bf.bits }

def contains (data : Bytes) : Bool := (bf.places data).all (getBit bf.bits)

/-- `u64::to_le_bytes` -/
def leBytes (x : BitVec 64) : Bytes := (Element.beBytes 8 x.toNat).reverse

/-- `u64::from_le_bytes` -/
def ofLeBytes (bytes : Bytes) : BitVec 64 := .ofNat 64 (Element.ofBeBytes bytes.reverse)

def serialize : Bytes :=
  leBytes (.ofNat 64 bf.bits.length) ++ leBytes bf.k ++ leBytes bf.m ++ leBytes bf.m_mask ++ bf.bits.flatMap leBytes

def deserialize (data : Bytes) : Option BloomFilter :=
  if data.length < 32 then none
  else
    let header := data.take 32
    let rest := data.drop 32
    let bits_len := (ofLeBytes (header.take 8)).toNat
    if rest.length < bits_len * 8 then none
    else
      some ⟨(List.range bits_len).map fun i => ofLeBytes ((rest.drop (i * 8)).take 8), ofLeBytes ((header.drop 8).take 8),
        ofLeBytes ((header.drop 16).take 8), ofLeBytes ((header.drop 24).take 8)⟩

/-! ## Bits -/

@[simp] theorem length_setBit (bits : List (BitVec 64)) (pos : Nat) : (setBit bits pos).length = bits.length := by
  simp [setBit]

theorem getBit_eq (bits : List (BitVec 64)) (pos : Nat) : getBit bits pos = (bits.getD (pos / 64) 0#64).getLsbD (pos % 64) := by
  unfold getBit
  generalize bits.getD (pos / 64) 0#64 = word
  rw [BitVec.and_one_eq_setWidth_ofBool_getLsbD]
  cases h : word.getLsbD (pos % 64) <;> simp [h]

/-- A bit that is set is set, and the others are as they were. -/
theorem getBit_setBit {bits : List (BitVec 64)} {pos : Nat} (h : pos / 64 < bits.length) (q : Nat) :
    getBit (setBit bits pos) q = (getBit bits q || decide (q = pos)) := by
  have hlt : q % 64 < 64 := Nat.mod_lt q (by decide)
  rw [getBit_eq, getBit_eq]
  by_cases hword : pos / 64 = q / 64
  · have hsame : q % 64 = pos % 64 ↔ q = pos := by omega
    have hword' : (setBit bits pos).getD (q / 64) 0#64 = bits.getD (q / 64) 0#64 ||| 1#64 <<< (pos % 64) := by
      rw [← hword]
      simp [setBit, List.getD_eq_getElem?_getD, h]
    rw [hword', BitVec.getLsbD_or, ← BitVec.twoPow_eq, BitVec.getLsbD_twoPow]
    simp [hlt, Nat.mod_lt pos, ← hsame, eq_comm]
  · have hne : q ≠ pos := by
      rintro rfl
      exact hword rfl
    simp [setBit, List.getD_eq_getElem?_getD, hword, hne]

theorem foldl_setBit {places : List Nat} {bits : List (BitVec 64)} (h : ∀ p ∈ places, p / 64 < bits.length) :
    (places.foldl setBit bits).length = bits.length ∧
      ∀ q, getBit (places.foldl setBit bits) q = (getBit bits q || decide (q ∈ places)) := by
  induction places generalizing bits with
  | nil => simp
  | cons p places ih =>
    have hrest : ∀ p' ∈ places, p' / 64 < (setBit bits p).length := by
      intro p' hp'
      simpa using h p' (List.mem_cons_of_mem _ hp')
    obtain ⟨hlen, hbits⟩ := ih hrest
    refine ⟨by simpa using hlen, fun q => ?_⟩
    rw [List.foldl_cons, hbits, getBit_setBit (h p List.mem_cons_self)]
    simp [Bool.or_assoc]

/-! ## What is inserted is contained -/

variable {bf : BloomFilter}

/-- The mask of a place is within the words. -/
structure Wf (bf : BloomFilter) : Prop where
  mask_lt : bf.m_mask.toNat < 64 * bf.bits.length
  length_lt : bf.bits.length < 2 ^ 64

theorem Wf.places_lt (h : bf.Wf) (data : Bytes) : ∀ p ∈ bf.places data, p / 64 < bf.bits.length := by
  intro p hp
  obtain ⟨i, -, rfl⟩ := List.mem_map.mp hp
  have hle : (((hash128 data).1 + .ofNat 64 i * (hash128 data).2) &&& bf.m_mask).toNat ≤ bf.m_mask.toNat := by
    rw [BitVec.toNat_and]
    exact Nat.and_le_right
  have := h.mask_lt
  omega

theorem Wf.insert (h : bf.Wf) (data : Bytes) : (bf.insert data).Wf := by
  have hlen : (bf.insert data).bits.length = bf.bits.length := (foldl_setBit (h.places_lt data)).1
  exact ⟨hlen ▸ h.mask_lt, hlen ▸ h.length_lt⟩

@[simp] theorem places_insert (data data' : Bytes) : (bf.insert data).places data' = bf.places data' := rfl

theorem contains_insert (h : bf.Wf) (data data' : Bytes) :
    (bf.insert data).contains data' = true ↔ ∀ p ∈ bf.places data', getBit bf.bits p = true ∨ p ∈ bf.places data := by
  have hbits := (foldl_setBit (h.places_lt data)).2
  unfold contains
  rw [List.all_eq_true, places_insert]
  refine forall₂_congr fun p _ => ?_
  have hbit : getBit (bf.insert data).bits p = (getBit bf.bits p || decide (p ∈ bf.places data)) := hbits p
  rw [hbit]
  simp

theorem contains_insert_self (h : bf.Wf) (data : Bytes) : (bf.insert data).contains data = true :=
  (contains_insert h data data).mpr fun _ hp => Or.inr hp

theorem contains_insert_of_contains (h : bf.Wf) (data : Bytes) {data' : Bytes} (hin : bf.contains data' = true) :
    (bf.insert data).contains data' = true :=
  (contains_insert h data data').mpr fun p hp => Or.inl (List.all_eq_true.mp hin p hp)

/-- Whatever was contained or is inserted is contained. -/
theorem contains_insertAll (h : bf.Wf) (subs : List Bytes) :
    (subs.foldl BloomFilter.insert bf).Wf ∧ ∀ data, bf.contains data = true ∨ data ∈ subs →
      (subs.foldl BloomFilter.insert bf).contains data = true := by
  induction subs generalizing bf with
  | nil => exact ⟨h, fun data hin => by simpa using hin⟩
  | cons sub subs ih =>
    obtain ⟨hwf, hall⟩ := ih (h.insert sub)
    refine ⟨hwf, fun data hin => hall data ?_⟩
    rcases hin with hin | hin
    · exact Or.inl (contains_insert_of_contains h sub hin)
    · rcases List.mem_cons.mp hin with rfl | hin
      · exact Or.inl (contains_insert_self h data)
      · exact Or.inr hin

/-! ## Bytes -/

@[simp] theorem length_leBytes (x : BitVec 64) : (leBytes x).length = 8 := by
  simp [leBytes]

@[simp] theorem ofLeBytes_leBytes (x : BitVec 64) : ofLeBytes (leBytes x) = x := by
  unfold ofLeBytes leBytes
  rw [List.reverse_reverse, Element.ofBeBytes_beBytes]
  refine BitVec.eq_of_toNat_eq ?_
  rw [BitVec.toNat_ofNat]
  omega

theorem length_words (bits : List (BitVec 64)) : (bits.flatMap leBytes).length = bits.length * 8 := by
  induction bits with
  | nil => rfl
  | cons w bits ih =>
    rw [List.flatMap_cons, List.length_append, length_leBytes, ih, List.length_cons]
    ring

theorem word_at (bits : List (BitVec 64)) {i : Nat} (hi : i < bits.length) :
    ((bits.flatMap leBytes).drop (i * 8)).take 8 = leBytes bits[i] := by
  induction bits generalizing i with
  | nil => cases hi
  | cons w bits ih =>
    cases i with
    | zero =>
      rw [Nat.zero_mul, List.drop_zero, List.flatMap_cons]
      exact List.take_left' (length_leBytes w)
    | succ i =>
      rw [Nat.succ_mul, Nat.add_comm, ← List.drop_drop, List.flatMap_cons, List.drop_left' (length_leBytes w)]
      exact ih (Nat.lt_of_succ_lt_succ hi)

/-- The words are read one after the other. -/
theorem words_read (bits : List (BitVec 64)) :
    ((List.range bits.length).map fun i => ofLeBytes (((bits.flatMap leBytes).drop (i * 8)).take 8)) = bits := by
  refine List.ext_getElem (by simp) fun i _ hi => ?_
  rw [List.getElem_map, List.getElem_range, word_at _ hi, ofLeBytes_leBytes]

/-- The four words of a header. -/
theorem header_fields (a b c d : BitVec 64) : (leBytes a ++ leBytes b ++ leBytes c ++ leBytes d).take 8 = leBytes a ∧
    ((leBytes a ++ leBytes b ++ leBytes c ++ leBytes d).drop 8).take 8 = leBytes b ∧
    ((leBytes a ++ leBytes b ++ leBytes c ++ leBytes d).drop 16).take 8 = leBytes c ∧
    ((leBytes a ++ leBytes b ++ leBytes c ++ leBytes d).drop 24).take 8 = leBytes d := by
  have htwo : (leBytes a ++ leBytes b).length = 16 := by simp
  have hthree : (leBytes a ++ leBytes b ++ leBytes c).length = 24 := by simp
  refine ⟨?_, ?_, ?_, ?_⟩
  · rw [List.append_assoc, List.append_assoc, List.take_left' (length_leBytes a)]
  · rw [List.append_assoc, List.append_assoc, List.drop_left' (length_leBytes a), List.take_left' (length_leBytes b)]
  · rw [List.append_assoc, List.drop_left' htwo, List.take_left' (length_leBytes c)]
  · rw [List.drop_left' hthree, ← length_leBytes d, List.take_length]

/-- A filter is read back as it was written. -/
theorem deserialize_serialize (h : bf.bits.length < 2 ^ 64) : deserialize bf.serialize = some bf := by
  have hlen : bf.serialize.length = 32 + bf.bits.length * 8 := by
    simp only [serialize, List.length_append, length_leBytes, length_words]
  have hheader : bf.serialize.take 32 = leBytes (.ofNat 64 bf.bits.length) ++ leBytes bf.k ++ leBytes bf.m ++ leBytes bf.m_mask :=
    List.take_left' (by simp)
  have hrest : bf.serialize.drop 32 = bf.bits.flatMap leBytes := List.drop_left' (by simp)
  have hcount : (BitVec.ofNat 64 bf.bits.length).toNat = bf.bits.length := by
    rw [BitVec.toNat_ofNat, Nat.mod_eq_of_lt h]
  obtain ⟨h0, h1, h2, h3⟩ := header_fields (.ofNat 64 bf.bits.length) bf.k bf.m bf.m_mask
  unfold deserialize
  rw [if_neg (by omega)]
  dsimp only
  rw [hheader, hrest, h0, h1, h2, h3]
  simp only [ofLeBytes_leBytes, hcount, length_words]
  rw [if_neg (lt_irrefl _), words_read]

end BloomFilter

end Opsense
