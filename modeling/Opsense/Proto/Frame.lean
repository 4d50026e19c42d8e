import Opsense.Lib.Framing
import Opsense.Lib.Text

/-!
# The frames between a host and a kernel

A frame is its tag, the length of its payload as a big-endian `u32`, and the payload. The encoder takes every payload whose length
is a `u32`; the decoder refuses a declared length above `MAX_FRAME_LEN`.
-/

namespace Opsense

def TAG_CONTROL : UInt8 := 0x01

def TAG_ARROW : UInt8 := 0x02

/-- 512 MiB. -/
def MAX_FRAME_LEN : Nat := 512 * 1024 * 1024

/-- The tag byte and the length. -/
def HEADER_LEN : Nat := 5

inductive FrameTag where
  | control
  | arrow
deriving DecidableEq, Repr

namespace FrameTag

def asU8 : FrameTag → UInt8
  | .control => TAG_CONTROL
  | .arrow => TAG_ARROW

def fromU8 (raw : UInt8) : Option FrameTag :=
  if raw = TAG_CONTROL then some .control else if raw = TAG_ARROW then some .arrow else none

@[simp] theorem fromU8_asU8 (tag : FrameTag) : fromU8 tag.asU8 = some tag := by
  cases tag <;> rfl

end FrameTag

structure Frame where
  tag : FrameTag
  payload : Bytes
deriving DecidableEq

/-- The four bytes of a `u32`, the highest first. -/
def toBeBytes (n : Nat) : Bytes :=
  [UInt8.ofNat (n / 2 ^ 24), UInt8.ofNat (n / 2 ^ 16), UInt8.ofNat (n / 2 ^ 8), UInt8.ofNat n]

def fromBeBytes (b0 b1 b2 b3 : UInt8) : Nat :=
  ((b0.toNat * 2 ^ 8 + b1.toNat) * 2 ^ 8 + b2.toNat) * 2 ^ 8 + b3.toNat

theorem fromBeBytes_toBeBytes {n : Nat} (h : n < 2 ^ 32) :
    fromBeBytes (UInt8.ofNat (n / 2 ^ 24)) (UInt8.ofNat (n / 2 ^ 16)) (UInt8.ofNat (n / 2 ^ 8)) (UInt8.ofNat n) = n := by
  unfold fromBeBytes
  simp only [UInt8.toNat_ofNat']
  omega

namespace FrameCodec

/-- A byte as `{:#04x}` writes it. -/
def hex (raw : UInt8) : String :=
  "0x" ++ String.ofList [Nat.digitChar (raw.toNat / 16), Nat.digitChar (raw.toNat % 16)]

def encode (item : Frame) (dst : Bytes) : Except String Bytes :=
  if item.payload.length < 2 ^ 32 then
    .ok (dst ++ item.tag.asU8 :: toBeBytes item.payload.length ++ item.payload)
  else
    .error "frame exceeds u32 length"

/-- What is left of `src`, and a frame, or nothing yet, or an error. -/
def decode (src : Bytes) : Bytes × Except String (Option Frame) :=
  match src with
  | raw :: b0 :: b1 :: b2 :: b3 :: rest =>
    let len := fromBeBytes b0 b1 b2 b3
    if MAX_FRAME_LEN < len then
      (src, .error s!"declared frame length {len} exceeds cap {MAX_FRAME_LEN}")
    else if src.length < HEADER_LEN + len then
      (src, .ok none)
    else
      -- the frame is taken from `src` before its tag is read
      (rest.drop len, match FrameTag.fromU8 raw with
        | some tag => .ok (some ⟨tag, rest.take len⟩)
        | none => .error s!"unknown frame tag {hex raw}")
  | _ => (src, .ok none)

/-- The frames written one behind the other. -/
def encodeAll (frames : List Frame) : Except String Bytes :=
  frames.foldlM (fun dst item => encode item dst) []

/-- The bytes of a frame that is written. -/
def wireOf (item : Frame) : Bytes := item.tag.asU8 :: toBeBytes item.payload.length ++ item.payload

theorem encode_eq_ok {item : Frame} {dst wire : Bytes} (h : encode item dst = .ok wire) :
    item.payload.length < 2 ^ 32 ∧ wire = dst ++ wireOf item := by
  unfold encode at h
  split_ifs at h with hlen
  refine ⟨hlen, ?_⟩
  rw [← Except.ok.inj h, wireOf, List.append_assoc]

/-- The frames that are written, and their bytes. -/
theorem foldlM_encode {frames : List Frame} {dst wire : Bytes}
    (h : frames.foldlM (fun dst item => encode item dst) dst = .ok wire) :
    (∀ f ∈ frames, f.payload.length < 2 ^ 32) ∧ wire = dst ++ frames.flatMap wireOf := by
  induction frames generalizing dst with
  | nil =>
    obtain rfl := Except.ok.inj h
    simp
  | cons f frames ih =>
    rw [List.foldlM_cons] at h
    cases hf : encode f dst with
    | error e =>
      rw [hf] at h
      cases h
    | ok mid =>
      rw [hf] at h
      obtain ⟨hlen, hmid⟩ := encode_eq_ok hf
      obtain ⟨hlens, hwire⟩ := ih h
      refine ⟨?_, by rw [hwire, hmid, List.flatMap_cons, List.append_assoc]⟩
      intro f' hf'
      rcases List.mem_cons.mp hf' with rfl | hf'
      · exact hlen
      · exact hlens f' hf'

/-- The bytes of a frame tell where it ends. -/
theorem wireOf_append_inj {f g : Frame} {rest rest' : Bytes} (hf : f.payload.length < 2 ^ 32) (hg : g.payload.length < 2 ^ 32)
    (h : wireOf f ++ rest = wireOf g ++ rest') : f = g ∧ rest = rest' := by
  obtain ⟨tag, payload⟩ := f
  obtain ⟨tag', payload'⟩ := g
  simp only [wireOf, toBeBytes, List.cons_append, List.nil_append, List.cons.injEq] at h
  obtain ⟨htag, h0, h1, h2, h3, hbytes⟩ := h
  have hlen : payload.length = payload'.length := by
    rw [← fromBeBytes_toBeBytes hf, ← fromBeBytes_toBeBytes hg, h0, h1, h2, h3]
  have htag : tag = tag' := by
    have hread := congrArg FrameTag.fromU8 htag
    rwa [FrameTag.fromU8_asU8, FrameTag.fromU8_asU8, Option.some_inj] at hread
  obtain ⟨rfl, rfl⟩ := List.append_inj hbytes hlen
  exact ⟨htag ▸ rfl, rfl⟩

/-- Bytes are written for one list of frames at most, also where a frame is longer than the decoder takes. -/
theorem encodeAll_subsingleton (wire : Bytes) : {frames | encodeAll frames = .ok wire}.Subsingleton := by
  intro frames h frames' h'
  obtain ⟨hlens, hwire⟩ := foldlM_encode h
  obtain ⟨hlens', hwire'⟩ := foldlM_encode h'
  have hsame : frames.flatMap wireOf = frames'.flatMap wireOf := hwire.symm.trans hwire'
  clear h h' hwire hwire'
  induction frames generalizing frames' with
  | nil =>
    cases frames' with
    | nil => rfl
    | cons g frames' => simp [wireOf] at hsame
  | cons f frames ih =>
    cases frames' with
    | nil => simp [wireOf] at hsame
    | cons g frames' =>
      rw [List.forall_mem_cons] at hlens hlens'
      obtain ⟨rfl, hrest⟩ := wireOf_append_inj hlens.1 hlens'.1 hsame
      rw [ih hlens.2 hlens'.2 hrest]

/-- The decoder at the whole header of a frame that is written. -/
theorem decode_header {f : Frame} (hlen : f.payload.length < 2 ^ 32) (rest : Bytes) :
    decode (f.tag.asU8 :: toBeBytes f.payload.length ++ rest) =
      if MAX_FRAME_LEN < f.payload.length then
        (f.tag.asU8 :: toBeBytes f.payload.length ++ rest,
          .error s!"declared frame length {f.payload.length} exceeds cap {MAX_FRAME_LEN}")
      else if rest.length < f.payload.length then
        (f.tag.asU8 :: toBeBytes f.payload.length ++ rest, .ok none)
      else
        (rest.drop f.payload.length, .ok (some ⟨f.tag, rest.take f.payload.length⟩)) := by
  have hshort : (f.tag.asU8 :: toBeBytes f.payload.length ++ rest).length < HEADER_LEN + f.payload.length ↔
      rest.length < f.payload.length := by
    simp only [toBeBytes, HEADER_LEN, List.cons_append, List.nil_append, List.length_cons]
    omega
  simp only [toBeBytes, List.cons_append, List.nil_append] at hshort ⊢
  unfold decode
  dsimp only
  rw [fromBeBytes_toBeBytes hlen, FrameTag.fromU8_asU8]
  simp only [hshort]

/-- A part of a header asks for more. -/
theorem decode_short {src : Bytes} (h : src.length < HEADER_LEN) : decode src = (src, .ok none) := by
  unfold decode
  split
  · simp only [HEADER_LEN, List.length_cons] at h
    omega
  · rfl

/-- When the decoder asks for more, it has left the buffer as it was. -/
theorem decode_none {src src' : Bytes} (h : decode src = (src', .ok none)) : src' = src := by
  unfold decode at h
  split at h
  · dsimp only at h
    split_ifs at h with hcap hshort
    · cases congrArg Prod.snd h
    · exact (congrArg Prod.fst h).symm
    · -- a frame or an unknown tag is not nothing
      have hread := congrArg Prod.snd h
      dsimp only at hread
      split at hread <;> simp at hread
  · exact (congrArg Prod.fst h).symm

theorem delimits : Framing.Delimits (fun f : Frame => f.payload.length ≤ MAX_FRAME_LEN) wireOf decode where
  whole := by
    intro f rest hcap
    have hlen : f.payload.length < 2 ^ 32 := lt_of_le_of_lt hcap (by decide)
    have hdecode := decode_header hlen (f.payload ++ rest)
    rw [if_neg (not_lt.mpr hcap), if_neg (by simp), List.drop_left, List.take_left] at hdecode
    rw [wireOf, List.append_assoc]
    exact hdecode
  part := by
    intro f pfx hcap hpart hne
    have hlen : f.payload.length < 2 ^ 32 := lt_of_le_of_lt hcap (by decide)
    unfold wireOf at hpart hne
    rcases List.prefix_or_prefix_of_prefix hpart (List.prefix_append _ f.payload) with hheader | ⟨rest, hrest⟩
    · rcases lt_or_ge pfx.length HEADER_LEN with hshort | hlong
      · exact decode_short hshort
      · -- the header alone
        have hpfx : pfx = f.tag.asU8 :: toBeBytes f.payload.length := hheader.eq_of_length_le hlong
        have hempty : 0 < f.payload.length := by
          rw [hpfx] at hne
          refine List.length_pos_of_ne_nil ?_
          intro hnil
          rw [hnil, List.append_nil] at hne
          exact hne rfl
        have hdecode := decode_header hlen []
        rw [if_neg (not_lt.mpr hcap), if_pos (by simpa using hempty), List.append_nil] at hdecode
        rw [hpfx]
        exact hdecode
    · subst hrest
      have hpre : rest <+: f.payload := (List.prefix_append_right_inj _).mp hpart
      have hless : rest.length < f.payload.length := by
        refine lt_of_le_of_ne hpre.length_le ?_
        intro heq
        exact hne (by rw [hpre.eq_of_length heq])
      rw [decode_header hlen rest, if_neg (not_lt.mpr hcap), if_pos hless]
  empty := rfl
  nonempty := by
    intro f
    simp [wireOf]

/-- A frame over the cap is refused. -/
theorem decode_oversized {f : Frame} (hlen : f.payload.length < 2 ^ 32) (hcap : ¬f.payload.length ≤ MAX_FRAME_LEN) (rest : Bytes) :
    ∃ buffer e, decode (wireOf f ++ rest) = (buffer, .error e) := by
  refine ⟨wireOf f ++ rest, s!"declared frame length {f.payload.length} exceeds cap {MAX_FRAME_LEN}", ?_⟩
  rw [wireOf, List.append_assoc, decode_header hlen, if_pos (not_le.mp hcap)]

/-- The frames arrive as they were written, in their order and with nothing left, however their bytes are cut into chunks, and a
decoder that asks for more has left the buffer as it was. -/
def Streams (frames : List Frame) (wire : Bytes) : Prop :=
  (∀ chunks : List Bytes, chunks.flatten = wire → Framing.receive decode chunks = ⟨[], frames, none⟩) ∧
    ∀ src src', decode src = (src', .ok none) → src' = src

end FrameCodec

/-- Frames that the encoder takes arrive however the stream is cut exactly when none of them is over the cap. -/
theorem frames_arrive_iff {frames : List Frame} {wire : Bytes} (h : FrameCodec.encodeAll frames = .ok wire) :
    FrameCodec.Streams frames wire ↔ ∀ f ∈ frames, f.payload.length ≤ MAX_FRAME_LEN := by
  obtain ⟨hlens, hwire⟩ := FrameCodec.foldlM_encode h
  rw [List.nil_append] at hwire
  have hbad : ∀ f ∈ frames, ∀ rest, ¬f.payload.length ≤ MAX_FRAME_LEN →
      ∃ buffer e, FrameCodec.decode (FrameCodec.wireOf f ++ rest) = (buffer, .error e) :=
    fun f hf rest hcap => FrameCodec.decode_oversized (hlens f hf) hcap rest
  have harrive := Framing.receive_iff FrameCodec.delimits hbad
  rw [← hwire] at harrive
  exact ⟨fun hs => harrive.mp hs.1, fun hcap => ⟨harrive.mpr hcap, fun _ _ => FrameCodec.decode_none⟩⟩

theorem frames_arrive_iff_two :
    FrameCodec.Streams [⟨.control, [104, 105]⟩, ⟨.arrow, []⟩] [1, 0, 0, 0, 2, 104, 105, 2, 0, 0, 0, 0] ↔
      ∀ f ∈ [(⟨.control, [104, 105]⟩ : Frame), ⟨.arrow, []⟩], f.payload.length ≤ MAX_FRAME_LEN :=
  frames_arrive_iff rfl

/-- The encoder takes a frame of a byte over the cap, and the decoder refuses it. -/
theorem oversized_frame_refused : ∃ wire,
    FrameCodec.encodeAll [⟨.arrow, List.replicate (MAX_FRAME_LEN + 1) 0⟩] = .ok wire ∧
      ¬FrameCodec.Streams [⟨.arrow, List.replicate (MAX_FRAME_LEN + 1) 0⟩] wire := by
  obtain ⟨f, hf⟩ : ∃ f : Frame, f = ⟨.arrow, List.replicate (MAX_FRAME_LEN + 1) 0⟩ := ⟨_, rfl⟩
  have hlength : f.payload.length = MAX_FRAME_LEN + 1 := by rw [hf, List.length_replicate]
  have hlen : f.payload.length < 2 ^ 32 := by
    rw [hlength]
    decide
  rw [← hf]
  refine ⟨FrameCodec.wireOf f, ?_, ?_⟩
  · simpa [FrameCodec.encodeAll, FrameCodec.encode, FrameCodec.wireOf] using hlen
  · rintro ⟨harrive, -⟩
    have hone := harrive [FrameCodec.wireOf f] (by simp)
    obtain ⟨buffer, e, hdecode⟩ := FrameCodec.decode_oversized hlen (by omega) []
    rw [List.append_nil] at hdecode
    simp [Framing.receive, Framing.feed, Framing.drain, hdecode] at hone

end Opsense
