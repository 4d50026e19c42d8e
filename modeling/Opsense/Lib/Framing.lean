import Mathlib

/-!
# Items on a stream

A decoder takes what is buffered and gives an item and the rest, or asks for more, or fails. A receiver appends every chunk that
arrives to its buffer and decodes until more is needed. When the decoder delimits the items (`Delimits`), the items that were
written arrive in their order however the stream is cut (`receive_eq`), and where it refuses the others, these are the only ones
that do (`receive_iff`).
-/

namespace Opsense

namespace Framing

variable {α β ε : Type*}

/-- What a decoder leaves of the buffer, and an item, or nothing as long as more is needed, or an error. -/
abbrev Decoder (α β ε : Type*) := List α → List α × Except ε (Option β)

/-- The buffer, the items so far, and the error that ended the stream. -/
structure Receiver (α β ε : Type*) where
  buffer : List α
  items : List β
  error : Option ε

/-- Decode until more is needed. Every item takes something from the buffer, so `fuel` above its length is never used up. -/
def drain (decode : Decoder α β ε) : Nat → Receiver α β ε → Receiver α β ε
  | 0, r => r
  | fuel + 1, r =>
    match decode r.buffer with
    | (buffer, .ok (some item)) => drain decode fuel { r with buffer, items := r.items ++ [item] }
    | (buffer, .ok none) => { r with buffer }
    | (buffer, .error e) => { r with buffer, error := some e }

/-- A chunk arrives. -/
def feed (decode : Decoder α β ε) (r : Receiver α β ε) (chunk : List α) : Receiver α β ε :=
  match r.error with
  | some _ => r
  | none => drain decode ((r.buffer ++ chunk).length + 1) { r with buffer := r.buffer ++ chunk }

/-- The chunks arrive. -/
def receive (decode : Decoder α β ε) (chunks : List (List α)) : Receiver α β ε :=
  chunks.foldl (feed decode) ⟨[], [], none⟩

/-- An item is decoded when it is there as a whole, and a part of it is left as it is. -/
structure Delimits (good : β → Prop) (encode : β → List α) (decode : Decoder α β ε) : Prop where
  whole : ∀ b rest, good b → decode (encode b ++ rest) = (rest, .ok (some b))
  part : ∀ b pfx, good b → pfx <+: encode b → pfx ≠ encode b → decode pfx = (pfx, .ok none)
  empty : decode [] = ([], .ok none)
  nonempty : ∀ b, encode b ≠ []

variable {good : β → Prop} {encode : β → List α} {decode : Decoder α β ε} {bs : List β}

/-- What is left to arrive: the buffer begins it, and does not hold an item. -/
structure Awaits (encode : β → List α) (decode : Decoder α β ε) (r : Receiver α β ε) (bs : List β) (later : List α) : Prop where
  rest : r.buffer ++ later = bs.flatMap encode
  more : decode r.buffer = (r.buffer, .ok none)
  error : r.error = none

/-- Draining takes the whole items out of the buffer. -/
theorem drain_awaits (h : Delimits good encode decode) (hgood : ∀ b ∈ bs, good b) {later : List α} {fuel : Nat} {r : Receiver α β ε}
    (hrest : r.buffer ++ later = bs.flatMap encode) (herror : r.error = none) (hfuel : r.buffer.length < fuel) :
    ∃ done rest, bs = done ++ rest ∧ (drain decode fuel r).items = r.items ++ done ∧
      Awaits encode decode (drain decode fuel r) rest later := by
  induction bs generalizing fuel r with
  | nil =>
    obtain ⟨hbuffer, -⟩ := List.append_eq_nil_iff.mp hrest
    obtain ⟨fuel, rfl⟩ : ∃ n, fuel = n + 1 := ⟨fuel - 1, by omega⟩
    have hstep : drain decode (fuel + 1) r = r := by
      unfold drain
      rw [hbuffer, h.empty]
      cases r
      simp only at hbuffer ⊢
      rw [hbuffer]
    refine ⟨[], [], rfl, by rw [hstep, List.append_nil], ?_⟩
    rw [hstep]
    exact ⟨hrest, by rw [hbuffer, h.empty], herror⟩
  | cons b bs ih =>
    obtain ⟨fuel, rfl⟩ : ∃ n, fuel = n + 1 := ⟨fuel - 1, by omega⟩
    have hb : good b := hgood b List.mem_cons_self
    rw [List.flatMap_cons] at hrest
    rcases List.prefix_or_prefix_of_prefix (List.prefix_append r.buffer later) (hrest ▸ List.prefix_append (encode b) _) with
      hshort | ⟨buffer, hbuffer⟩
    · by_cases hwhole : r.buffer = encode b
      · -- the buffer is the item and nothing else
        have hlater : later = bs.flatMap encode := by
          rw [hwhole] at hrest
          exact List.append_cancel_left hrest
        have hstep : drain decode (fuel + 1) r = drain decode fuel { r with buffer := [], items := r.items ++ [b] } := by
          have hdecode := h.whole b [] hb
          rw [List.append_nil] at hdecode
          rw [drain, hwhole, hdecode]
        have hlen : 0 < fuel := by
          have := List.length_pos_of_ne_nil (h.nonempty b)
          rw [hwhole] at hfuel
          omega
        obtain ⟨done, rest, hsplit, hitems, hawaits⟩ := ih (fun b' hb' => hgood b' (List.mem_cons_of_mem _ hb'))
          (r := { r with buffer := [], items := r.items ++ [b] }) hlater herror hlen
        refine ⟨b :: done, rest, by rw [hsplit, List.cons_append], ?_, hstep ▸ hawaits⟩
        rw [hstep, hitems, List.append_assoc]
        rfl
      · have hdecode := h.part b r.buffer hb hshort hwhole
        have hstep : drain decode (fuel + 1) r = r := by
          rw [drain, hdecode]
        refine ⟨[], b :: bs, rfl, by rw [hstep, List.append_nil], ?_⟩
        rw [hstep]
        exact ⟨hrest, hdecode, herror⟩
    · have hstep : drain decode (fuel + 1) r = drain decode fuel { r with buffer := buffer, items := r.items ++ [b] } := by
        rw [drain, ← hbuffer, h.whole b buffer hb]
      have hlater : buffer ++ later = bs.flatMap encode := by
        rw [← hbuffer, List.append_assoc] at hrest
        exact List.append_cancel_left hrest
      have hlen : buffer.length < fuel := by
        have := List.length_pos_of_ne_nil (h.nonempty b)
        rw [← hbuffer, List.length_append] at hfuel
        omega
      obtain ⟨done, rest, hsplit, hitems, hawaits⟩ := ih (fun b' hb' => hgood b' (List.mem_cons_of_mem _ hb'))
        (r := { r with buffer := buffer, items := r.items ++ [b] }) hlater herror hlen
      refine ⟨b :: done, rest, by rw [hsplit, List.cons_append], ?_, hstep ▸ hawaits⟩
      rw [hstep, hitems, List.append_assoc]
      rfl

/-- The items arrive in their order, and nothing is left, however the stream is cut. -/
theorem receive_eq (h : Delimits good encode decode) (hgood : ∀ b ∈ bs, good b) {chunks : List (List α)}
    (hchunks : chunks.flatten = bs.flatMap encode) : receive decode chunks = ⟨[], bs, none⟩ := by
  have hrun : ∀ (chunks : List (List α)) (r : Receiver α β ε) (done rest : List β), bs = done ++ rest → r.items = done →
      Awaits encode decode r rest chunks.flatten → chunks.foldl (feed decode) r = ⟨[], bs, none⟩ := by
    intro chunks
    induction chunks with
    | nil =>
      intro r done rest hsplit hitems hawaits
      have hrest := hawaits.rest
      rw [List.flatten_nil, List.append_nil] at hrest
      have hmore := hawaits.more
      -- an item that is left is there as a whole
      cases rest with
      | nil =>
        rw [List.append_nil] at hsplit
        rw [List.foldl_nil]
        cases r
        simp only at hitems hrest
        have herror := hawaits.error
        simp only at herror
        rw [hitems, hrest, herror, hsplit]
        rfl
      | cons b rest =>
        have hb : good b := hgood b (hsplit ▸ List.mem_append_right _ List.mem_cons_self)
        rw [hrest, List.flatMap_cons, h.whole b _ hb] at hmore
        have := congrArg Prod.snd hmore
        nomatch this
    | cons chunk chunks ih =>
      intro r done rest hsplit hitems hawaits
      have hrest := hawaits.rest
      rw [List.flatten_cons, ← List.append_assoc] at hrest
      have hfeed : feed decode r chunk = drain decode ((r.buffer ++ chunk).length + 1) { r with buffer := r.buffer ++ chunk } := by
        unfold feed
        rw [hawaits.error]
      obtain ⟨done', rest', hsplit', hitems', hawaits'⟩ := drain_awaits h
        (fun b hb => hgood b (hsplit ▸ List.mem_append_right _ hb)) (r := { r with buffer := r.buffer ++ chunk }) hrest
        hawaits.error (Nat.lt_succ_self _)
      rw [List.foldl_cons, hfeed]
      refine ih _ (done ++ done') rest' (by rw [hsplit, hsplit', List.append_assoc]) ?_ hawaits'
      rw [hitems', hitems]
  refine hrun chunks ⟨[], [], none⟩ [] bs rfl rfl ⟨?_, h.empty, rfl⟩
  rw [List.nil_append, hchunks]

/-- An item that is refused ends the stream. -/
theorem drain_error (h : Delimits good encode decode)
    (hbad : ∀ b ∈ bs, ∀ rest, ¬good b → ∃ buffer e, decode (encode b ++ rest) = (buffer, .error e))
    (hbs : ∃ b ∈ bs, ¬good b) {fuel : Nat} {r : Receiver α β ε} (hbuffer : r.buffer = bs.flatMap encode)
    (hfuel : r.buffer.length < fuel) : (drain decode fuel r).error ≠ none := by
  induction bs generalizing fuel r with
  | nil =>
    obtain ⟨b, hb, -⟩ := hbs
    exact absurd hb List.not_mem_nil
  | cons b bs ih =>
    obtain ⟨fuel, rfl⟩ : ∃ n, fuel = n + 1 := ⟨fuel - 1, by omega⟩
    rw [List.flatMap_cons] at hbuffer
    by_cases hb : good b
    · rw [drain, hbuffer, h.whole b _ hb]
      refine ih (fun b' hb' => hbad b' (List.mem_cons_of_mem _ hb')) ?_ rfl ?_
      · obtain ⟨b', hb', hnot⟩ := hbs
        rcases List.mem_cons.mp hb' with rfl | hb'
        · exact absurd hb hnot
        · exact ⟨b', hb', hnot⟩
      · have := List.length_pos_of_ne_nil (h.nonempty b)
        rw [hbuffer, List.length_append] at hfuel
        dsimp only
        omega
    · obtain ⟨buffer, e, hdecode⟩ := hbad b List.mem_cons_self (bs.flatMap encode) hb
      rw [drain, hbuffer, hdecode]
      exact Option.some_ne_none e

/-- The items arrive however the stream is cut exactly when the decoder refuses none of them. -/
theorem receive_iff (h : Delimits good encode decode)
    (hbad : ∀ b ∈ bs, ∀ rest, ¬good b → ∃ buffer e, decode (encode b ++ rest) = (buffer, .error e)) :
    (∀ chunks : List (List α), chunks.flatten = bs.flatMap encode → receive decode chunks = ⟨[], bs, none⟩) ↔ ∀ b ∈ bs, good b := by
  constructor
  · intro hall
    by_contra hnot
    push Not at hnot
    have hone := hall [bs.flatMap encode] (by simp)
    have herror := drain_error (r := ⟨[] ++ bs.flatMap encode, [], none⟩) h hbad hnot (List.nil_append _) (Nat.lt_succ_self _)
    have hstep : receive decode [bs.flatMap encode] =
        drain decode (([] ++ bs.flatMap encode).length + 1) ⟨[] ++ bs.flatMap encode, [], none⟩ := rfl
    rw [hstep] at hone
    rw [hone] at herror
    exact herror rfl
  · intro hgood chunks hchunks
    exact receive_eq h hgood hchunks

end Framing

end Opsense
