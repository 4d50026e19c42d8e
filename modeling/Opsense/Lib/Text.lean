import Mathlib

/-!
# Text as the standard library reads it

Bytes that are UTF-8, white space around a text, and the decimal digits of a `u64`.
-/

namespace Opsense

/-- A `Vec<u8>`. -/
abbrev Bytes := List UInt8

/-- `String::into_bytes` -/
def intoBytes (text : String) : Bytes := text.toByteArray.data.toList

theorem intoBytes_injective {s t : String} (h : intoBytes s = intoBytes t) : s = t := by
  refine String.toByteArray_inj.mp (ByteArray.ext ?_)
  exact Array.toList_inj.mp h

/-- `str::from_utf8` -/
def fromUtf8 (bytes : Bytes) : Option (List Char) := (String.fromUTF8? ⟨bytes.toArray⟩).map String.toList

theorem intoBytes_append (s t : String) : intoBytes (s ++ t) = intoBytes s ++ intoBytes t := by
  unfold intoBytes
  rw [String.toByteArray_append, ByteArray.data_append, Array.toList_append]

theorem fromUtf8_intoBytes (text : String) : fromUtf8 (intoBytes text) = some text.toList := by
  unfold fromUtf8 intoBytes
  have hbytes : (⟨text.toByteArray.data.toList.toArray⟩ : ByteArray) = text.toByteArray := rfl
  rw [hbytes, String.fromUTF8?, dif_pos text.isValidUTF8]
  rfl

theorem intoBytes_eq (text : String) : (⟨(intoBytes text).toArray⟩ : ByteArray) = text.toByteArray := rfl

/-- Bytes are read as the text they are the bytes of. -/
theorem fromUtf8_eq_some {bytes : Bytes} {text : List Char} :
    fromUtf8 bytes = some text ↔ bytes = intoBytes (String.ofList text) := by
  constructor
  · intro h
    obtain ⟨s, hs, rfl⟩ := Option.map_eq_some_iff.mp h
    rw [String.ofList_toList]
    unfold String.fromUTF8? at hs
    split_ifs at hs
    rw [← Option.some.inj hs]
    rfl
  · rintro rfl
    rw [fromUtf8_intoBytes, String.toList_ofList]

/-- A text whose bytes begin with those of another text begins with that text. -/
theorem prefix_of_intoBytes {s : String} {rest : Bytes} {t : String} (h : intoBytes s ++ rest = intoBytes t) :
    ∃ u : String, t = s ++ u ∧ rest = intoBytes u := by
  have hbytes : s.toList.utf8Encode ++ (⟨rest.toArray⟩ : ByteArray) = t.toList.utf8Encode := by
    rw [String.utf8Encode_toList, String.utf8Encode_toList, ← intoBytes_eq s, ← intoBytes_eq t, ← h]
    refine ByteArray.ext ?_
    simp
  obtain ⟨u, hu⟩ := List.isPrefix_of_utf8Encode_append_eq_utf8Encode _ hbytes
  have ht : t = s ++ String.ofList u := by
    refine String.toList_injective ?_
    rw [String.toList_append, String.toList_ofList, hu]
  refine ⟨String.ofList u, ht, ?_⟩
  rw [ht, intoBytes_append] at h
  exact List.append_cancel_left h

/-- `char::is_whitespace`: the characters with the property White_Space. -/
def isWhitespace (c : Char) : Bool :=
  let n := c.toNat
  (9 ≤ n && n ≤ 13) || n = 0x20 || n = 0x85 || n = 0xA0 || n = 0x1680 || (0x2000 ≤ n && n ≤ 0x200A) ||
    n = 0x2028 || n = 0x2029 || n = 0x202F || n = 0x205F || n = 0x3000

/-- `str::trim` -/
def trim (text : List Char) : List Char :=
  ((text.dropWhile isWhitespace).reverse.dropWhile isWhitespace).reverse

/-- `str::split_inclusive` at the ends of lines. -/
def splitInclusive : List Char → List (List Char)
  | [] => []
  | c :: cs =>
    if c = '\n' then [c] :: splitInclusive cs
    else
      match splitInclusive cs with
      | [] => [[c]]
      | line :: lines => (c :: line) :: lines

/-- A line without its end. -/
def stripEnd (line : List Char) : List Char :=
  if line.getLast? = some '\n' then
    if line.dropLast.getLast? = some '\r' then line.dropLast.dropLast else line.dropLast
  else line

/-- `str::lines` -/
def lines (text : List Char) : List (List Char) := (splitInclusive text).map stripEnd

/-- `str::parse::<u64>`: decimal digits with an optional plus, below `2 ^ 64`. -/
def parseU64 (digits : List Char) : Option Nat :=
  let digits := if digits.head? = some '+' then digits.tail else digits
  if digits = [] ∨ ¬(∀ c ∈ digits, c.isDigit) then none
  else
    let n := digits.foldl (fun n c => n * 10 + (c.toNat - '0'.toNat)) 0
    if n < 2 ^ 64 then some n else none

theorem parseU64_lt {digits : List Char} {n : Nat} (h : parseU64 digits = some n) : n < 2 ^ 64 := by
  unfold parseU64 at h
  generalize (if digits.head? = some '+' then digits.tail else digits) = rest at h
  dsimp only at h
  split_ifs at h with hdigits hlt
  exact Option.some.inj h ▸ hlt

/-- A number is read back from its digits. -/
theorem parseU64_toDigits {n : Nat} (h : n < 2 ^ 64) : parseU64 (Nat.toDigits 10 n) = some n := by
  have hdigits : ∀ c ∈ Nat.toDigits 10 n, c.isDigit := fun c hc => Nat.isDigit_of_mem_toDigits (by decide) (by decide) hc
  have hplus : (Nat.toDigits 10 n).head? ≠ some '+' := by
    intro hhead
    have := hdigits _ (List.mem_of_mem_head? hhead)
    exact absurd this (by decide)
  have hvalue : (Nat.toDigits 10 n).foldl (fun n c => n * 10 + (c.toNat - '0'.toNat)) 0 = n := by
    have := Nat.ofDigitChars_ten_toDigits (n := n)
    rw [Nat.ofDigitChars_eq_foldl] at this
    simpa only [Nat.mul_comm] using this
  unfold parseU64
  rw [if_neg hplus]
  dsimp only
  rw [hvalue, if_neg (not_or.mpr ⟨Nat.toDigits_ne_nil, not_not.mpr hdigits⟩), if_pos h]

theorem isWhitespace_of_isDigit {c : Char} (h : c.isDigit = true) : isWhitespace c = false := by
  have hrange : 48 ≤ c.toNat ∧ c.toNat ≤ 57 := by
    simpa [Char.isDigit, UInt32.le_iff_toNat_le] using h
  unfold isWhitespace
  simp only [Bool.or_eq_false_iff, Bool.and_eq_false_iff, decide_eq_false_iff_not]
  omega

/-- Nothing is trimmed off digits. -/
theorem trim_digits {digits : List Char} (h : ∀ c ∈ digits, c.isDigit = true) : trim digits = digits := by
  have hkeep : ∀ l : List Char, (∀ c ∈ l, c.isDigit = true) → l.dropWhile isWhitespace = l := by
    intro l hl
    cases l with
    | nil => rfl
    | cons c l => rw [List.dropWhile_cons_of_neg (by simp [isWhitespace_of_isDigit (hl c (by simp))])]
  unfold trim
  rw [hkeep digits h, hkeep _ (fun c hc => h c (List.mem_reverse.mp hc)), List.reverse_reverse]

/-! ## Lines -/

variable {line : List Char}

theorem splitInclusive_line (h : '\n' ∉ line) (rest : List Char) :
    splitInclusive (line ++ '\n' :: rest) = (line ++ ['\n']) :: splitInclusive rest := by
  induction line with
  | nil => simp [splitInclusive]
  | cons c line ih =>
    obtain ⟨hc, hline⟩ := not_or.mp (mt List.mem_cons.mpr h)
    rw [List.cons_append, splitInclusive, if_neg (Ne.symm hc), ih hline]
    rfl

theorem splitInclusive_last (h : '\n' ∉ line) (hne : line ≠ []) : splitInclusive line = [line] := by
  induction line with
  | nil => exact absurd rfl hne
  | cons c line ih =>
    obtain ⟨hc, hline⟩ := not_or.mp (mt List.mem_cons.mpr h)
    rw [splitInclusive, if_neg (Ne.symm hc)]
    cases line with
    | nil => rfl
    | cons d line => rw [ih hline (by simp)]

theorem stripEnd_line (h : '\r' ∉ line) : stripEnd (line ++ ['\n']) = line := by
  have hlast : line.getLast? ≠ some '\r' := fun hlast => h (List.mem_of_getLast? hlast)
  simp [stripEnd, hlast]

theorem stripEnd_last (h : '\n' ∉ line) : stripEnd line = line :=
  if_neg fun hlast => h (List.mem_of_getLast? hlast)

/-- The lines of ended lines and a last one without its end. -/
theorem lines_append (texts : List (List Char)) (hn : ∀ t ∈ texts, '\n' ∉ t) (hr : ∀ t ∈ texts, '\r' ∉ t) (rest : List Char) :
    lines (texts.flatMap (fun t => t ++ ['\n']) ++ rest) = texts ++ lines rest := by
  induction texts with
  | nil => rfl
  | cons t texts ih =>
    have ih := ih (fun t ht => hn t (List.mem_cons_of_mem _ ht)) fun t ht => hr t (List.mem_cons_of_mem _ ht)
    have hsplit : (t :: texts).flatMap (fun t => t ++ ['\n']) ++ rest =
        t ++ '\n' :: (texts.flatMap (fun t => t ++ ['\n']) ++ rest) := by simp
    rw [hsplit, lines, splitInclusive_line (hn t (by simp)), List.map_cons, stripEnd_line (hr t (by simp)), List.cons_append,
      ← ih]
    rfl

end Opsense
