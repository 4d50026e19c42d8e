import Opsense.Lib.Text

/-!
# Base64

An engine writes three bytes as four symbols of its alphabet, and one or two bytes at the end as two or three, with pads or without
them. It reads what is written that way, and refuses everything else: other symbols, pads that are missing or not expected, and bits
at the end that are not zero.
-/

namespace Opsense

namespace Base64

/-- An alphabet of 64 symbols, the pad not among them. -/
structure Alphabet where
  symbols : List Char
  length : symbols.length = 64
  nodup : symbols.Nodup
  noPad : '=' ∉ symbols

/-- The symbol of six bits. -/
def Alphabet.symbol (a : Alphabet) (n : Nat) : Char := a.symbols.getD n '='

/-- The six bits of a symbol. -/
def Alphabet.value (a : Alphabet) (c : Char) : Option Nat := a.symbols.idxOf? c

structure Engine where
  alphabet : Alphabet
  padded : Bool

namespace Engine

/-- The pads of a last group. -/
def pads (e : Engine) (n : Nat) : List Char := if e.padded then List.replicate n '=' else []

def encodeChars (e : Engine) : Bytes → List Char
  | [] => []
  | [x] => e.alphabet.symbol (x.toNat / 4) :: e.alphabet.symbol (x.toNat % 4 * 16) :: e.pads 2
  | [x, y] =>
    e.alphabet.symbol (x.toNat / 4) :: e.alphabet.symbol (x.toNat % 4 * 16 + y.toNat / 16) ::
      e.alphabet.symbol (y.toNat % 16 * 4) :: e.pads 1
  | x :: y :: z :: rest =>
    e.alphabet.symbol (x.toNat / 4) :: e.alphabet.symbol (x.toNat % 4 * 16 + y.toNat / 16) ::
      e.alphabet.symbol (y.toNat % 16 * 4 + z.toNat / 64) :: e.alphabet.symbol (z.toNat % 64) :: encodeChars e rest

/-- A last group of two symbols. -/
def decodeTwo (e : Engine) (c d : Char) : Option Bytes :=
  match e.alphabet.value c, e.alphabet.value d with
  | some v, some w => if w % 16 = 0 then some [UInt8.ofNat (v * 4 + w / 16)] else none
  | _, _ => none

/-- A last group of three symbols. -/
def decodeThree (e : Engine) (b c d : Char) : Option Bytes :=
  match e.alphabet.value b, e.alphabet.value c, e.alphabet.value d with
  | some u, some v, some w =>
    if w % 4 = 0 then some [UInt8.ofNat (u * 4 + v / 16), UInt8.ofNat (v % 16 * 16 + w / 4)] else none
  | _, _, _ => none

def decodeFour (e : Engine) (a b c d : Char) : Option Bytes :=
  match e.alphabet.value a, e.alphabet.value b, e.alphabet.value c, e.alphabet.value d with
  | some t, some u, some v, some w =>
    some [UInt8.ofNat (t * 4 + u / 16), UInt8.ofNat (u % 16 * 16 + v / 4), UInt8.ofNat (v % 4 * 64 + w)]
  | _, _, _, _ => none

/-- A last group of four characters, where there are pads. -/
def decodePadded (e : Engine) (a b c d : Char) : Option Bytes :=
  if c = '=' ∧ d = '=' then e.decodeTwo a b else if d = '=' then e.decodeThree a b c else none

def decodeChars (e : Engine) : List Char → Option Bytes
  | [] => some []
  | [_] => none
  | [c, d] => if e.padded then none else e.decodeTwo c d
  | [b, c, d] => if e.padded then none else e.decodeThree b c d
  | a :: b :: c :: d :: rest =>
    match e.decodeFour a b c d with
    | some group => (decodeChars e rest).map (group ++ ·)
    | none => if e.padded ∧ rest = [] then e.decodePadded a b c d else none

def encode (e : Engine) (bytes : Bytes) : String := String.ofList (e.encodeChars bytes)

def decode (e : Engine) (text : String) : Option Bytes := e.decodeChars text.toList

end Engine

/-! ## Lengths -/

variable {a : Alphabet} {e : Engine}

/-- An engine with pads reads groups of four. -/
theorem length_of_decodeChars (hpadded : e.padded = true) :
    ∀ (text : List Char) {bytes : Bytes}, e.decodeChars text = some bytes → text.length % 4 = 0
  | [], _, _ => rfl
  | [_], _, h => by cases h
  | [c, d], _, h => by
    unfold Engine.decodeChars at h
    rw [if_pos hpadded] at h
    cases h
  | [b, c, d], _, h => by
    unfold Engine.decodeChars at h
    rw [if_pos hpadded] at h
    cases h
  | a :: b :: c :: d :: rest, _, h => by
    unfold Engine.decodeChars at h
    cases hfour : e.decodeFour a b c d with
    | some group =>
      rw [hfour] at h
      obtain ⟨tail, htail, -⟩ := Option.map_eq_some_iff.mp h
      have hrest := length_of_decodeChars hpadded rest htail
      simp only [List.length_cons]
      omega
    | none =>
      rw [hfour] at h
      dsimp only at h
      split_ifs at h with hrest
      rw [hrest.2]
      simp

/-- Without pads, as many symbols as there are groups of six bits. -/
theorem length_encodeChars (hpadded : e.padded = false) (bytes : Bytes) :
    (e.encodeChars bytes).length = (4 * bytes.length + 2) / 3 := by
  induction bytes using Engine.encodeChars.induct with
  | case1 => rfl
  | case2 x =>
    unfold Engine.encodeChars Engine.pads
    rw [if_neg (by rw [hpadded]; exact Bool.false_ne_true)]
    simp
  | case3 x y =>
    unfold Engine.encodeChars Engine.pads
    rw [if_neg (by rw [hpadded]; exact Bool.false_ne_true)]
    simp
  | case4 x y z rest ih =>
    unfold Engine.encodeChars
    simp only [List.length_cons, ih]
    omega

/-- An engine with pads does not read what an engine without pads writes, unless the groups are whole. -/
theorem decode_encode_unpadded {e e' : Engine} (hpadded : e.padded = true) (hpadded' : e'.padded = false) {bytes : Bytes}
    (hlength : bytes.length % 3 ≠ 0) : e.decode (e'.encode bytes) = none := by
  cases hdecode : e.decode (e'.encode bytes) with
  | none => rfl
  | some bytes' =>
    unfold Engine.decode Engine.encode at hdecode
    rw [String.toList_ofList] at hdecode
    have hfour := length_of_decodeChars hpadded _ hdecode
    rw [length_encodeChars hpadded'] at hfour
    omega

/-! ## The two engines -/

/-- The letters and digits of both alphabets. -/
def alphanumerics : List Char := "ABCDEFGHIJKLMNOPQRSTUVWXYZabcdefghijklmnopqrstuvwxyz0123456789".toList

def standardSymbols : List Char := alphanumerics ++ ['+', '/']

def urlSafeSymbols : List Char := alphanumerics ++ ['-', '_']

theorem standardSymbols_length : standardSymbols.length = 64 := by decide +kernel

theorem standardSymbols_nodup : standardSymbols.Nodup := by decide +kernel

theorem standardSymbols_noPad : '=' ∉ standardSymbols := by decide +kernel

theorem urlSafeSymbols_length : urlSafeSymbols.length = 64 := by decide +kernel

theorem urlSafeSymbols_nodup : urlSafeSymbols.Nodup := by decide +kernel

theorem urlSafeSymbols_noPad : '=' ∉ urlSafeSymbols := by decide +kernel

/-- `general_purpose::STANDARD` -/
def standard : Engine := ⟨⟨standardSymbols, standardSymbols_length, standardSymbols_nodup, standardSymbols_noPad⟩, true⟩

/-- `general_purpose::URL_SAFE_NO_PAD` -/
def urlSafeNoPad : Engine := ⟨⟨urlSafeSymbols, urlSafeSymbols_length, urlSafeSymbols_nodup, urlSafeSymbols_noPad⟩, false⟩

example : standard.encode [102, 111, 111, 98] = "Zm9vYg==" := by decide +kernel

example : urlSafeNoPad.decode "_-8" = some [255, 239] := by decide +kernel

end Base64

end Opsense
