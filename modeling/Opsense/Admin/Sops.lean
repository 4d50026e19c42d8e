import Opsense.Lib.Text

/-!
# What the admin entities share

The errors of `opsense-model/src/entities/admin/errors.rs`, the calls of an entity that fail for reasons outside of it, the times that are
stored, and the encryption of `opsense-mlib/src/sops.rs`. AES-256-GCM with the master key is a parameter.
-/

namespace Opsense

namespace Admin

inductive AdminError
  | sqlx (error : String)
  | io (error : String)
  | other (message : String)
deriving DecidableEq

/-- Why a call fails: there is no pool, the database fails, there is no master key, or the cipher fails. -/
inductive Fault
  | pool
  | sqlx (error : String)
  | key
  | cipher (error : String)
deriving DecidableEq

/-- The error that a call answers, where `verb` is what it does with the cipher. -/
def Fault.raise (tenant_id : Int) (verb : String) : Fault → AdminError
  | .pool => .other s!"missing DB pool for tenant {tenant_id}"
  | .sqlx error => .sqlx error
  | .key => .other "Missing MASTER_KEY"
  | .cipher error => .other s!"{verb} failed: {error}"

/-- Nanoseconds. -/
def SECOND : Int := 1000000000

/-- `format_dt_for_db`: whole seconds are stored. -/
def formatDtForDb (time : Int) : Int := time / SECOND * SECOND

/-- `Aes256Gcm` with the master key, and the text of the error of bytes that are not UTF-8. -/
structure Cipher where
  encrypt : Bytes → Bytes → Option Bytes
  decrypt : Bytes → Bytes → Option Bytes
  invalid : Bytes → String

/-- What is encrypted is decrypted again, with its nonce. -/
def Cipher.Correct (cipher : Cipher) : Prop :=
  ∀ {nonce plain encrypted}, cipher.encrypt nonce plain = some encrypted → cipher.decrypt nonce encrypted = some plain

/-- The cipher at some texts: nonces, texts and what they are encrypted to. -/
def Cipher.ofTable (table : List (Bytes × Bytes × Bytes)) : Cipher where
  encrypt nonce plain := (table.find? fun row => decide (row.1 = nonce ∧ row.2.1 = plain)).map (·.2.2)
  decrypt nonce encrypted := (table.find? fun row => decide (row.1 = nonce ∧ row.2.2 = encrypted)).map (·.2.1)
  invalid _ := "invalid utf-8 sequence of 1 bytes from index 0"

theorem Cipher.ofTable_correct {table : List (Bytes × Bytes × Bytes)}
    (h : ∀ row ∈ table, ∀ row' ∈ table, row.1 = row'.1 → row.2.2 = row'.2.2 → row.2.1 = row'.2.1) : (Cipher.ofTable table).Correct := by
  intro nonce plain encrypted hencrypt
  obtain ⟨row, hfind, rfl⟩ := Option.map_eq_some_iff.mp hencrypt
  have hrow := List.find?_some hfind
  obtain ⟨hnonce, hplain⟩ := of_decide_eq_true hrow
  have hmem := List.mem_of_find?_eq_some hfind
  change (table.find? fun row' => decide (row'.1 = nonce ∧ row'.2.2 = row.2.2)).map (·.2.1) = some plain
  cases hdecrypt : table.find? fun row' => decide (row'.1 = nonce ∧ row'.2.2 = row.2.2) with
  | none => exact absurd (decide_eq_true ⟨hnonce, rfl⟩) (List.find?_eq_none.mp hdecrypt row hmem)
  | some row' =>
    have hrow' := List.find?_some hdecrypt
    obtain ⟨hnonce', hencrypted⟩ := of_decide_eq_true hrow'
    have hsame := h row' (List.mem_of_find?_eq_some hdecrypt) row hmem (hnonce'.trans hnonce.symm) hencrypted
    exact congrArg some (hsame.trans hplain)

/-- `[u8; 12]` -/
abbrev Nonce := { bytes : Bytes // bytes.length = 12 }

def zeroNonce : Nonce := ⟨List.replicate 12 0, List.length_replicate⟩

namespace Sops

variable (cipher : Cipher)

/-- `sops::encrypt`, with this random nonce. -/
def encrypt (nonce : Nonce) (token_plain : String) : Except String Bytes :=
  match cipher.encrypt nonce.1 (intoBytes token_plain) with
  | none => .error "Encrypt failed: aead::Error"
  | some ciphertext => .ok (nonce.1 ++ ciphertext)

/-- `sops::decrypt` -/
def decrypt (encrypted_bytes : Bytes) : Except String String :=
  if encrypted_bytes.length < 12 then .error "Data too short for decoding"
  else
    match cipher.decrypt (encrypted_bytes.take 12) (encrypted_bytes.drop 12) with
    | none => .error "Decode failed: aead::Error"
    | some decrypted_bytes =>
      match fromUtf8 decrypted_bytes with
      | none => .error s!"Validate failed: {cipher.invalid decrypted_bytes}"
      | some token => .ok (String.ofList token)

variable {cipher}

theorem decrypt_encrypt (hcipher : cipher.Correct) {nonce : Nonce} {token_plain : String} {encrypted : Bytes}
    (h : encrypt cipher nonce token_plain = .ok encrypted) : decrypt cipher encrypted = .ok token_plain := by
  unfold encrypt at h
  cases hc : cipher.encrypt nonce.1 (intoBytes token_plain) with
  | none =>
    rw [hc] at h
    cases h
  | some ciphertext =>
    rw [hc] at h
    obtain rfl : nonce.1 ++ ciphertext = encrypted := Except.ok.inj h
    have hlength : ¬ (nonce.1 ++ ciphertext).length < 12 := by
      rw [List.length_append, nonce.2]
      omega
    unfold decrypt
    rw [if_neg hlength, List.take_left' nonce.2, List.drop_left' nonce.2, hcipher hc]
    dsimp only
    rw [fromUtf8_intoBytes]
    exact congrArg Except.ok String.ofList_toList

end Sops

end Admin

end Opsense
