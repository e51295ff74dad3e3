import ExpressCore.Model.RefreshSuccessor

/-! # What is sealed can be opened -/

namespace ExpressCore

/-! ## Hexadecimal -/

theorem hexDigit_digitChar {n : ℕ} (h : n < 16) : hexDigit (Nat.digitChar n) = some n := by
  have hall : ∀ n < 16, hexDigit (Nat.digitChar n) = some n := by decide
  exact hall n h

theorem ofHexChars_digits (bytes : Bytes) :
    ofHexChars (bytes.flatMap fun b =>
      [Nat.digitChar (b.toNat / 16), Nat.digitChar (b.toNat % 16)]) = bytes := by
  induction bytes with
  | nil => rfl
  | cons b rest ih =>
      have hhigh : b.toNat / 16 < 16 := Nat.div_lt_of_lt_mul b.toNat_lt
      have hlow : b.toNat % 16 < 16 := Nat.mod_lt _ (by decide)
      have hbyte : UInt8.ofNat (16 * (b.toNat / 16) + b.toNat % 16) = b := by
        rw [Nat.div_add_mod, UInt8.ofNat_toNat]
      simp only [List.flatMap_cons, List.cons_append, List.nil_append, ofHexChars,
        hexDigit_digitChar hhigh, hexDigit_digitChar hlow, hbyte, ih]

theorem ofHex_toHex (bytes : Bytes) : ofHex (toHex bytes) = bytes := by
  simp [ofHex, toHex, ofHexChars_digits]

/-! ## Sealed successors -/

/-- AES-256-GCM: a tag of fixed length, a ciphertext as long as the plaintext, and decryption
undoes encryption. -/
structure Crypto.Authenticates (crypto : Crypto) : Prop where
  tag : ∀ key iv associated plaintext,
    (crypto.encrypt key iv associated plaintext).2.length = TAG_BYTES
  ciphertext : ∀ key iv associated plaintext,
    (crypto.encrypt key iv associated plaintext).1.length = plaintext.length
  decrypt : ∀ key iv associated plaintext,
    crypto.decrypt key iv associated (crypto.encrypt key iv associated plaintext).2
      (crypto.encrypt key iv associated plaintext).1 = some plaintext

variable {setup : Setup}

/-- The holder of the predecessor token gets the successor token back. -/
theorem openSuccessor_sealWith (hcrypto : setup.crypto.Authenticates) {iv bytes : Bytes}
    (hiv : iv.length = IV_BYTES) (hbytes : bytes ≠ [])
    (predecessorToken predecessorHash secret : String) :
    openSuccessor setup predecessorToken predecessorHash
      (sealWith setup iv predecessorToken predecessorHash (toHex bytes) secret) secret =
        some (toHex bytes) := by
  have hpositive : 0 < bytes.length := List.length_pos_of_ne_nil hbytes
  unfold openSuccessor sealWith
  rw [ofHex_toHex]
  generalize hkey : deriveKey setup predecessorToken secret = key
  have htag := hcrypto.tag key iv (utf8 predecessorHash) bytes
  have hciphertext := hcrypto.ciphertext key iv (utf8 predecessorHash) bytes
  have hdecrypt := hcrypto.decrypt key iv (utf8 predecessorHash) bytes
  generalize setup.crypto.encrypt key iv (utf8 predecessorHash) bytes = sealed at *
  obtain ⟨ciphertext, tag⟩ := sealed
  have hheader : HEADER_BYTES = (iv ++ tag).length + 1 := by
    rw [List.length_append, hiv, htag, HEADER_BYTES, Nat.add_comm 1, Nat.add_right_comm]
  have hdata : [VERSION] ++ iv ++ tag ++ ciphertext = VERSION :: (iv ++ (tag ++ ciphertext)) := by
    simp
  have hlong : ¬ ((VERSION :: (iv ++ (tag ++ ciphertext))).length ≤ HEADER_BYTES ∨
      (VERSION :: (iv ++ (tag ++ ciphertext))).head? ≠ some VERSION) := by
    simp only [List.length_cons, List.length_append, hiv, htag, hciphertext, HEADER_BYTES,
      List.head?_cons, ne_eq, not_true_eq_false, or_false]
    omega
  rw [hdata, if_neg hlong]
  have hivPart : ((VERSION :: (iv ++ (tag ++ ciphertext))).drop 1).take IV_BYTES = iv := by
    simp [← hiv]
  have htagPart : ((VERSION :: (iv ++ (tag ++ ciphertext))).drop (1 + IV_BYTES)).take TAG_BYTES =
      tag := by
    rw [Nat.add_comm, List.drop_succ_cons, ← hiv, List.drop_left, ← htag, List.take_left]
  have hrest : (VERSION :: (iv ++ (tag ++ ciphertext))).drop HEADER_BYTES = ciphertext := by
    rw [hheader, List.drop_succ_cons, ← List.append_assoc, List.drop_left]
  rw [hivPart, htagPart, hrest, hdecrypt]
  rfl

end ExpressCore
