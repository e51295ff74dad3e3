import ExpressCore.Verification.Session.Sealing
import ExpressCore.Verification.System.Start

/-! # Sealed successors are exact

What is sealed opens under the same token, hash and secret, and nothing else opens. -/

namespace ExpressCore

/-! ## Hexadecimal -/

/-- A digit of `Buffer.toString('hex')`. -/
def IsHexDigit (c : Char) : Prop := '0' ≤ c ∧ c ≤ '9' ∨ 'a' ≤ c ∧ c ≤ 'f'

instance (c : Char) : Decidable (IsHexDigit c) := by
  unfold IsHexDigit
  infer_instance

/-- A non-empty string of lowercase hexadecimal digits, two for each byte. -/
structure IsHex (s : String) : Prop where
  ne_empty : s ≠ ""
  even : s.toList.length % 2 = 0
  digits : ∀ c ∈ s.toList, IsHexDigit c

theorem digitChar_isHexDigit {n : ℕ} (h : n < 16) : IsHexDigit (Nat.digitChar n) := by
  have hall : ∀ n < 16, IsHexDigit (Nat.digitChar n) := by decide
  exact hall n h

theorem hexDigit_of_isHexDigit {c : Char} (h : IsHexDigit c) :
    ∃ n < 16, hexDigit c = some n ∧ Nat.digitChar n = c := by
  have hle (a b : Char) : a ≤ b ↔ a.toNat ≤ b.toNat := Iff.rfl
  have hchar (n : ℕ) (hn : c.toNat = n) : c = Char.ofNat n := hn ▸ (Char.ofNat_toNat c).symm
  have hall : ∀ n ∈ List.range 103, IsHexDigit (Char.ofNat n) →
      ∃ k < 16, hexDigit (Char.ofNat n) = some k ∧ Nat.digitChar k = Char.ofNat n := by
    decide +kernel
  have hbound : c.toNat < 103 := by
    rcases h with ⟨-, h⟩ | ⟨-, h⟩
    · exact Nat.lt_of_le_of_lt ((hle c '9').mp h) (by decide)
    · exact Nat.lt_of_le_of_lt ((hle c 'f').mp h) (by decide)
  have heq := hchar c.toNat rfl
  have hdigit := hall c.toNat (List.mem_range.mpr hbound) (heq ▸ h)
  rwa [← heq] at hdigit

/-- Hexadecimal digits come in pairs, one for each byte. -/
theorem toHexChars_ofHexChars : ∀ cs : List Char, cs.length % 2 = 0 → (∀ c ∈ cs, IsHexDigit c) →
    ((ofHexChars cs).flatMap fun b =>
      [Nat.digitChar (b.toNat / 16), Nat.digitChar (b.toNat % 16)]) = cs
  | [], _, _ => rfl
  | [_], hlength, _ => by simp at hlength
  | a :: b :: rest, hlength, hdigits => by
      obtain ⟨x, hx, hhex, hchar⟩ := hexDigit_of_isHexDigit (hdigits a (.head _))
      obtain ⟨y, hy, hhex', hchar'⟩ := hexDigit_of_isHexDigit (hdigits b (.tail _ (.head _)))
      have hbyte : (UInt8.ofNat (16 * x + y)).toNat = 16 * x + y := UInt8.toNat_ofNat_of_lt (by
        simp only [UInt8.size]
        omega)
      have hhigh : (16 * x + y) / 16 = x := by omega
      have hlow : (16 * x + y) % 16 = y := by omega
      have hrest := toHexChars_ofHexChars rest
        (by simp only [List.length_cons] at hlength; omega)
        fun c hc => hdigits c (.tail _ (.tail _ hc))
      simp only [ofHexChars, hhex, hhex', List.flatMap_cons, hbyte, hhigh, hlow, hchar, hchar',
        hrest, List.cons_append, List.nil_append]

theorem toHex_ofHex {s : String} (h : IsHex s) : toHex (ofHex s) = s := by
  rw [toHex, ofHex, toHexChars_ofHexChars s.toList h.even h.digits, String.ofList_toList]

theorem toHex_isHex {bytes : Bytes} (h : bytes ≠ []) : IsHex (toHex bytes) where
  ne_empty hempty := by
    have hbytes := ofHex_toHex bytes
    rw [hempty] at hbytes
    exact h hbytes.symm
  even := by
    simp only [toHex, String.toList_ofList, List.length_flatMap, List.length_cons, List.length_nil,
      List.map_const', List.sum_replicate_nat]
    omega
  digits c hc := by
    simp only [toHex, String.toList_ofList, List.mem_flatMap, List.mem_cons, List.not_mem_nil,
      or_false] at hc
    obtain ⟨b, -, rfl | rfl⟩ := hc
    · exact digitChar_isHexDigit (Nat.div_lt_of_lt_mul b.toNat_lt)
    · exact digitChar_isHexDigit (Nat.mod_lt _ (by decide))

/-! ## Bytes of a string -/

theorem toList_loop (bytes : ByteArray) (i : ℕ) (read : List UInt8) :
    ByteArray.toList.loop bytes i read = read.reverse ++ bytes.data.toList.drop i := by
  fun_induction ByteArray.toList.loop bytes i read with
  | case1 i read hlt ih =>
      have hi : i < bytes.data.toList.length := by simpa using hlt
      have hget : bytes.get! i = bytes.data.toList[i] := by
        rw [Array.getElem_toList]
        exact getElem!_pos bytes.data i hlt
      rw [ih, List.drop_eq_getElem_cons hi, hget]
      simp
  | case2 i read hge =>
      rw [List.drop_eq_nil_of_le (by simpa using Nat.le_of_not_lt hge), List.append_nil]

theorem utf8_injective {s s' : String} (h : utf8 s = utf8 s') : s = s' := by
  simp only [utf8, ByteArray.toList, toList_loop, List.reverse_nil, List.nil_append,
    List.drop_zero] at h
  exact String.toByteArray_inj.mp (ByteArray.ext (Array.toList_inj.mp h))

/-! ## Sealings -/

/-- A call of `sealSuccessor`, with the IV it drew. -/
structure Sealing where
  iv : Bytes
  predecessorToken : String
  predecessorHash : String
  successorToken : String
  secret : String
  iv_length : iv.length = IV_BYTES

variable {setup : Setup} {sealings : Set Sealing}

variable (setup) in
def Sealing.output (x : Sealing) : Bytes :=
  sealWith setup x.iv x.predecessorToken x.predecessorHash x.successorToken x.secret

/-- An ideal AEAD of which the `sealings` are the encryptions: decryption succeeds exactly on
what one of them was made of and gave. Key derivation is injective. -/
structure Crypto.Ideal (crypto : Crypto) (sealings : Set Sealing) : Prop where
  tag : ∀ key iv associated plaintext,
    (crypto.encrypt key iv associated plaintext).2.length = TAG_BYTES
  ciphertext : ∀ key iv associated plaintext,
    (crypto.encrypt key iv associated plaintext).1.length = plaintext.length
  decrypt : ∀ key iv associated tag ciphertext plaintext,
    crypto.decrypt key iv associated tag ciphertext = some plaintext ↔
      ∃ x ∈ sealings, crypto.hkdf x.predecessorToken x.secret INFO = key ∧ x.iv = iv ∧
        utf8 x.predecessorHash = associated ∧ ofHex x.successorToken = plaintext ∧
          crypto.encrypt key iv associated plaintext = (ciphertext, tag)
  hkdf : ∀ token secret token' secret', crypto.hkdf token secret INFO =
    crypto.hkdf token' secret' INFO → token = token' ∧ secret = secret'

/-- The parts of sealed data. -/
theorem header_parts {iv tag : Bytes} (ciphertext : Bytes) (hiv : iv.length = IV_BYTES)
    (htag : tag.length = TAG_BYTES) :
    (([VERSION] ++ iv ++ tag ++ ciphertext).drop 1).take IV_BYTES = iv ∧
      (([VERSION] ++ iv ++ tag ++ ciphertext).drop (1 + IV_BYTES)).take TAG_BYTES = tag ∧
      ([VERSION] ++ iv ++ tag ++ ciphertext).drop HEADER_BYTES = ciphertext := by
  have hheader : HEADER_BYTES = ([VERSION] ++ iv ++ tag).length := by
    simp only [List.length_append, List.length_singleton, hiv, htag, HEADER_BYTES]
  have hdata : 1 + IV_BYTES = ([VERSION] ++ iv).length := by
    simp only [List.length_append, List.length_singleton, hiv]
  refine ⟨?_, ?_, ?_⟩
  · simp [← hiv]
  · rw [hdata, List.append_assoc ([VERSION] ++ iv), List.drop_left, ← htag, List.take_left]
  · rw [hheader, List.drop_left]

/-- Data longer than its header is a version, an IV, a tag and a ciphertext. -/
theorem eq_header_append {data : Bytes} (hlength : HEADER_BYTES < data.length)
    (hversion : data.head? = some VERSION) :
    data = [VERSION] ++ (data.drop 1).take IV_BYTES ++ (data.drop (1 + IV_BYTES)).take TAG_BYTES ++
      data.drop HEADER_BYTES := by
  obtain ⟨rest, rfl⟩ : ∃ rest, data = VERSION :: rest := by
    cases data with
    | nil => cases hversion
    | cons b rest => exact ⟨rest, by rw [Option.some.inj hversion]⟩
  have hheader : HEADER_BYTES = (IV_BYTES + TAG_BYTES) + 1 := rfl
  rw [hheader, Nat.add_comm 1, List.drop_succ_cons, List.drop_succ_cons, List.drop_succ_cons,
    List.drop_zero, ← List.drop_drop, List.append_assoc, List.append_assoc, List.take_append_drop,
    List.take_append_drop]
  rfl

/-- Every seal opens, and what opens is a seal made with the same token, hash and secret. -/
theorem openSuccessor_eq_some (hideal : setup.crypto.Ideal sealings)
    (predecessorToken predecessorHash : String) (data : Bytes) (secret successorToken : String) :
    openSuccessor setup predecessorToken predecessorHash data secret = some successorToken ↔
      ∃ x ∈ sealings, x.predecessorToken = predecessorToken ∧
        x.predecessorHash = predecessorHash ∧ x.secret = secret ∧ x.output setup = data ∧
        ofHex x.successorToken ≠ [] ∧ toHex (ofHex x.successorToken) = successorToken := by
  constructor
  · intro h
    unfold openSuccessor at h
    split at h
    · cases h
    · rename_i hheader
      obtain ⟨hlength, hversion⟩ := not_or.mp hheader
      obtain ⟨plaintext, hdecrypt, rfl⟩ := Option.map_eq_some_iff.mp h
      obtain ⟨x, hx, hkey, hiv, hassociated, rfl, hencrypt⟩ :=
        (hideal.decrypt _ _ _ _ _ _).mp hdecrypt
      obtain ⟨htoken, hsecret⟩ := hideal.hkdf _ _ _ _ hkey
      have houtput : x.output setup = data := by
        rw [eq_header_append (Nat.lt_of_not_le hlength) (not_not.mp hversion)]
        simp only [Sealing.output, sealWith, deriveKey, htoken, hsecret, hassociated, hiv]
        rw [show deriveKey setup predecessorToken secret = setup.crypto.hkdf predecessorToken secret
          INFO from rfl] at hencrypt
        rw [hencrypt]
      refine ⟨x, hx, htoken, utf8_injective hassociated, hsecret, houtput, fun hempty => ?_, rfl⟩
      have hciphertext := hideal.ciphertext
        (deriveKey setup predecessorToken secret) ((data.drop 1).take IV_BYTES)
        (utf8 predecessorHash) (ofHex x.successorToken)
      rw [hencrypt, hempty] at hciphertext
      simp only [List.length_drop, List.length_nil] at hciphertext
      omega
  · rintro ⟨x, hx, rfl, rfl, rfl, rfl, hne, rfl⟩
    have htag := hideal.tag (deriveKey setup x.predecessorToken x.secret) x.iv
      (utf8 x.predecessorHash) (ofHex x.successorToken)
    have hciphertext := hideal.ciphertext (deriveKey setup x.predecessorToken x.secret) x.iv
      (utf8 x.predecessorHash) (ofHex x.successorToken)
    obtain ⟨hivPart, htagPart, hrest⟩ := header_parts
      (setup.crypto.encrypt (deriveKey setup x.predecessorToken x.secret) x.iv
        (utf8 x.predecessorHash) (ofHex x.successorToken)).1 x.iv_length htag
    have hpositive : 0 < (ofHex x.successorToken).length := List.length_pos_of_ne_nil hne
    have hdecrypt : setup.crypto.decrypt (deriveKey setup x.predecessorToken x.secret) x.iv
        (utf8 x.predecessorHash)
        (setup.crypto.encrypt (deriveKey setup x.predecessorToken x.secret) x.iv
          (utf8 x.predecessorHash) (ofHex x.successorToken)).2
        (setup.crypto.encrypt (deriveKey setup x.predecessorToken x.secret) x.iv
          (utf8 x.predecessorHash) (ofHex x.successorToken)).1 = some (ofHex x.successorToken) :=
      (hideal.decrypt _ _ _ _ _ _).mpr ⟨x, hx, rfl, rfl, rfl, rfl, rfl⟩
    unfold openSuccessor Sealing.output sealWith
    dsimp only
    rw [if_neg, hivPart, htagPart, hrest, hdecrypt]
    · rfl
    · rintro (hshort | hversion)
      · simp only [List.length_append, List.length_singleton, x.iv_length, htag, hciphertext,
          HEADER_BYTES] at hshort
        omega
      · exact hversion rfl

/-- What is sealed opens to the same token, and what opens to a token was sealed from it with
the same predecessor, hash and secret. -/
theorem successor_exact (hideal : setup.crypto.Ideal sealings) :
    (∀ x ∈ sealings, IsHex x.successorToken →
      openSuccessor setup x.predecessorToken x.predecessorHash (x.output setup) x.secret =
        some x.successorToken) ∧
    (∀ predecessorToken predecessorHash data secret successorToken,
      openSuccessor setup predecessorToken predecessorHash data secret = some successorToken →
        IsHex successorToken ∧ ∃ x ∈ sealings, x.predecessorToken = predecessorToken ∧
          x.predecessorHash = predecessorHash ∧ x.secret = secret ∧
          data = sealWith setup x.iv predecessorToken predecessorHash successorToken secret) ∧
    ∀ predecessorToken predecessorHash data secret,
      (∀ x ∈ sealings, ¬ (x.predecessorToken = predecessorToken ∧
        x.predecessorHash = predecessorHash ∧ x.secret = secret ∧ x.output setup = data)) →
        openSuccessor setup predecessorToken predecessorHash data secret = none := by
  refine ⟨fun x hx hhex => ?_, fun token hash data secret successor h => ?_,
    fun token hash data secret hnone => ?_⟩
  · refine (openSuccessor_eq_some hideal _ _ _ _ _).mpr
      ⟨x, hx, rfl, rfl, rfl, rfl, fun hempty => ?_, toHex_ofHex hhex⟩
    have hsame := toHex_ofHex hhex
    rw [hempty] at hsame
    exact hhex.ne_empty hsame.symm
  · obtain ⟨x, hx, rfl, rfl, rfl, rfl, hne, rfl⟩ := (openSuccessor_eq_some hideal _ _ _ _ _).mp h
    refine ⟨toHex_isHex hne, x, hx, rfl, rfl, rfl, ?_⟩
    simp only [Sealing.output, sealWith, ofHex_toHex]
  · cases hopen : openSuccessor setup token hash data secret with
    | none => rfl
    | some successor =>
        obtain ⟨x, hx, htoken, hhash, hsecret, houtput, -⟩ :=
          (openSuccessor_eq_some hideal _ _ _ _ _).mp hopen
        exact (hnone x hx ⟨htoken, hhash, hsecret, houtput⟩).elim

/-! ## One sealing -/

def sealing : Sealing where
  iv := List.replicate IV_BYTES 7
  predecessorToken := "0a"
  predecessorHash := "hash"
  successorToken := "1f"
  secret := "secret"
  iv_length := rfl

/-- The length of the token, the token and the secret. -/
def pairKey (token secret : String) : Bytes :=
  List.replicate (utf8 token).length 1 ++ 0 :: (utf8 token ++ utf8 secret)

theorem pairKey_injective {token secret token' secret' : String}
    (h : pairKey token secret = pairKey token' secret') : token = token' ∧ secret = secret' := by
  have hsplit : ∀ (n m : ℕ) (xs ys : Bytes),
      List.replicate n 1 ++ 0 :: xs = List.replicate m 1 ++ 0 :: ys → n = m ∧ xs = ys := by
    intro n
    induction n with
    | zero =>
        intro m xs ys heq
        cases m with
        | zero => exact ⟨rfl, (List.cons.inj heq).2⟩
        | succ m => exact absurd (List.cons.inj heq).1 (by decide)
    | succ n ih =>
        intro m xs ys heq
        cases m with
        | zero => exact absurd (List.cons.inj heq).1 (by decide)
        | succ m =>
            obtain ⟨hnm, hrest⟩ := ih m xs ys (List.cons.inj heq).2
            exact ⟨congrArg Nat.succ hnm, hrest⟩
  obtain ⟨hlength, hrest⟩ := hsplit _ _ _ _ h
  obtain ⟨htoken, hsecret⟩ := List.append_inj hrest hlength
  exact ⟨utf8_injective htoken, utf8_injective hsecret⟩

/-- An AEAD with which only `sealing` was encrypted. -/
def sealingSetup : Setup :=
  { plainSetup with
    crypto :=
      { plainCrypto with
        hkdf := fun token secret _ => pairKey token secret
        encrypt := fun _ _ _ plaintext => (plaintext, List.replicate TAG_BYTES 0)
        decrypt := fun key iv associated tag ciphertext =>
          if pairKey sealing.predecessorToken sealing.secret = key ∧ sealing.iv = iv ∧
            utf8 sealing.predecessorHash = associated ∧ ofHex sealing.successorToken = ciphertext ∧
              List.replicate TAG_BYTES 0 = tag then some ciphertext else none } }

theorem sealingSetup_ideal : sealingSetup.crypto.Ideal {sealing} where
  tag _ _ _ _ := rfl
  ciphertext _ _ _ _ := rfl
  decrypt key iv associated tag ciphertext plaintext := by
    constructor
    · intro h
      obtain ⟨⟨hkey, hiv, hassociated, hciphertext, htag⟩, hplaintext⟩ :=
        (Option.ite_none_right_eq_some ..).mp h
      obtain rfl := Option.some.inj hplaintext
      exact ⟨sealing, rfl, hkey, hiv, hassociated, hciphertext, congrArg _ htag⟩
    · rintro ⟨x, rfl, hkey, hiv, hassociated, hplaintext, hencrypt⟩
      obtain ⟨rfl, htag⟩ := Prod.mk.inj hencrypt
      exact (if_pos ⟨hkey, hiv, hassociated, hplaintext, htag⟩)
  hkdf _ _ _ _ h := pairKey_injective h

theorem successor_exact_sealing :
    openSuccessor sealingSetup "0a" "hash" (sealing.output sealingSetup) "secret" = some "1f" ∧
      openSuccessor sealingSetup "0a" "other" (sealing.output sealingSetup) "secret" = none := by
  obtain ⟨hopens, -, hnone⟩ := successor_exact sealingSetup_ideal
  have hdata : toHex [31] = sealing.successorToken := by decide +kernel
  have hhex : IsHex sealing.successorToken := hdata ▸ toHex_isHex (List.cons_ne_nil _ _)
  refine ⟨hopens sealing rfl hhex, hnone _ _ _ _ ?_⟩
  rintro x rfl ⟨-, hhash, -⟩
  exact absurd hhash (by decide)

end ExpressCore
