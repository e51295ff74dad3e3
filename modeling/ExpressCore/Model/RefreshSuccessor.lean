import ExpressCore.Model.Statement

/-! # Sealed successors of rotated refresh tokens -/

namespace ExpressCore

open Interleaving Program

/-- A hexadecimal digit, as `Buffer.from(…, 'hex')` reads it. -/
def hexDigit (c : Char) : Option ℕ :=
  if '0' ≤ c ∧ c ≤ '9' then some (c.toNat - '0'.toNat)
  else if 'a' ≤ c ∧ c ≤ 'f' then some (c.toNat - 'a'.toNat + 10)
  else if 'A' ≤ c ∧ c ≤ 'F' then some (c.toNat - 'A'.toNat + 10)
  else none

/-- `Buffer.from(…, 'hex')` stops at the first pair that is not hexadecimal. -/
def ofHexChars : List Char → Bytes
  | a :: b :: rest =>
      match hexDigit a, hexDigit b with
      | some x, some y => UInt8.ofNat (16 * x + y) :: ofHexChars rest
      | _, _ => []
  | _ => []

def ofHex (s : String) : Bytes := ofHexChars s.toList

/-- `Buffer.from` of a string. -/
def utf8 (s : String) : Bytes := s.toUTF8.toList

def VERSION : UInt8 := 1
def IV_BYTES : ℕ := 12
def TAG_BYTES : ℕ := 16
def HEADER_BYTES : ℕ := 1 + IV_BYTES + TAG_BYTES
def INFO : String := "express-core:refresh-successor:v1"

variable (setup : Setup)

def deriveKey (predecessorToken secret : String) : Bytes :=
  setup.crypto.hkdf predecessorToken secret INFO

/-- `sealSuccessor` with the random IV it drew: version, IV, tag and ciphertext. -/
def sealWith (iv : Bytes) (predecessorToken predecessorHash successorToken : String)
    (secret : String := setup.env.jwtAccessSecret) : Bytes :=
  let sealed := setup.crypto.encrypt (deriveKey setup predecessorToken secret) iv
    (utf8 predecessorHash) (ofHex successorToken)
  [VERSION] ++ iv ++ sealed.2 ++ sealed.1

def sealSuccessor (predecessorToken predecessorHash successorToken : String)
    (secret : String := setup.env.jwtAccessSecret) : Service Bytes := do
  let iv ← request (.randomBytes IV_BYTES)
  pure (sealWith setup iv predecessorToken predecessorHash successorToken secret)

def openSuccessor (predecessorToken predecessorHash : String) (data : Bytes)
    (secret : String := setup.env.jwtAccessSecret) : Option String :=
  if data.length ≤ HEADER_BYTES ∨ data.head? ≠ some VERSION then none
  else
    (setup.crypto.decrypt (deriveKey setup predecessorToken secret)
      ((data.drop 1).take IV_BYTES) (utf8 predecessorHash)
      ((data.drop (1 + IV_BYTES)).take TAG_BYTES) (data.drop HEADER_BYTES)).map toHex

end ExpressCore
