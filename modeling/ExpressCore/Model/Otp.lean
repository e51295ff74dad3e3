import ExpressCore.Model.Outbox
import ExpressCore.Model.RefreshSuccessor

/-! # Registration codes -/

namespace ExpressCore

open ReadCommitted Interleaving Program

variable (setup : Setup)

/-! ## `otp.code` -/

/-- `trim().toLowerCase()`; the addresses that pass validation are ASCII. -/
def normalizeEmail (email : String) : String :=
  lower (String.ofList
    ((email.toList.dropWhile isSpace).reverse.dropWhile isSpace).reverse)

def otpKey (purpose : String) : Bytes :=
  setup.crypto.hkdf setup.env.jwtAccessSecret "" ("express-core:" ++ purpose ++ ":v1")

/-- `email` must already be normalized. -/
def hashOtpCode (email code : String) : String :=
  toHex (setup.crypto.hmac (otpKey setup "otp-code") (email ++ "\n" ++ code))

def otpCodeMatches (email code storedHash : String) : Bool :=
  ofHex (hashOtpCode setup email code) == ofHex storedHash

/-- The digits of `digest('base64url')`. -/
def base64urlDigit (n : ℕ) : Char :=
  if n < 26 then Char.ofNat ('A'.toNat + n)
  else if n < 52 then Char.ofNat ('a'.toNat + (n - 26))
  else if n < 62 then Char.ofNat ('0'.toNat + (n - 52))
  else if n = 62 then '-' else '_'

def base64urlChars : Bytes → List Char
  | a :: b :: c :: rest =>
      let n := a.toNat * 65536 + b.toNat * 256 + c.toNat
      [18, 12, 6, 0].map (fun k => base64urlDigit (n / 2 ^ k % 64)) ++ base64urlChars rest
  | [a, b] =>
      let n := a.toNat * 65536 + b.toNat * 256
      [18, 12, 6].map fun k => base64urlDigit (n / 2 ^ k % 64)
  | [a] => [18, 12].map fun k => base64urlDigit (a.toNat * 65536 / 2 ^ k % 64)
  | [] => []

/-- `n` in decimal with at least `width` digits. -/
def padDigits (width n : ℕ) : String :=
  let digits := toString n
  String.ofList (List.replicate (width - digits.length) '0') ++ digits

/-- `Date.toISOString`: the civil date of the day number, by 400-year eras that start in
March. -/
def toISOString (time : Time) : String :=
  let z := time / 86400000 + 719468
  let doe := z % 146097
  let yoe := (doe - doe / 1460 + doe / 36524 - doe / 146096) / 365
  let doy := doe - (365 * yoe + yoe / 4 - yoe / 100)
  let mp := (5 * doy + 2) / 153
  let month := if mp < 10 then mp + 3 else mp - 9
  let year := yoe + z / 146097 * 400 + if month ≤ 2 then 1 else 0
  let ms := time % 86400000
  (if year ≤ 9999 then padDigits 4 year else "+" ++ padDigits 6 year) ++ "-" ++
    padDigits 2 month ++ "-" ++ padDigits 2 (doy - (153 * mp + 2) / 5 + 1) ++ "T" ++
    padDigits 2 (ms / 3600000) ++ ":" ++ padDigits 2 (ms / 60000 % 60) ++ ":" ++
    padDigits 2 (ms / 1000 % 60) ++ "." ++ padDigits 3 (ms % 1000) ++ "Z"

def registrationTicket (otpId : ℕ) (verifiedAt : Time) : String :=
  String.ofList (base64urlChars
    (setup.crypto.hmac (otpKey setup "otp-ticket")
      (toString otpId ++ "\n" ++ toISOString verifiedAt)))

def ticketMatches (ticket : String) (otpId : ℕ) (verifiedAt : Time) : Bool :=
  ticket == registrationTicket setup otpId verifiedAt

/-! ## `otp.repository` -/

/-- `row` is the reserved row and `reservedAt` is `now()` of the reservation; the code reads
the id, the hash and `verifiedAt` of the row. -/
structure ReservedAttempt where
  id : ℕ
  row : EmailOtp
  reservedAt : Time

def issue (email codeHash : String) (issuance expiresMinutes cooldownSeconds : ℕ) :
    Service Bool := do
  let now ← statement .now
  let expiresAt := now + expiresMinutes * 60 * 1000
  let row ← emailOtps (.upsert (.email email)
    { email, codeHash, attempts := 0, sentAt := now, expiresAt, verifiedAt := none
      consumedAt := none, issuance }
    (.cooled now (cooldownSeconds * 1000)) (.reissue codeHash now expiresAt issuance))
  statement (.complete .tx)
  pure row.isSome

def reserveAttempt (email : String) (maxAttempts : ℕ) : Service (Option ReservedAttempt) := do
  let now ← statement .now
  let rows ← changeMany emailOtps .prisma (.reservable email now maxAttempts) .attempt
  pure (rows.head?.map fun x => { id := x.1, row := x.2, reservedAt := now })

def findOtpByEmail (email : String) : Service (Option (ℕ × EmailOtp)) :=
  emailOtps (.find (.email email))

def markVerified (id : ℕ) : Service (Option Time) := do
  let now ← request .now
  let _ ← changeMany emailOtps .prisma (.unverified id) (.verify now)
  let row ← emailOtps (.find (.id id))
  pure (row.bind fun x => x.2.verifiedAt)

def consume (email : String) (windowMinutes : ℕ) : Service (Option (ℕ × EmailOtp)) := do
  let now ← statement .now
  let rows ← changeMany emailOtps .tx (.consumable email now (windowMinutes * 60 * 1000))
    (.consume now)
  pure rows.head?

def deleteExpiredOtps (before : Time) (batchSize maxBatches : ℕ) : Service ℕ :=
  deleteBatches emailOtps (.expired before) (·.expiresAt) .ids .delete batchSize maxBatches

/-! ## `otp.service` -/

def findUserByEmailInsensitive (email : String) : Service (Option ℕ) := do
  let user ← users (.find (.emailInsensitive email))
  pure (user.map Prod.fst)

def sendCode (rawEmail : String) : Service Unit := do
  let email := normalizeEmail rawEmail
  if (← findUserByEmailInsensitive email).isSome then
    throw (appError "Email already registered" 409)
  else do
    let code ← request .generateOtpCode
    let issued ← transaction do
      let fresh ← issue email (hashOtpCode setup email code.1) code.2 setup.env.otpExpiresMinutes
        setup.env.otpResendCooldownSeconds
      if fresh then do
        enqueue EMAIL "sendOtpEmail"
          ⟨.obj [("email", .str email), ("code", .str code.1),
            ("expiresMinutes", .num setup.env.otpExpiresMinutes)], by simp⟩
        pure fresh
      else pure fresh
    if issued then pure ()
    else throw (appError "Please wait before requesting a new code" 429)

def verifyCode (rawEmail code : String) : Service String := do
  let email := normalizeEmail rawEmail
  match ← reserveAttempt email setup.env.otpMaxAttempts with
  | none => do
      let row ← findOtpByEmail email
      let now ← request .now
      if row.any fun x => x.2.consumedAt.isNone && decide (now < x.2.expiresAt) &&
          decide (setup.env.otpMaxAttempts ≤ x.2.attempts) then
        throw (appError "Too many attempts. Please request a new code" 429)
      else throw (appError "Invalid or expired code" 400)
  | some attempt => do
      request (.otpCodeMatches
        { issuance := attempt.row.issuance, reservedAt := attempt.reservedAt
          expiresAt := attempt.row.expiresAt, unconsumed := attempt.row.consumedAt.isNone })
      if !otpCodeMatches setup email code attempt.row.codeHash then
        throw (appError "Invalid code" 400)
      else do
        let verifiedAt ← match attempt.row.verifiedAt with
          | some verifiedAt => pure (some verifiedAt)
          | none => markVerified attempt.id
        match verifiedAt with
        | none => throw (appError "Invalid or expired code" 400)
        | some verifiedAt => do
            request (.ticketReturned attempt.id verifiedAt)
            pure (registrationTicket setup attempt.id verifiedAt)

/-- An empty ticket is falsy. -/
def consumeForRegistration (rawEmail : String) (ticket : Option String) : Service Unit := do
  match ticket.filter (· ≠ "") with
  | none => throw (appError "Email not verified. Request and verify a code before registering." 400)
  | some ticket => do
      let consumed ← consume (normalizeEmail rawEmail) setup.env.otpVerifiedWindowMinutes
      if consumed.any fun x =>
          x.2.verifiedAt.any fun verifiedAt => ticketMatches setup ticket x.1 verifiedAt then
        pure ()
      else throw (appError "Email not verified. Request and verify a code before registering." 400)

end ExpressCore
