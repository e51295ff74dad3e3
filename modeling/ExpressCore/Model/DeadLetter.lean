import ExpressCore.Model.Auth

/-! # Re-driving dead-lettered jobs -/

namespace ExpressCore

open ReadCommitted Interleaving Program

variable (setup : Setup)

structure RedriveResult where
  deadLetterId : ℕ
  outboxId : ℕ
  queueName : String
  jobName : String

/-- The values of `QUEUE_NAMES`. -/
def ROUTABLE_QUEUES : List String := [EMAIL, SYSTEM]

def redriveError (message : String) : Error := .error message

/-- A property of a JSON value; values without properties have none. -/
def Json.field (name : String) : Json → Option Json
  | .obj fields => (fields.find? fun x => x.1 == name).map Prod.snd
  | _ => none

def Json.string : Json → Option String
  | .str s => some s
  | _ => none

def tokenOf (payload : Json) : Option String :=
  ((payload.field "token").bind Json.string).filter (· ≠ "")

/-! ## `REPLAY_GUARDS`

A guard answers with a refusal, or with none when the job may run again. -/

def guardVerification (payload : Json) : Service (Option String) := do
  let record ← match tokenOf payload with
    | some token => emailVerificationTokens (.find (.token token))
    | none => pure none
  match record with
  | none => pure (some "the verification token no longer exists (already verified or removed)")
  | some (_, record) => do
      let now ← request .now
      if record.expiresAt ≤ now then pure (some "the verification token has expired")
      else pure none

def guardResetPassword (payload : Json) : Service (Option String) := do
  let record ← match tokenOf payload with
    | some token => passwordResetTokens (.find (.token token))
    | none => pure none
  match record with
  | none => pure (some "the password-reset token no longer exists")
  | some (_, record) =>
      if record.usedAt.isSome then pure (some "the password-reset token was already used")
      else do
        let now ← request .now
        if record.expiresAt ≤ now then pure (some "the password-reset token has expired")
        else pure none

def guardOtpCode (payload : Json) : Service (Option String) := do
  let email := (payload.field "email").bind Json.string
  let code := (payload.field "code").bind Json.string
  let record ← match email with
    | some email => emailOtps (.find (.email email))
    | none => pure none
  match email, code, record with
  | some email, some code, some (_, record) =>
      if !otpCodeMatches setup email code record.codeHash then
        pure (some "the registration code was replaced or no longer exists")
      else if record.consumedAt.isSome then
        pure (some "the registration code was already used")
      else if record.verifiedAt.isSome then
        pure (some "the registration code was already verified")
      else do
        let now ← request .now
        if record.expiresAt ≤ now then pure (some "the registration code has expired")
        else pure none
  | _, _, _ => pure (some "the registration code was replaced or no longer exists")

/-- Jobs without a guard are always replayed. -/
def replayGuard (jobName : String) (payload : Json) : Service (Option String) :=
  if jobName = "sendVerificationEmail" then guardVerification payload
  else if jobName = "sendResetPasswordEmail" then guardResetPassword payload
  else if jobName = "sendOtpEmail" then guardOtpCode setup payload
  else pure none

/-! ## `dead-letter.repository` -/

def pruneDeadLetterJobs (before : Time) (batchSize maxBatches : ℕ) : Service ℕ :=
  deleteBatches deadLetterJobs (.created before) (·.createdAt) .ids .delete batchSize maxBatches

/-! ## `dead-letter.service` -/

def redrivenMessage (id : ℕ) (row : DeadLetterJob) (redrivenAt : Time) : String :=
  "Dead-letter job " ++ toString id ++ " was already re-driven at " ++ toISOString redrivenAt ++
    " (outbox " ++ (row.redriveOutboxId.map toString).getD "null" ++ ")"

/-- The intent and the stamp. The client library refuses a JSON null for the payload. -/
def replay (id : ℕ) (row : DeadLetterJob) (by' : Option String) : Service RedriveResult := do
  match row.payload with
  | .null => throw (Error.error "Argument payload must not be null.")
  | payload => do
      let now ← request .now
      let outboxId ← create outbox .tx
        { queueName := row.queueName, jobName := row.jobName, payload, status := .pending
          attempts := 0, availableAt := now, publishedAt := none, lastError := none }
      let redrivenAt ← request .now
      let stamped ← changeMany deadLetterJobs .tx (.undriven id)
        (.stamp redrivenAt by' outboxId)
      if stamped.length = 0 then
        throw (redriveError ("Dead-letter job " ++ toString id ++ " was re-driven concurrently"))
      else pure { deadLetterId := id, outboxId, queueName := row.queueName, jobName := row.jobName }

def redriveInTransaction (id : ℕ) (by' : Option String) : Service RedriveResult := do
  match ← deadLetterJobs (.find (.id id)) with
  | none => throw (redriveError ("Dead-letter job " ++ toString id ++ " not found"))
  | some (id, row) =>
      match row.redrivenAt with
      | some redrivenAt => throw (redriveError (redrivenMessage id row redrivenAt))
      | none =>
          if row.queueName ∉ ROUTABLE_QUEUES then
            throw (redriveError
              ("Unknown queue \"" ++ row.queueName ++ "\"; nothing can process it"))
          else do
            match ← replayGuard setup row.jobName row.payload with
            | some refusal => throw (redriveError
                ("Refusing to re-drive " ++ row.jobName ++ ": " ++ refusal))
            | none => replay id row by'

def redrive (id : ℕ) (by' : Option String) : Service RedriveResult :=
  transaction (redriveInTransaction setup id by')

end ExpressCore
