import ExpressCore.Library.Access

/-! # The rows of the database

The columns the modelled functions read or write, under their names in the Prisma schema.
Ids are the table keys and are not repeated in the rows. -/

namespace ExpressCore

/-- Milliseconds since the epoch. -/
abbrev Time := ℕ

/-- The JSON values of payload columns. -/
inductive Json where
  | null
  | bool (b : Bool)
  | num (n : Int)
  | str (s : String)
  | arr (items : List Json)
  | obj (fields : List (String × Json))

/-- `Prisma.InputJsonValue`: what can be written to a required JSON column. Its type leaves
out the JSON null. -/
structure InputJsonValue where
  json : Json
  ne_null : json ≠ .null

structure Role where
  slug : String
  title : String
  userType : String
  description : Option String
  access : List String
  deletedAt : Option Time
  deriving DecidableEq

structure User where
  name : Option String
  slug : Option String
  email : Option String
  password : Option String
  avatar : Option String
  roleId : Option ℕ
  isEmailVerified : Bool
  deletedAt : Option Time
  deriving DecidableEq

inductive Gender where
  | male
  | female
  | other
  | undisclosed
  deriving DecidableEq

/-- `birthDate` is a DATE: the days since 0000-03-01. -/
structure UserProfile where
  userId : ℕ
  phone : Option String
  birthDate : Option ℕ
  gender : Option Gender
  locale : Option String
  deriving DecidableEq

/-- `token` is the SHA-256 of the token the client holds. -/
structure RefreshToken where
  token : String
  userId : ℕ
  familyId : ℕ
  expiresAt : Time
  rotatedAt : Option Time
  successorCiphertext : Option (List UInt8)
  deriving DecidableEq

structure EmailVerificationToken where
  token : String
  userId : ℕ
  expiresAt : Time
  deriving DecidableEq

structure PasswordResetToken where
  token : String
  userId : ℕ
  expiresAt : Time
  usedAt : Option Time
  deriving DecidableEq

/-- `issuance` numbers the codes ever issued. It is not a column: nothing reads it, and it
only tells the codes apart that a row holds one after the other. -/
structure EmailOtp where
  email : String
  codeHash : String
  attempts : ℕ
  sentAt : Time
  expiresAt : Time
  verifiedAt : Option Time
  consumedAt : Option Time
  issuance : ℕ
  deriving DecidableEq

structure ActivityLog where
  userId : Option ℕ
  action : String
  subjectType : String
  subjectId : Option ℕ
  description : String
  oldData : Option Json
  newData : Option Json

inductive OutboxStatus where
  | pending
  | published
  | failed
  deriving DecidableEq

structure Outbox where
  queueName : String
  jobName : String
  payload : Json
  status : OutboxStatus
  attempts : ℕ
  availableAt : Time
  publishedAt : Option Time
  lastError : Option String

structure DeadLetterJob where
  queueName : String
  jobName : String
  jobId : Option String
  payload : Json
  failedReason : String
  attemptsMade : ℕ
  createdAt : Time
  redrivenAt : Option Time
  redrivenBy : Option String
  redriveOutboxId : Option ℕ

structure EmailTemplate where
  key : String
  title : String
  subject : String
  body : String
  isActive : Bool
  deriving DecidableEq

/-! ## Conditions and changes -/

open ReadCommitted

/-- `excluding` is `excludeId` of the slug lookups. -/
inductive RoleWhere where
  | slug (slug : String) (excluding : Option ℕ)
  | id (id : ℕ)
  deriving DecidableEq

inductive RoleChange where
  | update (title slug userType : Option String) (description : Option (Option String))
      (access : Option (List String))
  | grant (values : List String)
  | delete (deletedAt : Time)

/-- `email`, `emailInsensitive`, `slug` and `active` exclude soft-deleted rows; `id` does
not. -/
inductive UserWhere where
  | email (email : String)
  | emailInsensitive (email : String)
  | slug (slug : String) (excluding : Option ℕ)
  | active (id : ℕ)
  | id (id : ℕ)
  | role (roleId : ℕ)
  deriving DecidableEq

/-- The columns an update of a user sets; an absent one keeps its value. -/
structure UserUpdate where
  name : Option String := none
  slug : Option String := none
  email : Option String := none
  roleId : Option ℕ := none
  avatar : Option String := none
  password : Option String := none
  isEmailVerified : Option Bool := none

/-- `delete` is the soft delete that the Prisma extension makes of `user.delete`. -/
inductive UserChange where
  | update (data : UserUpdate)
  | delete (deletedAt : Time)

/-- A detail that is absent stays, `some none` clears it. -/
structure ProfileFields where
  phone : Option (Option String) := none
  birthDate : Option (Option String) := none
  gender : Option (Option Gender) := none
  locale : Option (Option String) := none

/-- The columns of an update of `user_profiles`. -/
structure UserProfileUpdate where
  phone : Option (Option String) := none
  birthDate : Option (Option ℕ) := none
  gender : Option (Option Gender) := none
  locale : Option (Option String) := none

inductive ProfileWhere where
  | user (userId : ℕ)

inductive RefreshTokenWhere where
  | token (token : String)
  | unrotated (id : ℕ)
  | family (userId familyId : ℕ)
  | user (userId : ℕ)
  | expired (before : Time)
  | ids (ids : List ℕ)
  deriving DecidableEq

inductive RefreshTokenChange where
  | rotate (rotatedAt : Time) (successorCiphertext : List UInt8)
  | delete

inductive TokenWhere where
  | token (token : String)
  | unused (userId : ℕ)
  | expired (before : Time)

inductive PasswordResetTokenChange where
  | use (usedAt : Time)
  | delete

inductive EmailVerificationTokenChange where
  | delete

/-- `reservable`, `consumable` and `cooled` are the conditions of `reserveAttempt`, `consume`
and `issue`. -/
inductive EmailOtpWhere where
  | email (email : String)
  | id (id : ℕ)
  | unverified (id : ℕ)
  | reservable (email : String) (now : Time) (maxAttempts : ℕ)
  | consumable (email : String) (now window : Time)
  | cooled (now cooldown : Time)
  | expired (before : Time)
  | ids (ids : List ℕ)
  deriving DecidableEq

inductive EmailOtpChange where
  | attempt
  | verify (verifiedAt : Time)
  | consume (consumedAt : Time)
  | reissue (codeHash : String) (sentAt expiresAt : Time) (issuance : ℕ)
  | delete

inductive OutboxWhere where
  | due (now : Time)
  | pending (id : ℕ)
  | terminal (status : OutboxStatus) (before : Time)
  | ids (ids : List ℕ)

inductive OutboxChange where
  | lease (availableAt : Time)
  | publish (now : Time)
  | retry (error : String) (availableAt : Time)
  | fail (attempts : ℕ) (reason : String) (availableAt : Time)
  | delete

/-- `undriven` is the condition of the stamp: a row that was not re-driven. -/
inductive DeadLetterWhere where
  | id (id : ℕ)
  | undriven (id : ℕ)
  | created (before : Time)
  | ids (ids : List ℕ)

inductive DeadLetterChange where
  | stamp (redrivenAt : Time) (redrivenBy : Option String) (redriveOutboxId : ℕ)
  | delete

inductive EmailTemplateWhere where
  | key (key : String)

inductive EmailTemplateChange where
  | update (title subject body : Option String) (isActive : Option Bool)

/-- PostgreSQL's `lower` on the ASCII letters. -/
def lower (s : String) : String :=
  String.ofList (s.toList.map Char.toLower)

instance : Condition RoleWhere ℕ Role where
  holds
    | .slug slug excluding, i, row =>
        row.slug == slug && row.deletedAt.isNone && !(excluding == some i)
    | .id id, i, _ => i == id

instance : Change RoleChange Role where
  apply
    | .update title slug userType description access, row =>
        some { row with
          title := title.getD row.title
          slug := slug.getD row.slug
          userType := userType.getD row.userType
          description := description.getD row.description
          access := access.getD row.access }
    | .grant values, row =>
        some { row with access := row.access ++ values.filter fun v => !row.access.contains v }
    | .delete deletedAt, row => some { row with deletedAt := some deletedAt }

instance : Condition UserWhere ℕ User where
  holds
    | .email email, _, row => row.email == some email && row.deletedAt.isNone
    | .emailInsensitive email, _, row =>
        row.email.map lower == some (lower email) && row.deletedAt.isNone
    | .slug slug excluding, i, row =>
        row.slug == some slug && row.deletedAt.isNone && !(excluding == some i)
    | .active id, i, row => i == id && row.deletedAt.isNone
    | .id id, i, _ => i == id
    | .role roleId, _, row => row.roleId == some roleId && row.deletedAt.isNone

/-- The row after `user.update`. -/
def User.apply (row : User) (data : UserUpdate) : User :=
  { row with
    name := data.name.orElse fun _ => row.name
    slug := data.slug.orElse fun _ => row.slug
    email := data.email.orElse fun _ => row.email
    roleId := data.roleId.orElse fun _ => row.roleId
    avatar := data.avatar.orElse fun _ => row.avatar
    password := data.password.orElse fun _ => row.password
    isEmailVerified := data.isEmailVerified.getD row.isEmailVerified }

instance : Change UserChange User where
  apply
    | .update data, row => some (row.apply data)
    | .delete deletedAt, row => some { row with deletedAt := some deletedAt }

instance : Condition ProfileWhere ℕ UserProfile where
  holds
    | .user userId, _, row => row.userId == userId

instance : Change UserProfileUpdate UserProfile where
  apply data row :=
    some { row with
      phone := data.phone.getD row.phone
      birthDate := data.birthDate.getD row.birthDate
      gender := data.gender.getD row.gender
      locale := data.locale.getD row.locale }

instance : Condition RefreshTokenWhere ℕ RefreshToken where
  holds
    | .token token, _, row => row.token == token
    | .unrotated id, i, row => i == id && row.rotatedAt.isNone
    | .family userId familyId, _, row => row.userId == userId && row.familyId == familyId
    | .user userId, _, row => row.userId == userId
    | .expired before, _, row => decide (row.expiresAt < before)
    | .ids ids, i, _ => ids.contains i

instance : Change RefreshTokenChange RefreshToken where
  apply
    | .rotate rotatedAt successorCiphertext, row =>
        some { row with
          rotatedAt := some rotatedAt
          successorCiphertext := some successorCiphertext }
    | .delete, _ => none

instance : Condition TokenWhere ℕ PasswordResetToken where
  holds
    | .token token, _, row => row.token == token
    | .unused userId, _, row => row.userId == userId && row.usedAt.isNone
    | .expired before, _, row => decide (row.expiresAt < before)

instance : Change PasswordResetTokenChange PasswordResetToken where
  apply
    | .use usedAt, row => some { row with usedAt := some usedAt }
    | .delete, _ => none

instance : Condition TokenWhere ℕ EmailVerificationToken where
  holds
    | .token token, _, row => row.token == token
    | .unused userId, _, row => row.userId == userId
    | .expired before, _, row => decide (row.expiresAt < before)

instance : Change EmailVerificationTokenChange EmailVerificationToken where
  apply
    | .delete, _ => none

instance : Condition EmailOtpWhere ℕ EmailOtp where
  holds
    | .email email, _, row => row.email == email
    | .id id, i, _ => i == id
    | .unverified id, i, row => i == id && row.verifiedAt.isNone
    | .reservable email now maxAttempts, _, row =>
        row.email == email && row.consumedAt.isNone && decide (now < row.expiresAt) &&
          decide (row.attempts < maxAttempts)
    | .consumable email now window, _, row =>
        row.email == email && row.consumedAt.isNone &&
          row.verifiedAt.any fun verifiedAt => decide (now < verifiedAt + window)
    | .cooled now cooldown, _, row => decide (row.sentAt + cooldown ≤ now)
    | .expired before, _, row => decide (row.expiresAt < before)
    | .ids ids, i, _ => ids.contains i

instance : Change EmailOtpChange EmailOtp where
  apply
    | .attempt, row => some { row with attempts := row.attempts + 1 }
    | .verify verifiedAt, row => some { row with verifiedAt := some verifiedAt }
    | .consume consumedAt, row => some { row with consumedAt := some consumedAt }
    | .reissue codeHash sentAt expiresAt issuance, row =>
        some { row with
          codeHash := codeHash
          attempts := 0
          sentAt := sentAt
          expiresAt := expiresAt
          verifiedAt := none
          consumedAt := none
          issuance := issuance }
    | .delete, _ => none

instance : Condition OutboxWhere ℕ Outbox where
  holds
    | .due now, _, row => row.status == .pending && decide (row.availableAt ≤ now)
    | .pending id, i, row => i == id && row.status == .pending
    | .terminal status before, _, row =>
        row.status == status && decide (row.availableAt < before)
    | .ids ids, i, _ => ids.contains i

instance : Change OutboxChange Outbox where
  apply
    | .lease availableAt, row => some { row with availableAt := availableAt }
    | .publish now, row =>
        some { row with
          status := .published
          publishedAt := some now
          availableAt := now
          payload := .obj []
          lastError := none }
    | .retry error availableAt, row =>
        some { row with
          attempts := row.attempts + 1
          lastError := some error
          availableAt := availableAt }
    | .fail attempts reason availableAt, row =>
        some { row with
          status := .failed
          attempts := attempts
          lastError := some reason
          availableAt := availableAt }
    | .delete, _ => none

instance : Condition DeadLetterWhere ℕ DeadLetterJob where
  holds
    | .id id, i, _ => i == id
    | .undriven id, i, row => i == id && row.redrivenAt.isNone
    | .created before, _, row => decide (row.createdAt < before)
    | .ids ids, i, _ => ids.contains i

instance : Change DeadLetterChange DeadLetterJob where
  apply
    | .stamp redrivenAt redrivenBy redriveOutboxId, row =>
        some { row with
          redrivenAt := some redrivenAt
          redrivenBy := redrivenBy
          redriveOutboxId := some redriveOutboxId }
    | .delete, _ => none

instance : Condition EmailTemplateWhere ℕ EmailTemplate where
  holds
    | .key key, _, row => row.key == key

instance : Change EmailTemplateChange EmailTemplate where
  apply
    | .update title subject body isActive, row =>
        some { row with
          title := title.getD row.title
          subject := subject.getD row.subject
          body := body.getD row.body
          isActive := isActive.getD row.isActive }

end ExpressCore
