import ExpressCore.Model.Otp

/-! # Sign-in, refresh sessions and registration -/

namespace ExpressCore

open ReadCommitted Interleaving Program

variable (setup : Setup)

/-! ## `auth.repository` -/

def MAX_REVOCATION_PASSES : ℕ := 10

/-- `refreshToken.deleteMany`: returns the row count. -/
def deleteRefreshTokens (db : Client) (w : RefreshTokenWhere) : Service ℕ := do
  let rows ← refreshTokens (.scan w)
  let deleted ← visitAll refreshTokens w .delete rows
  statement (.deleted db w deleted.length)
  pure deleted.length

/-- The passes that are left of `revokeRefreshTokens`. -/
def revocationPasses (db : Client) (w : RefreshTokenWhere) (removed : ℕ) : ℕ → Service ℕ
  | 0 => throw (Error.error "Refresh-token revocation did not converge")
  | passes + 1 => do
      let count ← deleteRefreshTokens db w
      if count = 0 then pure removed
      else revocationPasses db w (removed + count) passes

def revokeRefreshTokens (db : Client) (w : RefreshTokenWhere) : Service ℕ :=
  revocationPasses db w 0 MAX_REVOCATION_PASSES

def findUserByEmail (email : String) : Service (Option (ℕ × User)) :=
  users (.find (.email email))

def findActiveRoleIdBySlug (slug : String) : Service (Option ℕ) := do
  let role ← roles (.find (.slug slug none))
  pure (role.map Prod.fst)

def createUserRow (db : Client) (row : User) : Service (ℕ × User) := do
  let id ← create users db row
  pure (id, row)

/-- A new login draws a new family; a rotation passes the family on. -/
def createRefreshToken (db : Client) (token : String) (userId : ℕ) (familyId : Option ℕ)
    (expiresAt : Time) : Service Unit := do
  let familyId ← match familyId with
    | some familyId => pure familyId
    | none => request .randomUuid
  let _ ← create refreshTokens db
    { token, userId, familyId, expiresAt, rotatedAt := none, successorCiphertext := none }
  pure ()

def findRefreshToken (token : String) : Service (Option (ℕ × RefreshToken)) :=
  refreshTokens (.find (.token token))

def markRefreshTokenRotated (db : Client) (id : ℕ) (successorCiphertext : Bytes)
    (rotatedAt : Time) : Service Bool := do
  let changed ← changeMany refreshTokens db (.unrotated id)
    (.rotate rotatedAt successorCiphertext)
  pure (changed.length == 1)

def deleteRefreshToken (db : Client) (token : String) : Service ℕ :=
  deleteRefreshTokens db (.token token)

def deleteRefreshTokenFamily (db : Client) (userId familyId : ℕ) : Service ℕ :=
  revokeRefreshTokens db (.family userId familyId)

def deleteRefreshTokensByUserId (db : Client) (userId : ℕ) : Service ℕ :=
  revokeRefreshTokens db (.user userId)

def createEmailVerificationToken (db : Client) (row : EmailVerificationToken) : Service Unit := do
  let _ ← create emailVerificationTokens db row
  pure ()

def createPasswordResetToken (db : Client) (row : PasswordResetToken) : Service Unit := do
  let _ ← create passwordResetTokens db row
  pure ()

def deleteUnusedPasswordResetTokens (db : Client) (userId : ℕ) : Service Unit := do
  let _ ← changeMany passwordResetTokens db (.unused userId) .delete
  pure ()

def findUniqueToken (token : String) : Service (Option (ℕ × PasswordResetToken)) :=
  passwordResetTokens (.find (.token token))

def deletePasswordResetToken (db : Client) (token : String) : Service Unit := do
  let _ ← changeMany passwordResetTokens db (.token token) .delete
  pure ()

def updatePasswordResetToken (db : Client) (token : String) (usedAt : Time) : Service Unit := do
  let _ ← changeOne passwordResetTokens db (.token token) (.use usedAt)
  pure ()

def deleteExpiredRefreshTokens (before : Time) (batchSize maxBatches : ℕ) : Service ℕ :=
  deleteBatches refreshTokens (.expired before) (·.expiresAt) .ids .delete batchSize maxBatches

/-! ## `refresh-rotation` -/

inductive RotationOutcome where
  | issued (userId : ℕ) (refreshToken : String)
  | invalid
  | expired
  | reused (userId familyId : ℕ)
  deriving DecidableEq

def MAX_SUCCESSOR_HOPS : ℕ := 5

/-- The hops that are left of `latestSuccessor`, from the row `current` of `currentToken`. -/
def latestSuccessor (now : Time) (currentToken : String) (current : RefreshToken) :
    ℕ → Service RotationOutcome
  | 0 => pure .invalid
  | hops + 1 =>
      match current.successorCiphertext.bind fun sealed =>
          openSuccessor setup currentToken current.token sealed with
      | none => pure .invalid
      | some next => do
          match ← findRefreshToken (hashToken setup next) with
          | none => pure .invalid
          | some (_, row) =>
              if row.expiresAt ≤ now then pure .invalid
              else if row.rotatedAt.isNone then pure (.issued row.userId next)
              else latestSuccessor now next row hops

/-- The part of `rotateRefreshToken` for a rotated record. -/
def reuseOrSuccessor (now : Time) (token : String) (record : RefreshToken) (rotatedAt : Time) :
    Service RotationOutcome := do
  if rotatedAt + setup.env.refreshGraceSeconds * 1000 < now then do
    let _ ← deleteRefreshTokenFamily .tx record.userId record.familyId
    pure (.reused record.userId record.familyId)
  else latestSuccessor setup now token record MAX_SUCCESSOR_HOPS

/-- The rotation of a live record: the claim and, for the winner, the successor row. -/
def claimSuccessor (now : Time) (token : String) (id : ℕ) (record : RefreshToken) :
    Service RotationOutcome := do
  let hashedToken := hashToken setup token
  let successor ← generateToken
  let ciphertext ← sealSuccessor setup token hashedToken successor.1
  if ← markRefreshTokenRotated .tx id ciphertext now then do
    createRefreshToken .tx (hashToken setup successor.1) record.userId (some record.familyId)
      (now + setup.env.refreshTokenExpiresDays * 86400000)
    pure (.issued record.userId successor.1)
  else do
    match ← findRefreshToken hashedToken with
    | none => pure .invalid
    | some (_, record) =>
        match record.rotatedAt with
        | none => pure .invalid
        | some rotatedAt => reuseOrSuccessor setup now token record rotatedAt

def rotateRefreshToken (token : String) : Service RotationOutcome := do
  let now ← request .now
  let hashedToken := hashToken setup token
  match ← findRefreshToken hashedToken with
  | none => pure .invalid
  | some (id, record) =>
      if record.expiresAt ≤ now then do
        let _ ← deleteRefreshToken .tx hashedToken
        pure .expired
      else
        match record.rotatedAt with
        | none => claimSuccessor setup now token id record
        | some rotatedAt => reuseOrSuccessor setup now token record rotatedAt

/-! ## `auth.service` -/

structure AuthTokens where
  accessToken : String
  refreshToken : String

structure RegisterInput where
  name : String
  email : String
  password : String
  registrationToken : Option String

/-- An unset or empty `REGISTRATION_DEFAULT_ROLE` is falsy. -/
def defaultRoleId : Service (Option ℕ) := do
  match setup.env.registrationDefaultRole.filter (· ≠ "") with
  | none => pure none
  | some slug => do
      match ← findActiveRoleIdBySlug slug with
      | none => throw (appError "Registration is temporarily unavailable" 500)
      | some roleId => pure (some roleId)

def slugOfUserTaken (excludeId : Option ℕ) (candidate : String) : Service Bool := do
  let user ← users (.find (.slug candidate excludeId))
  pure user.isSome

def optionalString : Option String → Json
  | some s => .str s
  | none => .null

def registerInTransaction (userData : RegisterInput) (otpMode : Bool) : Service (ℕ × User) := do
  let existingUser ←
    if otpMode then findUserByEmailInsensitive userData.email
    else do
      let user ← findUserByEmail userData.email
      pure (user.map Prod.fst)
  if existingUser.isSome then throw (appError "Email already in use" 400)
  else do
    if otpMode then consumeForRegistration setup userData.email userData.registrationToken
    else pure ()
    let roleId ← defaultRoleId setup
    let hashedPassword ← bcryptHash setup userData.password
    let slug ← makeUniqueSlug setup userData.name (slugOfUserTaken none)
    let user ← createUserRow .tx
      { name := some userData.name, slug := some slug, email := some userData.email
        password := some hashedPassword, avatar := none, roleId, isEmailVerified := otpMode
        deletedAt := none }
    if otpMode then pure user
    else do
      let token ← generateToken
      createEmailVerificationToken .tx
        { token := token.1, userId := user.1
          expiresAt := token.2 + setup.env.emailVerificationExpiresHours * 3600000 }
      enqueue EMAIL "sendVerificationEmail"
        ⟨.obj [("email", optionalString user.2.email), ("name", optionalString user.2.name),
          ("token", .str token.1)], by simp⟩
      pure user

def register (userData : RegisterInput) : Service (ℕ × User) :=
  transaction (registerInTransaction setup userData setup.env.registrationVerificationOtp)

def login (email password : String) : Service AuthTokens := do
  match ← findUserByEmail email with
  | none => throw (appError
      "Unable to sign in. Please verify your credentials or activate your account first." 401)
  | some (id, user) =>
      if !user.isEmailVerified then throw (appError
        "Unable to sign in. Please verify your credentials or activate your account first." 401)
      else
        match user.password with
        | none => throw (Error.error "Illegal arguments: string, object")
        | some hash =>
            if !setup.crypto.bcryptCompare password hash then
              throw (appError "Invalid email or password" 401)
            else do
              let accessToken := setup.crypto.generateAccessToken id
              let refreshToken ← generateToken
              createRefreshToken .prisma (hashToken setup refreshToken.1) id none
                (refreshToken.2 + setup.env.refreshTokenExpiresDays * 86400000)
              pure { accessToken, refreshToken := refreshToken.1 }

/-- The client presents the token it holds; an empty one is falsy. -/
def refreshAccessToken (token : String) : Service AuthTokens := do
  if token = "" then throw (appError "Refresh token required" 401)
  else do
    request (.present token)
    match ← transaction (rotateRefreshToken setup token) with
    | .issued userId refreshToken =>
        pure { accessToken := setup.crypto.generateAccessToken userId, refreshToken }
    | .expired => throw (appError "Refresh token expired" 401)
    | .reused _ _ => throw (appError "Invalid refresh token" 401)
    | .invalid => throw (appError "Invalid refresh token" 401)

/-- A Redis failure only leaves a stale profile behind: it is not thrown. -/
def logout (token : String) : Service Unit := do
  request (.present token)
  match ← findRefreshToken (hashToken setup token) with
  | none => throw (appError "Invalid refresh token" 401)
  | some (_, record) => do
      let _ ← deleteRefreshTokenFamily .prisma record.userId record.familyId
      let _ ← request (.cache (.del [.profile record.userId]))
      pure ()

def verifyEmailInTransaction (token : String) : Service (Option (ℕ × User)) := do
  match ← emailVerificationTokens (.find (.token token)) with
  | none => throw (appError "Invalid token" 400)
  | some (_, record) => do
      let now ← request .now
      if record.expiresAt < now then do
        let _ ← changeMany emailVerificationTokens .tx (.token token) .delete
        pure none
      else do
        let updatedUser ← changeOne users .tx (.id record.userId)
          (.update { isEmailVerified := some true })
        let _ ← changeOne emailVerificationTokens .tx (.token token) .delete
        enqueue EMAIL "sendVerificationSuccessEmail"
          ⟨.obj [("email", optionalString updatedUser.2.email),
            ("name", optionalString updatedUser.2.name)], by simp⟩
        pure (some updatedUser)

def verifyEmail (token : String) : Service Unit := do
  match ← transaction (verifyEmailInTransaction token) with
  | none => throw (appError "Token expired" 400)
  | some _ => pure ()

def requestPasswordResetInTransaction (id : ℕ) (user : User) (token : String) :
    Service Unit := do
  deleteUnusedPasswordResetTokens .tx id
  let now ← request .now
  createPasswordResetToken .tx
    { token, userId := id, expiresAt := now + setup.env.passwordResetExpiresMinutes * 60000
      usedAt := none }
  enqueue EMAIL "sendResetPasswordEmail"
    ⟨.obj [("email", optionalString user.email), ("name", optionalString user.name),
      ("token", .str token)], by simp⟩

/-- An address that is not in use is not reported. -/
def requestPasswordReset (email : String) : Service Unit := do
  match ← findUserByEmail email with
  | none => pure ()
  | some (id, user) => do
      let token ← generateToken
      transaction (requestPasswordResetInTransaction setup id user token.1)

def resetPasswordInTransaction (token newPassword : String) : Service (Option ℕ) := do
  match ← findUniqueToken token with
  | none => throw (appError "Invalid token" 400)
  | some (_, record) => do
      let now ← request .now
      if record.expiresAt < now then do
        deletePasswordResetToken .tx token
        pure none
      else if record.usedAt.isSome then throw (appError "Token already used" 400)
      else do
        let hashedPassword ← bcryptHash setup newPassword
        let _ ← changeOne users .tx (.id record.userId)
          (.update { password := some hashedPassword })
        let usedAt ← request .now
        updatePasswordResetToken .tx token usedAt
        let _ ← deleteRefreshTokensByUserId .tx record.userId
        pure (some record.userId)

def resetPassword (token newPassword : String) : Service Unit := do
  match ← transaction (resetPasswordInTransaction setup token newPassword) with
  | none => throw (appError "Token expired" 400)
  | some _ => pure ()

/-! ## `system.service` -/

/-- The batch bounds are the defaults of the repositories. -/
def cleanupExpiredTokens : Service Unit := do
  let now ← request .now
  let _ ← deleteExpiredRefreshTokens now 1000 100
  let _ ← changeMany emailVerificationTokens .prisma (.expired now) .delete
  let _ ← changeMany passwordResetTokens .prisma (.expired now) .delete
  let _ ← deleteExpiredOtps (now - setup.env.otpVerifiedWindowMinutes * 60000) 1000 100
  pure ()

end ExpressCore
