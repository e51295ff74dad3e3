import ExpressCore.Model.System

/-! # Statements, transactions and the shared utilities -/

namespace ExpressCore

open ReadCommitted Interleaving Program

/-- Sends a request. -/
abbrev request (r : Request) : Service r.Reply := send r

/-- Sends a statement to the database. -/
abbrev statement (q : Sql) : Service q.Reply := send (Request.sql q)

/-! ## Statements on one table -/

def roles (a : Access ℕ Role RoleWhere RoleChange) : Service a.Reply := statement (.roles a)

def users (a : Access ℕ User UserWhere UserChange) : Service a.Reply := statement (.users a)

def userProfiles (a : Access ℕ UserProfile ProfileWhere UserProfileUpdate) : Service a.Reply :=
  statement (.userProfiles a)

def refreshTokens (a : Access ℕ RefreshToken RefreshTokenWhere RefreshTokenChange) :
    Service a.Reply :=
  statement (.refreshTokens a)

def emailVerificationTokens
    (a : Access ℕ EmailVerificationToken TokenWhere EmailVerificationTokenChange) :
    Service a.Reply :=
  statement (.emailVerificationTokens a)

def passwordResetTokens
    (a : Access ℕ PasswordResetToken TokenWhere PasswordResetTokenChange) : Service a.Reply :=
  statement (.passwordResetTokens a)

def emailOtps (a : Access ℕ EmailOtp EmailOtpWhere EmailOtpChange) : Service a.Reply :=
  statement (.emailOtps a)

def outbox (a : Access ℕ Outbox OutboxWhere OutboxChange) : Service a.Reply :=
  statement (.outbox a)

def deadLetterJobs (a : Access ℕ DeadLetterJob DeadLetterWhere DeadLetterChange) :
    Service a.Reply :=
  statement (.deadLetterJobs a)

def emailTemplates (a : Access ℕ EmailTemplate EmailTemplateWhere EmailTemplateChange) :
    Service a.Reply :=
  statement (.emailTemplates a)

section Table

variable {ρ W C : Type} (table : (a : Access ℕ ρ W C) → Service a.Reply) (db : Client)

/-- The rows of an UPDATE or DELETE one after the other; returns the rows it changed. -/
def visitAll (w : W) (c : C) : List (ℕ × ρ) → Service (List (ℕ × ρ))
  | [] => pure []
  | (i, _) :: rest => do
      let changed ← table (.visit i w c)
      let others ← visitAll w c rest
      pure ((changed.toList.map fun row => (i, row)) ++ others)

/-- `updateMany` and `deleteMany`: one statement; returns the rows it changed. -/
def changeMany (w : W) (c : C) : Service (List (ℕ × ρ)) := do
  let rows ← table (.scan w)
  let changed ← visitAll table w c rows
  statement (.complete db)
  pure changed

/-- `update` and `delete` on a unique column, which raise when there is no such row. -/
def changeOne (w : W) (c : C) : Service (ℕ × ρ) := do
  match ← changeMany table db w c with
  | row :: _ => pure row
  | [] => throw (Error.error "Record to update not found.")

/-- The batches of a retention job: each deletes at most `batchSize` of the rows that satisfy
`w`, smallest `key` first, and a short batch is the last. Returns the rows removed. -/
def deleteBatches (w : W) (key : ρ → Time) (byIds : List ℕ → W) (delete : C) (batchSize : ℕ) :
    ℕ → Service ℕ
  | 0 => pure 0
  | batches + 1 => do
      let rows ← table (.scan w)
      let batch := (rows.mergeSort fun x y => key x.2 ≤ key y.2).take batchSize
      let deleted ← visitAll table (byIds (batch.map Prod.fst)) delete batch
      statement (.complete .prisma)
      if deleted.length < batchSize then pure deleted.length
      else do
        let removed ← deleteBatches w key byIds delete batchSize batches
        pure (deleted.length + removed)

/-- `create`: returns the id of the new row. -/
def create (row : ρ) : Service ℕ := do
  let id ← table (.insert row)
  statement (.complete db)
  pure id

end Table

/-- `prisma.$transaction`: the body's error rolls back and is thrown again. -/
def transaction {α : Type} (body : Service α) : Service α := do
  statement .begin
  let value ← body.handle fun error => do
    statement .rollback
    throw error
  statement .commit
  pure value

/-! ## `utils` -/

def appError (message : String) (status : ℕ) : Error := .app message status

/-- JavaScript's `\s`. -/
def isSpace (c : Char) : Bool :=
  c ∈ ['\t', '\n', '\x0b', '\x0c', '\r', ' ', '\u00a0', '\u1680', '\u2028', '\u2029', '\u202f',
    '\u205f', '\u3000', '\ufeff'] || ('\u2000' ≤ c && c ≤ '\u200a')

/-- JavaScript's `\w`. -/
def isWord (c : Char) : Bool := c.isAlphanum || c == '_'

/-- `toLowerCase` as far as `toSlug` can see it: the ASCII letters, and the two characters
outside ASCII with an ASCII letter in their lower case. -/
def toLowerCase (c : Char) : List Char :=
  if c = '\u212a' then ['k'] else if c = '\u0130' then ['i', '\u0307'] else [c.toLower]

/-- Replaces every run of characters that satisfy `p` by one hyphen. -/
def hyphenate (p : Char → Bool) : List Char → List Char
  | [] => []
  | c :: rest =>
      if p c then
        match hyphenate p rest with
        | '-' :: others => if rest.head?.any p then '-' :: others else '-' :: '-' :: others
        | others => '-' :: others
      else c :: hyphenate p rest

def trimHyphens (s : List Char) : List Char :=
  ((s.dropWhile (· = '-')).reverse.dropWhile (· = '-')).reverse

def toSlug (text : String) : String :=
  let lowered := text.toList.flatMap toLowerCase
  let trimmed := ((lowered.dropWhile isSpace).reverse.dropWhile isSpace).reverse
  let kept := trimmed.filter fun c => isWord c || isSpace c || c = '-'
  String.ofList (trimHyphens (hyphenate (· = '-') (hyphenate (fun c => isSpace c || c = '_') kept)))

/-- The candidates of `makeUniqueSlug` from number `counter` on; `0` stands for the base. -/
def makeUniqueSlugFrom (base : String) (checkExists : String → Service Bool) (counter : ℕ) :
    ℕ → Service String
  | 0 => throw Error.lost
  | attempts + 1 => do
      let slug := if counter = 0 then base else base ++ "-" ++ toString counter
      if ← checkExists slug then makeUniqueSlugFrom base checkExists (counter + 1) attempts
      else pure slug

def makeUniqueSlug (setup : Setup) (sourceText : String) (checkExists : String → Service Bool) :
    Service String :=
  makeUniqueSlugFrom (toSlug sourceText) checkExists 0 setup.env.slugAttempts

def generateToken : Service (String × Time) := request .generateToken

def hashToken (setup : Setup) (token : String) : String := setup.crypto.sha256 token

/-- `bcrypt.hash`, with a fresh salt. -/
def bcryptHash (setup : Setup) (password : String) : Service String := do
  let salt ← request .bcryptSalt
  pure (setup.crypto.bcryptHash password salt)

/-! ## Services without a module of their own -/

/-- `cacheService`: a Redis failure is thrown. -/
def cacheService (c : CacheCommand) : Service c.Reply := do
  match ← request (.cache c) with
  | some reply => pure reply
  | none => throw (Error.error "Redis error")

/-- `storageService.deleteFile`. -/
def deleteFile (folder filename : String) : Service Unit := do
  if ← request (.deleteFile folder filename) then pure ()
  else throw (Error.error "unlink failed")

/-- `systemService.logActivity` with a description. -/
def logActivity (userId : Option ℕ) (action subjectType : String) (subjectId : Option ℕ)
    (description : String) (oldData newData : Option Json) (db : Client) : Service Unit :=
  statement (.logActivity db
    { userId, action := action.toUpper, subjectType, subjectId, description, oldData, newData })

end ExpressCore
