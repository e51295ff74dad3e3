import ExpressCore.Model.Schema
import ExpressCore.Library.RelyGuarantee
import Mathlib.Algebra.Group.Nat.Defs

/-! # The system the services run on

PostgreSQL with its tables, the Redis cache, the job queues and the clock, and the requests
that the services send to them. Threads are the requests and jobs in progress; each has at
most one open transaction, which carries the thread's number. -/

namespace ExpressCore

open ReadCommitted Interleaving

/-! ## Settings and cryptography -/

/-- The validated configuration, as far as the modelled functions read it. `slugAttempts`
bounds the candidates `makeUniqueSlug` tries. -/
structure Env where
  refreshTokenExpiresDays : ℕ
  refreshGraceSeconds : ℕ
  emailVerificationExpiresHours : ℕ
  passwordResetExpiresMinutes : ℕ
  otpExpiresMinutes : ℕ
  otpResendCooldownSeconds : ℕ
  otpMaxAttempts : ℕ
  otpVerifiedWindowMinutes : ℕ
  outboxRelayBatch : ℕ
  outboxLeaseSeconds : ℕ
  outboxMaxPublishAttempts : ℕ
  registrationVerificationOtp : Bool
  registrationDefaultRole : Option String
  jwtAccessSecret : String
  slugAttempts : ℕ

/-- The numbers with the limits that the environment schema gives them. -/
def Env.integers (env : Env) : List (ℕ × ℕ × ℕ) :=
  [(env.refreshTokenExpiresDays, 1, 3650), (env.refreshGraceSeconds, 1, 300),
    (env.emailVerificationExpiresHours, 1, 8760), (env.passwordResetExpiresMinutes, 1, 10080),
    (env.otpExpiresMinutes, 1, 60), (env.otpResendCooldownSeconds, 10, 3600),
    (env.otpMaxAttempts, 1, 20), (env.otpVerifiedWindowMinutes, 1, 1440),
    (env.outboxRelayBatch, 1, 500), (env.outboxLeaseSeconds, 10, 3600),
    (env.outboxMaxPublishAttempts, 1, 50)]

/-- The configurations that the environment schema admits. -/
def Env.Admitted (env : Env) : Prop :=
  ∀ x ∈ env.integers, x.2.1 ≤ x.1 ∧ x.1 ≤ x.2.2

instance (env : Env) : Decidable env.Admitted :=
  inferInstanceAs (Decidable (∀ x ∈ env.integers, x.2.1 ≤ x.1 ∧ x.1 ≤ x.2.2))

abbrev Bytes := List UInt8

/-- The cryptographic functions the code calls. `encrypt` is AES-256-GCM and returns the
ciphertext with its tag. -/
structure Crypto where
  sha256 : String → String
  hkdf : (key salt info : String) → Bytes
  encrypt : (key iv associated plaintext : Bytes) → Bytes × Bytes
  decrypt : (key iv associated tag ciphertext : Bytes) → Option Bytes
  hmac : (key : Bytes) → (message : String) → Bytes
  bcryptHash : (password salt : String) → String
  bcryptCompare : (password hash : String) → Bool
  generateAccessToken : (userId : ℕ) → String

structure Setup where
  env : Env
  crypto : Crypto

/-- What a program can end with instead of a value. `validation` is an `AppError` with the
problems found and their fields. -/
inductive Error where
  | app (message : String) (status : ℕ)
  | validation (message : String) (status : ℕ) (errors : List (String × String))
  | error (message : String)
  | lost
  deriving DecidableEq

/-! ## The cache and the queues -/

/-- `userType` is absent in entries cached before roles carried it. -/
structure RoleData where
  id : ℕ
  slug : String
  userType : Option String
  access : List String
  deriving DecidableEq

/-- `readAt` is the number of commits before the database read the entry comes from. It is
not stored; nothing reads it. -/
structure CachedUserData where
  id : ℕ
  role : Option RoleData
  rbacVersion : Option ℕ
  readAt : ℕ
  deriving DecidableEq

structure ProfileResponse where
  phone : Option String
  birthDate : Option String
  gender : Option Gender
  locale : Option String
  deriving DecidableEq

/-- `readAt` is as in `CachedUserData`. -/
structure UserProfileData where
  id : ℕ
  slug : Option String
  name : Option String
  email : Option String
  avatar : Option String
  isEmailVerified : Bool
  roleId : Option ℕ
  role : Option (String × List String)
  profile : Option ProfileResponse
  readAt : ℕ
  deriving DecidableEq

inductive CacheKey where
  | userRole (userId : ℕ)
  | profile (userId : ℕ)
  | role (slug : String)
  deriving DecidableEq

/-- `version` is `rbac:version`. `bumped` lists, for every increment of it, the thread that
made it and the number of commits up to that thread's last commit; nothing reads it. -/
structure Cache where
  userRole : ℕ → Option CachedUserData
  version : Option ℕ
  roleUsers : ℕ → List ℕ
  profile : ℕ → Option UserProfileData
  bumped : List (ℕ × ℕ)

inductive CacheCommand where
  | mgetAccess (userId : ℕ)
  | setAccess (userId : ℕ) (entry : CachedUserData)
  | incrVersion
  | saddRoleUsers (roleId userId : ℕ)
  | smembersRoleUsers (roleId : ℕ)
  | sremRoleUsers (roleId : ℕ) (members : List ℕ)
  | getProfile (userId : ℕ)
  | setProfile (userId : ℕ) (data : UserProfileData)
  | del (keys : List CacheKey)
  deriving DecidableEq

abbrev CacheCommand.Reply : CacheCommand → Type
  | mgetAccess _ => Option CachedUserData × Option ℕ
  | smembersRoleUsers _ => List ℕ
  | getProfile _ => Option UserProfileData
  | _ => Unit

structure QueueJob where
  queueName : String
  jobName : String
  payload : Json
  jobId : String

/-- How `queue.add` looks to its caller when `withTimeout` returns. -/
inductive AddOutcome where
  | resolved
  | rejected (reason : String)
  | timedOut
  deriving DecidableEq

/-- `jobs` are in Redis, `waiting` are commands in the client's offline queue that their
callers have given up, and `resolved` are the adds that resolved in time. -/
structure Queues where
  jobs : List QueueJob
  waiting : List QueueJob
  resolved : List QueueJob

/-- BullMQ ignores an add whose job id is in use. -/
def Queues.push (q : Queues) (job : QueueJob) : Queues :=
  if q.jobs.any fun other => other.queueName == job.queueName && other.jobId == job.jobId then q
  else { q with jobs := job :: q.jobs }

/-! ## The database -/

/-- Which client a repository function uses: the shared one, on which every statement is its
own transaction, or the client of an open transaction. -/
inductive Client where
  | prisma
  | tx
  deriving DecidableEq

/-- `startedAt` is `now()` of the open transaction. After a failed statement a transaction is
`poisoned`: PostgreSQL rejects its other statements and turns its COMMIT into a rollback,
which `rolledBack` records. `changing` is the UPDATE or DELETE on refresh tokens a thread is
running, with the rows it selected when it started, and `tags` lists the completed DELETEs with
their row counts. `commits` counts the transactions that committed, and `committedAt` is that
count at a thread's last commit. Nothing reads `rolledBack`, `changing`, `tags`, `commits` and
`committedAt`. -/
structure Db where
  roles : Table ℕ ℕ Role
  users : Table ℕ ℕ User
  userProfiles : Table ℕ ℕ UserProfile
  refreshTokens : Table ℕ ℕ RefreshToken
  emailVerificationTokens : Table ℕ ℕ EmailVerificationToken
  passwordResetTokens : Table ℕ ℕ PasswordResetToken
  emailOtps : Table ℕ ℕ EmailOtp
  activityLogs : Table ℕ ℕ ActivityLog
  outbox : Table ℕ ℕ Outbox
  deadLetterJobs : Table ℕ ℕ DeadLetterJob
  emailTemplates : Table ℕ ℕ EmailTemplate
  startedAt : ℕ → Option Time
  poisoned : ℕ → Bool
  rolledBack : ℕ → Bool
  changing : ℕ → Option (RefreshTokenWhere × List (ℕ × RefreshToken))
  tags : List (ℕ × RefreshTokenWhere × ℕ)
  commits : ℕ
  committedAt : ℕ → ℕ

/-- Statements. `complete` ends a statement that changes rows and `deleted` a DELETE on
refresh tokens with its row count; on the shared client both commit it. -/
inductive Sql where
  | begin
  | commit
  | rollback
  | complete (db : Client)
  | deleted (db : Client) (w : RefreshTokenWhere) (count : ℕ)
  | now
  | roles (a : Access ℕ Role RoleWhere RoleChange)
  | users (a : Access ℕ User UserWhere UserChange)
  | userProfiles (a : Access ℕ UserProfile ProfileWhere UserProfileUpdate)
  | refreshTokens (a : Access ℕ RefreshToken RefreshTokenWhere RefreshTokenChange)
  | emailVerificationTokens
      (a : Access ℕ EmailVerificationToken TokenWhere EmailVerificationTokenChange)
  | passwordResetTokens (a : Access ℕ PasswordResetToken TokenWhere PasswordResetTokenChange)
  | emailOtps (a : Access ℕ EmailOtp EmailOtpWhere EmailOtpChange)
  | logActivity (db : Client) (row : ActivityLog)
  | outbox (a : Access ℕ Outbox OutboxWhere OutboxChange)
  | deadLetterJobs (a : Access ℕ DeadLetterJob DeadLetterWhere DeadLetterChange)
  | emailTemplates (a : Access ℕ EmailTemplate EmailTemplateWhere EmailTemplateChange)

abbrev Sql.Reply : Sql → Type
  | now => Time
  | roles a => a.Reply
  | users a => a.Reply
  | userProfiles a => a.Reply
  | refreshTokens a => a.Reply
  | emailVerificationTokens a => a.Reply
  | passwordResetTokens a => a.Reply
  | emailOtps a => a.Reply
  | outbox a => a.Reply
  | deadLetterJobs a => a.Reply
  | emailTemplates a => a.Reply
  | _ => Unit

/-- One comparison of a submitted code, made for the attempt that `reserveAttempt` returned:
the code it was reserved for, when, and until when that code was valid. -/
structure Comparison where
  issuance : ℕ
  reservedAt : Time
  expiresAt : Time
  unconsumed : Bool
  deriving DecidableEq

/-- Requests of the services. `present` is the arrival of a refresh token from a client.
`generateToken` also tells the time: the callers that need it read the clock in the same
synchronous stretch. `generateOtpCode` numbers the codes. `otpCodeMatches`, `ticketReturned` and
`decided` only record: a comparison that follows, a registration ticket that is handed out, and
the commit count of the database read that a request for access is decided on. -/
inductive Request where
  | now
  | present (token : String)
  | generateToken
  | randomBytes (n : ℕ)
  | randomUuid
  | generateOtpCode
  | bcryptSalt
  | otpCodeMatches (comparison : Comparison)
  | ticketReturned (otpId : ℕ) (verifiedAt : Time)
  | commits
  | decided (readAt : ℕ)
  | sql (q : Sql)
  | cache (c : CacheCommand)
  | queueAdd (job : QueueJob)
  | saveFile (folder filename : String)
  | deleteFile (folder filename : String)

/-- A cache command answers `none` when Redis fails, and `saveFile` and `deleteFile` answer
`false` when the file system does. -/
abbrev Request.Reply : Request → Type
  | now => Time
  | present _ => Unit
  | generateToken => String × Time
  | randomBytes _ => Bytes
  | randomUuid => ℕ
  | generateOtpCode => String × ℕ
  | bcryptSalt => String
  | otpCodeMatches _ => Unit
  | ticketReturned _ _ => Unit
  | commits => ℕ
  | decided _ => Unit
  | sql q => q.Reply
  | cache c => Option c.Reply
  | queueAdd _ => AddOutcome
  | saveFile _ _ => Bool
  | deleteFile _ _ => Bool

/-- Moves of the environment: time, the offline queue of the Redis client, finished jobs and
expired cache entries. -/
inductive Move where
  | clock (now : Time)
  | deliver (n : ℕ)
  | discard (n : ℕ)
  | removeJob (n : ℕ)
  | expireUserRole (userId : ℕ)
  | expireRoleUsers (roleId : ℕ)
  | expireProfile (userId : ℕ)

/-- The choices of the environment in one step. -/
structure Oracle where
  pick : ℕ := 0
  fresh : ℕ := 0
  number : ℕ := 0
  bytes : Bytes := []
  salt : String := ""
  fails : Bool := false
  outcome : AddOutcome := .resolved
  executed : Bool := true
  move : Move := .clock 0

/-- `seen` are the refresh tokens generated or presented so far, `minted` the generated ones
and `families` the uuids given out, both with the thread that asked, `issuances` are the numbers
of the codes generated with the thread that asked, `comparisons` are the comparisons made,
`tickets` the registration tickets handed out (row and verification), `decisions` the decisions
on access and `commands` the cache commands that Redis has executed, each with its thread and
the last first. They record the past and let `exec` keep generated values apart; the services
do not read them. -/
structure State where
  db : Db
  cache : Cache
  queues : Queues
  uploads : List (String × String)
  clock : Time
  seen : List String
  minted : List (ℕ × String × Time)
  families : List (ℕ × ℕ)
  issuances : List (ℕ × ℕ)
  comparisons : List (ℕ × Comparison)
  tickets : List (ℕ × ℕ × Time)
  decisions : List (ℕ × ℕ)
  commands : List (ℕ × CacheCommand)

/-! ## What the requests do -/

/-- Commits the writes of thread `t` to every table. -/
def Db.commitAll (s : Db) (t : ℕ) : Db :=
  { s with
    roles := s.roles.commit t
    users := s.users.commit t
    userProfiles := s.userProfiles.commit t
    refreshTokens := s.refreshTokens.commit t
    emailVerificationTokens := s.emailVerificationTokens.commit t
    passwordResetTokens := s.passwordResetTokens.commit t
    emailOtps := s.emailOtps.commit t
    activityLogs := s.activityLogs.commit t
    outbox := s.outbox.commit t
    deadLetterJobs := s.deadLetterJobs.commit t
    emailTemplates := s.emailTemplates.commit t
    startedAt := Function.update s.startedAt t none
    changing := Function.update s.changing t none
    commits := s.commits + 1
    committedAt := Function.update s.committedAt t (s.commits + 1) }

/-- Rolls back thread `t` in every table. -/
def Db.abortAll (s : Db) (t : ℕ) : Db :=
  { s with
    roles := s.roles.abort t
    users := s.users.abort t
    userProfiles := s.userProfiles.abort t
    refreshTokens := s.refreshTokens.abort t
    emailVerificationTokens := s.emailVerificationTokens.abort t
    passwordResetTokens := s.passwordResetTokens.abort t
    emailOtps := s.emailOtps.abort t
    activityLogs := s.activityLogs.abort t
    outbox := s.outbox.abort t
    deadLetterJobs := s.deadLetterJobs.abort t
    emailTemplates := s.emailTemplates.abort t
    startedAt := Function.update s.startedAt t none
    poisoned := Function.update s.poisoned t false
    rolledBack := Function.update s.rolledBack t true
    changing := Function.update s.changing t none }

/-- COMMIT, which is a rollback when a statement of the transaction has failed. -/
def Db.finish (s : Db) (t : ℕ) : Db :=
  if s.poisoned t then s.abortAll t else s.commitAll t

/-- The answer to a statement, unless the transaction has failed before. -/
def Db.unlessPoisoned {α : Type} (s : Db) (t : ℕ) (answer : Option α) : Option α :=
  if s.poisoned t then none else answer

/-- The UPDATE or DELETE on refresh tokens that an access starts, if it starts one. -/
def Db.start (s : Db) (t : ℕ) : Access ℕ RefreshToken RefreshTokenWhere RefreshTokenChange →
    ℕ → Option (RefreshTokenWhere × List (ℕ × RefreshToken))
  | .scan w => Function.update s.changing t (some (w, s.refreshTokens.matching t w))
  | _ => s.changing

/-- A statement of `t` ends. -/
def Db.close (s : Db) (t : ℕ) : Db :=
  { s with changing := Function.update s.changing t none }

/-- A DELETE of `t` on refresh tokens ends. -/
def Db.tag (s : Db) (t : ℕ) (w : RefreshTokenWhere) (count : ℕ) : Db :=
  { s.close t with tags := (t, w, count) :: s.tags }

/-- The audit insert of `logActivity`, which swallows every failure: the row is written, or the
database refuses it, and then an open transaction is lost, or the client library does. -/
def Db.audit (s : Db) (t : ℕ) (o : Oracle) (db : Client) (row : ActivityLog) : Option Db :=
  match o.pick, db with
  | 0, .tx =>
      if o.fresh ∈ s.activityLogs.ids then none
      else some { s with activityLogs := s.activityLogs.write t o.fresh (some row) }
  | 0, .prisma =>
      if o.fresh ∈ s.activityLogs.ids then none
      else some
        (Db.commitAll { s with activityLogs := s.activityLogs.write t o.fresh (some row) } t)
  | 1, .tx => some { s with poisoned := Function.update s.poisoned t true }
  | _, _ => some s

/-- The effect of a statement of thread `t`. -/
def Sql.exec (t : ℕ) (o : Oracle) (clock : Time) : (q : Sql) → Db → Option (q.Reply × Db)
  | .begin, s =>
      some ((), { s with
        startedAt := Function.update s.startedAt t (some clock)
        poisoned := Function.update s.poisoned t false })
  | .commit, s => some ((), s.finish t)
  | .rollback, s => some ((), s.abortAll t)
  | .complete .prisma, s => s.unlessPoisoned t (some ((), s.commitAll t))
  | .complete .tx, s => s.unlessPoisoned t (some ((), s.close t))
  | .deleted .prisma w count, s =>
      s.unlessPoisoned t (some ((), (s.tag t w count).commitAll t))
  | .deleted .tx w count, s => s.unlessPoisoned t (some ((), s.tag t w count))
  | .now, s => s.unlessPoisoned t (some ((s.startedAt t).getD clock, s))
  | .roles a, s => s.unlessPoisoned t
      ((a.exec t o.pick o.fresh s.roles).map fun (reply, T) => (reply, { s with roles := T }))
  | .users a, s => s.unlessPoisoned t
      ((a.exec t o.pick o.fresh s.users).map fun (reply, T) => (reply, { s with users := T }))
  | .userProfiles a, s => s.unlessPoisoned t
      ((a.exec t o.pick o.fresh s.userProfiles).map fun (reply, T) =>
        (reply, { s with userProfiles := T }))
  | .refreshTokens a, s => s.unlessPoisoned t
      ((a.exec t o.pick o.fresh s.refreshTokens).map fun (reply, T) =>
        (reply, { s with refreshTokens := T, changing := s.start t a }))
  | .emailVerificationTokens a, s => s.unlessPoisoned t
      ((a.exec t o.pick o.fresh s.emailVerificationTokens).map fun (reply, T) =>
        (reply, { s with emailVerificationTokens := T }))
  | .passwordResetTokens a, s => s.unlessPoisoned t
      ((a.exec t o.pick o.fresh s.passwordResetTokens).map fun (reply, T) =>
        (reply, { s with passwordResetTokens := T }))
  | .emailOtps a, s => s.unlessPoisoned t
      ((a.exec t o.pick o.fresh s.emailOtps).map fun (reply, T) =>
        (reply, { s with emailOtps := T }))
  | .logActivity db row, s =>
      if s.poisoned t then some ((), s) else (s.audit t o db row).map fun s' => ((), s')
  | .outbox a, s => s.unlessPoisoned t
      ((a.exec t o.pick o.fresh s.outbox).map fun (reply, T) => (reply, { s with outbox := T }))
  | .deadLetterJobs a, s => s.unlessPoisoned t
      ((a.exec t o.pick o.fresh s.deadLetterJobs).map fun (reply, T) =>
        (reply, { s with deadLetterJobs := T }))
  | .emailTemplates a, s => s.unlessPoisoned t
      ((a.exec t o.pick o.fresh s.emailTemplates).map fun (reply, T) =>
        (reply, { s with emailTemplates := T }))

/-- The effect of a cache command of thread `t`, whose last commit was commit number
`committedAt`. -/
def CacheCommand.exec (t committedAt : ℕ) : (c : CacheCommand) → Cache → c.Reply × Cache
  | .mgetAccess userId, s => ((s.userRole userId, s.version), s)
  | .setAccess userId entry, s =>
      ((), { s with userRole := Function.update s.userRole userId (some entry) })
  | .incrVersion, s =>
      ((), { s with
        version := some (s.version.getD 0 + 1)
        bumped := (t, committedAt) :: s.bumped })
  | .saddRoleUsers roleId userId, s =>
      ((), { s with
        roleUsers := Function.update s.roleUsers roleId ((s.roleUsers roleId).insert userId) })
  | .smembersRoleUsers roleId, s => (s.roleUsers roleId, s)
  | .sremRoleUsers roleId members, s =>
      ((), { s with
        roleUsers := Function.update s.roleUsers roleId
          ((s.roleUsers roleId).filter fun userId => !members.contains userId) })
  | .getProfile userId, s => (s.profile userId, s)
  | .setProfile userId data, s =>
      ((), { s with profile := Function.update s.profile userId (some data) })
  | .del keys, s =>
      ((), { s with
        userRole := fun userId =>
          if CacheKey.userRole userId ∈ keys then none else s.userRole userId
        profile := fun userId =>
          if CacheKey.profile userId ∈ keys then none else s.profile userId })

/-- `queue.add` inside `withTimeout`: it resolves after Redis has executed it, or rejects, or
the caller gives it up while it waits in the client or while its answer is under way. -/
def Queues.add (o : Oracle) (job : QueueJob) (q : Queues) : AddOutcome × Queues :=
  match o.outcome with
  | .resolved => (.resolved, { q.push job with resolved := job :: q.resolved })
  | .rejected reason => (.rejected reason, if o.executed then q.push job else q)
  | .timedOut =>
      (.timedOut, if o.executed then q.push job else { q with waiting := job :: q.waiting })

/-- `Buffer.toString('hex')`. -/
def toHex (bytes : Bytes) : String :=
  String.ofList (bytes.flatMap fun b =>
    [Nat.digitChar (b.toNat / 16), Nat.digitChar (b.toNat % 16)])

/-- `padStart(6, '0')` of a number below `10 ** OTP_DIGITS`. -/
def padCode (n : ℕ) : String :=
  String.ofList ((List.range 6).map fun k => Nat.digitChar (n / 10 ^ (5 - k) % 10))

/-- The effect of a request of thread `t`. -/
def Request.exec (setup : Setup) (t : ℕ) (r : Request) (o : Oracle) (s : State) :
    Option (r.Reply × State) :=
  match r with
  | .now => some (s.clock, s)
  | .present token =>
      if ∃ x ∈ s.seen, x ≠ token ∧ setup.crypto.sha256 x = setup.crypto.sha256 token then none
      else some ((), { s with seen := token :: s.seen })
  | .generateToken =>
      if o.bytes.length = 64 ∧
          ∀ x ∈ s.seen, setup.crypto.sha256 x ≠ setup.crypto.sha256 (toHex o.bytes) then
        some ((toHex o.bytes, s.clock), { s with
          seen := toHex o.bytes :: s.seen
          minted := (t, toHex o.bytes, s.clock) :: s.minted })
      else none
  | .randomBytes n => if o.bytes.length = n then some (o.bytes, s) else none
  | .randomUuid =>
      if ∃ x ∈ s.families, x.2 = o.number then none
      else some (o.number, { s with families := (t, o.number) :: s.families })
  | .generateOtpCode =>
      if o.number < 10 ^ 6 then
        some ((padCode o.number, s.issuances.length),
          { s with issuances := (t, s.issuances.length) :: s.issuances })
      else none
  | .bcryptSalt => some (o.salt, s)
  | .otpCodeMatches comparison =>
      some ((), { s with comparisons := (t, comparison) :: s.comparisons })
  | .ticketReturned otpId verifiedAt =>
      some ((), { s with tickets := (t, otpId, verifiedAt) :: s.tickets })
  | .commits => some (s.db.commits, s)
  | .decided readAt => some ((), { s with decisions := (t, readAt) :: s.decisions })
  | .sql q => (q.exec t o s.clock s.db).map fun (reply, db) => (reply, { s with db := db })
  | .cache c =>
      let answer := c.exec t (s.db.committedAt t) s.cache
      let executed := { s with cache := answer.2, commands := (t, c) :: s.commands }
      if o.fails then some (none, if o.executed then executed else s)
      else some (some answer.1, executed)
  | .queueAdd job =>
      let answer := s.queues.add o job
      some (answer.1, { s with queues := answer.2 })
  | .saveFile folder filename =>
      if o.fails then some (false, s)
      else some (true, { s with uploads := (folder, filename) :: s.uploads })
  | .deleteFile folder filename =>
      if o.fails then some (false, s)
      else some (true, { s with uploads := s.uploads.filter (· ≠ (folder, filename)) })

/-- The effect of a move of the environment. -/
def Move.exec : Move → State → Option State
  | .clock now, s => some { s with clock := now }
  | .deliver n, s =>
      (s.queues.waiting[n]?).map fun job =>
        { s with queues :=
          { s.queues.push job with waiting := s.queues.waiting.eraseIdx n } }
  | .discard n, s =>
      some { s with queues := { s.queues with waiting := s.queues.waiting.eraseIdx n } }
  | .removeJob n, s =>
      some { s with queues := { s.queues with jobs := s.queues.jobs.eraseIdx n } }
  | .expireUserRole userId, s =>
      some { s with cache :=
        { s.cache with userRole := Function.update s.cache.userRole userId none } }
  | .expireRoleUsers roleId, s =>
      some { s with cache :=
        { s.cache with roleUsers := Function.update s.cache.roleUsers roleId [] } }
  | .expireProfile userId, s =>
      some { s with cache :=
        { s.cache with profile := Function.update s.cache.profile userId none } }

/-- The machine the services run on. A thread that is lost loses its open transaction. -/
def system (setup : Setup) : Machine ℕ Error Request Request.Reply State Oracle where
  exec := Request.exec setup
  crash t s := { s with db := s.db.abortAll t }
  lost := .lost
  move o s := o.move.exec s

/-- A program of the services. -/
abbrev Service (α : Type) := Program Error Request Request.Reply α

end ExpressCore
