import ExpressCore.Model.User
import ExpressCore.Verification.System.Sights

/-! # What the account services send -/

namespace ExpressCore

open ReadCommitted Interleaving Interleaving.Program

variable {setup : Setup} {allowed : Request → Prop} {db : Client}

theorem uses_deleteRefreshTokens (htable : ∀ a, (refreshTokens a).Uses allowed)
    (w : RefreshTokenWhere) (hdeleted : ∀ n, allowed (.sql (.deleted db w n))) :
    (deleteRefreshTokens db w).Uses allowed :=
  .bind (htable _) fun _ => .bind (uses_visitAll htable w _ _) fun _ =>
    .bind (uses_send.mpr (hdeleted _)) fun _ => trivial

theorem uses_revokeRefreshTokens (htable : ∀ a, (refreshTokens a).Uses allowed)
    (w : RefreshTokenWhere) (hdeleted : ∀ n, allowed (.sql (.deleted db w n))) :
    (revokeRefreshTokens db w).Uses allowed := by
  unfold revokeRefreshTokens
  generalize 0 = removed
  induction MAX_REVOCATION_PASSES generalizing removed with
  | zero => trivial
  | succ passes ih =>
      refine .bind (uses_deleteRefreshTokens htable w hdeleted) fun count => ?_
      split
      · trivial
      · exact ih _

theorem uses_bcryptHash (h : allowed .bcryptSalt) (password : String) :
    (bcryptHash setup password).Uses allowed :=
  .bind (uses_send.mpr h) fun _ => trivial

/-- An intent with its job and payload is inserted. -/
theorem uses_enqueue_of {queueName jobName : String} {payload : InputJsonValue}
    (hnow : allowed .now) (hinsert : ∀ row : Outbox, row.jobName = jobName →
      allowed (.sql (.outbox (.insert row)))) (hcomplete : allowed (.sql (.complete .tx))) :
    (enqueue queueName jobName payload).Uses allowed :=
  .bind (uses_send.mpr hnow) fun _ => .bind (.bind (uses_send.mpr (hinsert _ rfl)) fun _ =>
    .bind (uses_send.mpr hcomplete) fun _ => trivial) fun _ => trivial

theorem uses_enqueue (hnow : allowed .now) (htable : ∀ a, (outbox a).Uses allowed)
    (hcomplete : allowed (.sql (.complete .tx))) (queueName jobName : String)
    (payload : InputJsonValue) : (enqueue queueName jobName payload).Uses allowed :=
  uses_enqueue_of hnow (fun _ _ => uses_send.mp (htable _)) hcomplete

theorem uses_hashIfSent (h : allowed .bcryptSalt) (password : Option String) :
    (hashIfSent setup password).Uses allowed := by
  unfold hashIfSent
  split
  · exact .bind (uses_bcryptHash h _) fun _ => trivial
  · trivial

theorem uses_cacheService {c : CacheCommand} (h : allowed (.cache c)) :
    (cacheService c).Uses allowed := by
  refine .bind (uses_send.mpr h) fun reply => ?_
  split <;> trivial

theorem uses_deleteFile {folder filename : String} (h : allowed (.deleteFile folder filename)) :
    (deleteFile folder filename).Uses allowed := by
  refine .bind (uses_send.mpr h) fun deleted => ?_
  split <;> trivial

theorem uses_invalidateRoleUsers (h : ∀ c, allowed (.cache c)) (roleId : ℕ) :
    (invalidateRoleUsers roleId).Uses allowed := by
  refine .bind (uses_cacheService (h _)) fun _ => .bind (uses_cacheService (h _)) fun userIds => ?_
  split
  · trivial
  · exact .bind (uses_cacheService (h _)) fun _ => uses_cacheService (h _)

theorem uses_slugOfUserTaken (h : ∀ w, allowed (.sql (.users (.find w)))) (excludeId : Option ℕ)
    (candidate : String) : (slugOfUserTaken excludeId candidate).Uses allowed :=
  .bind (uses_send.mpr (h _)) fun _ => trivial

theorem uses_slugOfRoleTaken (h : ∀ w, allowed (.sql (.roles (.find w)))) (excludeId : Option ℕ)
    (candidate : String) : (slugOfRoleTaken excludeId candidate).Uses allowed :=
  .bind (uses_send.mpr (h _)) fun _ => trivial

theorem uses_slugForName {id : ℕ} {present sent : Option String}
    (h : ∀ w, allowed (.sql (.users (.find w)))) :
    (slugForName setup id present sent).Uses allowed := by
  unfold slugForName
  split
  · exact .bind (uses_makeUniqueSlug (uses_slugOfUserTaken h _) _) fun _ => trivial
  · trivial

/-! ## Registration and cleanup -/

section Registration

variable (hother : ∀ r : Request, r.table? ≠ some .emailOtps → r.table? ≠ some .outbox →
  ¬ r.Watched → allowed r) (hscan : ∀ w, allowed (.sql (.emailOtps (.scan w))))

include hother hscan

theorem uses_consumeTicket
    (hconsume : ∀ i email now window consumedAt,
      allowed (.sql (.emailOtps (.visit i (.consumable email now window) (.consume consumedAt)))))
    (rawEmail : String) (ticket : Option String) :
    (consumeForRegistration setup rawEmail ticket).Uses allowed := by
  unfold consumeForRegistration
  split
  · trivial
  · refine .bind (.bind (uses_send.mpr (hother _ nofun nofun id)) fun now => .bind (uses_change
      (uses_send.mpr (hscan _)) (fun i => uses_send.mpr (hconsume i _ _ _ _))
      (hother _ nofun nofun id)) fun _ => trivial) fun consumed => ?_
    split <;> trivial

theorem uses_register
    (hconsume : ∀ i email now window consumedAt,
      allowed (.sql (.emailOtps (.visit i (.consumable email now window) (.consume consumedAt)))))
    (hinsert : ∀ row : Outbox, row.jobName = "sendVerificationEmail" →
      allowed (.sql (.outbox (.insert row)))) (userData : RegisterInput) :
    (register setup userData).Uses allowed := by
  have husers (a) : (users a).Uses allowed := uses_send.mpr (hother _ nofun nofun id)
  have hroles (a) : (roles a).Uses allowed := uses_send.mpr (hother _ nofun nofun id)
  have htx : allowed (.sql (.complete .tx)) := hother _ nofun nofun id
  have hrole : (defaultRoleId setup).Uses allowed := by
    unfold defaultRoleId
    split
    · trivial
    · refine .bind (.bind (hroles _) fun _ => trivial) fun role => ?_
      split <;> trivial
  have hslug (name : String) :
      (makeUniqueSlug setup name (slugOfUserTaken none)).Uses allowed :=
    uses_makeUniqueSlug (fun _ => .bind (husers _) fun _ => uses_pure _) _
  have hcreate (user : User) : (createUserRow .tx user).Uses allowed :=
    .bind (uses_create (husers _) htx) fun _ => trivial
  refine uses_transaction (hother _ nofun nofun id) (hother _ nofun nofun id)
    (hother _ nofun nofun id) ?_
  unfold registerInTransaction
  cases setup.env.registrationVerificationOtp with
  | true =>
      simp only [↓reduceIte]
      refine .bind (.bind (husers _) fun _ => uses_pure _) fun existing => ?_
      split
      · trivial
      exact .bind (uses_consumeTicket hother hscan hconsume _ _) fun _ => .bind hrole fun _ =>
        .bind (uses_bcryptHash (hother _ nofun nofun id) _) fun _ => .bind (hslug _) fun _ =>
          .bind (hcreate _) fun _ => uses_pure _
  | false =>
      simp only [Bool.false_eq_true, ↓reduceIte]
      refine .bind (husers _) fun existing => .bind (uses_pure _) fun taken => ?_
      split
      · trivial
      refine .bind hrole fun _ => .bind (uses_bcryptHash (hother _ nofun nofun id) _) fun _ =>
        .bind (hslug _) fun _ => .bind (hcreate _) fun _ =>
          .bind (uses_send.mpr (hother _ nofun nofun id)) fun token => .bind (.bind (uses_create
            (uses_send.mpr (hother _ nofun nofun id)) htx) fun _ => uses_pure _) fun _ => ?_
      exact .bind (uses_enqueue_of (hother _ nofun nofun id) hinsert htx) fun _ => uses_pure _

theorem uses_cleanup
    (hdelete : ∀ i ids, allowed (.sql (.emailOtps (.visit i (.ids ids) .delete)))) :
    (cleanupExpiredTokens setup).Uses allowed := by
  have hcomplete : allowed (.sql (.complete .prisma)) := hother _ nofun nofun id
  have hrefresh (a) : (refreshTokens a).Uses allowed := uses_send.mpr (hother _ nofun nofun id)
  have hverification (a) : (emailVerificationTokens a).Uses allowed :=
    uses_send.mpr (hother _ nofun nofun id)
  have hreset (a) : (passwordResetTokens a).Uses allowed :=
    uses_send.mpr (hother _ nofun nofun id)
  refine .bind (uses_send.mpr (hother _ nofun nofun id)) fun now => ?_
  refine .bind (uses_deleteBatches hrefresh hcomplete _ _ _ _ _ _) fun _ => ?_
  refine .bind (uses_changeMany hverification hcomplete _ _) fun _ => ?_
  refine .bind (uses_changeMany hreset hcomplete _ _) fun _ => ?_
  exact .bind (uses_batches (uses_send.mpr (hscan _)) (fun i ids => uses_send.mpr (hdelete i ids))
    hcomplete _ _ _) fun _ => trivial

end Registration

/-! ## Disciplines for users and roles -/

/-- A discipline about accesses to users and roles alone. -/
structure Discipline.OnAccounts (D : Discipline) : Prop where
  tables : ∀ k, D.tables k → k = .users ∨ k = .roles
  commit : ∀ t s, D.commit t s
  other : ∀ t r s, D.other t r s

variable {D : Discipline} {t : ℕ}

theorem Discipline.OnAccounts.lets (hD : D.OnAccounts) (r : Request)
    (husers : r.table? ≠ some .users) (hroles : r.table? ≠ some .roles) : D.Lets t r := by
  refine Discipline.lets_skips (hD.commit t) (hD.other t) fun k hk => ?_
  rcases hD.tables k hk with rfl | rfl
  · exact Request.skips_of_table husers
  · exact Request.skips_of_table hroles

theorem lets_findUser (w : UserWhere) : D.Lets t (.sql (.users (.find w))) :=
  Discipline.lets_read (k := .users) (a := .find w) not_false

theorem lets_findRole (w : RoleWhere) : D.Lets t (.sql (.roles (.find w))) :=
  Discipline.lets_read (k := .roles) (a := .find w) not_false

section Accounts

variable (hother : ∀ r : Request, r.table? ≠ some .users → r.table? ≠ some .roles → allowed r)

include hother

/-- What follows the insertion of a registered user. -/
theorem uses_verificationMail (user : ℕ × User) :
    (generateToken >>= fun token => createEmailVerificationToken .tx
      { token := token.1, userId := user.1
        expiresAt := token.2 + setup.env.emailVerificationExpiresHours * 3600000 } >>= fun _ =>
      enqueue EMAIL "sendVerificationEmail"
        ⟨.obj [("email", optionalString user.2.email), ("name", optionalString user.2.name),
          ("token", .str token.1)], by simp⟩ >>= fun _ => pure user).Uses allowed :=
  .bind (uses_send.mpr (hother _ nofun nofun)) fun _ => .bind (.bind (uses_create
    (uses_send.mpr (hother _ nofun nofun)) (hother _ nofun nofun)) fun _ => trivial) fun _ =>
      .bind (uses_enqueue (hother _ nofun nofun) (fun _ => uses_send.mpr (hother _ nofun nofun))
        (hother _ nofun nofun) _ _ _) fun _ => trivial

theorem uses_consumeForRegistration (rawEmail : String) (ticket : Option String) :
    (consumeForRegistration setup rawEmail ticket).Uses allowed := by
  have hotps (a : Access ℕ EmailOtp EmailOtpWhere EmailOtpChange) : (emailOtps a).Uses allowed :=
    uses_send.mpr (hother _ nofun nofun)
  unfold consumeForRegistration
  split
  · trivial
  · refine .bind (.bind (uses_send.mpr (hother _ nofun nofun)) fun now => .bind (uses_changeMany
      hotps (hother _ nofun nofun) _ _) fun _ => trivial) fun consumed => ?_
    split <;> trivial

theorem uses_upsertDetails (userId : ℕ) (fields : ProfileFields) :
    (upsertDetails userId fields).Uses allowed := by
  unfold upsertDetails
  split
  · trivial
  · exact .bind (uses_send.mpr (hother _ nofun nofun)) fun _ => uses_send.mpr (hother _ nofun nofun)

theorem uses_deleteSessions (userId : ℕ) :
    (deleteRefreshTokensByUserId .tx userId).Uses allowed :=
  uses_revokeRefreshTokens (fun _ => uses_send.mpr (hother _ nofun nofun)) _
    fun _ => hother _ nofun nofun

theorem uses_findProfile (husers : ∀ w, allowed (.sql (.users (.find w))))
    (hroles : ∀ w, allowed (.sql (.roles (.find w)))) (userId : ℕ) :
    (findProfile userId).Uses allowed := by
  refine .bind (uses_send.mpr (hother _ nofun nofun)) fun readAt =>
    .bind (uses_send.mpr (husers _)) fun found => ?_
  split
  · trivial
  · dsimp only
    split
    on_goal 1 => refine .bind (uses_pure _) fun role => ?_
    on_goal 2 => refine .bind (uses_send.mpr (hroles _)) fun role => ?_
    all_goals exact .bind (uses_send.mpr (hother _ nofun nofun)) fun profile => trivial

theorem uses_getProfile (husers : ∀ w, allowed (.sql (.users (.find w))))
    (hroles : ∀ w, allowed (.sql (.roles (.find w)))) (userId : ℕ) :
    (getProfile userId).Uses allowed := by
  refine .bind (uses_cacheService (hother _ nofun nofun)) fun cached => ?_
  split
  · trivial
  · refine .bind (uses_findProfile hother husers hroles userId) fun found => ?_
    split
    · trivial
    · exact .bind (uses_cacheService (hother _ nofun nofun)) fun _ => trivial

theorem uses_invalidation (userId : ℕ) :
    (invalidateAccess >>= fun _ => cacheService (.del [.userRole userId])).Uses allowed :=
  .bind (uses_cacheService (hother _ nofun nofun)) fun _ =>
    uses_cacheService (hother _ nofun nofun)

end Accounts

end ExpressCore
