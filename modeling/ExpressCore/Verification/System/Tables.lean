import ExpressCore.Library.Ledger
import ExpressCore.Verification.System.Requests

/-! # The tables of the database, by name

What a statement does is said once for all tables: it accesses one of them, or it ends the
transaction in all of them, or it changes none. -/

namespace ExpressCore

open ReadCommitted Interleaving

/-- The tables whose rows the services access. -/
inductive TableName where
  | roles
  | users
  | userProfiles
  | refreshTokens
  | emailVerificationTokens
  | passwordResetTokens
  | emailOtps
  | outbox
  | deadLetterJobs
  | emailTemplates
  deriving DecidableEq

namespace TableName

abbrev Row : TableName → Type
  | roles => Role
  | users => User
  | userProfiles => UserProfile
  | refreshTokens => RefreshToken
  | emailVerificationTokens => EmailVerificationToken
  | passwordResetTokens => PasswordResetToken
  | emailOtps => EmailOtp
  | outbox => Outbox
  | deadLetterJobs => DeadLetterJob
  | emailTemplates => EmailTemplate

abbrev Where : TableName → Type
  | roles => RoleWhere
  | users => UserWhere
  | userProfiles => ProfileWhere
  | refreshTokens => RefreshTokenWhere
  | emailVerificationTokens => TokenWhere
  | passwordResetTokens => TokenWhere
  | emailOtps => EmailOtpWhere
  | outbox => OutboxWhere
  | deadLetterJobs => DeadLetterWhere
  | emailTemplates => EmailTemplateWhere

abbrev Change : TableName → Type
  | roles => RoleChange
  | users => UserChange
  | userProfiles => UserProfileUpdate
  | refreshTokens => RefreshTokenChange
  | emailVerificationTokens => EmailVerificationTokenChange
  | passwordResetTokens => PasswordResetTokenChange
  | emailOtps => EmailOtpChange
  | outbox => OutboxChange
  | deadLetterJobs => DeadLetterChange
  | emailTemplates => EmailTemplateChange

instance instCondition : (k : TableName) → Condition k.Where ℕ k.Row
  | roles => inferInstanceAs (Condition RoleWhere ℕ Role)
  | users => inferInstanceAs (Condition UserWhere ℕ User)
  | userProfiles => inferInstanceAs (Condition ProfileWhere ℕ UserProfile)
  | refreshTokens => inferInstanceAs (Condition RefreshTokenWhere ℕ RefreshToken)
  | emailVerificationTokens => inferInstanceAs (Condition TokenWhere ℕ EmailVerificationToken)
  | passwordResetTokens => inferInstanceAs (Condition TokenWhere ℕ PasswordResetToken)
  | emailOtps => inferInstanceAs (Condition EmailOtpWhere ℕ EmailOtp)
  | outbox => inferInstanceAs (Condition OutboxWhere ℕ Outbox)
  | deadLetterJobs => inferInstanceAs (Condition DeadLetterWhere ℕ DeadLetterJob)
  | emailTemplates => inferInstanceAs (Condition EmailTemplateWhere ℕ EmailTemplate)

instance instChange : (k : TableName) → ReadCommitted.Change k.Change k.Row
  | roles => inferInstanceAs (ReadCommitted.Change RoleChange Role)
  | users => inferInstanceAs (ReadCommitted.Change UserChange User)
  | userProfiles => inferInstanceAs (ReadCommitted.Change UserProfileUpdate UserProfile)
  | refreshTokens => inferInstanceAs (ReadCommitted.Change RefreshTokenChange RefreshToken)
  | emailVerificationTokens =>
      inferInstanceAs (ReadCommitted.Change EmailVerificationTokenChange EmailVerificationToken)
  | passwordResetTokens =>
      inferInstanceAs (ReadCommitted.Change PasswordResetTokenChange PasswordResetToken)
  | emailOtps => inferInstanceAs (ReadCommitted.Change EmailOtpChange EmailOtp)
  | outbox => inferInstanceAs (ReadCommitted.Change OutboxChange Outbox)
  | deadLetterJobs => inferInstanceAs (ReadCommitted.Change DeadLetterChange DeadLetterJob)
  | emailTemplates => inferInstanceAs (ReadCommitted.Change EmailTemplateChange EmailTemplate)

/-- The accesses to a table. -/
abbrev Access (k : TableName) : Type := ReadCommitted.Access ℕ k.Row k.Where k.Change

def table : (k : TableName) → Db → Table ℕ ℕ k.Row
  | roles => Db.roles
  | users => Db.users
  | userProfiles => Db.userProfiles
  | refreshTokens => Db.refreshTokens
  | emailVerificationTokens => Db.emailVerificationTokens
  | passwordResetTokens => Db.passwordResetTokens
  | emailOtps => Db.emailOtps
  | outbox => Db.outbox
  | deadLetterJobs => Db.deadLetterJobs
  | emailTemplates => Db.emailTemplates

/-- The statement of an access. -/
def sql : (k : TableName) → k.Access → Sql
  | roles => .roles
  | users => .users
  | userProfiles => .userProfiles
  | refreshTokens => .refreshTokens
  | emailVerificationTokens => .emailVerificationTokens
  | passwordResetTokens => .passwordResetTokens
  | emailOtps => .emailOtps
  | outbox => .outbox
  | deadLetterJobs => .deadLetterJobs
  | emailTemplates => .emailTemplates

end TableName

/-- Statements that end the transaction of their thread by a commit. -/
def Sql.Commits : Sql → Prop
  | .commit => True
  | .complete .prisma => True
  | .deleted .prisma _ _ => True
  | .logActivity .prisma _ => True
  | _ => False

/-- What a statement of thread `t` does to the tables. -/
inductive Db.Effect (t : ℕ) (o : Oracle) (q : Sql) (d d' : Db) : Prop where
  | access (k : TableName) (a : k.Access) (reply : a.Reply) : q = k.sql a →
      d.poisoned t = false → a.exec t o.pick o.fresh (k.table d) = some (reply, k.table d') →
      (∀ k', k' ≠ k → k'.table d' = k'.table d) → Db.Effect t o q d d'
  | commit : q.Commits → (∀ k : TableName, k.table d' = (k.table d).commit t) →
      Db.Effect t o q d d'
  | abort : q = .commit ∨ q = .rollback → (∀ k : TableName, k.table d' = (k.table d).abort t) →
      Db.Effect t o q d d'
  | none : (∀ k : TableName, k.table d' = k.table d) → Db.Effect t o q d d'

variable {t : ℕ} {o : Oracle} {clock : Time} {d d' : Db}

theorem Db.table_commitAll (k : TableName) : k.table (d.commitAll t) = (k.table d).commit t := by
  cases k <;> rfl

theorem Db.table_abortAll (k : TableName) : k.table (d.abortAll t) = (k.table d).abort t := by
  cases k <;> rfl

theorem Db.audit_table {db : Client} {row : ActivityLog} (h : d.audit t o db row = some d') :
    (db = .prisma ∧ ∀ k : TableName, k.table d' = (k.table d).commit t) ∨
      ∀ k : TableName, k.table d' = k.table d := by
  unfold Db.audit at h
  split at h
  · split at h <;> cases h
    exact .inr fun k => by cases k <;> rfl
  · split at h <;> cases h
    exact .inl ⟨rfl, fun k => by cases k <;> rfl⟩
  · cases h
    exact .inr fun k => by cases k <;> rfl
  · cases h
    exact .inr fun _ => rfl

theorem exec_access {k : TableName} {a : k.Access} {reply : (k.sql a).Reply}
    (h : (k.sql a).exec t o clock d = some (reply, d')) :
    d.poisoned t = false ∧
      (∃ reply', a.exec t o.pick o.fresh (k.table d) = some (reply', k.table d')) ∧
      ∀ k', k' ≠ k → k'.table d' = k'.table d := by
  cases k <;>
    simp only [TableName.sql, Sql.exec, Db.unlessPoisoned_eq_some, Option.map_eq_some_iff] at h <;>
    obtain ⟨hpoisoned, ⟨reply', T⟩, hexec, -, rfl⟩ := h <;>
    exact ⟨hpoisoned, ⟨reply', hexec⟩, fun k hk => by
      cases k <;> first | rfl | exact (hk rfl).elim⟩

theorem Db.Effect.of_access (k : TableName) (a : k.Access) {reply : (k.sql a).Reply}
    (h : (k.sql a).exec t o clock d = some (reply, d')) : Db.Effect t o (k.sql a) d d' := by
  obtain ⟨hpoisoned, ⟨reply', hexec⟩, hothers⟩ := exec_access h
  exact .access k a reply' rfl hpoisoned hexec hothers

theorem Db.Effect.exec {q : Sql} {reply : q.Reply} (h : q.exec t o clock d = some (reply, d')) :
    Db.Effect t o q d d' := by
  cases q with
  | begin =>
      cases h
      exact .none fun k => by cases k <;> rfl
  | commit =>
      cases h
      unfold Db.finish
      split
      · exact .abort (.inl rfl) Db.table_abortAll
      · exact .commit trivial Db.table_commitAll
  | rollback =>
      cases h
      exact .abort (.inr rfl) Db.table_abortAll
  | complete db =>
      cases db <;>
        simp only [Sql.exec, Db.unlessPoisoned_eq_some, Option.some.injEq, Prod.mk.injEq] at h <;>
        obtain ⟨-, -, rfl⟩ := h
      · exact .commit trivial Db.table_commitAll
      · exact .none fun k => by cases k <;> rfl
  | deleted db w count =>
      cases db <;>
        simp only [Sql.exec, Db.unlessPoisoned_eq_some, Option.some.injEq, Prod.mk.injEq] at h <;>
        obtain ⟨-, -, rfl⟩ := h
      · exact .commit trivial fun k => by cases k <;> rfl
      · exact .none fun k => by cases k <;> rfl
  | now =>
      simp only [Sql.exec, Db.unlessPoisoned_eq_some, Option.some.injEq, Prod.mk.injEq] at h
      obtain ⟨-, -, rfl⟩ := h
      exact .none fun _ => rfl
  | logActivity db row =>
      simp only [Sql.exec] at h
      split at h
      · cases h
        exact .none fun _ => rfl
      · simp only [Option.map_eq_some_iff, Prod.mk.injEq] at h
        obtain ⟨d'', haudit, -, rfl⟩ := h
        rcases Db.audit_table haudit with ⟨rfl, hcommit⟩ | hnone
        · exact .commit trivial hcommit
        · exact .none hnone
  | roles a => exact .of_access .roles a h
  | users a => exact .of_access .users a h
  | userProfiles a => exact .of_access .userProfiles a h
  | refreshTokens a => exact .of_access .refreshTokens a h
  | emailVerificationTokens a => exact .of_access .emailVerificationTokens a h
  | passwordResetTokens a => exact .of_access .passwordResetTokens a h
  | emailOtps a => exact .of_access .emailOtps a h
  | outbox a => exact .of_access .outbox a h
  | deadLetterJobs a => exact .of_access .deadLetterJobs a h
  | emailTemplates a => exact .of_access .emailTemplates a h

end ExpressCore
