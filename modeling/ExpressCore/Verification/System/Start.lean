import ExpressCore.Model.RefreshSuccessor
import ExpressCore.Verification.System.Calls

/-! # The start of a run -/

namespace ExpressCore

open ReadCommitted Interleaving

/-- The system at the start of a run: there may be users, but nobody has signed in. -/
structure State.Initial (s : State) : Prop where
  users : s.db.users.AtRest
  refreshTokens : s.db.refreshTokens = .empty
  passwordResetTokens : s.db.passwordResetTokens.AtRest
  emailOtps : s.db.emailOtps.AtRest
  outbox : s.db.outbox.AtRest
  deadLetterJobs : s.db.deadLetterJobs.AtRest
  rolledBack : s.db.rolledBack = fun _ => false
  changing : s.db.changing = fun _ => none
  tags : s.db.tags = []
  seen : s.seen = []
  minted : s.minted = []
  families : s.families = []

variable {setup : Setup} {traced : Prop} {s : State}

theorem State.Initial.wellFormed (h : s.Initial) : s.WellFormed setup traced where
  users := h.users.ordered
  refreshTokens := h.refreshTokens ▸ Table.empty_atRest.ordered
  passwordResetTokens := h.passwordResetTokens.ordered
  emailOtps := h.emailOtps.ordered
  outbox := h.outbox.ordered
  deadLetterJobs := h.deadLetterJobs.ordered
  coherent := by simp [h.refreshTokens, Table.Coherent, Table.Record, Table.Version, Table.empty]
  logged := by simp [h.refreshTokens, Table.Logged, Table.empty]
  drawn := by constructor <;> simp [h.seen, h.minted, h.families]

/-! ## A plain system

Cryptography without secrets, on which schedules can be computed. -/

def plainCrypto : Crypto where
  sha256 text := text
  hkdf key salt info := utf8 (key ++ salt ++ info)
  encrypt _ _ _ plaintext := (plaintext, List.replicate TAG_BYTES 0)
  decrypt _ _ _ _ ciphertext := some ciphertext
  hmac key message := key ++ utf8 message
  bcryptHash password salt := password ++ salt
  bcryptCompare password hash := password == hash
  generateAccessToken userId := toString userId

def plainSetup : Setup where
  crypto := plainCrypto
  env :=
    { refreshTokenExpiresDays := 1, refreshGraceSeconds := 30, emailVerificationExpiresHours := 24
      passwordResetExpiresMinutes := 60
      otpExpiresMinutes := 10, otpResendCooldownSeconds := 60, otpMaxAttempts := 5
      otpVerifiedWindowMinutes := 30, outboxRelayBatch := 10, outboxLeaseSeconds := 60
      outboxMaxPublishAttempts := 3, registrationVerificationOtp := true
      registrationDefaultRole := none, jwtAccessSecret := "secret", slugAttempts := 10 }

/-- A table with one row. -/
def oneRow {ρ : Type} (i : ℕ) (row : ρ) : Table ℕ ℕ ρ where
  ids := [i]
  committed := Function.update (fun _ => none) i (some row)
  pending _ := none
  snapshot _ _ := none
  log := []
  ids_nodup := List.nodup_singleton i
  mem_of_committed j r h := by
    by_cases heq : j = i
    · simp [heq]
    · simp [Function.update_of_ne heq] at h
  mem_of_pending _ _ h := nomatch h

/-- A system in which only users exist. -/
def plainState (users : Table ℕ ℕ User) : State where
  db :=
    { roles := .empty, users, userProfiles := .empty, refreshTokens := .empty
      emailVerificationTokens := .empty, passwordResetTokens := .empty, emailOtps := .empty
      activityLogs := .empty, outbox := .empty, deadLetterJobs := .empty
      emailTemplates := .empty
      startedAt := fun _ => none, poisoned := fun _ => false, rolledBack := fun _ => false
      changing := fun _ => none, tags := [], commits := 0, committedAt := fun _ => 0 }
  cache :=
    { userRole := fun _ => none, version := none, roleUsers := fun _ => []
      profile := fun _ => none, bumped := [] }
  queues := { jobs := [], waiting := [], resolved := [] }
  uploads := []
  clock := 0
  seen := []
  minted := []
  families := []
  issuances := []
  comparisons := []
  tickets := []
  decisions := []
  commands := []

theorem oneRow_atRest {ρ : Type} (i : ℕ) (row : ρ) : (oneRow i row).AtRest := ⟨rfl, fun _ => rfl⟩

theorem plainState_initial {users : Table ℕ ℕ User} (h : users.AtRest) :
    (plainState users).Initial where
  users := h
  refreshTokens := rfl
  passwordResetTokens := Table.empty_atRest
  emailOtps := Table.empty_atRest
  outbox := Table.empty_atRest
  deadLetterJobs := Table.empty_atRest
  rolledBack := rfl
  changing := rfl
  tags := rfl
  seen := rfl
  minted := rfl
  families := rfl

theorem plainState_atRest : (plainState .empty).AtRest where
  tables k := by cases k <;> exact Table.empty_atRest
  poisoned _ := rfl
  seen := rfl
  minted := rfl
  families := rfl
  comparisons := rfl
  tickets := rfl

end ExpressCore
