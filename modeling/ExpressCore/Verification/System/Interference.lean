import ExpressCore.Library.RelyGuarantee
import ExpressCore.Verification.System.Requests

/-! # The contract every thread of the system can rely on -/

namespace ExpressCore

open ReadCommitted Interleaving

/-- What every request keeps: ordered tables, a session table that was empty at the start, and
drawn values that do not collide. In a `traced` run the clock only goes forward. -/
structure State.WellFormed (setup : Setup) (traced : Prop) (s : State) : Prop where
  users : s.db.users.Ordered
  refreshTokens : s.db.refreshTokens.Ordered
  passwordResetTokens : s.db.passwordResetTokens.Ordered
  emailOtps : s.db.emailOtps.Ordered
  outbox : s.db.outbox.Ordered
  deadLetterJobs : s.db.deadLetterJobs.Ordered
  coherent : s.db.refreshTokens.Coherent RefreshToken.SameIssue
  logged : s.db.refreshTokens.Logged
  drawn : s.Drawn setup traced

/-- What happens to thread `t` while it waits. -/
structure Apart (setup : Setup) (traced : Prop) (t : ℕ) (s s' : State) : Prop where
  users : Frame (fun _ _ => True) t s.db.users s'.db.users
  refreshTokens : Frame RefreshToken.SameIssue t s.db.refreshTokens s'.db.refreshTokens
  passwordResetTokens :
    Frame (fun _ _ => True) t s.db.passwordResetTokens s'.db.passwordResetTokens
  emailOtps : Frame EmailOtp.SameEmail t s.db.emailOtps s'.db.emailOtps
  outbox : Frame Outbox.SameJob t s.db.outbox s'.db.outbox
  deadLetterJobs : Frame (fun _ _ => True) t s.db.deadLetterJobs s'.db.deadLetterJobs
  startedAt : s'.db.startedAt t = s.db.startedAt t
  poisoned : s'.db.poisoned t = s.db.poisoned t
  rolledBack : s'.db.rolledBack t = s.db.rolledBack t
  changing : s'.db.changing t = s.db.changing t
  committedAt : s'.db.committedAt t = s.db.committedAt t
  tags : ∃ new, s'.db.tags = new ++ s.db.tags ∧ ∀ x ∈ new, x.1 ≠ t
  commits : s.db.commits ≤ s'.db.commits
  clock : traced → s.clock ≤ s'.clock
  seen : ∃ new, s'.seen = new ++ s.seen
  minted : ∃ new, s'.minted = new ++ s.minted ∧ ∀ x ∈ new, x.1 ≠ t ∧
    ∀ y ∈ s.seen, setup.crypto.sha256 y ≠ setup.crypto.sha256 x.2.1
  families : ∃ new, s'.families = new ++ s.families ∧
    ∀ x ∈ new, x.1 ≠ t ∧ ∀ y ∈ s.families, y.2 ≠ x.2
  issuances : ∃ new, s'.issuances = new ++ s.issuances ∧ ∀ x ∈ new, x.1 ≠ t

variable {setup : Setup} {traced : Prop} {t u : ℕ} {s s' : State}

theorem Apart.of_moves (h : State.Moves setup u s s') (hne : t ≠ u) :
    Apart setup traced t s s' where
  users := h.db.users.frame (fun _ => trivial) (fun _ _ _ _ => trivial) hne
  refreshTokens :=
    h.db.refreshTokens.frame RefreshToken.SameIssue.refl RefreshToken.sameIssue_apply hne
  passwordResetTokens :=
    h.db.passwordResetTokens.frame (fun _ => trivial) (fun _ _ _ _ => trivial) hne
  emailOtps := h.db.emailOtps.frame (fun _ => rfl) EmailOtp.sameEmail_apply hne
  outbox := h.db.outbox.frame (fun _ => ⟨rfl, rfl⟩) Outbox.sameJob_apply hne
  deadLetterJobs := h.db.deadLetterJobs.frame (fun _ => trivial) (fun _ _ _ _ => trivial) hne
  startedAt := h.db.startedAt t hne
  poisoned := h.db.poisoned t hne
  rolledBack := h.db.rolledBack t hne
  changing := h.db.changing t hne
  committedAt := h.db.committedAt t hne
  tags := by
    obtain ⟨new, heq, hnew⟩ := h.db.tags
    exact ⟨new, heq, fun x hx => (hnew x hx).symm ▸ hne.symm⟩
  commits := h.db.commits
  clock := fun _ => Nat.le_of_eq h.clock.symm
  seen := h.seen
  minted := by
    obtain ⟨new, heq, hnew⟩ := h.minted
    exact ⟨new, heq, fun x hx => ⟨(hnew x hx).1.symm ▸ hne.symm, (hnew x hx).2⟩⟩
  families := by
    obtain ⟨new, heq, hnew⟩ := h.families
    exact ⟨new, heq, fun x hx => ⟨(hnew x hx).1.symm ▸ hne.symm, (hnew x hx).2⟩⟩
  issuances := by
    obtain ⟨new, heq, hnew⟩ := h.issuances
    exact ⟨new, heq, fun x hx => (hnew x hx).symm ▸ hne.symm⟩

/-- A move of the environment leaves the database and what was drawn. -/
theorem Apart.of_env (hdb : s'.db = s.db) (hseen : s'.seen = s.seen)
    (hminted : s'.minted = s.minted) (hfamilies : s'.families = s.families)
    (hissuances : s'.issuances = s.issuances) (hclock : traced → s.clock ≤ s'.clock) :
    Apart setup traced t s s' := by
  have hcommits : s.db.commits ≤ s'.db.commits := Nat.le_of_eq (congrArg Db.commits hdb).symm
  constructor <;> (try exact hcommits) <;> (try rw [hdb])
  case users => exact .refl fun _ => trivial
  case refreshTokens => exact .refl RefreshToken.SameIssue.refl
  case passwordResetTokens => exact .refl fun _ => trivial
  case emailOtps => exact .refl fun _ => rfl
  case outbox => exact .refl fun _ => ⟨rfl, rfl⟩
  case deadLetterJobs => exact .refl fun _ => trivial
  case tags => exact ⟨[], rfl, by simp⟩
  case clock => exact hclock
  case seen => exact ⟨[], by simp [hseen]⟩
  case minted => exact ⟨[], by simp [hminted], by simp⟩
  case families => exact ⟨[], by simp [hfamilies], by simp⟩
  case issuances => exact ⟨[], by simp [hissuances], by simp⟩

theorem move_exec {m : Move} (h : m.exec s = some s') :
    s'.db = s.db ∧ s'.seen = s.seen ∧ s'.minted = s.minted ∧ s'.families = s.families ∧
      s'.issuances = s.issuances := by
  cases m <;> simp only [Move.exec, Option.map_eq_some_iff, Option.some.injEq] at h
  case deliver n =>
    obtain ⟨job, -, rfl⟩ := h
    exact ⟨rfl, rfl, rfl, rfl, rfl⟩
  all_goals
    subst h
    exact ⟨rfl, rfl, rfl, rfl, rfl⟩

theorem State.WellFormed.of_db_moves (hs : s.WellFormed setup traced)
    (h : Db.Moves u s.db s'.db) (hdrawn : s'.Drawn setup traced) :
    s'.WellFormed setup traced where
  users := h.users.ordered hs.users
  refreshTokens := h.refreshTokens.ordered hs.refreshTokens
  passwordResetTokens := h.passwordResetTokens.ordered hs.passwordResetTokens
  emailOtps := h.emailOtps.ordered hs.emailOtps
  outbox := h.outbox.ordered hs.outbox
  deadLetterJobs := h.deadLetterJobs.ordered hs.deadLetterJobs
  coherent := h.refreshTokens.coherent RefreshToken.SameIssue.equivalence
    RefreshToken.sameIssue_apply hs.refreshTokens hs.coherent
  logged := h.refreshTokens.logged hs.logged
  drawn := hdrawn

theorem State.WellFormed.exec {r : Request} {o : Oracle} {reply : r.Reply}
    (hs : s.WellFormed setup traced) (h : r.exec setup u o s = some (reply, s')) :
    s'.WellFormed setup traced :=
  hs.of_db_moves (State.Moves.exec h).db (hs.drawn.exec h)

/-! ## Guarded threads -/

/-- A guard of the requests of each thread. -/
abbrev Guard := ℕ → Request → State → Prop

/-- The contract of threads that guard their requests. -/
def conformance (setup : Setup) (traced : Prop) (A : Assumption ℕ Request State)
    (guard : Guard) : Rules ℕ State :=
  .guarded (system setup) A (State.WellFormed setup traced) (Apart setup traced) guard

variable {guard : Guard} {A : Assumption ℕ Request State}

theorem conformance_compatible (hclock : ∀ s s', A.move s s' → traced → s.clock ≤ s'.clock) :
    (conformance setup traced A guard).Compatible (system setup) A where
  interferes t t' s s' hne _ h := by
    rcases h with ⟨r, o, reply, -, hexec⟩ | rfl
    · exact .of_moves (.exec hexec) hne
    · exact .of_moves (.of_db .abortAll) hne
  crash t s hs :=
    ⟨hs.of_db_moves .abortAll (hs.drawn.of_eq rfl rfl rfl fun _ => Nat.le_refl _), .inr rfl⟩
  move o s s' hs hmove hA := by
    obtain ⟨hdb, hseen, hminted, hfamilies, hissuances⟩ := move_exec hmove
    refine ⟨?_, fun t => .of_env hdb hseen hminted hfamilies hissuances (hclock s s' hA)⟩
    exact hs.of_db_moves (u := 0) (hdb ▸ .refl)
      (hs.drawn.of_eq hseen hminted hfamilies (hclock s s' hA))

/-- What is left to show of a request. -/
theorem conformance_answers {pre : State → Prop} {r : Request} {post : r.Reply → State → Prop}
    (hguard : ∀ s, s.WellFormed setup traced → A.request t r s → pre s → guard t r s)
    (hpost : ∀ s o reply s', s.WellFormed setup traced → A.request t r s → pre s →
      r.exec setup t o s = some (reply, s') → post reply s') :
    (conformance setup traced A guard).Answers (system setup) A t pre r post :=
  .guarded (fun _ _ _ _ hs hexec => hs.exec hexec) hguard hpost

end ExpressCore
