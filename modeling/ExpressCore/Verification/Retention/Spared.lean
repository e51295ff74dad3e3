import ExpressCore.Verification.Account.Requests
import ExpressCore.Verification.Otp.Codes
import ExpressCore.Verification.System.Sights

/-! # What the cleanup leaves to the consumers

Tokens keep their expiry, so a row that is selected as expired stays expired. A registration
code does not: its row is issued again under the same id, and a verification counts from the
moment it is stored, whether or not the code has expired by then. -/

namespace ExpressCore.Retention

open ReadCommitted Interleaving Interleaving.Program

/-- The cleanup and the calls that use the rows it deletes. -/
inductive Call where
  | cleanup
  | refresh (token : String)
  | verifyEmail (token : String)
  | resetPassword (token newPassword : String)
  | sendCode (rawEmail : String)
  | verifyCode (rawEmail code : String)
  | register (userData : RegisterInput)

def Call.program (setup : Setup) : Call → Service Unit
  | .cleanup => cleanupExpiredTokens setup
  | .refresh token => do
      let _ ← refreshAccessToken setup token
      pure ()
  | .verifyEmail token => ExpressCore.verifyEmail token
  | .resetPassword token newPassword => ExpressCore.resetPassword setup token newPassword
  | .sendCode rawEmail => ExpressCore.sendCode setup rawEmail
  | .verifyCode rawEmail code => do
      let _ ← ExpressCore.verifyCode setup rawEmail code
      pure ()
  | .register userData => do
      let _ ← ExpressCore.register setup userData
      pure ()

/-! ## Rows and their consumers -/

/-- The row passes the checks of its consumers at the time `now`: of `rotateRefreshToken`,
`verifyEmail`, `resetPassword`, and of `reserveAttempt` or `consume`. -/
def Accepted (setup : Setup) : (k : TableName) → ℕ → k.Row → Time → Prop
  | .refreshTokens, _, r, now => ¬ r.expiresAt ≤ now
  | .emailVerificationTokens, _, r, now => ¬ r.expiresAt < now
  | .passwordResetTokens, _, r, now => ¬ r.expiresAt < now ∧ r.usedAt.isSome = false
  | .emailOtps, i, r, now =>
      Condition.holds (EmailOtpWhere.reservable r.email now setup.env.otpMaxAttempts) i r = true ∨
        Condition.holds (EmailOtpWhere.consumable r.email now
          (setup.env.otpVerifiedWindowMinutes * 60 * 1000)) i r = true
  | _, _, _, _ => False

/-- The code was not marked verified after it had expired. -/
def Timely (r : EmailOtp) : Prop :=
  ∀ verifiedAt, r.verifiedAt = some verifiedAt → verifiedAt ≤ r.expiresAt

/-- The row was useless when a cleanup began at the time `start`: a token had expired, and so
had the whole window of a code. -/
def Useless (setup : Setup) (start : Time) : (k : TableName) → k.Row → Prop
  | .refreshTokens, r => r.expiresAt < start
  | .emailVerificationTokens, r => r.expiresAt < start
  | .passwordResetTokens, r => r.expiresAt < start
  | .emailOtps, r =>
      r.expiresAt < start - setup.env.otpVerifiedWindowMinutes * 60000 ∧ Timely r
  | _, _ => True

theorem not_reservable {r : EmailOtp} {i maxAttempts : ℕ} {now : Time} (h : r.expiresAt ≤ now) :
    Condition.holds (EmailOtpWhere.reservable r.email now maxAttempts) i r = false := by
  have hnot : ¬ now < r.expiresAt := Nat.not_lt.mpr h
  simp [Condition.holds, hnot]

/-- A code that was verified in time can be consumed until the window after its expiry ends. -/
theorem not_consumable {r : EmailOtp} {i : ℕ} {now window : Time} (htimely : Timely r)
    (h : r.expiresAt + window ≤ now) :
    Condition.holds (EmailOtpWhere.consumable r.email now window) i r = false := by
  simp only [Condition.holds, Bool.and_eq_false_iff, Option.any_eq_false, decide_eq_false_iff_not]
  refine .inr fun verifiedAt hverified => Nat.not_lt.mpr ?_
  exact Nat.le_trans (Nat.add_le_add_right (htimely verifiedAt hverified) _) h

private theorem closed_of_cutoff {expiresAt start now minutes : ℕ}
    (h : expiresAt < start - minutes * 60000) (hnow : start ≤ now) :
    expiresAt ≤ now ∧ expiresAt + minutes * 60 * 1000 ≤ now := by omega

variable {setup : Setup}

theorem Useless.not_accepted {k : TableName} {i : ℕ} {r : k.Row} {now start : Time}
    (h : Useless setup start k r) (hnow : start ≤ now) : ¬ Accepted setup k i r now := by
  cases k with
  | refreshTokens => exact not_not.mpr (Nat.le_of_lt (Nat.lt_of_lt_of_le h hnow))
  | emailVerificationTokens => exact not_not.mpr (Nat.lt_of_lt_of_le h hnow)
  | passwordResetTokens => exact fun haccepted => haccepted.1 (Nat.lt_of_lt_of_le h hnow)
  | emailOtps =>
      obtain ⟨hcutoff, htimely⟩ := h
      obtain ⟨hexpired, hclosed⟩ := closed_of_cutoff hcutoff hnow
      rintro (haccepted | haccepted)
      · rw [not_reservable hexpired] at haccepted
        cases haccepted
      · rw [not_consumable htimely hclosed] at haccepted
        cases haccepted
  | _ => exact not_false

/-! ## Runs -/

/-- Cleanup `t` reads the clock at `start t`. -/
def started (calls : ℕ → Call) (start : ℕ → Time) : Assumption ℕ Request State where
  request t r s := r = .now → calls t = .cleanup → s.clock = start t
  move _ _ := True

/-- A code that is deleted is still the one that was selected, and a code that is marked
verified has not expired. -/
def Prudent (t : ℕ) (s : State) : Request → Prop
  | .sql (.emailOtps (.visit i (.ids _) .delete)) =>
      ∀ selected r, s.db.emailOtps.snapshot t i = some selected →
        s.db.emailOtps.view t i = some r → Otp.SameCode selected r
  | .sql (.emailOtps (.visit i (.unverified _) (.verify verifiedAt))) =>
      ∀ r, s.db.emailOtps.view t i = some r → r.verifiedAt = none → verifiedAt ≤ r.expiresAt
  | _ => True

/-- Runs in which every request is prudent. -/
def prudent (calls : ℕ → Call) (start : ℕ → Time) : Assumption ℕ Request State where
  request t r s := (started calls start).request t r s ∧ Prudent t s r
  move _ _ := True

/-- The tables that the cleanup deletes from. -/
def Cleaned (k : TableName) : Prop :=
  k = .refreshTokens ∨ k = .emailVerificationTokens ∨ k = .passwordResetTokens ∨ k = .emailOtps

/-- What a cleanup that began at the time `start` deletes. -/
def Removes (setup : Setup) (start : Time) (t : ℕ) (s : State) : (k : TableName) → k.Access → Prop
  | .refreshTokens, .visit _ (.ids ids) .delete =>
      ∀ i ∈ ids, ∃ r, Identified .refreshTokens i r s ∧ r.expiresAt < start
  | .emailVerificationTokens, .visit _ (.expired before) .delete => before = start
  | .passwordResetTokens, .visit _ (.expired before) .delete => before = start
  | .emailOtps, .visit _ (.ids ids) .delete =>
      ∀ i ∈ ids, ∃ selected, s.db.emailOtps.snapshot t i = some selected ∧
        selected.expiresAt < start - setup.env.otpVerifiedWindowMinutes * 60000
  | _, _ => False

/-- How the other calls change the codes. -/
def Changes : (k : TableName) → k.Access → Prop
  | .emailOtps, .visit _ _ .attempt => True
  | .emailOtps, .visit _ (.unverified _) (.verify _) => True
  | .emailOtps, .visit _ _ (.consume _) => True
  | .emailOtps, .upsert _ row _ (.reissue _ _ _ _) => row.verifiedAt = none
  | .emailOtps, _ => False
  | _, _ => True

def sparing (setup : Setup) (calls : ℕ → Call) (start : ℕ → Time) : Discipline where
  tables := Cleaned
  change t k a s :=
    (calls t = .cleanup → Removes setup (start t) t s k a) ∧ (calls t ≠ .cleanup → Changes k a)
  commit _ _ := True
  other _ _ _ := True
  commit_free _ _ _ := trivial

variable {calls : ℕ → Call} {start : ℕ → Time} {t : ℕ} {s s' : State}

/-! ## What every step keeps -/

/-- The row that a visit of a cleanup finds is useless. -/
theorem Removes.useless {k : TableName} {a : k.Access} {i : ℕ} {v : Option k.Row}
    (h : Removes setup (start t) t s k a) (hA : (prudent calls start).request t (.sql (k.sql a)) s)
    (htimely : ∀ i r, s.db.emailOtps.Version i r → Timely r)
    (hwrote : a.Wrote t (k.table s.db) i v) :
    v = none ∧ ∃ old, (k.table s.db).view t i = some old ∧ Useless setup (start t) k old := by
  cases hwrote with
  | visit _ w c old hlocked hview hw =>
      cases k with
      | refreshTokens =>
          cases w with
          | ids ids =>
              cases c with
              | delete =>
                  obtain ⟨r, hr, hexpired⟩ := h i (List.contains_iff_mem.mp hw)
                  obtain ⟨-, -, -, hexpiresAt⟩ := hr.2 old (version_of_view hview)
                  have hold : old.expiresAt < start t := hexpiresAt ▸ hexpired
                  exact ⟨rfl, old, hview, hold⟩
              | _ => exact h.elim
          | _ => exact h.elim
      | emailVerificationTokens =>
          cases w with
          | expired before =>
              cases c
              obtain rfl : before = start t := h
              have hexpired : old.expiresAt < start t := of_decide_eq_true hw
              exact ⟨rfl, old, hview, hexpired⟩
          | _ => exact h.elim
      | passwordResetTokens =>
          cases w with
          | expired before =>
              cases c with
              | delete =>
                  obtain rfl : before = start t := h
                  have hexpired : old.expiresAt < start t := of_decide_eq_true hw
                  exact ⟨rfl, old, hview, hexpired⟩
              | _ => exact h.elim
          | _ => exact h.elim
      | emailOtps =>
          cases w with
          | ids ids =>
              cases c with
              | delete =>
                  obtain ⟨selected, hselected, hexpired⟩ := h i (List.contains_iff_mem.mp hw)
                  have hcode : Otp.SameCode selected old := hA.2 selected old hselected hview
                  have hexpiresAt : old.expiresAt = selected.expiresAt := by rw [hcode]
                  exact ⟨rfl, old, hview, hexpiresAt ▸ hexpired,
                    htimely i old (version_of_view hview)⟩
              | _ => exact h.elim
          | _ => exact h.elim
      | _ => exact h.elim
  | _ => cases k <;> exact h.elim

/-- A change of a code leaves it timely. -/
theorem timely_of_wrote {a : Access ℕ EmailOtp EmailOtpWhere EmailOtpChange} {i : ℕ}
    {v : Option EmailOtp} {r : EmailOtp} (ha : Changes .emailOtps a)
    (hA : (prudent calls start).request t (.sql (.emailOtps a)) s)
    (htimely : ∀ i r, s.db.emailOtps.Version i r → Timely r)
    (hwrote : a.Wrote t s.db.emailOtps i v) (hr : v = some r) : Timely r := by
  cases hwrote with
  | visit _ w c old hlocked hview hw =>
      have hold : Timely old := htimely i old (version_of_view hview)
      cases c with
      | attempt =>
          cases hr
          exact hold
      | verify verifiedAt =>
          cases w with
          | unverified j =>
              cases hr
              have hunverified : old.verifiedAt = none := by
                simp only [Condition.holds, Bool.and_eq_true, Option.isNone_iff_eq_none] at hw
                exact hw.2
              intro at' heq
              exact Option.some.inj heq ▸ hA.2 old hview hunverified
          | _ => exact ha.elim
      | consume consumedAt =>
          cases hr
          exact hold
      | _ => cases w <;> exact ha.elim
  | visitUnlocked => exact ha.elim
  | insert => exact ha.elim
  | create _ key row guard c =>
      cases c with
      | reissue =>
          obtain rfl : row = r := Option.some.inj hr
          have hnone : row.verifiedAt = none := ha
          intro verifiedAt heq
          rw [hnone] at heq
          cases heq
      | _ => exact ha.elim
  | update _ key row guard c old =>
      cases c with
      | reissue =>
          cases hr
          exact nofun
      | _ => exact ha.elim

/-- Codes are timely, and what a cleanup has deleted was useless. -/
structure Spared (setup : Setup) (calls : ℕ → Call) (start : ℕ → Time) (s : State) : Prop where
  timely : ∀ i r, s.db.emailOtps.Version i r → Timely r
  deleted : ∀ t, calls t = .cleanup → ∀ k, Cleaned k → ∀ i v,
    (k.table s.db).pending i = some (t, v) →
      v = none ∧ ∀ r, (k.table s.db).committed i = some r → Useless setup (start t) k r

theorem Spared.step (h : Spared setup calls start s)
    (hevent : Event setup (prudent calls start) (sparing setup calls start) s s') :
    Spared setup calls start s' where
  timely := by
    have hrow := hevent.on .emailOtps
    simp only [TableName.table] at hrow
    intro i r hr
    cases hrow with
    | same hcommitted hpending hlog hids =>
        refine h.timely i r ?_
        unfold Table.Version at hr
        rwa [hcommitted, hpending] at hr
    | write t a j v hchange hA hwrote htable =>
        rw [htable] at hr
        rcases version_of_write hr with hr | ⟨-, hnew⟩
        · exact h.timely i r hr
        · obtain ⟨hcleanup, hother⟩ := hchange (.inr (.inr (.inr rfl)))
          by_cases hcall : calls t = .cleanup
          · have hnone := ((hcleanup hcall).useless hA h.timely hwrote).1
            rw [hnone] at hnew
            cases hnew
          · exact timely_of_wrote (hother hcall) hA h.timely hwrote hnew
    | commit t hcommit htable => exact h.timely i r (version_of_commit (htable ▸ hr))
    | abort t htable => exact h.timely i r (version_of_abort (htable ▸ hr))
  deleted := by
    intro t hcall k hk i v hpending
    cases hevent.on k with
    | same hcommitted hpendings hlog hids =>
        rw [hpendings] at hpending
        rw [hcommitted]
        exact h.deleted t hcall k hk i v hpending
    | write u a j w hchange hA hwrote htable =>
        rw [htable] at hpending ⊢
        rcases Table.write_pending hpending with ⟨rfl, heq⟩ | ⟨-, hpending⟩
        · obtain ⟨rfl, rfl⟩ := Prod.mk.inj heq
          obtain ⟨hnone, old, hview, huseless⟩ :=
            ((hchange hk).1 hcall).useless hA h.timely hwrote
          refine ⟨hnone, fun r hr => ?_⟩
          have hfree (v' : Option k.Row) : (k.table s.db).pending i ≠ some (t, v') := by
            intro hown
            obtain ⟨rfl, -⟩ := h.deleted t hcall k hk i v' hown
            rw [Table.view_of_pending hown] at hview
            cases hview
          rw [Table.view_of_not_pending hfree] at hview
          obtain rfl : old = r := Option.some.inj (hview.symm.trans hr)
          exact huseless
        · exact h.deleted t hcall k hk i v hpending
    | commit u hcommit htable =>
        rw [htable] at hpending ⊢
        obtain ⟨hpending, hne⟩ := Table.commit_pending.mp hpending
        have hkept : ∀ v', (k.table s.db).pending i ≠ some (u, v') := by
          intro v' hv'
          rw [hpending] at hv'
          exact hne (Prod.mk.inj (Option.some.inj hv')).1
        rw [Table.commit_committed_of_not_pending hkept]
        exact h.deleted t hcall k hk i v hpending
    | abort u htable =>
        rw [htable] at hpending ⊢
        exact h.deleted t hcall k hk i v (Table.abort_pending.mp hpending).1

end ExpressCore.Retention
