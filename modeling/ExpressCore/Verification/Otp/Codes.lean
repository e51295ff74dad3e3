import ExpressCore.Model.Auth
import ExpressCore.Verification.System.Calls

/-! # Codes and the calls that issue them

Every code is issued by one call, and what is stored of it stays the same until it is
replaced. -/

namespace ExpressCore.Otp

open ReadCommitted Interleaving Interleaving.Program

/-- The calls on registration codes. -/
inductive Call where
  | verify (rawEmail code : String)
  | send (rawEmail : String)
  | register (userData : RegisterInput)
  | cleanup

def Call.program (setup : Setup) : Call → Service Unit
  | .verify rawEmail code => do
      let _ ← verifyCode setup rawEmail code
      pure ()
  | .send rawEmail => sendCode setup rawEmail
  | .register userData => do
      let _ ← ExpressCore.register setup userData
      pure ()
  | .cleanup => cleanupExpiredTokens setup

/-- The end of `verifyCode`. -/
def ticketFor (setup : Setup) (id : ℕ) : Option Time → Service String
  | none => throw (appError "Invalid or expired code" 400)
  | some verifiedAt => do
      request (.ticketReturned id verifiedAt)
      pure (registrationTicket setup id verifiedAt)

/-- The row still holds the same code. -/
def SameCode (r r' : EmailOtp) : Prop :=
  r' = { r with
    attempts := r'.attempts, verifiedAt := r'.verifiedAt, consumedAt := r'.consumedAt }

theorem SameCode.refl (r : EmailOtp) : SameCode r r := rfl

theorem SameCode.symm {r r' : EmailOtp} (h : SameCode r r') : SameCode r' r := by
  unfold SameCode at h ⊢
  rw [h]

theorem SameCode.trans {r r' r'' : EmailOtp} (h : SameCode r r') (h' : SameCode r' r'') :
    SameCode r r'' := by
  unfold SameCode at h h' ⊢
  rw [h', h]

theorem SameCode.issuance {r r' : EmailOtp} (h : SameCode r r') : r'.issuance = r.issuance := by
  rw [h]

theorem SameCode.email {r r' : EmailOtp} (h : SameCode r r') : r'.email = r.email := by
  rw [h]

theorem SameCode.codeHash {r r' : EmailOtp} (h : SameCode r r') : r'.codeHash = r.codeHash := by
  rw [h]

theorem SameCode.sentAt {r r' : EmailOtp} (h : SameCode r r') : r'.sentAt = r.sentAt := by
  rw [h]

variable {setup : Setup} {traced : Prop} {A : Assumption ℕ Request State} {calls : ℕ → Call}
  {exact : Prop} {t : ℕ} {s s' s₀ : State}

/-- The call has reserved an attempt for the code in `r`, compared it, and submitted that code. -/
def Knows (setup : Setup) (call : Call) (t i : ℕ) (r : EmailOtp) (s : State) : Prop :=
  ∃ rawEmail code r₀, call = .verify rawEmail code ∧ r.email = normalizeEmail rawEmail ∧
    otpCodeMatches setup (normalizeEmail rawEmail) code r.codeHash = true ∧
      (t, i, some r₀) ∈ s.db.emailOtps.log ∧ SameCode r₀ r ∧
        ∃ x ∈ s.comparisons, x.1 = t ∧ x.2.issuance = r.issuance

/-- The call has submitted the code that its only comparison was reserved for. -/
def Matched (setup : Setup) (call : Call) (t i : ℕ) (s : State) : Prop :=
  ∃ r, Knows setup call t i r s ∧ ∀ x ∈ s.comparisons, x.1 = t → x.2.issuance = r.issuance

/-- The row of a new code, from a call that generated it. -/
structure Issuing (calls : ℕ → Call) (t : ℕ) (row : EmailOtp) (s : State) : Prop where
  call : ∃ rawEmail, calls t = .send rawEmail
  drawn : (t, row.issuance) ∈ s.issuances
  ledger : Ledger .emailOtps t [] [] s
  attempts : row.attempts = 0
  verifiedAt : row.verifiedAt = none
  consumedAt : row.consumedAt = none

/-- What the accesses to the codes are good for. -/
def change (setup : Setup) (calls : ℕ → Call) (t : ℕ) :
    Access ℕ EmailOtp EmailOtpWhere EmailOtpChange → State → Prop
  | .visit _ (.reservable _ _ maxAttempts) .attempt, _ =>
      maxAttempts = setup.env.otpMaxAttempts ∧ ∃ rawEmail code, calls t = .verify rawEmail code
  | .visit _ (.unverified i) (.verify _), s => Matched setup (calls t) t i s
  | .visit _ (.consumable _ _ _) (.consume _), _ => ∃ userData, calls t = .register userData
  | .visit _ _ .delete, _ => calls t = .cleanup
  | .upsert key row _ c, s =>
      key = .email row.email ∧
        c = .reissue row.codeHash row.sentAt row.expiresAt row.issuance ∧ Issuing calls t row s
  | _, _ => False

/-- A comparison for the one attempt that the call has reserved. -/
structure Comparing (calls : ℕ → Call) (t : ℕ) (x : Comparison) (s : State) : Prop where
  call : ∃ rawEmail code, calls t = .verify rawEmail code
  first : ∀ y ∈ s.comparisons, y.1 ≠ t
  reserved : ∃ i r, Ledger .emailOtps t [] [(i, some r)] s ∧ r.consumedAt = none ∧
    x.issuance = r.issuance ∧ x.expiresAt = r.expiresAt
  unexpired : x.reservedAt < x.expiresAt
  unconsumed : x.unconsumed = true

/-- A ticket for a verification of the code that the call submitted. -/
def Ticketed (setup : Setup) (call : Call) (t i : ℕ) (verifiedAt : Time) (s : State) : Prop :=
  ∃ u r, (u, i, some r) ∈ s.db.emailOtps.log ∧ r.verifiedAt = some verifiedAt ∧
    Knows setup call t i r s

/-- How the calls use the codes. With `exact`, tickets are only for the code that was
submitted. -/
def guessing (setup : Setup) (calls : ℕ → Call) (exact : Prop) : Discipline where
  tables k := k = .emailOtps
  change t k a s :=
    match k, a with
    | .emailOtps, a => change setup calls t a s
    | _, _ => True
  commit _ _ := True
  other t r s :=
    match r with
    | .otpCodeMatches x => Comparing calls t x s
    | .ticketReturned i verifiedAt => exact → Ticketed setup (calls t) t i verifiedAt s
    | _ => True
  commit_free _ _ _ := trivial

/-! ## What a step does to the codes -/

/-- What thread `t` writes to row `i`. -/
inductive Written (setup : Setup) (A : Assumption ℕ Request State) (calls : ℕ → Call) (s : State)
    (t i : ℕ) : Option EmailOtp → Prop where
  | attempt (old : EmailOtp) : (∃ rawEmail code, calls t = .verify rawEmail code) →
      s.db.emailOtps.view t i = some old → old.attempts < setup.env.otpMaxAttempts →
      Written setup A calls s t i (some { old with attempts := old.attempts + 1 })
  | verify (old : EmailOtp) (verifiedAt : Time) : Matched setup (calls t) t i s →
      A.request t (.sql (.emailOtps (.visit i (.unverified i) (.verify verifiedAt)))) s →
      s.db.emailOtps.view t i = some old → old.verifiedAt = none →
      Written setup A calls s t i (some { old with verifiedAt := some verifiedAt })
  | consume (old : EmailOtp) (consumedAt : Time) : (∃ userData, calls t = .register userData) →
      s.db.emailOtps.view t i = some old →
      Written setup A calls s t i (some { old with consumedAt := some consumedAt })
  | delete (old : EmailOtp) : calls t = .cleanup → s.db.emailOtps.view t i = some old →
      Written setup A calls s t i none
  | issue (row : EmailOtp) : Issuing calls t row s →
      (∀ j r, s.db.emailOtps.Version j r → r.email = row.email → j = i) →
      Written setup A calls s t i (some row)

/-- What a step does to the table of codes. -/
inductive CodeEvent (setup : Setup) (A : Assumption ℕ Request State) (calls : ℕ → Call)
    (s : State) (T : Table ℕ ℕ EmailOtp) : Prop where
  | same : T.committed = s.db.emailOtps.committed → T.pending = s.db.emailOtps.pending →
      T.log = s.db.emailOtps.log → CodeEvent setup A calls s T
  | write (t i : ℕ) (v : Option EmailOtp) : s.db.emailOtps.locked t i = false →
      Written setup A calls s t i v → T = s.db.emailOtps.write t i v →
      CodeEvent setup A calls s T
  | commit (t : ℕ) : T = s.db.emailOtps.commit t → CodeEvent setup A calls s T
  | abort (t : ℕ) : T = s.db.emailOtps.abort t → CodeEvent setup A calls s T

/-- No two rows are for the same address. -/
def UniqueEmails (T : Table ℕ ℕ EmailOtp) : Prop :=
  ∀ i r j r', T.Version i r → T.Version j r' → r.email = r'.email → i = j

/-- A version of an address that no other row has. -/
theorem UniqueEmails.write {T : Table ℕ ℕ EmailOtp} {i : ℕ} {v : Option EmailOtp}
    (h : UniqueEmails T)
    (hv : ∀ r, v = some r → ∀ j r', T.Version j r' → r'.email = r.email → j = i) :
    UniqueEmails (T.write t i v) := by
  intro j r k r' hr hr' heq
  rcases version_of_write hr with hold | ⟨rfl, hnew⟩ <;>
    rcases version_of_write hr' with hold' | ⟨rfl, hnew'⟩
  · exact h j r k r' hold hold' heq
  · exact hv r' hnew' j r hold heq
  · exact (hv r hnew k r' hold' heq.symm).symm
  · rfl

theorem UniqueEmails.commit {T : Table ℕ ℕ EmailOtp} (h : UniqueEmails T) :
    UniqueEmails (T.commit t) :=
  fun i r j r' hr hr' => h i r j r' (version_of_commit hr) (version_of_commit hr')

theorem UniqueEmails.abort {T : Table ℕ ℕ EmailOtp} (h : UniqueEmails T) :
    UniqueEmails (T.abort t) :=
  fun i r j r' hr hr' => h i r j r' (version_of_abort hr) (version_of_abort hr')

/-- An address that is not contended is that of the rows the thread sees. -/
theorem matching_of_version {email : String} {T : Table ℕ ℕ EmailOtp}
    (hfree : T.Free t) (hcontended : T.contended t (.email email : EmailOtpWhere) = false) {i : ℕ}
    {r : EmailOtp} (hr : T.Version i r) (hemail : r.email = email) :
    (i, r) ∈ T.matching t (.email email : EmailOtpWhere) := by
  have hholds : Condition.holds (EmailOtpWhere.email email) i r = true := beq_iff_eq.mpr hemail
  have hunlocked : T.locked t i = false := by
    by_contra hlocked
    refine absurd hcontended (Bool.eq_false_iff.not.mpr (not_not.mpr ?_))
    refine List.any_eq_true.mpr ⟨i, mem_ids_of_version hr, ?_⟩
    have hlocked : T.locked t i = true := by simpa using hlocked
    rcases hr with hr | ⟨u, hr⟩ <;> simp [hlocked, hr, hholds]
  have hnone : T.pending i = none := by
    cases hp : T.pending i with
    | none => rfl
    | some w =>
        obtain rfl : w.1 = t := Table.locked_eq_false.mp hunlocked w hp
        exact (hfree i w.2 hp).elim
  have hcommitted : T.committed i = some r := by
    rcases hr with hr | ⟨u, hu⟩
    · exact hr
    · simp [hnone] at hu
  exact mem_matching.mpr ⟨(Table.view_of_not_pending fun v hv => by simp [hnone] at hv).trans
    hcommitted, hholds⟩

theorem codeEvent (hemails : UniqueEmails s.db.emailOtps)
    (hevent : Event setup A (guessing setup calls exact) s s') :
    CodeEvent setup A calls s s'.db.emailOtps := by
  have hrow := hevent.on .emailOtps
  simp only [TableName.table] at hrow
  cases hrow with
  | same hcommitted hpending hlog => exact .same hcommitted hpending hlog
  | write t a i v hchange hA hwrote htable =>
      have hchange : change setup calls t a s := hchange rfl
      cases hwrote with
      | visit _ w c old hlocked hview hw =>
          refine .write t i _ hlocked ?_ htable
          cases c with
          | attempt =>
              cases w with
              | reservable email now maxAttempts =>
                  obtain ⟨rfl, hcall⟩ := hchange
                  have hw : old.attempts < setup.env.otpMaxAttempts := by
                    simp only [Condition.holds, Bool.and_eq_true, decide_eq_true_eq] at hw
                    exact hw.2
                  exact .attempt old hcall hview hw
              | _ => exact hchange.elim
          | verify verifiedAt =>
              cases w with
              | unverified j =>
                  obtain ⟨rfl, hunverified⟩ : i = j ∧ old.verifiedAt = none := by
                    simpa [Condition.holds] using hw
                  exact .verify old verifiedAt hchange hA hview hunverified
              | _ => exact hchange.elim
          | consume consumedAt =>
              cases w with
              | consumable email now window => exact .consume old consumedAt hchange hview
              | _ => exact hchange.elim
          | delete => exact .delete old (by cases w <;> exact hchange) hview
          | reissue => cases w <;> exact hchange.elim
      | visitUnlocked => exact hchange.elim
      | insert => exact hchange.elim
      | create _ key row guard c hcontended hmatching hfresh =>
          obtain ⟨rfl, rfl, hissuing⟩ := hchange
          refine .write t i _ (Table.locked_eq_false.mpr fun w hw =>
            (hfresh (Table.mem_of_pending _ i w hw)).elim) (.issue row hissuing ?_) htable
          intro j r hr hemail
          have hmem := matching_of_version hissuing.ledger.free hcontended hr hemail
          rw [hmatching] at hmem
          cases hmem
      | update _ key row guard c old hcontended hlocked hview hkey hguard =>
          obtain ⟨rfl, rfl, hissuing⟩ := hchange
          have hemail : old.email = row.email := beq_iff_eq.mp hkey
          have hrow : ReadCommitted.Change.apply (EmailOtpChange.reissue row.codeHash row.sentAt
              row.expiresAt row.issuance) old = some row := by
            obtain ⟨-, -, -, hattempts, hverified, hconsumed⟩ := hissuing
            cases row
            simp only at hattempts hverified hconsumed hemail
            simp [ReadCommitted.Change.apply, hattempts, hverified, hconsumed, hemail]
          refine .write t i _ hlocked (.issue row hissuing ?_) (hrow ▸ htable)
          exact fun j r hr heq =>
            hemails j r i old hr (version_of_view hview) (heq.trans hemail.symm)
  | commit t hcommit htable => exact .commit t htable
  | abort t htable => exact .abort t htable

end ExpressCore.Otp
