import ExpressCore.Verification.Otp.Attempts
import ExpressCore.Verification.Otp.Redemption
import ExpressCore.Verification.System.Characters

/-! # Accounts that are registered with a ticket

A registration commits a user together with the consumption of a verification of its address. A
second registration for the address would need another verification, and it has looked for the
first account after that verification was made. -/

namespace ExpressCore.Enrollment

open ReadCommitted Interleaving Interleaving.Program

variable {setup : Setup} {traced : Prop} {A : Assumption ℕ Request State} {calls : ℕ → Otp.Call}
  {t : ℕ} {s s' s₀ : State} {K : TableName → Prop}

/-! ## Addresses -/

theorem isSpace_of_isAlpha {c : Char} (h : c.isAlpha = true) : isSpace c = false :=
  isSpace_of_isWord (by simp [isWord, Char.isAlphanum, h])

theorem isSpace_toLower (c : Char) : isSpace c.toLower = isSpace c := by
  by_cases hupper : c.val ≥ 'A'.val ∧ c.val ≤ 'Z'.val
  · have hc := isUpper_iff.mp (decide_eq_true hupper)
    have hsmall : c.toNat + 32 < 4294967296 := by omega
    have hsum : c.toLower.toNat = (c.val + 32).toNat := congrArg Char.toNat (dif_pos hupper)
    have hlower : c.toLower.isLower = true := by
      rw [isLower_iff, hsum, UInt32.toNat_add]
      have hval : (c.val.toNat + (32 : UInt32).toNat) % 4294967296 = c.toNat + 32 :=
        Nat.mod_eq_of_lt hsmall
      omega
    rw [isSpace_of_isAlpha (by simp [isAlpha_eq, hlower]),
      isSpace_of_isAlpha (by simp [isAlpha_eq, isUpper_iff.mpr hc])]
  · have hsame : c.toLower = c := dif_neg hupper
    rw [hsame]

theorem dropSpace_map (s : List Char) :
    (s.map Char.toLower).dropWhile isSpace = (s.dropWhile isSpace).map Char.toLower := by
  rw [List.dropWhile_map]
  congr 2
  exact funext isSpace_toLower

/-- Codes are sent to one row for all spellings of an address that differ in case only. -/
theorem normalizeEmail_of_lower {a b : String} (h : lower a = lower b) :
    normalizeEmail a = normalizeEmail b := by
  have hchars : a.toList.map Char.toLower = b.toList.map Char.toLower := String.ofList_inj.mp h
  have htrim (s : List Char) : ((s.dropWhile isSpace).reverse.dropWhile isSpace).reverse.map
      Char.toLower = (((s.map Char.toLower).dropWhile isSpace).reverse.dropWhile
        isSpace).reverse := by
    rw [dropSpace_map, ← List.map_reverse, dropSpace_map, List.map_reverse]
  simp only [normalizeEmail, lower, String.toList_ofList, htrim, hchars]

/-! ## The discipline -/

/-- Tickets are presented once they were returned, and a row is verified at a time that it was
not verified at before. -/
def presented (setup : Setup) (calls : ℕ → Otp.Call) : Assumption ℕ Request State where
  request t r s :=
    (∀ userData ticket, calls t = .register userData → userData.registrationToken = some ticket →
      ∀ i v, ticket = registrationTicket setup i v → ∃ u, (u, i, v) ∈ s.tickets) ∧
    ∀ i w time row, r = .sql (.emailOtps (.visit i w (.verify time))) →
      s.db.emailOtps.view t i = some row → row.verifiedAt = none →
        ∀ r', s.db.emailOtps.Record i r' → r'.verifiedAt ≠ some time
  move _ _ := True

/-- No account has the address, whatever the case of its letters. -/
def NoAccount (email : String) (T : Table ℕ ℕ User) : Prop :=
  ∀ i r, T.committed i = some r → r.deletedAt = none → r.email.map lower ≠ some (lower email)

/-- The row that a registration consumes, with its ticket. -/
structure Redeems (setup : Setup) (userData : RegisterInput) (i : ℕ) (v : Time) (r : EmailOtp) :
    Prop where
  email : r.email = normalizeEmail userData.email
  verifiedAt : r.verifiedAt = some v
  ticket : userData.registrationToken = some (registrationTicket setup i v)
  consumed : ∃ now, r.consumedAt = some now ∧ now < v + setup.env.otpVerifiedWindowMinutes * 60000

/-- The registration is about to commit the consumption of a ticket that was returned. -/
def Redeeming (setup : Setup) (userData : RegisterInput) (t : ℕ) (s : State) : Prop :=
  ∃ i v r, s.db.emailOtps.pending i = some (t, some r) ∧ Redeems setup userData i v r ∧
    ∃ u, (u, i, v) ∈ s.tickets

/-- What the accesses to the codes are good for. -/
def change (t : ℕ) : Access ℕ EmailOtp EmailOtpWhere EmailOtpChange → State → Prop
  | .visit _ (.reservable _ _ _) .attempt, _ => True
  | .visit _ (.unverified _) (.verify _), _ => True
  | .visit _ (.consumable _ _ _) (.consume _), _ => True
  | .visit _ _ .delete, _ => True
  | .upsert key row _ c, s => key = .email row.email ∧
      c = .reissue row.codeHash row.sentAt row.expiresAt row.issuance ∧ row.attempts = 0 ∧
        row.verifiedAt = none ∧ row.consumedAt = none ∧ s.db.emailOtps.Free t
  | _, _ => False

/-- Users are inserted by registrations, and committed with a consumption of a verification while
the address has no account. -/
def enrolling (setup : Setup) (calls : ℕ → Otp.Call) : Discipline where
  tables k := k = .emailOtps ∨ k = .users
  change t k a s :=
    match k, a with
    | .emailOtps, a => change t a s
    | .users, .insert row =>
        ∃ userData, calls t = .register userData ∧ row.email = some userData.email
    | .users, _ => False
    | _, _ => True
  commit t s := ∀ userData i v, calls t = .register userData →
    s.db.users.pending i = some (t, v) → Redeeming setup userData t s ∧
      NoAccount userData.email s.db.users ∧ ∀ j w, s.db.users.pending j = some (t, w) → j = i
  other _ r s :=
    match r with
    | .ticketReturned i v => Recorded s.db.emailOtps i v
    | _ => True
  commit_free _ _ h _ i v _ hv := (h .users (.inr rfl) i v hv).elim

theorem rewrite_of_wrote {a : Access ℕ EmailOtp EmailOtpWhere EmailOtpChange} {i : ℕ}
    {v : Option EmailOtp} (hemails : Otp.UniqueEmails s.db.emailOtps)
    (hchange : change t a s) (hA : (presented setup calls).request t (.sql (.emailOtps a)) s)
    (hwrote : a.Wrote t s.db.emailOtps i v) :
    s.db.emailOtps.locked t i = false ∧ Rewrite s.db.emailOtps t i v := by
  cases hwrote with
  | visit _ w c old hlocked hview hw =>
      refine ⟨hlocked, ?_⟩
      cases c with
      | attempt =>
          cases w with
          | reservable email now maxAttempts =>
              refine .attempt old hview ?_
              simp only [Condition.holds, Bool.and_eq_true, Option.isNone_iff_eq_none] at hw
              exact hw.1.1.2
          | _ => exact hchange.elim
      | verify time =>
          cases w with
          | unverified j =>
              simp only [Condition.holds, Bool.and_eq_true, Option.isNone_iff_eq_none] at hw
              exact .verify old time hview (hA.2 i _ time old rfl hview hw.2)
          | _ => exact hchange.elim
      | consume now =>
          cases w with
          | consumable email now' window =>
              refine .consume old now hview ?_
              simp only [Condition.holds, Bool.and_eq_true, Option.isNone_iff_eq_none] at hw
              exact hw.1.2
          | _ => exact hchange.elim
      | delete => exact .delete
      | reissue => cases w <;> exact hchange.elim
  | visitUnlocked => exact hchange.elim
  | insert => exact hchange.elim
  | create _ key row guard c hcontended hmatching hfresh =>
      obtain ⟨rfl, rfl, -, hverified, hconsumed, hfree⟩ := hchange
      refine ⟨Table.locked_eq_false.mpr fun w hw => (hfresh (Table.mem_of_pending _ i w hw)).elim,
        .issue row hverified hconsumed fun j r hr hemail => ?_⟩
      have hmem := Otp.matching_of_version hfree hcontended hr hemail
      rw [hmatching] at hmem
      cases hmem
  | update _ key row guard c old hcontended hlocked hview hkey hguard =>
      obtain ⟨rfl, rfl, hattempts, hverified, hconsumed, hfree⟩ := hchange
      have hemail : old.email = row.email := beq_iff_eq.mp hkey
      have hrow : ReadCommitted.Change.apply (EmailOtpChange.reissue row.codeHash row.sentAt
          row.expiresAt row.issuance) old = some row := by
        cases row
        simp only at hattempts hverified hconsumed hemail
        simp [ReadCommitted.Change.apply, hattempts, hverified, hconsumed, hemail]
      refine ⟨hlocked, hrow ▸ .issue row hverified hconsumed fun j r hr heq => ?_⟩
      exact hemails j r i old hr (version_of_view hview) (heq.trans hemail.symm)

/-! ## The invariant -/

/-- The consumption that an account was committed with. -/
def Redeemed (setup : Setup) (userData : RegisterInput) (t : ℕ) (s : State) : Prop :=
  ∃ i v r, (t, i, some r) ∈ s.db.emailOtps.log ∧ Redeems setup userData i v r ∧
    ∃ u, (u, i, v) ∈ s.tickets

/-- No two accounts have one address, whatever the case of its letters. -/
def OneAccount (T : Table ℕ ℕ User) : Prop :=
  ∀ i r j r' email, T.committed i = some r → T.committed j = some r' → r.deletedAt = none →
    r'.deletedAt = none → r.email.map lower = some (lower email) →
      r'.email.map lower = some (lower email) → i = j

/-- What is stored of accounts and of the verifications they were registered with. -/
structure Enrolled (setup : Setup) (calls : ℕ → Otp.Call) (s : State) : Prop where
  spending : Spending s.db.emailOtps
  tickets : ∀ t i v, (t, i, v) ∈ s.tickets → Recorded s.db.emailOtps i v
  held : ∀ i t v, s.db.users.pending i = some (t, v) → ∃ userData r,
    calls t = .register userData ∧ v = some r ∧ r.email = some userData.email
  accounts : OneAccount s.db.users
  registered : ∀ t i v, (t, i, v) ∈ s.db.users.log → ∃ userData r,
    calls t = .register userData ∧ v = some r ∧ r.email = some userData.email ∧
      Redeemed setup userData t s

/-- A step of a run. -/
abbrev Step (setup : Setup) (calls : ℕ → Otp.Call) (s s' : State) : Prop :=
  Event setup ((presented setup calls).within (Enrolled setup calls)) (enrolling setup calls) s s'

/-- What a step does to the codes. -/
inductive CodeStep (s : State) (T : Table ℕ ℕ EmailOtp) : Prop where
  | same : T.committed = s.db.emailOtps.committed → T.pending = s.db.emailOtps.pending →
      T.log = s.db.emailOtps.log → CodeStep s T
  | write (t i : ℕ) (v : Option EmailOtp) : s.db.emailOtps.locked t i = false →
      Rewrite s.db.emailOtps t i v → T = s.db.emailOtps.write t i v → CodeStep s T
  | commit (t : ℕ) : T = s.db.emailOtps.commit t → CodeStep s T
  | abort (t : ℕ) : T = s.db.emailOtps.abort t → CodeStep s T

theorem codeStep (h : Step setup calls s s') : CodeStep s s'.db.emailOtps := by
  have hon := h.on .emailOtps
  simp only [TableName.table] at hon
  cases hon with
  | same hcommitted hpending hlog => exact .same hcommitted hpending hlog
  | write t a i v hchange hA hwrote htable =>
      have hchange : change t a s := hchange (.inl rfl)
      obtain ⟨hlocked, hrewrite⟩ := rewrite_of_wrote hA.2.spending.emails hchange hA.1 hwrote
      exact .write t i v hlocked hrewrite htable
  | commit t hcommit htable => exact .commit t htable
  | abort t htable => exact .abort t htable

theorem Spending.step (h : Spending s.db.emailOtps) (hstep : Step setup calls s s') :
    Spending s'.db.emailOtps := by
  cases codeStep hstep with
  | same hcommitted hpending hlog => exact h.congr hcommitted hlog fun i w hw => hpending ▸ hw
  | write t i v hlocked hrewrite htable => exact htable ▸ h.write hlocked hrewrite
  | commit t htable => exact htable ▸ h.commit
  | abort t htable => exact htable ▸ h.abort

theorem Exhausted.step {email : String} {i : ℕ} {v : Time}
    (h : Exhausted s.db.emailOtps email i v) (hrecorded : Recorded s.db.emailOtps i v)
    (hstep : Step setup calls s s') : Exhausted s'.db.emailOtps email i v := by
  cases codeStep hstep with
  | same hcommitted hpending hlog =>
      refine h.of_fewer fun r hr => ?_
      rwa [Table.Version, hcommitted, hpending] at hr
  | write t j v hlocked hrewrite htable => exact htable ▸ h.write hrecorded hrewrite
  | commit t htable => exact htable ▸ h.of_fewer fun _ => version_of_commit
  | abort t htable => exact htable ▸ h.of_fewer fun _ => version_of_abort

/-! ## Users -/

/-- What a thread that commits a user has made sure of. -/
structure Committing (setup : Setup) (calls : ℕ → Otp.Call) (t i : ℕ) (v : Option User)
    (userData : RegisterInput) (s : State) : Prop where
  call : calls t = .register userData
  row : ∃ r, v = some r ∧ r.email = some userData.email
  redeeming : Redeeming setup userData t s
  free : NoAccount userData.email s.db.users
  only : ∀ j w, s.db.users.pending j = some (t, w) → j = i

theorem Enrolled.committing {i : ℕ} {v : Option User} (h : Enrolled setup calls s)
    (hcommit : (enrolling setup calls).commit t s) (hv : s.db.users.pending i = some (t, v)) :
    ∃ userData, Committing setup calls t i v userData s := by
  obtain ⟨userData, r, hcall, rfl, hemail⟩ := h.held i t v hv
  obtain ⟨hredeeming, hfree, honly⟩ := hcommit userData i _ hcall hv
  exact ⟨userData, hcall, ⟨r, rfl, hemail⟩, hredeeming, hfree, honly⟩

theorem Redeemed.mono {userData : RegisterInput} (h : Redeemed setup userData t s)
    (hlog : s.db.emailOtps.log <+: s'.db.emailOtps.log) (htickets : s.tickets ⊆ s'.tickets) :
    Redeemed setup userData t s' := by
  obtain ⟨i, v, r, hr, hredeems, u, hu⟩ := h
  exact ⟨i, v, r, hlog.subset hr, hredeems, u, htickets hu⟩

theorem held_step {i : ℕ} {v : Option User} (h : Enrolled setup calls s)
    (hstep : Step setup calls s s') (hv : s'.db.users.pending i = some (t, v)) :
    ∃ userData r, calls t = .register userData ∧ v = some r ∧ r.email = some userData.email := by
  have hon := hstep.on .users
  simp only [TableName.table] at hon
  cases hon with
  | same hcommitted hpending hlog => exact h.held i t v (hpending ▸ hv)
  | write u a j w hchange hA hwrote htable =>
      have hchange := hchange (.inr rfl)
      rw [htable] at hv
      rcases Table.write_pending hv with ⟨rfl, heq⟩ | ⟨-, hv⟩
      · obtain ⟨rfl, rfl⟩ := Prod.mk.inj heq
        cases hwrote with
        | insert _ row hfresh =>
            obtain ⟨userData, hcall, hemail⟩ := hchange
            exact ⟨userData, row, hcall, rfl, hemail⟩
        | _ => exact hchange.elim
      · exact h.held i t v hv
  | commit u hcommit htable => exact h.held i t v (Table.commit_pending.mp (htable ▸ hv)).1
  | abort u htable => exact h.held i t v (Table.abort_pending.mp (htable ▸ hv)).1

/-- A commit makes at most one account, for an address that had none. -/
theorem OneAccount.commit (h : Enrolled setup calls s)
    (hcommit : (enrolling setup calls).commit t s) : OneAccount (s.db.users.commit t) := by
  have hnew {i j : ℕ} {r r' : User} {email : String}
      (hr : s.db.users.pending i = some (t, some r)) (hr' : s.db.users.committed j = some r')
      (hactive : r'.deletedAt = none) (hemail : r.email.map lower = some (lower email))
      (hemail' : r'.email.map lower = some (lower email)) : False := by
    obtain ⟨userData, -, ⟨row, hrow, heq⟩, -, hfree, -⟩ := h.committing hcommit hr
    cases hrow
    rw [heq, Option.map_some] at hemail
    exact hfree j r' hr' hactive (hemail'.trans hemail.symm)
  intro i r j r' email hr hr' hactive hactive' hemail hemail'
  rcases Table.commit_committed_eq_some hr with hr | ⟨hr, -⟩ <;>
    rcases Table.commit_committed_eq_some hr' with hr' | ⟨hr', -⟩
  · obtain ⟨userData, hcommitting⟩ := h.committing hcommit hr'
    exact hcommitting.only i _ hr
  · exact (hnew hr hr' hactive' hemail hemail').elim
  · exact (hnew hr' hr hactive hemail' hemail).elim
  · exact h.accounts i r j r' email hr hr' hactive hactive' hemail hemail'

theorem tickets_step (h : Enrolled setup calls s) (hstep : Step setup calls s s') :
    s.tickets ⊆ s'.tickets ∧
      ∀ t i v, (t, i, v) ∈ s'.tickets → Recorded s'.db.emailOtps i v := by
  have hlog : s.db.emailOtps.log <+: s'.db.emailOtps.log := Otp.log_of_event hstep .emailOtps
  rcases (Otp.recorded_of_event hstep).2 with heq | ⟨u, j, time, hother, heq⟩
  · exact ⟨by simp [heq], fun t i v hv => (h.tickets t i v (heq ▸ hv)).mono hlog⟩
  · refine ⟨by simp [heq], fun t i v hv => ?_⟩
    rw [heq] at hv
    rcases List.mem_cons.mp hv with hnew | hv
    · cases hnew
      exact Recorded.mono hother hlog
    · exact (h.tickets t i v hv).mono hlog

theorem Enrolled.step (h : Enrolled setup calls s) (hstep : Step setup calls s s') :
    Enrolled setup calls s' := by
  have hlog : s.db.emailOtps.log <+: s'.db.emailOtps.log := Otp.log_of_event hstep .emailOtps
  obtain ⟨htickets, hrecorded⟩ := tickets_step h hstep
  have hold (t i : ℕ) (v : Option User) (hv : (t, i, v) ∈ s.db.users.log) : ∃ userData r,
      calls t = .register userData ∧ v = some r ∧ r.email = some userData.email ∧
        Redeemed setup userData t s' := by
    obtain ⟨userData, r, hcall, hrow, hemail, hredeemed⟩ := h.registered t i v hv
    exact ⟨userData, r, hcall, hrow, hemail, hredeemed.mono hlog htickets⟩
  refine ⟨Spending.step h.spending hstep, hrecorded, fun i t v hv => held_step h hstep hv, ?_, ?_⟩
  · rcases hstep.settled with ⟨t, hcommit, htables⟩ | hsettled
    · have husers : s'.db.users = s.db.users.commit t := htables .users
      exact husers ▸ OneAccount.commit h hcommit
    · have hcommitted : s'.db.users.committed = s.db.users.committed := (hsettled .users).1
      unfold OneAccount
      rw [hcommitted]
      exact h.accounts
  · rcases hstep.settled with ⟨t, hcommit, htables⟩ | hsettled
    · intro u i v hv
      have husers : s'.db.users = s.db.users.commit t := htables .users
      have hotps : s'.db.emailOtps = s.db.emailOtps.commit t := htables .emailOtps
      rw [husers] at hv
      rcases List.mem_append.mp hv with hv | hv
      · exact hold u i v hv
      · obtain ⟨rfl, hv⟩ := Table.mem_writes.mp hv
        obtain ⟨userData, hcall, ⟨r, hrow, hemail⟩, ⟨j, time, row, hpending, hredeems, w, hw⟩, -⟩ :=
          h.committing hcommit hv
        refine ⟨userData, r, hcall, hrow, hemail, j, time, row, ?_, hredeems, w, htickets hw⟩
        rw [hotps, Table.commit_log]
        exact List.mem_append_right _ (Table.mem_writes.mpr ⟨rfl, hpending⟩)
    · intro u i v hv
      have hlogged : s'.db.users.log = s.db.users.log := (hsettled .users).2
      exact hold u i v (hlogged ▸ hv)

/-! ## What a registration may rely on -/

/-- The ticket of the registration is for a verification made before, and the address had no
account then or that verification is used up by now. -/
structure Prepared (setup : Setup) (userData : RegisterInput) (s : State) : Prop where
  known : ∀ i v, userData.registrationToken = some (registrationTicket setup i v) →
    Recorded s.db.emailOtps i v
  alone : NoAccount userData.email s.db.users ∨
    ∀ i v, userData.registrationToken = some (registrationTicket setup i v) →
      Exhausted s.db.emailOtps (normalizeEmail userData.email) i v

variable {userData : RegisterInput}

theorem Prepared.of_fewer (h : Prepared setup userData s)
    (hcommitted : s'.db.users.committed = s.db.users.committed)
    (hlog : s.db.emailOtps.log <+: s'.db.emailOtps.log)
    (hfewer : ∀ i r, s'.db.emailOtps.Version i r → s.db.emailOtps.Version i r) :
    Prepared setup userData s' := by
  refine ⟨fun i v htoken => (h.known i v htoken).mono hlog, h.alone.imp (fun hnone => ?_)
    fun hspent i v htoken => (hspent i v htoken).of_fewer (hfewer i)⟩
  unfold NoAccount
  rw [hcommitted]
  exact hnone

/-- Another account of the address is committed together with the consumption of what the ticket
could be for. -/
theorem Prepared.commit (h : Enrolled setup calls s)
    (hcommit : (enrolling setup calls).commit t s) (hnone : NoAccount userData.email s.db.users) :
    NoAccount userData.email (s.db.users.commit t) ∨
      ∀ i v, Exhausted (s.db.emailOtps.commit t) (normalizeEmail userData.email) i v := by
  by_cases hsame : ∃ i v other, s.db.users.pending i = some (t, v) ∧
      Committing setup calls t i v other s ∧ lower other.email = lower userData.email
  · obtain ⟨j, w, other, -, hcommitting, hlower⟩ := hsame
    obtain ⟨k, time, row, hpending, hredeems, -⟩ := hcommitting.redeeming
    have hemail : row.email = normalizeEmail userData.email :=
      hredeems.email.trans (normalizeEmail_of_lower hlower)
    obtain ⟨now, hconsumed, -⟩ := hredeems.consumed
    refine .inr fun i v r hr heq hverified => ?_
    obtain rfl : i = k := h.spending.emails i r k row (version_of_commit hr) (.inr ⟨t, hpending⟩)
      (heq.trans hemail.symm)
    exact exhausted_of_commit hpending (by simp [hconsumed]) r hr heq hverified
  · refine .inl fun i r hr hactive hemail => ?_
    rcases Table.commit_committed_eq_some hr with hr | ⟨hr, -⟩
    · obtain ⟨other, hcommitting⟩ := h.committing hcommit hr
      obtain ⟨row, hrow, heq⟩ := hcommitting.row
      cases hrow
      rw [heq, Option.map_some] at hemail
      exact hsame ⟨i, _, other, hr, hcommitting, Option.some.inj hemail⟩
    · exact hnone i r hr hactive hemail

theorem Prepared.step (h : Prepared setup userData s) (hinv : Enrolled setup calls s)
    (hstep : Step setup calls s s') : Prepared setup userData s' := by
  have hlog : s.db.emailOtps.log <+: s'.db.emailOtps.log := Otp.log_of_event hstep .emailOtps
  refine ⟨fun i v htoken => (h.known i v htoken).mono hlog, ?_⟩
  rcases h.alone with hnone | hspent
  · rcases hstep.settled with ⟨t, hcommit, htables⟩ | hsettled
    · have husers : s'.db.users = s.db.users.commit t := htables .users
      have hotps : s'.db.emailOtps = s.db.emailOtps.commit t := htables .emailOtps
      rw [husers, hotps]
      exact (Prepared.commit hinv hcommit hnone).imp_right fun hspent i v _ => hspent i v
    · have hcommitted : s'.db.users.committed = s.db.users.committed := (hsettled .users).1
      unfold NoAccount
      rw [hcommitted]
      exact .inl hnone
  · exact .inr fun i v htoken => Exhausted.step (hspent i v htoken) (h.known i v htoken) hstep

/-- The registration that has locked a code that its ticket is for may go on: the address has no
account. -/
theorem Prepared.free {i : ℕ} {v : Time} {old : EmailOtp} (h : Prepared setup userData s)
    (hold : s.db.emailOtps.committed i = some old)
    (hemail : old.email = normalizeEmail userData.email) (hverified : old.verifiedAt = some v)
    (hunconsumed : old.consumedAt = none)
    (htoken : userData.registrationToken = some (registrationTicket setup i v)) :
    NoAccount userData.email s.db.users := by
  refine h.alone.resolve_right fun hspent => ?_
  have hconsumed := hspent i v htoken old (.inl hold) hemail hverified
  simp [hunconsumed] at hconsumed

end ExpressCore.Enrollment
