import ExpressCore.Verification.Account.Requests
import ExpressCore.Verification.Otp.Issuances

/-! # What the calls on codes do -/

namespace ExpressCore.Otp

open ReadCommitted Interleaving Interleaving.Program

variable {setup : Setup} {traced : Prop} {A : Assumption ℕ Request State} {calls : ℕ → Call}
  {exact : Prop} {t : ℕ} {s s' s₀ : State} {K : TableName → Prop}

abbrev rules (setup : Setup) (A : Assumption ℕ Request State) (calls : ℕ → Call) (exact : Prop) :
    Rules ℕ State :=
  keeping setup False (A.within Codes) (guessing setup calls exact)

/-- The thread has compared nothing. -/
def Uncompared (t : ℕ) (s : State) : Prop := ∀ x ∈ s.comparisons, x.1 ≠ t

/-- The thread has compared this code and no other. -/
structure Compared (t issuance : ℕ) (s : State) : Prop where
  this : ∃ x ∈ s.comparisons, x.1 = t ∧ x.2.issuance = issuance
  only : ∀ x ∈ s.comparisons, x.1 = t → x.2.issuance = issuance

theorem firm_uncompared : Firm K setup traced t (Uncompared t) := by
  intro s s' _ _ hmove h x hx
  obtain ⟨new, heq, hnew⟩ := hmove.comparisons
  rcases List.mem_append.mp (heq ▸ hx) with hx | hx
  · exact hnew x hx
  · exact h x hx

theorem firm_compared (issuance : ℕ) : Firm K setup traced t (Compared t issuance) := by
  intro s s' _ _ hmove h
  obtain ⟨new, heq, hnew⟩ := hmove.comparisons
  constructor
  · obtain ⟨x, hx, hissuance⟩ := h.this
    exact ⟨x, heq ▸ List.mem_append_right _ hx, hissuance⟩
  · intro x hx ht
    rcases List.mem_append.mp (heq ▸ hx) with hx | hx
    · exact (hnew x hx ht).elim
    · exact h.only x hx ht

theorem firm_knows {call : Call} (i : ℕ) (r : EmailOtp) :
    Firm K setup traced t (Knows setup call t i r) := by
  rintro s s' - - hmove ⟨rawEmail, code, r₀, hcall, hemail, hcode, hlog, hsame, x, hx, hissuance⟩
  obtain ⟨new, heq, -⟩ := hmove.comparisons
  exact ⟨rawEmail, code, r₀, hcall, hemail, hcode, (hmove.logs .emailOtps).subset hlog, hsame, x,
    heq ▸ List.mem_append_right _ hx, hissuance⟩

theorem firm_ticketed {call : Call} (i : ℕ) (verifiedAt : Time) :
    Firm K setup traced t (Ticketed setup call t i verifiedAt) := by
  rintro s s' hs hs' hmove ⟨u, r, hlog, hverified, hknows⟩
  exact ⟨u, r, (hmove.logs .emailOtps).subset hlog, hverified,
    firm_knows i r s s' hs hs' hmove hknows⟩

theorem firm_drawn (issuance : ℕ) : Firm K setup traced t fun s => (t, issuance) ∈ s.issuances := by
  intro s s' _ _ hmove h
  obtain ⟨new, heq⟩ := hmove.issuances
  exact heq ▸ List.mem_append_right _ h

theorem firm_ledger (done : List (ℕ × Option EmailOtp)) :
    Firm (fun k => k = .emailOtps) setup traced t (Ledger .emailOtps t [] done) :=
  Firm.ledger (K := fun k => k = .emailOtps) rfl _ _

/-! ## Requests that keep to the discipline in every state -/

theorem lets_other {r : Request} (h : r.Neutral (fun k => k = .emailOtps)) :
    (guessing setup calls exact).Lets t r := Discipline.lets_neutral h

theorem lets_complete {db : Client} :
    (guessing setup calls exact).Lets t (.sql (.complete db)) := by
  cases db with
  | tx => exact lets_other trivial
  | prisma => exact Discipline.lets_end (.inr (.inr (.inl rfl))) fun _ => trivial

theorem outbox_lets (a : Access ℕ Outbox OutboxWhere OutboxChange) :
    (outbox a).Uses ((guessing setup calls exact).Lets t) := uses_send.mpr (lets_other nofun)

theorem lets_unwatched (r : Request) (hotps : r.table? ≠ some .emailOtps) (hr : ¬ r.Watched) :
    (guessing setup calls exact).Lets t r := by
  refine fun s => ⟨fun k a hsql hk _ => ?_, fun _ _ _ => trivial, fun h => (hr h).elim⟩
  obtain rfl := hk
  exact (hotps (hsql ▸ rfl)).elim

theorem lets_scan (w : EmailOtpWhere) :
    (guessing setup calls exact).Lets t (.sql (.emailOtps (.scan w))) :=
  Discipline.lets_read (k := .emailOtps) (a := .scan w) not_false

theorem register_lets {userData : RegisterInput} (hcall : calls t = .register userData) :
    (ExpressCore.register setup userData).Uses ((guessing setup calls exact).Lets t) :=
  uses_register (fun r hotps _ hr => lets_unwatched r hotps hr) lets_scan
    (fun i email now window consumedAt => Discipline.lets_access (k := .emailOtps)
      (a := .visit i (.consumable email now window) (.consume consumedAt))
      fun _ _ _ => ⟨userData, hcall⟩)
    (fun _ _ => lets_other nofun) userData

theorem cleanup_lets (hcall : calls t = .cleanup) :
    (cleanupExpiredTokens setup).Uses ((guessing setup calls exact).Lets t) :=
  uses_cleanup (fun r hotps _ hr => lets_unwatched r hotps hr) lets_scan fun i ids =>
    Discipline.lets_access (k := .emailOtps) (a := .visit i (.ids ids) .delete) fun _ _ _ => hcall

/-! ## Sending a code -/

variable {P : State → Prop}

/-- From here on the program keeps to the discipline in every state. -/
theorem lets_meets {α : Type} {p : Service α}
    (hp : p.Uses ((guessing setup calls exact).Lets t)) :
    (rules setup A calls exact).Meets (system setup) (A.within Codes) t (fun _ _ => True)
      (fun _ _ => True) p P := (meets_lets hp).weaken fun _ _ _ => trivial

theorem generateOtpCode_meets (hP : Firm (fun k => k = .emailOtps) setup False t P) :
    (rules setup A calls exact).Meets (system setup) (A.within Codes) t
      (fun code s => (t, code.2) ∈ s.issuances ∧ P s) (fun _ _ => True)
      (request .generateOtpCode) P := by
  have hneutral : Request.generateOtpCode.Neutral fun k => k = .emailOtps := id
  refine Rules.Meets.send hP.stable (keeping_answers (fun _ _ _ _ => guard_of_neutral hneutral)
    fun s o code s' hs _ hpre hexec => ⟨?_, hP s s' hs (hs.exec hexec) (.of_neutral hneutral hexec)
      hpre⟩) fun code => ((firm_drawn code.2).and hP).stable
  simp only [Request.exec] at hexec
  split at hexec <;> cases hexec
  exact .head _

theorem issue_meets {rawEmail : String} (hcall : calls t = .send rawEmail)
    (email codeHash : String) (issuance expiresMinutes cooldownSeconds : ℕ) :
    (rules setup A calls exact).Meets (system setup) (A.within Codes) t (fun _ _ => True)
      (fun _ _ => True) (issue email codeHash issuance expiresMinutes cooldownSeconds)
      fun s => (t, issuance) ∈ s.issuances ∧ Ledger .emailOtps t [] [] s := by
  have hfirm : Firm (fun k => k = .emailOtps) setup False t fun s =>
      (t, issuance) ∈ s.issuances ∧ Ledger .emailOtps t [] [] s :=
    (firm_drawn issuance).and (firm_ledger _)
  have hnow : (statement .now).Uses (Request.Neutral fun k => k = .emailOtps) :=
    uses_send.mpr trivial
  refine neutral_bind hfirm hnow (fun _ _ _ => trivial) fun now => .bind (send_meets
    (k := .emailOtps) hfirm.stable (fun _ => .const True) (fun s _ _ h _ _ => ?_)
    fun _ _ _ _ _ _ _ _ _ _ => trivial) fun row => lets_meets ?_
  · exact ⟨rfl, rfl, ⟨rawEmail, hcall⟩, h.1, h.2, rfl, rfl, rfl⟩
  · exact .bind (uses_send.mpr lets_complete) fun _ => uses_pure _

theorem sendCode_meets {rawEmail : String} (hcall : calls t = .send rawEmail) :
    (rules setup A calls exact).Meets (system setup) (A.within Codes) t (fun _ _ => True)
      (fun _ _ => True) (sendCode setup rawEmail) fun s => Ledger .emailOtps t [] [] s := by
  have hledger : Firm (fun k => k = .emailOtps) setup False t fun s =>
      Ledger .emailOtps t [] [] s := firm_ledger _
  have hfind : (findUserByEmailInsensitive (normalizeEmail rawEmail)).Uses
      (Request.Neutral fun k => k = .emailOtps) :=
    .bind (uses_send.mpr fun h => by cases h) fun _ => uses_pure _
  have hbegin : (statement .begin).Uses (Request.Neutral fun k => k = .emailOtps) :=
    uses_send.mpr trivial
  have hdrawn (issuance : ℕ) : Firm (fun k => k = .emailOtps) setup False t fun s =>
      (t, issuance) ∈ s.issuances ∧ Ledger .emailOtps t [] [] s := (firm_drawn issuance).and hledger
  unfold sendCode
  refine neutral_bind hledger hfind (fun _ _ _ => trivial) fun user => ?_
  split
  · exact .throw (.const True) fun _ _ _ => trivial
  refine .bind (generateOtpCode_meets hledger) fun code => .bind (transaction_meets
    ((meets_neutral (hdrawn code.2) hbegin).mono (fun _ => .refl) fun _ _ _ _ => trivial)
      (.bind (issue_meets hcall _ _ _ _ _) fun fresh =>
        lets_meets ?_) (fun e => lets_meets ?_) fun value => lets_meets ?_)
    fun issued => lets_meets ?_
  · split
    · exact .bind (uses_enqueue (lets_other id) outbox_lets lets_complete _ _ _)
        fun _ => uses_pure _
    · exact uses_pure _
  · exact .bind (uses_send.mpr (Discipline.lets_end (.inr (.inl rfl)) fun _ => trivial))
      fun _ => uses_throw _
  · exact .bind (uses_send.mpr (Discipline.lets_end (.inl rfl) fun _ => trivial))
      fun _ => uses_pure _
  · split
    · exact uses_pure _
    · exact uses_throw _

/-! ## Verifying a code -/

/-- What `reserveAttempt` leaves. -/
def Reserved (email : String) (t : ℕ) : Option ReservedAttempt → State → Prop
  | none, _ => True
  | some attempt, s => Ledger .emailOtps t [] [(attempt.id, some attempt.row)] s ∧
      attempt.row.email = email ∧ attempt.row.consumedAt = none ∧
        attempt.reservedAt < attempt.row.expiresAt

theorem firm_reserved (email : String) (attempt : Option ReservedAttempt) :
    Firm (fun k => k = .emailOtps) setup traced t (Reserved email t attempt) := by
  cases attempt with
  | none => exact .const True
  | some attempt => exact (firm_ledger _).and (.const _)

theorem reserveAttempt_meets {rawEmail code : String} (hcall : calls t = .verify rawEmail code)
    (email : String) :
    (rules setup A calls exact).Meets (system setup) (A.within Codes) t
      (fun attempt s => Reserved email t attempt s ∧ Uncompared t s ∧ Clear t s) (fun _ _ => True)
      (reserveAttempt email setup.env.otpMaxAttempts)
      fun s => Ledger .emailOtps t [] [] s ∧ Uncompared t s ∧ Clear t s := by
  have hfirm {K} : Firm K setup False t fun s => Uncompared t s ∧ Clear t s :=
    firm_uncompared.and .clear
  have hnow : (statement .now).Uses (Request.Neutral fun k => k = .emailOtps) :=
    uses_send.mpr trivial
  have hpost (attempt) : Firm (fun k => k = .emailOtps) setup False t fun s =>
      Reserved email t attempt s ∧ Uncompared t s ∧ Clear t s := (firm_reserved _ _).and hfirm
  refine neutral_bind ((firm_ledger _).and hfirm) hnow (fun _ _ _ => trivial) fun now => .bind
    (changeManyPrisma_meets [] (k := .emailOtps)
      (w := .reservable email now setup.env.otpMaxAttempts)
      (c := .attempt) (Q := fun x => x.2.email = email) (K := fun _ => False)
      (S := fun olds => ∀ x ∈ olds, ∀ y ∈ olds, x.1 = y.1) hfirm
      (fun s i old _ _ _ _ _ hw => ?_) (fun _ _ _ h => h.elim) nofun
      (fun i olds s _ _ _ _ _ _ => ⟨rfl, rawEmail, code, hcall⟩)
      fun olds s _ hA hemails hledger h => ⟨h.2, trivial, fun x hx y hy => ?_⟩)
    fun rows => .pure (hpost _).stable fun s _ h => ?_
  · simp only [Condition.holds, Bool.and_eq_true, beq_iff_eq] at hw
    exact hw.1.1.1
  · have hversion (z : ℕ × EmailOtp) (hz : z ∈ olds) : s.db.emailOtps.Version z.1 z.2 :=
      .inl (hledger.before (z.1, some z.2, _) (List.mem_map_of_mem hz))
    exact hA.2.emails x.1 x.2 y.1 y.2 (hversion x hx) (hversion y hy)
      ((hemails x hx).trans (hemails y hy).symm)
  · obtain ⟨olds, hchanged, hone, hledger, h⟩ := h
    refine ⟨?_, h⟩
    cases olds with
    | nil =>
        rw [hchanged.changed]
        trivial
    | cons x rest =>
        obtain ⟨i, old⟩ := x
        rcases single_of_nodup hchanged.distinct
          (fun y hy => hone y hy (i, old) (.head _)) with hnil | ⟨r, heq⟩
        · cases hnil
        · obtain rfl : rest = [] := (List.cons.inj heq).2
          have hw := hchanged.holds _ (.head _)
          simp only [Condition.holds, Bool.and_eq_true, beq_iff_eq, decide_eq_true_eq,
            Option.isNone_iff_eq_none] at hw
          obtain ⟨⟨⟨hemail, hunconsumed⟩, hunexpired⟩, -⟩ := hw
          rw [hchanged.changed]
          exact ⟨hledger, hemail, hunconsumed, hunexpired⟩

/-- The comparison of a submitted code. -/
theorem compare_meets {rawEmail code : String} (hcall : calls t = .verify rawEmail code)
    {email : String} (attempt : ReservedAttempt) :
    (rules setup A calls exact).Meets (system setup) (A.within Codes) t
      (fun _ s => Compared t attempt.row.issuance s ∧ Reserved email t (some attempt) s ∧
        Clear t s) (fun _ _ => True)
      (request (.otpCodeMatches
        { issuance := attempt.row.issuance, reservedAt := attempt.reservedAt
          expiresAt := attempt.row.expiresAt, unconsumed := attempt.row.consumedAt.isNone }))
      fun s => Reserved email t (some attempt) s ∧ Uncompared t s ∧ Clear t s := by
  have hpre : Firm (fun k => k = .emailOtps) setup False t fun s =>
      Reserved email t (some attempt) s ∧ Uncompared t s ∧ Clear t s :=
    (firm_reserved _ _).and (firm_uncompared.and .clear)
  have hpost : Firm (fun k => k = .emailOtps) setup False t fun s =>
      Compared t attempt.row.issuance s ∧ Reserved email t (some attempt) s ∧ Clear t s :=
    (firm_compared _).and ((firm_reserved _ _).and .clear)
  refine Rules.Meets.send hpre.stable
    (keeping_answers (fun s _ _ h => guard_of_other (fun _ hsql => by cases hsql) fun _ => ?_)
    fun s o _ s' _ _ h hexec => ?_) fun _ => hpost.stable
  · obtain ⟨⟨hledger, -, hunconsumed, hunexpired⟩, huncompared, -⟩ := h
    exact
      { call := ⟨rawEmail, code, hcall⟩
        first := huncompared
        reserved := ⟨attempt.id, attempt.row, hledger, hunconsumed, rfl, rfl⟩
        unexpired := hunexpired
        unconsumed := Option.isNone_iff_eq_none.mpr hunconsumed }
  · cases hexec
    refine ⟨⟨⟨_, .head _, rfl, rfl⟩, fun x hx ht => ?_⟩, h.1, h.2.2⟩
    rcases List.mem_cons.mp hx with rfl | hx
    · rfl
    · exact (h.2.1 x hx ht).elim

/-- The verification that `markVerified` finds is that of a code the call compared. -/
def Current (A : Assumption ℕ Request State) (exact : Prop) : Prop :=
  exact → ∀ t i row s, A.request t (.sql (.emailOtps (.find (.id i)))) s →
    s.db.emailOtps.view t i = some row → row.verifiedAt.isSome = true →
      ∃ x ∈ s.comparisons, x.1 = t ∧ x.2.issuance = row.issuance

/-- The verification time that the call returns a ticket for. -/
def Tells (setup : Setup) (call : Call) (exact : Prop) (t i : ℕ) (verifiedAt : Option Time)
    (s : State) : Prop :=
  ∀ time, verifiedAt = some time → exact → Ticketed setup call t i time s

theorem firm_tells {call : Call} (i : ℕ) (verifiedAt : Option Time) :
    Firm K setup traced t (Tells setup call exact t i verifiedAt) :=
  .forall fun _ => .imp fun _ => .imp fun _ => firm_ticketed _ _

theorem markVerified_meets (hcurrent : Current A exact) (i : ℕ) (r : EmailOtp) :
    (rules setup A calls exact).Meets (system setup) (A.within Codes) t
      (Tells setup (calls t) exact t i) (fun _ _ => True) (markVerified i)
      fun s => Ledger .emailOtps t [] [(i, some r)] s ∧ Knows setup (calls t) t i r s ∧
        Compared t r.issuance s ∧ Clear t s := by
  let P (s : State) : Prop := Knows setup (calls t) t i r s ∧ Compared t r.issuance s ∧ Clear t s
  have hP (K : TableName → Prop) : Firm K setup False t P :=
    (firm_knows i r).and ((firm_compared _).and .clear)
  have hnow : (request .now).Uses (Request.Neutral fun k => k = .emailOtps) := uses_send.mpr id
  refine neutral_bind ((firm_ledger _).and (hP _)) hnow (fun _ _ _ => trivial) fun now => .bind
    (changeManyPrisma_meets _ (k := .emailOtps) (w := .unverified i) (c := .verify now)
      (Q := fun _ => True) (K := fun _ => False) (S := fun _ => True) (hP _)
      (fun _ _ _ _ _ _ _ _ _ => trivial) (fun _ _ _ h => h.elim) nofun
      (fun j olds s _ _ _ _ _ h => ⟨r, h.1, h.2.1.only⟩)
      fun _ _ _ _ _ _ h => ⟨h.2.2, trivial, trivial⟩) fun _ => .seq (fun found s =>
        Tells setup (calls t) exact t i (found.bind fun x => x.2.verifiedAt) s)
      (.exists fun olds => ?_) fun found => .pure (firm_tells (K := fun _ => True) _ _).stable .refl
  let done : List (ℕ × Option EmailOtp) := [(i, some r)] ++
    (entries .emailOtps (.verify now) olds).map fun x => (x.1, x.2.2)
  refine ((find_meets (k := .emailOtps) (w := .id i) (Q := fun x s => exact → ∀ time,
    x.2.verifiedAt = some time → Ticketed setup (calls t) t i time s)
    ((firm_ledger done).and (hP _)) (fun x => .imp fun _ => .forall fun _ => .imp fun _ =>
      firm_ticketed _ _) (fun s x _ hA h hw hview hexact time htime => ?_)).mono
        (fun found s _ h => ?_) fun _ => .refl).weaken fun s _ h => h.2.2
  · obtain rfl : x.1 = i := beq_iff_eq.mp hw
    obtain ⟨hledger, ⟨rawEmail, code, r₀, hcall, hemail, hmatches, hlog, hsame, -⟩, hcompared, -⟩ :=
      h
    have hcommitted : s.db.emailOtps.committed x.1 = some x.2 := by
      rw [← hview]
      exact (Table.view_of_not_pending fun v => hledger.free x.1 v).symm
    obtain ⟨y, hy, ht, hissuance⟩ := hcurrent hexact t x.1 x.2 s hA.1 hview (by simp [htime])
    obtain ⟨u, hlogged⟩ := hA.2.committed hcommitted
    have hcode : SameCode r₀ x.2 := by
      refine (hA.2.same x.1 r₀ x.1 x.2 (.inr ⟨t, hlog⟩) (.inr ⟨u, hlogged⟩) ?_).2
      rw [← hissuance, hcompared.only y hy ht, hsame.issuance]
    have hrow : SameCode r x.2 := hsame.symm.trans hcode
    exact ⟨u, x.2, hlogged, htime, rawEmail, code, r₀, hcall, hrow.email.trans hemail,
      hrow.codeHash ▸ hmatches, hlog, hcode, y, hy, ht, hissuance⟩
  · intro time htime hexact
    obtain ⟨x, rfl, hx⟩ := Option.bind_eq_some_iff.mp htime
    exact (h.1 x rfl).2.1 hexact time hx

theorem verifyCode_meets (hcurrent : Current A exact) {rawEmail code : String}
    (hcall : calls t = .verify rawEmail code) :
    (rules setup A calls exact).Meets (system setup) (A.within Codes) t (fun _ _ => True)
      (fun _ _ => True) (verifyCode setup rawEmail code)
      fun s => Ledger .emailOtps t [] [] s ∧ Uncompared t s ∧ Clear t s := by
  have hstop (e : Error) (P : State → Prop) : (rules setup A calls exact).Meets (system setup)
      (A.within Codes) t (fun _ _ => True) (fun _ _ => True) (throw e : Service String) P :=
    .throw (.const True) fun _ _ _ => trivial
  unfold verifyCode
  refine .bind (reserveAttempt_meets hcall _) fun attempt => ?_
  split
  · refine lets_meets (.bind (uses_send.mpr (lets_other fun _ => id)) fun row => .bind
      (uses_send.mpr (lets_other id)) fun now => ?_)
    split <;> exact uses_throw _
  rename_i attempt
  refine .bind (compare_meets hcall attempt) fun _ => ?_
  split
  · exact hstop _ _
  rename_i hmatches
  have hmatches : otpCodeMatches setup (normalizeEmail rawEmail) code attempt.row.codeHash =
      true := by
    simpa using hmatches
  have hknows (s : State) (h : Reserved (normalizeEmail rawEmail) t (some attempt) s)
      (hcompared : Compared t attempt.row.issuance s) :
      Knows setup (calls t) t attempt.id attempt.row s :=
    ⟨rawEmail, code, attempt.row, hcall, h.2.1, hmatches, (h.1.past _ _).mpr (.head _), .refl _,
      hcompared.this⟩
  have hticket (verifiedAt : Option Time) : (rules setup A calls exact).Meets (system setup)
      (A.within Codes) t (fun _ _ => True) (fun _ _ => True) (ticketFor setup attempt.id verifiedAt)
      (Tells setup (calls t) exact t attempt.id verifiedAt) := by
    cases verifiedAt with
    | none => exact hstop _ _
    | some time =>
        exact .bind (Rules.Meets.send (firm_tells (K := fun _ => True) _ _).stable
          (keeping_answers (fun s _ _ h => guard_of_other (fun _ hsql => by cases hsql) fun _ =>
            h time rfl) fun _ _ _ _ _ _ _ _ => trivial) fun _ => .const True)
          fun _ => .pure (.const True) fun _ _ _ => trivial
  dsimp only
  split
  · rename_i time htime
    refine .bind (.pure (firm_tells (K := fun _ => True) _ _).stable fun s _ h => ?_) hticket
    rintro time' heq -
    obtain rfl := Option.some.inj heq
    exact ⟨t, attempt.row, (h.2.1.1.past _ _).mpr (.head _), htime, hknows s h.2.1 h.1⟩
  · exact .bind ((markVerified_meets hcurrent attempt.id attempt.row).weaken fun s _ h =>
      ⟨h.2.1.1, hknows s h.2.1 h.1, h.1, h.2.2⟩) hticket

end ExpressCore.Otp
