import ExpressCore.Verification.Otp.Enrollment
import ExpressCore.Verification.Otp.Tickets
import ExpressCore.Verification.Otp.Verified
import ExpressCore.Verification.Session.Successors

/-! # One account for an address -/

namespace ExpressCore.Enrollment

open ReadCommitted Interleaving Interleaving.Program

variable {setup : Setup} {calls : ℕ → Otp.Call} {t : ℕ} {s s' s₀ : State}
  {userData : RegisterInput}

abbrev running (setup : Setup) (calls : ℕ → Otp.Call) : Assumption ℕ Request State :=
  (presented setup calls).within (Enrolled setup calls)

abbrev rules (setup : Setup) (calls : ℕ → Otp.Call) : Rules ℕ State :=
  keeping setup False (running setup calls) (enrolling setup calls)

/-- The tables that the discipline is about. -/
abbrev Kept (k : TableName) : Prop := k = .emailOtps ∨ k = .users

/-! ## What stays -/

theorem prepared_of_performs {u : ℕ} (h : Prepared setup userData s)
    (hperforms : (system setup).Performs (fun u r s => (enrolling setup calls).guard u r s ∧
      (running setup calls).request u r s) u s s') : Prepared setup userData s' := by
  rcases hperforms with ⟨r, o, reply, hr, hexec⟩ | rfl
  · exact h.step hr.2.2 (.of_performs (.inl ⟨r, o, reply, hr, hexec⟩))
  · have htable (k : TableName) : k.table (s.db.abortAll u) = (k.table s.db).abort u :=
      Db.table_abortAll k
    have husers : (s.db.abortAll u).users = s.db.users.abort u := htable .users
    have hotps : (s.db.abortAll u).emailOtps = s.db.emailOtps.abort u := htable .emailOtps
    refine h.of_fewer ?_ ?_ fun i r hr => ?_
    · exact (congrArg (·.committed) husers).trans rfl
    · exact ((congrArg (·.log) hotps).trans rfl) ▸ List.prefix_refl _
    · exact version_of_abort (hotps ▸ hr)

theorem prepared_stable : (rules setup calls).Stable t (Prepared setup userData) := by
  intro s s' _ _ hmove h
  rcases hmove.1 with ⟨u, -, hperforms⟩ | ⟨o, hmove, -⟩
  · exact prepared_of_performs h hperforms
  · have hdb : s'.db = s.db := (move_exec hmove).1
    exact h.of_fewer (by rw [hdb]) (hdb ▸ List.prefix_refl _) fun i r hr => hdb ▸ hr

/-- A part of a registration after it has looked for the account. -/
theorem prepared_frame {α : Type} {p : Service α} {pre : State → Prop}
    {post : α → State → Prop} {err : Error → State → Prop}
    (h : (rules setup calls).Meets (system setup) (running setup calls) t post err p pre) :
    (rules setup calls).Meets (system setup) (running setup calls) t
      (fun value s => post value s ∧ Prepared setup userData s)
      (fun e s => err e s ∧ Prepared setup userData s) p
      fun s => pre s ∧ Prepared setup userData s :=
  h.frame prepared_stable fun _ _ _ hperforms hprepared => prepared_of_performs hprepared hperforms

/-! ## Registration -/

/-- The rows that a registration has consumed, and the ticket for one of them. -/
def Redemption (setup : Setup) (userData : RegisterInput) (now : Time)
    (olds : List (ℕ × EmailOtp)) : Prop :=
  ∃ i v old, (i, old) ∈ olds ∧ old.consumedAt = none ∧
    Redeems setup userData i v { old with consumedAt := some now }

theorem consume_meets (email : String) (windowMinutes : ℕ) :
    (rules setup calls).Meets (system setup) (running setup calls) t
      (fun row s => ∃ now olds rows, Changed .emailOtps
          (.consumable email now (windowMinutes * 60 * 1000)) (.consume now) (fun _ => True) olds
          rows ∧ row = rows.head? ∧
          Ledger .emailOtps t (entries .emailOtps (.consume now) olds) [] s ∧ Clear t s ∧
          Ledger .users t [] [] s)
      (fun _ s => Quiet Kept t s ∧ True) (consume email windowMinutes)
      fun s => Clear t s ∧ Fresh Kept t s := by
  have hnow : (statement .now).Uses (Request.Neutral Kept) := uses_send.mpr trivial
  refine neutral_bind (Firm.clear.and .fresh) hnow
    (fun _ s h => ⟨quiet_of_fresh h.2, trivial⟩) fun now => ?_
  refine .bind ((changeMany_meets [] (k := .emailOtps) (c := .consume now)
    (w := .consumable email now (windowMinutes * 60 * 1000)) (Q := fun _ => True)
    (P := fun s => Clear t s ∧ Ledger .users t [] [] s)
    (Firm.clear.and (Firm.ledger (by simp) _ _)) (fun _ _ _ _ _ _ _ _ _ => trivial)
    fun _ _ _ _ _ _ _ _ _ => trivial).weaken fun s _ h => ?_) fun rows => ?_
  · exact ⟨h.2 .emailOtps (.inl rfl), h.1, h.2 .users (.inr rfl)⟩
  · refine .pure (Firm.stable (K := fun _ => True) ?_) fun s _ h => ?_
    · exact .exists fun _ => .exists fun _ => .exists fun _ => (Firm.const _).and
        ((Firm.const _).and ((Firm.ledger trivial _ _).and
          (Firm.clear.and (Firm.ledger trivial _ _))))
    · obtain ⟨olds, hchanged, hledger, hrest⟩ := h
      exact ⟨now, olds, rows, hchanged, rfl, hledger, hrest⟩

/-- What a registration holds when it has redeemed its ticket. -/
def Holding (setup : Setup) (userData : RegisterInput) (t : ℕ) (s : State) : Prop :=
  Clear t s ∧ ∃ now olds, Redemption setup userData now olds ∧
    Ledger .emailOtps t (entries .emailOtps (.consume now) olds) [] s

theorem firm_holding {K : TableName → Prop} (hK : K .emailOtps) :
    Firm K setup False t (Holding setup userData t) :=
  Firm.clear.and (.exists fun _ => .exists fun _ => (Firm.const _).and (Firm.ledger hK _ _))

theorem consumeForRegistration_meets :
    (rules setup calls).Meets (system setup) (running setup calls) t
      (fun _ s => Holding setup userData t s ∧ Ledger .users t [] [] s)
      (fun _ s => Quiet Kept t s ∧ True)
      (consumeForRegistration setup userData.email userData.registrationToken)
      fun s => Clear t s ∧ Fresh Kept t s := by
  have hstop (e : Error) (P : State → Prop) (hP : ∀ s, P s → Quiet Kept t s) :
      (rules setup calls).Meets (system setup) (running setup calls) t
        (fun _ s => Holding setup userData t s ∧ Ledger .users t [] [] s)
        (fun _ s => Quiet Kept t s ∧ True) (throw e : Service Unit) P :=
    .throw (Firm.quiet.and (Firm.const True)).stable fun s _ h => ⟨hP s h, trivial⟩
  unfold consumeForRegistration
  split
  · exact hstop _ _ fun s h => quiet_of_fresh h.2
  rename_i ticket hticket
  have htoken : userData.registrationToken = some ticket :=
    (Option.filter_eq_some_iff.mp hticket).1
  refine .bind (consume_meets _ _) fun consumed => ?_
  split
  · rename_i hmatches
    refine .pure ((firm_holding (K := fun _ => True) trivial).and
      (Firm.ledger trivial _ _)).stable fun s _ h => ?_
    obtain ⟨now, olds, rows, hchanged, hhead, hledger, hclear, husers⟩ := h
    refine ⟨⟨hclear, now, olds, ?_, hledger⟩, husers⟩
    obtain ⟨x, hx, hany⟩ := (Option.any_eq_true _ _).mp hmatches
    obtain ⟨v, hv, hticket⟩ := (Option.any_eq_true _ _).mp hany
    have hmem : x ∈ rows := List.mem_of_head? (hhead ▸ hx)
    rw [hchanged.changed] at hmem
    obtain ⟨⟨i, old⟩, hold, rfl⟩ := List.mem_map.mp hmem
    have hw := hchanged.holds _ hold
    have hverified : old.verifiedAt = some v := hv
    simp only [Condition.holds, Bool.and_eq_true, beq_iff_eq, Option.isNone_iff_eq_none,
      hverified, Option.any_some, decide_eq_true_eq] at hw
    obtain ⟨⟨hemail, hunconsumed⟩, hwindow⟩ := hw
    refine ⟨i, v, old, hold, hunconsumed, hemail, hverified, ?_, now, rfl, ?_⟩
    · rw [htoken, beq_iff_eq.mp hticket]
    · rwa [Nat.mul_assoc] at hwindow
  · refine hstop _ _ fun s h => ?_
    obtain ⟨now, olds, rows, -, -, hledger, -, husers⟩ := h
    rintro k (rfl | rfl)
    · exact ⟨_, hledger⟩
    · exact ⟨_, husers⟩

/-- A registration before its commit. -/
def Ready (setup : Setup) (userData : RegisterInput) (t : ℕ) (s : State) : Prop :=
  Holding setup userData t s ∧ ∃ i row, row.email = some userData.email ∧
    Ledger .users t [(i, none, some row)] [] s

theorem firm_ready : Firm Kept setup False t (Ready setup userData t) :=
  (firm_holding (.inl rfl)).and
    (.exists fun _ => .exists fun _ => (Firm.const _).and (Firm.ledger (.inr rfl) _ _))

theorem quiet_of_holding (h : Holding setup userData t s) (husers : Ledger .users t [] [] s) :
    Quiet Kept t s := by
  obtain ⟨-, now, olds, -, hledger⟩ := h
  rintro k (rfl | rfl)
  · exact ⟨_, hledger⟩
  · exact ⟨_, husers⟩

/-- What a registration does after it has found no account. -/
theorem redeem_meets (hcall : calls t = .register userData) :
    (rules setup calls).Meets (system setup) (running setup calls) t
      (fun _ => Ready setup userData t) (fun _ s => Quiet Kept t s ∧ True)
      (consumeForRegistration setup userData.email userData.registrationToken >>= fun _ =>
        defaultRoleId setup >>= fun roleId => bcryptHash setup userData.password >>=
        fun hashedPassword => makeUniqueSlug setup userData.name (slugOfUserTaken none) >>=
        fun slug => createUserRow .tx
          { name := some userData.name, slug := some slug, email := some userData.email
            password := some hashedPassword, avatar := none, roleId, isEmailVerified := true
            deletedAt := none } >>= fun user => pure user)
      fun s => Clear t s ∧ Fresh Kept t s := by
  have hheld : Firm Kept setup False t fun s =>
      Holding setup userData t s ∧ Ledger .users t [] [] s :=
    (firm_holding (.inl rfl)).and (Firm.ledger (.inr rfl) _ _)
  have hquiet (e : Error) (s : State)
      (h : Holding setup userData t s ∧ Ledger .users t [] [] s) : Quiet Kept t s ∧ True :=
    ⟨quiet_of_holding h.1 h.2, trivial⟩
  have hrole : (defaultRoleId setup).Uses (Request.Neutral Kept) := by
    unfold defaultRoleId
    split
    · trivial
    · refine .bind (.bind (uses_send.mpr fun _ => id) fun _ => trivial) fun role => ?_
      split <;> trivial
  have hhash : (bcryptHash setup userData.password).Uses (Request.Neutral Kept) :=
    uses_bcryptHash id _
  have hslug : (makeUniqueSlug setup userData.name (slugOfUserTaken none)).Uses
      (Request.Neutral Kept) := uses_makeUniqueSlug (uses_slugOfUserTaken (fun _ _ => id) _) _
  refine .bind consumeForRegistration_meets fun _ =>
    neutral_bind hheld hrole hquiet fun roleId => neutral_bind hheld hhash hquiet fun password =>
      neutral_bind hheld hslug hquiet fun slug => ?_
  refine .seq (fun _ => Ready setup userData t) (.bind ((create_meets (k := .users) [] []
    (P := Holding setup userData t) (firm_holding (by simp)) ?_).weaken
      fun _ _ h => ⟨h.2, h.1⟩) fun i => ?_) fun user => .pure firm_ready.stable .refl
  · exact fun _ _ _ _ _ => ⟨userData, hcall, rfl⟩
  exact .pure firm_ready.stable fun s _ h => ⟨h.2, i, _, rfl, h.1⟩

/-- The look for an account, by a caller that holds its ticket. -/
theorem lookUp_meets (hcall : calls t = .register userData) {err : Error → State → Prop} :
    (rules setup calls).Meets (system setup) (running setup calls) t
      (fun found s => (Clear t s ∧ Fresh Kept t s) ∧ (found = none → Prepared setup userData s)) err
      (findUserByEmailInsensitive userData.email) fun s => Clear t s ∧ Fresh Kept t s := by
  have hfirm (K : TableName → Prop) (hK : ∀ k, Kept k → K k) :
      Firm K setup False t fun s => Clear t s ∧ Fresh Kept t s :=
    Firm.clear.and (Firm.fresh.mono hK)
  have hpost {α : Type} (found : Option α) : (rules setup calls).Stable t fun s =>
      (Clear t s ∧ Fresh Kept t s) ∧ (found = none → Prepared setup userData s) :=
    .and (hfirm Kept fun _ => id).stable (.imp_const fun _ => prepared_stable)
  refine .bind (send_meets (k := .users) (a := .find (.emailInsensitive userData.email))
    (hfirm Kept fun _ => id).stable (fun reply => hpost reply)
    (fun _ _ _ _ _ hwrites => hwrites.elim) fun s o reply s' hs hs' hA hp hothers h => ?_)
    fun user => .pure (hpost _) fun s _ h => ⟨h.1, fun hnone => h.2 (by simpa using hnone)⟩
  have htable : s'.db.users = s.db.users.take t := exec_find_table h.exec
  have hotps : s'.db.emailOtps = s.db.emailOtps := h.others .emailOtps (by simp)
  refine ⟨⟨hothers.clear hp.1, ?_⟩, fun hnone => ⟨fun i v htoken => ?_, .inl ?_⟩⟩
  · rintro k (rfl | rfl)
    · exact (hp.2 .emailOtps (.inl rfl)).undisturbed (hothers.rows .emailOtps (by simp))
    · exact (congrArg (·.Ledger t [] []) htable).mpr (hp.2 .users (.inr rfl)).take
  · obtain ⟨u, hu⟩ := hA.1.1 userData _ hcall htoken i v rfl
    rw [hotps]
    exact hA.2.tickets u i v hu
  · subst hnone
    intro i r hr hactive hemail
    have hfree : s.db.users.Free t := (hp.2 .users (.inr rfl)).free
    have hview : s.db.users.view t i = some r := by
      rw [htable] at hr
      exact (Table.view_of_not_pending (hfree i)).trans hr
    have hfalse := (exec_find_none h.exec).2 i r hview
    simp [Condition.holds, hemail, hactive] at hfalse

theorem registerInTransaction_meets (hcall : calls t = .register userData) :
    (rules setup calls).Meets (system setup) (running setup calls) t
      (fun _ s => Ready setup userData t s ∧ Prepared setup userData s)
      (fun _ s => Quiet Kept t s ∧ True) (registerInTransaction setup userData true)
      fun s => Clear t s ∧ Fresh Kept t s ∧ True := by
  unfold registerInTransaction
  simp only [↓reduceIte]
  refine .bind ((lookUp_meets hcall).weaken fun s _ h => ⟨h.1, h.2.1⟩) fun found => ?_
  split
  · exact .throw (Firm.quiet.and (Firm.const True)).stable
      fun s _ h => ⟨quiet_of_fresh h.1.2, trivial⟩
  · rename_i hnone
    refine ((prepared_frame (redeem_meets hcall)).mono (fun _ => .refl)
      fun _ _ _ h => h.1).weaken fun s _ h => ⟨h.1, h.2 ?_⟩
    simpa using hnone

/-- The thread may commit: the address has no account but for the one it is about to commit. -/
theorem Ready.commits (hcall : calls t = .register userData) (h : Ready setup userData t s)
    (hprepared : Prepared setup userData s)
    (hA : (presented setup calls).request t (.sql .commit) s) :
    (enrolling setup calls).commit t s := by
  intro userData' i v hcall' hv
  obtain rfl : userData = userData' := Otp.Call.register.inj (hcall.symm.trans hcall')
  obtain ⟨⟨-, now, olds, ⟨j, time, old, hold, hunconsumed, hredeems⟩, hotps⟩, k, row, -, husers⟩ :=
    h
  have hentry : (j, some old, some { old with consumedAt := some now }) ∈
      entries .emailOtps (.consume now) olds := List.mem_map.mpr ⟨(j, old), hold, rfl⟩
  have honly (l : ℕ) (w : Option User) (hw : s.db.users.pending l = some (t, w)) : l = k := by
    obtain ⟨b, hb⟩ := (husers.own l w).mp hw
    exact (Prod.mk.inj (List.mem_singleton.mp hb)).1
  refine ⟨⟨j, time, _, hotps.pending hentry, hredeems,
    hA.1 userData _ hcall hredeems.ticket j time rfl⟩, ?_,
    fun l w hw => (honly l w hw).trans (honly i v hv).symm⟩
  exact hprepared.free (hotps.before _ hentry) hredeems.email hredeems.verifiedAt hunconsumed
    hredeems.ticket

/-- What has become of a call that has returned. -/
def Settled (calls : ℕ → Otp.Call) (t : ℕ) (s : State) : Prop :=
  ∀ userData, calls t = .register userData →
    ∃ i row, row.email = some userData.email ∧ (t, i, some row) ∈ s.db.users.log

/-- What has become of a call that has failed. -/
def Undone (calls : ℕ → Otp.Call) (t : ℕ) (e : Error) (s : State) : Prop :=
  e = .lost ∨ ∀ userData, calls t = .register userData → Fresh Kept t s

theorem settled_stable : (rules setup calls).Stable t (Settled calls t) :=
  Firm.stable (K := Kept) (.forall fun _ => .imp fun _ => .exists fun i => .exists fun row =>
    (Firm.const _).and (.logged .users (t, i, some row)))

theorem undone_stable (e : Error) : (rules setup calls).Stable t (Undone calls t e) :=
  Firm.stable (K := Kept) (.or (.const _) (.forall fun _ => .imp fun _ => .fresh))

theorem register_meets (hotp : setup.env.registrationVerificationOtp = true)
    (hcall : calls t = .register userData) :
    (rules setup calls).Meets (system setup) (running setup calls) t (fun _ => Settled calls t)
      (Undone calls t) (ExpressCore.register setup userData) fun s => Fresh Kept t s ∧ True := by
  unfold ExpressCore.register
  rw [hotp]
  refine transaction_keeps (.const True) (fun _ => .const True) undone_stable
    (fun e s h _ => .inr fun _ _ => h)
    (fun _ s => Ready setup userData t s ∧ Prepared setup userData s)
    (registerInTransaction_meets hcall) fun user => ?_
  refine .bind (commit_meets (.inl rfl) (firm_ready.stable.and prepared_stable)
    (fun _ => Settled calls t) (fun _ => settled_stable)
    (fun s _ hA h => ⟨h.1.1.1, h.1.commits hcall h.2 hA.1⟩) fun s s' _ _ _ _ h htables _ => ?_)
    fun _ => .pure settled_stable .refl
  intro userData' hcall'
  obtain rfl : userData = userData' := Otp.Call.register.inj (hcall.symm.trans hcall')
  obtain ⟨-, i, row, hemail, hledger⟩ := h.1
  have husers : s'.db.users = s.db.users.commit t := htables .users
  refine ⟨i, row, hemail, ?_⟩
  rw [husers]
  exact hledger.mem_commit_log.mpr (.inr ⟨_, .head _, rfl⟩)

/-! ## The other calls -/

/-- A call that commits no user. -/
def Other (call : Otp.Call) : Prop := ∀ userData, call ≠ .register userData

theorem Other.commit (h : Other (calls t)) (s : State) : (enrolling setup calls).commit t s :=
  fun userData _ _ hcall => (h userData hcall).elim

theorem Other.undone (h : Other (calls t)) (e : Error) (s : State) : Undone calls t e s :=
  .inr fun userData hcall => (h userData hcall).elim

theorem lets_complete (h : Other (calls t)) {db : Client} :
    (enrolling setup calls).Lets t (.sql (.complete db)) := by
  cases db with
  | tx => exact Discipline.lets_neutral (r := .sql (.complete .tx)) trivial
  | prisma => exact Discipline.lets_end (.inr (.inr (.inl rfl))) h.commit

theorem lets_other (h : Other (calls t)) {r : Request}
    (htable : r.table?.any (fun k => decide (Kept k)) = false) (hr : ¬ r.Watched) :
    (enrolling setup calls).Lets t r := by
  refine fun s => ⟨fun k a hsql hk _ => ?_, fun _ _ _ => h.commit s, fun hw => (hr hw).elim⟩
  subst hsql
  rcases hk with rfl | rfl <;> cases (show true = false from htable)

theorem lets_findUser (w : UserWhere) :
    (enrolling setup calls).Lets t (.sql (.users (.find w))) :=
  Discipline.lets_read (k := .users) (a := .find w) not_false

variable {P : State → Prop}

/-- From here on the program keeps to the discipline in every state. -/
theorem lets_meets {α : Type} {p : Service α} (hp : p.Uses ((enrolling setup calls).Lets t)) :
    (rules setup calls).Meets (system setup) (running setup calls) t (fun _ _ => True)
      (fun _ _ => True) p P :=
  (meets_lets hp).weaken fun _ _ _ => trivial

theorem cleanup_lets (h : Other (calls t)) :
    (cleanupExpiredTokens setup).Uses ((enrolling setup calls).Lets t) := by
  have hcomplete : (enrolling setup calls).Lets t (.sql (.complete .prisma)) := lets_complete h
  have hrefresh (a) : (refreshTokens a).Uses ((enrolling setup calls).Lets t) :=
    uses_send.mpr (lets_other h rfl id)
  have hverification (a) : (emailVerificationTokens a).Uses ((enrolling setup calls).Lets t) :=
    uses_send.mpr (lets_other h rfl id)
  have hreset (a) : (passwordResetTokens a).Uses ((enrolling setup calls).Lets t) :=
    uses_send.mpr (lets_other h rfl id)
  have hscan (w) : (enrolling setup calls).Lets t (.sql (.emailOtps (.scan w))) :=
    Discipline.lets_read (k := .emailOtps) (a := .scan w) not_false
  have hdelete (i : ℕ) (ids : List ℕ) :
      (enrolling setup calls).Lets t (.sql (.emailOtps (.visit i (.ids ids) .delete))) :=
    Discipline.lets_access (k := .emailOtps) (a := .visit i (.ids ids) .delete)
      fun _ _ _ => trivial
  refine .bind (uses_send.mpr (lets_other h rfl id)) fun now => ?_
  refine .bind (uses_deleteBatches hrefresh hcomplete _ _ _ _ _ _) fun _ => ?_
  refine .bind (uses_changeMany hverification hcomplete _ _) fun _ => ?_
  refine .bind (uses_changeMany hreset hcomplete _ _) fun _ => ?_
  exact .bind (uses_batches (uses_send.mpr (hscan _)) (fun i ids => uses_send.mpr (hdelete i ids))
    hcomplete _ _ _) fun _ => trivial

theorem issue_meets (h : Other (calls t))
    (email codeHash : String) (issuance expiresMinutes cooldownSeconds : ℕ) :
    (rules setup calls).Meets (system setup) (running setup calls) t (fun _ _ => True)
      (fun _ _ => True) (issue email codeHash issuance expiresMinutes cooldownSeconds)
      (Unlocked Kept t) := by
  have hnow : (statement .now).Uses (Request.Neutral Kept) := uses_send.mpr trivial
  refine neutral_bind .unlocked hnow (fun _ _ _ => trivial) fun now => .bind (send_meets
    (k := .emailOtps) Firm.unlocked.stable (fun _ => .const True) (fun s _ _ hfree _ _ => ?_)
    fun _ _ _ _ _ _ _ _ _ _ => trivial) fun row => lets_meets ?_
  · exact ⟨rfl, rfl, rfl, rfl, rfl, hfree .emailOtps (.inl rfl)⟩
  · exact .bind (uses_send.mpr (lets_complete h)) fun _ => uses_pure _

theorem sendCode_meets (h : Other (calls t)) (rawEmail : String) :
    (rules setup calls).Meets (system setup) (running setup calls) t (fun _ _ => True)
      (fun _ _ => True) (sendCode setup rawEmail) (Unlocked Kept t) := by
  have hfind : (findUserByEmailInsensitive (normalizeEmail rawEmail)).Uses
      (Request.Neutral Kept) := .bind (uses_send.mpr fun _ => id) fun _ => uses_pure _
  have hcode : (request .generateOtpCode).Uses (Request.Neutral Kept) := uses_send.mpr id
  have hbegin : (statement .begin).Uses (Request.Neutral Kept) := uses_send.mpr trivial
  have houtbox (a : Access ℕ Outbox OutboxWhere OutboxChange) :
      (outbox a).Uses ((enrolling setup calls).Lets t) :=
    uses_send.mpr (lets_other h rfl id)
  unfold sendCode
  refine neutral_bind .unlocked hfind (fun _ _ _ => trivial) fun user => ?_
  split
  · exact .throw (.const True) fun _ _ _ => trivial
  refine neutral_bind .unlocked hcode (fun _ _ _ => trivial) fun code => .bind (transaction_meets
    ((meets_neutral .unlocked hbegin).mono (fun _ => .refl) fun _ _ _ _ => trivial)
      (.bind (issue_meets h _ _ _ _ _) fun fresh => lets_meets ?_) (fun e => lets_meets ?_)
      fun value => lets_meets ?_) fun issued => lets_meets ?_
  · split
    · exact .bind (uses_enqueue (lets_other h rfl id) houtbox (lets_complete h) _ _ _)
        fun _ => uses_pure _
    · exact uses_pure _
  · exact .bind (uses_send.mpr (Discipline.lets_end (.inr (.inl rfl)) h.commit))
      fun _ => uses_throw _
  · exact .bind (uses_send.mpr (Discipline.lets_end (.inl rfl) h.commit)) fun _ => uses_pure _
  · split
    · exact uses_pure _
    · exact uses_throw _

/-! ## Verification -/

/-- The verification that a ticket is returned for is recorded. -/
def Told (i : ℕ) (verifiedAt : Option Time) (s : State) : Prop :=
  ∀ v, verifiedAt = some v → Recorded s.db.emailOtps i v

theorem firm_told {K : TableName → Prop} (i : ℕ) (verifiedAt : Option Time) :
    Firm K setup False t (Told i verifiedAt) :=
  .forall fun _ => .imp fun _ _ _ _ _ hmove h => h.mono (hmove.logs .emailOtps)

/-- Thread `t` holds no code. -/
def Loose (t : ℕ) (s : State) : Prop := (∃ done, Ledger .emailOtps t [] done s) ∧ Clear t s

theorem firm_loose : Firm Kept setup False t (Loose t) :=
  (Firm.exists fun _ => .ledger (.inl rfl) _ _).and .clear

/-- An update of codes outside a transaction. -/
theorem update_meets (h : Other (calls t)) {w : EmailOtpWhere} {c : EmailOtpChange}
    (hchange : ∀ i s, change t (.visit i w c) s)
    (hsome : ∀ old : EmailOtp, ∃ new : EmailOtp, ReadCommitted.Change.apply c old = some new) :
    (rules setup calls).Meets (system setup) (running setup calls) t
      (fun rows s => (∀ x ∈ rows, (t, x.1, some x.2) ∈ s.db.emailOtps.log) ∧ Loose t s)
      (fun _ _ => True) (changeMany emailOtps .prisma w c) (Loose t) := by
  refine Rules.Meets.under (fun s => ∃ done, Ledger .emailOtps t [] done s ∧ Clear t s)
    (.exists fun done => (changeManyPrisma_meets done (k := .emailOtps) (w := w) (c := c)
      (Q := fun _ => True) (S := fun _ => True) (K := fun _ => False) Firm.clear
      (fun _ _ _ _ _ _ _ _ _ => trivial) (fun _ _ _ h => h.elim) (fun _ h => h.elim)
      (fun i _ s _ _ _ _ _ _ => hchange i s)
      fun _ s _ _ _ _ hclear => ⟨hclear, h.commit s, trivial⟩).mono (fun rows s _ h => ?_)
        fun _ => .refl) fun s _ h => h.1.imp fun _ hledger => ⟨hledger, h.2⟩
  obtain ⟨olds, hchanged, -, hledger, hclear⟩ := h
  refine ⟨fun x hx => (hledger.past _ _).mpr (List.mem_append_right _ ?_), ⟨_, hledger⟩, hclear⟩
  rw [hchanged.changed] at hx
  obtain ⟨⟨i, old⟩, hold, rfl⟩ := List.mem_map.mp hx
  obtain ⟨new, hnew⟩ := hsome old
  refine List.mem_map.mpr ⟨_, List.mem_map.mpr ⟨(i, old), hold, rfl⟩, ?_⟩
  simp [hnew]

theorem reserveAttempt_meets (h : Other (calls t)) (email : String) (maxAttempts : ℕ) :
    (rules setup calls).Meets (system setup) (running setup calls) t
      (fun attempt s => (∀ x, attempt = some x → Told x.id x.row.verifiedAt s) ∧ Loose t s)
      (fun _ _ => True) (reserveAttempt email maxAttempts) (Loose t) := by
  have hnow : (statement .now).Uses (Request.Neutral Kept) := uses_send.mpr trivial
  have hpost (attempt : Option ReservedAttempt) : Firm Kept setup False t fun s =>
      (∀ x, attempt = some x → Told x.id x.row.verifiedAt s) ∧ Loose t s :=
    (Firm.forall fun _ => .imp fun _ => firm_told _ _).and firm_loose
  refine neutral_bind firm_loose hnow (fun _ _ _ => trivial) fun now => .bind
    (update_meets h (fun _ _ => trivial) fun old => ⟨_, rfl⟩) fun rows =>
      .pure (hpost _).stable fun s _ hrows => ⟨fun x hx => ?_, hrows.2⟩
  obtain ⟨y, hy, rfl⟩ := Option.map_eq_some_iff.mp hx
  exact fun v hv => ⟨t, y.2, hrows.1 y (List.mem_of_head? hy), hv⟩

theorem markVerified_meets (h : Other (calls t)) (i : ℕ) :
    (rules setup calls).Meets (system setup) (running setup calls) t (Told i) (fun _ _ => True)
      (markVerified i) (Loose t) := by
  have hnow : (request .now).Uses (Request.Neutral Kept) := uses_send.mpr id
  refine neutral_bind firm_loose hnow (fun _ _ _ => trivial) fun now => .bind
    (update_meets h (fun _ _ => trivial) fun old => ⟨_, rfl⟩) fun _ => .bind
      ((find_meets (k := .emailOtps) (w := .id i) (K := Kept)
        (Q := fun x s => Told x.1 x.2.verifiedAt s) (P := Loose t) firm_loose
        (fun x => firm_told _ _) fun s x _ hA hloose _ hview v hv => ?_).weaken fun _ _ h => h.2)
      fun found => .pure (firm_told (K := Kept) _ _).stable fun s _ h v hv => ?_
  · obtain ⟨⟨done, hledger⟩, -⟩ := hloose
    have hfree : s.db.emailOtps.Free t := hledger.free
    have hcommitted : s.db.emailOtps.committed x.1 = some x.2 :=
      (Table.view_of_not_pending (hfree x.1)).symm.trans hview
    obtain ⟨⟨u, j, row⟩, hlog, heq⟩ := hA.2.spending.logged x.1 x.2 hcommitted
    obtain ⟨rfl, rfl⟩ := Prod.mk.inj heq
    exact ⟨u, x.2, hlog, hv⟩
  · obtain ⟨x, hx, hverified⟩ := Option.bind_eq_some_iff.mp hv
    obtain ⟨hw, htold, -⟩ := h.1 x hx
    obtain rfl : x.1 = i := beq_iff_eq.mp hw
    exact htold v hverified

theorem verifyCode_meets (h : Other (calls t)) (rawEmail code : String) :
    (rules setup calls).Meets (system setup) (running setup calls) t (fun _ _ => True)
      (fun _ _ => True) (verifyCode setup rawEmail code) (Loose t) := by
  have hstop (e : Error) (P : State → Prop) : (rules setup calls).Meets (system setup)
      (running setup calls) t (fun _ _ => True) (fun _ _ => True) (throw e : Service String) P :=
    .throw (.const True) fun _ _ _ => trivial
  unfold verifyCode
  refine .bind (reserveAttempt_meets h _ _) fun attempt => ?_
  split
  · refine lets_meets (.bind (uses_send.mpr (Discipline.lets_read (k := .emailOtps)
      (a := .find _) not_false)) fun row => .bind
      (uses_send.mpr (lets_other h rfl id)) fun now => ?_)
    split <;> exact uses_throw _
  rename_i attempt
  have htold : Firm Kept setup False t fun s =>
      Told attempt.id attempt.row.verifiedAt s ∧ Loose t s := (firm_told _ _).and firm_loose
  have hticket (verifiedAt : Option Time) : (rules setup calls).Meets (system setup)
      (running setup calls) t (fun _ _ => True) (fun _ _ => True)
      (Otp.ticketFor setup attempt.id verifiedAt) (Told attempt.id verifiedAt) := by
    cases verifiedAt with
    | none => exact hstop _ _
    | some v =>
        exact .bind (Rules.Meets.send (firm_told (K := Kept) _ _).stable
          (keeping_answers (fun s _ _ h => guard_of_other (fun _ hsql => by cases hsql) fun _ =>
            h v rfl) fun _ _ _ _ _ _ _ _ => trivial) fun _ => .const True)
          fun _ => .pure (.const True) fun _ _ _ => trivial
  refine .seq (fun _ s => Told attempt.id attempt.row.verifiedAt s ∧ Loose t s)
    (Rules.Meets.weaken (Rules.Meets.send htold.stable (keeping_answers (fun _ _ _ _ =>
      guard_of_other (fun _ hsql => by cases hsql) fun _ => trivial) ?_) fun _ => htold.stable)
        fun s _ h => ⟨h.1 _ rfl, h.2⟩) fun _ => ?_
  · intro s o _ s' hs _ hp hexec
    cases hexec
    exact hp
  split
  · exact hstop _ _
  split
  · rename_i v hv
    refine .bind (.pure (firm_told (K := Kept) attempt.id (some v)).stable fun s _ h => ?_) hticket
    exact hv ▸ h.1
  · exact .bind ((markVerified_meets h attempt.id).weaken fun _ _ h => h.2) hticket

/-! ## Runs -/

theorem call_meets (hotp : setup.env.registrationVerificationOtp = true) :
    (rules setup calls).Meets (system setup) (running setup calls) t (fun _ => Settled calls t)
      (Undone calls t) ((calls t).program setup) fun s => Fresh Kept t s ∧ Clear t s := by
  have hother {p : Service Unit} {pre : State → Prop} (h : Other (calls t))
      (hp : (rules setup calls).Meets (system setup) (running setup calls) t (fun _ _ => True)
        (fun _ _ => True) p pre) : (rules setup calls).Meets (system setup) (running setup calls) t
        (fun _ => Settled calls t) (Undone calls t) p pre := by
    have hundone : (rules setup calls).Meets (system setup) (running setup calls) t
        (fun _ _ => True) (Undone calls t) p pre :=
      hp.mono (fun _ => .refl) fun e s _ _ => h.undone e s
    exact hundone.mono (fun _ s _ _ userData hcall => (h userData hcall).elim) fun _ => .refl
  cases hcall : calls t with
  | verify rawEmail code =>
      have h : Other (calls t) := fun userData heq => by cases hcall.symm.trans heq
      refine hother h (.bind ((verifyCode_meets h rawEmail code).weaken fun s _ hs => ?_)
        fun _ => .pure (.const True) fun _ _ _ => trivial)
      exact ⟨⟨[], hs.1 .emailOtps (.inl rfl)⟩, hs.2⟩
  | send rawEmail =>
      have h : Other (calls t) := fun userData heq => by cases hcall.symm.trans heq
      exact hother h ((sendCode_meets h rawEmail).weaken fun s _ hs k hk => (hs.1 k hk).free)
  | register userData =>
      exact .bind ((register_meets hotp hcall).weaken fun s _ hs => ⟨hs.1, trivial⟩)
        fun _ => .pure settled_stable .refl
  | cleanup =>
      have h : Other (calls t) := fun userData heq => by cases hcall.symm.trans heq
      exact hother h (lets_meets (cleanup_lets h))

/-- What holds of the accounts in every run. -/
structure OnePerAddress (setup : Setup) (calls : ℕ → Otp.Call)
    (c : Config ℕ Error Request Request.Reply State Unit) : Prop where
  accounts : OneAccount c.shared.db.users
  registered : ∀ t i v, (t, i, v) ∈ c.shared.db.users.log → ∃ userData r,
    calls t = .register userData ∧ v = some r ∧ r.email = some userData.email ∧
      Redeemed setup userData t c.shared
  once : ∀ t t' i r r' v, (t, i, some r) ∈ c.shared.db.emailOtps.log →
    (t', i, some r') ∈ c.shared.db.emailOtps.log → r.consumedAt.isSome = true →
      r'.consumedAt.isSome = true → r.verifiedAt = some v → r'.verifiedAt = some v → t = t'
  returned : ∀ t userData, calls t = .register userData → c.thread t = .ret () →
    ∃ i row, row.email = some userData.email ∧ (t, i, some row) ∈ c.shared.db.users.log
  failed : ∀ t e userData, calls t = .register userData → c.thread t = .fail e → e ≠ .lost →
    (∀ i v, (t, i, v) ∉ c.shared.db.users.log) ∧ ∀ i v, (t, i, v) ∉ c.shared.db.emailOtps.log

/-- Registration with codes makes at most one account for an address, each with a verification of
its own. -/
theorem one_account {c : Config ℕ Error Request Request.Reply State Unit}
    (hotp : setup.env.registrationVerificationOtp = true) (hstart : s₀.AtRest)
    (hempty : s₀.db.emailOtps = .empty) (haccounts : OneAccount s₀.db.users)
    (hrun : (system setup).Reaches (presented setup calls)
      (calling (fun t => (calls t).program setup) s₀) c) : OnePerAddress setup calls c := by
  have hsound : (rules setup calls).Sound (system setup) (running setup calls)
      (fun t _ => Settled calls t) (Undone calls)
      (calling (fun t => (calls t).program setup) s₀) :=
    hstart.sound Clear (fun _ => hstart.clear) fun t => call_meets hotp
  have hlost (t : ℕ) (s : State) (_ : State.InOrder setup False s) : Undone calls t .lost s :=
    .inl rfl
  have hinit : Enrolled setup calls s₀ := by
    have hpending (i : ℕ) : s₀.db.users.pending i = none := (hstart.tables .users).pending i
    have hlog : s₀.db.users.log = [] := (hstart.tables .users).log
    exact ⟨spending_of_empty hempty, by simp [hstart.tickets], by simp [hpending], haccounts,
      by simp [hlog]⟩
  have hruns := hrun.within (I := Enrolled setup calls) fun d hd =>
    keeping_induction (fun _ _ _ h => h.elim) hlost hsound hd hinit
      fun s s' _ _ h hevent => h.step hevent
  have henrolled : Enrolled setup calls c.shared :=
    keeping_induction (fun _ _ _ h => h.elim) hlost hsound hruns hinit
      fun s s' _ _ h hevent => h.step hevent
  have hend := hsound.reaches (keeping_compatible fun _ _ _ h => h.elim) hlost hruns
  refine ⟨henrolled.accounts, henrolled.registered, henrolled.spending.once,
    fun t userData hcall hret => ?_, fun t e userData hcall hfail hne => ?_⟩
  · have hholds := hend.2 t
    rw [hret] at hholds
    exact hholds.value hend.1 userData hcall
  · have hholds := hend.2 t
    rw [hfail] at hholds
    have hfresh := (hholds.error hend.1).resolve_left hne userData hcall
    exact ⟨fun i v hv => by simpa using ((hfresh .users (.inr rfl)).past i v).mp hv,
      fun i v hv => by simpa using ((hfresh .emailOtps (.inl rfl)).past i v).mp hv⟩

/-! ## Two registrations with one ticket -/

theorem plainTicket_unique {i j : ℕ} {v w : Time}
    (h : registrationTicket plainSetup i v = registrationTicket plainSetup j w) :
    i = j ∧ v = w := by
  refine Otp.registrationTicket_unique (fun message message' heq => ?_) h
  exact utf8_injective (List.append_cancel_left heq)

def ada (email : String) : RegisterInput where
  name := "Ada"
  email
  password := "secret"
  registrationToken := some (registrationTicket plainSetup 1 0)

/-- Threads 3 and 4 have the ticket for the code that thread 1 sends and thread 2 submits. -/
def twice : ℕ → Otp.Call
  | 1 => .send "ada@example.org"
  | 2 => .verify "ada@example.org" "000000"
  | 3 => .register (ada "Ada@example.org")
  | _ => .register (ada "ada@Example.org")

/-- Both look for an account before one of them consumes the verification. -/
def racing : List (Label ℕ Oracle) :=
  List.replicate 10 (.run 1 { fresh := 1 }) ++ List.replicate 11 (.run 2 {}) ++
    List.replicate 2 (.run 3 {}) ++ List.replicate 2 (.run 4 {}) ++
      List.replicate 9 (.run 3 { fresh := 1 }) ++ List.replicate 4 (.run 4 { fresh := 2 })

def raced : Config ℕ Error Request Request.Reply State Unit :=
  (system plainSetup).after
    (calling (fun t => (twice t).program plainSetup) (plainState .empty)) racing

/-- Whether the ticket was returned and verifications have new times. -/
def presents (t : ℕ) (r : Request) (s : State) : Bool :=
  (t == 1 || t == 2 || s.tickets.contains (2, 1, 0)) &&
    match r with
    | .sql (.emailOtps (.visit i _ (.verify time))) => (s.db.emailOtps.view t i).all fun row =>
        row.verifiedAt.isSome || (Otp.records i s).all fun r => r.verifiedAt != some time
    | _ => true

theorem presented_of_presents {r : Request} (h : presents t r s = true) :
    (presented plainSetup twice).request t r s := by
  obtain ⟨hticket, hfresh⟩ := (Bool.and_eq_true _ _).mp h
  refine ⟨fun userData ticket hcall htoken i v heq => ?_, ?_⟩
  · have hreturned : (2, 1, 0) ∈ s.tickets ∧ ∃ email, userData = ada email := by
      unfold twice at hcall
      split at hcall
      · cases hcall
      · cases hcall
      · exact ⟨by simpa using hticket, _, (Otp.Call.register.inj hcall).symm⟩
      · rename_i hone htwo hthree
        refine ⟨?_, _, (Otp.Call.register.inj hcall).symm⟩
        have hcases : (t = 1 ∨ t = 2) ∨ (2, 1, 0) ∈ s.tickets := by simpa using hticket
        exact hcases.resolve_left fun h => h.elim hone htwo
    obtain ⟨hmem, email, rfl⟩ := hreturned
    obtain rfl : registrationTicket plainSetup 1 0 = ticket := Option.some.inj htoken
    obtain ⟨rfl, rfl⟩ := plainTicket_unique heq
    exact ⟨2, hmem⟩
  · rintro i w time row rfl hview hnone r' hr'
    simp only [hview, Option.all_some, hnone, Option.isSome_none, Bool.false_or] at hfresh
    simpa using List.all_eq_true.mp hfresh r' (Otp.mem_records hr')

theorem one_account_raced : OnePerAddress plainSetup twice raced ∧
    raced.thread 3 = .ret () ∧
    raced.thread 4 = .fail (.app "Email not verified. Request and verify a code before registering."
      400) ∧
    raced.shared.db.users.log.map (fun e => (e.1, e.2.2.bind fun row => row.email)) =
      [(3, some "Ada@example.org")] := by
  have hraced : (raced.thread 3).value? = some () ∧ (raced.thread 4).error? = some (.app
      "Email not verified. Request and verify a code before registering." 400) ∧
      raced.shared.db.users.log.map (fun e => (e.1, e.2.2.bind fun row => row.email)) =
        [(3, some "Ada@example.org")] := by decide +kernel
  exact ⟨one_account rfl plainState_atRest rfl (fun _ _ _ _ _ h => by cases h) (.of_passes
    presents (fun _ _ _ => presented_of_presents) (fun _ _ => trivial) (by decide +kernel)),
    Program.value?_eq_some.mp hraced.1, Program.error?_eq_some.mp hraced.2.1, hraced.2.2⟩

end ExpressCore.Enrollment
