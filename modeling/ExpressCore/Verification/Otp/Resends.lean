import ExpressCore.Verification.Account.Requests
import ExpressCore.Verification.Otp.Cooldown
import ExpressCore.Verification.System.Start

/-! # Sends keep to the cooldown -/

namespace ExpressCore.Cooldown

open Otp ReadCommitted Interleaving Interleaving.Program

variable {setup : Setup} {calls : ℕ → Call} {t : ℕ} {s s' s₀ : State}

/-- The contract of the calls in runs in which rows are cleaned up late enough. -/
abbrev spacingRules (setup : Setup) (calls : ℕ → Call) : Rules ℕ State :=
  keeping setup False (retentive setup calls) (spacing setup calls)

/-! ## Calls that send nothing -/

section Quiet

variable (hquiet : ∀ email, ¬ Sends calls t email)

include hquiet

theorem lets_quiet (r : Request) (hotps : r.table? ≠ some .emailOtps)
    (houtbox : r.table? ≠ some .outbox) : (spacing setup calls).Lets t r := by
  refine Discipline.lets_skips (fun s email hsends => (hquiet email hsends).elim)
    (fun _ _ => trivial) fun k hk => ?_
  rcases hk with rfl | rfl
  · exact Request.skips_of_table hotps
  · exact Request.skips_of_table houtbox

theorem lets_change {i : ℕ} {w : EmailOtpWhere} {c : EmailOtpChange}
    (hc : ∀ codeHash sentAt expiresAt issuance, c ≠ .reissue codeHash sentAt expiresAt issuance) :
    (spacing setup calls).Lets t (.sql (.emailOtps (.visit i w c))) :=
  Discipline.lets_access (k := .emailOtps) (a := .visit i w c) fun _ _ _ => ⟨hquiet, hc⟩

omit hquiet in
theorem lets_select (w : EmailOtpWhere) :
    (spacing setup calls).Lets t (.sql (.emailOtps (.scan w))) :=
  Discipline.lets_read (k := .emailOtps) (a := .scan w) not_false

theorem verifyCode_quiet (rawEmail code : String) :
    (verifyCode setup rawEmail code).Uses ((spacing setup calls).Lets t) := by
  have houtside (r : Request) (hr : r.table? = none) : (spacing setup calls).Lets t r :=
    lets_quiet hquiet r (by simp [hr]) (by simp [hr])
  have hfind (w : EmailOtpWhere) :
      (emailOtps (.find w)).Uses ((spacing setup calls).Lets t) :=
    uses_send.mpr (Discipline.lets_read (k := .emailOtps) (a := .find w) not_false)
  have hchange (w : EmailOtpWhere) (c : EmailOtpChange) (hc : ∀ codeHash sentAt expiresAt issuance,
      c ≠ .reissue codeHash sentAt expiresAt issuance) :
      (changeMany emailOtps .prisma w c).Uses ((spacing setup calls).Lets t) :=
    uses_change (uses_send.mpr (lets_select w)) (fun _ => uses_send.mpr (lets_change hquiet hc))
      (houtside _ rfl)
  have hticket (verifiedAt : Option Time) (otpId : ℕ) :
      (ticketFor setup otpId verifiedAt).Uses ((spacing setup calls).Lets t) := by
    cases verifiedAt with
    | none => trivial
    | some verifiedAt => exact .bind (uses_send.mpr (houtside _ rfl)) fun _ => trivial
  unfold verifyCode
  refine .bind (.bind (uses_send.mpr (houtside _ rfl)) fun now =>
    .bind (hchange _ _ (by simp)) fun rows => trivial) fun attempt => ?_
  split
  · refine .bind (hfind _) fun row => .bind (uses_send.mpr (houtside _ rfl)) fun now => ?_
    split <;> trivial
  refine .bind (uses_send.mpr (houtside _ rfl)) fun _ => ?_
  split
  · trivial
  dsimp only
  split
  · exact .bind (uses_pure _) fun verifiedAt => hticket _ _
  · exact .bind (.bind (uses_send.mpr (houtside _ rfl)) fun now =>
      .bind (hchange _ _ (by simp)) fun _ => .bind (hfind _) fun row => trivial)
        fun verifiedAt => hticket _ _

theorem register_quiet (userData : RegisterInput) :
    (ExpressCore.register setup userData).Uses ((spacing setup calls).Lets t) := by
  refine uses_register (fun r hotps houtbox _ => lets_quiet hquiet r hotps houtbox) lets_select
    (fun _ _ _ _ _ => lets_change hquiet nofun) (fun row hjob => ?_) userData
  refine Discipline.lets_access (k := .outbox) (a := .insert row) fun _ _ _ hsent => ?_
  rw [hjob] at hsent
  exact absurd hsent (by decide)

theorem cleanup_quiet : (cleanupExpiredTokens setup).Uses ((spacing setup calls).Lets t) :=
  uses_cleanup (fun r hotps houtbox _ => lets_quiet hquiet r hotps houtbox) lets_select
    fun _ _ => lets_change hquiet nofun

end Quiet

/-! ## Sends -/

/-- The call has sent nothing. -/
def Unsent (t : ℕ) (s : State) : Prop := Ledger .emailOtps t [] [] s ∧ Ledger .outbox t [] [] s

theorem firm_unsent :
    Firm (fun k => k = .emailOtps ∨ k = .outbox) setup False t (Unsent t) :=
  (Firm.ledger (.inl rfl) _ _).and (.ledger (.inr rfl) _ _)

/-- The call has written its code, if there was no cooldown. -/
def Coded (email codeHash : String) (t : ℕ) : Bool → State → Prop
  | false, s => Unsent t s
  | true, s => ∃ i b r, (r.email = email ∧ r.codeHash = codeHash) ∧
      Ledger .emailOtps t [(i, b, some r)] [] s ∧ Ledger .outbox t [] [] s

theorem firm_coded (email codeHash : String) (fresh : Bool) :
    Firm (fun k => k = .emailOtps ∨ k = .outbox) setup False t (Coded email codeHash t fresh) := by
  cases fresh with
  | false => exact firm_unsent
  | true =>
      exact .exists fun _ => .exists fun _ => .exists fun _ =>
        (Firm.const _).and ((Firm.ledger (.inl rfl) _ _).and (.ledger (.inr rfl) _ _))

/-- The call has written its code and the intent, or nothing. -/
def Sent (setup : Setup) (email : String) (t : ℕ) (s : State) : Prop :=
  Unsent t s ∨ ∃ i b r j intent, (r.email = email ∧ Mails setup r intent) ∧
    Ledger .emailOtps t [(i, b, some r)] [] s ∧ Ledger .outbox t [(j, none, some intent)] [] s

theorem firm_sent (email : String) :
    Firm (fun k => k = .emailOtps ∨ k = .outbox) setup False t (Sent setup email t) :=
  firm_unsent.or (.exists fun _ => .exists fun _ => .exists fun _ => .exists fun _ =>
    .exists fun _ => (Firm.const _).and ((Firm.ledger (.inl rfl) _ _).and (.ledger (.inr rfl) _ _)))

theorem unsent_stable : (spacingRules setup calls).Stable t (Unsent t) := firm_unsent.stable

theorem sent_stable (email : String) :
    (spacingRules setup calls).Stable t (Sent setup email t) := (firm_sent email).stable

theorem issue_spaced {email codeHash : String} {issuance : ℕ} (hsends : Sends calls t email) :
    (spacingRules setup calls).Meets (system setup) (retentive setup calls) t
      (Coded email codeHash t) (fun _ _ => True)
      (issue email codeHash issuance setup.env.otpExpiresMinutes
        setup.env.otpResendCooldownSeconds)
      fun s => ∃ now, s.db.startedAt t = some now ∧ Unsent t s := by
  refine .exists fun began => ?_
  have hstable : (spacingRules setup calls).Stable t fun s =>
      s.db.startedAt t = some began ∧ Unsent t s := (startedAt_stable _).and unsent_stable
  have hneutral : (Request.sql .now).Neutral (spacing setup calls).tables := trivial
  have hcomplete : (statement (.complete .tx)).Uses
      (Request.Neutral (spacing setup calls).tables) := uses_send.mpr trivial
  refine .seq (fun now s => now = began ∧ s.db.startedAt t = some began ∧ Unsent t s)
    (Rules.Meets.send hstable (keeping_answers (fun _ _ _ _ => guard_of_neutral hneutral)
      fun s o now s' _ _ hpre hexec => ?_) fun now =>
        (Firm.const (K := fun _ => True) _).stable.and hstable) fun now => .assume fun hnow => ?_
  · obtain ⟨hnow, rfl⟩ := reply_of_now hexec
    exact ⟨by rw [hnow, hpre.1]; rfl, hpre⟩
  subst hnow
  refine .seq (fun row => Coded email codeHash t (Option.isSome row)) (send_meets
    (k := .emailOtps) (a := .upsert _ _ _ _) hstable (fun row => (firm_coded _ _ _).stable)
    (fun s _ _ h _ _ => ?_) fun s o row s' hs hs' _ h hothers hexec => ?_) fun row =>
      .bind ((meets_neutral (firm_coded _ _ _) hcomplete).mono (fun _ => .refl)
        fun _ _ _ _ => trivial) fun _ => .pure (firm_coded _ _ _).stable .refl
  · exact ⟨rfl, rfl, rfl, hsends, h.2.1, h.1⟩
  · have houtbox : Ledger .outbox t [] [] s' := Firm.ledger (k := .outbox)
      (K := fun k' => k' ≠ .emailOtps) (by decide) [] [] s s' hs hs' hothers h.2.2
    have hotps : s.db.emailOtps.Ledger t [] [] := h.2.1
    have hwritten (i : ℕ) (r : EmailOtp) (htable : s'.db.emailOtps =
        s.db.emailOtps.write t i (some r)) (hemail : r.email = email)
        (hhash : r.codeHash = codeHash) : Coded email codeHash t true s' := by
      refine ⟨i, s.db.emailOtps.committed i, r, ⟨hemail, hhash⟩, ?_, houtbox⟩
      have hledger : s'.db.emailOtps.Ledger t [(i, s.db.emailOtps.committed i, some r)] [] :=
        htable ▸ hotps.write nofun
      exact hledger
    rcases exec_upsert hexec.exec with ⟨rfl, htable⟩ | ⟨i, old, hkey, rfl, htable⟩ | ⟨rfl, htable⟩
    · exact hwritten o.fresh _ htable rfl rfl
    · exact hwritten i _ htable (beq_iff_eq.mp hkey) rfl
    · have htable : s'.db.emailOtps = s.db.emailOtps := htable
      have hledger : s'.db.emailOtps.Ledger t [] [] := htable ▸ hotps
      exact ⟨hledger, houtbox⟩

/-- The intent is written when the code is. -/
theorem enqueueCode_meets {email code : String} (hsends : Sends calls t email) (fresh : Bool) :
    (spacingRules setup calls).Meets (system setup) (retentive setup calls) t
      (fun _ => Sent setup email t) (fun _ _ => True)
      (if fresh then do
        enqueue EMAIL "sendOtpEmail"
          ⟨.obj [("email", .str email), ("code", .str code),
            ("expiresMinutes", .num setup.env.otpExpiresMinutes)], by simp⟩
        pure fresh
      else pure fresh) (Coded email (hashOtpCode setup email code) t fresh) := by
  cases fresh with
  | false =>
      exact .pure (sent_stable email) fun s _ h => .inl h
  | true =>
      refine .exists fun i => .exists fun b => .exists fun r => .assume fun hr => ?_
      have hledger : Firm (fun k => k ≠ .outbox) setup False t
          (Ledger .emailOtps t [(i, b, some r)] []) :=
        Firm.ledger (k := .emailOtps) (K := fun k => k ≠ .outbox) (by decide) _ _
      refine .bind ((enqueue_meets [] [] hledger fun row s _ => ⟨email, hsends⟩).weaken
        fun s _ h => ⟨h.2, h.1⟩) fun _ =>
          .pure (sent_stable email) fun s _ h => ?_
      obtain ⟨j, intent, ⟨hqueue, hjob, hpayload⟩, houtbox, hotps⟩ := h
      obtain ⟨rfl, hhash⟩ := hr
      exact .inr ⟨i, b, r, j, intent, ⟨rfl, hqueue, hjob, code, hhash, hpayload⟩, hotps, houtbox⟩

theorem commit_of_sent {rawEmail : String} (hcall : calls t = .send rawEmail)
    (h : Sent setup (normalizeEmail rawEmail) t s) : (spacing setup calls).commit t s := by
  rintro email ⟨rawEmail', hcall', rfl⟩
  obtain rfl := Call.send.inj (hcall.symm.trans hcall')
  rcases h with ⟨hotps, houtbox⟩ | ⟨i, b, r, j, intent, ⟨hemail, hmails⟩, hotps, houtbox⟩
  · exact .inl ⟨hotps.free, houtbox.free⟩
  · exact .inr ⟨i, b, r, j, intent, hotps, houtbox, hemail, hmails⟩

theorem sendCode_spaced {rawEmail : String} (hcall : calls t = .send rawEmail) :
    (spacingRules setup calls).Meets (system setup) (retentive setup calls) t (fun _ _ => True)
      (fun _ _ => True) (sendCode setup rawEmail) (Unsent t) := by
  have hsends : Sends calls t (normalizeEmail rawEmail) := ⟨rawEmail, hcall, rfl⟩
  have hfind : (findUserByEmailInsensitive (normalizeEmail rawEmail)).Uses
      (Request.Neutral (spacing setup calls).tables) :=
    .bind (uses_send.mpr fun _ => id) fun _ => uses_pure _
  have hcode : (request .generateOtpCode).Uses (Request.Neutral (spacing setup calls).tables) :=
    uses_send.mpr id
  have hbegin : (Request.sql .begin).Neutral (spacing setup calls).tables := trivial
  have hstart : (spacingRules setup calls).Meets (system setup) (retentive setup calls) t
      (fun _ s => ∃ now, s.db.startedAt t = some now ∧ Unsent t s) (fun _ _ => True)
      (statement .begin) (Unsent t) := by
    refine Rules.Meets.send unsent_stable (keeping_answers
      (fun _ _ _ _ => guard_of_neutral hbegin) fun s o _ s' hs _ h hexec => ?_) fun _ =>
        Rules.Stable.exists fun now => (startedAt_stable _).and unsent_stable
    have hunsent := firm_unsent s s' hs (hs.exec hexec) (.of_neutral hbegin hexec) h
    simp only [Request.exec, Sql.exec, Option.map_some, Option.some.injEq, Prod.mk.injEq] at hexec
    obtain ⟨-, rfl⟩ := hexec
    exact ⟨s.clock, Function.update_self .., hunsent⟩
  have hrollback (e : Error) : (spacingRules setup calls).Meets (system setup)
      (retentive setup calls) t (fun _ => Sent setup (normalizeEmail rawEmail) t)
      (fun _ _ => True) (statement .rollback >>= fun _ => (throw e : Service Bool))
      fun _ => True :=
    .bind (Rules.Meets.send (.const True) (keeping_answers (fun _ _ _ _ => guard_of_rollback)
      fun _ _ _ _ _ _ _ _ => trivial) fun _ => .const True)
        fun _ => .throw (.const True) fun _ _ _ => trivial
  have hcommit (issued : Bool) : (spacingRules setup calls).Meets (system setup)
      (retentive setup calls) t (fun _ _ => True) (fun _ _ => True)
      (statement .commit >>= fun _ => pure issued) (Sent setup (normalizeEmail rawEmail) t) :=
    .bind (Rules.Meets.send (sent_stable _) (keeping_answers
      (fun s _ _ h => guard_of_end (.inl rfl) (commit_of_sent hcall h))
      fun _ _ _ _ _ _ _ _ => trivial) fun _ => .const True)
        fun _ => .pure (.const True) fun _ _ _ => trivial
  unfold sendCode
  refine neutral_bind firm_unsent hfind (fun _ _ _ => trivial) fun user => ?_
  split
  · exact .throw (.const True) fun _ _ _ => trivial
  refine neutral_bind firm_unsent hcode (fun _ _ _ => trivial) fun code => .bind
    (transaction_meets hstart (.bind (issue_spaced hsends) (enqueueCode_meets hsends)) hrollback
      hcommit) fun issued => ?_
  split
  · exact .pure (.const True) fun _ _ _ => trivial
  · exact .throw (.const True) fun _ _ _ => trivial

/-! ## Runs -/

theorem calls_spaced (hstart : s₀.AtRest) :
    (spacingRules setup calls).Sound (system setup) (retentive setup calls) (fun _ _ _ => True)
      (fun _ _ _ => True) (calling (fun t => (calls t).program setup) s₀) := by
  refine hstart.sound (fun _ _ => True) (fun _ => trivial) fun t => ?_
  have hquiet {call : Call} (hcall : calls t = call) (hsend : ∀ rawEmail, call ≠ .send rawEmail) :
      ∀ email, ¬ Sends calls t email :=
    fun email ⟨rawEmail, h, _⟩ => hsend rawEmail (hcall.symm.trans h)
  have hlets {p : Service Unit} (hp : p.Uses ((spacing setup calls).Lets t)) :
      (spacingRules setup calls).Meets (system setup) (retentive setup calls) t
        (fun _ _ => True) (fun _ _ => True) p
        fun s => Fresh (spacing setup calls).tables t s ∧ True :=
    (meets_lets hp).weaken fun _ _ _ => trivial
  cases hcall : calls t with
  | verify rawEmail code =>
      exact hlets (.bind (verifyCode_quiet (hquiet hcall nofun) _ _) fun _ => uses_pure _)
  | send rawEmail =>
      exact (sendCode_spaced hcall).weaken fun s _ h => ⟨h.1 .emailOtps (.inl rfl),
        h.1 .outbox (.inr rfl)⟩
  | register userData =>
      exact hlets (.bind (register_quiet (hquiet hcall nofun) _) fun _ => uses_pure _)
  | cleanup => exact hlets (cleanup_quiet (hquiet hcall nofun))

/-- The resend cooldown holds and every code is mailed. -/
theorem sends_spaced {c : Config ℕ Error Request Request.Reply State Unit} (hstart : s₀.AtRest)
    (hemails : UniqueEmails s₀.db.emailOtps)
    (hrun : (system setup).Reaches (retentive setup calls)
      (calling (fun t => (calls t).program setup) s₀) c) :
    Spaced setup calls c.shared.db.emailOtps.log ∧
      Mailed setup calls c.shared.db.emailOtps.log c.shared.db.outbox.log := by
  have hcodes : s₀.db.emailOtps.AtRest := hstart.tables .emailOtps
  have hkept : Remembered setup calls c.shared ∧ Posted setup calls c.shared :=
    keeping_induction_later
      (P := fun s => Remembered setup calls s ∧ Posted setup calls s) (fun _ _ h => h)
      (fun _ _ _ => trivial) (calls_spaced hstart) hrun
      ⟨remembered_of_atRest hcodes hemails, posted_of_atRest hcodes (hstart.tables .outbox)⟩
      fun s s' h hlater hevent => ⟨h.1.step hlater hevent, h.2.step hevent⟩
  exact ⟨hkept.1.spaced, hkept.2.mailed⟩

/-! ## A row that is cleaned up -/

/-- Sends to one address, and a cleanup. -/
def resends (t : ℕ) : Call := if t ∈ [1, 2, 4] then .send "a@b.c" else .cleanup

/-- The steps of a send and of the cleanup. -/
def steps (t : ℕ) : List (Label ℕ Oracle) := List.replicate 10 (.run t { fresh := t })

/-- When the codes were sent. -/
def sentTimes (s : State) : List (ℕ × Option (String × Time)) :=
  s.db.emailOtps.log.map fun e => (e.1, e.2.2.map fun r => (r.email, r.sentAt))

/-- Rows are deleted after the cooldown, and no send has begun by then. -/
def unhurried (t : ℕ) (r : Request) (s : State) : Bool :=
  match r with
  | .sql (.emailOtps (.visit i _ .delete)) =>
      (s.db.emailOtps.view t i).all fun row => decide (row.sentAt + 60000 ≤ s.clock) &&
        [1, 2, 4].all fun u => (s.db.startedAt u).isNone
  | _ => true

def inTurn : Config ℕ Error Request Request.Reply State Unit :=
  (system plainSetup).after (calling (fun t => (resends t).program plainSetup) (plainState .empty))
    (steps 1 ++ [.move { move := .clock 60000 }] ++ steps 2 ++
      [.move { move := .clock 2460001 }] ++ steps 3 ++ steps 4)

theorem mem_of_sends {email : String} (h : Sends resends t email) : t ∈ [1, 2, 4] := by
  obtain ⟨rawEmail, hcall, -⟩ := h
  unfold resends at hcall
  split at hcall
  · assumption
  · cases hcall

theorem retentive_of_unhurried (r : Request) (s : State) (h : unhurried t r s = true) :
    (retentive plainSetup resends).request t r s := by
  rintro i w rfl row hview -
  simp only [unhurried, hview, Option.all_some, Bool.and_eq_true, decide_eq_true_eq,
    List.all_eq_true, Option.isNone_iff_eq_none] at h
  refine ⟨h.1, fun u now hsends hnow => ?_⟩
  rw [h.2 u (mem_of_sends hsends)] at hnow
  cases hnow

theorem sends_spaced_inTurn : (Spaced plainSetup resends inTurn.shared.db.emailOtps.log ∧
      Mailed plainSetup resends inTurn.shared.db.emailOtps.log inTurn.shared.db.outbox.log) ∧
    sentTimes inTurn.shared = [(1, some ("a@b.c", 0)), (2, some ("a@b.c", 60000)), (3, none),
      (4, some ("a@b.c", 2460001))] := by
  refine ⟨sends_spaced plainState_atRest (fun i r j r' hr => ?_) (.of_passes_moves unhurried
    (fun s s' => decide (s.clock ≤ s'.clock)) (fun _ => retentive_of_unhurried)
    (fun _ _ => of_decide_eq_true) (by decide +kernel) (by decide +kernel)), by decide +kernel⟩
  rcases hr with hr | ⟨u, hr⟩ <;> cases hr

/-- A configuration with a cooldown that outlasts the row. -/
def forgetful : Setup :=
  { plainSetup with env :=
    { plainSetup.env with
      otpExpiresMinutes := 1, otpVerifiedWindowMinutes := 1, otpResendCooldownSeconds := 3600 } }

/-- Runs in which time goes on. -/
def forward : Assumption ℕ Request State where
  request _ _ _ := True
  move s s' := s.clock ≤ s'.clock

/-- The second code is sent two minutes after the first, when the row has been cleaned up. -/
def forgotten : Config ℕ Error Request Request.Reply State Unit :=
  (system forgetful).after (calling (fun t => (resends t).program forgetful) (plainState .empty))
    (steps 1 ++ [.move { move := .clock 120001 }] ++ steps 3 ++ steps 2)

theorem resent_early : forgetful.env.Admitted ∧ (plainState .empty).AtRest ∧
    UniqueEmails (plainState .empty).db.emailOtps ∧
    (system forgetful).Reaches forward
      (calling (fun t => (resends t).program forgetful) (plainState .empty)) forgotten ∧
    ¬ Spaced forgetful resends forgotten.shared.db.emailOtps.log := by
  refine ⟨by decide, plainState_atRest, fun i r j r' hr => ?_, .of_passes_moves (fun _ _ _ => true)
    (fun s s' => decide (s.clock ≤ s'.clock)) (fun _ _ _ _ => trivial)
    (fun _ _ => of_decide_eq_true) (by decide +kernel) (by decide +kernel), fun h => ?_⟩
  · rcases hr with hr | ⟨u, hr⟩ <;> cases hr
  have hsent : sentTimes forgotten.shared =
      [(1, some ("a@b.c", 0)), (3, none), (2, some ("a@b.c", 120001))] := by decide +kernel
  have hissued {e : ℕ × ℕ × Option EmailOtp} {r : EmailOtp} (hr : e.2.2 = some r)
      (ht : e.1 ∈ [1, 2, 4]) (hemail : r.email = "a@b.c") : Issued resends e r :=
    ⟨hr, "a@b.c", if_pos ht, by rw [hemail]; decide⟩
  have hspaced : (sentTimes forgotten.shared).Pairwise fun x y =>
      ∀ m n, x.1 ∈ [1, 2, 4] → y.1 ∈ [1, 2, 4] → x.2 = some ("a@b.c", m) →
        y.2 = some ("a@b.c", n) → m + 3600000 ≤ n := by
    refine List.pairwise_map.mpr (h.imp fun {e e'} hR m n ht ht' hx hy => ?_)
    obtain ⟨r, hr, hrow⟩ := Option.map_eq_some_iff.mp hx
    obtain ⟨r', hr', hrow'⟩ := Option.map_eq_some_iff.mp hy
    obtain ⟨hemail, rfl⟩ := Prod.mk.inj hrow
    obtain ⟨hemail', rfl⟩ := Prod.mk.inj hrow'
    exact hR r r' (hissued hr ht hemail) (hissued hr' ht' hemail') (hemail.trans hemail'.symm)
  rw [hsent] at hspaced
  have hearly := (List.pairwise_cons.mp hspaced).1 _ (.tail _ (.head _)) 0 120001 (by decide)
    (by decide) rfl rfl
  exact absurd hearly (by decide)

end ExpressCore.Cooldown
