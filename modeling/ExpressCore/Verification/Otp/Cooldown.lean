import ExpressCore.Verification.Otp.Codes

/-! # The resend cooldown

A code is sent when the row of its address does not forbid it. The row is forgotten when it is
cleaned up. -/

namespace ExpressCore.Cooldown

open Otp ReadCommitted Interleaving Interleaving.Program

variable {setup : Setup} {A : Assumption ℕ Request State} {calls : ℕ → Call} {t i : ℕ}
  {email : String} {sentAt : Time} {s s' : State}

def cooldown (setup : Setup) : ℕ := setup.env.otpResendCooldownSeconds * 1000

/-- Thread `t` sends a code to this address. -/
def Sends (calls : ℕ → Call) (t : ℕ) (email : String) : Prop :=
  ∃ rawEmail, calls t = .send rawEmail ∧ normalizeEmail rawEmail = email

/-- The entry of the log is that of a code that was issued. -/
def Issued (calls : ℕ → Call) (e : ℕ × ℕ × Option EmailOtp) (r : EmailOtp) : Prop :=
  e.2.2 = some r ∧ Sends calls e.1 r.email

/-- Codes for one address are sent at least the cooldown apart. -/
def Spaced (setup : Setup) (calls : ℕ → Call) (L : List (ℕ × ℕ × Option EmailOtp)) : Prop :=
  L.Pairwise fun e e' => ∀ r r', Issued calls e r → Issued calls e' r' → r.email = r'.email →
    r.sentAt + cooldown setup ≤ r'.sentAt

/-- The intent to mail the code of the row. -/
def Mails (setup : Setup) (r : EmailOtp) (intent : Outbox) : Prop :=
  intent.queueName = EMAIL ∧ intent.jobName = "sendOtpEmail" ∧
    ∃ code, r.codeHash = hashOtpCode setup r.email code ∧
      intent.payload = .obj [("email", .str r.email), ("code", .str code),
        ("expiresMinutes", .num setup.env.otpExpiresMinutes)]

/-- Every code that is issued comes with one intent to mail it, and every such intent with a
code. -/
structure Mailed (setup : Setup) (calls : ℕ → Call) (codes : List (ℕ × ℕ × Option EmailOtp))
    (intents : List (ℕ × ℕ × Option Outbox)) : Prop where
  sends : ∀ t email, Sends calls t email →
    (codes.filter (·.1 == t) = [] ∧ intents.filter (·.1 == t) = []) ∨
      ∃ i r j intent, codes.filter (·.1 == t) = [(t, i, some r)] ∧
        intents.filter (·.1 == t) = [(t, j, some intent)] ∧ r.email = email ∧ Mails setup r intent
  others : ∀ t j intent, (t, j, some intent) ∈ intents → intent.jobName = "sendOtpEmail" →
    ∃ email, Sends calls t email

/-! ## The discipline -/

/-- No send to the address, under way or to come, is within the cooldown of `sentAt`. -/
def Elapsed (setup : Setup) (calls : ℕ → Call) (email : String) (sentAt : Time) (s : State) :
    Prop :=
  sentAt + cooldown setup ≤ s.clock ∧ ∀ t now, Sends calls t email →
    s.db.startedAt t = some now → sentAt + cooldown setup ≤ now

/-- Runs in which time goes on, and in which a row is cleaned up when its cooldown has elapsed. -/
def retentive (setup : Setup) (calls : ℕ → Call) : Assumption ℕ Request State where
  request t r s := ∀ i w, r = .sql (.emailOtps (.visit i w .delete)) →
    ∀ row, s.db.emailOtps.view t i = some row → Condition.holds w i row = true →
      Elapsed setup calls row.email row.sentAt s
  move s s' := s.clock ≤ s'.clock

/-- Codes are issued by sends, at the time their transaction began, and a send commits its code
together with the intent to mail it. -/
def spacing (setup : Setup) (calls : ℕ → Call) : Discipline where
  tables k := k = .emailOtps ∨ k = .outbox
  change
    | t, .emailOtps, .visit _ _ c, _ => (∀ email, ¬ Sends calls t email) ∧
        ∀ codeHash sentAt expiresAt issuance, c ≠ .reissue codeHash sentAt expiresAt issuance
    | t, .emailOtps, .upsert key row guard c, s => key = .email row.email ∧
        guard = .cooled row.sentAt (cooldown setup) ∧
        c = .reissue row.codeHash row.sentAt row.expiresAt row.issuance ∧
        Sends calls t row.email ∧ Ledger .emailOtps t [] [] s ∧
        s.db.startedAt t = some row.sentAt
    | t, .outbox, .insert row, _ => row.jobName = "sendOtpEmail" → ∃ email, Sends calls t email
    | _, .emailOtps, _, _ => False
    | _, .outbox, _, _ => False
    | _, _, _, _ => True
  commit t s := ∀ email, Sends calls t email →
    (s.db.emailOtps.Free t ∧ s.db.outbox.Free t) ∨
      ∃ i b r j intent, Ledger .emailOtps t [(i, b, some r)] [] s ∧
        Ledger .outbox t [(j, none, some intent)] [] s ∧ r.email = email ∧ Mails setup r intent
  other _ _ _ := True
  commit_free _ _ h _ _ := .inl ⟨h .emailOtps (.inl rfl), h .outbox (.inr rfl)⟩

theorem Elapsed.later (h : Elapsed setup calls email sentAt s) (hlater : s.Later s') :
    Elapsed setup calls email sentAt s' := by
  refine ⟨Nat.le_trans h.1 hlater.clock, fun t now hsends hnow => ?_⟩
  rcases hlater.begun t now hnow with hnow | rfl
  · exact h.2 t now hsends hnow
  · exact h.1

theorem Elapsed.of_le {before : Time} (h : Elapsed setup calls email sentAt s)
    (hle : before ≤ sentAt) : Elapsed setup calls email before s := by
  have hle : before + cooldown setup ≤ sentAt + cooldown setup := Nat.add_le_add_right hle _
  exact ⟨Nat.le_trans hle h.1, fun t now hsends hnow => Nat.le_trans hle (h.2 t now hsends hnow)⟩

/-! ## What is stored of codes -/

/-- What thread `t` leaves in row `i`. -/
inductive Stored (setup : Setup) (calls : ℕ → Call) (s : State) (t i : ℕ) : Option EmailOtp → Prop
  where
  | change (old new : EmailOtp) : (∀ email, ¬ Sends calls t email) →
      s.db.emailOtps.view t i = some old → SameCode old new → Stored setup calls s t i (some new)
  | delete (old : EmailOtp) : s.db.emailOtps.view t i = some old →
      Elapsed setup calls old.email old.sentAt s → Stored setup calls s t i none
  | insert (row : EmailOtp) : Sends calls t row.email → s.db.startedAt t = some row.sentAt →
      s.db.emailOtps.committed i = none →
      (∀ j r, s.db.emailOtps.Version j r → r.email ≠ row.email) →
      Stored setup calls s t i (some row)
  | replace (old row : EmailOtp) : Sends calls t row.email → s.db.startedAt t = some row.sentAt →
      s.db.emailOtps.committed i = some old → old.email = row.email →
      old.sentAt + cooldown setup ≤ row.sentAt → Stored setup calls s t i (some row)

theorem stored_of_wrote {v : Option EmailOtp}
    {a : Access ℕ EmailOtp EmailOtpWhere EmailOtpChange}
    (hchange : (spacing setup calls).change t .emailOtps a s)
    (hA : (retentive setup calls).request t (.sql (.emailOtps a)) s)
    (h : a.Wrote t s.db.emailOtps i v) : Stored setup calls s t i v := by
  cases h with
  | visit _ w c old hlocked hview hw =>
      obtain ⟨hsends, hc⟩ := hchange
      cases c with
      | delete => exact .delete old hview (hA i w rfl old hview hw)
      | reissue codeHash sentAt expiresAt issuance => exact (hc _ _ _ _ rfl).elim
      | _ => exact .change old _ hsends hview rfl
  | visitUnlocked => exact hchange.elim
  | insert => exact hchange.elim
  | create _ key row guard c hcontended hmatching hfresh =>
      obtain ⟨rfl, rfl, rfl, hsends, hledger, hstarted⟩ := hchange
      refine .insert row hsends hstarted ?_ fun j r hr hemail => ?_
      · by_contra hsome
        obtain ⟨r, hr⟩ := Option.ne_none_iff_exists'.mp hsome
        exact hfresh (Table.mem_of_committed _ i r hr)
      · have hmem : (j, r) ∈ s.db.emailOtps.matching t (EmailOtpWhere.email row.email) :=
          matching_of_version hledger.free hcontended hr hemail
        rw [hmatching] at hmem
        cases hmem
  | update _ key row guard c old hcontended hlocked hview hkey hguard =>
      obtain ⟨rfl, rfl, rfl, hsends, hledger, hstarted⟩ := hchange
      have hcommitted : s.db.emailOtps.committed i = some old :=
        (Table.view_of_not_pending fun v => hledger.free i v).symm.trans hview
      have hemail : old.email = row.email := beq_iff_eq.mp hkey
      exact .replace old _ (hemail ▸ hsends) hstarted hcommitted rfl (of_decide_eq_true hguard)

/-- What is remembered of the codes that were issued. -/
structure Remembered (setup : Setup) (calls : ℕ → Call) (s : State) : Prop where
  emails : UniqueEmails s.db.emailOtps
  spaced : Spaced setup calls s.db.emailOtps.log
  past : ∀ e ∈ s.db.emailOtps.log, ∀ r, Issued calls e r →
    (∃ j r', s.db.emailOtps.committed j = some r' ∧ r'.email = r.email ∧ r.sentAt ≤ r'.sentAt) ∨
      Elapsed setup calls r.email r.sentAt s
  changing : ∀ i t r old, s.db.emailOtps.pending i = some (t, some r) →
    s.db.emailOtps.committed i = some old → r.email = old.email ∧ old.sentAt ≤ r.sentAt
  deleting : ∀ i t old, s.db.emailOtps.pending i = some (t, none) →
    s.db.emailOtps.committed i = some old → Elapsed setup calls old.email old.sentAt s
  issuing : ∀ i t r, s.db.emailOtps.pending i = some (t, some r) → Sends calls t r.email →
    ∀ e ∈ s.db.emailOtps.log, ∀ r', Issued calls e r' → r'.email = r.email →
      r'.sentAt + cooldown setup ≤ r.sentAt

theorem remembered_of_atRest (h : s.db.emailOtps.AtRest) (hemails : UniqueEmails s.db.emailOtps) :
    Remembered setup calls s where
  emails := hemails
  spaced := by simp [Spaced, h.log]
  past := by simp [h.log]
  changing i t r old hp := by simp [h.pending i] at hp
  deleting i t old hp := by simp [h.pending i] at hp
  issuing i t r hp := by simp [h.pending i] at hp

theorem Remembered.of_fewer (h : Remembered setup calls s) (hlater : s.Later s')
    (hcommitted : s'.db.emailOtps.committed = s.db.emailOtps.committed)
    (hlog : s'.db.emailOtps.log = s.db.emailOtps.log)
    (hpending : ∀ i w, s'.db.emailOtps.pending i = some w → s.db.emailOtps.pending i = some w) :
    Remembered setup calls s' where
  emails := by
    have hversion {j : ℕ} {r : EmailOtp} (hr : s'.db.emailOtps.Version j r) :
        s.db.emailOtps.Version j r :=
      hr.imp (fun hr => hcommitted ▸ hr) fun ⟨u, hr⟩ => ⟨u, hpending j _ hr⟩
    exact fun i r j r' hr hr' => h.emails i r j r' (hversion hr) (hversion hr')
  spaced := hlog ▸ h.spaced
  past e he r hissued := by
    rw [hcommitted]
    exact (h.past e (hlog ▸ he) r hissued).imp_right fun helapsed => helapsed.later hlater
  changing i t r old hp hold := h.changing i t r old (hpending i _ hp) (hcommitted ▸ hold)
  deleting i t old hp hold :=
    (h.deleting i t old (hpending i _ hp) (hcommitted ▸ hold)).later hlater
  issuing i t r hp hsends := hlog ▸ h.issuing i t r (hpending i _ hp) hsends

/-- The version that `t` sees comes after the committed one. -/
theorem Remembered.view (h : Remembered setup calls s) {old seen : EmailOtp}
    (hview : s.db.emailOtps.view t i = some seen)
    (hcommitted : s.db.emailOtps.committed i = some old) :
    seen.email = old.email ∧ old.sentAt ≤ seen.sentAt := by
  by_cases hp : ∃ v, s.db.emailOtps.pending i = some (t, v)
  · obtain ⟨v, hv⟩ := hp
    rw [Table.view_of_pending hv] at hview
    subst hview
    exact h.changing i t seen old hv hcommitted
  · rw [Table.view_of_not_pending fun v hv => hp ⟨v, hv⟩, hcommitted] at hview
    obtain rfl := Option.some.inj hview
    exact ⟨rfl, Nat.le_refl _⟩

theorem Remembered.write {v : Option EmailOtp} (h : Remembered setup calls s)
    (hlater : s.Later s') (htable : s'.db.emailOtps = s.db.emailOtps.write t i v)
    (hstored : Stored setup calls s t i v) : Remembered setup calls s' where
  emails := by
    rw [htable]
    refine h.emails.write fun r hr j r' hr' hemail => ?_
    cases hstored with
    | change old new hsends hview hsame =>
        obtain rfl := Option.some.inj hr
        exact h.emails j r' i old hr' (version_of_view hview) (hemail.trans hsame.email)
    | delete old hview helapsed => cases hr
    | insert row hsends hstarted hnone hnew =>
        obtain rfl := Option.some.inj hr
        exact (hnew j r' hr' hemail).elim
    | replace old row hsends hstarted hcommitted hold =>
        obtain rfl := Option.some.inj hr
        exact h.emails j r' i old hr' (.inl hcommitted) (hemail.trans hold.symm)
  spaced := by
    rw [htable]
    exact h.spaced
  past e he r hissued := by
    rw [htable] at he ⊢
    exact (h.past e he r hissued).imp_right fun helapsed => helapsed.later hlater
  changing j u r old hp hold := by
    rw [htable] at hp hold
    rcases Table.write_pending hp with ⟨rfl, heq⟩ | ⟨-, hp⟩
    · obtain ⟨rfl, hr⟩ := Prod.mk.inj heq
      cases hstored with
      | change seen new hsends hview hsame =>
          obtain rfl := Option.some.inj hr
          obtain ⟨hemail, hle⟩ := h.view hview hold
          exact ⟨hsame.email.trans hemail, hsame.sentAt.symm ▸ hle⟩
      | delete => cases hr
      | insert row hsends hstarted hnone hnew =>
          rw [Table.write_committed, hnone] at hold
          cases hold
      | replace old' row hsends hstarted hcommitted hemail hle =>
          obtain rfl := Option.some.inj hr
          obtain rfl := Option.some.inj (hcommitted.symm.trans hold)
          exact ⟨hemail.symm, Nat.le_trans (Nat.le_add_right _ _) hle⟩
    · exact h.changing j u r old hp hold
  deleting j u old hp hold := by
    rw [htable] at hp hold
    rcases Table.write_pending hp with ⟨rfl, heq⟩ | ⟨-, hp⟩
    · obtain ⟨rfl, hr⟩ := Prod.mk.inj heq
      cases hstored with
      | delete seen hview helapsed =>
          obtain ⟨hemail, hle⟩ := h.view hview hold
          exact ((hemail ▸ helapsed).of_le hle).later hlater
      | _ => cases hr
    · exact (h.deleting j u old hp hold).later hlater
  issuing j u r hp hsends e he r' hissued hemail := by
    rw [htable] at hp he
    rcases Table.write_pending hp with ⟨rfl, heq⟩ | ⟨-, hp⟩
    · obtain ⟨rfl, hr⟩ := Prod.mk.inj heq
      have hpast := h.past e he r' hissued
      cases hstored with
      | change seen new hnot => exact (hnot _ hsends).elim
      | delete => cases hr
      | insert row _ hstarted hnone hnew =>
          obtain rfl := Option.some.inj hr
          rcases hpast with ⟨k, r'', hr'', hsame, -⟩ | helapsed
          · exact (hnew k r'' (.inl hr'') (hsame.trans hemail)).elim
          · exact helapsed.2 u r.sentAt (hemail ▸ hsends) hstarted
      | replace old row _ hstarted hcommitted hold hle =>
          obtain rfl := Option.some.inj hr
          rcases hpast with ⟨k, r'', hr'', hsame, hbefore⟩ | helapsed
          · obtain rfl : k = j := h.emails k r'' j old (.inl hr'') (.inl hcommitted)
              (hsame.trans (hemail.trans hold.symm))
            obtain rfl := Option.some.inj (hr''.symm.trans hcommitted)
            exact Nat.le_trans (Nat.add_le_add_right hbefore _) hle
          · exact helapsed.2 u r.sentAt (hemail ▸ hsends) hstarted
    · exact h.issuing j u r hp hsends e he r' hissued hemail

theorem Remembered.commit (h : Remembered setup calls s) (hlater : s.Later s')
    (htable : s'.db.emailOtps = s.db.emailOtps.commit t) : Remembered setup calls s' := by
  have hother {j u : ℕ} {w : Option EmailOtp} (hp : s'.db.emailOtps.pending j = some (u, w)) :
      s.db.emailOtps.pending j = some (u, w) ∧ u ≠ t ∧
        s'.db.emailOtps.committed j = s.db.emailOtps.committed j := by
    rw [htable] at hp ⊢
    obtain ⟨hp, hne⟩ := Table.commit_pending.mp hp
    refine ⟨hp, hne, Table.commit_committed_of_not_pending fun v hv => hne ?_⟩
    exact (Prod.mk.inj (Option.some.inj (hp.symm.trans hv))).1
  have hlog {e : ℕ × ℕ × Option EmailOtp} (he : e ∈ s'.db.emailOtps.log) :
      e ∈ s.db.emailOtps.log ∨ e.1 = t ∧ s.db.emailOtps.pending e.2.1 = some (t, e.2.2) := by
    rw [htable, Table.commit_log] at he
    exact (List.mem_append.mp he).imp_right Table.mem_writes.mp
  constructor
  · exact htable ▸ h.emails.commit
  · rw [Spaced, htable, Table.commit_log, List.pairwise_append]
    refine ⟨h.spaced, ?_, fun e he e' he' r r' hissued hissued' hemail => ?_⟩
    · refine (List.pairwise_map.mp s.db.emailOtps.writes_keys_nodup).imp_of_mem
        fun {e e'} he he' hne r r' hissued hissued' hemail => (hne ?_).elim
      have hp := (Table.mem_writes.mp he).2
      have hp' := (Table.mem_writes.mp he').2
      rw [hissued.1] at hp
      rw [hissued'.1] at hp'
      exact h.emails _ r _ r' (.inr ⟨t, hp⟩) (.inr ⟨t, hp'⟩) hemail
    · obtain ⟨ht, hp⟩ := Table.mem_writes.mp he'
      rw [hissued'.1] at hp
      exact h.issuing _ t r' hp (ht ▸ hissued'.2) e he r hissued hemail
  · intro e he r hissued
    rcases hlog he with he | ⟨-, hp⟩
    · rcases h.past e he r hissued with ⟨j, r', hr', hemail, hle⟩ | helapsed
      · rw [htable]
        rcases s.db.emailOtps.commit_committed_cases (t := t) (i := j) with
          ⟨v, hv, heq⟩ | ⟨-, heq⟩
        · cases v with
          | none =>
              have helapsed := h.deleting j t r' hv hr'
              exact .inr ((hemail ▸ helapsed.of_le hle).later hlater)
          | some r'' =>
              obtain ⟨hemail', hle'⟩ := h.changing j t r'' r' hv hr'
              exact .inl ⟨j, r'', heq, hemail'.trans hemail, Nat.le_trans hle hle'⟩
        · exact .inl ⟨j, r', heq.trans hr', hemail, hle⟩
      · exact .inr (helapsed.later hlater)
    · rw [hissued.1] at hp
      refine .inl ⟨e.2.1, r, ?_, rfl, Nat.le_refl _⟩
      rw [htable]
      exact Table.commit_committed_of_pending hp
  · intro j u r old hp hold
    obtain ⟨hp, -, heq⟩ := hother hp
    exact h.changing j u r old hp (heq ▸ hold)
  · intro j u old hp hold
    obtain ⟨hp, -, heq⟩ := hother hp
    exact (h.deleting j u old hp (heq ▸ hold)).later hlater
  · intro j u r hp hsends e he r' hissued hemail
    obtain ⟨hp, hne, -⟩ := hother hp
    rcases hlog he with he | ⟨-, hp'⟩
    · exact h.issuing j u r hp hsends e he r' hissued hemail
    · rw [hissued.1] at hp'
      obtain hj : e.2.1 = j := h.emails _ r' j r (.inr ⟨t, hp'⟩) (.inr ⟨u, hp⟩) hemail
      rw [hj, hp] at hp'
      exact (hne (Prod.mk.inj (Option.some.inj hp')).1).elim

theorem Remembered.step (h : Remembered setup calls s) (hlater : s.Later s')
    (hevent : Event setup (retentive setup calls) (spacing setup calls) s s') :
    Remembered setup calls s' := by
  have hrow := hevent.on .emailOtps
  simp only [TableName.table] at hrow
  cases hrow with
  | same hcommitted hpending hlog =>
      exact h.of_fewer hlater hcommitted hlog fun i w hw => hpending ▸ hw
  | write t a i v hchange hA hwrote htable =>
      exact h.write hlater htable (stored_of_wrote (hchange (.inl rfl)) hA hwrote)
  | commit t hcommit htable => exact h.commit hlater htable
  | abort t htable =>
      exact h.of_fewer hlater (by rw [htable]; rfl) (by rw [htable]; rfl)
        fun i w hw => (Table.abort_pending.mp (htable ▸ hw)).1

/-! ## Intents -/

/-- What is stored of intents. -/
structure Posted (setup : Setup) (calls : ℕ → Call) (s : State) : Prop where
  mailed : Mailed setup calls s.db.emailOtps.log s.db.outbox.log
  pending : ∀ j t intent, s.db.outbox.pending j = some (t, some intent) →
    intent.jobName = "sendOtpEmail" → ∃ email, Sends calls t email

theorem posted_of_atRest (hcodes : s.db.emailOtps.AtRest) (hintents : s.db.outbox.AtRest) :
    Posted setup calls s := by
  refine ⟨⟨fun t email hsends => .inl ?_, ?_⟩, fun j t intent hp => ?_⟩
  · simp [hcodes.log, hintents.log]
  · simp [hintents.log]
  · simp [hintents.pending j] at hp

theorem Posted.commit (h : Posted setup calls s) (hcommit : (spacing setup calls).commit t s)
    (hcodes : s'.db.emailOtps = s.db.emailOtps.commit t)
    (hintents : s'.db.outbox = s.db.outbox.commit t) :
    Mailed setup calls s'.db.emailOtps.log s'.db.outbox.log := by
  rw [hcodes, hintents]
  constructor
  · intro u email hsends
    by_cases hu : u = t
    · subst hu
      rcases hcommit email hsends with ⟨hfree, hfree'⟩ |
        ⟨i, b, r, j, intent, hledger, hledger', hemail, hmails⟩
      · rw [hfree.settled.2, hfree'.settled.2]
        exact h.mailed.sends u email hsends
      · have hledger : s.db.emailOtps.Ledger u [(i, b, some r)] [] := hledger
        have hledger' : s.db.outbox.Ledger u [(j, none, some intent)] [] := hledger'
        refine .inr ⟨i, r, j, intent, ?_, ?_, hemail, hmails⟩
        · rw [hledger.commit_log, List.filter_append, hledger.filter_log]
          simp
        · rw [hledger'.commit_log, List.filter_append, hledger'.filter_log]
          simp
    · rw [Table.commit_log, Table.commit_log, List.filter_append, List.filter_append,
        Table.filter_writes_of_ne hu, Table.filter_writes_of_ne hu, List.append_nil,
        List.append_nil]
      exact h.mailed.sends u email hsends
  · intro u j intent hmem hjob
    rw [Table.commit_log] at hmem
    rcases List.mem_append.mp hmem with hmem | hmem
    · exact h.mailed.others u j intent hmem hjob
    · obtain ⟨rfl, hp⟩ := Table.mem_writes.mp hmem
      exact h.pending j u intent hp hjob

theorem Posted.step (h : Posted setup calls s)
    (hevent : Event setup A (spacing setup calls) s s') : Posted setup calls s' := by
  constructor
  · rcases hevent.settled with ⟨t, hcommit, htables⟩ | hsettled
    · exact h.commit hcommit (htables .emailOtps) (htables .outbox)
    · have hcodes : s'.db.emailOtps.log = s.db.emailOtps.log := (hsettled .emailOtps).2
      have hintents : s'.db.outbox.log = s.db.outbox.log := (hsettled .outbox).2
      rw [hcodes, hintents]
      exact h.mailed
  · intro j u intent hp hjob
    have hrow := hevent.on .outbox
    simp only [TableName.table] at hrow
    cases hrow with
    | same hcommitted hpending hlog => exact h.pending j u intent (hpending ▸ hp) hjob
    | write t a i v hchange hA hwrote htable =>
        rw [htable] at hp
        rcases Table.write_pending hp with ⟨rfl, heq⟩ | ⟨-, hp⟩
        · obtain ⟨rfl, hv⟩ := Prod.mk.inj heq
          have hrule := hchange (.inr rfl)
          cases hwrote with
          | insert =>
              obtain rfl := Option.some.inj hv
              exact hrule hjob
          | _ => exact hrule.elim
        · exact h.pending j u intent hp hjob
    | commit t hcommit htable =>
        rw [htable] at hp
        exact h.pending j u intent (Table.commit_pending.mp hp).1 hjob
    | abort t htable =>
        rw [htable] at hp
        exact h.pending j u intent (Table.abort_pending.mp hp).1 hjob

end ExpressCore.Cooldown
