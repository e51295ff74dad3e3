import ExpressCore.Model.DeadLetter
import ExpressCore.Verification.System.Calls
import ExpressCore.Verification.System.Start

/-! # Concurrent re-drives -/

namespace ExpressCore.DeadLetter

open ReadCommitted Interleaving Interleaving.Program

variable {setup : Setup} {traced : Prop} {A : Assumption ℕ Request State}
  {calls : ℕ → ℕ × Option String} {t : ℕ} {s s' s₀ : State}

/-- A committed re-drive: the dead letter it found, and what it wrote. -/
structure Drive where
  row : DeadLetterJob
  now : Time
  redrivenAt : Time
  redrivenBy : Option String
  outboxId : ℕ

/-- The intent that a re-drive inserts. -/
def intentOf (row : DeadLetterJob) (now : Time) : Outbox :=
  { queueName := row.queueName, jobName := row.jobName, payload := row.payload, status := .pending
    attempts := 0, availableAt := now, publishedAt := none, lastError := none }

def Drive.intent (d : Drive) : Outbox := intentOf d.row d.now

def Drive.stamped (d : Drive) : DeadLetterJob :=
  { d.row with
    redrivenAt := some d.redrivenAt
    redrivenBy := d.redrivenBy
    redriveOutboxId := some d.outboxId }

/-- What a re-drive reports. -/
structure Drive.Reports (d : Drive) (id : ℕ) (result : RedriveResult) : Prop where
  deadLetterId : result.deadLetterId = id
  outboxId : result.outboxId = d.outboxId
  queueName : result.queueName = d.row.queueName
  jobName : result.jobName = d.row.jobName

/-! ## One re-drive -/

/-- The tables that a re-drive writes to. -/
def Driven (k : TableName) : Prop := k = .outbox ∨ k = .deadLetterJobs

/-- A re-drive is ready to commit: it holds the intent and the stamp. -/
def Ready (id t : ℕ) (d : Drive) (s : State) : Prop :=
  d.row.redrivenAt = none ∧
    Ledger .outbox t [(d.outboxId, none, some d.intent)] [] s ∧
    Ledger .deadLetterJobs t [(id, some d.row, some d.stamped)] [] s

/-- A re-drive commits an intent with its stamp, or nothing. -/
def redriving (calls : ℕ → ℕ × Option String) : Discipline where
  tables := Driven
  change _ _ _ _ := True
  commit t s := Unlocked Driven t s ∨ ∃ d, Ready (calls t).1 t d s
  other _ _ _ := True
  commit_free _ _ h := .inl h

/-- What a re-drive that returns has done. -/
def Drove (id t : ℕ) (result : RedriveResult) (s : State) : Prop :=
  ∃ d : Drive, d.Reports id result ∧ Ledger .outbox t [] [(d.outboxId, some d.intent)] s ∧
    Ledger .deadLetterJobs t [] [(id, some d.stamped)] s

section Uses

variable {K : TableName → Prop}

private theorem uses_expired {expiresAt : Time} {refusal : String} :
    ((request .now) >>= fun now =>
      if expiresAt ≤ now then pure (some refusal) else pure none : Service (Option String)).Uses
      (Request.Neutral K) :=
  .bind (uses_send.mpr id) fun now => by split <;> trivial

theorem uses_guardVerification (payload : Json) :
    (guardVerification payload).Uses (Request.Neutral K) := by
  unfold guardVerification
  dsimp only
  split
  · refine .bind (uses_send.mpr fun _ h => h) fun record => ?_
    split
    · trivial
    · exact uses_expired
  · trivial

theorem uses_guardResetPassword (payload : Json) :
    (guardResetPassword payload).Uses (Request.Neutral K) := by
  have hused (record : PasswordResetToken) :
      (if record.usedAt.isSome then pure (some "the password-reset token was already used")
        else do
          let now ← request .now
          if record.expiresAt ≤ now then pure (some "the password-reset token has expired")
          else pure none : Service (Option String)).Uses (Request.Neutral K) := by
    split
    · trivial
    · exact uses_expired
  unfold guardResetPassword
  dsimp only
  split
  · refine .bind (uses_send.mpr fun _ h => h) fun record => ?_
    split
    · trivial
    · exact hused _
  · trivial

theorem uses_guardOtpCode (payload : Json) :
    (guardOtpCode setup payload).Uses (Request.Neutral K) := by
  have hrecord (email code : String) (record : EmailOtp) :
      (if !otpCodeMatches setup email code record.codeHash then
          pure (some "the registration code was replaced or no longer exists")
        else if record.consumedAt.isSome then
          pure (some "the registration code was already used")
        else if record.verifiedAt.isSome then
          pure (some "the registration code was already verified")
        else do
          let now ← request .now
          if record.expiresAt ≤ now then pure (some "the registration code has expired")
          else pure none : Service (Option String)).Uses (Request.Neutral K) := by
    split
    · trivial
    split
    · trivial
    split
    · trivial
    · exact uses_expired
  unfold guardOtpCode
  dsimp only
  split
  · refine .bind (uses_send.mpr fun _ h => h) fun record => ?_
    split
    · exact hrecord _ _ _
    · trivial
  · refine .bind (uses_pure _) fun record => ?_
    split
    · exact hrecord _ _ _
    · trivial

theorem uses_replayGuard (jobName : String) (payload : Json) :
    (replayGuard setup jobName payload).Uses (Request.Neutral K) := by
  unfold replayGuard
  split
  · exact uses_guardVerification payload
  split
  · exact uses_guardResetPassword payload
  split
  · exact uses_guardOtpCode payload
  · trivial

end Uses

theorem firm_ready (id : ℕ) (result : RedriveResult) : Firm Driven setup traced t fun s =>
    Clear t s ∧ ∃ d : Drive, d.Reports id result ∧ Ready id t d s :=
  Firm.clear.and (.exists fun _ => (Firm.const _).and ((Firm.const _).and
    ((Firm.ledger (.inl rfl) _ _).and (.ledger (.inr rfl) _ _))))

theorem firm_drove (id : ℕ) (result : RedriveResult) :
    Firm Driven setup traced t (Drove id t result) :=
  .exists fun _ => (Firm.const _).and ((Firm.ledger (.inl rfl) _ _).and (.ledger (.inr rfl) _ _))

theorem replay_meets {id : ℕ} {row : DeadLetterJob} (by' : Option String) :
    (keeping setup traced A (redriving calls)).Meets (system setup) A t
      (fun result s => Clear t s ∧ ∃ d : Drive, d.Reports id result ∧ Ready id t d s)
      (fun _ s => Quiet Driven t s ∧ True) (replay id row by')
      fun s => Identified .deadLetterJobs id row s ∧ Clear t s ∧ Fresh Driven t s := by
  have hstop (e : Error) (P : State → Prop) (hP : ∀ s, P s → Quiet Driven t s) :
      (keeping setup traced A (redriving calls)).Meets (system setup) A t
        (fun result s => Clear t s ∧ ∃ d : Drive, d.Reports id result ∧ Ready id t d s)
        (fun _ s => Quiet Driven t s ∧ True) (throw e : Service RedriveResult) P :=
    .throw (Firm.quiet.and (Firm.const True)).stable fun s _ h => ⟨hP s h, trivial⟩
  have hnow : (request .now).Uses (Request.Neutral Driven) := uses_send.mpr fun h => h.elim
  unfold replay
  split
  · exact hstop _ _ fun s h => quiet_of_fresh h.2.2
  · refine neutral_bind ((Firm.identified _ _ _).and (Firm.clear.and .fresh)) hnow
      (fun _ s h => ⟨quiet_of_fresh h.2.2, trivial⟩) fun now => ?_
    refine .bind (Rules.Meets.weaken (create_meets (k := .outbox) [] []
      (P := fun s => Identified .deadLetterJobs id row s ∧ Clear t s ∧
        Ledger .deadLetterJobs t [] [] s) ((Firm.identified _ _ _).and (Firm.clear.and
          (.ledger (by simp) _ _))) fun _ _ _ _ _ => trivial) ?_) fun outboxId => ?_
    · exact fun s _ h => ⟨h.2.2 .outbox (.inl rfl), h.1, h.2.1, h.2.2 .deadLetterJobs (.inr rfl)⟩
    have hinserted (s : State)
        (h : Ledger .outbox t [(outboxId, none, some (intentOf row now))] [] s)
        (h' : Ledger .deadLetterJobs t [] [] s) : Quiet Driven t s := by
      rintro k (rfl | rfl)
      · exact ⟨_, h⟩
      · exact ⟨_, h'⟩
    refine neutral_bind ((Firm.ledger (.inl rfl) _ _).and ((Firm.identified _ _ _).and
      (Firm.clear.and (.ledger (.inr rfl) _ _)))) hnow
      (fun _ s h => ⟨hinserted s h.1 h.2.2.2, trivial⟩) fun redrivenAt => ?_
    refine .bind (Rules.Meets.weaken (changeMany_meets (k := .deadLetterJobs) []
      (w := .undriven id) (c := .stamp redrivenAt by' outboxId)
      (P := fun s => Ledger .outbox t [(outboxId, none, some (intentOf row now))] [] s ∧
        Identified .deadLetterJobs id row s ∧ Clear t s)
      (Q := fun _ => True) ((Firm.ledger (by simp) _ _).and ((Firm.identified _ _ _).and .clear))
      (fun _ _ _ _ _ _ _ _ _ => trivial) fun _ _ _ _ _ _ _ _ _ => trivial) ?_) fun stamped => ?_
    · exact fun s _ h => ⟨h.2.2.2, h.1, h.2.1, h.2.2.1⟩
    refine Rules.Meets.exists fun olds => .assume fun hchanged => ?_
    have holds : ∀ x ∈ olds, x.1 = id ∧ x.2.redrivenAt = none := fun x hx => by
      have hx : (x.1 == id && x.2.redrivenAt.isNone) = true := hchanged.holds x hx
      simpa using hx
    rcases hchanged.single fun x hx => (holds x hx).1 with rfl | ⟨r, rfl⟩
    · obtain rfl : stamped = [] := by simpa using hchanged.changed
      exact hstop _ _ fun s h => hinserted s h.2.1 h.1
    · have hundriven : r.redrivenAt = none := (holds _ (.head _)).2
      rw [if_neg (by simp [hchanged.changed])]
      refine .pure (Firm.stable (firm_ready id _)) fun s hs h => ?_
      have hsame : r = { row with
          redrivenAt := r.redrivenAt, redrivenBy := r.redrivenBy
          redriveOutboxId := r.redriveOutboxId } :=
        h.2.2.1.2 r (.inl (h.1.before _ (.head _)))
      have hintent : intentOf row now = intentOf r now := by
        rw [hsame]
        rfl
      refine ⟨h.2.2.2, ⟨r, now, redrivenAt, by', outboxId⟩, ⟨rfl, rfl, ?_, ?_⟩, hundriven, ?_, h.1⟩
      · rw [hsame]
      · rw [hsame]
      · exact (congrArg (fun intent => Ledger .outbox t [(outboxId, none, some intent)] [] s)
          hintent).mp h.2.1

theorem redrive_meets (id : ℕ) (by' : Option String) (hid : (calls t).1 = id) :
    (keeping setup traced A (redriving calls)).Meets (system setup) A t (Drove id t)
      (fun e s => e = .lost ∨ Fresh Driven t s) (redrive setup id by')
      fun s => Fresh Driven t s ∧ True := by
  have hstop (e : Error) (P : State → Prop) (hP : ∀ s, P s → Quiet Driven t s) :
      (keeping setup traced A (redriving calls)).Meets (system setup) A t
        (fun result s => Clear t s ∧ ∃ d : Drive, d.Reports id result ∧ Ready id t d s)
        (fun _ s => Quiet Driven t s ∧ True) (throw e : Service RedriveResult) P :=
    .throw (Firm.quiet.and (Firm.const True)).stable fun s _ h => ⟨hP s h, trivial⟩
  refine transaction_keeps (Firm.const True) (fun _ => Firm.const True)
    (fun e => (Firm.const (K := Driven) _ |>.or .fresh).stable) (fun e s h _ => .inr h)
    (fun result s => Clear t s ∧ ∃ d, d.Reports id result ∧ Ready id t d s) ?_ ?_
  · unfold redriveInTransaction
    refine .bind (find_meets (k := .deadLetterJobs) (w := .id id) (Q := fun _ _ => True)
      (Firm.clear.and (Firm.fresh.and (.const True))) (fun _ => .const _)
      fun _ _ _ _ _ _ _ => trivial) fun found => ?_
    have hquiet (s : State) (h : (∀ x, found = some x → Condition.holds (DeadLetterWhere.id id)
        x.1 x.2 = true ∧ True ∧ Identified .deadLetterJobs x.1 x.2 s) ∧ Clear t s ∧
          Fresh Driven t s ∧ True) : Quiet Driven t s := quiet_of_fresh h.2.2.1
    split
    · exact hstop _ _ hquiet
    rename_i i row
    split
    · exact hstop _ _ hquiet
    split
    · exact hstop _ _ hquiet
    refine Rules.Meets.under (fun s => i = id ∧ Identified .deadLetterJobs i row s ∧
      Clear t s ∧ Fresh Driven t s) (.assume ?_) fun s _ h => ?_
    · rintro rfl
      refine neutral_bind ((Firm.identified _ _ _).and (Firm.clear.and .fresh))
        (uses_replayGuard _ _) (fun _ s h => ⟨quiet_of_fresh h.2.2, trivial⟩) fun refusal => ?_
      split
      · exact hstop _ _ fun s h => quiet_of_fresh h.2.2
      · exact replay_meets by'
    · obtain ⟨hi, -, hidentified⟩ := h.1 _ rfl
      have hi : (i == id) = true := hi
      exact ⟨by simpa using hi, hidentified, h.2.1, h.2.2.1⟩
  · intro result
    refine .bind (commit_meets (.inl rfl) (firm_ready id result).stable
      (fun _ => Drove id t result) (fun _ => ?_) (fun s _ _ h => ⟨h.1, .inr ?_⟩)
      fun s s' _ _ _ _ h htables _ => ?_) fun _ => .pure ?_ .refl
    · exact (firm_drove id result).stable
    · exact hid ▸ h.2.imp fun d hd => hd.2
    · obtain ⟨-, d, hreports, -, hintent, hstamped⟩ := h
      refine ⟨d, hreports, ?_, ?_⟩
      · rw [Ledger, htables]
        exact hintent.commit
      · rw [Ledger, htables]
        exact hstamped.commit
    · exact (firm_drove id result).stable

/-! ## Runs of re-drives -/

/-- The re-drive of thread `t` is committed, and nothing has happened to its rows since. -/
structure Driven.By (calls : ℕ → ℕ × Option String) (s₀ s : State) (t : ℕ) (d : Drive) : Prop where
  undriven : d.row.redrivenAt = none
  found : s₀.db.deadLetterJobs.committed (calls t).1 = some d.row
  stamp : (t, (calls t).1, some d.stamped) ∈ s.db.deadLetterJobs.log
  intent : (t, d.outboxId, some d.intent) ∈ s.db.outbox.log
  stamped : s.db.deadLetterJobs.committed (calls t).1 = some d.stamped
  inserted : s.db.outbox.committed d.outboxId = some d.intent

/-- Everything that is committed belongs to a re-drive, and no dead letter has two. -/
structure Accounted (calls : ℕ → ℕ × Option String) (s₀ s : State) : Prop where
  stamps : ∀ t i v, (t, i, v) ∈ s.db.deadLetterJobs.log →
    ∃ d, Driven.By calls s₀ s t d ∧ i = (calls t).1 ∧ v = some d.stamped
  intents : ∀ t j v, (t, j, v) ∈ s.db.outbox.log →
    ∃ d, Driven.By calls s₀ s t d ∧ j = d.outboxId ∧ v = some d.intent
  once : ∀ e ∈ s.db.deadLetterJobs.log, ∀ e' ∈ s.db.deadLetterJobs.log, e.2.1 = e'.2.1 → e = e'
  rows : s.db.deadLetterJobs.Explained s₀.db.deadLetterJobs

theorem accounted_of_atRest (h : s₀.AtRest) : Accounted calls s₀ s₀ := by
  have hrows := (h.tables .deadLetterJobs).log
  have houtbox := (h.tables .outbox).log
  simp only [TableName.table] at hrows houtbox
  constructor
  · simp [hrows]
  · simp [houtbox]
  · simp [hrows]
  · exact fun _ => .inl rfl

/-- A commit of a re-drive. -/
private theorem Accounted.commit (h : Accounted calls s₀ s)
    (hs : s.InOrder setup traced) (hrows : s'.db.deadLetterJobs = s.db.deadLetterJobs.commit t)
    (houtbox : s'.db.outbox = s.db.outbox.commit t) {d : Drive} (hready : Ready (calls t).1 t d s) :
    Accounted calls s₀ s' := by
  obtain ⟨hundriven, hintent, hstamp⟩ := hready
  have hfound : s.db.deadLetterJobs.committed (calls t).1 = some d.row :=
    hstamp.before _ (.head _)
  have hlog (e) : e ∈ s'.db.deadLetterJobs.log ↔
      e ∈ s.db.deadLetterJobs.log ∨ e = (t, (calls t).1, some d.stamped) := by
    rw [hrows]
    exact hstamp.mem_commit_log.trans (or_congr .rfl (by simp))
  have hlog' (e) : e ∈ s'.db.outbox.log ↔
      e ∈ s.db.outbox.log ∨ e = (t, d.outboxId, some d.intent) := by
    rw [houtbox]
    exact hintent.mem_commit_log.trans (or_congr .rfl (by simp))
  have hfirst : ∀ e ∈ s.db.deadLetterJobs.log, e.2.1 ≠ (calls t).1 := by
    intro e he heq
    obtain ⟨d', hd', hi, -⟩ := h.stamps _ _ _ he
    have hcommitted := hd'.stamped
    rw [← hi, heq, hfound] at hcommitted
    have hrow : d.row = d'.stamped := Option.some.inj hcommitted
    rw [hrow] at hundriven
    cases hundriven
  have hby : Driven.By calls s₀ s' t d :=
    { undriven := hundriven
      found := by
        rcases h.rows (calls t).1 with heq | ⟨u, hu⟩
        · exact heq ▸ hfound
        · exact (hfirst _ hu rfl).elim
      stamp := (hlog _).mpr (.inr rfl)
      intent := (hlog' _).mpr (.inr rfl)
      stamped := by
        rw [hrows]
        exact hstamp.committed (.head _)
      inserted := by
        rw [houtbox]
        exact hintent.committed (.head _) }
  have hkept {u : ℕ} {d' : Drive} (hd' : Driven.By calls s₀ s u d') : Driven.By calls s₀ s' u d' :=
    { undriven := hd'.undriven
      found := hd'.found
      stamp := (hlog _).mpr (.inl hd'.stamp)
      intent := (hlog' _).mpr (.inl hd'.intent)
      stamped := by
        rw [hrows]
        refine (hstamp.committed_of_ne fun x hx => ?_).trans hd'.stamped
        rw [List.mem_singleton.mp hx]
        exact (hfirst _ hd'.stamp).symm
      inserted := by
        rw [houtbox]
        refine (hintent.committed_of_ne fun x hx => ?_).trans hd'.inserted
        rw [List.mem_singleton.mp hx]
        exact (hintent.unborn (hs.ordered .outbox) (.head _) rfl _ hd'.intent).symm }
  constructor
  · intro u i v he
    rcases (hlog _).mp he with he | he
    · exact (h.stamps u i v he).imp fun _ hd' => ⟨hkept hd'.1, hd'.2⟩
    · cases he
      exact ⟨d, hby, rfl, rfl⟩
  · intro u j v he
    rcases (hlog' _).mp he with he | he
    · exact (h.intents u j v he).imp fun _ hd' => ⟨hkept hd'.1, hd'.2⟩
    · cases he
      exact ⟨d, hby, rfl, rfl⟩
  · intro e he e' he' heq
    rcases (hlog e).mp he with he | rfl <;> rcases (hlog e').mp he' with he' | rfl
    · exact h.once e he e' he' heq
    · exact (hfirst e he heq).elim
    · exact (hfirst e' he' heq.symm).elim
    · rfl
  · rw [hrows]
    exact Moves.explained (C := DeadLetterChange) .commit h.rows

private theorem Accounted.of_eq (h : Accounted calls s₀ s)
    (hrows : s'.db.deadLetterJobs.committed = s.db.deadLetterJobs.committed ∧
      s'.db.deadLetterJobs.log = s.db.deadLetterJobs.log)
    (houtbox : s'.db.outbox.committed = s.db.outbox.committed ∧
      s'.db.outbox.log = s.db.outbox.log) : Accounted calls s₀ s' := by
  have hkept {u : ℕ} {d : Drive} (hd : Driven.By calls s₀ s u d) : Driven.By calls s₀ s' u d :=
    { undriven := hd.undriven
      found := hd.found
      stamp := hrows.2 ▸ hd.stamp
      intent := houtbox.2 ▸ hd.intent
      stamped := hrows.1 ▸ hd.stamped
      inserted := houtbox.1 ▸ hd.inserted }
  constructor
  · rw [hrows.2]
    exact fun t i v he => (h.stamps t i v he).imp fun _ hd => ⟨hkept hd.1, hd.2⟩
  · rw [houtbox.2]
    exact fun t j v he => (h.intents t j v he).imp fun _ hd => ⟨hkept hd.1, hd.2⟩
  · rw [hrows.2]
    exact h.once
  · intro i
    rw [hrows.1, hrows.2]
    exact h.rows i

theorem Accounted.step (h : Accounted calls s₀ s) (hs : s.InOrder setup traced)
    (hevent : Event setup A (redriving calls) s s') : Accounted calls s₀ s' := by
  rcases hevent.settled with ⟨t, hfree | ⟨d, hready⟩, htables⟩ | hsettled
  · have hsettled (k : TableName) (hk : Driven k) :
        (k.table s'.db).committed = (k.table s.db).committed ∧
          (k.table s'.db).log = (k.table s.db).log := htables k ▸ (hfree k hk).settled
    exact h.of_eq (hsettled .deadLetterJobs (.inr rfl)) (hsettled .outbox (.inl rfl))
  · exact h.commit hs (htables .deadLetterJobs) (htables .outbox) hready
  · exact h.of_eq (hsettled .deadLetterJobs) (hsettled .outbox)

/-- Outbox row `j` was committed by a re-drive of dead letter `i`, as `o`. -/
def Created (calls : ℕ → ℕ × Option String) (s : State) (i j : ℕ) (o : Outbox) : Prop :=
  ∃ t, (calls t).1 = i ∧ (t, j, some o) ∈ s.db.outbox.log

/-- What concurrent re-drives have done to the dead letters and the outbox since `s₀`. -/
structure RedrivenOnce (calls : ℕ → ℕ × Option String) (s₀ : State)
    (c : Config ℕ Error Request Request.Reply State RedriveResult) : Prop where
  once : ∀ i j o j' o', Created calls c.shared i j o → Created calls c.shared i j' o' →
    j = j' ∧ o = o'
  undriven : ∀ i row, s₀.db.deadLetterJobs.committed i = some row → row.redrivenAt = none →
    ∃ r, c.shared.db.deadLetterJobs.committed i = some r ∧
      TableName.Same .deadLetterJobs row r ∧
      (r.redrivenAt.isSome ↔ ∃ j o, Created calls c.shared i j o ∧ r.redriveOutboxId = some j ∧
        c.shared.db.outbox.committed j = some o ∧ o.queueName = row.queueName ∧
        o.jobName = row.jobName ∧ o.payload = row.payload)
  others : ∀ i, (∀ row, s₀.db.deadLetterJobs.committed i = some row → row.redrivenAt.isSome) →
    c.shared.db.deadLetterJobs.committed i = s₀.db.deadLetterJobs.committed i ∧
      ∀ j o, ¬ Created calls c.shared i j o
  explained : ∀ k : TableName, (k.table c.shared.db).Explained (k.table s₀.db)
  refused : ∀ t e, c.thread t = .fail e → e ≠ .lost → ∀ k, Driven k →
    (k.table c.shared.db).Free t ∧ ∀ x ∈ (k.table c.shared.db).log, x.1 ≠ t

/-- Concurrent re-drives, on any dead letters. -/
theorem redriven_once {c : Config ℕ Error Request Request.Reply State RedriveResult}
    (hstart : s₀.AtRest)
    (hrun : (system setup).Reaches .any
      (calling (fun t => redrive setup (calls t).1 (calls t).2) s₀) c) :
    RedrivenOnce calls s₀ c := by
  have hsound : (keeping setup False .any (redriving calls)).Sound (system setup) .any
      (fun t => Drove (calls t).1 t) (fun t e s => e = .lost ∨ Fresh Driven t s)
      (calling (fun t => redrive setup (calls t).1 (calls t).2) s₀) :=
    hstart.sound _ (fun _ => trivial) fun t => redrive_meets (calls t).1 (calls t).2 rfl
  have hend := hsound.reaches (keeping_compatible nofun) (fun _ _ _ => .inl rfl) hrun
  have h : Accounted calls s₀ c.shared :=
    keeping_induction nofun (fun _ _ _ => .inl rfl) hsound hrun (accounted_of_atRest hstart)
      fun s s' hs _ h hevent => h.step hs hevent
  have hcreated {i j : ℕ} {o : Outbox} (hcreated : Created calls c.shared i j o) :
      ∃ t d, Driven.By calls s₀ c.shared t d ∧ (calls t).1 = i ∧ d.outboxId = j ∧ d.intent = o := by
    obtain ⟨t, rfl, he⟩ := hcreated
    obtain ⟨d, hd, rfl, ho⟩ := h.intents _ _ _ he
    exact ⟨t, d, hd, rfl, rfl, (Option.some.inj ho).symm⟩
  constructor
  · intro i j o j' o' ho ho'
    obtain ⟨t, d, hd, rfl, rfl, rfl⟩ := hcreated ho
    obtain ⟨t', d', hd', heq, rfl, rfl⟩ := hcreated ho'
    have hstamps : some d.stamped = some d'.stamped :=
      congrArg (fun e => e.2.2) (h.once _ hd.stamp _ hd'.stamp heq.symm)
    have hid : d.outboxId = d'.outboxId :=
      Option.some.inj (congrArg DeadLetterJob.redriveOutboxId (Option.some.inj hstamps))
    exact ⟨hid, Option.some.inj (hd.inserted.symm.trans (hid ▸ hd'.inserted))⟩
  · intro i row hrow hundriven
    rcases h.rows i with heq | ⟨t, ht⟩
    · refine ⟨row, heq.trans hrow, TableName.same_refl .deadLetterJobs row, ?_⟩
      rw [hundriven]
      refine ⟨nofun, fun ⟨j, o, ho, _⟩ => ?_⟩
      obtain ⟨t, d, hd, rfl, rfl, rfl⟩ := hcreated ho
      have hstamped : row = d.stamped := Option.some.inj (hrow.symm.trans (heq ▸ hd.stamped))
      rw [hstamped] at hundriven
      cases hundriven
    · obtain ⟨d, hd, rfl, -⟩ := h.stamps _ _ _ ht
      obtain rfl : row = d.row := Option.some.inj (hrow.symm.trans hd.found)
      refine ⟨d.stamped, hd.stamped, rfl, fun _ => ?_, fun _ => rfl⟩
      exact ⟨d.outboxId, d.intent, ⟨t, rfl, hd.intent⟩, rfl, hd.inserted, rfl, rfl, rfl⟩
  · intro i hdriven
    have hfirst (t : ℕ) (d : Drive) (hd : Driven.By calls s₀ c.shared t d) : (calls t).1 ≠ i := by
      rintro rfl
      have hsome := hdriven d.row hd.found
      simp [hd.undriven] at hsome
    constructor
    · refine (h.rows i).resolve_right fun ⟨t, ht⟩ => ?_
      obtain ⟨d, hd, hi, -⟩ := h.stamps _ _ _ ht
      exact hfirst t d hd hi.symm
    · intro j o ho
      obtain ⟨t, d, hd, hi, -⟩ := hcreated ho
      exact hfirst t d hd hi
  · exact keeping_induction nofun (fun _ _ _ => .inl rfl) hsound hrun (fun _ _ => .inl rfl)
      fun s s' _ _ h hevent => hevent.explained h
  · intro t e hfail hne k hk
    have hholds := hend.2 t
    rw [hfail] at hholds
    have hfresh : Fresh Driven t c.shared := (hholds.error hend.1).resolve_left hne
    exact ⟨(hfresh k hk).free, fun x hx heq => by
      subst heq
      simpa using ((hfresh k hk).past x.2.1 x.2.2).mp hx⟩

/-- A dead letter without a replay guard. -/
def sampleLetter : DeadLetterJob :=
  { queueName := EMAIL, jobName := "sendVerificationSuccessEmail", jobId := none
    payload := .obj [("name", .str "Ada")], failedReason := "refused", attemptsMade := 3
    createdAt := 0, redrivenAt := none, redrivenBy := none, redriveOutboxId := none }

/-- A system with one dead letter. -/
def lettered : State :=
  { plainState .empty with
    db := { (plainState .empty).db with deadLetterJobs := oneRow 3 sampleLetter } }

theorem lettered_atRest : lettered.AtRest where
  tables k := by
    cases k with
    | deadLetterJobs => exact oneRow_atRest 3 sampleLetter
    | _ => exact Table.empty_atRest
  poisoned _ := rfl
  seen := rfl
  minted := rfl
  families := rfl
  comparisons := rfl
  tickets := rfl

/-- Two re-drives of the dead letter: both insert an intent, and the second waits for the stamp
of the first. -/
def raced : Config ℕ Error Request Request.Reply State RedriveResult :=
  (system plainSetup).after (calling (fun _ => redrive plainSetup 3 (some "admin")) lettered)
    (List.replicate 7 (.run 1 { fresh := 1 }) ++ List.replicate 7 (.run 2 { fresh := 2 }) ++
      List.replicate 3 (.run 1 {}) ++ List.replicate 3 (.run 2 {}))

theorem redriven_once_raced :
    RedrivenOnce (fun _ => (3, some "admin")) lettered raced ∧
      (raced.thread 1).value?.map RedriveResult.outboxId = some 1 ∧
      (raced.thread 2).error? = some
        (redriveError "Dead-letter job 3 was re-driven concurrently") :=
  ⟨redriven_once lettered_atRest (.of_schedule (fun l _ _ _ => Machine.keeps_any l)
    (by decide +kernel)), by decide +kernel, by decide +kernel⟩

end ExpressCore.DeadLetter
