import ExpressCore.Verification.DeadLetter.Redrive
import ExpressCore.Verification.Outbox.Leases
import ExpressCore.Verification.Outbox.Lifecycle

/-! # Runs of relays, the retention job and services -/

namespace ExpressCore.Lifecycle

open ReadCommitted Interleaving Interleaving.Program

variable {setup : Setup} {calls : ℕ → Call} {start : State} {t i : ℕ} {s s' : State}

/-- The tables that the discipline is about. -/
abbrev Both (k : TableName) : Prop := k = .outbox ∨ k = .deadLetterJobs

/-! ## Services that write intents -/

theorem produces_of_neutral {r : Request} (h : r.Neutral Both) : Produces r := by
  cases r with
  | sql q =>
      cases q with
      | outbox a => exact fun hwrites => (h (.inl rfl) hwrites).elim
      | deadLetterJobs a => exact fun hwrites => (h (.inr rfl) hwrites).elim
      | _ => trivial
  | _ => trivial

theorem enqueue_produces (queueName jobName : String) (payload : InputJsonValue) :
    (enqueue queueName jobName payload).Uses Produces :=
  .bind (uses_send.mpr trivial) fun _ => .bind (uses_create
    (uses_send.mpr fun _ => ⟨_, rfl, rfl⟩) trivial) fun _ => trivial

theorem sendCode_produces (rawEmail : String) : (sendCode setup rawEmail).Uses Produces := by
  unfold sendCode
  refine .bind (.bind (uses_send.mpr trivial) fun _ => uses_pure _) fun user => ?_
  split
  · trivial
  refine .bind (uses_send.mpr trivial) fun code => .bind (uses_transaction trivial trivial trivial
    (.bind (.bind (uses_send.mpr trivial) fun now => .bind (uses_send.mpr trivial) fun _ =>
      .bind (uses_send.mpr trivial) fun _ => uses_pure _) fun fresh => ?_)) fun issued => ?_
  · split
    · exact .bind (enqueue_produces _ _ _) fun _ => uses_pure _
    · exact uses_pure _
  · split <;> trivial

theorem redrive_produces (id : ℕ) (by' : Option String) :
    (redrive setup id by').Uses Produces := by
  refine uses_transaction trivial trivial trivial (.bind (uses_send.mpr fun h => h.elim)
    fun found => ?_)
  split
  · trivial
  split
  · trivial
  split
  · trivial
  refine .bind ((DeadLetter.uses_replayGuard _ _).mono fun _ => produces_of_neutral)
    fun refusal => ?_
  split
  · trivial
  unfold replay
  split
  · trivial
  refine .bind (uses_send.mpr trivial) fun now => .bind (uses_create
    (uses_send.mpr fun _ => ⟨_, rfl, rfl⟩) trivial) fun outboxId =>
      .bind (uses_send.mpr trivial) fun redrivenAt => .bind (uses_change
        (uses_send.mpr fun h => h.elim) (fun i => uses_send.mpr fun _ => ⟨_, _, _, rfl⟩) trivial)
          fun stamped => ?_
  split <;> trivial

theorem pruneDeadLetterJobs_produces (before : Time) (batchSize maxBatches : ℕ) :
    (pruneDeadLetterJobs before batchSize maxBatches).Uses Produces :=
  uses_batches (uses_send.mpr fun h => h.elim) (fun _ _ => uses_send.mpr fun _ => ⟨_, _, _, rfl⟩)
    trivial _ _ _

/-! ## Services and the retention job -/

/-- Runs in which every step starts in a state that satisfies the invariant. -/
abbrev faithful (calls : ℕ → Call) (start : State) : Assumption ℕ Request State :=
  Assumption.within .any (Living calls start)

abbrev rules (setup : Setup) (calls : ℕ → Call) (start : State) : Rules ℕ State :=
  keeping setup False (faithful calls start) (delivering calls start)

theorem Living.harmless (h : Living calls start s) (hcall : calls t ≠ .relay) : Harmless t s := by
  refine ⟨fun i r hp hfailed => ?_, fun j d hd hnew => hcall (h.writers t j d hd hnew)⟩
  have hmakes := h.makes t i _ hp
  generalize hc : calls t = call at hmakes hcall
  cases call with
  | relay => exact hcall rfl
  | prune => cases hmakes
  | service p produces =>
      obtain ⟨-, r', heq, hpending⟩ := hmakes
      obtain rfl := Option.some.inj heq
      simp [hfailed] at hpending

theorem service_meets {p : Service Unit} {produces : p.Uses Produces}
    (hcall : calls t = .service p produces) :
    (rules setup calls start).Meets (system setup) (faithful calls start) t (fun _ _ => True)
      (fun _ _ => True) p fun _ => True := by
  refine meets_admits (produces.mono fun r hr s hA _ => ⟨fun k a hsql hk hwrites => ?_,
    fun q hq _ => .inl (hA.2.harmless (by simp [hcall])), fun _ => trivial⟩)
  subst hsql
  rcases hk with rfl | rfl
  · have hrow : (calls t).Writes start t a s := hcall ▸ hr hwrites
    exact hrow
  · exact .inr (hr hwrites)

section Prune

/-- The rows may be removed by thread `t`. -/
def Removable (start : State) (t : ℕ) (rows : List (ℕ × Outbox)) (s : State) : Prop :=
  ∀ x ∈ rows, Over start x.1 s ∨ s.db.outbox.pending x.1 = some (t, none)

theorem firm_over {K : TableName → Prop} : Firm K setup False t (Over start i) := by
  rintro s s' _ _ hmove ⟨r, hpast, hr⟩
  exact ⟨r, hpast.imp_right fun ⟨u, hu⟩ => ⟨u, (hmove.logs .outbox).subset hu⟩, hr⟩

theorem firm_removable (rows : List (ℕ × Outbox)) :
    Firm (fun k => k = .outbox) setup False t (Removable start t rows) := by
  intro s s' hs hs' hmove h x hx
  have hrows : Undisturbed Outbox.SameJob t s.db.outbox s'.db.outbox := hmove.rows .outbox rfl
  exact (h x hx).imp (firm_over s s' hs hs' hmove) (hrows.own x.1 none).mpr

variable {status : OutboxStatus} {before : Time} {batchSize maxBatches : ℕ}
  {terminal : status ≠ .pending}

theorem prune_meets (hcall : calls t = .prune status before batchSize maxBatches terminal) :
    (rules setup calls start).Meets (system setup) (faithful calls start) t (fun _ _ => True)
      (fun _ _ => True) (ExpressCore.prune status before batchSize maxBatches)
      fun _ => True := by
  refine batches_meets (F := Removable start t) (fun rows => (firm_removable rows).stable) ?_
    (fun rows ids i hids => ?_) ?_ batchSize maxBatches
  · refine send_meets (k := .outbox) (a := .scan _) (.const True)
      (fun rows => (firm_removable rows).stable) (fun _ _ _ _ _ hwrites => hwrites.elim)
      fun s o rows s' _ _ hA _ _ h x hx => ?_
    have htable : s'.db.outbox = s.db.outbox.take t := (exec_scan h.exec).1
    obtain ⟨hview, hw⟩ := ((exec_scan h.exec).2 x).mp hx
    have hover : x.2.status ≠ .pending := by
      simp only [Condition.holds, Bool.and_eq_true, beq_iff_eq] at hw
      exact hw.1 ▸ terminal
    rcases Table.view_cases hview with hp | ⟨hr, -⟩
    · have hmakes := hA.2.makes t x.1 _ hp
      rw [hcall] at hmakes
      cases hmakes
    · refine .inl ⟨x.2, ?_, hover⟩
      rw [htable]
      exact hA.2.lived.past hr
  · refine send_meets (k := .outbox) (a := .visit i (.ids ids) .delete)
      (firm_removable rows).stable (fun _ => (firm_removable rows).stable)
      (fun s _ _ hrows _ _ => ?_) fun s o reply s' hs hs' _ hrows hothers h x hx => ?_
    · have hwrites : (calls t).Writes start t (.visit i (.ids ids) .delete) s := by
        rw [hcall]
        refine ⟨i, ids, rfl, fun j hj => ?_⟩
        obtain ⟨r, hr⟩ := hids j hj
        exact hrows (j, r) hr
      exact hwrites
    · rcases (exec_visit h.exec).2 with ⟨old, -, -, -, htable⟩ | ⟨-, -, htable⟩
      · have htable : s'.db.outbox = s.db.outbox.write t i none := htable
        rw [htable]
        by_cases heq : x.1 = i
        · exact .inr (heq ▸ Table.write_pending_self)
        · rw [Table.write_pending_of_ne heq]
          exact (hrows x hx).imp_left (firm_over (K := fun k => k ≠ .outbox) s s' hs hs' hothers)
      · have htable : s'.db.outbox = s.db.outbox := htable
        rw [htable]
        exact (hrows x hx).imp_left (firm_over (K := fun k => k ≠ .outbox) s s' hs hs' hothers)
  · exact Rules.Meets.send (.const True) (keeping_answers (fun s _ hA _ =>
      guard_of_end (.inr (.inr (.inl rfl))) (.inl (hA.2.harmless (by simp [hcall]))))
      fun _ _ _ _ _ _ _ _ => trivial) fun _ => .const True

end Prune

/-! ## The relay -/

section Relay

/-- The relay has read the intent off row `r`. -/
def Copies (row : ClaimedOutboxRow) (r : Outbox) : Prop :=
  row.queueName = r.queueName ∧ row.jobName = r.jobName ∧ row.payload = r.payload

/-- The intent of the row was pending. -/
def Claimed (start : State) (row : ClaimedOutboxRow) (s : State) : Prop :=
  ∃ r, s.db.outbox.Past start.db.outbox.committed row.id r ∧ r.status = .pending ∧ Copies row r

/-- Thread `t` is between two transactions. -/
structure Resting (t : ℕ) (s : State) : Prop where
  unlocked : Unlocked Both t s
  clear : Clear t s

/-- Thread `t` may commit. -/
structure Committing (t : ℕ) (s : State) : Prop where
  clear : Clear t s
  settles : Harmless t s ∨ Paired t s

variable {row : ClaimedOutboxRow} {rows : List ClaimedOutboxRow} {K : TableName → Prop}
  {C : State → Prop}

theorem firm_claimed : Firm K setup False t (Claimed start row) := by
  rintro s s' _ _ hmove ⟨r, hpast, hr⟩
  exact ⟨r, hpast.imp_right fun ⟨u, hu⟩ => ⟨u, (hmove.logs .outbox).subset hu⟩, hr⟩

theorem firm_delivered : Firm K setup False t (Delivered start i) := by
  rintro s s' _ _ hmove ⟨r, hpast, hr, hjob⟩
  obtain ⟨new, heq⟩ := hmove.resolved
  exact ⟨r, hpast.imp_right fun ⟨u, hu⟩ => ⟨u, (hmove.logs .outbox).subset hu⟩, hr,
    heq ▸ List.mem_append_right _ hjob⟩

theorem firm_resting : Firm Both setup False t (Resting t) := by
  intro s s' hs hs' hmove h
  exact ⟨Firm.unlocked s s' hs hs' hmove h.unlocked, hmove.clear h.clear⟩

theorem firm_harmless : Firm Both setup False t (Harmless t) := by
  rintro s s' _ _ hmove ⟨h, h'⟩
  exact ⟨fun i r hp => h i r (((hmove.rows .outbox (.inl rfl)).own i _).mp hp),
    fun j d hp => h' j d (((hmove.rows .deadLetterJobs (.inr rfl)).own j _).mp hp)⟩

theorem firm_paired : Firm Both setup False t (Paired t) :=
  .exists fun _ => .exists fun _ => .exists fun _ => .exists fun _ => .exists fun _ =>
    .exists fun _ => .exists fun _ =>
      (Firm.ledger (.inl rfl) _ _).and ((Firm.ledger (.inr rfl) _ _).and (.const _))

theorem firm_committing : Firm Both setup False t (Committing t) := by
  intro s s' hs hs' hmove h
  exact ⟨hmove.clear h.clear,
    h.settles.imp (firm_harmless s s' hs hs' hmove) (firm_paired s s' hs hs' hmove)⟩

theorem unlocked_both (houtbox : s.db.outbox.Free t) (hletters : s.db.deadLetterJobs.Free t) :
    Unlocked Both t s := by
  rintro k (rfl | rfl)
  · exact houtbox
  · exact hletters

theorem Resting.committing (h : Resting t s) : Committing t s where
  clear := h.clear
  settles := .inl ⟨fun i _ hp => (h.unlocked .outbox (.inl rfl) i _ hp).elim,
    fun j _ hp => (h.unlocked .deadLetterJobs (.inr rfl) j _ hp).elim⟩

/-- A commit of a thread that may go on. -/
theorem commit_resting {q : Sql} {err : Error → State → Prop}
    (hq : q = .commit ∨ q = .complete .prisma)
    (hC : Firm (fun _ => False) setup False t C) :
    (rules setup calls start).Meets (system setup) (faithful calls start) t
      (fun _ s => Resting t s ∧ C s) err (statement q) fun s => Committing t s ∧ C s := by
  refine commit_meets hq (firm_committing.and (hC.mono fun _ h => h.elim)).stable
    (fun _ s => Resting t s ∧ C s)
    (fun _ => (firm_resting.and (hC.mono fun _ h => h.elim)).stable)
    (fun s _ _ h => ⟨h.1.clear, h.1.settles⟩) fun s s' _ hs hs' _ h htables hkept => ?_
  have hmove := hkept (fun _ => False) fun _ h => h.elim
  refine ⟨⟨fun k hk => ?_, hmove.clear h.1.clear⟩, hC s s' hs hs' hmove h.2⟩
  rw [htables k]
  exact fun i v hp => (Table.commit_pending.mp hp).2 rfl

/-- The ends of a claim other than a failure. `C` is what the relay knows. -/
theorem finish_meets {id : ℕ} {c : OutboxChange} {err : Error → State → Prop}
    (hcall : calls t = .relay) (hC : Firm (fun _ => False) setup False t C)
    (hc : ∀ s, C s → (∃ error availableAt, c = .retry error availableAt) ∨
      ∃ now, c = .publish now ∧ Delivered start id s) :
    (rules setup calls start).Meets (system setup) (faithful calls start) t
      (fun _ s => Resting t s ∧ C s) err (changeMany outbox .prisma (.pending id) c)
      fun s => Resting t s ∧ C s := by
  have hP : Firm (fun k => k = .deadLetterJobs) setup False t fun s =>
      Unlocked (fun k => k = .deadLetterJobs) t s ∧ Clear t s ∧ C s :=
    Firm.unlocked.and (Firm.clear.and (hC.mono fun _ h => h.elim))
  refine Rules.Meets.weaken (Rules.Meets.exists fun done => (changeManyPrisma_meets (k := .outbox)
    (w := .pending id) (c := c) done (Q := fun x => x.2.status = .pending) (S := fun _ => True)
    hP (fun s i old _ _ _ _ _ hw => ?_) (fun s h => h.1) (fun k hk => ?_)
    (fun i olds s _ _ _ _ _ h => ?_) fun olds s _ _ holds hledger h => ?_).mono
      (fun changed s _ h => ?_) fun _ => .refl) fun s _ h => ?_
  · simp only [Condition.holds, Bool.and_eq_true, beq_iff_eq] at hw
    exact hw.2
  · subst hk
    decide
  · have hwrites : (calls t).Writes start t (.visit i (.pending id) c) s := by
      rw [hcall]
      refine .inr ⟨i, id, c, rfl, ?_⟩
      exact (hc s h.2.2).imp_right .inl
    exact hwrites
  · obtain ⟨hletters, hclear, hCs⟩ := h
    refine ⟨hclear, .inl ⟨fun i r hp hfailed => ?_,
      fun j d hp => (hletters .deadLetterJobs rfl j _ hp).elim⟩, trivial⟩
    obtain ⟨b, hb⟩ := (hledger.own i (some r)).mp hp
    obtain ⟨x, hx, heq⟩ := List.mem_map.mp hb
    obtain ⟨rfl, -, happly⟩ :
        x.1 = i ∧ some x.2 = b ∧ ReadCommitted.Change.apply c x.2 = some r := by
      simpa using heq
    have hpending : x.2.status = .pending := holds x hx
    rcases hc s hCs with ⟨error, at', rfl⟩ | ⟨now, rfl, -⟩ <;>
      (cases happly; simp_all)
  · obtain ⟨olds, -, -, hledger, hletters, hclear, hCs⟩ := h
    exact ⟨⟨unlocked_both hledger.free (hletters .deadLetterJobs rfl), hclear⟩, hCs⟩
  · obtain ⟨done, hledger⟩ := (h.1.unlocked .outbox (.inl rfl)).ledger
    exact ⟨done, hledger, fun k hk => h.1.unlocked k (.inr hk), h.1.clear, h.2⟩

/-- A transaction of a relay. -/
theorem transaction_rests {α : Type} {body : Service α} (hC : Firm (fun _ => False) setup False t C)
    (hbody : (rules setup calls start).Meets (system setup) (faithful calls start) t
      (fun _ s => Committing t s ∧ C s) (fun _ _ => True) body fun s => Resting t s ∧ C s) :
    (rules setup calls start).Meets (system setup) (faithful calls start) t
      (fun _ s => Resting t s ∧ C s) (fun _ _ => True) (transaction body)
      fun s => Resting t s ∧ C s := by
  have hrest : Firm Both setup False t fun s => Resting t s ∧ C s :=
    firm_resting.and (hC.mono fun _ h => h.elim)
  have hbegin : (statement .begin).Uses (Request.Neutral Both) := uses_send.mpr trivial
  exact transaction_meets ((meets_neutral hrest hbegin).mono (fun _ => .refl)
    fun _ _ _ _ => trivial) hbody (fun e => .bind (Rules.Meets.send (.const True) (keeping_answers
      (fun _ _ _ _ => guard_of_rollback) fun _ _ _ _ _ _ _ _ => trivial) fun _ => .const True)
        fun _ => .throw (.const True) fun _ _ _ => trivial)
    fun value => .bind (commit_resting (.inl rfl) hC) fun _ => .pure hrest.stable .refl

/-- A row that fails is committed with its letter. -/
theorem markFailed_meets (hcall : calls t = .relay) (hC : Firm (fun _ => False) setup False t C)
    (hclaimed : ∀ s, C s → Claimed start row s) (reason : String) (attempts : ℕ) :
    (rules setup calls start).Meets (system setup) (faithful calls start) t
      (fun _ s => Resting t s ∧ C s) (fun _ _ => True) (markFailed row reason attempts)
      fun s => Resting t s ∧ C s := by
  have hrest : Firm Both setup False t fun s => Resting t s ∧ C s :=
    firm_resting.and (hC.mono fun _ h => h.elim)
  have hend : Firm Both setup False t fun s => Committing t s ∧ C s :=
    firm_committing.and (hC.mono fun _ h => h.elim)
  have hnow : (request .now).Uses (Request.Neutral Both) := uses_send.mpr id
  refine transaction_rests hC ?_
  refine neutral_bind hrest hnow (fun _ _ _ => trivial) fun now => ?_
  have hP : Firm (fun k => k ≠ .outbox) setup False t fun s =>
      Unlocked (fun k => k = .deadLetterJobs) t s ∧ Clear t s ∧ C s :=
    (Firm.mono Firm.unlocked fun k hk => by subst hk; decide).and
      (Firm.clear.and (hC.mono fun _ h => h.elim))
  refine Rules.Meets.weaken (Rules.Meets.exists fun done => Rules.Meets.bind
    (changeMany_meets (k := .outbox) (w := .pending row.id) (c := .fail attempts reason now) done
      (Q := fun x => Copies row x.2) hP (fun s i old hs hA h _ hcommitted hw => ?_)
      fun i olds s _ _ _ _ _ h => ?_) fun changed => ?_) fun s _ h => ?_
  · simp only [Condition.holds, Bool.and_eq_true, beq_iff_eq] at hw
    obtain ⟨rfl, hpending⟩ := hw
    obtain ⟨r, hpast, -, hcopies⟩ := hclaimed s h.2.2
    obtain ⟨hqueue, hjob, hpayload⟩ := (hA.2.origin _ r old hpast (.inl hcommitted) hpending).2
    exact ⟨hcopies.1.trans hqueue.symm, hcopies.2.1.trans hjob.symm,
      hcopies.2.2.trans hpayload.symm⟩
  · have hwrites : (calls t).Writes start t
        (.visit i (.pending row.id) (.fail attempts reason now)) s := by
      rw [hcall]
      exact .inr ⟨i, row.id, _, rfl, .inr (.inr ⟨attempts, reason, now, rfl⟩)⟩
    exact hwrites
  · refine Rules.Meets.exists fun olds => .assume fun hchanged => ?_
    have hheld : Firm Both setup False t fun s =>
        Ledger .outbox t (entries .outbox (.fail attempts reason now) olds) done s ∧
          Unlocked (fun k => k = .deadLetterJobs) t s ∧ Clear t s ∧ C s :=
      (Firm.ledger (.inl rfl) _ _).and ((Firm.mono Firm.unlocked fun _ => .inr).and
        (Firm.clear.and (hC.mono fun _ h => h.elim)))
    rcases hchanged.single fun x hx => by
      have hw := hchanged.holds x hx
      simp only [Condition.holds, Bool.and_eq_true, beq_iff_eq] at hw
      exact hw.1 with rfl | ⟨r, rfl⟩
    · obtain rfl : changed = [] := hchanged.changed
      refine .pure hend.stable fun s _ h => ?_
      obtain ⟨hledger, hletters, hclear, hCs⟩ := h
      have hresting : Resting t s :=
        ⟨unlocked_both hledger.free (hletters .deadLetterJobs rfl), hclear⟩
      exact ⟨hresting.committing, hCs⟩
    · obtain rfl := hchanged.changed
      refine neutral_bind hheld hnow (fun _ _ _ => trivial) fun createdAt => ?_
      have hP' : Firm (fun k => k ≠ .deadLetterJobs) setup False t fun s =>
          Ledger .outbox t (entries .outbox (.fail attempts reason now) [(row.id, r)]) done s ∧
            Clear t s ∧ C s :=
        (Firm.ledger (K := fun k => k ≠ .deadLetterJobs) (by decide) _ _).and
          (Firm.clear.and (hC.mono fun _ h => h.elim))
      refine Rules.Meets.weaken (Rules.Meets.exists fun done' => Rules.Meets.bind
        (create_meets (k := .deadLetterJobs) [] done' hP' fun s _ _ _ _ =>
          .inl ⟨hcall, _, rfl⟩) fun j => .pure hend.stable fun s _ h => ?_) fun s _ h => ?_
      · obtain ⟨hletters, hledger, hclear, hCs⟩ := h
        obtain ⟨hqueue, hjob, hpayload⟩ := hchanged.known _ (.head _)
        refine ⟨⟨hclear, .inr ⟨row.id, some r, _, done, j, _, done', hledger, hletters, ?_⟩⟩, hCs⟩
        simp [failure, letter, hqueue, hjob, hpayload]
      · obtain ⟨hledger, hletters, hrest⟩ := h
        obtain ⟨done', hletters⟩ := (hletters .deadLetterJobs rfl).ledger
        exact ⟨done', hletters, hledger, hrest⟩
  · obtain ⟨done, hledger⟩ := (h.1.unlocked .outbox (.inl rfl)).ledger
    exact ⟨done, hledger, fun k hk => h.1.unlocked k (.inr hk), h.1.clear, h.2⟩

/-! ### Claims -/

/-- Thread `t` leases the rows. -/
structure Leasing (t : ℕ) (rows : List ClaimedOutboxRow) (s : State) : Prop where
  letters : s.db.deadLetterJobs.Free t
  clear : Clear t s
  pending : ∀ i v, s.db.outbox.pending i = some (t, v) → ∃ r, v = some r ∧ r.status = .pending
  leased : ∀ row ∈ rows, ∃ r, s.db.outbox.pending row.id = some (t, some r) ∧ Copies row r

theorem firm_leasing : Firm Both setup False t (Leasing t rows) := by
  rintro s s' _ _ hmove ⟨hletters, hclear, hpending, hleased⟩
  have hrows : Undisturbed Outbox.SameJob t s.db.outbox s'.db.outbox :=
    hmove.rows .outbox (.inl rfl)
  refine ⟨hletters.undisturbed (hmove.rows .deadLetterJobs (.inr rfl)), hmove.clear hclear,
    fun i v hv => hpending i v ((hrows.own i v).mp hv), fun row hrow => ?_⟩
  obtain ⟨r, hr, hcopies⟩ := hleased row hrow
  exact ⟨r, (hrows.own row.id _).mpr hr, hcopies⟩

theorem Leasing.committing (h : Leasing t rows s) : Committing t s := by
  refine ⟨h.clear, .inl ⟨fun i r hp hfailed => ?_, fun j d hp => (h.letters j _ hp).elim⟩⟩
  obtain ⟨r', heq, hpending⟩ := h.pending i _ hp
  obtain rfl := Option.some.inj heq
  simp [hfailed] at hpending

/-- The row that the relay makes of a version that it has leased. -/
def claimOf (id : ℕ) (r : Outbox) : ClaimedOutboxRow :=
  { id, queueName := r.queueName, jobName := r.jobName, payload := r.payload
    attempts := r.attempts }

theorem visitUnlocked_meets {now until' : Time} {id : ℕ} {err : Error → State → Prop}
    (hcall : calls t = .relay) :
    (rules setup calls start).Meets (system setup) (faithful calls start) t
      (fun reply s => Leasing t (reply.toList.map (claimOf id) ++ rows) s) err
      (outbox (.visitUnlocked id (.due now) (.lease until'))) (Leasing t rows) := by
  refine send_meets (k := .outbox) (a := .visitUnlocked id (.due now) (.lease until'))
    (firm_leasing.mono fun _ _ => trivial).stable
    (fun _ => (firm_leasing.mono fun _ _ => trivial).stable) (fun s _ _ _ _ _ => ?_)
    fun s o reply s' _ _ _ h hothers hexec => ?_
  · have hwrites : (calls t).Writes start t (.visitUnlocked id (.due now) (.lease until')) s := by
      rw [hcall]
      exact .inl ⟨id, now, until', rfl⟩
    exact hwrites
  · have hletters : s'.db.deadLetterJobs = s.db.deadLetterJobs :=
      hexec.others .deadLetterJobs (by decide)
    have hclear : Clear t s' := hothers.clear h.clear
    rcases exec_visitUnlocked_reply hexec.exec with ⟨old, hview, hw, rfl, htable⟩ | ⟨rfl, htable⟩
    · have htable : s'.db.outbox =
          s.db.outbox.write t id (some { old with availableAt := until' }) := htable
      simp only [Condition.holds, Bool.and_eq_true, beq_iff_eq, decide_eq_true_eq] at hw
      refine ⟨hletters ▸ h.letters, hclear, fun i v hv => ?_, fun row hrow => ?_⟩
      · rw [htable] at hv
        rcases Table.write_pending hv with ⟨-, heq⟩ | ⟨-, hv⟩
        · cases heq
          exact ⟨_, rfl, hw.1⟩
        · exact h.pending i v hv
      · rw [htable]
        rcases List.mem_cons.mp hrow with rfl | hrow
        · exact ⟨_, Table.write_pending_self, rfl, rfl, rfl⟩
        · obtain ⟨r, hr, hcopies⟩ := h.leased row hrow
          by_cases heq : row.id = id
          · -- the row is claimed twice, and the second lease is on the version of the first
            subst heq
            obtain rfl := Option.some.inj ((Table.view_of_pending hr).symm.trans hview)
            exact ⟨_, Table.write_pending_self, hcopies⟩
          · rw [Table.write_pending_of_ne heq]
            exact ⟨r, hr, hcopies⟩
    · have htable : s'.db.outbox = s.db.outbox := htable
      exact ⟨hletters ▸ h.letters, hclear, htable ▸ h.pending, htable ▸ h.leased⟩

theorem claimRows_meets {now lease : Time} {err : Error → State → Prop} (hcall : calls t = .relay)
    (limit : ℕ) (due : List (ℕ × Outbox)) (rows : List ClaimedOutboxRow) :
    (rules setup calls start).Meets (system setup) (faithful calls start) t
      (fun claimed s => Leasing t (claimed ++ rows) s) err (claimRows now lease limit due)
      (Leasing t rows) := by
  have hstable (rows) : (ExpressCore.Lifecycle.rules setup calls start).Stable t (Leasing t rows) :=
    (firm_leasing.mono fun _ _ => trivial).stable
  induction due generalizing limit rows with
  | nil => cases limit <;> exact .pure (hstable _) .refl
  | cons row rest ih =>
      cases limit with
      | zero => exact .pure (hstable _) .refl
      | succ limit =>
          refine .bind (visitUnlocked_meets hcall) fun reply => ?_
          cases reply with
          | none => exact ih (limit + 1) rows
          | some r =>
              refine .bind (ih limit (claimOf row.1 r :: rows)) fun others =>
                .pure (hstable _) fun s _ h => { h with leased := fun x hx => h.leased x ?_ }
              simp only [List.cons_append, List.mem_cons, List.mem_append] at hx ⊢
              exact (or_left_comm.mp hx)

theorem claimBatch_meets (hcall : calls t = .relay) (limit : ℕ) :
    (rules setup calls start).Meets (system setup) (faithful calls start) t
      (fun claimed s => Resting t s ∧ ∀ row ∈ claimed, Claimed start row s) (fun _ _ => True)
      (claimBatch setup limit) (Resting t) := by
  have hnow : (statement .now).Uses (Request.Neutral Both) := uses_send.mpr trivial
  have hscan (now : Time) : (outbox (.scan (.due now))).Uses (Request.Neutral Both) :=
    uses_send.mpr (Sql.neutral_sql (k := .outbox).mpr fun _ => not_false)
  have hclaimed (claimed : List ClaimedOutboxRow) : Firm (fun _ => False) setup False t fun s =>
      ∀ row ∈ claimed, Claimed start row s :=
    .forall fun _ => .imp fun _ => firm_claimed
  refine neutral_bind firm_resting hnow (fun _ _ _ => trivial) fun now =>
    neutral_bind firm_resting (hscan now) (fun _ _ _ => trivial) fun due =>
      .bind ((claimRows_meets hcall limit _ []).weaken fun s _ h => ?_) fun claimed => ?_
  · exact ⟨h.unlocked .deadLetterJobs (.inr rfl), h.clear,
      fun i v hv => (h.unlocked .outbox (.inl rfl) i v hv).elim, nofun⟩
  · have hend : Firm Both setup False t fun s =>
        Resting t s ∧ ∀ row ∈ claimed, Claimed start row s :=
      firm_resting.and ((hclaimed claimed).mono fun _ h => h.elim)
    refine .bind (commit_meets (.inr rfl) firm_leasing.stable
      (fun _ s => Resting t s ∧ ∀ row ∈ claimed, Claimed start row s) (fun _ => hend.stable)
      (fun s _ _ h => ⟨h.clear, h.committing.settles⟩)
      fun s s' _ _ _ _ h htables hkept => ?_) fun _ => .pure hend.stable .refl
    have hmove := hkept (fun _ => False) fun _ h => h.elim
    refine ⟨⟨fun k hk => ?_, hmove.clear h.clear⟩, fun row hrow => ?_⟩
    · rw [htables k]
      exact fun i v hp => (Table.commit_pending.mp hp).2 rfl
    · obtain ⟨r, hr, hcopies⟩ := h.leased row (List.mem_append_left _ hrow)
      obtain ⟨r', heq, hpending⟩ := h.pending row.id _ hr
      obtain rfl := Option.some.inj heq
      have hlog : s'.db.outbox.log = s.db.outbox.log ++ s.db.outbox.writes t := by
        rw [show s'.db.outbox = s.db.outbox.commit t from htables .outbox, Table.commit_log]
      refine ⟨r, .inr ⟨t, ?_⟩, hpending, hcopies⟩
      exact hlog ▸ List.mem_append_right _ (Table.mem_writes.mpr ⟨rfl, hr⟩)

/-! ### Rows -/

theorem publish_meets {err : Error → State → Prop} (hC : Firm (fun _ => False) setup False t C)
    (hclaimed : ∀ s, C s → Claimed start row s) :
    (rules setup calls start).Meets (system setup) (faithful calls start) t
      (fun reason s => Resting t s ∧ (reason = none → Delivered start row.id s) ∧ C s) err
      (publish row) fun s => Resting t s ∧ C s := by
  have hrest : Firm Both setup False t fun s => Resting t s ∧ C s :=
    firm_resting.and (hC.mono fun _ h => h.elim)
  have hfirm (p : Prop) : Firm Both setup False t fun s =>
      Resting t s ∧ (p → Delivered start row.id s) ∧ C s :=
    firm_resting.and ((Firm.imp fun _ => firm_delivered).and (hC.mono fun _ h => h.elim))
  refine .seq
    (fun outcome s => Resting t s ∧ (outcome = .resolved → Delivered start row.id s) ∧ C s)
    (Rules.Meets.send hrest.stable (keeping_answers
      (fun _ _ _ _ => guard_of_other (fun _ h => by cases h)
      fun _ => trivial) fun s o outcome s' hs _ h hexec => ?_) fun outcome => (hfirm _).stable)
    fun outcome => ?_
  · obtain ⟨houtcome, rfl⟩ := Prod.mk.inj (Option.some.inj hexec)
    obtain ⟨hresting, hCs⟩ := hrest _ _ hs (hs.exec hexec) (.of_exec hexec
      (fun k _ => .refl k.same_refl) (fun hclear => hclear) ⟨[], rfl, by simp⟩) h
    refine ⟨hresting, ?_, hCs⟩
    rintro rfl
    obtain ⟨r, hpast, hpending, hqueue, hjob, hpayload⟩ := hclaimed _ hCs
    refine ⟨r, hpast, hpending, ?_⟩
    unfold Queues.add at houtcome ⊢
    split at houtcome
    · simp [jobOf, hqueue, hjob, hpayload]
    · cases houtcome
    · cases houtcome
  · cases outcome with
    | resolved => exact .pure (hfirm _).stable fun s _ h => ⟨h.1, fun _ => h.2.1 rfl, h.2.2⟩
    | rejected reason =>
        exact .pure (hfirm _).stable fun s _ h => ⟨h.1, (by cases ·), h.2.2⟩
    | timedOut =>
        exact .pure (hfirm _).stable fun s _ h => ⟨h.1, (by cases ·), h.2.2⟩

theorem processRow_meets (hcall : calls t = .relay)
    (hC : Firm (fun _ => False) setup False t C) (hclaimed : ∀ s, C s → Claimed start row s) :
    (rules setup calls start).Meets (system setup) (faithful calls start) t
      (fun _ s => Resting t s ∧ C s) (fun _ _ => True) (processRow setup row)
      fun s => Resting t s ∧ C s := by
  have hrest : Firm Both setup False t fun s => Resting t s ∧ C s :=
    firm_resting.and (hC.mono fun _ h => h.elim)
  have hnow : (request .now).Uses (Request.Neutral Both) := uses_send.mpr id
  unfold processRow
  split
  · exact .bind (markFailed_meets hcall hC hclaimed _ _) fun failed => .pure hrest.stable .refl
  refine .bind (publish_meets hC hclaimed) fun reason => ?_
  cases reason with
  | none =>
      have hdelivered : Firm (fun _ => False) setup False t fun s =>
          Delivered start row.id s ∧ C s := firm_delivered.and hC
      have hpublished : Firm Both setup False t fun s =>
          Resting t s ∧ Delivered start row.id s ∧ C s :=
        firm_resting.and (hdelivered.mono fun _ h => h.elim)
      refine .seq (fun _ s => Resting t s ∧ Delivered start row.id s ∧ C s)
        (Rules.Meets.weaken (neutral_bind hpublished hnow (fun _ _ _ => trivial) fun now =>
          .bind (finish_meets hcall hdelivered fun s h => .inr ⟨now, rfl, h.1⟩) fun _ =>
            .pure hpublished.stable .refl) fun s _ h => ⟨h.1, h.2.1 rfl, h.2.2⟩)
        fun published => .pure hrest.stable fun s _ h => ⟨h.1, h.2.2⟩
  | some reason =>
      dsimp only
      split
      · exact .bind ((markFailed_meets hcall hC hclaimed _ _).weaken fun s _ h => ⟨h.1, h.2.2⟩)
          fun failed => .pure hrest.stable .refl
      · refine Rules.Meets.weaken (neutral_bind hrest hnow (fun _ _ _ => trivial) fun now => ?_)
          fun s _ h => ⟨h.1, h.2.2⟩
        exact .bind (.bind (finish_meets hcall hC fun s _ => .inl ⟨reason, _, rfl⟩) fun _ =>
          .pure hrest.stable .refl) fun retried => .pure hrest.stable .refl

/-- The rows of a batch one after the other. -/
theorem relayRows_meets (hcall : calls t = .relay) (rows : List ClaimedOutboxRow) :
    (rules setup calls start).Meets (system setup) (faithful calls start) t
      (fun _ _ => True) (fun _ _ => True) (relayRows setup rows)
      fun s => Resting t s ∧ ∀ row ∈ rows, Claimed start row s := by
  induction rows with
  | nil => exact .pure (.const True) fun _ _ _ => trivial
  | cons row rest ih =>
      have hC : Firm (fun _ => False) setup False t fun s =>
          ∀ x ∈ row :: rest, Claimed start x s := .forall fun _ => .imp fun _ => firm_claimed
      refine .bind (processRow_meets hcall hC fun s h => h row (.head _)) fun outcome =>
        Rules.Meets.under (fun s => Resting t s ∧ ∀ x ∈ rest, Claimed start x s) ?_
          fun s _ h => ⟨h.1, fun x hx => h.2 x (.tail _ hx)⟩
      cases outcome with
      | retry => exact .pure (.const True) fun _ _ _ => trivial
      | published => exact .bind ih fun _ => .pure (.const True) .refl
      | failed => exact ih
      | skipped => exact ih

theorem relayOnce_meets (hcall : calls t = .relay) :
    (rules setup calls start).Meets (system setup) (faithful calls start) t (fun _ _ => True)
      (fun _ _ => True) (relayOnce setup) (Resting t) :=
  .bind (claimBatch_meets hcall _) fun rows => relayRows_meets hcall rows

end Relay

/-! ## Runs -/

theorem call_meets (t : ℕ) :
    (rules setup calls start).Meets (system setup) (faithful calls start) t (fun _ _ => True)
      (fun _ _ => True) ((calls t).program setup) fun s => Fresh Both t s ∧ Clear t s := by
  cases hcall : calls t with
  | relay =>
      exact .bind ((relayOnce_meets hcall).weaken fun s _ h =>
        ⟨fun k hk => (h.1 k hk).free, h.2⟩) fun _ => .pure (.const True) .refl
  | prune status before batchSize maxBatches terminal =>
      exact .bind ((prune_meets hcall).weaken fun _ _ _ => trivial) fun _ =>
        .pure (.const True) .refl
  | service p produces => exact (service_meets hcall).weaken fun _ _ _ => trivial

theorem living_of_atRest (h : start.AtRest) : Living calls start start := by
  have hlog : start.db.outbox.log = [] := (h.tables .outbox).log
  have hpending (i : ℕ) : start.db.outbox.pending i = none := (h.tables .outbox).pending i
  have hletters : start.db.deadLetterJobs.log = [] := (h.tables .deadLetterJobs).log
  have hjobs (j : ℕ) : start.db.deadLetterJobs.pending j = none :=
    (h.tables .deadLetterJobs).pending j
  have hpast {i : ℕ} {r : Outbox} (hr : start.db.outbox.Past start.db.outbox.committed i r) :
      start.db.outbox.committed i = some r := by
    rcases hr with hr | ⟨t, ht⟩
    · exact hr
    · simp [hlog] at ht
  exact
    { lived := Table.AtRest.lived (h.tables .outbox)
      origin := fun i r r' hr hr' hstatus => by
        rcases hr' with hr' | ⟨t, ht⟩
        · obtain rfl := Option.some.inj ((hpast hr).symm.trans hr')
          exact ⟨hstatus, .refl r⟩
        · simp [hpending] at ht
      makes := fun t i v hv => by simp [hpending] at hv
      fate := fun i r hr hstatus => .inl ⟨r, hpast hr, hstatus, .refl r⟩
      letters := by rw [hlog, hletters]; rfl
      writers := fun t j d hd => by simp [hjobs] at hd }

/-- The invariant holds in every run. -/
theorem living_of_reaches {c : Config ℕ Error Request Request.Reply State Unit}
    (hstart : start.AtRest) (hrun : (system setup).Reaches .any
      (calling (fun t => (calls t).program setup) start) c) : Living calls start c.shared := by
  have hsound : (rules setup calls start).Sound (system setup) (faithful calls start)
      (fun _ _ _ => True) (fun _ _ _ => True) (calling (fun t => (calls t).program setup) start) :=
    hstart.sound (Clear · ·) (fun t => hstart.clear) call_meets
  have hliving {d : Config ℕ Error Request Request.Reply State Unit}
      (hd : (system setup).Reaches (faithful calls start)
        (calling (fun t => (calls t).program setup) start) d) : Living calls start d.shared :=
    keeping_induction nofun (fun _ _ _ => trivial) hsound hd (living_of_atRest hstart)
      fun s s' hs _ h hevent => h.step hs hevent
  exact hliving (hrun.within fun d hd => hliving hd)

/-! ### A run with a failure -/

def clip : InputJsonValue := ⟨.obj [("clip", .num 1)], by simp⟩

/-- Services that write an intent for an unknown queue, redrive it and send a code, the retention
jobs and relays. -/
def sample (t : ℕ) : Call :=
  if t = 0 then .service (transaction (enqueue "video" "encode" clip))
    (uses_transaction trivial trivial trivial (enqueue_produces _ _ _))
  else if t = 3 then .prune .published 20000 100 10 (by decide)
  else if t = 4 then .service (redrive plainSetup 0 none >>= fun _ => pure ())
    (.bind (redrive_produces _ _) fun _ => uses_pure _)
  else if t = 5 then .service (sendCode plainSetup "ada@example.com") (sendCode_produces _)
  else if t = 6 then .service (pruneDeadLetterJobs 20000 100 10 >>= fun _ => pure ())
    (.bind (pruneDeadLetterJobs_produces _ _ _) fun _ => uses_pure _)
  else .relay

def steps (t n : ℕ) : List (Label ℕ Oracle) := List.replicate n (.run t {})

/-- A relay publishes the first intent, whose row is removed later, and another one fails that for
the unknown queue, whose dead letter cannot be redriven. -/
def sampleRun : Config ℕ Error Request Request.Reply State Unit :=
  (system plainSetup).after (calling (fun t => (sample t).program plainSetup) Leases.due)
    (steps 1 9 ++ steps 0 2 ++ [.run 0 { fresh := 8 }] ++ steps 0 2 ++ steps 2 13 ++
      [.move { move := .clock 30000 }] ++ steps 3 3 ++ steps 4 3 ++ steps 5 2 ++ steps 6 2)

theorem sampleRun_reaches : (system plainSetup).Reaches .any
    (calling (fun t => (sample t).program plainSetup) Leases.due) sampleRun :=
  .of_schedule (fun l _ _ _ => Machine.keeps_any l) (by decide +kernel)

def statuses (s : State) : List (ℕ × ℕ × Option OutboxStatus) :=
  s.db.outbox.log.map fun e => (e.1, e.2.1, e.2.2.map (·.status))

/-! ### What holds of all runs -/

/-- What the histories of the outbox and of the dead letters are. -/
structure LifeCycle (start s : State) : Prop where
  replayed : s.db.outbox.committed = replayLog start.db.outbox.committed s.db.outbox.log
  advances : ∀ L₁ t i v L₂, s.db.outbox.log = L₁ ++ (t, i, v) :: L₂ →
    Advance s.queues.resolved i (replayLog start.db.outbox.committed L₁ i) v
  letters : s.db.deadLetterJobs.log.filterMap letter = s.db.outbox.log.filterMap failure

/-- Every commit on a row is a step of its life, and the dead letters are the failures. -/
theorem life_cycle {c : Config ℕ Error Request Request.Reply State Unit} (hstart : start.AtRest)
    (hrun : (system setup).Reaches .any (calling (fun t => (calls t).program setup) start) c) :
    LifeCycle start c.shared :=
  have h := living_of_reaches hstart hrun
  ⟨h.lived.replayed, h.lived.history, h.letters⟩

theorem life_cycle_sample : LifeCycle Leases.due sampleRun.shared ∧
    statuses sampleRun.shared = [(1, 7, some .pending), (1, 7, some .published),
      (0, 8, some .pending), (2, 8, some .pending), (2, 8, some .failed), (3, 7, none)] :=
  ⟨life_cycle Leases.due_atRest sampleRun_reaches, by decide +kernel⟩

/-- The dead letter holds the intent of row `i`. -/
def Preserves (i : ℕ) (r : Outbox) (d : DeadLetterJob) : Prop :=
  d.jobId = some (outboxJobId i) ∧ d.queueName = r.queueName ∧ d.jobName = r.jobName ∧
    d.payload = r.payload.orEmpty

/-- An intent that was committed is still pending, or its job has been added, or a dead letter
holds it. -/
theorem no_intent_lost {c : Config ℕ Error Request Request.Reply State Unit} {r : Outbox}
    (hstart : start.AtRest)
    (hrun : (system setup).Reaches .any (calling (fun t => (calls t).program setup) start) c)
    (hpast : c.shared.db.outbox.Past start.db.outbox.committed i r) (hr : r.status = .pending) :
    (∃ r', c.shared.db.outbox.committed i = some r' ∧ r'.status = .pending ∧ SameIntent r r') ∨
      jobOf i r ∈ c.shared.queues.resolved ∨
      ∃ t j d, (t, j, some d) ∈ c.shared.db.deadLetterJobs.log ∧ Preserves i r d := by
  have h := living_of_reaches hstart hrun
  refine (h.fate i r hpast hr).imp_right (.imp_right ?_)
  rintro ⟨t, r', hlog, hfailed, hqueue, hjob, hpayload⟩
  have hletter : { thread := t, jobId := some (outboxJobId i), queueName := r'.queueName
                   jobName := r'.jobName, payload := r'.payload.orEmpty
                   failedReason := r'.lastError.getD "", attemptsMade := r'.attempts : Letter } ∈
      c.shared.db.deadLetterJobs.log.filterMap letter := by
    rw [h.letters]
    exact List.mem_filterMap.mpr ⟨_, hlog, by simp [failure, hfailed]⟩
  obtain ⟨⟨u, j, v⟩, he, hwritten⟩ := List.mem_filterMap.mp hletter
  obtain ⟨d, rfl, hd⟩ := Option.bind_eq_some_iff.mp hwritten
  rw [Option.ite_none_right_eq_some] at hd
  obtain ⟨-, hd⟩ := hd
  simp only [Option.some.injEq, Letter.mk.injEq] at hd
  obtain ⟨rfl, hid, hq, hj, hp, -⟩ := hd
  exact ⟨u, j, d, he, hid, hq.trans hqueue, hj.trans hjob, by rw [hp, hpayload]⟩

theorem no_intent_lost_sample :
    (∃ r', sampleRun.shared.db.outbox.committed 7 = some r' ∧ r'.status = .pending ∧
      SameIntent Leases.dueRow r') ∨
    jobOf 7 Leases.dueRow ∈ sampleRun.shared.queues.resolved ∨
      ∃ t j d, (t, j, some d) ∈ sampleRun.shared.db.deadLetterJobs.log ∧
        Preserves 7 Leases.dueRow d :=
  no_intent_lost Leases.due_atRest sampleRun_reaches (.inl rfl) rfl

end ExpressCore.Lifecycle
