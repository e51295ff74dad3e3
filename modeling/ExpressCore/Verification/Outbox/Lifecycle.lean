import ExpressCore.Library.History
import ExpressCore.Model.DeadLetter
import ExpressCore.Verification.System.Calls

/-! # The life of an intent

An intent is pending until its job is in the queue or a dead letter holds it, whatever the relays,
the retention job and the services that write intents do. -/

namespace ExpressCore.Lifecycle

open ReadCommitted Interleaving Interleaving.Program

/-! ## Intents -/

/-- The job that a relay adds for row `i`. -/
def jobOf (i : ℕ) (r : Outbox) : QueueJob :=
  { queueName := r.queueName, jobName := r.jobName, payload := r.payload, jobId := outboxJobId i }

def SameIntent (r r' : Outbox) : Prop :=
  r'.queueName = r.queueName ∧ r'.jobName = r.jobName ∧ r'.payload = r.payload

theorem SameIntent.refl (r : Outbox) : SameIntent r r := ⟨rfl, rfl, rfl⟩

theorem SameIntent.trans {r r' r'' : Outbox} (h : SameIntent r r') (h' : SameIntent r' r'') :
    SameIntent r r'' :=
  ⟨h'.1.trans h.1, h'.2.1.trans h.2.1, h'.2.2.trans h.2.2⟩

theorem SameIntent.jobOf {r r' : Outbox} (h : SameIntent r r') (i : ℕ) :
    jobOf i r' = jobOf i r := by
  simp only [Lifecycle.jobOf, h.1, h.2.1, h.2.2]

/-- What a commit may make of row `i` when the adds `resolved` have resolved. -/
inductive Advance (resolved : List QueueJob) (i : ℕ) : Option Outbox → Option Outbox → Prop where
  | insert {r : Outbox} : r.status = .pending → Advance resolved i none (some r)
  | keep {r r' : Outbox} : r.status = .pending → r'.status = .pending → SameIntent r r' →
      Advance resolved i (some r) (some r')
  | publish {r r' : Outbox} : r.status = .pending → r'.status = .published →
      r'.payload = .obj [] → jobOf i r ∈ resolved → Advance resolved i (some r) (some r')
  | fail {r r' : Outbox} : r.status = .pending → r'.status = .failed → SameIntent r r' →
      Advance resolved i (some r) (some r')
  | remove {r : Outbox} : r.status ≠ .pending → Advance resolved i (some r) none

theorem Advance.mono {resolved resolved' : List QueueJob} {i : ℕ} {old new : Option Outbox}
    (h : Advance resolved i old new) (hresolved : resolved ⊆ resolved') :
    Advance resolved' i old new := by
  cases h with
  | insert hr => exact .insert hr
  | keep hr hr' hsame => exact .keep hr hr' hsame
  | publish hr hr' hpayload hjob => exact .publish hr hr' hpayload (hresolved hjob)
  | fail hr hr' hsame => exact .fail hr hr' hsame
  | remove hr => exact .remove hr

/-- A row that is pending was pending with the same intent. -/
theorem Advance.of_pending {resolved : List QueueJob} {i : ℕ} {r r' : Outbox}
    (h : Advance resolved i (some r) (some r')) (hr' : r'.status = .pending) :
    r.status = .pending ∧ SameIntent r r' := by
  cases h with
  | keep hr _ hsame => exact ⟨hr, hsame⟩
  | publish _ hpublished => simp [hr'] at hpublished
  | fail _ hfailed => simp [hr'] at hfailed

/-- What a dead letter tells of the job that failed, with the thread that wrote it. -/
structure Letter where
  thread : ℕ
  jobId : Option String
  queueName : String
  jobName : String
  payload : Json
  failedReason : String
  attemptsMade : ℕ

/-- The letter of a log entry. A row that is re-driven is no new letter. -/
def letter (e : ℕ × ℕ × Option DeadLetterJob) : Option Letter :=
  e.2.2.bind fun d =>
    if d.redrivenAt.isNone then
      some { thread := e.1, jobId := d.jobId, queueName := d.queueName, jobName := d.jobName
             payload := d.payload, failedReason := d.failedReason, attemptsMade := d.attemptsMade }
    else none

/-- The letter that the failure of a row asks for. -/
def failure (e : ℕ × ℕ × Option Outbox) : Option Letter :=
  e.2.2.bind fun r =>
    if r.status = .failed then
      some { thread := e.1, jobId := some (outboxJobId e.2.1), queueName := r.queueName
             jobName := r.jobName, payload := r.payload.orEmpty
             failedReason := r.lastError.getD "", attemptsMade := r.attempts }
    else none

/-! ## Calls -/

/-- Requests of services that write intents, and otherwise leave the outbox alone, and that
write no dead letter. -/
def Produces : Request → Prop
  | .sql (.outbox a) => a.Writes → ∃ row, a = .insert row ∧ row.status = .pending
  | .sql (.deadLetterJobs a) => a.Writes → ∃ i w c, a = .visit i w c
  | _ => True

inductive Call where
  | relay
  | prune (status : OutboxStatus) (before : Time) (batchSize maxBatches : ℕ)
      (terminal : status ≠ .pending)
  | service (p : Service Unit) (produces : p.Uses Produces)

def Call.program (setup : Setup) : Call → Service Unit
  | .relay => do
      let _ ← relayOnce setup
      pure ()
  | .prune status before batchSize maxBatches _ => do
      let _ ← ExpressCore.prune status before batchSize maxBatches
      pure ()
  | .service p _ => p

/-- What a thread with this call makes of a row. -/
def Call.Makes : Call → Option Outbox → Option Outbox → Prop
  | .relay, old, new => old.isSome ∧ new.isSome
  | .prune .., _, new => new = none
  | .service .., old, new => old = none ∧ ∃ r, new = some r ∧ r.status = .pending

/-! ## The discipline -/

section Discipline

variable (calls : ℕ → Call) (start : State)

/-- Row `i` was published or failed once. -/
def Over (i : ℕ) (s : State) : Prop :=
  ∃ r, s.db.outbox.Past start.db.outbox.committed i r ∧ r.status ≠ .pending

/-- The job of row `i` has been added. -/
def Delivered (i : ℕ) (s : State) : Prop :=
  ∃ r, s.db.outbox.Past start.db.outbox.committed i r ∧ r.status = .pending ∧
    jobOf i r ∈ s.queues.resolved

/-- What each call makes sure of before it writes to the outbox. -/
def Call.Writes (t : ℕ) (a : Access ℕ Outbox OutboxWhere OutboxChange) (s : State) :
    Call → Prop
  | .relay => (∃ i now until', a = .visitUnlocked i (.due now) (.lease until')) ∨
      ∃ i id c, a = .visit i (.pending id) c ∧
        ((∃ error availableAt, c = .retry error availableAt) ∨
          (∃ now, c = .publish now ∧ Delivered start id s) ∨
          ∃ attempts reason now, c = .fail attempts reason now)
  | .prune .. => ∃ i ids, a = .visit i (.ids ids) .delete ∧
      ∀ j ∈ ids, Over start j s ∨ s.db.outbox.pending j = some (t, none)
  | .service .. => ∃ row, a = .insert row ∧ row.status = .pending

/-- Thread `t` fails no row and writes no letter. -/
def Harmless (t : ℕ) (s : State) : Prop :=
  (∀ i r, s.db.outbox.pending i = some (t, some r) → r.status ≠ .failed) ∧
    ∀ j d, s.db.deadLetterJobs.pending j = some (t, some d) → d.redrivenAt ≠ none

/-- Thread `t` holds a row that fails with its letter, and nothing else. -/
def Paired (t : ℕ) (s : State) : Prop :=
  ∃ i b r done j d done', Ledger .outbox t [(i, b, some r)] done s ∧
    Ledger .deadLetterJobs t [(j, none, some d)] done' s ∧
    failure (t, i, some r) = letter (t, j, some d)

/-- A row fails together with its letter. -/
def delivering : Discipline where
  tables k := k = .outbox ∨ k = .deadLetterJobs
  change
    | t, .outbox, a, s => (calls t).Writes start t a s
    | t, .deadLetterJobs, a, _ => calls t = .relay ∧ (∃ row, a = .insert row) ∨
        ∃ i w c, a = .visit i w c
    | _, _, _, _ => True
  commit t s := Harmless t s ∨ Paired t s
  other _ _ _ := True
  commit_free _ _ h :=
    .inl ⟨fun i _ hp => (h .outbox (.inl rfl) i _ hp).elim,
      fun j _ hp => (h .deadLetterJobs (.inr rfl) j _ hp).elim⟩

end Discipline

/-! ## The invariant -/

variable {setup : Setup} {calls : ℕ → Call} {start : State} {A : Assumption ℕ Request State}
  {t i : ℕ} {s s' : State}

structure Living (calls : ℕ → Call) (start s : State) : Prop where
  lived : s.db.outbox.Lived (Advance s.queues.resolved) start.db.outbox.committed
  origin : ∀ i r r', s.db.outbox.Past start.db.outbox.committed i r →
    s.db.outbox.Version i r' → r'.status = .pending → r.status = .pending ∧ SameIntent r r'
  makes : ∀ t i v, s.db.outbox.pending i = some (t, v) →
    (calls t).Makes (s.db.outbox.committed i) v
  fate : ∀ i r, s.db.outbox.Past start.db.outbox.committed i r → r.status = .pending →
    (∃ r', s.db.outbox.committed i = some r' ∧ r'.status = .pending ∧ SameIntent r r') ∨
      jobOf i r ∈ s.queues.resolved ∨
      ∃ t r', (t, i, some r') ∈ s.db.outbox.log ∧ r'.status = .failed ∧ SameIntent r r'
  letters : s.db.deadLetterJobs.log.filterMap letter = s.db.outbox.log.filterMap failure
  writers : ∀ t j d, s.db.deadLetterJobs.pending j = some (t, some d) → d.redrivenAt = none →
    calls t = .relay

namespace Living

/-- What a write may be. A row that it leaves pending was pending, or is new. -/
theorem advance {a : Access ℕ Outbox OutboxWhere OutboxChange} {v : Option Outbox}
    (h : Living calls start s) (hwrites : (calls t).Writes start t a s)
    (hwrote : a.Wrote t s.db.outbox i v) :
    Advance s.queues.resolved i (s.db.outbox.committed i) v ∧
      (calls t).Makes (s.db.outbox.committed i) v ∧
      ∀ r', v = some r' → r'.status = .pending → i ∉ s.db.outbox.ids ∨
        ∃ old, s.db.outbox.Version i old ∧ old.status = .pending ∧ SameIntent old r' := by
  generalize hcall : calls t = call at hwrites
  cases call with
  | relay =>
      have hfound (old : Outbox) (hview : s.db.outbox.view t i = some old)
          (hold : old.status = .pending) : ∃ r, s.db.outbox.committed i = some r ∧
            r.status = .pending ∧ SameIntent r old := by
        rcases Table.view_cases hview with hp | ⟨hr, -⟩
        · have hmakes := h.makes t i _ hp
          rw [hcall] at hmakes
          obtain ⟨r, hr⟩ := Option.isSome_iff_exists.mp hmakes.1
          exact ⟨r, hr, (hr ▸ h.lived.held t i _ hp).of_pending hold⟩
        · exact ⟨old, hr, hold, .refl old⟩
      have hkeep (old new : Outbox) (hview : s.db.outbox.view t i = some old)
          (hold : old.status = .pending) (hnew : new.status = .pending)
          (hsame : SameIntent old new) :
          Advance s.queues.resolved i (s.db.outbox.committed i) (some new) ∧
            Call.relay.Makes (s.db.outbox.committed i) (some new) ∧
            ∀ r', some new = some r' → r'.status = .pending → i ∉ s.db.outbox.ids ∨
              ∃ old, s.db.outbox.Version i old ∧ old.status = .pending ∧ SameIntent old r' := by
        obtain ⟨r, hr, hpending, hold'⟩ := hfound old hview hold
        rw [hr]
        refine ⟨.keep hpending hnew (hold'.trans hsame), ⟨rfl, rfl⟩, fun r' hr' _ => ?_⟩
        obtain rfl := Option.some.inj hr'
        exact .inr ⟨old, version_of_view hview, hold, hsame⟩
      rcases hwrites with ⟨j, now, until', rfl⟩ | ⟨j, id, c, rfl, hc⟩
      · cases hwrote with
        | visitUnlocked _ w c old hlocked hview hw =>
            simp only [Condition.holds, Bool.and_eq_true, beq_iff_eq, decide_eq_true_eq] at hw
            exact hkeep old _ hview hw.1 hw.1 ⟨rfl, rfl, rfl⟩
      · cases hwrote with
        | visit _ w c old hlocked hview hw =>
            simp only [Condition.holds, Bool.and_eq_true, beq_iff_eq] at hw
            obtain ⟨rfl, hold⟩ := hw
            rcases hc with ⟨error, at', rfl⟩ | ⟨now, rfl, hdelivered⟩ | ⟨attempts, reason, now, rfl⟩
            · exact hkeep old _ hview hold hold ⟨rfl, rfl, rfl⟩
            · obtain ⟨r, hr, hpending, hsame⟩ := hfound old hview hold
              obtain ⟨r₀, hpast, -, hjob⟩ := hdelivered
              have hjob' := (h.origin i r₀ r hpast (.inl hr) hpending).2.jobOf i
              rw [hr]
              exact ⟨.publish hpending rfl rfl (hjob' ▸ hjob), ⟨rfl, rfl⟩,
                fun r' hr' hr'' => by cases hr'; cases hr''⟩
            · obtain ⟨r, hr, hpending, hsame⟩ := hfound old hview hold
              rw [hr]
              exact ⟨.fail hpending rfl hsame, ⟨rfl, rfl⟩,
                fun r' hr' hr'' => by cases hr'; cases hr''⟩
  | prune =>
      obtain ⟨j, ids, rfl, hids⟩ := hwrites
      cases hwrote with
      | visit _ w c old hlocked hview hw =>
          have hi : i ∈ ids := by simpa [Condition.holds] using hw
          rcases Table.view_cases hview with hp | ⟨hr, hnot⟩
          · have hmakes := h.makes t i _ hp
            rw [hcall] at hmakes
            cases hmakes
          · have hover : old.status ≠ .pending := fun hpending => by
              rcases hids i hi with ⟨r, hpast, hr'⟩ | hp
              · exact hr' (h.origin i r old hpast (.inl hr) hpending).1
              · exact hnot none hp
            rw [hr]
            exact ⟨.remove hover, rfl, fun r' hr' => by cases hr'⟩
  | service p produces =>
      obtain ⟨row, rfl, hrow⟩ := hwrites
      cases hwrote with
      | insert _ _ hfresh =>
          have hnone : s.db.outbox.committed i = none := by
            by_contra hsome
            obtain ⟨r, hr⟩ := Option.ne_none_iff_exists'.mp hsome
            exact hfresh (s.db.outbox.mem_of_committed i r hr)
          rw [hnone]
          exact ⟨.insert hrow, ⟨rfl, row, rfl, hrow⟩, fun _ _ _ => .inl hfresh⟩

/-- The adds that have resolved stay resolved. -/
theorem resolved_subset (hevent : Event setup A (delivering calls start) s s') :
    s.queues.resolved ⊆ s'.queues.resolved := by
  cases hevent with
  | access t k a reply o _ _ h => rw [h.rest]; exact List.Subset.refl _
  | commit t _ _ hrest => rw [hrest]; exact List.Subset.refl _
  | abort t _ hrest => rw [hrest]; exact List.Subset.refl _
  | other t r o reply _ _ hexec _ =>
      obtain ⟨new, heq⟩ := (exec_records hexec).2.2
      exact heq ▸ List.subset_append_right _ _
  | move m hmove _ _ => rw [(move_records hmove).2.2]; exact List.Subset.refl _

private theorem lived_step (h : Living calls start s)
    (hevent : Event setup A (delivering calls start) s s') :
    s'.db.outbox.Lived (Advance s'.queues.resolved) start.db.outbox.committed := by
  suffices h : s'.db.outbox.Lived (Advance s.queues.resolved) start.db.outbox.committed from
    h.mono fun i old new hstep => hstep.mono (resolved_subset hevent)
  have hrow := hevent.on .outbox
  simp only [TableName.table] at hrow
  cases hrow with
  | same hcommitted hpending hlog => exact h.lived.of_eq hcommitted hpending hlog
  | write t a i v hchange _ hwrote htable =>
      exact htable ▸ h.lived.write (h.advance (hchange (.inl rfl)) hwrote).1
  | commit t _ htable => exact htable ▸ h.lived.commit
  | abort t htable => exact htable ▸ h.lived.abort

private theorem origin_step (h : Living calls start s) (hs : s.InOrder setup False)
    (hevent : Event setup A (delivering calls start) s s') (i : ℕ) (r r' : Outbox)
    (hpast : s'.db.outbox.Past start.db.outbox.committed i r)
    (hversion : s'.db.outbox.Version i r') (hr' : r'.status = .pending) :
    r.status = .pending ∧ SameIntent r r' := by
  have hrow := hevent.on .outbox
  simp only [TableName.table] at hrow
  cases hrow with
  | same hcommitted hpending hlog =>
      rw [Table.Past, hlog] at hpast
      rw [Table.Version, hcommitted, hpending] at hversion
      exact h.origin i r r' hpast hversion hr'
  | write t a j v hchange _ hwrote htable =>
      rw [htable] at hpast hversion
      rcases version_of_write hversion with hversion | ⟨rfl, hv⟩
      · exact h.origin i r r' hpast hversion hr'
      · rcases (h.advance (hchange (.inl rfl)) hwrote).2.2 r' hv hr' with
          hfresh | ⟨old, hold, hpending, hsame⟩
        · exact (hfresh (Table.Past.mem_ids hpast h.lived (hs.ordered .outbox))).elim
        · obtain ⟨hr, hsame'⟩ := h.origin i r old hpast hold hpending
          exact ⟨hr, hsame'.trans hsame⟩
  | commit t _ htable =>
      have htable : s'.db.outbox = s.db.outbox.commit t := htable
      rw [htable] at hpast hversion
      by_cases hbefore : s.db.outbox.Past start.db.outbox.committed i r
      · exact h.origin i r r' hbefore (version_of_commit hversion) hr'
      · obtain ⟨u, hu⟩ := hpast.resolve_left fun hr => hbefore (.inl hr)
        have hwrites : (u, i, some r) ∈ s.db.outbox.writes t :=
          (List.mem_append.mp hu).resolve_left fun hu => hbefore (.inr ⟨u, hu⟩)
        have hp : s.db.outbox.pending i = some (t, some r) := (Table.mem_writes.mp hwrites).2
        have heq : r' = r := by
          rcases hversion with hversion | ⟨w, hversion⟩
          · rw [Table.commit_committed_of_pending hp] at hversion
            exact (Option.some.inj hversion).symm
          · obtain ⟨hw, hne⟩ := Table.commit_pending.mp hversion
            rw [hp] at hw
            exact (hne (Prod.mk.inj (Option.some.inj hw)).1.symm).elim
        subst heq
        exact ⟨hr', .refl r'⟩
  | abort t htable =>
      rw [htable] at hpast hversion
      exact h.origin i r r' hpast (version_of_abort hversion) hr'

private theorem makes_step (h : Living calls start s)
    (hevent : Event setup A (delivering calls start) s s') (t i : ℕ) (v : Option Outbox)
    (hv : s'.db.outbox.pending i = some (t, v)) :
    (calls t).Makes (s'.db.outbox.committed i) v := by
  have hrow := hevent.on .outbox
  simp only [TableName.table] at hrow
  cases hrow with
  | same hcommitted hpending hlog =>
      rw [hpending] at hv
      exact hcommitted ▸ h.makes t i v hv
  | write u a j w hchange _ hwrote htable =>
      rw [htable] at hv ⊢
      rcases Table.write_pending hv with ⟨rfl, heq⟩ | ⟨-, hv⟩
      · cases heq
        exact (h.advance (hchange (.inl rfl)) hwrote).2.1
      · exact h.makes t i v hv
  | commit u _ htable =>
      rw [htable] at hv ⊢
      obtain ⟨hv, hne⟩ := Table.commit_pending.mp hv
      rw [Table.commit_committed_of_not_pending]
      · exact h.makes t i v hv
      · intro w hw
        rw [hw] at hv
        exact hne (Prod.mk.inj (Option.some.inj hv)).1.symm
  | abort u htable =>
      rw [htable] at hv ⊢
      exact h.makes t i v (Table.abort_pending.mp hv).1

private theorem fate_step (h : Living calls start s)
    (hevent : Event setup A (delivering calls start) s s') (i : ℕ) (r : Outbox)
    (hpast : s'.db.outbox.Past start.db.outbox.committed i r) (hr : r.status = .pending) :
    (∃ r', s'.db.outbox.committed i = some r' ∧ r'.status = .pending ∧ SameIntent r r') ∨
      jobOf i r ∈ s'.queues.resolved ∨
      ∃ t r', (t, i, some r') ∈ s'.db.outbox.log ∧ r'.status = .failed ∧ SameIntent r r' := by
  have hresolved := resolved_subset hevent
  have hkept (hcommitted : s'.db.outbox.committed = s.db.outbox.committed)
      (hlog : s'.db.outbox.log = s.db.outbox.log) :
      (∃ r', s'.db.outbox.committed i = some r' ∧ r'.status = .pending ∧ SameIntent r r') ∨
        jobOf i r ∈ s'.queues.resolved ∨
        ∃ t r', (t, i, some r') ∈ s'.db.outbox.log ∧ r'.status = .failed ∧ SameIntent r r' := by
    rw [Table.Past, hlog] at hpast
    rw [hcommitted, hlog]
    exact (h.fate i r hpast hr).imp_right (.imp_left fun hjob => hresolved hjob)
  have hrow := hevent.on .outbox
  simp only [TableName.table] at hrow
  cases hrow with
  | same hcommitted hpending hlog => exact hkept hcommitted hlog
  | write t a j v _ _ _ htable => exact hkept (htable ▸ rfl) (htable ▸ rfl)
  | abort t htable => exact hkept (htable ▸ rfl) (htable ▸ rfl)
  | commit t _ htable =>
      have htable : s'.db.outbox = s.db.outbox.commit t := htable
      rw [htable] at hpast ⊢
      have hlog : s.db.outbox.log ⊆ (s.db.outbox.commit t).log := List.subset_append_left _ _
      by_cases hbefore : s.db.outbox.Past start.db.outbox.committed i r
      · rcases h.fate i r hbefore hr with ⟨r', hr', hpending, hsame⟩ | hjob | ⟨u, r', hu, hfailed⟩
        · rcases s.db.outbox.commit_committed_cases (t := t) (i := i) with ⟨v, hv, heq⟩ | ⟨-, heq⟩
          · have hadvance := h.lived.held t i v hv
            rw [hr'] at hadvance
            rw [heq]
            have hentry : (t, i, v) ∈ (s.db.outbox.commit t).log :=
              List.mem_append_right _ (Table.mem_writes.mpr ⟨rfl, hv⟩)
            cases hadvance with
            | keep _ hnew hsame' => exact .inl ⟨_, rfl, hnew, hsame.trans hsame'⟩
            | publish _ _ _ hjob => exact .inr (.inl (hresolved (hsame.jobOf i ▸ hjob)))
            | fail _ hnew hsame' => exact .inr (.inr ⟨t, _, hentry, hnew, hsame.trans hsame'⟩)
            | remove hover => exact (hover hpending).elim
          · exact .inl ⟨r', heq.trans hr', hpending, hsame⟩
        · exact .inr (.inl (hresolved hjob))
        · exact .inr (.inr ⟨u, r', hlog hu, hfailed⟩)
      · obtain ⟨u, hu⟩ := hpast.resolve_left fun hr => hbefore (.inl hr)
        have hwrites : (u, i, some r) ∈ s.db.outbox.writes t :=
          (List.mem_append.mp hu).resolve_left fun hu => hbefore (.inr ⟨u, hu⟩)
        have hp : s.db.outbox.pending i = some (t, some r) := (Table.mem_writes.mp hwrites).2
        exact .inl ⟨r, Table.commit_committed_of_pending hp, hr, .refl r⟩

/-- What a harmless thread commits are no failures and no letters. -/
private theorem letters_of_harmless (h : Harmless t s) :
    (s.db.deadLetterJobs.writes t).filterMap letter = [] ∧
      (s.db.outbox.writes t).filterMap failure = [] := by
  constructor
  · refine List.filterMap_eq_nil_iff.mpr ?_
    rintro ⟨u, j, v⟩ he
    have hp := (Table.mem_writes.mp he).2
    cases v with
    | none => rfl
    | some d => simp [letter, h.2 j d hp]
  · refine List.filterMap_eq_nil_iff.mpr ?_
    rintro ⟨u, i, v⟩ he
    have hp := (Table.mem_writes.mp he).2
    cases v with
    | none => rfl
    | some r => simp [failure, h.1 i r hp]

private theorem letters_step (h : Living calls start s)
    (hevent : Event setup A (delivering calls start) s s') :
    s'.db.deadLetterJobs.log.filterMap letter = s'.db.outbox.log.filterMap failure := by
  rcases hevent.settled with ⟨t, hcommit, htables⟩ | hsettled
  · have houtbox : s'.db.outbox = s.db.outbox.commit t := htables .outbox
    have hjobs : s'.db.deadLetterJobs = s.db.deadLetterJobs.commit t := htables .deadLetterJobs
    rcases hcommit with hharmless | ⟨i, b, r, done, j, d, done', hrow, hletter, heq⟩
    · obtain ⟨hletters, hfailures⟩ := letters_of_harmless hharmless
      rw [hjobs, houtbox, Table.commit_log, Table.commit_log, List.filterMap_append,
        List.filterMap_append, hletters, hfailures, h.letters]
    · have hrow : s.db.outbox.Ledger t [(i, b, some r)] done := hrow
      have hletter : s.db.deadLetterJobs.Ledger t [(j, none, some d)] done' := hletter
      rw [hjobs, houtbox, hrow.commit_log, hletter.commit_log, List.filterMap_append,
        List.filterMap_append, h.letters]
      simp only [List.filterMap_cons, List.filterMap_nil, heq]
  · have houtbox : s'.db.outbox.log = s.db.outbox.log := (hsettled .outbox).2
    have hjobs : s'.db.deadLetterJobs.log = s.db.deadLetterJobs.log := (hsettled .deadLetterJobs).2
    rw [houtbox, hjobs, h.letters]

private theorem writers_step (h : Living calls start s)
    (hevent : Event setup A (delivering calls start) s s') (t j : ℕ) (d : DeadLetterJob)
    (hd : s'.db.deadLetterJobs.pending j = some (t, some d)) (hnew : d.redrivenAt = none) :
    calls t = .relay := by
  have hrow := hevent.on .deadLetterJobs
  simp only [TableName.table] at hrow
  cases hrow with
  | same _ hpending => exact h.writers t j d (hpending ▸ hd) hnew
  | write u a i v hchange _ hwrote htable =>
      rw [htable] at hd
      rcases Table.write_pending hd with ⟨rfl, heq⟩ | ⟨-, hd⟩
      · obtain ⟨rfl, hv⟩ := Prod.mk.inj heq
        rcases hchange (.inr rfl) with ⟨hcall, -⟩ | ⟨i, w, c, rfl⟩
        · exact hcall
        · cases hwrote with
          | visit _ _ _ old _ _ _ =>
              cases c with
              | stamp => cases hv; cases hnew
              | delete => cases hv
      · exact h.writers t j d hd hnew
  | commit u _ htable => exact h.writers t j d (Table.commit_pending.mp (htable ▸ hd)).1 hnew
  | abort u htable => exact h.writers t j d (Table.abort_pending.mp (htable ▸ hd)).1 hnew

theorem step (h : Living calls start s) (hs : s.InOrder setup False)
    (hevent : Event setup A (delivering calls start) s s') : Living calls start s' where
  lived := lived_step h hevent
  origin := origin_step h hs hevent
  makes := makes_step h hevent
  fate := fate_step h hevent
  letters := letters_step h hevent
  writers := writers_step h hevent

end Living


end ExpressCore.Lifecycle
