import ExpressCore.Model.Outbox
import ExpressCore.Verification.System.Contracts

/-! # Runs of calls

Every thread is one call of a service, all on one database in which no transaction is open. -/

namespace ExpressCore

open ReadCommitted Interleaving Interleaving.Program

/-- The system before a run: any database and cache, and nothing recorded. -/
structure State.AtRest (s : State) : Prop where
  tables : ∀ k : TableName, (k.table s.db).AtRest
  poisoned : ∀ t, s.db.poisoned t = false
  seen : s.seen = []
  minted : s.minted = []
  families : s.families = []
  comparisons : s.comparisons = []
  tickets : s.tickets = []

variable {setup : Setup} {traced : Prop} {A : Assumption ℕ Request State} {D : Discipline}
  {K : TableName → Prop} {t : ℕ} {s : State}

theorem State.AtRest.inOrder (h : s.AtRest) : s.InOrder setup traced where
  ordered k := (h.tables k).ordered
  coherent k := by
    have hversion (i : ℕ) (r : k.Row) (hr : (k.table s.db).Record i r) :
        (k.table s.db).committed i = some r := by
      rcases hr with (hr | ⟨t, hr⟩) | ⟨t, hr⟩
      · exact hr
      · simp [(h.tables k).pending i] at hr
      · simp [(h.tables k).log] at hr
    intro i r r' hr hr'
    obtain rfl := Option.some.inj ((hversion i r hr).symm.trans (hversion i r' hr'))
    exact k.same_refl r
  drawn := by constructor <;> simp [h.seen, h.minted, h.families]

theorem State.AtRest.clear (h : s.AtRest) : Clear t s := h.poisoned t

theorem State.AtRest.fresh (h : s.AtRest) : Fresh K t s := fun k _ => (h.tables k).ledger

/-- Runs in which thread `t` is answered at times in `span t` only. -/
def timed (span : ℕ → Time → Prop) : Assumption ℕ Request State where
  request t _ s := span t s.clock
  move _ _ := True

/-- Thread `t` runs `calls t`. -/
def calling {α : Type} (calls : ℕ → Service α) (s : State) :
    Config ℕ Error Request Request.Reply State α :=
  ⟨s, calls⟩

variable {α : Type} {calls : ℕ → Service α} {posts : ℕ → α → State → Prop}
  {errs : ℕ → Error → State → Prop} {pre : ℕ → State → Prop}
  {c : Config ℕ Error Request Request.Reply State α}

variable (pre) in
theorem State.AtRest.sound (h : s.AtRest) (hpre : ∀ t, pre t s)
    (hcalls : ∀ t, (keeping setup traced A D).Meets (system setup) A t (posts t) (errs t)
      (calls t) fun s => Fresh D.tables t s ∧ pre t s) :
    (keeping setup traced A D).Sound (system setup) A posts errs (calling calls s) :=
  ⟨h.inOrder, fun t => (hcalls t).holds h.inOrder ⟨h.fresh, hpre t⟩⟩

/-! ## Time -/

/-- A statement begins a transaction at the time of the clock, ends it or leaves it. -/
theorem startedAt_cases {q : Sql} {o : Oracle} {clock : Time} {d d' : Db} {reply : q.Reply}
    (h : q.exec t o clock d = some (reply, d')) :
    d'.startedAt = d.startedAt ∨ d'.startedAt = Function.update d.startedAt t none ∨
      d'.startedAt = Function.update d.startedAt t (some clock) := by
  cases q with
  | begin =>
      cases h
      exact .inr (.inr rfl)
  | commit =>
      cases h
      refine .inr (.inl ?_)
      unfold Db.finish
      split <;> rfl
  | rollback =>
      cases h
      exact .inr (.inl rfl)
  | complete db =>
      cases db <;>
        simp only [Sql.exec, Db.unlessPoisoned_eq_some, Option.some.injEq, Prod.mk.injEq] at h <;>
        obtain ⟨-, -, rfl⟩ := h
      · exact .inr (.inl rfl)
      · exact .inl rfl
  | deleted db w count =>
      cases db <;>
        simp only [Sql.exec, Db.unlessPoisoned_eq_some, Option.some.injEq, Prod.mk.injEq] at h <;>
        obtain ⟨-, -, rfl⟩ := h
      · exact .inr (.inl rfl)
      · exact .inl rfl
  | now =>
      simp only [Sql.exec, Db.unlessPoisoned_eq_some, Option.some.injEq, Prod.mk.injEq] at h
      obtain ⟨-, -, rfl⟩ := h
      exact .inl rfl
  | logActivity db row =>
      simp only [Sql.exec] at h
      split at h
      · cases h
        exact .inl rfl
      · simp only [Option.map_eq_some_iff, Prod.mk.injEq] at h
        obtain ⟨d'', haudit, -, rfl⟩ := h
        unfold Db.audit at haudit
        split at haudit
        · split at haudit <;> cases haudit
          exact .inl rfl
        · split at haudit <;> cases haudit
          exact .inr (.inl rfl)
        · cases haudit
          exact .inl rfl
        · cases haudit
          exact .inl rfl
  | _ a =>
      simp only [Sql.exec, Db.unlessPoisoned_eq_some, Option.map_eq_some_iff, Prod.mk.injEq] at h
      obtain ⟨-, ⟨reply', T⟩, -, -, rfl⟩ := h
      exact .inl rfl

/-- Time goes on, and transactions begin at the time of the clock. -/
structure State.Later (s s' : State) : Prop where
  clock : s.clock ≤ s'.clock
  begun : ∀ t now, s'.db.startedAt t = some now → s.db.startedAt t = some now ∨ now = s.clock

theorem State.Later.exec {r : Request} {o : Oracle} {reply : r.Reply} {s' : State}
    (h : r.exec setup t o s = some (reply, s')) : s.Later s' := by
  have hclock : s'.clock = s.clock := (State.Moves.exec h).clock
  refine ⟨Nat.le_of_eq hclock.symm, fun u now hnow => ?_⟩
  by_cases hsql : ∃ q, r = .sql q
  · obtain ⟨q, rfl⟩ := hsql
    simp only [Request.exec, Option.map_eq_some_iff, Prod.mk.injEq] at h
    obtain ⟨⟨reply', d⟩, hexec, -, rfl⟩ := h
    have hnow : d.startedAt u = some now := hnow
    rcases startedAt_cases hexec with heq | heq | heq
    · exact .inl (heq ▸ hnow)
    · rw [heq] at hnow
      by_cases hu : u = t
      · simp [hu] at hnow
      · exact .inl (by rwa [Function.update_of_ne hu] at hnow)
    · rw [heq] at hnow
      by_cases hu : u = t
      · exact .inr (by simpa [hu] using hnow.symm)
      · exact .inl (by rwa [Function.update_of_ne hu] at hnow)
  · exact .inl (exec_db (fun q hq => hsql ⟨q, hq⟩) h ▸ hnow)

theorem State.Later.crash : s.Later { s with db := s.db.abortAll t } := by
  refine ⟨Nat.le_refl _, fun u now hnow => .inl ?_⟩
  have hnow : Function.update s.db.startedAt t none u = some now := hnow
  by_cases hu : u = t
  · simp [hu] at hnow
  · rwa [Function.update_of_ne hu] at hnow

/-- Only a thread itself begins and ends its transactions. -/
theorem startedAt_stable (v : Option Time) :
    (keeping setup traced A D).Stable t fun s => s.db.startedAt t = v := by
  rintro s s' - - ⟨⟨u, hne, ⟨r, o, reply, -, hexec⟩ | rfl⟩ | ⟨o, hmove, -⟩, -⟩ h
  · exact ((State.Moves.exec hexec).db.startedAt t hne.symm).trans h
  · exact (Function.update_of_ne hne.symm _ _).trans h
  · exact (move_exec hmove).1 ▸ h

/-- The time of the statements of a transaction. -/
theorem reply_of_now {o : Oracle} {now : Time} {s' : State}
    (h : (Request.sql .now).exec setup t o s = some (now, s')) :
    now = (s.db.startedAt t).getD s.clock ∧ s' = s := by
  simp only [Request.exec, Sql.exec, Option.map_eq_some_iff, Db.unlessPoisoned_eq_some,
    Option.some.injEq, Prod.mk.injEq] at h
  obtain ⟨_, ⟨-, rfl⟩, rfl, rfl⟩ := h
  exact ⟨rfl, rfl⟩

/-- As `keeping_induction`, for what also depends on the time. -/
theorem keeping_induction_later {α : Type} {c c' : Config ℕ Error Request Request.Reply State α}
    {posts : ℕ → α → State → Prop} {errs : ℕ → Error → State → Prop} {P : State → Prop}
    (hclock : ∀ s s', A.move s s' → s.clock ≤ s'.clock)
    (hlost : ∀ t s, State.InOrder setup traced s → errs t .lost s)
    (h : (keeping setup traced A D).Sound (system setup) A posts errs c)
    (hrun : (system setup).Reaches A c c') (hinit : P c.shared)
    (hstep : ∀ s s', P s → s.Later s' → Event setup A D s s' → P s') : P c'.shared := by
  refine Rules.Sound.induction (keeping_compatible fun s s' hA _ => hclock s s' hA) hlost h hrun
    hinit fun s s' _ _ hP htransition => ?_
  cases htransition with
  | perform t hperforms =>
      refine hstep s s' hP ?_ (.of_performs hperforms)
      rcases hperforms with ⟨r, o, reply, -, hexec⟩ | rfl
      · exact .exec hexec
      · exact .crash
  | move o hmove hA =>
      have hdb := (move_exec hmove).1
      exact hstep s s' hP ⟨hclock s s' hA, fun u now hnow => .inl (hdb ▸ hnow)⟩
        (.move o.move hmove hA hdb)

/-! ## Intents -/

theorem enqueue_meets {queueName jobName : String} {payload : InputJsonValue}
    (held : List (ℕ × Option Outbox × Option Outbox)) (done : List (ℕ × Option Outbox))
    {P : State → Prop} {err : Error → State → Prop}
    (hP : Firm (fun k => k ≠ .outbox) setup traced t P)
    (hguard : ∀ row s, D.change t .outbox (.insert row) s) :
    (keeping setup traced A D).Meets (system setup) A t
      (fun _ s => ∃ i row, (row.queueName = queueName ∧ row.jobName = jobName ∧
        row.payload = payload.json) ∧ Ledger .outbox t ((i, none, some row) :: held) done s ∧ P s)
      err (enqueue queueName jobName payload) fun s => Ledger .outbox t held done s ∧ P s := by
  refine .bind (now_meets (K := fun _ => True) (Q := fun _ => True)
    ((Firm.ledger trivial _ _).and hP.all) fun _ _ _ _ => trivial) fun now => ?_
  refine .bind (Rules.Meets.weaken
    (create_meets (k := .outbox) held done hP fun s _ _ _ _ => hguard _ s)
    fun s _ h => h.2) fun i => ?_
  exact .pure (Firm.stable (K := fun _ => True) (.exists fun _ => .exists fun _ =>
    (Firm.const _).and ((Firm.ledger trivial _ _).and hP.all)))
    fun s _ h => ⟨i, _, ⟨rfl, rfl, rfl⟩, h⟩

end ExpressCore
