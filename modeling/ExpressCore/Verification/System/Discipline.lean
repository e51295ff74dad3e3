import ExpressCore.Library.Elsewhere
import ExpressCore.Verification.System.Interference
import ExpressCore.Verification.System.Statements
import ExpressCore.Verification.System.Tables

/-! # Disciplines

A discipline says what every thread makes sure of before it changes certain tables and before
it commits. The programs are shown to keep to it one by one; what holds across all
interleavings follows from it. -/

namespace ExpressCore

open ReadCommitted Interleaving Interleaving.Program

/-! ## What changes of a row preserve -/

def TableName.Same : (k : TableName) → k.Row → k.Row → Prop
  | .refreshTokens, r, r' => r.SameIssue r'
  | .emailVerificationTokens, r, r' => r' = r
  | .passwordResetTokens, r, r' => r' = { r with usedAt := r'.usedAt }
  | .emailOtps, r, r' => r.SameEmail r'
  | .outbox, r, r' => r.SameJob r'
  | .deadLetterJobs, r, r' =>
      r' = { r with
        redrivenAt := r'.redrivenAt, redrivenBy := r'.redrivenBy
        redriveOutboxId := r'.redriveOutboxId }
  | _, _, _ => True

theorem TableName.same_refl (k : TableName) (r : k.Row) : k.Same r r := by
  cases k with
  | refreshTokens => exact RefreshToken.SameIssue.refl r
  | outbox => exact ⟨rfl, rfl⟩
  | _ => trivial

theorem TableName.same_trans (k : TableName) {r r' r'' : k.Row} (h : k.Same r r')
    (h' : k.Same r' r'') : k.Same r r'' := by
  cases k with
  | refreshTokens => exact RefreshToken.SameIssue.trans h h'
  | emailVerificationTokens => exact Eq.trans h' h
  | passwordResetTokens =>
      simp only [TableName.Same] at h h' ⊢
      rw [h', h]
  | emailOtps => exact Eq.trans h' h
  | outbox => exact ⟨h'.1.trans h.1, h'.2.trans h.2⟩
  | deadLetterJobs =>
      simp only [TableName.Same] at h h' ⊢
      rw [h', h]
  | _ => trivial

theorem TableName.same_symm (k : TableName) {r r' : k.Row} (h : k.Same r r') : k.Same r' r := by
  cases k with
  | refreshTokens => exact RefreshToken.SameIssue.equivalence.symm h
  | emailVerificationTokens => exact Eq.symm h
  | passwordResetTokens =>
      simp only [TableName.Same] at h ⊢
      rw [h]
  | emailOtps => exact Eq.symm h
  | outbox => exact ⟨h.1.symm, h.2.symm⟩
  | deadLetterJobs =>
      simp only [TableName.Same] at h ⊢
      rw [h]
  | _ => trivial

theorem TableName.same_equivalence (k : TableName) : Equivalence k.Same :=
  ⟨k.same_refl, k.same_symm, k.same_trans⟩

theorem TableName.same_apply (k : TableName) (c : k.Change) (old new : k.Row)
    (h : ReadCommitted.Change.apply c old = some new) : k.Same old new := by
  cases k with
  | refreshTokens => exact RefreshToken.sameIssue_apply c old new h
  | emailOtps => exact EmailOtp.sameEmail_apply c old new h
  | outbox => exact Outbox.sameJob_apply c old new h
  | emailVerificationTokens =>
      cases c
      cases h
  | passwordResetTokens =>
      cases c with
      | use usedAt =>
          cases h
          rfl
      | delete => cases h
  | deadLetterJobs =>
      cases c with
      | stamp redrivenAt redrivenBy redriveOutboxId =>
          cases h
          rfl
      | delete => cases h
  | _ => trivial

theorem Db.Effect.moves {t : ℕ} {o : Oracle} {q : Sql} {d d' : Db} (h : Db.Effect t o q d d')
    (k : TableName) : ReadCommitted.Moves k.Change t (k.table d) (k.table d') := by
  cases h with
  | access k' a reply hq hpoisoned hexec hothers =>
      by_cases heq : k = k'
      · subst heq
        exact exec_moves hexec
      · exact hothers k heq ▸ .same
  | commit hcommits h => exact h k ▸ .commit
  | abort hq h => exact h k ▸ .abort
  | none h => exact h k ▸ .same

/-- What a request does to a table. -/
theorem exec_table {setup : Setup} {t : ℕ} {r : Request} {o : Oracle} {s s' : State}
    {reply : r.Reply} (h : r.exec setup t o s = some (reply, s')) (k : TableName) :
    ReadCommitted.Moves k.Change t (k.table s.db) (k.table s'.db) := by
  by_cases hsql : ∃ q, r = .sql q
  · obtain ⟨q, rfl⟩ := hsql
    simp only [Request.exec, Option.map_eq_some_iff, Prod.mk.injEq] at h
    obtain ⟨⟨reply', d⟩, hexec, -, rfl⟩ := h
    exact (Db.Effect.exec hexec).moves k
  · rw [exec_db (fun q hq => hsql ⟨q, hq⟩) h]
    exact .same

private theorem moves_versions {t : ℕ} {k : TableName} {T T' : Table ℕ ℕ k.Row}
    (h : ReadCommitted.Moves k.Change t T T') : ∀ i ∈ T.ids, i ∈ T'.ids ∧
      ∀ r', T'.Version i r' → ∃ r, T.Version i r ∧ k.Same r r' :=
  fun _ hi => ⟨h.ids hi, fun _ hr' => h.version k.same_refl k.same_apply hi hr'⟩

/-! ## The invariant of all runs -/

/-- Every table is ordered, rows keep their identity and generated values do not collide. -/
structure State.InOrder (setup : Setup) (traced : Prop) (s : State) : Prop where
  ordered : ∀ k : TableName, (k.table s.db).Ordered
  coherent : ∀ k : TableName, (k.table s.db).Coherent k.Same
  drawn : s.Drawn setup traced

variable {setup : Setup} {traced : Prop} {A : Assumption ℕ Request State} {t u : ℕ}
  {s s' : State}

private theorem State.InOrder.of_moves (hs : s.InOrder setup traced)
    (h : ∀ k : TableName, ReadCommitted.Moves k.Change t (k.table s.db) (k.table s'.db))
    (hdrawn : s'.Drawn setup traced) : s'.InOrder setup traced where
  ordered k := (h k).ordered (hs.ordered k)
  coherent k := (h k).coherent k.same_equivalence k.same_apply (hs.ordered k) (hs.coherent k)
  drawn := hdrawn

theorem State.InOrder.exec {r : Request} {o : Oracle} {reply : r.Reply}
    (hs : s.InOrder setup traced) (h : r.exec setup u o s = some (reply, s')) :
    s'.InOrder setup traced :=
  hs.of_moves (exec_table h) (hs.drawn.exec h)

theorem State.InOrder.crash (hs : s.InOrder setup traced) :
    State.InOrder setup traced { s with db := s.db.abortAll t } :=
  hs.of_moves (t := t) (fun k => Db.table_abortAll k ▸ .abort)
    (hs.drawn.of_eq rfl rfl rfl fun _ => Nat.le_refl _)

theorem State.InOrder.move {m : Move} (hs : s.InOrder setup traced) (h : m.exec s = some s')
    (hclock : traced → s.clock ≤ s'.clock) : s'.InOrder setup traced := by
  obtain ⟨hdb, hseen, hminted, hfamilies, -⟩ := move_exec h
  exact ⟨hdb ▸ hs.ordered, hdb ▸ hs.coherent, hs.drawn.of_eq hseen hminted hfamilies hclock⟩

/-! ## Disciplines -/

/-- Requests that go beyond the database or record a decision. -/
def Request.Watched : Request → Prop
  | .otpCodeMatches _ => True
  | .ticketReturned _ _ => True
  | .decided _ => True
  | .cache _ => True
  | .queueAdd _ => True
  | _ => False

/-- What thread `t` makes sure of before it changes one of the `tables`, before it commits and
before the requests that are watched. -/
structure Discipline where
  tables : TableName → Prop
  change : ℕ → (k : TableName) → k.Access → State → Prop
  commit : ℕ → State → Prop
  other : ℕ → Request → State → Prop
  commit_free : ∀ t s, (∀ k, tables k → (k.table s.db).Free t) → commit t s

def Discipline.guard (D : Discipline) (t : ℕ) (r : Request) (s : State) : Prop :=
  (∀ k a, r = .sql (k.sql a) → D.tables k → a.Writes → D.change t k a s) ∧
    (∀ q, r = .sql q → q.Commits → D.commit t s) ∧ (r.Watched → D.other t r s)

/-- The discipline that asks nothing. -/
def Discipline.lax : Discipline where
  tables _ := False
  change _ _ _ _ := True
  commit _ _ := True
  other _ _ _ := True
  commit_free _ _ _ := trivial

theorem Discipline.lax_guard (t : ℕ) (r : Request) (s : State) : Discipline.lax.guard t r s :=
  ⟨fun _ _ _ _ _ => trivial, fun _ _ _ => trivial, fun _ => trivial⟩

/-- The contract of threads that keep to a discipline. -/
def keeping (setup : Setup) (traced : Prop) (A : Assumption ℕ Request State) (D : Discipline) :
    Rules ℕ State :=
  .guarded (system setup) A (State.InOrder setup traced)
    (fun t s s' => (system setup).Elsewhere A D.guard t s s' ∧ (traced → s.clock ≤ s'.clock))
    D.guard

variable {D : Discipline}

theorem keeping_compatible (hclock : ∀ s s', A.move s s' → traced → s.clock ≤ s'.clock) :
    (keeping setup traced A D).Compatible (system setup) A where
  interferes t u s s' hne _ hguar := by
    refine ⟨.inl ⟨u, hne.symm, hguar⟩, fun _ => ?_⟩
    rcases hguar with ⟨r, o, reply, -, hexec⟩ | rfl
    · exact Nat.le_of_eq (State.Moves.exec hexec).clock.symm
    · exact Nat.le_refl _
  crash t s hs := ⟨hs.crash, .inr rfl⟩
  move o s s' hs hmove hA :=
    ⟨hs.move hmove (hclock s s' hA), fun _ => ⟨.inr ⟨o, hmove, hA⟩, hclock s s' hA⟩⟩

theorem keeping_answers {pre : State → Prop} {r : Request} {post : r.Reply → State → Prop}
    (hguard : ∀ s, s.InOrder setup traced → A.request t r s → pre s → D.guard t r s)
    (hpost : ∀ s o reply s', s.InOrder setup traced → A.request t r s → pre s →
      r.exec setup t o s = some (reply, s') → post reply s') :
    (keeping setup traced A D).Answers (system setup) A t pre r post :=
  .guarded (fun _ _ _ _ hs hexec => hs.exec hexec) hguard hpost

/-- What requests only add to: the records of comparisons, tickets and resolved adds. -/
theorem exec_records {r : Request} {o : Oracle} {reply : r.Reply}
    (h : r.exec setup t o s = some (reply, s')) :
    (∃ new, s'.comparisons = new ++ s.comparisons ∧ ∀ x ∈ new, x.1 = t) ∧
      (∃ new, s'.tickets = new ++ s.tickets) ∧
      ∃ new, s'.queues.resolved = new ++ s.queues.resolved := by
  have hkept (hcomparisons : s'.comparisons = s.comparisons) (htickets : s'.tickets = s.tickets)
      (hresolved : s'.queues.resolved = s.queues.resolved) :
      (∃ new, s'.comparisons = new ++ s.comparisons ∧ ∀ x ∈ new, x.1 = t) ∧
        (∃ new, s'.tickets = new ++ s.tickets) ∧
        ∃ new, s'.queues.resolved = new ++ s.queues.resolved :=
    ⟨⟨[], by simp [hcomparisons]⟩, ⟨[], by simp [htickets]⟩, ⟨[], by simp [hresolved]⟩⟩
  cases r with
  | otpCodeMatches comparison =>
      cases h
      exact ⟨⟨[(t, comparison)], rfl, by simp⟩, ⟨[], rfl⟩, ⟨[], rfl⟩⟩
  | ticketReturned otpId verifiedAt =>
      cases h
      exact ⟨⟨[], rfl, by simp⟩, ⟨[(t, otpId, verifiedAt)], rfl⟩, ⟨[], rfl⟩⟩
  | queueAdd job =>
      simp only [Request.exec, Option.some.injEq, Prod.mk.injEq] at h
      obtain ⟨-, rfl⟩ := h
      refine ⟨⟨[], rfl, by simp⟩, ⟨[], rfl⟩, ?_⟩
      have hpush (q : Queues) : (q.push job).resolved = q.resolved := by
        unfold Queues.push
        split <;> rfl
      unfold Queues.add
      split
      · exact ⟨[job], by simp⟩
      · exact ⟨[], by split <;> simp [hpush]⟩
      · exact ⟨[], by split <;> simp [hpush]⟩
  | sql q =>
      simp only [Request.exec, Option.map_eq_some_iff, Prod.mk.injEq] at h
      obtain ⟨_, -, -, rfl⟩ := h
      exact hkept rfl rfl rfl
  | cache c =>
      simp only [Request.exec] at h
      split at h <;> cases h
      · exact hkept (by split <;> rfl) (by split <;> rfl) (by split <;> rfl)
      · exact hkept rfl rfl rfl
  | _ =>
      simp only [Request.exec] at h
      first
        | cases h; exact hkept rfl rfl rfl
        | split at h <;> cases h <;> exact hkept rfl rfl rfl

theorem move_records {m : Move} (h : m.exec s = some s') :
    s'.comparisons = s.comparisons ∧ s'.tickets = s.tickets ∧
      s'.queues.resolved = s.queues.resolved := by
  cases m <;> simp only [Move.exec, Option.map_eq_some_iff, Option.some.injEq] at h
  case deliver n =>
    obtain ⟨job, -, rfl⟩ := h
    refine ⟨rfl, rfl, ?_⟩
    unfold Queues.push
    split <;> rfl
  all_goals
    subst h
    exact ⟨rfl, rfl, rfl⟩

/-! ## What the others leave to a thread -/

/-- Nothing that thread `t` did to the tables in `K` has changed, and the past is kept. -/
structure Untouched (K : TableName → Prop) (setup : Setup) (traced : Prop) (t : ℕ)
    (s s' : State) : Prop where
  rows : ∀ k, K k → Undisturbed k.Same t (k.table s.db) (k.table s'.db)
  logs : ∀ k : TableName, (k.table s.db).log <+: (k.table s'.db).log
  versions : ∀ k : TableName, ∀ i ∈ (k.table s.db).ids, i ∈ (k.table s'.db).ids ∧
    ∀ r', (k.table s'.db).Version i r' → ∃ r, (k.table s.db).Version i r ∧ k.Same r r'
  clear : s.db.poisoned t = false → s'.db.poisoned t = false
  clock : traced → s.clock ≤ s'.clock
  seen : ∃ new, s'.seen = new ++ s.seen
  minted : ∃ new, s'.minted = new ++ s.minted ∧ ∀ x ∈ new,
    ∀ y ∈ s.seen, setup.crypto.sha256 y ≠ setup.crypto.sha256 x.2.1
  issuances : ∃ new, s'.issuances = new ++ s.issuances
  comparisons : ∃ new, s'.comparisons = new ++ s.comparisons ∧ ∀ x ∈ new, x.1 ≠ t
  tickets : ∃ new, s'.tickets = new ++ s.tickets
  resolved : ∃ new, s'.queues.resolved = new ++ s.queues.resolved

variable {K : TableName → Prop}

theorem Untouched.of_exec {r : Request} {o : Oracle} {reply : r.Reply}
    (h : r.exec setup u o s = some (reply, s'))
    (hrows : ∀ k, K k → Undisturbed k.Same t (k.table s.db) (k.table s'.db))
    (hclear : s.db.poisoned t = false → s'.db.poisoned t = false)
    (hcomparisons : ∃ new, s'.comparisons = new ++ s.comparisons ∧ ∀ x ∈ new, x.1 ≠ t) :
    Untouched K setup traced t s s' where
  rows := hrows
  logs k := (exec_table h k).log
  versions k := moves_versions (exec_table h k)
  clear := hclear
  clock _ := Nat.le_of_eq (State.Moves.exec h).clock.symm
  seen := (State.Moves.exec h).seen
  minted := by
    obtain ⟨new, heq, hnew⟩ := (State.Moves.exec h).minted
    exact ⟨new, heq, fun x hx => (hnew x hx).2⟩
  issuances := by
    obtain ⟨new, heq, -⟩ := (State.Moves.exec h).issuances
    exact ⟨new, heq⟩
  comparisons := hcomparisons
  tickets := (exec_records h).2.1
  resolved := (exec_records h).2.2

theorem Untouched.of_elsewhere {guard : Guard}
    (h : (system setup).Elsewhere A guard t s s' ∧ (traced → s.clock ≤ s'.clock)) :
    Untouched K setup traced t s s' := by
  obtain ⟨⟨u, hne, ⟨r, o, reply, -, hexec⟩ | rfl⟩ | ⟨o, hmove, -⟩, hclock⟩ := h
  · have hmoves := State.Moves.exec hexec
    refine .of_exec hexec (fun k _ => ?_) (fun h => (hmoves.db.poisoned t hne.symm).trans h) ?_
    · exact ((exec_table hexec k).frame k.same_refl k.same_apply hne.symm).toUndisturbed
    · obtain ⟨new, heq, hnew⟩ := (exec_records hexec).1
      exact ⟨new, heq, fun x hx => (hnew x hx).symm ▸ hne⟩
  · have hmoves (k : TableName) :
        ReadCommitted.Moves k.Change u (k.table s.db) (k.table (s.db.abortAll u)) :=
      Db.table_abortAll k ▸ .abort
    exact
      { rows := fun k _ => ((hmoves k).frame k.same_refl k.same_apply hne.symm).toUndisturbed
        logs := fun k => (hmoves k).log
        versions := fun k => moves_versions (hmoves k)
        clear := fun h => (Function.update_of_ne hne.symm _ _).trans h
        clock := hclock
        seen := ⟨[], rfl⟩
        minted := ⟨[], rfl, by simp⟩
        issuances := ⟨[], rfl⟩
        comparisons := ⟨[], rfl, by simp⟩
        tickets := ⟨[], rfl⟩
        resolved := ⟨[], rfl⟩ }
  · obtain ⟨hdb, hseen, hminted, -, hissuances⟩ := move_exec hmove
    obtain ⟨hcomparisons, htickets, hresolved⟩ := move_records hmove
    exact
      { rows := fun k _ => hdb ▸ .refl k.same_refl
        logs := fun k => hdb ▸ List.prefix_refl _
        versions := fun k => by
          rw [hdb]
          exact fun i hi => ⟨hi, fun r' hr' => ⟨r', hr', k.same_refl r'⟩⟩
        clear := fun h => hdb ▸ h
        clock := hclock
        seen := ⟨[], by simp [hseen]⟩
        minted := ⟨[], by simp [hminted]⟩
        issuances := ⟨[], by simp [hissuances]⟩
        comparisons := ⟨[], by simp [hcomparisons]⟩
        tickets := ⟨[], by simp [htickets]⟩
        resolved := ⟨[], by simp [hresolved]⟩ }

/-! ## Requests that leave the tables alone -/

/-- Statements that neither write to the tables in `K` nor end a transaction. -/
def Sql.Neutral (K : TableName → Prop) : Sql → Prop
  | .roles a => K .roles → ¬ a.Writes
  | .users a => K .users → ¬ a.Writes
  | .userProfiles a => K .userProfiles → ¬ a.Writes
  | .refreshTokens a => K .refreshTokens → ¬ a.Writes
  | .emailVerificationTokens a => K .emailVerificationTokens → ¬ a.Writes
  | .passwordResetTokens a => K .passwordResetTokens → ¬ a.Writes
  | .emailOtps a => K .emailOtps → ¬ a.Writes
  | .outbox a => K .outbox → ¬ a.Writes
  | .deadLetterJobs a => K .deadLetterJobs → ¬ a.Writes
  | .emailTemplates a => K .emailTemplates → ¬ a.Writes
  | .complete .tx => True
  | .deleted .tx _ _ => True
  | .now => True
  | .begin => True
  | _ => False

/-- Requests that neither write to the tables in `K` nor end a transaction and are not watched. -/
def Request.Neutral (K : TableName → Prop) : Request → Prop
  | .sql q => q.Neutral K
  | r => ¬ r.Watched

/-- Requests of programs outside a transaction. -/
def Request.Detached (K : TableName → Prop) (r : Request) : Prop :=
  r.Neutral K ∨ r = .sql (.complete .prisma) ∨ ∃ w n, r = .sql (.deleted .prisma w n)

theorem Sql.neutral_sql {k : TableName} {a : k.Access} :
    (k.sql a).Neutral K ↔ (K k → ¬ a.Writes) := by
  cases k <;> rfl

theorem Sql.Neutral.not_commits {q : Sql} (h : q.Neutral K) : ¬ q.Commits := by
  cases q with
  | complete db => cases db <;> first | exact h.elim | exact id
  | deleted db w n => cases db <;> first | exact h.elim | exact id
  | logActivity db row => exact h.elim
  | commit => exact h.elim
  | _ => exact id

theorem guard_of_neutral {r : Request} (h : r.Neutral D.tables) : D.guard t r s := by
  refine ⟨?_, ?_, fun hr => ?_⟩
  · rintro k a rfl hk hwrites
    exact (Sql.neutral_sql.mp h hk hwrites).elim
  · rintro q rfl hcommits
    exact (Sql.Neutral.not_commits h hcommits).elim
  · cases r <;> first | exact (h hr).elim | exact hr.elim

/-- An access that does not write disturbs nothing. -/
theorem undisturbed_of_read {ι τ ρ W C : Type} [DecidableEq ι] [DecidableEq τ] [Condition W ι ρ]
    [ReadCommitted.Change C ρ] {same : ρ → ρ → Prop} (hsame : ∀ r, same r r)
    {a : ReadCommitted.Access ι ρ W C} {t u : τ} {pick : ℕ} {fresh : ι} {T T' : Table ι τ ρ}
    {reply : a.Reply} (ha : ¬ a.Writes) (h : a.exec t pick fresh T = some (reply, T')) :
    Undisturbed same u T T' := by
  cases a with
  | find w =>
      rw [exec_find_table h]
      exact .take hsame
  | scan w =>
      rw [(exec_scan h).1]
      exact .take hsame
  | _ => exact (ha trivial).elim

theorem Sql.Neutral.clear {q : Sql} {o : Oracle} {clock : Time} {d d' : Db} {reply : q.Reply}
    (hq : q.Neutral K) (h : q.exec t o clock d = some (reply, d'))
    (hclear : d.poisoned t = false) : d'.poisoned t = false := by
  cases q with
  | begin =>
      cases h
      exact Function.update_self ..
  | commit => exact hq.elim
  | rollback => exact hq.elim
  | logActivity db row => exact hq.elim
  | complete db =>
      cases db with
      | prisma => exact hq.elim
      | tx =>
          simp only [Sql.exec, Db.unlessPoisoned_eq_some, Option.some.injEq, Prod.mk.injEq] at h
          obtain ⟨-, -, rfl⟩ := h
          exact hclear
  | deleted db w n =>
      cases db with
      | prisma => exact hq.elim
      | tx =>
          simp only [Sql.exec, Db.unlessPoisoned_eq_some, Option.some.injEq, Prod.mk.injEq] at h
          obtain ⟨-, -, rfl⟩ := h
          exact hclear
  | now =>
      simp only [Sql.exec, Db.unlessPoisoned_eq_some, Option.some.injEq, Prod.mk.injEq] at h
      obtain ⟨-, -, rfl⟩ := h
      exact hclear
  | _ a =>
      simp only [Sql.exec, Db.unlessPoisoned_eq_some, Option.map_eq_some_iff, Prod.mk.injEq] at h
      obtain ⟨-, ⟨reply', T⟩, -, -, rfl⟩ := h
      exact hclear

theorem Sql.Neutral.rows {q : Sql} {o : Oracle} {clock : Time} {d d' : Db} {reply : q.Reply}
    (hq : q.Neutral K) (h : q.exec t o clock d = some (reply, d')) (k : TableName) (hk : K k) :
    Undisturbed k.Same u (k.table d) (k.table d') := by
  cases Db.Effect.exec h with
  | access k' a reply' hsql hpoisoned hexec hothers =>
      by_cases heq : k = k'
      · subst heq hsql
        exact undisturbed_of_read k.same_refl (Sql.neutral_sql.mp hq hk) hexec
      · exact hothers k heq ▸ .refl k.same_refl
  | commit hcommits htables => exact (hq.not_commits hcommits).elim
  | abort hends htables => rcases hends with rfl | rfl <;> exact hq.elim
  | none htables => exact htables k ▸ .refl k.same_refl

theorem exec_comparisons {r : Request} {o : Oracle} {reply : r.Reply} (hr : r.Neutral K)
    (h : r.exec setup t o s = some (reply, s')) : s'.comparisons = s.comparisons := by
  cases r with
  | sql q =>
      simp only [Request.exec, Option.map_eq_some_iff, Prod.mk.injEq] at h
      obtain ⟨_, -, -, rfl⟩ := h
      rfl
  | _ =>
      simp only [Request.exec] at h
      first
        | exact (hr trivial).elim
        | cases h; rfl
        | split at h <;> cases h <;> rfl

theorem Untouched.of_neutral {r : Request} {o : Oracle} {reply : r.Reply} (hr : r.Neutral K)
    (h : r.exec setup t o s = some (reply, s')) : Untouched K setup traced t s s' := by
  have hcomparisons : ∃ new, s'.comparisons = new ++ s.comparisons ∧ ∀ x ∈ new, x.1 ≠ t :=
    ⟨[], by simp [exec_comparisons hr h]⟩
  by_cases hsql : ∃ q, r = .sql q
  · obtain ⟨q, rfl⟩ := hsql
    have hexec := h
    simp only [Request.exec, Option.map_eq_some_iff, Prod.mk.injEq] at hexec
    obtain ⟨⟨reply', d⟩, hexec, -, rfl⟩ := hexec
    exact .of_exec h (fun k hk => Sql.Neutral.rows hr hexec k hk)
      (Sql.Neutral.clear hr hexec) hcomparisons
  · have hdb := exec_db (fun q hq => hsql ⟨q, hq⟩) h
    exact .of_exec h (fun k _ => hdb ▸ .refl k.same_refl) (fun h => hdb ▸ h) hcomparisons

/-! ## What a step of a run can do -/

/-- What an access of thread `t` to table `k` does. -/
structure Accessed (k : TableName) (t : ℕ) (o : Oracle) (a : k.Access) (reply : a.Reply)
    (s s' : State) : Prop where
  exec : a.exec t o.pick o.fresh (k.table s.db) = some (reply, k.table s'.db)
  others : ∀ k', k' ≠ k → k'.table s'.db = k'.table s.db
  rest : s' = { s with db := s'.db }

/-- A step of a run in which every thread keeps to the discipline. -/
inductive Event (setup : Setup) (A : Assumption ℕ Request State) (D : Discipline) (s s' : State) :
    Prop where
  | access (t : ℕ) (k : TableName) (a : k.Access) (reply : a.Reply) (o : Oracle) :
      (D.tables k → a.Writes → D.change t k a s) → A.request t (.sql (k.sql a)) s →
      Accessed k t o a reply s s' → Event setup A D s s'
  | commit (t : ℕ) : D.commit t s → (∀ k : TableName, k.table s'.db = (k.table s.db).commit t) →
      s' = { s with db := s'.db } → Event setup A D s s'
  | abort (t : ℕ) : (∀ k : TableName, k.table s'.db = (k.table s.db).abort t) →
      s' = { s with db := s'.db } → Event setup A D s s'
  | other (t : ℕ) (r : Request) (o : Oracle) (reply : r.Reply) : (r.Watched → D.other t r s) →
      A.request t r s → r.exec setup t o s = some (reply, s') →
      (∀ k : TableName, k.table s'.db = k.table s.db) → Event setup A D s s'
  | move (m : Move) : m.exec s = some s' → A.move s s' → s'.db = s.db → Event setup A D s s'

theorem Event.of_performs
    (h : (system setup).Performs (fun t r s => D.guard t r s ∧ A.request t r s) t s s') :
    Event setup A D s s' := by
  rcases h with ⟨r, o, reply, ⟨hguard, hA⟩, hexec⟩ | rfl
  · by_cases hsql : ∃ q, r = .sql q
    · obtain ⟨q, rfl⟩ := hsql
      have hdb := hexec
      simp only [system, Request.exec, Option.map_eq_some_iff, Prod.mk.injEq] at hdb
      obtain ⟨⟨reply', d⟩, hdb, -, rfl⟩ := hdb
      cases Db.Effect.exec hdb with
      | access k a answer hq hpoisoned haccess hothers =>
          subst hq
          exact .access t k a answer o (hguard.1 k a rfl) hA ⟨haccess, hothers, rfl⟩
      | commit hcommits htables => exact .commit t (hguard.2.1 q rfl hcommits) htables rfl
      | abort hends htables => exact .abort t htables rfl
      | none htables => exact .other t _ o reply hguard.2.2 hA hexec htables
    · have hdb := exec_db (fun q hq => hsql ⟨q, hq⟩) hexec
      exact .other t r o reply hguard.2.2 hA hexec fun k => by rw [hdb]
  · exact .abort t Db.table_abortAll rfl

/-- What a step does to the tables: it writes one row, or ends a transaction in all of them. -/
inductive Written (A : Assumption ℕ Request State) (D : Discipline) (s s' : State) : Prop where
  | same : (∀ k : TableName, (k.table s'.db).committed = (k.table s.db).committed ∧
      (k.table s'.db).pending = (k.table s.db).pending) → Written A D s s'
  | write (t : ℕ) (k : TableName) (a : k.Access) (i : ℕ) (v : Option k.Row) :
      (D.tables k → D.change t k a s) → A.request t (.sql (k.sql a)) s →
      a.Wrote t (k.table s.db) i v → k.table s'.db = (k.table s.db).write t i v →
      (∀ k' : TableName, k' ≠ k → k'.table s'.db = k'.table s.db) → Written A D s s'
  | commit (t : ℕ) : D.commit t s → (∀ k : TableName, k.table s'.db = (k.table s.db).commit t) →
      Written A D s s'
  | abort (t : ℕ) : (∀ k : TableName, k.table s'.db = (k.table s.db).abort t) → Written A D s s'

theorem Event.written (h : Event setup A D s s') : Written A D s s' := by
  cases h with
  | access t k a reply o hchange hA h =>
      have hsame (hcommitted : (k.table s'.db).committed = (k.table s.db).committed)
          (hpending : (k.table s'.db).pending = (k.table s.db).pending) : Written A D s s' := by
        refine .same fun k' => ?_
        by_cases heq : k' = k
        · subst heq
          exact ⟨hcommitted, hpending⟩
        · rw [h.others k' heq]
          exact ⟨rfl, rfl⟩
      rcases exec_wrote h.exec with htable | htable | ⟨i, v, hwrote, htable⟩
      · exact hsame (by rw [htable]) (by rw [htable])
      · exact hsame (by rw [htable]; rfl) (by rw [htable]; rfl)
      · exact .write t k a i v (fun hk => hchange hk hwrote.writes) hA hwrote htable h.others
  | commit t hcommit htables hrest => exact .commit t hcommit htables
  | abort t htables hrest => exact .abort t htables
  | other t r o reply hother hA hexec htables =>
      exact .same fun k => by rw [htables]; exact ⟨rfl, rfl⟩
  | move m hmove hA hdb => exact .same fun k => by rw [hdb]; exact ⟨rfl, rfl⟩

/-- What a step does to one table. -/
inductive RowEvent (A : Assumption ℕ Request State) (D : Discipline) (k : TableName) (s : State)
    (T : Table ℕ ℕ k.Row) : Prop where
  | same : T.committed = (k.table s.db).committed → T.pending = (k.table s.db).pending →
      T.log = (k.table s.db).log → T.ids = (k.table s.db).ids → RowEvent A D k s T
  | write (t : ℕ) (a : k.Access) (i : ℕ) (v : Option k.Row) : (D.tables k → D.change t k a s) →
      A.request t (.sql (k.sql a)) s → a.Wrote t (k.table s.db) i v →
      T = (k.table s.db).write t i v → RowEvent A D k s T
  | commit (t : ℕ) : D.commit t s → T = (k.table s.db).commit t → RowEvent A D k s T
  | abort (t : ℕ) : T = (k.table s.db).abort t → RowEvent A D k s T

theorem Event.on (h : Event setup A D s s') (k : TableName) : RowEvent A D k s (k.table s'.db) := by
  cases h with
  | access t k' a reply o hchange hA h =>
      by_cases heq : k = k'
      · subst heq
        rcases exec_wrote h.exec with htable | htable | ⟨i, v, hwrote, htable⟩
        · exact .same (by rw [htable]) (by rw [htable]) (by rw [htable]) (by rw [htable])
        · exact .same (by rw [htable]; rfl) (by rw [htable]; rfl) (by rw [htable]; rfl)
            (by rw [htable]; rfl)
        · exact .write t a i v (fun hk => hchange hk hwrote.writes) hA hwrote htable
      · exact .same (by rw [h.others k heq]) (by rw [h.others k heq]) (by rw [h.others k heq])
          (by rw [h.others k heq])
  | commit t hcommit htables hrest => exact .commit t hcommit (htables k)
  | abort t htables hrest => exact .abort t (htables k)
  | other t r o reply hother hA hexec htables =>
      exact .same (by rw [htables]) (by rw [htables]) (by rw [htables]) (by rw [htables])
  | move m hmove hA hdb => exact .same (by rw [hdb]) (by rw [hdb]) (by rw [hdb]) (by rw [hdb])

/-- What is committed changes by commits only. -/
theorem Event.settled (h : Event setup A D s s') :
    (∃ t, D.commit t s ∧ ∀ k : TableName, k.table s'.db = (k.table s.db).commit t) ∨
      ∀ k : TableName, (k.table s'.db).committed = (k.table s.db).committed ∧
        (k.table s'.db).log = (k.table s.db).log := by
  cases h with
  | access t k a reply o hchange hA h =>
      refine .inr fun k' => ?_
      by_cases heq : k' = k
      · subst heq
        exact exec_settled h.exec
      · rw [h.others k' heq]
        exact ⟨rfl, rfl⟩
  | commit t hcommit htables hrest => exact .inl ⟨t, hcommit, htables⟩
  | abort t htables hrest => exact .inr fun k => by simp [htables k]
  | other t r o reply hother hA hexec htables => exact .inr fun k => by simp [htables k]
  | move m hmove hA hdb => exact .inr fun k => by simp [hdb]

/-- Rows change by commits that are recorded. -/
theorem Event.explained {s₀ : State} (h : Event setup A D s s')
    (hs : ∀ k : TableName, (k.table s.db).Explained (k.table s₀.db)) (k : TableName) :
    (k.table s'.db).Explained (k.table s₀.db) := by
  rcases h.settled with ⟨t, -, htables⟩ | hsettled
  · rw [htables k]
    exact Moves.explained (C := k.Change) .commit (hs k)
  · intro i
    rw [(hsettled k).1, (hsettled k).2]
    exact hs k i

variable {α : Type} {c c' : Config ℕ Error Request Request.Reply State α}
  {posts : ℕ → α → State → Prop} {errs : ℕ → Error → State → Prop} {P : State → Prop}

/-- What every step keeps holds in every interleaving. -/
theorem keeping_induction (hclock : ∀ s s', A.move s s' → traced → s.clock ≤ s'.clock)
    (hlost : ∀ t s, State.InOrder setup traced s → errs t .lost s)
    (h : (keeping setup traced A D).Sound (system setup) A posts errs c)
    (hrun : (system setup).Reaches A c c') (hinit : P c.shared)
    (hstep : ∀ s s', s.InOrder setup traced → s'.InOrder setup traced → P s →
      Event setup A D s s' → P s') : P c'.shared := by
  refine Rules.Sound.induction (keeping_compatible hclock) hlost h hrun hinit
    fun s s' hs hs' hP htransition => hstep s s' hs hs' hP ?_
  cases htransition with
  | perform t hperforms => exact .of_performs hperforms
  | move o hmove hA => exact .move o.move hmove hA (move_exec hmove).1

end ExpressCore
