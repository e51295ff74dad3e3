import ExpressCore.Library.Alone
import ExpressCore.Library.Sequential
import ExpressCore.Verification.System.Calls

/-! # The system as a thread that runs alone sees it -/

namespace ExpressCore

open ReadCommitted Interleaving

/-- The rows of the tables. -/
abbrev Contents : Type := (k : TableName) → ℕ → Option k.Row

/-- What an audit insert came to: the row was written, the database refused it and the open
transaction is lost, or the client library refused it. -/
inductive AuditOutcome where
  | written
  | failed
  | rejected
  deriving DecidableEq

def Oracle.audit (o : Oracle) : AuditOutcome :=
  match o.pick with
  | 0 => .written
  | 1 => .failed
  | _ => .rejected

/-- `saved` and `savedLogs` are committed, `rows` and `logs` are what the thread sees, and
`failed` says that a statement of its open transaction has failed. -/
@[ext] structure View where
  saved : Contents
  rows : Contents
  savedLogs : ℕ → Option ActivityLog
  logs : ℕ → Option ActivityLog
  failed : Bool
  cache : Cache
  uploads : List (String × String)

/-- What is taken for granted about a run: the outcomes of audit inserts, those of file
deletions and the times. -/
structure World where
  audits : AuditOutcome → Prop
  deletions : Bool → Prop
  times : Time → Prop

/-- Nothing is taken for granted. -/
def World.any : World where
  audits _ := True
  deletions _ := True
  times _ := True

namespace View

/-- The rows of one table change. -/
def set (v : View) (k : TableName) (R : ℕ → Option k.Row) : View :=
  { v with rows := Function.update v.rows k R }

def abort (v : View) : View :=
  { v with rows := v.saved, logs := v.savedLogs, failed := false }

def commit (v : View) : View :=
  { v with saved := v.rows, savedLogs := v.logs }

/-- COMMIT, also of a transaction that has failed. -/
def finish (v : View) : View :=
  if v.failed then v.abort else v.commit

/-- A statement has ended. -/
def complete (v : View) : Client → View
  | .prisma => v.commit
  | .tx => v

/-- The effect of an access to one table. -/
def Accesses (k : TableName) (a : k.Access) (reply : a.Reply) (v v' : View) : Prop :=
  v.failed = false ∧ ∃ R, a.Does reply (v.rows k) R ∧ v' = v.set k R

/-- The effect of an audit insert. -/
def Audits (world : World) (row : ActivityLog) (v v' : View) : Prop :=
  (world.audits .written ∧ ∃ i, v.logs i = none ∧
      v' = { v with logs := Function.update v.logs i (some row) }) ∨
    (world.audits .failed ∧ v' = { v with failed := true }) ∨ world.audits .rejected ∧ v' = v

end View

/-- The effect of a statement. -/
def Sql.Does (world : World) : (q : Sql) → q.Reply → View → View → Prop
  | .begin, _, v, v' => v' = { v with failed := false }
  | .commit, _, v, v' => v' = v.finish
  | .rollback, _, v, v' => v' = v.abort
  | .complete db, _, v, v' => v.failed = false ∧ v' = v.complete db
  | .deleted db _ _, _, v, v' => v.failed = false ∧ v' = v.complete db
  | .now, time, v, v' => v.failed = false ∧ world.times time ∧ v' = v
  | .roles a, reply, v, v' => v.Accesses .roles a reply v'
  | .users a, reply, v, v' => v.Accesses .users a reply v'
  | .userProfiles a, reply, v, v' => v.Accesses .userProfiles a reply v'
  | .refreshTokens a, reply, v, v' => v.Accesses .refreshTokens a reply v'
  | .emailVerificationTokens a, reply, v, v' => v.Accesses .emailVerificationTokens a reply v'
  | .passwordResetTokens a, reply, v, v' => v.Accesses .passwordResetTokens a reply v'
  | .emailOtps a, reply, v, v' => v.Accesses .emailOtps a reply v'
  | .logActivity .tx row, _, v, v' => v.failed = true ∧ v' = v ∨ v.Audits world row v'
  | .logActivity .prisma row, _, v, v' =>
      v' = v ∨ ∃ i, v.logs i = none ∧
        v' = { v with logs := Function.update v.logs i (some row) }.commit
  | .outbox a, reply, v, v' => v.Accesses .outbox a reply v'
  | .deadLetterJobs a, reply, v, v' => v.Accesses .deadLetterJobs a reply v'
  | .emailTemplates a, reply, v, v' => v.Accesses .emailTemplates a reply v'

/-- The effect of a cache command that Redis executes. -/
def CacheCommand.Does (c : CacheCommand) (reply : c.Reply) (C C' : Cache) : Prop :=
  ∃ t n, c.exec t n C = (reply, C')

/-- The effect of a request; what it draws is not told. -/
def Request.Does (world : World) : (r : Request) → r.Reply → View → View → Prop
  | .now, time, v, v' => world.times time ∧ v' = v
  | .generateToken, token, v, v' => world.times token.2 ∧ v' = v
  | .sql q, reply, v, v' => q.Does world reply v v'
  | .cache c, some reply, v, v' => ∃ C, c.Does reply v.cache C ∧ v' = { v with cache := C }
  | .cache c, none, v, v' =>
      v' = v ∨ ∃ reply C, c.Does reply v.cache C ∧ v' = { v with cache := C }
  | .saveFile folder filename, saved, v, v' =>
      v' = if saved then { v with uploads := (folder, filename) :: v.uploads } else v
  | .deleteFile folder filename, deleted, v, v' =>
      world.deletions deleted ∧
      v' = if deleted then { v with uploads := v.uploads.filter (· ≠ (folder, filename)) } else v
  | _, _, v, v' => v' = v

/-! ## What a thread sees of a state -/

/-- What thread `t` sees. -/
def State.view (t : ℕ) (s : State) : View where
  saved k := (k.table s.db).committed
  rows k := (k.table s.db).view t
  savedLogs := s.db.activityLogs.committed
  logs := s.db.activityLogs.view t
  failed := s.db.poisoned t
  cache := s.cache
  uploads := s.uploads

/-- Only `t` has taken locks. -/
structure Db.Alone (t : ℕ) (d : Db) : Prop where
  tables : ∀ k : TableName, (k.table d).Alone t
  logs : d.activityLogs.Alone t

/-- Only `t` has taken locks, and the time is one of the world's. -/
structure State.Alone (world : World) (t : ℕ) (s : State) : Prop where
  db : s.db.Alone t
  clock : world.times s.clock
  startedAt : ∀ now, s.db.startedAt t = some now → world.times now

namespace World

variable (world : World)

/-- The answers that a run in this world can have. -/
def answers : Request → Oracle → Prop
  | .sql (.logActivity _ _), o => world.audits o.audit
  | .deleteFile _ _, o => world.deletions !o.fails
  | _, _ => True

theorem any_answers {r : Request} {o : Oracle} : any.answers r o := by
  unfold answers
  split <;> trivial

/-- The moves of the environment during a call. -/
def moves (s s' : State) : Prop := world.times s'.clock ∧ s'.cache = s.cache

end World

variable {setup : Setup} {world : World} {t : ℕ} {o : Oracle} {clock : Time} {d d' : Db}
  {s s' : State}

theorem Db.Alone.commitAll (h : d.Alone t) : (d.commitAll t).Alone t where
  tables k := Db.table_commitAll k ▸ (h.tables k).commit
  logs := h.logs.commit

theorem Db.Alone.abortAll (h : d.Alone t) : (d.abortAll t).Alone t where
  tables k := Db.table_abortAll k ▸ (h.tables k).abort
  logs := h.logs.abort

theorem view_commitAll (h : s.db.Alone t) :
    State.view t { s with db := s.db.commitAll t } = (s.view t).commit := by
  have hsaved (k : TableName) : (k.table (s.db.commitAll t)).committed = (k.table s.db).view t :=
    Db.table_commitAll k ▸ (h.tables k).commit_committed
  have hrows (k : TableName) : (k.table (s.db.commitAll t)).view t = (k.table s.db).view t :=
    Db.table_commitAll k ▸ (h.tables k).commit_view
  exact View.ext (funext hsaved) (funext hrows) h.logs.commit_committed h.logs.commit_view rfl rfl
    rfl

theorem view_abortAll : State.view t { s with db := s.db.abortAll t } = (s.view t).abort := by
  have hsaved (k : TableName) : (k.table (s.db.abortAll t)).committed = (k.table s.db).committed :=
    Db.table_abortAll k ▸ rfl
  have hrows (k : TableName) : (k.table (s.db.abortAll t)).view t = (k.table s.db).committed :=
    Db.table_abortAll k ▸ Table.Alone.abort_view _
  exact View.ext (funext hsaved) (funext hrows) rfl (Table.Alone.abort_view _)
    (Function.update_self ..) rfl rfl

/-- An access to one table that leaves the rest of the database. -/
theorem view_access (k : TableName) (d' : Db) {a : k.Access} {reply : a.Reply}
    (h : s.db.Alone t) (hpoisoned : s.db.poisoned t = false)
    (hexec : a.exec t o.pick o.fresh (k.table s.db) = some (reply, k.table d'))
    (hothers : ∀ k', k' ≠ k → k'.table d' = k'.table s.db)
    (hlogs : d'.activityLogs = s.db.activityLogs) (hstill : d'.poisoned t = s.db.poisoned t) :
    d'.Alone t ∧ (s.view t).Accesses k a reply (State.view t { s with db := d' }) := by
  obtain ⟨halone, hcommitted, hdoes⟩ := exec_does (h.tables k) hexec
  refine ⟨⟨fun k' => ?_, hlogs ▸ h.logs⟩, hpoisoned, _, hdoes, ?_⟩
  · by_cases hk : k' = k
    · exact hk ▸ halone
    · exact hothers k' hk ▸ h.tables k'
  · have hsaved (k' : TableName) : (k'.table d').committed = (k'.table s.db).committed := by
      by_cases hk : k' = k
      · exact hk ▸ hcommitted
      · rw [hothers k' hk]
    have hrows : (fun k' => (k'.table d').view t) =
        Function.update (fun k' => (k'.table s.db).view t) k ((k.table d').view t) := by
      funext k'
      by_cases hk : k' = k
      · subst hk
        rw [Function.update_self]
      · rw [Function.update_of_ne hk, hothers k' hk]
    exact View.ext (funext hsaved) hrows (congrArg Table.committed hlogs)
      (congrArg (fun T => Table.view T t) hlogs) hstill rfl rfl

/-- A statement that leaves every table. -/
theorem view_same (htables : ∀ k : TableName, k.table d' = k.table s.db)
    (hlogs : d'.activityLogs = s.db.activityLogs) :
    State.view t { s with db := d' } = { s.view t with failed := d'.poisoned t } :=
  View.ext (funext fun k => congrArg Table.committed (htables k))
    (funext fun k => congrArg (fun T => Table.view T t) (htables k))
    (congrArg Table.committed hlogs) (congrArg (fun T => Table.view T t) hlogs) rfl rfl rfl

theorem Db.Alone.same (h : d.Alone t) (htables : ∀ k : TableName, k.table d' = k.table d)
    (hlogs : d'.activityLogs = d.activityLogs) : d'.Alone t where
  tables k := htables k ▸ h.tables k
  logs := hlogs ▸ h.logs

theorem view_poisoned (failed : Bool) :
    State.view t { s with db :=
        { s.db with poisoned := Function.update s.db.poisoned t failed } } =
      { s.view t with failed := failed } := by
  refine View.ext (funext fun k => ?_) (funext fun k => ?_) rfl rfl (Function.update_self ..) rfl rfl
  · cases k <;> rfl
  · cases k <;> rfl

theorem view_tag (w : RefreshTokenWhere) (count : ℕ) :
    State.view t { s with db := s.db.tag t w count } = s.view t :=
  view_same (fun k => by cases k <;> rfl) rfl

theorem view_begin :
    State.view t { s with db := { s.db with
        startedAt := Function.update s.db.startedAt t (some clock)
        poisoned := Function.update s.db.poisoned t false } } =
      { s.view t with failed := false } := by
  refine View.ext (funext fun k => ?_) (funext fun k => ?_) rfl rfl (Function.update_self ..) rfl rfl
  · cases k <;> rfl
  · cases k <;> rfl

theorem Db.audit_does {db : Client} {row : ActivityLog} (h : s.db.Alone t)
    (hanswers : world.audits o.audit)
    (haudit : s.db.audit t o db row = some d') :
    d'.Alone t ∧
      (Sql.logActivity db row).Does world () (s.view t) (State.view t { s with db := d' }) := by
  have hwritten (hfresh : o.fresh ∉ s.db.activityLogs.ids) :
      ({ s.db with activityLogs := s.db.activityLogs.write t o.fresh (some row) } : Db).Alone t ∧
      (s.view t).logs o.fresh = none ∧
      State.view t { s with db :=
          { s.db with activityLogs := s.db.activityLogs.write t o.fresh (some row) } } =
        { s.view t with logs := Function.update (s.view t).logs o.fresh (some row) } := by
    refine ⟨⟨fun k => ?_, h.logs.write⟩, not_view_of_not_mem hfresh, ?_⟩
    · have htable : k.table { s.db with
          activityLogs := s.db.activityLogs.write t o.fresh (some row) } = k.table s.db := by
        cases k <;> rfl
      exact htable ▸ h.tables k
    · refine View.ext (funext fun k => ?_) (funext fun k => ?_) rfl Table.view_write rfl rfl rfl
      · cases k <;> rfl
      · cases k <;> rfl
  unfold Db.audit at haudit
  split at haudit
  · rename_i hpick
    split at haudit
    · cases haudit
    · rename_i hfresh
      cases haudit
      obtain ⟨halone, hnone, hview⟩ := hwritten hfresh
      have houtcome : world.audits .written := by simpa [Oracle.audit, hpick] using hanswers
      exact ⟨halone, .inr (.inl ⟨houtcome, o.fresh, hnone, hview⟩)⟩
  · split at haudit
    · cases haudit
    · rename_i hfresh
      cases haudit
      obtain ⟨halone, hnone, hview⟩ := hwritten hfresh
      refine ⟨halone.commitAll, .inr ⟨o.fresh, hnone, ?_⟩⟩
      rw [← hview]
      exact view_commitAll (s := { s with db :=
        { s.db with activityLogs := s.db.activityLogs.write t o.fresh (some row) } }) halone
  · rename_i hpick
    cases haudit
    have houtcome : world.audits .failed := by simpa [Oracle.audit, hpick] using hanswers
    refine ⟨h.same (fun k => by cases k <;> rfl) rfl, .inr (.inr (.inl ⟨houtcome, ?_⟩))⟩
    exact view_poisoned true
  · rename_i db _ _ hnot hother hfailed
    cases haudit
    cases db with
    | prisma => exact ⟨h, .inl rfl⟩
    | tx =>
        have houtcome : o.audit = .rejected := by
          unfold Oracle.audit
          split
          · rename_i hpick
            exact (hnot hpick rfl).elim
          · rename_i hpick
            exact (hfailed hpick rfl).elim
          · rfl
        exact ⟨h, .inr (.inr (.inr ⟨houtcome ▸ hanswers, rfl⟩))⟩

/-- A statement of a thread that runs alone. -/
theorem Sql.exec_does {q : Sql} {reply : q.Reply} (h : s.Alone world t)
    (hanswers : world.answers (.sql q) o) (hexec : q.exec t o s.clock s.db = some (reply, d')) :
    d'.Alone t ∧ q.Does world reply (s.view t) (State.view t { s with db := d' }) := by
  cases q with
  | begin =>
      cases hexec
      exact ⟨h.db.same (fun k => by cases k <;> rfl) rfl, view_begin⟩
  | commit =>
      cases hexec
      simp only [Sql.Does, View.finish, Db.finish]
      by_cases hpoisoned : s.db.poisoned t = true
      · have hfailed : (s.view t).failed = true := hpoisoned
        rw [if_pos hpoisoned, if_pos hfailed]
        exact ⟨h.db.abortAll, view_abortAll⟩
      · have hfailed : ¬ (s.view t).failed = true := hpoisoned
        rw [if_neg hpoisoned, if_neg hfailed]
        exact ⟨h.db.commitAll, view_commitAll h.db⟩
  | rollback =>
      cases hexec
      exact ⟨h.db.abortAll, view_abortAll⟩
  | complete db =>
      cases db <;>
        simp only [Sql.exec, Db.unlessPoisoned_eq_some, Option.some.injEq, Prod.mk.injEq,
          true_and] at hexec <;>
        obtain ⟨hclean, rfl⟩ := hexec
      · exact ⟨h.db.commitAll, hclean, view_commitAll h.db⟩
      · exact ⟨h.db.same (fun k => by cases k <;> rfl) rfl, hclean,
          view_same (fun k => by cases k <;> rfl) rfl⟩
  | deleted db w count =>
      have htag : (s.db.tag t w count).Alone t := h.db.same (fun k => by cases k <;> rfl) rfl
      cases db <;>
        simp only [Sql.exec, Db.unlessPoisoned_eq_some, Option.some.injEq, Prod.mk.injEq,
          true_and] at hexec <;>
        obtain ⟨hclean, rfl⟩ := hexec
      · refine ⟨htag.commitAll, hclean, ?_⟩
        rw [view_commitAll (s := { s with db := s.db.tag t w count }) htag, view_tag]
        rfl
      · exact ⟨htag, hclean, view_tag w count⟩
  | now =>
      simp only [Sql.exec, Db.unlessPoisoned_eq_some, Option.some.injEq, Prod.mk.injEq] at hexec
      obtain ⟨hclean, rfl, rfl⟩ := hexec
      refine ⟨h.db, hclean, ?_, rfl⟩
      cases hstarted : s.db.startedAt t with
      | none => exact h.clock
      | some now => exact h.startedAt now hstarted
  | logActivity db row =>
      simp only [Sql.exec] at hexec
      split at hexec
      · rename_i hpoisoned
        cases hexec
        cases db with
        | prisma => exact ⟨h.db, .inl rfl⟩
        | tx => exact ⟨h.db, .inl ⟨hpoisoned, rfl⟩⟩
      · simp only [Option.map_eq_some_iff, Prod.mk.injEq, true_and, exists_eq_right] at hexec
        exact Db.audit_does h.db hanswers hexec
  | _ a =>
      simp only [Sql.exec, Db.unlessPoisoned_eq_some, Option.map_eq_some_iff, Prod.mk.injEq]
        at hexec
      obtain ⟨hclean, ⟨reply', T⟩, hexec, rfl, rfl⟩ := hexec
      first
        | exact view_access .roles { s.db with roles := T } h.db hclean hexec
            (fun k hk => by cases k <;> first | rfl | exact (hk rfl).elim) rfl rfl
        | exact view_access .users { s.db with users := T } h.db hclean hexec
            (fun k hk => by cases k <;> first | rfl | exact (hk rfl).elim) rfl rfl
        | exact view_access .userProfiles { s.db with userProfiles := T } h.db hclean hexec
            (fun k hk => by cases k <;> first | rfl | exact (hk rfl).elim) rfl rfl
        | exact view_access .refreshTokens { s.db with refreshTokens := T, changing := s.db.start t a } h.db hclean hexec
            (fun k hk => by cases k <;> first | rfl | exact (hk rfl).elim) rfl rfl
        | exact view_access .emailVerificationTokens { s.db with emailVerificationTokens := T } h.db hclean hexec
            (fun k hk => by cases k <;> first | rfl | exact (hk rfl).elim) rfl rfl
        | exact view_access .passwordResetTokens { s.db with passwordResetTokens := T } h.db hclean hexec
            (fun k hk => by cases k <;> first | rfl | exact (hk rfl).elim) rfl rfl
        | exact view_access .emailOtps { s.db with emailOtps := T } h.db hclean hexec
            (fun k hk => by cases k <;> first | rfl | exact (hk rfl).elim) rfl rfl
        | exact view_access .outbox { s.db with outbox := T } h.db hclean hexec
            (fun k hk => by cases k <;> first | rfl | exact (hk rfl).elim) rfl rfl
        | exact view_access .deadLetterJobs { s.db with deadLetterJobs := T } h.db hclean hexec
            (fun k hk => by cases k <;> first | rfl | exact (hk rfl).elim) rfl rfl
        | exact view_access .emailTemplates { s.db with emailTemplates := T } h.db hclean hexec
            (fun k hk => by cases k <;> first | rfl | exact (hk rfl).elim) rfl rfl

/-! ## Requests and moves -/

theorem startedAt_times {q : Sql} {reply : q.Reply} (h : s.Alone world t)
    (hexec : q.exec t o s.clock s.db = some (reply, d')) (now : Time)
    (hnow : d'.startedAt t = some now) : world.times now := by
  rcases startedAt_cases hexec with heq | heq | heq
  · exact h.startedAt now (heq ▸ hnow)
  · simp [heq] at hnow
  · rw [heq, Function.update_self] at hnow
    exact Option.some.inj hnow ▸ h.clock

/-- A request of a thread that runs alone. -/
theorem State.Alone.exec {r : Request} {reply : r.Reply} (h : s.Alone world t)
    (hanswers : world.answers r o) (hexec : r.exec setup t o s = some (reply, s')) :
    s'.Alone world t ∧ r.Does world reply (s.view t) (s'.view t) := by
  by_cases hsql : ∃ q, r = .sql q
  · obtain ⟨q, rfl⟩ := hsql
    simp only [Request.exec, Option.map_eq_some_iff, Prod.mk.injEq] at hexec
    obtain ⟨⟨reply', d'⟩, hexec, rfl, rfl⟩ := hexec
    obtain ⟨halone, hdoes⟩ := Sql.exec_does h hanswers hexec
    exact ⟨⟨halone, h.clock, startedAt_times h hexec⟩, hdoes⟩
  · have hdb : s'.db = s.db := exec_db (fun q hq => hsql ⟨q, hq⟩) hexec
    have hclock : s'.clock = s.clock := (State.Moves.exec hexec).clock
    refine ⟨⟨hdb ▸ h.db, hclock ▸ h.clock, hdb ▸ h.startedAt⟩, ?_⟩
    cases r with
    | sql q => exact (hsql ⟨q, rfl⟩).elim
    | now =>
        cases hexec
        exact ⟨h.clock, rfl⟩
    | generateToken =>
        simp only [Request.exec, Option.ite_none_right_eq_some] at hexec
        obtain ⟨-, hexec⟩ := hexec
        cases hexec
        exact ⟨h.clock, rfl⟩
    | cache c =>
        simp only [Request.exec] at hexec
        split at hexec
        · split at hexec
          · cases hexec
            exact .inr ⟨_, _, ⟨t, _, rfl⟩, rfl⟩
          · cases hexec
            exact .inl rfl
        · cases hexec
          exact ⟨_, ⟨t, _, rfl⟩, rfl⟩
    | saveFile folder filename =>
        simp only [Request.exec] at hexec
        split at hexec <;> cases hexec <;> rfl
    | deleteFile folder filename =>
        simp only [Request.exec] at hexec
        split at hexec
        · rename_i hfails
          cases hexec
          exact ⟨by simpa [World.answers, hfails] using hanswers, rfl⟩
        · rename_i hfails
          cases hexec
          exact ⟨by simpa [World.answers, hfails] using hanswers, rfl⟩
    | present token =>
        simp only [Request.exec] at hexec
        split at hexec <;> cases hexec
        rfl
    | randomBytes n =>
        simp only [Request.exec, Option.ite_none_right_eq_some] at hexec
        obtain ⟨-, hexec⟩ := hexec
        cases hexec
        rfl
    | randomUuid =>
        simp only [Request.exec] at hexec
        split at hexec <;> cases hexec
        rfl
    | generateOtpCode =>
        simp only [Request.exec, Option.ite_none_right_eq_some] at hexec
        obtain ⟨-, hexec⟩ := hexec
        cases hexec
        rfl
    | _ =>
        cases hexec
        rfl

/-- A move of the environment during a call. -/
theorem State.Alone.move (h : s.Alone world t) (hmove : o.move.exec s = some s')
    (hmoves : world.moves s s') : s'.Alone world t ∧ s'.view t = s.view t := by
  have hdb : s'.db = s.db := (move_exec hmove).1
  refine ⟨⟨hdb ▸ h.db, hmoves.1, hdb ▸ h.startedAt⟩, ?_⟩
  have huploads : s'.uploads = s.uploads := by
    unfold Move.exec at hmove
    split at hmove
    all_goals first
      | (simp only [Option.map_eq_some_iff] at hmove; obtain ⟨job, -, rfl⟩ := hmove; rfl)
      | (cases hmove; rfl)
  simp only [State.view, hdb, hmoves.2, huploads]

/-- A call of a thread that runs alone derives what its requests do. -/
theorem State.Alone.derives {α : Type} {p : Service α} {result : Except Error α}
    (h : s.Alone world t)
    (hrun : (system setup).RunsAlone t world.answers world.moves p s result s') :
    s'.Alone world t ∧ p.Derives (Request.Does world) (s.view t) result (s'.view t) :=
  Machine.RunsAlone.derives (I := State.Alone world t) (f := State.view t)
    (fun _ _ _ _ _ halone hanswers hexec => halone.exec hanswers hexec)
    (fun _ _ _ halone hmove hmoves => halone.move hmove hmoves) hrun h

end ExpressCore
