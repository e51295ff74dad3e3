import ExpressCore.Verification.System.Contracts

/-! # What a thread has seen

The last statement of a thread on a table decides what the thread does next. What it saw may be
relied on until the thread reads that table again. -/

namespace ExpressCore

open ReadCommitted Interleaving Interleaving.Program

variable {setup : Setup} {traced : Prop} {A : Assumption ℕ Request State} {D : Discipline}
  {t : ℕ} {s s' : State} {k : TableName} {P : (ℕ → Option k.Row) → Prop}

/-- What the last statement of `t` on table `k` saw satisfies `P`. -/
def Saw (k : TableName) (t : ℕ) (P : (ℕ → Option k.Row) → Prop) (s : State) : Prop :=
  P ((k.table s.db).snapshot t)

private theorem snapshot_of_moves {u : ℕ}
    (h : Moves k.Change u (k.table s.db) (k.table s'.db)) (hne : t ≠ u) :
    (k.table s'.db).snapshot t = (k.table s.db).snapshot t :=
  (h.frame k.same_refl k.same_apply hne).snapshot

private theorem Saw.of_snapshot (h : Saw k t P s)
    (heq : (k.table s'.db).snapshot t = (k.table s.db).snapshot t) : Saw k t P s' := by
  rw [Saw, heq]
  exact h

theorem saw_stable : (keeping setup traced A D).Stable t (Saw k t P) := by
  rintro s s' - - ⟨⟨u, hne, ⟨r, o, reply, -, hexec⟩ | rfl⟩ | ⟨o, hmove, -⟩, -⟩ h
  · exact h.of_snapshot (snapshot_of_moves (exec_table hexec k) hne.symm)
  · have hmoves : Moves k.Change u (k.table s.db) (k.table (s.db.abortAll u)) :=
      Db.table_abortAll k ▸ .abort
    exact h.of_snapshot (snapshot_of_moves hmoves hne.symm)
  · exact h.of_snapshot (by rw [(move_exec hmove).1])

/-- Requests that are no statements on table `k`. -/
def Request.Skips (k : TableName) (r : Request) : Prop := ∀ a : k.Access, r ≠ .sql (k.sql a)

/-- The table a request is a statement on. -/
def Request.table? : Request → Option TableName
  | .sql (.roles _) => some .roles
  | .sql (.users _) => some .users
  | .sql (.userProfiles _) => some .userProfiles
  | .sql (.refreshTokens _) => some .refreshTokens
  | .sql (.emailVerificationTokens _) => some .emailVerificationTokens
  | .sql (.passwordResetTokens _) => some .passwordResetTokens
  | .sql (.emailOtps _) => some .emailOtps
  | .sql (.outbox _) => some .outbox
  | .sql (.deadLetterJobs _) => some .deadLetterJobs
  | .sql (.emailTemplates _) => some .emailTemplates
  | _ => none

theorem Request.skips_of_table {r : Request} (h : r.table? ≠ some k) : r.Skips k := by
  rintro a rfl
  cases k <;> exact h rfl

/-- Requests that do not read table `k`. -/
def Request.Blind (k : TableName) (r : Request) : Prop :=
  ∀ a : k.Access, r = .sql (k.sql a) → a.Writes

theorem Request.Skips.blind {r : Request} (h : r.Skips k) : r.Blind k := fun a hr => (h a hr).elim

theorem Request.Blind.saw {r : Request} {o : Oracle} {reply : r.Reply} (hr : r.Blind k)
    (hexec : r.exec setup t o s = some (reply, s')) (h : Saw k t P s) : Saw k t P s' := by
  by_cases hsql : ∃ q, r = .sql q
  · obtain ⟨q, rfl⟩ := hsql
    simp only [Request.exec, Option.map_eq_some_iff, Prod.mk.injEq] at hexec
    obtain ⟨⟨reply', d⟩, hexec, -, rfl⟩ := hexec
    have hsnapshot : (k.table d).snapshot t = (k.table s.db).snapshot t := by
      cases Db.Effect.exec hexec with
      | access k' a reply' hq hpoisoned haccess hothers =>
          by_cases heq : k = k'
          · subst heq hq
            rw [exec_snapshot haccess (hr a rfl)]
          · rw [hothers k heq]
      | commit hcommits h => rw [h k, Table.commit_snapshot]
      | abort hq h => rw [h k, Table.abort_snapshot]
      | none h => rw [h k]
    exact h.of_snapshot hsnapshot
  · exact h.of_snapshot (by rw [exec_db (fun q hq => hsql ⟨q, hq⟩) hexec])

variable {α β : Type} {post : β → State → Prop} {err : Error → State → Prop}

/-- A request that keeps to the discipline in the states the run can ask it in. -/
def Discipline.Admits (D : Discipline) (A : Assumption ℕ Request State) (t : ℕ)
    (pre : State → Prop) (r : Request) : Prop :=
  ∀ s, A.request t r s → pre s → D.guard t r s

theorem Discipline.admits_access {k : TableName} {a : k.Access} {pre : State → Prop}
    (h : ∀ s, A.request t (.sql (k.sql a)) s → pre s → a.Writes → D.change t k a s) :
    D.Admits A t pre (.sql (k.sql a)) :=
  fun s hA hpre => guard_of_access fun _ hwrites => h s hA hpre hwrites

theorem Discipline.Lets.admits {r : Request} {pre : State → Prop} (h : D.Lets t r) :
    D.Admits A t pre r := fun s _ _ => h s

theorem Discipline.lets_read {k : TableName} {a : k.Access} (ha : ¬ a.Writes) :
    D.Lets t (.sql (k.sql a)) :=
  Discipline.lets_access fun _ hwrites => (ha hwrites).elim

/-- Where only accesses matter, statements on other tables do not. -/
theorem Discipline.lets_skips {r : Request} (hcommit : ∀ s, D.commit t s)
    (hother : ∀ r s, D.other t r s) (h : ∀ k, D.tables k → r.Skips k) : D.Lets t r :=
  fun s => ⟨fun k a hsql hk _ => (h k hk a hsql).elim, fun _ _ _ => hcommit s, fun _ => hother r s⟩

theorem meets_admits {p : Service α} (hp : p.Uses (D.Admits A t fun _ => True)) :
    (keeping setup traced A D).Meets (system setup) A t (fun _ _ => True) (fun _ _ => True) p
      fun _ => True :=
  .of_uses hp (.const True) fun _ hr =>
    keeping_answers (fun s _ => hr s) fun _ _ _ _ _ _ _ _ => trivial

/-- A request that does not read table `k` again and keeps to the discipline after what the
thread saw there. -/
def Discipline.Trusts (D : Discipline) (A : Assumption ℕ Request State) (t : ℕ) (k : TableName)
    (P : (ℕ → Option k.Row) → Prop) (r : Request) : Prop :=
  r.Blind k ∧ D.Admits A t (Saw k t P) r

theorem meets_saw {p : Service α} (hp : p.Uses (D.Trusts A t k P)) :
    (keeping setup traced A D).Meets (system setup) A t (fun _ => Saw k t P)
      (fun _ => Saw k t P) p (Saw k t P) :=
  Rules.Meets.of_uses hp saw_stable fun _ hr =>
    keeping_answers (fun s _ => hr.2 s) fun _ _ _ _ _ _ hpre hexec => hr.1.saw hexec hpre

/-- A read. -/
theorem meets_find {w : k.Where} (P : Option (ℕ × k.Row) → (ℕ → Option k.Row) → Prop)
    (hnone : ∀ view, (∀ i r, view i = some r → Condition.holds w i r = false) → P none view)
    (hsome : ∀ view i r, view i = some r → Condition.holds w i r = true → P (some (i, r)) view) :
    (keeping setup traced A D).Meets (system setup) A t (fun reply => Saw k t (P reply)) err
      (k.send (.find w)) fun _ => True := by
  refine send_meets (a := .find w) (.const True) (fun _ => saw_stable)
    (fun _ _ _ _ _ hwrites => hwrites.elim) fun s o reply s' _ _ _ _ _ h => ?_
  have htable : k.table s'.db = (k.table s.db).take t := exec_find_table h.exec
  rw [Saw, htable, Table.take_snapshot_self]
  cases reply with
  | none => exact hnone _ (exec_find_none h.exec).2
  | some x =>
      obtain ⟨-, hview, hw⟩ := exec_find_some h.exec
      exact hsome _ x.1 x.2 hview hw

/-- A scan. `P` is what the thread saw before, `Q` what it sees now. -/
theorem meets_scan {w : k.Where} {P : (ℕ → Option k.Row) → Prop}
    (Q : List (ℕ × k.Row) → (ℕ → Option k.Row) → Prop)
    (hQ : ∀ s rows, A.request t (.sql (k.sql (.scan w))) s → Saw k t P s →
      (∀ x, x ∈ rows ↔ (k.table s.db).view t x.1 = some x.2 ∧ Condition.holds w x.1 x.2 = true) →
      Q rows ((k.table s.db).view t)) :
    (keeping setup traced A D).Meets (system setup) A t (fun rows => Saw k t (Q rows)) err
      (k.send (.scan w)) (Saw k t P) := by
  refine send_meets (a := .scan w) saw_stable (fun _ => saw_stable)
    (fun _ _ _ _ _ hwrites => hwrites.elim) fun s o rows s' _ _ hA hpre _ h => ?_
  obtain ⟨htable, hrows⟩ := exec_scan h.exec
  rw [Saw, htable, Table.take_snapshot_self]
  exact hQ s rows hA hpre hrows

/-- `update` on a unique column inside a transaction, by what its scan saw. -/
theorem changeOne_saw {w : k.Where} {c : k.Change} {P Q : (ℕ → Option k.Row) → Prop}
    (hscan : ∀ s, A.request t (.sql (k.sql (.scan w))) s → Saw k t P s →
      Q ((k.table s.db).view t))
    (hvisit : ∀ i, D.Admits A t (Saw k t Q) (.sql (k.sql (.visit i w c))))
    (hcomplete : D.Lets t (.sql (.complete .tx))) :
    (keeping setup traced A D).Meets (system setup) A t (fun _ => Saw k t Q)
      (fun _ _ => True) (changeOne k.send .tx w c) (Saw k t P) := by
  have hsend (a : k.Access) (ha : D.Trusts A t k Q (.sql (k.sql a))) :
      (k.send a).Uses (D.Trusts A t k Q) := by
    cases k <;> exact uses_send.mpr ha
  have hblind (a : k.Access) (ha : a.Writes) : Request.Blind k (.sql (k.sql a)) := by
    intro a' heq
    have haccess : a' = a := by cases k <;> (cases heq; rfl)
    exact haccess ▸ ha
  have hend : Request.Blind k (.sql (.complete .tx)) :=
    Request.Skips.blind (Request.skips_of_table nofun)
  have hrest (rows : List (ℕ × k.Row)) : (visitAll k.send w c rows >>= fun changed =>
      statement (.complete .tx) >>= fun _ => pure changed).Uses (D.Trusts A t k Q) :=
    .bind (uses_visits (fun i => hsend _ ⟨hblind _ trivial, hvisit i⟩) _) fun _ =>
      .bind (uses_send.mpr ⟨hend, hcomplete.admits⟩) fun _ => trivial
  refine .bind (.bind (meets_scan (fun _ => Q) fun s _ hA hpre _ => hscan s hA hpre) fun rows =>
    (meets_saw (hrest rows)).mono (fun _ => .refl) fun _ _ _ _ => trivial) fun changed => ?_
  cases changed with
  | nil => exact .throw (.const True) fun _ _ _ => trivial
  | cons row rest => exact .pure saw_stable .refl

end ExpressCore
