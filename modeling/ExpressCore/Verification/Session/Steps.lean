import ExpressCore.Verification.Session.Revocation

/-! # The protocol as a step relation

Every request of a thread that keeps to the protocol is one or two of a few steps on the table
of refresh tokens. -/

namespace ExpressCore.Session

open ReadCommitted Interleaving

/-- What thread `t` does to the refresh tokens in one step, and why it may. -/
inductive Effect (setup : Setup) (traced : Prop) (opens : ℕ → Prop)
    (A : Assumption ℕ Request State) (t : ℕ) (s s' : State) : Prop where
  | idle : s'.db.refreshTokens = s.db.refreshTokens → s'.db.tags = s.db.tags →
      s'.db.changing t = s.db.changing t ∨ s'.db.changing t = none →
      s'.db.rolledBack t = s.db.rolledBack t → Effect setup traced opens A t s s'
  | find : s'.db.refreshTokens = s.db.refreshTokens.take t → s'.db.tags = s.db.tags →
      s'.db.changing t = s.db.changing t → s'.db.rolledBack t = s.db.rolledBack t →
      Effect setup traced opens A t s s'
  | scan (w : RefreshTokenWhere) : (Revokes w → Deleting t s) →
      s'.db.refreshTokens = s.db.refreshTokens.take t → s'.db.tags = s.db.tags →
      s'.db.changing t = some (w, s.db.refreshTokens.matching t w) →
      s'.db.rolledBack t = s.db.rolledBack t →
      Effect setup traced opens A t s s'
  | claim (i : ℕ) (now : Time) (c : Bytes) (old : RefreshToken) :
      MayClaim setup traced t i (.unrotated i) now c s →
      s.db.refreshTokens.locked t i = false → s.db.refreshTokens.view t i = some old →
      old.rotatedAt = none →
      s'.db.refreshTokens = s.db.refreshTokens.write t i
        (some { old with rotatedAt := some now, successorCiphertext := some c }) →
      s'.db.tags = s.db.tags → s'.db.changing t = s.db.changing t →
      s'.db.rolledBack t = s.db.rolledBack t → Effect setup traced opens A t s s'
  | insert (j : ℕ) (row : RefreshToken) :
      MayOpen setup opens t row s ∨ MaySucceed setup traced t row s →
      j ∉ s.db.refreshTokens.ids →
      s'.db.refreshTokens = s.db.refreshTokens.write t j (some row) →
      s'.db.tags = s.db.tags → s'.db.changing t = s.db.changing t →
      s'.db.rolledBack t = s.db.rolledBack t → Effect setup traced opens A t s s'
  | delete (i : ℕ) (w : RefreshTokenWhere) (old : RefreshToken) : MayDelete traced t i w s →
      A.request t (.sql (.refreshTokens (.visit i w .delete))) s →
      s.db.refreshTokens.locked t i = false → s.db.refreshTokens.view t i = some old →
      Condition.holds w i old = true →
      s'.db.refreshTokens = s.db.refreshTokens.write t i none →
      s'.db.tags = s.db.tags → s'.db.changing t = s.db.changing t →
      s'.db.rolledBack t = s.db.rolledBack t → Effect setup traced opens A t s s'
  | report (w : RefreshTokenWhere) (count : ℕ) : (Revokes w → Passed t w count s) →
      s'.db.refreshTokens = s.db.refreshTokens → s'.db.tags = (t, w, count) :: s.db.tags →
      s'.db.changing t = none → s'.db.rolledBack t = s.db.rolledBack t →
      Effect setup traced opens A t s s'
  | commit : MayCommit traced t s → s'.db.refreshTokens = s.db.refreshTokens.commit t →
      s'.db.tags = s.db.tags → s'.db.changing t = none →
      s'.db.rolledBack t = s.db.rolledBack t → Effect setup traced opens A t s s'
  | abort : s'.db.refreshTokens = s.db.refreshTokens.abort t → s'.db.tags = s.db.tags →
      s'.db.changing t = none → s'.db.rolledBack t = true → Effect setup traced opens A t s s'

/-- A step of thread `t`. -/
structure Step (setup : Setup) (traced : Prop) (opens : ℕ → Prop)
    (A : Assumption ℕ Request State) (t : ℕ) (s s' : State) : Prop where
  later : Later setup traced s s'
  changing : ∀ u, u ≠ t → s'.db.changing u = s.db.changing u
  rolledBack : ∀ u, u ≠ t → s'.db.rolledBack u = s.db.rolledBack u
  effect : Effect setup traced opens A t s s'

variable {setup : Setup} {traced : Prop} {opens : ℕ → Prop} {A : Assumption ℕ Request State}
  {t : ℕ} {s s' : State}

theorem Step.of_effect (hmoves : State.Moves setup t s s')
    (heffect : Effect setup traced opens A t s s') : Step setup traced opens A t s s' :=
  ⟨.of_moves hmoves, hmoves.db.changing, hmoves.db.rolledBack, heffect⟩

theorem Step.refl : Step setup traced opens A t s s :=
  .of_effect (.of_db .refl) (.idle rfl rfl (.inl rfl) rfl)

/-- One or two steps of thread `t`. -/
def Splits (setup : Setup) (traced : Prop) (opens : ℕ → Prop) (A : Assumption ℕ Request State)
    (t : ℕ) (s s' : State) : Prop :=
  ∃ mid, Step setup traced opens A t s mid ∧
    (s.WellFormed setup traced → mid.WellFormed setup traced) ∧
    Step setup traced opens A t mid s'

theorem Splits.of_effect (hmoves : State.Moves setup t s s')
    (heffect : Effect setup traced opens A t s s') : Splits setup traced opens A t s s' :=
  ⟨s, .refl, id, .of_effect hmoves heffect⟩

theorem splits_refreshTokens {a : Access ℕ RefreshToken RefreshTokenWhere RefreshTokenChange}
    {o : Oracle} {reply : a.Reply} (hguard : guard setup traced opens t (.sql (.refreshTokens a)) s)
    (hassume : A.request t (.sql (.refreshTokens a)) s)
    (h : (Request.sql (.refreshTokens a)).exec setup t o s = some (reply, s')) :
    Effect setup traced opens A t s s' := by
  obtain ⟨T, hexec, rfl⟩ := exec_request h
  cases a with
  | find w => exact .find (exec_find_table hexec) rfl rfl rfl
  | scan w => exact .scan w hguard (exec_scan hexec).1 rfl (by simp [Db.start]) rfl
  | visit i w c =>
      obtain ⟨hlocked, ⟨old, hview, hholds, -, rfl⟩ | ⟨-, -, rfl⟩⟩ := exec_visit hexec
      · cases c with
        | rotate now c =>
            obtain rfl : w = .unrotated i := MayClaim.unrotated hguard
            have hlive : old.rotatedAt = none := by
              simpa [Condition.holds] using hholds
            exact .claim i now c old hguard hlocked hview hlive rfl rfl rfl rfl
        | delete => exact .delete i w old hguard hassume hlocked hview hholds rfl rfl rfl rfl
      · exact .idle rfl rfl (.inl rfl) rfl
  | visitUnlocked i w c => exact False.elim hguard
  | insert row =>
      obtain ⟨-, hfresh, rfl⟩ := exec_insert hexec
      exact .insert o.fresh row hguard hfresh rfl rfl rfl rfl
  | upsert key row g c => exact False.elim hguard

theorem splits_deleted {db : Client} {w : RefreshTokenWhere} {count : ℕ} {o : Oracle}
    {reply : Unit} (hguard : guard setup traced opens t (.sql (.deleted db w count)) s)
    (h : (Request.sql (.deleted db w count)).exec setup t o s = some (reply, s')) :
    Splits setup traced opens A t s s' := by
  have hmoves : State.Moves setup t s { s with db := s.db.tag t w count } :=
    .of_db { Db.Moves.refl (t := t) (d := s.db) with
      changing := fun u hu => Function.update_of_ne hu _ _
      tags := ⟨[(t, w, count)], rfl, by simp⟩ }
  have hreport : Effect setup traced opens A t s { s with db := s.db.tag t w count } :=
    .report w count hguard.1 rfl rfl (by simp [Db.tag, Db.close]) rfl
  rw [exec_deleted h]
  cases db with
  | prisma =>
      refine ⟨{ s with db := s.db.tag t w count }, .of_effect hmoves hreport, fun hs =>
        hs.of_db_moves hmoves.db (hs.drawn.of_eq rfl rfl rfl fun _ => Nat.le_refl _), ?_⟩
      have hcommit : MayCommit traced t { s with db := s.db.tag t w count } :=
        ⟨(hguard.2 rfl).claimed, (hguard.2 rfl).closed⟩
      exact .of_effect (.of_db .commitAll) (.commit hcommit rfl rfl (by simp [Db.commitAll]) rfl)
  | tx => exact .of_effect hmoves hreport

theorem splits_logActivity {db : Client} {row : ActivityLog} {o : Oracle} {reply : Unit}
    (hguard : guard setup traced opens t (.sql (.logActivity db row)) s)
    (h : (Request.sql (.logActivity db row)).exec setup t o s = some (reply, s')) :
    Effect setup traced opens A t s s' := by
  simp only [Request.exec, Option.map_eq_some_iff, Prod.mk.injEq] at h
  obtain ⟨⟨reply', d⟩, haudit, -, rfl⟩ := h
  simp only [Sql.exec] at haudit
  split at haudit
  · cases haudit
    exact .idle rfl rfl (.inl rfl) rfl
  · simp only [Option.map_eq_some_iff, Prod.mk.injEq] at haudit
    obtain ⟨d', haudit, -, rfl⟩ := haudit
    unfold Db.audit at haudit
    split at haudit
    · split at haudit <;> cases haudit
      exact .idle rfl rfl (.inl rfl) rfl
    · split at haudit <;> cases haudit
      exact .commit hguard rfl rfl (by simp [Db.commitAll]) rfl
    · cases haudit
      exact .idle rfl rfl (.inl rfl) rfl
    · cases haudit
      exact .idle rfl rfl (.inl rfl) rfl

theorem splits_sql {q : Sql} {o : Oracle} {reply : q.Reply}
    (hguard : guard setup traced opens t (.sql q) s) (hassume : A.request t (.sql q) s)
    (h : (Request.sql q).exec setup t o s = some (reply, s')) :
    Splits setup traced opens A t s s' := by
  have hone : Effect setup traced opens A t s s' → Splits setup traced opens A t s s' :=
    .of_effect (.exec h)
  cases q with
  | refreshTokens a => exact hone (splits_refreshTokens hguard hassume h)
  | deleted db w count => exact splits_deleted hguard h
  | logActivity db row => exact hone (splits_logActivity hguard h)
  | complete db =>
      cases db with
      | prisma =>
          rw [exec_complete h] at hone ⊢
          exact hone (.commit hguard rfl rfl (by simp [Db.commitAll]) rfl)
      | tx =>
          simp only [Request.exec, Option.map_eq_some_iff, Prod.mk.injEq] at h
          obtain ⟨⟨reply', d⟩, hexec, -, rfl⟩ := h
          simp only [Sql.exec, Db.unlessPoisoned_eq_some, Option.some.injEq, Prod.mk.injEq] at hexec
          obtain ⟨-, -, rfl⟩ := hexec
          exact hone (.idle rfl rfl (.inr (by simp [Db.close])) rfl)
  | begin =>
      cases h
      exact hone (.idle rfl rfl (.inl rfl) rfl)
  | commit =>
      cases h
      cases hpoisoned : s.db.poisoned t with
      | true =>
          have hfinish : s.db.finish t = s.db.abortAll t := by simp [Db.finish, hpoisoned]
          rw [hfinish] at hone ⊢
          exact hone (.abort rfl rfl (by simp [Db.abortAll]) (by simp [Db.abortAll]))
      | false =>
          have hfinish : s.db.finish t = s.db.commitAll t := by simp [Db.finish, hpoisoned]
          rw [hfinish] at hone ⊢
          exact hone (.commit hguard rfl rfl (by simp [Db.commitAll]) rfl)
  | rollback =>
      cases h
      exact hone (.abort rfl rfl (by simp [Db.abortAll]) (by simp [Db.abortAll]))
  | now =>
      simp only [Request.exec, Option.map_eq_some_iff, Prod.mk.injEq] at h
      obtain ⟨⟨reply', d⟩, hexec, -, rfl⟩ := h
      simp only [Sql.exec, Db.unlessPoisoned_eq_some, Option.some.injEq, Prod.mk.injEq] at hexec
      obtain ⟨-, -, rfl⟩ := hexec
      exact hone (.idle rfl rfl (.inl rfl) rfl)
  | _ a =>
      simp only [Request.exec, Option.map_eq_some_iff, Prod.mk.injEq] at h
      obtain ⟨⟨reply', d⟩, hexec, -, rfl⟩ := h
      simp only [Sql.exec, Db.unlessPoisoned_eq_some, Option.map_eq_some_iff, Prod.mk.injEq]
        at hexec
      obtain ⟨-, ⟨reply'', T⟩, -, -, rfl⟩ := hexec
      exact hone (.idle rfl rfl (.inl rfl) rfl)

/-- What a guarded request of a thread can be. -/
theorem splits_of_performs
    (h : (system setup).Performs
      (fun t r s => guard setup traced opens t r s ∧ A.request t r s) t s s') :
    Splits setup traced opens A t s s' := by
  rcases h with ⟨r, o, reply, ⟨hguard, hassume⟩, hexec⟩ | rfl
  · by_cases hsql : ∃ q, r = .sql q
    · obtain ⟨q, rfl⟩ := hsql
      exact splits_sql hguard hassume hexec
    · have hdb := exec_db (fun q hq => hsql ⟨q, hq⟩) hexec
      exact .of_effect (.exec hexec)
        (.idle (by rw [hdb]) (by rw [hdb]) (.inl (by rw [hdb])) (by rw [hdb]))
  · exact .of_effect (.of_db .abortAll) (.abort rfl rfl (by simp [system, Db.abortAll])
      (by simp [system, Db.abortAll]))

end ExpressCore.Session
