import ExpressCore.Library.Isolation
import ExpressCore.Model.System

/-! # What a request of one thread leaves to the others -/

namespace ExpressCore

open ReadCommitted Interleaving

/-- What changes of a refresh token preserve. -/
def RefreshToken.SameIssue (r r' : RefreshToken) : Prop :=
  r'.token = r.token ∧ r'.userId = r.userId ∧ r'.familyId = r.familyId ∧
    r'.expiresAt = r.expiresAt

/-- What changes of an outbox row preserve. -/
def Outbox.SameJob (r r' : Outbox) : Prop :=
  r'.queueName = r.queueName ∧ r'.jobName = r.jobName

/-- What changes of a registration code preserve. -/
def EmailOtp.SameEmail (r r' : EmailOtp) : Prop := r'.email = r.email

theorem RefreshToken.SameIssue.refl (r : RefreshToken) : r.SameIssue r := ⟨rfl, rfl, rfl, rfl⟩

theorem RefreshToken.SameIssue.trans {r r' r'' : RefreshToken} (h : r.SameIssue r')
    (h' : r'.SameIssue r'') : r.SameIssue r'' :=
  ⟨h'.1.trans h.1, h'.2.1.trans h.2.1, h'.2.2.1.trans h.2.2.1, h'.2.2.2.trans h.2.2.2⟩

theorem RefreshToken.SameIssue.equivalence : Equivalence RefreshToken.SameIssue :=
  ⟨.refl, fun h => ⟨h.1.symm, h.2.1.symm, h.2.2.1.symm, h.2.2.2.symm⟩, .trans⟩

theorem RefreshToken.sameIssue_apply (c : RefreshTokenChange) (old new : RefreshToken)
    (h : Change.apply c old = some new) : old.SameIssue new := by
  cases c with
  | rotate rotatedAt ciphertext =>
      cases h
      exact .refl _
  | delete => cases h

theorem Outbox.sameJob_apply (c : OutboxChange) (old new : Outbox)
    (h : Change.apply c old = some new) : old.SameJob new := by
  cases c <;> cases h <;> exact ⟨rfl, rfl⟩

theorem EmailOtp.sameEmail_apply (c : EmailOtpChange) (old new : EmailOtp)
    (h : Change.apply c old = some new) : old.SameEmail new := by
  cases c <;> cases h <;> exact rfl

/-! ## The database -/

/-- What a request of thread `t` can do to the database. -/
structure Db.Moves (t : ℕ) (d d' : Db) : Prop where
  users : ReadCommitted.Moves UserChange t d.users d'.users
  refreshTokens : ReadCommitted.Moves RefreshTokenChange t d.refreshTokens d'.refreshTokens
  passwordResetTokens :
    ReadCommitted.Moves PasswordResetTokenChange t d.passwordResetTokens d'.passwordResetTokens
  emailOtps : ReadCommitted.Moves EmailOtpChange t d.emailOtps d'.emailOtps
  outbox : ReadCommitted.Moves OutboxChange t d.outbox d'.outbox
  deadLetterJobs : ReadCommitted.Moves DeadLetterChange t d.deadLetterJobs d'.deadLetterJobs
  startedAt : ∀ u, u ≠ t → d'.startedAt u = d.startedAt u
  poisoned : ∀ u, u ≠ t → d'.poisoned u = d.poisoned u
  rolledBack : ∀ u, u ≠ t → d'.rolledBack u = d.rolledBack u
  changing : ∀ u, u ≠ t → d'.changing u = d.changing u
  committedAt : ∀ u, u ≠ t → d'.committedAt u = d.committedAt u
  counted : d'.committedAt t = d.committedAt t ∨ d'.committedAt t = d.commits + 1 ∧
    d'.commits = d.commits + 1
  tags : ∃ new, d'.tags = new ++ d.tags ∧ ∀ x ∈ new, x.1 = t
  commits : d.commits ≤ d'.commits

namespace Db.Moves

variable {t : ℕ} {d d' : Db}

protected theorem refl : Db.Moves t d d where
  users := .same
  refreshTokens := .same
  passwordResetTokens := .same
  emailOtps := .same
  outbox := .same
  deadLetterJobs := .same
  startedAt _ _ := rfl
  poisoned _ _ := rfl
  rolledBack _ _ := rfl
  changing _ _ := rfl
  committedAt _ _ := rfl
  counted := .inl rfl
  tags := ⟨[], rfl, by simp⟩
  commits := Nat.le_refl _

theorem commitAll : Db.Moves t d (d.commitAll t) where
  users := .commit
  refreshTokens := .commit
  passwordResetTokens := .commit
  emailOtps := .commit
  outbox := .commit
  deadLetterJobs := .commit
  startedAt u hu := Function.update_of_ne hu _ _
  poisoned _ _ := rfl
  rolledBack _ _ := rfl
  changing u hu := Function.update_of_ne hu _ _
  committedAt u hu := Function.update_of_ne hu _ _
  counted := .inr ⟨Function.update_self .., rfl⟩
  tags := ⟨[], rfl, by simp⟩
  commits := Nat.le_succ _

theorem abortAll : Db.Moves t d (d.abortAll t) where
  users := .abort
  refreshTokens := .abort
  passwordResetTokens := .abort
  emailOtps := .abort
  outbox := .abort
  deadLetterJobs := .abort
  startedAt u hu := Function.update_of_ne hu _ _
  poisoned u hu := Function.update_of_ne hu _ _
  rolledBack u hu := Function.update_of_ne hu _ _
  changing u hu := Function.update_of_ne hu _ _
  committedAt _ _ := rfl
  counted := .inl rfl
  tags := ⟨[], rfl, by simp⟩
  commits := Nat.le_refl _

theorem finish : Db.Moves t d (d.finish t) := by
  unfold Db.finish
  split
  · exact abortAll
  · exact commitAll

theorem audit {o : Oracle} {db : Client} {row : ActivityLog} (h : d.audit t o db row = some d') :
    Db.Moves t d d' := by
  unfold Db.audit at h
  split at h
  · split at h
    · cases h
    · cases h
      exact { Db.Moves.refl (t := t) (d := d) with }
  · split at h
    · cases h
    · cases h
      exact { commitAll (t := t) (d := d) with }
  · cases h
    exact { Db.Moves.refl (t := t) (d := d) with
      poisoned := fun u hu => Function.update_of_ne hu _ _ }
  · cases h
    exact .refl

end Db.Moves

theorem Db.unlessPoisoned_eq_some {α : Type} {d : Db} {t : ℕ} {answer : Option α} {x : α} :
    d.unlessPoisoned t answer = some x ↔ d.poisoned t = false ∧ answer = some x := by
  unfold Db.unlessPoisoned
  cases d.poisoned t <;> simp

section Exec

variable {t : ℕ} {o : Oracle} {clock : Time} {d d' : Db}

theorem exec_refreshTokens {a : Access ℕ RefreshToken RefreshTokenWhere RefreshTokenChange}
    {reply : a.Reply} (h : (Sql.refreshTokens a).exec t o clock d = some (reply, d')) :
    d.poisoned t = false ∧ ∃ T, a.exec t o.pick o.fresh d.refreshTokens = some (reply, T) ∧
      d' = { d with refreshTokens := T, changing := d.start t a } := by
  simp only [Sql.exec, Db.unlessPoisoned_eq_some, Option.map_eq_some_iff, Prod.mk.injEq] at h
  obtain ⟨hpoisoned, ⟨reply', T⟩, hexec, rfl, rfl⟩ := h
  exact ⟨hpoisoned, T, hexec, rfl⟩

theorem start_of_ne (a : Access ℕ RefreshToken RefreshTokenWhere RefreshTokenChange) (u : ℕ)
    (hu : u ≠ t) : d.start t a u = d.changing u := by
  unfold Db.start
  split
  · exact Function.update_of_ne hu _ _
  · rfl

theorem Db.Moves.exec {q : Sql} {reply : q.Reply} (h : q.exec t o clock d = some (reply, d')) :
    Db.Moves t d d' := by
  have hrefl := Db.Moves.refl (t := t) (d := d)
  cases q with
  | refreshTokens a =>
      obtain ⟨-, T, hexec, rfl⟩ := exec_refreshTokens h
      exact { hrefl with refreshTokens := exec_moves hexec, changing := start_of_ne a }
  | logActivity db row =>
      simp only [Sql.exec] at h
      split at h
      · cases h
        exact hrefl
      · simp only [Option.map_eq_some_iff, Prod.mk.injEq] at h
        obtain ⟨d'', haudit, -, rfl⟩ := h
        exact .audit haudit
  | begin =>
      cases h
      exact { hrefl with
        startedAt := fun u hu => Function.update_of_ne hu _ _
        poisoned := fun u hu => Function.update_of_ne hu _ _ }
  | commit =>
      cases h
      exact .finish
  | rollback =>
      cases h
      exact .abortAll
  | complete db =>
      cases db <;>
        simp only [Sql.exec, Db.unlessPoisoned_eq_some, Option.some.injEq, Prod.mk.injEq] at h <;>
        obtain ⟨-, -, rfl⟩ := h
      · exact .commitAll
      · exact { hrefl with changing := fun u hu => Function.update_of_ne hu _ _ }
  | deleted db w count =>
      have htag : ∃ new, (d.tag t w count).tags = new ++ d.tags ∧ ∀ x ∈ new, x.1 = t :=
        ⟨[(t, w, count)], rfl, by simp⟩
      have hchanging (u : ℕ) (hu : u ≠ t) : (d.tag t w count).changing u = d.changing u :=
        Function.update_of_ne hu _ _
      cases db <;>
        simp only [Sql.exec, Db.unlessPoisoned_eq_some, Option.some.injEq, Prod.mk.injEq] at h <;>
        obtain ⟨-, -, rfl⟩ := h
      · exact { Db.Moves.commitAll (t := t) (d := d) with
          tags := htag
          changing := fun u hu => (Function.update_of_ne hu _ _).trans (hchanging u hu) }
      · exact { hrefl with tags := htag, changing := hchanging }
  | now =>
      simp only [Sql.exec, Db.unlessPoisoned_eq_some, Option.some.injEq, Prod.mk.injEq] at h
      obtain ⟨-, -, rfl⟩ := h
      exact hrefl
  | _ a =>
      simp only [Sql.exec, Db.unlessPoisoned_eq_some, Option.map_eq_some_iff, Prod.mk.injEq] at h
      obtain ⟨-, ⟨reply', T⟩, hexec, -, rfl⟩ := h
      first
        | exact { hrefl with users := exec_moves hexec }
        | exact { hrefl with passwordResetTokens := exec_moves hexec }
        | exact { hrefl with emailOtps := exec_moves hexec }
        | exact { hrefl with outbox := exec_moves hexec }
        | exact { hrefl with deadLetterJobs := exec_moves hexec }
        | exact { hrefl with }

end Exec

/-! ## What was drawn -/

/-- Generated values are what they should be and do not collide. `traced` says whether the
clock only goes forward. -/
structure State.Drawn (setup : Setup) (traced : Prop) (s : State) : Prop where
  minted_seen : ∀ x ∈ s.minted, x.2.1 ∈ s.seen
  minted_hex : ∀ x ∈ s.minted, ∃ bytes : Bytes, bytes.length = 64 ∧ x.2.1 = toHex bytes
  minted_clock : traced → ∀ x ∈ s.minted, x.2.2 ≤ s.clock
  minted_inj : ∀ x ∈ s.minted, ∀ y ∈ s.minted, x.2.1 = y.2.1 → x = y
  seen_inj : ∀ x ∈ s.seen, ∀ y ∈ s.seen,
    setup.crypto.sha256 x = setup.crypto.sha256 y → x = y
  families_inj : ∀ x ∈ s.families, ∀ y ∈ s.families, x.2 = y.2 → x = y

/-! ## The system -/

/-- What a request of thread `t` can do to the state. -/
structure State.Moves (setup : Setup) (t : ℕ) (s s' : State) : Prop where
  db : Db.Moves t s.db s'.db
  clock : s'.clock = s.clock
  seen : ∃ new, s'.seen = new ++ s.seen
  minted : ∃ new, s'.minted = new ++ s.minted ∧ ∀ x ∈ new, x.1 = t ∧
    ∀ y ∈ s.seen, setup.crypto.sha256 y ≠ setup.crypto.sha256 x.2.1
  families : ∃ new, s'.families = new ++ s.families ∧
    ∀ x ∈ new, x.1 = t ∧ ∀ y ∈ s.families, y.2 ≠ x.2
  issuances : ∃ new, s'.issuances = new ++ s.issuances ∧ ∀ x ∈ new, x.1 = t

theorem State.Moves.of_db {setup : Setup} {t : ℕ} {s : State} {d : Db}
    (h : Db.Moves t s.db d) : State.Moves setup t s { s with db := d } where
  db := h
  clock := rfl
  seen := ⟨[], rfl⟩
  minted := ⟨[], rfl, by simp⟩
  families := ⟨[], rfl, by simp⟩
  issuances := ⟨[], rfl, by simp⟩

theorem State.Moves.exec {setup : Setup} {t : ℕ} {r : Request} {o : Oracle} {s s' : State}
    {reply : r.Reply} (h : r.exec setup t o s = some (reply, s')) :
    State.Moves setup t s s' := by
  have hrefl : State.Moves setup t s s := .of_db (Db.Moves.refl (d := s.db))
  cases r with
  | sql q =>
      simp only [Request.exec, Option.map_eq_some_iff, Prod.mk.injEq] at h
      obtain ⟨⟨reply', d⟩, hexec, -, rfl⟩ := h
      exact .of_db (.exec hexec)
  | present token =>
      simp only [Request.exec] at h
      split at h
      · cases h
      · cases h
        exact { hrefl with seen := ⟨[token], rfl⟩ }
  | generateToken =>
      simp only [Request.exec] at h
      split at h
      · rename_i hfresh
        cases h
        exact { hrefl with
          seen := ⟨[toHex o.bytes], rfl⟩
          minted := ⟨[(t, toHex o.bytes, s.clock)], rfl, by simpa using hfresh.2⟩ }
      · cases h
  | randomUuid =>
      simp only [Request.exec] at h
      split at h
      · cases h
      · rename_i hfresh
        cases h
        refine { hrefl with families := ⟨[(t, o.number)], rfl, ?_⟩ }
        rintro x hx
        obtain rfl := List.mem_singleton.mp hx
        exact ⟨rfl, fun y hy heq => hfresh ⟨y, hy, heq⟩⟩
  | generateOtpCode =>
      simp only [Request.exec] at h
      split at h
      · cases h
        exact { hrefl with issuances := ⟨[(t, s.issuances.length)], rfl, by simp⟩ }
      · cases h
  | randomBytes n =>
      simp only [Request.exec] at h
      split at h
      · cases h
        exact hrefl
      · cases h
  | cache c =>
      simp only [Request.exec] at h
      split at h
      · cases h
        split
        · exact { hrefl with }
        · exact hrefl
      · cases h
        exact { hrefl with }
  | saveFile folder filename =>
      simp only [Request.exec] at h
      split at h <;> cases h
      · exact hrefl
      · exact { hrefl with }
  | deleteFile folder filename =>
      simp only [Request.exec] at h
      split at h <;> cases h
      · exact hrefl
      · exact { hrefl with }
  | _ =>
      cases h
      exact { hrefl with }

/-- Only statements touch the database. -/
theorem exec_db {setup : Setup} {t : ℕ} {r : Request} {o : Oracle} {s s' : State}
    {reply : r.Reply} (hr : ∀ q, r ≠ .sql q) (h : r.exec setup t o s = some (reply, s')) :
    s'.db = s.db := by
  cases r with
  | sql q => exact (hr q rfl).elim
  | cache c =>
      simp only [Request.exec] at h
      split at h
      · cases h
        split <;> rfl
      · cases h
        rfl
  | present token =>
      simp only [Request.exec] at h
      split at h <;> cases h
      rfl
  | generateToken =>
      simp only [Request.exec] at h
      split at h <;> cases h
      rfl
  | randomUuid =>
      simp only [Request.exec] at h
      split at h <;> cases h
      rfl
  | generateOtpCode =>
      simp only [Request.exec] at h
      split at h <;> cases h
      rfl
  | randomBytes n =>
      simp only [Request.exec] at h
      split at h <;> cases h
      rfl
  | saveFile folder filename =>
      simp only [Request.exec] at h
      split at h <;> cases h <;> rfl
  | deleteFile folder filename =>
      simp only [Request.exec] at h
      split at h <;> cases h <;> rfl
  | _ =>
      cases h
      rfl

variable {setup : Setup} {traced : Prop} {t : ℕ} {s s' : State}

theorem State.Drawn.of_eq (hs : s.Drawn setup traced) (hseen : s'.seen = s.seen)
    (hminted : s'.minted = s.minted) (hfamilies : s'.families = s.families)
    (hclock : traced → s.clock ≤ s'.clock) : s'.Drawn setup traced where
  minted_seen := by
    rw [hminted, hseen]
    exact hs.minted_seen
  minted_hex := by
    rw [hminted]
    exact hs.minted_hex
  minted_clock htraced := by
    rw [hminted]
    exact fun x hx => Nat.le_trans (hs.minted_clock htraced x hx) (hclock htraced)
  minted_inj := by
    rw [hminted]
    exact hs.minted_inj
  seen_inj := by
    rw [hseen]
    exact hs.seen_inj
  families_inj := by
    rw [hfamilies]
    exact hs.families_inj

private theorem seen_inj_cons {seen : List String} {token : String}
    (hseen : ∀ x ∈ seen, ∀ y ∈ seen, setup.crypto.sha256 x = setup.crypto.sha256 y → x = y)
    (htoken : ∀ x ∈ seen, setup.crypto.sha256 x = setup.crypto.sha256 token → x = token) :
    ∀ x ∈ token :: seen, ∀ y ∈ token :: seen,
      setup.crypto.sha256 x = setup.crypto.sha256 y → x = y := by
  intro x hx y hy heq
  rcases List.mem_cons.mp hx with rfl | hx' <;> rcases List.mem_cons.mp hy with rfl | hy'
  · rfl
  · exact (htoken y hy' heq.symm).symm
  · exact htoken x hx' heq
  · exact hseen x hx' y hy' heq

theorem State.Drawn.exec {r : Request} {o : Oracle} {reply : r.Reply}
    (hs : s.Drawn setup traced) (h : r.exec setup t o s = some (reply, s')) :
    s'.Drawn setup traced := by
  have hkept (hseen : s'.seen = s.seen) (hminted : s'.minted = s.minted)
      (hfamilies : s'.families = s.families) : s'.Drawn setup traced :=
    hs.of_eq hseen hminted hfamilies fun _ => Nat.le_of_eq (State.Moves.exec h).clock.symm
  cases r with
  | present token =>
      simp only [Request.exec] at h
      split at h
      · cases h
      · rename_i hfresh
        cases h
        refine { hs with minted_seen := fun x hx => .tail _ (hs.minted_seen x hx), seen_inj := ?_ }
        refine seen_inj_cons hs.seen_inj fun x hx heq => ?_
        by_contra hne
        exact hfresh ⟨x, hx, hne, heq⟩
  | generateToken =>
      simp only [Request.exec] at h
      split at h
      · rename_i hfresh
        cases h
        have hnew (x : ℕ × String × Time) (hx : x ∈ s.minted) : x.2.1 ≠ toHex o.bytes :=
          fun heq => hfresh.2 _ (hs.minted_seen x hx) (by rw [heq])
        constructor
        · intro x hx
          rcases List.mem_cons.mp hx with rfl | hx
          · exact .head _
          · exact .tail _ (hs.minted_seen x hx)
        · intro x hx
          rcases List.mem_cons.mp hx with rfl | hx
          · exact ⟨o.bytes, hfresh.1, rfl⟩
          · exact hs.minted_hex x hx
        · intro htraced x hx
          rcases List.mem_cons.mp hx with rfl | hx
          · exact Nat.le_refl _
          · exact hs.minted_clock htraced x hx
        · intro x hx y hy heq
          rcases List.mem_cons.mp hx with rfl | hx' <;>
            rcases List.mem_cons.mp hy with rfl | hy'
          · rfl
          · exact (hnew y hy' heq.symm).elim
          · exact (hnew x hx' heq).elim
          · exact hs.minted_inj x hx' y hy' heq
        · exact seen_inj_cons hs.seen_inj fun x hx heq => (hfresh.2 x hx heq).elim
        · exact hs.families_inj
      · cases h
  | randomUuid =>
      simp only [Request.exec] at h
      split at h
      · cases h
      · rename_i hfresh
        cases h
        refine { hs with families_inj := fun x hx y hy heq => ?_ }
        rcases List.mem_cons.mp hx with rfl | hx' <;> rcases List.mem_cons.mp hy with rfl | hy'
        · rfl
        · exact (hfresh ⟨y, hy', heq.symm⟩).elim
        · exact (hfresh ⟨x, hx', heq⟩).elim
        · exact hs.families_inj x hx' y hy' heq
  | sql q =>
      simp only [Request.exec, Option.map_eq_some_iff, Prod.mk.injEq] at h
      obtain ⟨_, -, -, rfl⟩ := h
      exact hkept rfl rfl rfl
  | cache c =>
      simp only [Request.exec] at h
      split at h <;> cases h
      · split <;> exact hs.of_eq rfl rfl rfl fun _ => Nat.le_refl _
      · exact hkept rfl rfl rfl
  | generateOtpCode =>
      simp only [Request.exec] at h
      split at h <;> cases h
      exact hkept rfl rfl rfl
  | randomBytes n =>
      simp only [Request.exec] at h
      split at h <;> cases h
      exact hs
  | saveFile folder filename =>
      simp only [Request.exec] at h
      split at h <;> cases h
      · exact hs
      · exact hkept rfl rfl rfl
  | deleteFile folder filename =>
      simp only [Request.exec] at h
      split at h <;> cases h
      · exact hs
      · exact hkept rfl rfl rfl
  | _ =>
      cases h
      exact hkept rfl rfl rfl

end ExpressCore
