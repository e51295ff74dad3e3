import ExpressCore.Verification.Session.Protocol

/-! # Assertions about sessions that survive a wait -/

namespace ExpressCore.Session

open ReadCommitted Interleaving

/-- Time goes on: the past is kept, and what is drawn is new. -/
structure Later (setup : Setup) (traced : Prop) (s s' : State) : Prop where
  clock : traced → s.clock ≤ s'.clock
  seen : ∃ new, s'.seen = new ++ s.seen
  minted : ∃ new, s'.minted = new ++ s.minted ∧
    ∀ x ∈ new, ∀ y ∈ s.seen, setup.crypto.sha256 y ≠ setup.crypto.sha256 x.2.1
  families : ∃ new, s'.families = new ++ s.families
  log : s.db.refreshTokens.log <+: s'.db.refreshTokens.log

/-- Nothing about the sessions of thread `t` has changed. -/
structure Unmoved (setup : Setup) (traced : Prop) (t : ℕ) (s s' : State) : Prop
    extends Later setup traced s s' where
  rows : Undisturbed RefreshToken.SameIssue t s.db.refreshTokens s'.db.refreshTokens
  tags : ∃ new, s'.db.tags = new ++ s.db.tags ∧ ∀ x ∈ new, x.1 ≠ t

variable {setup : Setup} {traced : Prop} {t : ℕ} {s s' : State}

theorem Later.of_moves (h : State.Moves setup t s s') : Later setup traced s s' where
  clock _ := Nat.le_of_eq h.clock.symm
  seen := h.seen
  minted := by
    obtain ⟨new, heq, hnew⟩ := h.minted
    exact ⟨new, heq, fun x hx => (hnew x hx).2⟩
  families := by
    obtain ⟨new, heq, -⟩ := h.families
    exact ⟨new, heq⟩
  log := h.db.refreshTokens.log

theorem Unmoved.of_apart (h : Apart setup traced t s s') : Unmoved setup traced t s s' where
  clock := h.clock
  seen := h.seen
  minted := by
    obtain ⟨new, heq, hnew⟩ := h.minted
    exact ⟨new, heq, fun x hx => (hnew x hx).2⟩
  families := by
    obtain ⟨new, heq, -⟩ := h.families
    exact ⟨new, heq⟩
  log := by
    obtain ⟨others, heq, -⟩ := h.refreshTokens.log
    exact heq ▸ List.prefix_append _ _
  rows := h.refreshTokens.toUndisturbed
  tags := h.tags

/-! ## Requests that leave the sessions alone -/

/-- Statements that neither change the refresh tokens nor end a transaction. -/
def NeutralSql : Sql → Prop
  | .refreshTokens (.find _) => True
  | .refreshTokens (.scan w) => ¬ Revokes w
  | .refreshTokens _ => False
  | .deleted _ _ _ => False
  | .complete .prisma => False
  | .commit => False
  | .rollback => False
  | .logActivity .prisma _ => False
  | _ => True

/-- Requests that neither change the refresh tokens nor end a transaction. -/
def Neutral : Request → Prop
  | .sql q => NeutralSql q
  | _ => True

private theorem neutralSql_exec {q : Sql} {o : Oracle} {clock : Time} {d d' : Db}
    {reply : q.Reply} (hq : NeutralSql q) (h : q.exec t o clock d = some (reply, d')) :
    Undisturbed RefreshToken.SameIssue t d.refreshTokens d'.refreshTokens ∧
      d'.tags = d.tags := by
  have hrefl : Undisturbed RefreshToken.SameIssue t d.refreshTokens d.refreshTokens :=
    .refl RefreshToken.SameIssue.refl
  cases q with
  | refreshTokens a =>
      obtain ⟨-, T, hexec, rfl⟩ := exec_refreshTokens h
      cases a with
      | find w =>
          rw [exec_find_table hexec]
          exact ⟨.take RefreshToken.SameIssue.refl, rfl⟩
      | scan w =>
          rw [(exec_scan hexec).1]
          exact ⟨.take RefreshToken.SameIssue.refl, rfl⟩
      | _ => exact hq.elim
  | deleted db w count => exact hq.elim
  | commit => exact hq.elim
  | rollback => exact hq.elim
  | begin =>
      cases h
      exact ⟨hrefl, rfl⟩
  | complete db =>
      cases db with
      | prisma => exact hq.elim
      | tx =>
          simp only [Sql.exec, Db.unlessPoisoned_eq_some, Option.some.injEq, Prod.mk.injEq] at h
          obtain ⟨-, -, rfl⟩ := h
          exact ⟨hrefl, rfl⟩
  | logActivity db row =>
      cases db with
      | prisma => exact hq.elim
      | tx =>
          simp only [Sql.exec] at h
          split at h
          · cases h
            exact ⟨hrefl, rfl⟩
          · simp only [Option.map_eq_some_iff, Prod.mk.injEq] at h
            obtain ⟨d'', haudit, -, rfl⟩ := h
            unfold Db.audit at haudit
            split at haudit
            · split at haudit <;> cases haudit
              exact ⟨hrefl, rfl⟩
            · rename_i hdb
              cases hdb
            · cases haudit
              exact ⟨hrefl, rfl⟩
            · cases haudit
              exact ⟨hrefl, rfl⟩
  | now =>
      simp only [Sql.exec, Db.unlessPoisoned_eq_some, Option.some.injEq, Prod.mk.injEq] at h
      obtain ⟨-, -, rfl⟩ := h
      exact ⟨hrefl, rfl⟩
  | _ a =>
      simp only [Sql.exec, Db.unlessPoisoned_eq_some, Option.map_eq_some_iff, Prod.mk.injEq] at h
      obtain ⟨-, ⟨reply', T⟩, hexec, -, rfl⟩ := h
      exact ⟨hrefl, rfl⟩

theorem Unmoved.of_neutral {r : Request} {o : Oracle} {reply : r.Reply} (hr : Neutral r)
    (h : r.exec setup t o s = some (reply, s')) : Unmoved setup traced t s s' := by
  have hlater : Later setup traced s s' := .of_moves (.exec h)
  by_cases hsql : ∃ q, r = .sql q
  · obtain ⟨q, rfl⟩ := hsql
    simp only [Request.exec, Option.map_eq_some_iff, Prod.mk.injEq] at h
    obtain ⟨⟨reply', d⟩, hexec, -, rfl⟩ := h
    obtain ⟨hrows, htags⟩ := neutralSql_exec hr hexec
    exact { hlater with rows := hrows, tags := ⟨[], by simp [htags], by simp⟩ }
  · have hdb := exec_db (fun q hq => hsql ⟨q, hq⟩) h
    exact { hlater with
      rows := hdb ▸ .refl RefreshToken.SameIssue.refl
      tags := ⟨[], by simp [hdb], by simp⟩ }

/-! ## Steady assertions -/

/-- An assertion that holds until the thread does something about its sessions. -/
def Steady (setup : Setup) (traced : Prop) (t : ℕ) (P : State → Prop) : Prop :=
  ∀ s s', s.WellFormed setup traced → s'.WellFormed setup traced → Unmoved setup traced t s s' →
    P s → P s'

variable {P Q : State → Prop} {G : Guard} {A : Assumption ℕ Request State}

theorem Steady.stable (h : Steady setup traced t P) :
    (conformance setup traced A G).Stable t P :=
  fun s s' hs hs' hmove hP => h s s' hs hs' (.of_apart hmove) hP

theorem Steady.and (hP : Steady setup traced t P) (hQ : Steady setup traced t Q) :
    Steady setup traced t fun s => P s ∧ Q s :=
  fun s s' hs hs' hmove h => ⟨hP s s' hs hs' hmove h.1, hQ s s' hs hs' hmove h.2⟩

theorem Steady.or (hP : Steady setup traced t P) (hQ : Steady setup traced t Q) :
    Steady setup traced t fun s => P s ∨ Q s :=
  fun s s' hs hs' hmove h => h.imp (hP s s' hs hs' hmove) (hQ s s' hs hs' hmove)

theorem Steady.const (p : Prop) : Steady setup traced t fun _ => p := fun _ _ _ _ _ h => h

theorem Steady.imp {p : Prop} (hP : p → Steady setup traced t P) :
    Steady setup traced t fun s => p → P s :=
  fun s s' hs hs' hmove h hp => hP hp s s' hs hs' hmove (h hp)

theorem Steady.exists {ι : Sort*} {F : ι → State → Prop}
    (h : ∀ i, Steady setup traced t (F i)) : Steady setup traced t fun s => ∃ i, F i s :=
  fun s s' hs hs' hmove ⟨i, hi⟩ => ⟨i, h i s s' hs hs' hmove hi⟩

theorem Steady.clean : Steady setup traced t (Clean t) :=
  fun _ _ _ _ hmove h i version hp => h i version ((hmove.rows.own i version).mp hp)

theorem Steady.silent : Steady setup traced t (Silent t) := by
  intro s s' _ _ hmove h e he
  obtain ⟨others, heq, hothers⟩ := hmove.rows.log
  rw [heq] at he
  rcases List.mem_append.mp he with he | he
  · exact h e he
  · exact hothers e he

theorem Steady.deleting : Steady setup traced t (Deleting t) :=
  fun _ _ _ _ hmove h i version hp => h i version ((hmove.rows.own i version).mp hp)

theorem Steady.pending (i : ℕ) (version : Option RefreshToken) :
    Steady setup traced t fun s => s.db.refreshTokens.pending i = some (t, version) :=
  fun _ _ _ _ hmove h => (hmove.rows.own i version).mpr h

/-- The only lock of `t` is that of row `i`. -/
theorem Steady.only (i : ℕ) : Steady setup traced t fun s =>
    ∀ j version, s.db.refreshTokens.pending j = some (t, version) → j = i :=
  fun _ _ _ _ hmove h j version hp => h j version ((hmove.rows.own j version).mp hp)

theorem Steady.closed (w : RefreshTokenWhere) : Steady setup traced t (Closed t w) := by
  rintro s s' _ _ hmove ⟨past, hpast, hpending, herased⟩
  refine ⟨past, hpast.trans hmove.log, fun i hi => hpending i ((hmove.rows.own i none).mp hi), ?_⟩
  exact fun e he r hr hw => hmove.rows.erased (herased e he r hr hw)

/-- In traced runs what `t` deletes stays expired. -/
theorem Steady.lapsed (htraced : traced) : Steady setup traced t fun s =>
    ∀ i, s.db.refreshTokens.pending i = some (t, none) → Lapsed s i := by
  intro s s' _ _ hmove h i hi r hr
  have hi := (hmove.rows.own i none).mp hi
  rw [hmove.rows.kept i none hi] at hr
  obtain ⟨e, he, r', hr', htoken, hexpires⟩ := h i hi r hr
  exact ⟨e, hmove.log.subset he, r', hr', htoken, Nat.le_trans hexpires (hmove.clock htraced)⟩

/-- Every version of row `i` is of the token `r` was issued for. -/
def Known (i : ℕ) (r : RefreshToken) (s : State) : Prop :=
  i ∈ s.db.refreshTokens.ids ∧ ∀ r', s.db.refreshTokens.Version i r' → r.SameIssue r'

theorem Steady.known (i : ℕ) (r : RefreshToken) : Steady setup traced t (Known i r) := by
  rintro s s' _ _ hmove ⟨hids, h⟩
  refine ⟨hmove.rows.ids i hids, fun r' hr' => ?_⟩
  obtain ⟨r'', hr'', hsame⟩ := hmove.rows.version i hids r' hr'
  exact (h r'' hr'').trans hsame

theorem Steady.tagged (p : RefreshTokenWhere → Prop) : Steady setup traced t (Tagged t p) := by
  intro s s' _ _ hmove h x hx hxt
  obtain ⟨new, heq, hnew⟩ := hmove.tags
  rw [heq] at hx
  rcases List.mem_append.mp hx with hx | hx
  · exact (hnew x hx hxt).elim
  · exact h x hx hxt

theorem Satisfied.mono {w : RefreshTokenWhere} {i : ℕ}
    {log log' : List (ℕ × ℕ × Option RefreshToken)} (h : Satisfied w i log) (hlog : log <+: log') :
    Satisfied w i log' := by
  obtain ⟨e, he, hrest⟩ := h
  exact ⟨e, hlog.subset he, hrest⟩

theorem Steady.filtered (w : RefreshTokenWhere) : Steady setup traced t (Filtered t w) := by
  intro s s' _ _ hmove h i hi
  refine (h i (hi.imp (hmove.rows.own i none).mp fun he => ?_)).mono hmove.log
  obtain ⟨others, heq, hothers⟩ := hmove.rows.log
  rw [heq] at he
  exact (List.mem_append.mp he).resolve_right fun he => hothers _ he rfl

theorem Steady.tag (x : ℕ × RefreshTokenWhere × ℕ) :
    Steady setup traced t fun s => x ∈ s.db.tags := by
  intro s s' _ _ hmove h
  obtain ⟨new, heq, -⟩ := hmove.tags
  exact heq ▸ List.mem_append_right _ h

/-- Every revocation of `t` that reported a pass has reported an empty one. -/
def Told (t : ℕ) (s : State) : Prop :=
  Tagged t (fun w => (t, w, 0) ∈ s.db.tags) s

theorem Steady.told : Steady setup traced t (Told t) := by
  intro s s' hs hs' hmove h x hx hxt hw
  have hx' := Steady.tagged (fun w => (t, w, 0) ∈ s.db.tags) s s' hs hs' hmove h x hx hxt hw
  exact Steady.tag _ s s' hs hs' hmove hx'

/-! ## Lasting assertions -/

/-- An assertion about the past, which nothing falsifies. -/
def Lasting (setup : Setup) (traced : Prop) (P : State → Prop) : Prop :=
  ∀ s s', Later setup traced s s' → P s → P s'

theorem Lasting.steady (h : Lasting setup traced P) : Steady setup traced t P :=
  fun s s' _ _ hmove => h s s' hmove.toLater

theorem Lasting.and (hP : Lasting setup traced P) (hQ : Lasting setup traced Q) :
    Lasting setup traced fun s => P s ∧ Q s :=
  fun s s' hlater h => ⟨hP s s' hlater h.1, hQ s s' hlater h.2⟩

theorem Lasting.const (p : Prop) : Lasting setup traced fun _ => p := fun _ _ _ h => h

theorem Lasting.imp {p : Prop} (hP : p → Lasting setup traced P) :
    Lasting setup traced fun s => p → P s :=
  fun s s' hlater h hp => hP hp s s' hlater (h hp)

theorem Lasting.exists {ι : Sort*} {F : ι → State → Prop}
    (h : ∀ i, Lasting setup traced (F i)) : Lasting setup traced fun s => ∃ i, F i s :=
  fun s s' hlater ⟨i, hi⟩ => ⟨i, h i s s' hlater hi⟩

theorem Lasting.seen (x : String) : Lasting setup traced fun s => x ∈ s.seen := by
  intro s s' hlater h
  obtain ⟨new, heq⟩ := hlater.seen
  exact heq ▸ List.mem_append_right _ h

theorem Lasting.minted (x : ℕ × String × Time) :
    Lasting setup traced fun s => x ∈ s.minted := by
  intro s s' hlater h
  obtain ⟨new, heq, -⟩ := hlater.minted
  exact heq ▸ List.mem_append_right _ h

theorem Lasting.families (x : ℕ × ℕ) : Lasting setup traced fun s => x ∈ s.families := by
  intro s s' hlater h
  obtain ⟨new, heq⟩ := hlater.families
  exact heq ▸ List.mem_append_right _ h

theorem Lasting.logged (e : ℕ × ℕ × Option RefreshToken) :
    Lasting setup traced fun s => e ∈ s.db.refreshTokens.log :=
  fun _ _ hlater h => hlater.log.subset h

theorem Lasting.clock (htraced : traced) (now : Time) :
    Lasting setup traced fun s => now ≤ s.clock :=
  fun _ _ hlater h => Nat.le_trans h (hlater.clock htraced)

theorem Lasting.presented (x : String) (now : Time) :
    Lasting setup traced (Presented setup traced x now) := by
  rintro s s' hlater ⟨hseen, htime⟩
  obtain ⟨minted, hminted', hfresh⟩ := hlater.minted
  refine ⟨Lasting.seen x s s' hlater hseen, fun htraced => ?_⟩
  refine ⟨Nat.le_trans (htime htraced).1 (hlater.clock htraced), fun z hz heq => ?_⟩
  rw [hminted'] at hz
  rcases List.mem_append.mp hz with hz | hz
  · exact (hfresh z hz x hseen heq.symm).elim
  · exact (htime htraced).2 z hz heq

theorem Lasting.drew (x : String) (now : Time) (y : String) (m : Time) (c : Bytes) :
    Lasting setup traced (Drew setup traced t x now y m c) :=
  fun s s' hlater h =>
    ⟨Lasting.presented x now s s' hlater h.presented, Lasting.minted _ s s' hlater h.minted,
      h.after, h.sealed⟩

/-- Some row with token `h` was committed and has expired. -/
def TokenLapsed (h : String) (s : State) : Prop :=
  ∃ e ∈ s.db.refreshTokens.log, ∃ r, e.2.2 = some r ∧ r.token = h ∧ r.expiresAt ≤ s.clock

theorem Lasting.tokenLapsed (htraced : traced) (h : String) :
    Lasting setup traced (TokenLapsed h) := by
  rintro s s' hlater ⟨e, he, r, hr, htoken, hexpires⟩
  exact ⟨e, hlater.log.subset he, r, hr, htoken, Nat.le_trans hexpires (hlater.clock htraced)⟩

/-! ## Neutral programs -/

variable {opens : ℕ → Prop} {α β : Type} {post : β → State → Prop}
  {err : Error → State → Prop}

theorem guard_of_neutral {request : Request} (h : Neutral request) :
    guard setup traced opens t request s := by
  cases request with
  | sql q =>
      cases q with
      | refreshTokens a =>
          cases a with
          | find w => trivial
          | scan w => exact fun hw => (h hw).elim
          | _ => exact h.elim
      | complete db => cases db <;> first | exact h.elim | trivial
      | logActivity db row => cases db <;> first | exact h.elim | trivial
      | _ => first | exact h.elim | trivial
  | _ => trivial

theorem meets_neutral (hP : Steady setup traced t P) {p : Service α} (hp : p.Uses Neutral) :
    (conformance setup traced A (guard setup traced opens)).Meets (system setup) A t
      (fun _ => P) (fun _ => P) p P :=
  Rules.Meets.of_uses hp hP.stable fun _ hr =>
    conformance_answers (fun _ _ _ _ => guard_of_neutral hr) fun s _ _ s' hs _ hpre hexec =>
      hP s s' hs (hs.exec hexec) (.of_neutral hr hexec) hpre

/-- A neutral part of a program may be skipped. -/
theorem meets_neutral_bind (hP : Steady setup traced t P) {p : Service α} (hp : p.Uses Neutral)
    {rest : α → Service β} (herr : ∀ e s, P s → err e s)
    (hrest : ∀ value, (conformance setup traced A (guard setup traced opens)).Meets (system setup)
      A t post err (rest value) P) :
    (conformance setup traced A (guard setup traced opens)).Meets (system setup) A t post err
      (p >>= rest) P :=
  .bind ((meets_neutral hP hp).mono (fun _ => .refl) fun e s _ h => herr e s h) hrest

/-- A lasting assertion is carried along any program. -/
theorem conforms_frame {p : Service β} {pre : State → Prop} (hP : Lasting setup traced P)
    (h : (conformance setup traced A (guard setup traced opens)).Meets (system setup) A t post err
      p pre) :
    (conformance setup traced A (guard setup traced opens)).Meets (system setup) A t
      (fun value s => post value s ∧ P s) (fun error s => err error s ∧ P s) p
      fun s => pre s ∧ P s := by
  refine h.frame hP.steady.stable fun s s' hs hperforms hp => ?_
  rcases hperforms with ⟨r, o, reply, -, hexec⟩ | rfl
  · exact hP s s' (.of_moves (.exec hexec)) hp
  · exact hP s _ (.of_moves (.of_db .abortAll)) hp

end ExpressCore.Session
