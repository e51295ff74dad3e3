import ExpressCore.Verification.Account.Fields
import ExpressCore.Verification.Account.Requests

/-! # What PUT /profile does to the details

A request writes details only after it was validated, and one that succeeds has committed them. -/

namespace ExpressCore.Details

open ReadCommitted Interleaving Interleaving.Program Fields

/-- One request; `others` is what the schema makes of the properties that are no extended
field. -/
structure Put where
  userId : ℕ
  file : Option UploadedFile
  others : Except (List (String × String)) UpdateProfileInput
  body : ProfileBody

def Put.program (setup : Setup) (locales : Locales) (put : Put) : Service UserProfileData :=
  putProfile setup locales put.userId put.file put.others put.body

/-- What a request sends, normalized. -/
def Put.sent (locales : Locales) (put : Put) : ProfileFields := normalized locales put.body

variable {setup : Setup} {traced : Prop} {A : Assumption ℕ Request State} {locales : Locales}
  {puts : ℕ → Put} {t : ℕ} {s s' : State}

/-! ## Discipline -/

/-- The request was accepted, not later than now. -/
def Validated (locales : Locales) (traced : Prop) (put : Put) (s : State) : Prop :=
  ∃ now, (traced → now ≤ s.clock) ∧
    parseProfileFields locales now put.body = .ok (put.sent locales)

/-- Details are only upserted, with the columns of a request that was accepted. -/
def detailing (locales : Locales) (puts : ℕ → Put) (traced : Prop) : Discipline where
  tables k := k = .userProfiles
  change t k a s :=
    match k, a with
    | .userProfiles, .upsert (.user key) row (.user guard) data =>
        key = (puts t).userId ∧ guard = key ∧
          ReadCommitted.Change.apply data (blank key) = some row ∧
          ((puts t).sent locales).columns = some data ∧ Validated locales traced (puts t) s
    | .userProfiles, _ => False
    | _, _ => True
  commit _ _ := True
  other _ _ _ := True
  commit_free _ _ _ := trivial

abbrev rules (setup : Setup) (locales : Locales) (puts : ℕ → Put) (traced : Prop)
    (A : Assumption ℕ Request State) : Rules ℕ State :=
  keeping setup traced A (detailing locales puts traced)

/-- `updateProfile` sends nothing to the details but what `upsertDetails` does and reads. -/
theorem uses_updateProfile {allowed : Request → Prop} {userId : ℕ} {data : UpdateProfileInput}
    (hother : ∀ r : Request, r.table? ≠ some .userProfiles → allowed r)
    (hfind : ∀ w, allowed (.sql (.userProfiles (.find w))))
    (hupsert : (upsertDetails userId data.details).Uses allowed) :
    (updateProfile setup userId data).Uses allowed := by
  have husers (a : Access ℕ User UserWhere UserChange) : (users a).Uses allowed :=
    uses_send.mpr (hother _ nofun)
  have hprofile (userId : ℕ) : (findProfile userId).Uses allowed := by
    refine .bind (uses_send.mpr (hother _ nofun)) fun readAt => .bind (husers _) fun found => ?_
    split
    · trivial
    · dsimp only
      split
      on_goal 1 => refine .bind (uses_pure _) fun role => ?_
      on_goal 2 => refine .bind (uses_send.mpr (hother _ nofun)) fun role => ?_
      all_goals exact .bind (uses_send.mpr (hfind _)) fun profile => trivial
  have hbody (existing : UserProfileData) :
      (updateProfileInTransaction setup userId existing data).Uses allowed := by
    refine .bind (uses_slugForName fun _ => hother _ nofun) fun newSlug =>
      .bind (uses_hashIfSent (hother _ nofun) _) fun newPassword =>
        .bind (uses_changeOne husers (hother _ nofun) _ _) fun updated => ?_
    dsimp only
    split
    on_goal 1 => refine .bind hupsert fun _ => ?_
    all_goals
      split
      on_goal 1 =>
        refine .bind (uses_revokeRefreshTokens (fun _ => uses_send.mpr (hother _ nofun)) _
          fun _ => hother _ nofun) fun _ => ?_
      all_goals exact .bind (uses_send.mpr (hother _ nofun)) fun _ => trivial
  refine .bind (hprofile userId) fun found => ?_
  cases found with
  | none => trivial
  | some existing =>
      dsimp only
      split
      on_goal 1 => refine .bind (uses_deleteFile (hother _ nofun)) fun _ => ?_
      all_goals
        refine .bind (uses_transaction (hother _ nofun) (hother _ nofun) (hother _ nofun)
          (hbody existing)) fun updated => .bind (uses_cacheService (hother _ nofun)) fun _ =>
            .bind (.bind (uses_cacheService (hother _ nofun)) fun cached => ?_) fun profile =>
              .bind (uses_cacheService (hother _ nofun)) fun _ => trivial
        split
        · trivial
        · refine .bind (hprofile _) fun profile => ?_
          split
          · trivial
          · exact .bind (uses_cacheService (hother _ nofun)) fun _ => trivial

theorem lets_other {r : Request} (h : r.table? ≠ some .userProfiles) :
    (detailing locales puts traced).Lets t r :=
  Discipline.lets_skips (fun _ => trivial) (fun _ _ => trivial) fun _ hk =>
    Request.skips_of_table (hk ▸ h)

/-- Requests that keep to the discipline after the validation. -/
abbrev Sent (locales : Locales) (puts : ℕ → Put) (traced : Prop) (A : Assumption ℕ Request State)
    (t : ℕ) (r : Request) : Prop :=
  (detailing locales puts traced).Admits A t (Validated locales traced (puts t)) r

theorem upsertDetails_sent {data : ProfileFields} (h : data = (puts t).sent locales) :
    (upsertDetails (puts t).userId data).Uses (Sent locales puts traced A t) := by
  unfold upsertDetails
  split
  · trivial
  · rename_i columns hcolumns
    refine .bind (uses_send.mpr (Discipline.admits_access (k := .userProfiles)
      fun s _ hvalidated _ => ?_)) fun _ => uses_send.mpr (lets_other (r := .sql (.complete .tx)) nofun).admits
    exact ⟨rfl, rfl, rfl, h ▸ hcolumns, hvalidated⟩

theorem validated_stable : (rules setup locales puts traced A).Stable t
    (Validated locales traced (puts t)) :=
  .exists fun _ => (Rules.Stable.imp_const fun htraced =>
    (Firm.clock (K := fun _ => False) htraced _).stable).and (.const _)

theorem updateProfile_meets (data : UpdateProfileInput)
    (hdata : data.details = (puts t).sent locales) :
    (rules setup locales puts traced A).Meets (system setup) A t (fun _ _ => True)
      (fun _ _ => True) (updateProfile setup (puts t).userId data)
      (Validated locales traced (puts t)) := by
  have huses : (updateProfile setup (puts t).userId data).Uses (Sent locales puts traced A t) :=
    uses_updateProfile (fun _ hr => (lets_other hr).admits)
      (fun w => (Discipline.lets_read (k := .userProfiles) (a := .find w) not_false).admits)
      (upsertDetails_sent hdata)
  refine (Rules.Meets.of_uses huses validated_stable fun r hr => keeping_answers
    (fun s _ => hr s) fun s o reply s' _ _ hvalidated hexec => ?_).mono (fun _ _ _ _ => trivial)
    fun _ _ _ _ => trivial
  obtain ⟨now, hnow, hparse⟩ := hvalidated
  exact ⟨now, fun htraced => (State.Moves.exec hexec).clock ▸ hnow htraced, hparse⟩

theorem program_meets : (rules setup locales puts traced A).Meets (system setup) A t
    (fun _ _ => True) (fun _ _ => True) ((puts t).program setup locales) fun _ => True := by
  have hupload (file : Option UploadedFile) : (uploadAvatar file).Uses
      ((detailing locales puts traced).Lets t) := by
    unfold uploadAvatar
    split
    · trivial
    · split
      · trivial
      · split
        · trivial
        · refine .bind (uses_send.mpr (lets_other nofun)) fun bytes => ?_
          dsimp only
          split
          · trivial
          · refine .bind (uses_send.mpr (lets_other nofun)) fun stored => ?_
            split <;> trivial
  refine .bind (meets_lets (hupload _)) fun avatar => .seq
    (fun now s => traced → now ≤ s.clock) ?_ fun now => ?_
  · refine Rules.Meets.send (.const True) (keeping_answers (fun _ _ _ _ => lets_other (r := .now) nofun _)
      fun s o now s' _ _ _ hexec htraced => ?_) fun now => .imp_const fun htraced =>
        (Firm.clock (K := fun _ => False) htraced now).stable
    obtain ⟨rfl, rfl⟩ := Prod.mk.inj (Option.some.inj hexec)
    exact Nat.le_refl _
  · unfold updateProfileSchema
    split
    · rename_i data fields hothers hfields
      have hsent : fields = (puts t).sent locales := (normalized_of_parse hfields).symm
      refine (updateProfile_meets { data with details := fields, avatar } hsent).weaken
        fun s _ hnow => ⟨now, hnow, hsent ▸ hfields⟩
    · exact .throw (.const True) fun _ _ _ => trivial

/-! ## Successful requests -/

/-- Thread `t` has written details and not ended the transaction. -/
def Holding (t : ℕ) (s : State) : Prop :=
  ∃ i v, s.db.userProfiles.pending i = some (t, v)

/-- Thread `t` has committed details, or its COMMIT was turned into a rollback. -/
def Settled (t : ℕ) (s : State) : Prop :=
  s.db.rolledBack t = true ∨ ∃ i v, (t, i, v) ∈ s.db.userProfiles.log

/-- Threads that need no discipline. -/
abbrev free (setup : Setup) (A : Assumption ℕ Request State) : Rules ℕ State :=
  keeping setup False A .lax

theorem meets_any {α : Type} (p : Service α) : (free setup A).Meets (system setup) A t
    (fun _ _ => True) (fun _ _ => True) p fun _ => True :=
  meets_lets (.of_all (fun r s => Discipline.lax_guard t r s) p)

theorem holding_stable : (free setup A).Stable t (Holding t) := by
  have hfirm : Firm (fun k => k = .userProfiles) setup False t (Holding t) :=
    fun _ _ _ _ hmove ⟨i, v, h⟩ => ⟨i, v, ((hmove.rows .userProfiles rfl).own i v).mpr h⟩
  exact hfirm.stable

theorem settled_stable : (free setup A).Stable t (Settled t) := by
  have hlogged : (free setup A).Stable t fun s => ∃ i v, (t, i, v) ∈ s.db.userProfiles.log :=
    .exists fun i => .exists fun v =>
      (Firm.logged (K := fun _ => False) .userProfiles (t, i, v)).stable
  rintro s s' hs hs' hmove (h | h)
  · refine .inl ?_
    obtain ⟨⟨u, hne, ⟨r, o, reply, -, hexec⟩ | rfl⟩ | ⟨o, hmove, -⟩, -⟩ := hmove
    · exact ((State.Moves.exec hexec).db.rolledBack t hne.symm).trans h
    · exact (Function.update_of_ne hne.symm _ _).trans h
    · exact (move_exec hmove).1 ▸ h
  · exact .inr (hlogged s s' hs hs' hmove h)

/-- Requests that are no access to the details and leave the transaction open. -/
def Aside (r : Request) : Prop :=
  r.table? ≠ some .userProfiles ∧ ∀ q, r = .sql q → ¬ q.Commits ∧ q ≠ .rollback

theorem aside_sql {q : Sql} (h : (Request.sql q).table? ≠ some .userProfiles)
    (hcommits : ¬ q.Commits) (hrollback : q ≠ .rollback) : Aside (.sql q) := by
  refine ⟨h, fun q' hq => ?_⟩
  cases hq
  exact ⟨hcommits, hrollback⟩

theorem Aside.exec {r : Request} {o : Oracle} {reply : r.Reply} (hr : Aside r)
    (h : r.exec setup t o s = some (reply, s')) : s'.db.userProfiles = s.db.userProfiles := by
  by_cases hsql : ∃ q, r = .sql q
  · obtain ⟨q, rfl⟩ := hsql
    obtain ⟨hcommits, hrollback⟩ := hr.2 q rfl
    simp only [Request.exec, Option.map_eq_some_iff, Prod.mk.injEq] at h
    obtain ⟨⟨reply', d⟩, hexec, -, rfl⟩ := h
    cases Db.Effect.exec hexec with
    | access k a reply' hq hpoisoned haccess hothers =>
        have hne : TableName.userProfiles ≠ k := by
          rintro rfl
          subst hq
          exact hr.1 rfl
        exact hothers .userProfiles hne
    | commit hq htables => exact (hcommits hq).elim
    | abort hq htables =>
        rcases hq with rfl | rfl
        · exact (hcommits trivial).elim
        · exact (hrollback rfl).elim
    | none htables => exact htables .userProfiles
  · rw [exec_db (fun q hq => hsql ⟨q, hq⟩) h]

theorem meets_aside {α : Type} {p : Service α} (hp : p.Uses Aside) (held : Prop) :
    (free setup A).Meets (system setup) A t (fun _ s => held → Holding t s) (fun _ _ => True) p
      fun s => held → Holding t s := by
  refine (Rules.Meets.of_uses hp (.imp_const fun _ => holding_stable) fun r hr => keeping_answers
    (fun s _ _ _ => Discipline.lax_guard t r s) fun s o reply s' _ _ hheld hexec hyes => ?_).mono
    (fun _ => .refl) fun _ _ _ _ => trivial
  obtain ⟨i, v, h⟩ := hheld hyes
  exact ⟨i, v, by rw [hr.exec hexec]; exact h⟩

/-- Requests that neither begin nor end a transaction. -/
def Within (r : Request) : Prop := ∀ q, r = .sql q → ∃ (k : TableName) (a : k.Access), q = k.sql a

theorem within_other {r : Request} (h : ∀ q, r ≠ .sql q) : Within r := fun q hq => (h q hq).elim

theorem within_find (k : TableName) (w : k.Where) : Within (.sql (k.sql (.find w))) := by
  intro q hq
  cases hq
  exact ⟨k, _, rfl⟩

theorem Within.exec {r : Request} {o : Oracle} {reply : r.Reply} (hr : Within r)
    (h : r.exec setup t o s = some (reply, s')) : s'.db.rolledBack = s.db.rolledBack := by
  by_cases hsql : ∃ q, r = .sql q
  · obtain ⟨q, rfl⟩ := hsql
    obtain ⟨k, a, rfl⟩ := hr q rfl
    simp only [Request.exec, Option.map_eq_some_iff, Prod.mk.injEq] at h
    obtain ⟨⟨reply', d⟩, hexec, -, rfl⟩ := h
    cases k <;>
      simp only [TableName.sql, Sql.exec, Db.unlessPoisoned_eq_some,
        Option.map_eq_some_iff] at hexec <;>
      obtain ⟨-, ⟨_, _⟩, -, -, rfl⟩ := hexec <;> rfl
  · rw [exec_db (fun q hq => hsql ⟨q, hq⟩) h]

theorem meets_within {α : Type} {p : Service α} (hp : p.Uses Within) (settled : Prop) :
    (free setup A).Meets (system setup) A t (fun _ s => settled → Settled t s) (fun _ _ => True) p
      fun s => settled → Settled t s := by
  refine (Rules.Meets.of_uses hp (.imp_const fun _ => settled_stable) fun r hr => keeping_answers
    (fun s _ _ _ => Discipline.lax_guard t r s) fun s o reply s' _ _ hpre hexec hyes => ?_).mono
    (fun _ => .refl) fun _ _ _ _ => trivial
  rcases hpre hyes with h | ⟨i, v, h⟩
  · exact .inl (by rw [hr.exec hexec]; exact h)
  · exact .inr ⟨i, v, (exec_table hexec .userProfiles).log.subset h⟩

theorem upsertDetails_holds {userId : ℕ} (data : ProfileFields) :
    (free setup A).Meets (system setup) A t (fun _ => Holding t) (fun _ _ => True)
      (upsertDetails userId data) fun _ => True := by
  unfold upsertDetails
  split
  · exact .throw (.const True) .refl
  · rename_i columns hcolumns
    refine .seq (fun _ => Holding t) (send_meets (k := .userProfiles) (a := .upsert _ _ _ _)
      (.const True) (fun _ => holding_stable) (fun _ _ _ _ hk _ => hk.elim)
      fun s o reply s' _ _ _ _ _ h => ?_) fun _ => ?_
    · obtain ⟨i, v, htable⟩ := exec_upsert_key h.exec
      have htable : s'.db.userProfiles = s.db.userProfiles.write t i v := htable
      exact ⟨i, v, by rw [htable]; exact Table.write_pending_self⟩
    · have hend : Aside (.sql (.complete .tx)) := aside_sql nofun id nofun
      exact ((meets_aside (uses_send.mpr hend) True).weaken fun _ _ h _ => h).mono
        (fun _ _ _ h => h trivial) fun _ => .refl

/-- A COMMIT keeps the details or is turned into a rollback. -/
theorem commit_settles {α : Type} (value : α) (held : Prop) :
    (free setup A).Meets (system setup) A t (fun _ s => held → Settled t s) (fun _ _ => True)
      (statement .commit >>= fun _ => pure value) fun s => held → Holding t s := by
  have hstable : (free setup A).Stable t fun s => held → Settled t s :=
    .imp_const fun _ => settled_stable
  refine .seq (fun _ s => held → Settled t s) (Rules.Meets.send
    (.imp_const fun _ => holding_stable) (keeping_answers
      (fun s _ _ _ => Discipline.lax_guard t _ s) fun s o reply s' _ _ hpre hexec hheld => ?_)
    fun _ => hstable) fun _ => .pure hstable .refl
  obtain ⟨i, v, h⟩ := hpre hheld
  simp only [Request.exec, Sql.exec, Option.map_some, Option.some.injEq, Prod.mk.injEq] at hexec
  obtain ⟨-, rfl⟩ := hexec
  unfold Settled Db.finish
  dsimp only
  split
  · exact .inl (Function.update_self ..)
  · exact .inr ⟨i, v, List.mem_append_right _ (Table.mem_writes.mpr ⟨rfl, h⟩)⟩

theorem body_holds {userId : ℕ} (existing : UserProfileData) (data : UpdateProfileInput) :
    (free setup A).Meets (system setup) A t
      (fun _ s => data.details.keys.length > 0 → Holding t s) (fun _ _ => True)
      (updateProfileInTransaction setup userId existing data) fun _ => True := by
  have hsessions (userId : ℕ) : (deleteRefreshTokensByUserId .tx userId).Uses Aside :=
    uses_revokeRefreshTokens (fun _ => uses_send.mpr (aside_sql nofun id nofun)) _
      fun _ => aside_sql nofun id nofun
  refine .bind (meets_any _) fun newSlug => .bind (meets_any _) fun newPassword =>
    .bind (meets_any _) fun updated => ?_
  dsimp only
  split
  on_goal 1 =>
    refine .bind (upsertDetails_holds _) fun _ =>
      Rules.Meets.under (fun s => data.details.keys.length > 0 → Holding t s) ?_ fun s _ h _ => h
  on_goal 2 =>
    rename_i hnone
    refine Rules.Meets.under (fun s => data.details.keys.length > 0 → Holding t s) ?_
      fun s _ _ h => (hnone h).elim
  all_goals
    refine meets_aside ?_ _
    split
    on_goal 1 => refine .bind (hsessions _) fun _ => ?_
    all_goals exact .bind (uses_send.mpr (aside_sql nofun id nofun)) fun _ => trivial

theorem updateProfile_settles {userId : ℕ} (data : UpdateProfileInput) :
    (free setup A).Meets (system setup) A t
      (fun _ s => data.details.keys.length > 0 → Settled t s) (fun _ _ => True)
      (updateProfile setup userId data) fun _ => True := by
  have hcache (c : CacheCommand) : (cacheService c).Uses Within :=
    uses_cacheService (within_other fun q hq => by cases hq)
  have hprofile (userId : ℕ) : (getProfile userId).Uses Within := by
    refine .bind (hcache _) fun cached => ?_
    split
    · trivial
    · refine .bind (.bind (uses_send.mpr (within_other fun q hq => by cases hq)) fun readAt =>
        .bind (uses_send.mpr (within_find .users _)) fun user => ?_) fun found => ?_
      · split
        · trivial
        · dsimp only
          split
          on_goal 1 => refine .bind (uses_pure _) fun role => ?_
          on_goal 2 => refine .bind (uses_send.mpr (within_find .roles _)) fun role => ?_
          all_goals exact .bind (uses_send.mpr (within_find .userProfiles _)) fun profile => trivial
      · split
        · trivial
        · exact .bind (hcache _) fun _ => trivial
  have htransaction (existing : UserProfileData) :
      (free setup A).Meets (system setup) A t
        (fun _ s => data.details.keys.length > 0 → Settled t s) (fun _ _ => True)
        (transaction (updateProfileInTransaction setup userId existing data)) fun _ => True :=
    transaction_meets (meets_any (statement .begin)) (body_holds existing data)
      (fun _ => .bind (meets_any (statement .rollback)) fun _ => .throw (.const True) .refl)
      fun updated => commit_settles updated _
  refine .bind (meets_any _) fun found => ?_
  cases found with
  | none => exact .throw (.const True) .refl
  | some existing =>
      dsimp only
      split
      on_goal 1 => refine .bind (meets_any _) fun _ => ?_
      all_goals
        exact .bind (htransaction existing) fun updated =>
          meets_within (.bind (hcache _) fun _ => .bind (hprofile _) fun profile =>
            .bind (hcache _) fun _ => uses_pure _) _

theorem program_settles : (free setup A).Meets (system setup) A t
    (fun _ s => ((puts t).sent locales).keys.length > 0 → Settled t s) (fun _ _ => True)
    ((puts t).program setup locales) fun _ => True := by
  refine .bind (meets_any _) fun avatar => .bind (meets_any _) fun now => ?_
  unfold updateProfileSchema
  split
  · rename_i data fields hothers hfields
    have hsent : (puts t).sent locales = fields := normalized_of_parse hfields
    rw [hsent]
    exact updateProfile_settles { data with details := fields, avatar }
  · exact .throw (.const True) fun _ _ _ => trivial

end ExpressCore.Details
