import ExpressCore.Model.User
import ExpressCore.Verification.Session.Rotation

/-! # The other operations on sessions keep to the protocol -/

namespace ExpressCore.Session

open ReadCommitted Interleaving Interleaving.Program

variable {setup : Setup} {traced : Prop} {opens : ℕ → Prop} {A : Assumption ℕ Request State} {t : ℕ}

/-! ## Programs that leave the sessions alone -/

theorem completeTx : Neutral (.sql (.complete .tx)) := trivial

theorem users_neutral (a : Access ℕ User UserWhere UserChange) : (users a).Uses Neutral := by
  simp [users, Neutral, NeutralSql]

theorem roles_neutral (a : Access ℕ Role RoleWhere RoleChange) : (roles a).Uses Neutral := by
  simp [roles, Neutral, NeutralSql]

theorem userProfiles_neutral (a : Access ℕ UserProfile ProfileWhere UserProfileUpdate) :
    (userProfiles a).Uses Neutral := by
  simp [userProfiles, Neutral, NeutralSql]

theorem passwordResetTokens_neutral
    (a : Access ℕ PasswordResetToken TokenWhere PasswordResetTokenChange) :
    (passwordResetTokens a).Uses Neutral := by
  simp [passwordResetTokens, Neutral, NeutralSql]

theorem emailVerificationTokens_neutral
    (a : Access ℕ EmailVerificationToken TokenWhere EmailVerificationTokenChange) :
    (emailVerificationTokens a).Uses Neutral := by
  simp [emailVerificationTokens, Neutral, NeutralSql]

theorem emailOtps_neutral (a : Access ℕ EmailOtp EmailOtpWhere EmailOtpChange) :
    (emailOtps a).Uses Neutral := by
  simp [emailOtps, Neutral, NeutralSql]

theorem cacheService_neutral (c : CacheCommand) : (cacheService c).Uses Neutral := by
  refine .bind (uses_send.mpr trivial) fun reply => ?_
  split <;> trivial

theorem deleteFile_neutral (folder filename : String) :
    (deleteFile folder filename).Uses Neutral := by
  refine .bind (uses_send.mpr trivial) fun reply => ?_
  split <;> trivial

theorem bcryptHash_neutral (password : String) : (bcryptHash setup password).Uses Neutral :=
  .bind (uses_send.mpr trivial) fun _ => trivial

theorem logActivity_neutral (userId : Option ℕ) (action subjectType : String)
    (subjectId : Option ℕ) (description : String) (oldData newData : Option Json) :
    (logActivity userId action subjectType subjectId description oldData newData .tx).Uses
      Neutral := by
  simp [logActivity, Neutral, NeutralSql]

theorem slugForName_neutral (id : ℕ) (present sent : Option String) :
    (slugForName setup id present sent).Uses Neutral := by
  unfold slugForName
  split
  · refine .bind (uses_makeUniqueSlug (fun slug => ?_) _) fun _ => trivial
    exact .bind (users_neutral _) fun _ => trivial
  · trivial

theorem hashIfSent_neutral (password : Option String) :
    (hashIfSent setup password).Uses Neutral := by
  unfold hashIfSent
  split
  · exact .bind (bcryptHash_neutral _) fun _ => trivial
  · trivial

theorem findProfile_neutral (userId : ℕ) : (findProfile userId).Uses Neutral := by
  refine .bind (uses_send.mpr trivial) fun readAt => .bind (users_neutral _) fun user => ?_
  split
  · trivial
  · dsimp only
    split
    · exact .bind (uses_pure none) fun _ => .bind (userProfiles_neutral _) fun _ => trivial
    · exact .bind (roles_neutral _) fun _ => .bind (userProfiles_neutral _) fun _ => trivial

theorem getProfile_neutral (userId : ℕ) : (getProfile userId).Uses Neutral := by
  refine .bind (cacheService_neutral _) fun cached => ?_
  split
  · trivial
  · refine .bind (findProfile_neutral userId) fun profile => ?_
    split
    · trivial
    · exact .bind (cacheService_neutral _) fun _ => trivial

theorem upsertDetails_neutral (userId : ℕ) (fields : ProfileFields) :
    (upsertDetails userId fields).Uses Neutral := by
  unfold upsertDetails
  split
  · trivial
  · exact .bind (userProfiles_neutral _) fun _ => completeTx_neutral

/-! ## Operations without an own transaction -/

/-- Neutral requests, and the ends of statements and transactions. -/
def Tame : Request → Prop
  | .sql (.complete _) => True
  | .sql (.logActivity _ _) => True
  | .sql .commit => True
  | .sql .rollback => True
  | r => Neutral r

/-- A thread without uncommitted changes that revokes nothing. -/
structure Resting (t : ℕ) (s : State) : Prop where
  clean : Clean t s
  untagged : Tagged t (fun _ => False) s

theorem Steady.resting : Steady setup traced t (Resting t) :=
  fun s s' hs hs' hmove h =>
    ⟨Steady.clean s s' hs hs' hmove h.clean, Steady.tagged _ s s' hs hs' hmove h.untagged⟩

theorem Neutral.tame {r : Request} (h : Neutral r) : Tame r := by
  unfold Tame
  split <;> trivial

theorem guard_of_tame {s : State} {r : Request} (hr : Tame r) (h : Clean t s) :
    guard setup traced opens t r s := by
  cases r with
  | sql q =>
      cases q with
      | complete db => cases db <;> first | trivial | exact h.mayCommit
      | logActivity db row => cases db <;> first | trivial | exact h.mayCommit
      | commit => exact h.mayCommit
      | rollback => trivial
      | _ => exact guard_of_neutral hr
  | _ => exact guard_of_neutral hr

theorem Resting.exec {s s' : State} {r : Request} {o : Oracle} {reply : r.Reply}
    (h : Resting t s) (hr : Tame r) (hs : s.WellFormed setup traced)
    (hexec : r.exec setup t o s = some (reply, s')) : Resting t s' := by
  have hneutral (hr : Neutral r) : Resting t s' :=
    Steady.resting s s' hs (hs.exec hexec) (.of_neutral hr hexec) h
  have hcommit (d : Db) (hd : d.tags = s.db.tags) : Resting t { s with db := d.commitAll t } :=
    ⟨clean_commitAll, fun x hx => h.untagged x (hd ▸ hx)⟩
  cases r with
  | sql q =>
      cases q with
      | complete db =>
          cases db with
          | prisma => exact exec_complete hexec ▸ hcommit s.db rfl
          | tx => exact hneutral trivial
      | logActivity db row =>
          cases db with
          | prisma =>
              simp only [Request.exec, Option.map_eq_some_iff, Prod.mk.injEq] at hexec
              obtain ⟨⟨reply', d⟩, haudit, -, rfl⟩ := hexec
              simp only [Sql.exec] at haudit
              split at haudit
              · cases haudit
                exact h
              · simp only [Option.map_eq_some_iff, Prod.mk.injEq] at haudit
                obtain ⟨d', haudit, -, rfl⟩ := haudit
                unfold Db.audit at haudit
                split at haudit
                · rename_i heq
                  cases heq
                · split at haudit <;> cases haudit
                  exact hcommit _ rfl
                · rename_i heq
                  cases heq
                · cases haudit
                  exact h
          | tx => exact hneutral trivial
      | commit =>
          cases hexec
          unfold Db.finish
          split
          · exact ⟨clean_abortAll, h.untagged⟩
          · exact hcommit s.db rfl
      | rollback =>
          cases hexec
          exact ⟨clean_abortAll, h.untagged⟩
      | _ => exact hneutral hr
  | _ => exact hneutral hr

theorem meets_tame {α : Type} {p : Service α} (hp : p.Uses Tame) :
    Conforms setup traced opens A t (fun _ => Resting t) (fun _ => Resting t) p (Resting t) :=
  Rules.Meets.of_uses hp Steady.resting.stable fun _ hr =>
    conformance_answers (fun _ _ _ h => guard_of_tame hr h.clean) fun _ _ _ _ hs _ h hexec =>
      h.exec hr hs hexec

/-! ## The operations -/

theorem settled_conforms {α : Type} {p : Service α} (hp : p.Uses Neutral) :
    Conforms setup traced opens A t (fun _ => Settled t) (Outcome t) p (Settled t) :=
  (meets_neutral Steady.settled hp).mono (fun _ => .refl) fun e _ _ h => h.outcome e

theorem fresh_conforms {α : Type} {p : Service α} (hp : p.Uses Neutral) :
    Conforms setup traced opens A t (fun _ => Fresh t) (Outcome t) p (Fresh t) :=
  (meets_neutral Steady.fresh hp).mono (fun _ => .refl) fun e _ _ h => h.outcome e

theorem findRefreshToken_neutral (h : String) : (findRefreshToken h).Uses Neutral := by
  simp [findRefreshToken, refreshTokens, Neutral, NeutralSql]

/-- A new login opens a family. -/
theorem openFamily_conforms (hopens : opens t) (y : String) (m : Time) (userId : ℕ) :
    Conforms setup traced opens A t (fun _ => Settled t) (Outcome t)
      (createRefreshToken .prisma (hashToken setup y) userId none
        (m + setup.env.refreshTokenExpiresDays * 86400000))
      fun s => Fresh t s ∧ (t, y, m) ∈ s.minted := by
  have hdrawn : Steady setup traced t fun s => Fresh t s ∧ (t, y, m) ∈ s.minted :=
    Steady.fresh.and (Lasting.minted _).steady
  have hopen (familyId : ℕ) : Steady setup traced t fun s =>
      (Fresh t s ∧ (t, y, m) ∈ s.minted) ∧ (t, familyId) ∈ s.families :=
    hdrawn.and (Lasting.families _).steady
  have huuid : Conforms setup traced opens A t
      (fun (familyId : ℕ) s => (Fresh t s ∧ (t, y, m) ∈ s.minted) ∧ (t, familyId) ∈ s.families)
      (Outcome t) (request .randomUuid) fun s => Fresh t s ∧ (t, y, m) ∈ s.minted := by
    refine .send hdrawn.stable ?_ fun familyId => (hopen familyId).stable
    refine conformance_answers (fun _ _ _ _ => trivial) fun s o familyId s' hs _ h hexec => ?_
    have hmove : Unmoved setup traced t s s' := .of_neutral (r := .randomUuid) trivial hexec
    refine ⟨hdrawn s s' hs (hs.exec hexec) hmove h, ?_⟩
    simp only [Request.exec] at hexec
    split at hexec <;> cases hexec
    exact .head _
  have hinsert (familyId : ℕ) : Conforms setup traced opens A t
      (fun _ s => Tagged t (fun _ => False) s ∧ MayCommit traced t s) (Outcome t)
      (refreshTokens (.insert
        { token := hashToken setup y, userId, familyId, expiresAt := m + lifetime setup
          rotatedAt := none, successorCiphertext := none }))
      fun s => (Fresh t s ∧ (t, y, m) ∈ s.minted) ∧ (t, familyId) ∈ s.families := by
    refine .send (hopen familyId).stable ?_ fun _ =>
      ((Steady.tagged _).and .mayCommit).stable
    refine conformance_answers (fun s _ _ h => .inl ⟨hopens, h.1.1.clean, h.1.1.silent, y, m,
      h.1.2, h.2, rfl⟩) fun s o j s' _ _ h hexec => ?_
    obtain ⟨T, haccess, rfl⟩ := exec_request hexec
    obtain ⟨rfl, -, rfl⟩ := exec_insert haccess
    refine ⟨h.1.1.untagged, fun i r hi hrotated => ?_, fun _ => .inl fun i hi => ?_⟩
    · rcases Table.write_pending hi with ⟨-, heq⟩ | ⟨-, hi⟩
      · cases heq
        exact (hrotated rfl).elim
      · exact (h.1.1.clean i _ hi).elim
    · rcases Table.write_pending hi with ⟨-, heq⟩ | ⟨-, hi⟩
      · cases heq
      · exact (h.1.1.clean i _ hi).elim
  have hcomplete : Conforms setup traced opens A t (fun _ => Settled t) (Outcome t)
      (statement (.complete .prisma))
      fun s => Tagged t (fun _ => False) s ∧ MayCommit traced t s := by
    refine .send ((Steady.tagged _).and .mayCommit).stable ?_ fun _ => Steady.settled.stable
    refine conformance_answers (fun s _ _ h => h.2) fun s o _ s' _ _ h hexec => ?_
    rw [exec_complete hexec]
    exact ⟨h.1.told, clean_commitAll⟩
  refine .bind huuid fun familyId => .seq (fun _ => Settled t) (.bind (hinsert familyId) fun _ =>
    .bind hcomplete fun _ => ?_) fun _ => ?_ <;> exact .pure Steady.settled.stable .refl

theorem login_conforms (hopens : opens t) (email password : String) :
    Conforms setup traced opens A t (fun _ => Settled t) (Outcome t) (login setup email password)
      (Fresh t) := by
  have herr (e : Error) : Conforms setup traced opens A t (fun _ => Settled t) (Outcome t)
      (throw e : Service AuthTokens) (Fresh t) :=
    .throw (Steady.outcome e).stable fun s _ h => h.outcome e
  refine .bind (fresh_conforms (users_neutral _)) fun found => ?_
  split
  · exact herr _
  · split
    · exact herr _
    · split
      · exact herr _
      · split
        · exact herr _
        · refine .bind (generateToken_conforms 0 Steady.fresh fun _ _ _ =>
            Nat.zero_le _) fun z => .assume fun _ => ?_
          refine .bind (openFamily_conforms hopens z.1 z.2 _) fun _ => ?_
          exact .pure Steady.settled.stable .refl

theorem logout_conforms (token : String) :
    Conforms setup traced opens A t (fun _ => Settled t) (Outcome t) (logout setup token)
      (Fresh t) := by
  refine .bind (fresh_conforms (uses_send.mpr trivial)) fun _ =>
    .bind (fresh_conforms (findRefreshToken_neutral _)) fun found => ?_
  split
  · exact .throw (Steady.outcome _).stable fun s _ h => h.outcome _
  · rename_i id record
    refine .bind (revokeAlone_conforms (w := .family record.userId record.familyId) trivial)
      fun _ => ?_
    exact settled_conforms (.bind (uses_send.mpr trivial) fun _ => trivial)

/-- The revocation of all sessions of a user inside a transaction. -/
theorem revokeUser_conforms (userId : ℕ) :
    Conforms setup traced opens A t (fun _ => Ready traced t) (Outcome t)
      (deleteRefreshTokensByUserId .tx userId) (Fresh t) :=
  revoke_conforms (w := .user userId) trivial

theorem ready_conforms {α : Type} {p : Service α} (hp : p.Uses Neutral) :
    Conforms setup traced opens A t (fun _ => Ready traced t) (Outcome t) p (Ready traced t) :=
  (meets_neutral Steady.ready hp).mono (fun _ => .refl) fun e _ _ h => h.outcome e

theorem resetPassword_conforms (token newPassword : String) :
    Conforms setup traced opens A t (fun _ => Settled t) (Outcome t)
      (resetPassword setup token newPassword) (Fresh t) := by
  have hbody : Conforms setup traced opens A t (fun _ => Ready traced t) (Outcome t)
      (resetPasswordInTransaction setup token newPassword) (Fresh t) := by
    refine .bind (fresh_conforms (passwordResetTokens_neutral _)) fun found => ?_
    split
    · exact .throw (Steady.outcome _).stable fun s _ h => h.outcome _
    · refine .bind (fresh_conforms (uses_send.mpr trivial)) fun now => ?_
      split
      · refine .bind (fresh_conforms (.bind (uses_changeMany passwordResetTokens_neutral
          completeTx _ _) fun _ => trivial)) fun _ => ?_
        exact .pure Steady.ready.stable fun s _ h => h.ready
      · split
        · exact .throw (Steady.outcome _).stable fun s _ h => h.outcome _
        · refine .bind (fresh_conforms (bcryptHash_neutral _)) fun hashed => ?_
          refine .bind (fresh_conforms (uses_changeOne users_neutral completeTx _ _)) fun _ => ?_
          refine .bind (fresh_conforms (uses_send.mpr trivial)) fun usedAt => ?_
          refine .bind (fresh_conforms (.bind (uses_changeOne passwordResetTokens_neutral completeTx
            _ _) fun _ => trivial)) fun _ => ?_
          exact .bind (revokeUser_conforms _) fun _ => .pure Steady.ready.stable .refl
  refine .bind (transaction_conforms Steady.fresh (fun e s h => h.outcome e) hbody) fun value => ?_
  split
  · exact .throw (Steady.outcome _).stable fun s _ h => h.outcome _
  · exact .pure Steady.settled.stable .refl

theorem invalidateAccess_neutral (id : ℕ) :
    (invalidateAccess >>= fun _ => cacheService (.del [.userRole id])).Uses Neutral :=
  .bind (cacheService_neutral _) fun _ => cacheService_neutral _

theorem deleteUser_conforms (slug : String) (deletedBy : Option ℕ) :
    Conforms setup traced opens A t (fun _ => Settled t) (Outcome t) (deleteUser slug deletedBy)
      (Fresh t) := by
  have hbody (id : ℕ) (user : User) : Conforms setup traced opens A t (fun _ => Ready traced t)
      (Outcome t) (deleteUserInTransaction id user deletedBy) (Fresh t) := by
    refine .bind (fresh_conforms (uses_send.mpr trivial)) fun deletedAt => ?_
    refine .bind (fresh_conforms (uses_changeOne users_neutral completeTx _ _)) fun _ => ?_
    exact .bind (revokeUser_conforms id) fun _ => ready_conforms (logActivity_neutral ..)
  have hrest (id : ℕ) (user : User) : Conforms setup traced opens A t
      (fun _ => Settled t) (Outcome t) (transaction (deleteUserInTransaction id user deletedBy) >>= fun _ =>
        invalidateAccess >>= fun _ => cacheService (.del [.userRole id])) (Fresh t) :=
    .bind (transaction_conforms Steady.fresh (fun e _ h => h.outcome e) (hbody id user))
      fun _ => settled_conforms (invalidateAccess_neutral id)
  refine .bind (fresh_conforms (users_neutral _)) fun found => ?_
  split
  · exact .throw (Steady.outcome _).stable fun s _ h => h.outcome _
  · dsimp only
    split
    · exact .bind (fresh_conforms (deleteFile_neutral _ _)) fun _ => hrest _ _
    · exact hrest _ _

theorem updateProfile_conforms (userId : ℕ) (data : UpdateProfileInput) :
    Conforms setup traced opens A t (fun _ => Settled t) (Outcome t)
      (updateProfile setup userId data) (Fresh t) := by
  have hbody (existing : UserProfileData) : Conforms setup traced opens A t
      (fun _ => Ready traced t) (Outcome t)
      (updateProfileInTransaction setup userId existing data) (Fresh t) := by
    refine .bind (fresh_conforms (slugForName_neutral ..)) fun newSlug => ?_
    refine .bind (fresh_conforms (hashIfSent_neutral _)) fun newPassword => ?_
    refine .bind (fresh_conforms (uses_changeOne users_neutral completeTx _ _)) fun updated => ?_
    have htail {p : Service Unit} (hp : p.Uses Neutral) : Conforms setup traced opens A t
        (fun _ => Ready traced t) (Outcome t) (p >>= fun _ => pure updated) (Ready traced t) :=
      ready_conforms (.bind hp fun _ => trivial)
    have hrevoke {rest : Service (ℕ × User)} (hrest : Conforms setup traced opens A t
        (fun _ => Ready traced t) (Outcome t) rest (Ready traced t)) :
        Conforms setup traced opens A t (fun _ => Ready traced t) (Outcome t)
          (if (truthy newPassword).isSome then
            deleteRefreshTokensByUserId .tx userId >>= fun _ => rest else rest) (Fresh t) := by
      split
      · exact .bind (revokeUser_conforms userId) fun _ => hrest
      · exact hrest.weaken fun _ _ h => h.ready
    dsimp only
    split
    · exact .bind (fresh_conforms (upsertDetails_neutral ..)) fun _ =>
        hrevoke (htail (logActivity_neutral ..))
    · exact hrevoke (htail (logActivity_neutral ..))
  have hrest (existing : UserProfileData) : Conforms setup traced opens A t
      (fun _ => Settled t) (Outcome t)
      (transaction (updateProfileInTransaction setup userId existing data) >>= fun updated =>
        cacheService (.del [.profile userId]) >>= fun _ => getProfile updated.1 >>= fun profile =>
          cacheService (.setProfile userId profile) >>= fun _ => pure profile) (Fresh t) := by
    refine .bind (transaction_conforms Steady.fresh (fun e _ h => h.outcome e) (hbody existing))
      fun updated => settled_conforms (.bind (cacheService_neutral _) fun _ => ?_)
    exact .bind (getProfile_neutral _) fun _ => .bind (cacheService_neutral _) fun _ => trivial
  refine .bind (fresh_conforms (findProfile_neutral _)) fun found => ?_
  split
  · exact .throw (Steady.outcome _).stable fun s _ h => h.outcome _
  · dsimp only
    split
    · exact .bind (fresh_conforms (deleteFile_neutral _ _)) fun _ => hrest _
    · exact hrest _

theorem cleanupExpiredTokens_conforms :
    Conforms setup traced opens A t (fun _ => Settled t) (Outcome t) (cleanupExpiredTokens setup)
      (Fresh t) := by
  have hnow : Conforms setup traced opens A t (fun (now : Time) => MaySweep traced t now)
      (Outcome t) (request .now) (Fresh t) := by
    refine .send Steady.fresh.stable ?_ fun now => (Steady.maySweep now).stable
    refine conformance_answers (fun _ _ _ _ => trivial) fun s o now s' _ _ h hexec => ?_
    cases hexec
    exact ⟨h.clean, h.untagged, fun _ => Nat.le_refl _⟩
  have htame {α : Type} {p : Service α} (hp : p.Uses Tame) :
      Conforms setup traced opens A t (fun _ => Resting t) (Outcome t) p (Resting t) :=
    (meets_tame hp).mono (fun _ => .refl) fun e s _ h => .inr (.inr h.untagged.told)
  have hneutral {α : Type} {p : Service α} (hp : p.Uses Neutral) : p.Uses Tame :=
    hp.mono fun _ => Neutral.tame
  refine .bind hnow fun now => .bind (deleteExpiredRefreshTokens_conforms now 1000 100) fun _ => ?_
  refine .seq (fun _ => Resting t) ((htame (uses_changeMany (fun a => hneutral
    (emailVerificationTokens_neutral a)) trivial _ _)).weaken fun s _ h =>
      ⟨h.clean, h.untagged⟩) fun _ => ?_
  refine .bind (htame (uses_changeMany (fun a => hneutral (passwordResetTokens_neutral a))
    trivial _ _)) fun _ => ?_
  refine .bind (htame (uses_deleteBatches (fun a => hneutral (emailOtps_neutral a))
    trivial _ _ _ _ _ _)) fun _ => ?_
  exact .pure Steady.settled.stable fun s _ h => ⟨h.untagged.told, h.clean⟩

end ExpressCore.Session
