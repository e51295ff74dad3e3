import ExpressCore.Library.Replies
import ExpressCore.Verification.Session.Runs

/-! # What an operation revokes

Which family or which user an operation revokes depends on a row it reads. An operation that
has returned has been told of a pass over it that deleted nothing. -/

namespace ExpressCore.Session

open ReadCommitted Interleaving Interleaving.Program

variable (setup : Setup)

/-- The lookup of a presented refresh token. -/
def lookup (token : String) : Request :=
  .sql (.refreshTokens (.find (.token (hashToken setup token))))

/-- A rotated token that is presented, at `now`, after the grace period is over. -/
def Reused (now : Time) (record : RefreshToken) : Prop :=
  now < record.expiresAt ∧
    ∃ rotatedAt, record.rotatedAt = some rotatedAt ∧
      rotatedAt + setup.env.refreshGraceSeconds * 1000 < now

variable (told : (request : Request) → request.Reply → Prop)

/-- The condition of the revocation of an operation, by the rows it has been told of. -/
inductive Operation.Targets : Operation → RefreshTokenWhere → Prop where
  | logout {token : String} {i : ℕ} {record : RefreshToken} :
      told (lookup setup token) (some (i, record)) →
      Targets (.logout token) (.family record.userId record.familyId)
  | reuse {token : String} {now : Time} {i : ℕ} {record : RefreshToken} :
      told .now now → told (lookup setup token) (some (i, record)) → Reused setup now record →
      Targets (.refreshAccessToken token) (.family record.userId record.familyId)
  | resetPassword {token newPassword : String} {i : ℕ} {record : PasswordResetToken} :
      told (.sql (.passwordResetTokens (.find (.token token)))) (some (i, record)) →
      Targets (.resetPassword token newPassword) (.user record.userId)
  | deleteUser {slug : String} {deletedBy : Option ℕ} {id : ℕ} {user : User} :
      told (.sql (.users (.find (.slug slug none)))) (some (id, user)) →
      Targets (.deleteUser slug deletedBy) (.user id)
  | updateProfile {userId : ℕ} {data : UpdateProfileInput} :
      Targets (.updateProfile userId data) (.user userId)

/-- The operations that end normally only after a revocation. An own profile is one when a new
password is sent; the hash of a password is not empty. -/
def Operation.Revoking : Operation → Prop
  | .logout _ => True
  | .resetPassword _ _ => True
  | .deleteUser _ _ => True
  | .updateProfile _ data => ∃ password, truthy data.password = some password ∧
      ∀ salt, setup.crypto.bcryptHash password salt ≠ ""
  | _ => False

/-- Every lookup of the presented token finds it reused. -/
def AlwaysReused (token : String) : Prop :=
  token ≠ "" ∧ ∀ now found, told .now now → told (lookup setup token) found →
    ∃ i record, found = some (i, record) ∧ Reused setup now record

/-- Some target of the operation had a pass that deleted nothing. -/
def Operation.Emptied (operation : Operation) : Prop :=
  ∃ w db, operation.Targets setup told w ∧ told (.sql (.deleted db w 0)) ()

variable {setup told} {α : Type} {err : Error → Prop}

/-! ## The revocation -/

theorem visitAll_learns {w : RefreshTokenWhere} {c : RefreshTokenChange}
    (rows : List (ℕ × RefreshToken)) :
    (visitAll refreshTokens w c rows).Learns told (fun _ => True) err := by
  induction rows with
  | nil => exact trivial
  | cons x rest ih =>
      exact .send_bind fun reply _ => .bind ih fun others _ => .ret trivial

theorem deleteRefreshTokens_learns {db : Client} {w : RefreshTokenWhere} :
    (deleteRefreshTokens db w).Learns told (fun count => told (.sql (.deleted db w count)) ())
      err :=
  .send_bind fun rows _ => .bind (visitAll_learns rows) fun _ _ => .send_bind fun _ h => .ret h

theorem revocationPasses_learns {db : Client} {w : RefreshTokenWhere}
    (hdiverged : err (.error "Refresh-token revocation did not converge")) (removed passes : ℕ) :
    (revocationPasses db w removed passes).Learns told
      (fun _ => told (.sql (.deleted db w 0)) ()) err := by
  induction passes generalizing removed with
  | zero => exact .throw hdiverged
  | succ passes ih =>
      refine .bind deleteRefreshTokens_learns fun count hcount => ?_
      split
      · rename_i hzero
        exact .ret (hzero ▸ hcount)
      · exact ih (removed + count)

/-- A revocation that returns has been told of a pass that deleted nothing. -/
theorem revokeRefreshTokens_learns {db : Client} {w : RefreshTokenWhere}
    (hdiverged : err (.error "Refresh-token revocation did not converge")) :
    (revokeRefreshTokens db w).Learns told (fun _ => told (.sql (.deleted db w 0)) ()) err :=
  revocationPasses_learns hdiverged 0 MAX_REVOCATION_PASSES

theorem transaction_learns {body : Service α} {post : α → Prop} (h : body.Learns told post err) :
    (transaction body).Learns told post err := by
  have hcaught : (body.handle fun error => do
      statement .rollback
      throw error).Learns told post err :=
    h.handle fun error herror => .send_bind fun _ _ => .throw herror
  exact .send_bind fun _ _ => .bind hcaught fun value hvalue =>
    .send_bind fun _ _ => .ret hvalue

/-! ## The operations -/

theorem logout_learns (token : String) :
    (logout setup token).Learns told
      (fun _ => (Operation.logout token).Emptied setup told) fun _ => True := by
  refine .send_bind fun _ _ => .send_bind fun found hfound => ?_
  split
  · exact .throw trivial
  · rename_i i record
    refine .bind (revokeRefreshTokens_learns trivial) fun _ hempty => .skip fun _ => .ret ?_
    exact ⟨_, _, .logout hfound, hempty⟩

theorem resetPassword_learns (token newPassword : String) :
    (resetPassword setup token newPassword).Learns told
      (fun _ => (Operation.resetPassword token newPassword).Emptied setup told)
      fun _ => True := by
  have hbody : (resetPasswordInTransaction setup token newPassword).Learns told
      (fun value => value.isSome → (Operation.resetPassword token newPassword).Emptied setup told)
      fun _ => True := by
    refine .send_bind fun found hfound => ?_
    split
    · exact .throw trivial
    · rename_i i record
      refine .skip fun now => ?_
      split
      · exact .skip fun _ => .ret (by simp)
      · split
        · exact .throw trivial
        · refine .skip fun _ => .skip fun _ => .skip fun _ => .skip fun _ => ?_
          refine .bind (revokeRefreshTokens_learns trivial) fun _ hempty => .ret fun _ => ?_
          exact ⟨_, _, .resetPassword hfound, hempty⟩
  refine .bind (transaction_learns hbody) fun value hvalue => ?_
  split
  · exact .throw trivial
  · exact .ret (hvalue rfl)

theorem deleteUser_learns (slug : String) (deletedBy : Option ℕ) :
    (deleteUser slug deletedBy).Learns told
      (fun _ => (Operation.deleteUser slug deletedBy).Emptied setup told) fun _ => True := by
  have hbody (id : ℕ) (user : User) : (deleteUserInTransaction id user deletedBy).Learns told
      (fun _ => told (.sql (.deleted .tx (.user id) 0)) ()) fun _ => True := by
    refine .skip fun _ => .skip fun _ => ?_
    exact .bind (revokeRefreshTokens_learns trivial) fun _ hempty =>
      .of_forall (fun _ => hempty) (fun _ => trivial) _
  refine .send_bind fun found hfound => ?_
  split
  · exact .throw trivial
  · rename_i id user
    have hrest : (transaction (deleteUserInTransaction id user deletedBy) >>= fun _ =>
        invalidateAccess >>= fun _ => cacheService (.del [.userRole id])).Learns told
          (fun _ => (Operation.deleteUser slug deletedBy).Emptied setup told) fun _ => True :=
      .bind (transaction_learns (hbody id user)) fun _ hempty =>
        .of_forall (fun _ => ⟨_, _, .deleteUser hfound, hempty⟩) (fun _ => trivial) _
    dsimp only
    split
    · exact .skip fun _ => hrest
    · exact hrest

theorem hashIfSent_learns {password : Option String} {sent : String}
    (hsent : truthy password = some sent)
    (hhash : ∀ salt, setup.crypto.bcryptHash sent salt ≠ "") :
    (hashIfSent setup password).Learns told (fun hashed => (truthy hashed).isSome) err := by
  have hhashed : (bcryptHash setup sent).Learns told (fun hashed => hashed ≠ "") err :=
    .send_bind fun salt _ => .ret (hhash salt)
  unfold hashIfSent
  rw [hsent]
  exact hhashed.bind fun hashed hne => .ret (by simp [truthy, hne])

theorem updateProfile_learns (userId : ℕ) (data : UpdateProfileInput)
    (h : (Operation.updateProfile userId data).Revoking setup) :
    (updateProfile setup userId data).Learns told
      (fun _ => (Operation.updateProfile userId data).Emptied setup told) fun _ => True := by
  obtain ⟨sent, hsent, hhash⟩ := h
  have hbody (existing : UserProfileData) :
      (updateProfileInTransaction setup userId existing data).Learns told
        (fun _ => told (.sql (.deleted .tx (.user userId) 0)) ()) fun _ => True := by
    refine .skip fun newSlug => .bind (hashIfSent_learns hsent hhash) fun newPassword hnew =>
      .skip fun updated => ?_
    dsimp only
    rw [if_pos hnew]
    have hrevoke {rest : Service (ℕ × User)} :
        (deleteRefreshTokensByUserId .tx userId >>= fun _ => rest).Learns told
          (fun _ => told (.sql (.deleted .tx (.user userId) 0)) ()) fun _ => True :=
      .bind (revokeRefreshTokens_learns trivial) fun _ hempty =>
        .of_forall (fun _ => hempty) (fun _ => trivial) rest
    split
    · exact .skip fun _ => hrevoke
    · exact hrevoke
  have hrest (existing : UserProfileData) :
      (transaction (updateProfileInTransaction setup userId existing data) >>= fun updated =>
        cacheService (.del [.profile userId]) >>= fun _ => getProfile updated.1 >>= fun profile =>
          cacheService (.setProfile userId profile) >>= fun _ => pure profile).Learns told
            (fun _ => (Operation.updateProfile userId data).Emptied setup told) fun _ => True :=
    .bind (transaction_learns (hbody existing)) fun _ hempty =>
      .of_forall (fun _ => ⟨_, _, .updateProfile, hempty⟩) (fun _ => trivial) _
  refine .skip fun found => ?_
  split
  · exact .throw trivial
  · dsimp only
    split
    · exact .skip fun _ => hrest _
    · exact hrest _

/-- The reuse branch of a rotation. Its result is an error that other rotations end with too. -/
theorem refreshAccessToken_learns {token : String} (h : AlwaysReused setup told token)
    (hdiverged : err (.error "Refresh-token revocation did not converge"))
    (herr : (Operation.refreshAccessToken token).Emptied setup told → ∀ e, err e) :
    (refreshAccessToken setup token).Learns told
      (fun _ => (Operation.refreshAccessToken token).Emptied setup told) err := by
  obtain ⟨hsent, hreused⟩ := h
  have hbody : (rotateRefreshToken setup token).Learns told
      (fun _ => (Operation.refreshAccessToken token).Emptied setup told) err := by
    refine .send_bind fun now hnow => .send_bind fun found hfound => ?_
    obtain ⟨i, record, rfl, hrecord⟩ := hreused now found hnow hfound
    obtain ⟨hunexpired, rotatedAt, hrotated, hgrace⟩ := hrecord
    dsimp only
    rw [if_neg (Nat.not_le_of_lt hunexpired), hrotated]
    dsimp only
    unfold reuseOrSuccessor
    rw [if_pos hgrace]
    refine .bind (revokeRefreshTokens_learns hdiverged) fun _ hempty => .ret ?_
    exact ⟨_, _, .reuse hnow hfound ⟨hunexpired, rotatedAt, hrotated, hgrace⟩, hempty⟩
  unfold refreshAccessToken
  rw [if_neg hsent]
  exact .send_bind fun _ _ => .bind (transaction_learns hbody) fun outcome hempty =>
    .of_forall (fun _ => hempty) (herr hempty) _

theorem Operation.learns {operation : Operation} (h : operation.Revoking setup) :
    (operation.run setup).Learns told (fun _ => operation.Emptied setup told) fun _ => True := by
  cases operation with
  | logout token => exact logout_learns token
  | resetPassword token newPassword => exact resetPassword_learns token newPassword
  | deleteUser slug deletedBy => exact deleteUser_learns slug deletedBy
  | updateProfile userId data =>
      exact (updateProfile_learns userId data h).bind fun _ hempty => .ret hempty
  | _ => exact h.elim

/-! ## The passes on record -/

variable {A : Assumption ℕ Request State} {operation : ℕ → Operation} {t : ℕ} {s : State}
  {c c' : Config ℕ Error Request Request.Reply State Unit}

/-- The ends of DELETEs stay on record. -/
theorem tags_of_reaches (h : (system setup).Reaches A c c') {x : ℕ × RefreshTokenWhere × ℕ}
    (hx : x ∈ c.shared.db.tags) : x ∈ c'.shared.db.tags := by
  induction h with
  | refl => exact hx
  | step l _ hstep _ ih =>
      rcases (system setup).step_cases hstep with
        ⟨u, o, request, next, reply, s, -, -, hexec, rfl⟩ | ⟨u, request, next, -, -, rfl⟩ |
        ⟨o, s, -, hmove, rfl⟩
      · obtain ⟨new, heq, -⟩ := (State.Moves.exec hexec).db.tags
        exact heq ▸ List.mem_append_right new ih
      · exact ih
      · exact (move_exec hmove).1 ▸ ih

theorem tag_of_told {db : Client} {w : RefreshTokenWhere} {count : ℕ}
    (h : (system setup).Told A c c' t (.sql (.deleted db w count)) ()) :
    (t, w, count) ∈ c'.shared.db.tags := by
  obtain ⟨s, d, e, o, next, -, rfl, -, hanswer, -, hrest⟩ := h
  have hexec : (Request.sql (.deleted db w count)).exec setup t o d.shared =
    some ((), e.shared) := hanswer
  refine tags_of_reaches hrest ?_
  rw [exec_deleted hexec]
  cases db <;> exact .head _

/-- An operation whose target was emptied has a pass that deleted nothing on record. -/
theorem Operation.Emptied.tag {operation : Operation}
    (h : operation.Emptied setup ((system setup).Told A c c' t)) :
    ∃ w, operation.Targets setup ((system setup).Told A c c' t) w ∧
      (t, w, 0) ∈ c'.shared.db.tags := by
  obtain ⟨w, db, htargets, hempty⟩ := h
  exact ⟨w, htargets, tag_of_told hempty⟩

theorem Operation.Targets.revokes {told : (request : Request) → request.Reply → Prop}
    {operation : Operation} {w : RefreshTokenWhere} (h : operation.Targets setup told w) :
    Revokes w := by
  cases h <;> trivial

/-! ## The end of a rotation -/

/-- The operation of a thread has ended, was not lost and did not give up. -/
def Finished (t : ℕ) (c : Config ℕ Error Request Request.Reply State Unit) : Prop :=
  c.thread t = .ret () ∨ ∃ e, c.thread t = .fail e ∧ e ≠ .lost ∧
    e ≠ .error "Refresh-token revocation did not converge"

/-- A rotation whose reuse branch was taken. -/
theorem reuse_emptied {operation : ℕ → Operation} {token : String}
    {c : Config ℕ Error Request Request.Reply State Unit}
    (hoperation : operation t = .refreshAccessToken token)
    (hreused : AlwaysReused setup ((system setup).Told A (launch setup operation s) c t) token)
    (hrun : (system setup).Reaches A (launch setup operation s) c) (hended : Finished t c) :
    (Operation.refreshAccessToken token).Emptied setup
      ((system setup).Told A (launch setup operation s) c t) := by
  let err (e : Error) : Prop :=
    e = .lost ∨ e = .error "Refresh-token revocation did not converge" ∨
      (Operation.refreshAccessToken token).Emptied setup
        ((system setup).Told A (launch setup operation s) c t)
  have hlearns : ((launch setup operation s).thread t).Learns
      ((system setup).Told A (launch setup operation s) c t)
      (fun _ => (Operation.refreshAccessToken token).Emptied setup
        ((system setup).Told A (launch setup operation s) c t)) err := by
    simp only [launch, hoperation]
    exact (refreshAccessToken_learns hreused (.inr (.inl rfl)) fun h _ => .inr (.inr h)).bind
      fun _ hempty => .ret hempty
  have hlearnt := hrun.learns (.inl rfl) hlearns
  rcases hended with hret | ⟨e, hfail, hlost, hdiverged⟩
  · rw [hret] at hlearnt
    exact hlearnt
  · rw [hfail] at hlearnt
    exact (hlearnt.resolve_left hlost).resolve_left hdiverged

end ExpressCore.Session
