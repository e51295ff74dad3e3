import ExpressCore.Verification.Retention.Spared
import ExpressCore.Verification.System.Calls
import ExpressCore.Verification.System.Start

/-! # Runs of the cleanup with its consumers -/

namespace ExpressCore.Retention

open ReadCommitted Interleaving Interleaving.Program

variable {setup : Setup} {calls : ℕ → Call} {start : ℕ → Time} {t : ℕ} {s s' : State}
  {err : Error → State → Prop}

abbrev rules (setup : Setup) (calls : ℕ → Call) (start : ℕ → Time) : Rules ℕ State :=
  keeping setup False (prudent calls start) (sparing setup calls start)

/-! ## Requests that keep to the discipline in every state -/

theorem lets_unrelated {r : Request} (h : ∀ k, Cleaned k → r.table? ≠ some k) :
    (sparing setup calls start).Lets t r :=
  Discipline.lets_skips (fun _ => trivial) (fun _ _ => trivial)
    fun k hk => Request.skips_of_table (h k hk)

theorem lets_outside {r : Request} (h : r.table? = none) :
    (sparing setup calls start).Lets t r := lets_unrelated fun k _ => by simp [h]

/-- A program that keeps to the discipline in every state. -/
theorem lets_meets {α : Type} {p : Service α} {P : State → Prop}
    (hp : p.Uses ((sparing setup calls start).Lets t)) :
    (rules setup calls start).Meets (system setup) (prudent calls start) t (fun _ _ => True)
      (fun _ _ => True) p P := (meets_lets hp).weaken fun _ _ _ => trivial

/-! ## The cleanup -/

section Cleanup

variable (hcall : calls t = .cleanup)

include hcall

theorem lets_removal {k : TableName} {i : ℕ} {w : k.Where} {c : k.Change}
    (h : ∀ s, Removes setup (start t) t s k (.visit i w c)) :
    (sparing setup calls start).Lets t (.sql (k.sql (.visit i w c))) :=
  Discipline.lets_access fun _ _ s => ⟨fun _ => h s, fun hne => (hne hcall).elim⟩

/-- The sessions that a scan found: their rows keep the expiry. -/
def Expired (start : Time) (rows : List (ℕ × RefreshToken)) (s : State) : Prop :=
  ∀ x ∈ rows, Identified .refreshTokens x.1 x.2 s ∧ x.2.expiresAt < start

omit hcall in
theorem expired_stable (now : Time) (rows : List (ℕ × RefreshToken)) :
    (rules setup calls start).Stable t (Expired now rows) :=
  Firm.stable (K := fun _ => True)
    (.forall fun _ => .imp fun _ => (Firm.identified _ _ _).and (.const _))

theorem deleteExpiredRefreshTokens_meets (batchSize maxBatches : ℕ) :
    (rules setup calls start).Meets (system setup) (prudent calls start) t (fun _ _ => True)
      (fun _ _ => True) (deleteExpiredRefreshTokens (start t) batchSize maxBatches)
      fun _ => True := by
  refine batches_meets (F := Expired (start t)) (expired_stable _) ?_ (fun rows ids i hids => ?_)
    (lets_meets (uses_send.mpr (lets_outside rfl))) _ _
  · refine send_meets (k := .refreshTokens) (.const True) (expired_stable _)
      (fun _ _ _ _ _ hwrites => hwrites.elim) fun s o rows s' _ hs' _ _ _ h x hx => ?_
    obtain ⟨htable, hrows⟩ := exec_scan h.exec
    obtain ⟨hview, hw⟩ := (hrows x).mp hx
    have hversion : (TableName.table .refreshTokens s'.db).Version x.1 x.2 :=
      htable ▸ version_of_view hview
    exact ⟨⟨mem_ids_of_version hversion, fun r' hr' =>
      hs'.coherent .refreshTokens x.1 x.2 r' (.inl hversion) (.inl hr')⟩, of_decide_eq_true hw⟩
  · refine send_meets (k := .refreshTokens) (expired_stable _ _) (fun _ => expired_stable _ _)
      (fun s _ _ h _ _ => ⟨fun _ j hj => ?_, fun hne => (hne hcall).elim⟩)
      fun s o _ s' hs hs' _ h hothers _ x hx => ?_
    · obtain ⟨r, hr⟩ := hids j hj
      exact ⟨r, h (j, r) hr⟩
    · exact ⟨Firm.identified _ _ _ s s' hs hs' hothers (h x hx).1, (h x hx).2⟩

/-- The codes that a scan found, as it found them. -/
def Selected (before : Time) (rows : List (ℕ × EmailOtp)) (view : ℕ → Option EmailOtp) : Prop :=
  ∀ x ∈ rows, view x.1 = some x.2 ∧ x.2.expiresAt < before

theorem deleteExpiredOtps_meets (batchSize maxBatches : ℕ) :
    (rules setup calls start).Meets (system setup) (prudent calls start) t (fun _ _ => True)
      (fun _ _ => True)
      (deleteExpiredOtps (start t - setup.env.otpVerifiedWindowMinutes * 60000) batchSize
        maxBatches) fun _ => True := by
  let before : Time := start t - setup.env.otpVerifiedWindowMinutes * 60000
  refine batches_meets (F := fun rows => Saw .emailOtps t (Selected before rows))
    (fun _ => saw_stable) ?_ (fun rows ids i hids => ?_)
    (lets_meets (uses_send.mpr (lets_outside rfl))) _ _
  · refine (meets_scan (k := .emailOtps) (P := fun _ => True) (Selected before)
      fun s rows _ _ hrows x hx => ?_).weaken fun _ _ _ => trivial
    obtain ⟨hview, hw⟩ := (hrows x).mp hx
    exact ⟨hview, of_decide_eq_true hw⟩
  · refine send_meets (k := .emailOtps) saw_stable (fun _ => saw_stable)
      (fun s _ _ h _ _ => ⟨fun _ j hj => ?_, fun hne => (hne hcall).elim⟩)
      fun s o _ s' _ _ _ h _ haccess => ?_
    · obtain ⟨r, hr⟩ := hids j hj
      exact ⟨r, h (j, r) hr⟩
    · unfold Saw
      rw [exec_snapshot haccess.exec trivial]
      exact h

theorem cleanupExpiredTokens_meets :
    (rules setup calls start).Meets (system setup) (prudent calls start) t (fun _ _ => True)
      (fun _ _ => True) (cleanupExpiredTokens setup) fun _ => True := by
  unfold cleanupExpiredTokens
  refine .seq (fun now _ => now = start t) (.send (.const True) (keeping_answers
    (fun s _ _ _ => lets_outside (r := .now) rfl s) fun s o now s' _ hA _ hexec => ?_)
    fun _ => .const _) fun now => ?_
  · obtain ⟨rfl, -⟩ := Prod.mk.inj (Option.some.inj hexec)
    exact hA.1 rfl hcall
  refine .under (fun _ => now = start t ∧ True) ?_ fun _ _ h => ⟨h, trivial⟩
  refine .assume fun hnow => ?_
  subst hnow
  have hcomplete : (sparing setup calls start).Lets t (.sql (.complete .prisma)) := lets_outside rfl
  refine .bind (deleteExpiredRefreshTokens_meets hcall _ _) fun _ => .bind (lets_meets
    (uses_change (uses_send.mpr ?_) (fun i => uses_send.mpr ?_) hcomplete)) fun _ =>
      .bind (lets_meets (uses_change (uses_send.mpr ?_) (fun i => uses_send.mpr ?_) hcomplete))
      fun _ =>
        .bind (deleteExpiredOtps_meets hcall _ _) fun _ => .pure (.const True) fun _ _ _ => trivial
  · exact Discipline.lets_read (k := .emailVerificationTokens) (a := .scan _) not_false
  · exact lets_removal (k := .emailVerificationTokens) hcall fun _ => rfl
  · exact Discipline.lets_read (k := .passwordResetTokens) (a := .scan _) not_false
  · exact lets_removal (k := .passwordResetTokens) hcall fun _ => rfl

end Cleanup

/-! ## The consumers -/

section Consumers

variable {allowed : Request → Prop} (hother : ∀ r : Request, r.table? ≠ some .emailOtps → allowed r)

include hother

private theorem uses_tx {α : Type} {body : Service α} (hbody : body.Uses allowed) :
    (transaction body).Uses allowed :=
  uses_transaction (hother _ nofun) (hother _ nofun) (hother _ nofun) hbody

private theorem uses_changeUsers (w : UserWhere) (c : UserChange) :
    (changeOne users .tx w c).Uses allowed := by
  have husers (a) : (users a).Uses allowed := uses_send.mpr (hother _ nofun)
  exact uses_changeOne husers (hother _ nofun) w c

private theorem uses_mail (jobName : String) (payload : InputJsonValue) :
    (enqueue EMAIL jobName payload).Uses allowed :=
  uses_enqueue (hother _ nofun) (fun _ => uses_send.mpr (hother _ nofun)) (hother _ nofun) _ _ _

theorem uses_latestSuccessor (now : Time) (token : String) (current : RefreshToken) (hops : ℕ) :
    (latestSuccessor setup now token current hops).Uses allowed := by
  induction hops generalizing token current with
  | zero => trivial
  | succ hops ih =>
      unfold latestSuccessor
      split
      · trivial
      · refine .bind (uses_send.mpr (hother _ nofun)) fun found => ?_
        split
        · trivial
        · split
          · trivial
          · split
            · trivial
            · exact ih _ _

theorem uses_reuseOrSuccessor (now : Time) (token : String) (record : RefreshToken)
    (rotatedAt : Time) : (reuseOrSuccessor setup now token record rotatedAt).Uses allowed := by
  unfold reuseOrSuccessor
  split
  · exact .bind (uses_revokeRefreshTokens (fun _ => uses_send.mpr (hother _ nofun)) _
      fun _ => hother _ nofun) fun _ => trivial
  · exact uses_latestSuccessor hother _ _ _ _

theorem uses_claimSuccessor (now : Time) (token : String) (id : ℕ) (record : RefreshToken) :
    (claimSuccessor setup now token id record).Uses allowed := by
  have hrefresh (a) : (refreshTokens a).Uses allowed := uses_send.mpr (hother _ nofun)
  unfold claimSuccessor
  refine .bind (uses_send.mpr (hother _ nofun)) fun successor => .bind
    (.bind (uses_send.mpr (hother _ nofun)) fun _ => uses_pure _) fun ciphertext => .bind
      (.bind (uses_changeMany hrefresh (hother _ nofun) _ _) fun _ => uses_pure _) fun claimed => ?_
  split
  · refine .bind (.bind ?_ fun family => .bind (uses_create (hrefresh _) (hother _ nofun))
      fun _ => uses_pure _) fun _ => uses_pure _
    exact uses_pure _
  · refine .bind (hrefresh _) fun found => ?_
    split
    · trivial
    · split
      · trivial
      · exact uses_reuseOrSuccessor hother _ _ _ _

theorem uses_refreshAccessToken (token : String) :
    (refreshAccessToken setup token).Uses allowed := by
  have hrefresh (a) : (refreshTokens a).Uses allowed := uses_send.mpr (hother _ nofun)
  have hrotate : (rotateRefreshToken setup token).Uses allowed := by
    refine .bind (uses_send.mpr (hother _ nofun)) fun now => .bind (hrefresh _) fun found => ?_
    split
    · trivial
    · split
      · exact .bind (uses_deleteRefreshTokens hrefresh _ fun _ => hother _ nofun) fun _ => trivial
      · split
        · exact uses_claimSuccessor hother _ _ _ _
        · exact uses_reuseOrSuccessor hother _ _ _ _
  unfold refreshAccessToken
  split
  · trivial
  · refine .bind (uses_send.mpr (hother _ nofun)) fun _ => .bind (uses_tx hother hrotate)
      fun outcome => ?_
    split <;> trivial

theorem uses_verifyEmail (token : String) : (verifyEmail token).Uses allowed := by
  have htokens (a) : (emailVerificationTokens a).Uses allowed :=
    uses_send.mpr (hother _ (by simp [Request.table?]))
  have houtside (r : Request) (hr : r.table? = none) : allowed r := hother r (by simp [hr])
  have hbody : (verifyEmailInTransaction token).Uses allowed := by
    refine .bind (htokens _) fun found => ?_
    split
    · trivial
    · refine .bind (uses_send.mpr (houtside _ rfl)) fun now => ?_
      split
      · exact .bind (uses_changeMany htokens (houtside _ rfl) _ _) fun _ => trivial
      · exact .bind (uses_changeUsers hother _ _) fun _ =>
          .bind (uses_changeOne htokens (houtside _ rfl) _ _) fun _ =>
            .bind (uses_mail hother _ _) fun _ => trivial
  refine .bind (uses_tx hother hbody) fun user => ?_
  split <;> trivial

theorem uses_resetPassword (token newPassword : String) :
    (resetPassword setup token newPassword).Uses allowed := by
  have htokens (a) : (passwordResetTokens a).Uses allowed := uses_send.mpr (hother _ nofun)
  have hbody : (resetPasswordInTransaction setup token newPassword).Uses allowed := by
    refine .bind (htokens _) fun found => ?_
    split
    · trivial
    · refine .bind (uses_send.mpr (hother _ nofun)) fun now => ?_
      split
      · exact .bind (.bind (uses_changeMany htokens (hother _ nofun) _ _) fun _ => uses_pure _)
          fun _ => trivial
      · split
        · trivial
        · exact .bind (uses_bcryptHash (hother _ nofun) _) fun _ =>
            .bind (uses_changeUsers hother _ _) fun _ =>
              .bind (uses_send.mpr (hother _ nofun)) fun _ =>
                .bind (.bind (uses_changeOne htokens (hother _ nofun) _ _) fun _ => uses_pure _)
                  fun _ => .bind (uses_revokeRefreshTokens
                    (fun _ => uses_send.mpr (hother _ nofun)) _ fun _ => hother _ nofun)
                      fun _ => trivial
  refine .bind (uses_tx hother hbody) fun userId => ?_
  split <;> trivial

theorem uses_sendCode (hissue : ∀ email codeHash sentAt expiresAt issuance guard,
      allowed (.sql (.emailOtps (.upsert (.email email)
        { email, codeHash, attempts := 0, sentAt, expiresAt, verifiedAt := none, consumedAt := none
          issuance } guard (.reissue codeHash sentAt expiresAt issuance)))))
    (rawEmail : String) : (sendCode setup rawEmail).Uses allowed := by
  have houtside (r : Request) (hr : r.table? = none) : allowed r := hother r (by simp [hr])
  unfold sendCode
  refine .bind (.bind (uses_send.mpr (hother _ (by simp [Request.table?]))) fun _ => uses_pure _)
    fun user => ?_
  split
  · trivial
  refine .bind (uses_send.mpr (houtside _ rfl)) fun code => .bind (uses_tx hother (.bind
    (.bind (uses_send.mpr (houtside _ rfl)) fun now => .bind (uses_send.mpr (hissue _ _ _ _ _ _))
      fun _ => .bind (uses_send.mpr (houtside _ rfl)) fun _ => uses_pure _) fun fresh => ?_))
    fun issued => ?_
  · split
    · exact .bind (uses_mail hother _ _) fun _ => uses_pure _
    · trivial
  · split <;> trivial

theorem uses_verifyCode
    (hread : ∀ w, allowed (.sql (.emailOtps (.scan w))) ∧ allowed (.sql (.emailOtps (.find w))))
    (hattempt : ∀ i w, allowed (.sql (.emailOtps (.visit i w .attempt))))
    (hverify : ∀ i j verifiedAt,
      allowed (.sql (.emailOtps (.visit i (.unverified j) (.verify verifiedAt)))))
    (rawEmail code : String) : (verifyCode setup rawEmail code).Uses allowed := by
  have hcomplete : allowed (.sql (.complete .prisma)) := hother _ nofun
  have hfind (w) : (emailOtps (.find w)).Uses allowed := uses_send.mpr (hread w).2
  have hmark (id : ℕ) : (markVerified id).Uses allowed :=
    .bind (uses_send.mpr (hother _ nofun)) fun now => .bind (uses_change (uses_send.mpr (hread _).1)
      (fun i => uses_send.mpr (hverify i _ _)) hcomplete) fun _ =>
        .bind (hfind _) fun _ => uses_pure _
  unfold verifyCode
  refine .bind (.bind (uses_send.mpr (hother _ nofun)) fun now => .bind (uses_change
    (uses_send.mpr (hread _).1) (fun i => uses_send.mpr (hattempt i _)) hcomplete)
      fun _ => uses_pure _) fun attempt => ?_
  split
  · refine .bind (hfind _) fun row => .bind (uses_send.mpr (hother _ nofun)) fun now => ?_
    split <;> trivial
  · refine .bind (uses_send.mpr (hother _ nofun)) fun _ => ?_
    split
    · trivial
    · dsimp only
      split
      on_goal 1 => refine .bind (uses_pure _) fun verifiedAt => ?_
      on_goal 2 => refine .bind (hmark _) fun verifiedAt => ?_
      all_goals
        split
        · trivial
        · exact .bind (uses_send.mpr (hother _ nofun)) fun _ => trivial

end Consumers

section Discipline

variable (hcall : calls t ≠ .cleanup)

include hcall

theorem lets_elsewhere (r : Request) (hr : r.table? ≠ some .emailOtps) :
    (sparing setup calls start).Lets t r := by
  refine fun s => ⟨fun k a hsql _ _ => ⟨fun h => (hcall h).elim, fun _ => ?_⟩,
    fun _ _ _ => trivial, fun _ => trivial⟩
  cases k with
  | emailOtps => exact (hr (hsql ▸ rfl)).elim
  | _ => trivial

theorem lets_code {a : Access ℕ EmailOtp EmailOtpWhere EmailOtpChange}
    (h : a.Writes → Changes .emailOtps a) :
    (sparing setup calls start).Lets t (.sql (.emailOtps a)) :=
  Discipline.lets_access (k := .emailOtps) (a := a)
    fun _ hwrites _ => ⟨fun h => (hcall h).elim, fun _ => h hwrites⟩

theorem consumer_lets :
    ((calls t).program setup).Uses ((sparing setup calls start).Lets t) := by
  cases h : calls t with
  | cleanup => exact (hcall h).elim
  | refresh token =>
      exact .bind (uses_refreshAccessToken (lets_elsewhere hcall) token) fun _ => trivial
  | verifyEmail token => exact uses_verifyEmail (lets_elsewhere hcall) token
  | resetPassword token newPassword =>
      exact uses_resetPassword (lets_elsewhere hcall) token newPassword
  | sendCode rawEmail =>
      exact uses_sendCode (lets_elsewhere hcall)
        (fun _ _ _ _ _ _ => lets_code hcall fun _ => rfl) rawEmail
  | verifyCode rawEmail code =>
      exact .bind (uses_verifyCode (lets_elsewhere hcall)
        (fun _ => ⟨lets_code hcall False.elim, lets_code hcall False.elim⟩)
        (fun _ _ => lets_code hcall fun _ => trivial)
        (fun _ _ _ => lets_code hcall fun _ => trivial) rawEmail code) fun _ => trivial
  | register userData =>
      exact .bind (uses_register (fun r hotps _ _ => lets_elsewhere hcall r hotps)
        (fun _ => lets_code hcall False.elim) (fun _ _ _ _ _ => lets_code hcall fun _ => trivial)
        (fun _ _ => lets_elsewhere hcall _ nofun) userData) fun _ => trivial

end Discipline

/-! ## All runs -/

theorem call_meets (t : ℕ) :
    (rules setup calls start).Meets (system setup) (prudent calls start) t (fun _ _ => True)
      (fun _ _ => True) ((calls t).program setup) fun _ => True := by
  by_cases hcall : calls t = .cleanup
  · rw [hcall]
    exact cleanupExpiredTokens_meets hcall
  · exact lets_meets (consumer_lets hcall)

theorem spared_of_atRest (hstart : s.AtRest)
    (htimely : ∀ i r, s.db.emailOtps.committed i = some r → Timely r) :
    Spared setup calls start s where
  timely i r hr := by
    rcases hr with hr | ⟨t, hr⟩
    · exact htimely i r hr
    · have hnone : s.db.emailOtps.pending i = none := (hstart.tables .emailOtps).pending i
      rw [hnone] at hr
      cases hr
  deleted t _ k _ i v hpending := by
    rw [(hstart.tables k).pending i] at hpending
    cases hpending

/-- While the codes that are deleted are those that were selected, and no code is marked
verified after its expiry, no row that a cleanup deletes would be accepted by its consumer at
any time since the cleanup began. -/
theorem cleanup_spares_accepted {s₀ : State} {c : Config ℕ Error Request Request.Reply State Unit}
    (hstart : s₀.AtRest) (htimely : ∀ i r, s₀.db.emailOtps.committed i = some r → Timely r)
    (hrun : (system setup).Reaches (prudent calls start)
      (calling (fun t => (calls t).program setup) s₀) c)
    {t : ℕ} (hcall : calls t = .cleanup) {k : TableName} {i : ℕ} {r : k.Row}
    (hdeleted : (k.table c.shared.db).pending i = some (t, none))
    (hr : (k.table c.shared.db).committed i = some r) {now : Time} (hnow : start t ≤ now) :
    ¬ Accepted setup k i r now := by
  have hsound : (rules setup calls start).Sound (system setup) (prudent calls start)
      (fun _ _ _ => True) (fun _ _ _ => True) (calling (fun t => (calls t).program setup) s₀) :=
    hstart.sound (fun _ _ => True) (fun _ => trivial)
      fun t => (call_meets t).weaken fun _ _ _ => trivial
  have hspared : Spared setup calls start c.shared :=
    keeping_induction nofun (fun _ _ _ => trivial) hsound hrun (spared_of_atRest hstart htimely)
      fun s s' _ _ h hevent => h.step hevent
  by_cases hk : Cleaned k
  · exact ((hspared.deleted t hcall k hk i none hdeleted).2 r hr).not_accepted hnow
  · intro haccepted
    cases k <;> first | exact haccepted | exact hk (by simp [Cleaned])

/-! ## One code -/

/-- A code that expires at the time 600000. -/
def stored : State :=
  { plainState .empty with
    db := { (plainState .empty).db with
      emailOtps := oneRow 1
        { email := "ada@example.org", codeHash := hashOtpCode plainSetup "ada@example.org" "000000"
          attempts := 0, sentAt := 0, expiresAt := 600000, verifiedAt := none, consumedAt := none
          issuance := 0 } }
    clock := 500000 }

theorem stored_atRest : stored.AtRest where
  tables k := by
    cases k with
    | emailOtps => exact oneRow_atRest 1 _
    | _ => exact Table.empty_atRest
  poisoned _ := rfl
  seen := rfl
  minted := rfl
  families := rfl
  comparisons := rfl
  tickets := rfl

theorem stored_timely (i : ℕ) (r : EmailOtp) (h : stored.db.emailOtps.committed i = some r) :
    Timely r := by
  obtain rfl : i = 1 := List.mem_singleton.mp (stored.db.emailOtps.mem_of_committed i r h)
  obtain rfl := Option.some.inj h
  exact nofun

def concurrent : ℕ → Call
  | 1 => .cleanup
  | 2 => .verifyCode "ada@example.org" "000000"
  | _ => .sendCode "ada@example.org"

def after (schedule : List (Label ℕ Oracle)) : Config ℕ Error Request Request.Reply State Unit :=
  (system plainSetup).after (calling (fun t => (concurrent t).program plainSetup) stored) schedule

/-- The steps of a call, the clock being at `now`. -/
def running (t steps : ℕ) (now : Time) : List (Label ℕ Oracle) :=
  .move { move := .clock now } :: List.replicate steps (.run t { fresh := 2 })

/-- The code is verified in time. -/
def inTime : List (Label ℕ Oracle) := running 2 9 500000 ++ running 1 9 10000000

/-- The code is issued again after the cleanup has selected its row. -/
def reissued : List (Label ℕ Oracle) :=
  running 1 8 10000000 ++ running 3 10 10000000 ++ running 1 1 10000000

/-- The code is compared before it expires and marked verified long after that. -/
def markedLate : List (Label ℕ Oracle) :=
  running 2 5 500000 ++ running 2 4 9999999 ++ running 1 9 10000000

/-- Whether the cleanup reads the clock at the time 10000000. -/
def punctual : ℕ → Request → State → Bool
  | 1, .now, s => s.clock == 10000000
  | _, _, _ => true

/-- Whether a code is deleted that was not selected, or marked verified after its expiry. -/
def imprudent : ℕ → Request → State → Bool
  | t, .sql (.emailOtps (.visit i (.ids _) .delete)), s =>
      (s.db.emailOtps.snapshot t i).any fun selected => (s.db.emailOtps.view t i).any fun r =>
        r != { selected with
          attempts := r.attempts, verifiedAt := r.verifiedAt, consumedAt := r.consumedAt }
  | t, .sql (.emailOtps (.visit i (.unverified _) (.verify verifiedAt))), s =>
      (s.db.emailOtps.view t i).any fun r =>
        r.verifiedAt.isNone && decide (r.expiresAt < verifiedAt)
  | _, _, _ => false

theorem started_of_punctual {r : Request} (h : punctual t r s = true) :
    (started concurrent fun _ => 10000000).request t r s := by
  rintro rfl hcall
  unfold concurrent at hcall
  split at hcall
  · exact beq_iff_eq.mp h
  · cases hcall
  · cases hcall

theorem prudent_of_imprudent {r : Request} (h : imprudent t r s = false) : Prudent t s r := by
  unfold Prudent
  split
  · intro selected r hselected hr
    unfold Otp.SameCode
    simpa [imprudent, hselected, hr] using h
  · intro r hr hunverified
    simpa [imprudent, hr, hunverified] using h
  · trivial

theorem cleanup_spares_accepted_inTime :
    (∀ r, (after inTime).shared.db.emailOtps.committed 1 = some r → ∀ now : Time, 10000000 ≤ now →
      ¬ Accepted plainSetup .emailOtps 1 r now) ∧
    (after inTime).shared.db.emailOtps.pending 1 = some (1, none) ∧
    (after inTime).shared.db.emailOtps.log.map (fun e => (e.1, e.2.2.bind EmailOtp.verifiedAt)) =
      [(2, none), (2, some 500000)] := by
  have hdeleted : (after inTime).shared.db.emailOtps.pending 1 = some (1, none) := by
    decide +kernel
  have hrun : (system plainSetup).Reaches (prudent concurrent fun _ => 10000000)
      (calling (fun t => (concurrent t).program plainSetup) stored) (after inTime) := by
    refine .of_passes (fun t r s => punctual t r s && !imprudent t r s) (fun t r s h => ?_)
      (fun _ _ => trivial) (by decide +kernel)
    obtain ⟨hpunctual, hprudent⟩ : punctual t r s = true ∧ imprudent t r s = false := by
      simpa using h
    exact ⟨started_of_punctual hpunctual, prudent_of_imprudent hprudent⟩
  refine ⟨fun r hr now hnow => ?_, hdeleted, by decide +kernel⟩
  exact cleanup_spares_accepted stored_atRest stored_timely hrun (t := 1) rfl (k := .emailOtps)
    hdeleted hr hnow

/-- The schedule is a run in which the cleanup deletes a row that its consumer would accept. -/
def Wastes (schedule : List (Label ℕ Oracle)) : Prop :=
  (system plainSetup).Reaches (started concurrent fun _ => 10000000)
    (calling (fun t => (concurrent t).program plainSetup) stored) (after schedule) ∧
  ∃ r, (after schedule).shared.db.emailOtps.pending 1 = some (1, none) ∧
    (after schedule).shared.db.emailOtps.committed 1 = some r ∧
      Accepted plainSetup .emailOtps 1 r 10000000

theorem wastes_of_passes {schedule : List (Label ℕ Oracle)}
    (hpasses : (system plainSetup).passes (fun t r s => punctual t r s)
      (calling (fun t => (concurrent t).program plainSetup) stored) schedule = true)
    (hdeleted : (after schedule).shared.db.emailOtps.pending 1 = some (1, none))
    (haccepted : ((after schedule).shared.db.emailOtps.committed 1).any (fun r =>
      Condition.holds
          (EmailOtpWhere.reservable r.email 10000000 plainSetup.env.otpMaxAttempts) 1 r ||
        Condition.holds (EmailOtpWhere.consumable r.email 10000000
          (plainSetup.env.otpVerifiedWindowMinutes * 60 * 1000)) 1 r) = true) :
    Wastes schedule := by
  obtain ⟨r, hr, haccepted⟩ := (Option.any_eq_true _ _).mp haccepted
  exact ⟨.of_passes (fun t r s => punctual t r s) (fun _ _ _ h => started_of_punctual h)
    (fun _ _ => trivial) hpasses, r, hdeleted, hr, (Bool.or_eq_true _ _).mp haccepted⟩

/-- The cleanup deletes a code that was just issued again, and one that was just verified. -/
theorem accepted_code_deleted : Wastes reissued ∧ Wastes markedLate :=
  ⟨wastes_of_passes (by decide +kernel) (by decide +kernel) (by decide +kernel),
    wastes_of_passes (by decide +kernel) (by decide +kernel) (by decide +kernel)⟩

end ExpressCore.Retention
