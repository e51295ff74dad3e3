import ExpressCore.Verification.Account.Resets

/-! # The newest reset token

Of the tokens of one user only the last is unused, as long as every request finds the ones
before it. -/

namespace ExpressCore.ResetPassword

open ReadCommitted Interleaving Interleaving.Program

/-- A request inserts its token when it has deleted every other unused token of the user. -/
def superseding : Assumption ℕ Request State where
  request t r s := ∀ row : PasswordResetToken, r = .sql (.passwordResetTokens (.insert row)) →
    ∀ i old, s.db.passwordResetTokens.Version i old → old.usedAt = none →
      old.userId = row.userId → s.db.passwordResetTokens.pending i = some (t, none)
  move _ _ := True

/-- Tokens are used and deleted, and only requests insert new ones. -/
def issuing (calls : ℕ → Call) : Discipline where
  tables k := k = .passwordResetTokens
  change t k a _ :=
    match k, a with
    | .passwordResetTokens, .visit _ _ _ => True
    | .passwordResetTokens, .insert row => row.usedAt = none ∧ ∃ email, calls t = .request email
    | .passwordResetTokens, _ => False
    | _, _ => True
  commit _ _ := True
  other _ _ _ := True
  commit_free _ _ _ := trivial

variable {setup : Setup} {calls : ℕ → Call} {t : ℕ} {s s' s₀ : State}
  {T T' T₀ : Table ℕ ℕ PasswordResetToken}

/-- The tokens that committed requests have left for a user, each with its request. -/
def issued (log : List (ℕ × ℕ × Option PasswordResetToken)) (userId : ℕ) : List (ℕ × ℕ) :=
  (log.filter fun e => e.2.2.any fun r => r.usedAt.isNone && r.userId == userId).map
    fun e => (e.1, e.2.1)

theorem mem_issued {log : List (ℕ × ℕ × Option PasswordResetToken)} {i userId : ℕ} :
    (t, i) ∈ issued log userId ↔
      ∃ r : PasswordResetToken, (t, i, some r) ∈ log ∧ r.usedAt = none ∧ r.userId = userId := by
  simp only [issued, List.mem_map, List.mem_filter, Option.any_eq_true, Bool.and_eq_true,
    Option.isNone_iff_eq_none, beq_iff_eq, Prod.exists, Prod.mk.injEq]
  constructor
  · rintro ⟨_, _, v, ⟨hlog, r, rfl, hunused, hu⟩, rfl, rfl⟩
    exact ⟨r, hlog, hunused, hu⟩
  · rintro ⟨r, hlog, hunused, hu⟩
    exact ⟨t, i, some r, ⟨hlog, r, rfl, hunused, hu⟩, rfl, rfl⟩

/-- What holds of the unused tokens, committed and not. -/
structure Newest (calls : ℕ → Call) (T₀ T : Table ℕ ℕ PasswordResetToken) : Prop where
  requested : ∀ i t r, T.pending i = some (t, some r) → r.usedAt = none →
    ∃ email, calls t = .request email
  superseded : ∀ i t r j r', T.pending i = some (t, some r) → r.usedAt = none →
    T.committed j = some r' → r'.usedAt = none → r'.userId = r.userId →
      T.pending j = some (t, none)
  alone : ∀ i t r j t' r', T.pending i = some (t, some r) → r.usedAt = none →
    T.pending j = some (t', some r') → r'.usedAt = none → r.userId = r'.userId → i = j
  single : ∀ i r j r', T.committed i = some r → r.usedAt = none → T.committed j = some r' →
    r'.usedAt = none → r.userId = r'.userId → i = j
  last : ∀ i r, T.committed i = some r → r.usedAt = none →
    (∃ t email, calls t = .request email ∧ (issued T.log r.userId).getLast? = some (t, i)) ∨
      issued T.log r.userId = [] ∧ T₀.committed i = some r

/-- At most one unused token for each user. -/
def SingleUnused (T : Table ℕ ℕ PasswordResetToken) : Prop :=
  ∀ i r j r', T.committed i = some r → r.usedAt = none → T.committed j = some r' →
    r'.usedAt = none → r.userId = r'.userId → i = j

theorem newest_of_atRest (h : T.AtRest) (hsingle : SingleUnused T) : Newest calls T T where
  requested i t r hr := by simp [h.pending i] at hr
  superseded i t r j r' hr := by simp [h.pending i] at hr
  alone i t r j t' r' hr := by simp [h.pending i] at hr
  single := hsingle
  last i r hr hunused := .inr ⟨by simp [issued, h.log], hr⟩

/-- A step after which no other versions are about. -/
private theorem Newest.of_fewer (h : Newest calls T₀ T) (hcommitted : T'.committed = T.committed)
    (hlog : T'.log = T.log)
    (hpending : ∀ i t r, T'.pending i = some (t, some r) → r.usedAt = none →
      T.pending i = some (t, some r))
    (hkept : ∀ i t r j, T'.pending i = some (t, some r) → r.usedAt = none →
      T.pending j = some (t, none) → T'.pending j = some (t, none)) : Newest calls T₀ T' where
  requested i t r hr hunused := h.requested i t r (hpending i t r hr hunused) hunused
  superseded i t r j r' hr hunused hr' hunused' hu :=
    hkept i t r j hr hunused (h.superseded i t r j r' (hpending i t r hr hunused) hunused
      (hcommitted ▸ hr') hunused' hu)
  alone i t r j t' r' hr hunused hr' hunused' hu :=
    h.alone i t r j t' r' (hpending i t r hr hunused) hunused (hpending j t' r' hr' hunused')
      hunused' hu
  single := hcommitted ▸ h.single
  last := by
    rw [hcommitted, hlog]
    exact h.last

/-- A token is used or deleted. -/
private theorem Newest.visit (h : Newest calls T₀ T) {i : ℕ} {c : PasswordResetTokenChange}
    {old : PasswordResetToken} (hlocked : T.locked t i = false) (hview : T.view t i = some old) :
    Newest calls T₀ (T.write t i (ReadCommitted.Change.apply c old)) := by
  have hused (r : PasswordResetToken) (hr : ReadCommitted.Change.apply c old = some r) :
      r.usedAt ≠ none := by
    cases c with
    | use usedAt =>
        cases hr
        simp
    | delete => cases hr
  have hpending (j u : ℕ) (r : PasswordResetToken)
      (hr : (T.write t i (ReadCommitted.Change.apply c old)).pending j = some (u, some r))
      (hunused : r.usedAt = none) : T.pending j = some (u, some r) := by
    rcases Table.write_pending hr with ⟨-, heq⟩ | ⟨-, hr⟩
    · exact (hused r (Prod.mk.inj heq).2.symm hunused).elim
    · exact hr
  refine h.of_fewer rfl rfl hpending fun j u r k _ _ hk => ?_
  have hne : k ≠ i := by
    rintro rfl
    obtain rfl : u = t := Table.locked_eq_false.mp hlocked _ hk
    rw [Table.view_of_pending hk] at hview
    cases hview
  rw [Table.write_pending_of_ne hne, hk]

private theorem Newest.insert (h : Newest calls T₀ T) {i : ℕ} {row : PasswordResetToken}
    (hfresh : i ∉ T.ids) (hrequest : ∃ email, calls t = .request email)
    (hothers : ∀ j old, T.Version j old → old.usedAt = none → old.userId = row.userId →
      T.pending j = some (t, none)) : Newest calls T₀ (T.write t i (some row)) := by
  have hpending {j u : ℕ} {r : PasswordResetToken}
      (hr : (T.write t i (some row)).pending j = some (u, some r)) :
      j = i ∧ u = t ∧ r = row ∨ T.pending j = some (u, some r) := by
    rcases Table.write_pending hr with ⟨hj, heq⟩ | ⟨-, hr⟩
    · obtain ⟨hu, hrow⟩ := Prod.mk.inj heq
      exact .inl ⟨hj, hu, Option.some.inj hrow⟩
    · exact .inr hr
  have hkept {j : ℕ} {w : ℕ × Option PasswordResetToken} (hj : T.pending j = some w) :
      (T.write t i (some row)).pending j = some w := by
    refine (Table.write_pending_of_ne ?_).trans hj
    rintro rfl
    exact hfresh (T.mem_of_pending j w hj)
  -- The new token is alone: an unused token of the user is one that the thread deletes.
  have hnone {j u : ℕ} {r : PasswordResetToken} (hj : T.pending j = some (u, some r))
      (hunused : r.usedAt = none) (hu : r.userId = row.userId) : False := by
    have hdeleted := hothers j r (.inr ⟨u, hj⟩) hunused hu
    simp [hj] at hdeleted
  constructor
  · intro j u r hr hunused
    rcases hpending hr with ⟨rfl, rfl, rfl⟩ | hr
    · exact hrequest
    · exact h.requested j u r hr hunused
  · intro j u r k r' hr hunused hr' hunused' hu
    rcases hpending hr with ⟨rfl, rfl, rfl⟩ | hr
    · exact hkept (hothers k r' (.inl hr') hunused' hu)
    · exact hkept (h.superseded j u r k r' hr hunused hr' hunused' hu)
  · intro j u r k u' r' hr hunused hr' hunused' hu
    rcases hpending hr with ⟨rfl, -, rfl⟩ | hr <;>
      rcases hpending hr' with ⟨hk, -, hrow⟩ | hr'
    · exact hk.symm
    · exact (hnone hr' hunused' hu.symm).elim
    · exact (hnone hr hunused (hu.trans (congrArg PasswordResetToken.userId hrow))).elim
    · exact h.alone j u r k u' r' hr hunused hr' hunused' hu
  · exact h.single
  · exact h.last

private theorem Newest.commit (h : Newest calls T₀ T) : Newest calls T₀ (T.commit t) := by
  have hissued (userId : ℕ) : issued (T.commit t).log userId =
      issued T.log userId ++ issued (T.writes t) userId := by
    rw [Table.commit_log, issued, List.filter_append, List.map_append]
    rfl
  constructor
  · intro i u r hr
    exact h.requested i u r (Table.commit_pending.mp hr).1
  · intro i u r j r' hr hunused hr' hunused' hu
    obtain ⟨hr, hne⟩ := Table.commit_pending.mp hr
    refine Table.commit_pending.mpr ⟨?_, hne⟩
    rcases Table.commit_committed_eq_some hr' with hnew | ⟨hold, -⟩
    · obtain rfl := h.alone i u r j t r' hr hunused hnew hunused' hu.symm
      rw [hr] at hnew
      exact (hne (Prod.mk.inj (Option.some.inj hnew)).1).elim
    · exact h.superseded i u r j r' hr hunused hold hunused' hu
  · intro i u r j u' r' hr hunused hr' hunused' hu
    exact h.alone i u r j u' r' (Table.commit_pending.mp hr).1 hunused
      (Table.commit_pending.mp hr').1 hunused' hu
  · intro i r j r' hr hunused hr' hunused' hu
    rcases Table.commit_committed_eq_some hr with hr | ⟨hr, hfree⟩ <;>
      rcases Table.commit_committed_eq_some hr' with hr' | ⟨hr', hfree'⟩
    · exact h.alone i t r j t r' hr hunused hr' hunused' hu
    · exact (hfree' none (h.superseded i t r j r' hr hunused hr' hunused' hu.symm)).elim
    · exact (hfree none (h.superseded j t r' i r hr' hunused' hr hunused hu)).elim
    · exact h.single i r j r' hr hunused hr' hunused' hu
  · intro i r hr hunused
    rw [hissued]
    rcases Table.commit_committed_eq_some hr with hr | ⟨hr, hfree⟩
    · have hmem : (t, i) ∈ issued (T.writes t) r.userId :=
        mem_issued.mpr ⟨r, Table.mem_writes.mpr ⟨rfl, hr⟩, hunused, rfl⟩
      obtain ⟨email, hcall⟩ := h.requested i t r hr hunused
      refine .inl ⟨t, email, hcall, ?_⟩
      have hne := List.ne_nil_of_mem hmem
      rw [List.getLast?_append_of_ne_nil _ hne, List.getLast?_eq_some_getLast hne]
      obtain ⟨r', hr', hunused', hu⟩ := mem_issued.mp (List.getLast_mem hne)
      obtain ⟨ht, hr'⟩ := Table.mem_writes.mp hr'
      exact congrArg some (Prod.ext ht (h.alone _ t r' i t r hr' hunused' hr hunused hu))
    · have hnil : issued (T.writes t) r.userId = [] := by
        refine List.eq_nil_iff_forall_not_mem.mpr fun ⟨u, j⟩ hmem => ?_
        obtain ⟨r', hr', hunused', hu⟩ := mem_issued.mp hmem
        obtain ⟨-, hr'⟩ := Table.mem_writes.mp hr'
        exact hfree none (h.superseded j t r' i r hr' hunused' hr hunused hu.symm)
      rw [hnil, List.append_nil]
      exact h.last i r hr hunused

private theorem Newest.abort (h : Newest calls T₀ T) : Newest calls T₀ (T.abort t) :=
  h.of_fewer rfl rfl (fun _ _ _ hr _ => (Table.abort_pending.mp hr).1)
    fun _ _ _ _ hr _ hj => Table.abort_pending.mpr ⟨hj, (Table.abort_pending.mp hr).2⟩

theorem Newest.step (h : Newest calls T₀ s.db.passwordResetTokens)
    (hevent : Event setup superseding (issuing calls) s s') :
    Newest calls T₀ s'.db.passwordResetTokens := by
  have hrow := hevent.on .passwordResetTokens
  simp only [TableName.table] at hrow
  cases hrow with
  | same hcommitted hpending hlog =>
      exact h.of_fewer hcommitted hlog (fun _ _ _ hr _ => hpending ▸ hr)
        fun _ _ _ _ _ _ hj => hpending.symm ▸ hj
  | write t a i v hchange hA hwrote htable =>
      rw [htable]
      cases hwrote with
      | visit _ w c old hlocked hview => exact h.visit hlocked hview
      | insert _ row hfresh => exact h.insert hfresh (hchange rfl).2 (hA row rfl)
      | _ => exact (hchange rfl).elim
  | commit t hcommit htable => exact htable ▸ h.commit
  | abort t htable => exact htable ▸ h.abort

/-! ## Runs -/

/-- A request that leaves the tokens alone, or ends a transaction. -/
private theorem lets_other {r : Request} (h : r.Neutral (fun k => k = .passwordResetTokens)) :
    (issuing calls).Lets t r := Discipline.lets_neutral h

private theorem lets_visit (i : ℕ) (w : TokenWhere) (c : PasswordResetTokenChange) :
    (issuing calls).Lets t (.sql (.passwordResetTokens (.visit i w c))) :=
  Discipline.lets_access (k := .passwordResetTokens) fun _ _ _ => trivial

private theorem lets_complete : (issuing calls).Lets t (.sql (.complete .tx)) :=
  lets_other trivial

private theorem lets_transaction {α : Type} {body : Service α}
    (h : body.Uses ((issuing calls).Lets t)) : (transaction body).Uses ((issuing calls).Lets t) :=
  uses_transaction (lets_other trivial) (Discipline.lets_end (.inr (.inl rfl)) fun _ => trivial)
    (Discipline.lets_end (.inl rfl) fun _ => trivial) h

theorem resetPassword_lets (token newPassword : String) :
    (resetPassword setup token newPassword).Uses ((issuing calls).Lets t) := by
  have hscan (w : TokenWhere) :
      (issuing calls).Lets t (.sql (.passwordResetTokens (.scan w))) := lets_other fun _ => id
  have husers (a) : (users a).Uses ((issuing calls).Lets t) := uses_send.mpr (lets_other nofun)
  refine .bind (lets_transaction ?_) fun value => by cases value <;> trivial
  unfold resetPasswordInTransaction
  refine .bind (uses_send.mpr (lets_other fun _ => id)) fun found => ?_
  split
  · trivial
  refine .bind (uses_send.mpr (lets_other nofun)) fun now => ?_
  split
  · exact .bind (.bind (uses_change (uses_send.mpr (hscan _)) (fun i => uses_send.mpr
      (lets_visit i _ _)) lets_complete) fun _ => trivial) fun _ => trivial
  split
  · trivial
  refine .bind (uses_bcryptHash (lets_other nofun) _) fun hash => ?_
  refine .bind (uses_changeOne husers lets_complete _ _) fun _ => ?_
  refine .bind (uses_send.mpr (lets_other nofun)) fun usedAt => ?_
  refine .bind (.bind (uses_changeSingle (uses_send.mpr (hscan _)) (fun i => uses_send.mpr
    (lets_visit i _ _)) lets_complete) fun _ => trivial) fun _ => ?_
  exact .bind (uses_revokeRefreshTokens (fun a => uses_send.mpr (lets_other nofun)) _
    fun _ => lets_other trivial) fun _ => trivial

theorem requestPasswordReset_lets {email : String} (hcall : calls t = .request email) :
    (requestPasswordReset setup email).Uses ((issuing calls).Lets t) := by
  have hinsert (row : PasswordResetToken) (hunused : row.usedAt = none) :
      (issuing calls).Lets t (.sql (.passwordResetTokens (.insert row))) :=
    Discipline.lets_access (k := .passwordResetTokens) fun _ _ _ => ⟨hunused, email, hcall⟩
  refine .bind (uses_send.mpr (lets_other nofun)) fun user => ?_
  split
  · trivial
  refine .bind (uses_send.mpr (lets_other nofun)) fun token => lets_transaction ?_
  refine .bind (.bind (uses_change (uses_send.mpr (lets_other fun _ => id))
    (fun i => uses_send.mpr (lets_visit i _ _)) lets_complete) fun _ => trivial) fun _ => ?_
  refine .bind (uses_send.mpr (lets_other nofun)) fun now => ?_
  refine .bind (.bind (uses_create (uses_send.mpr (hinsert _ rfl)) lets_complete)
    fun _ => trivial) fun _ => ?_
  exact uses_enqueue (lets_other nofun) (fun a => uses_send.mpr (lets_other nofun))
    lets_complete _ _ _

/-- Each user has at most one unused token, that of the request committed last. -/
structure OnlyNewest (calls : ℕ → Call) (s₀ s : State) : Prop where
  single : SingleUnused s.db.passwordResetTokens
  newest : ∀ i r, s.db.passwordResetTokens.committed i = some r → r.usedAt = none →
    (∃ t email, calls t = .request email ∧
      (issued s.db.passwordResetTokens.log r.userId).getLast? = some (t, i)) ∨
    issued s.db.passwordResetTokens.log r.userId = [] ∧
      s₀.db.passwordResetTokens.committed i = some r

/-- Concurrent requests and resets in which every request finds the tokens before its own. -/
theorem only_newest {c : Config ℕ Error Request Request.Reply State Unit} (hstart : s₀.AtRest)
    (hsingle : SingleUnused s₀.db.passwordResetTokens)
    (hrun : (system setup).Reaches superseding
      (calling (fun t => (calls t).program setup) s₀) c) : OnlyNewest calls s₀ c.shared := by
  have hsound : (keeping setup False superseding (issuing calls)).Sound (system setup) superseding
      (fun _ _ _ => True) (fun _ _ _ => True) (calling (fun t => (calls t).program setup) s₀) := by
    refine hstart.sound (fun _ _ => True) (fun _ => trivial) fun t => ?_
    refine Rules.Meets.weaken (meets_lets ?_) fun _ _ _ => trivial
    cases hcall : calls t with
    | reset token newPassword => exact resetPassword_lets token newPassword
    | request email => exact requestPasswordReset_lets hcall
  have h : Newest calls s₀.db.passwordResetTokens c.shared.db.passwordResetTokens :=
    keeping_induction (P := fun s => Newest calls s₀.db.passwordResetTokens
      s.db.passwordResetTokens) nofun (fun _ _ _ => trivial) hsound hrun
      (newest_of_atRest (hstart.tables .passwordResetTokens) hsingle)
      fun s s' _ _ h hevent => h.step hevent
  exact ⟨h.single, h.last⟩

/-! ## Two requests of one user -/

/-- Whether an unused token of the user is about that the thread has not deleted. -/
def obstructed : ℕ → Request → State → Bool
  | t, .sql (.passwordResetTokens (.insert row)), s =>
      s.db.passwordResetTokens.ids.any fun i =>
        ((s.db.passwordResetTokens.committed i).toList ++
          ((s.db.passwordResetTokens.pending i).bind Prod.snd).toList).any
            (fun old => old.usedAt.isNone && old.userId == row.userId) &&
          s.db.passwordResetTokens.pending i != some (t, none)
  | _, _, _ => false

theorem superseding_of_obstructed {r : Request} (h : obstructed t r s = false) :
    superseding.request t r s := by
  rintro row rfl i old hold hunused hu
  have hversion : old ∈ (s.db.passwordResetTokens.committed i).toList ++
      ((s.db.passwordResetTokens.pending i).bind Prod.snd).toList := by
    rcases hold with hold | ⟨u, hold⟩ <;> simp [hold]
  have hnot := List.any_eq_false.mp h i (mem_ids_of_version hold)
  by_contra hdeleted
  refine hnot (Bool.and_eq_true_iff.mpr ⟨List.any_eq_true.mpr ⟨old, hversion, ?_⟩, ?_⟩)
  · simp [hunused, hu]
  · simpa using hdeleted

def asking (n steps : ℕ) : List (Label ℕ Oracle) :=
  List.replicate steps (.run n { fresh := n + 1, bytes := List.replicate 64 (.ofNat n) })

def asked (schedule : List (Label ℕ Oracle)) : Config ℕ Error Request Request.Reply State Unit :=
  (system plainSetup).after
    (calling (fun _ => Call.program plainSetup (.request "ada@example.org")) requested) schedule

/-- The tokens with which the password can be reset. -/
def usable (s : State) : List ℕ :=
  s.db.passwordResetTokens.ids.filter fun i => (s.db.passwordResetTokens.committed i).any fun r =>
    r.usedAt.isNone && r.userId == 5 && decide (s.clock ≤ r.expiresAt)

theorem requested_single : SingleUnused requested.db.passwordResetTokens := by
  have hone (i : ℕ) (r : PasswordResetToken)
      (h : requested.db.passwordResetTokens.committed i = some r) : i = 1 :=
    List.mem_singleton.mp (requested.db.passwordResetTokens.mem_of_committed i r h)
  exact fun i r j r' h _ h' _ _ => (hone i r h).trans (hone j r' h').symm

theorem only_newest_inTurn :
    OnlyNewest (fun _ => .request "ada@example.org") requested
      (asked (asking 1 13 ++ asking 2 13)).shared ∧
    usable (asked (asking 1 13 ++ asking 2 13)).shared = [3] :=
  ⟨only_newest requested_atRest requested_single (.of_passes
    (fun t request s => !obstructed t request s)
    (fun _ _ _ h => superseding_of_obstructed (by simpa using h)) (fun _ _ => trivial)
    (by decide +kernel)), by decide +kernel⟩

/-- The second request has selected the old token when the first commits: it does not find the
new one. -/
def together : List (Label ℕ Oracle) := asking 1 4 ++ asking 2 4 ++ asking 1 9 ++ asking 2 9

theorem two_usable_together :
    (system plainSetup).Reaches .any
      (calling (fun _ => Call.program plainSetup (.request "ada@example.org")) requested)
      (asked together) ∧
    (asked together).thread 1 = .ret () ∧ (asked together).thread 2 = .ret () ∧
    usable (asked together).shared = [3, 2] ∧
    ¬ OnlyNewest (fun _ => .request "ada@example.org") requested (asked together).shared := by
  have hunused (i : ℕ) (hi : i ∈ [3, 2]) : ∃ r,
      (asked together).shared.db.passwordResetTokens.committed i = some r ∧ r.usedAt = none ∧
        r.userId = 5 := by
    have hany : ∀ j ∈ [3, 2], ((asked together).shared.db.passwordResetTokens.committed j).any
        (fun r => r.usedAt.isNone && r.userId == 5) = true := by decide +kernel
    obtain ⟨r, hr, hopen⟩ := (Option.any_eq_true _ _).mp (hany i hi)
    exact ⟨r, hr, by simpa using hopen⟩
  refine ⟨.of_schedule (fun l _ _ _ => Machine.keeps_any l) (by decide +kernel),
    Program.value?_eq_some.mp (by decide +kernel), Program.value?_eq_some.mp (by decide +kernel),
    by decide +kernel, fun h => ?_⟩
  obtain ⟨r, hr, hopen, hu⟩ := hunused 2 (by simp)
  obtain ⟨r', hr', hopen', hu'⟩ := hunused 3 (by simp)
  exact absurd (h.single 2 r 3 r' hr hopen hr' hopen' (hu.trans hu'.symm)) (by decide)

end ExpressCore.ResetPassword
