import ExpressCore.Verification.Account.Requests
import ExpressCore.Verification.System.Calls
import ExpressCore.Verification.System.Start

/-! # Concurrent password resets -/

namespace ExpressCore.ResetPassword

open ReadCommitted Interleaving Interleaving.Program

/-- The calls that issue and use password-reset tokens. -/
inductive Call where
  | reset (token newPassword : String)
  | request (email : String)

def Call.program (setup : Setup) : Call → Service Unit
  | .reset token newPassword => resetPassword setup token newPassword
  | .request email => requestPasswordReset setup email

/-- The tables that carry the password and its tokens. -/
def Kept (k : TableName) : Prop := k = .users ∨ k = .passwordResetTokens

/-- A use of a token: the token and the user it found, and what it wrote. -/
structure Use where
  id : ℕ
  record : PasswordResetToken
  usedAt : Time
  user : User
  hash : String

def Use.used (x : Use) : PasswordResetToken := { x.record with usedAt := some x.usedAt }

def Use.changed (x : Use) : User := x.user.apply { password := some x.hash }

/-- Ready to commit a use. -/
structure Using (call : Call) (t : ℕ) (x : Use) (s : State) : Prop where
  presented : ∃ newPassword, call = .reset x.record.token newPassword
  unused : x.record.usedAt = none
  users : Ledger .users t [(x.record.userId, some x.user, some x.changed)] [] s
  tokens : Ledger .passwordResetTokens t [(x.id, some x.record, some x.used)] [] s

/-- A use is committed. -/
structure Used (call : Call) (t : ℕ) (x : Use) (s : State) : Prop where
  presented : ∃ newPassword, call = .reset x.record.token newPassword
  users : Ledger .users t [] [(x.record.userId, some x.changed)] s
  tokens : Ledger .passwordResetTokens t [] [(x.id, some x.used)] s

/-- Neither a password nor a use of a token is written. -/
structure Harmless (t : ℕ) (s : State) : Prop where
  users : Ledger .users t [] [] s
  tokens : ∃ held, Ledger .passwordResetTokens t held [] s ∧
    ∀ y ∈ held, ∀ r, y.2.2 = some r → y.2.1 = none ∧ r.usedAt = none

/-- Row `i` has or had the token. -/
def Named (s₀ s : State) (i : ℕ) (token : String) : Prop :=
  ∃ r : PasswordResetToken, r.token = token ∧
    (s₀.db.passwordResetTokens.committed i = some r ∨
      ∃ t, (t, i, some r) ∈ s.db.passwordResetTokens.log)

/-- No two rows have or had the same token. -/
structure Distinct (s₀ s : State) : Prop where
  named : ∀ i j token, Named s₀ s i token → Named s₀ s j token → i = j
  version : ∀ i r j, s.db.passwordResetTokens.Version i r → Named s₀ s j r.token → i = j
  versions : ∀ i r j r', s.db.passwordResetTokens.Version i r →
    s.db.passwordResetTokens.Version j r' → r.token = r'.token → i = j
  committed : ∀ i r, s.db.passwordResetTokens.committed i = some r → Named s₀ s i r.token

/-- Generated tokens do not repeat: a new one is not one that the table has or had. -/
def unrepeated (s₀ : State) : Assumption ℕ Request State where
  request _ r s := ∀ row, r = .sql (.passwordResetTokens (.insert row)) →
    (∀ i, ¬ Named s₀ s i row.token) ∧
      ∀ i r, s.db.passwordResetTokens.Version i r → r.token ≠ row.token
  move _ _ := True

/-- In addition, a reset marks a token that is not marked yet. -/
def unmarked (s₀ : State) : Assumption ℕ Request State where
  request t r s := (unrepeated s₀).request t r s ∧ ∀ i token usedAt row,
    r = .sql (.passwordResetTokens (.visit i (.token token) (.use usedAt))) →
      s.db.passwordResetTokens.view t i = some row → row.usedAt = none
  move _ _ := True

variable {setup : Setup} {calls : ℕ → Call} {call : Call} {t : ℕ} {s s' s₀ : State}

/-- A call commits the use of a token with the new password, or neither. -/
def resetting (calls : ℕ → Call) : Discipline where
  tables := Kept
  change _ k a _ :=
    match k, a with
    | .passwordResetTokens, .visit _ _ _ => True
    | .passwordResetTokens, .insert _ => True
    | .passwordResetTokens, _ => False
    | _, _ => True
  commit t s := Unlocked Kept t s ∨ (∃ x, Using (calls t) t x s) ∨ Harmless t s
  other _ _ _ := True
  commit_free _ _ h := .inl h

abbrev rules (setup : Setup) (calls : ℕ → Call) (s₀ : State) : Rules ℕ State :=
  keeping setup False ((unmarked s₀).within (Distinct s₀)) (resetting calls)

/-! ## One call -/

variable {traced : Prop}

theorem firm_using (x : Use) : Firm Kept setup traced t (Using call t x) := by
  intro s s' hs hs' hmove h
  exact
    { h with
      users := Firm.ledger (.inl rfl) _ _ s s' hs hs' hmove h.users
      tokens := Firm.ledger (.inr rfl) _ _ s s' hs hs' hmove h.tokens }

theorem firm_used (x : Use) : Firm Kept setup traced t (Used call t x) := by
  intro s s' hs hs' hmove h
  exact
    { h with
      users := Firm.ledger (.inl rfl) _ _ s s' hs hs' hmove h.users
      tokens := Firm.ledger (.inr rfl) _ _ s s' hs hs' hmove h.tokens }

theorem firm_harmless : Firm Kept setup traced t (Harmless t) := by
  rintro s s' hs hs' hmove ⟨husers, held, htokens, hheld⟩
  exact ⟨Firm.ledger (.inl rfl) _ _ s s' hs hs' hmove husers, held,
    Firm.ledger (.inr rfl) _ _ s s' hs hs' hmove htokens, hheld⟩

theorem firm_named {K : TableName → Prop} (i : ℕ) (token : String) :
    Firm K setup traced t fun s => Named s₀ s i token := by
  rintro s s' - - hmove ⟨r, htoken, hr⟩
  exact ⟨r, htoken, hr.imp_right fun ⟨u, hu⟩ =>
    ⟨u, (hmove.logs .passwordResetTokens).subset hu⟩⟩

/-- What the body of a reset hands to the commit. -/
def Ready (call : Call) (t : ℕ) : Option ℕ → State → Prop
  | none => Harmless t
  | some _ => fun s => ∃ x, Using call t x s

theorem firm_ready (value : Option ℕ) : Firm Kept setup traced t (Ready call t value) := by
  cases value with
  | none => exact firm_harmless
  | some _ => exact .exists fun x => firm_using x

private theorem quiet_of_ledgers {users tokens} (husers : Ledger .users t users [] s)
    (htokens : Ledger .passwordResetTokens t tokens [] s) : Quiet Kept t s := by
  rintro k (rfl | rfl)
  · exact ⟨_, husers⟩
  · exact ⟨_, htokens⟩

theorem resetPasswordInTransaction_meets (token newPassword : String) :
    (rules setup calls s₀).Meets (system setup) ((unmarked s₀).within (Distinct s₀)) t
      (fun value s => Clear t s ∧ Ready (.reset token newPassword) t value s)
      (fun _ s => Quiet Kept t s ∧ True) (resetPasswordInTransaction setup token newPassword)
      fun s => Clear t s ∧ Fresh Kept t s ∧ True := by
  have hstop (e : Error) (P : State → Prop) (hP : ∀ s, P s → Quiet Kept t s) :
      (rules setup calls s₀).Meets (system setup) ((unmarked s₀).within (Distinct s₀)) t
        (fun value s => Clear t s ∧ Ready (.reset token newPassword) t value s)
        (fun _ s => Quiet Kept t s ∧ True) (throw e : Service (Option ℕ)) P :=
    .throw (Firm.quiet.and (Firm.const True)).stable fun s _ h => ⟨hP s h, trivial⟩
  unfold resetPasswordInTransaction findUniqueToken
  refine .bind (find_meets (k := .passwordResetTokens) (w := .token token)
    (Q := fun x s => Named s₀ s x.1 x.2.token) (Firm.clear.and (Firm.fresh.and (.const True)))
    (fun x => firm_named _ _) fun s x _ hA hp _ hview => ?_) fun found => ?_
  · have hcommitted : s.db.passwordResetTokens.committed x.1 = some x.2 := by
      rw [← hview]
      exact (Table.view_of_not_pending fun v => (hp.2.1 _ (.inr rfl)).free x.1 v).symm
    exact hA.2.committed x.1 x.2 hcommitted
  split
  · exact hstop _ _ fun s h => quiet_of_fresh h.2.2.1
  rename_i i record
  let Known (s : State) : Prop := Named s₀ s i token ∧ Identified .passwordResetTokens i record s
  have hknown (K : TableName → Prop) : Firm K setup False t Known :=
    (firm_named i token).and (.identified _ _ _)
  refine Rules.Meets.under (fun s => record.token = token ∧ Known s ∧ Clear t s ∧
    Fresh Kept t s) (.assume fun htoken => ?_) fun s _ h => ?_
  · refine .bind (now_meets (Q := fun _ => True) ((hknown Kept).and (Firm.clear.and .fresh))
      fun _ _ _ _ => trivial) fun now => .assume fun _ => ?_
    split
    · refine .bind (.bind (Rules.Meets.weaken (changeMany_meets (k := .passwordResetTokens)
        (w := .token token) (c := .delete) [] (Q := fun _ => True)
        (P := fun s => Ledger .users t [] [] s ∧ Clear t s) ((Firm.ledger (by simp) _ _).and .clear)
        (fun _ _ _ _ _ _ _ _ _ => trivial) fun _ _ _ _ _ _ _ _ _ => trivial)
        fun s _ h => ⟨h.2.2 _ (.inr rfl), h.2.2 _ (.inl rfl), h.2.1⟩)
        fun changed => .giving (fun _ s => Clear t s ∧ Harmless t s) ?_ fun s _ h => ?_)
        fun _ => .pure (Firm.clear.and firm_harmless).stable .refl
      · exact (Firm.clear.and firm_harmless).stable
      · obtain ⟨olds, -, htokens, husers, hclear⟩ := h
        refine ⟨hclear, husers, _, htokens, fun y hy r hr => ?_⟩
        obtain ⟨z, -, rfl⟩ := List.mem_map.mp hy
        cases hr
    split
    · exact hstop _ _ fun s h => quiet_of_fresh h.2.2
    refine neutral_bind ((hknown Kept).and (Firm.clear.and .fresh)) (uses_bcryptHash id _)
      (fun _ s h => ⟨quiet_of_fresh h.2.2, trivial⟩) fun hash => ?_
    refine .bind (Rules.Meets.weaken (changeOne_meets (k := .users) (w := .id record.userId)
      (c := .update { password := some hash }) [] (Q := fun _ => True)
      (P := fun s => Ledger .passwordResetTokens t [] [] s ∧ Known s ∧ Clear t s)
      ((Firm.ledger (by simp) _ _).and ((hknown _).and .clear))
      (fun _ _ _ _ _ _ _ _ _ => trivial) (fun _ _ _ _ _ _ _ _ _ => trivial)
      (fun _ s h h' => ⟨quiet_of_ledgers h h'.1, trivial⟩)
      fun _ => (Firm.quiet.and (Firm.const True)).stable)
      fun s _ h => ⟨h.2.2 _ (.inl rfl), h.2.2 _ (.inr rfl), h.1, h.2.1⟩)
      fun updated => .exists fun users => .exists fun changed => .assume fun hchanged => ?_
    rcases hchanged.single fun x hx => (eq_of_beq (hchanged.holds x hx) : x.1 = record.userId)
      with rfl | ⟨user, rfl⟩
    · cases hchanged.changed
    let Updated (s : State) : Prop := Ledger .users t [(record.userId, some user,
      some (user.apply { password := some hash }))] [] s
    refine .bind (Rules.Meets.weaken (now_meets (K := Kept) (Q := fun _ => True)
      (P := fun s => Updated s ∧ Ledger .passwordResetTokens t [] [] s ∧ Known s ∧ Clear t s)
      ((Firm.ledger (.inl rfl) _ _).and ((Firm.ledger (.inr rfl) _ _).and
        ((hknown _).and .clear))) fun _ _ _ _ => trivial) .refl) fun usedAt => .assume fun _ => ?_
    refine .bind (.bind (Rules.Meets.weaken (changeOne_meets (k := .passwordResetTokens)
      (w := .token token) (c := .use usedAt) []
      (Q := fun x => x.1 = i ∧ x.2.usedAt = none) (P := fun s => Updated s ∧ Known s ∧ Clear t s)
      ((Firm.ledger (by simp) _ _).and ((hknown _).and .clear))
      (fun s j old _ hA h hview hcommitted hw => ?_) (fun _ _ _ _ _ _ _ _ _ => trivial)
      (fun _ s h h' => ⟨quiet_of_ledgers h'.1 h, trivial⟩)
      fun _ => (Firm.quiet.and (Firm.const True)).stable)
      fun s _ h => ⟨h.2.1, h.1, h.2.2.1, h.2.2.2⟩)
      fun row => .exists fun olds => .exists fun others => .assume fun hused =>
        .giving (fun _ s => Clear t s ∧ ∃ x, Using (.reset token newPassword) t x s)
          ?_ fun s _ h => ?_) fun _ => ?_
    · have hold : old.token = token := eq_of_beq hw
      exact ⟨hA.2.version j old i (.inl hcommitted) (hold ▸ h.2.1.1),
        hA.1.2 j token usedAt old rfl hview⟩
    · exact (Firm.clear.and (.exists fun x => firm_using x)).stable
    · rcases hused.single fun x hx => (hused.known x hx).1 with rfl | ⟨old, rfl⟩
      · cases hused.changed
      obtain ⟨htokens, husers, ⟨-, hidentified⟩, hclear⟩ := h
      have hsame : old = { record with usedAt := old.usedAt } :=
        hidentified.2 old (.inl (htokens.before _ (.head _)))
      have huserId : old.userId = record.userId := by rw [hsame]
      have hold : old.token = token := by rw [hsame, ← htoken]
      refine ⟨hclear, ⟨i, old, usedAt, user, hash⟩, ⟨newPassword, by rw [hold]⟩,
        (hused.known _ (.head _)).2, ?_, htokens⟩
      rw [huserId]
      exact husers
    · refine neutral_bind (Firm.clear.and (.exists fun x => firm_using x)) ?_ (fun _ s h => ?_)
        fun _ => .pure (Firm.clear.and (firm_ready (some _))).stable .refl
      · have hother : ¬ Kept .refreshTokens := by simp [Kept]
        exact uses_revokeRefreshTokens (fun a => uses_send.mpr fun h => (hother h).elim) _
          fun _ => trivial
      · obtain ⟨-, x, hx⟩ := h
        exact ⟨quiet_of_ledgers hx.users hx.tokens, trivial⟩
  · obtain ⟨hw, hnamed, hidentified⟩ := h.1 _ rfl
    have htoken : record.token = token := eq_of_beq hw
    exact ⟨htoken, ⟨htoken ▸ hnamed, hidentified⟩, h.2.1, h.2.2.1⟩

/-- No password is written. -/
structure Idle (t : ℕ) (s : State) : Prop where
  users : Ledger .users t [] [] s
  tokens : ∃ done, Ledger .passwordResetTokens t [] done s

/-- What a call that has returned has done. -/
def Call.Returned (t : ℕ) : Call → State → Prop
  | .reset token newPassword, s => ∃ x, Used (.reset token newPassword) t x s
  | .request _, s => Idle t s

theorem firm_idle : Firm Kept setup traced t (Idle t) := by
  rintro s s' hs hs' hmove ⟨husers, done, htokens⟩
  exact ⟨Firm.ledger (.inl rfl) _ _ s s' hs hs' hmove husers, done,
    Firm.ledger (.inr rfl) _ _ s s' hs hs' hmove htokens⟩

theorem firm_returned : Firm Kept setup traced t (Call.Returned t call) := by
  cases call with
  | reset token newPassword => exact .exists fun x => firm_used x
  | request email => exact firm_idle

theorem idle_of_fresh (h : Fresh Kept t s) : Idle t s :=
  ⟨h _ (.inl rfl), [], h _ (.inr rfl)⟩

theorem Harmless.commit (h : Harmless t s)
    (htables : ∀ k : TableName, k.table s'.db = (k.table s.db).commit t) : Idle t s' := by
  obtain ⟨husers, held, htokens, -⟩ := h
  refine ⟨?_, held.map fun y => (y.1, y.2.2), ?_⟩
  · rw [Ledger, htables]
    exact husers.commit
  · rw [Ledger, htables]
    exact htokens.commit

theorem Using.commit {x : Use} (h : Using call t x s)
    (htables : ∀ k : TableName, k.table s'.db = (k.table s.db).commit t) : Used call t x s' where
  presented := h.presented
  users := by
    rw [Ledger, htables]
    exact h.users.commit
  tokens := by
    rw [Ledger, htables]
    exact h.tokens.commit

theorem resetPassword_meets {token newPassword : String}
    (hcall : calls t = .reset token newPassword) :
    (rules setup calls s₀).Meets (system setup) ((unmarked s₀).within (Distinct s₀)) t
      (fun _ => Call.Returned t (.reset token newPassword)) (fun e s => e = .lost ∨ Idle t s)
      (resetPassword setup token newPassword) fun s => Fresh Kept t s ∧ True := by
  let ended : Option ℕ → State → Prop
    | none => Idle t
    | some _ => Call.Returned t (.reset token newPassword)
  have hended (value) : Firm Kept setup False t (ended value) := by
    cases value with
    | none => exact firm_idle
    | some _ => exact firm_returned
  have hraised (e : Error) : (rules setup calls s₀).Stable t fun s => e = .lost ∨ Idle t s :=
    (Firm.const (K := Kept) _ |>.or firm_idle).stable
  refine .seq ended (transaction_keeps (Firm.const True) (fun _ => Firm.const True)
    hraised (fun e s h _ => .inr (idle_of_fresh h))
    _ (resetPasswordInTransaction_meets token newPassword) fun value => ?_) fun value => ?_
  · refine .bind (commit_meets (.inl rfl) (Firm.clear.and (firm_ready value)).stable
      (fun _ => ended value) (fun _ => (hended value).stable)
      (fun s _ _ h => ⟨h.1, .inr ?_⟩) fun s s' _ _ _ _ h htables _ => ?_)
      fun _ => .pure (hended value).stable .refl
    · cases value with
      | none => exact .inr h.2
      | some user => exact .inl (hcall ▸ h.2)
    · cases value with
      | none => exact Harmless.commit h.2 htables
      | some user =>
          obtain ⟨x, hx⟩ := h.2
          exact ⟨x, hx.commit htables⟩
  · cases value with
    | none => exact .throw (hraised _) fun s _ h => .inr h
    | some user => exact .pure firm_returned.stable .refl

theorem requestPasswordReset_meets (email : String) :
    (rules setup calls s₀).Meets (system setup) ((unmarked s₀).within (Distinct s₀)) t
      (fun _ => Call.Returned t (.request email)) (fun e s => e = .lost ∨ Idle t s)
      (requestPasswordReset setup email) fun s => Fresh Kept t s ∧ True := by
  have hraised (e : Error) : (rules setup calls s₀).Stable t fun s => e = .lost ∨ Idle t s :=
    (Firm.const (K := Kept) _ |>.or firm_idle).stable
  have hfresh : Firm Kept setup False t fun s => Fresh Kept t s ∧ True :=
    Firm.fresh.and (.const True)
  have hfind : (users (.find (.email email))).Uses (Request.Neutral Kept) :=
    uses_send.mpr fun _ h => h
  have hgenerate : generateToken.Uses (Request.Neutral Kept) := uses_send.mpr id
  unfold requestPasswordReset findUserByEmail
  refine neutral_bind hfresh hfind
    (fun _ s h => .inr (idle_of_fresh h.1)) fun user => ?_
  split
  · exact .pure firm_returned.stable fun s _ h => idle_of_fresh h.1
  refine neutral_bind hfresh hgenerate (fun _ s h => .inr (idle_of_fresh h.1)) fun token => ?_
  refine transaction_keeps (Firm.const True) (fun _ => Firm.const True) hraised
    (fun e s h _ => .inr (idle_of_fresh h)) (fun _ s => Clear t s ∧ Harmless t s) ?_
    fun _ => .bind (commit_meets (.inl rfl) (Firm.clear.and firm_harmless).stable
      (fun _ => Idle t) (fun _ => firm_idle.stable) (fun s _ _ h => ⟨h.1, .inr (.inr h.2)⟩)
      fun s s' _ _ _ _ h htables _ => h.2.commit htables) fun _ => .pure firm_returned.stable .refl
  unfold requestPasswordResetInTransaction deleteUnusedPasswordResetTokens
    createPasswordResetToken
  refine .bind (.bind (Rules.Meets.weaken (changeMany_meets (k := .passwordResetTokens)
    (w := .unused _) (c := .delete) [] (Q := fun _ => True)
    (P := fun s => Ledger .users t [] [] s ∧ Clear t s) ((Firm.ledger (by simp) _ _).and .clear)
    (fun _ _ _ _ _ _ _ _ _ => trivial) fun _ _ _ _ _ _ _ _ _ => trivial)
    fun s _ h => ⟨h.2.1 _ (.inr rfl), h.2.1 _ (.inl rfl), h.1⟩)
    fun changed => .giving (fun _ s => ∃ olds, Ledger .passwordResetTokens t
      (entries .passwordResetTokens .delete olds) [] s ∧ Ledger .users t [] [] s ∧ Clear t s)
      ?_ fun s _ h => ?_) fun _ => .exists fun olds => ?_
  · exact Firm.stable (K := Kept) (.exists fun _ => (Firm.ledger (.inr rfl) _ _).and
      ((Firm.ledger (.inl rfl) _ _).and .clear))
  · obtain ⟨olds, -, h⟩ := h
    exact ⟨olds, h⟩
  refine .bind (now_meets (K := Kept) (Q := fun _ => True) ((Firm.ledger (.inr rfl) _ _).and
    ((Firm.ledger (.inl rfl) _ _).and .clear)) fun _ _ _ _ => trivial) fun now =>
    .assume fun _ => ?_
  refine .bind (.bind (create_meets (k := .passwordResetTokens) _ []
    (P := fun s => Ledger .users t [] [] s ∧ Clear t s) ((Firm.ledger (by simp) _ _).and .clear)
    fun _ _ _ _ _ => trivial) fun i =>
    .giving (fun _ s => Clear t s ∧ Harmless t s) (Firm.clear.and firm_harmless).stable
      fun s _ h => ?_) fun _ => ?_
  · refine ⟨h.2.2, h.2.1, _, h.1, fun y hy r hr => ?_⟩
    rcases List.mem_cons.mp hy with rfl | hy
    · cases hr
      exact ⟨rfl, rfl⟩
    · obtain ⟨z, -, rfl⟩ := List.mem_map.mp hy
      cases hr
  · have hother : ¬ Kept .outbox := by simp [Kept]
    refine (meets_neutral (Firm.clear.and firm_harmless) (uses_enqueue id
      (fun a => uses_send.mpr fun h => (hother h).elim) trivial _ _ _)).mono (fun _ => .refl)
      fun e s _ h => ?_
    obtain ⟨-, husers, held, htokens, -⟩ := h
    exact ⟨quiet_of_ledgers husers htokens, trivial⟩

end ExpressCore.ResetPassword
