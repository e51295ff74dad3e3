import ExpressCore.Model.Auth
import ExpressCore.Verification.System.Calls
import ExpressCore.Verification.System.Start

/-! # Concurrent verifications of email addresses -/

namespace ExpressCore.VerifyEmail

open ReadCommitted Interleaving Interleaving.Program

/-- The calls that consume or remove verification tokens. -/
inductive Call where
  | verify (token : String)
  | cleanup

def Call.program (setup : Setup) : Call → Service Unit
  | .verify token => verifyEmail token
  | .cleanup => cleanupExpiredTokens setup

/-- The tokens that a call may remove. -/
def Call.Presents : Call → String → Prop
  | .verify token, x => x = token
  | .cleanup, _ => True

/-- The tables that verifications write to. -/
def Kept (k : TableName) : Prop := k = .users ∨ k = .emailVerificationTokens ∨ k = .outbox

/-- An activation: the token and the user it found, and what it wrote. -/
structure Activation where
  id : ℕ
  record : EmailVerificationToken
  user : User
  outboxId : ℕ
  intent : Outbox

def Activation.activated (x : Activation) : User :=
  x.user.apply { isEmailVerified := some true }

section Calls

variable (span : ℕ → Time → Prop) (s₀ : State) (call : Call) (t : ℕ)

/-- The row was there at the start, and the call read the clock after its end. -/
def Lapsed (i : ℕ) : Prop :=
  ∃ r, s₀.db.emailVerificationTokens.committed i = some r ∧ call.Presents r.token ∧
    ∃ now, span t now ∧ r.expiresAt < now

/-- The token was there at the start, and the call read the clock before its end. -/
structure Activation.Valid (x : Activation) : Prop where
  found : s₀.db.emailVerificationTokens.committed x.id = some x.record
  presented : call = .verify x.record.token
  unexpired : ∃ now, span t now ∧ now ≤ x.record.expiresAt
  intent : x.intent.jobName = "sendVerificationSuccessEmail"

/-- Ready to commit an activation. -/
structure Activating (x : Activation) (s : State) : Prop where
  valid : x.Valid span s₀ call t
  users : Ledger .users t [(x.record.userId, some x.user, some x.activated)] [] s
  tokens : Ledger .emailVerificationTokens t [(x.id, some x.record, none)] [] s
  outbox : Ledger .outbox t [(x.outboxId, none, some x.intent)] [] s

/-- An activation is committed. -/
structure Activated (x : Activation) (s : State) : Prop where
  valid : x.Valid span s₀ call t
  users : Ledger .users t [] [(x.record.userId, some x.activated)] s
  tokens : Ledger .emailVerificationTokens t [] [(x.id, none)] s
  outbox : Ledger .outbox t [] [(x.outboxId, some x.intent)] s

/-- Nothing but removals of expired tokens: `held` are the rows locked, `done` those removed. -/
structure Removing (held : List (ℕ × Option EmailVerificationToken × Option EmailVerificationToken))
    (done : List (ℕ × Option EmailVerificationToken)) (s : State) : Prop where
  users : Ledger .users t [] [] s
  tokens : Ledger .emailVerificationTokens t held done s
  outbox : Ledger .outbox t [] [] s
  held : ∀ x ∈ held, x.2.2 = none ∧ Lapsed span s₀ call t x.1
  done : ∀ x ∈ done, x.2 = none ∧ Lapsed span s₀ call t x.1

end Calls

variable {setup : Setup} {calls : ℕ → Call} {span : ℕ → Time → Prop} {call : Call} {t : ℕ}
  {s s' s₀ : State}

/-- A call commits an activation or removals. -/
def verifying (calls : ℕ → Call) (span : ℕ → Time → Prop) (s₀ : State) : Discipline where
  tables := Kept
  change _ k a _ :=
    match k, a with
    | .emailVerificationTokens, .visit _ _ _ => True
    | .emailVerificationTokens, _ => False
    | _, _ => True
  commit t s := Unlocked Kept t s ∨ (∃ x, Activating span s₀ (calls t) t x s) ∨
    ∃ held done, Removing span s₀ (calls t) t held done s
  other _ _ _ := True
  commit_free _ _ h := .inl h

/-- The token was there at the start. -/
def Present (s₀ : State) (x : ℕ × EmailVerificationToken) : Prop :=
  s₀.db.emailVerificationTokens.committed x.1 = some x.2

/-- No token is added. -/
def Inherited (s₀ s : State) : Prop :=
  ∀ i r, s.db.emailVerificationTokens.Version i r →
    s₀.db.emailVerificationTokens.committed i = some r

/-- The unique index on `token`. -/
def UniqueTokens (s : State) : Prop :=
  ∀ i j r r', s.db.emailVerificationTokens.committed i = some r →
    s.db.emailVerificationTokens.committed j = some r' → r.token = r'.token → i = j

/-- Runs timed by `span` in which no token is added. -/
abbrev assumed (span : ℕ → Time → Prop) (s₀ : State) : Assumption ℕ Request State :=
  (timed span).within (Inherited s₀)

/-! ## One verification -/

abbrev rules (setup : Setup) (calls : ℕ → Call) (span : ℕ → Time → Prop) (s₀ : State) :
    Rules ℕ State :=
  keeping setup False (assumed span s₀) (verifying calls span s₀)

theorem firm_activated (x : Activation) {traced : Prop} :
    Firm Kept setup traced t (Activated span s₀ call t x) := by
  intro s s' hs hs' hmove h
  exact
    { valid := h.valid
      users := Firm.ledger (.inl rfl) _ _ s s' hs hs' hmove h.users
      tokens := Firm.ledger (.inr (.inl rfl)) _ _ s s' hs hs' hmove h.tokens
      outbox := Firm.ledger (.inr (.inr rfl)) _ _ s s' hs hs' hmove h.outbox }

theorem firm_activating (x : Activation) {traced : Prop} :
    Firm Kept setup traced t (Activating span s₀ call t x) := by
  intro s s' hs hs' hmove h
  exact
    { valid := h.valid
      users := Firm.ledger (.inl rfl) _ _ s s' hs hs' hmove h.users
      tokens := Firm.ledger (.inr (.inl rfl)) _ _ s s' hs hs' hmove h.tokens
      outbox := Firm.ledger (.inr (.inr rfl)) _ _ s s' hs hs' hmove h.outbox }

theorem firm_removing {traced : Prop} (held done) :
    Firm Kept setup traced t (Removing span s₀ call t held done) := by
  intro s s' hs hs' hmove h
  exact
    { h with
      users := Firm.ledger (.inl rfl) _ _ s s' hs hs' hmove h.users
      tokens := Firm.ledger (.inr (.inl rfl)) _ _ s s' hs hs' hmove h.tokens
      outbox := Firm.ledger (.inr (.inr rfl)) _ _ s s' hs hs' hmove h.outbox }

/-- What the body of the transaction hands to the commit. -/
def Ready (span : ℕ → Time → Prop) (s₀ : State) (token : String) (t : ℕ) :
    Option (ℕ × User) → State → Prop
  | none, s => ∃ held, Removing span s₀ (.verify token) t held [] s
  | some _, s => ∃ x, Activating span s₀ (.verify token) t x s

theorem firm_ready (token : String) (value : Option (ℕ × User)) {traced : Prop} :
    Firm Kept setup traced t (Ready span s₀ token t value) := by
  cases value with
  | none => exact .exists fun _ => firm_removing _ _
  | some _ => exact .exists fun x => firm_activating x

private theorem quiet_of_ledgers {users tokens outbox}
    (husers : Ledger .users t users [] s) (htokens : Ledger .emailVerificationTokens t tokens [] s)
    (houtbox : Ledger .outbox t outbox [] s) : Quiet Kept t s := by
  rintro k (rfl | rfl | rfl)
  · exact ⟨_, husers⟩
  · exact ⟨_, htokens⟩
  · exact ⟨_, houtbox⟩

theorem verifyEmailInTransaction_meets (token : String) (hunique : UniqueTokens s₀) :
    (rules setup calls span s₀).Meets (system setup) (assumed span s₀) t
      (fun value s => Clear t s ∧ Ready span s₀ token t value s)
      (fun _ s => Quiet Kept t s ∧ True) (verifyEmailInTransaction token)
      fun s => Clear t s ∧ Fresh Kept t s ∧ True := by
  unfold verifyEmailInTransaction
  refine .bind (find_meets (k := .emailVerificationTokens) (w := .token token)
    (Q := fun x _ => Present s₀ x) (Firm.clear.and (Firm.fresh.and (.const True)))
    (fun _ => .const _) fun s x _ hA _ _ hview => hA.2 x.1 x.2 (version_of_view hview))
    fun found => ?_
  have hstop (e : Error) (P : State → Prop) (hP : ∀ s, P s → Quiet Kept t s) :
      (rules setup calls span s₀).Meets (system setup) (assumed span s₀) t
        (fun value s => Clear t s ∧ Ready span s₀ token t value s)
        (fun _ s => Quiet Kept t s ∧ True) (throw e : Service (Option (ℕ × User))) P :=
    .throw (Firm.quiet.and (Firm.const True)).stable fun s _ h => ⟨hP s h, trivial⟩
  split
  · exact hstop _ _ fun s h => quiet_of_fresh h.2.2.1
  rename_i i record
  refine Rules.Meets.under (fun s => (record.token = token ∧
    s₀.db.emailVerificationTokens.committed i = some record) ∧ Clear t s ∧ Fresh Kept t s)
    (.assume ?_) fun s _ h => ?_
  · rintro ⟨htoken, hfound⟩
    have hone {olds : List (ℕ × EmailVerificationToken)}
        (hholds : ∀ x ∈ olds, Condition.holds (TokenWhere.token token) x.1 x.2 = true)
        (hknown : ∀ x ∈ olds, Present s₀ x) :
        ∀ x ∈ olds, x = (i, record) := fun x hx => by
      have hid : x.1 = i := hunique x.1 i x.2 record (hknown x hx) hfound
        ((eq_of_beq (hholds x hx)).trans htoken.symm)
      exact Prod.ext hid (Option.some.inj ((hknown x hx).symm.trans (hid ▸ hfound)))
    refine .bind (now_meets (Q := span t) (Firm.clear.and (Firm.fresh (K := Kept)))
      fun s _ hA _ => hA.1) fun now => .assume fun hnow => ?_
    split
    · rename_i hexpired
      refine .bind (Rules.Meets.weaken (changeMany_meets (k := .emailVerificationTokens)
        (w := .token token) (c := .delete) [] (P := fun s => Ledger .users t [] [] s ∧
          Ledger .outbox t [] [] s ∧ Clear t s) ((Firm.ledger (by simp) _ _).and
          ((Firm.ledger (by simp) _ _).and .clear)) (Q := Present s₀)
        (fun _ i old _ hA _ _ hcommitted _ => hA.2 i old (.inl hcommitted))
        fun _ _ _ _ _ _ _ _ _ => trivial)
        fun s _ h => ⟨h.2 _ (.inr (.inl rfl)), h.2 _ (.inl rfl), h.2 _ (.inr (.inr rfl)), h.1⟩)
        fun changed => ?_
      refine .pure (Firm.clear.and (firm_ready token none)).stable fun s _ h => ?_
      obtain ⟨olds, hchanged, htokens, husers, houtbox, hclear⟩ := h
      refine ⟨hclear, _, husers, htokens, houtbox, fun x hx => ?_, nofun⟩
      obtain ⟨y, hy, rfl⟩ := List.mem_map.mp hx
      obtain rfl := hone hchanged.holds hchanged.known y hy
      exact ⟨rfl, record, hfound, htoken, now, hnow, hexpired⟩
    · rename_i hunexpired
      refine .bind (Rules.Meets.weaken (changeOne_meets (k := .users) (w := .id record.userId)
        (c := .update { isEmailVerified := some true }) []
        (P := fun s => Ledger .emailVerificationTokens t [] [] s ∧ Ledger .outbox t [] [] s ∧
          Clear t s) (Q := fun _ => True) ((Firm.ledger (by simp) _ _).and
          ((Firm.ledger (by simp) _ _).and .clear)) (fun _ _ _ _ _ _ _ _ _ => trivial)
        (fun _ _ _ _ _ _ _ _ _ => trivial)
        (fun _ s h h' => ⟨quiet_of_ledgers h h'.1 h'.2.1, trivial⟩)
        fun _ => (Firm.quiet.and (Firm.const True)).stable)
        fun s _ h => ⟨h.2 _ (.inl rfl), h.2 _ (.inr (.inl rfl)), h.2 _ (.inr (.inr rfl)), h.1⟩)
        fun updated => .exists fun users => .exists fun changed => .assume fun hchanged => ?_
      rcases hchanged.single fun x hx => (eq_of_beq (hchanged.holds x hx) : x.1 = record.userId)
        with rfl | ⟨user, rfl⟩
      · cases hchanged.changed
      refine .bind (Rules.Meets.weaken (changeOne_meets (k := .emailVerificationTokens)
        (w := .token token) (c := .delete) [] (P := fun s =>
          Ledger .users t [(record.userId, some user,
            some (user.apply { isEmailVerified := some true }))] [] s ∧
          Ledger .outbox t [] [] s ∧ Clear t s) ((Firm.ledger (by simp) _ _).and
          ((Firm.ledger (by simp) _ _).and .clear)) (Q := Present s₀)
        (fun _ i old _ hA _ _ hcommitted _ => hA.2 i old (.inl hcommitted))
        (fun _ _ _ _ _ _ _ _ _ => trivial)
        (fun _ s h h' => ⟨quiet_of_ledgers h'.1 h h'.2.1, trivial⟩)
        fun _ => (Firm.quiet.and (Firm.const True)).stable)
        fun s _ h => ⟨h.2.1, h.1, h.2.2.1, h.2.2.2⟩)
        fun deleted => .exists fun olds => .exists fun others => .assume fun hdeleted => ?_
      rcases hdeleted.single fun x hx => congrArg Prod.fst
        (hone hdeleted.holds hdeleted.known x hx) with rfl | ⟨r, rfl⟩
      · cases hdeleted.changed
      obtain rfl : record = r := congrArg Prod.snd
        (hone hdeleted.holds hdeleted.known _ (.head _)).symm
      refine .bind (Rules.Meets.weaken (enqueue_meets [] [] (P := fun s =>
          Ledger .users t [(record.userId, some user,
            some (user.apply { isEmailVerified := some true }))] [] s ∧
          Ledger .emailVerificationTokens t [(i, some record, none)] [] s ∧ Clear t s)
          ((Firm.ledger (by simp) _ _).and ((Firm.ledger (by simp) _ _).and .clear))
          fun _ _ => trivial) fun s _ h => ⟨h.2.2.1, h.2.1, h.1, h.2.2.2⟩) fun _ => ?_
      refine .pure (Firm.clear.and (firm_ready token (some _))).stable fun s _ h => ?_
      obtain ⟨j, intent, ⟨-, hjob, -⟩, houtbox, husers, htokens, hclear⟩ := h
      exact ⟨hclear, ⟨i, record, user, j, intent⟩, ⟨hfound, by rw [htoken],
        ⟨now, hnow, Nat.le_of_not_lt hunexpired⟩, hjob⟩, husers, htokens, houtbox⟩
  · obtain ⟨hw, hfound, -⟩ := h.1 _ rfl
    exact ⟨⟨eq_of_beq hw, hfound⟩, h.2.1, h.2.2.1⟩

theorem Activating.commit {x : Activation} (h : Activating span s₀ call t x s)
    (htables : ∀ k : TableName, k.table s'.db = (k.table s.db).commit t) :
    Activated span s₀ call t x s' where
  valid := h.valid
  users := by
    rw [Ledger, htables]
    exact h.users.commit
  tokens := by
    rw [Ledger, htables]
    exact h.tokens.commit
  outbox := by
    rw [Ledger, htables]
    exact h.outbox.commit

theorem Removing.commit {held done} (h : Removing span s₀ call t held done s)
    (htables : ∀ k : TableName, k.table s'.db = (k.table s.db).commit t) :
    Removing span s₀ call t [] (done ++ held.map fun x => (x.1, x.2.2)) s' where
  users := by
    rw [Ledger, htables]
    exact h.users.commit
  tokens := by
    rw [Ledger, htables]
    exact h.tokens.commit
  outbox := by
    rw [Ledger, htables]
    exact h.outbox.commit
  held := nofun
  done x hx := by
    rcases List.mem_append.mp hx with hx | hx
    · exact h.done x hx
    · obtain ⟨y, hy, rfl⟩ := List.mem_map.mp hx
      exact h.held y hy

/-- What a call that has returned has done. -/
def Call.Returned (span : ℕ → Time → Prop) (s₀ : State) (t : ℕ) : Call → State → Prop
  | .verify token, s => ∃ x, Activated span s₀ (.verify token) t x s
  | .cleanup, s => ∃ done, Removing span s₀ .cleanup t [] done s

def tokenExpired : Error := appError "Token expired" 400

/-- What a call that has raised has done. -/
def Call.Raised (span : ℕ → Time → Prop) (s₀ : State) (t : ℕ) (call : Call) (e : Error)
    (s : State) : Prop :=
  e = .lost ∨ Fresh Kept t s ∨
    (∀ token, call = .verify token → e = tokenExpired) ∧ ∃ done, Removing span s₀ call t [] done s

theorem firm_returned {traced : Prop} :
    Firm Kept setup traced t (Call.Returned span s₀ t call) := by
  cases call with
  | verify token => exact .exists fun x => firm_activated x
  | cleanup => exact .exists fun _ => firm_removing _ _

theorem firm_raised (e : Error) {traced : Prop} :
    Firm Kept setup traced t (Call.Raised span s₀ t call e) :=
  (Firm.const _).or (Firm.fresh.or ((Firm.const _).and (.exists fun _ => firm_removing _ _)))

theorem verifyEmail_meets {token : String} (hunique : UniqueTokens s₀)
    (hcall : calls t = .verify token) :
    (rules setup calls span s₀).Meets (system setup) (assumed span s₀) t
      (fun _ => Call.Returned span s₀ t (.verify token)) (Call.Raised span s₀ t (.verify token))
      (verifyEmail token) fun s => Fresh Kept t s ∧ True := by
  let ended : Option (ℕ × User) → State → Prop
    | none, s => ∃ done, Removing span s₀ (.verify token) t [] done s
    | some _, s => ∃ x, Activated span s₀ (.verify token) t x s
  have hended (value) : Firm Kept setup False t (ended value) := by
    cases value with
    | none => exact .exists fun _ => firm_removing _ _
    | some _ => exact .exists fun x => firm_activated x
  refine .seq ended (transaction_keeps (Firm.const True) (fun _ => Firm.const True)
    (fun e => (firm_raised e).stable) (fun e s h _ => .inr (.inl h))
    _ (verifyEmailInTransaction_meets token hunique) fun value => ?_) fun value => ?_
  · refine .bind (commit_meets (.inl rfl) (Firm.clear.and (firm_ready token value)).stable
      (fun _ => ended value) (fun _ => (hended value).stable)
      (fun s _ _ h => ⟨h.1, .inr ?_⟩) fun s s' _ _ _ _ h htables _ => ?_)
      fun _ => .pure (hended value).stable .refl
    · cases value with
      | none => exact .inr (h.2.imp fun held hheld => ⟨[], hcall ▸ hheld⟩)
      | some user => exact .inl (hcall ▸ h.2)
    · cases value with
      | none =>
          obtain ⟨held, hheld⟩ := h.2
          exact ⟨_, hheld.commit htables⟩
      | some user =>
          obtain ⟨x, hx⟩ := h.2
          exact ⟨x, hx.commit htables⟩
  · cases value with
    | none => exact .throw (firm_raised _).stable fun s _ h => .inr (.inr ⟨fun _ _ => rfl, h⟩)
    | some user => exact .pure firm_returned.stable .refl

theorem cleanupExpiredTokens_meets (hcall : calls t = .cleanup) :
    (rules setup calls span s₀).Meets (system setup) (assumed span s₀) t
      (fun _ => Call.Returned span s₀ t .cleanup) (Call.Raised span s₀ t .cleanup)
      (cleanupExpiredTokens setup) fun s => Fresh Kept t s ∧ Clear t s := by
  let P (s : State) : Prop := ∃ done, Clear t s ∧ Removing span s₀ .cleanup t [] done s
  have hP : Firm Kept setup False t P := .exists fun _ => Firm.clear.and (firm_removing _ _)
  have hfree (s : State) (h : P s) : Unlocked Kept t s := by
    obtain ⟨done, -, h⟩ := h
    rintro k (rfl | rfl | rfl)
    · exact h.users.free
    · exact h.tokens.free
    · exact h.outbox.free
  have hdetached {α : Type} {p : Service α} (hp : p.Uses (Request.Detached Kept)) :
      (rules setup calls span s₀).Meets (system setup) (assumed span s₀) t (fun _ => P)
        (Call.Raised span s₀ t .cleanup) p P := by
    refine ((meets_detached hP hp).weaken fun s _ h => ⟨hfree s h, h⟩).mono (fun _ s _ h => h.2)
      fun e s _ h => .inr (.inr ⟨nofun, ?_⟩)
    obtain ⟨done, -, h⟩ := h.2
    exact ⟨done, h⟩
  have hcomplete : Request.Detached Kept (.sql (.complete .prisma)) := .inr (.inl rfl)
  unfold cleanupExpiredTokens
  refine .bind (Rules.Meets.weaken (now_meets (Q := span t) hP fun s _ hA _ => hA.1) fun s _ h =>
    ⟨[], h.2, h.1 _ (.inl rfl), h.1 _ (.inr (.inl rfl)), h.1 _ (.inr (.inr rfl)), nofun, nofun⟩)
    fun now => .assume fun hnow => .bind (hdetached ?_) fun _ => ?_
  · exact uses_deleteBatches (fun a => uses_send.mpr (.inl fun h => by simp [Kept] at h))
      hcomplete _ _ _ _ _ _
  refine .seq (fun _ => P) (.exists fun done => ?_) fun _ => .bind (hdetached ?_) fun _ =>
    .bind (hdetached ?_) fun _ => .pure firm_returned.stable fun s _ h => ?_
  · refine Rules.Meets.under (fun s =>
      (∀ x ∈ done, x.2 = none ∧ Lapsed span s₀ .cleanup t x.1) ∧
        Ledger .emailVerificationTokens t [] done s ∧
          Ledger .users t [] [] s ∧ Ledger .outbox t [] [] s ∧ Clear t s)
      (.assume fun hdone => ?_) fun s _ h => ⟨h.2.done, h.2.tokens, h.2.users, h.2.outbox, h.1⟩
    refine (changeManyPrisma_meets (k := .emailVerificationTokens) (w := .expired now)
      (c := .delete) done (Q := fun x => Lapsed span s₀ .cleanup t x.1)
      (S := fun _ => True) (K := fun k => k = .users ∨ k = .outbox)
        ((Firm.ledger (.inl rfl) _ _).and ((Firm.ledger (.inr rfl) _ _).and .clear))
      (fun s i old _ (hA : (assumed span s₀).request t _ s) _ _ hcommitted hw =>
        ⟨old, hA.2 i old (.inl hcommitted), trivial, now, hnow, of_decide_eq_true hw⟩)
      (fun s h => ?_) (by simp) (fun _ _ _ _ _ _ _ _ _ => trivial)
      fun olds s _ _ hlapsed hledger h => ⟨h.2.2, ?_, trivial⟩).mono (fun changed s _ h => ?_)
      fun _ => .refl
    · rintro k (rfl | rfl)
      · exact h.1.free
      · exact h.2.1.free
    · refine .inr (.inr ⟨entries .emailVerificationTokens .delete olds, done, ?_⟩)
      rw [hcall]
      refine ⟨h.1, hledger, h.2.1, fun x hx => ?_, hdone⟩
      obtain ⟨y, hy, rfl⟩ := List.mem_map.mp hx
      exact ⟨rfl, hlapsed y hy⟩
    · obtain ⟨olds, hchanged, -, htokens, husers, houtbox, hclear⟩ := h
      refine ⟨_, hclear, husers, htokens, houtbox, nofun, fun x hx => ?_⟩
      rcases List.mem_append.mp hx with hx | hx
      · exact hdone x hx
      · obtain ⟨y, hy, rfl⟩ := List.mem_map.mp hx
        obtain ⟨z, hz, rfl⟩ := List.mem_map.mp hy
        exact ⟨rfl, hchanged.known z hz⟩
  · exact uses_changeMany (fun a => uses_send.mpr (.inl fun h => by simp [Kept] at h)) hcomplete _ _
  · exact uses_deleteBatches (fun a => uses_send.mpr (.inl fun h => by simp [Kept] at h))
      hcomplete _ _ _ _ _ _
  · obtain ⟨done, -, h⟩ := h
    exact ⟨done, h⟩

end ExpressCore.VerifyEmail
