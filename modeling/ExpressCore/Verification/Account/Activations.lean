import ExpressCore.Verification.Account.VerifyEmail

/-! # Runs of verifications -/

namespace ExpressCore.VerifyEmail

open ReadCommitted Interleaving Interleaving.Program

variable {setup : Setup} {traced : Prop} {A : Assumption ℕ Request State} {calls : ℕ → Call}
  {span : ℕ → Time → Prop} {t : ℕ} {s s' s₀ : State}

theorem inherited_of_atRest (h : s₀.AtRest) : Inherited s₀ s₀ := by
  rintro i r (hr | ⟨t, hr⟩)
  · exact hr
  · have hnone : s₀.db.emailVerificationTokens.pending i = none :=
      (h.tables .emailVerificationTokens).pending i
    rw [hnone] at hr
    cases hr

theorem Inherited.step (h : Inherited s₀ s)
    (hevent : Event setup A (verifying calls span s₀) s s') : Inherited s₀ s' := by
  have hkept : Kept .emailVerificationTokens := .inr (.inl rfl)
  suffices hversion : ∀ i r, s'.db.emailVerificationTokens.Version i r →
      s.db.emailVerificationTokens.Version i r from fun i r hr => h i r (hversion i r hr)
  have hrow := hevent.on .emailVerificationTokens
  simp only [TableName.table] at hrow
  intro i r hr
  cases hrow with
  | same hcommitted hpending => rwa [Table.Version, hcommitted, hpending] at hr
  | write t a j v hchange hA hwrote htable =>
      rw [htable] at hr
      cases hwrote with
      | visit _ w c old =>
          cases c
          rcases version_of_write hr with hr | ⟨-, hnew⟩
          · exact hr
          · cases hnew
      | _ => exact (hchange hkept).elim
  | commit t hcommit htable => exact version_of_commit (htable ▸ hr)
  | abort t htable => exact version_of_abort (htable ▸ hr)

/-! ## What is consumed -/

/-- The tokens that activating calls have removed, each with its call. -/
def consumed (s : State) : List (ℕ × ℕ) :=
  (s.db.emailVerificationTokens.log.filter fun e => s.db.users.log.any fun x => x.1 == e.1).map
    fun e => (e.1, e.2.1)

/-- The committed intents for the mail that confirms a verification. -/
def successIntents (s : State) : List (ℕ × ℕ × Option Outbox) :=
  s.db.outbox.log.filter fun e => e.2.2.any fun row => row.jobName == "sendVerificationSuccessEmail"

theorem mem_consumed {i : ℕ} : (t, i) ∈ consumed s ↔
    (∃ v, (t, i, v) ∈ s.db.emailVerificationTokens.log) ∧ ∃ u v, (t, u, v) ∈ s.db.users.log := by
  simp only [consumed, List.mem_map, List.mem_filter, List.any_eq_true, beq_iff_eq, Prod.exists,
    Prod.mk.injEq]
  constructor
  · rintro ⟨t', i', v, ⟨hlog, t'', u, w, huser, rfl⟩, rfl, rfl⟩
    exact ⟨⟨v, hlog⟩, u, w, huser⟩
  · rintro ⟨⟨v, hlog⟩, u, w, huser⟩
    exact ⟨t, i, v, ⟨hlog, t, u, w, huser, rfl⟩, rfl, rfl⟩

/-- Removals of a call that has activated nothing are not counted. -/
private theorem consumed_of_removing {removed : List (ℕ × ℕ × Option EmailVerificationToken)}
    (htokens : s'.db.emailVerificationTokens.log = s.db.emailVerificationTokens.log ++ removed)
    (husers : s'.db.users.log = s.db.users.log) (hthread : ∀ e ∈ removed, e.1 = t)
    (hquiet : ∀ x ∈ s.db.users.log, x.1 ≠ t) : consumed s' = consumed s := by
  have hnil : (removed.filter fun e => s.db.users.log.any fun x => x.1 == e.1) = [] := by
    refine List.filter_eq_nil_iff.mpr fun e he hany => ?_
    obtain ⟨x, hx, heq⟩ := List.any_eq_true.mp hany
    exact hquiet x hx ((beq_iff_eq.mp heq).trans (hthread e he))
  rw [consumed, consumed, htokens, husers, List.filter_append, hnil, List.append_nil]

private theorem consumed_of_activating {i u : ℕ} {v : Option EmailVerificationToken}
    {user : Option User}
    (htokens : s'.db.emailVerificationTokens.log = s.db.emailVerificationTokens.log ++ [(t, i, v)])
    (husers : s'.db.users.log = s.db.users.log ++ [(t, u, user)])
    (hquiet : ∀ e ∈ s.db.emailVerificationTokens.log, e.1 ≠ t) :
    consumed s' = consumed s ++ [(t, i)] := by
  have hold : (s.db.emailVerificationTokens.log.filter fun e =>
      (s.db.users.log ++ [(t, u, user)]).any fun x => x.1 == e.1) =
      s.db.emailVerificationTokens.log.filter fun e => s.db.users.log.any fun x => x.1 == e.1 := by
    refine List.filter_congr fun e he => ?_
    simp [(hquiet e he).symm]
  rw [consumed, consumed, htokens, husers, List.filter_append, hold, List.map_append]
  simp

/-- Every committed activation has consumed a token of its own and left one intent. -/
structure Tally (calls : ℕ → Call) (span : ℕ → Time → Prop) (s₀ s : State) : Prop where
  activated : ∀ t u v, (t, u, v) ∈ s.db.users.log → ∃ x : Activation,
    x.Valid span s₀ (calls t) t ∧ u = x.record.userId ∧
      ∀ i w, (t, i, w) ∈ s.db.emailVerificationTokens.log ↔ i = x.id ∧ w = none
  removed : ∀ e ∈ s.db.emailVerificationTokens.log,
    s.db.emailVerificationTokens.committed e.2.1 = none
  distinct : (s.db.emailVerificationTokens.log.map fun e => e.2.1).Nodup
  counted : s.db.outbox.log.map Prod.fst = (consumed s).map Prod.fst
  intents : ∀ e ∈ s.db.outbox.log, ∃ row, e.2.2 = some row ∧
    row.jobName = "sendVerificationSuccessEmail"

theorem tally_of_atRest (h : s₀.AtRest) : Tally calls span s₀ s₀ := by
  have husers : s₀.db.users.log = [] := (h.tables .users).log
  have htokens : s₀.db.emailVerificationTokens.log = [] := (h.tables .emailVerificationTokens).log
  have houtbox : s₀.db.outbox.log = [] := (h.tables .outbox).log
  constructor <;> simp [husers, htokens, houtbox, consumed]

private theorem Tally.of_eq (h : Tally calls span s₀ s)
    (hkept : ∀ k : TableName, Kept k → (k.table s'.db).committed = (k.table s.db).committed ∧
      (k.table s'.db).log = (k.table s.db).log) : Tally calls span s₀ s' := by
  have husers : s'.db.users.log = s.db.users.log := (hkept .users (.inl rfl)).2
  obtain ⟨hcommitted, htokens⟩ : s'.db.emailVerificationTokens.committed =
      s.db.emailVerificationTokens.committed ∧ s'.db.emailVerificationTokens.log =
      s.db.emailVerificationTokens.log := hkept .emailVerificationTokens (.inr (.inl rfl))
  have houtbox : s'.db.outbox.log = s.db.outbox.log := (hkept .outbox (.inr (.inr rfl))).2
  constructor
  · rw [husers, htokens]
    exact h.activated
  · rw [htokens, hcommitted]
    exact h.removed
  · rw [htokens]
    exact h.distinct
  · rw [consumed, houtbox, husers, htokens]
    exact h.counted
  · rw [houtbox]
    exact h.intents

private theorem Tally.activate (h : Tally calls span s₀ s)
    (htables : ∀ k : TableName, k.table s'.db = (k.table s.db).commit t) {x : Activation}
    (hx : Activating span s₀ (calls t) t x s) : Tally calls span s₀ s' := by
  have husers : s'.db.users.log = s.db.users.log ++
      [(t, x.record.userId, some x.activated)] :=
    (congrArg Table.log (htables .users)).trans hx.users.commit_log
  have htokens : s'.db.emailVerificationTokens.log =
      s.db.emailVerificationTokens.log ++ [(t, x.id, none)] :=
    (congrArg Table.log (htables .emailVerificationTokens)).trans hx.tokens.commit_log
  have houtbox : s'.db.outbox.log = s.db.outbox.log ++ [(t, x.outboxId, some x.intent)] :=
    (congrArg Table.log (htables .outbox)).trans hx.outbox.commit_log
  have hcommitted : s'.db.emailVerificationTokens.committed =
      (s.db.emailVerificationTokens.commit t).committed :=
    congrArg Table.committed (htables .emailVerificationTokens)
  have hquiet : ∀ e ∈ s.db.emailVerificationTokens.log, e.1 ≠ t := by
    rintro e he rfl
    simpa using (hx.tokens.past e.2.1 e.2.2).mp he
  have hpresent : s.db.emailVerificationTokens.committed x.id = some x.record :=
    hx.tokens.before _ (.head _)
  have hne : ∀ e ∈ s.db.emailVerificationTokens.log, e.2.1 ≠ x.id := by
    rintro e he heq
    have hgone := h.removed e he
    rw [heq, hpresent] at hgone
    cases hgone
  constructor
  · intro u i v hlog
    rw [husers] at hlog
    rcases List.mem_append.mp hlog with hlog | hlog
    · obtain ⟨y, hvalid, hi, hall⟩ := h.activated u i v hlog
      have hu : u ≠ t := by
        rintro rfl
        exact hquiet _ ((hall _ _).mpr ⟨rfl, rfl⟩) rfl
      refine ⟨y, hvalid, hi, fun j w => ?_⟩
      rw [htokens, List.mem_append, hall]
      simp [hu]
    · obtain ⟨rfl, rfl, rfl⟩ : u = t ∧ i = x.record.userId ∧ v = some x.activated := by
        simpa using hlog
      refine ⟨x, hx.valid, rfl, fun j w => ?_⟩
      rw [htokens, List.mem_append]
      simpa using fun hold => (hquiet _ hold rfl).elim
  · intro e he
    rw [htokens] at he
    rw [hcommitted]
    rcases List.mem_append.mp he with he | he
    · refine (hx.tokens.committed_of_ne fun y hy => ?_).trans (h.removed e he)
      rw [List.mem_singleton.mp hy]
      exact (hne e he).symm
    · rw [List.mem_singleton.mp he]
      exact hx.tokens.committed (.head _)
  · rw [htokens, List.map_append]
    refine List.nodup_append.mpr ⟨h.distinct, List.nodup_singleton _, fun i hi j hj => ?_⟩
    obtain ⟨e, he, rfl⟩ := List.mem_map.mp hi
    rw [List.mem_singleton.mp hj]
    exact hne e he
  · rw [houtbox, consumed_of_activating htokens husers hquiet, List.map_append, List.map_append,
      h.counted]
    rfl
  · rw [houtbox]
    intro e he
    rcases List.mem_append.mp he with he | he
    · exact h.intents e he
    · rw [List.mem_singleton.mp he]
      exact ⟨x.intent, rfl, hx.valid.intent⟩

private theorem Tally.remove (h : Tally calls span s₀ s) (hs : s.InOrder setup traced)
    (htables : ∀ k : TableName, k.table s'.db = (k.table s.db).commit t) {held done}
    (hx : Removing span s₀ (calls t) t held done s) : Tally calls span s₀ s' := by
  have husers : s'.db.users.log = s.db.users.log :=
    (congrArg Table.log (htables .users)).trans hx.users.free.settled.2
  have houtbox : s'.db.outbox.log = s.db.outbox.log :=
    (congrArg Table.log (htables .outbox)).trans hx.outbox.free.settled.2
  have htokens : s'.db.emailVerificationTokens.log =
      s.db.emailVerificationTokens.log ++ s.db.emailVerificationTokens.writes t :=
    congrArg Table.log (htables .emailVerificationTokens)
  have hcommitted : s'.db.emailVerificationTokens.committed =
      (s.db.emailVerificationTokens.commit t).committed :=
    congrArg Table.committed (htables .emailVerificationTokens)
  have hquiet : ∀ y ∈ s.db.users.log, y.1 ≠ t := by
    rintro y hy rfl
    simpa using (hx.users.past y.2.1 y.2.2).mp hy
  have hwritten : ∀ e ∈ s.db.emailVerificationTokens.writes t,
      e.1 = t ∧ ∃ y ∈ held, y.1 = e.2.1 := by
    intro e he
    obtain ⟨ht, hp⟩ := Table.mem_writes.mp he
    obtain ⟨b, hb⟩ := (hx.tokens.own _ _).mp hp
    exact ⟨ht, _, hb, rfl⟩
  have hne : ∀ e ∈ s.db.emailVerificationTokens.log, ∀ y ∈ held, e.2.1 ≠ y.1 := by
    intro e he y hy heq
    exact (hs.ordered .emailVerificationTokens).unborn y.1 _ (hx.tokens.pending hy)
      (heq ▸ h.removed e he) e he heq
  constructor
  · intro u i v hlog
    rw [husers] at hlog
    obtain ⟨y, hvalid, hi, hall⟩ := h.activated u i v hlog
    refine ⟨y, hvalid, hi, fun j w => ?_⟩
    rw [htokens, List.mem_append, hall]
    refine or_iff_left fun hnew => hquiet _ hlog (hwritten _ hnew).1
  · intro e he
    rw [htokens] at he
    rw [hcommitted]
    rcases List.mem_append.mp he with he | he
    · exact (hx.tokens.committed_of_ne fun y hy => (hne e he y hy).symm).trans (h.removed e he)
    · obtain ⟨-, y, hy, heq⟩ := hwritten e he
      rw [← heq]
      exact (hx.tokens.committed hy).trans (hx.held y hy).1
  · rw [htokens, List.map_append]
    refine List.nodup_append.mpr ⟨h.distinct, Table.writes_keys_nodup, fun i hi j hj heq => ?_⟩
    obtain ⟨e, he, rfl⟩ := List.mem_map.mp hi
    obtain ⟨e', he', rfl⟩ := List.mem_map.mp hj
    obtain ⟨-, y, hy, hid⟩ := hwritten e' he'
    exact hne e he y hy (heq.trans hid.symm)
  · rw [houtbox, h.counted, consumed_of_removing htokens husers (fun e he => (hwritten e he).1)
      hquiet]
  · rw [houtbox]
    exact h.intents

theorem Tally.step (h : Tally calls span s₀ s) (hs : s.InOrder setup traced)
    (hevent : Event setup A (verifying calls span s₀) s s') : Tally calls span s₀ s' := by
  rcases hevent.settled with ⟨t, hfree | ⟨x, hx⟩ | ⟨held, done, hx⟩, htables⟩ | hsettled
  · exact h.of_eq fun k hk => htables k ▸ (hfree k hk).settled
  · exact h.activate htables hx
  · exact h.remove hs htables hx
  · exact h.of_eq fun k _ => hsettled k

/-- What concurrent verifications and cleanups have done since `s₀`. -/
structure VerifiedOnce (calls : ℕ → Call) (span : ℕ → Time → Prop) (s₀ : State)
    (c : Config ℕ Error Request Request.Reply State Unit) : Prop where
  once : ∀ i t t', (t, i) ∈ consumed c.shared → (t', i) ∈ consumed c.shared → t = t'
  counted : (successIntents c.shared).length = (consumed c.shared).length ∧
    ((consumed c.shared).map Prod.snd).Nodup
  activated : ∀ t u v, (t, u, v) ∈ c.shared.db.users.log →
    ∃ i r, (t, i) ∈ consumed c.shared ∧ s₀.db.emailVerificationTokens.committed i = some r ∧
      r.userId = u ∧ calls t = .verify r.token
  expired : ∀ t i r, s₀.db.emailVerificationTokens.committed i = some r →
    (∀ now, span t now → r.expiresAt < now) → (t, i) ∉ consumed c.shared
  returned : ∀ t token value, calls t = .verify token → c.thread t = .ret value →
    ∃ i r, (t, i) ∈ consumed c.shared ∧ s₀.db.emailVerificationTokens.committed i = some r ∧
      r.token = token
  raised : ∀ t token e, calls t = .verify token → c.thread t = .fail e → e ≠ .lost →
    Unlocked Kept t c.shared ∧ (∀ x ∈ c.shared.db.users.log, x.1 ≠ t) ∧
      (∀ x ∈ c.shared.db.outbox.log, x.1 ≠ t) ∧
      ∀ i v, (t, i, v) ∈ c.shared.db.emailVerificationTokens.log → e = tokenExpired ∧ v = none ∧
        ∃ r, s₀.db.emailVerificationTokens.committed i = some r ∧ r.token = token ∧
          ∃ now, span t now ∧ r.expiresAt < now
  explained : ∀ k : TableName, (k.table c.shared.db).Explained (k.table s₀.db)

/-- Concurrent verifications and cleanups. `span` are the times at which each call is answered. -/
theorem verified_once {c : Config ℕ Error Request Request.Reply State Unit} (hstart : s₀.AtRest)
    (hunique : UniqueTokens s₀)
    (hrun : (system setup).Reaches (timed span) (calling (fun t => (calls t).program setup) s₀) c) :
    VerifiedOnce calls span s₀ c := by
  have hsound : (rules setup calls span s₀).Sound (system setup) (assumed span s₀)
      (fun t _ => Call.Returned span s₀ t (calls t)) (fun t => Call.Raised span s₀ t (calls t))
      (calling (fun t => (calls t).program setup) s₀) := by
    refine hstart.sound Clear (fun _ => hstart.clear) fun t => ?_
    cases hcall : calls t with
    | verify token =>
        exact (verifyEmail_meets hunique hcall).weaken fun s _ h => ⟨h.1, trivial⟩
    | cleanup => exact cleanupExpiredTokens_meets hcall
  have hruns : (system setup).Reaches (assumed span s₀)
      (calling (fun t => (calls t).program setup) s₀) c :=
    hrun.within fun d hd => keeping_induction nofun (fun _ _ _ => .inl rfl) hsound hd
      (inherited_of_atRest hstart) fun s s' _ _ h hevent => h.step hevent
  have hend := hsound.reaches (keeping_compatible nofun) (fun _ _ _ => .inl rfl) hruns
  have h : Tally calls span s₀ c.shared :=
    keeping_induction nofun (fun _ _ _ => .inl rfl) hsound hruns (tally_of_atRest hstart)
      fun s s' hs _ h hevent => h.step hs hevent
  have hvalid {t i : ℕ} (hconsumed : (t, i) ∈ consumed c.shared) :
      ∃ x : Activation, x.Valid span s₀ (calls t) t ∧ i = x.id := by
    obtain ⟨⟨v, hlog⟩, u, w, huser⟩ := mem_consumed.mp hconsumed
    obtain ⟨x, hx, -, hall⟩ := h.activated t u w huser
    exact ⟨x, hx, ((hall i v).mp hlog).1⟩
  constructor
  · intro i t t' ht ht'
    obtain ⟨⟨v, hlog⟩, -⟩ := mem_consumed.mp ht
    obtain ⟨⟨v', hlog'⟩, -⟩ := mem_consumed.mp ht'
    exact congrArg Prod.fst (List.inj_on_of_nodup_map h.distinct hlog hlog' rfl)
  · have hall : successIntents c.shared = c.shared.db.outbox.log :=
      List.filter_eq_self.mpr fun e he => by
        obtain ⟨row, hrow, hjob⟩ := h.intents e he
        simp [hrow, hjob]
    refine ⟨?_, ?_⟩
    · rw [hall, ← List.length_map Prod.fst, h.counted, List.length_map]
    · rw [consumed, List.map_map]
      exact h.distinct.sublist (List.filter_sublist.map _)
  · intro t u v huser
    obtain ⟨x, hx, rfl, hall⟩ := h.activated t u v huser
    exact ⟨x.id, x.record, mem_consumed.mpr ⟨⟨none, (hall _ _).mpr ⟨rfl, rfl⟩⟩, _, _, huser⟩,
      hx.found, rfl, hx.presented⟩
  · intro t i r hr hexpired hconsumed
    obtain ⟨x, hx, rfl⟩ := hvalid hconsumed
    obtain ⟨now, hnow, hunexpired⟩ := hx.unexpired
    obtain rfl : r = x.record := Option.some.inj (hr.symm.trans hx.found)
    exact Nat.not_le_of_lt (hexpired now hnow) hunexpired
  · intro t token value hcall hret
    have hholds := hend.2 t
    rw [hret] at hholds
    have hreturned : Call.Returned span s₀ t (calls t) c.shared := hholds.value hend.1
    rw [hcall] at hreturned
    obtain ⟨x, hx⟩ := hreturned
    exact ⟨x.id, x.record, mem_consumed.mpr ⟨⟨none, (hx.tokens.past _ _).mpr (.head _)⟩, _, _,
      (hx.users.past _ _).mpr (.head _)⟩, hx.valid.found,
      (Call.verify.inj hx.valid.presented).symm⟩
  · intro t token e hcall hfail hne
    have hholds := hend.2 t
    rw [hfail] at hholds
    have hraised : Call.Raised span s₀ t (calls t) e c.shared := hholds.error hend.1
    rcases hraised.resolve_left hne with hfresh | ⟨he, done, hx⟩
    · have hnone (k : TableName) (hk : Kept k) : ∀ x ∈ (k.table c.shared.db).log, x.1 ≠ t := by
        rintro x hx rfl
        simpa using ((hfresh k hk).past x.2.1 x.2.2).mp hx
      exact ⟨fun k hk => (hfresh k hk).free, hnone .users (.inl rfl),
        hnone .outbox (.inr (.inr rfl)), fun i v hlog =>
          (hnone .emailVerificationTokens (.inr (.inl rfl)) _ hlog rfl).elim⟩
    · refine ⟨?_, ?_, ?_, fun i v hlog => ?_⟩
      · rintro k (rfl | rfl | rfl)
        · exact hx.users.free
        · exact hx.tokens.free
        · exact hx.outbox.free
      · rintro x hlog rfl
        simpa using (hx.users.past x.2.1 x.2.2).mp hlog
      · rintro x hlog rfl
        simpa using (hx.outbox.past x.2.1 x.2.2).mp hlog
      · obtain ⟨hv, r, hr, hpresents, hexpired⟩ := hx.done _ ((hx.tokens.past i v).mp hlog)
        rw [hcall] at hpresents
        exact ⟨he token hcall, hv, r, hr, hpresents, hexpired⟩
  · exact keeping_induction nofun (fun _ _ _ => .inl rfl) hsound hruns (fun _ _ => .inl rfl)
      fun s s' _ _ h hevent => hevent.explained h

/-! ## A race of two verifications -/

def unverifiedUser : User :=
  { name := some "Ada", slug := some "ada", email := some "ada@example.org", password := none
    avatar := none, roleId := none, isEmailVerified := false, deletedAt := none }

/-- One user and the token that verifies the address. -/
def unverified : State :=
  { plainState (oneRow 5 unverifiedUser) with
    db := { (plainState (oneRow 5 unverifiedUser)).db with
      emailVerificationTokens := oneRow 1 { token := "abc", userId := 5, expiresAt := 100 } } }

theorem unverified_atRest : unverified.AtRest where
  tables k := by
    cases k with
    | users => exact oneRow_atRest 5 _
    | emailVerificationTokens => exact oneRow_atRest 1 _
    | _ => exact Table.empty_atRest
  poisoned _ := rfl
  seen := rfl
  minted := rfl
  families := rfl
  comparisons := rfl
  tickets := rfl

theorem unverified_unique : UniqueTokens unverified := by
  have hone (i : ℕ) (r : EmailVerificationToken)
      (h : unverified.db.emailVerificationTokens.committed i = some r) : i = 1 :=
    List.mem_singleton.mp (unverified.db.emailVerificationTokens.mem_of_committed i r h)
  exact fun i j r r' h h' _ => (hone i r h).trans (hone j r' h').symm

/-- Both calls have read the token when the first updates the user; the second waits for it and
finds the token gone. -/
def raced : Config ℕ Error Request Request.Reply State Unit :=
  (system plainSetup).after
    (calling (fun _ => Call.program plainSetup (.verify "abc")) unverified)
    (List.replicate 5 (.run 1 {}) ++ List.replicate 4 (.run 2 {}) ++
      List.replicate 8 (.run 1 {}) ++ List.replicate 5 (.run 2 {}))

theorem verified_once_raced :
    VerifiedOnce (fun _ => .verify "abc") (fun _ _ => True) unverified raced ∧
      consumed raced.shared = [(1, 1)] ∧ raced.thread 1 = .ret () ∧
      (raced.thread 2).error? = some (Error.error "Record to update not found.") := by
  refine ⟨verified_once unverified_atRest unverified_unique (.of_schedule (fun l _ _ _ => ?_)
    (by decide +kernel)), by decide +kernel, Program.value?_eq_some.mp (by decide +kernel),
    by decide +kernel⟩
  cases l with
  | run t o => exact fun _ _ _ => trivial
  | _ => trivial

end ExpressCore.VerifyEmail
