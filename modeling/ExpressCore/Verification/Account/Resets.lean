import ExpressCore.Verification.Account.ResetPassword

/-! # Runs of password resets -/

namespace ExpressCore.ResetPassword

open ReadCommitted Interleaving Interleaving.Program

variable {setup : Setup} {traced : Prop} {A : Assumption ℕ Request State} {calls : ℕ → Call}
  {t : ℕ} {s s' s₀ : State}

/-! ## Tokens stay distinct -/

/-- No two tokens of the table are the same. -/
def UniqueTokens (s : State) : Prop :=
  ∀ i j r r', s.db.passwordResetTokens.committed i = some r →
    s.db.passwordResetTokens.committed j = some r' → r.token = r'.token → i = j

theorem distinct_of_atRest (h : s₀.AtRest) (hunique : UniqueTokens s₀) : Distinct s₀ s₀ := by
  have hrest : s₀.db.passwordResetTokens.AtRest := h.tables .passwordResetTokens
  have hnamed {i : ℕ} {token : String} (hi : Named s₀ s₀ i token) :
      ∃ r, s₀.db.passwordResetTokens.committed i = some r ∧ r.token = token := by
    obtain ⟨r, htoken, hr | ⟨t, hr⟩⟩ := hi
    · exact ⟨r, hr, htoken⟩
    · simp [hrest.log] at hr
  have hversion {i : ℕ} {r : PasswordResetToken} (hr : s₀.db.passwordResetTokens.Version i r) :
      s₀.db.passwordResetTokens.committed i = some r := by
    rcases hr with hr | ⟨t, hr⟩
    · exact hr
    · simp [hrest.pending i] at hr
  constructor
  · intro i j token hi hj
    obtain ⟨r, hr, rfl⟩ := hnamed hi
    obtain ⟨r', hr', heq⟩ := hnamed hj
    exact hunique i j r r' hr hr' heq.symm
  · intro i r j hr hj
    obtain ⟨r', hr', heq⟩ := hnamed hj
    exact hunique i j r r' (hversion hr) hr' heq.symm
  · exact fun i r j r' hr hr' => hunique i j r r' (hversion hr) (hversion hr')
  · exact fun i r hr => ⟨r, rfl, .inl hr⟩

/-- A step after which no new token is about. -/
private theorem Distinct.of_old (h : Distinct s₀ s)
    (hnamed : ∀ i token, Named s₀ s' i token → Named s₀ s i token ∨
      ∃ r, s.db.passwordResetTokens.Version i r ∧ r.token = token)
    (hversion : ∀ i r, s'.db.passwordResetTokens.Version i r →
      ∃ old, s.db.passwordResetTokens.Version i old ∧ old.token = r.token)
    (hcommitted : ∀ i r, s'.db.passwordResetTokens.committed i = some r →
      Named s₀ s' i r.token) : Distinct s₀ s' where
  named i j token hi hj := by
    rcases hnamed i token hi with hi | ⟨r, hr, rfl⟩ <;>
      rcases hnamed j _ hj with hj | ⟨r', hr', heq⟩
    · exact h.named i j token hi hj
    · exact (h.version j r' i hr' (heq ▸ hi)).symm
    · exact h.version i r j hr hj
    · exact h.versions i r j r' hr hr' heq.symm
  version i r j hr hj := by
    obtain ⟨old, hold, htoken⟩ := hversion i r hr
    rcases hnamed j _ hj with hj | ⟨r', hr', heq⟩
    · exact h.version i old j hold (htoken ▸ hj)
    · exact h.versions i old j r' hold hr' (htoken.trans heq.symm)
  versions i r j r' hr hr' heq := by
    obtain ⟨old, hold, htoken⟩ := hversion i r hr
    obtain ⟨old', hold', htoken'⟩ := hversion j r' hr'
    exact h.versions i old j old' hold hold' (by rw [htoken, htoken', heq])
  committed := hcommitted

private theorem named_iff_of_log
    (hlog : s'.db.passwordResetTokens.log = s.db.passwordResetTokens.log)
    {i : ℕ} {token : String} : Named s₀ s' i token ↔ Named s₀ s i token := by
  unfold Named
  rw [hlog]

private theorem Distinct.insert (h : Distinct s₀ s) {i : ℕ} {row : PasswordResetToken}
    (htable : s'.db.passwordResetTokens = s.db.passwordResetTokens.write t i (some row))
    (hunnamed : ∀ j, ¬ Named s₀ s j row.token)
    (hunused : ∀ j r, s.db.passwordResetTokens.Version j r → r.token ≠ row.token) :
    Distinct s₀ s' := by
  have hlog : s'.db.passwordResetTokens.log = s.db.passwordResetTokens.log := by
    rw [htable]
    rfl
  have hversion {j : ℕ} {r : PasswordResetToken} (hr : s'.db.passwordResetTokens.Version j r) :
      s.db.passwordResetTokens.Version j r ∨ j = i ∧ row = r := by
    rw [htable] at hr
    exact (version_of_write hr).imp_right fun ⟨hi, heq⟩ => ⟨hi, Option.some.inj heq⟩
  constructor
  · exact fun i j token hi hj =>
      h.named i j token ((named_iff_of_log hlog).mp hi) ((named_iff_of_log hlog).mp hj)
  · intro j r k hr hk
    have hk := (named_iff_of_log hlog).mp hk
    rcases hversion hr with hr | ⟨rfl, rfl⟩
    · exact h.version j r k hr hk
    · exact (hunnamed k hk).elim
  · intro j r k r' hr hr' heq
    rcases hversion hr with hr | ⟨rfl, rfl⟩ <;> rcases hversion hr' with hr' | ⟨rfl, rfl⟩
    · exact h.versions j r k r' hr hr' heq
    · exact (hunused j r hr heq).elim
    · exact (hunused k r' hr' heq.symm).elim
    · rfl
  · intro j r hr
    rw [htable] at hr
    exact (named_iff_of_log hlog).mpr (h.committed j r hr)

private theorem Distinct.commit (h : Distinct s₀ s)
    (htable : s'.db.passwordResetTokens = s.db.passwordResetTokens.commit t) :
    Distinct s₀ s' := by
  have hlog : ∀ e, e ∈ s'.db.passwordResetTokens.log ↔
      e ∈ s.db.passwordResetTokens.log ∨ e ∈ s.db.passwordResetTokens.writes t := fun e => by
    rw [htable, Table.commit_log, List.mem_append]
  refine h.of_old (fun i token hi => ?_) (fun i r hr => ?_) fun i r hr => ?_
  · obtain ⟨r, htoken, hr | ⟨u, hu⟩⟩ := hi
    · exact .inl ⟨r, htoken, .inl hr⟩
    · rcases (hlog _).mp hu with hu | hu
      · exact .inl ⟨r, htoken, .inr ⟨u, hu⟩⟩
      · exact .inr ⟨r, .inr ⟨t, (Table.mem_writes.mp hu).2⟩, htoken⟩
  · exact ⟨r, version_of_commit (htable ▸ hr), rfl⟩
  · rw [htable] at hr
    rcases Table.commit_committed_eq_some hr with hr | ⟨hr, -⟩
    · exact ⟨r, rfl, .inr ⟨t, (hlog _).mpr (.inr (Table.mem_writes.mpr ⟨rfl, hr⟩))⟩⟩
    · obtain ⟨r', htoken, hr'⟩ := h.committed i r hr
      exact ⟨r', htoken, hr'.imp_right fun ⟨u, hu⟩ => ⟨u, (hlog _).mpr (.inl hu)⟩⟩

theorem Distinct.step (h : Distinct s₀ s)
    (hevent : Event setup ((unmarked s₀).within (Distinct s₀)) (resetting calls) s s') :
    Distinct s₀ s' := by
  have hkept : Kept .passwordResetTokens := .inr rfl
  have hsame (hcommitted : s'.db.passwordResetTokens.committed =
        s.db.passwordResetTokens.committed)
      (hlog : s'.db.passwordResetTokens.log = s.db.passwordResetTokens.log)
      (hversion : ∀ i r, s'.db.passwordResetTokens.Version i r →
        ∃ old, s.db.passwordResetTokens.Version i old ∧ old.token = r.token) : Distinct s₀ s' :=
    h.of_old (fun i token hi => .inl ((named_iff_of_log hlog).mp hi)) hversion
      fun i r hr => (named_iff_of_log hlog).mpr (h.committed i r (hcommitted ▸ hr))
  have hrow := hevent.on .passwordResetTokens
  simp only [TableName.table] at hrow
  cases hrow with
  | same hcommitted hpending hlog =>
      refine hsame hcommitted hlog fun i r hr => ⟨r, ?_, rfl⟩
      rwa [Table.Version, hcommitted, hpending] at hr
  | write t a i v hchange hA hwrote htable =>
      cases hwrote with
      | visit _ w c old hlocked hview =>
          refine hsame (by rw [htable]; rfl) (by rw [htable]; rfl) fun j r hr => ?_
          rcases version_of_write (htable ▸ hr) with hr | ⟨rfl, hnew⟩
          · exact ⟨r, hr, rfl⟩
          · have hold : TableName.Same .passwordResetTokens old r :=
              TableName.same_apply .passwordResetTokens c old r hnew
            exact ⟨old, version_of_view hview, (congrArg PasswordResetToken.token hold).symm⟩
      | insert _ row hfresh =>
          obtain ⟨hunnamed, hunused⟩ := hA.1.1 row rfl
          exact h.insert htable hunnamed hunused
      | _ => exact (hchange hkept).elim
  | commit t hcommit htable => exact h.commit htable
  | abort t htable =>
      exact hsame (by rw [htable]; rfl) (by rw [htable]; rfl) fun i r hr =>
        ⟨r, version_of_abort (htable ▸ hr), rfl⟩

/-! ## Uses -/

/-- A commit of thread `t` marked token `i` as used. -/
def Marks (s : State) (t i : ℕ) : Prop :=
  ∃ r : PasswordResetToken, (t, i, some r) ∈ s.db.passwordResetTokens.log ∧ r.usedAt.isSome = true

/-- Thread `t` has changed a password. -/
def Changed (s : State) (t : ℕ) : Prop := ∃ u v, (t, u, v) ∈ s.db.users.log

/-- Every committed change of a password has used a token of its own. -/
structure Account (calls : ℕ → Call) (s : State) : Prop where
  changed : ∀ t u v, (t, u, v) ∈ s.db.users.log → ∃ x : Use,
    (∃ newPassword, calls t = .reset x.record.token newPassword) ∧ u = x.record.userId ∧
      (t, x.id, some x.used) ∈ s.db.passwordResetTokens.log
  marked : ∀ t i r, Marks s t i → s.db.passwordResetTokens.committed i = some r →
    r.usedAt.isSome = true
  once : ∀ t t' i, Marks s t i → Marks s t' i → t = t'

theorem account_of_atRest (h : s₀.AtRest) : Account calls s₀ := by
  have husers : s₀.db.users.log = [] := (h.tables .users).log
  have htokens : s₀.db.passwordResetTokens.log = [] := (h.tables .passwordResetTokens).log
  constructor <;> simp [Marks, husers, htokens]

private theorem Account.of_eq (h : Account calls s)
    (hkept : ∀ k : TableName, Kept k → (k.table s'.db).committed = (k.table s.db).committed ∧
      (k.table s'.db).log = (k.table s.db).log) : Account calls s' := by
  have husers : s'.db.users.log = s.db.users.log := (hkept .users (.inl rfl)).2
  obtain ⟨hcommitted, htokens⟩ : s'.db.passwordResetTokens.committed =
      s.db.passwordResetTokens.committed ∧ s'.db.passwordResetTokens.log =
      s.db.passwordResetTokens.log := hkept .passwordResetTokens (.inr rfl)
  have hmarks (t i : ℕ) : Marks s' t i ↔ Marks s t i := by rw [Marks, htokens, Marks]
  constructor
  · rw [husers, htokens]
    exact h.changed
  · simpa only [hmarks, hcommitted] using h.marked
  · simpa only [hmarks] using h.once

private theorem Account.use (h : Account calls s)
    (htables : ∀ k : TableName, k.table s'.db = (k.table s.db).commit t) {x : Use}
    (hx : Using (calls t) t x s) : Account calls s' := by
  have husers : s'.db.users.log = s.db.users.log ++ [(t, x.record.userId, some x.changed)] :=
    (congrArg Table.log (htables .users)).trans hx.users.commit_log
  have htokens : s'.db.passwordResetTokens.log =
      s.db.passwordResetTokens.log ++ [(t, x.id, some x.used)] :=
    (congrArg Table.log (htables .passwordResetTokens)).trans hx.tokens.commit_log
  have hcommitted : s'.db.passwordResetTokens.committed =
      (s.db.passwordResetTokens.commit t).committed :=
    congrArg Table.committed (htables .passwordResetTokens)
  have hpresent : s.db.passwordResetTokens.committed x.id = some x.record :=
    hx.tokens.before _ (.head _)
  have hfirst (u : ℕ) : ¬ Marks s u x.id := fun hu => by
    have hused := h.marked u x.id x.record hu hpresent
    simp [hx.unused] at hused
  have hmarks {u i : ℕ} (hu : Marks s' u i) : Marks s u i ∨ u = t ∧ i = x.id := by
    obtain ⟨r, hlog, hr⟩ := hu
    rw [htokens] at hlog
    rcases List.mem_append.mp hlog with hlog | hlog
    · exact .inl ⟨r, hlog, hr⟩
    · obtain ⟨rfl, rfl, -⟩ : u = t ∧ i = x.id ∧ some r = some x.used := by simpa using hlog
      exact .inr ⟨rfl, rfl⟩
  constructor
  · intro u i v hlog
    rw [husers] at hlog
    rcases List.mem_append.mp hlog with hlog | hlog
    · obtain ⟨y, hcall, hi, hy⟩ := h.changed u i v hlog
      exact ⟨y, hcall, hi, htokens ▸ List.mem_append_left _ hy⟩
    · obtain ⟨rfl, rfl, rfl⟩ : u = t ∧ i = x.record.userId ∧ v = some x.changed := by
        simpa using hlog
      exact ⟨x, hx.presented, rfl, htokens ▸ List.mem_append_right _ (.head _)⟩
  · intro u i r hu hr
    rw [hcommitted] at hr
    by_cases hi : i = x.id
    · subst hi
      have heq : some x.used = some r := (hx.tokens.committed (.head _)).symm.trans hr
      obtain rfl := Option.some.inj heq
      rfl
    · have hkept : (s.db.passwordResetTokens.commit t).committed i =
          s.db.passwordResetTokens.committed i := hx.tokens.committed_of_ne fun y hy => by
        rw [List.mem_singleton.mp hy]
        exact Ne.symm hi
      rw [hkept] at hr
      exact h.marked u i r ((hmarks hu).resolve_right fun hnew => hi hnew.2) hr
  · intro u u' i hu hu'
    rcases hmarks hu with hu | ⟨rfl, rfl⟩ <;> rcases hmarks hu' with hu' | ⟨rfl, heq⟩
    · exact h.once u u' i hu hu'
    · exact (hfirst u (heq ▸ hu)).elim
    · exact (hfirst u' hu').elim
    · rfl

private theorem Account.harmless (h : Account calls s) (hs : s.InOrder setup traced)
    (htables : ∀ k : TableName, k.table s'.db = (k.table s.db).commit t) (hx : Harmless t s) :
    Account calls s' := by
  obtain ⟨husers, held, htokens, hheld⟩ := hx
  have husers : s'.db.users.log = s.db.users.log :=
    (congrArg Table.log (htables .users)).trans husers.free.settled.2
  have hlog (e) : e ∈ s'.db.passwordResetTokens.log ↔
      e ∈ s.db.passwordResetTokens.log ∨ ∃ y ∈ held, e = (t, y.1, y.2.2) := by
    rw [show s'.db.passwordResetTokens = _ from htables .passwordResetTokens]
    exact htokens.mem_commit_log
  have hcommitted : s'.db.passwordResetTokens.committed =
      (s.db.passwordResetTokens.commit t).committed :=
    congrArg Table.committed (htables .passwordResetTokens)
  have hmarks {u i : ℕ} (hu : Marks s' u i) : Marks s u i := by
    obtain ⟨r, hr, hused⟩ := hu
    rcases (hlog _).mp hr with hr | ⟨y, hy, heq⟩
    · exact ⟨r, hr, hused⟩
    · obtain ⟨-, rfl, hnew⟩ : u = t ∧ i = y.1 ∧ some r = y.2.2 := by simpa using heq
      simp [(hheld y hy r hnew.symm).2] at hused
  constructor
  · intro u i v hi
    obtain ⟨x, hcall, hu, hx⟩ := h.changed u i v (husers ▸ hi)
    exact ⟨x, hcall, hu, (hlog _).mpr (.inl hx)⟩
  · intro u i r hu hr
    obtain ⟨r', hlog', -⟩ := hmarks hu
    rw [hcommitted] at hr
    by_cases hi : ∃ y ∈ held, y.1 = i
    · obtain ⟨y, hy, rfl⟩ := hi
      have hnew : y.2.2 = some r := (htokens.committed hy).symm.trans hr
      have hborn := (hheld y hy r hnew).1
      exact (htokens.unborn (b := y.2.1) (v := y.2.2) (hs.ordered .passwordResetTokens) hy hborn _
        hlog' rfl).elim
    · have hkept : (s.db.passwordResetTokens.commit t).committed i =
          s.db.passwordResetTokens.committed i :=
        htokens.committed_of_ne fun y hy heq => hi ⟨y, hy, heq⟩
      rw [hkept] at hr
      exact h.marked u i r (hmarks hu) hr
  · exact fun u u' i hu hu' => h.once u u' i (hmarks hu) (hmarks hu')

theorem Account.step (h : Account calls s) (hs : s.InOrder setup traced)
    (hevent : Event setup A (resetting calls) s s') : Account calls s' := by
  rcases hevent.settled with ⟨t, hfree | ⟨x, hx⟩ | hx, htables⟩ | hsettled
  · exact h.of_eq fun k hk => htables k ▸ (hfree k hk).settled
  · exact h.use htables hx
  · exact h.harmless hs htables hx
  · exact h.of_eq fun k _ => hsettled k

/-- What concurrent resets and requests for one have done. -/
structure ResetOnce (calls : ℕ → Call) (s₀ : State)
    (c : Config ℕ Error Request Request.Reply State Unit) : Prop where
  once : ∀ i t t', Marks c.shared t i → Marks c.shared t' i → t = t'
  changed : ∀ t u v, (t, u, v) ∈ c.shared.db.users.log →
    ∃ i r newPassword, calls t = .reset r.token newPassword ∧ r.userId = u ∧
      (t, i, some r) ∈ c.shared.db.passwordResetTokens.log ∧ r.usedAt.isSome = true
  others : ∀ t t' token newPassword newPassword', calls t = .reset token newPassword →
    calls t' = .reset token newPassword' → t ≠ t' → Changed c.shared t →
      ¬ Changed c.shared t' ∧ c.thread t' ≠ .ret ()
  returned : ∀ t token newPassword, calls t = .reset token newPassword →
    c.thread t = .ret () → Changed c.shared t
  rejected : ∀ t token newPassword e, calls t = .reset token newPassword →
    c.thread t = .fail e → e ≠ .lost → ¬ Changed c.shared t ∧ Unlocked Kept t c.shared
  explained : ∀ k : TableName, (k.table c.shared.db).Explained (k.table s₀.db)

/-- Concurrent resets and requests of which each marks a token that is not marked yet. -/
theorem reset_once {c : Config ℕ Error Request Request.Reply State Unit} (hstart : s₀.AtRest)
    (hunique : UniqueTokens s₀)
    (hrun : (system setup).Reaches (unmarked s₀)
      (calling (fun t => (calls t).program setup) s₀) c) : ResetOnce calls s₀ c := by
  have hsound : (rules setup calls s₀).Sound (system setup) ((unmarked s₀).within (Distinct s₀))
      (fun t _ => Call.Returned t (calls t)) (fun t e s => e = .lost ∨ Idle t s)
      (calling (fun t => (calls t).program setup) s₀) := by
    refine hstart.sound (fun _ _ => True) (fun _ => trivial) fun t => ?_
    cases hcall : calls t with
    | reset token newPassword => exact resetPassword_meets hcall
    | request email => exact requestPasswordReset_meets email
  have hdistinct {d} (hd : (system setup).Reaches ((unmarked s₀).within (Distinct s₀))
      (calling (fun t => (calls t).program setup) s₀) d) : Distinct s₀ d.shared :=
    keeping_induction nofun (fun _ _ _ => .inl rfl) hsound hd
      (distinct_of_atRest hstart hunique) fun s s' _ _ h hevent => h.step hevent
  have hruns : (system setup).Reaches ((unmarked s₀).within (Distinct s₀))
      (calling (fun t => (calls t).program setup) s₀) c := hrun.within fun d hd => hdistinct hd
  have hend := hsound.reaches (keeping_compatible nofun) (fun _ _ _ => .inl rfl) hruns
  have h : Account calls c.shared :=
    keeping_induction nofun (fun _ _ _ => .inl rfl) hsound hruns (account_of_atRest hstart)
      fun s s' hs _ h hevent => h.step hs hevent
  have hreturned {t : ℕ} {token newPassword : String}
      (hcall : calls t = .reset token newPassword) (hret : c.thread t = .ret ()) :
      Changed c.shared t := by
    have hholds := hend.2 t
    rw [hret] at hholds
    have hused : Call.Returned t (calls t) c.shared := hholds.value hend.1
    rw [hcall] at hused
    obtain ⟨x, hx⟩ := hused
    exact ⟨_, _, (hx.users.past _ _).mpr (.head _)⟩
  have hothers {t t' : ℕ} {token p p' : String} (hcall : calls t = .reset token p)
      (hcall' : calls t' = .reset token p') (hchanged : Changed c.shared t)
      (hchanged' : Changed c.shared t') : t = t' := by
    obtain ⟨u, v, hlog⟩ := hchanged
    obtain ⟨u', v', hlog'⟩ := hchanged'
    obtain ⟨x, ⟨q, hx⟩, -, hmark⟩ := h.changed t u v hlog
    obtain ⟨y, ⟨q', hy⟩, -, hmark'⟩ := h.changed t' u' v' hlog'
    obtain ⟨htoken, -⟩ := Call.reset.inj (hcall.symm.trans hx)
    obtain ⟨htoken', -⟩ := Call.reset.inj (hcall'.symm.trans hy)
    have hrow : x.id = y.id := (hdistinct hruns).named x.id y.id token
      ⟨x.used, htoken.symm, .inr ⟨t, hmark⟩⟩ ⟨y.used, htoken'.symm, .inr ⟨t', hmark'⟩⟩
    exact h.once t t' x.id ⟨x.used, hmark, rfl⟩ ⟨y.used, hrow ▸ hmark', rfl⟩
  constructor
  · exact fun i t t' => h.once t t' i
  · intro t u v hlog
    obtain ⟨x, ⟨newPassword, hcall⟩, hu, hmark⟩ := h.changed t u v hlog
    exact ⟨x.id, x.used, newPassword, hcall, hu.symm, hmark, rfl⟩
  · intro t t' token p p' hcall hcall' hne hchanged
    have hnot : ¬ Changed c.shared t' := fun hchanged' =>
      hne (hothers hcall hcall' hchanged hchanged')
    exact ⟨hnot, fun hret => hnot (hreturned hcall' hret)⟩
  · exact fun t token newPassword => hreturned
  · intro t token newPassword e hcall hfail hne
    have hholds := hend.2 t
    rw [hfail] at hholds
    obtain ⟨husers, done, htokens⟩ : Idle t c.shared :=
      (hholds.error hend.1).resolve_left hne
    refine ⟨?_, ?_⟩
    · rintro ⟨u, v, hlog⟩
      simpa using (husers.past u v).mp hlog
    · rintro k (rfl | rfl)
      · exact husers.free
      · exact htokens.free
  · exact keeping_induction nofun (fun _ _ _ => .inl rfl) hsound hruns (fun _ _ => .inl rfl)
      fun s s' _ _ h hevent => hevent.explained h

/-! ## Two resets with one token -/

def forgetfulUser : User :=
  { name := some "Ada", slug := some "ada", email := some "ada@example.org"
    password := some "old", avatar := none, roleId := none, isEmailVerified := true
    deletedAt := none }

/-- One user and the token that resets the password. -/
def requested : State :=
  { plainState (oneRow 5 forgetfulUser) with
    db := { (plainState (oneRow 5 forgetfulUser)).db with
      passwordResetTokens := oneRow 1
        { token := "abc", userId := 5, expiresAt := 100, usedAt := none } } }

theorem requested_atRest : requested.AtRest where
  tables k := by
    cases k with
    | users => exact oneRow_atRest 5 _
    | passwordResetTokens => exact oneRow_atRest 1 _
    | _ => exact Table.empty_atRest
  poisoned _ := rfl
  seen := rfl
  minted := rfl
  families := rfl
  comparisons := rfl
  tickets := rfl

theorem requested_unique : UniqueTokens requested := by
  have hone (i : ℕ) (r : PasswordResetToken)
      (h : requested.db.passwordResetTokens.committed i = some r) : i = 1 :=
    List.mem_singleton.mp (requested.db.passwordResetTokens.mem_of_committed i r h)
  exact fun i j r r' h h' _ => (hone i r h).trans (hone j r' h').symm

def attempts : ℕ → Call
  | 1 => .reset "abc" "first"
  | _ => .reset "abc" "second"

/-- The requests that the assumptions are about. -/
def inserting : ℕ → Request → State → Bool
  | _, .sql (.passwordResetTokens (.insert _)), _ => true
  | _, _, _ => false

def remarking : ℕ → Request → State → Bool
  | t, .sql (.passwordResetTokens (.visit i (.token _) (.use _))), s =>
      (s.db.passwordResetTokens.view t i).any fun row => row.usedAt.isSome
  | _, _, _ => false

/-- The second call comes after the first. -/
def inTurn : List (Label ℕ Oracle) := List.replicate 14 (.run 1 {}) ++ List.replicate 4 (.run 2 {})

/-- Both calls have found the token unused when the first updates the user. -/
def overlapping : List (Label ℕ Oracle) :=
  List.replicate 6 (.run 1 {}) ++ List.replicate 5 (.run 2 {}) ++ List.replicate 8 (.run 1 {}) ++
    List.replicate 9 (.run 2 {})

def after (schedule : List (Label ℕ Oracle)) : Config ℕ Error Request Request.Reply State Unit :=
  (system plainSetup).after (calling (fun t => (attempts t).program plainSetup) requested) schedule

theorem unrepeated_of_inserting {t : ℕ} {request : Request} {s : State}
    (h : inserting t request s = false) : (unrepeated s₀).request t request s := by
  rintro row rfl
  cases h

theorem reset_once_inTurn :
    ResetOnce attempts requested (after inTurn) ∧ (after inTurn).thread 1 = .ret () ∧
      (after inTurn).thread 2 = .fail (appError "Token already used" 400) := by
  refine ⟨reset_once requested_atRest requested_unique (.of_passes
    (fun t request s => !inserting t request s && !remarking t request s) (fun t request s h => ?_)
    (fun _ _ => trivial) (by decide +kernel)), Program.value?_eq_some.mp (by decide +kernel),
    Program.error?_eq_some.mp (by decide +kernel)⟩
  obtain ⟨hinsert, hmark⟩ : inserting t request s = false ∧ remarking t request s = false := by
    simpa using h
  refine ⟨unrepeated_of_inserting hinsert, ?_⟩
  rintro i token usedAt row rfl hview
  simpa [remarking, hview] using hmark

def spent : PasswordResetToken :=
  { token := "abc", userId := 5, expiresAt := 100, usedAt := some 0 }

/-- Both calls change the password with the one token. -/
theorem reset_twice_overlapping :
    (system plainSetup).Reaches (unrepeated requested)
      (calling (fun t => (attempts t).program plainSetup) requested) (after overlapping) ∧
    Marks (after overlapping).shared 1 1 ∧ Marks (after overlapping).shared 2 1 ∧
    (after overlapping).thread 1 = .ret () ∧ (after overlapping).thread 2 = .ret () ∧
    (after overlapping).shared.db.users.log.map (fun e => (e.1, e.2.2.bind User.password)) =
      [(1, some "first"), (2, some "second")] ∧
    ¬ ResetOnce attempts requested (after overlapping) := by
  have hlog : (after overlapping).shared.db.passwordResetTokens.log =
      [(1, 1, some spent), (2, 1, some spent)] := by
    decide +kernel
  have hfirst : Marks (after overlapping).shared 1 1 := ⟨spent, by simp [hlog], rfl⟩
  have hsecond : Marks (after overlapping).shared 2 1 := ⟨spent, by simp [hlog], rfl⟩
  refine ⟨.of_passes (fun t request s => !inserting t request s)
    (fun t request s h => unrepeated_of_inserting (by simpa using h)) (fun _ _ => trivial)
    (by decide +kernel), hfirst, hsecond, Program.value?_eq_some.mp (by decide +kernel),
    Program.value?_eq_some.mp (by decide +kernel), by decide +kernel, fun h => ?_⟩
  exact absurd (h.once 1 1 2 hfirst hsecond) (by decide)

end ExpressCore.ResetPassword
