import ExpressCore.Verification.Otp.Codes

/-! # Every code has one issuance -/

namespace ExpressCore.Otp

open ReadCommitted Interleaving Interleaving.Program

variable {setup : Setup} {A : Assumption ℕ Request State} {calls : ℕ → Call} {exact : Prop}
  {t : ℕ} {s s' s₀ : State} {D : Discipline}

/-! ## Numbers of codes -/

/-- Numbers are given out one after the other. -/
structure Numbered (s : State) : Prop where
  below : ∀ x ∈ s.issuances, x.2 < s.issuances.length
  once : ∀ x ∈ s.issuances, ∀ y ∈ s.issuances, x.2 = y.2 → x = y

theorem numbered_of_nil (h : s.issuances = []) : Numbered s := by
  constructor <;> simp [h]

theorem exec_issuances {r : Request} {o : Oracle} {reply : r.Reply}
    (h : r.exec setup t o s = some (reply, s')) :
    s'.issuances = s.issuances ∨ s'.issuances = (t, s.issuances.length) :: s.issuances := by
  cases r with
  | generateOtpCode =>
      simp only [Request.exec] at h
      split at h <;> cases h
      exact .inr rfl
  | sql q =>
      simp only [Request.exec, Option.map_eq_some_iff, Prod.mk.injEq] at h
      obtain ⟨_, -, -, rfl⟩ := h
      exact .inl rfl
  | cache c =>
      simp only [Request.exec] at h
      split at h <;> cases h
      · exact .inl (by split <;> rfl)
      · exact .inl rfl
  | _ =>
      simp only [Request.exec] at h
      first
        | cases h; exact .inl rfl
        | split at h <;> cases h <;> exact .inl rfl

theorem issuances_of_event (h : Event setup A D s s') :
    s'.issuances = s.issuances ∨ ∃ t, s'.issuances = (t, s.issuances.length) :: s.issuances := by
  cases h with
  | access t k a reply o hchange hA h => exact .inl (by rw [h.rest])
  | commit t hcommit htables hrest => exact .inl (by rw [hrest])
  | abort t htables hrest => exact .inl (by rw [hrest])
  | other t r o reply hother hA hexec htables =>
      exact (exec_issuances hexec).imp_right fun h => ⟨t, h⟩
  | move m hmove hA hdb => exact .inl (move_exec hmove).2.2.2.2

theorem Numbered.step (h : Numbered s) (hevent : Event setup A D s s') : Numbered s' := by
  rcases issuances_of_event hevent with heq | ⟨t, heq⟩
  · exact ⟨heq ▸ h.below, heq ▸ h.once⟩
  have hne (x) (hx : x ∈ s.issuances) : x.2 ≠ s.issuances.length := Nat.ne_of_lt (h.below x hx)
  constructor
  · rw [heq]
    intro x hx
    rcases List.mem_cons.mp hx with rfl | hx
    · exact Nat.lt_succ_self _
    · exact Nat.lt_succ_of_lt (h.below x hx)
  · rw [heq]
    intro x hx y hy hxy
    rcases List.mem_cons.mp hx with rfl | hx <;> rcases List.mem_cons.mp hy with rfl | hy
    · rfl
    · exact (hne y hy hxy.symm).elim
    · exact (hne x hx hxy).elim
    · exact h.once x hx y hy hxy

theorem issuances_subset (h : Event setup A D s s') : s.issuances ⊆ s'.issuances := by
  rcases issuances_of_event h with heq | ⟨t, heq⟩ <;> simp [heq]

/-! ## Codes -/

/-- The number was given to a call that has committed a change of the codes. -/
def Settled (s : State) (issuance : ℕ) : Prop :=
  ∃ t i v, (t, issuance) ∈ s.issuances ∧ (t, i, v) ∈ s.db.emailOtps.log

/-- What is stored of codes, committed and not, now and in the past. -/
structure Codes (s : State) : Prop where
  numbered : Numbered s
  logged : s.db.emailOtps.Logged
  past : ∀ t i r, (t, i, some r) ∈ s.db.emailOtps.log → Settled s r.issuance
  pending : ∀ i t r, s.db.emailOtps.pending i = some (t, some r) →
    (t, r.issuance) ∈ s.issuances ∨ Settled s r.issuance
  same : ∀ i r j r', s.db.emailOtps.Record i r → s.db.emailOtps.Record j r' →
    r.issuance = r'.issuance → i = j ∧ SameCode r r'
  emails : UniqueEmails s.db.emailOtps

theorem codes_of_empty (hnil : s.issuances = []) (hempty : s.db.emailOtps = .empty) :
    Codes s where
  numbered := numbered_of_nil hnil
  logged := by simp [hempty, Table.Logged, Table.empty]
  past := by simp [hempty, Table.empty]
  pending := by simp [hempty, Table.empty]
  same := by simp [hempty, Table.empty, Table.Record, Table.Version]
  emails := by simp [hempty, Table.empty, UniqueEmails, Table.Version]

theorem Settled.mono {n : ℕ} (h : Settled s n) (hissuances : s.issuances ⊆ s'.issuances)
    (hlog : s.db.emailOtps.log ⊆ s'.db.emailOtps.log) : Settled s' n := by
  obtain ⟨t, i, v, hdrawn, hv⟩ := h
  exact ⟨t, i, v, hissuances hdrawn, hlog hv⟩

theorem Codes.committed (h : Codes s) {i : ℕ} {r : EmailOtp}
    (hr : s.db.emailOtps.committed i = some r) : ∃ t, (t, i, some r) ∈ s.db.emailOtps.log := by
  obtain ⟨⟨t, j, v⟩, he, heq⟩ := h.logged i r hr
  obtain ⟨rfl, rfl⟩ := Prod.mk.inj heq
  exact ⟨t, he⟩

/-- The number of a record was given out. -/
theorem Codes.record (h : Codes s) {i : ℕ} {r : EmailOtp} (hr : s.db.emailOtps.Record i r) :
    Settled s r.issuance ∨
      ∃ t, (t, r.issuance) ∈ s.issuances ∧ ∃ v, s.db.emailOtps.pending i = some (t, v) := by
  rcases hr with (hr | ⟨t, hr⟩) | ⟨t, hr⟩
  · obtain ⟨t, hlog⟩ := h.committed hr
    exact .inl (h.past t i r hlog)
  · exact (h.pending i t r hr).symm.imp_right fun hdrawn => ⟨t, hdrawn, _, hr⟩
  · exact .inl (h.past t i r hr)

/-- The number of a new code is that of no record. -/
theorem Codes.fresh (h : Codes s) {row : EmailOtp} (hissuing : Issuing calls t row s) {i : ℕ}
    {r : EmailOtp} (hr : s.db.emailOtps.Record i r) : r.issuance ≠ row.issuance := by
  intro heq
  have howner {u : ℕ} (hu : (u, r.issuance) ∈ s.issuances) : u = t :=
    (Prod.mk.inj (h.numbered.once _ hu _ hissuing.drawn heq)).1
  rcases h.record hr with ⟨u, j, v, hdrawn, hv⟩ | ⟨u, hdrawn, v, hv⟩
  · obtain rfl := howner hdrawn
    simpa using (hissuing.ledger.past j v).mp hv
  · obtain rfl := howner hdrawn
    exact hissuing.ledger.free i v hv

/-- A change of a row that keeps the code. -/
private theorem Codes.change (h : Codes s) {i : ℕ} {old new : EmailOtp}
    (hissuances : s'.issuances = s.issuances)
    (htable : s'.db.emailOtps = s.db.emailOtps.write t i (some new))
    (hlocked : s.db.emailOtps.locked t i = false) (hview : s.db.emailOtps.view t i = some old)
    (hsame : SameCode old new) : Codes s' := by
  have hold : s.db.emailOtps.Version i old := version_of_view hview
  have hlog : s'.db.emailOtps.log = s.db.emailOtps.log := by rw [htable]; rfl
  have hsettled {n : ℕ} (hn : Settled s n) : Settled s' n :=
    hn.mono (hissuances ▸ List.Subset.refl _) (hlog ▸ List.Subset.refl _)
  have hversion {j : ℕ} {r : EmailOtp} (hr : s'.db.emailOtps.Version j r) :
      ∃ r₀, s.db.emailOtps.Version j r₀ ∧ SameCode r₀ r := by
    rcases version_of_write (htable ▸ hr) with hr | ⟨rfl, hnew⟩
    · exact ⟨r, hr, .refl r⟩
    · exact ⟨old, hold, Option.some.inj hnew ▸ hsame⟩
  have hrecord {j : ℕ} {r : EmailOtp} (hr : s'.db.emailOtps.Record j r) :
      ∃ r₀, s.db.emailOtps.Record j r₀ ∧ SameCode r₀ r := by
    rcases hr with hr | ⟨u, hr⟩
    · obtain ⟨r₀, hr₀, hsame⟩ := hversion hr
      exact ⟨r₀, .inl hr₀, hsame⟩
    · exact ⟨r, .inr ⟨u, hlog ▸ hr⟩, .refl r⟩
  constructor
  · exact ⟨hissuances ▸ h.numbered.below, hissuances ▸ h.numbered.once⟩
  · rw [htable]
    exact h.logged
  · exact fun u j r hr => hsettled (h.past u j r (hlog ▸ hr))
  · intro j u r hr
    rw [htable] at hr
    rw [hissuances]
    rcases Table.write_pending hr with ⟨rfl, heq⟩ | ⟨-, hr⟩
    · obtain ⟨hu, hnew⟩ := Prod.mk.inj heq
      obtain rfl : r = new := Option.some.inj hnew
      rw [hsame.issuance]
      rcases hold with hcommitted | ⟨w, hw⟩
      · obtain ⟨w, hlogged⟩ := h.committed hcommitted
        exact .inr (hsettled (h.past w j old hlogged))
      · obtain rfl : w = t := Table.locked_eq_false.mp hlocked _ hw
        rw [hu]
        exact (h.pending j w old hw).imp_right hsettled
    · exact (h.pending j u r hr).imp_right hsettled
  · intro j r k r' hr hr' heq
    obtain ⟨r₀, hr₀, hsame₀⟩ := hrecord hr
    obtain ⟨r₁, hr₁, hsame₁⟩ := hrecord hr'
    obtain ⟨hjk, hcode⟩ := h.same j r₀ k r₁ hr₀ hr₁
      (hsame₀.issuance.symm.trans (heq.trans hsame₁.issuance))
    exact ⟨hjk, (hsame₀.symm.trans hcode).trans hsame₁⟩
  · intro j r k r' hr hr' heq
    obtain ⟨r₀, hr₀, hsame₀⟩ := hversion hr
    obtain ⟨r₁, hr₁, hsame₁⟩ := hversion hr'
    exact h.emails j r₀ k r₁ hr₀ hr₁ (hsame₀.email.symm.trans (heq.trans hsame₁.email))

private theorem Codes.delete (h : Codes s) {i : ℕ} (hissuances : s'.issuances = s.issuances)
    (htable : s'.db.emailOtps = s.db.emailOtps.write t i none) : Codes s' := by
  have hlog : s'.db.emailOtps.log = s.db.emailOtps.log := by rw [htable]; rfl
  have hsettled {n : ℕ} (hn : Settled s n) : Settled s' n :=
    hn.mono (hissuances ▸ List.Subset.refl _) (hlog ▸ List.Subset.refl _)
  have hversion {j : ℕ} {r : EmailOtp} (hr : s'.db.emailOtps.Version j r) :
      s.db.emailOtps.Version j r := by
    rw [htable] at hr
    exact (version_of_write hr).resolve_right fun hnew => by cases hnew.2
  have hrecord {j : ℕ} {r : EmailOtp} (hr : s'.db.emailOtps.Record j r) :
      s.db.emailOtps.Record j r := hr.imp hversion fun ⟨u, hu⟩ => ⟨u, hlog ▸ hu⟩
  constructor
  · exact ⟨hissuances ▸ h.numbered.below, hissuances ▸ h.numbered.once⟩
  · rw [htable]
    exact h.logged
  · exact fun u j r hr => hsettled (h.past u j r (hlog ▸ hr))
  · intro j u r hr
    rw [htable] at hr
    rw [hissuances]
    rcases Table.write_pending hr with ⟨-, heq⟩ | ⟨-, hr⟩
    · cases heq
    · exact (h.pending j u r hr).imp_right hsettled
  · exact fun j r k r' hr hr' => h.same j r k r' (hrecord hr) (hrecord hr')
  · exact fun j r k r' hr hr' => h.emails j r k r' (hversion hr) (hversion hr')

private theorem Codes.issue (h : Codes s) {i : ℕ} {row : EmailOtp}
    (hissuances : s'.issuances = s.issuances)
    (htable : s'.db.emailOtps = s.db.emailOtps.write t i (some row))
    (hissuing : Issuing calls t row s)
    (hemail : ∀ j r, s.db.emailOtps.Version j r → r.email = row.email → j = i) : Codes s' := by
  have hlog : s'.db.emailOtps.log = s.db.emailOtps.log := by rw [htable]; rfl
  have hsettled {n : ℕ} (hn : Settled s n) : Settled s' n :=
    hn.mono (hissuances ▸ List.Subset.refl _) (hlog ▸ List.Subset.refl _)
  have hversion {j : ℕ} {r : EmailOtp} (hr : s'.db.emailOtps.Version j r) :
      s.db.emailOtps.Version j r ∨ j = i ∧ r = row :=
    (version_of_write (htable ▸ hr)).imp_right fun ⟨hj, hnew⟩ => ⟨hj, (Option.some.inj hnew).symm⟩
  have hrecord {j : ℕ} {r : EmailOtp} (hr : s'.db.emailOtps.Record j r) :
      s.db.emailOtps.Record j r ∨ j = i ∧ r = row := by
    rcases hr with hr | ⟨u, hu⟩
    · exact (hversion hr).imp_left .inl
    · exact .inl (.inr ⟨u, hlog ▸ hu⟩)
  constructor
  · exact ⟨hissuances ▸ h.numbered.below, hissuances ▸ h.numbered.once⟩
  · rw [htable]
    exact h.logged
  · exact fun u j r hr => hsettled (h.past u j r (hlog ▸ hr))
  · intro j u r hr
    rw [htable] at hr
    rw [hissuances]
    rcases Table.write_pending hr with ⟨-, heq⟩ | ⟨-, hr⟩
    · obtain ⟨rfl, hnew⟩ := Prod.mk.inj heq
      obtain rfl : r = row := Option.some.inj hnew
      exact .inl hissuing.drawn
    · exact (h.pending j u r hr).imp_right hsettled
  · intro j r k r' hr hr' heq
    rcases hrecord hr with hr | ⟨rfl, rfl⟩ <;> rcases hrecord hr' with hr' | ⟨rfl, rfl⟩
    · exact h.same j r k r' hr hr' heq
    · exact (h.fresh hissuing hr heq).elim
    · exact (h.fresh hissuing hr' heq.symm).elim
    · exact ⟨rfl, .refl _⟩
  · intro j r k r' hr hr' heq
    rcases hversion hr with hr | ⟨rfl, rfl⟩ <;> rcases hversion hr' with hr' | ⟨rfl, rfl⟩
    · exact h.emails j r k r' hr hr' heq
    · exact hemail j r hr heq
    · exact (hemail k r' hr' heq.symm).symm
    · rfl

private theorem Codes.commit (h : Codes s) (hissuances : s'.issuances = s.issuances)
    (htable : s'.db.emailOtps = s.db.emailOtps.commit t) : Codes s' := by
  have hlog : s'.db.emailOtps.log = s.db.emailOtps.log ++ s.db.emailOtps.writes t := by
    rw [htable, Table.commit_log]
  have hsettled {n : ℕ} (hn : Settled s n) : Settled s' n :=
    hn.mono (hissuances ▸ List.Subset.refl _) (hlog ▸ List.subset_append_left _ _)
  have hversion {j : ℕ} {r : EmailOtp} (hr : s'.db.emailOtps.Version j r) :
      s.db.emailOtps.Version j r := version_of_commit (htable ▸ hr)
  have hrecord {j : ℕ} {r : EmailOtp} (hr : s'.db.emailOtps.Record j r) :
      s.db.emailOtps.Record j r := record_of_commit (htable ▸ hr)
  constructor
  · exact ⟨hissuances ▸ h.numbered.below, hissuances ▸ h.numbered.once⟩
  · exact htable ▸ Moves.logged (C := EmailOtpChange) .commit h.logged
  · intro u j r hr
    rw [hlog] at hr
    rcases List.mem_append.mp hr with hr | hr
    · exact hsettled (h.past u j r hr)
    · obtain ⟨rfl, hp⟩ := Table.mem_writes.mp hr
      rcases h.pending j u r hp with hdrawn | hn
      · exact ⟨u, j, some r, hissuances ▸ hdrawn, hlog ▸ List.mem_append_right _ hr⟩
      · exact hsettled hn
  · intro j u r hr
    rw [htable] at hr
    rw [hissuances]
    exact (h.pending j u r (Table.commit_pending.mp hr).1).imp_right hsettled
  · exact fun j r k r' hr hr' => h.same j r k r' (hrecord hr) (hrecord hr')
  · exact fun j r k r' hr hr' => h.emails j r k r' (hversion hr) (hversion hr')

/-- The table does not change, or an open transaction is rolled back. -/
private theorem Codes.of_fewer (h : Codes s) (hnumbered : Numbered s')
    (hissuances : s.issuances ⊆ s'.issuances)
    (hcommitted : s'.db.emailOtps.committed = s.db.emailOtps.committed)
    (hlog : s'.db.emailOtps.log = s.db.emailOtps.log)
    (hpending : ∀ i w, s'.db.emailOtps.pending i = some w → s.db.emailOtps.pending i = some w) :
    Codes s' := by
  have hsettled {n : ℕ} (hn : Settled s n) : Settled s' n :=
    hn.mono hissuances (hlog ▸ List.Subset.refl _)
  have hversion {j : ℕ} {r : EmailOtp} (hr : s'.db.emailOtps.Version j r) :
      s.db.emailOtps.Version j r := by
    rcases hr with hr | ⟨u, hr⟩
    · exact .inl (hcommitted ▸ hr)
    · exact .inr ⟨u, hpending j _ hr⟩
  have hrecord {j : ℕ} {r : EmailOtp} (hr : s'.db.emailOtps.Record j r) :
      s.db.emailOtps.Record j r := hr.imp hversion fun ⟨u, hu⟩ => ⟨u, hlog ▸ hu⟩
  constructor
  · exact hnumbered
  · unfold Table.Logged
    rw [hcommitted, hlog]
    exact h.logged
  · exact fun u j r hr => hsettled (h.past u j r (hlog ▸ hr))
  · exact fun j u r hr =>
      (h.pending j u r (hpending j _ hr)).imp (fun hdrawn => hissuances hdrawn) hsettled
  · exact fun j r k r' hr hr' => h.same j r k r' (hrecord hr) (hrecord hr')
  · exact fun j r k r' hr hr' => h.emails j r k r' (hversion hr) (hversion hr')

/-- A request that gives out a number leaves the table alone. -/
private theorem issuances_or_table (h : Event setup A D s s') :
    s'.issuances = s.issuances ∨ s'.db.emailOtps = s.db.emailOtps := by
  cases h with
  | access t k a reply o hchange hA h => exact .inl (by rw [h.rest])
  | commit t hcommit htables hrest => exact .inl (by rw [hrest])
  | abort t htables hrest => exact .inl (by rw [hrest])
  | other t r o reply hother hA hexec htables => exact .inr (htables .emailOtps)
  | move m hmove hA hdb => exact .inr (by rw [hdb])

theorem Codes.step (h : Codes s) (hevent : Event setup A (guessing setup calls exact) s s') :
    Codes s' := by
  rcases issuances_or_table hevent with hissuances | htable
  · cases codeEvent h.emails hevent with
    | same hcommitted hpending hlog =>
        exact h.of_fewer (h.numbered.step hevent) (issuances_subset hevent) hcommitted hlog
          fun i w hw => hpending ▸ hw
    | write t i v hlocked hwritten htable =>
        cases hwritten with
        | attempt old hcall hview hlt => exact h.change hissuances htable hlocked hview rfl
        | verify old verifiedAt hmatched hA hview hunverified =>
            exact h.change hissuances htable hlocked hview rfl
        | consume old consumedAt hcall hview =>
            exact h.change hissuances htable hlocked hview rfl
        | delete old hcall hview => exact h.delete hissuances htable
        | issue row hissuing hemail => exact h.issue hissuances htable hissuing hemail
    | commit t htable => exact h.commit hissuances htable
    | abort t htable =>
        exact h.of_fewer (h.numbered.step hevent) (issuances_subset hevent)
          (by rw [htable]; rfl) (by rw [htable]; rfl)
          fun i w hw => (Table.abort_pending.mp (htable ▸ hw)).1
  · exact h.of_fewer (h.numbered.step hevent) (issuances_subset hevent) (by rw [htable])
      (by rw [htable]) fun i w hw => htable ▸ hw

end ExpressCore.Otp
