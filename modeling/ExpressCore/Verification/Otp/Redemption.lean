import ExpressCore.Verification.Otp.Codes

/-! # Verifications are used up

A verification of an address is a row with its time. Once a row was consumed, no version of it
with that verification is unconsumed again, whatever the calls do. -/

namespace ExpressCore.Enrollment

open ReadCommitted Interleaving Interleaving.Program

variable {t i j : ℕ} {v : Time} {email : String} {w : Option EmailOtp}
  {T T' : Table ℕ ℕ EmailOtp} {r : EmailOtp}

/-! ## What is written to a code -/

/-- What a call writes to row `i`. A verification has a time that the row has not had. -/
inductive Rewrite (T : Table ℕ ℕ EmailOtp) (t i : ℕ) : Option EmailOtp → Prop where
  | attempt (old : EmailOtp) : T.view t i = some old → old.consumedAt = none →
      Rewrite T t i (some { old with attempts := old.attempts + 1 })
  | verify (old : EmailOtp) (time : Time) : T.view t i = some old →
      (∀ r, T.Record i r → r.verifiedAt ≠ some time) →
      Rewrite T t i (some { old with verifiedAt := some time })
  | consume (old : EmailOtp) (now : Time) : T.view t i = some old → old.consumedAt = none →
      Rewrite T t i (some { old with consumedAt := some now })
  | delete : Rewrite T t i none
  | issue (row : EmailOtp) : row.verifiedAt = none → row.consumedAt = none →
      (∀ j r, T.Version j r → r.email = row.email → j = i) → Rewrite T t i (some row)

/-- The row was verified at that time, by a transaction that has committed. -/
def Recorded (T : Table ℕ ℕ EmailOtp) (i : ℕ) (v : Time) : Prop :=
  ∃ u r, (u, i, some r) ∈ T.log ∧ r.verifiedAt = some v

theorem Recorded.mono (h : Recorded T i v) (hlog : T.log <+: T'.log) : Recorded T' i v := by
  obtain ⟨u, r, hr, hverified⟩ := h
  exact ⟨u, r, hlog.subset hr, hverified⟩

/-- A version with an old verification replaces one that had it. -/
theorem Rewrite.inherits (h : Rewrite T t i (some r)) (hverified : r.verifiedAt = some v)
    (hrecorded : Recorded T i v) : ∃ old, T.view t i = some old ∧ old.email = r.email ∧
      old.verifiedAt = some v ∧ (old.consumedAt.isSome = true → r.consumedAt.isSome = true) := by
  cases h with
  | attempt old hview hconsumed => exact ⟨old, hview, rfl, hverified, id⟩
  | verify old time hview hfresh =>
      obtain ⟨u, r, hr, htime⟩ := hrecorded
      exact (hfresh r (.inr ⟨u, hr⟩) (htime.trans hverified.symm)).elim
  | consume old now hview hconsumed => exact ⟨old, hview, rfl, hverified, fun _ => rfl⟩
  | issue row hnone => simp [hnone] at hverified

/-- A consumed version has been written over one that was not. -/
theorem Rewrite.opened (h : Rewrite T t i (some r)) (hverified : r.verifiedAt = some v)
    (hconsumed : r.consumedAt.isSome = true) (hrecorded : Recorded T i v) :
    ∃ old, T.view t i = some old ∧ old.email = r.email ∧ old.verifiedAt = some v ∧
      old.consumedAt = none := by
  cases h with
  | attempt old hview hnone => simp [hnone] at hconsumed
  | verify old time hview hfresh =>
      obtain ⟨u, r, hr, htime⟩ := hrecorded
      exact (hfresh r (.inr ⟨u, hr⟩) (htime.trans hverified.symm)).elim
  | consume old now hview hnone => exact ⟨old, hview, rfl, hverified, hnone⟩
  | issue row hnone => simp [hnone] at hverified

/-! ## Verifications that are used up -/

/-- What is left of the verification is consumed. -/
def Exhausted (T : Table ℕ ℕ EmailOtp) (email : String) (i : ℕ) (v : Time) : Prop :=
  ∀ r, T.Version i r → r.email = email → r.verifiedAt = some v → r.consumedAt.isSome = true

theorem Exhausted.of_fewer (h : Exhausted T email i v)
    (hfewer : ∀ r, T'.Version i r → T.Version i r) : Exhausted T' email i v :=
  fun r hr => h r (hfewer r hr)

theorem Exhausted.write (h : Exhausted T email i v) (hrecorded : Recorded T i v)
    (hw : Rewrite T t j w) : Exhausted (T.write t j w) email i v := by
  intro r hr hemail hverified
  rcases version_of_write hr with hr | ⟨rfl, rfl⟩
  · exact h r hr hemail hverified
  · obtain ⟨old, hview, hsame, hold, hconsumed⟩ := hw.inherits hverified hrecorded
    exact hconsumed (h old (version_of_view hview) (hsame.trans hemail) hold)

/-- A commit of a consumed row leaves no other version of it. -/
theorem exhausted_of_commit (hpending : T.pending i = some (t, some r))
    (hconsumed : r.consumedAt.isSome = true) : Exhausted (T.commit t) email i v := by
  intro r' hr' _ _
  rcases hr' with hr' | ⟨u, hu⟩
  · rw [Table.commit_committed_of_pending hpending] at hr'
    exact Option.some.inj hr' ▸ hconsumed
  · obtain ⟨hu, hne⟩ := Table.commit_pending.mp hu
    obtain rfl : t = u := (Prod.mk.inj (Option.some.inj (hpending.symm.trans hu))).1
    exact (hne rfl).elim

/-! ## Consumptions -/

/-- Every verification is consumed by one transaction. -/
structure Spending (T : Table ℕ ℕ EmailOtp) : Prop where
  emails : Otp.UniqueEmails T
  logged : T.Logged
  spent : ∀ t i r v email, (t, i, some r) ∈ T.log → r.consumedAt.isSome = true →
    r.verifiedAt = some v → Exhausted T email i v
  opened : ∀ i t r v, T.pending i = some (t, some r) → r.consumedAt.isSome = true →
    r.verifiedAt = some v → ∀ u r', (u, i, some r') ∈ T.log → r'.verifiedAt = some v →
      r'.consumedAt = none
  once : ∀ t t' i r r' v, (t, i, some r) ∈ T.log → (t', i, some r') ∈ T.log →
    r.consumedAt.isSome = true → r'.consumedAt.isSome = true → r.verifiedAt = some v →
      r'.verifiedAt = some v → t = t'

theorem spending_of_empty (h : T = .empty) : Spending T := by
  constructor <;> simp [h, Table.empty, Otp.UniqueEmails, Table.Version, Table.Logged]

theorem Spending.congr (h : Spending T) (hcommitted : T'.committed = T.committed)
    (hlog : T'.log = T.log)
    (hpending : ∀ i w, T'.pending i = some w → T.pending i = some w) : Spending T' := by
  have hversion {i : ℕ} {r : EmailOtp} (hr : T'.Version i r) : T.Version i r := by
    rcases hr with hr | ⟨u, hu⟩
    · exact .inl (hcommitted ▸ hr)
    · exact .inr ⟨u, hpending i _ hu⟩
  constructor
  · exact fun i r j r' hr hr' => h.emails i r j r' (hversion hr) (hversion hr')
  · unfold Table.Logged
    rw [hcommitted, hlog]
    exact h.logged
  · exact fun t i r v email hr hconsumed hverified =>
      (h.spent t i r v email (hlog ▸ hr) hconsumed hverified).of_fewer fun _ => hversion
  · rw [hlog]
    exact fun i t r v hr => h.opened i t r v (hpending i _ hr)
  · rw [hlog]
    exact h.once

theorem Spending.write (h : Spending T) (hlocked : T.locked t i = false)
    (hw : Rewrite T t i w) : Spending (T.write t i w) where
  emails := by
    refine h.emails.write fun r hr j r' hr' heq => ?_
    subst hr
    have hold {old : EmailOtp} (hview : T.view t i = some old) (hsame : r.email = old.email) :
        j = i := h.emails j r' i old hr' (version_of_view hview) (heq.trans hsame)
    cases hw with
    | attempt old hview => exact hold hview rfl
    | verify old time hview => exact hold hview rfl
    | consume old now hview => exact hold hview rfl
    | issue row _ _ honly => exact honly j r' hr' heq
  logged := h.logged
  spent u j r v email hr hconsumed hverified :=
    (h.spent u j r v email hr hconsumed hverified).write ⟨u, r, hr, hverified⟩ hw
  opened j u r v hr hconsumed hverified u' r' hr' hverified' := by
    rcases Table.write_pending hr with ⟨rfl, heq⟩ | ⟨-, hr⟩
    · obtain ⟨rfl, hnew⟩ := Prod.mk.inj heq
      subst hnew
      -- What is written over was not consumed, so the verification was not consumed before.
      obtain ⟨old, hview, hemail, hold, hnone⟩ :=
        hw.opened hverified hconsumed ⟨u', r', hr', hverified'⟩
      by_contra hsome
      have hspent := h.spent u' j r' v old.email hr' (Option.isSome_iff_ne_none.mpr hsome)
        hverified' old (version_of_view hview) rfl hold
      simp [hnone] at hspent
    · exact h.opened j u r v hr hconsumed hverified u' r' hr' hverified'
  once := h.once

theorem Spending.commit (h : Spending T) : Spending (T.commit t) where
  emails := h.emails.commit
  logged := Moves.logged (C := EmailOtpChange) .commit h.logged
  spent u i r v email hr hconsumed hverified := by
    rcases List.mem_append.mp hr with hr | hr
    · exact (h.spent u i r v email hr hconsumed hverified).of_fewer fun _ => version_of_commit
    · exact exhausted_of_commit (Table.mem_writes.mp hr).2 hconsumed
  opened i u r v hr hconsumed hverified u' r' hr' hverified' := by
    obtain ⟨hr, hne⟩ := Table.commit_pending.mp hr
    rcases List.mem_append.mp hr' with hr' | hr'
    · exact h.opened i u r v hr hconsumed hverified u' r' hr' hverified'
    · have hpending := (Table.mem_writes.mp hr').2
      rw [hr] at hpending
      exact (hne (Prod.mk.inj (Option.some.inj hpending)).1).elim
  once u u' i r r' v hr hr' hconsumed hconsumed' hverified hverified' := by
    -- A consumption that is committed now is not of a verification that was consumed before.
    have hnew {u u' : ℕ} {r r' : EmailOtp} (hr : (u, i, some r) ∈ T.writes t)
        (hr' : (u', i, some r') ∈ T.log) (hconsumed : r.consumedAt.isSome = true)
        (hconsumed' : r'.consumedAt.isSome = true) (hverified : r.verifiedAt = some v)
        (hverified' : r'.verifiedAt = some v) : False := by
      have hnone := h.opened i t r v (Table.mem_writes.mp hr).2 hconsumed hverified u' r' hr'
        hverified'
      simp [hnone] at hconsumed'
    rcases List.mem_append.mp hr with hr | hr <;> rcases List.mem_append.mp hr' with hr' | hr'
    · exact h.once u u' i r r' v hr hr' hconsumed hconsumed' hverified hverified'
    · exact (hnew hr' hr hconsumed' hconsumed hverified' hverified).elim
    · exact (hnew hr hr' hconsumed hconsumed' hverified hverified').elim
    · exact (Table.mem_writes.mp hr).1.trans (Table.mem_writes.mp hr').1.symm

theorem Spending.abort (h : Spending T) : Spending (T.abort t) :=
  h.congr rfl rfl fun _ _ hw => (Table.abort_pending.mp hw).1

end ExpressCore.Enrollment
