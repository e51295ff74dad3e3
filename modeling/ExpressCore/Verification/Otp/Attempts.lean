import ExpressCore.Verification.Otp.Guesses
import ExpressCore.Verification.System.Start
import Mathlib.Data.List.Perm.Subperm

/-! # Attempts and comparisons -/

namespace ExpressCore.Otp

open ReadCommitted Interleaving Interleaving.Program

variable {setup : Setup} {A : Assumption ℕ Request State} {calls : ℕ → Call} {exact : Prop}
  {t u : ℕ} {s s' s₀ : State} {T : Table ℕ ℕ EmailOtp}

/-! ## Runs of the calls -/

theorem calls_sound (hstart : s₀.AtRest) (hcurrent : Current A exact) :
    (rules setup A calls exact).Sound (system setup) (A.within Codes) (fun _ _ _ => True)
      (fun _ _ _ => True) (calling (fun t => (calls t).program setup) s₀) := by
  refine hstart.sound (fun t s => Uncompared t s ∧ Clear t s)
    (fun _ => ⟨by simp [Uncompared, hstart.comparisons], hstart.clear⟩) fun t => ?_
  cases hcall : calls t with
  | verify rawEmail code =>
      exact .bind ((verifyCode_meets hcurrent hcall).weaken fun s _ h => ⟨h.1 _ rfl, h.2⟩)
        fun _ => .pure (.const True) fun _ _ _ => trivial
  | send rawEmail => exact (sendCode_meets hcall).weaken fun s _ h => h.1 _ rfl
  | register userData =>
      exact lets_meets (.bind (register_lets hcall) fun _ => uses_pure _)
  | cleanup => exact lets_meets (cleanup_lets hcall)

variable (exact) in
/-- What every step keeps holds in every run that starts without codes. -/
theorem codes_induction {P : State → Prop} {c : Config ℕ Error Request Request.Reply State Unit}
    (hstart : s₀.AtRest) (hnil : s₀.issuances = []) (hempty : s₀.db.emailOtps = .empty)
    (hcurrent : Current A exact)
    (hrun : (system setup).Reaches A (calling (fun t => (calls t).program setup) s₀) c)
    (hinit : P s₀) (hstep : ∀ s s', Codes s → P s →
      Event setup (A.within Codes) (guessing setup calls exact) s s' → P s') :
    Codes c.shared ∧ P c.shared := by
  have hsound : (rules setup A calls exact).Sound (system setup) (A.within Codes)
      (fun _ _ _ => True) (fun _ _ _ => True) (calling (fun t => (calls t).program setup) s₀) :=
    calls_sound hstart hcurrent
  have hruns := hrun.within (I := Codes) fun d hd =>
    keeping_induction nofun (fun _ _ _ => trivial) hsound hd (codes_of_empty hnil hempty)
      fun s s' _ _ h hevent => h.step hevent
  exact keeping_induction (P := fun s => Codes s ∧ P s) nofun (fun _ _ _ => trivial) hsound hruns
    ⟨codes_of_empty hnil hempty, hinit⟩
    fun s s' _ _ h hevent => ⟨h.1.step hevent, hstep s s' h.1 h.2 hevent⟩

/-! ## The first entry of a thread -/

def Call.Verifies (call : Call) : Prop := ∃ rawEmail code, call = .verify rawEmail code

/-- The first change that thread `t` has committed. -/
def first (log : List (ℕ × ℕ × Option EmailOtp)) (t : ℕ) : Option (ℕ × Option EmailOtp) :=
  (log.find? fun e => e.1 == t).map Prod.snd

theorem mem_of_first {log : List (ℕ × ℕ × Option EmailOtp)} {i : ℕ} {v : Option EmailOtp}
    (h : first log t = some (i, v)) : (t, i, v) ∈ log := by
  obtain ⟨e, he, heq⟩ := Option.map_eq_some_iff.mp h
  have hfound := List.find?_eq_some_iff_append.mp he
  have ht : e.1 = t := beq_iff_eq.mp hfound.1
  have hmem : e ∈ log := List.mem_of_find?_eq_some he
  rwa [← ht, ← heq]

theorem first_eq_none {log : List (ℕ × ℕ × Option EmailOtp)} :
    first log t = none ↔ ∀ e ∈ log, e.1 ≠ t := by
  simp [first, List.find?_eq_none]

theorem first_append {log new : List (ℕ × ℕ × Option EmailOtp)} :
    first (log ++ new) t = (first log t).or (first new t) := by
  rw [first, List.find?_append, first, first]
  cases log.find? fun e => e.1 == t <;> rfl

theorem first_of_mem {log : List (ℕ × ℕ × Option EmailOtp)} {i : ℕ} {v : Option EmailOtp}
    (h : ∀ j w, (t, j, w) ∈ log ↔ (j, w) ∈ [(i, v)]) : first log t = some (i, v) := by
  cases hfirst : first log t with
  | none => exact (first_eq_none.mp hfirst _ ((h i v).mpr (.head _)) rfl).elim
  | some x => exact congrArg some (List.mem_singleton.mp ((h x.1 x.2).mp (mem_of_first hfirst)))

theorem first_commit {i : ℕ} {v : Option EmailOtp}
    (h : first (T.log ++ T.writes t) u = some (i, v)) :
    first T.log u = some (i, v) ∨
      u = t ∧ (∀ e ∈ T.log, e.1 ≠ t) ∧ T.pending i = some (t, v) := by
  rw [first_append] at h
  cases hfirst : first T.log u with
  | some x =>
      rw [hfirst] at h
      exact .inl h
  | none =>
      rw [hfirst] at h
      obtain ⟨rfl, hp⟩ := Table.mem_writes.mp (mem_of_first h)
      exact .inr ⟨rfl, first_eq_none.mp hfirst, hp⟩

/-! ## The counter -/

/-- What the counter of attempts says. -/
structure Attempts (setup : Setup) (calls : ℕ → Call) (T : Table ℕ ℕ EmailOtp) : Prop where
  grown : ∀ u j r' i r, (u, j, some r') ∈ T.log → T.committed i = some r →
    r'.issuance = r.issuance → r'.attempts ≤ r.attempts
  opened : ∀ i t r, T.pending i = some (t, some r) →
    (∃ rawEmail, calls t = .send rawEmail) ∧
        (∀ u j r', (u, j, some r') ∈ T.log → r'.issuance ≠ r.issuance) ∨
      ∃ old, T.committed i = some old ∧ SameCode old r ∧ old.attempts ≤ r.attempts ∧
        ((calls t).Verifies → (∀ e ∈ T.log, e.1 ≠ t) →
          old.attempts < r.attempts ∧ r.attempts ≤ setup.env.otpMaxAttempts)
  removed : ∀ i t, T.pending i = some (t, none) → calls t = .cleanup
  reserved : ∀ t i v, (calls t).Verifies → first T.log t = some (i, v) →
    ∃ r, v = some r ∧ 0 < r.attempts ∧ r.attempts ≤ setup.env.otpMaxAttempts
  distinct : ∀ t i r u j r', (calls t).Verifies → (calls u).Verifies →
    first T.log t = some (i, some r) → first T.log u = some (j, some r') →
      r.issuance = r'.issuance → r.attempts = r'.attempts → t = u

theorem attempts_of_empty (h : T = .empty) : Attempts setup calls T := by
  constructor <;> simp [h, Table.empty, first]

/-- A step after which fewer versions are about. -/
private theorem Attempts.of_fewer {T' : Table ℕ ℕ EmailOtp} (h : Attempts setup calls T)
    (hcommitted : T'.committed = T.committed) (hlog : T'.log = T.log)
    (hpending : ∀ i w, T'.pending i = some w → T.pending i = some w) :
    Attempts setup calls T' := by
  constructor
  · rw [hcommitted, hlog]
    exact h.grown
  · rw [hcommitted, hlog]
    exact fun i t r hr => h.opened i t r (hpending i _ hr)
  · exact fun i t hr => h.removed i t (hpending i _ hr)
  · rw [hlog]
    exact h.reserved
  · rw [hlog]
    exact h.distinct

/-- A write that has to be accounted for. -/
private theorem Attempts.write (h : Attempts setup calls T) {i : ℕ} {v : Option EmailOtp}
    (hnone : v = none → calls t = .cleanup)
    (hsome : ∀ r, v = some r → (∃ rawEmail, calls t = .send rawEmail) ∧
        (∀ u j r', (u, j, some r') ∈ T.log → r'.issuance ≠ r.issuance) ∨
      ∃ old, T.committed i = some old ∧ SameCode old r ∧ old.attempts ≤ r.attempts ∧
        ((calls t).Verifies → (∀ e ∈ T.log, e.1 ≠ t) →
          old.attempts < r.attempts ∧ r.attempts ≤ setup.env.otpMaxAttempts)) :
    Attempts setup calls (T.write t i v) where
  grown := h.grown
  opened j u r hr := by
    rcases Table.write_pending hr with ⟨rfl, heq⟩ | ⟨-, hr⟩
    · obtain ⟨rfl, hv⟩ := Prod.mk.inj heq
      exact hsome r hv.symm
    · exact h.opened j u r hr
  removed j u hr := by
    rcases Table.write_pending hr with ⟨rfl, heq⟩ | ⟨-, hr⟩
    · obtain ⟨rfl, hv⟩ := Prod.mk.inj heq
      exact hnone hv.symm
    · exact h.removed j u hr
  reserved := h.reserved
  distinct := h.distinct

/-- A change of a row that keeps the code. -/
private theorem Attempts.change (h : Attempts setup calls T) {i : ℕ} {old new : EmailOtp}
    (hlocked : T.locked t i = false) (hview : T.view t i = some old)
    (hcall : ∀ rawEmail, calls t ≠ .send rawEmail) (hsame : SameCode old new)
    (hle : old.attempts ≤ new.attempts)
    (hverifies : (calls t).Verifies → (∀ e ∈ T.log, e.1 ≠ t) →
      old.attempts < new.attempts ∧ new.attempts ≤ setup.env.otpMaxAttempts) :
    Attempts setup calls (T.write t i (some new)) := by
  refine h.write nofun fun r hr => ?_
  obtain rfl := Option.some.inj hr
  rcases version_of_view hview with hcommitted | ⟨u, hu⟩
  · exact .inr ⟨old, hcommitted, hsame, hle, hverifies⟩
  · obtain rfl : u = t := Table.locked_eq_false.mp hlocked _ hu
    rcases h.opened i u old hu with ⟨⟨rawEmail, hsend⟩, -⟩ | ⟨old₀, hold, hsame₀, hle₀, -⟩
    · exact (hcall rawEmail hsend).elim
    · refine .inr ⟨old₀, hold, hsame₀.trans hsame, Nat.le_trans hle₀ hle, fun hv hfirst => ?_⟩
      exact ⟨Nat.lt_of_le_of_lt hle₀ (hverifies hv hfirst).1, (hverifies hv hfirst).2⟩

private theorem Attempts.commit (h : Attempts setup calls s.db.emailOtps) (hcodes : Codes s) :
    Attempts setup calls (s.db.emailOtps.commit t) := by
  have hrecord {i u : ℕ} {r : EmailOtp} (hr : s.db.emailOtps.pending i = some (u, some r)) :
      s.db.emailOtps.Record i r := .inl (.inr ⟨u, hr⟩)
  -- A call that verifies and has committed nothing before has counted an attempt.
  have hfresh {i : ℕ} {v : Option EmailOtp} (hv : (calls t).Verifies)
      (hfirst : ∀ e ∈ s.db.emailOtps.log, e.1 ≠ t)
      (hp : s.db.emailOtps.pending i = some (t, v)) : ∃ r old, v = some r ∧
        s.db.emailOtps.committed i = some old ∧ old.issuance = r.issuance ∧
          old.attempts < r.attempts ∧ r.attempts ≤ setup.env.otpMaxAttempts := by
    obtain ⟨rawEmail, code, hcall⟩ := hv
    cases v with
    | none =>
        have hcleanup := h.removed i t hp
        rw [hcall] at hcleanup
        cases hcleanup
    | some r =>
        rcases h.opened i t r hp with ⟨⟨raw, hsend⟩, -⟩ | ⟨old, hold, hsame, -, hcounted⟩
        · rw [hcall] at hsend
          cases hsend
        · exact ⟨r, old, rfl, hold, hsame.issuance.symm,
            hcounted ⟨rawEmail, code, hcall⟩ hfirst⟩
  -- Its attempt is not one that was counted before.
  have hnew {i u j : ℕ} {r r' : EmailOtp} (hv : (calls t).Verifies)
      (hfirst : ∀ e ∈ s.db.emailOtps.log, e.1 ≠ t)
      (hp : s.db.emailOtps.pending i = some (t, some r))
      (hu : first s.db.emailOtps.log u = some (j, some r')) (heq : r'.issuance = r.issuance) :
      r'.attempts < r.attempts := by
    obtain ⟨r₀, old, hr₀, hold, hissuance, hlt, -⟩ := hfresh hv hfirst hp
    obtain rfl := Option.some.inj hr₀
    exact Nat.lt_of_le_of_lt (h.grown u j r' i old (mem_of_first hu) hold
      (heq.trans hissuance.symm)) hlt
  constructor
  · intro u j r' i r hlog hr heq
    rcases List.mem_append.mp hlog with hlog | hlog <;>
      rcases Table.commit_committed_eq_some hr with hr | ⟨hr, hnot⟩
    · rcases h.opened i t r hr with ⟨-, hfresh⟩ | ⟨old, hold, hsame, hle, -⟩
      · exact (hfresh u j r' hlog heq).elim
      · exact Nat.le_trans (h.grown u j r' i old hlog hold (heq.trans hsame.issuance)) hle
    · exact h.grown u j r' i r hlog hr heq
    · obtain ⟨hu, hp⟩ := Table.mem_writes.mp hlog
      obtain ⟨rfl, -⟩ := hcodes.same j r' i r (hrecord hp) (hrecord hr) heq
      obtain rfl : r' = r := Option.some.inj (Prod.mk.inj (Option.some.inj (hp.symm.trans hr))).2
      exact Nat.le_refl _
    · obtain ⟨hu, hp⟩ := Table.mem_writes.mp hlog
      obtain ⟨rfl, -⟩ := hcodes.same j r' i r (hrecord hp) (.inl (.inl hr)) heq
      exact (hnot _ hp).elim
  · intro i u r hr
    obtain ⟨hr, hne⟩ := Table.commit_pending.mp hr
    have hnot (v) : s.db.emailOtps.pending i ≠ some (t, v) := fun hv => by
      rw [hr] at hv
      exact hne (Prod.mk.inj (Option.some.inj hv)).1
    rw [Table.commit_committed_of_not_pending hnot]
    refine (h.opened i u r hr).imp (fun ⟨hsend, hfresh⟩ => ⟨hsend, fun w j r' hlog heq => ?_⟩)
      fun ⟨old, hold, hsame, hle, hcounted⟩ => ⟨old, hold, hsame, hle, fun hv hfirst =>
        hcounted hv fun e he => hfirst e (List.mem_append_left _ he)⟩
    rcases List.mem_append.mp hlog with hlog | hlog
    · exact hfresh w j r' hlog heq
    · obtain ⟨-, hp⟩ := Table.mem_writes.mp hlog
      obtain ⟨rfl, -⟩ := hcodes.same j r' i r (hrecord hp) (hrecord hr) heq
      exact hnot _ hp
  · exact fun i u hr => h.removed i u (Table.commit_pending.mp hr).1
  · intro u i v hv hu
    rcases first_commit hu with hu | ⟨rfl, hfirst, hp⟩
    · exact h.reserved u i v hv hu
    · obtain ⟨r, old, rfl, -, -, hlt, hle⟩ := hfresh hv hfirst hp
      exact ⟨r, rfl, Nat.lt_of_le_of_lt (Nat.zero_le _) hlt, hle⟩
  · intro u i r w j r' hu hw hfirst hfirst' hissuance hattempts
    rcases first_commit hfirst with hold | ⟨rfl, hnone, hp⟩ <;>
      rcases first_commit hfirst' with hold' | ⟨rfl, hnone', hp'⟩
    · exact h.distinct u i r w j r' hu hw hold hold' hissuance hattempts
    · exact absurd hattempts (Nat.ne_of_lt (hnew hw hnone' hp' hold hissuance))
    · exact absurd hattempts.symm (Nat.ne_of_lt (hnew hu hnone hp hold' hissuance.symm))
    · rfl

theorem Attempts.step (h : Attempts setup calls s.db.emailOtps) (hcodes : Codes s)
    (hevent : Event setup A (guessing setup calls exact) s s') :
    Attempts setup calls s'.db.emailOtps := by
  cases codeEvent hcodes.emails hevent with
  | same hcommitted hpending hlog =>
      exact h.of_fewer hcommitted hlog fun i w hw => hpending ▸ hw
  | write t i v hlocked hwritten htable =>
      rw [htable]
      cases hwritten with
      | attempt old hcall hview hlt =>
          obtain ⟨rawEmail, code, hcall⟩ := hcall
          exact h.change hlocked hview (by simp [hcall]) rfl (Nat.le_succ _)
            fun _ _ => ⟨Nat.lt_succ_self _, hlt⟩
      | verify old verifiedAt hmatched hA hview hunverified =>
          obtain ⟨r, ⟨rawEmail, code, r₀, hcall, -, -, hlog, -⟩, -⟩ := hmatched
          exact h.change hlocked hview (by simp [hcall]) rfl (Nat.le_refl _)
            fun _ hfirst => (hfirst _ hlog rfl).elim
      | consume old consumedAt hcall hview =>
          obtain ⟨userData, hcall⟩ := hcall
          refine h.change hlocked hview (by simp [hcall]) rfl (Nat.le_refl _) ?_
          rintro ⟨rawEmail, code, hverify⟩
          rw [hcall] at hverify
          cases hverify
      | delete old hcall hview => exact h.write (fun _ => hcall) nofun
      | issue row hissuing hemail =>
          refine h.write nofun fun r hr => .inl ⟨hissuing.call, fun u j r' hlog => ?_⟩
          obtain rfl := Option.some.inj hr
          exact hcodes.fresh hissuing (.inr ⟨u, hlog⟩)
  | commit t htable => exact htable ▸ h.commit hcodes
  | abort t htable =>
      exact htable ▸ h.of_fewer rfl rfl fun i w hw => (Table.abort_pending.mp hw).1

/-! ## Comparisons -/

/-- Comparisons and tickets are recorded one by one. -/
theorem exec_recorded {r : Request} {o : Oracle} {reply : r.Reply}
    (h : r.exec setup t o s = some (reply, s')) :
    (s'.comparisons = s.comparisons ∨
      ∃ x, r = .otpCodeMatches x ∧ s'.comparisons = (t, x) :: s.comparisons) ∧
    (s'.tickets = s.tickets ∨
      ∃ i time, r = .ticketReturned i time ∧ s'.tickets = (t, i, time) :: s.tickets) := by
  cases r with
  | otpCodeMatches x =>
      cases h
      exact ⟨.inr ⟨x, rfl, rfl⟩, .inl rfl⟩
  | ticketReturned i time =>
      cases h
      exact ⟨.inl rfl, .inr ⟨i, time, rfl, rfl⟩⟩
  | sql q =>
      simp only [Request.exec, Option.map_eq_some_iff, Prod.mk.injEq] at h
      obtain ⟨_, -, -, rfl⟩ := h
      exact ⟨.inl rfl, .inl rfl⟩
  | cache c =>
      simp only [Request.exec] at h
      split at h <;> cases h
      · exact ⟨.inl (by split <;> rfl), .inl (by split <;> rfl)⟩
      · exact ⟨.inl rfl, .inl rfl⟩
  | _ =>
      simp only [Request.exec] at h
      first
        | cases h; exact ⟨.inl rfl, .inl rfl⟩
        | split at h <;> cases h <;> exact ⟨.inl rfl, .inl rfl⟩

theorem recorded_of_event {D : Discipline} (h : Event setup A D s s') :
    (s'.comparisons = s.comparisons ∨ ∃ t x, D.other t (.otpCodeMatches x) s ∧
      s'.comparisons = (t, x) :: s.comparisons) ∧
    (s'.tickets = s.tickets ∨ ∃ t i time, D.other t (.ticketReturned i time) s ∧
      s'.tickets = (t, i, time) :: s.tickets) := by
  cases h with
  | access t k a reply o hchange hA h => exact ⟨.inl (by rw [h.rest]), .inl (by rw [h.rest])⟩
  | commit t hcommit htables hrest => exact ⟨.inl (by rw [hrest]), .inl (by rw [hrest])⟩
  | abort t htables hrest => exact ⟨.inl (by rw [hrest]), .inl (by rw [hrest])⟩
  | other t r o reply hother hA hexec htables =>
      refine (exec_recorded hexec).imp (Or.imp_right ?_) (Or.imp_right ?_)
      · rintro ⟨x, rfl, heq⟩
        exact ⟨t, x, hother trivial, heq⟩
      · rintro ⟨i, time, rfl, heq⟩
        exact ⟨t, i, time, hother trivial, heq⟩
  | move m hmove hA hdb => exact ⟨.inl (move_records hmove).1, .inl (move_records hmove).2.1⟩

theorem log_of_event {D : Discipline} (h : Event setup A D s s') (k : TableName) :
    (k.table s.db).log <+: (k.table s'.db).log := by
  rcases h.settled with ⟨t, -, htables⟩ | hsettled
  · rw [htables]
    exact List.prefix_append _ _
  · exact (hsettled k).2 ▸ List.prefix_refl _

theorem first_of_prefix {log log' : List (ℕ × ℕ × Option EmailOtp)} {x : ℕ × Option EmailOtp}
    (hgrown : log <+: log') (h : first log t = some x) : first log' t = some x := by
  obtain ⟨new, rfl⟩ := hgrown
  rw [first_append, h]
  rfl

/-- Every comparison is that of the first attempt of its thread. -/
structure Compares (calls : ℕ → Call) (s : State) : Prop where
  reserved : ∀ t x, (t, x) ∈ s.comparisons → (calls t).Verifies ∧ x.reservedAt < x.expiresAt ∧
    x.unconsumed = true ∧ ∃ i r, first s.db.emailOtps.log t = some (i, some r) ∧
      r.issuance = x.issuance ∧ r.expiresAt = x.expiresAt ∧ r.consumedAt = none
  once : (s.comparisons.map Prod.fst).Nodup

theorem compares_of_nil (h : s.comparisons = []) : Compares calls s := by
  constructor <;> simp [h]

theorem Compares.step (h : Compares calls s)
    (hevent : Event setup A (guessing setup calls exact) s s') : Compares calls s' := by
  have hold (t : ℕ) (x : Comparison) (hx : (t, x) ∈ s.comparisons) : (calls t).Verifies ∧
      x.reservedAt < x.expiresAt ∧ x.unconsumed = true ∧ ∃ i r,
        first s'.db.emailOtps.log t = some (i, some r) ∧ r.issuance = x.issuance ∧
          r.expiresAt = x.expiresAt ∧ r.consumedAt = none := by
    obtain ⟨hcall, hunexpired, hunconsumed, i, r, hfirst, hr⟩ := h.reserved t x hx
    exact ⟨hcall, hunexpired, hunconsumed, i, r,
      first_of_prefix (log_of_event hevent .emailOtps) hfirst, hr⟩
  rcases (recorded_of_event hevent).1 with heq | ⟨t, x, hother, heq⟩
  · exact ⟨fun t x hx => hold t x (heq ▸ hx), heq ▸ h.once⟩
  · have hcomparing : Comparing calls t x s := hother
    constructor
    · intro u y hy
      rw [heq] at hy
      rcases List.mem_cons.mp hy with hnew | hy
      · obtain ⟨rfl, rfl⟩ := Prod.mk.inj hnew
        obtain ⟨i, r, hledger, hunconsumed, hissuance, hexpires⟩ := hcomparing.reserved
        exact ⟨hcomparing.call, hcomparing.unexpired, hcomparing.unconsumed, i, r, first_of_prefix
          (log_of_event hevent .emailOtps) (first_of_mem hledger.past), hissuance.symm,
            hexpires.symm, hunconsumed⟩
      · exact hold u y hy
    · rw [heq, List.map_cons]
      refine List.nodup_cons.mpr ⟨fun hmem => ?_, h.once⟩
      obtain ⟨y, hy, hyt⟩ := List.mem_map.mp hmem
      exact hcomparing.first y hy hyt

/-- The attempt that a thread was counted for. -/
def count (log : List (ℕ × ℕ × Option EmailOtp)) (t : ℕ) : ℕ :=
  ((first log t).bind Prod.snd).elim 0 EmailOtp.attempts

/-- Comparisons with one code are at most as many as there may be attempts. -/
theorem Compares.bounded (h : Compares calls s) (hattempts : Attempts setup calls s.db.emailOtps)
    (issuance : ℕ) : (s.comparisons.filter fun x => x.2.issuance == issuance).length ≤
      setup.env.otpMaxAttempts := by
  let compared := s.comparisons.filter fun x => x.2.issuance == issuance
  let counts := compared.map fun x => count s.db.emailOtps.log x.1
  have hreserved (x) (hx : x ∈ compared) : (calls x.1).Verifies ∧ ∃ i r,
      first s.db.emailOtps.log x.1 = some (i, some r) ∧ r.issuance = issuance ∧
        count s.db.emailOtps.log x.1 = r.attempts := by
    obtain ⟨hmem, hissuance⟩ := List.mem_filter.mp hx
    obtain ⟨hcall, -, -, i, r, hfirst, hr, -⟩ := h.reserved x.1 x.2 hmem
    exact ⟨hcall, i, r, hfirst, hr.trans (beq_iff_eq.mp hissuance), by simp [count, hfirst]⟩
  have hnodup : compared.Nodup := h.once.of_map.filter _
  have hdistinct : counts.Nodup := hnodup.map_on fun x hx y hy heq => by
    obtain ⟨hcall, i, r, hfirst, hr, hcount⟩ := hreserved x hx
    obtain ⟨hcall', j, r', hfirst', hr', hcount'⟩ := hreserved y hy
    have ht : x.1 = y.1 := hattempts.distinct x.1 i r y.1 j r' hcall hcall' hfirst hfirst'
      (hr.trans hr'.symm) (by rw [← hcount, ← hcount', heq])
    exact List.inj_on_of_nodup_map h.once (List.mem_filter.mp hx).1 (List.mem_filter.mp hy).1 ht
  have hrange : counts ⊆ List.range' 1 setup.env.otpMaxAttempts := by
    intro n hn
    obtain ⟨x, hx, rfl⟩ := List.mem_map.mp hn
    obtain ⟨hcall, i, r, hfirst, -, hcount⟩ := hreserved x hx
    obtain ⟨r', hr', hpos, hle⟩ := hattempts.reserved x.1 i (some r) hcall hfirst
    obtain rfl := Option.some.inj hr'
    rw [hcount, List.mem_range'_1]
    omega
  calc compared.length = counts.length := (List.length_map _).symm
    _ ≤ (List.range' 1 setup.env.otpMaxAttempts).length :=
      (List.subperm_of_subset hdistinct hrange).length_le
    _ = setup.env.otpMaxAttempts := List.length_range'

/-- How often codes are compared. -/
structure Bounded (setup : Setup) (calls : ℕ → Call) (s : State) : Prop where
  bounded : ∀ issuance, (s.comparisons.filter fun x => x.2.issuance == issuance).length ≤
    setup.env.otpMaxAttempts
  reserved : ∀ t x, (t, x) ∈ s.comparisons → ∃ rawEmail code i r,
    calls t = .verify rawEmail code ∧ (t, i, some r) ∈ s.db.emailOtps.log ∧
      r.issuance = x.issuance ∧ r.expiresAt = x.expiresAt ∧ x.reservedAt < r.expiresAt ∧
        r.consumedAt = none
  issued : ∀ i r j r', s.db.emailOtps.Record i r → s.db.emailOtps.Record j r' →
    r.issuance = r'.issuance → i = j ∧ SameCode r r'

/-- Concurrent calls compare each code at most as often as allowed, and only for attempts that
were reserved while it was valid. -/
theorem compared_at_most {c : Config ℕ Error Request Request.Reply State Unit}
    (hstart : s₀.AtRest) (hnil : s₀.issuances = []) (hempty : s₀.db.emailOtps = .empty)
    (hrun : (system setup).Reaches .any (calling (fun t => (calls t).program setup) s₀) c) :
    Bounded setup calls c.shared := by
  obtain ⟨hcodes, hattempts, hcompares⟩ := codes_induction False
    (P := fun s => Attempts setup calls s.db.emailOtps ∧ Compares calls s) hstart hnil hempty nofun
    hrun ⟨attempts_of_empty hempty, compares_of_nil hstart.comparisons⟩
    fun s s' hcodes h hevent => ⟨h.1.step hcodes hevent, h.2.step hevent⟩
  refine ⟨hcompares.bounded hattempts, fun t x hx => ?_, hcodes.same⟩
  obtain ⟨⟨rawEmail, code, hcall⟩, hunexpired, -, i, r, hfirst, hissuance, hexpires, hunconsumed⟩ :=
    hcompares.reserved t x hx
  exact ⟨rawEmail, code, i, r, hcall, mem_of_first hfirst, hissuance, hexpires,
    hexpires.symm ▸ hunexpired, hunconsumed⟩

/-- A right and a wrong guess at the code that thread 1 sends. -/
def guesses : ℕ → Call
  | 1 => .send "ada@example.org"
  | 2 => .verify "ada@example.org" "000000"
  | _ => .verify "ada@example.org" "111111"

/-- Both guesses have reserved an attempt when the first is compared. -/
def guessed : Config ℕ Error Request Request.Reply State Unit :=
  (system plainSetup).after
    (calling (fun t => (guesses t).program plainSetup) (plainState .empty))
    (List.replicate 10 (.run 1 { fresh := 1 }) ++ List.replicate 4 (.run 2 {}) ++
      List.replicate 5 (.run 3 {}) ++ List.replicate 7 (.run 2 {}))

theorem compared_at_most_guessed :
    Bounded plainSetup guesses guessed.shared ∧
      guessed.shared.comparisons.map (fun x => (x.1, x.2.issuance)) = [(2, 0), (3, 0)] :=
  ⟨compared_at_most plainState_atRest rfl rfl
    (.of_schedule (fun l _ _ _ => Machine.keeps_any l) (by decide +kernel)), by decide +kernel⟩

end ExpressCore.Otp
