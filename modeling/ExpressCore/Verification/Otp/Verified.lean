import ExpressCore.Verification.Otp.Attempts

/-! # Verifications and tickets -/

namespace ExpressCore.Otp

open ReadCommitted Interleaving Interleaving.Program

variable {setup : Setup} {calls : ℕ → Call} {t : ℕ} {s s' s₀ : State}

/-- The row that `markVerified` updates and reads is still that of the code its call compared, and
the time it writes is not that of an earlier verification of the row. -/
def unreplaced : Assumption ℕ Request State where
  request t r s :=
    (∀ i time row, r = .sql (.emailOtps (.visit i (.unverified i) (.verify time))) →
      s.db.emailOtps.view t i = some row → row.verifiedAt = none →
        (∃ x ∈ s.comparisons, x.1 = t ∧ x.2.issuance = row.issuance) ∧
          ∀ r', s.db.emailOtps.Record i r' → r'.verifiedAt ≠ some time) ∧
    ∀ i row, r = .sql (.emailOtps (.find (.id i))) → s.db.emailOtps.view t i = some row →
      row.verifiedAt.isSome = true → ∃ x ∈ s.comparisons, x.1 = t ∧ x.2.issuance = row.issuance
  move _ _ := True

theorem current_unreplaced : Current unreplaced True :=
  fun _ _ i row _ hA hview hverified => hA.2 i row rfl hview hverified

/-- Rows are verified and tickets are given out by calls that submitted the code. -/
structure Verified (setup : Setup) (calls : ℕ → Call) (s : State) : Prop where
  known : ∀ i r, s.db.emailOtps.Record i r → r.verifiedAt.isSome = true →
    ∃ t, Knows setup (calls t) t i r s
  once : ∀ i r r' time, s.db.emailOtps.Record i r → s.db.emailOtps.Record i r' →
    r.verifiedAt = some time → r'.verifiedAt = some time → r.issuance = r'.issuance
  tickets : ∀ t i time, (t, i, time) ∈ s.tickets → Ticketed setup (calls t) t i time s

theorem verified_of_empty (hempty : s.db.emailOtps = .empty) (hnil : s.tickets = []) :
    Verified setup calls s := by
  constructor <;> simp [hempty, hnil, Table.Record, Table.Version, Table.empty]

theorem Knows.mono {call : Call} {i : ℕ} {r : EmailOtp} (h : Knows setup call t i r s)
    (hlog : s.db.emailOtps.log <+: s'.db.emailOtps.log)
    (hcomparisons : s.comparisons ⊆ s'.comparisons) : Knows setup call t i r s' := by
  obtain ⟨rawEmail, code, r₀, hcall, hemail, hmatches, hr₀, hsame, x, hx, hissuance⟩ := h
  exact ⟨rawEmail, code, r₀, hcall, hemail, hmatches, hlog.subset hr₀, hsame, x, hcomparisons hx,
    hissuance⟩

theorem Knows.same {call : Call} {i : ℕ} {r r' : EmailOtp} (h : Knows setup call t i r s)
    (hsame : SameCode r r') : Knows setup call t i r' s := by
  obtain ⟨rawEmail, code, r₀, hcall, hemail, hmatches, hr₀, hsame₀, x, hx, ht, hissuance⟩ := h
  exact ⟨rawEmail, code, r₀, hcall, hsame.email.trans hemail, hsame.codeHash ▸ hmatches, hr₀,
    hsame₀.trans hsame, x, hx, ht, hissuance.trans hsame.issuance.symm⟩

theorem Ticketed.mono {call : Call} {i : ℕ} {time : Time} (h : Ticketed setup call t i time s)
    (hlog : s.db.emailOtps.log <+: s'.db.emailOtps.log)
    (hcomparisons : s.comparisons ⊆ s'.comparisons) : Ticketed setup call t i time s' := by
  obtain ⟨u, r, hr, htime, hknows⟩ := h
  exact ⟨u, r, hlog.subset hr, htime, hknows.mono hlog hcomparisons⟩

/-- A step after which every record descends from one with the same code and verification, but
for at most one that is new. -/
private theorem Verified.of_records (h : Verified setup calls s)
    (hlog : s.db.emailOtps.log <+: s'.db.emailOtps.log)
    (hcomparisons : s.comparisons ⊆ s'.comparisons)
    (htickets : ∀ t i time, (t, i, time) ∈ s'.tickets → Ticketed setup (calls t) t i time s')
    (hrecord : ∀ i r, s'.db.emailOtps.Record i r → r.verifiedAt.isSome = true →
      (∃ r₀, s.db.emailOtps.Record i r₀ ∧ SameCode r₀ r ∧ r.verifiedAt = r₀.verifiedAt) ∨
      (∃ t, Knows setup (calls t) t i r s') ∧ ∀ r', s'.db.emailOtps.Record i r' →
        r'.verifiedAt = r.verifiedAt → r'.issuance = r.issuance) : Verified setup calls s' where
  known i r hr hverified := by
    rcases hrecord i r hr hverified with ⟨r₀, hr₀, hsame, heq⟩ | ⟨hknown, -⟩
    · obtain ⟨t, hknows⟩ := h.known i r₀ hr₀ (heq ▸ hverified)
      exact ⟨t, (hknows.mono hlog hcomparisons).same hsame⟩
    · exact hknown
  once i r r' time hr hr' htime htime' := by
    rcases hrecord i r hr (by simp [htime]) with ⟨r₀, hr₀, hsame, heq⟩ | ⟨-, honly⟩
    · rcases hrecord i r' hr' (by simp [htime']) with ⟨r₁, hr₁, hsame₁, heq₁⟩ | ⟨-, honly⟩
      · rw [hsame.issuance, hsame₁.issuance]
        exact h.once i r₀ r₁ time hr₀ hr₁ (heq ▸ htime) (heq₁ ▸ htime')
      · exact honly r hr (htime.trans htime'.symm)
    · exact (honly r' hr' (htime'.trans htime.symm)).symm
  tickets := htickets

private theorem record_of_some {i j : ℕ} {r new : EmailOtp}
    (htable : s'.db.emailOtps = s.db.emailOtps.write t i (some new))
    (hr : s'.db.emailOtps.Record j r) : s.db.emailOtps.Record j r ∨ j = i ∧ r = new := by
  rw [htable] at hr
  exact (record_of_write hr).imp_right fun ⟨hj, hnew⟩ => ⟨hj, (Option.some.inj hnew).symm⟩

theorem Verified.step (h : Verified setup calls s) (hcodes : Codes s)
    (hevent : Event setup (unreplaced.within Codes) (guessing setup calls True) s s') :
    Verified setup calls s' := by
  have hlog : s.db.emailOtps.log <+: s'.db.emailOtps.log := log_of_event hevent .emailOtps
  have hcomparisons : s.comparisons ⊆ s'.comparisons := by
    rcases (recorded_of_event hevent).1 with heq | ⟨u, x, -, heq⟩
    · rw [heq]
      exact List.Subset.refl _
    · rw [heq]
      exact List.subset_cons_self _ _
  have htickets (t i : ℕ) (time : Time) (hticket : (t, i, time) ∈ s'.tickets) :
      Ticketed setup (calls t) t i time s' := by
    rcases (recorded_of_event hevent).2 with heq | ⟨u, j, time', hother, heq⟩
    · exact (h.tickets t i time (heq ▸ hticket)).mono hlog hcomparisons
    · rw [heq] at hticket
      rcases List.mem_cons.mp hticket with hnew | hticket
      · obtain ⟨rfl, hrest⟩ := Prod.mk.inj hnew
        obtain ⟨rfl, rfl⟩ := Prod.mk.inj hrest
        exact Ticketed.mono (hother trivial) hlog hcomparisons
      · exact (h.tickets t i time hticket).mono hlog hcomparisons
  refine h.of_records hlog hcomparisons htickets fun j r hr hverified => ?_
  cases codeEvent hcodes.emails hevent with
  | same hcommitted hpending hlogged =>
      refine .inl ⟨r, ?_, .refl r, rfl⟩
      rwa [Table.Record, Table.Version, hcommitted, hpending, hlogged] at hr
  | write t i v hlocked hwritten htable =>
      cases hwritten with
      | attempt old hcall hview hlt =>
          rcases record_of_some htable hr with hr | ⟨rfl, rfl⟩
          · exact .inl ⟨r, hr, .refl r, rfl⟩
          · exact .inl ⟨old, .inl (version_of_view hview), rfl, rfl⟩
      | consume old consumedAt hcall hview =>
          rcases record_of_some htable hr with hr | ⟨rfl, rfl⟩
          · exact .inl ⟨r, hr, .refl r, rfl⟩
          · exact .inl ⟨old, .inl (version_of_view hview), rfl, rfl⟩
      | delete old hcall hview =>
          rw [htable] at hr
          rcases record_of_write hr with hr | ⟨-, hnew⟩
          · exact .inl ⟨r, hr, .refl r, rfl⟩
          · cases hnew
      | issue row hissuing hemail =>
          rcases record_of_some htable hr with hr | ⟨rfl, rfl⟩
          · exact .inl ⟨r, hr, .refl r, rfl⟩
          · simp [hissuing.verifiedAt] at hverified
      | verify old time hmatched hA hview hunverified =>
          rcases record_of_some htable hr with hr | ⟨rfl, rfl⟩
          · exact .inl ⟨r, hr, .refl r, rfl⟩
          -- The verified code is the one that the call has submitted.
          have hold : s.db.emailOtps.Record j old := .inl (version_of_view hview)
          obtain ⟨⟨x, hx, ht, hissuance⟩, hfresh⟩ := hA.1.1 j time old rfl hview hunverified
          obtain ⟨r₁, hknows, hcompared⟩ := hmatched
          have hknown : Knows setup (calls t) t j old s := by
            obtain ⟨rawEmail, code, r₀, hcall, hemail, hmatches, hr₀, hsame₀, hcomparison⟩ := hknows
            have hcode : SameCode r₀ old := by
              refine (hcodes.same j r₀ j old (.inr ⟨t, hr₀⟩) hold ?_).2
              rw [← hissuance, hcompared x hx ht, hsame₀.issuance]
            exact Knows.same
              ⟨rawEmail, code, r₀, hcall, hemail, hmatches, hr₀, hsame₀, hcomparison⟩
              (hsame₀.symm.trans hcode)
          refine .inr ⟨⟨t, (hknown.mono hlog hcomparisons).same rfl⟩, fun r' hr' heq => ?_⟩
          rcases record_of_some htable hr' with hr' | ⟨-, rfl⟩
          · exact (hfresh r' hr' heq).elim
          · rfl
  | commit t htable => exact .inl ⟨r, record_of_commit (htable ▸ hr), .refl r, rfl⟩
  | abort t htable => exact .inl ⟨r, record_of_abort (htable ▸ hr), .refl r, rfl⟩

/-- A verified row and a valid ticket are those of a call that reserved an attempt for the row's
current code and submitted it. -/
structure OnlyCurrent (setup : Setup) (calls : ℕ → Call) (s : State) : Prop where
  verified : ∀ i r, s.db.emailOtps.committed i = some r → r.verifiedAt.isSome = true →
    ∃ t, Knows setup (calls t) t i r s
  tickets : ∀ t i time r, (t, i, time) ∈ s.tickets → s.db.emailOtps.committed i = some r →
    r.verifiedAt = some time → Knows setup (calls t) t i r s
  issued : ∀ i r j r', s.db.emailOtps.Record i r → s.db.emailOtps.Record j r' →
    r.issuance = r'.issuance → i = j ∧ SameCode r r'

/-- Concurrent calls in which no code is replaced between its comparison and its verification. -/
theorem verified_only_current {c : Config ℕ Error Request Request.Reply State Unit}
    (hstart : s₀.AtRest) (hnil : s₀.issuances = []) (hempty : s₀.db.emailOtps = .empty)
    (hrun : (system setup).Reaches unreplaced (calling (fun t => (calls t).program setup) s₀) c) :
    OnlyCurrent setup calls c.shared := by
  obtain ⟨hcodes, h⟩ := codes_induction True (P := Verified setup calls) hstart hnil
    hempty current_unreplaced hrun (verified_of_empty hempty hstart.tickets)
    fun s s' hcodes h hevent => h.step hcodes hevent
  refine ⟨fun i r hr => h.known i r (.inl (.inl hr)), fun t i time r hticket hr htime => ?_,
    hcodes.same⟩
  obtain ⟨u, r', hlog, htime', hknows⟩ := h.tickets t i time hticket
  have hissuance : r'.issuance = r.issuance :=
    h.once i r' r time (.inr ⟨u, hlog⟩) (.inl (.inl hr)) htime' htime
  exact hknows.same (hcodes.same i r' i r (.inr ⟨u, hlog⟩) (.inl (.inl hr)) hissuance).2

/-! ## A code that is replaced -/

/-- What has been written of a row. -/
def records (i : ℕ) (s : State) : List EmailOtp :=
  (s.db.emailOtps.committed i).toList ++ ((s.db.emailOtps.pending i).bind Prod.snd).toList ++
    s.db.emailOtps.log.filterMap fun x => if x.2.1 = i then x.2.2 else none

theorem mem_records {i : ℕ} {r : EmailOtp} (h : s.db.emailOtps.Record i r) : r ∈ records i s := by
  rcases h with (h | ⟨t, h⟩) | ⟨t, h⟩
  · simp [records, h]
  · simp [records, h]
  · refine List.mem_append_right _ (List.mem_filterMap.mpr ⟨_, h, ?_⟩)
    simp

/-- Whether the call has compared the code that the row holds. -/
def compared (t : ℕ) (row : EmailOtp) (s : State) : Bool :=
  s.comparisons.any fun x => x.1 == t && x.2.issuance == row.issuance

theorem exists_of_compared {row : EmailOtp} (h : compared t row s = true) :
    ∃ x ∈ s.comparisons, x.1 = t ∧ x.2.issuance = row.issuance := by
  obtain ⟨x, hx, heq⟩ := List.any_eq_true.mp h
  exact ⟨x, hx, by simpa using heq⟩

/-- Whether `markVerified` finds the row as its call has left it. -/
def kept : ℕ → Request → State → Bool
  | t, .sql (.emailOtps (.visit i (.unverified _) (.verify time))), s =>
      (s.db.emailOtps.view t i).all fun row => row.verifiedAt.isSome || compared t row s &&
        (records i s).all fun r => r.verifiedAt != some time
  | t, .sql (.emailOtps (.find (.id i))), s =>
      (s.db.emailOtps.view t i).all fun row => row.verifiedAt.isNone || compared t row s
  | _, _, _ => true

theorem unreplaced_of_kept {r : Request} (h : kept t r s = true) : unreplaced.request t r s := by
  refine ⟨?_, ?_⟩
  · rintro i time row rfl hview hunverified
    simp only [kept, hview, Option.all_some, hunverified, Option.isSome_none, Bool.false_or,
      Bool.and_eq_true] at h
    exact ⟨exists_of_compared h.1, fun r' hr' => by
      simpa using List.all_eq_true.mp h.2 r' (mem_records hr')⟩
  · rintro i row rfl hview hverified
    simp only [kept, hview, Option.all_some, Bool.or_eq_true, Option.isNone_iff_eq_none] at h
    rcases h with h | h
    · simp [h] at hverified
    · exact exists_of_compared h

/-- Thread 2 submits the code that thread 1 sends, and the others send new ones. -/
def replacing : ℕ → Call
  | 2 => .verify "ada@example.org" "000000"
  | _ => .send "ada@example.org"

def verifying (schedule : List (Label ℕ Oracle)) :
    Config ℕ Error Request Request.Reply State Unit :=
  (system plainSetup).after
    (calling (fun t => (replacing t).program plainSetup) (plainState .empty)) schedule

/-- The code is verified before it is replaced. -/
def inTurn : List (Label ℕ Oracle) :=
  List.replicate 10 (.run 1 { fresh := 1 }) ++ List.replicate 11 (.run 2 {}) ++
    .move { move := .clock 60000 } :: List.replicate 10 (.run 3 { fresh := 2, number := 111111 })

theorem verified_only_current_inTurn :
    OnlyCurrent plainSetup replacing (verifying inTurn).shared ∧
      (verifying inTurn).shared.tickets = [(2, 1, 0)] :=
  ⟨verified_only_current plainState_atRest rfl rfl
    (.of_passes kept (fun _ _ _ => unreplaced_of_kept) (fun _ _ => trivial) (by decide +kernel)),
    by decide +kernel⟩

/-- The code is replaced between its comparison and `markVerified`. -/
def overtaken : List (Label ℕ Oracle) :=
  List.replicate 10 (.run 1 { fresh := 1 }) ++ List.replicate 5 (.run 2 {}) ++
    .move { move := .clock 60000 } ::
      List.replicate 10 (.run 3 { fresh := 2, number := 111111 }) ++ List.replicate 6 (.run 2 {})

theorem verified_replacement_overtaken :
    (system plainSetup).Reaches .any
      (calling (fun t => (replacing t).program plainSetup) (plainState .empty))
      (verifying overtaken) ∧
    (verifying overtaken).thread 2 = .ret () ∧
    (verifying overtaken).shared.tickets = [(2, 1, 60000)] ∧
    (verifying overtaken).shared.db.emailOtps.committed 1 = some
      { email := "ada@example.org", codeHash := hashOtpCode plainSetup "ada@example.org" "111111"
        attempts := 0, sentAt := 60000, expiresAt := 660000, verifiedAt := some 60000
        consumedAt := none, issuance := 1 } ∧
    ¬ OnlyCurrent plainSetup replacing (verifying overtaken).shared := by
  have hrow : (verifying overtaken).shared.db.emailOtps.committed 1 = some
      { email := "ada@example.org", codeHash := hashOtpCode plainSetup "ada@example.org" "111111"
        attempts := 0, sentAt := 60000, expiresAt := 660000, verifiedAt := some 60000
        consumedAt := none, issuance := 1 } := by decide +kernel
  refine ⟨.of_schedule (fun l _ _ _ => Machine.keeps_any l) (by decide +kernel),
    Program.value?_eq_some.mp (by decide +kernel), by decide +kernel, hrow, fun h => ?_⟩
  obtain ⟨t, rawEmail, code, r₀, hcall, -, hmatches, -⟩ := h.verified 1 _ hrow rfl
  -- Only thread 2 submits a code, and it is another one.
  have hsubmitted : rawEmail = "ada@example.org" ∧ code = "000000" := by
    unfold replacing at hcall
    split at hcall
    · simpa [eq_comm] using hcall
    · cases hcall
  rw [hsubmitted.1, hsubmitted.2] at hmatches
  exact absurd hmatches (by decide +kernel)

end ExpressCore.Otp
