import ExpressCore.Verification.Email.Attempts

/-! # Runs of attempts at email jobs -/

namespace ExpressCore.Email

open Interleaving Interleaving.Program

variable {env : MailEnv} {jobs : ℕ → Job} {start s s' : MailState} {t u : ℕ} {key : String}
  {c c' : Config ℕ JobError MailRequest MailRequest.Reply MailState Unit}

/-- Nothing is marked or sent yet, and the stored texts pass the check. -/
structure Fresh (start : MailState) : Prop where
  templates : ∀ row ∈ start.templates, Edits.Sendable row
  markers : ∀ key, start.markers key = none
  deliveries : start.deliveries = []

theorem Fresh.sound (h : Fresh start) (hjobs : SameJob jobs) :
    (rules env jobs start).Sound mailSystem checked (fun t _ => Done jobs t) Ended
      (attempts env jobs start) := by
  have hfaithful : Faithful env jobs start start := by
    refine ⟨Nat.le_refl _, h.templates, ?_, fun t => ?_, fun key expiresAt hkey => ?_, ?_⟩
    · simp [h.deliveries]
    · simp [sent, h.deliveries]
    · simp [h.markers key] at hkey
    · simp [h.deliveries]
  refine ⟨hfaithful, fun t => (processEmailJob_meets hjobs).holds hfaithful ?_⟩
  simp [attempts, sent, h.deliveries]

theorem lost_ended (t : ℕ) (s : MailState) : Ended t mailSystem.lost s :=
  ⟨False.elim, fun _ => by simp [mailSystem]⟩

theorem sound_of_reaches (h : Fresh start) (hjobs : SameJob jobs)
    (hrun : mailSystem.Reaches checked (attempts env jobs start) c) :
    (rules env jobs start).Sound mailSystem checked (fun t _ => Done jobs t) Ended c :=
  (h.sound hjobs).reaches compatible (fun t s _ => lost_ended t s) hrun

/-- However attempts at jobs overlap, fail and are lost: what the transport takes over is, for
its recipient, the message of the job, with the link or the code; an attempt hands over at most
one message, and none if it fails for good; and when one has returned, the job's message was taken
over. -/
theorem attempts_settled (h : Fresh start) (hjobs : SameJob jobs)
    (hrun : mailSystem.Reaches checked (attempts env jobs start) c) :
    (∀ x ∈ c.shared.deliveries, Carries env (jobs x.1) x.2) ∧
    ∀ t, (sent t c.shared).length ≤ 1 ∧
      (c.thread t = .ret () → ∃ x ∈ c.shared.deliveries, jobs x.1 = jobs t) ∧
      (∀ text, c.thread t = .fail (.unrecoverable text) → sent t c.shared = []) ∧
      ∀ text, c.thread t ≠ .fail (.permanentMail text) := by
  obtain ⟨hfaithful, hholds⟩ := sound_of_reaches h hjobs hrun
  refine ⟨hfaithful.carries, fun t => ⟨hfaithful.once t, fun hret => ?_, fun text hfail => ?_,
    fun text hfail => ?_⟩⟩
  · have hdone := hholds t
    rw [hret] at hdone
    exact (hdone.value hfaithful).delivered
  · have hended := hholds t
    rw [hfail] at hended
    exact (hended.error hfaithful).1 trivial
  · have hended := hholds t
    rw [hfail] at hended
    exact (hended.error hfaithful).2 text rfl

/-! ## Attempts after a success -/

/-- A request keeps markers and adds only true answers about them. -/
theorem asked_of_exec {r : MailRequest} {o : MailOracle} {reply : r.Reply}
    (h : execMail t r o s = some (reply, s')) :
    s'.clock = s.clock ∧ (∀ key, s.markers key ≠ none → s'.markers key ≠ none) ∧
      ∀ x ∈ s'.asked, x ∈ s.asked ∨ x.2.2 = decide (s.Marked x.2.1) := by
  cases r with
  | getMarker key =>
      rcases exec_getMarker h with ⟨-, rfl⟩ | ⟨-, rfl⟩
      · refine ⟨rfl, fun _ => id, fun x hx => ?_⟩
        rcases List.mem_cons.mp hx with rfl | hx
        · exact .inr rfl
        · exact .inl hx
      · exact ⟨rfl, fun _ => id, fun _ => .inl⟩
  | setMarker key ttl =>
      rcases exec_setMarker h with rfl | ⟨rfl, -⟩
      · exact ⟨rfl, (spares_mark (u := t) ttl).markers, fun _ => .inl⟩
      · exact ⟨rfl, fun _ => id, fun _ => .inl⟩
  | findByKey key =>
      obtain ⟨rfl, -⟩ := exec_findByKey h
      exact ⟨rfl, fun _ => id, fun _ => .inl⟩
  | transporter sender message =>
      obtain ⟨taken, -, rfl⟩ := exec_transporter h
      cases taken <;> exact ⟨rfl, fun _ => id, fun _ => .inl⟩
  | fetch post =>
      obtain ⟨taken, -, rfl⟩ := exec_fetch h
      cases taken <;> exact ⟨rfl, fun _ => id, fun _ => .inl⟩

/-- The marker was written, and as long as it is alive attempt `u` does not miss it. -/
structure Found (start : MailState) (u : ℕ) (key : String) (s : MailState) : Prop where
  marker : s.markers key ≠ none
  missed : (u, key, false) ∈ s.asked → lifetime start ≤ s.clock

theorem Found.exec {r : MailRequest} {o : MailOracle} {reply : r.Reply}
    (h : Found start u key s) (hs : Faithful env jobs start s)
    (hexec : execMail t r o s = some (reply, s')) : Found start u key s' := by
  obtain ⟨hclock, hmarkers, hasked⟩ := asked_of_exec hexec
  refine ⟨hmarkers key h.marker, fun hmem => ?_⟩
  rw [hclock]
  rcases hasked _ hmem with hold | hanswer
  · exact h.missed hold
  · obtain ⟨expiresAt, hexpires⟩ := Option.ne_none_iff_exists'.mp h.marker
    have hlife := (hs.markers key expiresAt hexpires).1
    have hover : ¬ s.clock < expiresAt := fun hlt =>
      of_decide_eq_false hanswer.symm ⟨expiresAt, hexpires, hlt⟩
    exact Nat.le_trans hlife (Nat.le_of_not_lt hover)

theorem Found.step (h : Found start u key c.shared)
    (hs : Faithful env jobs start c.shared) {l : Label ℕ MailOracle}
    (hstep : mailSystem.step c l = some c') : Found start u key c'.shared := by
  rcases mailSystem.step_cases hstep with
    ⟨t, o, r, next, reply, s, -, -, hexec, rfl⟩ | ⟨t, r, next, -, -, rfl⟩ | ⟨o, s, -, hmove, rfl⟩
  · exact h.exec hs hexec
  · exact h
  · cases o with
    | wait milliseconds =>
        cases hmove
        exact ⟨h.marker, fun hmem => Nat.le_add_right_of_le (h.missed hmem)⟩
    | edit templates =>
        cases hmove
        exact ⟨h.marker, h.missed⟩
    | _ => cases hmove

theorem Found.reaches (h : Found start u key c.shared)
    (hsound : (rules env jobs start).Sound mailSystem checked (fun t _ => Done jobs t) Ended c)
    (hrun : mailSystem.Reaches checked c c') : Found start u key c'.shared := by
  induction hrun with
  | refl => exact h
  | step l hrun hstep _ ih =>
      exact ih.step (hsound.reaches compatible (fun t s _ => lost_ended t s) hrun).1 hstep

/-- When an attempt at a job has returned, no attempt that asks for the marker later hands the
message over again, for the life of a marker from the beginning of the run on. -/
theorem no_second_email (h : Fresh start) (hjobs : SameJob jobs)
    (hrun : mailSystem.Reaches checked (attempts env jobs start) c)
    (hfirst : c.thread t = .ret ()) (hmarker : (jobs t).marker ≠ none) (hsame : jobs u = jobs t)
    (hlater : ∀ x ∈ c.shared.asked, x.1 ≠ u) (hrun' : mailSystem.Reaches checked c c')
    (hday : c'.shared.clock < start.clock + SENT_MARKER_TTL_SECONDS * 1000) :
    ∀ message, (u, message) ∉ c'.shared.deliveries := by
  intro message hmem
  have hsound := sound_of_reaches h hjobs hrun
  have hsound' := hsound.reaches compatible (fun t s _ => lost_ended t s) hrun'
  obtain ⟨key, hkey⟩ := Option.ne_none_iff_exists'.mp hmarker
  have hdone := hsound.2 t
  rw [hfirst] at hdone
  have hfound : Found start u key c.shared :=
    ⟨(hdone.value hsound.1).marked key hkey, fun hmem => absurd rfl (hlater _ hmem)⟩
  have hover := (hfound.reaches hsound hrun').missed
    (hsound'.1.asked _ hmem key (by rw [hsame, hkey]))
  exact absurd hover (Nat.not_le_of_lt hday)

/-! ## A run -/

def sampleEnv : MailEnv where
  APP_NAME := "App"
  EMAIL_VERIFICATION_EXPIRES_HOURS := 24
  PASSWORD_RESET_EXPIRES_MINUTES := 60
  APP_URL := "http://localhost:3001"
  OTP_EXPIRES_MINUTES := 10
  MAIL_DRIVER := .smtp
  SMTP_HOST := some "localhost"
  SMTP_FROM := some "app@localhost"
  ZEPTOMAIL_KEY := none
  ZEPTOMAIL_FROM_ADDRESS := none
  ZEPTOMAIL_FROM_NAME := none
  ZEPTOMAIL_API_URL := "https://localhost/v1.1/email"
  passwordResetLink := ("http://localhost:3000/reset?token=" ++ ·)

/-- Every attempt is at one job. -/
def codeJob : ℕ → Job := fun _ =>
  { id := some "outbox-1", name := EMAIL_JOBS.OTP_CODE
    data := { email := "a@b.c", name := none, token := none, code := some "123456"
              expiresMinutes := some 10 } }

def nothingSent : MailState where
  clock := 0
  markers _ := none
  templates := []
  deliveries := []
  asked := []

theorem nothingSent_fresh : Fresh nothingSent where
  templates := by simp [nothingSent]
  markers _ := rfl
  deliveries := rfl

/-- The first attempt times out, the second one succeeds. -/
def twoAttempts : List (Label ℕ MailOracle) :=
  [.run 0 .answers, .run 0 .answers,
    .run 0 (.smtp false (.rejected ⟨"Connection timeout", none, some "ETIMEDOUT"⟩)),
    .run 1 .answers, .run 1 .answers, .run 1 (.smtp true .resolved), .run 1 .answers]

/-- A third attempt finds the marker. -/
def oneMoreAttempt : List (Label ℕ MailOracle) := [.run 2 .answers]

theorem reaches_sample {c : Config ℕ JobError MailRequest MailRequest.Reply MailState Unit}
    {ls : List (Label ℕ MailOracle)} (hls : ∀ l ∈ ls, ∃ t o, l = .run t o)
    (h : (mailSystem.run c ls).isSome = true) :
    mailSystem.Reaches checked c (mailSystem.after c ls) := by
  refine .of_schedule (fun l hl d e => ?_) h
  obtain ⟨t, o, rfl⟩ := hls l hl
  exact fun _ _ _ => trivial

theorem runs_twoAttempts : ∀ l ∈ twoAttempts, ∃ t o, l = .run t o := by
  simp [twoAttempts]

theorem attempts_settled_sample :
    (mailSystem.after (attempts sampleEnv codeJob nothingSent) twoAttempts).thread 1 = .ret () ∧
    ∃ x ∈ (mailSystem.after (attempts sampleEnv codeJob nothingSent) twoAttempts).shared.deliveries,
      codeJob x.1 = codeJob 1 := by
  have hret : (mailSystem.after (attempts sampleEnv codeJob nothingSent) twoAttempts).thread 1 =
      .ret () := by
    rfl
  exact ⟨hret, ((attempts_settled nothingSent_fresh (fun _ _ _ _ => rfl)
    (reaches_sample runs_twoAttempts rfl)).2 1).2.1 hret⟩

theorem no_second_email_sample :
    (mailSystem.after (mailSystem.after (attempts sampleEnv codeJob nothingSent) twoAttempts)
      oneMoreAttempt).thread 2 = .ret () ∧
    ∀ message, (2, message) ∉
      (mailSystem.after (mailSystem.after (attempts sampleEnv codeJob nothingSent) twoAttempts)
        oneMoreAttempt).shared.deliveries :=
  ⟨rfl, no_second_email (t := 1) nothingSent_fresh (fun _ _ _ _ => rfl)
    (reaches_sample runs_twoAttempts rfl) rfl (by decide) rfl (by decide)
    (reaches_sample (by simp [oneMoreAttempt]) rfl) (by decide)⟩

end ExpressCore.Email
