import ExpressCore.Library.Elsewhere
import ExpressCore.Model.EmailJobs
import ExpressCore.Verification.EmailTemplate.Edits

/-! # Attempts at email jobs

However attempts overlap, fail and are lost, a job that was completed has had its message taken
over by the transport, and every message that was taken over shows its recipient the link or the
code it is sent for. -/

namespace ExpressCore.Email

open Interleaving Interleaving.Program Pattern Rendering

variable {env : MailEnv} {jobs : ℕ → Job} {start s s' : MailState} {t u : ℕ} {key : String}
  {message : MailMessage}

/-! ## Messages -/

/-- The token or the code that a job has to carry, and the problem if it does not. -/
def problem (job : Job) : Option String :=
  let missing := fun field (value : Option String) =>
    if unset value then
      some ("Missing " ++ field ++ " for " ++ job.name ++ " job " ++ job.id.getD "undefined")
    else none
  if job.name = EMAIL_JOBS.VERIFICATION ∨ job.name = EMAIL_JOBS.RESET_PASSWORD then
    missing "token" job.data.token
  else if job.name = EMAIL_JOBS.OTP_CODE then missing "code" job.data.code
  else if job.name = EMAIL_JOBS.VERIFICATION_SUCCESS then none
  else some ("Unknown job name: " ++ job.name)

/-- What the recipient needs: the link or the code. -/
def needed (env : MailEnv) (job : Job) : Option String :=
  if job.name = EMAIL_JOBS.VERIFICATION then job.data.token.map (verificationLink env)
  else if job.name = EMAIL_JOBS.RESET_PASSWORD then job.data.token.map env.passwordResetLink
  else if job.name = EMAIL_JOBS.OTP_CODE then job.data.code
  else none

/-- The message goes to the recipient of the job and shows what is needed. -/
structure Carries (env : MailEnv) (job : Job) (message : MailMessage) : Prop where
  sound : problem job = none
  recipient : message.to' = job.data.email
  shows : ∃ content : List Char, message.html = baseTemplate env.APP_NAME (String.ofList content) ∧
    ∀ text ∈ needed env job, (escapeHtml text).toList <:+: content

/-- What is rendered for a sender shows every required variable, whatever the row says. -/
theorem shows_render {sending : TemplateSending} {definition : TemplateDefinition}
    {row : Option EmailTemplate} (hsends : Rendering.Sends env.toMailSettings sending)
    (hkey : templateDefinition sending.key = some definition)
    (hrow : ∀ r ∈ row, templateProblems definition r.subject r.body = []) :
    ∃ content : List Char,
      (render env.toMailSettings definition row sending.templateVariables).html =
        baseTemplate env.APP_NAME (String.ofList content) ∧
      ∀ name ∈ definition.required, (escapeHtml (valueOf
        (withGlobals env.toMailSettings sending.templateVariables) name)).toList <:+: content := by
  obtain ⟨-, hbody, hrequired⟩ := templateProblems_eq_nil.mp (source_problems hkey hrow)
  have hcomplete := (complete_iff hsends hkey).mpr hbody
  refine ⟨_, congrArg (baseTemplate env.APP_NAME) (substitute_complete hcomplete escapeHtml),
    fun name hname => ?_⟩
  exact infix_expanded (mem_placeholdersIn.mp (hrequired name hname)) fun name =>
    escapeHtml (valueOf (withGlobals env.toMailSettings sending.templateVariables) name)

/-! ## The contract -/

/-- The messages of attempt `t` that were taken over. -/
def sent (t : ℕ) (s : MailState) : List MailMessage :=
  (s.deliveries.filter fun x => x.1 == t).map Prod.snd

theorem mem_sent : message ∈ sent t s ↔ (t, message) ∈ s.deliveries := by
  simp [sent]

/-- The end of the life of a marker that is written now. -/
def lifetime (s : MailState) : Time := s.clock + SENT_MARKER_TTL_SECONDS * 1000

/-- What holds in every state of every run from `start`. -/
structure Faithful (env : MailEnv) (jobs : ℕ → Job) (start s : MailState) : Prop where
  clock : start.clock ≤ s.clock
  templates : ∀ row ∈ s.templates, Edits.Sendable row
  carries : ∀ x ∈ s.deliveries, Carries env (jobs x.1) x.2
  once : ∀ t, (sent t s).length ≤ 1
  markers : ∀ key expiresAt, s.markers key = some expiresAt → lifetime start ≤ expiresAt ∧
    ∃ x ∈ s.deliveries, (jobs x.1).marker = some key
  asked : ∀ x ∈ s.deliveries, ∀ key, (jobs x.1).marker = some key → (x.1, key, false) ∈ s.asked

/-- A step that leaves alone what attempt `t` has sent. -/
structure Spares (t : ℕ) (s s' : MailState) : Prop where
  sent : sent t s' = sent t s
  deliveries : s.deliveries ⊆ s'.deliveries
  markers : ∀ key, s.markers key ≠ none → s'.markers key ≠ none
  asked : s.asked ⊆ s'.asked

/-- Only texts that pass the check are put into the table. -/
def checked : Assumption ℕ MailRequest MailState where
  request _ _ _ := True
  move _ s' := ∀ row ∈ s'.templates, Edits.Sendable row

def rules (env : MailEnv) (jobs : ℕ → Job) (start : MailState) : Rules ℕ MailState where
  invariant := Faithful env jobs start
  interference := Spares
  guarantee t s s' := ∀ u, u ≠ t → Spares u s s'

theorem Spares.refl (t : ℕ) (s : MailState) : Spares t s s :=
  ⟨rfl, List.Subset.refl _, fun _ => id, List.Subset.refl _⟩

theorem compatible : (rules env jobs start).Compatible mailSystem checked where
  interferes _ _ _ _ hne _ hguar := hguar _ hne
  crash _ s hs := ⟨hs, fun u _ => .refl u s⟩
  move o s s' hs hmove hchecked := by
    cases o with
    | wait milliseconds =>
        cases hmove
        exact ⟨{ hs with clock := Nat.le_add_right_of_le hs.clock },
          fun _ => ⟨rfl, List.Subset.refl _, fun _ => id, List.Subset.refl _⟩⟩
    | edit templates =>
        cases hmove
        exact ⟨{ hs with templates := hchecked },
          fun _ => ⟨rfl, List.Subset.refl _, fun _ => id, List.Subset.refl _⟩⟩
    | _ => cases hmove

theorem spares_deliver (taken : Bool) (hne : u ≠ t) :
    Spares u s (s.deliver taken t message) := by
  cases taken with
  | false => exact .refl u s
  | true =>
      refine ⟨?_, List.subset_cons_self _ _, fun _ => id, List.Subset.refl _⟩
      simp [sent, MailState.deliver, hne.symm]

theorem sent_deliver (taken : Bool) :
    sent t (s.deliver taken t message) = if taken then message :: sent t s else sent t s := by
  cases taken <;> simp [sent, MailState.deliver]

/-- Attempt `t` has sent nothing, and the marker of its job was not there. -/
structure Ready (jobs : ℕ → Job) (t : ℕ) (s : MailState) : Prop where
  sent : sent t s = []
  asked : ∀ key, (jobs t).marker = some key → (t, key, false) ∈ s.asked

theorem Faithful.deliver (h : Faithful env jobs start s) (taken : Bool)
    (hcarries : Carries env (jobs t) message) (hready : Ready jobs t s) :
    Faithful env jobs start (s.deliver taken t message) := by
  have honce (u : ℕ) : (sent u (s.deliver taken t message)).length ≤ 1 := by
    by_cases heq : u = t
    · subst heq
      rw [sent_deliver, hready.sent]
      cases taken <;> simp
    · rw [(spares_deliver taken heq).sent]
      exact h.once u
  cases taken with
  | false => exact h
  | true =>
      refine ⟨h.clock, h.templates, ?_, honce, fun key expiresAt hkey => ?_, ?_⟩
      · intro x hx
        rcases List.mem_cons.mp hx with rfl | hx
        · exact hcarries
        · exact h.carries x hx
      · obtain ⟨hlife, x, hx, hmarker⟩ := h.markers key expiresAt hkey
        exact ⟨hlife, x, .tail _ hx, hmarker⟩
      · intro x hx
        rcases List.mem_cons.mp hx with rfl | hx
        · exact hready.asked
        · exact h.asked x hx

theorem Faithful.ask (h : Faithful env jobs start s) (entry : ℕ × String × Bool) :
    Faithful env jobs start { s with asked := entry :: s.asked } :=
  { h with asked := fun x hx key hkey => .tail _ (h.asked x hx key hkey) }

theorem spares_ask (entry : ℕ × String × Bool) :
    Spares u s { s with asked := entry :: s.asked } :=
  ⟨rfl, List.Subset.refl _, fun _ => id, List.subset_cons_self _ _⟩

theorem Faithful.mark (h : Faithful env jobs start s)
    (hmarked : ∃ x ∈ s.deliveries, (jobs x.1).marker = some key) :
    Faithful env jobs start (s.mark key SENT_MARKER_TTL_SECONDS) := by
  refine ⟨h.clock, h.templates, h.carries, h.once, fun key' expiresAt hkey' => ?_, h.asked⟩
  by_cases heq : key' = key
  · subst heq
    simp only [MailState.mark, Function.update_self, Option.some.injEq] at hkey'
    subst hkey'
    exact ⟨Nat.add_le_add_right h.clock _, hmarked⟩
  · simp only [MailState.mark, Function.update_of_ne heq] at hkey'
    exact h.markers key' expiresAt hkey'

theorem spares_mark (ttl : ℕ) : Spares u s (s.mark key ttl) := by
  refine ⟨rfl, List.Subset.refl _, fun key' h => ?_, List.Subset.refl _⟩
  by_cases heq : key' = key
  · subst heq
    simp [MailState.mark]
  · simpa [MailState.mark, Function.update_of_ne heq] using h

/-! ## Requests -/

/-- An error after which no attempt follows. -/
def Final : JobError → Prop
  | .unrecoverable _ => True
  | .permanentMail _ => True
  | _ => False

/-- An attempt that fails for good has sent nothing. -/
def Failed (t : ℕ) (error : JobError) (s : MailState) : Prop :=
  Final error → sent t s = []

theorem stable_of_sent {P : List MailMessage → Prop} :
    (rules env jobs start).Stable t fun s => P (sent t s) := by
  intro s s' _ _ hspares h
  rw [hspares.sent]
  exact h

theorem failed_stable (error : JobError) : (rules env jobs start).Stable t (Failed t error) :=
  stable_of_sent (P := fun messages => Final error → messages = [])

theorem failed_of_nil {error : JobError} (h : sent t s = []) : Failed t error s := fun _ => h

theorem ready_stable : (rules env jobs start).Stable t (Ready jobs t) :=
  fun _ _ _ _ hspares h => ⟨hspares.sent.trans h.sent,
    fun key hkey => hspares.asked (h.asked key hkey)⟩

theorem rethrow_meets {α : Type} {reply : Except String α} {pre : MailState → Prop}
    {post : α → MailState → Prop} (hstable : ∀ value, (rules env jobs start).Stable t (post value))
    (hok : ∀ value, reply = .ok value → (rules env jobs start).Implies pre (post value))
    (herr : ∀ reason, (rules env jobs start).Implies pre (Failed t (.error reason))) :
    (rules env jobs start).Meets mailSystem checked t post (Failed t) (rethrow reply) pre := by
  cases reply with
  | ok value => exact .pure (hstable value) (hok value rfl)
  | error reason => exact .throw (failed_stable _) (herr reason)

/-! What the answers can be. -/

variable {o : MailOracle}

theorem exec_getMarker {reply : Except String Bool}
    (h : execMail t (.getMarker key) o s = some (reply, s')) :
    (reply = .ok (decide (s.Marked key)) ∧
      s' = { s with asked := (t, key, decide (s.Marked key)) :: s.asked }) ∨
    (∃ reason, reply = .error reason) ∧ s' = s := by
  cases o <;> simp only [execMail, reduceCtorEq] at h
  · cases h
    exact .inl ⟨rfl, rfl⟩
  · cases h
    exact .inr ⟨⟨_, rfl⟩, rfl⟩

theorem exec_setMarker {ttl : ℕ} {reply : Except String Unit}
    (h : execMail t (.setMarker key ttl) o s = some (reply, s')) :
    s' = s.mark key ttl ∨ s' = s ∧ ∃ reason, reply = .error reason := by
  cases o <;> simp only [execMail, reduceCtorEq] at h
  · cases h
    exact .inl rfl
  · rename_i executed reason
    cases h
    cases executed with
    | false => exact .inr ⟨rfl, _, rfl⟩
    | true => exact .inl rfl

theorem exec_findByKey {reply : Except String (Option EmailTemplate)}
    (h : execMail t (.findByKey key) o s = some (reply, s')) :
    s' = s ∧ ∀ row, reply = .ok row → row = s.templates.find? fun row => row.key == key := by
  cases o <;> simp only [execMail, reduceCtorEq] at h
  · cases h
    exact ⟨rfl, fun row hrow => (Except.ok.inj hrow).symm⟩
  · cases h
    exact ⟨rfl, fun row hrow => by cases hrow⟩

theorem exec_transporter {sender : Option String} {reply : SmtpReply}
    (h : execMail t (.transporter sender message) o s = some (reply, s')) :
    ∃ taken, reply.fits taken = true ∧ s' = s.deliver taken t message := by
  cases o <;> simp only [execMail, reduceCtorEq] at h
  rename_i taken reply'
  split at h
  · rename_i hfits
    cases h
    exact ⟨taken, hfits, rfl⟩
  · cases h

theorem exec_fetch {post : ZeptoMailPost} {reply : FetchReply}
    (h : execMail t (.fetch post) o s = some (reply, s')) :
    ∃ taken, reply.fits taken = true ∧ s' = s.deliver taken t post.message := by
  cases o <;> simp only [execMail, reduceCtorEq] at h
  rename_i taken reply'
  split at h
  · rename_i hfits
    cases h
    exact ⟨taken, hfits, rfl⟩
  · cases h

/-- A request that hands a message over, or not. -/
theorem answers_deliver {r : MailRequest} {post : r.Reply → List MailMessage → Prop}
    (hcarries : Carries env (jobs t) message)
    (h : ∀ s o reply s', execMail t r o s = some (reply, s') →
      ∃ taken, s' = s.deliver taken t message ∧ post reply (if taken then [message] else [])) :
    (rules env jobs start).Answers mailSystem checked t (Ready jobs t) r
      fun reply s => post reply (sent t s) := by
  intro s o reply s' hs _ hready hexec
  obtain ⟨taken, rfl, hpost⟩ := h s o reply s' hexec
  refine ⟨hs.deliver taken hcarries hready, fun u hne => spares_deliver taken hne, ?_⟩
  simpa only [sent_deliver, hready.sent] using hpost

/-- What the transport has taken over, as far as its reply tells. -/
def SmtpSent (message : MailMessage) : SmtpReply → List MailMessage → Prop
  | .resolved, messages => messages = [message]
  | .rejected error, messages => isPermanentSmtpError error → messages = []

def FetchSent (message : MailMessage) : FetchReply → List MailMessage → Prop
  | .response status _, messages =>
      (200 ≤ status ∧ status < 300 → messages = [message]) ∧
        (isPermanentHttpStatus status → messages = [])
  | .failed _, _ => True

theorem smtpSent_of_fits {reply : SmtpReply} {taken : Bool} (h : reply.fits taken = true) :
    SmtpSent message reply (if taken then [message] else []) := by
  cases reply with
  | resolved => simp_all [SmtpReply.fits, SmtpSent]
  | rejected error => cases taken <;> simp_all [SmtpReply.fits, SmtpSent]

theorem fetchSent_of_fits {reply : FetchReply} {taken : Bool} (h : reply.fits taken = true) :
    FetchSent message reply (if taken then [message] else []) := by
  cases reply with
  | failed reason => trivial
  | response status text =>
      simp only [FetchReply.fits] at h
      split at h
      · rename_i hok
        have hfinal : isPermanentHttpStatus status = false := by
          simp [isPermanentHttpStatus]
          omega
        simp [FetchSent, h, hfinal]
      · rename_i hok
        cases taken <;> simp_all [FetchSent]

theorem transporterSend_meets (sender : Option String) (hcarries : Carries env (jobs t) message)
    {err : JobError → MailState → Prop} :
    (rules env jobs start).Meets mailSystem checked t
      (fun reply s => SmtpSent message reply (sent t s)) err (transporterSend sender message)
      (Ready jobs t) := by
  refine .send ready_stable (answers_deliver hcarries ?_)
    fun reply => stable_of_sent (P := SmtpSent message reply)
  intro s o reply s' hexec
  obtain ⟨taken, hfits, rfl⟩ := exec_transporter hexec
  exact ⟨taken, rfl, smtpSent_of_fits hfits⟩

theorem fetchPost_meets (post : ZeptoMailPost) (hcarries : Carries env (jobs t) post.message)
    {err : JobError → MailState → Prop} :
    (rules env jobs start).Meets mailSystem checked t
      (fun reply s => FetchSent post.message reply (sent t s)) err (fetchPost post)
      (Ready jobs t) := by
  refine .send ready_stable (answers_deliver hcarries ?_)
    fun reply => stable_of_sent (P := FetchSent post.message reply)
  intro s o reply s' hexec
  obtain ⟨taken, hfits, rfl⟩ := exec_fetch hexec
  exact ⟨taken, rfl, fetchSent_of_fits hfits⟩

/-! ## The transports -/

theorem notConfigured_meets {problems : List String} {post : Unit → MailState → Prop} :
    (rules env jobs start).Meets mailSystem checked t post (Failed t)
      (throw (notConfigured problems) : Mail Unit) (Ready jobs t) :=
  .throw (failed_stable _) fun _ _ h => failed_of_nil h.sent

theorem sendViaSmtp_meets (hcarries : Carries env (jobs t) message) :
    (rules env jobs start).Meets mailSystem checked t (fun _ s => sent t s = [message]) (Failed t)
      (sendViaSmtp env message) (Ready jobs t) := by
  unfold sendViaSmtp
  simp only
  split
  · exact notConfigured_meets
  refine .bind (transporterSend_meets _ hcarries) fun reply => ?_
  cases reply with
  | resolved => exact .pure (stable_of_sent (P := (· = [message]))) .refl
  | rejected error =>
      simp only
      split
      · rename_i hfinal
        exact .throw (failed_stable _) fun _ _ h => failed_of_nil (h hfinal)
      · exact .throw (failed_stable _) fun _ _ _ => False.elim

theorem sendViaZeptoMail_meets (hcarries : Carries env (jobs t) message) :
    (rules env jobs start).Meets mailSystem checked t (fun _ s => sent t s = [message]) (Failed t)
      (sendViaZeptoMail env message) (Ready jobs t) := by
  unfold sendViaZeptoMail
  simp only
  split
  · exact notConfigured_meets
  refine .bind (fetchPost_meets _ hcarries) fun reply => ?_
  cases reply with
  | failed reason => exact .throw (failed_stable _) fun _ _ _ => False.elim
  | response status text =>
      simp only
      split
      · rename_i hok
        exact .pure (stable_of_sent (P := (· = [message]))) fun _ _ h => h.1 hok
      refine .bind (rethrow_meets
        (fun _ => stable_of_sent (P := FetchSent message (.response status text)))
        (fun _ _ => .refl) fun _ _ _ _ => False.elim) fun detail => ?_
      split
      · rename_i hfinal
        exact .throw (failed_stable _) fun _ _ h => failed_of_nil (h.2 hfinal)
      · exact .throw (failed_stable _) fun _ _ _ => False.elim

theorem sendMail_meets (hcarries : Carries env (jobs t) message) :
    (rules env jobs start).Meets mailSystem checked t (fun _ s => sent t s = [message]) (Failed t)
      (sendMail env message) (Ready jobs t) := by
  unfold sendMail
  split
  · exact sendViaSmtp_meets hcarries
  · exact sendViaZeptoMail_meets hcarries

/-! ## The senders -/

theorem known_of_sends {sending : TemplateSending}
    (h : Rendering.Sends env.toMailSettings sending) :
    templateDefinition sending.key = some (catalogEntry sending.key) := by
  cases h <;> rfl

theorem findByKey_meets (key : String) {err : JobError → MailState → Prop} :
    (rules env jobs start).Meets mailSystem checked t
      (fun reply s => (∀ row, reply = .ok row → ∀ r ∈ row, r.key = key ∧ Edits.Sendable r) ∧
        Ready jobs t s) err (findByKey key) (Ready jobs t) := by
  refine .send ready_stable ?_ fun reply => .and (.const _) ready_stable
  intro s o reply s' hs _ hready hexec
  obtain ⟨rfl, hreply⟩ := exec_findByKey hexec
  refine ⟨hs, fun u _ => .refl u s', fun row hrow r hr => ?_, hready⟩
  have hfound : s'.templates.find? (fun row => row.key == key) = some r := hreply row hrow ▸ hr
  exact ⟨by simpa using List.find?_some hfound, hs.templates r (List.mem_of_find?_eq_some hfound)⟩

/-- What is sent shows the required variables of its template. -/
theorem sendEmail_meets {to' : String} {sending : TemplateSending}
    (hsends : Rendering.Sends env.toMailSettings sending)
    (hcarries : ∀ message, message.to' = to' → (∃ content : List Char,
      message.html = baseTemplate env.APP_NAME (String.ofList content) ∧
      ∀ name ∈ (catalogEntry sending.key).required, (escapeHtml (valueOf
        (withGlobals env.toMailSettings sending.templateVariables) name)).toList <:+: content) →
      Carries env (jobs t) message) :
    (rules env jobs start).Meets mailSystem checked t (fun _ s => ∃ message, sent t s = [message])
      (Failed t) (sendEmail env to' sending) (Ready jobs t) := by
  refine .bind (findByKey_meets _) fun reply => .assume fun hreply => ?_
  refine .seq (fun row s => reply = .ok row ∧ Ready jobs t s) (rethrow_meets
    (fun _ => .and (.const _) ready_stable) (fun _ heq _ _ h => ⟨heq, h⟩)
    fun _ _ _ h => failed_of_nil h.sent) fun row => .assume fun heq => ?_
  have hrow : ∀ r ∈ row, templateProblems (catalogEntry sending.key) r.subject r.body = [] := by
    intro r hr
    obtain ⟨hkey, definition, hdefinition, hproblems⟩ := hreply row heq r hr
    rw [hkey, known_of_sends hsends] at hdefinition
    exact Option.some.inj hdefinition ▸ hproblems
  have hmessage : Carries env (jobs t)
      { to', subject := (render env.toMailSettings (catalogEntry sending.key) row
          sending.templateVariables).subject
        html := (render env.toMailSettings (catalogEntry sending.key) row
          sending.templateVariables).html } :=
    hcarries _ rfl (shows_render hsends (known_of_sends hsends) hrow)
  exact (sendMail_meets hmessage).mono (fun _ _ _ h => ⟨_, h⟩) fun _ => .refl

/-! ## The processor -/

/-- A template with a variable for what is needed carries the job. -/
theorem carries_of {job : Job} {sending : TemplateSending} (hsound : problem job = none)
    (hneeded : ∀ text ∈ needed env job, ∃ name ∈ (catalogEntry sending.key).required,
      valueOf (withGlobals env.toMailSettings sending.templateVariables) name = text)
    (message : MailMessage) (hto : message.to' = job.data.email) (hshows : ∃ content : List Char,
      message.html = baseTemplate env.APP_NAME (String.ofList content) ∧
      ∀ name ∈ (catalogEntry sending.key).required, (escapeHtml (valueOf
        (withGlobals env.toMailSettings sending.templateVariables) name)).toList <:+: content) :
    Carries env job message := by
  obtain ⟨content, hhtml, hshows⟩ := hshows
  refine ⟨hsound, hto, content, hhtml, fun text htext => ?_⟩
  obtain ⟨name, hname, rfl⟩ := hneeded text htext
  exact hshows name hname

theorem requiredField_meets {job : Job} {field : String} {value : Option String} :
    (rules env jobs start).Meets mailSystem checked t
      (fun v s => (value = some v ∧ unset value = false) ∧ Ready jobs t s) (Failed t)
      (requiredField job field value) (Ready jobs t) := by
  unfold requiredField
  split
  · rename_i v hv
    obtain ⟨hvalue, hne⟩ := Option.filter_eq_some_iff.mp hv
    have hset : unset value = false := by simpa [unset, hvalue] using hne
    exact .pure (.and (.const _) ready_stable) fun _ _ h => ⟨⟨hvalue, hset⟩, h⟩
  · exact .throw (failed_stable _) fun _ _ h => failed_of_nil h.sent

theorem dispatch_meets :
    (rules env jobs start).Meets mailSystem checked t (fun _ s => ∃ message, sent t s = [message])
      (Failed t) (dispatch env (jobs t)) (Ready jobs t) := by
  unfold dispatch
  split
  · rename_i hname
    refine .bind requiredField_meets fun token => .assume fun htoken =>
      sendEmail_meets (.verification _) (carries_of ?_ ?_)
    · simp [problem, hname, htoken.2]
    · simp only [needed, hname, if_true, htoken.1, Option.map_some, Option.mem_some]
      rintro text rfl
      exact ⟨"link", .head _, rfl⟩
  split
  · rename_i hname
    have hother : EMAIL_JOBS.RESET_PASSWORD ≠ EMAIL_JOBS.VERIFICATION := by decide
    refine .bind requiredField_meets fun token => .assume fun htoken =>
      sendEmail_meets (.resetPassword _) (carries_of ?_ ?_)
    · simp [problem, hname, htoken.2]
    · simp only [needed, hname, hother, if_true, if_false, htoken.1, Option.map_some,
        Option.mem_some]
      rintro text rfl
      exact ⟨"link", .head _, rfl⟩
  split
  · rename_i hname
    refine sendEmail_meets (.verified _) (carries_of ?_ ?_)
    · rw [problem, hname]
      rfl
    · rw [needed, hname]
      rintro text ⟨⟩
  split
  · rename_i hname
    refine .bind requiredField_meets fun code => .assume fun hcode =>
      sendEmail_meets (.otp _) (carries_of ?_ ?_)
    · rw [problem, hname]
      simp only [hcode.2]
      rfl
    · rw [needed, hname, hcode.1]
      rintro text ⟨⟩
      exact ⟨"code", .head _, rfl⟩
  · exact .throw (failed_stable _) fun _ _ h => failed_of_nil h.sent

/-- The message of the job of attempt `t` was taken over, and if the job can be marked, it is. -/
structure Done (jobs : ℕ → Job) (t : ℕ) (s : MailState) : Prop where
  delivered : ∃ x ∈ s.deliveries, jobs x.1 = jobs t
  marked : ∀ key, (jobs t).marker = some key → s.markers key ≠ none

theorem done_stable : (rules env jobs start).Stable t (Done jobs t) := by
  intro s s' _ _ hspares h
  obtain ⟨x, hx, hjob⟩ := h.delivered
  exact ⟨⟨x, hspares.deliveries hx, hjob⟩, fun key hkey => hspares.markers key (h.marked key hkey)⟩

/-- The errors of an attempt. -/
def Ended (t : ℕ) (error : JobError) (s : MailState) : Prop :=
  Failed t error s ∧ ∀ text, error ≠ .permanentMail text

theorem ended_stable (error : JobError) : (rules env jobs start).Stable t (Ended t error) :=
  .and (failed_stable error) (.const _)

theorem convertError_meets {post : Unit → MailState → Prop} (error : JobError) :
    (rules env jobs start).Meets mailSystem checked t post (Ended t) (convertError error)
      (Failed t error) := by
  cases error with
  | permanentMail text =>
      exact .throw (ended_stable _) fun _ _ h => ⟨fun _ => h trivial, fun _ => by simp⟩
  | _ => exact .throw (ended_stable _) fun _ _ h => ⟨h, fun _ => by simp⟩

theorem rethrown_meets {α : Type} {reply : Except String α} {pre : MailState → Prop}
    {post : α → MailState → Prop} (hstable : ∀ value, (rules env jobs start).Stable t (post value))
    (hok : ∀ value, reply = .ok value → (rules env jobs start).Implies pre (post value)) :
    (rules env jobs start).Meets mailSystem checked t post (Ended t) (rethrow reply) pre := by
  cases reply with
  | ok value => exact .pure (hstable value) (hok value rfl)
  | error reason => exact .throw (ended_stable _) fun _ _ _ => ⟨False.elim, fun _ => by simp⟩

/-- Attempts at jobs with one marker are attempts at one job. -/
def SameJob (jobs : ℕ → Job) : Prop :=
  ∀ t u, (jobs t).marker ≠ none → (jobs u).marker = (jobs t).marker → jobs u = jobs t

theorem Faithful.done (h : Faithful env jobs start s) (hjobs : SameJob jobs)
    (hmarker : (jobs t).marker = some key) (hkey : s.markers key ≠ none) : Done jobs t s := by
  obtain ⟨expiresAt, hexpires⟩ := Option.ne_none_iff_exists'.mp hkey
  obtain ⟨-, x, hx, hmarked⟩ := h.markers key expiresAt hexpires
  refine ⟨⟨x, hx, hjobs t x.1 (by simp [hmarker]) (by rw [hmarked, hmarker])⟩, ?_⟩
  intro key' hkey'
  rw [hmarker] at hkey'
  cases hkey'
  exact hkey

theorem alreadySent_meets (hjobs : SameJob jobs) :
    (rules env jobs start).Meets mailSystem checked t
      (fun sentBefore s => (sentBefore = true → Done jobs t s) ∧
        (sentBefore = false → Ready jobs t s)) (Ended t)
      (alreadySent (jobs t).marker) fun s => sent t s = [] := by
  have hstable (p q : Prop) : (rules env jobs start).Stable t fun s =>
      (p → Done jobs t s) ∧ (q → Ready jobs t s) :=
    .and (.imp_const fun _ => done_stable) (.imp_const fun _ => ready_stable)
  unfold alreadySent
  split
  · rename_i key hmarker
    refine .seq (fun reply s => (reply = .ok true → Done jobs t s) ∧
        (reply = .ok false → Ready jobs t s)) (.send (stable_of_sent (P := (· = []))) ?_
      fun _ => hstable _ _) fun reply => rethrown_meets (fun _ => hstable _ _)
        fun sentBefore heq _ _ h => ⟨fun hsent => h.1 (hsent ▸ heq), fun hsent => h.2 (hsent ▸ heq)⟩
    intro s o reply s' hs _ hnone hexec
    rcases exec_getMarker hexec with ⟨hreply, rfl⟩ | ⟨⟨reason, hreply⟩, rfl⟩
    · refine ⟨hs.ask _, fun u _ => spares_ask _, fun hmarked => ?_, fun hunmarked => ⟨hnone, ?_⟩⟩
      · rw [hreply] at hmarked
        obtain ⟨expiresAt, hexpires, -⟩ := of_decide_eq_true (Except.ok.inj hmarked)
        exact (hs.ask _).done hjobs hmarker (by simp [hexpires])
      · rw [hreply] at hunmarked
        intro key' hkey'
        rw [hmarker] at hkey'
        cases hkey'
        exact List.mem_cons.mpr (.inl (by rw [Except.ok.inj hunmarked]))
    · rw [hreply]
      exact ⟨hs, fun u _ => .refl u s', (fun h => by cases h), fun h => by cases h⟩
  · rename_i hmarker
    refine .pure (hstable _ _) fun _ _ h => ⟨(fun hfalse => by cases hfalse), fun _ => ⟨h, ?_⟩⟩
    exact fun key hkey => by simp [hmarker] at hkey

theorem markSent_meets :
    (rules env jobs start).Meets mailSystem checked t (fun _ => Done jobs t) (Ended t)
      (markSent (jobs t).marker) fun s => ∃ message, sent t s = [message] := by
  have hmine (s : MailState) (h : ∃ message, sent t s = [message]) :
      ∃ message, (t, message) ∈ s.deliveries := by
    obtain ⟨message, hsent⟩ := h
    exact ⟨message, mem_sent.mp (by simp [hsent])⟩
  unfold markSent
  split
  · rename_i key hmarker
    refine .seq (fun reply s => reply = .ok () → Done jobs t s) (.send
      (stable_of_sent (P := fun messages => ∃ message, messages = [message])) ?_
      fun _ => .imp_const fun _ => done_stable) fun reply =>
        rethrown_meets (fun _ => done_stable) fun _ heq _ _ h => h heq
    intro s o reply s' hs _ hsent hexec
    obtain ⟨message, hmem⟩ := hmine s hsent
    rcases exec_setMarker hexec with rfl | ⟨rfl, reason, hreply⟩
    · refine ⟨hs.mark ⟨(t, message), hmem, hmarker⟩, fun u _ => spares_mark _,
        fun _ => ⟨⟨(t, message), hmem, rfl⟩, fun key' hkey' => ?_⟩⟩
      rw [hmarker] at hkey'
      cases hkey'
      simp [MailState.mark]
    · refine ⟨hs, fun u _ => .refl u s', fun hok => ?_⟩
      rw [hreply] at hok
      cases hok
  · rename_i hmarker
    refine .pure done_stable fun s _ h => ?_
    obtain ⟨message, hmem⟩ := hmine s h
    exact ⟨⟨(t, message), hmem, rfl⟩, fun key hkey => by simp [hmarker] at hkey⟩

theorem processEmailJob_meets (hjobs : SameJob jobs) :
    (rules env jobs start).Meets mailSystem checked t (fun _ => Done jobs t) (Ended t)
      (processEmailJob env (jobs t)) fun s => sent t s = [] := by
  unfold processEmailJob
  refine .bind (alreadySent_meets hjobs) fun sentBefore => ?_
  split
  · rename_i hsent
    exact .pure done_stable fun _ _ h => h.1 hsent
  · rename_i hsent
    exact .seq (fun _ s => ∃ message, sent t s = [message]) (.handle
      (dispatch_meets.weaken fun _ _ h => h.2 (by simpa using hsent))
      fun error => convertError_meets error) fun _ => markSent_meets

end ExpressCore.Email
