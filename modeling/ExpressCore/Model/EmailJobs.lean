import ExpressCore.Library.Machine
import ExpressCore.Model.EmailRender

/-! # Email jobs

The processor of the email queue, the senders of `email.service` and the transports of
`email/mailer`. Threads are the attempts that workers make at jobs. -/

namespace ExpressCore

open Interleaving Interleaving.Program

/-! ## `queue.constants` and `utils/url` -/

namespace EMAIL_JOBS

def VERIFICATION : String := "sendVerificationEmail"
def VERIFICATION_SUCCESS : String := "sendVerificationSuccessEmail"
def RESET_PASSWORD : String := "sendResetPasswordEmail"
def OTP_CODE : String := "sendOtpEmail"

end EMAIL_JOBS

inductive MailDriver where
  | smtp
  | zeptomail
  deriving DecidableEq

/-- `passwordResetLink token` is `withQuery(env.PASSWORD_RESET_URL, { token })`. -/
structure MailEnv extends MailSettings where
  APP_URL : String
  OTP_EXPIRES_MINUTES : ℕ
  MAIL_DRIVER : MailDriver
  SMTP_HOST : Option String
  SMTP_FROM : Option String
  ZEPTOMAIL_KEY : Option String
  ZEPTOMAIL_FROM_ADDRESS : Option String
  ZEPTOMAIL_FROM_NAME : Option String
  ZEPTOMAIL_API_URL : String
  passwordResetLink : String → String

/-- `baseUrl.replace(/\/+$/, '')`. -/
def stripSlashes (baseUrl : String) : String :=
  String.ofList (baseUrl.toList.reverse.dropWhile (· = '/')).reverse

def appUrl (pathname : String) (query : List (String × String)) (baseUrl : String) : String :=
  let base := stripSlashes baseUrl
  let search := formString query
  base ++ pathname ++ (if search ≠ "" then "?" ++ search else "")

/-! ## Jobs -/

structure EmailJobData where
  email : String
  name : Option String
  token : Option String
  code : Option String
  expiresMinutes : Option ℕ

structure Job where
  id : Option String
  name : String
  data : EmailJobData

def SENT_MARKER_TTL_SECONDS : ℕ := 86400

/-- What an attempt can throw; `lost` is the end of its process. -/
inductive JobError where
  | unrecoverable (message : String)
  | permanentMail (message : String)
  | error (message : String)
  | lost
  deriving DecidableEq

structure MailMessage where
  to' : String
  subject : String
  html : String
  deriving DecidableEq

/-- An error of the SMTP transport; a property that is not of its type is left out. -/
structure SmtpError where
  message : String
  responseCode : Option ℕ
  code : Option String

inductive SmtpReply where
  | resolved
  | rejected (error : SmtpError)

/-- `text` is what `response.text()` does. -/
inductive FetchReply where
  | response (status : ℕ) (text : Except String String)
  | failed (reason : String)

/-- The request that `sendViaZeptoMail` makes. -/
structure ZeptoMailPost where
  url : String
  authorization : String
  fromAddress : Option String
  fromName : String
  message : MailMessage

inductive MailRequest where
  | getMarker (key : String)
  | setMarker (key : String) (ttl : ℕ)
  | findByKey (key : String)
  | transporter (sender : Option String) (message : MailMessage)
  | fetch (post : ZeptoMailPost)

def MailRequest.Reply : MailRequest → Type
  | .getMarker _ => Except String Bool
  | .setMarker _ _ => Except String Unit
  | .findByKey _ => Except String (Option EmailTemplate)
  | .transporter _ _ => SmtpReply
  | .fetch _ => FetchReply

abbrev Mail (α : Type) := Program JobError MailRequest MailRequest.Reply α

/-- A call whose rejection is thrown on. -/
def rethrow {α : Type} : Except String α → Mail α
  | .ok value => pure value
  | .error reason => throw (.error reason)

def getMarker (key : String) : Mail (Except String Bool) := send (MailRequest.getMarker key)

def setMarker (key : String) (ttl : ℕ) : Mail (Except String Unit) :=
  send (MailRequest.setMarker key ttl)

def findByKey (key : String) : Mail (Except String (Option EmailTemplate)) :=
  send (MailRequest.findByKey key)

def transporterSend (sender : Option String) (message : MailMessage) : Mail SmtpReply :=
  send (MailRequest.transporter sender message)

def fetchPost (post : ZeptoMailPost) : Mail FetchReply := send (MailRequest.fetch post)

/-! ## `email/mailer` -/

def isPermanentSmtpError (error : SmtpError) : Bool :=
  error.responseCode.any (fun responseCode => 500 ≤ responseCode ∧ responseCode < 600) ||
    error.code == some "EENVELOPE"

def isPermanentHttpStatus (status : ℕ) : Bool :=
  400 ≤ status ∧ status < 500 ∧ status ≠ 408 ∧ status ≠ 429

/-- `!value`. -/
def unset (value : Option String) : Bool := value.getD "" == ""

def validateMailConfig (env : MailEnv) (MAIL_DRIVER : MailDriver) : List String :=
  match MAIL_DRIVER with
  | .smtp =>
      (if unset env.SMTP_HOST then ["SMTP_HOST is not set"] else []) ++
        (if unset env.SMTP_FROM then ["SMTP_FROM is not set"] else [])
  | .zeptomail =>
      (if unset env.ZEPTOMAIL_KEY then ["ZEPTOMAIL_KEY is not set"] else []) ++
        (if unset env.ZEPTOMAIL_FROM_ADDRESS then ["ZEPTOMAIL_FROM_ADDRESS is not set"] else [])

def notConfigured (problems : List String) : JobError :=
  .permanentMail ("Mail is not configured: " ++ ", ".intercalate problems)

def sendViaSmtp (env : MailEnv) (message : MailMessage) : Mail Unit := do
  let problems := validateMailConfig env env.MAIL_DRIVER
  if problems.length > 0 then throw (notConfigured problems)
  else do
    match ← transporterSend env.SMTP_FROM message with
    | .resolved => pure ()
    | .rejected error =>
        if isPermanentSmtpError error then
          throw (.permanentMail ("SMTP rejected the message: " ++ error.message))
        else throw (.error error.message)

/-- `key.replace(/^Zoho-enczapikey\s+/i, '')`. -/
def stripScheme (key : String) : String :=
  let scheme := "zoho-enczapikey".toList
  let rest := key.toList.drop scheme.length
  if (key.toList.take scheme.length).map Char.toLower = scheme ∧ rest.head?.any isSpace then
    String.ofList (rest.dropWhile isSpace)
  else key

def sendViaZeptoMail (env : MailEnv) (message : MailMessage) : Mail Unit := do
  let problems := validateMailConfig env .zeptomail
  if problems.length > 0 then throw (notConfigured problems)
  else do
    let token := stripScheme (env.ZEPTOMAIL_KEY.getD "")
    match ← fetchPost
        { url := env.ZEPTOMAIL_API_URL, authorization := "Zoho-enczapikey " ++ token
          fromAddress := env.ZEPTOMAIL_FROM_ADDRESS
          fromName := env.ZEPTOMAIL_FROM_NAME.getD env.APP_NAME, message } with
    | .failed reason => throw (.error reason)
    | .response status text =>
        if 200 ≤ status ∧ status < 300 then pure ()
        else do
          let detail := String.ofList ((← rethrow text).toList.take 500)
          if isPermanentHttpStatus status then
            throw (.permanentMail
              ("ZeptoMail rejected the message: " ++ toString status ++ " " ++ detail))
          else throw (.error
            ("ZeptoMail is unavailable: " ++ toString status ++ " " ++ detail))

def sendMail (env : MailEnv) (message : MailMessage) : Mail Unit :=
  match env.MAIL_DRIVER with
  | .smtp => sendViaSmtp env message
  | .zeptomail => sendViaZeptoMail env message

/-! ## `email.service` -/

/-- The built-in text of a key of the catalogue. -/
def catalogEntry (key : String) : TemplateDefinition :=
  (templateDefinition key).getD
    { title := "", subject := "", body := "", templateVariables := [], required := [] }

/-- `send`, with `render` of `email-template.service`. -/
def sendEmail (env : MailEnv) (to' : String) (sending : TemplateSending) : Mail Unit := do
  let row ← rethrow (← findByKey sending.key)
  let rendered := render env.toMailSettings (catalogEntry sending.key) row
    sending.templateVariables
  sendMail env { to', subject := rendered.subject, html := rendered.html }

/-! ## `email.processor` -/

/-- `required`; an empty value is missing. -/
def requiredField (job : Job) (field : String) (value : Option String) : Mail String :=
  match value.filter (· ≠ "") with
  | some value => pure value
  | none => throw (.unrecoverable ("Missing " ++ field ++ " for " ++ job.name ++ " job " ++
      job.id.getD "undefined"))

def requireToken (job : Job) : Mail String := requiredField job "token" job.data.token

def verificationLink (env : MailEnv) (token : String) : String :=
  appUrl "/api/v1/auth/verify-email" [("token", token)] env.APP_URL

def dispatch (env : MailEnv) (job : Job) : Mail Unit := do
  if job.name = EMAIL_JOBS.VERIFICATION then do
    let token ← requireToken job
    sendEmail env job.data.email (sendVerificationEmail env.toMailSettings
      { name := job.data.name.getD "", link := verificationLink env token })
  else if job.name = EMAIL_JOBS.RESET_PASSWORD then do
    let token ← requireToken job
    sendEmail env job.data.email (sendResetPasswordEmail env.toMailSettings
      { name := job.data.name.getD "", link := env.passwordResetLink token })
  else if job.name = EMAIL_JOBS.VERIFICATION_SUCCESS then
    sendEmail env job.data.email (sendVerificationSuccessEmail (job.data.name.getD ""))
  else if job.name = EMAIL_JOBS.OTP_CODE then do
    let code ← requiredField job "code" job.data.code
    sendEmail env job.data.email (sendOtpEmail
      { code, expiresMinutes := job.data.expiresMinutes.getD env.OTP_EXPIRES_MINUTES })
  else throw (.unrecoverable ("Unknown job name: " ++ job.name))

/-- An empty id has no marker. -/
def Job.marker (job : Job) : Option String :=
  (job.id.filter (· ≠ "")).map ("email:sent:" ++ ·)

/-- The `catch` around `dispatch`. -/
def convertError : JobError → Mail Unit
  | .permanentMail message => throw (.unrecoverable message)
  | error => throw error

def alreadySent : Option String → Mail Bool
  | some marker => do rethrow (← getMarker marker)
  | none => pure false

def markSent : Option String → Mail Unit
  | some marker => do rethrow (← setMarker marker SENT_MARKER_TTL_SECONDS)
  | none => pure ()

def processEmailJob (env : MailEnv) (job : Job) : Mail Unit := do
  let sent ← alreadySent job.marker
  if sent then pure ()
  else do
    (dispatch env job).handle convertError
    markSent job.marker

/-! ## What the attempts run on -/

/-- `deliveries` are the messages the transport has taken over, each with the attempt that sent
it, the last first. A marker has the time it expires at. `asked` are the answers about markers,
each with its attempt; nothing reads it. -/
structure MailState where
  clock : Time
  markers : String → Option Time
  templates : List EmailTemplate
  deliveries : List (ℕ × MailMessage)
  asked : List (ℕ × String × Bool)

def MailState.Marked (s : MailState) (key : String) : Prop :=
  ∃ expiresAt, s.markers key = some expiresAt ∧ s.clock < expiresAt

instance (s : MailState) (key : String) : Decidable (s.Marked key) :=
  match h : s.markers key with
  | some expiresAt =>
      if hlt : s.clock < expiresAt then .isTrue ⟨expiresAt, h, hlt⟩
      else .isFalse fun ⟨e, he, hclock⟩ => hlt (Option.some.inj (h ▸ he) ▸ hclock)
  | none => .isFalse fun ⟨e, he, _⟩ => by simp [h] at he

/-- The choices of the environment. A call can fail and still have been executed; so can a
message be taken over although the transport reports an error. -/
inductive MailOracle where
  | answers
  | fails (executed : Bool) (reason : String)
  | smtp (taken : Bool) (reply : SmtpReply)
  | fetch (taken : Bool) (reply : FetchReply)
  | wait (milliseconds : ℕ)
  | edit (templates : List EmailTemplate)

/-- A message that the server has accepted is taken over, one that it has refused for good is
not. -/
def SmtpReply.fits (taken : Bool) : SmtpReply → Bool
  | .resolved => taken
  | .rejected error => !(taken && isPermanentSmtpError error)

def FetchReply.fits (taken : Bool) : FetchReply → Bool
  | .response status _ =>
      if 200 ≤ status ∧ status < 300 then taken else !(taken && isPermanentHttpStatus status)
  | .failed _ => true

def MailState.deliver (s : MailState) (taken : Bool) (t : ℕ) (message : MailMessage) :
    MailState :=
  if taken then { s with deliveries := (t, message) :: s.deliveries } else s

def MailState.mark (s : MailState) (key : String) (ttl : ℕ) : MailState :=
  { s with markers := Function.update s.markers key (some (s.clock + ttl * 1000)) }

def execMail (t : ℕ) :
    (r : MailRequest) → MailOracle → MailState → Option (r.Reply × MailState)
  | .getMarker key, .answers, s =>
      let found := decide (s.Marked key)
      some (.ok found, { s with asked := (t, key, found) :: s.asked })
  | .getMarker _, .fails _ reason, s => some (.error reason, s)
  | .setMarker key ttl, .answers, s => some (.ok (), s.mark key ttl)
  | .setMarker key ttl, .fails executed reason, s =>
      some (.error reason, if executed then s.mark key ttl else s)
  | .findByKey key, .answers, s => some (.ok (s.templates.find? fun row => row.key == key), s)
  | .findByKey _, .fails _ reason, s => some (.error reason, s)
  | .transporter _ message, .smtp taken reply, s =>
      if reply.fits taken then some (reply, s.deliver taken t message) else none
  | .fetch post, .fetch taken reply, s =>
      if reply.fits taken then some (reply, s.deliver taken t post.message) else none
  | _, _, _ => none

def moveMail : MailOracle → MailState → Option MailState
  | .wait milliseconds, s => some { s with clock := s.clock + milliseconds }
  | .edit templates, s => some { s with templates }
  | _, _ => none

def mailSystem : Machine ℕ JobError MailRequest MailRequest.Reply MailState MailOracle where
  exec := execMail
  crash _ s := s
  lost := .lost
  move := moveMail

/-- Every thread is an attempt at a job that has not begun. -/
def attempts (env : MailEnv) (jobs : ℕ → Job) (start : MailState) :
    Config ℕ JobError MailRequest MailRequest.Reply MailState Unit where
  shared := start
  thread t := processEmailJob env (jobs t)

end ExpressCore
