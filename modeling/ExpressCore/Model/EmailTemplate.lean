import ExpressCore.Model.Statement

/-! # The email templates and their editor -/

namespace ExpressCore

open ReadCommitted Interleaving Program

/-! ## `email-template.catalog` -/

structure TemplateVariable where
  name : String
  description : String

structure TemplateDefinition where
  title : String
  subject : String
  body : String
  templateVariables : List TemplateVariable
  required : List String

def GLOBAL_TEMPLATE_VARIABLES : List TemplateVariable :=
  [{ name := "app_name", description := "Application name (APP_NAME)" }]

def BUTTON : String :=
  "display:inline-block;background:#4f46e5;color:#ffffff;text-decoration:none;" ++
    "padding:14px 28px;border-radius:6px;font-size:15px;font-weight:bold;"

def GREETING : String := "color:#374151;font-size:16px;"

def TEXT : String := "color:#6b7280;font-size:15px;line-height:1.6;"

def NOTE : String := "color:#9ca3af;font-size:13px;"

/-- `join('\n')`. -/
def joinLines (lines : List String) : String := "\n".intercalate lines

def EMAIL_TEMPLATE_CATALOG : List (String × TemplateDefinition) :=
  [("verify-email",
      { title := "Email verification link"
        subject := "Verify Your Email Address"
        body := joinLines
          ["<p style=\"" ++ GREETING ++
              "\">Hello, <strong>\x7b\x7bname\x7d\x7d</strong>!</p>",
            "<p style=\"" ++ TEXT ++ "\">Thank you for registering. Click the button below to " ++
              "verify your email address and activate your account.</p>",
            "<div style=\"margin:32px 0;\"><a href=\"\x7b\x7blink\x7d\x7d\" style=\"" ++ BUTTON ++
              "\">Verify Email</a></div>",
            "<p style=\"" ++ NOTE ++ "\">This link is valid for " ++
              "<strong>\x7b\x7bexpires_hours\x7d\x7d hours</strong>.<br />If you did not " ++
              "register at \x7b\x7bapp_name\x7d\x7d, please ignore this email.</p>"]
        templateVariables :=
          [{ name := "name", description := "Recipient name" },
            { name := "link", description := "Verification link" },
            { name := "expires_hours", description := "Hours the link stays valid" }]
        required := ["link"] }),
    ("email-verified",
      { title := "Email verified notice"
        subject := "Email Verified Successfully"
        body := joinLines
          ["<p style=\"" ++ GREETING ++
              "\">Hello, <strong>\x7b\x7bname\x7d\x7d</strong>!</p>",
            "<p style=\"" ++ TEXT ++ "\">Your email address has been successfully verified. You " ++
              "can now log in to your account and start using our services.</p>",
            "<p style=\"" ++ NOTE ++ "\">If you did not perform this action, please contact our " ++
              "support team immediately.</p>"]
        templateVariables := [{ name := "name", description := "Recipient name" }]
        required := [] }),
    ("reset-password",
      { title := "Password reset link"
        subject := "Reset Your Password"
        body := joinLines
          ["<p style=\"" ++ GREETING ++
              "\">Hello, <strong>\x7b\x7bname\x7d\x7d</strong>!</p>",
            "<p style=\"" ++ TEXT ++ "\">We received a request to reset your account password. " ++
              "Click the button below to create a new password.</p>",
            "<div style=\"margin:32px 0;\"><a href=\"\x7b\x7blink\x7d\x7d\" style=\"" ++ BUTTON ++
              "\">Reset Password</a></div>",
            "<p style=\"" ++ NOTE ++ "\">This link is valid for " ++
              "<strong>\x7b\x7bexpires_minutes\x7d\x7d minutes</strong>.<br />If you did not " ++
              "request a password reset, please ignore this email. Your account remains safe.</p>"]
        templateVariables :=
          [{ name := "name", description := "Recipient name" },
            { name := "link", description := "Password reset link" },
            { name := "expires_minutes", description := "Minutes the link stays valid" }]
        required := ["link"] }),
    ("registration-code",
      { title := "Registration code"
        subject := "Your Verification Code"
        body := joinLines
          ["<p style=\"" ++ GREETING ++ "\">Hello!</p>",
            "<p style=\"" ++ TEXT ++ "\">Use the verification code below to confirm your email " ++
              "address and continue your registration.</p>",
            "<div style=\"margin:32px 0;text-align:center;\"><span style=\"display:inline-block;" ++
              "background:#f4f4f5;color:#111827;padding:16px 32px;border-radius:6px;" ++
              "font-size:32px;font-weight:bold;letter-spacing:8px;" ++
              "font-family:'Courier New',Courier,monospace;\">\x7b\x7bcode\x7d\x7d</span></div>",
            "<p style=\"" ++ NOTE ++ "\">This code is valid for " ++
              "<strong>\x7b\x7bexpires_minutes\x7d\x7d minutes</strong>.<br />If you did not " ++
              "request this code at \x7b\x7bapp_name\x7d\x7d, please ignore this email.</p>"]
        templateVariables :=
          [{ name := "code", description := "Six-digit registration code" },
            { name := "expires_minutes", description := "Minutes the code stays valid" }]
        required := ["code"] })]

def templateDefinition (key : String) : Option TemplateDefinition :=
  (EMAIL_TEMPLATE_CATALOG.find? fun x => x.1 == key).map Prod.snd

/-- A match of `PLACEHOLDER` at the start of the text: the name, and what follows. -/
def placeholderAt : List Char → Option (String × List Char)
  | '\x7b' :: '\x7b' :: rest =>
      let named := rest.dropWhile isSpace
      let name := named.takeWhile isWord
      match (named.dropWhile isWord).dropWhile isSpace with
      | '\x7d' :: '\x7d' :: rest => if name = [] then none else some (String.ofList name, rest)
      | _ => none
  | _ => none

/-- `matchAll`; the number bounds the characters left. -/
def placeholdersFrom : ℕ → List Char → List String
  | 0, _ => []
  | _, [] => []
  | n + 1, c :: rest =>
      match placeholderAt (c :: rest) with
      | some (name, rest) => name :: placeholdersFrom n rest
      | none => placeholdersFrom n rest

def placeholdersIn (text : String) : List String :=
  (placeholdersFrom text.length text.toList).eraseDups

/-- The problems with their fields. -/
def templateProblems (definition : TemplateDefinition) (subject body : String) :
    List (String × String) :=
  let allowed := (definition.templateVariables ++ GLOBAL_TEMPLATE_VARIABLES).map (·.name)
  let unknown := fun field text =>
    ((placeholdersIn text).filter fun name => !allowed.contains name).map fun name =>
      (field, "Unknown variable \x7b\x7b" ++ name ++ "\x7d\x7d")
  unknown "subject" subject ++ unknown "body" body ++
    (definition.required.filter fun name => !(placeholdersIn body).contains name).map fun name =>
      ("body", "Body must contain \x7b\x7b" ++ name ++ "\x7d\x7d")

/-! ## `email-template.service` -/

structure UpdateEmailTemplateInput where
  title : Option String
  subject : Option String
  body : Option String
  isActive : Option Bool

structure TemplateResponse where
  key : String
  title : String
  subject : String
  body : String
  isActive : Bool
  templateVariables : List TemplateVariable
  requiredVariables : List String

def toTemplateResponse (row : EmailTemplate) : TemplateResponse :=
  let definition := templateDefinition row.key
  { key := row.key, title := row.title, subject := row.subject, body := row.body
    isActive := row.isActive
    templateVariables := (definition.map (·.templateVariables)).getD [] ++ GLOBAL_TEMPLATE_VARIABLES
    requiredVariables := (definition.map (·.required)).getD [] }

def templateJson (row : EmailTemplate) : Json :=
  .obj [("title", .str row.title), ("subject", .str row.subject), ("isActive", .bool row.isActive)]

def findTemplate (key : String) : Service (TemplateDefinition × EmailTemplate) := do
  match templateDefinition key with
  | none => throw (appError "Email template not found" 404)
  | some definition => do
      match ← emailTemplates (.find (.key key)) with
      | none => throw (appError "Email template not found" 404)
      | some (_, row) => pure (definition, row)

def updateEmailTemplate (key : String) (data : UpdateEmailTemplateInput) (updatedBy : Option ℕ) :
    Service TemplateResponse := do
  let (definition, template) ← findTemplate key
  let problems := templateProblems definition (data.subject.getD template.subject)
    (data.body.getD template.body)
  if problems.length > 0 then throw (Error.validation "Validation failed" 400 problems)
  else do
    let updated ← transaction do
      let row ← changeOne emailTemplates .tx (.key template.key)
        (.update data.title data.subject data.body data.isActive)
      logActivity updatedBy "UPDATE" "EmailTemplate" (some row.1)
        ("Email template updated: " ++ row.2.key) (some (templateJson template))
        (some (templateJson row.2)) .tx
      pure row.2
    pure (toTemplateResponse updated)

end ExpressCore
