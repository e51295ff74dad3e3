import ExpressCore.Library.Pattern
import ExpressCore.Model.EmailTemplate
import ExpressCore.Model.Paginator

/-! # Rendering of emails

`email-template.render`, the layout and the senders of `email.service`. The text of a number is
its `toString`. -/

namespace ExpressCore

open Pattern

/-! ## `email-template.render` -/

inductive TemplateValue (N : Type) where
  | string (s : String)
  | number (n : N)

variable {N : Type} [ToString N]

/-- `String(value)`. -/
def TemplateValue.text : TemplateValue N → String
  | .string s => s
  | .number n => toString n

abbrev TemplateVariables (N : Type) := List (String × TemplateValue N)

/-- An own property of the object. -/
def TemplateVariables.get? (vars : TemplateVariables N) (name : String) :
    Option (TemplateValue N) :=
  (vars.find? fun x => x.1 == name).map Prod.snd

/-- `/\{\{\s*([a-zA-Z0-9_]+)\s*\}\}/g`. -/
def PLACEHOLDER : List (Pattern.Part Char) :=
  [{ accepts := (· == '\x7b'), count := .one }, { accepts := (· == '\x7b'), count := .one },
    { accepts := isSpace, count := .many }, { accepts := isWord, count := .some, captured := true },
    { accepts := isSpace, count := .many },
    { accepts := (· == '\x7d'), count := .one }, { accepts := (· == '\x7d'), count := .one }]

/-- `value.replace(/c/g, entity)`. -/
def replaceChar (c : Char) (entity : String) (value : List Char) : List Char :=
  value.flatMap fun x => if x = c then entity.toList else [x]

def escapeHtml (value : String) : String :=
  let value := replaceChar '&' "&amp;" value.toList
  let value := replaceChar '<' "&lt;" value
  let value := replaceChar '>' "&gt;" value
  let value := replaceChar '"' "&quot;" value
  String.ofList (replaceChar '\'' "&#39;" value)

def substitute (text : String) (vars : TemplateVariables N) (encode : String → String) :
    String :=
  String.ofList (replace PLACEHOLDER
    (fun found name =>
      match vars.get? (String.ofList name) with
      | some value => (encode value.text).toList
      | none => found)
    text.toList)

/-- `/\s*[\r\n]+\s*/g`. -/
def LINE_BREAKS : List (Pattern.Part Char) :=
  [{ accepts := isSpace, count := .many },
    { accepts := fun c => c == '\r' || c == '\n', count := .some },
    { accepts := isSpace, count := .many }]

def oneLine (text : String) : String :=
  trim (String.ofList (replace LINE_BREAKS (fun _ _ => [' ']) text.toList))

/-- `email/templates/layout/base.template`. -/
def baseTemplate (APP_NAME content : String) : String :=
  "<!DOCTYPE html>\n    <html lang=\"en\">\n    <head>\n      <meta charset=\"UTF-8\" />\n" ++
  "      <meta name=\"viewport\" content=\"width=device-width, initial-scale=1.0\" />\n" ++
  "      <title>" ++ APP_NAME ++ "</title>\n    </head>\n" ++
  "    <body style=\"margin:0;padding:0;background:#f4f4f5;" ++
  "font-family:Arial,Helvetica,sans-serif;\">\n" ++
  "      <table width=\"100%\" cellpadding=\"0\" cellspacing=\"0\" style=\"padding:40px 0;\">\n" ++
  "        <tr>\n          <td align=\"center\">\n" ++
  "            <table width=\"600\" cellpadding=\"0\" cellspacing=\"0\"\n" ++
  "              style=\"background:#ffffff;border-radius:8px;overflow:hidden;" ++
  "box-shadow:0 2px 8px rgba(0,0,0,0.08);\">\n" ++
  "              <tr>\n" ++
  "                <td style=\"background:#4f46e5;padding:24px 40px;\">\n" ++
  "                  <h1 style=\"margin:0;color:#ffffff;font-size:22px;\">" ++ APP_NAME ++
  "</h1>\n                </td>\n              </tr>\n              <tr>\n" ++
  "                <td style=\"padding:36px 40px;\">\n                  " ++ content ++
  "\n                </td>\n              </tr>\n              <tr>\n" ++
  "                <td style=\"background:#f9fafb;padding:16px 40px;" ++
  "border-top:1px solid #e5e7eb;\">\n" ++
  "                  <p style=\"margin:0;color:#9ca3af;font-size:12px;\">\n" ++
  "                    This is an automated email, please do not reply.\n" ++
  "                  </p>\n                </td>\n              </tr>\n            </table>\n" ++
  "          </td>\n        </tr>\n      </table>\n    </body>\n    </html>\n  "

structure TemplateText where
  subject : String
  body : String

structure RenderedTemplate where
  subject : String
  html : String
  deriving DecidableEq

def renderTemplate (APP_NAME : String) (template : TemplateText)
    (vars : TemplateVariables N) : RenderedTemplate :=
  { subject := oneLine (substitute template.subject vars id)
    html := baseTemplate APP_NAME (substitute template.body vars escapeHtml) }

/-! ## `email-template.service` and `email.service` -/

structure MailSettings where
  APP_NAME : String
  EMAIL_VERIFICATION_EXPIRES_HOURS : ℕ
  PASSWORD_RESET_EXPIRES_MINUTES : ℕ

variable (env : MailSettings)

/-- The text of an active row, else the built-in one. -/
def templateSource (definition : TemplateDefinition) (row : Option EmailTemplate) : TemplateText :=
  match row.filter (·.isActive) with
  | some row => { subject := row.subject, body := row.body }
  | none => { subject := definition.subject, body := definition.body }

/-- Properties of the second object win. -/
def withGlobals (vars : TemplateVariables N) : TemplateVariables N :=
  vars ++ [("app_name", .string env.APP_NAME)]

/-- `render`, with the row that `findByKey` answers. -/
def render (definition : TemplateDefinition) (row : Option EmailTemplate)
    (vars : TemplateVariables N) : RenderedTemplate :=
  renderTemplate env.APP_NAME (templateSource definition row) (withGlobals env vars)

structure LinkEmailData where
  name : String
  link : String

structure OtpEmailData where
  code : String
  expiresMinutes : ℕ

/-- The arguments of `send` besides the address. -/
structure TemplateSending where
  key : String
  templateVariables : TemplateVariables ℕ

def sendVerificationEmail (data : LinkEmailData) : TemplateSending :=
  { key := "verify-email"
    templateVariables := [("name", .string data.name), ("link", .string data.link),
      ("expires_hours", .number env.EMAIL_VERIFICATION_EXPIRES_HOURS)] }

def sendResetPasswordEmail (data : LinkEmailData) : TemplateSending :=
  { key := "reset-password"
    templateVariables := [("name", .string data.name), ("link", .string data.link),
      ("expires_minutes", .number env.PASSWORD_RESET_EXPIRES_MINUTES)] }

def sendVerificationSuccessEmail (name : String) : TemplateSending :=
  { key := "email-verified", templateVariables := [("name", .string name)] }

def sendOtpEmail (data : OtpEmailData) : TemplateSending :=
  { key := "registration-code"
    templateVariables :=
      [("code", .string data.code), ("expires_minutes", .number data.expiresMinutes)] }

end ExpressCore
