import ExpressCore.Model.Otp
import ExpressCore.Model.Paginator

/-! # The extended profile fields: validation, storage and response -/

namespace ExpressCore

/-! ## Dates

A DATE is the number of days since 0000-03-01. -/

/-- The year, month and day of a day number, by 400-year eras that start in March. -/
def civilDate (z : ℕ) : ℕ × ℕ × ℕ :=
  let doe := z % 146097
  let yoe := (doe - doe / 1460 + doe / 36524 - doe / 146096) / 365
  let doy := doe - (365 * yoe + yoe / 4 - yoe / 100)
  let mp := (5 * doy + 2) / 153
  let month := if mp < 10 then mp + 3 else mp - 9
  (yoe + z / 146097 * 400 + if month ≤ 2 then 1 else 0, month, doy - (153 * mp + 2) / 5 + 1)

/-- The day number of a year, month and day. -/
def dayNumber (date : ℕ × ℕ × ℕ) : ℕ :=
  let (year, month, day) := date
  let y := if month ≤ 2 then year - 1 else year
  let mp := if month ≤ 2 then month + 9 else month - 3
  let yoe := y % 400
  y / 400 * 146097 + (365 * yoe + yoe / 4 - yoe / 100) + (153 * mp + 2) / 5 + day - 1

def isLeapYear (year : ℕ) : Bool := year % 4 = 0 && (year % 100 ≠ 0 || year % 400 = 0)

def daysInMonth (year month : ℕ) : ℕ :=
  if month = 2 then if isLeapYear year then 29 else 28
  else if month = 4 ∨ month = 6 ∨ month = 9 ∨ month = 11 then 30 else 31

def digit (c : Char) : Option ℕ := if c.isDigit then some (c.toNat - '0'.toNat) else none

/-- The date of a text in the form YYYY-MM-DD, if it is one of the Gregorian calendar. -/
def parseDate (text : String) : Option (ℕ × ℕ × ℕ) :=
  match text.toList with
  | [y₁, y₂, y₃, y₄, '-', m₁, m₂, '-', d₁, d₂] => do
      let year := 1000 * (← digit y₁) + 100 * (← digit y₂) + 10 * (← digit y₃) + (← digit y₄)
      let month := 10 * (← digit m₁) + (← digit m₂)
      let day := 10 * (← digit d₁) + (← digit d₂)
      if 1 ≤ month ∧ month ≤ 12 ∧ 1 ≤ day ∧ day ≤ daysInMonth year month then
        some (year, month, day)
      else none
  | _ => none

/-- `new Date(day).toISOString().slice(0, 10)`. -/
def dateText (day : ℕ) : String :=
  let date := civilDate day
  String.ofList ((((if date.1 ≤ 9999 then padDigits 4 date.1 else "+" ++ padDigits 6 date.1) ++
    "-" ++ padDigits 2 date.2.1 ++ "-" ++ padDigits 2 date.2.2).toList).take 10)

/-! ## `config/env` -/

/-- `getCanonicalLocales` is the first of the tags that `Intl` answers with, if it does not
throw, and `SUPPORTED_LOCALES` is the setting. -/
structure Locales where
  getCanonicalLocales : String → Option String
  SUPPORTED_LOCALES : List String

def canonicalLocale (locales : Locales) (value : String) : Option String :=
  locales.getCanonicalLocales (trim value)

/-! ## `profile.fields` -/

/-- What a field's schema makes of a value: the value to store, or the messages. -/
abbrev Parsed (α : Type) : Type := Except (List String) α

def typeName : Json → String
  | .null => "null"
  | .bool _ => "boolean"
  | .num _ => "number"
  | .str _ => "string"
  | .arr _ => "array"
  | .obj _ => "object"

/-- `z.string()` refuses a value of another type. -/
def expectedString {α : Type} (value : Json) : Parsed α :=
  .error ["Invalid input: expected string, received " ++ typeName value]

/-- An absent value is no value, and null and the empty string both clear. -/
def clearable {α : Type} (schema : Json → Parsed α) : Option Json → Parsed (Option (Option α))
  | none => .ok none
  | some .null => .ok (some none)
  | some (.str "") => .ok (some none)
  | some value => (schema value).map fun parsed => some (some parsed)

/-- The characters of `/[\s().-]/`. -/
def isSeparator (c : Char) : Bool := isSpace c || c ∈ ['(', ')', '.', '-']

/-- `/^\+[1-9]\d{6,14}$/`. -/
def isE164 (text : String) : Bool :=
  match text.toList with
  | '+' :: c :: rest =>
      c.isDigit && c != '0' && rest.all Char.isDigit && decide (6 ≤ rest.length ∧ rest.length ≤ 14)
  | _ => false

def phoneSchema : Json → Parsed String
  | .str value =>
      let stripped := String.ofList (value.toList.filter fun c => !isSeparator c)
      if isE164 stripped then .ok stripped
      else .error ["Phone must be in international format, e.g. +628123456789"]
  | value => expectedString value

def today (now : Time) : String := String.ofList ((toISOString now).toList.take 10)

/-- The messages of the checks that fail; each is made. -/
def birthDateIssues (now : Time) (value : String) : List String :=
  (if (parseDate value).isSome then [] else ["Birth date must be a date in YYYY-MM-DD format"]) ++
    (if value ≤ today now then [] else ["Birth date cannot be in the future"]) ++
    if "1900-01-01" ≤ value then [] else ["Birth date must be 1900-01-01 or later"]

def birthDateSchema (now : Time) : Json → Parsed String
  | .str value =>
      if birthDateIssues now value = [] then .ok value else .error (birthDateIssues now value)
  | _ => .error ["Birth date must be a date in YYYY-MM-DD format"]

def Gender.text : Gender → String
  | .male => "male"
  | .female => "female"
  | .other => "other"
  | .undisclosed => "undisclosed"

def GENDERS : List Gender := [.male, .female, .other, .undisclosed]

def genderOf : Json → Option Gender
  | .str value => GENDERS.find? fun gender => gender.text == value
  | _ => none

def genderSchema (value : Json) : Parsed Gender :=
  match genderOf value with
  | some gender => .ok gender
  | none => .error ["Gender must be one of: " ++ ", ".intercalate (GENDERS.map Gender.text)]

def localeSchema (locales : Locales) : Json → Parsed String
  | .str value =>
      match (canonicalLocale locales value).filter (· ∈ locales.SUPPORTED_LOCALES) with
      | some tag => .ok tag
      | none => .error
          ["Locale must be one of: " ++ ", ".intercalate locales.SUPPORTED_LOCALES]
  | value => expectedString value

/-- The extended fields of a request body; an absent property is `none`. -/
structure ProfileBody where
  phone : Option Json := none
  birthDate : Option Json := none
  gender : Option Json := none
  locale : Option Json := none

/-- The messages of a field, each with its name. -/
def fieldIssues {α : Type} (field : String) : Parsed α → List (String × String)
  | .ok _ => []
  | .error messages => messages.map fun message => (field, message)

/-- The part of `updateProfileSchema` that is about the extended fields. -/
def parseProfileFields (locales : Locales) (now : Time) (body : ProfileBody) :
    Except (List (String × String)) ProfileFields :=
  let phone := clearable phoneSchema body.phone
  let birthDate := clearable (birthDateSchema now) body.birthDate
  let gender := clearable genderSchema body.gender
  let locale := clearable (localeSchema locales) body.locale
  match phone, birthDate, gender, locale with
  | .ok phone, .ok birthDate, .ok gender, .ok locale => .ok { phone, birthDate, gender, locale }
  | _, _, _, _ => .error
      (fieldIssues "phone" phone ++ fieldIssues "birthDate" birthDate ++
        fieldIssues "gender" gender ++ fieldIssues "locale" locale)

def toProfileResponse (row : Option UserProfile) : Option ProfileResponse :=
  row.map fun row =>
    { phone := row.phone, birthDate := row.birthDate.map dateText, gender := row.gender
      locale := row.locale }

/-- The columns that `upsertDetails` writes: a birth date becomes the date of
`new Date(birthDate + "T00:00:00Z")`, and an invalid one has none. -/
def ProfileFields.columns (fields : ProfileFields) : Option UserProfileUpdate :=
  match fields.birthDate with
  | none => some { phone := fields.phone, gender := fields.gender, locale := fields.locale }
  | some none =>
      some { phone := fields.phone, birthDate := some none, gender := fields.gender
             locale := fields.locale }
  | some (some text) =>
      (parseDate text).map fun date =>
        { phone := fields.phone, birthDate := some (some (dayNumber date)), gender := fields.gender
          locale := fields.locale }

end ExpressCore
