import ExpressCore.Model.Routes
import ExpressCore.Verification.Account.Dates

/-! # The extended fields of a profile

What a request sends, what its validation makes of that and what a response shows again. -/

namespace ExpressCore.Fields

open Cron Dates

variable {α : Type} {locales : Locales} {now later : Time} {body : ProfileBody}
  {fields : ProfileFields}

/-! ## Absent, null and empty -/

/-- Absent, cleared and set are kept apart. -/
structure Meaning (field : Option Json) (sent : Option (Option α)) : Prop where
  absent : sent = none ↔ field = none
  cleared : sent = some none ↔ field = some .null ∨ field = some (.str "")

theorem clearable_meaning {schema : Json → Parsed α} {field : Option Json}
    {sent : Option (Option α)} (h : clearable schema field = .ok sent) : Meaning field sent := by
  unfold clearable at h
  split at h
  · cases h
    constructor <;> simp
  · cases h
    constructor <;> simp
  · cases h
    constructor <;> simp
  · rename_i json hnull hempty
    cases hschema : schema json with
    | error messages => simp [hschema, Except.map] at h
    | ok parsed =>
        simp only [hschema, Except.map, Except.ok.injEq] at h
        subst h
        constructor
        · simp
        · simp only [Option.some.injEq, reduceCtorEq, false_iff, not_or]
          exact ⟨hnull, hempty⟩

theorem clearable_set {schema : Json → Parsed α} {field : Option Json} {parsed : α}
    (h : clearable schema field = .ok (some (some parsed))) :
    ∃ json, field = some json ∧ schema json = .ok parsed := by
  unfold clearable at h
  split at h
  · cases h
  · cases h
  · cases h
  · rename_i json hnull hempty
    cases hschema : schema json with
    | error messages => simp [hschema, Except.map] at h
    | ok value =>
        simp only [hschema, Except.map, Except.ok.injEq, Option.some.injEq] at h
        exact ⟨json, rfl, h ▸ hschema⟩

theorem clearable_str {schema : Json → Parsed α} {text : String} {parsed : α} (hne : text ≠ "")
    (h : schema (.str text) = .ok parsed) :
    clearable schema (some (.str text)) = .ok (some (some parsed)) := by
  simp [clearable, hne, h, Except.map]

/-- A request is accepted just when each of its fields is. -/
theorem parse_eq_ok : parseProfileFields locales now body = .ok fields ↔
    clearable phoneSchema body.phone = .ok fields.phone ∧
      clearable (birthDateSchema now) body.birthDate = .ok fields.birthDate ∧
      clearable genderSchema body.gender = .ok fields.gender ∧
      clearable (localeSchema locales) body.locale = .ok fields.locale := by
  unfold parseProfileFields
  constructor
  · intro h
    dsimp only at h
    split at h
    · rename_i hphone hbirthDate hgender hlocale
      cases h
      exact ⟨hphone, hbirthDate, hgender, hlocale⟩
    · cases h
  · rintro ⟨hphone, hbirthDate, hgender, hlocale⟩
    simp only [hphone, hbirthDate, hgender, hlocale]

/-! ## Normalized values -/

/-- A birth date is stored as it was sent. -/
def asSent : Json → Parsed String
  | .str value => .ok value
  | value => expectedString value

/-- The normalized values of a request, whenever it is validated. -/
def normalized (locales : Locales) (body : ProfileBody) : ProfileFields where
  phone := (clearable phoneSchema body.phone).toOption.join
  birthDate := (clearable asSent body.birthDate).toOption.join
  gender := (clearable genderSchema body.gender).toOption.join
  locale := (clearable (localeSchema locales) body.locale).toOption.join

theorem birthDateSchema_eq_ok {json : Json} {value : String} :
    birthDateSchema now json = .ok value ↔ json = .str value ∧ birthDateIssues now value = [] := by
  unfold birthDateSchema
  split
  · split
    · rename_i hissues
      simp only [Except.ok.injEq, Json.str.injEq]
      constructor
      · rintro rfl
        exact ⟨rfl, hissues⟩
      · exact fun h => h.1
    · rename_i hissues
      simp only [reduceCtorEq, Json.str.injEq, false_iff]
      rintro ⟨rfl, h⟩
      exact hissues h
  · rename_i hstr
    simp only [reduceCtorEq, false_iff]
    rintro ⟨rfl, -⟩
    exact hstr _ rfl

theorem clearable_asSent {field : Option Json} {sent : Option (Option String)}
    (h : clearable (birthDateSchema now) field = .ok sent) :
    clearable asSent field = .ok sent := by
  unfold clearable at h ⊢
  split at h <;> try exact h
  rename_i json hnull hempty
  cases hschema : birthDateSchema now json with
  | error messages => simp [hschema, Except.map] at h
  | ok value =>
      obtain ⟨rfl, -⟩ := birthDateSchema_eq_ok.mp hschema
      rw [hschema] at h
      exact h

theorem normalized_of_parse (h : parseProfileFields locales now body = .ok fields) :
    normalized locales body = fields := by
  obtain ⟨hphone, hbirthDate, hgender, hlocale⟩ := parse_eq_ok.mp h
  simp only [normalized, hphone, clearable_asSent hbirthDate, hgender, hlocale, Except.toOption,
    Option.join_some]

/-! ## What a request does to a row -/

/-- `toProfileResponse` of a row. -/
def respond (row : UserProfile) : ProfileResponse :=
  { phone := row.phone, birthDate := row.birthDate.map dateText, gender := row.gender
    locale := row.locale }

def blank (userId : ℕ) : UserProfile :=
  { userId, phone := none, birthDate := none, gender := none, locale := none }

def blankResponse : ProfileResponse :=
  { phone := none, birthDate := none, gender := none, locale := none }

/-- The fields that are sent replace those of the response. -/
def replace (fields : ProfileFields) (response : ProfileResponse) : ProfileResponse :=
  { phone := fields.phone.getD response.phone
    birthDate := fields.birthDate.getD response.birthDate
    gender := fields.gender.getD response.gender
    locale := fields.locale.getD response.locale }

theorem replace_replace (fields : ProfileFields) (response : ProfileResponse) :
    replace fields (replace fields response) = replace fields response := by
  unfold replace
  cases fields.phone <;> cases fields.birthDate <;> cases fields.gender <;>
    cases fields.locale <;> rfl

/-- The columns of a request whose birth date was accepted. -/
theorem columns_cases {data : UserProfileUpdate} (h : fields.columns = some data) :
    data.phone = fields.phone ∧ data.gender = fields.gender ∧ data.locale = fields.locale ∧
      (fields.birthDate = none ∧ data.birthDate = none ∨
        fields.birthDate = some none ∧ data.birthDate = some none ∨
        ∃ text date, fields.birthDate = some (some text) ∧ parseDate text = some date ∧
          data.birthDate = some (some (dayNumber date))) := by
  unfold ProfileFields.columns at h
  split at h
  · rename_i hnone
    cases h
    exact ⟨rfl, rfl, rfl, .inl ⟨hnone, rfl⟩⟩
  · rename_i hcleared
    cases h
    exact ⟨rfl, rfl, rfl, .inr (.inl ⟨hcleared, rfl⟩)⟩
  · rename_i text hset
    obtain ⟨date, hdate, rfl⟩ := Option.map_eq_some_iff.mp h
    exact ⟨rfl, rfl, rfl, .inr (.inr ⟨text, date, hset, hdate, rfl⟩)⟩

theorem accepted_birthDate {text : String} (h : parseProfileFields locales now body = .ok fields)
    (hset : fields.birthDate = some (some text)) : birthDateIssues now text = [] := by
  obtain ⟨-, hbirthDate, -⟩ := parse_eq_ok.mp h
  obtain ⟨json, -, hjson⟩ := clearable_set (hset ▸ hbirthDate)
  exact (birthDateSchema_eq_ok.mp hjson).2

theorem columns_of_parse (h : parseProfileFields locales now body = .ok fields) :
    ∃ data, fields.columns = some data := by
  unfold ProfileFields.columns
  split
  · exact ⟨_, rfl⟩
  · exact ⟨_, rfl⟩
  · rename_i text hset
    obtain ⟨hdate, -⟩ := birthDateIssues_eq_nil.mp (accepted_birthDate h hset)
    obtain ⟨date, hdate⟩ := Option.isSome_iff_exists.mp hdate
    exact ⟨_, by rw [hdate]; rfl⟩

/-- A request replaces what the response shows by what it sends. -/
theorem respond_apply {data : UserProfileUpdate} {row new : UserProfile}
    (h : parseProfileFields locales now body = .ok fields) (hcolumns : fields.columns = some data)
    (hnew : ReadCommitted.Change.apply data row = some new) :
    respond new = replace fields (respond row) ∧ new.userId = row.userId := by
  cases hnew
  obtain ⟨hphone, hgender, hlocale, hbirthDate⟩ := columns_cases hcolumns
  refine ⟨?_, rfl⟩
  have hdate : (data.birthDate.getD row.birthDate).map dateText =
      fields.birthDate.getD (row.birthDate.map dateText) := by
    rcases hbirthDate with ⟨hfield, hdata⟩ | ⟨hfield, hdata⟩ | ⟨text, date, hfield, hdate, hdata⟩
    · simp [hfield, hdata]
    · simp [hfield, hdata]
    · obtain ⟨-, -, hfirst⟩ := birthDateIssues_eq_nil.mp (accepted_birthDate h hfield)
      simp [hfield, hdata, dateText_of_parse hdate hfirst]
  simp only [respond, replace, hphone, hgender, hlocale, hdate]

/-! ## The register -/

/-- The last value that was sent, or the one at the start. -/
def lastSent (field : ProfileFields → Option (Option α)) (start : Option α)
    (sent : List ProfileFields) : Option α :=
  (sent.filterMap field).getLast?.getD start

/-- What a response shows after requests that sent `sent`, if it showed `start` before. -/
def shown (start : Option ProfileResponse) (sent : List ProfileFields) : Option ProfileResponse :=
  if start = none ∧ sent = [] then none
  else some
    { phone := lastSent (·.phone) (start.bind (·.phone)) sent
      birthDate := lastSent (·.birthDate) (start.bind (·.birthDate)) sent
      gender := lastSent (·.gender) (start.bind (·.gender)) sent
      locale := lastSent (·.locale) (start.bind (·.locale)) sent }

theorem lastSent_append (field : ProfileFields → Option (Option α)) (start : Option α)
    (sent : List ProfileFields) (fields : ProfileFields) :
    lastSent field start (sent ++ [fields]) = (field fields).getD (lastSent field start sent) := by
  unfold lastSent
  cases hfield : field fields <;> simp [List.filterMap_append, hfield]

theorem shown_nil (start : Option ProfileResponse) : shown start [] = start := by
  cases start <;> simp [shown, lastSent]

/-- One more request. -/
theorem shown_append (start : Option ProfileResponse) (sent : List ProfileFields)
    (fields : ProfileFields) :
    shown start (sent ++ [fields]) = some (replace fields ((shown start sent).getD blankResponse)) := by
  unfold shown
  simp only [List.append_eq_nil_iff, List.cons_ne_self, and_false, if_false, lastSent_append]
  split
  · rename_i hnone
    obtain ⟨rfl, rfl⟩ := hnone
    rfl
  · rfl

/-- Requests that send different fields. -/
structure Separate (fields fields' : ProfileFields) : Prop where
  phone : fields.phone = none ∨ fields'.phone = none
  birthDate : fields.birthDate = none ∨ fields'.birthDate = none
  gender : fields.gender = none ∨ fields'.gender = none
  locale : fields.locale = none ∨ fields'.locale = none

theorem lastSent_swap {field : ProfileFields → Option (Option α)} {f g : ProfileFields}
    (h : field f = none ∨ field g = none) (start : Option α) (before after : List ProfileFields) :
    lastSent field start (before ++ f :: g :: after) =
      lastSent field start (before ++ g :: f :: after) := by
  unfold lastSent
  rcases h with h | h <;> simp [List.filterMap_append, List.filterMap_cons, h]

/-- Their order does not matter. -/
theorem shown_swap {f g : ProfileFields} (h : Separate f g) (start : Option ProfileResponse)
    (before after : List ProfileFields) :
    shown start (before ++ f :: g :: after) = shown start (before ++ g :: f :: after) := by
  simp only [shown, List.append_eq_nil_iff, List.cons_ne_nil, and_false, if_false,
    lastSent_swap h.phone, lastSent_swap h.birthDate, lastSent_swap h.gender,
    lastSent_swap h.locale]

/-! ## Sending again what was returned -/

/-- What `Intl.getCanonicalLocales` does: its tags are canonical and without blanks around them,
and the empty string is no tag. -/
structure Canonical (locales : Locales) : Prop where
  idempotent : ∀ value tag, locales.getCanonicalLocales value = some tag →
    locales.getCanonicalLocales tag = some tag
  trimmed : ∀ value tag, locales.getCanonicalLocales value = some tag → trim tag = tag
  nonempty : locales.getCanonicalLocales "" = none

/-- The values of a row are values that were accepted, dates until now. -/
structure Accepted (locales : Locales) (clock : Time) (row : UserProfile) : Prop where
  phone : ∀ text, row.phone = some text → isE164 text = true
  birthDate : ∀ day, row.birthDate = some day → ∃ now text date, now ≤ clock ∧
    birthDateIssues now text = [] ∧ parseDate text = some date ∧ day = dayNumber date
  locale : ∀ tag, row.locale = some tag →
    (∃ value, canonicalLocale locales value = some tag) ∧ tag ∈ locales.SUPPORTED_LOCALES

theorem accepted_blank (clock : Time) (userId : ℕ) : Accepted locales clock (blank userId) := by
  constructor <;> exact fun _ h => nomatch h

theorem Accepted.mono {clock clock' : Time} {row : UserProfile} (h : Accepted locales clock row)
    (hclock : clock ≤ clock') : Accepted locales clock' row where
  phone := h.phone
  birthDate day hday := by
    obtain ⟨now, text, date, hnow, hrest⟩ := h.birthDate day hday
    exact ⟨now, text, date, Nat.le_trans hnow hclock, hrest⟩
  locale := h.locale

theorem phoneSchema_eq_ok {json : Json} {text : String} (h : phoneSchema json = .ok text) :
    isE164 text = true := by
  unfold phoneSchema at h
  split at h
  · dsimp only at h
    split at h
    · rename_i hvalid
      cases h
      exact hvalid
    · cases h
  · cases h

theorem localeSchema_eq_ok {json : Json} {tag : String}
    (h : localeSchema locales json = .ok tag) :
    (∃ value, canonicalLocale locales value = some tag) ∧ tag ∈ locales.SUPPORTED_LOCALES := by
  unfold localeSchema at h
  split at h
  · rename_i value
    split at h
    · rename_i found hfound
      cases h
      obtain ⟨htag, hsupported⟩ := Option.filter_eq_some_iff.mp hfound
      exact ⟨⟨value, htag⟩, by simpa using hsupported⟩
    · cases h
  · cases h

/-- What a request leaves are accepted values. -/
theorem Accepted.apply {clock : Time} {data : UserProfileUpdate} {row new : UserProfile}
    (h : Accepted locales clock row) (hnow : now ≤ clock)
    (hparse : parseProfileFields locales now body = .ok fields)
    (hcolumns : fields.columns = some data)
    (hnew : ReadCommitted.Change.apply data row = some new) : Accepted locales clock new := by
  cases hnew
  obtain ⟨hphone, -, hlocale, hbirthDate⟩ := columns_cases hcolumns
  obtain ⟨hsentPhone, -, -, hsentLocale⟩ := parse_eq_ok.mp hparse
  refine ⟨fun text htext => ?_, fun day hday => ?_, fun tag htag => ?_⟩
  · dsimp only at htext
    rw [hphone] at htext
    cases hsent : fields.phone with
    | none => exact h.phone text (by simpa [hsent] using htext)
    | some value =>
        have hvalue : value = some text := by simpa [hsent] using htext
        obtain ⟨json, -, hjson⟩ := clearable_set (hvalue ▸ hsent ▸ hsentPhone)
        exact phoneSchema_eq_ok hjson
  · dsimp only at hday
    rcases hbirthDate with ⟨-, hdata⟩ | ⟨-, hdata⟩ | ⟨text, date, hsent, hdate, hdata⟩
    · exact h.birthDate day (by simpa [hdata] using hday)
    · simp [hdata] at hday
    · have hday : dayNumber date = day := by simpa [hdata] using hday
      exact ⟨now, text, date, hnow, accepted_birthDate hparse hsent, hdate, hday.symm⟩
  · dsimp only at htag
    rw [hlocale] at htag
    cases hsent : fields.locale with
    | none => exact h.locale tag (by simpa [hsent] using htag)
    | some value =>
        have hvalue : value = some tag := by simpa [hsent] using htag
        obtain ⟨json, -, hjson⟩ := clearable_set (hvalue ▸ hsent ▸ hsentLocale)
        exact localeSchema_eq_ok hjson

/-- The body sends what was returned, or omits it. -/
structure Resubmits (response : ProfileResponse) (body : ProfileBody) : Prop where
  phone : body.phone = none ∨ body.phone = some (optionalString response.phone)
  birthDate : body.birthDate = none ∨ body.birthDate = some (optionalString response.birthDate)
  gender : body.gender = none ∨
    body.gender = some (optionalString (response.gender.map Gender.text))
  locale : body.locale = none ∨ body.locale = some (optionalString response.locale)

/-- A field that is omitted or sent again as it was returned keeps its value. -/
theorem clearable_again {schema : Json → Parsed α} {field : Option Json} {text : Option String}
    {value : Option α} (h : field = none ∨ field = some (optionalString text))
    (hset : ∀ t, text = some t → t ≠ "" ∧ ∃ v, schema (.str t) = .ok v ∧ value = some v)
    (hnone : text = none → value = none) :
    ∃ sent, clearable schema field = .ok sent ∧ sent.getD value = value := by
  rcases h with rfl | rfl
  · exact ⟨none, rfl, rfl⟩
  · cases text with
    | none => exact ⟨some none, rfl, (hnone rfl).symm⟩
    | some t =>
        obtain ⟨hne, v, hv, rfl⟩ := hset t rfl
        exact ⟨some (some v), clearable_str hne hv, rfl⟩

theorem isSeparator_of_isDigit {c : Char} (h : c.isDigit = true) : isSeparator c = false := by
  obtain ⟨hlow, hhigh⟩ := digit_bounds h
  have hne (d : Char) (hd : d.toNat < 48 ∨ 57 < d.toNat) : c ≠ d := by
    rintro rfl
    omega
  have hrange : ¬ '\u2000' ≤ c := fun hle => by
    have hnat : '\u2000'.toNat ≤ c.toNat := hle
    have hvalue : '\u2000'.toNat = 8192 := rfl
    omega
  simp only [isSeparator, isSpace, List.mem_cons, List.not_mem_nil, or_false, Bool.or_eq_false_iff,
    decide_eq_false_iff_not, not_or, hrange, decide_false, Bool.false_and, and_true]
  refine ⟨⟨?_, ?_, ?_, ?_, ?_, ?_, ?_, ?_, ?_, ?_, ?_, ?_, ?_, ?_⟩, ?_, ?_, ?_, ?_⟩ <;>
    exact hne _ (by decide)

/-- A number in international format has no separators. -/
theorem phoneSchema_again {text : String} (h : isE164 text = true) :
    phoneSchema (.str text) = .ok text ∧ text ≠ "" := by
  have hkept : text.toList.filter (fun c => !isSeparator c) = text.toList := by
    refine List.filter_eq_self.mpr fun c hc => ?_
    unfold isE164 at h
    split at h
    · rename_i d rest htext
      simp only [Bool.and_eq_true, List.all_eq_true] at h
      rw [htext] at hc
      rcases List.mem_cons.mp hc with rfl | hc
      · decide
      · rcases List.mem_cons.mp hc with rfl | hc
        · simp [isSeparator_of_isDigit h.1.1.1]
        · simp [isSeparator_of_isDigit (h.1.2 c hc)]
    · cases h
  constructor
  · simp [phoneSchema, hkept, h]
  · rintro rfl
    revert h
    decide

theorem genderSchema_text (gender : Gender) :
    genderSchema (.str gender.text) = .ok gender ∧ gender.text ≠ "" := by
  cases gender <;> exact ⟨rfl, by decide⟩

theorem canonicalLocale_again (hlocales : Canonical locales) {value tag : String}
    (h : canonicalLocale locales value = some tag) :
    canonicalLocale locales tag = some tag ∧ tag ≠ "" := by
  have hagain := hlocales.idempotent _ tag h
  constructor
  · rw [canonicalLocale, hlocales.trimmed _ tag h]
    exact hagain
  · rintro rfl
    rw [hlocales.nonempty] at hagain
    cases hagain

theorem localeSchema_again (hlocales : Canonical locales) {tag : String}
    (h : (∃ value, canonicalLocale locales value = some tag) ∧ tag ∈ locales.SUPPORTED_LOCALES) :
    localeSchema locales (.str tag) = .ok tag ∧ tag ≠ "" := by
  obtain ⟨⟨value, hvalue⟩, hsupported⟩ := h
  obtain ⟨hsame, hne⟩ := canonicalLocale_again hlocales hvalue
  have hfiltered : (some tag).filter (· ∈ locales.SUPPORTED_LOCALES) = some tag :=
    Option.filter_some_pos (by simpa using hsupported)
  exact ⟨by rw [localeSchema, hsame, hfiltered], hne⟩

/-- The text of an accepted day is accepted again, and is that day. -/
theorem birthDateSchema_again {clock : Time} {row : UserProfile} (h : Accepted locales clock row)
    (hlater : clock ≤ later) (hyear : later < YEAR_10000) {text : String}
    (htext : (respond row).birthDate = some text) :
    birthDateSchema later (.str text) = .ok text ∧ text ≠ "" ∧
      ∀ date, parseDate text = some date → row.birthDate = some (dayNumber date) := by
  obtain ⟨day, hday, hshown⟩ := Option.map_eq_some_iff.mp htext
  obtain ⟨now, sent, date, hnow, hissues, hdate, rfl⟩ := h.birthDate day hday
  obtain ⟨-, -, hfirst⟩ := birthDateIssues_eq_nil.mp hissues
  obtain rfl := (dateText_of_parse hdate hfirst).symm.trans hshown
  refine ⟨birthDateSchema_eq_ok.mpr ⟨rfl,
    birthDateIssues_later (Nat.le_trans hnow hlater) hyear hissues⟩, ?_, fun date' hdate' => ?_⟩
  · rintro rfl
    have hnone : parseDate "" = none := by decide
    rw [hnone] at hdate
    cases hdate
  · obtain rfl := Option.some.inj (hdate.symm.trans hdate')
    exact hday

/-- A returned value is accepted as long as years have four digits, and changes nothing. -/
theorem accepted_again {clock : Time} {row : UserProfile} (hlocales : Canonical locales)
    (h : Accepted locales clock row) (hbody : Resubmits (respond row) body)
    (hlater : clock ≤ later) (hyear : later < YEAR_10000) :
    ∃ fields data, parseProfileFields locales later body = .ok fields ∧
      fields.columns = some data ∧ ReadCommitted.Change.apply data row = some row := by
  obtain ⟨phone, hphone, hkeepsPhone⟩ : ∃ sent, clearable phoneSchema body.phone = .ok sent ∧
      sent.getD row.phone = row.phone := by
    refine clearable_again hbody.phone (fun text htext => ?_) id
    obtain ⟨hsame, hne⟩ := phoneSchema_again (h.phone text htext)
    exact ⟨hne, text, hsame, htext⟩
  obtain ⟨birthDate, hbirthDate, hkeepsBirthDate⟩ : ∃ sent,
      clearable (birthDateSchema later) body.birthDate = .ok sent ∧
        sent.getD (respond row).birthDate = (respond row).birthDate := by
    refine clearable_again hbody.birthDate (fun text htext => ?_) id
    obtain ⟨hsame, hne, -⟩ := birthDateSchema_again h hlater hyear htext
    exact ⟨hne, text, hsame, htext⟩
  obtain ⟨gender, hgender, hkeepsGender⟩ : ∃ sent, clearable genderSchema body.gender = .ok sent ∧
      sent.getD row.gender = row.gender := by
    refine clearable_again hbody.gender (fun text htext => ?_) fun hnone => by
      simpa [respond] using hnone
    obtain ⟨gender, hrow, rfl⟩ := Option.map_eq_some_iff.mp htext
    obtain ⟨hsame, hne⟩ := genderSchema_text gender
    exact ⟨hne, gender, hsame, hrow⟩
  obtain ⟨locale, hlocale, hkeepsLocale⟩ : ∃ sent,
      clearable (localeSchema locales) body.locale = .ok sent ∧
        sent.getD row.locale = row.locale := by
    refine clearable_again hbody.locale (fun tag htag => ?_) id
    obtain ⟨hsame, hne⟩ := localeSchema_again hlocales (h.locale tag htag)
    exact ⟨hne, tag, hsame, htag⟩
  have hparse : parseProfileFields locales later body =
      .ok { phone, birthDate, gender, locale } :=
    parse_eq_ok.mpr ⟨hphone, hbirthDate, hgender, hlocale⟩
  obtain ⟨data, hdata⟩ := columns_of_parse hparse
  obtain ⟨hdataPhone, hdataGender, hdataLocale, hdataBirthDate⟩ := columns_cases hdata
  have hkeepsDay : data.birthDate.getD row.birthDate = row.birthDate := by
    rcases hdataBirthDate with ⟨-, hday⟩ | ⟨hcleared, hday⟩ | ⟨text, date, hset, hdate, hday⟩
    · rw [hday]
      rfl
    · dsimp only at hcleared
      rw [hcleared] at hkeepsBirthDate
      have hnone : none = row.birthDate.map dateText := hkeepsBirthDate
      rw [hday, Option.map_eq_none_iff.mp hnone.symm]
      rfl
    · dsimp only at hset
      rw [hset] at hkeepsBirthDate
      obtain ⟨-, -, hsame⟩ := birthDateSchema_again h hlater hyear hkeepsBirthDate.symm
      rw [hday, hsame date hdate]
      rfl
  refine ⟨_, data, hparse, hdata, ?_⟩
  have hrow : ReadCommitted.Change.apply data row =
      some { row with
        phone := data.phone.getD row.phone, birthDate := data.birthDate.getD row.birthDate
        gender := data.gender.getD row.gender, locale := data.locale.getD row.locale } := rfl
  rw [hrow, hdataPhone, hdataGender, hdataLocale, hkeepsDay, hkeepsPhone, hkeepsGender,
    hkeepsLocale]

end ExpressCore.Fields
