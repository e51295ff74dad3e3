import ExpressCore.Verification.EmailTemplate.Rendering

/-! # The editor's check and the renderer -/

namespace ExpressCore.Rendering

open Pattern

/-! ## Placeholders that the editor sees -/

theorem placeholderAt_eq_some {cs rest : List Char} {name : String} :
    placeholderAt cs = some (name, rest) ↔
      ∃ text, cs = text ++ rest ∧ Fits PLACEHOLDER text name.toList := by
  constructor
  · intro h
    unfold placeholderAt at h
    split at h
    · rename_i inner
      dsimp only at h
      split at h
      · rename_i rest' hclosed
        split at h
        · cases h
        · rename_i hne
          cases h
          refine ⟨'\x7b' :: '\x7b' :: (inner.takeWhile isSpace ++
            ((inner.dropWhile isSpace).takeWhile isWord ++
              (((inner.dropWhile isSpace).dropWhile isWord).takeWhile isSpace ++
                ['\x7d', '\x7d']))), ?_, ?_⟩
          · have hinner : inner.takeWhile isSpace ++ ((inner.dropWhile isSpace).takeWhile isWord ++
                (((inner.dropWhile isSpace).dropWhile isWord).takeWhile isSpace ++
                  '\x7d' :: '\x7d' :: rest)) = inner := by
              rw [← hclosed, List.takeWhile_append_dropWhile, List.takeWhile_append_dropWhile,
                List.takeWhile_append_dropWhile]
            simp [hinner]
          · rw [String.toList_ofList]
            exact fits_placeholder.mpr ⟨_, _, rfl, fun c hc => List.mem_takeWhile_imp hc,
              fun c hc => List.mem_takeWhile_imp hc, hne, fun c hc => List.mem_takeWhile_imp hc⟩
      · cases h
    · cases h
  · rintro ⟨text, rfl, hfits⟩
    obtain ⟨before, after, rfl, hbefore, hname, hne, hafter⟩ := fits_placeholder.mp hfits
    have hread := readName_eq ('\x7d' :: rest) hbefore hname hne hafter
    injection hread with hword hclosed
    have hinner : before ++ (name.toList ++ (after ++ ['\x7d', '\x7d'])) ++ rest =
        before ++ (name.toList ++ (after ++ '\x7d' :: '\x7d' :: rest)) := by simp
    simp only [List.cons_append, hinner, placeholderAt, hword, hclosed, if_neg hne,
      String.ofList_toList]

theorem placeholderAt_eq_map (cs : List Char) :
    placeholderAt cs = (matchAt PLACEHOLDER cs).map fun found =>
      (String.ofList found.group, found.rest) := by
  cases hfound : matchAt PLACEHOLDER cs with
  | none =>
      cases hat : placeholderAt cs with
      | none => rfl
      | some result =>
          obtain ⟨text, heq, hfits⟩ := placeholderAt_eq_some.mp hat
          exact (matchAt_eq_none_iff.mp hfound _ _ _ heq hfits).elim
  | some found =>
      obtain ⟨heq, hfits⟩ := fits_of_matchAt hfound
      exact placeholderAt_eq_some.mpr ⟨found.text, heq, by rwa [String.toList_ofList]⟩

/-- `substitute` recognises a placeholder with this name. -/
def Occurs (text name : String) : Prop :=
  ∃ found, .found found name.toList ∈ pieces PLACEHOLDER text.toList

theorem mem_placeholdersFrom {n : ℕ} {cs : List Char} {name : String} :
    name ∈ placeholdersFrom n cs ↔
      ∃ found, .found found name.toList ∈ piecesFrom PLACEHOLDER n cs := by
  induction n generalizing cs with
  | zero => simp [placeholdersFrom, piecesFrom]
  | succ n ih =>
      cases cs with
      | nil => simp [placeholdersFrom, piecesFrom]
      | cons c rest =>
          have hat := placeholderAt_eq_map (c :: rest)
          cases hfound : matchAt PLACEHOLDER (c :: rest) with
          | none =>
              rw [hfound] at hat
              simp only [placeholdersFrom, piecesFrom, hfound, hat, Option.map_none, ih,
                List.mem_cons, reduceCtorEq, false_or]
          | some found =>
              rw [hfound] at hat
              simp only [placeholdersFrom, piecesFrom, hfound, hat, Option.map_some, ih,
                List.mem_cons, Piece.found.injEq, exists_or, exists_eq_left]
              refine or_congr_left ?_
              rw [← String.toList_inj, String.toList_ofList]

theorem mem_placeholdersIn {text name : String} :
    name ∈ placeholdersIn text ↔ Occurs text name := by
  rw [placeholdersIn, List.mem_eraseDups, mem_placeholdersFrom, Occurs, pieces,
    String.length_toList]

/-! ## Problems -/

variable {definition : TemplateDefinition} {subject body : String}

def allowedNames (definition : TemplateDefinition) : List String :=
  (definition.templateVariables ++ GLOBAL_TEMPLATE_VARIABLES).map (·.name)

/-- The checks look at one field each. -/
theorem templateProblems_eq_nil : templateProblems definition subject body = [] ↔
    (∀ name ∈ placeholdersIn subject, name ∈ allowedNames definition) ∧
      (∀ name ∈ placeholdersIn body, name ∈ allowedNames definition) ∧
        ∀ name ∈ definition.required, name ∈ placeholdersIn body := by
  have hnone {names : List String} {good : String → Bool} {message : String → String × String} :
      (names.filter fun name => !good name).map message = [] ↔
        ∀ name ∈ names, good name = true := by
    simp [List.filter_eq_nil_iff]
  simp only [templateProblems, List.append_eq_nil_iff, hnone, and_assoc, List.contains_iff_mem]
  rfl

/-! ## Variables that are supplied -/

/-- What the senders pass on. -/
inductive Sends (env : MailSettings) : TemplateSending → Prop where
  | verification (data : LinkEmailData) : Sends env (sendVerificationEmail env data)
  | resetPassword (data : LinkEmailData) : Sends env (sendResetPasswordEmail env data)
  | verified (name : String) : Sends env (sendVerificationSuccessEmail name)
  | otp (data : OtpEmailData) : Sends env (sendOtpEmail data)

variable {env : MailSettings} {sending : TemplateSending} {key : String}

/-- The catalogue lists the variables that the senders and the renderer supply. -/
theorem Sends.names (h : Sends env sending)
    (hkey : templateDefinition sending.key = some definition) :
    (withGlobals env sending.templateVariables).map Prod.fst = allowedNames definition := by
  cases h <;>
  · cases hkey
    rfl

theorem exists_sends (hkey : templateDefinition key = some definition) :
    ∃ sending, Sends env sending ∧ sending.key = key := by
  obtain ⟨entry, hfound, -⟩ := Option.map_eq_some_iff.mp hkey
  have heq : entry.1 = key := by simpa using List.find?_some hfound
  have hmem : entry.1 ∈ EMAIL_TEMPLATE_CATALOG.map Prod.fst :=
    List.mem_map_of_mem (List.mem_of_find?_eq_some hfound)
  rw [heq] at hmem
  have hkeys : EMAIL_TEMPLATE_CATALOG.map Prod.fst =
      ["verify-email", "email-verified", "reset-password", "registration-code"] := rfl
  simp only [hkeys, List.mem_cons, List.not_mem_nil, or_false] at hmem
  rcases hmem with rfl | rfl | rfl | rfl
  · exact ⟨_, .verification { name := "", link := "" }, rfl⟩
  · exact ⟨_, .verified "", rfl⟩
  · exact ⟨_, .resetPassword { name := "", link := "" }, rfl⟩
  · exact ⟨_, .otp { code := "", expiresMinutes := 0 }, rfl⟩

theorem get?_isSome {vars : TemplateVariables ℕ} {name : String} :
    (vars.get? name).isSome ↔ name ∈ vars.map Prod.fst := by
  simp [TemplateVariables.get?, List.find?_isSome]

theorem Sends.supplied (h : Sends env sending)
    (hkey : templateDefinition sending.key = some definition)
    {name : String} : ((withGlobals env sending.templateVariables).get? name).isSome ↔
      name ∈ allowedNames definition := by
  rw [get?_isSome, h.names hkey]

/-! ## The built-in texts -/

theorem toList_append_of {a b : String} {as bs : List Char} (ha : a.toList = as)
    (hb : b.toList = bs) : (a ++ b).toList = as ++ bs := by
  rw [String.toList_append, ha, hb]

theorem toList_line {line : String} {cs : List Char} (h : line.toList = cs) :
    (joinLines [line]).toList = cs := by
  rw [joinLines, String.intercalate_singleton, h]

theorem toList_lines {line next : String} {lines : List String} {cs ds : List Char}
    (h : line.toList = cs) (hlines : (joinLines (next :: lines)).toList = ds) :
    (joinLines (line :: next :: lines)).toList = cs ++ ('\n' :: ds) := by
  rw [joinLines, String.intercalate_cons_cons, String.toList_append, String.toList_append, h,
    List.append_assoc]
  exact congrArg (cs ++ '\n' :: ·) hlines

/-- The check on the characters of the texts, which are read off the literals beforehand:
evaluating `toList` on a long text takes too long. -/
theorem noProblems_of_toList {title subject body : String} {vars : List TemplateVariable}
    {required : List String} {cs ds : List Char} (hsubject : subject.toList = cs)
    (hbody : body.toList = ds)
    (h : (∀ name ∈ placeholdersFrom cs.length cs,
        name ∈ (vars ++ GLOBAL_TEMPLATE_VARIABLES).map (·.name)) ∧
      (∀ name ∈ placeholdersFrom ds.length ds,
        name ∈ (vars ++ GLOBAL_TEMPLATE_VARIABLES).map (·.name)) ∧
      ∀ name ∈ required, name ∈ placeholdersFrom ds.length ds) :
    templateProblems { title, subject, body, templateVariables := vars, required } subject body =
      [] := by
  have hnames {text : String} {xs : List Char} (htext : text.toList = xs) (name : String) :
      name ∈ placeholdersIn text ↔ name ∈ placeholdersFrom xs.length xs := by
    rw [placeholdersIn, List.mem_eraseDups, ← String.length_toList, htext]
  simp only [templateProblems_eq_nil, hnames hsubject, hnames hbody]
  exact h

theorem catalog_problems : ∀ entry ∈ EMAIL_TEMPLATE_CATALOG,
    templateProblems entry.2 entry.2.subject entry.2.body = [] := by
  have hbutton : BUTTON.toList = _ := toList_append_of String.toList_ofList String.toList_ofList
  have hgreeting : GREETING.toList = _ := String.toList_ofList
  have htext : TEXT.toList = _ := String.toList_ofList
  have hnote : NOTE.toList = _ := String.toList_ofList
  rw [EMAIL_TEMPLATE_CATALOG]
  refine List.forall_mem_cons.mpr ⟨?_, List.forall_mem_cons.mpr ⟨?_,
    List.forall_mem_cons.mpr ⟨?_, List.forall_mem_cons.mpr ⟨?_, List.forall_mem_nil _⟩⟩⟩⟩
  all_goals
    apply noProblems_of_toList
    case hsubject => exact String.toList_ofList
    case hbody =>
      with_reducible
        repeat' first
        | apply toList_lines
        | apply toList_line
        | apply toList_append_of
        | exact hbutton
        | exact hgreeting
        | exact htext
        | exact hnote
        | exact String.toList_ofList
    case h => decide +kernel

theorem builtin_problems (hkey : templateDefinition key = some definition) :
    templateProblems definition definition.subject definition.body = [] := by
  obtain ⟨entry, hfound, rfl⟩ := Option.map_eq_some_iff.mp hkey
  exact catalog_problems entry (List.mem_of_find?_eq_some hfound)

/-! ## The claim about the check -/

/-- A template in which every placeholder is replaced. -/
def expanded (value : String → String) : Piece Char → List Char
  | .plain c => [c]
  | .found _ name => (value (String.ofList name)).toList

/-- Sent with these variables, no placeholder of the text is left over. -/
def Complete (text : String) (vars : TemplateVariables ℕ) : Prop :=
  ∀ name, Occurs text name → (vars.get? name).isSome

def valueOf (vars : TemplateVariables ℕ) (name : String) : String :=
  ((vars.get? name).map TemplateValue.text).getD ""

theorem substitute_complete {text : String} {vars : TemplateVariables ℕ} (h : Complete text vars)
    (encode : String → String) : substitute text vars encode =
      String.ofList ((pieces PLACEHOLDER text.toList).flatMap
        (expanded fun name => encode (valueOf vars name))) := by
  rw [substitute_eq]
  refine congrArg String.ofList (List.flatMap_congr fun piece hpiece => ?_)
  cases piece with
  | plain c => rfl
  | found raw name =>
      have hoccurs : Occurs text (String.ofList name) := ⟨raw, by rwa [String.toList_ofList]⟩
      obtain ⟨v, hv⟩ := Option.isSome_iff_exists.mp (h _ hoccurs)
      simp [filled, expanded, valueOf, hv]

theorem complete_iff (h : Sends env sending)
    (hkey : templateDefinition sending.key = some definition)
    {text : String} : Complete text (withGlobals env sending.templateVariables) ↔
      ∀ name ∈ placeholdersIn text, name ∈ allowedNames definition := by
  simp only [Complete, mem_placeholdersIn, h.supplied hkey]

theorem infix_expanded {text name : String} (h : Occurs text name) (value : String → String) :
    (value name).toList <:+: (pieces PLACEHOLDER text.toList).flatMap (expanded value) := by
  obtain ⟨raw, hfound⟩ := h
  obtain ⟨before, after, heq⟩ := List.append_of_mem hfound
  refine ⟨before.flatMap (expanded value), after.flatMap (expanded value), ?_⟩
  rw [heq, List.flatMap_append, List.flatMap_cons, expanded, String.ofList_toList,
    List.append_assoc]

/-- A saved text passes the check, and so does the built-in one. -/
theorem source_problems (hkey : templateDefinition key = some definition)
    {row : Option EmailTemplate}
    (hrow : ∀ r ∈ row, templateProblems definition r.subject r.body = []) :
    templateProblems definition (templateSource definition row).subject
      (templateSource definition row).body = [] := by
  cases hfilter : row.filter (·.isActive) with
  | none =>
      simp only [templateSource, hfilter]
      exact builtin_problems hkey
  | some r =>
      simp only [templateSource, hfilter]
      exact hrow r (Option.filter_eq_some_iff.mp hfilter).1

/-- The check passes exactly the texts whose placeholders are all supplied and whose body has the
required ones; and what is sent is the text with every placeholder replaced. -/
theorem check_agrees (env : MailSettings) (hkey : templateDefinition key = some definition) :
    (∀ subject body, templateProblems definition subject body = [] ↔
      (∀ sending, Sends env sending → sending.key = key →
        Complete subject (withGlobals env sending.templateVariables) ∧
          Complete body (withGlobals env sending.templateVariables)) ∧
      ∀ name ∈ definition.required, Occurs body name) ∧
    ∀ sending, Sends env sending → sending.key = key → ∀ row : Option EmailTemplate,
      (∀ r ∈ row, templateProblems definition r.subject r.body = []) →
      ∃ value : String → String,
        (∀ name, Occurs (templateSource definition row).subject name ∨
            Occurs (templateSource definition row).body name →
          ∃ v, (withGlobals env sending.templateVariables).get? name = some v ∧
            value name = v.text) ∧
        (render env definition row sending.templateVariables).subject =
          oneLine (String.ofList ((pieces PLACEHOLDER
            (templateSource definition row).subject.toList).flatMap (expanded value))) ∧
        ∃ content : List Char, content = (pieces PLACEHOLDER
            (templateSource definition row).body.toList).flatMap
              (expanded fun name => escapeHtml (value name)) ∧
          (render env definition row sending.templateVariables).html =
            baseTemplate env.APP_NAME (String.ofList content) ∧
          ∀ name ∈ definition.required, Occurs (templateSource definition row).body name ∧
            (escapeHtml (value name)).toList <:+: content := by
  constructor
  · intro subject body
    rw [templateProblems_eq_nil]
    constructor
    · rintro ⟨hsubject, hbody, hrequired⟩
      refine ⟨fun sending hsends heq => ?_, fun name hname =>
        mem_placeholdersIn.mp (hrequired name hname)⟩
      have hkey' : templateDefinition sending.key = some definition := by rw [heq, hkey]
      exact ⟨(complete_iff hsends hkey').mpr hsubject, (complete_iff hsends hkey').mpr hbody⟩
    · rintro ⟨hcomplete, hrequired⟩
      obtain ⟨sending, hsends, heq⟩ : ∃ sending, Sends env sending ∧ sending.key = key :=
        exists_sends hkey
      have hkey' : templateDefinition sending.key = some definition := by rw [heq, hkey]
      obtain ⟨hsubject, hbody⟩ := hcomplete sending hsends heq
      exact ⟨(complete_iff hsends hkey').mp hsubject, (complete_iff hsends hkey').mp hbody,
        fun name hname => mem_placeholdersIn.mpr (hrequired name hname)⟩
  · intro sending hsends heq row hrow
    have hkey' : templateDefinition sending.key = some definition := by rw [heq, hkey]
    obtain ⟨hsubject, hbody, hrequired⟩ :=
      templateProblems_eq_nil.mp (source_problems hkey hrow)
    have hcomplete := (complete_iff hsends hkey').mpr hsubject
    have hcomplete' := (complete_iff hsends hkey').mpr hbody
    refine ⟨valueOf (withGlobals env sending.templateVariables), fun name hoccurs => ?_,
      congrArg oneLine (substitute_complete hcomplete id), _, rfl,
      congrArg (baseTemplate env.APP_NAME) (substitute_complete hcomplete' escapeHtml),
      fun name hname => ?_⟩
    · obtain ⟨v, hv⟩ := Option.isSome_iff_exists.mp
        (hoccurs.elim (hcomplete name) (hcomplete' name))
      exact ⟨v, hv, by simp [valueOf, hv]⟩
    · have hoccurs := mem_placeholdersIn.mp (hrequired name hname)
      exact ⟨hoccurs, infix_expanded hoccurs fun name =>
        escapeHtml (valueOf (withGlobals env sending.templateVariables) name)⟩

def plainMail : MailSettings where
  APP_NAME := "App"
  EMAIL_VERIFICATION_EXPIRES_HOURS := 24
  PASSWORD_RESET_EXPIRES_MINUTES := 60

/-- The built-in registration email shows the code. -/
theorem check_agrees_code : ∃ definition, templateDefinition "registration-code" = some definition ∧
    ∃ content : List Char,
      (render plainMail definition none
        (sendOtpEmail { code := "123456", expiresMinutes := 5 }).templateVariables).html =
          baseTemplate "App" (String.ofList content) ∧ "123456".toList <:+: content := by
  have hneeds : (templateDefinition "registration-code").map (·.required) = some ["code"] := rfl
  obtain ⟨definition, hkey, hcodes⟩ := Option.map_eq_some_iff.mp hneeds
  refine ⟨definition, hkey, ?_⟩
  obtain ⟨value, hvalue, -, content, -, hhtml, hrequired⟩ := (check_agrees plainMail hkey).2
    (sendOtpEmail { code := "123456", expiresMinutes := 5 }) (.otp _) rfl none (by simp)
  obtain ⟨hoccurs, hinfix⟩ := hrequired "code" (by simp [hcodes])
  obtain ⟨v, hv, hcode⟩ := hvalue "code" (.inr hoccurs)
  cases hv
  rw [hcode] at hinfix
  have hescaped : escapeHtml (TemplateValue.text (.string "123456" : TemplateValue ℕ)) =
      "123456" := by
    decide
  rw [hescaped] at hinfix
  exact ⟨content, hhtml, hinfix⟩

end ExpressCore.Rendering
