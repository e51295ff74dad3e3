import ExpressCore.Verification.EmailTemplate.Agreement
import ExpressCore.Verification.System.Sights
import ExpressCore.Verification.System.Start

/-! # Concurrent edits of email templates -/

namespace ExpressCore.Edits

open ReadCommitted Interleaving Interleaving.Program Rendering

variable {setup : Setup} {t : ℕ} {s s' s₀ : State}

/-! ## Rows -/

/-- The row passes the check of its key. -/
def Sendable (row : EmailTemplate) : Prop :=
  ∃ definition, templateDefinition row.key = some definition ∧
    templateProblems definition row.subject row.body = []

/-- The texts that are given pass the part of the check that is about them. -/
def Checked (key : String) (subject body : Option String) : Prop :=
  ∀ definition, templateDefinition key = some definition →
    (∀ text, subject = some text → ∀ name ∈ placeholdersIn text, name ∈ allowedNames definition) ∧
      ∀ text, body = some text → (∀ name ∈ placeholdersIn text, name ∈ allowedNames definition) ∧
        ∀ name ∈ definition.required, name ∈ placeholdersIn text

/-- What is checked is the row with the given texts put in; each text is fine by itself. -/
theorem checked_of_merged {definition : TemplateDefinition} {row : EmailTemplate}
    {subject body : Option String} (hkey : templateDefinition row.key = some definition)
    (h : templateProblems definition (subject.getD row.subject) (body.getD row.body) = []) :
    Checked row.key subject body := by
  intro other hother
  obtain rfl := Option.some.inj (hkey.symm.trans hother)
  obtain ⟨hsubject, hbody, hrequired⟩ := templateProblems_eq_nil.mp h
  constructor
  · rintro text rfl
    exact hsubject
  · rintro text rfl
    exact ⟨hbody, hrequired⟩

/-- A text of a row may be replaced by one that is fine by itself. -/
theorem Sendable.update {row new : EmailTemplate} {title subject body : Option String}
    {isActive : Option Bool} (h : Sendable row) (hchecked : Checked row.key subject body)
    (hnew : Change.apply (EmailTemplateChange.update title subject body isActive) row = some new) :
    Sendable new := by
  obtain ⟨definition, hkey, hproblems⟩ := h
  obtain ⟨hsubject, hbody, hrequired⟩ := templateProblems_eq_nil.mp hproblems
  obtain ⟨hsubject', hbody'⟩ := hchecked definition hkey
  cases hnew
  refine ⟨definition, hkey, templateProblems_eq_nil.mpr ⟨?_, ?_, ?_⟩⟩
  · cases subject with
    | none => exact hsubject
    | some text => exact hsubject' text rfl
  · cases body with
    | none => exact hbody
    | some text => exact (hbody' text rfl).1
  · cases body with
    | none => exact hrequired
    | some text => exact (hbody' text rfl).2

/-! ## Discipline -/

/-- Templates are only updated, with texts that were checked. -/
def editing : Discipline where
  tables k := k = .emailTemplates
  change _ k a _ :=
    match k, a with
    | .emailTemplates, .visit _ (.key key) (.update _ subject body _) => Checked key subject body
    | .emailTemplates, _ => False
    | _, _ => True
  commit _ _ := True
  other _ _ _ := True
  commit_free _ _ _ := trivial

theorem lets_other {r : Request} (h : r.table? ≠ some .emailTemplates) : editing.Lets t r :=
  Discipline.lets_skips (fun _ => trivial) (fun _ _ => trivial) fun _ hk =>
    Request.skips_of_table (hk ▸ h)

theorem lets_update {key : String} {i : ℕ} {title subject body : Option String}
    {isActive : Option Bool} (h : Checked key subject body) :
    editing.Lets t (.sql (.emailTemplates (.visit i (.key key)
      (.update title subject body isActive)))) :=
  Discipline.lets_access (k := .emailTemplates) fun _ _ _ => h

/-! ## The call -/

structure Edit where
  key : String
  data : UpdateEmailTemplateInput
  updatedBy : Option ℕ

def Edit.program (edit : Edit) : Service TemplateResponse :=
  updateEmailTemplate edit.key edit.data edit.updatedBy

abbrev rules (setup : Setup) : Rules ℕ State := keeping setup False .any editing

theorem findTemplate_meets (key : String) :
    (rules setup).Meets (system setup) .any t
      (fun found _ => templateDefinition found.2.key = some found.1) (fun _ _ => True)
      (findTemplate key) fun _ => True := by
  unfold findTemplate
  cases hkey : templateDefinition key with
  | none => exact .throw (.const True) .refl
  | some definition =>
      refine .bind (meets_find (k := .emailTemplates)
        (fun found _ => ∀ x, found = some x → x.2.key = key) (fun _ _ _ h => nomatch h)
        fun view i row _ hholds x hx => ?_) fun found => ?_
      · obtain rfl := Option.some.inj hx
        simpa [Condition.holds] using hholds
      · cases found with
        | none => exact .throw (.const True) fun _ _ _ => trivial
        | some x =>
            refine .pure (.const _) fun s _ h => ?_
            rw [h x rfl, hkey]

theorem update_lets {row : EmailTemplate} {data : UpdateEmailTemplateInput}
    (updatedBy : Option ℕ) (h : Checked row.key data.subject data.body) :
    (transaction do
      let updated ← changeOne emailTemplates .tx (.key row.key)
        (.update data.title data.subject data.body data.isActive)
      logActivity updatedBy "UPDATE" "EmailTemplate" (some updated.1)
        ("Email template updated: " ++ updated.2.key) (some (templateJson row))
        (some (templateJson updated.2)) .tx
      pure updated.2 : Service EmailTemplate).Uses (editing.Lets t) :=
  uses_transaction (lets_other nofun) (lets_other nofun) (lets_other nofun)
    (.bind (uses_changeSingle (uses_send.mpr (Discipline.lets_read (k := .emailTemplates)
      (a := .scan _) not_false)) (fun _ => uses_send.mpr (lets_update h)) (lets_other nofun))
      fun _ => .bind (uses_send.mpr (lets_other nofun)) fun _ => trivial)

theorem program_meets (edit : Edit) :
    (rules setup).Meets (system setup) .any t (fun _ _ => True) (fun _ _ => True) edit.program
      fun _ => True := by
  unfold Edit.program updateEmailTemplate
  refine .bind (findTemplate_meets edit.key) fun found => ?_
  refine Rules.Meets.under (fun _ => templateDefinition found.2.key = some found.1 ∧ True)
    (.assume fun hkey => ?_) fun _ _ h => ⟨h, trivial⟩
  dsimp only
  split
  · exact .throw (.const True) .refl
  · rename_i hnone
    have hproblems : templateProblems found.1 (edit.data.subject.getD found.2.subject)
        (edit.data.body.getD found.2.body) = [] := by
      simpa using hnone
    exact .bind (meets_lets (update_lets edit.updatedBy (checked_of_merged hkey hproblems)))
      fun _ => .pure (.const True) .refl

/-! ## Runs -/

/-- Every version of a row is sendable, committed or not. -/
def AllSendable (s : State) : Prop :=
  ∀ i row, s.db.emailTemplates.Version i row → Sendable row

theorem AllSendable.step (h : AllSendable s) (hevent : Event setup .any editing s s') :
    AllSendable s' := by
  have hon := hevent.on .emailTemplates
  intro i row hrow
  cases hon with
  | same hcommitted hpending _ _ =>
      refine h i row (hrow.imp (fun hr => ?_) fun ⟨u, hr⟩ => ⟨u, ?_⟩)
      · exact (congrFun hcommitted i).symm.trans hr
      · exact (congrFun hpending i).symm.trans hr
  | write u a j v hchange _ hwrote htable =>
      have hrow : ((TableName.emailTemplates.table s.db).write u j v).Version i row :=
        htable ▸ hrow
      rcases version_of_write hrow with hold | ⟨-, hv⟩
      · exact h i row hold
      · have hguard := hchange rfl
        cases hwrote with
        | visit _ w c old _ hview hholds =>
            obtain ⟨key⟩ := w
            obtain ⟨title, subject, body, isActive⟩ := c
            have hold : old.key = key := by simpa [Condition.holds] using hholds
            subst hold
            exact (h j old (version_of_view hview)).update hguard hv
        | _ => exact hguard.elim
  | commit u _ htable =>
      have hrow : ((TableName.emailTemplates.table s.db).commit u).Version i row := htable ▸ hrow
      exact h i row (version_of_commit hrow)
  | abort u htable =>
      have hrow : ((TableName.emailTemplates.table s.db).abort u).Version i row := htable ▸ hrow
      exact h i row (version_of_abort hrow)

/-- Stored templates are sendable after any interleaving of edits. -/
theorem templates_stay_sendable {edits : ℕ → Edit}
    {c : Config ℕ Error Request Request.Reply State TemplateResponse} (hstart : s₀.AtRest)
    (h : ∀ i row, s₀.db.emailTemplates.committed i = some row → Sendable row)
    (hrun : (system setup).Reaches .any (calling (fun t => (edits t).program) s₀) c) :
    ∀ i row, c.shared.db.emailTemplates.committed i = some row → Sendable row := by
  have hsound : (rules setup).Sound (system setup) .any (fun _ _ _ => True) (fun _ _ _ => True)
      (calling (fun t => (edits t).program) s₀) :=
    hstart.sound (fun _ _ => True) (fun _ => trivial) fun t =>
      Rules.Meets.under (fun _ => True) (program_meets (edits t)) fun _ _ _ => trivial
  have hinit : AllSendable s₀ := by
    rintro i row (hrow | ⟨u, hrow⟩)
    · exact h i row hrow
    · have hpending := (hstart.tables .emailTemplates).pending i
      have hrow : (TableName.emailTemplates.table s₀.db).pending i = some (u, some row) := hrow
      rw [hpending] at hrow
      cases hrow
  exact fun i row hrow => keeping_induction nofun (fun _ _ _ => trivial) hsound hrun hinit
    (fun _ _ _ _ hP hevent => hP.step hevent) i row (.inl hrow)

/-! ## Two edits at a time -/

def seeded : State :=
  { plainState .empty with
    db := { (plainState .empty).db with
      emailTemplates := oneRow 1
        { key := "email-verified", title := "Notice", subject := "Done", body := "Hello"
          isActive := true } } }

theorem seeded_atRest : seeded.AtRest where
  tables k := by
    cases k with
    | emailTemplates => exact oneRow_atRest 1 _
    | _ => exact Table.empty_atRest
  poisoned _ := rfl
  seen := rfl
  minted := rfl
  families := rfl
  comparisons := rfl
  tickets := rfl

theorem seeded_sendable (i : ℕ) (row : EmailTemplate)
    (h : seeded.db.emailTemplates.committed i = some row) : Sendable row := by
  by_cases hi : i = 1
  · subst hi
    cases h
    exact ⟨_, rfl, by decide +kernel⟩
  · have hnone : seeded.db.emailTemplates.committed i = none := by
      simp [seeded, oneRow, Function.update_of_ne hi]
    rw [hnone] at h
    cases h

/-- The first edit is about the subject, the others are about the body. -/
def partly (t : ℕ) : Edit where
  key := "email-verified"
  data :=
    { title := none, subject := if t = 1 then some "\x7b\x7bname\x7d\x7d" else none
      body := if t = 1 then none else some "\x7b\x7b app_name \x7d\x7d", isActive := none }
  updatedBy := none

/-- Both have read the row before one of them writes it. -/
def mixed : Config ℕ Error Request Request.Reply State TemplateResponse :=
  (system plainSetup).after (calling (fun t => (partly t).program) seeded)
    ([.run 1 {}, .run 2 {}] ++
      List.replicate 6 (.run 1 {}) ++ List.replicate 6 (.run 2 { fresh := 1 }))

theorem templates_stay_sendable_mixed :
    (∀ i row, mixed.shared.db.emailTemplates.committed i = some row → Sendable row) ∧
      (mixed.shared.db.emailTemplates.committed 1).map (fun row => (row.subject, row.body)) =
        some ("\x7b\x7bname\x7d\x7d", "\x7b\x7b app_name \x7d\x7d") :=
  ⟨templates_stay_sendable seeded_atRest seeded_sendable
    (.of_schedule (fun l _ _ _ => Machine.keeps_any l) (by decide +kernel)), by decide +kernel⟩

end ExpressCore.Edits
