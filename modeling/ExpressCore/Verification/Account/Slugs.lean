import ExpressCore.Verification.Account.Requests
import ExpressCore.Verification.System.Calls

/-! # Slugs of active users and roles

No index keeps them apart: each call looks for a free slug and writes it some statements
later. -/

namespace ExpressCore.Slugs

open ReadCommitted Interleaving Interleaving.Program

/-- The calls that write users and roles. -/
inductive Call where
  | register (userData : RegisterInput)
  | createUser (data : CreateUserInput) (createdBy : Option ℕ)
  | updateUser (slug : String) (data : UpdateUserInput) (updatedBy : Option ℕ)
  | updateProfile (userId : ℕ) (data : UpdateProfileInput)
  | deleteUser (slug : String) (deletedBy : Option ℕ)
  | createRole (data : CreateRoleInput) (createdBy : Option ℕ)
  | updateRole (slug : String) (data : UpdateRoleInput) (updatedBy : Option ℕ)
  | deleteRole (slug : String) (deletedBy : Option ℕ)

def Call.program (setup : Setup) : Call → Service Unit
  | .register userData => do
      let _ ← ExpressCore.register setup userData
      pure ()
  | .createUser data createdBy => do
      let _ ← ExpressCore.createUser setup data createdBy
      pure ()
  | .updateUser slug data updatedBy => do
      let _ ← ExpressCore.updateUser setup slug data updatedBy
      pure ()
  | .updateProfile userId data => do
      let _ ← ExpressCore.updateProfile setup userId data
      pure ()
  | .deleteUser slug deletedBy => ExpressCore.deleteUser slug deletedBy
  | .createRole data createdBy => do
      let _ ← ExpressCore.createRole setup data createdBy
      pure ()
  | .updateRole slug data updatedBy => do
      let _ ← ExpressCore.updateRole setup slug data updatedBy
      pure ()
  | .deleteRole slug deletedBy => ExpressCore.deleteRole slug deletedBy

/-- The slug of an active user or role. -/
def slugOf : (k : TableName) → k.Row → Option String
  | .users, row => if row.deletedAt.isNone then row.slug else none
  | .roles, row => if row.deletedAt.isNone then some row.slug else none
  | _, _ => none

/-- The slug that a change sets. -/
def newSlug : (k : TableName) → k.Change → Option String
  | .users, .update data => data.slug
  | .roles, .update _ slug _ _ _ => slug
  | _, _ => none

/-- The slugs that `makeUniqueSlug` tries for a text. -/
def Candidate (text slug : String) : Prop :=
  ∃ counter : ℕ, slug = if counter = 0 then toSlug text else toSlug text ++ "-" ++ toString counter

/-- The name or title that an update looks for a slug for. -/
def Call.text : Call → Option String
  | .updateUser _ data _ => data.name
  | .updateProfile _ data => data.name
  | .updateRole _ data _ => data.title
  | _ => none

/-- Every active row with the slug, committed or not, had it when `t` last read the table. -/
def Known (k : TableName) (t : ℕ) (slug : String) (s : State) : Prop :=
  ∀ j r, (k.table s.db).Version j r → slugOf k r = some slug →
    ∃ seen, (k.table s.db).snapshot t j = some seen ∧ slugOf k seen = some slug

/-- When a statement of a call is in time: nobody has got the slug it is about, or may be, since
the last read. -/
structure Call.InTime (call : Call) (t : ℕ) (r : Request) (s : State) : Prop where
  insert : ∀ (k : TableName) (row : k.Row) slug, r = .sql (k.sql (.insert row)) →
    slugOf k row = some slug → Known k t slug s
  scan : ∀ (k : TableName) (w : k.Where) text slug, r = .sql (k.sql (.scan w)) →
    call.text = some text → Candidate text slug → Known k t slug s
  visit : ∀ (k : TableName) (i : ℕ) (w : k.Where) (c : k.Change) slug,
    r = .sql (k.sql (.visit i w c)) → newSlug k c = some slug → Known k t slug s

/-- Runs in which every statement is in time. -/
def punctual (calls : ℕ → Call) : Assumption ℕ Request State where
  request t r s := (calls t).InTime t r s
  move _ _ := True

/-- A row gets a slug that no other has. -/
def naming : Discipline where
  tables k := k = .users ∨ k = .roles
  change t k a s := ∀ i new slug, a.Wrote t (k.table s.db) i (some new) →
    slugOf k new = some slug →
    (∃ old, (k.table s.db).view t i = some old ∧ slugOf k old = some slug) ∨
      ∀ j r, (k.table s.db).Version j r → slugOf k r = some slug → j = i
  commit _ _ := True
  other _ _ _ := True
  commit_free _ _ _ := trivial

variable {setup : Setup} {A : Assumption ℕ Request State} {calls : ℕ → Call} {t : ℕ}
  {s s' s₀ : State}

/-! ## The invariant -/

/-- Active rows with one slug, committed or not, are one row. -/
def Distinct (s : State) : Prop :=
  ∀ (k : TableName) i j r r' slug, (k.table s.db).Version i r → (k.table s.db).Version j r' →
    slugOf k r = some slug → slugOf k r' = some slug → i = j

theorem Distinct.step (h : Distinct s) (hevent : Event setup A naming s s') : Distinct s' := by
  intro k i j r r' slug hr hr' hslug hslug'
  cases hevent.on k with
  | same hcommitted hpending =>
      rw [Table.Version, hcommitted, hpending] at hr hr'
      exact h k i j r r' slug hr hr' hslug hslug'
  | write t a u v hchange hA hwrote htable =>
      have hnew {new : k.Row} (hv : v = some new) (hnew : slugOf k new = some slug) {j : ℕ}
          {r' : k.Row} (hr' : (k.table s.db).Version j r') (hslug' : slugOf k r' = some slug) :
          j = u := by
        subst hv
        by_cases hk : naming.tables k
        · rcases hchange hk u new slug hwrote hnew with ⟨old, hold, hslug⟩ | hall
          · exact h k j u r' old slug hr' (version_of_view hold) hslug' hslug
          · exact hall j r' hr' hslug'
        · have hnone : slugOf k new = none := by
            cases k <;> first | rfl | exact (hk (.inl rfl)).elim | exact (hk (.inr rfl)).elim
          rw [hnone] at hnew
          cases hnew
      rw [htable] at hr hr'
      rcases version_of_write hr with hold | ⟨hi, hv⟩ <;>
        rcases version_of_write hr' with hold' | ⟨hj, hv'⟩
      · exact h k i j r r' slug hold hold' hslug hslug'
      · exact (hnew hv' hslug' hold hslug).trans hj.symm
      · exact hi.trans (hnew hv hslug hold' hslug').symm
      · exact hi.trans hj.symm
  | commit t hcommit htable =>
      rw [htable] at hr hr'
      exact h k i j r r' slug (version_of_commit hr) (version_of_commit hr') hslug hslug'
  | abort t htable =>
      rw [htable] at hr hr'
      exact h k i j r r' slug (version_of_abort hr) (version_of_abort hr') hslug hslug'

/-! ## Looking for a slug and writing it -/

/-- No other active row had the slug. -/
def Vacant (k : TableName) (excluding : Option ℕ) (slug : String) (view : ℕ → Option k.Row) :
    Prop :=
  ∀ j r, view j = some r → slugOf k r = some slug → excluding = some j

/-- The contract of threads that keep to `naming` in time. -/
abbrev rules (setup : Setup) (calls : ℕ → Call) : Rules ℕ State :=
  keeping setup False (punctual calls) naming

theorem naming_onAccounts : naming.OnAccounts :=
  ⟨fun _ hk => hk, fun _ _ => trivial, fun _ _ _ => trivial⟩

theorem slugOfUserTaken_meets (excluding : Option ℕ) (slug : String) :
    (rules setup calls).Meets (system setup) (punctual calls) t
      (fun taken => Saw .users t fun view => taken = false → Vacant .users excluding slug view)
      (fun _ _ => True) (slugOfUserTaken excluding slug) fun _ => True := by
  refine .bind (meets_find (k := .users)
    (fun found view => found.isSome = false → Vacant .users excluding slug view)
    (fun view hnone _ j r hview hslug => ?_) fun _ _ _ _ _ h => nomatch h) fun found =>
      .pure saw_stable .refl
  have hfree := hnone j r hview
  simp only [slugOf] at hslug
  split at hslug
  · simpa [Condition.holds, *] using hfree
  · cases hslug

theorem slugOfRoleTaken_meets (excluding : Option ℕ) (slug : String) :
    (rules setup calls).Meets (system setup) (punctual calls) t
      (fun taken => Saw .roles t fun view => taken = false → Vacant .roles excluding slug view)
      (fun _ _ => True) (slugOfRoleTaken excluding slug) fun _ => True := by
  refine .bind (meets_find (k := .roles)
    (fun found view => found.isSome = false → Vacant .roles excluding slug view)
    (fun view hnone _ j r hview hslug => ?_) fun _ _ _ _ _ h => nomatch h) fun found =>
      .pure saw_stable .refl
  have hfree := hnone j r hview
  simp only [slugOf] at hslug
  split at hslug
  · simpa [Condition.holds, Option.some.inj hslug, *] using hfree
  · cases hslug

theorem makeUniqueSlug_meets {k : TableName} {excluding : Option ℕ}
    {checkExists : String → Service Bool}
    (hcheck : ∀ slug, (rules setup calls).Meets (system setup) (punctual calls) t
      (fun taken => Saw k t fun view => taken = false → Vacant k excluding slug view)
      (fun _ _ => True) (checkExists slug) fun _ => True) (text : String) :
    (rules setup calls).Meets (system setup) (punctual calls) t
      (fun slug => Saw k t fun view => Candidate text slug ∧ Vacant k excluding slug view)
      (fun _ _ => True) (makeUniqueSlug setup text checkExists) fun _ => True := by
  unfold makeUniqueSlug
  generalize setup.env.slugAttempts = attempts
  generalize 0 = counter
  induction attempts generalizing counter with
  | zero => exact .throw (.const True) .refl
  | succ attempts ih =>
      refine .bind (hcheck _) fun taken => ?_
      cases taken with
      | true => exact (ih (counter + 1)).weaken fun _ _ _ => trivial
      | false => exact .pure saw_stable fun s _ h => ⟨⟨counter, rfl⟩, h rfl⟩

theorem slugOf_apply {k : TableName} (c : k.Change) {old new : k.Row} {slug : String}
    (h : ReadCommitted.Change.apply c old = some new) (hslug : slugOf k new = some slug) :
    newSlug k c = some slug ∨ slugOf k old = some slug := by
  cases k with
  | users =>
      cases c with
      | update data =>
          obtain rfl : old.apply data = new := Option.some.inj h
          cases hset : data.slug <;> simp_all [slugOf, newSlug, User.apply]
      | delete deletedAt =>
          obtain rfl : { old with deletedAt := some deletedAt } = new := Option.some.inj h
          simp [slugOf] at hslug
  | roles =>
      cases c with
      | update title slug' userType description access =>
          cases h
          cases hset : slug' <;> simp_all [slugOf, newSlug]
      | grant values =>
          cases h
          exact .inr hslug
      | delete deletedAt =>
          cases h
          simp [slugOf] at hslug
  | _ => cases hslug

/-- A new row gets a slug that was free. -/
theorem admits_insert {k : TableName} {row : k.Row} {P : (ℕ → Option k.Row) → Prop}
    (hP : ∀ view slug, P view → slugOf k row = some slug → Vacant k none slug view) :
    naming.Admits (punctual calls) t (Saw k t P) (.sql (k.sql (.insert row))) := by
  refine Discipline.admits_access fun s hA hpre _ i new slug hwrote hslug => .inr ?_
  cases hwrote with
  | insert _ row hfresh =>
      intro j r hversion hr
      obtain ⟨seen, hseen, hslug'⟩ := hA.insert k row slug rfl hslug j r hversion hr
      exact nomatch hP _ slug hpre hslug j seen hseen hslug'

/-- A row that is updated gets a slug that was free or keeps its own. -/
theorem admits_visit {k : TableName} {i id : ℕ} {w : k.Where} {c : k.Change}
    {P : (ℕ → Option k.Row) → Prop} (hw : ∀ r : k.Row, Condition.holds w i r = true → i = id)
    (hP : ∀ view slug, P view → newSlug k c = some slug → Vacant k (some id) slug view) :
    naming.Admits (punctual calls) t (Saw k t P) (.sql (k.sql (.visit i w c))) := by
  refine Discipline.admits_access fun s hA hpre _ j new slug hwrote hslug => ?_
  generalize hnew : some new = v at hwrote
  cases hwrote with
  | visit _ w c old hlocked hview hholds =>
      rcases slugOf_apply c hnew.symm hslug with hset | hkept
      · refine .inr fun j r hversion hr => ?_
        obtain ⟨seen, hseen, hslug'⟩ := hA.visit k i w c slug rfl hset j r hversion hr
        exact (Option.some.inj (hP _ slug hpre hset j seen hseen hslug')).symm.trans
          (hw old hholds).symm
      · exact .inl ⟨old, hview, hkept⟩

end ExpressCore.Slugs
