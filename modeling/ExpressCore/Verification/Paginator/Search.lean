import ExpressCore.Verification.Paginator.Pages

/-! # What a search finds

The meaning of the filters that dot paths are compiled to. -/

namespace ExpressCore.Search

variable {B ρ R : Type} {dm : DataModel}

/-! ## The meaning of filters -/

/-- The rows of a database: columns of a row, and rows related to it, of the model that is
named first. -/
structure Instance (ρ : Type) where
  column : String → String → ρ → Option String
  one : String → String → ρ → Option ρ
  many : String → String → ρ → List ρ

/-- The field `name` of `model`. -/
def FieldOf (dm : DataModel) (model name : String) (field : FieldMeta) : Prop :=
  ∃ fields, modelFields dm model = .ok fields ∧ fieldMeta fields name = some field

/-- A hop leads from `model` to `target`. -/
def IsRelation (dm : DataModel) (model name target : String) : Prop :=
  ∃ field, FieldOf dm model name field ∧ field.kind = .object ∧ field.type = target

def IsStringColumn (dm : DataModel) (model name : String) : Prop :=
  ∃ field, FieldOf dm model name field ∧ field.kind = .scalar ∧ field.type = "String"

/-- Prisma's filters, on a row of `model`. `likes text search` says that the text contains the
search term, whatever the case. -/
def Satisfies (dm : DataModel) (db : Instance ρ) (likes : String → String → Prop) :
    String → ρ → FieldCondition → Prop
  | model, r, .contains field search =>
      ∃ text, db.column model field r = some text ∧ likes text search
  | model, r, .one field condition => ∃ target, IsRelation dm model field target ∧
      ∃ r', db.one model field r = some r' ∧ Satisfies dm db likes target r' condition
  | model, r, .some field condition => ∃ target, IsRelation dm model field target ∧
      ∃ r' ∈ db.many model field r, Satisfies dm db likes target r' condition

/-! ## The meaning of paths -/

/-- The hops lead from one model to another. -/
inductive Resolves (dm : DataModel) : String → List String → String → Prop where
  | nil (model : String) : Resolves dm model [] model
  | cons {model name target last : String} {names : List String} :
      IsRelation dm model name target → Resolves dm target names last →
      Resolves dm model (name :: names) last

/-- `r'` is related to `r` by the field `name` of `model`. -/
def Related (dm : DataModel) (db : Instance ρ) (model name : String) (r r' : ρ) : Prop :=
  ∃ field, FieldOf dm model name field ∧
    if field.isList then r' ∈ db.many model name r else db.one model name r = some r'

/-- A chain of related rows along the hops. -/
inductive Follows (dm : DataModel) (db : Instance ρ) :
    String → List String → ρ → String → ρ → Prop where
  | nil (model : String) (r : ρ) : Follows dm db model [] r model r
  | cons {model name target last : String} {names : List String} {r r' r'' : ρ} :
      IsRelation dm model name target → Related dm db model name r r' →
      Follows dm db target names r' last r'' → Follows dm db model (name :: names) r last r''

/-- The row has a chain of related rows along the path, and the leaf column of the last row
contains the term. -/
def PathMatches (dm : DataModel) (db : Instance ρ) (likes : String → String → Prop)
    (model path search : String) (r : ρ) : Prop :=
  ∃ last r', Follows dm db model (segmentsOf path).dropLast r last r' ∧
    ∃ text, db.column last ((segmentsOf path).getLastD "") r' = some text ∧ likes text search

variable {db : Instance ρ} {likes : String → String → Prop}
  {model name target last path search : String}
  {field : FieldMeta} {names : List String} {hops : List (String × FieldMeta)} {r : ρ}

/-! ## Resolution -/

theorem FieldOf.unique {field' : FieldMeta} (h : FieldOf dm model name field)
    (h' : FieldOf dm model name field') : field = field' := by
  obtain ⟨fields, hfields, hfield⟩ := h
  obtain ⟨fields', hfields', hfield'⟩ := h'
  rw [hfields] at hfields'
  cases hfields'
  exact Option.some.inj (hfield.symm.trans hfield')

theorem IsRelation.unique {target' : String} (h : IsRelation dm model name target)
    (h' : IsRelation dm model name target') : target = target' := by
  obtain ⟨field, hfield, -, rfl⟩ := h
  obtain ⟨field', hfield', -, rfl⟩ := h'
  rw [hfield.unique hfield']

/-- What the loop over the hops computes: the fields of the hops, and the last model. -/
inductive Hops (dm : DataModel) :
    String → List String → List (String × FieldMeta) → String → Prop where
  | nil (model : String) : Hops dm model [] [] model
  | cons {model name last : String} {names : List String} {field : FieldMeta}
      {hops : List (String × FieldMeta)} : FieldOf dm model name field → field.kind = .object →
      Hops dm field.type names hops last →
        Hops dm model (name :: names) ((name, field) :: hops) last

theorem resolveHops_ok : resolveHops dm path model names = .ok (hops, last) ↔
    Hops dm model names hops last := by
  induction names generalizing model hops last with
  | nil =>
      constructor
      · intro h
        cases h
        exact .nil model
      · intro h
        cases h
        rfl
  | cons name names ih =>
      constructor
      · intro h
        cases hfields : modelFields dm model with
        | error e =>
            simp only [resolveHops, hfields] at h
            cases h
        | ok fields =>
            cases hfield : fieldMeta fields name with
            | none =>
                simp only [resolveHops, hfields, bind, Except.bind, hfield] at h
                cases h
            | some field =>
                simp only [resolveHops, hfields, bind, Except.bind, hfield] at h
                split at h
                · rename_i hkind
                  cases hrest : resolveHops dm path field.type names with
                  | error e =>
                      rw [hrest] at h
                      cases h
                  | ok result =>
                      rw [hrest] at h
                      cases h
                      exact .cons ⟨fields, hfields, hfield⟩ hkind (ih.mp hrest)
                · cases h
      · intro h
        cases h with
        | cons hfield hkind hrest =>
            obtain ⟨fields, hfields, hfield⟩ := hfield
            simp only [resolveHops, hfields, bind, Except.bind, hfield, if_pos hkind, ih.mpr hrest]
            rfl

theorem hops_iff_resolves :
    (∃ hops, Hops dm model names hops last) ↔ Resolves dm model names last := by
  constructor
  · rintro ⟨hops, h⟩
    induction h with
    | nil model => exact .nil model
    | cons hfield hkind _ ih => exact .cons ⟨_, hfield, hkind, rfl⟩ ih
  · intro h
    induction h with
    | nil model => exact ⟨[], .nil model⟩
    | cons hrelation _ ih =>
        obtain ⟨field, hfield, hkind, rfl⟩ := hrelation
        obtain ⟨hops, hhops⟩ := ih
        exact ⟨_, .cons hfield hkind hhops⟩

theorem Follows.resolves {r' : ρ} (h : Follows dm db model names r last r') :
    Resolves dm model names last := by
  induction h with
  | nil model r => exact .nil model
  | cons hrelation _ _ ih => exact .cons hrelation ih

/-! ## Filters of paths -/

/-- The filter was built from the inside out; it is read from the outside in. -/
theorem satisfies_wrapHops {condition : FieldCondition} (h : Hops dm model names hops last) :
    Satisfies dm db likes model r (wrapHops hops condition) ↔
      ∃ r', Follows dm db model names r last r' ∧ Satisfies dm db likes last r' condition := by
  induction h generalizing r with
  | nil model =>
      constructor
      · intro h
        exact ⟨r, .nil model r, h⟩
      · rintro ⟨r', hfollows, h⟩
        cases hfollows
        exact h
  | @cons model name last names field hops hfield hkind _ ih =>
      have hrelation : IsRelation dm model name field.type := ⟨field, hfield, hkind, rfl⟩
      have hrelated (r' : ρ) : Related dm db model name r r' ↔
          if field.isList then r' ∈ db.many model name r else db.one model name r = some r' := by
        constructor
        · rintro ⟨field', hfield', h⟩
          rwa [hfield.unique hfield']
        · exact fun h => ⟨field, hfield, h⟩
      have hchain : Satisfies dm db likes model r (wrapHops ((name, field) :: hops) condition) ↔
          ∃ r', Related dm db model name r r' ∧
            Satisfies dm db likes field.type r' (wrapHops hops condition) := by
        simp only [hrelated]
        cases hlist : field.isList with
        | true =>
            have hwrap : wrapHops ((name, field) :: hops) condition =
                .some name (wrapHops hops condition) := by
              simp [wrapHops, hlist]
            simp only [hwrap, Satisfies, if_true]
            constructor
            · rintro ⟨target, htarget, r', hr', h⟩
              exact ⟨r', hr', htarget.unique hrelation ▸ h⟩
            · rintro ⟨r', hr', h⟩
              exact ⟨_, hrelation, r', hr', h⟩
        | false =>
            have hwrap : wrapHops ((name, field) :: hops) condition =
                .one name (wrapHops hops condition) := by
              simp [wrapHops, hlist]
            simp only [hwrap, Satisfies, Bool.false_eq_true, if_false]
            constructor
            · rintro ⟨target, htarget, r', hr', h⟩
              exact ⟨r', hr', htarget.unique hrelation ▸ h⟩
            · rintro ⟨r', hr', h⟩
              exact ⟨_, hrelation, r', hr', h⟩
      rw [hchain]
      constructor
      · rintro ⟨r', hr', h⟩
        obtain ⟨r'', hfollows, h⟩ := ih.mp h
        exact ⟨r'', .cons hrelation hr' hfollows, h⟩
      · rintro ⟨r'', hfollows, h⟩
        cases hfollows with
        | cons htarget hr' hfollows =>
            obtain rfl := htarget.unique hrelation
            exact ⟨_, hr', ih.mpr ⟨r'', hfollows, h⟩⟩

theorem relationalCondition_ok {condition : FieldCondition} :
    relationalCondition dm model path search = .ok condition ↔
      ∃ hops last, Hops dm model (segmentsOf path).dropLast hops last ∧
        IsStringColumn dm last ((segmentsOf path).getLastD "") ∧
          condition = wrapHops hops (.contains ((segmentsOf path).getLastD "") search) := by
  constructor
  · intro h
    simp only [relationalCondition] at h
    cases hhops : resolveHops dm path model (segmentsOf path).dropLast with
    | error e =>
        rw [hhops] at h
        cases h
    | ok result =>
        obtain ⟨hops, last⟩ := result
        rw [hhops] at h
        simp only [bind, Except.bind] at h
        cases hfields : modelFields dm last with
        | error e =>
            rw [hfields] at h
            cases h
        | ok fields =>
            rw [hfields] at h
            simp only at h
            split at h
            · cases h
            · rename_i field hfield
              split at h
              · rename_i hstring
                cases h
                exact ⟨hops, last, resolveHops_ok.mp hhops,
                  ⟨field, ⟨fields, hfields, hfield⟩, hstring⟩, rfl⟩
              · cases h
  · rintro ⟨hops, last, hhops, ⟨field, ⟨fields, hfields, hfield⟩, hstring⟩, rfl⟩
    simp only [relationalCondition, resolveHops_ok.mpr hhops, bind, Except.bind, hfields, hfield,
      if_pos hstring]
    rfl

/-- Some hop is no relation of the model reached so far, or the leaf is no String column of the
final model. -/
def Misnamed (dm : DataModel) (model path : String) : Prop :=
  (∃ before name after reached, (segmentsOf path).dropLast = before ++ name :: after ∧
    Resolves dm model before reached ∧ ∀ target, ¬ IsRelation dm reached name target) ∨
  ∃ last, Resolves dm model (segmentsOf path).dropLast last ∧
    ¬ IsStringColumn dm last ((segmentsOf path).getLastD "")

theorem resolves_or_stuck (model : String) (names : List String) :
    (∃ last, Resolves dm model names last) ∨
      ∃ before name after reached, names = before ++ name :: after ∧
        Resolves dm model before reached ∧ ∀ target, ¬ IsRelation dm reached name target := by
  induction names generalizing model with
  | nil => exact .inl ⟨model, .nil model⟩
  | cons name names ih =>
      by_cases hrelation : ∃ target, IsRelation dm model name target
      · obtain ⟨target, htarget⟩ := hrelation
        rcases ih target with ⟨last, h⟩ | ⟨before, stuck, after, reached, rfl, h, hstuck⟩
        · exact .inl ⟨last, .cons htarget h⟩
        · exact .inr ⟨name :: before, stuck, after, reached, rfl, .cons htarget h, hstuck⟩
      · exact .inr ⟨[], name, names, model, rfl, .nil model, fun target h => hrelation ⟨target, h⟩⟩

theorem Resolves.unique {last' : String} (h : Resolves dm model names last)
    (h' : Resolves dm model names last') : last = last' := by
  induction h with
  | nil model =>
      cases h'
      rfl
  | cons hrelation _ ih =>
      cases h' with
      | cons hrelation' h' =>
          obtain rfl := hrelation.unique hrelation'
          exact ih h'

theorem not_resolves_of_stuck {before after : List String} {reached : String}
    (h : Resolves dm model before reached)
    (hstuck : ∀ target, ¬ IsRelation dm reached name target) :
    ¬ Resolves dm model (before ++ name :: after) last := by
  intro hall
  induction h with
  | nil model =>
      cases hall with
      | cons hrelation _ => exact hstuck _ hrelation
  | cons hrelation _ ih =>
      cases hall with
      | cons hrelation' hall =>
          obtain rfl := hrelation.unique hrelation'
          exact ih hstuck hall

theorem misnamed_iff : Misnamed dm model path ↔
    ¬ ∃ last, Resolves dm model (segmentsOf path).dropLast last ∧
      IsStringColumn dm last ((segmentsOf path).getLastD "") := by
  constructor
  · rintro (⟨before, name, after, reached, heq, hbefore, hstuck⟩ | ⟨last, hlast, hcolumn⟩)
    · rintro ⟨last, hlast, -⟩
      rw [heq] at hlast
      exact not_resolves_of_stuck hbefore hstuck hlast
    · rintro ⟨last', hlast', hcolumn'⟩
      exact hcolumn (hlast.unique hlast' ▸ hcolumn')
  · intro h
    rcases resolves_or_stuck model (segmentsOf path).dropLast with ⟨last, hlast⟩ | hstuck
    · exact .inr ⟨last, hlast, fun hcolumn => h ⟨last, hlast, hcolumn⟩⟩
    · exact .inl hstuck

theorem raises_iff : (∃ message, relationalCondition dm model path search = .error message) ↔
    Misnamed dm model path := by
  rw [misnamed_iff]
  constructor
  · rintro ⟨message, herror⟩ ⟨last, hlast, hcolumn⟩
    obtain ⟨hops, hhops⟩ := hops_iff_resolves.mpr hlast
    rw [relationalCondition_ok.mpr ⟨hops, last, hhops, hcolumn, rfl⟩] at herror
    cases herror
  · intro h
    cases hcondition : relationalCondition dm model path search with
    | error message => exact ⟨message, rfl⟩
    | ok condition =>
        obtain ⟨hops, last, hhops, hcolumn, -⟩ := relationalCondition_ok.mp hcondition
        exact (h ⟨last, hops_iff_resolves.mp ⟨hops, hhops⟩, hcolumn⟩).elim

theorem satisfies_relational {condition : FieldCondition}
    (h : relationalCondition dm model path search = .ok condition) :
    Satisfies dm db likes model r condition ↔ PathMatches dm db likes model path search r := by
  obtain ⟨hops, last, hhops, -, rfl⟩ := relationalCondition_ok.mp h
  rw [satisfies_wrapHops hhops]
  constructor
  · rintro ⟨r', hfollows, hmatches⟩
    exact ⟨last, r', hfollows, hmatches⟩
  · rintro ⟨last', r', hfollows, hmatches⟩
    obtain rfl : last = last' :=
      (hops_iff_resolves.mp ⟨hops, hhops⟩).unique hfollows.resolves
    exact ⟨r', hfollows, hmatches⟩

/-! ## Several fields -/

/-- A search field is a column or a path. -/
def FieldMatches (dm : DataModel) (db : Instance ρ) (likes : String → String → Prop)
    (model search field : String) (r : ρ) : Prop :=
  if '.' ∈ field.toList then PathMatches dm db likes model field search r
  else ∃ text, db.column model field r = some text ∧ likes text search

theorem satisfies_searchCondition {modelName : Option String} {field : String}
    {condition : FieldCondition} (hmodel : ∀ name, modelName = some name → name = model)
    (h : searchCondition dm modelName search field = .ok condition) :
    Satisfies dm db likes model r condition ↔ FieldMatches dm db likes model search field r := by
  unfold searchCondition at h
  by_cases hdot : '.' ∈ field.toList
  · rw [if_pos hdot] at h
    rw [FieldMatches, if_pos hdot]
    split at h
    · cases h
    · rename_i name hname
      obtain rfl := hmodel name (Option.filter_eq_some_iff.mp hname).1
      exact satisfies_relational h
  · rw [if_neg hdot] at h
    cases h
    rw [FieldMatches, if_neg hdot, Satisfies]

theorem exists_searchConditions {modelName : Option String} {fields : List String}
    {conditions : List FieldCondition} (hmodel : ∀ name, modelName = some name → name = model)
    (h : searchConditions dm fields search modelName = .ok conditions) :
    (∃ condition ∈ conditions, Satisfies dm db likes model r condition) ↔
      ∃ field ∈ fields, FieldMatches dm db likes model search field r := by
  induction fields generalizing conditions with
  | nil =>
      cases h
      simp
  | cons field fields ih =>
      simp only [searchConditions, List.mapM_cons] at h
      cases hfirst : searchCondition dm modelName search field with
      | error e =>
          rw [hfirst] at h
          cases h
      | ok first =>
          cases hrest : searchConditions dm fields search modelName with
          | error e =>
              rw [searchConditions] at hrest
              rw [hfirst, hrest] at h
              cases h
          | ok rest =>
              have hrest' := ih hrest
              rw [searchConditions] at hrest
              rw [hfirst, hrest] at h
              cases h
              simp only [List.exists_mem_cons_iff, hrest', satisfies_searchCondition hmodel hfirst]

/-- The filter of a page on a row of `model`. -/
def Holds (dm : DataModel) (db : Instance ρ) (likes : String → String → Prop)
    (base : B → ρ → Prop) (model : String) (w : PageWhere B) (r : ρ) : Prop :=
  base w.base r ∧ (∀ excluded, w.whereNot = some excluded → ¬ base excluded r) ∧
    ∀ conditions, w.search = some conditions → ∃ condition ∈ conditions,
      Satisfies dm db likes model r condition

theorem holds_finalWhere {base : B → ρ → Prop} {options : PaginateOptions B ρ R} {req : PageRequest}
    {w : PageWhere B} (hmodel : ∀ name, options.modelName = some name → name = model)
    (hw : req.finalWhere dm options = .ok w) :
    Holds dm db likes base model w r ↔
      (base options.base r ∧ ∀ excluded, options.whereNot = some excluded → ¬ base excluded r) ∧
        ∀ search, req.search = some search → options.searchFields ≠ [] →
          ∃ field ∈ options.searchFields, FieldMatches dm db likes model search field r := by
  unfold PageRequest.finalWhere at hw
  split at hw
  · rename_i search hsearch
    split at hw
    · rename_i hfields
      cases hconditions : searchConditions dm options.searchFields search options.modelName with
      | error e =>
          rw [hconditions] at hw
          cases hw
      | ok conditions =>
          rw [hconditions] at hw
          cases hw
          have hne : options.searchFields ≠ [] := List.length_pos_iff.mp hfields
          simp only [Holds, hsearch, Option.some.injEq, forall_eq', hne, not_false_eq_true,
            forall_const, ne_eq, exists_searchConditions hmodel hconditions, and_assoc]
    · rename_i hfields
      cases hw
      have hnone : options.searchFields = [] := by simpa using hfields
      simp [Holds, hnone]
  · rename_i hsearch
    cases hw
    simp [Holds, hsearch]

/-! ## The claim about search -/

/-- Paths that name no String column are refused, a path's filter holds of the rows with a chain
of related rows to a match, and a page and its count share the filter of the whole search. -/
theorem search_means (dm : DataModel) (db : Instance ρ) (likes : String → String → Prop)
    (model : String) :
    (∀ path search, (∃ message, relationalCondition dm model path search = .error message) ↔
      Misnamed dm model path) ∧
    (∀ path search condition, relationalCondition dm model path search = .ok condition →
      ∀ r, Satisfies dm db likes model r condition ↔ PathMatches dm db likes model path search r) ∧
    ∀ (base : B → ρ → Prop) (delegate : PrismaDelegate B ρ) (options : PaginateOptions B ρ R)
      (req : PageRequest) (result : PaginatedResult R),
      (∀ name, options.modelName = some name → name = model) →
      paginate dm delegate options req = .ok result →
      ∃ w, (∃ args : FindManyArgs B, args.filter = w ∧
          result.data = (delegate.findMany args).map options.transform) ∧
        result.info.total = delegate.count w ∧
        ∀ r, Holds dm db likes base model w r ↔
          (base options.base r ∧ ∀ excluded, options.whereNot = some excluded →
            ¬ base excluded r) ∧
          ∀ search, req.search = some search → options.searchFields ≠ [] →
            ∃ field ∈ options.searchFields, FieldMatches dm db likes model search field r := by
  refine ⟨fun path search => raises_iff, fun path search condition h r => satisfies_relational h,
    fun base delegate options req result hmodel h => ?_⟩
  cases hw : req.finalWhere dm options with
  | error message =>
      simp only [paginate, hw] at h
      cases h
  | ok w =>
      obtain ⟨hdata, htotal, -⟩ := Pages.paginate_ok hw h
      exact ⟨w, ⟨_, rfl, hdata⟩, htotal, fun r => holds_finalWhere hmodel hw⟩

/-- Users with a role each. -/
def usersAndRoles : DataModel where
  models :=
    [("User", [("name", ⟨.scalar, false, "String"⟩), ("role", ⟨.object, false, "Role"⟩)]),
      ("Role", [("title", ⟨.scalar, false, "String"⟩), ("users", ⟨.object, true, "User"⟩)])]
  closed := by decide
  scalars := by decide

/-- User 1 has role 7, which is "Admin", and user 2 has none. -/
def oneAdmin : Instance ℕ where
  column
    | "User", "name", 1 => some "Ada"
    | "User", "name", 2 => some "Bob"
    | "Role", "title", 7 => some "Admin"
    | _, _, _ => none
  one
    | "User", "role", 1 => some 7
    | _, _, _ => none
  many
    | "Role", "users", 7 => [1]
    | _, _, _ => []

theorem search_means_role :
    (∃ condition, relationalCondition usersAndRoles "User" "role.title" "Admin" = .ok condition ∧
      Satisfies usersAndRoles oneAdmin Eq "User" 1 condition ∧
      ¬ Satisfies usersAndRoles oneAdmin Eq "User" 2 condition) ∧
    (∃ condition, relationalCondition usersAndRoles "Role" "users.name" "Ada" = .ok condition ∧
      Satisfies usersAndRoles oneAdmin Eq "Role" 7 condition) ∧
    Misnamed usersAndRoles "User" "role.name" := by
  have hfield {model name : String} {field : FieldMeta}
      (h : (modelFields usersAndRoles model).toOption.bind (fieldMeta · name) = some field) :
      FieldOf usersAndRoles model name field := by
    obtain ⟨fields, hfields, hname⟩ := Option.bind_eq_some_iff.mp h
    cases hmodel : modelFields usersAndRoles model with
    | error e => simp [hmodel, Except.toOption] at hfields
    | ok fields' =>
        simp only [hmodel, Except.toOption, Option.some.injEq] at hfields
        exact ⟨fields', hmodel, hfields ▸ hname⟩
  have hmeans := search_means (B := Unit) (R := Unit) usersAndRoles oneAdmin Eq
  have hrole : FieldOf usersAndRoles "User" "role" ⟨.object, false, "Role"⟩ :=
    hfield (by decide +kernel)
  have husers : FieldOf usersAndRoles "Role" "users" ⟨.object, true, "User"⟩ :=
    hfield (by decide +kernel)
  refine ⟨⟨_, rfl, ?_, fun h => ?_⟩, ⟨_, rfl, ?_⟩, ?_⟩
  · refine ((hmeans "User").2.1 "role.title" "Admin" _ rfl 1).mpr ⟨"Role", 7, ?_, "Admin", rfl, rfl⟩
    exact .cons ⟨_, hrole, rfl, rfl⟩ ⟨_, hrole, rfl⟩ (.nil "Role" 7)
  · obtain ⟨last, r', hfollows, -⟩ := ((hmeans "User").2.1 "role.title" "Admin" _ rfl 2).mp h
    have hnames : (segmentsOf "role.title").dropLast = ["role"] := by decide +kernel
    rw [hnames] at hfollows
    cases hfollows with
    | cons _ hrelated _ =>
        obtain ⟨field, hfield', hlink⟩ := hrelated
        obtain rfl := hfield'.unique hrole
        cases hlink
  · refine ((hmeans "Role").2.1 "users.name" "Ada" _ rfl 7).mpr ⟨"User", 1, ?_, "Ada", rfl, rfl⟩
    exact .cons ⟨_, husers, rfl, rfl⟩ ⟨_, husers, .head _⟩ (.nil "User" 1)
  · exact ((hmeans "User").1 "role.name" "Ada").mp ⟨_, rfl⟩

end ExpressCore.Search
