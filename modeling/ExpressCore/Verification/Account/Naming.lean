import ExpressCore.Verification.Account.Slugs
import ExpressCore.Verification.System.Start

/-! # The calls that name users and roles -/

namespace ExpressCore.Slugs

open ReadCommitted Interleaving Interleaving.Program

variable {setup : Setup} {A : Assumption ℕ Request State} {calls : ℕ → Call} {t : ℕ}
  {s s' s₀ : State}

section Calls

variable {k : TableName} {P : (ℕ → Option k.Row) → Prop}

/-- Requests other than accesses to users and roles, after a read of one of them. -/
theorem trusts_other (hk : k = .users ∨ k = .roles) {r : Request} (husers : r.table? ≠ some .users)
    (hroles : r.table? ≠ some .roles) : naming.Trusts (punctual calls) t k P r := by
  refine ⟨?_, (naming_onAccounts.lets r husers hroles).admits⟩
  rcases hk with rfl | rfl
  · exact (Request.skips_of_table husers).blind
  · exact (Request.skips_of_table hroles).blind

theorem trusts_insert {row : k.Row}
    (hP : ∀ view slug, P view → slugOf k row = some slug → Vacant k none slug view) :
    naming.Trusts (punctual calls) t k P (.sql (k.sql (.insert row))) := by
  refine ⟨fun a heq => ?_, admits_insert hP⟩
  have haccess : a = .insert row := by cases k <;> (cases heq; rfl)
  exact haccess ▸ trivial

/-- Deactivating a row gives it no slug. -/
theorem lets_delete {i : ℕ} {w : k.Where} {c : k.Change}
    (hc : ∀ old new, ReadCommitted.Change.apply c old = some new → slugOf k new = none) :
    naming.Lets t (.sql (k.sql (.visit i w c))) := by
  refine Discipline.lets_access fun _ _ s j new slug hwrote hslug => ?_
  generalize hnew : some new = v at hwrote
  cases hwrote with
  | visit _ w c old =>
      rw [hc old new hnew.symm] at hslug
      cases hslug

/-- A call that does nothing more to the table than insert a row whose slug was free. -/
theorem meets_rest {α : Type} {p : Service α}
    (hp : p.Uses (naming.Trusts (punctual calls) t k P)) :
    (rules setup calls).Meets (system setup) (punctual calls) t (fun _ _ => True)
      (fun _ _ => True) p (Saw k t P) :=
  (meets_saw hp).mono (fun _ _ _ _ => trivial) fun _ _ _ _ => trivial

theorem meets_free {α : Type} {p : Service α} (hp : p.Uses (naming.Lets t)) :
    (rules setup calls).Meets (system setup) (punctual calls) t (fun _ _ => True)
      (fun _ _ => True) p fun _ => True :=
  meets_lets hp

theorem meets_transaction {α : Type} {body : Service α}
    (hbody : (rules setup calls).Meets (system setup) (punctual calls) t (fun _ _ => True)
      (fun _ _ => True) body fun _ => True) :
    (rules setup calls).Meets (system setup) (punctual calls) t (fun _ _ => True)
      (fun _ _ => True) (transaction body) fun _ => True :=
  transaction_meets (meets_free (uses_send.mpr (naming_onAccounts.lets _ nofun nofun))) hbody
    (fun _ => .bind (meets_free (uses_send.mpr (naming_onAccounts.lets _ nofun nofun))) fun _ =>
      .throw (.const True) .refl)
    fun _ => .bind (meets_free (uses_send.mpr (naming_onAccounts.lets _ nofun nofun))) fun _ =>
      .pure (.const True) .refl

theorem createRole_meets (data : CreateRoleInput) (createdBy : Option ℕ) :
    (rules setup calls).Meets (system setup) (punctual calls) t (fun _ _ => True)
      (fun _ _ => True) (ExpressCore.createRole setup data createdBy) fun _ => True := by
  have hvalid : (validateAccess data.access).Uses (naming.Lets t) := by
    unfold validateAccess
    dsimp only
    split <;> trivial
  refine .bind (meets_free hvalid) fun _ => meets_transaction (.bind (makeUniqueSlug_meets
    (slugOfRoleTaken_meets none) _) fun slug => meets_rest (.bind (uses_create
      (uses_send.mpr (trusts_insert (k := .roles) fun view slug' h hslug => ?_))
      (trusts_other (.inr rfl) nofun nofun)) fun id =>
        .bind (uses_send.mpr (trusts_other (.inr rfl) nofun nofun)) fun _ => trivial))
  exact Option.some.inj hslug ▸ h.2

/-- The insertion of a user with a slug that was free. -/
theorem createUserRow_uses {row : User} {slug text : String} (hrow : row.slug = some slug) :
    (createUserRow .tx row).Uses (naming.Trusts (punctual calls) t .users
      fun view => Candidate text slug ∧ Vacant .users none slug view) := by
  refine .bind (uses_create (uses_send.mpr (trusts_insert (k := .users)
    fun view slug' h hslug => ?_)) (trusts_other (.inl rfl) nofun nofun)) fun _ => trivial
  simp only [slugOf, hrow] at hslug
  split at hslug
  · exact Option.some.inj hslug ▸ h.2
  · cases hslug

theorem createUser_meets (data : CreateUserInput) (createdBy : Option ℕ) :
    (rules setup calls).Meets (system setup) (punctual calls) t (fun _ _ => True)
      (fun _ _ => True) (ExpressCore.createUser setup data createdBy) fun _ => True := by
  refine meets_transaction (.bind (meets_free (uses_send.mpr (lets_findUser _))) fun existing => ?_)
  split
  · exact .throw (.const True) .refl
  · exact .bind (makeUniqueSlug_meets (slugOfUserTaken_meets none) _) fun slug => meets_rest
      (.bind (uses_bcryptHash (trusts_other (.inl rfl) nofun nofun) _) fun _ =>
        .bind (createUserRow_uses rfl) fun _ =>
          .bind (uses_send.mpr (trusts_other (.inl rfl) nofun nofun)) fun _ => trivial)

theorem registerInTransaction_meets (userData : RegisterInput) (otpMode : Bool) :
    (rules setup calls).Meets (system setup) (punctual calls) t (fun _ _ => True)
      (fun _ _ => True) (registerInTransaction setup userData otpMode) fun _ => True := by
  have hrole : (defaultRoleId setup).Uses (naming.Lets t) := by
    unfold defaultRoleId
    split
    · trivial
    · refine .bind (.bind (uses_send.mpr (lets_findRole _)) fun _ => trivial) fun roleId => ?_
      cases roleId <;> trivial
  have hslug {p : String → Service (ℕ × User)} (hp : ∀ slug, (p slug).Uses
      (naming.Trusts (punctual calls) t .users
        fun view => Candidate userData.name slug ∧ Vacant .users none slug view)) :
      (rules setup calls).Meets (system setup) (punctual calls) t (fun _ _ => True)
        (fun _ _ => True) (makeUniqueSlug setup userData.name (slugOfUserTaken none) >>= p)
        fun _ => True :=
    .bind (makeUniqueSlug_meets (slugOfUserTaken_meets none) _) fun slug => meets_rest (hp slug)
  have hlets := naming_onAccounts.lets (t := t)
  unfold registerInTransaction
  cases otpMode with
  | true =>
      simp only [↓reduceIte]
      refine .bind (meets_free (.bind (uses_send.mpr (lets_findUser _)) fun _ => trivial))
        fun existing => ?_
      split
      · exact .throw (.const True) .refl
      exact .bind (meets_free (uses_consumeForRegistration hlets _ _)) fun _ =>
        .bind (meets_free hrole) fun _ => .bind (meets_free (uses_bcryptHash
          (hlets _ nofun nofun) _)) fun _ => hslug fun slug =>
            .bind (createUserRow_uses rfl) fun _ => trivial
  | false =>
      simp only [Bool.false_eq_true, ↓reduceIte]
      refine .bind (meets_free (uses_send.mpr (lets_findUser _))) fun user =>
        .bind (meets_free trivial) fun existing => ?_
      split
      · exact .throw (.const True) .refl
      exact .bind (meets_free hrole) fun _ => .bind (meets_free (uses_bcryptHash
        (hlets _ nofun nofun) _)) fun _ => hslug fun slug =>
          .bind (createUserRow_uses rfl) fun user =>
            uses_verificationMail (fun _ => trusts_other (.inl rfl)) user

theorem register_meets (userData : RegisterInput) :
    (rules setup calls).Meets (system setup) (punctual calls) t (fun _ _ => True)
      (fun _ _ => True) (ExpressCore.register setup userData) fun _ => True :=
  meets_transaction (registerInTransaction_meets userData _)

/-! ## Updates -/

/-- The slug that an update of row `id` has found for the text that was sent. -/
def Found (k : TableName) (id : ℕ) (sent found : Option String) (view : ℕ → Option k.Row) : Prop :=
  ∀ slug, found = some slug →
    (∃ text, sent = some text ∧ Candidate text slug) ∧ Vacant k (some id) slug view

theorem change_meets {w : k.Where} {c : k.Change} {id : ℕ} {sent found : Option String}
    (hw : ∀ i (r : k.Row), Condition.holds w i r = true → i = id)
    (hset : ∀ slug, newSlug k c = some slug → found = some slug)
    (htext : ∀ text, sent = some text → (calls t).text = some text) :
    (rules setup calls).Meets (system setup) (punctual calls) t
      (fun _ => Saw k t (Found k id sent found)) (fun _ _ => True) (changeOne k.send .tx w c)
      (Saw k t (Found k id sent found)) := by
  refine changeOne_saw (fun s hA hpre slug hfound => ?_)
    (fun i => admits_visit (hw i) fun view slug h hslug => (h slug (hset slug hslug)).2)
    (naming_onAccounts.lets _ nofun nofun)
  obtain ⟨⟨text, hsent, hcandidate⟩, hvacant⟩ := hpre slug hfound
  refine ⟨⟨text, hsent, hcandidate⟩, fun j r hview hslug => ?_⟩
  obtain ⟨seen, hseen, hslug'⟩ := hA.scan k w text slug rfl (htext text hsent) hcandidate j r
    (version_of_view hview) hslug
  exact hvacant j seen hseen hslug'

theorem slugForName_meets (id : ℕ) (present sent : Option String) :
    (rules setup calls).Meets (system setup) (punctual calls) t
      (fun found => Saw .users t (Found .users id sent found)) (fun _ _ => True)
      (slugForName setup id present sent) fun _ => True := by
  unfold slugForName
  split
  · rename_i name hname
    refine .bind (makeUniqueSlug_meets (slugOfUserTaken_meets (some id)) _) fun slug =>
      .pure saw_stable fun s _ h found hfound => ?_
    obtain rfl : slug = found := Option.some.inj (Option.filter_eq_some_iff.mp hfound).1
    exact ⟨⟨name, (Option.filter_eq_some_iff.mp (Option.filter_eq_some_iff.mp hname).1).1, h.1⟩,
      h.2⟩
  · exact .pure saw_stable fun _ _ _ _ h => nomatch h

/-- A part of a call that does not read the table again. -/
theorem meets_kept {α : Type} {p : Service α}
    (hp : p.Uses (naming.Trusts (punctual calls) t k P)) :
    (rules setup calls).Meets (system setup) (punctual calls) t (fun _ => Saw k t P)
      (fun _ _ => True) p (Saw k t P) :=
  (meets_saw hp).mono (fun _ => .refl) fun _ _ _ _ => trivial

theorem updateRow_meets {id : ℕ} {sent : Option String} (data : UserUpdate)
    (htext : ∀ text, sent = some text → (calls t).text = some text) :
    (rules setup calls).Meets (system setup) (punctual calls) t
      (fun _ => Saw .users t (Found .users id sent data.slug)) (fun _ _ => True)
      (changeOne users .tx (.id id) (.update data))
      (Saw .users t (Found .users id sent data.slug)) :=
  change_meets (k := .users) (w := .id id) (c := .update data)
    (fun i r h => by simpa [Condition.holds] using h) (fun _ h => h) htext

theorem updateUserInTransaction_meets {slug : String} {data : UpdateUserInput}
    {updatedBy : Option ℕ} (hcall : calls t = .updateUser slug data updatedBy) (id : ℕ)
    (user : User) : (rules setup calls).Meets (system setup) (punctual calls) t (fun _ _ => True)
      (fun _ _ => True) (updateUserInTransaction setup id user data updatedBy) fun _ => True := by
  have hother {P : (ℕ → Option User) → Prop} (r : Request) (husers : r.table? ≠ some .users)
      (hroles : r.table? ≠ some .roles) : naming.Trusts (punctual calls) t .users P r :=
    trusts_other (.inl rfl) husers hroles
  have htext (text : String) (h : data.name = some text) : (calls t).text = some text := by
    rw [hcall]
    exact h
  refine .bind (slugForName_meets id user.name data.name) fun newSlug => ?_
  dsimp only
  split
  on_goal 1 => refine .bind (meets_kept (uses_deleteFile (hother _ nofun nofun))) fun _ => ?_
  all_goals
    exact .bind (meets_kept (uses_hashIfSent (hother _ nofun nofun) _)) fun password =>
      .bind (updateRow_meets _ htext) fun updated =>
        meets_rest (.bind (uses_send.mpr (hother _ nofun nofun)) fun _ => trivial)

theorem updateUser_meets {slug : String} {data : UpdateUserInput} {updatedBy : Option ℕ}
    (hcall : calls t = .updateUser slug data updatedBy) :
    (rules setup calls).Meets (system setup) (punctual calls) t (fun _ _ => True)
      (fun _ _ => True) (ExpressCore.updateUser setup slug data updatedBy) fun _ => True := by
  have hlets := naming_onAccounts.lets (t := t)
  refine .bind (meets_free (uses_send.mpr (lets_findUser _))) fun found => ?_
  cases found with
  | none => exact .throw (.const True) .refl
  | some x =>
      obtain ⟨id, user⟩ := x
      have hrest : (rules setup calls).Meets (system setup) (punctual calls) t (fun _ _ => True)
          (fun _ _ => True) (transaction (updateUserInTransaction setup id user data updatedBy) >>=
          fun updated => invalidateAccess >>= fun _ =>
            cacheService (.del [.userRole id]) >>= fun _ => pure updated) fun _ => True :=
        .bind (meets_transaction (updateUserInTransaction_meets hcall id user)) fun updated =>
          meets_free (.bind (uses_cacheService (hlets _ nofun nofun)) fun _ =>
            .bind (uses_cacheService (hlets _ nofun nofun)) fun _ => trivial)
      dsimp only
      split
      · refine .bind (meets_free (uses_send.mpr (lets_findUser _))) fun existing => ?_
        split
        · exact .throw (.const True) .refl
        · exact hrest
      · exact hrest

theorem updateProfileInTransaction_meets {data : UpdateProfileInput} {userId : ℕ}
    (hcall : calls t = .updateProfile userId data) (existing : UserProfileData)
    (hid : existing.id = userId) :
    (rules setup calls).Meets (system setup) (punctual calls) t (fun _ _ => True)
      (fun _ _ => True) (updateProfileInTransaction setup userId existing data)
      fun _ => True := by
  have hother {P : (ℕ → Option User) → Prop} (r : Request) (husers : r.table? ≠ some .users)
      (hroles : r.table? ≠ some .roles) : naming.Trusts (punctual calls) t .users P r :=
    trusts_other (.inl rfl) husers hroles
  have htext (text : String) (h : data.name = some text) : (calls t).text = some text := by
    rw [hcall]
    exact h
  subst hid
  refine .bind (slugForName_meets existing.id existing.name data.name) fun newSlug => ?_
  refine .bind (meets_kept (uses_hashIfSent (hother _ nofun nofun) _)) fun newPassword => ?_
  refine .bind (updateRow_meets _ htext) fun updated => meets_rest ?_
  dsimp only
  split
  on_goal 1 => refine .bind (uses_upsertDetails hother _ _) fun _ => ?_
  all_goals
    split
    on_goal 1 => refine .bind (uses_deleteSessions hother _) fun _ => ?_
    all_goals exact .bind (uses_send.mpr (hother _ nofun nofun)) fun _ => trivial

/-- The profile found is that of the user asked for. -/
theorem findProfile_meets (userId : ℕ) :
    (rules setup calls).Meets (system setup) (punctual calls) t
      (fun found _ => ∀ profile, found = some profile → profile.id = userId) (fun _ _ => True)
      (findProfile userId) fun _ => True := by
  have hlets := naming_onAccounts.lets (t := t)
  refine .bind (meets_free (uses_send.mpr (hlets _ nofun nofun))) fun readAt =>
    .bind (meets_find (k := .users) (fun found _ => ∀ x, found = some x → x.1 = userId)
    (fun _ _ _ h => nomatch h) fun view i r _ hw x hx => ?_) fun found => ?_
  · obtain rfl := Option.some.inj hx
    simp only [Condition.holds, Bool.and_eq_true, beq_iff_eq] at hw
    exact hw.1
  · cases found with
    | none => exact .pure (.const _) fun _ _ _ _ h => nomatch h
    | some x =>
        obtain ⟨id, user⟩ := x
        refine Rules.Meets.under (fun s => id = userId ∧ True) (.assume fun hid => ?_)
          fun s _ h => ⟨h _ rfl, trivial⟩
        dsimp only
        split
        on_goal 1 => refine .bind (meets_free (uses_pure _)) fun role => ?_
        on_goal 2 => refine .bind (meets_free (uses_send.mpr (lets_findRole _))) fun role => ?_
        all_goals
          exact .bind (meets_free (uses_send.mpr (hlets _ nofun nofun))) fun profile =>
            .pure (.const _) fun _ _ _ found hfound => Option.some.inj hfound ▸ hid

theorem updateProfile_meets {data : UpdateProfileInput} {userId : ℕ}
    (hcall : calls t = .updateProfile userId data) :
    (rules setup calls).Meets (system setup) (punctual calls) t (fun _ _ => True)
      (fun _ _ => True) (ExpressCore.updateProfile setup userId data) fun _ => True := by
  have hlets := naming_onAccounts.lets (t := t)
  refine .bind (findProfile_meets userId) fun found => ?_
  cases found with
  | none => exact .throw (.const True) fun _ _ _ => trivial
  | some existing =>
      refine Rules.Meets.under (fun s => existing.id = userId ∧ True) (.assume fun hid => ?_)
        fun s _ h => ⟨h _ rfl, trivial⟩
      dsimp only
      split
      on_goal 1 => refine .bind (meets_free (uses_deleteFile (hlets _ nofun nofun))) fun _ => ?_
      all_goals
        refine .bind (meets_transaction (updateProfileInTransaction_meets hcall existing hid))
          fun updated => meets_free (.bind (uses_cacheService (hlets _ nofun nofun)) fun _ =>
            .bind (uses_getProfile hlets lets_findUser lets_findRole _) fun profile =>
              .bind (uses_cacheService (hlets _ nofun nofun)) fun _ => trivial)

theorem deleteUser_lets (slug : String) (deletedBy : Option ℕ) :
    (ExpressCore.deleteUser slug deletedBy).Uses (naming.Lets t) := by
  have hlets := naming_onAccounts.lets (t := t)
  refine .bind (uses_send.mpr (lets_findUser _)) fun found => ?_
  cases found with
  | none => trivial
  | some x =>
      obtain ⟨id, user⟩ := x
      dsimp only
      split
      on_goal 1 => refine .bind (uses_deleteFile (hlets _ nofun nofun)) fun _ => ?_
      all_goals
        refine .bind (uses_transaction (hlets _ nofun nofun) (hlets _ nofun nofun)
          (hlets _ nofun nofun) (.bind (uses_send.mpr (hlets _ nofun nofun)) fun deletedAt =>
            .bind (uses_changeSingle (uses_send.mpr (Discipline.lets_read (k := .users)
              (a := .scan _) not_false)) (fun i => uses_send.mpr (lets_delete (k := .users) ?_))
              (hlets _ nofun nofun)) fun _ => .bind (uses_deleteSessions hlets _) fun _ =>
                uses_send.mpr (hlets _ nofun nofun))) fun _ => uses_invalidation hlets _
        rintro old new hnew
        cases hnew
        rfl

theorem deleteRole_lets (slug : String) (deletedBy : Option ℕ) :
    (ExpressCore.deleteRole slug deletedBy).Uses (naming.Lets t) := by
  have hlets := naming_onAccounts.lets (t := t)
  refine .bind (uses_send.mpr (lets_findRole _)) fun found => ?_
  cases found with
  | none => trivial
  | some x =>
      obtain ⟨id, role⟩ := x
      refine .bind (.bind (uses_send.mpr (Discipline.lets_read (k := .users) (a := .scan _)
        not_false)) fun _ => trivial) fun count => ?_
      split
      · trivial
      refine .bind (uses_transaction (hlets _ nofun nofun) (hlets _ nofun nofun)
        (hlets _ nofun nofun) (.bind (uses_send.mpr (hlets _ nofun nofun)) fun deletedAt =>
          .bind (uses_changeSingle (uses_send.mpr (Discipline.lets_read (k := .roles)
            (a := .scan _) not_false)) (fun i => uses_send.mpr (lets_delete (k := .roles) ?_))
            (hlets _ nofun nofun)) fun _ => uses_send.mpr (hlets _ nofun nofun))) fun _ =>
              .bind (uses_cacheService (hlets _ nofun nofun)) fun _ =>
                uses_invalidateRoleUsers (fun _ => hlets _ nofun nofun) id
      rintro old new hnew
      cases hnew
      rfl

/-- What an update of a role does once it has a slug. -/
theorem updateRoleRow_meets {id : ℕ} {sent newSlug title userType : Option String}
    {description : Option (Option String)} {access : Option (List String)}
    {audit : ℕ × Role → Service Unit}
    (htext : ∀ text, sent = some text → (calls t).text = some text)
    (haudit : ∀ updated, (audit updated).Uses (naming.Trusts (punctual calls) t .roles
      (Found .roles id sent newSlug))) :
    (rules setup calls).Meets (system setup) (punctual calls) t (fun _ _ => True)
      (fun _ _ => True) (changeOne roles .tx (.id id)
        (.update title newSlug userType description access) >>= fun updated =>
          audit updated >>= fun _ => pure updated)
      (Saw .roles t (Found .roles id sent newSlug)) :=
  .bind (change_meets (k := .roles) (w := .id id)
    (c := .update title newSlug userType description access)
    (fun i r h => by simpa [Condition.holds] using h) (fun _ h => h) htext) fun updated =>
      meets_rest (.bind (haudit updated) fun _ => trivial)

theorem updateRole_meets {slug : String} {data : UpdateRoleInput} {updatedBy : Option ℕ}
    (hcall : calls t = .updateRole slug data updatedBy) :
    (rules setup calls).Meets (system setup) (punctual calls) t (fun _ _ => True)
      (fun _ _ => True) (ExpressCore.updateRole setup slug data updatedBy) fun _ => True := by
  have hlets := naming_onAccounts.lets (t := t)
  refine .bind (meets_free (uses_send.mpr (lets_findRole _))) fun found => ?_
  cases found with
  | none => exact .throw (.const True) .refl
  | some x =>
      obtain ⟨id, role⟩ := x
      dsimp only
      have hvalid (access : List String) : (validateAccess access).Uses (naming.Lets t) := by
        unfold validateAccess
        dsimp only
        split <;> trivial
      split
      on_goal 1 => refine .bind (meets_free (hvalid _)) fun _ => ?_
      all_goals
        refine .bind (meets_transaction ?_) fun updated => meets_free (.bind (uses_cacheService
          (hlets _ nofun nofun)) fun _ => .bind (uses_invalidateRoleUsers
            (fun _ => hlets _ nofun nofun) id) fun _ => trivial)
        have haudit (newSlug : Option String) (updated : ℕ × Role) :
            (logActivity updatedBy "UPDATE" "Role" (some id) ("Role updated: " ++ updated.2.title)
              (some (roleJson role)) (some (roleJson updated.2)) .tx).Uses
              (naming.Trusts (punctual calls) t .roles (Found .roles id data.title newSlug)) :=
          uses_send.mpr (trusts_other (.inr rfl) nofun nofun)
        have htext (text : String) (h : data.title = some text) : (calls t).text = some text := by
          rw [hcall]
          exact h
        split
        · rename_i title htitle
          have hsent := (Option.filter_eq_some_iff.mp (Option.filter_eq_some_iff.mp htitle).1).1
          refine .bind (makeUniqueSlug_meets (slugOfRoleTaken_meets (some id)) _) fun slug => ?_
          refine .seq (fun newSlug => Saw .roles t (Found .roles id data.title newSlug))
            (.pure saw_stable fun s _ h found hfound => ?_) fun newSlug =>
              updateRoleRow_meets htext (haudit newSlug)
          obtain rfl : slug = found := Option.some.inj (Option.filter_eq_some_iff.mp hfound).1
          exact ⟨⟨title, hsent, h.1⟩, h.2⟩
        · exact .seq (fun newSlug => Saw .roles t (Found .roles id data.title newSlug))
            (.pure saw_stable fun _ _ _ _ h => nomatch h) fun newSlug =>
              updateRoleRow_meets htext (haudit newSlug)

end Calls

/-! ## Runs -/

/-- No two active users and no two active roles have the same slug. -/
structure SlugsUnique (s : State) : Prop where
  users : ∀ i j user user' slug, s.db.users.committed i = some user →
    s.db.users.committed j = some user' → user.deletedAt = none → user'.deletedAt = none →
    user.slug = some slug → user'.slug = some slug → i = j
  roles : ∀ i j role role', s.db.roles.committed i = some role →
    s.db.roles.committed j = some role' → role.deletedAt = none → role'.deletedAt = none →
    role.slug = role'.slug → i = j

theorem distinct_of_atRest (hstart : s₀.AtRest) (h : SlugsUnique s₀) : Distinct s₀ := by
  intro k i j r r' slug hr hr' hslug hslug'
  have hcommitted {i : ℕ} {r : k.Row} (hr : (k.table s₀.db).Version i r) :
      (k.table s₀.db).committed i = some r := by
    rcases hr with hr | ⟨t, hr⟩
    · exact hr
    · rw [(hstart.tables k).pending i] at hr
      cases hr
  cases k with
  | users =>
      simp only [slugOf, Option.ite_none_right_eq_some, Option.isNone_iff_eq_none] at hslug hslug'
      exact h.users i j r r' slug (hcommitted hr) (hcommitted hr') hslug.1 hslug'.1 hslug.2 hslug'.2
  | roles =>
      simp only [slugOf, Option.ite_none_right_eq_some, Option.isNone_iff_eq_none,
        Option.some.injEq] at hslug hslug'
      exact h.roles i j r r' (hcommitted hr) (hcommitted hr') hslug.1 hslug'.1
        (hslug.2.trans hslug'.2.symm)
  | _ => cases hslug

theorem slugsUnique_of_distinct (h : Distinct s) : SlugsUnique s where
  users i j user user' slug hi hj hactive hactive' hslug hslug' :=
    h .users i j user user' slug (.inl hi) (.inl hj) (by simp [slugOf, hactive, hslug])
      (by simp [slugOf, hactive', hslug'])
  roles i j role role' hi hj hactive hactive' hslug :=
    h .roles i j role role' role.slug (.inl hi) (.inl hj) (by simp [slugOf, hactive])
      (by simp [slugOf, hactive', hslug])

theorem slugs_stay_unique {c : Config ℕ Error Request Request.Reply State Unit}
    (hstart : s₀.AtRest) (h : SlugsUnique s₀)
    (hrun : (system setup).Reaches (punctual calls)
      (calling (fun t => (calls t).program setup) s₀) c) : SlugsUnique c.shared := by
  have hsound : (rules setup calls).Sound (system setup) (punctual calls) (fun _ _ _ => True)
      (fun _ _ _ => True) (calling (fun t => (calls t).program setup) s₀) := by
    refine hstart.sound (fun _ _ => True) (fun _ => trivial) fun t => ?_
    refine Rules.Meets.under (fun _ => True) ?_ fun _ _ _ => trivial
    cases hcall : calls t with
    | register userData => exact .bind (register_meets userData) fun _ => .pure (.const True) .refl
    | createUser data createdBy =>
        exact .bind (createUser_meets data createdBy) fun _ => .pure (.const True) .refl
    | updateUser slug data updatedBy =>
        exact .bind (updateUser_meets hcall) fun _ => .pure (.const True) .refl
    | updateProfile userId data =>
        exact .bind (updateProfile_meets hcall) fun _ => .pure (.const True) .refl
    | deleteUser slug deletedBy => exact meets_free (deleteUser_lets slug deletedBy)
    | createRole data createdBy =>
        exact .bind (createRole_meets data createdBy) fun _ => .pure (.const True) .refl
    | updateRole slug data updatedBy =>
        exact .bind (updateRole_meets hcall) fun _ => .pure (.const True) .refl
    | deleteRole slug deletedBy => exact meets_free (deleteRole_lets slug deletedBy)
  exact slugsUnique_of_distinct (keeping_induction nofun (fun _ _ _ => trivial) hsound hrun
    (distinct_of_atRest hstart h) fun s s' _ _ h hevent => h.step hevent)

/-! ## Two users with one name -/

theorem plainState_unique : SlugsUnique (plainState .empty) where
  users _ _ _ _ _ h := nomatch h
  roles _ _ _ _ h := nomatch h

/-- Every call creates a user with the same name. -/
def namesakes (t : ℕ) : Call :=
  .createUser
    { name := "Ada", email := "ada" ++ toString t, password := "secret", roleId := 3
      avatar := none } none

/-- A user is inserted with a slug that nobody has. -/
def orderly (_ : ℕ) (r : Request) (s : State) : Bool :=
  match r with
  | .sql (.users (.insert row)) => row.slug.all fun slug => s.db.users.ids.all fun j =>
      !(s.db.users.committed j).any (·.slug == some slug) &&
        !((s.db.users.pending j).bind fun x => x.2).any (·.slug == some slug)
  | .sql (.users (.visit _ _ _)) => false
  | .sql (.roles (.insert _)) => false
  | .sql (.roles (.visit _ _ _)) => false
  | _ => true

theorem inTime_of_orderly (r : Request) (s : State) (h : orderly t r s = true) :
    (namesakes t).InTime t r s where
  insert k row slug hr hslug := by
    subst hr
    cases k with
    | users =>
        simp only [slugOf, Option.ite_none_right_eq_some] at hslug
        have hfree : ∀ j ∈ s.db.users.ids,
            ((s.db.users.committed j).any (·.slug == some slug)) = false ∧
              (((s.db.users.pending j).bind fun x => x.2).any (·.slug == some slug)) = false := by
          simpa [orderly, TableName.sql, hslug.2] using h
        intro j r hversion hr
        obtain ⟨hcommitted, hpending⟩ := hfree j (mem_ids_of_version hversion)
        simp only [slugOf, Option.ite_none_right_eq_some] at hr
        rcases hversion with hr' | ⟨u, hr'⟩
        · have hr' : s.db.users.committed j = some r := hr'
          simp [hr', hr.2] at hcommitted
        · have hr' : s.db.users.pending j = some (u, some r) := hr'
          simp [hr', hr.2] at hpending
    | roles => cases h
    | _ => cases hslug
  scan k w text slug _ htext := nomatch htext
  visit k i w c slug hr hslug := by
    subst hr
    cases k with
    | users => cases h
    | roles => cases h
    | _ => cases hslug

/-- The second user is created after the first. -/
def inTurn : Config ℕ Error Request Request.Reply State Unit :=
  (system plainSetup).after
    (calling (fun t => (namesakes t).program plainSetup) (plainState .empty))
    (List.replicate 8 (.run 1 {}) ++ List.replicate 9 (.run 2 { fresh := 1 }))

theorem slugs_stay_unique_inTurn : SlugsUnique inTurn.shared ∧
    (inTurn.shared.db.users.committed 1).map (·.slug) = some (some "ada-1") :=
  ⟨slugs_stay_unique plainState_atRest plainState_unique
    (.of_passes orderly (fun _ => inTime_of_orderly) (fun _ _ => trivial) (by decide +kernel)),
    by decide +kernel⟩

/-- Both calls have found the slug free when the first writes it. -/
def raced : Config ℕ Error Request Request.Reply State Unit :=
  (system plainSetup).after
    (calling (fun t => (namesakes t).program plainSetup) (plainState .empty))
    (List.replicate 3 (.run 1 {}) ++ List.replicate 3 (.run 2 {}) ++
      List.replicate 5 (.run 1 {}) ++ List.replicate 5 (.run 2 { fresh := 1 }))

theorem slug_taken_twice : SlugsUnique (plainState .empty) ∧
    (system plainSetup).Reaches .any
      (calling (fun t => (namesakes t).program plainSetup) (plainState .empty)) raced ∧
    ¬ SlugsUnique raced.shared := by
  refine ⟨plainState_unique, .of_schedule (fun l _ _ _ => Machine.keeps_any l)
    (by decide +kernel), fun h => ?_⟩
  have hnamed (i : ℕ) (hi : (raced.shared.db.users.committed i).any (fun user =>
      user.deletedAt.isNone && user.slug == some "ada") = true) :
      ∃ user, raced.shared.db.users.committed i = some user ∧ user.deletedAt = none ∧
        user.slug = some "ada" := by
    simpa [Option.any_eq_true] using hi
  obtain ⟨user, hfirst, hactive, hslug⟩ := hnamed 0 (by decide +kernel)
  obtain ⟨user', hsecond, hactive', hslug'⟩ := hnamed 1 (by decide +kernel)
  exact absurd (h.users 0 1 user user' "ada" hfirst hsecond hactive hactive' hslug hslug')
    (by decide)

end ExpressCore.Slugs
