import ExpressCore.Model.User
import ExpressCore.Verification.Account.Requests
import ExpressCore.Verification.System.Calls
import ExpressCore.Verification.System.Sights
import ExpressCore.Verification.System.Start

/-! # Users and the roles they are assigned to -/

namespace ExpressCore.Assignments

open ReadCommitted Interleaving Interleaving.Program

/-- The calls that create and delete roles and that assign them. -/
inductive Call where
  | createRole (data : CreateRoleInput) (createdBy : Option ℕ)
  | deleteRole (slug : String) (deletedBy : Option ℕ)
  | createUser (data : CreateUserInput) (createdBy : Option ℕ)
  | updateUser (slug : String) (data : UpdateUserInput) (updatedBy : Option ℕ)
  | register (userData : RegisterInput)

def Call.program (setup : Setup) : Call → Service Unit
  | .createRole data createdBy => do
      let _ ← ExpressCore.createRole setup data createdBy
      pure ()
  | .deleteRole slug deletedBy => ExpressCore.deleteRole slug deletedBy
  | .createUser data createdBy => do
      let _ ← ExpressCore.createUser setup data createdBy
      pure ()
  | .updateUser slug data updatedBy => do
      let _ ← ExpressCore.updateUser setup slug data updatedBy
      pure ()
  | .register userData => do
      let _ ← ExpressCore.register setup userData
      pure ()

/-- An active user with role `r`. -/
def Assigned (r : ℕ) (user : User) : Prop := user.deletedAt = none ∧ user.roleId = some r

/-- Role `r` is active and stays so whatever open transactions do. -/
def Open (r : ℕ) (s : State) : Prop :=
  (∃ role, s.db.roles.committed r = some role ∧ role.deletedAt = none) ∧
    ∀ t v, s.db.roles.pending r = some (t, v) → ∃ role, v = some role ∧ role.deletedAt = none

/-- When a request of a call is in time. The role that an administrator assigns is open, the
role that a registration looked up still is, and nobody has got a role since its users were
counted. -/
def Call.InTime (t : ℕ) (r : Request) (s : State) : Call → Prop
  | .createRole _ _ => True
  | .deleteRole _ _ => ∀ i w now, r = .sql (.roles (.visit i w (.delete now))) →
      ∀ j user, s.db.users.Version j user → Assigned i user →
        ∃ counted, s.db.users.snapshot t j = some counted ∧ Assigned i counted
  | .createUser data _ => ∀ row, r = .sql (.users (.insert row)) → Open data.roleId s
  | .updateUser _ data _ => ∀ i w c, r = .sql (.users (.visit i w c)) → ∀ roleId,
      data.roleId = some roleId → (∃ user, s.db.users.view t i = some user ∧
        user.deletedAt = none) → Open roleId s
  | .register _ => ∀ row, r = .sql (.users (.insert row)) → ∀ roleId role,
      row.roleId = some roleId → s.db.roles.snapshot t roleId = some role →
      role.deletedAt = none → Open roleId s

/-- Runs in which every request is in time. -/
def punctual (calls : ℕ → Call) : Assumption ℕ Request State where
  request t r s := (calls t).InTime t r s
  move _ _ := True

/-- Roles are assigned when they are open, and deleted when nobody has them. -/
def assigning : Discipline where
  tables k := k = .users ∨ k = .roles
  change
    | t, .users, a, s => ∀ i new, a.Wrote t s.db.users i (some new) → ∀ r, Assigned r new →
        (∃ old, s.db.users.view t i = some old ∧ Assigned r old) ∨ Open r s
    | t, .roles, a, s => ∀ i old new, a.Wrote t s.db.roles i (some new) →
        s.db.roles.view t i = some old → old.deletedAt = none → new.deletedAt ≠ none →
        ∀ j user, s.db.users.Version j user → ¬ Assigned i user
    | _, _, _, _ => True
  commit _ _ := True
  other _ _ _ := True
  commit_free _ _ _ := trivial

variable {setup : Setup} {A : Assumption ℕ Request State} {calls : ℕ → Call} {t i : ℕ}
  {s s' s₀ : State}

/-! ## The invariant -/

/-- Every active user, committed or not, has an open role or none. -/
def Settled (s : State) : Prop :=
  ∀ i user, s.db.users.Version i user → ∀ r, Assigned r user → Open r s

theorem open_of_same (h : Open i s) (hcommitted : s'.db.roles.committed = s.db.roles.committed)
    (hpending : s'.db.roles.pending = s.db.roles.pending) : Open i s' := by
  rw [Open, hcommitted, hpending]
  exact h

theorem open_of_commit (h : Open i s) (htable : s'.db.roles = s.db.roles.commit t) :
    Open i s' := by
  obtain ⟨hcommitted, hpending⟩ := h
  rw [Open, htable]
  constructor
  · rcases s.db.roles.commit_committed_cases (t := t) (i := i) with ⟨v, hv, heq⟩ | ⟨-, heq⟩
    · obtain ⟨role, rfl, hrole⟩ := hpending t v hv
      exact ⟨role, heq, hrole⟩
    · rw [heq]
      exact hcommitted
  · exact fun u v h => hpending u v (Table.commit_pending.mp h).1

theorem open_of_abort (h : Open i s) (htable : s'.db.roles = s.db.roles.abort t) : Open i s' := by
  rw [Open, htable]
  exact ⟨h.1, fun u v hv => h.2 u v (Table.abort_pending.mp hv).1⟩

theorem open_of_view (h : Open i s) {old : Role} (hview : s.db.roles.view t i = some old) :
    old.deletedAt = none := by
  by_cases hp : ∃ v, s.db.roles.pending i = some (t, v)
  · obtain ⟨v, hv⟩ := hp
    obtain ⟨role, rfl, hrole⟩ := h.2 t v hv
    rw [Table.view_of_pending hv] at hview
    exact Option.some.inj hview ▸ hrole
  · rw [Table.view_of_not_pending fun v hv => hp ⟨v, hv⟩] at hview
    obtain ⟨role, hcommitted, hrole⟩ := h.1
    rw [hcommitted] at hview
    exact Option.some.inj hview ▸ hrole

/-- No statement removes the row of a role. -/
theorem role_of_wrote {T : Table ℕ ℕ Role} {a : Access ℕ Role RoleWhere RoleChange}
    {v : Option Role} (h : a.Wrote t T i v) :
    ∃ new, v = some new ∧ (i ∉ T.ids ∨ ∃ old, T.view t i = some old) := by
  have hsome (c : RoleChange) (old : Role) :
      ∃ new, ReadCommitted.Change.apply c old = some new := by
    cases c <;> exact ⟨_, rfl⟩
  cases h with
  | visit _ w c old _ hview =>
      obtain ⟨new, hnew⟩ := hsome c old
      exact ⟨new, hnew, .inr ⟨old, hview⟩⟩
  | visitUnlocked _ w c old _ hview =>
      obtain ⟨new, hnew⟩ := hsome c old
      exact ⟨new, hnew, .inr ⟨old, hview⟩⟩
  | insert _ row hfresh => exact ⟨row, rfl, .inl hfresh⟩
  | create _ key row guard c _ _ hfresh => exact ⟨row, rfl, .inl hfresh⟩
  | update _ key row guard c old _ _ hview =>
      obtain ⟨new, hnew⟩ := hsome c old
      exact ⟨new, hnew, .inr ⟨old, hview⟩⟩

theorem Settled.step (h : Settled s) (hevent : Event setup A assigning s s') : Settled s' := by
  intro i user hversion r hassigned
  cases hevent.written with
  | same hsame =>
      obtain ⟨hcommitted, hpending⟩ := hsame .users
      obtain ⟨hcommitted', hpending'⟩ := hsame .roles
      refine open_of_same (h i user ?_ r hassigned) hcommitted' hpending'
      simp only [TableName.table] at hcommitted hpending
      rwa [Table.Version, hcommitted, hpending] at hversion
  | write t k a j v hchange hA hwrote htable hothers =>
      by_cases husers : k = .users
      · subst husers
        have hroles : s'.db.roles = s.db.roles := hothers .roles (by decide)
        have htable : s'.db.users = s.db.users.write t j v := htable
        suffices hopen : Open r s from open_of_same hopen (by rw [hroles]) (by rw [hroles])
        rw [htable] at hversion
        rcases version_of_write hversion with hversion | ⟨rfl, rfl⟩
        · exact h i user hversion r hassigned
        · rcases hchange (.inl rfl) i user hwrote r hassigned with ⟨old, hold, hr⟩ | hopen
          · exact h i old (version_of_view hold) r hr
          · exact hopen
      · have husers : s'.db.users = s.db.users := hothers .users (Ne.symm husers)
        rw [husers] at hversion
        have hopen := h i user hversion r hassigned
        by_cases hroles : k = .roles
        · subst hroles
          have htable : s'.db.roles = s.db.roles.write t j v := htable
          rw [Open, htable]
          refine ⟨hopen.1, fun u w hw => ?_⟩
          rcases Table.write_pending hw with ⟨rfl, heq⟩ | ⟨-, hw⟩
          · obtain ⟨rfl, rfl⟩ := Prod.mk.inj heq
            obtain ⟨new, rfl, hfresh | ⟨old, hview⟩⟩ := role_of_wrote hwrote
            · obtain ⟨role, hrole, -⟩ := hopen.1
              exact (hfresh (s.db.roles.mem_of_committed _ role hrole)).elim
            · refine ⟨new, rfl, ?_⟩
              by_contra hdeleted
              exact hchange (.inr rfl) _ old new hwrote hview (open_of_view hopen hview) hdeleted
                i user hversion hassigned
          · exact hopen.2 u w hw
        · have hroles : s'.db.roles = s.db.roles := hothers .roles (Ne.symm hroles)
          exact open_of_same hopen (by rw [hroles]) (by rw [hroles])
  | commit t hcommit htables =>
      have husers : s'.db.users = s.db.users.commit t := htables .users
      rw [husers] at hversion
      exact open_of_commit (h i user (version_of_commit hversion) r hassigned) (htables .roles)
  | abort t htables =>
      have husers : s'.db.users = s.db.users.abort t := htables .users
      rw [husers] at hversion
      exact open_of_abort (h i user (version_of_abort hversion) r hassigned) (htables .roles)

/-! ## The calls -/

theorem assigning_onAccounts : assigning.OnAccounts :=
  ⟨fun _ hk => hk, fun _ _ => trivial, fun _ _ _ => trivial⟩

/-- Requests other than accesses to users and roles. -/
theorem lets_other {r : Request} (husers : r.table? ≠ some .users)
    (hroles : r.table? ≠ some .roles) : assigning.Lets t r :=
  assigning_onAccounts.lets r husers hroles

theorem uses_transactional {α : Type} {body : Service α} {allowed : Request → Prop}
    (h : ∀ r, assigning.Lets t r → allowed r) (hbody : body.Uses allowed) :
    (transaction body).Uses allowed :=
  uses_transaction (h _ (lets_other nofun nofun)) (h _ (lets_other nofun nofun))
    (h _ (lets_other nofun nofun)) hbody

theorem createRole_lets (data : CreateRoleInput) (createdBy : Option ℕ) :
    (ExpressCore.createRole setup data createdBy).Uses (assigning.Lets t) := by
  have hvalid : (validateAccess data.access).Uses (assigning.Lets t) := by
    unfold validateAccess
    dsimp only
    split <;> trivial
  refine .bind hvalid fun _ => uses_transactional (fun _ => id) (.bind (uses_makeUniqueSlug
    (uses_slugOfRoleTaken lets_findRole none) _) fun slug => .bind (uses_create (uses_send.mpr ?_)
      (lets_other nofun nofun)) fun id => .bind (uses_send.mpr (lets_other nofun nofun))
        fun _ => trivial)
  refine Discipline.lets_access (k := .roles) fun _ _ s i old new hwrote => ?_
  cases hwrote with
  | insert _ row hfresh => exact fun _ _ hdeleted => (hdeleted rfl).elim

section Calls

variable {pre : State → Prop}

theorem createUser_admits {data : CreateUserInput} {createdBy : Option ℕ}
    (hcall : calls t = .createUser data createdBy) :
    (ExpressCore.createUser setup data createdBy).Uses
      (assigning.Admits (punctual calls) t pre) := by
  have hlets (r : Request) (h : assigning.Lets t r) :
      assigning.Admits (punctual calls) t pre r := h.admits
  refine uses_transactional hlets (.bind (uses_send.mpr (hlets _
    (lets_findUser _))) fun existing => ?_)
  split
  · trivial
  · refine .bind
      ((uses_makeUniqueSlug (uses_slugOfUserTaken lets_findUser none) _).mono hlets) fun slug =>
      .bind ((uses_bcryptHash (lets_other nofun nofun) _).mono hlets) fun hashed =>
      .bind (.bind (uses_create (uses_send.mpr ?_) (hlets _ (lets_other nofun nofun)))
        fun _ => trivial) fun user => .bind (uses_send.mpr (hlets _ (lets_other nofun nofun)))
          fun _ => trivial
    refine Discipline.admits_access (k := .users) fun s hA _ _ i new hwrote r hassigned => ?_
    have hA : (calls t).InTime t _ s := hA
    rw [hcall] at hA
    cases hwrote with
    | insert _ row hfresh =>
        obtain rfl : data.roleId = r := Option.some.inj hassigned.2
        exact .inr (hA _ rfl)

theorem updateUserInTransaction_admits {slug : String} {data : UpdateUserInput}
    {updatedBy : Option ℕ} (hcall : calls t = .updateUser slug data updatedBy) (id : ℕ)
    (user : User) : (updateUserInTransaction setup id user data updatedBy).Uses
      (assigning.Admits (punctual calls) t pre) := by
  have hlets (r : Request) (h : assigning.Lets t r) :
      assigning.Admits (punctual calls) t pre r := h.admits
  have hother (r : Request) (husers : r.table? ≠ some .users) (hroles : r.table? ≠ some .roles) :
      assigning.Admits (punctual calls) t pre r := hlets r (lets_other husers hroles)
  have hvisit (data' : UserUpdate) (hdata : data'.roleId = data.roleId) (i : ℕ) :
      assigning.Admits (punctual calls) t pre
        (.sql (.users (.visit i (.id id) (.update data')))) := by
    refine Discipline.admits_access (k := .users) fun s hA _ _ j new hwrote r hassigned => ?_
    have hA : (calls t).InTime t _ s := hA
    rw [hcall] at hA
    generalize hnew : some new = v at hwrote
    cases hwrote with
    | visit _ w c old hlocked hview =>
        obtain rfl : new = old.apply data' := Option.some.inj hnew
        have hrole : (data'.roleId.orElse fun _ => old.roleId) = some r := hassigned.2
        rw [hdata] at hrole
        cases hsent : data.roleId with
        | none =>
            rw [hsent] at hrole
            exact .inl ⟨old, hview, hassigned.1, hrole⟩
        | some roleId =>
            rw [hsent] at hrole
            exact .inr (hA _ _ _ rfl r (hsent.trans hrole) ⟨old, hview, hassigned.1⟩)
  refine .bind ((uses_slugForName lets_findUser).mono hlets) fun newSlug => ?_
  dsimp only
  split
  on_goal 1 => refine .bind (uses_deleteFile (hother _ nofun nofun)) fun _ => ?_
  all_goals
    exact .bind (uses_hashIfSent (hother _ nofun nofun) _) fun password =>
      .bind (uses_changeSingle
        (uses_send.mpr (hlets _ (Discipline.lets_read (k := .users) (a := .scan _) not_false)))
        (fun i => uses_send.mpr (hvisit _ rfl i)) (hother _ nofun nofun)) fun updated =>
      .bind (uses_send.mpr (hother _ nofun nofun)) fun _ => trivial

theorem updateUser_admits {slug : String} {data : UpdateUserInput} {updatedBy : Option ℕ}
    (hcall : calls t = .updateUser slug data updatedBy) :
    (ExpressCore.updateUser setup slug data updatedBy).Uses
      (assigning.Admits (punctual calls) t pre) := by
  have hlets (r : Request) (h : assigning.Lets t r) :
      assigning.Admits (punctual calls) t pre r := h.admits
  have hother (r : Request) (husers : r.table? ≠ some .users) (hroles : r.table? ≠ some .roles) :
      assigning.Admits (punctual calls) t pre r := hlets r (lets_other husers hroles)
  have hread (w : UserWhere) : assigning.Admits (punctual calls) t pre (.sql (.users (.find w))) :=
    hlets _ (lets_findUser w)
  refine .bind (uses_send.mpr (hread _)) fun found => ?_
  cases found with
  | none => trivial
  | some x =>
      obtain ⟨id, user⟩ := x
      have hrest : (transaction (updateUserInTransaction setup id user data updatedBy) >>=
          fun updated => invalidateAccess >>= fun _ =>
            cacheService (.del [.userRole id]) >>= fun _ => pure updated).Uses
          (assigning.Admits (punctual calls) t pre) := by
        refine .bind (uses_transactional hlets (updateUserInTransaction_admits hcall id user))
          fun updated => .bind (uses_cacheService (hother _ nofun nofun)) fun _ =>
            .bind (uses_cacheService (hother _ nofun nofun)) fun _ => trivial
      dsimp only
      split
      · refine .bind (uses_send.mpr (hread _)) fun existing => ?_
        split
        · trivial
        · exact hrest
      · exact hrest

end Calls

/-- What the count of `deleteRole` rules out. -/
def Counted (id : ℕ) (view : ℕ → Option User) : Prop :=
  ∀ j user, view j = some user → ¬ Assigned id user

theorem countUsers_meets (id : ℕ) {err : Error → State → Prop} :
    (keeping setup False (punctual calls) assigning).Meets (system setup) (punctual calls) t
      (fun count => Saw .users t fun view => count = 0 → Counted id view) err (countUsers id)
      fun _ => True := by
  refine .bind ((meets_scan (k := .users) (fun rows view => rows.length = 0 → Counted id view)
    fun s rows _ _ hrows hnil j user hview hassigned => ?_).under
      (Saw .users t fun _ => True) fun _ _ _ => trivial) fun rows => .pure saw_stable .refl
  obtain rfl := List.length_eq_zero_iff.mp hnil
  have hmem := (hrows (j, user)).mpr ⟨hview, by
    simp [Condition.holds, hassigned.1, hassigned.2]⟩
  exact nomatch hmem

theorem deleteRole_meets {slug : String} {deletedBy : Option ℕ}
    (hcall : calls t = .deleteRole slug deletedBy) :
    (keeping setup False (punctual calls) assigning).Meets (system setup) (punctual calls) t
      (fun _ _ => True) (fun _ _ => True) (ExpressCore.deleteRole slug deletedBy)
      fun _ => True := by
  refine .bind (meets_admits (uses_send.mpr (lets_findRole _).admits)) fun found => ?_
  cases found with
  | none => exact .throw (.const True) .refl
  | some x =>
      obtain ⟨id, role⟩ := x
      refine .bind (countUsers_meets id) fun count => ?_
      split
      · exact .throw (.const True) fun _ _ _ => trivial
      · rename_i hcount
        refine ((meets_saw (k := .users) (P := Counted id) ?_).mono (fun _ _ _ _ => trivial)
          fun _ _ _ _ => trivial).weaken fun s _ h => h (Nat.eq_zero_of_not_pos hcount)
        have hother (r : Request) (husers : r.table? ≠ some .users)
            (hroles : r.table? ≠ some .roles) :
            assigning.Trusts (punctual calls) t .users (Counted id) r :=
          ⟨(Request.skips_of_table husers).blind, (lets_other husers hroles).admits⟩
        have hrole (a : Access ℕ Role RoleWhere RoleChange)
            (ha : assigning.Admits (punctual calls) t (Saw .users t (Counted id))
              (.sql (.roles a))) :
            assigning.Trusts (punctual calls) t .users (Counted id) (.sql (.roles a)) :=
          ⟨(Request.skips_of_table (k := .users) (r := .sql (.roles a)) nofun).blind, ha⟩
        refine .bind (uses_transaction (hother _ nofun nofun) (hother _ nofun nofun)
          (hother _ nofun nofun) (.bind (uses_send.mpr (hother _ nofun nofun)) fun deletedAt =>
            .bind (uses_changeSingle (uses_send.mpr (hrole _
                (Discipline.lets_read (k := .roles) (a := .scan _) not_false).admits))
              (fun i => uses_send.mpr (hrole _
                (Discipline.admits_access (k := .roles) fun s hA hpre _ => ?_)))
              (hother _ nofun nofun)) fun _ => uses_send.mpr (hother _ nofun nofun)))
          fun _ => .bind (uses_cacheService (hother _ nofun nofun)) fun _ =>
            uses_invalidateRoleUsers (fun _ => hother _ nofun nofun) id
        have hA : (calls t).InTime t _ s := hA
        rw [hcall] at hA
        intro j old new hwrote _ _ _ k user hversion hassigned
        generalize some new = v at hwrote
        cases hwrote with
        | visit _ w c old hlocked hview hw =>
            obtain rfl : i = id := by simpa [Condition.holds] using hw
            obtain ⟨counted, hcounted, hrole⟩ := hA _ _ _ rfl k user hversion hassigned
            exact hpre k counted hcounted hrole

/-- The role a registration may assign. -/
def LookedUp (roleId : Option ℕ) (view : ℕ → Option Role) : Prop :=
  ∀ r, roleId = some r → ∃ role, view r = some role ∧ role.deletedAt = none

theorem defaultRoleId_meets :
    (keeping setup False (punctual calls) assigning).Meets (system setup) (punctual calls) t
      (fun roleId => Saw .roles t (LookedUp roleId)) (fun _ _ => True) (defaultRoleId setup)
      fun _ => True := by
  unfold defaultRoleId
  split
  · exact .pure saw_stable fun _ _ _ r h => nomatch h
  · rename_i slug hslug
    refine .seq (fun roleId => Saw .roles t (LookedUp roleId)) (.bind (meets_find (k := .roles)
      (fun found => LookedUp (found.map Prod.fst)) (fun _ _ r h => nomatch h)
      fun view i role hview hw r hr => ?_) fun found => .pure saw_stable .refl) fun roleId => ?_
    · obtain rfl : i = r := Option.some.inj hr
      simp only [Condition.holds, Bool.and_eq_true, Option.isNone_iff_eq_none] at hw
      exact ⟨role, hview, hw.1.2⟩
    · cases roleId with
      | none => exact .throw (.const True) fun _ _ _ => trivial
      | some roleId => exact .pure saw_stable .refl

theorem registerInTransaction_meets {userData : RegisterInput}
    (hcall : calls t = .register userData) (otpMode : Bool) :
    (keeping setup False (punctual calls) assigning).Meets (system setup) (punctual calls) t
      (fun _ _ => True) (fun _ _ => True) (registerInTransaction setup userData otpMode)
      fun _ => True := by
  have hfree {α : Type} {p : Service α} (hp : p.Uses (assigning.Lets t)) :
      (keeping setup False (punctual calls) assigning).Meets (system setup) (punctual calls) t
        (fun _ _ => True) (fun _ _ => True) p fun _ => True :=
    meets_lets hp
  have hfind (w : UserWhere) : (users (.find w)).Uses (assigning.Lets t) :=
    uses_send.mpr (lets_findUser w)
  have hother (roleId : Option ℕ) (r : Request) (husers : r.table? ≠ some .users)
      (hroles : r.table? ≠ some .roles) :
      assigning.Trusts (punctual calls) t .roles (LookedUp roleId) r :=
    ⟨(Request.skips_of_table hroles).blind, (lets_other husers hroles).admits⟩
  have huser (roleId : Option ℕ) (a : Access ℕ User UserWhere UserChange)
      (ha : assigning.Admits (punctual calls) t (Saw .roles t (LookedUp roleId))
        (.sql (.users a))) :
      assigning.Trusts (punctual calls) t .roles (LookedUp roleId) (.sql (.users a)) :=
    ⟨(Request.skips_of_table (k := .roles) (r := .sql (.users a)) nofun).blind, ha⟩
  have hslug (roleId : Option ℕ) : (makeUniqueSlug setup userData.name (slugOfUserTaken none)).Uses
      (assigning.Trusts (punctual calls) t .roles (LookedUp roleId)) :=
    uses_makeUniqueSlug (uses_slugOfUserTaken (fun w => huser roleId _ (lets_findUser w).admits)
      none) _
  have hinsert (roleId : Option ℕ) (row : User) (hrow : row.roleId = roleId) :
      (createUserRow .tx row).Uses
        (assigning.Trusts (punctual calls) t .roles (LookedUp roleId)) := by
    refine .bind (uses_create (uses_send.mpr (huser roleId _ (Discipline.admits_access
      (k := .users) fun s hA hpre _ i new hwrote r hassigned => ?_))) (hother _ _ nofun nofun))
        fun _ => trivial
    have hA : (calls t).InTime t _ s := hA
    rw [hcall] at hA
    cases hwrote with
    | insert _ row hfresh =>
        obtain ⟨role, hview, hrole⟩ := hpre r (hrow.symm.trans hassigned.2)
        exact .inr (hA _ rfl r role hassigned.2 hview hrole)
  have hrest {p : Option ℕ → Service (ℕ × User)}
      (hp : ∀ roleId, (p roleId).Uses
        (assigning.Trusts (punctual calls) t .roles (LookedUp roleId))) :
      (keeping setup False (punctual calls) assigning).Meets (system setup) (punctual calls) t
        (fun _ _ => True) (fun _ _ => True) (defaultRoleId setup >>= p) fun _ => True :=
    .bind defaultRoleId_meets fun roleId => (meets_saw (hp roleId)).mono
      (fun _ _ _ _ => trivial) fun _ _ _ _ => trivial
  unfold registerInTransaction
  cases otpMode with
  | true =>
      simp only [↓reduceIte]
      refine .bind (hfree (.bind (hfind _) fun _ => trivial)) fun existing => ?_
      split
      · exact .throw (.const True) .refl
      exact .bind (hfree (uses_consumeForRegistration (fun _ => lets_other) _ _)) fun _ =>
        hrest fun roleId => .bind (uses_bcryptHash (hother _ _ nofun nofun) _) fun _ =>
          .bind (hslug roleId) fun _ => .bind (hinsert roleId _ rfl) fun _ => trivial
  | false =>
      simp only [Bool.false_eq_true, ↓reduceIte]
      refine .bind (hfree (hfind _)) fun user => .bind (hfree trivial) fun existing => ?_
      split
      · exact .throw (.const True) .refl
      exact hrest fun roleId => .bind (uses_bcryptHash (hother _ _ nofun nofun) _) fun _ =>
        .bind (hslug roleId) fun _ => .bind (hinsert roleId _ rfl) fun user =>
          uses_verificationMail (hother roleId) user

theorem register_meets {userData : RegisterInput} (hcall : calls t = .register userData) :
    (keeping setup False (punctual calls) assigning).Meets (system setup) (punctual calls) t
      (fun _ _ => True) (fun _ _ => True) (ExpressCore.register setup userData)
      fun _ => True := by
  have hfree {α : Type} {p : Service α} (hp : p.Uses (assigning.Lets t)) :
      (keeping setup False (punctual calls) assigning).Meets (system setup) (punctual calls) t
        (fun _ _ => True) (fun _ _ => True) p fun _ => True :=
    meets_lets hp
  refine transaction_meets (hfree (uses_send.mpr (lets_other nofun nofun))) ?_
    (fun error => .bind (hfree (uses_send.mpr (lets_other nofun nofun))) fun _ =>
      .throw (.const True) .refl)
    fun value => .bind (hfree (uses_send.mpr (lets_other nofun nofun))) fun _ =>
      .pure (.const True) .refl
  exact registerInTransaction_meets hcall _

/-! ## Runs -/

/-- No active user is assigned to a deleted role. -/
def RolesActive (s : State) : Prop :=
  ∀ i user, s.db.users.committed i = some user → ∀ r, Assigned r user →
    ∃ role, s.db.roles.committed r = some role ∧ role.deletedAt = none

theorem settled_of_atRest (hstart : s₀.AtRest) (h : RolesActive s₀) : Settled s₀ := by
  rintro i user (hcommitted | ⟨t, hpending⟩) r hassigned
  · refine ⟨h i user hcommitted r hassigned, fun t v hv => ?_⟩
    have hnone : s₀.db.roles.pending r = none := (hstart.tables .roles).pending r
    rw [hnone] at hv
    cases hv
  · have hnone : s₀.db.users.pending i = none := (hstart.tables .users).pending i
    rw [hnone] at hpending
    cases hpending

theorem roles_stay_active {c : Config ℕ Error Request Request.Reply State Unit}
    (hstart : s₀.AtRest) (h : RolesActive s₀)
    (hrun : (system setup).Reaches (punctual calls)
      (calling (fun t => (calls t).program setup) s₀) c) : RolesActive c.shared := by
  have hsound : (keeping setup False (punctual calls) assigning).Sound (system setup)
      (punctual calls) (fun _ _ _ => True) (fun _ _ _ => True)
      (calling (fun t => (calls t).program setup) s₀) := by
    refine hstart.sound (fun _ _ => True) (fun _ => trivial) fun t => ?_
    refine Rules.Meets.under (fun _ => True) ?_ fun _ _ _ => trivial
    cases hcall : calls t with
    | createRole data createdBy =>
        exact .bind (meets_lets (createRole_lets data createdBy)) fun _ => .pure (.const True) .refl
    | deleteRole slug deletedBy => exact deleteRole_meets hcall
    | createUser data createdBy =>
        exact .bind (meets_admits (createUser_admits hcall)) fun _ => .pure (.const True) .refl
    | updateUser slug data updatedBy =>
        exact .bind (meets_admits (updateUser_admits hcall)) fun _ => .pure (.const True) .refl
    | register userData =>
        exact .bind (register_meets hcall) fun _ => .pure (.const True) .refl
  have hsettled : Settled c.shared :=
    keeping_induction nofun (fun _ _ _ => trivial) hsound hrun (settled_of_atRest hstart h)
      fun s s' _ _ h hevent => h.step hevent
  exact fun i user hcommitted r hassigned => (hsettled i user (.inl hcommitted) r hassigned).1

/-! ## A race of a deletion and an assignment -/

def editorRole : Role :=
  { slug := "editor", title := "Editor", userType := "staff", description := none, access := []
    deletedAt := none }

/-- One role and nobody who has it. -/
def unassigned : State :=
  { plainState .empty with db := { (plainState .empty).db with roles := oneRow 3 editorRole } }

theorem unassigned_atRest : unassigned.AtRest where
  tables k := by
    cases k with
    | roles => exact oneRow_atRest 3 _
    | _ => exact Table.empty_atRest
  poisoned _ := rfl
  seen := rfl
  minted := rfl
  families := rfl
  comparisons := rfl
  tickets := rfl

theorem unassigned_active : RolesActive unassigned := fun _ _ h => nomatch h

/-- Thread 1 deletes the role, the others create a user with it. -/
def raced (t : ℕ) : Call :=
  if t = 1 then .deleteRole "editor" none
  else .createUser
    { name := "Ada", email := "ada@example.org", password := "secret", roleId := 3
      avatar := none } none

/-- The role is open when the user is inserted, and is not deleted. -/
def orderly (_ : ℕ) (r : Request) (s : State) : Bool :=
  match r with
  | .sql (.roles (.visit _ _ _)) => false
  | .sql (.users (.insert _)) =>
      (s.db.roles.committed 3).any (·.deletedAt.isNone) && (s.db.roles.pending 3).isNone
  | _ => true

theorem inTime_of_orderly (r : Request) (s : State) (h : orderly t r s = true) :
    (raced t).InTime t r s := by
  unfold raced
  split
  · rintro i w now rfl
    simp [orderly] at h
  · rintro row rfl
    simp only [orderly, Bool.and_eq_true, Option.any_eq_true, Option.isNone_iff_eq_none] at h
    obtain ⟨⟨role, hrole, hactive⟩, hpending⟩ := h
    exact ⟨⟨role, hrole, hactive⟩, fun u v hv => nomatch hpending.symm.trans hv⟩

/-- The user is created before the deletion counts. -/
def inTurn : Config ℕ Error Request Request.Reply State Unit :=
  (system plainSetup).after (calling (fun t => (raced t).program plainSetup) unassigned)
    (.run 1 {} :: List.replicate 8 (.run 2 {}) ++ [.run 1 {}])

theorem roles_stay_active_inTurn : RolesActive inTurn.shared ∧
    (inTurn.thread 1).error? = some (.app
      "Cannot delete role: 1 user(s) are still assigned to this role" 409) :=
  ⟨roles_stay_active unassigned_atRest unassigned_active
    (.of_passes orderly (fun _ => inTime_of_orderly) (fun _ _ => trivial) (by decide +kernel)),
    by decide +kernel⟩

/-- The user is created between the count and the deletion. -/
def overtaken : Config ℕ Error Request Request.Reply State Unit :=
  (system plainSetup).after (calling (fun t => (raced t).program plainSetup) unassigned)
    (List.replicate 2 (.run 1 {}) ++ List.replicate 8 (.run 2 {}) ++
      List.replicate 7 (.run 1 { fresh := 1 }))

theorem assigned_role_deleted : unassigned.AtRest ∧ RolesActive unassigned ∧
    (system plainSetup).Reaches .any (calling (fun t => (raced t).program plainSetup) unassigned)
      overtaken ∧ ¬ RolesActive overtaken.shared := by
  refine ⟨unassigned_atRest, unassigned_active,
    .of_schedule (fun l _ _ _ => Machine.keeps_any l) (by decide +kernel), fun h => ?_⟩
  obtain ⟨user, huser, hdeleted, hrole⟩ :
      ∃ user, overtaken.shared.db.users.committed 0 = some user ∧
        user.deletedAt = none ∧ user.roleId = some 3 := by
    refine ⟨((overtaken.shared.db.users.committed 0).getD
      ⟨none, none, none, none, none, none, false, none⟩), ?_, ?_, ?_⟩ <;> decide +kernel
  obtain ⟨role, hcommitted, hactive⟩ := h 0 user huser 3 ⟨hdeleted, hrole⟩
  have hgone : (overtaken.shared.db.roles.committed 3).all (·.deletedAt.isSome) = true := by
    decide +kernel
  simp [hcommitted, hactive] at hgone

end ExpressCore.Assignments
