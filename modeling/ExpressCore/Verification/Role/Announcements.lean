import ExpressCore.Verification.Role.Freshness

/-! # Changes of access rights and the requests behind gates

A change announces itself by an increment of the version after its commit. -/

namespace ExpressCore.Freshness

open ReadCommitted Interleaving Interleaving.Program

variable {setup : Setup} {base k n t u : ℕ} {s s' s₀ : State}

/-- The changes that can alter somebody's access. -/
inductive Change where
  | updateRole (slug : String) (data : UpdateRoleInput) (updatedBy : Option ℕ)
  | deleteRole (slug : String) (deletedBy : Option ℕ)
  | updateUser (slug : String) (data : UpdateUserInput) (updatedBy : Option ℕ)
  | deleteUser (slug : String) (deletedBy : Option ℕ)

def Change.program (setup : Setup) : Change → Service Unit
  | .updateRole slug data updatedBy => do
      let _ ← ExpressCore.updateRole setup slug data updatedBy
      pure ()
  | .deleteRole slug deletedBy => ExpressCore.deleteRole slug deletedBy
  | .updateUser slug data updatedBy => do
      let _ ← ExpressCore.updateUser setup slug data updatedBy
      pure ()
  | .deleteUser slug deletedBy => ExpressCore.deleteUser slug deletedBy

/-- What a request does behind its gates: a change, or anything that leaves the cached access
rights alone. -/
inductive Work where
  | change (kind : Change)
  | other (p : Service Unit) (plain : p.Uses Plain)

/-- The answer tells whether a change was made. -/
def Work.program (setup : Setup) : Work → Service Bool
  | .change kind => do
      kind.program setup
      pure true
  | .other p _ => do
      p
      pure false

/-- A request of a user for a route with some gates, or without any. -/
structure Call where
  userId : ℕ
  gates : List Gate
  work : Work

def Call.program (setup : Setup) (call : Call) : Service Bool :=
  gated call.userId call.gates (call.work.program setup)

/-! ## What a change leaves -/

/-- Thread `t` has incremented the version after its last commit. -/
def Announced (t : ℕ) (s : State) : Prop := (t, s.db.committedAt t) ∈ s.cache.bumped

theorem announced_stable : (rules setup base).Stable t (Announced t) := by
  intro s s' _ _ hmove h
  obtain ⟨new, hbumped⟩ := bumped_of_elsewhere hmove.1
  have hcommitted : s'.db.committedAt t = s.db.committedAt t := by
    obtain ⟨⟨v, hne, ⟨r, o, reply, -, hexec⟩ | rfl⟩ | ⟨o, hmove, -⟩, -⟩ := hmove
    · exact (State.Moves.exec hexec).db.committedAt t hne.symm
    · rfl
    · rw [(move_exec hmove).1]
  unfold Announced
  rw [hcommitted, hbumped]
  exact List.mem_append_right _ h

/-- The commands to the cache that follow an increment. -/
def Closing (r : Request) : Prop := ∃ c, r = .cache c ∧ Plain (.cache c)

theorem meets_announced {α : Type} {p : Service α} (hp : p.Uses Closing) :
    (rules setup base).Meets (system setup) (Assumption.any.within (Versioned base)) t
      (fun _ => Announced t) (fun _ _ => True) p (Announced t) := by
  refine (Rules.Meets.of_uses hp announced_stable fun r hr => ?_).mono (fun _ => .refl)
    fun _ _ _ _ => trivial
  obtain ⟨c, rfl, hplain⟩ := hr
  refine keeping_answers (fun s _ _ _ => Plain.lets hplain s) fun s o reply s' _ _ h hexec => ?_
  have hdb : s'.db = s.db := exec_db (by simp) hexec
  obtain ⟨new, hbumped⟩ := bumped_of_exec hexec
  unfold Announced
  rw [hdb, hbumped]
  exact List.mem_append_right _ h

theorem invalidateAccess_meets :
    (rules setup base).Meets (system setup) (Assumption.any.within (Versioned base)) t
      (fun _ => Announced t) (fun _ _ => True) invalidateAccess fun _ => True := by
  refine .seq (fun reply s => reply.isSome → Announced t s) (.send (.const True)
    (keeping_answers (fun s _ _ _ => Plain.lets (r := .cache .incrVersion) trivial s)
      fun s o reply s' _ _ _ hexec hreply => ?_) fun _ => .imp_const fun _ => announced_stable)
    fun reply => ?_
  · simp only [Request.exec] at hexec
    split at hexec <;> cases hexec
    · cases hreply
    · exact List.mem_cons_self
  · cases reply with
    | none => exact .throw (.const True) fun _ _ _ => trivial
    | some reply => exact .pure announced_stable fun _ _ h => h rfl

/-! ## The changes -/

/-- A plain program that has incremented the version when it returns, with nothing but commands to
the cache after that. -/
structure Announces (setup : Setup) {α : Type} (p : Service α) : Prop where
  plain : p.Uses Plain
  meets : ∀ base t, (rules setup base).Meets (system setup) (Assumption.any.within (Versioned base))
    t (fun _ => Announced t) (fun _ _ => True) p fun _ => True

variable {α β : Type} {p : Service α}

theorem Announces.throw (error : Error) : Announces setup (throw error : Service α) :=
  ⟨trivial, fun _ _ => .throw (.const True) .refl⟩

theorem Announces.bind {q : α → Service β} (hp : p.Uses Plain)
    (hq : ∀ value, Announces setup (q value)) : Announces setup (p >>= q) :=
  ⟨.bind hp fun value => (hq value).plain,
    fun base t => .bind (meets_plain hp) fun value => (hq value).meets base t⟩

theorem Announces.closed {q : α → Service β} (hp : Announces setup p)
    (hq : ∀ value, (q value).Uses Closing) : Announces setup (p >>= q) := by
  refine ⟨.bind hp.plain fun value => (hq value).mono fun r hr => ?_,
    fun base t => .bind (hp.meets base t) fun value => meets_announced (hq value)⟩
  obtain ⟨c, rfl, hplain⟩ := hr
  exact hplain

theorem invalidateAccess_announces : Announces setup invalidateAccess :=
  ⟨uses_cacheService trivial, fun _ _ => invalidateAccess_meets⟩

theorem invalidateRoleUsers_announces (roleId : ℕ) :
    Announces setup (invalidateRoleUsers roleId) := by
  refine invalidateAccess_announces.closed fun _ => ?_
  refine .bind (uses_cacheService ⟨_, rfl, trivial⟩) fun userIds => ?_
  split
  · trivial
  · exact .bind (uses_cacheService ⟨_, rfl, trivial⟩) fun _ => uses_cacheService ⟨_, rfl, trivial⟩

/-- What `updateUser` and `deleteUser` do after their transaction. -/
theorem invalidation_announces (userId : ℕ) (value : α) : Announces setup
    (invalidateAccess >>= fun _ => cacheService (.del [.userRole userId]) >>= fun _ =>
      (pure value : Service α)) :=
  invalidateAccess_announces.closed fun _ =>
    .bind (uses_cacheService ⟨_, rfl, trivial⟩) fun _ => trivial

theorem updateRole_announces (slug : String) (data : UpdateRoleInput) (updatedBy : Option ℕ) :
    Announces setup (updateRole setup slug data updatedBy) := by
  refine .bind (uses_send.mpr trivial) fun found => ?_
  cases found with
  | none => exact .throw _
  | some x =>
      obtain ⟨id, role⟩ := x
      have hvalid (access : List String) : (validateAccess access).Uses Plain := by
        unfold validateAccess
        dsimp only
        split <;> trivial
      have hrow (newSlug : Option String) : (changeOne roles .tx (.id id) (.update
          (truthy data.title) newSlug (truthy data.userType) data.description data.access) >>=
            fun updated => logActivity updatedBy "UPDATE" "Role" (some id)
              ("Role updated: " ++ updated.2.title) (some (roleJson role))
              (some (roleJson updated.2)) .tx >>= fun _ => pure updated).Uses Plain :=
        .bind (uses_changeOne (fun _ => uses_send.mpr trivial) trivial _ _) fun updated =>
          .bind (uses_send.mpr trivial) fun _ => trivial
      dsimp only
      split
      on_goal 1 => refine .bind (hvalid _) fun _ => ?_
      all_goals
        refine .bind (uses_transaction trivial trivial trivial ?_) fun updated =>
          .bind (uses_cacheService trivial) fun _ =>
            (invalidateRoleUsers_announces id).closed fun _ => trivial
        split
        · exact .bind (uses_makeUniqueSlug (uses_slugOfRoleTaken (fun _ => trivial) _) _)
            fun newSlug => hrow (truthy (some newSlug))
        · exact hrow none

theorem deleteRole_announces (slug : String) (deletedBy : Option ℕ) :
    Announces setup (deleteRole slug deletedBy) := by
  refine .bind (uses_send.mpr trivial) fun found => ?_
  cases found with
  | none => exact .throw _
  | some x =>
      obtain ⟨id, role⟩ := x
      refine .bind (.bind (uses_send.mpr trivial) fun _ => trivial) fun count => ?_
      split
      · exact .throw _
      · exact .bind (uses_transaction trivial trivial trivial (.bind (uses_send.mpr trivial)
          fun _ => .bind (uses_changeOne (fun _ => uses_send.mpr trivial) trivial _ _) fun _ =>
            uses_send.mpr trivial)) fun _ => .bind (uses_cacheService trivial) fun _ =>
              invalidateRoleUsers_announces id

theorem updateUserInTransaction_plain (id : ℕ) (user : User) (data : UpdateUserInput)
    (updatedBy : Option ℕ) : (updateUserInTransaction setup id user data updatedBy).Uses Plain := by
  refine .bind (uses_slugForName fun _ => trivial) fun newSlug => ?_
  dsimp only
  split
  on_goal 1 => refine .bind (uses_deleteFile trivial) fun _ => ?_
  all_goals
    exact .bind (uses_hashIfSent trivial _) fun password =>
      .bind (uses_changeOne (fun _ => uses_send.mpr trivial) trivial _ _) fun updated =>
        .bind (uses_send.mpr trivial) fun _ => trivial

theorem updateUser_announces (slug : String) (data : UpdateUserInput) (updatedBy : Option ℕ) :
    Announces setup (updateUser setup slug data updatedBy) := by
  refine .bind (uses_send.mpr trivial) fun found => ?_
  cases found with
  | none => exact .throw _
  | some x =>
      obtain ⟨id, user⟩ := x
      have hrest : Announces setup (transaction (updateUserInTransaction setup id user data
          updatedBy) >>= fun updated => invalidateAccess >>= fun _ =>
            cacheService (.del [.userRole id]) >>= fun _ => pure updated) :=
        .bind (uses_transaction trivial trivial trivial
          (updateUserInTransaction_plain id user data updatedBy)) fun updated =>
            invalidation_announces id updated
      dsimp only
      split
      · refine .bind (uses_send.mpr trivial) fun existing => ?_
        split
        · exact .throw _
        · exact hrest
      · exact hrest

theorem deleteUserInTransaction_plain (id : ℕ) (user : User) (deletedBy : Option ℕ) :
    (deleteUserInTransaction id user deletedBy).Uses Plain :=
  .bind (uses_send.mpr trivial) fun _ =>
    .bind (uses_changeOne (fun _ => uses_send.mpr trivial) trivial _ _) fun _ =>
      .bind (uses_revokeRefreshTokens (fun _ => uses_send.mpr trivial) _ fun _ => trivial)
        fun _ => uses_send.mpr trivial

theorem deleteUser_announces (slug : String) (deletedBy : Option ℕ) :
    Announces setup (deleteUser slug deletedBy) := by
  refine .bind (uses_send.mpr trivial) fun found => ?_
  cases found with
  | none => exact .throw _
  | some x =>
      obtain ⟨id, user⟩ := x
      dsimp only
      split
      on_goal 1 => refine .bind (uses_deleteFile trivial) fun _ => ?_
      all_goals
        exact .bind (uses_transaction trivial trivial trivial
          (deleteUserInTransaction_plain id user deletedBy)) fun _ =>
            invalidateAccess_announces.closed fun _ => uses_cacheService ⟨_, rfl, trivial⟩

theorem Change.announces (change : Change) : Announces setup (change.program setup) := by
  cases change with
  | updateRole slug data updatedBy =>
      exact (updateRole_announces slug data updatedBy).closed fun _ => trivial
  | deleteRole slug deletedBy => exact deleteRole_announces slug deletedBy
  | updateUser slug data updatedBy =>
      exact (updateUser_announces slug data updatedBy).closed fun _ => trivial
  | deleteUser slug deletedBy => exact deleteUser_announces slug deletedBy

/-! ## Requests behind gates -/

theorem Work.meets (work : Work) :
    (rules setup base).Meets (system setup) (Assumption.any.within (Versioned base)) t
      (fun changed s => changed = true → Announced t s) (fun _ _ => True) (work.program setup)
      fun _ => True := by
  cases work with
  | change kind =>
      exact .bind (kind.announces.meets base t) fun _ =>
        .pure (.imp_const fun _ => announced_stable) fun _ _ h _ => h
  | other p plain =>
      exact .bind (meets_plain plain) fun _ =>
        .pure (.imp_const fun _ => announced_stable) fun _ _ _ h => by cases h

/-- The gates after the first one use what it has found. -/
theorem passGates_resolved_meets {userId : ℕ} (gates : List Gate) (role : RoleData) :
    (rules setup base).Meets (system setup) (Assumption.any.within (Versioned base)) t
      (fun _ _ => True) (fun _ _ => True) (passGates userId gates (some role))
      fun _ => True := by
  induction gates with
  | nil => exact .pure (.const True) .refl
  | cons gate gates ih =>
      simp only [passGates, resolveRoleOf, pure_eq, ret_bind]
      cases gate.refusal role with
      | some error => exact .throw (.const True) .refl
      | none => exact ih

theorem passGates_meets {userId : ℕ} (gates : List Gate) :
    (rules setup base).Meets (system setup) (Assumption.any.within (Versioned base)) t
      (fun _ _ => True) (fun _ _ => True) (passGates userId gates none)
      fun s => Silent t s ∧ Undecided t s := by
  cases gates with
  | nil => exact .pure (.const True) fun _ _ _ => trivial
  | cons gate gates =>
      have hresolve : (rules setup base).Meets (system setup)
          (Assumption.any.within (Versioned base)) t (fun _ _ => True) (fun _ _ => True)
          (resolveRoleOf userId none) fun s => Silent t s ∧ Undecided t s := by
        simp only [resolveRoleOf]
        split
        · exact .throw (.const True) fun _ _ _ => trivial
        · exact resolveRole_meets userId
      exact .bind hresolve fun role => passGates_resolved_meets (gate :: gates) role

theorem Call.meets (call : Call) :
    (rules setup base).Meets (system setup) (Assumption.any.within (Versioned base)) t
      (fun changed s => changed = true → Announced t s) (fun _ _ => True) (call.program setup)
      fun s => Silent t s ∧ Undecided t s :=
  .bind (passGates_meets call.gates) fun _ => call.work.meets

/-! ## Runs -/

/-- The system before a run: nothing has been announced or decided, and no cached entry is from
a version that is still to come. -/
structure Unannounced (s : State) : Prop extends s.AtRest where
  counted : ∀ t, s.db.committedAt t ≤ s.db.commits
  bumped : s.cache.bumped = []
  commands : s.commands = []
  decisions : s.decisions = []
  stamped : ∀ userId entry v, s.cache.userRole userId = some entry →
    entry.rbacVersion = some v → v ≤ s.cache.version.getD 0

variable {calls : ℕ → Call} {c c₁ c₂ : Config ℕ Error Request Request.Reply State Bool}

theorem Unannounced.versioned (h : Unannounced s) : Versioned (s.cache.version.getD 0) s where
  counted := h.counted
  bumps := by simp [h.bumped]
  version := by simp [h.bumped]
  increments := by simp [h.bumped, h.commands, Freshness.increments]
  entries userId entry v hentry hv := by
    have hle := h.stamped userId entry v hentry hv
    refine ⟨?_, by simp [h.bumped]⟩
    rw [h.bumped]
    exact Nat.le_of_eq (Nat.sub_eq_zero_of_le hle)
  decisions := by simp [h.decisions]

theorem compatible : (rules setup base).Compatible (system setup)
    (Assumption.any.within (Versioned base)) :=
  keeping_compatible fun _ _ _ h => h.elim

/-- Every call keeps to its contract, and the invariant holds in every run. -/
theorem sound_of_reaches (hstart : Unannounced s₀) (hrun : (system setup).Reaches .any
      (calling (fun t => (calls t).program setup) s₀) c) :
    (rules setup (s₀.cache.version.getD 0)).Sound (system setup)
        (Assumption.any.within (Versioned (s₀.cache.version.getD 0)))
        (fun t changed s => changed = true → Announced t s) (fun _ _ _ => True) c ∧
      Versioned (s₀.cache.version.getD 0) c.shared := by
  have hsound : (rules setup (s₀.cache.version.getD 0)).Sound (system setup)
      (Assumption.any.within (Versioned (s₀.cache.version.getD 0)))
      (fun t changed s => changed = true → Announced t s) (fun _ _ _ => True)
      (calling (fun t => (calls t).program setup) s₀) :=
    hstart.toAtRest.sound (fun t s => Silent t s ∧ Undecided t s)
      (fun t => ⟨by simp [Silent, hstart.commands], by simp [Undecided, hstart.decisions]⟩)
      fun t => (calls t).meets.weaken fun _ _ h => h.2
  have hversioned {d : Config ℕ Error Request Request.Reply State Bool}
      (hd : (system setup).Reaches (Assumption.any.within (Versioned (s₀.cache.version.getD 0)))
        (calling (fun t => (calls t).program setup) s₀) d) :
      Versioned (s₀.cache.version.getD 0) d.shared := by
    refine Rules.Sound.induction compatible (fun _ _ _ => trivial) hsound hd hstart.versioned
      fun s s' _ _ h htransition => ?_
    cases htransition with
    | perform t hperforms =>
        rcases hperforms with ⟨r, o, reply, ⟨hguard, -⟩, hexec⟩ | rfl
        · exact h.exec hguard hexec
        · exact h.of_moves (t := t) .abortAll rfl rfl (fun _ _ hentry => hentry) rfl rfl
    | move o hmove hA =>
        have hdb := (move_exec hmove).1
        obtain ⟨hversion, hbumped, hdecisions⟩ := move_version hmove
        exact h.of_moves (t := 0) (hdb ▸ .refl) hversion hbumped (move_entries hmove).1
          (move_commands hmove) hdecisions
  have hwithin := hrun.within fun d hd => hversioned hd
  exact ⟨hsound.reaches compatible (fun _ _ _ => trivial) hwithin, hversioned hwithin⟩

/-- Redis only adds to the commands and to the increments. -/
theorem grows_of_reaches (hrun : (system setup).Reaches .any c₁ c₂) :
    (∃ new, c₂.shared.commands = new ++ c₁.shared.commands) ∧
      ∃ bumps, c₂.shared.cache.bumped = bumps ++ c₁.shared.cache.bumped := by
  refine ⟨commands_of_reaches hrun, ?_⟩
  induction hrun with
  | refl => exact ⟨[], rfl⟩
  | step l _ hstep _ ih =>
      obtain ⟨bumps, hbumped⟩ := ih
      rcases (system setup).step_cases hstep with
        ⟨t, o, r, next, reply, s, rfl, -, hexec, rfl⟩ | ⟨t, r, next, rfl, -, rfl⟩ |
        ⟨o, s, rfl, hmove, rfl⟩
      · obtain ⟨more, hmore⟩ := bumped_of_exec hexec
        exact ⟨more ++ bumps, by rw [List.append_assoc, ← hbumped]; exact hmore⟩
      · exact ⟨bumps, hbumped⟩
      · exact ⟨bumps, (move_version hmove).2.1.trans hbumped⟩

/-! ### A permission that is taken away -/

def READ_LOGS : String := "module.activity-log.index"

def auditor : Role :=
  { slug := "auditor", title := "Auditor", userType := "Member", description := none
    access := [READ_LOGS], deletedAt := none }

def ada : User :=
  { name := some "Ada", slug := some "ada", email := some "ada@example.com", password := none
    avatar := none, roleId := some 3, isEmailVerified := true, deletedAt := none }

/-- One role and one user who has it. -/
def appointed : State :=
  { plainState (oneRow 7 ada) with
    db := { (plainState (oneRow 7 ada)).db with roles := oneRow 3 auditor } }

theorem appointed_unannounced : Unannounced appointed where
  tables k := by
    cases k with
    | roles => exact oneRow_atRest 3 _
    | users => exact oneRow_atRest 7 _
    | _ => exact Table.empty_atRest
  poisoned _ := rfl
  seen := rfl
  minted := rfl
  families := rfl
  comparisons := rfl
  tickets := rfl
  counted _ := Nat.le_refl 0
  bumped := rfl
  commands := rfl
  decisions := rfl
  stamped userId entry v h := by cases h

/-- Thread 2 takes the permission from the role, the others are requests of the user. -/
def sample (t : ℕ) : Call :=
  if t = 2 then
    { userId := 1, gates := []
      work := .change (.updateRole "auditor"
        { title := none, userType := none, description := none, access := some [] } none) }
  else { userId := 7, gates := [.permission READ_LOGS], work := .other (pure ()) trivial }

def requests (t n : ℕ) : List (Label ℕ Oracle) := List.replicate n (.run t {})

abbrev start : Config ℕ Error Request Request.Reply State Bool :=
  calling (fun t => (sample t).program plainSetup) appointed

/-- A request fills the cache, and then the change. -/
def taken : Config ℕ Error Request Request.Reply State Bool :=
  (system plainSetup).after start (requests 1 7 ++ requests 2 12)

/-- A request after that. -/
def refused : Config ℕ Error Request Request.Reply State Bool :=
  (system plainSetup).after taken (requests 3 7)

theorem taken_reaches : (system plainSetup).Reaches .any start taken :=
  .of_schedule (fun l _ _ _ => Machine.keeps_any l) (by decide +kernel)

theorem refused_reaches : (system plainSetup).Reaches .any taken refused :=
  .of_schedule (fun l _ _ _ => Machine.keeps_any l) (by decide +kernel)

/-! ### What holds of all runs -/

/-- Whatever the interleaving, every decision is as new as the changes that were announced before
its thread read the cache. -/
theorem decisions_current (hstart : Unannounced s₀) (hrun : (system setup).Reaches .any
      (calling (fun t => (calls t).program setup) s₀) c) :
    ∀ x ∈ c.shared.decisions, Obeys x.1 x.2 c.shared :=
  (sound_of_reaches hstart hrun).2.decisions

theorem decisions_current_sample : (∀ x ∈ refused.shared.decisions, Obeys x.1 x.2 refused.shared) ∧
    refused.shared.decisions = [(3, 1), (1, 0)] ∧ refused.shared.cache.bumped = [(2, 1)] :=
  ⟨decisions_current appointed_unannounced (taken_reaches.trans refused_reaches),
    by decide +kernel, by decide +kernel⟩

/-- A decision of a thread that had sent no command in `c₁` is made on what was read after the
commits of all changes that had returned in `c₁`. -/
def ChangesSeen (c₁ c₂ : Config ℕ Error Request Request.Reply State Bool) : Prop :=
  ∀ u t readAt, c₁.thread u = .ret true → Silent t c₁.shared →
    (t, readAt) ∈ c₂.shared.decisions → c₁.shared.db.committedAt u ≤ readAt

theorem changes_seen (hstart : Unannounced s₀)
    (hrun₁ : (system setup).Reaches .any (calling (fun t => (calls t).program setup) s₀) c₁)
    (hrun₂ : (system setup).Reaches .any c₁ c₂) : ChangesSeen c₁ c₂ := by
  intro u t readAt hreturned hsilent hdecided
  obtain ⟨hsound₁, hversioned₁⟩ := sound_of_reaches hstart hrun₁
  have hversioned₂ := (sound_of_reaches hstart (hrun₁.trans hrun₂)).2
  have hannounced : Announced u c₁.shared := by
    have hholds := hsound₁.2 u
    rw [hreturned] at hholds
    exact hholds.value hsound₁.1 rfl
  obtain ⟨⟨new, hcommands⟩, bumps, hbumped⟩ := grows_of_reaches hrun₂
  obtain ⟨⟨userId, hasked⟩, hobeys⟩ := hversioned₂.decisions _ hdecided
  -- The thread read the cache after `c₁`, hence after every increment made by then.
  obtain ⟨newer, older, hnew⟩ : ∃ newer older, new = newer ++ (t, .mgetAccess userId) :: older := by
    rw [hcommands] at hasked
    rcases List.mem_append.mp hasked with hasked | hasked
    · exact List.append_of_mem hasked
    · exact absurd rfl (hsilent _ hasked)
  have hbefore := hobeys newer userId (older ++ c₁.shared.commands) (by simp [hcommands, hnew])
  refine hbefore.2 _ (?_ : (u, c₁.shared.db.committedAt u) ∈ _)
  have hle : c₁.shared.cache.bumped.reverse.length ≤
      increments (older ++ c₁.shared.commands) := by
    rw [increments_append, hversioned₁.increments, List.length_reverse]
    exact Nat.le_add_left _ _
  rw [hbumped, List.reverse_append, List.take_append, List.take_of_length_le hle]
  exact List.mem_append_left _ (List.mem_reverse.mpr hannounced)

theorem changes_seen_sample : ChangesSeen taken refused ∧ (taken.thread 2).value? = some true ∧
    taken.shared.db.committedAt 2 = 1 :=
  ⟨changes_seen appointed_unannounced taken_reaches refused_reaches, by decide +kernel,
    by decide +kernel⟩

end ExpressCore.Freshness
