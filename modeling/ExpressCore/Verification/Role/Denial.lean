import ExpressCore.Library.Parts
import ExpressCore.Verification.Role.Announcements

/-! # Permissions that are taken away

What the gates of a route make of the freshness of the cache: a permission that the database has
stopped granting is refused to every request that begins after the change has returned. -/

namespace ExpressCore.Freshness

open ReadCommitted Interleaving Interleaving.Program

variable {setup : Setup} {base n t u : ℕ} {s s' s₀ : State} {late : Prop}

/-- A permission that a user is refused from a commit on. The user may keep the one role and gets
no other. -/
structure Ban where
  userId : ℕ
  roleId : ℕ
  permission : String
  since : ℕ

variable {b : Ban}

/-- The database does not grant the permission: the user is deleted, has no role or the one role,
and that role is deleted or lacks the permission. -/
structure Ban.Denies (b : Ban) (d : Db) : Prop where
  user : ∀ user, d.users.committed b.userId = some user → user.deletedAt = none →
    user.roleId = none ∨ user.roleId = some b.roleId
  role : ∀ role, d.roles.committed b.roleId = some role → role.deletedAt = none →
    b.permission ∉ role.access

/-- Runs in which the database does not grant the permission once the commit has happened. -/
def Ban.imposed (b : Ban) : Assumption ℕ Request State :=
  Assumption.any.within fun s => b.since ≤ s.db.commits → b.Denies s.db

/-- What was read about a user after the commit does not grant the permission. -/
def Ban.Respects (b : Ban) (userId : ℕ) (data : CachedUserData) : Prop :=
  userId = b.userId → b.since ≤ data.readAt →
    ∀ role, data.role = some role → b.permission ∉ role.access

/-- So do the cached entries. -/
def Ban.Respected (b : Ban) (s : State) : Prop :=
  ∀ userId entry, s.cache.userRole userId = some entry → b.Respects userId entry

/-- Only entries that respect the ban are put into the cache. -/
def Ban.respecting (b : Ban) : Discipline where
  tables k := k = .users ∨ k = .roles
  change _ _ _ _ := True
  commit _ _ := True
  other _ r _ := ∀ userId entry, r = .cache (.setAccess userId entry) → b.Respects userId entry
  commit_free _ _ _ := trivial

theorem Ban.Respected.step {A : Assumption ℕ Request State} (h : b.Respected s)
    (hevent : Event setup A b.respecting s s') : b.Respected s' := by
  cases hevent.onCache with
  | same hcache _ =>
      rw [Ban.Respected, hcache]
      exact h
  | move m hmove _ _ _ =>
      exact fun i entry hentry => h i entry ((move_entries hmove).1 i entry hentry)
  | command u c hother _ hcache _ _ =>
      rw [Ban.Respected, hcache]
      intro i entry hentry
      cases c with
      | setAccess j entry' =>
          by_cases heq : i = j
          · subst heq
            obtain rfl : entry' = entry := by simpa [CacheCommand.exec] using hentry
            exact hother i entry' rfl
          · exact h i entry (by simpa [CacheCommand.exec, heq] using hentry)
      | del keys =>
          simp only [CacheCommand.exec] at hentry
          split at hentry
          · cases hentry
          · exact h i entry hentry
      | _ => exact h i entry hentry

/-! ## The rules -/

/-- What the runs are known to keep to. -/
abbrev known (b : Ban) (base : ℕ) : Assumption ℕ Request State :=
  b.imposed.within fun s => Versioned base s ∧ b.Respected s

abbrev banning (setup : Setup) (b : Ban) (base : ℕ) : Rules ℕ State :=
  keeping setup False (known b base) b.respecting

theorem lets_plain {r : Request} (h : Plain r) : b.respecting.Lets t r := by
  refine fun s => ⟨fun _ _ _ _ _ => trivial, fun _ _ _ => trivial, fun _ userId entry hr => ?_⟩
  subst hr
  exact h.elim

/-- Requests that put nothing into the cache are free. -/
theorem lets_of_ne {r : Request} (h : ∀ userId entry, r ≠ .cache (.setAccess userId entry)) :
    b.respecting.Lets t r :=
  fun _ => ⟨fun _ _ _ _ _ => trivial, fun _ _ _ => trivial,
    fun _ userId entry hr => (h userId entry hr).elim⟩

theorem meets_freely {α : Type} {p : Service α} (hp : p.Uses Plain) :
    (banning setup b base).Meets (system setup) (known b base) t (fun _ _ => True)
      (fun _ _ => True) p fun _ => True :=
  meets_lets (hp.mono fun _ => lets_plain)

/-- Thread `t` has written nothing, and `n` commits are past. -/
def Looking (b : Ban) (t n : ℕ) (s : State) : Prop :=
  Unlocked b.respecting.tables t s ∧ n ≤ s.db.commits

theorem Looking.view_users {i : ℕ} {user : User} (h : Looking b t n s)
    (hview : s.db.users.view t i = some user) : s.db.users.committed i = some user :=
  (Table.view_of_not_pending (h.1 .users (.inl rfl) i)).symm.trans hview

theorem Looking.view_roles {i : ℕ} {role : Role} (h : Looking b t n s)
    (hview : s.db.roles.view t i = some role) : s.db.roles.committed i = some role :=
  (Table.view_of_not_pending (h.1 .roles (.inr rfl) i)).symm.trans hview

theorem looking_stable : (banning setup b base).Stable t (Looking b t n) := by
  refine .and Firm.unlocked.stable ?_
  rintro s s' - - ⟨⟨u, -, ⟨r, o, reply, -, hexec⟩ | rfl⟩ | ⟨o, hmove, -⟩, -⟩ h
  · exact Nat.le_trans h (State.Moves.exec hexec).db.commits
  · exact h
  · rw [(move_exec hmove).1]
    exact h

theorem Looking.exec {r : Request} {o : Oracle} {reply : r.Reply} (h : Looking b t n s)
    (hs : s.InOrder setup False) (hr : r.Neutral b.respecting.tables)
    (hexec : r.exec setup t o s = some (reply, s')) : Looking b t n s' := by
  have hfirm : Firm b.respecting.tables setup False t (Unlocked b.respecting.tables t) :=
    Firm.unlocked
  exact ⟨hfirm s s' hs (hs.exec hexec) (.of_neutral hr hexec) h.1,
    Nat.le_trans h.2 (State.Moves.exec hexec).db.commits⟩

theorem Looking.of_db (h : Looking b t n s) (hdb : s'.db = s.db) : Looking b t n s' := by
  unfold Looking Unlocked
  rw [hdb]
  exact h

/-- The change that imposes the ban has been announced. -/
def Imposed (b : Ban) (s : State) : Prop := ∃ x ∈ s.cache.bumped, b.since ≤ x.2

theorem Imposed.mono (h : Imposed b s) {new : List (ℕ × ℕ)}
    (hbumped : s'.cache.bumped = new ++ s.cache.bumped) : Imposed b s' := by
  obtain ⟨x, hx, hle⟩ := h
  exact ⟨x, hbumped ▸ List.mem_append_right _ hx, hle⟩

/-! ## The lookup of a request

`late` requests begin after the ban has been imposed. -/

/-- A thread that looks something up. -/
def Reader (b : Ban) (late : Prop) (t n : ℕ) (s : State) : Prop :=
  Looking b t n s ∧ (late → Imposed b s)

theorem reader_stable : (banning setup b base).Stable t (Reader b late t n) := by
  refine looking_stable.and (.imp_const fun _ s s' _ _ hmove h => ?_)
  obtain ⟨new, hbumped⟩ := bumped_of_elsewhere hmove.1
  exact h.mono hbumped

theorem Reader.exec {r : Request} {o : Oracle} {reply : r.Reply} (h : Reader b late t n s)
    (hs : s.InOrder setup False)
    (hr : r.Neutral b.respecting.tables ∨ ∀ q, r ≠ .sql q)
    (hexec : r.exec setup t o s = some (reply, s')) : Reader b late t n s' := by
  obtain ⟨new, hbumped⟩ := bumped_of_exec hexec
  refine ⟨?_, fun hlate => (h.2 hlate).mono hbumped⟩
  rcases hr with hr | hr
  · exact h.1.exec hs hr hexec
  · exact h.1.of_db (exec_db hr hexec)

/-- A request of a reader that puts nothing into the cache. -/
theorem reader_answers {r : Request} {post : r.Reply → State → Prop}
    (hne : ∀ userId entry, r ≠ .cache (.setAccess userId entry))
    (hpost : ∀ s o reply s', s.InOrder setup False → (known b base).request t r s →
      Reader b late t n s → r.exec setup t o s = some (reply, s') → post reply s') :
    (banning setup b base).Answers (system setup) (known b base) t (Reader b late t n) r post :=
  keeping_answers (fun s _ _ _ => lets_of_ne hne s) hpost

/-- What a request may do with what it has looked up. -/
def Fit (b : Ban) (late : Prop) (userId : ℕ) (data : CachedUserData) : Prop :=
  b.Respects userId data ∧ (late → b.since ≤ data.readAt)

theorem mget_fits (userId : ℕ) :
    (banning setup b base).Meets (system setup) (known b base) t
      (fun reply s => (∀ entry, reply.1 = some entry →
        entry.rbacVersion = some (reply.2.getD 0) → Fit b late userId entry) ∧
          Reader b late t n s) (fun _ _ => True)
      (cacheService (.mgetAccess userId)) (Reader b late t n) := by
  refine .seq (fun reply s => (∀ answer, reply = some answer → ∀ entry, answer.1 = some entry →
      entry.rbacVersion = some (answer.2.getD 0) → Fit b late userId entry) ∧
        Reader b late t n s)
    (.send reader_stable (reader_answers (fun _ _ h => by cases h)
      fun s o reply s' hs hA h hexec => ⟨fun answer hanswer entry hentry hcurrent => ?_,
        h.exec hs (.inr fun _ h => by cases h) hexec⟩)
      fun _ => (Rules.Stable.const _).and reader_stable) fun reply => ?_
  · subst hanswer
    have hversioned : Versioned base s := hA.2.1
    have hrespected : b.Respected s := hA.2.2
    simp only [Request.exec] at hexec
    split at hexec
    · cases hexec
    · obtain ⟨hreply, rfl⟩ := Prod.mk.inj (Option.some.inj hexec)
      obtain rfl := Option.some.inj hreply
      refine ⟨hrespected userId entry hentry, fun hlate => ?_⟩
      obtain ⟨x, hx, hle⟩ := h.2 hlate
      exact Nat.le_trans hle (hversioned.all_before
        (hversioned.entries userId entry _ hentry hcurrent) x hx)
  · cases reply with
    | none => exact .throw (.const True) fun _ _ _ => trivial
    | some answer =>
        exact .pure ((Rules.Stable.const _).and reader_stable) fun _ _ h => ⟨h.1 answer rfl, h.2⟩

theorem readUserAccess_fits (userId : ℕ) :
    (banning setup b base).Meets (system setup) (known b base) t
      (fun found s => (∀ entry, found.1 = some entry → Fit b late userId entry) ∧
        Reader b late t n s) (fun _ _ => True) (readUserAccess userId) (Reader b late t n) := by
  refine .bind (mget_fits userId) fun reply =>
    .pure ((Rules.Stable.const _).and reader_stable) fun s _ h => ⟨fun entry hentry => ?_, h.2⟩
  obtain ⟨hentry, hcurrent⟩ := Option.filter_eq_some_iff.mp hentry
  simp only [Bool.and_eq_true, beq_iff_eq] at hcurrent
  exact h.1 entry hentry hcurrent.1

theorem commits_fits :
    (banning setup b base).Meets (system setup) (known b base) t
      (fun readAt s => (late → b.since ≤ readAt) ∧ Reader b late t readAt s) (fun _ _ => True)
      (request .commits) (Reader b late t n) := by
  refine .send reader_stable (reader_answers (fun _ _ h => by cases h)
    fun s o readAt s' hs hA h hexec => ?_) fun _ => (Rules.Stable.const _).and reader_stable
  obtain ⟨rfl, rfl⟩ := Prod.mk.inj (Option.some.inj hexec)
  have hversioned : Versioned base s := hA.2.1
  refine ⟨fun hlate => ?_, ⟨h.1.1, Nat.le_refl _⟩, h.2⟩
  obtain ⟨x, hx, hle⟩ := h.2 hlate
  exact Nat.le_trans hle (hversioned.bumps x hx)

/-- What is found by a reader outside of a transaction is committed. -/
theorem findUser_fits (w : UserWhere) :
    (banning setup b base).Meets (system setup) (known b base) t
      (fun found s => (∀ x, found = some x → Condition.holds w x.1 x.2 = true ∧
        (b.since ≤ n → x.1 = b.userId → x.2.deletedAt = none →
          x.2.roleId = none ∨ x.2.roleId = some b.roleId)) ∧ Reader b late t n s)
      (fun _ _ => True) (users (.find w)) (Reader b late t n) := by
  refine .send reader_stable (reader_answers (fun _ _ h => by cases h)
    fun s o found s' hs hA h hexec => ⟨?_,
      h.exec (r := .sql (.users (.find w))) hs (.inl fun _ => not_false) hexec⟩)
      fun _ => (Rules.Stable.const _).and reader_stable
  rintro x rfl
  simp only [Request.exec, Sql.exec, Option.map_eq_some_iff, Db.unlessPoisoned_eq_some,
    Prod.mk.injEq] at hexec
  obtain ⟨⟨_, _⟩, ⟨-, ⟨_, T⟩, hfind, rfl, -⟩, rfl, -⟩ := hexec
  obtain ⟨-, hview, hholds⟩ := exec_find_some hfind
  refine ⟨hholds, fun hle hid hactive => ?_⟩
  have hdenies : b.Denies s.db := hA.1.2 (Nat.le_trans hle h.1.2)
  exact hdenies.user x.2 (hid ▸ h.1.view_users hview) hactive

theorem findRole_fits (roleId : ℕ) :
    (banning setup b base).Meets (system setup) (known b base) t
      (fun found s => (∀ x, found = some x → b.since ≤ n → roleId = b.roleId →
        x.2.deletedAt = none → b.permission ∉ x.2.access) ∧ Reader b late t n s)
      (fun _ _ => True) (roles (.find (.id roleId))) (Reader b late t n) := by
  refine .send reader_stable (reader_answers (fun _ _ h => by cases h)
    fun s o found s' hs hA h hexec => ⟨?_,
      h.exec (r := .sql (.roles (.find (.id roleId)))) hs (.inl fun _ => not_false) hexec⟩)
      fun _ => (Rules.Stable.const _).and reader_stable
  rintro x rfl hle rfl hactive
  simp only [Request.exec, Sql.exec, Option.map_eq_some_iff, Db.unlessPoisoned_eq_some,
    Prod.mk.injEq] at hexec
  obtain ⟨⟨_, _⟩, ⟨-, ⟨_, T⟩, hfind, rfl, -⟩, rfl, -⟩ := hexec
  obtain ⟨-, hview, hholds⟩ := exec_find_some hfind
  have hdenies : b.Denies s.db := hA.1.2 (Nat.le_trans hle h.1.2)
  have hid : x.1 = b.roleId := by simpa [Condition.holds] using hholds
  exact hdenies.role x.2 (hid ▸ h.1.view_roles hview) hactive

theorem readAccess_fits (userId : ℕ) :
    (banning setup b base).Meets (system setup) (known b base) t
      (fun found s => (∀ data, found = some data → data.readAt = n ∧ b.Respects userId data) ∧
        Reader b late t n s) (fun _ _ => True) (readAccess userId n) (Reader b late t n) := by
  refine .bind (findUser_fits (.active userId)) fun found => .assume fun huser => ?_
  cases found with
  | none =>
      exact .pure ((Rules.Stable.const _).and reader_stable) fun _ _ h =>
        ⟨fun _ hdata => (by cases hdata), h⟩
  | some found =>
      obtain ⟨id, user⟩ := found
      obtain ⟨hholds, hroleId⟩ := huser _ rfl
      simp only [Condition.holds, Bool.and_eq_true, beq_iff_eq,
        Option.isNone_iff_eq_none] at hholds
      obtain ⟨rfl, hactive⟩ := hholds
      dsimp only
      cases hroleOf : user.roleId with
      | none =>
          refine .pure ((Rules.Stable.const _).and reader_stable) fun _ _ h =>
            ⟨fun data hdata => ?_, h⟩
          obtain rfl := Option.some.inj hdata
          exact ⟨rfl, fun _ _ role hrole => by cases hrole⟩
      | some roleId =>
          refine .bind (findRole_fits roleId) fun role => .assume fun hrole =>
            .pure ((Rules.Stable.const _).and reader_stable) fun _ _ h =>
              ⟨fun data hdata => ?_, h⟩
          obtain rfl := Option.some.inj hdata
          refine ⟨rfl, fun hban hle role' hrole' => ?_⟩
          obtain ⟨x, hx, rfl⟩ := Option.map_eq_some_iff.mp hrole'
          obtain ⟨hx, hopen⟩ := Option.filter_eq_some_iff.mp hx
          have hsame : roleId = b.roleId := by simpa [hroleOf] using hroleId hle hban hactive
          exact hrole x hx hle hsame (by simpa using hopen)

theorem cacheUserAccess_fits {data : CachedUserData} (userId version : ℕ)
    (hdata : b.Respects userId data) :
    (banning setup b base).Meets (system setup) (known b base) t (fun _ _ => True)
      (fun _ _ => True) (cacheUserAccess userId data version) fun _ => True := by
  have hset : b.respecting.Lets t
      (.cache (.setAccess userId { data with rbacVersion := some version })) := by
    refine fun _ => ⟨fun _ _ _ _ _ => trivial, fun _ _ _ => trivial, fun _ i entry hr => ?_⟩
    cases hr
    exact hdata
  refine meets_lets (.bind (uses_cacheService hset) fun _ => ?_)
  cases data.role with
  | none => trivial
  | some role => exact uses_cacheService (lets_of_ne fun _ _ h => by cases h)

/-- The role that a late request of the user is decided on lacks the permission. -/
theorem resolveRole_fits (userId : ℕ) :
    (banning setup b base).Meets (system setup) (known b base) t
      (fun role _ => late → userId = b.userId → b.permission ∉ role.access) (fun _ _ => True)
      (resolveRole userId) (Reader b late t 0) := by
  refine .bind (readUserAccess_fits userId) fun found => .assume fun hcached => ?_
  obtain ⟨cached, version⟩ := found
  have hrole {userData : CachedUserData} {role : RoleData} (hfit : Fit b late userId userData)
      (hfound : userData.role = some role) :
      late → userId = b.userId → b.permission ∉ role.access :=
    fun hlate hban => hfit.1 hban (hfit.2 hlate) role hfound
  have hdecided (m : ℕ) : b.respecting.Lets t (.decided m) :=
    lets_of_ne fun _ _ h => by cases h
  cases cached with
  | some entry =>
      refine .bind ((meets_lets (uses_send.mpr (hdecided _))).weaken fun _ _ _ => trivial)
        fun _ => ?_
      simp only [pure_eq, ret_bind]
      split
      · exact .throw (.const True) fun _ _ _ => trivial
      · rename_i role hfound
        exact .pure (.const _) fun _ _ _ => hrole (hcached entry rfl) hfound
  | none =>
      refine .bind commits_fits fun readAt => .assume fun hreadAt =>
        .bind (readAccess_fits userId) fun userData => .assume fun hdata =>
          .bind ((meets_lets (uses_send.mpr (hdecided readAt))).weaken fun _ _ _ => trivial)
            fun _ => ?_
      cases userData with
      | none => exact .throw (.const True) fun _ _ _ => trivial
      | some data =>
          obtain ⟨hread, hrespects⟩ := hdata data rfl
          refine .bind (cacheUserAccess_fits userId version hrespects) fun _ => ?_
          simp only [pure_eq, ret_bind]
          split
          · exact .throw (.const True) fun _ _ _ => trivial
          · rename_i role hfound
            exact .pure (.const _) fun _ _ _ =>
              hrole ⟨hrespects, fun hlate => hread ▸ hreadAt hlate⟩ hfound

/-! ## The gates -/

theorem passGates_resolved_fits {userId : ℕ} (gates : List Gate) (role : RoleData)
    (hrole : late → userId = b.userId → b.permission ∉ role.access) :
    (banning setup b base).Meets (system setup) (known b base) t
      (fun _ _ => ¬ (late ∧ userId = b.userId ∧ Gate.permission b.permission ∈ gates))
      (fun _ _ => True) (passGates userId gates (some role)) fun _ => True := by
  induction gates with
  | nil => exact .pure (.const _) fun _ _ _ h => by simp at h
  | cons gate gates ih =>
      simp only [passGates, resolveRoleOf, pure_eq, ret_bind]
      cases hrefusal : gate.refusal role with
      | some error => exact .throw (.const True) .refl
      | none =>
          refine ih.mono (fun _ _ _ hgates h => hgates ?_) fun _ => .refl
          obtain ⟨hlate, hban, hmem⟩ := h
          rcases List.mem_cons.mp hmem with rfl | hmem
          · simp [Gate.refusal, hrole hlate hban] at hrefusal
          · exact ⟨hlate, hban, hmem⟩

theorem passGates_fits {userId : ℕ} (gates : List Gate) :
    (banning setup b base).Meets (system setup) (known b base) t
      (fun _ _ => ¬ (late ∧ userId = b.userId ∧ Gate.permission b.permission ∈ gates))
      (fun _ _ => True) (passGates userId gates none) (Reader b late t 0) := by
  cases gates with
  | nil => exact .pure (.const _) fun _ _ _ h => by simp at h
  | cons gate gates =>
      have hresolve : (banning setup b base).Meets (system setup) (known b base) t
          (fun role _ => late → userId = b.userId → b.permission ∉ role.access)
          (fun _ _ => True) (resolveRoleOf userId none) (Reader b late t 0) := by
        simp only [resolveRoleOf]
        split
        · exact .throw (.const True) fun _ _ _ => trivial
        · exact resolveRole_fits userId
      exact .bind hresolve fun role => .under (fun _ => (late → userId = b.userId →
        b.permission ∉ role.access) ∧ True)
        (.assume fun hrole => passGates_resolved_fits (gate :: gates) role hrole)
        fun _ _ h => ⟨h, trivial⟩

/-! ## Runs -/

theorem Work.plain (work : Work) : (work.program setup).Uses Plain := by
  cases work with
  | change kind => exact .bind kind.announces.plain fun _ => trivial
  | other p plain => exact .bind plain fun _ => trivial

theorem Call.fits (call : Call) :
    (banning setup b base).Meets (system setup) (known b base) t
      (fun _ _ => ¬ (late ∧ call.userId = b.userId ∧
        Gate.permission b.permission ∈ call.gates)) (fun _ _ => True)
      (call.program setup) (Reader b late t 0) :=
  .bind (passGates_fits call.gates) fun _ => .under (fun _ => ¬ (late ∧ call.userId = b.userId ∧
    Gate.permission b.permission ∈ call.gates) ∧ True) (.assume fun hgates =>
      (meets_freely call.work.plain).mono (fun _ _ _ _ => hgates) fun _ => .refl)
    fun _ _ h => ⟨h, trivial⟩

variable {calls : ℕ → Call} {c c₁ c₂ : Config ℕ Error Request Request.Reply State Bool}

theorem banning_compatible : (banning setup b base).Compatible (system setup) (known b base) :=
  keeping_compatible fun _ _ _ h => h.elim

theorem reaches_any (hrun : (system setup).Reaches b.imposed c c₁) :
    (system setup).Reaches .any c c₁ :=
  hrun.mono (fun _ _ _ _ => trivial) fun _ _ _ => trivial

variable (setup calls) in
/-- Every call keeps to the ban, and what the runs are known to keep to may be relied on. -/
theorem banning_of_reaches (hstart : Unannounced s₀) (hcache : b.Respected s₀) :
    (banning setup b (s₀.cache.version.getD 0)).Sound (system setup)
        (known b (s₀.cache.version.getD 0)) (fun _ _ _ => True) (fun _ _ _ => True)
        (calling (fun t => (calls t).program setup) s₀) ∧
      ∀ d, (system setup).Reaches (known b (s₀.cache.version.getD 0))
        (calling (fun t => (calls t).program setup) s₀) d →
          Versioned (s₀.cache.version.getD 0) d.shared ∧ b.Respected d.shared := by
  have hsound : (banning setup b (s₀.cache.version.getD 0)).Sound (system setup)
      (known b (s₀.cache.version.getD 0)) (fun _ _ _ => True) (fun _ _ _ => True)
      (calling (fun t => (calls t).program setup) s₀) :=
    hstart.toAtRest.sound (fun _ _ => True) (fun _ => trivial) fun t =>
      ((calls t).fits.mono (fun _ _ _ _ => trivial) fun _ => .refl).weaken fun s _ h =>
        ⟨⟨fun k hk => (h.1 k hk).free, Nat.zero_le _⟩, fun hlate : False => hlate.elim⟩
  refine ⟨hsound, fun d hd => ⟨?_, ?_⟩⟩
  · exact (sound_of_reaches hstart
      (hd.mono (fun _ _ _ _ => trivial) fun _ _ _ => trivial)).2
  · exact keeping_induction (fun _ _ _ h => h.elim) (fun _ _ _ => trivial) hsound hd hcache
      fun s s' _ _ h hevent => h.step hevent

/-- A request of the user that begins after the change has returned does not return. -/
theorem not_answered (hstart : Unannounced s₀) (hcache : b.Respected s₀)
    (hrun₁ : (system setup).Reaches (b.imposed.sparing t)
      (calling (fun t => (calls t).program setup) s₀) c₁)
    (hchanged : c₁.thread u = .ret true) (hsince : b.since ≤ c₁.shared.db.committedAt u)
    (huser : (calls t).userId = b.userId)
    (hgate : Gate.permission b.permission ∈ (calls t).gates)
    (hrun₂ : (system setup).Reaches b.imposed c₁ c₂) (answer : Bool) :
    c₂.thread t ≠ .ret answer := by
  obtain ⟨hsound, hknown⟩ := banning_of_reaches setup calls hstart hcache
  have himposed : Imposed b c₁.shared := by
    have hsound₁ := (sound_of_reaches hstart (reaches_any hrun₁.of_sparing)).1
    have hholds := hsound₁.2 u
    rw [hchanged] at hholds
    exact ⟨_, hholds.value hsound₁.1 rfl, hsince⟩
  have hsparing : (system setup).Reaches ((known b (s₀.cache.version.getD 0)).sparing t)
      (calling (fun t => (calls t).program setup) s₀) c₁ := by
    let A : Assumption ℕ Request State := (b.imposed.sparing t).within fun s =>
      Versioned (s₀.cache.version.getD 0) s ∧ b.Respected s
    have hrun : (system setup).Reaches A (calling (fun t => (calls t).program setup) s₀) c₁ :=
      hrun₁.within fun d hd => hknown d
        (Machine.Reaches.mono (A := A) (fun _ _ _ h => ⟨h.1.2, h.2⟩) (fun _ _ h => h) hd)
    exact Machine.Reaches.mono (A := A) (fun _ _ _ h => ⟨h.1.1, h.1.2, h.2⟩) (fun _ _ h => h) hrun
  have hwithin : (system setup).Reaches (known b (s₀.cache.version.getD 0)) c₁ c₂ :=
    hrun₂.within fun d hd => hknown d (hsparing.of_sparing.trans hd)
  have hsound₁ := hsound.reaches banning_compatible (fun _ _ _ => trivial) hsparing.of_sparing
  have hrefused : (banning setup b (s₀.cache.version.getD 0)).Holds (system setup)
      (known b (s₀.cache.version.getD 0)) t (fun _ _ => False) (fun _ _ => True) (c₁.thread t)
      c₁.shared := by
    rcases hsound.waits banning_compatible (fun _ _ _ => trivial) hsparing looking_stable
      ⟨fun k hk => ((hstart.toAtRest.tables k).ledger).free, Nat.zero_le _⟩ with
      ⟨hbegins, hlooking⟩ | hlost
    · rw [hbegins]
      exact ((calls t).fits.mono (fun _ _ _ h => h ⟨trivial, huser, hgate⟩) fun _ => .refl).holds
        hsound₁.1 ⟨hlooking, fun _ : True => himposed⟩
    · rw [hlost]
      exact (Rules.Meets.fail (.const True)).holds hsound₁.1 trivial
  have hsound₂ := (hsound₁.renew hrefused).reaches banning_compatible (fun _ _ _ => trivial)
    hwithin
  intro hreturned
  have hholds := hsound₂.2 t
  rw [hreturned, Function.update_self] at hholds
  exact hholds.value hsound₂.1

theorem passGates_ne_ret (userId : ℕ) {gates : List Gate} (hgates : gates ≠ [])
    (resolved : Option RoleData) : passGates userId gates none ≠ .ret resolved := by
  cases gates with
  | nil => exact (hgates rfl).elim
  | cons gate gates =>
      intro h
      by_cases hid : userId = 0 <;> simp only [passGates, resolveRoleOf, hid, ↓reduceIte] at h <;>
        cases h

/-- The call whose handler does nothing. -/
def Call.idle (call : Call) : Call := { call with work := .other (pure ()) trivial }

/-- On no way from `c` on do the gates of a request let it through. -/
def Refused (setup : Setup) (A : Assumption ℕ Request State) (t : ℕ) (call : Call)
    (c : Config ℕ Error Request Request.Reply State Bool) : Prop :=
  ∀ c' resolved, ¬ (system setup).Inside A t c (passGates call.userId call.gates none) c'
    (.ret resolved)

/-- While the database withholds a permission from a user with one role, no request of the user
that begins after the change has returned is let through by gates for the permission. -/
theorem denial_effective (hstart : Unannounced s₀) (hcache : b.Respected s₀)
    (hrun : (system setup).Reaches (b.imposed.sparing t)
      (calling (fun t => (calls t).program setup) s₀) c₁)
    (hchanged : c₁.thread u = .ret true) (hsince : b.since ≤ c₁.shared.db.committedAt u)
    (huser : (calls t).userId = b.userId)
    (hgate : Gate.permission b.permission ∈ (calls t).gates) :
    Refused setup b.imposed t (calls t) c₁ ∧
      ∀ c₂, (system setup).Reaches b.imposed c₁ c₂ → ∀ answer, c₂.thread t ≠ .ret answer := by
  refine ⟨fun c₂ resolved hinside₂ => ?_, fun c₂ hrun₂ =>
    not_answered hstart hcache hrun hchanged hsince huser hgate hrun₂⟩
  have hgates := passGates_ne_ret (calls t).userId (List.ne_nil_of_mem hgate)
  have hbegins : (calling (fun t => (calls t).program setup) s₀).thread t =
      passGates (calls t).userId (calls t).gates none >>= fun _ => (calls t).work.program setup :=
    rfl
  rcases hrun.inside hbegins with ⟨q, hinside₁, -⟩ | ⟨d, resolved', hinside₁, -⟩
  · have hthread₁ := hinside₁.thread hbegins
    rcases hinside₁.eq_of_sparing with rfl | rfl
    · -- the same run with a handler that does nothing would return
      have hne : u ≠ t := by
        rintro rfl
        exact not_answered hstart hcache hrun hchanged hsince huser hgate .refl true hchanged
      let idle : Option RoleData → Service Bool := fun _ => (calls t).idle.work.program setup
      let calls' := Function.update calls t (calls t).idle
      have hidle : calls' t = (calls t).idle := Function.update_self ..
      have hcalls : (calling (fun t => (calls t).program setup) s₀).replace t
          (passGates (calls t).userId (calls t).gates none >>= idle) =
            calling (fun t => (calls' t).program setup) s₀ := by
        refine congrArg (Config.mk s₀) (funext fun v => ?_)
        by_cases heq : v = t
        · subst heq
          rw [Function.update_self, hidle]
          rfl
        · rw [Function.update_of_ne heq]
          simp only [calls', Function.update_of_ne heq]
          rfl
      have hrun₁' := hinside₁.replace hbegins idle
      have hrun₂' := hinside₂.replace hthread₁ idle
      rw [hcalls] at hrun₁'
      have hchanged' : (c₁.replace t
          (passGates (calls t).userId (calls t).gates none >>= idle)).thread u = .ret true :=
        (Function.update_of_ne hne _ _).trans hchanged
      refine (not_answered hstart hcache hrun₁' hchanged' hsince ?_ ?_ hrun₂' false
        (Function.update_self ..)).elim
      · rw [hidle]
        exact huser
      · rw [hidle]
        exact hgate
    · exact hgates resolved (hinside₂.eq_of_failed hthread₁).1.symm
  · rcases hinside₁.eq_of_sparing with h | h
    · exact hgates resolved' h.symm
    · cases h

/-! ### A permission that is taken away -/

/-- The user 7 is refused the permission from the first commit on. -/
def ban : Ban := { userId := 7, roleId := 3, permission := READ_LOGS, since := 1 }

/-- Before the change nothing is committed, and after it the role grants nothing. -/
def banned (_ : ℕ) (_ : Request) (s : State) : Bool :=
  decide (s.db.commits < 1) ||
    ((s.db.users.committed 7).all (fun user => decide (user.roleId = some 3)) &&
      (s.db.roles.committed 3).all fun role => decide (role.access = []))

theorem imposed_of_banned (r : Request) (s : State) (h : banned t r s = true) :
    ban.imposed.request t r s := by
  refine ⟨trivial, fun hle => ?_⟩
  have hsince : 1 ≤ s.db.commits := hle
  simp only [banned, Bool.or_eq_true, decide_eq_true_eq, Bool.and_eq_true,
    Option.all_eq_true] at h
  rcases h with h | ⟨husers, hroles⟩
  · omega
  · exact ⟨fun user huser _ => .inr (husers user huser), fun role hrole _ => by
      simp [hroles role hrole]⟩

/-- Thread 3 takes no step before the change has returned. -/
def bannedBefore (t : ℕ) (r : Request) (s : State) : Bool := decide (t ≠ 3) && banned t r s

theorem denial_effective_sample : Refused plainSetup ban.imposed 3 (sample 3) taken ∧
    (∀ answer, refused.thread 3 ≠ .ret answer) ∧ (taken.thread 1).value?.isSome = true ∧
    (refused.thread 3).error? = some
      (.app "You do not have permission to perform this action" 403) := by
  have hrun : (system plainSetup).Reaches (ban.imposed.sparing 3) start taken := by
    refine .of_passes bannedBefore (fun t r s h => ?_) (fun _ _ => trivial) (by decide +kernel)
    simp only [bannedBefore, Bool.and_eq_true, decide_eq_true_eq] at h
    exact ⟨h.1, imposed_of_banned r s h.2⟩
  have hchanged : taken.thread 2 = .ret true := Program.value?_eq_some.mp (by decide +kernel)
  have hdenied := denial_effective appointed_unannounced (fun _ _ h => by cases h) hrun hchanged
    (by decide +kernel) rfl (.head _)
  refine ⟨hdenied.1, hdenied.2 refused ?_, by decide +kernel, by decide +kernel⟩
  exact .of_passes banned (fun _ => imposed_of_banned) (fun _ _ => trivial) (by decide +kernel)

end ExpressCore.Freshness
