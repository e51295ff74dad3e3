import ExpressCore.Model.RbacCache
import ExpressCore.Verification.Account.Requests
import ExpressCore.Verification.System.Commands
import ExpressCore.Verification.System.Start

/-! # The users of a role in the cache

Membership in a set has no versions: a removal also undoes an addition of a member that was
already there. -/

namespace ExpressCore.Tracking

open ReadCommitted Interleaving Interleaving.Program

/-- The calls on the users of roles. -/
inductive Call where
  | cache (userId : ℕ) (data : CachedUserData) (version : ℕ)
  | invalidate (roleId : ℕ)

def Call.program : Call → Service Unit
  | .cache userId data version => cacheUserAccess userId data version
  | .invalidate roleId => invalidateRoleUsers roleId

/-! ## The order of commands -/

section Order

variable {L : List (ℕ × CacheCommand)} {roleId userId t : ℕ} {who : ℕ → Prop}
  {e x : ℕ × CacheCommand}

/-- Command `e` was executed, and none of `who` has read the users of the role since. -/
def After (roleId : ℕ) (who : ℕ → Prop) (e : ℕ × CacheCommand) (L : List (ℕ × CacheCommand)) :
    Prop :=
  ∃ newer older, L = newer ++ e :: older ∧
    ∀ x ∈ newer, who x.1 → x.2 ≠ .smembersRoleUsers roleId

/-- Thread `t` has written the last entry of the user. -/
def Wrote (userId t : ℕ) (L : List (ℕ × CacheCommand)) : Prop :=
  ∃ newer entry older, L = newer ++ (t, .setAccess userId entry) :: older ∧
    ∀ x ∈ newer, ∀ entry', x.2 ≠ .setAccess userId entry'

theorem After.mono {who' : ℕ → Prop} (h : After roleId who e L) (hwho : ∀ t, who' t → who t) :
    After roleId who' e L := by
  obtain ⟨newer, older, heq, hnewer⟩ := h
  exact ⟨newer, older, heq, fun x hx ht => hnewer x hx (hwho x.1 ht)⟩

theorem After.mem (h : After roleId who e L) : e ∈ L := by
  obtain ⟨newer, older, rfl, -⟩ := h
  simp

theorem After.of_cons (h : After roleId who e (x :: L)) (hne : e ≠ x) :
    After roleId who e L ∧ (who x.1 → x.2 ≠ .smembersRoleUsers roleId) := by
  obtain ⟨newer, older, heq, hnewer⟩ := h
  cases newer with
  | nil => exact (hne (List.cons.inj heq).1.symm).elim
  | cons y newer =>
      obtain ⟨rfl, rfl⟩ := List.cons.inj heq
      exact ⟨⟨newer, older, rfl, fun z hz => hnewer z (.tail _ hz)⟩, hnewer x (.head _)⟩

theorem Wrote.of_cons (h : Wrote userId t (x :: L)) :
    (x.1 = t ∧ ∃ entry, x.2 = .setAccess userId entry) ∨
      Wrote userId t L ∧ ∀ entry, x.2 ≠ .setAccess userId entry := by
  obtain ⟨newer, entry, older, heq, hnewer⟩ := h
  cases newer with
  | nil =>
      obtain ⟨rfl, -⟩ := List.cons.inj heq
      exact .inl ⟨rfl, entry, rfl⟩
  | cons y newer =>
      obtain ⟨rfl, rfl⟩ := List.cons.inj heq
      exact .inr ⟨⟨newer, entry, older, rfl, fun z hz => hnewer z (.tail _ hz)⟩,
        hnewer x (.head _)⟩

end Order

/-! ## Users that are tracked -/

/-- The user has an entry for the role, and thread `t` wrote it. -/
def Entered (roleId userId t : ℕ) (s : State) : Prop :=
  (∃ entry, s.cache.userRole userId = some entry ∧ entry.role.map (·.id) = some roleId) ∧
    Wrote userId t s.commands

/-- Runs in which the users of the role do not expire, and in which nobody is removed from them
whose entry is from a call that has added the user again since the removing call has read them. -/
def heedful (roleId : ℕ) : Assumption ℕ Request State where
  request t r s := ∀ members, r = .cache (.sremRoleUsers roleId members) →
    ∀ userId ∈ members, ∀ u, Entered roleId userId u s →
      ¬ After roleId (· = t) (u, .saddRoleUsers roleId userId) s.commands
  move s s' := s'.cache.roleUsers = s.cache.roleUsers

/-- A call writes an entry before it sends anything else. -/
def writing : Discipline where
  tables _ := False
  change _ _ _ _ := True
  commit _ _ := True
  other t r s := ∀ userId entry, r = .cache (.setAccess userId entry) → Silent t s
  commit_free _ _ _ := trivial

variable {setup : Setup} {calls : ℕ → Call} {roleId t : ℕ} {s s' s₀ : State}

/-- Users whose call has finished since the last reading are members. -/
def Tracked (roleId : ℕ) (s : State) : Prop :=
  ∀ userId t, Entered roleId userId t s →
    After roleId (fun _ => True) (t, .saddRoleUsers roleId userId) s.commands →
      userId ∈ s.cache.roleUsers roleId

theorem Tracked.command {c : CacheCommand} (h : Tracked roleId s)
    (hother : writing.other t (.cache c) s) (hA : (heedful roleId).request t (.cache c) s)
    (hcache : s'.cache = (c.exec t (s.db.committedAt t) s.cache).2)
    (hcommands : s'.commands = (t, c) :: s.commands) : Tracked roleId s' := by
  rintro userId u ⟨⟨entry, hentry, hrole⟩, hwrote⟩ hafter
  rw [hcommands] at hwrote hafter
  rw [hcache] at hentry ⊢
  by_cases hadd : (u, CacheCommand.saddRoleUsers roleId userId) = (t, c)
  · obtain ⟨rfl, rfl⟩ := Prod.mk.inj hadd
    simp [CacheCommand.exec]
  obtain ⟨hbefore, -⟩ := hafter.of_cons hadd
  rcases hwrote.of_cons with ⟨rfl, entry', rfl⟩ | ⟨hwritten, hother'⟩
  · exact (hother userId entry' rfl _ hbefore.mem rfl).elim
  have hmember (hsame : s.cache.userRole userId = some entry) :
      userId ∈ s.cache.roleUsers roleId := h userId u ⟨⟨entry, hsame, hrole⟩, hwritten⟩ hbefore
  cases c with
  | setAccess v entry' =>
      have hne : userId ≠ v := by
        rintro rfl
        exact hother' entry' rfl
      simp only [CacheCommand.exec, Function.update_of_ne hne] at hentry ⊢
      exact hmember hentry
  | saddRoleUsers r v =>
      simp only [CacheCommand.exec] at hentry ⊢
      by_cases hr : roleId = r
      · subst hr
        simp [hmember hentry]
      · rw [Function.update_of_ne hr]
        exact hmember hentry
  | sremRoleUsers r members =>
      simp only [CacheCommand.exec] at hentry ⊢
      by_cases hr : roleId = r
      · subst hr
        have hkept : userId ∉ members := fun hmem => hA members rfl userId hmem u
          ⟨⟨entry, hentry, hrole⟩, hwritten⟩ (hbefore.mono fun _ _ => trivial)
        simp [hmember hentry, hkept]
      · rw [Function.update_of_ne hr]
        exact hmember hentry
  | del keys =>
      simp only [CacheCommand.exec] at hentry ⊢
      split at hentry
      · cases hentry
      · exact hmember hentry
  | _ => exact hmember hentry

theorem Tracked.step (h : Tracked roleId s) (hevent : Event setup (heedful roleId) writing s s') :
    Tracked roleId s' := by
  cases hevent.onCache with
  | same hcache hcommands =>
      unfold Tracked Entered
      rw [hcache, hcommands]
      exact h
  | command t c hother hA hcache hcommands hdb => exact h.command hother hA hcache hcommands
  | move m hmove hA hcommands hdb =>
      rintro userId u ⟨⟨entry, hentry, hrole⟩, hwrote⟩ hafter
      have hroleUsers : s'.cache.roleUsers = s.cache.roleUsers := hA
      rw [hcommands] at hwrote hafter
      rw [hroleUsers]
      exact h userId u ⟨⟨entry, (move_entries hmove).1 userId entry hentry, hrole⟩, hwrote⟩ hafter

/-! ## The calls -/

abbrev rules (setup : Setup) (roleId : ℕ) : Rules ℕ State :=
  keeping setup False (heedful roleId) writing

theorem lets_command {c : CacheCommand} (hc : ∀ userId entry, c ≠ .setAccess userId entry) :
    writing.Lets t (.cache c) :=
  fun _ => guard_of_other (fun _ hsql => by cases hsql) fun _ userId entry hcommand =>
    (hc userId entry (Request.cache.inj hcommand)).elim

theorem cacheUserAccess_meets (userId : ℕ) (data : CachedUserData) (version : ℕ) :
    (rules setup roleId).Meets (system setup) (heedful roleId) t (fun _ _ => True)
      (fun _ _ => True) (cacheUserAccess userId data version) (Silent t) := by
  have hset : (rules setup roleId).Meets (system setup) (heedful roleId) t (fun _ _ => True)
      (fun _ _ => True)
      (request (.cache (.setAccess userId { data with rbacVersion := some version })))
      (Silent t) :=
    Rules.Meets.send silent_stable (keeping_answers (fun s _ _ h =>
      guard_of_other (fun _ hsql => by cases hsql) fun _ _ _ _ => h) fun _ _ _ _ _ _ _ _ => trivial)
        fun _ => .const True
  refine .bind (.bind hset fun reply => ?_) fun _ => meets_lets ?_
  · cases reply with
    | none => exact .throw (.const True) fun _ _ _ => trivial
    | some reply => exact .pure (.const True) fun _ _ _ => trivial
  · split
    · exact uses_cacheService (lets_command nofun)
    · trivial

theorem invalidateRoleUsers_lets (r : ℕ) : (invalidateRoleUsers r).Uses (writing.Lets t) := by
  refine .bind (uses_cacheService (lets_command nofun)) fun _ =>
    .bind (uses_cacheService (lets_command nofun)) fun userIds => ?_
  split
  · trivial
  · exact .bind (uses_cacheService (lets_command nofun)) fun _ =>
      uses_cacheService (lets_command nofun)

/-! ## Runs -/

/-- Thread `t` has begun to send commands and has not finished. -/
def InProgress {α : Type} (t : ℕ) (c : Config ℕ Error Request Request.Reply State α) : Prop :=
  ¬ Silent t c.shared ∧ ∃ r next, c.thread t = .call r next

/-- While no invalidation of the role is in progress, every user is tracked whose entry for the
role is from a call that has finished since the users of the role were last read. -/
def TrackingSurvives (calls : ℕ → Call) (roleId : ℕ)
    (c : Config ℕ Error Request Request.Reply State Unit) : Prop :=
  (∀ t, calls t = .invalidate roleId → ¬ InProgress t c) →
    ∀ userId t, Entered roleId userId t c.shared → c.thread t = .ret () →
      After roleId (fun _ => True) (t, .saddRoleUsers roleId userId) c.shared.commands →
        userId ∈ c.shared.cache.roleUsers roleId

theorem tracking_survives {c : Config ℕ Error Request Request.Reply State Unit}
    (hstart : s₀.AtRest) (hsilent : s₀.commands = [])
    (hrun : (system setup).Reaches (heedful roleId) (calling (fun t => (calls t).program) s₀) c) :
    TrackingSurvives calls roleId c := by
  have hsound : (rules setup roleId).Sound (system setup) (heedful roleId) (fun _ _ _ => True)
      (fun _ _ _ => True) (calling (fun t => (calls t).program) s₀) := by
    refine hstart.sound (fun t => Silent t) (fun t => by simp [Silent, hsilent]) fun t => ?_
    cases hcall : calls t with
    | cache userId data version =>
        exact (cacheUserAccess_meets userId data version).weaken fun _ _ h => h.2
    | invalidate r => exact (meets_lets (invalidateRoleUsers_lets r)).weaken fun _ _ _ => trivial
  have htracked : Tracked roleId c.shared := by
    refine keeping_induction nofun (fun _ _ _ => trivial) hsound hrun (fun userId t h => ?_)
      fun s s' _ _ h hevent => h.step hevent
    obtain ⟨newer, entry, older, heq, -⟩ := h.2
    have heq : s₀.commands = newer ++ (t, .setAccess userId entry) :: older := heq
    simp [hsilent] at heq
  exact fun _ userId t hentered _ hafter => htracked userId t hentered hafter

theorem cacheUserAccess_learns {told : (r : Request) → r.Reply → Prop} {userId version : ℕ}
    {data : CachedUserData} {role : RoleData} (hrole : data.role = some role) :
    (cacheUserAccess userId data version).Learns told
      (fun _ => told (.cache (.saddRoleUsers role.id userId)) (some ())) fun _ => True := by
  refine .skip fun _ => ?_
  rw [hrole]
  exact cacheService_learns (.saddRoleUsers role.id userId)

/-- A call that has returned has added the user. -/
theorem added_of_returned {A : Assumption ℕ Request State}
    {c : Config ℕ Error Request Request.Reply State Unit} {userId version : ℕ}
    {data : CachedUserData} {role : RoleData} (hcall : calls t = .cache userId data version)
    (hrole : data.role = some role)
    (hrun : (system setup).Reaches A (calling (fun t => (calls t).program) s₀) c)
    (hreturned : c.thread t = .ret ()) :
    (t, .saddRoleUsers role.id userId) ∈ c.shared.commands := by
  have hprogram : (calling (fun t => (calls t).program) s₀).thread t =
      cacheUserAccess userId data version := congrArg Call.program hcall
  exact mem_commands_of_told (hrun.learnt (hprogram ▸ cacheUserAccess_learns hrole) hreturned)

/-! ## An addition that is undone -/

def member : CachedUserData :=
  { id := 7, role := some { id := 3, slug := "editor", userType := some "Staff", access := [] }
    rbacVersion := none, readAt := 0 }

/-- A user of role 3 who is cached twice, and changes of the role. -/
def sample (t : ℕ) : Call :=
  if t = 2 ∨ t = 4 then .invalidate 3 else .cache 7 member 0

/-- `n` commands of thread `t`. -/
def send (t n : ℕ) : List (Label ℕ Oracle) := List.replicate n (.run t {})

/-- Nobody who has an entry is removed. -/
def orderly (_ : ℕ) (r : Request) (s : State) : Bool :=
  match r with
  | .cache (.sremRoleUsers _ members) =>
      members.all fun userId => (s.cache.userRole userId).isNone
  | _ => true

theorem heedful_of_orderly (r : Request) (s : State) (h : orderly t r s = true) :
    (heedful roleId).request t r s := by
  rintro members rfl userId hmem u ⟨⟨entry, hentry, -⟩, -⟩ -
  have hnone := List.all_eq_true.mp h userId hmem
  simp [hentry] at hnone

/-- The second call caches the user when the role has changed. -/
def inTurn : Config ℕ Error Request Request.Reply State Unit :=
  (system plainSetup).after (calling (fun t => (sample t).program) (plainState .empty))
    (send 1 2 ++ send 2 4 ++ send 3 2)

theorem tracking_survives_inTurn :
    TrackingSurvives sample 3 inTurn ∧ inTurn.shared.cache.roleUsers 3 = [7] := by
  refine ⟨tracking_survives plainState_atRest rfl (.of_passes_moves orderly (fun _ _ => false)
    (fun _ => heedful_of_orderly) nofun (by decide +kernel) (by decide +kernel)),
    by decide +kernel⟩

/-- Runs in which the users of a role do not expire. -/
def lasting : Assumption ℕ Request State where
  request _ _ _ := True
  move s s' := s'.cache.roleUsers = s.cache.roleUsers

/-- The second call adds the user, who is still a member, before the user is removed. -/
def overtaken : Config ℕ Error Request Request.Reply State Unit :=
  (system plainSetup).after (calling (fun t => (sample t).program) (plainState .empty))
    (send 1 2 ++ send 2 3 ++ send 3 2 ++ send 2 1)

theorem addition_undone : (plainState .empty).AtRest ∧
    (system plainSetup).Reaches lasting (calling (fun t => (sample t).program) (plainState .empty))
      overtaken ∧ ¬ TrackingSurvives sample 3 overtaken := by
  refine ⟨plainState_atRest, .of_passes_moves (fun _ _ _ => true) (fun _ _ => false)
    (fun _ _ _ _ => trivial) nofun (by decide +kernel) (by decide +kernel), fun h => ?_⟩
  have hcommands : overtaken.shared.commands.take 3 = [(2, .sremRoleUsers 3 [7]),
      (3, .saddRoleUsers 3 7), (3, .setAccess 7 { member with rbacVersion := some 0 })] := by
    decide +kernel
  have hfinished (t : ℕ) (ht : t = 2 ∨ t = 3) : overtaken.thread t = .ret () := by
    rcases ht with rfl | rfl <;> exact Program.value?_eq_some.mp (by decide +kernel)
  have hlog := (List.take_append_drop 3 overtaken.shared.commands).symm
  rw [hcommands] at hlog
  refine absurd (h (fun t ht hprogress => ?_) 7 3 ⟨⟨{ member with rbacVersion := some 0 },
    by decide +kernel, rfl⟩, ⟨[_, _], _, _, hlog, by simp⟩⟩ (hfinished 3 (.inr rfl))
    ⟨[_], _, hlog, by simp⟩) (by decide +kernel)
  obtain ⟨hsent, r, next, hcall⟩ := hprogress
  have ht : t = 2 ∨ t = 4 := by
    unfold sample at ht
    split at ht
    · assumption
    · cases ht
  rcases ht with rfl | rfl
  · rw [hfinished 2 (.inl rfl)] at hcall
    cases hcall
  · have hsilent : ∀ x ∈ overtaken.shared.commands, x.1 ≠ 4 := by decide +kernel
    exact hsent hsilent

end ExpressCore.Tracking
