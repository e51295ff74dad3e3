import ExpressCore.Verification.Account.Requests
import ExpressCore.Verification.System.Commands
import ExpressCore.Verification.System.Start

/-! # Profiles in the cache

Cached profiles have no versions: a reading that is late may put an old profile back. -/

namespace ExpressCore.ProfileCache

open ReadCommitted Interleaving Interleaving.Program

/-- The calls on profiles. -/
inductive Call where
  | get (userId : ℕ)
  | update (userId : ℕ) (data : UpdateProfileInput)

def Call.program (setup : Setup) : Call → Service UserProfileData
  | .get userId => getProfile userId
  | .update userId data => updateProfile setup userId data

/-- Runs in which no profile of the user is put into the cache that was read before the commit
of an update which has dropped the cached profile. -/
def punctual (userId : ℕ) : Assumption ℕ Request State where
  request _ r s := ∀ data, r = .cache (.setProfile userId data) →
    ∀ t, (t, .del [.profile userId]) ∈ s.commands → s.db.committedAt t ≤ data.readAt
  move _ _ := True

variable {setup : Setup} {calls : ℕ → Call} {userId n w t : ℕ} {s s' s₀ : State}

/-! ## What the cache holds after an update -/

/-- Thread `w` has dropped the cached profile after commit `n`, and what is cached was read
after that commit. -/
structure Renewed (userId n w : ℕ) (s : State) : Prop where
  dropped : (w, .del [.profile userId]) ∈ s.commands
  committed : n ≤ s.db.committedAt w
  counted : n ≤ s.db.commits
  cached : ∀ data, s.cache.profile userId = some data → n ≤ data.readAt

/-- The commits of thread `t` are counted. -/
def Counted (t : ℕ) (s : State) : Prop := s.db.committedAt t ≤ s.db.commits

theorem Counted.moves {d d' : Db} (h : Db.Moves t d d') (hd : d.committedAt t ≤ d.commits) :
    d'.committedAt t ≤ d'.commits := by
  have hcommits := h.commits
  rcases h.counted with heq | ⟨heq, hnew⟩ <;> omega

/-- Commits only add to the count, and to a thread's own. -/
theorem Renewed.of_moves (h : Renewed userId n w s) (hmoves : Db.Moves t s.db s'.db)
    (hcommands : ∀ x ∈ s.commands, x ∈ s'.commands)
    (hcached : ∀ data, s'.cache.profile userId = some data → n ≤ data.readAt) :
    Renewed userId n w s' where
  dropped := hcommands _ h.dropped
  committed := by
    have hcounted := h.counted
    have hcommitted := h.committed
    by_cases heq : w = t
    · subst heq
      rcases hmoves.counted with heq | ⟨heq, -⟩ <;> omega
    · rw [hmoves.committedAt w heq]
      exact hcommitted
  counted := Nat.le_trans h.counted hmoves.commits
  cached := hcached

theorem Renewed.exec {r : Request} {o : Oracle} {reply : r.Reply} (h : Renewed userId n w s)
    (hA : (punctual userId).request t r s) (hexec : r.exec setup t o s = some (reply, s')) :
    Renewed userId n w s' := by
  have hmoves := (State.Moves.exec hexec).db
  rcases exec_command hexec with ⟨hcache, hcommands⟩ | ⟨c, rfl, rfl⟩
  · exact h.of_moves hmoves (hcommands ▸ fun _ hx => hx) (hcache ▸ h.cached)
  · refine h.of_moves hmoves (fun _ hx => .tail _ hx) fun data hdata => ?_
    cases c with
    | setProfile u profile =>
        by_cases heq : userId = u
        · subst heq
          have hdata : profile = data := by simpa [CacheCommand.exec] using hdata
          exact hdata ▸ Nat.le_trans h.committed (hA profile rfl w h.dropped)
        · exact h.cached data (by simpa [CacheCommand.exec, heq] using hdata)
    | del keys =>
        simp only [CacheCommand.exec] at hdata
        split at hdata
        · cases hdata
        · exact h.cached data hdata
    | _ => exact h.cached data hdata

abbrev rules (setup : Setup) (userId : ℕ) : Rules ℕ State :=
  keeping setup False (punctual userId) .lax

theorem renewed_stable : (rules setup userId).Stable t (Renewed userId n w) := by
  rintro s s' - - ⟨⟨u, -, ⟨r, o, reply, hA, hexec⟩ | rfl⟩ | ⟨o, hmove, -⟩, -⟩ h
  · exact h.exec hA.2 hexec
  · exact h.of_moves (t := u) .abortAll (fun _ hx => hx) h.cached
  · have hdb := (move_exec hmove).1
    exact h.of_moves (t := t) (hdb ▸ .refl) (move_commands hmove ▸ fun _ hx => hx)
      fun data hdata => h.cached data ((move_entries hmove).2 userId data hdata)

/-- Only a thread itself commits for it. -/
theorem committedAt_stable (n : ℕ) :
    (rules setup userId).Stable t fun s => s.db.committedAt t = n := by
  rintro s s' - - ⟨⟨u, hne, ⟨r, o, reply, -, hexec⟩ | rfl⟩ | ⟨o, hmove, -⟩, -⟩ h
  · exact ((State.Moves.exec hexec).db.committedAt t hne.symm).trans h
  · exact h
  · exact (move_exec hmove).1 ▸ h

theorem counted_stable : (rules setup userId).Stable t (Counted t) := by
  rintro s s' - - ⟨⟨u, hne, ⟨r, o, reply, -, hexec⟩ | rfl⟩ | ⟨o, hmove, -⟩, -⟩ h
  · have hmoves := (State.Moves.exec hexec).db
    unfold Counted
    rw [hmoves.committedAt t hne.symm]
    exact Nat.le_trans h hmoves.commits
  · exact h
  · unfold Counted
    rw [(move_exec hmove).1]
    exact h

/-! ## The calls -/

theorem answers {r : Request} {pre : State → Prop} {post : r.Reply → State → Prop}
    (hpost : ∀ s o reply s', (punctual userId).request t r s → pre s →
      r.exec setup t o s = some (reply, s') → post reply s') :
    (rules setup userId).Answers (system setup) (punctual userId) t pre r post :=
  keeping_answers (fun s _ _ _ => Discipline.lax_guard t r s)
    fun s o reply s' _ hA hpre hexec => hpost s o reply s' hA hpre hexec

/-- Before it drops the cached profile a thread only counts its commits. -/
theorem meets_counted {α : Type} (p : Service α) :
    (rules setup userId).Meets (system setup) (punctual userId) t (fun _ => Counted t)
      (fun _ _ => True) p (Counted t) :=
  (Rules.Meets.of_uses (.of_all (fun _ => trivial) p) counted_stable fun _ _ =>
    answers fun _ _ _ _ _ h hexec => Counted.moves (State.Moves.exec hexec).db h).mono
      (fun _ => .refl) fun _ _ _ _ => trivial

/-- Requests that end no transaction. -/
def Reading : Request → Prop
  | .commits => True
  | .cache _ => True
  | .sql (.users _) => True
  | .sql (.roles _) => True
  | .sql (.userProfiles _) => True
  | _ => False

theorem Reading.committedAt {r : Request} {o : Oracle} {reply : r.Reply} (hr : Reading r)
    (h : r.exec setup t o s = some (reply, s')) : s'.db.committedAt = s.db.committedAt := by
  by_cases hsql : ∃ q, r = .sql q
  · obtain ⟨q, rfl⟩ := hsql
    simp only [Request.exec, Option.map_eq_some_iff, Prod.mk.injEq] at h
    obtain ⟨⟨reply', d⟩, hexec, -, rfl⟩ := h
    cases q with
    | users a | roles a | userProfiles a =>
        simp only [Sql.exec, Db.unlessPoisoned_eq_some, Option.map_eq_some_iff,
          Prod.mk.injEq] at hexec
        obtain ⟨-, ⟨reply'', T⟩, -, -, rfl⟩ := hexec
        rfl
    | _ => exact hr.elim
  · exact congrArg Db.committedAt (exec_db (fun q hq => hsql ⟨q, hq⟩) h)

theorem findProfile_reads (u : ℕ) : (findProfile u).Uses Reading := by
  refine .bind (uses_send.mpr trivial) fun readAt => .bind (uses_send.mpr trivial) fun user => ?_
  split
  · trivial
  · dsimp only
    split
    on_goal 1 => refine .bind (uses_pure _) fun role => ?_
    on_goal 2 => refine .bind (uses_send.mpr trivial) fun role => ?_
    all_goals exact .bind (uses_send.mpr trivial) fun profile => trivial

theorem getProfile_reads (u : ℕ) : (getProfile u).Uses Reading := by
  refine .bind (uses_cacheService trivial) fun cached => ?_
  split
  · trivial
  · refine .bind (findProfile_reads u) fun found => ?_
    split
    · trivial
    · exact .bind (uses_cacheService trivial) fun _ => trivial

/-- What an update leaves: its last commit, and the cache after it. -/
abbrev Done (userId t : ℕ) (s : State) : Prop :=
  Renewed userId (s.db.committedAt t) t s

theorem done_stable : (rules setup userId).Stable t (Done userId t) := by
  intro s s' hs hs' hmove h
  unfold Done
  rw [committedAt_stable (s.db.committedAt t) s s' hs hs' hmove rfl]
  exact renewed_stable s s' hs hs' hmove h

theorem meets_done {α : Type} {p : Service α} (hp : p.Uses Reading) :
    (rules setup userId).Meets (system setup) (punctual userId) t (fun _ => Done userId t)
      (fun _ _ => True) p (Done userId t) :=
  (Rules.Meets.of_uses hp done_stable fun _ hr => answers fun _ _ _ _ hA h hexec => by
    unfold Done
    rw [hr.committedAt hexec]
    exact h.exec hA hexec).mono (fun _ => .refl) fun _ _ _ _ => trivial

theorem drop_meets :
    (rules setup userId).Meets (system setup) (punctual userId) t (fun _ => Done userId t)
      (fun _ _ => True) (cacheService (.del [.profile userId])) (Counted t) := by
  refine .seq (fun reply s => reply.isSome → Done userId t s) (.send counted_stable
    (answers fun s o reply s' _ h hexec hreply => ?_)
      fun reply => .imp_const fun _ => done_stable) fun reply => ?_
  · simp only [Request.exec] at hexec
    split at hexec <;> cases hexec
    · cases hreply
    · exact ⟨.head _, Nat.le_refl _, h, fun data hdata => by simp [CacheCommand.exec] at hdata⟩
  · cases reply with
    | none => exact .throw (.const True) fun _ _ _ => trivial
    | some reply => exact .pure done_stable fun _ _ h => h rfl

theorem updateProfile_meets (data : UpdateProfileInput) :
    (rules setup userId).Meets (system setup) (punctual userId) t (fun _ => Done userId t)
      (fun _ _ => True) (updateProfile setup userId data) (Counted t) := by
  refine .bind (meets_counted _) fun found => ?_
  cases found with
  | none => exact .throw (.const True) fun _ _ _ => trivial
  | some existing =>
      dsimp only
      split
      on_goal 1 => refine .bind (meets_counted _) fun _ => ?_
      all_goals
        exact .bind (meets_counted _) fun updated => .bind drop_meets fun _ =>
          meets_done (.bind (getProfile_reads _) fun _ =>
            .bind (uses_cacheService trivial) fun _ => trivial)

theorem meets_any {α : Type} (p : Service α) :
    (rules setup userId).Meets (system setup) (punctual userId) t (fun _ _ => True)
      (fun _ _ => True) p fun _ => True :=
  .of_uses (.of_all (fun _ => trivial) p) (.const True) fun _ _ => answers fun _ _ _ _ _ _ _ =>
    trivial

/-- What is read from the database is newer than any commit before. -/
theorem findProfile_meets (u : ℕ) :
    (rules setup userId).Meets (system setup) (punctual userId) t
      (fun found _ => ∀ data, found = some data → n ≤ data.readAt) (fun _ _ => True)
      (findProfile u) (Renewed userId n w) := by
  refine .seq (fun readAt _ => n ≤ readAt ∧ True) (.send renewed_stable
    (answers fun s o readAt s' _ h hexec => ?_) fun _ => .const _)
      fun readAt => .assume fun hn => ?_
  · obtain ⟨rfl, -⟩ := Prod.mk.inj (Option.some.inj hexec)
    exact ⟨h.counted, trivial⟩
  · refine .bind (meets_any _) fun user => ?_
    cases user with
    | none => exact .pure (.const _) fun _ _ _ _ hdata => nomatch hdata
    | some user =>
        dsimp only
        split
        on_goal 1 => refine .bind (meets_any _) fun role => ?_
        on_goal 2 => refine .bind (meets_any _) fun role => ?_
        all_goals
          exact .bind (meets_any _) fun profile =>
            .pure (.const _) fun _ _ _ data hdata => Option.some.inj hdata ▸ hn

/-- A reading gives what was read after commit `n`. -/
theorem getProfile_meets :
    (rules setup userId).Meets (system setup) (punctual userId) t
      (fun data _ => n ≤ data.readAt) (fun _ _ => True) (getProfile userId)
      (Renewed userId n w) := by
  have hget : (rules setup userId).Meets (system setup) (punctual userId) t
      (fun cached s => (∀ data, cached = some data → n ≤ data.readAt) ∧ Renewed userId n w s)
      (fun _ _ => True) (cacheService (.getProfile userId)) (Renewed userId n w) := by
    refine .seq (fun reply s => (∀ data, reply = some (some data) → n ≤ data.readAt) ∧
      Renewed userId n w s) (.send renewed_stable (answers fun s o reply s' hA h hexec =>
        ⟨fun data hdata => ?_, h.exec hA hexec⟩) fun _ => .and (.const _) renewed_stable)
          fun reply => ?_
    · subst hdata
      simp only [Request.exec] at hexec
      split at hexec
      · cases hexec
      · obtain ⟨hreply, -⟩ := Prod.mk.inj (Option.some.inj hexec)
        exact h.cached data (Option.some.inj hreply)
    · cases reply with
      | none => exact .throw (.const True) fun _ _ _ => trivial
      | some cached =>
          exact .pure (.and (.const _) renewed_stable) fun s _ h =>
            ⟨fun data hdata => h.1 data (hdata ▸ rfl), h.2⟩
  refine .bind hget fun cached => ?_
  cases cached with
  | some data => exact .pure (.const _) fun _ _ h => h.1 data rfl
  | none =>
      refine .bind ((findProfile_meets userId).weaken fun _ _ h => h.2) fun found => ?_
      cases found with
      | none => exact .throw (.const True) fun _ _ _ => trivial
      | some data =>
          refine Rules.Meets.under (fun _ => n ≤ data.readAt ∧ True) (.assume fun hn => ?_)
            fun _ _ h => ⟨h data rfl, trivial⟩
          exact .bind (meets_any _) fun _ => .pure (.const _) fun _ _ _ => hn

theorem Call.meets (call : Call) :
    (rules setup userId).Meets (system setup) (punctual userId) t
      (fun _ s => ∀ data, call = .update userId data → Done userId t s) (fun _ _ => True)
      (call.program setup) (Counted t) := by
  cases call with
  | get u =>
      refine ((meets_any _).weaken fun _ _ _ => trivial).mono (fun found s _ _ data h => ?_)
        fun _ => .refl
      cases h
  | update u data =>
      by_cases hu : u = userId
      · subst hu
        exact (updateProfile_meets data).mono (fun _ _ _ h _ _ => h) fun _ => .refl
      · refine ((meets_any _).weaken fun _ _ _ => trivial).mono (fun found s _ _ data' h => ?_)
          fun _ => .refl
        exact (hu (Call.update.inj h).1).elim

/-! ## Runs -/

/-- A call of `getProfile` that has not begun in `c₁` and has returned in `c₂` gives data that
was read after the commit of every update that had returned in `c₁`. -/
def ReadsRenewed (calls : ℕ → Call) (userId : ℕ)
    (c₁ c₂ : Config ℕ Error Request Request.Reply State UserProfileData) : Prop :=
  ∀ w data updated, calls w = .update userId data → c₁.thread w = .ret updated →
    ∀ t found, calls t = .get userId → c₁.thread t = getProfile userId →
      c₂.thread t = .ret found → c₁.shared.db.committedAt w ≤ found.readAt

theorem reads_renewed {c₁ c₂ : Config ℕ Error Request Request.Reply State UserProfileData}
    (hstart : s₀.AtRest) (hcounted : ∀ t, s₀.db.committedAt t ≤ s₀.db.commits)
    (hrun₁ : (system setup).Reaches (punctual userId)
      (calling (fun t => (calls t).program setup) s₀) c₁)
    (hrun₂ : (system setup).Reaches (punctual userId) c₁ c₂) :
    ReadsRenewed calls userId c₁ c₂ := by
  have hsound : (rules setup userId).Sound (system setup) (punctual userId)
      (fun t _ s => ∀ data, calls t = .update userId data → Done userId t s)
      (fun _ _ _ => True) (calling (fun t => (calls t).program setup) s₀) := by
    exact hstart.sound Counted hcounted fun t => (calls t).meets.weaken fun _ _ h => h.2
  have hcompat : (rules setup userId).Compatible (system setup) (punctual userId) :=
    keeping_compatible nofun
  intro w data updated hw hreturned t found ht hbegins hends
  have hsound₁ := hsound.reaches hcompat (fun _ _ _ => trivial) hrun₁
  have hdone : Done userId w c₁.shared := by
    have hholds := hsound₁.2 w
    rw [hreturned] at hholds
    exact hholds.value hsound₁.1 data hw
  have hsound₂ := hsound₁.renew (t := t) (hbegins ▸ getProfile_meets.holds hsound₁.1 hdone)
  have hholds := (hsound₂.reaches hcompat (fun _ _ _ => trivial) hrun₂).2 t
  rw [hends, Function.update_self] at hholds
  exact hholds.value (hsound₂.reaches hcompat (fun _ _ _ => trivial) hrun₂).1

/-! ## A reading that is late -/

def owner : User :=
  { name := some "Ada", slug := some "ada", email := some "old@example.com", password := none
    avatar := none, roleId := none, isEmailVerified := true, deletedAt := none }

/-- Readings of the profile of user 7, and an update of it. -/
def sample (t : ℕ) : Call :=
  if t = 2 then .update 7
    { name := none, email := some "new@example.com", avatar := none, password := none
      details := { phone := none, birthDate := none, gender := none, locale := none } }
  else .get 7

/-- `n` requests of thread `t`. -/
def requests (t n : ℕ) : List (Label ℕ Oracle) := List.replicate n (.run t {})

abbrev start : Config ℕ Error Request Request.Reply State UserProfileData :=
  calling (fun t => (sample t).program plainSetup) (plainState (oneRow 7 owner))

theorem start_atRest : (plainState (oneRow 7 owner)).AtRest :=
  { plainState_atRest with
    tables := fun k => by
      cases k with
      | users => exact oneRow_atRest 7 owner
      | _ => exact Table.empty_atRest }

/-- No profile is older than a commit of a thread that has sent commands. -/
def timely (_ : ℕ) (r : Request) (s : State) : Bool :=
  match r with
  | .cache (.setProfile _ data) =>
      s.commands.all fun x => decide (s.db.committedAt x.1 ≤ data.readAt)
  | _ => true

theorem punctual_of_timely (r : Request) (s : State) (h : timely t r s = true) :
    (punctual userId).request t r s := by
  rintro data rfl w hw
  exact of_decide_eq_true (List.all_eq_true.mp h (w, .del [.profile userId]) hw)

/-- A reading, and then the update. -/
def updated : Config ℕ Error Request Request.Reply State UserProfileData :=
  (system plainSetup).after start (requests 1 5 ++ requests 2 16)

theorem reads_renewed_inTurn :
    ReadsRenewed sample 7 updated ((system plainSetup).after updated (requests 3 1)) ∧
      (((system plainSetup).after updated (requests 3 1)).thread 3).value?.map (·.email) =
        some (some "new@example.com") := by
  have hpasses {c : Config ℕ Error Request Request.Reply State UserProfileData}
      {ls : List (Label ℕ Oracle)} (hrun : (system plainSetup).passes timely c ls = true)
      (hmoves : (system plainSetup).passesMoves (fun _ _ => true) c ls = true) :
      (system plainSetup).Reaches (punctual 7) c ((system plainSetup).after c ls) :=
    .of_passes_moves timely (fun _ _ => true) (fun _ => punctual_of_timely)
      (fun _ _ _ => trivial) hrun hmoves
  exact ⟨reads_renewed start_atRest (fun _ => Nat.le_refl 0)
    (hpasses (by decide +kernel) (by decide +kernel))
    (hpasses (by decide +kernel) (by decide +kernel)), by decide +kernel⟩

/-- The first reading puts its profile into the cache when the update has returned. -/
def overwritten : Config ℕ Error Request Request.Reply State UserProfileData :=
  (system plainSetup).after start (requests 1 4 ++ requests 2 16 ++ requests 1 1)

theorem update_hidden : (plainState (oneRow 7 owner)).AtRest ∧
    (system plainSetup).Reaches .any start overwritten ∧
    (system plainSetup).Reaches .any overwritten
      ((system plainSetup).after overwritten (requests 3 1)) ∧
    (((system plainSetup).after overwritten (requests 3 1)).thread 3).value?.map (·.email) =
      some (some "old@example.com") ∧
    ¬ ReadsRenewed sample 7 overwritten
      ((system plainSetup).after overwritten (requests 3 1)) := by
  have hfound : (((system plainSetup).after overwritten (requests 3 1)).thread 3).value?.map
      (fun found => (found.email, found.readAt)) = some (some "old@example.com", 0) := by
    decide +kernel
  obtain ⟨found, hvalue, hold⟩ := Option.map_eq_some_iff.mp hfound
  obtain ⟨updated, hupdated⟩ := Option.isSome_iff_exists.mp
    (show ((overwritten.thread 2).value?).isSome = true by decide +kernel)
  refine ⟨start_atRest, .of_passes (fun _ _ _ => true) (fun _ _ _ _ => trivial)
    (fun _ _ => trivial) (by decide +kernel), .of_passes (fun _ _ _ => true)
    (fun _ _ _ _ => trivial) (fun _ _ => trivial) (by decide +kernel), ?_, fun h => ?_⟩
  · rw [hvalue]
    exact congrArg some (Prod.mk.inj hold).1
  · have hbegins : overwritten.thread 3 = getProfile 7 := Machine.thread_after (by simp [requests])
    have hle := h 2 _ updated rfl (Program.value?_eq_some.mp hupdated) 3 found rfl hbegins
      (Program.value?_eq_some.mp hvalue)
    have hcommitted : overwritten.shared.db.committedAt 2 = 1 := by decide +kernel
    rw [hcommitted, (Prod.mk.inj hold).2] at hle
    omega

end ExpressCore.ProfileCache
