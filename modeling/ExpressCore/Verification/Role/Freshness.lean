import ExpressCore.Model.Gates
import ExpressCore.Verification.Account.Requests
import ExpressCore.Verification.System.Commands
import ExpressCore.Verification.System.Start

/-! # Freshness of the cached access rights

A refill carries the version that its thread saw before it read the database, and every change
commits before it increments the version. An entry whose version is current is therefore no
older than the changes that were announced before, however late it was written. -/

namespace ExpressCore.Freshness

open ReadCommitted Interleaving Interleaving.Program

variable {setup : Setup} {base k n t u : ℕ} {s s' s₀ : State}

/-! ## Readings and increments -/

/-- The number of increments of the version. -/
def increments (commands : List (ℕ × CacheCommand)) : ℕ :=
  commands.countP fun x => x.2 = .incrVersion

/-- `P` holds of the commands before every reading of access rights by thread `t`. -/
def WhenAsked (t : ℕ) (P : List (ℕ × CacheCommand) → Prop)
    (commands : List (ℕ × CacheCommand)) : Prop :=
  ∀ newer userId older, commands = newer ++ (t, .mgetAccess userId) :: older → P older

/-- The first `k` increments were made by threads whose last commit was among the first `n`. -/
def Before (k n : ℕ) (s : State) : Prop :=
  k ≤ s.cache.bumped.length ∧ ∀ x ∈ s.cache.bumped.reverse.take k, x.2 ≤ n

/-- Thread `t` has read the cache, and what was read from the database after commit `n` is no
older than the changes that were announced before that. -/
def Obeys (t n : ℕ) (s : State) : Prop :=
  (∃ userId, (t, .mgetAccess userId) ∈ s.commands) ∧
    WhenAsked t (fun older => Before (increments older) n s) s.commands

theorem WhenAsked.mono {P Q : List (ℕ × CacheCommand) → Prop}
    {commands : List (ℕ × CacheCommand)} (h : WhenAsked t P commands)
    (himp : ∀ older, P older → Q older) : WhenAsked t Q commands :=
  fun newer userId older heq => himp older (h newer userId older heq)

theorem WhenAsked.append {P : List (ℕ × CacheCommand) → Prop}
    {new commands : List (ℕ × CacheCommand)} (h : WhenAsked t P commands)
    (hnew : ∀ userId, (t, CacheCommand.mgetAccess userId) ∉ new) :
    WhenAsked t P (new ++ commands) := by
  intro newer userId older heq
  rcases List.append_eq_append_iff.mp heq with ⟨rest, rfl, hcommands⟩ | ⟨rest, hnew', hrest⟩
  · exact h rest userId older hcommands
  · cases rest with
    | nil => exact h [] userId older (by simpa using hrest.symm)
    | cons x rest =>
        obtain ⟨rfl, -⟩ := List.cons.inj hrest
        exact absurd (by simp [hnew']) (hnew userId)

/-- The first reading of a thread. -/
theorem whenAsked_first {commands : List (ℕ × CacheCommand)} {userId : ℕ}
    (h : ∀ x ∈ commands, x.1 ≠ t) :
    WhenAsked t (· = commands) ((t, .mgetAccess userId) :: commands) := by
  intro newer userId' older heq
  cases newer with
  | nil => exact (List.cons.inj heq).2.symm
  | cons x newer =>
      obtain ⟨-, rfl⟩ := List.cons.inj heq
      exact absurd rfl (h (t, .mgetAccess userId') (by simp))

theorem increments_append (new older : List (ℕ × CacheCommand)) :
    increments (new ++ older) = increments new + increments older :=
  List.countP_append

theorem Before.mono (h : Before k n s) {new : List (ℕ × ℕ)}
    (hbumped : s'.cache.bumped = new ++ s.cache.bumped) : Before k n s' := by
  have hk := h.1
  unfold Before
  rw [hbumped, List.reverse_append, List.take_append_of_le_length (by simpa using hk),
    List.length_append]
  exact ⟨by omega, h.2⟩

theorem Before.of_eq (h : Before k n s) (hbumped : s'.cache.bumped = s.cache.bumped) :
    Before k n s' :=
  h.mono (by rw [hbumped, List.nil_append])

theorem Obeys.mono (h : Obeys t n s) {new : List (ℕ × CacheCommand)} {bumps : List (ℕ × ℕ)}
    (hcommands : s'.commands = new ++ s.commands)
    (hbumped : s'.cache.bumped = bumps ++ s.cache.bumped)
    (hnew : ∀ userId, (t, CacheCommand.mgetAccess userId) ∉ new) : Obeys t n s' := by
  obtain ⟨⟨userId, hasked⟩, h⟩ := h
  refine ⟨⟨userId, by simp [hcommands, hasked]⟩, ?_⟩
  rw [hcommands]
  exact (h.append hnew).mono fun _ hbefore => hbefore.mono hbumped

/-! ## What requests do to the version -/

theorem exec_bumped {m : ℕ} (c : CacheCommand) (cache : Cache) :
    ∃ new, (c.exec t m cache).2.bumped = new ++ cache.bumped := by
  cases c with
  | incrVersion => exact ⟨[(t, m)], rfl⟩
  | _ => exact ⟨[], rfl⟩

theorem bumped_of_exec {r : Request} {o : Oracle} {reply : r.Reply}
    (h : r.exec setup t o s = some (reply, s')) :
    ∃ new, s'.cache.bumped = new ++ s.cache.bumped := by
  rcases exec_command h with ⟨hcache, -⟩ | ⟨c, -, rfl⟩
  · exact ⟨[], by rw [hcache, List.nil_append]⟩
  · exact exec_bumped c s.cache

theorem exec_decisions {r : Request} {o : Oracle} {reply : r.Reply}
    (h : r.exec setup t o s = some (reply, s')) :
    s'.decisions = s.decisions ∨
      ∃ m, r = .decided m ∧ s' = { s with decisions := (t, m) :: s.decisions } := by
  cases r with
  | decided m =>
      cases h
      exact .inr ⟨m, rfl, rfl⟩
  | cache c =>
      simp only [Request.exec] at h
      split at h <;> cases h
      · exact .inl (by split <;> rfl)
      · exact .inl rfl
  | sql q =>
      simp only [Request.exec, Option.map_eq_some_iff, Prod.mk.injEq] at h
      obtain ⟨_, -, -, rfl⟩ := h
      exact .inl rfl
  | _ =>
      simp only [Request.exec] at h
      first
        | cases h; exact .inl rfl
        | split at h <;> cases h <;> exact .inl rfl

/-- Moves of the environment leave the version and the decisions alone. -/
theorem move_version {m : Move} (h : m.exec s = some s') :
    s'.cache.version = s.cache.version ∧ s'.cache.bumped = s.cache.bumped ∧
      s'.decisions = s.decisions := by
  cases m <;> simp only [Move.exec, Option.map_eq_some_iff, Option.some.injEq] at h
  case deliver n =>
    obtain ⟨job, -, rfl⟩ := h
    exact ⟨rfl, rfl, rfl⟩
  all_goals
    subst h
    exact ⟨rfl, rfl, rfl⟩

/-! ## The discipline -/

/-- A thread reads the cache before it decides; what it decides on and what it puts into the
cache is as new as the version it read. Versions are counted from `base`. -/
def honest (base : ℕ) : Discipline where
  tables _ := False
  change _ _ _ _ := True
  commit _ _ := True
  other t r s :=
    match r with
    | .cache (.mgetAccess _) => ∀ x ∈ s.decisions, x.1 ≠ t
    | .cache (.setAccess _ entry) =>
        ∀ v, entry.rbacVersion = some v → Before (v - base) entry.readAt s
    | .decided readAt => Obeys t readAt s
    | _ => True
  commit_free _ _ _ := trivial

/-- The invariant of all runs. -/
structure Versioned (base : ℕ) (s : State) : Prop where
  counted : ∀ t, s.db.committedAt t ≤ s.db.commits
  bumps : ∀ x ∈ s.cache.bumped, x.2 ≤ s.db.commits
  version : s.cache.version.getD 0 = base + s.cache.bumped.length
  increments : increments s.commands = s.cache.bumped.length
  entries : ∀ userId entry v, s.cache.userRole userId = some entry →
    entry.rbacVersion = some v → Before (v - base) entry.readAt s
  decisions : ∀ x ∈ s.decisions, Obeys x.1 x.2 s

/-- Statements only count commits. -/
theorem Versioned.of_moves (h : Versioned base s) (hmoves : Db.Moves t s.db s'.db)
    (hversion : s'.cache.version = s.cache.version) (hbumped : s'.cache.bumped = s.cache.bumped)
    (hentries : ∀ userId entry, s'.cache.userRole userId = some entry →
      s.cache.userRole userId = some entry)
    (hcommands : s'.commands = s.commands) (hdecisions : s'.decisions = s.decisions) :
    Versioned base s' where
  counted u := by
    by_cases hu : u = t
    · subst hu
      have hcounted := h.counted u
      have hcommits := hmoves.commits
      rcases hmoves.counted with heq | ⟨heq, heq'⟩ <;> omega
    · rw [hmoves.committedAt u hu]
      exact Nat.le_trans (h.counted u) hmoves.commits
  bumps x hx := Nat.le_trans (h.bumps x (hbumped ▸ hx)) hmoves.commits
  version := by rw [hversion, hbumped, h.version]
  increments := by rw [hcommands, hbumped, h.increments]
  entries userId entry v hentry hv :=
    (h.entries userId entry v (hentries userId entry hentry) hv).of_eq hbumped
  decisions x hx :=
    (h.decisions x (hdecisions ▸ hx)).mono (by rw [hcommands, List.nil_append])
      (by rw [hbumped, List.nil_append]) (by simp)

/-- What is as new as the version is as new as every change that was announced. -/
theorem Versioned.all_before (h : Versioned base s)
    (hbefore : Before (s.cache.version.getD 0 - base) n s) : ∀ x ∈ s.cache.bumped, x.2 ≤ n := by
  intro x hx
  refine hbefore.2 x ?_
  rw [h.version, Nat.add_sub_cancel_left, List.take_of_length_le (by simp)]
  exact List.mem_reverse.mpr hx

theorem Versioned.command (h : Versioned base s) {c : CacheCommand}
    (hguard : (honest base).other t (.cache c) s) :
    Versioned base { s with
      cache := (c.exec t (s.db.committedAt t) s.cache).2, commands := (t, c) :: s.commands } := by
  obtain ⟨new, hbumped⟩ := exec_bumped (t := t) (m := s.db.committedAt t) c s.cache
  have hdecisions : ∀ x ∈ s.decisions, ∀ userId,
      (x.1, CacheCommand.mgetAccess userId) ∉ [(t, c)] := by
    intro x hx userId hmem
    obtain ⟨heq, rfl⟩ := Prod.mk.inj (List.mem_singleton.mp hmem)
    exact hguard x hx heq
  have hentry {userId : ℕ} {entry : CachedUserData} {v : ℕ}
      (hentry : s.cache.userRole userId = some entry) (hv : entry.rbacVersion = some v) :
      Before (v - base) entry.readAt { s with
        cache := (c.exec t (s.db.committedAt t) s.cache).2, commands := (t, c) :: s.commands } :=
    (h.entries userId entry v hentry hv).mono hbumped
  refine ⟨h.counted, ?_, ?_, ?_, ?_, fun x hx =>
    (h.decisions x hx).mono rfl hbumped (hdecisions x hx)⟩
  · cases c with
    | incrVersion =>
        intro x hx
        rcases List.mem_cons.mp hx with rfl | hx
        · exact h.counted t
        · exact h.bumps x hx
    | _ => exact h.bumps
  · have hversion := h.version
    cases c with
    | incrVersion =>
        simp only [CacheCommand.exec, Option.getD_some, List.length_cons]
        omega
    | _ => exact hversion
  · have hincrements := h.increments
    cases c with
    | incrVersion => simpa [Freshness.increments, CacheCommand.exec] using hincrements
    | _ => simpa [Freshness.increments, CacheCommand.exec] using hincrements
  · intro userId entry v hcached hv
    cases c with
    | setAccess userId' entry' =>
        by_cases heq : userId = userId'
        · subst heq
          obtain rfl : entry' = entry := by simpa [CacheCommand.exec] using hcached
          exact (hguard v hv).mono hbumped
        · exact hentry (by simpa [CacheCommand.exec, heq] using hcached) hv
    | del keys =>
        simp only [CacheCommand.exec] at hcached
        split at hcached
        · cases hcached
        · exact hentry hcached hv
    | _ => exact hentry hcached hv

/-- One step of the induction. -/
theorem Versioned.exec {r : Request} {o : Oracle} {reply : r.Reply} (h : Versioned base s)
    (hguard : (honest base).guard t r s) (hexec : r.exec setup t o s = some (reply, s')) :
    Versioned base s' := by
  have hmoves := (State.Moves.exec hexec).db
  rcases exec_decisions hexec with hdecisions | ⟨m, rfl, rfl⟩
  · rcases exec_command hexec with ⟨hcache, hcommands⟩ | ⟨c, rfl, rfl⟩
    · exact h.of_moves hmoves (by rw [hcache]) (by rw [hcache]) (fun _ _ => hcache ▸ id) hcommands
        hdecisions
    · exact h.command (hguard.2.2 trivial)
  · refine { h with decisions := fun x hx => ?_ }
    rcases List.mem_cons.mp hx with rfl | hx
    · exact hguard.2.2 trivial
    · exact h.decisions x hx

/-! ## What the others leave -/

abbrev rules (setup : Setup) (base : ℕ) : Rules ℕ State :=
  keeping setup False (Assumption.any.within (Versioned base)) (honest base)

theorem bumped_of_elsewhere {guard : Guard} {A : Assumption ℕ Request State}
    (h : (system setup).Elsewhere A guard t s s') :
    ∃ new, s'.cache.bumped = new ++ s.cache.bumped := by
  obtain ⟨u, -, ⟨r, o, reply, -, hexec⟩ | rfl⟩ | ⟨o, hmove, -⟩ := h
  · exact bumped_of_exec hexec
  · exact ⟨[], rfl⟩
  · exact ⟨[], by rw [(move_version hmove).2.1, List.nil_append]⟩

/-- Thread `t` has decided nothing. -/
def Undecided (t : ℕ) (s : State) : Prop := ∀ x ∈ s.decisions, x.1 ≠ t

theorem undecided_stable : (rules setup base).Stable t (Undecided t) := by
  rintro s s' - - ⟨⟨u, hne, ⟨r, o, reply, -, hexec⟩ | rfl⟩ | ⟨o, hmove, -⟩, -⟩ h
  · rcases exec_decisions hexec with heq | ⟨m, rfl, rfl⟩
    · exact fun x hx => h x (heq ▸ hx)
    · intro x hx
      rcases List.mem_cons.mp hx with rfl | hx
      · exact hne
      · exact h x hx
  · exact h
  · exact fun x hx => h x ((move_version hmove).2.2 ▸ hx)

theorem before_stable : (rules setup base).Stable t (Before k n) := by
  intro s s' _ _ hmove h
  obtain ⟨new, heq⟩ := bumped_of_elsewhere hmove.1
  exact h.mono heq

/-- Thread `t` has read the cache after `k` increments. -/
structure Asked (t k : ℕ) (s : State) : Prop where
  asked : ∃ userId, (t, .mgetAccess userId) ∈ s.commands
  increments : WhenAsked t (fun older => increments older = k) s.commands
  bumped : k ≤ s.cache.bumped.length

theorem asked_stable : (rules setup base).Stable t (Asked t k) := by
  intro s s' _ _ hmove h
  obtain ⟨new, heq, hnew⟩ := commands_of_elsewhere hmove
  obtain ⟨bumps, hbumped⟩ := bumped_of_elsewhere hmove.1
  obtain ⟨userId, hasked⟩ := h.asked
  refine ⟨⟨userId, by simp [heq, hasked]⟩, ?_, ?_⟩
  · rw [heq]
    exact h.increments.append fun userId hmem => hnew _ hmem rfl
  · rw [hbumped, List.length_append]
    exact Nat.le_add_left_of_le h.bumped

theorem Asked.obeys (h : Asked t k s) (hbefore : Before k n s) : Obeys t n s :=
  ⟨h.asked, h.increments.mono fun _ heq => heq ▸ hbefore⟩

/-- What thread `t` read from the database, after commit `n`, is as new as what it read from the
cache, after `k` increments. -/
abbrev Current (t k n : ℕ) (s : State) : Prop := Asked t k s ∧ Before k n s

theorem current_stable : (rules setup base).Stable t (Current t k n) :=
  asked_stable.and before_stable

/-! ## Requests that do not touch the cached access rights -/

def Plain : Request → Prop
  | .cache (.mgetAccess _) => False
  | .cache (.setAccess _ _) => False
  | .decided _ => False
  | _ => True

theorem Plain.lets {r : Request} (h : Plain r) : (honest base).Lets t r := by
  refine fun s => ⟨fun _ _ _ htables => htables.elim, fun _ _ _ => trivial, fun _ => ?_⟩
  cases r with
  | cache c => cases c <;> first | exact h.elim | trivial
  | decided m => exact h.elim
  | _ => trivial

theorem meets_plain {α : Type} {p : Service α} (hp : p.Uses Plain) :
    (rules setup base).Meets (system setup) (Assumption.any.within (Versioned base)) t
      (fun _ _ => True) (fun _ _ => True) p fun _ => True :=
  meets_lets (hp.mono fun _ => Plain.lets)

/-- Statements leave what a thread knows about the cache. -/
def Statement (r : Request) : Prop := ∃ q, r = .sql q

theorem meets_current {α : Type} {p : Service α} (hp : p.Uses Statement) :
    (rules setup base).Meets (system setup) (Assumption.any.within (Versioned base)) t
      (fun _ => Current t k n) (fun _ _ => True) p (Current t k n) := by
  refine (Rules.Meets.of_uses hp current_stable fun r hr => ?_).mono (fun _ => .refl)
    fun _ _ _ _ => trivial
  obtain ⟨q, rfl⟩ := hr
  refine keeping_answers (fun s _ _ _ => Plain.lets (r := .sql q) trivial s)
    fun s o reply s' _ _ h hexec => ?_
  simp only [Request.exec, Option.map_eq_some_iff, Prod.mk.injEq] at hexec
  obtain ⟨_, -, -, rfl⟩ := hexec
  exact ⟨⟨h.1.asked, h.1.increments, h.1.bumped⟩, h.2⟩

/-! ## The lookup of a request -/

theorem mget_meets (userId : ℕ) :
    (rules setup base).Meets (system setup) (Assumption.any.within (Versioned base)) t
      (fun reply s => ∃ k, reply.2.getD 0 = base + k ∧ Asked t k s ∧
        ∀ entry v, reply.1 = some entry → entry.rbacVersion = some v →
          Before (v - base) entry.readAt s)
      (fun _ _ => True) (cacheService (.mgetAccess userId))
      fun s => Silent t s ∧ Undecided t s := by
  have hanswered (reply : Option CachedUserData × Option ℕ) : (rules setup base).Stable t fun s =>
      ∃ k, reply.2.getD 0 = base + k ∧ Asked t k s ∧
        ∀ entry v, reply.1 = some entry → entry.rbacVersion = some v →
          Before (v - base) entry.readAt s :=
    .exists fun k => (Rules.Stable.const _).and (asked_stable.and (.forall fun entry =>
      .forall fun v => .imp_const fun _ => .imp_const fun _ => before_stable))
  refine .seq (fun reply s => ∀ answer, reply = some answer →
      ∃ k, answer.2.getD 0 = base + k ∧ Asked t k s ∧
        ∀ entry v, answer.1 = some entry → entry.rbacVersion = some v →
          Before (v - base) entry.readAt s)
    (.send (silent_stable.and undecided_stable) (keeping_answers (fun s _ _ hpre => ?_)
      fun s o reply s' _ hA hpre hexec answer hanswer => ?_) fun reply =>
        .forall fun answer => .imp_const fun _ => hanswered answer) fun reply => ?_
  · exact ⟨fun _ _ _ htables => htables.elim, fun _ _ _ => trivial, fun _ => hpre.2⟩
  · subst hanswer
    have hversioned : Versioned base s := hA.2
    simp only [Request.exec] at hexec
    split at hexec
    · cases hexec
    · obtain ⟨hreply, rfl⟩ := Prod.mk.inj (Option.some.inj hexec)
      obtain rfl := Option.some.inj hreply
      refine ⟨s.cache.bumped.length, hversioned.version, ⟨⟨userId, by simp⟩, ?_, Nat.le_refl _⟩,
        fun entry v hentry hv => hversioned.entries userId entry v hentry hv⟩
      exact (whenAsked_first hpre.1).mono fun older heq => heq ▸ hversioned.increments
  · cases reply with
    | none => exact .throw (.const True) fun _ _ _ => trivial
    | some answer => exact .pure (hanswered answer) fun _ _ h => h answer rfl

theorem readUserAccess_meets (userId : ℕ) :
    (rules setup base).Meets (system setup) (Assumption.any.within (Versioned base)) t
      (fun found s => ∃ k, found.2 = base + k ∧ Asked t k s ∧
        ∀ entry, found.1 = some entry → Before k entry.readAt s)
      (fun _ _ => True) (readUserAccess userId) fun s => Silent t s ∧ Undecided t s := by
  refine .bind (mget_meets userId) fun reply => .pure (.exists fun k =>
    (Rules.Stable.const _).and (asked_stable.and (.forall fun entry => .imp_const fun _ =>
      before_stable))) fun s _ h => ?_
  obtain ⟨k, hversion, hasked, hentries⟩ := h
  refine ⟨k, hversion, hasked, fun entry hentry => ?_⟩
  obtain ⟨hentry, hcurrent⟩ := Option.filter_eq_some_iff.mp hentry
  simp only [Bool.and_eq_true, beq_iff_eq] at hcurrent
  have hbefore := hentries entry _ hentry hcurrent.1
  rwa [hversion, Nat.add_sub_cancel_left] at hbefore

theorem commits_meets :
    (rules setup base).Meets (system setup) (Assumption.any.within (Versioned base)) t
      (fun readAt => Current t k readAt) (fun _ _ => True) (request .commits) (Asked t k) := by
  refine .send asked_stable (keeping_answers (fun s _ _ _ => Plain.lets (r := .commits) trivial s)
    fun s o readAt s' _ hA h hexec => ?_) fun _ => current_stable
  obtain ⟨rfl, rfl⟩ := Prod.mk.inj (Option.some.inj hexec)
  have hversioned : Versioned base s := hA.2
  exact ⟨h, h.bumped, fun x hx =>
    hversioned.bumps x (List.mem_reverse.mp (List.mem_of_mem_take hx))⟩

theorem decided_meets {err : Error → State → Prop} :
    (rules setup base).Meets (system setup) (Assumption.any.within (Versioned base)) t
      (fun _ => Current t k n) err (request (.decided n)) (Current t k n) := by
  refine .send current_stable (keeping_answers (fun s _ _ h => ?_)
    fun s o reply s' _ _ h hexec => ?_) fun _ => current_stable
  · exact ⟨fun _ _ _ htables => htables.elim, fun _ _ _ => trivial, fun _ => h.1.obeys h.2⟩
  · obtain ⟨-, rfl⟩ := Prod.mk.inj (Option.some.inj hexec)
    exact ⟨⟨h.1.asked, h.1.increments, h.1.bumped⟩, h.2⟩

theorem readAccess_meets (userId : ℕ) :
    (rules setup base).Meets (system setup) (Assumption.any.within (Versioned base)) t
      (fun found s => (∀ data, found = some data → data.readAt = n) ∧ Current t k n s)
      (fun _ _ => True) (readAccess userId n) (Current t k n) := by
  refine .bind (meets_current (uses_send.mpr ⟨_, rfl⟩)) fun user => ?_
  cases user with
  | none => exact .pure ((Rules.Stable.const _).and current_stable) fun _ _ h =>
      ⟨fun _ hdata => (by cases hdata), h⟩
  | some user =>
      dsimp only
      split
      on_goal 1 => refine .bind (meets_current (uses_pure _)) fun role => ?_
      on_goal 2 => refine .bind (meets_current (uses_send.mpr ⟨_, rfl⟩)) fun role => ?_
      all_goals
        refine .pure ((Rules.Stable.const _).and current_stable) fun _ _ h =>
          ⟨fun data hdata => ?_, h⟩
        obtain rfl := Option.some.inj hdata
        rfl

/-- A refill. -/
theorem cacheUserAccess_meets {data : CachedUserData} (userId : ℕ) (hdata : data.readAt = n) :
    (rules setup base).Meets (system setup) (Assumption.any.within (Versioned base)) t
      (fun _ _ => True) (fun _ _ => True) (cacheUserAccess userId data (base + k))
      (Current t k n) := by
  have hset : (rules setup base).Meets (system setup) (Assumption.any.within (Versioned base)) t
      (fun _ _ => True) (fun _ _ => True)
      (cacheService (.setAccess userId { data with rbacVersion := some (base + k) }))
      (Current t k n) := by
    refine .seq (fun _ _ => True) (.send current_stable (keeping_answers (fun s _ _ h => ?_)
      fun _ _ _ _ _ _ _ _ => trivial) fun _ => .const True) fun reply => ?_
    · refine ⟨fun _ _ _ htables => htables.elim, fun _ _ _ => trivial, fun _ v hv => ?_⟩
      obtain rfl := Option.some.inj hv
      rw [Nat.add_sub_cancel_left]
      exact hdata ▸ h.2
    · cases reply with
      | none => exact .throw (.const True) .refl
      | some reply => exact .pure (.const True) .refl
  refine .bind hset fun _ => ?_
  cases data.role with
  | none => exact .pure (.const True) .refl
  | some role => exact meets_plain (uses_cacheService trivial)

theorem resolveRole_meets (userId : ℕ) :
    (rules setup base).Meets (system setup) (Assumption.any.within (Versioned base)) t
      (fun _ _ => True) (fun _ _ => True) (resolveRole userId)
      fun s => Silent t s ∧ Undecided t s := by
  refine .bind (readUserAccess_meets userId) fun found =>
    .exists fun k => .assume fun hversion => ?_
  obtain ⟨cached, version⟩ := found
  subst hversion
  cases cached with
  | some entry =>
      refine .bind (decided_meets.weaken fun s _ h => ⟨h.1, h.2 entry rfl⟩) fun _ => ?_
      simp only [pure_eq, ret_bind]
      split
      · exact .throw (.const True) fun _ _ _ => trivial
      · exact .pure (.const True) fun _ _ _ => trivial
  | none =>
      refine .bind (commits_meets.weaken fun _ _ h => h.1) fun readAt =>
        .bind (readAccess_meets userId) fun userData => .assume fun hreadAt => ?_
      refine .bind decided_meets fun _ => ?_
      cases userData with
      | none => exact .throw (.const True) fun _ _ _ => trivial
      | some data =>
          refine .bind (cacheUserAccess_meets userId (hreadAt data rfl)) fun _ => ?_
          simp only [pure_eq, ret_bind]
          split
          · exact .throw (.const True) fun _ _ _ => trivial
          · exact .pure (.const True) fun _ _ _ => trivial

end ExpressCore.Freshness
