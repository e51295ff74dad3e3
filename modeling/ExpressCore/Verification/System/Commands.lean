import ExpressCore.Library.Replies
import ExpressCore.Verification.System.Calls

/-! # Commands to the cache -/

namespace ExpressCore

open ReadCommitted Interleaving Interleaving.Program

variable {setup : Setup} {traced : Prop} {A : Assumption ℕ Request State} {D : Discipline}
  {t : ℕ} {s s' : State}

/-- A request is a command that Redis executes, or it leaves the cache alone. -/
theorem exec_command {r : Request} {o : Oracle} {reply : r.Reply}
    (h : r.exec setup t o s = some (reply, s')) :
    (s'.cache = s.cache ∧ s'.commands = s.commands) ∨
      ∃ c, r = .cache c ∧ s' = { s with
        cache := (c.exec t (s.db.committedAt t) s.cache).2, commands := (t, c) :: s.commands } := by
  cases r with
  | cache c =>
      simp only [Request.exec] at h
      split at h <;> cases h
      · split
        · exact .inr ⟨c, rfl, rfl⟩
        · exact .inl ⟨rfl, rfl⟩
      · exact .inr ⟨c, rfl, rfl⟩
  | sql q =>
      simp only [Request.exec, Option.map_eq_some_iff, Prod.mk.injEq] at h
      obtain ⟨_, -, -, rfl⟩ := h
      exact .inl ⟨rfl, rfl⟩
  | _ =>
      simp only [Request.exec] at h
      first
        | cases h; exact .inl ⟨rfl, rfl⟩
        | split at h <;> cases h <;> exact .inl ⟨rfl, rfl⟩

theorem move_commands {m : Move} (h : m.exec s = some s') : s'.commands = s.commands := by
  cases m <;> simp only [Move.exec, Option.map_eq_some_iff, Option.some.injEq] at h
  case deliver n =>
    obtain ⟨job, -, rfl⟩ := h
    rfl
  all_goals
    subst h
    rfl

/-- Entries only expire. -/
theorem move_entries {m : Move} (h : m.exec s = some s') :
    (∀ userId entry, s'.cache.userRole userId = some entry →
      s.cache.userRole userId = some entry) ∧
    ∀ userId data, s'.cache.profile userId = some data → s.cache.profile userId = some data := by
  have hexpire {ρ : Type} (f : ℕ → Option ρ) (i j : ℕ) (v : ρ)
      (hv : Function.update f i none j = some v) : f j = some v := by
    by_cases heq : j = i
    · simp [heq] at hv
    · rwa [Function.update_of_ne heq] at hv
  cases m <;> simp only [Move.exec, Option.map_eq_some_iff, Option.some.injEq] at h
  case deliver n =>
    obtain ⟨job, -, rfl⟩ := h
    exact ⟨fun _ _ hv => hv, fun _ _ hv => hv⟩
  case expireUserRole i =>
    subst h
    exact ⟨fun j v => hexpire _ i j v, fun _ _ hv => hv⟩
  case expireProfile i =>
    subst h
    exact ⟨fun _ _ hv => hv, fun j v => hexpire _ i j v⟩
  all_goals
    subst h
    exact ⟨fun _ _ hv => hv, fun _ _ hv => hv⟩

section Runs

variable {α : Type} {c c' : Config ℕ Error Request Request.Reply State α}

/-- Redis only adds to the commands. -/
theorem commands_of_reaches (hrun : (system setup).Reaches A c c') :
    ∃ new, c'.shared.commands = new ++ c.shared.commands := by
  induction hrun with
  | refl => exact ⟨[], rfl⟩
  | step l _ hstep _ ih =>
      obtain ⟨new, hcommands⟩ := ih
      rcases (system setup).step_cases hstep with
        ⟨t, o, r, next, reply, s, rfl, -, hexec, rfl⟩ | ⟨t, r, next, rfl, -, rfl⟩ |
        ⟨o, s, rfl, hmove, rfl⟩
      · rcases exec_command hexec with ⟨-, hsame⟩ | ⟨c, -, rfl⟩
        · exact ⟨new, hsame.trans hcommands⟩
        · exact ⟨(t, c) :: new, by simp [hcommands]⟩
      · exact ⟨new, hcommands⟩
      · exact ⟨new, (move_commands hmove).trans hcommands⟩

/-- A command that has been answered was executed. -/
theorem mem_commands_of_told {command : CacheCommand} {reply : command.Reply}
    (h : (system setup).Told A c c' t (.cache command) (some reply)) :
    (t, command) ∈ c'.shared.commands := by
  obtain ⟨s, d, e, o, next, -, rfl, -, hexec, -, hrest⟩ := h
  obtain ⟨new, hcommands⟩ := commands_of_reaches hrest
  have hexecuted : e.shared.commands = (t, command) :: d.shared.commands := by
    simp only [system, Request.exec] at hexec
    split at hexec
    · cases hexec
    · obtain ⟨-, hshared⟩ := Prod.mk.inj (Option.some.inj hexec)
      rw [← hshared]
  rw [hcommands, hexecuted]
  exact List.mem_append_right _ (.head _)

end Runs

/-- A command to the cache either is answered or its failure is thrown. -/
theorem cacheService_learns {told : (r : Request) → r.Reply → Prop} (command : CacheCommand) :
    (cacheService command).Learns told (fun reply => told (.cache command) (some reply))
      fun _ => True := by
  refine .send_bind fun reply hreply => ?_
  cases reply with
  | none => exact .throw trivial
  | some reply => exact .ret hreply

/-- What the other threads add to the commands. -/
theorem commands_of_elsewhere {guard : Guard}
    (h : (system setup).Elsewhere A guard t s s' ∧ (traced → s.clock ≤ s'.clock)) :
    ∃ new, s'.commands = new ++ s.commands ∧ ∀ x ∈ new, x.1 ≠ t := by
  obtain ⟨⟨u, hne, ⟨r, o, reply, -, hexec⟩ | rfl⟩ | ⟨o, hmove, -⟩, -⟩ := h
  · rcases exec_command hexec with ⟨-, heq⟩ | ⟨c, -, rfl⟩
    · exact ⟨[], heq, by simp⟩
    · exact ⟨[(u, c)], rfl, by simpa using hne⟩
  · exact ⟨[], rfl, by simp⟩
  · exact ⟨[], move_commands hmove, by simp⟩

/-- What a step does to the cache. -/
inductive CacheEvent (A : Assumption ℕ Request State) (D : Discipline) (s s' : State) : Prop where
  | same : s'.cache = s.cache → s'.commands = s.commands → CacheEvent A D s s'
  | command (t : ℕ) (c : CacheCommand) : D.other t (.cache c) s → A.request t (.cache c) s →
      s'.cache = (c.exec t (s.db.committedAt t) s.cache).2 →
      s'.commands = (t, c) :: s.commands → s'.db = s.db → CacheEvent A D s s'
  | move (m : Move) : m.exec s = some s' → A.move s s' → s'.commands = s.commands →
      s'.db = s.db → CacheEvent A D s s'

theorem Event.onCache (h : Event setup A D s s') : CacheEvent A D s s' := by
  cases h with
  | access t k a reply o hchange hA h => exact .same (by rw [h.rest]) (by rw [h.rest])
  | commit t hcommit htables hrest => exact .same (by rw [hrest]) (by rw [hrest])
  | abort t htables hrest => exact .same (by rw [hrest]) (by rw [hrest])
  | other t r o reply hother hA hexec htables =>
      rcases exec_command hexec with ⟨hcache, hcommands⟩ | ⟨c, rfl, rfl⟩
      · exact .same hcache hcommands
      · exact .command t c (hother trivial) hA rfl rfl rfl
  | move m hmove hA hdb => exact .move m hmove hA (move_commands hmove) hdb

/-- Thread `t` has sent no command. -/
def Silent (t : ℕ) (s : State) : Prop := ∀ x ∈ s.commands, x.1 ≠ t

theorem silent_stable : (keeping setup traced A D).Stable t (Silent t) := by
  intro s s' _ _ hmove h x hx
  obtain ⟨new, heq, hnew⟩ := commands_of_elsewhere hmove
  rcases List.mem_append.mp (heq ▸ hx) with hx | hx
  · exact hnew x hx
  · exact h x hx

end ExpressCore
