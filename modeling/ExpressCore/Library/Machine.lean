import ExpressCore.Library.Program
import Mathlib.Logic.Function.Basic

/-! # Interleaved and sequential execution of programs -/

namespace Interleaving

variable {τ ε Req : Type} {Reply : Req → Type} {σ ω α : Type}

/-- What programs run on. `exec` answers one request of one thread: `none` means that the
request cannot be answered now (the thread waits), and the oracle `ω` resolves every choice
the environment has. `crash` is what the environment does when a thread is lost between two
requests, and `move` is a step of the environment itself. -/
structure Machine (τ ε Req : Type) (Reply : Req → Type) (σ ω : Type) where
  exec : τ → (request : Req) → ω → σ → Option (Reply request × σ)
  crash : τ → σ → σ
  lost : ε
  move : ω → σ → Option σ

/-- The shared state and what each thread still has to do. -/
structure Config (τ ε Req : Type) (Reply : Req → Type) (σ α : Type) where
  shared : σ
  thread : τ → Program ε Req Reply α

/-- One choice of the scheduler. -/
inductive Label (τ ω : Type) where
  | run (t : τ) (o : ω)
  | crash (t : τ)
  | move (o : ω)

/-- What a run takes for granted about the requests it answers and about the environment. -/
structure Assumption (τ Req σ : Type) where
  request : τ → Req → σ → Prop
  move : σ → σ → Prop

/-- Nothing is taken for granted. -/
def Assumption.any : Assumption τ Req σ where
  request _ _ _ := True
  move _ _ := True

variable [DecidableEq τ]

namespace Machine

variable (M : Machine τ ε Req Reply σ ω)

/-- One scheduled step; a finished thread has none. -/
def step (c : Config τ ε Req Reply σ α) : Label τ ω → Option (Config τ ε Req Reply σ α)
  | .run t o =>
      match c.thread t with
      | .call request next =>
          (M.exec t request o c.shared).map fun (reply, s) =>
            { shared := s, thread := Function.update c.thread t (next reply) }
      | .ret _ => none
      | .fail _ => none
  | .crash t =>
      match c.thread t with
      | .call _ _ =>
          some { shared := M.crash t c.shared
                 thread := Function.update c.thread t (.fail M.lost) }
      | .ret _ => none
      | .fail _ => none
  | .move o => (M.move o c.shared).map fun s => { c with shared := s }

/-- The steps of a schedule one after the other; `none` when one of them is not possible. -/
def run (c : Config τ ε Req Reply σ α) : List (Label τ ω) → Option (Config τ ε Req Reply σ α)
  | [] => some c
  | l :: ls => (M.step c l).bind fun d => run d ls

/-- Where a schedule leads, if every one of its steps is possible. -/
def after (c : Config τ ε Req Reply σ α) (ls : List (Label τ ω)) : Config τ ε Req Reply σ α :=
  (M.run c ls).getD c

/-- Whether every step of a schedule is possible and every request on it passes a test. -/
def passes (ok : τ → Req → σ → Bool) (c : Config τ ε Req Reply σ α) : List (Label τ ω) → Bool
  | [] => true
  | l :: ls =>
      (match l with
        | .run t _ =>
            match c.thread t with
            | .call request _ => ok t request c.shared
            | .ret _ => true
            | .fail _ => true
        | .crash _ => true
        | .move _ => true) &&
      (M.step c l).any fun d => passes ok d ls

/-- Whether every move of the environment on a schedule passes a test. -/
def passesMoves (ok : σ → σ → Bool) (c : Config τ ε Req Reply σ α) : List (Label τ ω) → Bool
  | [] => true
  | l :: ls =>
      (M.step c l).all fun d =>
        (match l with
          | .run _ _ => true
          | .crash _ => true
          | .move _ => ok c.shared d.shared) &&
        passesMoves ok d ls

/-- Whether a step keeps to an assumption. -/
def Keeps (A : Assumption τ Req σ) (c c' : Config τ ε Req Reply σ α) : Label τ ω → Prop
  | .run t _ => ∀ request next, c.thread t = .call request next → A.request t request c.shared
  | .crash _ => True
  | .move _ => A.move c.shared c'.shared

/-- `Reaches A c c'`: some interleaving whose steps keep to `A` leads from `c` to `c'`. -/
inductive Reaches (A : Assumption τ Req σ) (c : Config τ ε Req Reply σ α) :
    Config τ ε Req Reply σ α → Prop where
  | refl : Reaches A c c
  | step {d e : Config τ ε Req Reply σ α} (l : Label τ ω) :
      Reaches A c d → M.step d l = some e → Keeps A d e l → Reaches A c e

theorem Reaches.trans {M : Machine τ ε Req Reply σ ω} {A : Assumption τ Req σ}
    {c d e : Config τ ε Req Reply σ α} (h : M.Reaches A c d) (h' : M.Reaches A d e) :
    M.Reaches A c e := by
  induction h' with
  | refl => exact h
  | step l _ hstep hkeeps ih => exact ih.step l hstep hkeeps

/-- What a step of the scheduler can be: a thread gets a reply, a thread is lost, or the
environment moves. -/
theorem step_cases {c c' : Config τ ε Req Reply σ α} {l : Label τ ω}
    (h : M.step c l = some c') :
    (∃ t o request next reply s, l = .run t o ∧ c.thread t = .call request next ∧
      M.exec t request o c.shared = some (reply, s) ∧
      c' = ⟨s, Function.update c.thread t (next reply)⟩) ∨
    (∃ t request next, l = .crash t ∧ c.thread t = .call request next ∧
      c' = ⟨M.crash t c.shared, Function.update c.thread t (.fail M.lost)⟩) ∨
    (∃ o s, l = .move o ∧ M.move o c.shared = some s ∧ c' = ⟨s, c.thread⟩) := by
  cases l with
  | run t o =>
      cases ht : c.thread t with
      | ret v => simp [step, ht] at h
      | fail e => simp [step, ht] at h
      | call request next =>
          simp only [step, ht, Option.map_eq_some_iff] at h
          obtain ⟨⟨reply, s⟩, hexec, rfl⟩ := h
          exact .inl ⟨t, o, request, next, reply, s, rfl, ht, hexec, rfl⟩
  | crash t =>
      cases ht : c.thread t with
      | ret v => simp [step, ht] at h
      | fail e => simp [step, ht] at h
      | call request next =>
          simp only [step, ht, Option.some.injEq] at h
          exact .inr (.inl ⟨t, request, next, rfl, ht, h.symm⟩)
  | move o =>
      simp only [step, Option.map_eq_some_iff] at h
      obtain ⟨s, hmove, rfl⟩ := h
      exact .inr (.inr ⟨o, s, rfl, hmove, rfl⟩)

omit [DecidableEq τ] in
theorem keeps_any {c c' : Config τ ε Req Reply σ α} (l : Label τ ω) :
    Keeps .any c c' l := by
  cases l with
  | run t o => exact fun _ _ _ => trivial
  | crash t => trivial
  | move o => trivial

/-- A finished thread does nothing. -/
theorem step_finished {M : Machine τ ε Req Reply σ ω} {c c' : Config τ ε Req Reply σ α}
    {l : Label τ ω} {t : τ} {value : α} (h : M.step c l = some c') (ht : c.thread t = .ret value) :
    c'.thread t = .ret value := by
  have hother {u : τ} {request : Req} {next : Reply request → Program ε Req Reply α}
      (hu : c.thread u = .call request next) : t ≠ u := by
    rintro rfl
    rw [ht] at hu
    cases hu
  rcases M.step_cases h with
    ⟨u, o, request, next, reply, s, rfl, hu, -, rfl⟩ | ⟨u, request, next, rfl, hu, rfl⟩ |
    ⟨o, s, rfl, -, rfl⟩
  · exact (Function.update_of_ne (hother hu) _ _).trans ht
  · exact (Function.update_of_ne (hother hu) _ _).trans ht
  · exact ht

theorem Reaches.finished {M : Machine τ ε Req Reply σ ω} {A : Assumption τ Req σ}
    {c c' : Config τ ε Req Reply σ α} {t : τ} {value : α} (h : M.Reaches A c c')
    (ht : c.thread t = .ret value) : c'.thread t = .ret value := by
  induction h with
  | refl => exact ht
  | step l _ hstep _ ih => exact step_finished hstep ih

/-- A schedule whose steps keep to the assumption is a run. -/
theorem Reaches.of_run {M : Machine τ ε Req Reply σ ω} {A : Assumption τ Req σ}
    {c c' : Config τ ε Req Reply σ α} {ls : List (Label τ ω)}
    (hkeeps : ∀ l ∈ ls, ∀ d e : Config τ ε Req Reply σ α, Keeps A d e l)
    (h : M.run c ls = some c') : M.Reaches A c c' := by
  induction ls generalizing c with
  | nil =>
      simp only [run, Option.some.injEq] at h
      exact h ▸ .refl
  | cons l ls ih =>
      simp only [run, Option.bind_eq_some_iff] at h
      obtain ⟨d, hstep, hrun⟩ := h
      exact (Reaches.refl.step l hstep (hkeeps l (.head _) c d)).trans
        (ih (fun l' hl' => hkeeps l' (.tail _ hl')) hrun)

theorem Reaches.of_schedule {M : Machine τ ε Req Reply σ ω} {A : Assumption τ Req σ}
    {c : Config τ ε Req Reply σ α} {ls : List (Label τ ω)}
    (hkeeps : ∀ l ∈ ls, ∀ d e : Config τ ε Req Reply σ α, Keeps A d e l)
    (h : (M.run c ls).isSome = true) : M.Reaches A c (M.after c ls) := by
  obtain ⟨c', hc'⟩ := Option.isSome_iff_exists.mp h
  have hafter : M.after c ls = c' := by simp [after, hc']
  exact hafter ▸ .of_run hkeeps hc'

/-- A thread that does not run on a schedule stays where it is. -/
theorem thread_after {M : Machine τ ε Req Reply σ ω} {c : Config τ ε Req Reply σ α}
    {ls : List (Label τ ω)} {t : τ} (h : ∀ l ∈ ls, ∃ u o, l = .run u o ∧ t ≠ u) :
    (M.after c ls).thread t = c.thread t := by
  have hrun {c' : Config τ ε Req Reply σ α} (hc' : M.run c ls = some c') :
      c'.thread t = c.thread t := by
    induction ls generalizing c with
    | nil =>
        cases hc'
        rfl
    | cons l ls ih =>
        simp only [run, Option.bind_eq_some_iff] at hc'
        obtain ⟨d, hstep, hrun⟩ := hc'
        rw [ih (fun l' hl' => h l' (.tail _ hl')) hrun]
        obtain ⟨u, o, rfl, hne⟩ := h l (.head _)
        rcases M.step_cases hstep with
          ⟨u, o, request, next, reply, s, hl, -, -, rfl⟩ | ⟨u, _, _, hl, -⟩ | ⟨o, s, hl, -⟩
        · cases hl
          exact Function.update_of_ne hne _ _
        · cases hl
        · cases hl
  cases hc' : M.run c ls with
  | none => simp [after, hc']
  | some c' => simpa [after, hc'] using hrun hc'

theorem isSome_run_of_passes {M : Machine τ ε Req Reply σ ω} {ok : τ → Req → σ → Bool}
    {c : Config τ ε Req Reply σ α} {ls : List (Label τ ω)} (h : M.passes ok c ls = true) :
    (M.run c ls).isSome = true := by
  induction ls generalizing c with
  | nil => rfl
  | cons l ls ih =>
      obtain ⟨d, hstep, hd⟩ := (Option.any_eq_true _ _).mp ((Bool.and_eq_true _ _).mp h).2
      rw [run, hstep]
      exact ih hd

/-- A schedule whose requests and moves pass tests that imply the assumption is a run. -/
theorem Reaches.of_passes_moves {M : Machine τ ε Req Reply σ ω} {A : Assumption τ Req σ}
    {c : Config τ ε Req Reply σ α} {ls : List (Label τ ω)} (ok : τ → Req → σ → Bool)
    (okMove : σ → σ → Bool) (hok : ∀ t request s, ok t request s = true → A.request t request s)
    (hmove : ∀ s s', okMove s s' = true → A.move s s') (h : M.passes ok c ls = true)
    (hmoves : M.passesMoves okMove c ls = true) : M.Reaches A c (M.after c ls) := by
  obtain ⟨c', hc'⟩ := Option.isSome_iff_exists.mp (isSome_run_of_passes h)
  have hafter : M.after c ls = c' := by simp [after, hc']
  rw [hafter]
  clear hafter
  induction ls generalizing c with
  | nil =>
      simp only [run, Option.some.injEq] at hc'
      exact hc' ▸ .refl
  | cons l ls ih =>
      obtain ⟨hl, hrest⟩ := (Bool.and_eq_true _ _).mp h
      obtain ⟨d, hstep, hd⟩ := (Option.any_eq_true _ _).mp hrest
      simp only [run, hstep, Option.bind_some] at hc'
      simp only [passesMoves, hstep, Option.all_some, Bool.and_eq_true] at hmoves
      refine (Reaches.refl.step l hstep ?_).trans (ih hd hmoves.2 hc')
      cases l with
      | run t o =>
          intro request next ht
          simp only [ht] at hl
          exact hok t request c.shared hl
      | crash t => trivial
      | move o => exact hmove _ _ hmoves.1

/-- A schedule whose requests pass a test that implies the assumption is a run. -/
theorem Reaches.of_passes {M : Machine τ ε Req Reply σ ω} {A : Assumption τ Req σ}
    {c : Config τ ε Req Reply σ α} {ls : List (Label τ ω)} (ok : τ → Req → σ → Bool)
    (hok : ∀ t request s, ok t request s = true → A.request t request s)
    (hmove : ∀ s s', A.move s s') (h : M.passes ok c ls = true) :
    M.Reaches A c (M.after c ls) := by
  refine .of_passes_moves ok (fun _ _ => true) hok (fun s s' _ => hmove s s') h ?_
  clear h
  induction ls generalizing c with
  | nil => rfl
  | cons l ls ih =>
      refine (Option.all_eq_true _ _).mpr fun d _ => ?_
      cases l <;> exact ih

end Machine

end Interleaving
