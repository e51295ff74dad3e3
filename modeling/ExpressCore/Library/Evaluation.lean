import ExpressCore.Library.Machine

/-! # Programs that run alone

The steps of one thread without those of any other. -/

namespace Interleaving

variable {τ ε Req : Type} {Reply : Req → Type} {σ ω α β : Type}

namespace Machine

/-- `p`, run alone by thread `t` from `s`, ends with `result` in `s'`. -/
inductive Evaluates (M : Machine τ ε Req Reply σ ω) (t : τ) :
    Program ε Req Reply α → σ → Except ε α → σ → Prop where
  | ret (value : α) (s : σ) : Evaluates M t (.ret value) s (.ok value) s
  | fail (error : ε) (s : σ) : Evaluates M t (.fail error) s (.error error) s
  | call {request : Req} {next : Reply request → Program ε Req Reply α} {s s₁ s' : σ}
      {result : Except ε α} (o : ω) (reply : Reply request) :
      M.exec t request o s = some (reply, s₁) → Evaluates M t (next reply) s₁ result s' →
        Evaluates M t (.call request next) s result s'

variable {M : Machine τ ε Req Reply σ ω} {t : τ} {s s' : σ} {result : Except ε α}

theorem evaluates_ret {value : α} :
    M.Evaluates t (.ret value) s result s' ↔ result = .ok value ∧ s' = s := by
  constructor
  · rintro ⟨⟩
    exact ⟨rfl, rfl⟩
  · rintro ⟨rfl, rfl⟩
    exact .ret value s'

theorem evaluates_pure {value : α} :
    M.Evaluates t (pure value) s result s' ↔ result = .ok value ∧ s' = s := evaluates_ret

theorem evaluates_call {request : Req} {next : Reply request → Program ε Req Reply α} :
    M.Evaluates t (.call request next) s result s' ↔
      ∃ o reply s₁, M.exec t request o s = some (reply, s₁) ∧
        M.Evaluates t (next reply) s₁ result s' := by
  constructor
  · intro h
    cases h with
    | call o reply hexec hnext => exact ⟨o, reply, _, hexec, hnext⟩
  · rintro ⟨o, reply, s₁, hexec, hnext⟩
    exact .call o reply hexec hnext

theorem evaluates_send_bind {request : Req} {rest : Reply request → Program ε Req Reply α} :
    M.Evaluates t (Program.send request >>= rest) s result s' ↔
      ∃ o reply s₁, M.exec t request o s = some (reply, s₁) ∧
        M.Evaluates t (rest reply) s₁ result s' := evaluates_call

theorem evaluates_bind_ok {p : Program ε Req Reply α} {rest : α → Program ε Req Reply β}
    {value : β} : M.Evaluates t (p >>= rest) s (.ok value) s' ↔
      ∃ a s₁, M.Evaluates t p s (.ok a) s₁ ∧ M.Evaluates t (rest a) s₁ (.ok value) s' := by
  induction p generalizing s with
  | ret a =>
      constructor
      · exact fun h => ⟨a, s, .ret a s, h⟩
      · rintro ⟨a', s₁, h, hrest⟩
        cases h
        exact hrest
  | fail error =>
      constructor
      · intro h
        cases h
      · rintro ⟨a, s₁, h, -⟩
        cases h
  | call request next ih =>
      simp only [Program.call_bind, evaluates_call, ih]
      constructor
      · rintro ⟨o, reply, s₁, hexec, a, s₂, hnext, hrest⟩
        exact ⟨a, s₂, ⟨o, reply, s₁, hexec, hnext⟩, hrest⟩
      · rintro ⟨a, s₂, ⟨o, reply, s₁, hexec, hnext⟩, hrest⟩
        exact ⟨o, reply, s₁, hexec, a, s₂, hnext, hrest⟩

/-- A program whose requests can all be answered ends. -/
theorem exists_evaluates {p : Program ε Req Reply α} {allowed : Req → Prop} {I : σ → Prop}
    (hanswer : ∀ r s, allowed r → I s → ∃ o reply s', M.exec t r o s = some (reply, s') ∧ I s')
    (hp : p.Uses allowed) (hs : I s) : ∃ result s', M.Evaluates t p s result s' := by
  induction p generalizing s with
  | ret value => exact ⟨_, s, .ret value s⟩
  | fail error => exact ⟨_, s, .fail error s⟩
  | call request next ih =>
      obtain ⟨o, reply, s₁, hexec, hs₁⟩ := hanswer request s hp.1 hs
      obtain ⟨result, s', hnext⟩ := ih reply (hp.2 reply) hs₁
      exact ⟨result, s', .call o reply hexec hnext⟩

/-- An evaluation is a run of the machine. -/
theorem Evaluates.reaches [DecidableEq τ] {p : Program ε Req Reply α}
    {c : Config τ ε Req Reply σ α} (h : M.Evaluates t p c.shared result s')
    (hp : c.thread t = p) :
    ∃ c', M.Reaches .any c c' ∧ c'.shared = s' ∧ c'.thread t = .ofExcept result := by
  generalize hs : c.shared = s at h
  induction h generalizing c with
  | ret value s => exact ⟨c, .refl, hs, hp⟩
  | fail error s => exact ⟨c, .refl, hs, hp⟩
  | @call request next s s₁ s' result o reply hexec hnext ih =>
      have hstep : M.step c (.run t o) =
          some ⟨s₁, Function.update c.thread t (next reply)⟩ := by
        rw [step, hp, hs]
        simp [hexec]
      obtain ⟨c', hreaches, hshared, hthread⟩ :=
        ih (c := ⟨s₁, Function.update c.thread t (next reply)⟩) (Function.update_self ..) rfl
      exact ⟨c', (Reaches.refl.step _ hstep (keeps_any _)).trans hreaches, hshared, hthread⟩

/-- The machine that also notes every request, the last at the end. -/
def noting (M : Machine τ ε Req Reply σ ω) : Machine τ ε Req Reply (σ × List (τ × Req)) ω where
  exec t r o s := (M.exec t r o s.1).map fun x => (x.1, x.2, s.2 ++ [(t, r)])
  crash t s := (M.crash t s.1, s.2)
  lost := M.lost
  move o s := (M.move o s.1).map fun s' => (s', s.2)

theorem noting_exec {request : Req} {o : ω} {reply : Reply request} {n n' : List (τ × Req)} :
    M.noting.exec t request o (s, n) = some (reply, (s', n')) ↔
      M.exec t request o s = some (reply, s') ∧ n' = n ++ [(t, request)] := by
  simp only [noting, Option.map_eq_some_iff, Prod.mk.injEq]
  constructor
  · rintro ⟨⟨reply', s₁⟩, hexec, rfl, rfl, rfl⟩
    exact ⟨hexec, rfl⟩
  · rintro ⟨hexec, rfl⟩
    exact ⟨(reply, s'), hexec, rfl, rfl, rfl⟩

end Machine

end Interleaving
