import ExpressCore.Library.Evaluation

/-! # Sequential runs

One thread makes call after call, and the environment moves in between and meanwhile. What a
call does is derived from what each of its requests does to an abstract state. -/

namespace Interleaving

variable {τ ε Req : Type} {Reply : Req → Type} {σ ω ν α β : Type}

namespace Machine

/-- `p`, run by thread `t` from `s` while no other thread runs, ends with `result` in `s'`.
`answers` and `moves` say what is taken for granted about the answers to its requests and
about the moves of the environment meanwhile. -/
inductive RunsAlone (M : Machine τ ε Req Reply σ ω) (t : τ) (answers : Req → ω → Prop)
    (moves : σ → σ → Prop) : Program ε Req Reply α → σ → Except ε α → σ → Prop where
  | ret (value : α) (s : σ) : RunsAlone M t answers moves (.ret value) s (.ok value) s
  | fail (error : ε) (s : σ) : RunsAlone M t answers moves (.fail error) s (.error error) s
  | call {request : Req} {next : Reply request → Program ε Req Reply α} {s s₁ s' : σ}
      {result : Except ε α} (o : ω) (reply : Reply request) : answers request o →
      M.exec t request o s = some (reply, s₁) →
      RunsAlone M t answers moves (next reply) s₁ result s' →
        RunsAlone M t answers moves (.call request next) s result s'
  | move {p : Program ε Req Reply α} {s s₁ s' : σ} {result : Except ε α} (o : ω) :
      M.move o s = some s₁ → moves s s₁ → RunsAlone M t answers moves p s₁ result s' →
        RunsAlone M t answers moves p s result s'

/-- The call of a sequential run, with the states before and after it. -/
structure Turn (κ : Type) (Result : κ → Type) (ε σ : Type) where
  call : κ
  before : σ
  result : Except ε (Result call)
  after : σ

variable {κ : Type} {Result : κ → Type}

/-- `Serves M t service answers moves admits turns s s'`: thread `t` has made the calls
`turns`, the last first, and led from `s` to `s'`. Every call was admitted in its state. -/
inductive Serves (M : Machine τ ε Req Reply σ ω) (t : τ)
    (service : (k : κ) → Program ε Req Reply (Result k)) (answers : Req → ω → Prop)
    (moves : σ → σ → Prop) (admits : κ → σ → Prop) (s : σ) :
    List (Turn κ Result ε σ) → σ → Prop where
  | start : Serves M t service answers moves admits s [] s
  | call {turns : List (Turn κ Result ε σ)} {s₁ s₂ : σ} (k : κ) (result : Except ε (Result k)) :
      Serves M t service answers moves admits s turns s₁ → admits k s₁ →
      M.RunsAlone t answers moves (service k) s₁ result s₂ →
        Serves M t service answers moves admits s (⟨k, s₁, result, s₂⟩ :: turns) s₂
  | move {turns : List (Turn κ Result ε σ)} {s₁ s₂ : σ} (o : ω) :
      Serves M t service answers moves admits s turns s₁ → M.move o s₁ = some s₂ →
        Serves M t service answers moves admits s turns s₂

variable {M : Machine τ ε Req Reply σ ω} {t : τ} {s s' : σ} {answers : Req → ω → Prop}
  {moves : σ → σ → Prop}

/-- An evaluation is a run in which the environment does not move. -/
theorem Evaluates.alone {p : Program ε Req Reply α} {result : Except ε α}
    (hanswers : ∀ r o, answers r o) (h : M.Evaluates t p s result s') :
    M.RunsAlone t answers moves p s result s' := by
  induction h with
  | ret value s => exact .ret value s
  | fail error s => exact .fail error s
  | call o reply hexec _ ih => exact .call o reply (hanswers _ o) hexec ih

end Machine

/-! ## Effects -/

namespace Program

/-- `Derives does p v result v'`: with requests that do what `does` says, `p` leads from `v`
to `v'` and ends with `result`. -/
inductive Derives (does : (r : Req) → Reply r → ν → ν → Prop) :
    Program ε Req Reply α → ν → Except ε α → ν → Prop where
  | ret (value : α) (v : ν) : Derives does (.ret value) v (.ok value) v
  | fail (error : ε) (v : ν) : Derives does (.fail error) v (.error error) v
  | call {request : Req} {next : Reply request → Program ε Req Reply α} {v v₁ v' : ν}
      {result : Except ε α} (reply : Reply request) : does request reply v v₁ →
      Derives does (next reply) v₁ result v' → Derives does (.call request next) v result v'

variable {does : (r : Req) → Reply r → ν → ν → Prop} {v v' : ν}

@[simp] theorem derives_pure {value : α} {result : Except ε α} :
    (pure value : Program ε Req Reply α).Derives does v result v' ↔
      result = .ok value ∧ v' = v := by
  constructor
  · rintro ⟨⟩
    exact ⟨rfl, rfl⟩
  · rintro ⟨rfl, rfl⟩
    exact .ret value v'

@[simp] theorem derives_throw {error : ε} {result : Except ε α} :
    (throw error : Program ε Req Reply α).Derives does v result v' ↔
      result = .error error ∧ v' = v := by
  constructor
  · rintro ⟨⟩
    exact ⟨rfl, rfl⟩
  · rintro ⟨rfl, rfl⟩
    exact .fail error v'

theorem derives_call {request : Req} {next : Reply request → Program ε Req Reply α}
    {result : Except ε α} : (call request next).Derives does v result v' ↔
      ∃ reply v₁, does request reply v v₁ ∧ (next reply).Derives does v₁ result v' := by
  constructor
  · intro h
    cases h with
    | call reply hdoes hnext => exact ⟨reply, _, hdoes, hnext⟩
  · rintro ⟨reply, v₁, hdoes, hnext⟩
    exact .call reply hdoes hnext

theorem derives_send {request : Req} {result : Except ε (Reply request)} :
    (send request : Program ε Req Reply _).Derives does v result v' ↔
      ∃ reply, result = .ok reply ∧ does request reply v v' := by
  constructor
  · intro h
    obtain ⟨reply, v₁, hdoes, hnext⟩ := derives_call.mp h
    obtain ⟨rfl, rfl⟩ := derives_pure.mp hnext
    exact ⟨reply, rfl, hdoes⟩
  · rintro ⟨reply, rfl, hdoes⟩
    exact .call reply hdoes (.ret reply v')

theorem derives_bind_ok {p : Program ε Req Reply α} {rest : α → Program ε Req Reply β}
    {value : β} : (p >>= rest).Derives does v (.ok value) v' ↔
      ∃ a v₁, p.Derives does v (.ok a) v₁ ∧ (rest a).Derives does v₁ (.ok value) v' := by
  induction p generalizing v with
  | ret a =>
      constructor
      · exact fun h => ⟨a, v, .ret a v, h⟩
      · rintro ⟨a', v₁, h, hrest⟩
        cases h
        exact hrest
  | fail error =>
      constructor
      · intro h
        cases h
      · rintro ⟨a, v₁, h, -⟩
        cases h
  | call request next ih =>
      simp only [call_bind, derives_call, ih]
      constructor
      · rintro ⟨reply, v₁, hdoes, a, v₂, hnext, hrest⟩
        exact ⟨a, v₂, ⟨reply, v₁, hdoes, hnext⟩, hrest⟩
      · rintro ⟨a, v₂, ⟨reply, v₁, hdoes, hnext⟩, hrest⟩
        exact ⟨reply, v₁, hdoes, a, v₂, hnext, hrest⟩

theorem derives_bind_error {p : Program ε Req Reply α} {rest : α → Program ε Req Reply β}
    {error : ε} : (p >>= rest).Derives does v (.error error) v' ↔
      p.Derives does v (.error error) v' ∨
        ∃ a v₁, p.Derives does v (.ok a) v₁ ∧ (rest a).Derives does v₁ (.error error) v' := by
  induction p generalizing v with
  | ret a =>
      constructor
      · exact fun h => .inr ⟨a, v, .ret a v, h⟩
      · rintro (h | ⟨a', v₁, h, hrest⟩)
        · cases h
        · cases h
          exact hrest
  | fail error' =>
      constructor
      · intro h
        cases h
        exact .inl (.fail _ _)
      · rintro (h | ⟨a, v₁, h, -⟩)
        · cases h
          exact .fail _ _
        · cases h
  | call request next ih =>
      simp only [call_bind, derives_call, ih]
      constructor
      · rintro ⟨reply, v₁, hdoes, hnext | ⟨a, v₂, hnext, hrest⟩⟩
        · exact .inl ⟨reply, v₁, hdoes, hnext⟩
        · exact .inr ⟨a, v₂, ⟨reply, v₁, hdoes, hnext⟩, hrest⟩
      · rintro (⟨reply, v₁, hdoes, hnext⟩ | ⟨a, v₂, ⟨reply, v₁, hdoes, hnext⟩, hrest⟩)
        · exact ⟨reply, v₁, hdoes, .inl hnext⟩
        · exact ⟨reply, v₁, hdoes, .inr ⟨a, v₂, hnext, hrest⟩⟩

/-- After a program that does not fail, the rest runs. -/
theorem Derives.bind_of_ok {p : Program ε Req Reply α} {rest : α → Program ε Req Reply β}
    {result : Except ε β} (hp : ∀ result v', p.Derives does v result v' → ∃ a, result = .ok a)
    (h : (p >>= rest).Derives does v result v') :
    ∃ a v₁, p.Derives does v (.ok a) v₁ ∧ (rest a).Derives does v₁ result v' := by
  cases result with
  | ok value => exact derives_bind_ok.mp h
  | error error =>
      rcases derives_bind_error.mp h with h | h
      · obtain ⟨a, ha⟩ := hp _ _ h
        cases ha
      · exact h

end Program

/-- A program of a machine derives what its requests do, as an abstraction of the states shows
it. -/
theorem Machine.RunsAlone.derives {M : Machine τ ε Req Reply σ ω} {t : τ}
    {answers : Req → ω → Prop} {moves : σ → σ → Prop} {p : Program ε Req Reply α} {s s' : σ}
    {result : Except ε α} {does : (r : Req) → Reply r → ν → ν → Prop} {I : σ → Prop} {f : σ → ν}
    (hexec : ∀ r o reply s s', I s → answers r o → M.exec t r o s = some (reply, s') →
      I s' ∧ does r reply (f s) (f s'))
    (hmove : ∀ o s s', I s → M.move o s = some s' → moves s s' → I s' ∧ f s' = f s)
    (h : M.RunsAlone t answers moves p s result s') (hs : I s) :
    I s' ∧ p.Derives does (f s) result (f s') := by
  induction h with
  | ret value s => exact ⟨hs, .ret value _⟩
  | fail error s => exact ⟨hs, .fail error _⟩
  | call o reply hanswers hstep _ ih =>
      obtain ⟨hs₁, hdoes⟩ := hexec _ o reply _ _ hs hanswers hstep
      exact ⟨(ih hs₁).1, .call reply hdoes (ih hs₁).2⟩
  | move o hstep hmoves _ ih =>
      obtain ⟨hs₁, heq⟩ := hmove o _ _ hs hstep hmoves
      exact ⟨(ih hs₁).1, heq ▸ (ih hs₁).2⟩

end Interleaving
