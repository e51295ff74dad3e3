import ExpressCore.Library.Elsewhere

/-! # The first part of a program

Following a thread through the first part of what it does. While it is inside, what comes
afterwards makes no difference. -/

namespace Interleaving

variable {τ ε Req : Type} {Reply : Req → Type} {σ ω α β : Type}

/-- A choice of the scheduler that leaves thread `t` where it is. -/
def Label.Spares (t : τ) : Label τ ω → Prop
  | .run u _ => u ≠ t
  | .crash u => u ≠ t
  | .move _ => True

/-- The configuration in which thread `t` still has to do something else. -/
def Config.replace [DecidableEq τ] (c : Config τ ε Req Reply σ α) (t : τ)
    (p : Program ε Req Reply α) : Config τ ε Req Reply σ α :=
  { c with thread := Function.update c.thread t p }

namespace Machine

variable [DecidableEq τ] {M : Machine τ ε Req Reply σ ω} {A A' : Assumption τ Req σ} {t : τ}
  {c c' d e : Config τ ε Req Reply σ α} {p q q' : Program ε Req Reply β} {l : Label τ ω}
  {rest : β → Program ε Req Reply α}

/-- `Inside A t c p d q`: on a way from `c` to `d` thread `t` works on the part `p` of its program
and has `q` left of it. -/
inductive Inside (M : Machine τ ε Req Reply σ ω) (A : Assumption τ Req σ) (t : τ)
    (c : Config τ ε Req Reply σ α) (p : Program ε Req Reply β) :
    Config τ ε Req Reply σ α → Program ε Req Reply β → Prop where
  | start : Inside M A t c p c p
  | reply {d e : Config τ ε Req Reply σ α} {request : Req}
      {next : Reply request → Program ε Req Reply β} (o : ω) (reply : Reply request) :
      Inside M A t c p d (.call request next) → M.step d (.run t o) = some e →
      M.exec t request o d.shared = some (reply, e.shared) → A.request t request d.shared →
      Inside M A t c p e (next reply)
  | crash {d e : Config τ ε Req Reply σ α} {request : Req}
      {next : Reply request → Program ε Req Reply β} :
      Inside M A t c p d (.call request next) → M.step d (.crash t) = some e →
      Inside M A t c p e (.fail M.lost)
  | other {d e : Config τ ε Req Reply σ α} {q : Program ε Req Reply β} (l : Label τ ω) :
      Inside M A t c p d q → l.Spares t → M.step d l = some e → Keeps A d e l →
      Inside M A t c p e q

theorem Inside.mono (hrequest : ∀ t request s, A.request t request s → A'.request t request s)
    (hmove : ∀ s s', A.move s s' → A'.move s s') (h : M.Inside A t c p d q) :
    M.Inside A' t c p d q := by
  induction h with
  | start => exact .start
  | reply o reply _ hstep hexec hrequest' ih =>
      exact .reply o reply ih hstep hexec (hrequest _ _ _ hrequest')
  | crash _ hstep ih => exact .crash ih hstep
  | other l _ hspares hstep hkeeps ih =>
      exact .other l ih hspares hstep (hkeeps.mono hrequest hmove)

theorem Inside.of_sparing {u : τ} (h : M.Inside (A.sparing u) t c p d q) : M.Inside A t c p d q :=
  Inside.mono (A := A.sparing u) (fun _ _ _ hA => hA.2) (fun _ _ hA => hA) h

theorem Inside.trans (h : M.Inside A t c p d q) (h' : M.Inside A t d q e q') :
    M.Inside A t c p e q' := by
  induction h' with
  | start => exact h
  | reply o reply _ hstep hexec hrequest ih => exact .reply o reply ih hstep hexec hrequest
  | crash _ hstep ih => exact .crash ih hstep
  | other l _ hspares hstep hkeeps ih => exact .other l ih hspares hstep hkeeps

/-- A thread that is not scheduled stays where it is unless it is lost. -/
theorem Inside.eq_of_sparing (h : M.Inside (A.sparing t) t c p d q) : q = p ∨ q = .fail M.lost := by
  induction h with
  | start => exact .inl rfl
  | reply o reply _ _ _ hrequest _ => exact (hrequest.1 rfl).elim
  | crash _ _ _ => exact .inr rfl
  | other l _ _ _ _ ih => exact ih

theorem thread_of_spares (hstep : M.step c l = some d) (hspares : l.Spares t) :
    d.thread t = c.thread t := by
  rcases M.step_cases hstep with
    ⟨u, o, request, next, reply, s, rfl, -, -, rfl⟩ | ⟨u, request, next, rfl, -, rfl⟩ |
    ⟨o, s, rfl, -, rfl⟩
  · exact Function.update_of_ne hspares.symm _ _
  · exact Function.update_of_ne hspares.symm _ _
  · rfl

/-- A thread that has ended with an error gets no further. -/
theorem Inside.eq_of_failed {error : ε} (h : M.Inside A t c p d q) (hc : c.thread t = .fail error) :
    q = p ∧ d.thread t = .fail error := by
  induction h with
  | start => exact ⟨rfl, hc⟩
  | reply o reply _ hstep _ _ ih => simp [step, ih.2] at hstep
  | crash _ hstep ih => simp [step, ih.2] at hstep
  | other l _ hspares hstep _ ih => exact ⟨ih.1, (thread_of_spares hstep hspares).trans ih.2⟩

theorem step_run {request : Req} {next : Reply request → Program ε Req Reply α} {o : ω}
    {reply : Reply request} {s : σ} (ht : c.thread t = .call request next)
    (hexec : M.exec t request o c.shared = some (reply, s)) :
    M.step c (.run t o) = some ⟨s, Function.update c.thread t (next reply)⟩ := by
  simp [step, ht, hexec]

theorem step_crash {request : Req} {next : Reply request → Program ε Req Reply α}
    (ht : c.thread t = .call request next) :
    M.step c (.crash t) =
      some ⟨M.crash t c.shared, Function.update c.thread t (.fail M.lost)⟩ := by
  simp [step, ht]

/-- The thread does what is left of the part, and then the rest. -/
theorem Inside.thread (h : M.Inside A t c p d q) (hc : c.thread t = p >>= rest) :
    d.thread t = q >>= rest := by
  induction h with
  | start => exact hc
  | reply o reply _ hstep hexec _ ih =>
      rw [step_run ih hexec] at hstep
      exact (congrArg (fun c => c.thread t) (Option.some.inj hstep)).symm.trans
        (Function.update_self ..)
  | crash _ hstep ih =>
      rw [step_crash ih] at hstep
      obtain rfl := Option.some.inj hstep
      exact Function.update_self ..
  | other l _ hspares hstep _ ih => exact (thread_of_spares hstep hspares).trans ih

/-- A thread is still inside the part or has come to its end. -/
theorem Reaches.inside (h : M.Reaches A c c') (hc : c.thread t = p >>= rest) :
    (∃ q, M.Inside A t c p c' q ∧ ∀ value, q ≠ .ret value) ∨
      ∃ d value, M.Inside A t c p d (.ret value) ∧ M.Reaches A d c' := by
  have hhere {d : Config τ ε Req Reply σ α} {q : Program ε Req Reply β}
      (hd : M.Inside A t c p d q) : (∃ q, M.Inside A t c p d q ∧ ∀ value, q ≠ .ret value) ∨
        ∃ d' value, M.Inside A t c p d' (.ret value) ∧ M.Reaches A d' d := by
    cases q with
    | ret value => exact .inr ⟨d, value, hd, .refl⟩
    | fail error => exact .inl ⟨_, hd, fun _ h => by cases h⟩
    | call request next => exact .inl ⟨_, hd, fun _ h => by cases h⟩
  induction h with
  | refl => exact hhere .start
  | @step d e l hd hstep hkeeps ih =>
      rcases ih with ⟨q, hinside, hreturned⟩ | ⟨d', value, hinside, hrest⟩
      · have hthread := hinside.thread hc
        rcases M.step_cases hstep with
          ⟨u, o, request, next, reply, s, rfl, hu, hexec, rfl⟩ | ⟨u, request, next, rfl, hu, rfl⟩ |
          ⟨o, s, rfl, -, rfl⟩
        · by_cases heq : u = t
          · subst heq
            cases q with
            | ret value => exact (hreturned value rfl).elim
            | fail error => cases hu.symm.trans hthread
            | call request' next' =>
                obtain ⟨rfl, -⟩ := Program.call.inj (hu.symm.trans hthread)
                exact hhere (.reply o reply hinside hstep hexec (hkeeps request next hu))
          · exact .inl ⟨q, .other (.run u o) hinside heq hstep hkeeps, hreturned⟩
        · by_cases heq : u = t
          · subst heq
            cases q with
            | ret value => exact (hreturned value rfl).elim
            | fail error => cases hu.symm.trans hthread
            | call request' next' => exact hhere (.crash hinside hstep)
          · exact .inl ⟨q, .other (.crash u) hinside heq hstep hkeeps, hreturned⟩
        · exact .inl ⟨q, .other (.move o) hinside trivial hstep hkeeps, hreturned⟩
      · exact .inr ⟨d', value, hinside, hrest.step l hstep hkeeps⟩

/-! ## Another continuation -/

theorem step_replace {r : Program ε Req Reply α} (hstep : M.step d l = some e)
    (hspares : l.Spares t) : M.step (d.replace t r) l = some (e.replace t r) := by
  rcases M.step_cases hstep with
    ⟨u, o, request, next, reply, s, rfl, hu, hexec, rfl⟩ | ⟨u, request, next, rfl, hu, rfl⟩ |
    ⟨o, s, rfl, hmove, rfl⟩
  · have hu' : (d.replace t r).thread u = .call request next :=
      (Function.update_of_ne hspares _ _).trans hu
    rw [step_run hu' hexec]
    simp [Config.replace, Function.update_comm hspares]
  · have hu' : (d.replace t r).thread u = .call request next :=
      (Function.update_of_ne hspares _ _).trans hu
    rw [step_crash hu']
    simp [Config.replace, Function.update_comm hspares]
  · simp [step, Config.replace, hmove]

theorem Keeps.replace {r r' : Program ε Req Reply α} (h : Keeps A d e l) (hspares : l.Spares t) :
    Keeps A (d.replace t r) (e.replace t r') l := by
  cases l with
  | run u o =>
      intro request next hu
      exact h request next ((Function.update_of_ne hspares _ _).symm.trans hu)
  | crash u => trivial
  | move o => exact h

/-- While the thread is inside the part, it might as well have something else to do afterwards. -/
theorem Inside.replace (h : M.Inside A t c p d q) (hc : c.thread t = p >>= rest)
    (rest' : β → Program ε Req Reply α) :
    M.Reaches A (c.replace t (p >>= rest')) (d.replace t (q >>= rest')) := by
  induction h with
  | start => exact .refl
  | @reply d e request next o reply h hstep hexec hrequest ih =>
      have hthread : (d.replace t (.call request next >>= rest')).thread t =
          .call request fun reply => next reply >>= rest' := Function.update_self ..
      have heq : e.replace t (next reply >>= rest') = ⟨e.shared, Function.update
          (d.replace t (.call request next >>= rest')).thread t (next reply >>= rest')⟩ := by
        rw [step_run (h.thread hc) hexec] at hstep
        have hothers := congrArg Config.thread (Option.some.inj hstep).symm
        simp [Config.replace, hothers]
      refine ih.step (.run t o) ?_ ?_
      · rw [heq]
        exact step_run hthread hexec
      · intro request' next' hu
        obtain ⟨rfl, -⟩ := Program.call.inj (hthread.symm.trans hu)
        exact hrequest
  | @crash d e request next h hstep ih =>
      have hthread : (d.replace t (.call request next >>= rest')).thread t =
          .call request fun reply => next reply >>= rest' := Function.update_self ..
      have heq : e.replace t (.fail M.lost >>= rest') = ⟨M.crash t d.shared, Function.update
          (d.replace t (.call request next >>= rest')).thread t (.fail M.lost)⟩ := by
        rw [step_crash (h.thread hc)] at hstep
        obtain rfl := Option.some.inj hstep
        simp [Config.replace]
      refine ih.step (.crash t) ?_ trivial
      rw [heq]
      exact step_crash hthread
  | other l _ hspares hstep hkeeps ih =>
      exact ih.step l (step_replace hstep hspares) (hkeeps.replace hspares)

end Machine

end Interleaving
