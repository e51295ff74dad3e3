import ExpressCore.Library.RelyGuarantee

/-! # Relying on the guards of the others

The weakest contract: between two requests of a thread the others do whatever their guards
allow. -/

namespace Interleaving

variable {τ ε Req : Type} {Reply : Req → Type} {σ ω α β : Type}

/-- A step of another thread or of the environment. -/
def Machine.Elsewhere (M : Machine τ ε Req Reply σ ω) (A : Assumption τ Req σ)
    (guard : τ → Req → σ → Prop) (t : τ) (s s' : σ) : Prop :=
  (∃ u, u ≠ t ∧ M.Performs (fun u request s => guard u request s ∧ A.request u request s) u s s') ∨
    ∃ o, M.move o s = some s' ∧ A.move s s'

/-- The assumption under which thread `t` is not scheduled. -/
def Assumption.sparing (A : Assumption τ Req σ) (t : τ) : Assumption τ Req σ where
  request u request s := u ≠ t ∧ A.request u request s
  move := A.move

/-- `A`, and every step starts in a state that satisfies `I`. -/
def Assumption.within (A : Assumption τ Req σ) (I : σ → Prop) : Assumption τ Req σ where
  request t request s := A.request t request s ∧ I s
  move := A.move

namespace Machine

variable [DecidableEq τ] {M : Machine τ ε Req Reply σ ω} {A A' : Assumption τ Req σ}

omit [DecidableEq τ] in
theorem Keeps.mono {c c' : Config τ ε Req Reply σ α} {l : Label τ ω}
    (hrequest : ∀ t request s, A.request t request s → A'.request t request s)
    (hmove : ∀ s s', A.move s s' → A'.move s s') (h : Keeps A c c' l) : Keeps A' c c' l := by
  cases l with
  | run t o => exact fun request next ht => hrequest t request _ (h request next ht)
  | crash t => trivial
  | move o => exact hmove _ _ h

theorem Reaches.mono {c c' : Config τ ε Req Reply σ α}
    (hrequest : ∀ t request s, A.request t request s → A'.request t request s)
    (hmove : ∀ s s', A.move s s' → A'.move s s') (h : M.Reaches A c c') : M.Reaches A' c c' := by
  induction h with
  | refl => exact .refl
  | step l _ hstep hkeeps ih => exact ih.step l hstep (hkeeps.mono hrequest hmove)

theorem Reaches.of_sparing {c c' : Config τ ε Req Reply σ α} {t : τ}
    (h : M.Reaches (A.sparing t) c c') : M.Reaches A c c' :=
  Reaches.mono (A := A.sparing t) (fun _ _ _ hA => hA.2) (fun _ _ hA => hA) h

/-- What holds at the end of every run that may rely on it holds in every run. -/
theorem Reaches.within {c c' : Config τ ε Req Reply σ α} {I : σ → Prop}
    (hI : ∀ d, M.Reaches (A.within I) c d → I d.shared) (h : M.Reaches A c c') :
    M.Reaches (A.within I) c c' := by
  induction h with
  | refl => exact .refl
  | @step d e l _ hstep hkeeps ih =>
      refine ih.step l hstep ?_
      cases l with
      | run t o => exact fun request next ht => ⟨hkeeps request next ht, hI d ih⟩
      | crash t => trivial
      | move o => exact hkeeps

end Machine

namespace Rules

variable [DecidableEq τ] {M : Machine τ ε Req Reply σ ω} {A : Assumption τ Req σ}
  {R : Rules τ σ} {t : τ} {posts : τ → α → σ → Prop} {errs : τ → ε → σ → Prop}
  {c c' : Config τ ε Req Reply σ α} {pre : σ → Prop}

/-- A thread that is not scheduled stays where it is, and so does what it relies on, unless it
is lost. -/
theorem Sound.waits (hcompat : R.Compatible M A)
    (hlost : ∀ t s, R.invariant s → errs t M.lost s) (h : R.Sound M A posts errs c)
    (hrun : M.Reaches (A.sparing t) c c') (hstable : R.Stable t pre) (hpre : pre c.shared) :
    c'.thread t = c.thread t ∧ pre c'.shared ∨ c'.thread t = .fail M.lost := by
  induction hrun with
  | refl => exact .inl ⟨rfl, hpre⟩
  | @step d e l hrun hstep hkeeps ih =>
      have hd := h.reaches hcompat hlost hrun.of_sparing
      have hkeeps' : Machine.Keeps A d e l :=
        Machine.Keeps.mono (A := A.sparing t) (fun _ _ _ hA => hA.2) (fun _ _ hA => hA) hkeeps
      have he := hd.step hcompat hlost hstep hkeeps'
      rcases M.step_cases hstep with
        ⟨u, o, request, next, reply, s, rfl, hu, hexec, rfl⟩ | ⟨u, request, next, rfl, hu, rfl⟩ |
        ⟨o, s, rfl, hmove, rfl⟩
      · have hne : t ≠ u := (hkeeps request next hu).1.symm
        have hholds := hd.2 u
        rw [hu] at hholds
        have hguar := (hholds.answer hd.1 (hkeeps' request next hu) hexec).2.1
        have hinterferes := hcompat.interferes t u _ _ hne hd.1 hguar
        simp only [Function.update_of_ne hne]
        exact ih.imp_left fun ih => ⟨ih.1, hstable _ _ hd.1 he.1 hinterferes ih.2⟩
      · by_cases heq : t = u
        · subst heq
          exact .inr (Function.update_self ..)
        · have hguar := (hcompat.crash u d.shared hd.1).2
          have hinterferes := hcompat.interferes t u _ _ heq hd.1 hguar
          simp only [Function.update_of_ne heq]
          exact ih.imp_left fun ih => ⟨ih.1, hstable _ _ hd.1 he.1 hinterferes ih.2⟩
      · have hinterferes := (hcompat.move o d.shared s hd.1 hmove hkeeps).2 t
        exact ih.imp_left fun ih => ⟨ih.1, hstable _ _ hd.1 he.1 hinterferes ih.2⟩

/-- The contract of one thread may be replaced where it stands. -/
theorem Sound.renew {post : α → σ → Prop} (h : R.Sound M A posts errs c)
    (ht : R.Holds M A t post (errs t) (c.thread t) c.shared) :
    R.Sound M A (Function.update posts t post) errs c := by
  refine ⟨h.1, fun u => ?_⟩
  by_cases heq : u = t
  · subst heq
    simpa using ht
  · simpa [Function.update_of_ne heq] using h.2 u

end Rules

end Interleaving
