import ExpressCore.Library.Machine

/-! # What a thread learns from its replies

What a thread knows when it ends follows from its own program and the replies it got, whatever
the other threads did in the meantime. -/

namespace Interleaving

variable {τ ε Req : Type} {Reply : Req → Type} {σ ω α β : Type}

namespace Program

/-- When only replies that satisfy `told` are given, the program ends with a value that
satisfies `post` or with an error that satisfies `err`. -/
def Learns (told : (request : Req) → Reply request → Prop) (post : α → Prop) (err : ε → Prop) :
    Program ε Req Reply α → Prop
  | ret value => post value
  | fail error => err error
  | call request next => ∀ reply, told request reply → (next reply).Learns told post err

variable {told : (request : Req) → Reply request → Prop} {post : α → Prop} {err : ε → Prop}

theorem Learns.ret {value : α} (h : post value) :
    (Pure.pure value : Program ε Req Reply α).Learns told post err := h

theorem Learns.throw {error : ε} (h : err error) :
    (throw error : Program ε Req Reply α).Learns told post err := h

theorem Learns.send_bind {request : Req} {rest : Reply request → Program ε Req Reply α}
    (h : ∀ reply, told request reply → (rest reply).Learns told post err) :
    (send request >>= rest).Learns told post err := h

/-- What is known already is known at the end. -/
theorem Learns.of_forall (hpost : ∀ value, post value) (herr : ∀ error, err error)
    (p : Program ε Req Reply α) : p.Learns told post err := by
  induction p with
  | ret value => exact hpost value
  | fail error => exact herr error
  | call request next ih => exact fun reply _ => ih reply

theorem Learns.bind {p : Program ε Req Reply β} {rest : β → Program ε Req Reply α}
    {mid : β → Prop} (hp : p.Learns told mid err)
    (hrest : ∀ value, mid value → (rest value).Learns told post err) :
    (p >>= rest).Learns told post err := by
  induction p with
  | ret value => exact hrest value hp
  | fail error => exact hp
  | call request next ih => exact fun reply hreply => ih reply (hp reply hreply)

/-- A part of the program whose replies do not matter. -/
theorem Learns.skip {p : Program ε Req Reply β} {rest : β → Program ε Req Reply α}
    (hrest : ∀ value, (rest value).Learns told post fun _ => True) :
    (p >>= rest).Learns told post fun _ => True :=
  .bind (.of_forall (fun _ => trivial) (fun _ => trivial) p) fun value (_ : True) => hrest value

theorem Learns.handle {p : Program ε Req Reply α} {handler : ε → Program ε Req Reply α}
    {caught : ε → Prop} (hp : p.Learns told post caught)
    (hhandler : ∀ error, caught error → (handler error).Learns told post err) :
    (p.handle handler).Learns told post err := by
  induction p with
  | ret value => exact hp
  | fail error => exact hhandler error hp
  | call request next ih => exact fun reply hreply => ih reply (hp reply hreply)

end Program

namespace Machine

variable [DecidableEq τ] {M : Machine τ ε Req Reply σ ω} {A : Assumption τ Req σ}
  {c c' : Config τ ε Req Reply σ α} {t : τ}

/-- On the way from `c` to `c'`, thread `t` sent `request` in state `s` and was told `reply`. -/
def Answered (M : Machine τ ε Req Reply σ ω) (A : Assumption τ Req σ)
    (c c' : Config τ ε Req Reply σ α) (t : τ) (request : Req) (reply : Reply request) (s : σ) :
    Prop :=
  ∃ d e o next, M.Reaches A c d ∧ d.shared = s ∧ d.thread t = .call request next ∧
    M.exec t request o s = some (reply, e.shared) ∧ e.thread t = next reply ∧ M.Reaches A e c'

/-- On the way from `c` to `c'`, thread `t` was told `reply`. -/
def Told (M : Machine τ ε Req Reply σ ω) (A : Assumption τ Req σ)
    (c c' : Config τ ε Req Reply σ α) (t : τ) (request : Req) (reply : Reply request) : Prop :=
  ∃ s, M.Answered A c c' t request reply s

/-- A thread learns what its program learns from the replies of the run. -/
theorem Reaches.learns {post : α → Prop} {err : ε → Prop} (h : M.Reaches A c c')
    (hlost : err M.lost) (hlearns : (c.thread t).Learns (M.Told A c c' t) post err) :
    (c'.thread t).Learns (M.Told A c c' t) post err := by
  suffices hall : ∀ d, M.Reaches A c d → M.Reaches A d c' →
      (d.thread t).Learns (M.Told A c c' t) post err from hall c' h .refl
  intro d hd
  induction hd with
  | refl => exact fun _ => hlearns
  | @step d e l hd hstep hkeeps ih =>
      intro hrest
      have hbefore := ih ((Reaches.refl.step l hstep hkeeps).trans hrest)
      rcases M.step_cases hstep with
        ⟨u, o, request, next, reply, s, rfl, hu, hexec, rfl⟩ | ⟨u, request, next, rfl, hu, rfl⟩ |
        ⟨o, s, rfl, -, rfl⟩
      · change (Function.update d.thread u (next reply) t).Learns _ post err
        by_cases hne : t = u
        · subst hne
          rw [hu] at hbefore
          rw [Function.update_self]
          exact hbefore reply
            ⟨d.shared, d, _, o, next, hd, rfl, hu, hexec, Function.update_self _ _ _, hrest⟩
        · rwa [Function.update_of_ne hne]
      · change (Function.update d.thread u (.fail M.lost) t).Learns _ post err
        by_cases hne : t = u
        · subst hne
          rwa [Function.update_self]
        · rwa [Function.update_of_ne hne]
      · exact hbefore

/-- What a thread that has returned has learnt. -/
theorem Reaches.learnt {post : α → Prop} {value : α} (h : M.Reaches A c c')
    (hlearns : (c.thread t).Learns (M.Told A c c' t) post fun _ => True)
    (hvalue : c'.thread t = .ret value) : post value := by
  have hlearnt := h.learns trivial hlearns
  rw [hvalue] at hlearnt
  exact hlearnt

end Machine

end Interleaving
