import ExpressCore.Library.Machine
import Mathlib.Tactic.Choose

/-! # Rely/guarantee rules for interleaved programs

Each program is checked alone, against an invariant of the shared state and a bound on what
everybody else may do. The composition theorem turns these checks into a statement about
every interleaving. -/

namespace Interleaving

variable {τ ε Req : Type} {Reply : Req → Type} {σ ω α β : Type}

/-- The contract between threads: what always holds, what the others may do between two
requests of a thread, and what one request of a thread may do. -/
structure Rules (τ σ : Type) where
  invariant : σ → Prop
  interference : τ → σ → σ → Prop
  guarantee : τ → σ → σ → Prop

namespace Rules

/-- An assertion that no move of the others can falsify. -/
def Stable (R : Rules τ σ) (t : τ) (assertion : σ → Prop) : Prop :=
  ∀ s s', R.invariant s → R.invariant s' → R.interference t s s' → assertion s → assertion s'

/-- Implication between assertions, in the states that satisfy the invariant. -/
def Implies (R : Rules τ σ) (pre post : σ → Prop) : Prop :=
  ∀ s, R.invariant s → pre s → post s

/-- What answering one request must achieve. -/
def Answers (R : Rules τ σ) (M : Machine τ ε Req Reply σ ω) (A : Assumption τ Req σ) (t : τ)
    (pre : σ → Prop) (request : Req) (post : Reply request → σ → Prop) : Prop :=
  ∀ s o reply s', R.invariant s → A.request t request s → pre s →
    M.exec t request o s = some (reply, s') →
      R.invariant s' ∧ R.guarantee t s s' ∧ post reply s'

/-- `Meets pre p post err`: from states with `pre`, and whatever the others do, every
request of `p` keeps the invariant and the guarantee, and `p` ends with `post` or `err`. -/
def Meets (R : Rules τ σ) (M : Machine τ ε Req Reply σ ω) (A : Assumption τ Req σ) (t : τ)
    (post : α → σ → Prop) (err : ε → σ → Prop) :
    Program ε Req Reply α → (σ → Prop) → Prop
  | .ret value, pre => ∃ now, R.Implies pre now ∧ R.Stable t now ∧ R.Implies now (post value)
  | .fail error, pre => ∃ now, R.Implies pre now ∧ R.Stable t now ∧ R.Implies now (err error)
  | .call request next, pre => ∃ now mid, R.Implies pre now ∧ R.Stable t now ∧
      R.Answers M A t now request mid ∧ ∀ reply, R.Meets M A t post err (next reply) (mid reply)

variable {R : Rules τ σ} {M : Machine τ ε Req Reply σ ω} {A : Assumption τ Req σ} {t : τ}
  {post : α → σ → Prop} {err : ε → σ → Prop} {pre pre' : σ → Prop}

theorem Implies.refl : R.Implies pre pre := fun _ _ h => h

theorem Stable.const (p : Prop) : R.Stable t fun _ => p := fun _ _ _ _ _ h => h

theorem Stable.and {p q : σ → Prop} (hp : R.Stable t p) (hq : R.Stable t q) :
    R.Stable t fun s => p s ∧ q s :=
  fun s s' hs hs' hmove h => ⟨hp s s' hs hs' hmove h.1, hq s s' hs hs' hmove h.2⟩

theorem Stable.exists {ι : Sort*} {p : ι → σ → Prop} (h : ∀ i, R.Stable t (p i)) :
    R.Stable t fun s => ∃ i, p i s :=
  fun s s' hs hs' hmove ⟨i, hi⟩ => ⟨i, h i s s' hs hs' hmove hi⟩

theorem Stable.forall {ι : Sort*} {p : ι → σ → Prop} (h : ∀ i, R.Stable t (p i)) :
    R.Stable t fun s => ∀ i, p i s :=
  fun s s' hs hs' hmove hall i => h i s s' hs hs' hmove (hall i)

theorem Stable.imp_const {p : Prop} {q : σ → Prop} (h : p → R.Stable t q) :
    R.Stable t fun s => p → q s :=
  fun s s' hs hs' hmove hpq hp => h hp s s' hs hs' hmove (hpq hp)

/-! ## Rules for programs -/

theorem Meets.weaken {p : Program ε Req Reply α} (h : R.Meets M A t post err p pre')
    (himp : R.Implies pre pre') : R.Meets M A t post err p pre := by
  cases p with
  | ret value =>
      obtain ⟨now, hnow, hrest⟩ := h
      exact ⟨now, fun s hs hp => hnow s hs (himp s hs hp), hrest⟩
  | fail error =>
      obtain ⟨now, hnow, hrest⟩ := h
      exact ⟨now, fun s hs hp => hnow s hs (himp s hs hp), hrest⟩
  | call request next =>
      obtain ⟨now, mid, hnow, hrest⟩ := h
      exact ⟨now, mid, fun s hs hp => hnow s hs (himp s hs hp), hrest⟩

/-- Weakening with the weaker assertion made explicit. -/
theorem Meets.under {p : Program ε Req Reply α} (pre' : σ → Prop)
    (h : R.Meets M A t post err p pre') (himp : R.Implies pre pre') :
    R.Meets M A t post err p pre :=
  h.weaken himp

/-- A parameter of the assertion may be fixed. -/
theorem Meets.exists {ι : Sort*} {F : ι → σ → Prop} {p : Program ε Req Reply α}
    (h : ∀ i, R.Meets M A t post err p (F i)) : R.Meets M A t post err p fun s => ∃ i, F i s := by
  induction p generalizing F with
  | ret value =>
      choose now himp hstable hpost using h
      exact ⟨fun s => ∃ i, now i s, fun s hs ⟨i, hi⟩ => ⟨i, himp i s hs hi⟩, .exists hstable,
        fun s hs ⟨i, hi⟩ => hpost i s hs hi⟩
  | fail error =>
      choose now himp hstable herr using h
      exact ⟨fun s => ∃ i, now i s, fun s hs ⟨i, hi⟩ => ⟨i, himp i s hs hi⟩, .exists hstable,
        fun s hs ⟨i, hi⟩ => herr i s hs hi⟩
  | call request next ih =>
      choose now mid himp hstable hanswer hnext using h
      refine ⟨fun s => ∃ i, now i s, fun reply s => ∃ i, mid i reply s,
        fun s hs ⟨i, hi⟩ => ⟨i, himp i s hs hi⟩, .exists hstable, ?_, fun reply => ?_⟩
      · rintro s o reply s' hs hassume ⟨i, hi⟩ hexec
        obtain ⟨hinv, hguar, hmid⟩ := hanswer i s o reply s' hs hassume hi hexec
        exact ⟨hinv, hguar, i, hmid⟩
      · exact ih reply fun i => hnext i reply

/-- A part of the assertion that is not about the state may be assumed. -/
theorem Meets.assume {q : Prop} {p : Program ε Req Reply α}
    (h : q → R.Meets M A t post err p pre) : R.Meets M A t post err p fun s => q ∧ pre s :=
  (Meets.exists h).weaken fun _ _ hp => ⟨hp.1, hp.2⟩

theorem Meets.ret {value : α} (hstable : R.Stable t (post value)) :
    R.Meets M A t post err (.ret value) (post value) :=
  ⟨post value, .refl, hstable, .refl⟩

theorem Meets.fail {error : ε} (hstable : R.Stable t (err error)) :
    R.Meets M A t post err (.fail error : Program ε Req Reply α) (err error) :=
  ⟨err error, .refl, hstable, .refl⟩

theorem Meets.pure {value : α} (hstable : R.Stable t (post value))
    (himp : R.Implies pre (post value)) :
    R.Meets M A t post err (Pure.pure value : Program ε Req Reply α) pre :=
  (Meets.ret hstable).weaken himp

/-- A result with the assertion about it made explicit. -/
theorem Meets.giving {value : α} (post : α → σ → Prop) (hstable : R.Stable t (post value))
    (himp : R.Implies pre (post value)) :
    R.Meets M A t post err (Pure.pure value : Program ε Req Reply α) pre :=
  .pure hstable himp

theorem Meets.throw {error : ε} (hstable : R.Stable t (err error))
    (himp : R.Implies pre (err error)) :
    R.Meets M A t post err (throw error : Program ε Req Reply α) pre :=
  (Meets.fail hstable).weaken himp

/-- The assertion `pre` may be moved under the invariant and sharpened by it. -/
theorem Meets.call {request : Req} {next : Reply request → Program ε Req Reply α}
    (mid : Reply request → σ → Prop) (hstable : R.Stable t pre)
    (hanswer : R.Answers M A t pre request mid)
    (hnext : ∀ reply, R.Meets M A t post err (next reply) (mid reply)) :
    R.Meets M A t post err (.call request next) pre :=
  ⟨pre, mid, .refl, hstable, hanswer, hnext⟩

theorem Meets.send {request : Req} {post : Reply request → σ → Prop}
    (hstable : R.Stable t pre) (hanswer : R.Answers M A t pre request post)
    (hpost : ∀ reply, R.Stable t (post reply)) :
    R.Meets M A t post err (.send request) pre :=
  Meets.call post hstable hanswer fun reply => Meets.ret (hpost reply)

theorem Meets.bind {p : Program ε Req Reply β} {rest : β → Program ε Req Reply α}
    {mid : β → σ → Prop} (hp : R.Meets M A t mid err p pre)
    (hrest : ∀ value, R.Meets M A t post err (rest value) (mid value)) :
    R.Meets M A t post err (p >>= rest) pre := by
  induction p generalizing pre with
  | ret value =>
      obtain ⟨now, hnow, -, hmid⟩ := hp
      exact (hrest value).weaken fun s hs h => hmid s hs (hnow s hs h)
  | fail error => exact hp
  | call request next ih =>
      obtain ⟨now, mid', hnow, hstable, hanswer, hnext⟩ := hp
      exact ⟨now, mid', hnow, hstable, hanswer, fun reply => ih reply (hnext reply)⟩

/-- Sequencing with the assertion between the two parts made explicit. -/
theorem Meets.seq {p : Program ε Req Reply β} {rest : β → Program ε Req Reply α}
    (mid : β → σ → Prop) (hp : R.Meets M A t mid err p pre)
    (hrest : ∀ value, R.Meets M A t post err (rest value) (mid value)) :
    R.Meets M A t post err (p >>= rest) pre :=
  hp.bind hrest

/-- Errors that the handler receives satisfy `caught`. -/
theorem Meets.handle {p : Program ε Req Reply α} {handler : ε → Program ε Req Reply α}
    {caught : ε → σ → Prop} (hp : R.Meets M A t post caught p pre)
    (hhandler : ∀ error, R.Meets M A t post err (handler error) (caught error)) :
    R.Meets M A t post err (p.handle handler) pre := by
  induction p generalizing pre with
  | ret value => exact hp
  | fail error =>
      obtain ⟨now, hnow, -, hcaught⟩ := hp
      exact (hhandler error).weaken fun s hs h => hcaught s hs (hnow s hs h)
  | call request next ih =>
      obtain ⟨now, mid', hnow, hstable, hanswer, hnext⟩ := hp
      exact ⟨now, mid', hnow, hstable, hanswer, fun reply => ih reply (hnext reply)⟩

theorem Meets.mono {p : Program ε Req Reply α} {post' : α → σ → Prop} {err' : ε → σ → Prop}
    (h : R.Meets M A t post' err' p pre) (hpost : ∀ value, R.Implies (post' value) (post value))
    (herr : ∀ error, R.Implies (err' error) (err error)) : R.Meets M A t post err p pre := by
  induction p generalizing pre with
  | ret value =>
      obtain ⟨now, hnow, hstable, hmid⟩ := h
      exact ⟨now, hnow, hstable, fun s hs hp => hpost value s hs (hmid s hs hp)⟩
  | fail error =>
      obtain ⟨now, hnow, hstable, hmid⟩ := h
      exact ⟨now, hnow, hstable, fun s hs hp => herr error s hs (hmid s hs hp)⟩
  | call request next ih =>
      obtain ⟨now, mid', hnow, hstable, hanswer, hnext⟩ := h
      exact ⟨now, mid', hnow, hstable, hanswer, fun reply => ih reply (hnext reply)⟩

/-- What every step of the thread and of the others keeps may be carried along. -/
theorem Meets.frame {kept : σ → Prop} {p : Program ε Req Reply α}
    (h : R.Meets M A t post err p pre) (hstable : R.Stable t kept)
    (hkept : ∀ s s', R.invariant s → R.guarantee t s s' → kept s → kept s') :
    R.Meets M A t (fun value s => post value s ∧ kept s) (fun error s => err error s ∧ kept s) p
      fun s => pre s ∧ kept s := by
  induction p generalizing pre with
  | ret value =>
      obtain ⟨now, hnow, hnowstable, hpost⟩ := h
      exact ⟨fun s => now s ∧ kept s, fun s hs hp => ⟨hnow s hs hp.1, hp.2⟩,
        hnowstable.and hstable, fun s hs hp => ⟨hpost s hs hp.1, hp.2⟩⟩
  | fail error =>
      obtain ⟨now, hnow, hnowstable, herr⟩ := h
      exact ⟨fun s => now s ∧ kept s, fun s hs hp => ⟨hnow s hs hp.1, hp.2⟩,
        hnowstable.and hstable, fun s hs hp => ⟨herr s hs hp.1, hp.2⟩⟩
  | call request next ih =>
      obtain ⟨now, mid, hnow, hnowstable, hanswer, hnext⟩ := h
      refine ⟨fun s => now s ∧ kept s, fun reply s => mid reply s ∧ kept s,
        fun s hs hp => ⟨hnow s hs hp.1, hp.2⟩, hnowstable.and hstable, ?_,
        fun reply => ih reply (hnext reply)⟩
      intro s o reply s' hs hassume hp hexec
      obtain ⟨hinv, hguar, hmid⟩ := hanswer s o reply s' hs hassume hp.1 hexec
      exact ⟨hinv, hguar, hmid, hkept s s' hs hguar hp.2⟩

/-- A program whose requests all keep a stable assertion keeps it. -/
theorem Meets.of_uses {allowed : Req → Prop} {p : Program ε Req Reply α}
    (huses : p.Uses allowed) (hstable : R.Stable t pre)
    (hanswer : ∀ request, allowed request → R.Answers M A t pre request fun _ => pre) :
    R.Meets M A t (fun _ => pre) (fun _ => pre) p pre := by
  induction p with
  | ret value => exact Meets.ret hstable
  | fail error => exact Meets.fail hstable
  | call request next ih =>
      exact Meets.call _ hstable (hanswer request huses.1) fun reply => ih reply (huses.2 reply)

/-! ## Composition -/

/-- What ties the contracts of all threads together: a guarantee is interference for the
others, and lost threads and moves of the environment respect the contract. -/
structure Compatible (R : Rules τ σ) (M : Machine τ ε Req Reply σ ω)
    (A : Assumption τ Req σ) : Prop where
  interferes : ∀ t t' s s', t ≠ t' → R.invariant s → R.guarantee t' s s' →
    R.interference t s s'
  crash : ∀ t s, R.invariant s → R.invariant (M.crash t s) ∧ R.guarantee t s (M.crash t s)
  move : ∀ o s s', R.invariant s → M.move o s = some s' → A.move s s' →
    R.invariant s' ∧ ∀ t, R.interference t s s'

/-- The state of a thread inside a run: some assertion holds from which the rest of its
program meets its contract. -/
def Holds (R : Rules τ σ) (M : Machine τ ε Req Reply σ ω) (A : Assumption τ Req σ) (t : τ)
    (post : α → σ → Prop) (err : ε → σ → Prop) (p : Program ε Req Reply α) (s : σ) : Prop :=
  ∃ now, now s ∧ R.Stable t now ∧ R.Meets M A t post err p now

theorem Meets.holds {p : Program ε Req Reply α} {s : σ} (h : R.Meets M A t post err p pre)
    (hinv : R.invariant s) (hpre : pre s) : R.Holds M A t post err p s := by
  cases p with
  | ret value =>
      obtain ⟨now, hnow, hstable, hpost⟩ := h
      exact ⟨now, hnow s hinv hpre, hstable, now, .refl, hstable, hpost⟩
  | fail error =>
      obtain ⟨now, hnow, hstable, herr⟩ := h
      exact ⟨now, hnow s hinv hpre, hstable, now, .refl, hstable, herr⟩
  | call request next =>
      obtain ⟨now, mid, hnow, hstable, hrest⟩ := h
      exact ⟨now, hnow s hinv hpre, hstable, now, mid, .refl, hstable, hrest⟩

theorem Holds.interfere {p : Program ε Req Reply α} {s s' : σ}
    (h : R.Holds M A t post err p s) (hs : R.invariant s) (hs' : R.invariant s')
    (hmove : R.interference t s s') : R.Holds M A t post err p s' := by
  obtain ⟨now, hnow, hstable, hmeets⟩ := h
  exact ⟨now, hstable s s' hs hs' hmove hnow, hstable, hmeets⟩

theorem Holds.value {value : α} {s : σ} (h : R.Holds M A t post err (.ret value) s)
    (hs : R.invariant s) : post value s := by
  obtain ⟨now, hnow, -, next, himp, -, hpost⟩ := h
  exact hpost s hs (himp s hs hnow)

theorem Holds.error {error : ε} {s : σ}
    (h : R.Holds M A t post err (.fail error : Program ε Req Reply α) s)
    (hs : R.invariant s) : err error s := by
  obtain ⟨now, hnow, -, next, himp, -, herr⟩ := h
  exact herr s hs (himp s hs hnow)

/-- The next request of a thread that is inside its contract. -/
theorem Holds.answer {request : Req} {next : Reply request → Program ε Req Reply α} {s s' : σ}
    {o : ω} {reply : Reply request} (h : R.Holds M A t post err (.call request next) s)
    (hs : R.invariant s) (hassume : A.request t request s)
    (hexec : M.exec t request o s = some (reply, s')) :
    R.invariant s' ∧ R.guarantee t s s' ∧ R.Holds M A t post err (next reply) s' := by
  obtain ⟨now, hnow, -, now', mid, himp, -, hanswer, hnext⟩ := h
  obtain ⟨hinv, hguar, hmid⟩ :=
    hanswer s o reply s' hs hassume (himp s hs hnow) hexec
  exact ⟨hinv, hguar, (hnext reply).holds hinv hmid⟩

variable [DecidableEq τ] {posts : τ → α → σ → Prop} {errs : τ → ε → σ → Prop}

/-- Every thread inside its contract, in a state that satisfies the invariant. -/
def Sound (R : Rules τ σ) (M : Machine τ ε Req Reply σ ω) (A : Assumption τ Req σ)
    (posts : τ → α → σ → Prop) (errs : τ → ε → σ → Prop)
    (c : Config τ ε Req Reply σ α) : Prop :=
  R.invariant c.shared ∧ ∀ t, R.Holds M A t (posts t) (errs t) (c.thread t) c.shared

/-- One thread moves inside its contract and the others see it as interference. -/
private theorem Sound.advance {c : Config τ ε Req Reply σ α} {t : τ} {s : σ}
    {p : Program ε Req Reply α} (hcompat : R.Compatible M A) (h : R.Sound M A posts errs c)
    (hinv : R.invariant s) (hguar : R.guarantee t c.shared s)
    (hp : R.Holds M A t (posts t) (errs t) p s) :
    R.Sound M A posts errs ⟨s, Function.update c.thread t p⟩ := by
  refine ⟨hinv, fun t' => ?_⟩
  by_cases heq : t' = t
  · subst heq
    simpa using hp
  · have hmove := hcompat.interferes t' t _ _ heq h.1 hguar
    simpa [Function.update_of_ne heq] using (h.2 t').interfere h.1 hinv hmove

theorem Sound.step {c c' : Config τ ε Req Reply σ α} {l : Label τ ω}
    (hcompat : R.Compatible M A) (hlost : ∀ t s, R.invariant s → errs t M.lost s)
    (h : R.Sound M A posts errs c) (hstep : M.step c l = some c')
    (hkeeps : Machine.Keeps A c c' l) : R.Sound M A posts errs c' := by
  rcases M.step_cases hstep with
    ⟨t, o, request, next, reply, s, rfl, ht, hexec, rfl⟩ | ⟨t, request, next, rfl, ht, rfl⟩ |
    ⟨o, s, rfl, hmove, rfl⟩
  · have hholds := h.2 t
    rw [ht] at hholds
    obtain ⟨hinv, hguar, hnext⟩ := hholds.answer h.1 (hkeeps request next ht) hexec
    exact h.advance hcompat hinv hguar hnext
  · obtain ⟨hinv, hguar⟩ := hcompat.crash t c.shared h.1
    have hlost' : R.Holds M A t (posts t) (errs t) (.fail M.lost : Program ε Req Reply α)
        (M.crash t c.shared) :=
      ⟨fun _ => True, trivial, .const True, fun _ => True, .refl, .const True,
        fun s hs _ => hlost t s hs⟩
    exact h.advance hcompat hinv hguar hlost'
  · obtain ⟨hinv, hmoves⟩ := hcompat.move o c.shared s h.1 hmove hkeeps
    exact ⟨hinv, fun t => (h.2 t).interfere h.1 hinv (hmoves t)⟩

/-- The composition theorem: contracts checked one by one hold together in every
interleaving. -/
theorem Sound.reaches {c c' : Config τ ε Req Reply σ α}
    (hcompat : R.Compatible M A) (hlost : ∀ t s, R.invariant s → errs t M.lost s)
    (h : R.Sound M A posts errs c) (hrun : M.Reaches A c c') :
    R.Sound M A posts errs c' := by
  induction hrun with
  | refl => exact h
  | step l _ hstep hkeeps ih => exact ih.step hcompat hlost hstep hkeeps

/-! ## Guarded requests -/

end Rules

/-- A thread performs a request under its guard, or is lost. -/
def Machine.Performs (M : Machine τ ε Req Reply σ ω) (guard : τ → Req → σ → Prop) (t : τ)
    (s s' : σ) : Prop :=
  (∃ request o reply, guard t request s ∧ M.exec t request o s = some (reply, s')) ∨
    s' = M.crash t s

/-- One step of a run in which every request is guarded. -/
inductive Machine.Transition (M : Machine τ ε Req Reply σ ω) (A : Assumption τ Req σ)
    (guard : τ → Req → σ → Prop) (s s' : σ) : Prop where
  | perform (t : τ) : M.Performs guard t s s' → Transition M A guard s s'
  | move (o : ω) : M.move o s = some s' → A.move s s' → Transition M A guard s s'

namespace Rules

/-- The contract of threads that guard their requests, in runs that keep to an assumption. -/
def guarded (M : Machine τ ε Req Reply σ ω) (A : Assumption τ Req σ) (invariant : σ → Prop)
    (interference : τ → σ → σ → Prop) (guard : τ → Req → σ → Prop) : Rules τ σ where
  invariant := invariant
  interference := interference
  guarantee := M.Performs fun t request s => guard t request s ∧ A.request t request s

section Guarded

variable {M : Machine τ ε Req Reply σ ω} {A : Assumption τ Req σ} {I : σ → Prop}
  {rely : τ → σ → σ → Prop} {guard : τ → Req → σ → Prop}

/-- What is left to show of a request when every request keeps the invariant. -/
theorem Answers.guarded {t : τ} {pre : σ → Prop} {request : Req} {post : Reply request → σ → Prop}
    (hinv : ∀ s o reply s', I s → M.exec t request o s = some (reply, s') → I s')
    (hguard : ∀ s, I s → A.request t request s → pre s → guard t request s)
    (hpost : ∀ s o reply s', I s → A.request t request s → pre s →
      M.exec t request o s = some (reply, s') → post reply s') :
    (guarded M A I rely guard).Answers M A t pre request post :=
  fun s o reply s' hI hassume hpre hexec =>
    ⟨hinv s o reply s' hI hexec,
      .inl ⟨request, o, reply, ⟨hguard s hI hassume hpre, hassume⟩, hexec⟩,
      hpost s o reply s' hI hassume hpre hexec⟩

/-- An invariant that every guarded step keeps holds in every interleaving. -/
theorem Sound.induction {posts : τ → α → σ → Prop} {errs : τ → ε → σ → Prop}
    [DecidableEq τ] {c c' : Config τ ε Req Reply σ α} {P : σ → Prop}
    (hcompat : (guarded M A I rely guard).Compatible M A)
    (hlost : ∀ t s, I s → errs t M.lost s)
    (h : (guarded M A I rely guard).Sound M A posts errs c) (hrun : M.Reaches A c c')
    (hinit : P c.shared)
    (hstep : ∀ s s', I s → I s' → P s →
      M.Transition A (fun t request s => guard t request s ∧ A.request t request s) s s' → P s') :
    P c'.shared := by
  induction hrun with
  | refl => exact hinit
  | step l hrun hstep' hkeeps ih =>
      have hsound := h.reaches hcompat hlost hrun
      refine hstep _ _ hsound.1 (hsound.step hcompat hlost hstep' hkeeps).1 ih ?_
      rcases M.step_cases hstep' with
        ⟨t, o, request, next, reply, s, rfl, ht, hexec, rfl⟩ | ⟨t, request, next, rfl, ht, rfl⟩ |
        ⟨o, s, rfl, hmove, rfl⟩
      · have hholds := hsound.2 t
        rw [ht] at hholds
        exact .perform t (hholds.answer hsound.1 (hkeeps request next ht) hexec).2.1
      · exact .perform t (.inr rfl)
      · exact .move o hmove hkeeps

end Guarded

end Rules

end Interleaving
