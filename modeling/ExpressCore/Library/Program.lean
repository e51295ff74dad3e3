/-! # Programs that send requests to a shared environment -/

namespace Interleaving

/-- A sequential program: it ends with a value or an error, or it sends one request and
continues with the reply. Everything it shares with other programs is behind a request. -/
inductive Program (ε Req : Type) (Reply : Req → Type) (α : Type) where
  | ret (value : α)
  | fail (error : ε)
  | call (request : Req) (next : Reply request → Program ε Req Reply α)

namespace Program

variable {ε Req : Type} {Reply : Req → Type} {α β : Type}

/-- Sequencing: the rest runs on the value, and an error ends the whole program. -/
def bind : Program ε Req Reply α → (α → Program ε Req Reply β) → Program ε Req Reply β
  | ret value, rest => rest value
  | fail error, _ => fail error
  | call request next, rest => call request fun reply => (next reply).bind rest

/-- `handle` runs the handler when the program ends with an error. -/
def handle : Program ε Req Reply α → (ε → Program ε Req Reply α) → Program ε Req Reply α
  | ret value, _ => ret value
  | fail error, handler => handler error
  | call request next, handler => call request fun reply => (next reply).handle handler

instance : Monad (Program ε Req Reply) where
  pure := ret
  bind := bind

instance : MonadExceptOf ε (Program ε Req Reply) where
  throw := fail
  tryCatch := handle

/-- The program that sends one request and returns the reply. -/
def send (request : Req) : Program ε Req Reply (Reply request) :=
  call request ret

theorem pure_eq (value : α) : (pure value : Program ε Req Reply α) = ret value := rfl

@[simp] theorem ret_bind (value : α) (rest : α → Program ε Req Reply β) :
    (ret value >>= rest) = rest value := rfl

@[simp] theorem fail_bind (error : ε) (rest : α → Program ε Req Reply β) :
    (fail error >>= rest) = fail error := rfl

@[simp] theorem call_bind (request : Req) (next : Reply request → Program ε Req Reply α)
    (rest : α → Program ε Req Reply β) :
    (call request next >>= rest) = call request fun reply => next reply >>= rest := rfl

@[simp] theorem send_bind (request : Req) (rest : Reply request → Program ε Req Reply β) :
    (send request >>= rest) = call request rest := rfl

theorem bind_assoc {γ : Type} (p : Program ε Req Reply α) (rest : α → Program ε Req Reply β)
    (last : β → Program ε Req Reply γ) :
    (p >>= rest) >>= last = p >>= fun value => rest value >>= last := by
  induction p with
  | ret value => rfl
  | fail error => rfl
  | call request next ih => exact congrArg (call request) (funext ih)

/-- The value of a program that has ended with one. -/
def value? : Program ε Req Reply α → Option α
  | ret value => some value
  | _ => none

theorem value?_eq_some {p : Program ε Req Reply α} {value : α} :
    p.value? = some value ↔ p = ret value := by
  cases p <;> simp [value?]

/-- The error of a program that has ended with one. -/
def error? : Program ε Req Reply α → Option ε
  | fail error => some error
  | _ => none

theorem error?_eq_some {p : Program ε Req Reply α} {error : ε} :
    p.error? = some error ↔ p = fail error := by
  cases p <;> simp [error?]

/-- The program that has ended with a result. -/
def ofExcept : Except ε α → Program ε Req Reply α
  | .ok value => ret value
  | .error error => fail error

/-- Every request the program can send is allowed. -/
def Uses (allowed : Req → Prop) : Program ε Req Reply α → Prop
  | ret _ => True
  | fail _ => True
  | call request next => allowed request ∧ ∀ reply, (next reply).Uses allowed

variable {allowed : Req → Prop}

@[simp] theorem uses_ret (value : α) : (ret value : Program ε Req Reply α).Uses allowed := trivial

@[simp] theorem uses_pure (value : α) :
    (pure value : Program ε Req Reply α).Uses allowed := trivial

@[simp] theorem uses_fail (error : ε) : (fail error : Program ε Req Reply α).Uses allowed :=
  trivial

@[simp] theorem uses_throw (error : ε) : (throw error : Program ε Req Reply α).Uses allowed :=
  trivial

@[simp] theorem uses_send {request : Req} :
    (send request : Program ε Req Reply (Reply request)).Uses allowed ↔ allowed request :=
  ⟨fun h => h.1, fun h => ⟨h, fun _ => trivial⟩⟩

theorem Uses.bind {p : Program ε Req Reply α} {rest : α → Program ε Req Reply β}
    (hp : p.Uses allowed) (hrest : ∀ value, (rest value).Uses allowed) :
    (p >>= rest).Uses allowed := by
  induction p with
  | ret value => exact hrest value
  | fail error => trivial
  | call request next ih => exact ⟨hp.1, fun reply => ih reply (hp.2 reply)⟩

theorem Uses.of_all (h : ∀ request, allowed request) (p : Program ε Req Reply α) :
    p.Uses allowed := by
  induction p with
  | ret value => trivial
  | fail error => trivial
  | call request next ih => exact ⟨h request, ih⟩

theorem Uses.handle {p : Program ε Req Reply α} {handler : ε → Program ε Req Reply α}
    (hp : p.Uses allowed) (hhandler : ∀ error, (handler error).Uses allowed) :
    (p.handle handler).Uses allowed := by
  induction p with
  | ret value => trivial
  | fail error => exact hhandler error
  | call request next ih => exact ⟨hp.1, fun reply => ih reply (hp.2 reply)⟩

theorem Uses.mono {p : Program ε Req Reply α} {allowed' : Req → Prop} (hp : p.Uses allowed)
    (himp : ∀ request, allowed request → allowed' request) : p.Uses allowed' := by
  induction p with
  | ret value => trivial
  | fail error => trivial
  | call request next ih => exact ⟨himp request hp.1, fun reply => ih reply (hp.2 reply)⟩

end Program

end Interleaving
