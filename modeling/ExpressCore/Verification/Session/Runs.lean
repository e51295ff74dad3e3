import ExpressCore.Verification.Session.Locks
import ExpressCore.Verification.Session.Operations
import ExpressCore.Verification.System.Start

/-! # Runs of the operations on sessions -/

namespace ExpressCore.Session

open ReadCommitted Interleaving Interleaving.Program

/-- What a thread does with the sessions. An idle thread does nothing. -/
inductive Operation where
  | idle
  | login (email password : String)
  | refreshAccessToken (token : String)
  | logout (token : String)
  | resetPassword (token newPassword : String)
  | deleteUser (slug : String) (deletedBy : Option ℕ)
  | updateProfile (userId : ℕ) (data : UpdateProfileInput)
  | cleanupExpiredTokens

namespace Operation

/-- The operation without its result. -/
def run (setup : Setup) : Operation → Service Unit
  | idle => pure ()
  | login email password => do
      let _ ← ExpressCore.login setup email password
      pure ()
  | refreshAccessToken token => do
      let _ ← ExpressCore.refreshAccessToken setup token
      pure ()
  | logout token => ExpressCore.logout setup token
  | resetPassword token newPassword => ExpressCore.resetPassword setup token newPassword
  | deleteUser slug deletedBy => ExpressCore.deleteUser slug deletedBy
  | updateProfile userId data => do
      let _ ← ExpressCore.updateProfile setup userId data
      pure ()
  | cleanupExpiredTokens => ExpressCore.cleanupExpiredTokens setup

/-- Only a login starts a family. -/
def Opens : Operation → Prop
  | login _ _ => True
  | _ => False

end Operation

/-- The operations of all threads, from one state on. -/
def launch (setup : Setup) (operation : ℕ → Operation) (s : State) :
    Config ℕ Error Request Request.Reply State Unit where
  shared := s
  thread t := (operation t).run setup

variable {setup : Setup} {traced : Prop} {opens : ℕ → Prop} {A : Assumption ℕ Request State}
  {t : ℕ} {s s' : State}

/-! ## Every thread keeps to the protocol -/

/-- A thread that has not started. -/
structure Unstarted (t : ℕ) (s : State) : Prop where
  fresh : Fresh t s
  unchanging : s.db.changing t = none

theorem unstarted_stable {G : Guard} :
    (conformance setup traced A G).Stable t (Unstarted t) :=
  fun s s' hs hs' hapart h =>
    ⟨Steady.fresh.stable s s' hs hs' hapart h.fresh, by rw [hapart.changing, h.unchanging]⟩

theorem Operation.conforms {operation : Operation} (hstarts : operation ≠ .idle)
    (hopens : operation.Opens → opens t) :
    Conforms setup traced opens A t (fun _ => Settled t) (Outcome t) (operation.run setup)
      (Fresh t) := by
  have hvoid {α : Type} {p : Service α} (hp : Conforms setup traced opens A t (fun _ => Settled t)
      (Outcome t) p (Fresh t)) : Conforms setup traced opens A t (fun _ => Settled t) (Outcome t)
        (do let _ ← p; pure ()) (Fresh t) :=
    hp.bind fun _ => .pure Steady.settled.stable .refl
  cases operation with
  | idle => exact (hstarts rfl).elim
  | login email password => exact hvoid (login_conforms (hopens trivial) email password)
  | refreshAccessToken token => exact hvoid (refreshAccessToken_conforms token)
  | logout token => exact logout_conforms token
  | resetPassword token newPassword => exact resetPassword_conforms token newPassword
  | deleteUser slug deletedBy => exact deleteUser_conforms slug deletedBy
  | updateProfile userId data => exact hvoid (updateProfile_conforms userId data)
  | cleanupExpiredTokens => exact cleanupExpiredTokens_conforms

/-- What holds at the end of an operation that was launched in `s₀`. -/
def Operation.Ended (t : ℕ) (s₀ : State) : Operation → State → Prop
  | .idle, s => Unstarted t s₀ → Unstarted t s
  | _, s => Settled t s

/-- All threads inside their contracts. -/
abbrev Sound (setup : Setup) (traced : Prop) (opens : ℕ → Prop) (A : Assumption ℕ Request State)
    (operation : ℕ → Operation) (s₀ : State) (c : Config ℕ Error Request Request.Reply State Unit) :
    Prop :=
  (conformance setup traced A (guard setup traced opens)).Sound (system setup) A
    (fun t _ => (operation t).Ended t s₀) Outcome c

variable {operation : ℕ → Operation} {c c' : Config ℕ Error Request Request.Reply State Unit}

theorem sound_launch (hs : s.WellFormed setup traced)
    (hstart : ∀ t, operation t = .idle ∨ Unstarted t s)
    (hopens : ∀ t, (operation t).Opens → opens t) :
    Sound setup traced opens A operation s (launch setup operation s) := by
  refine ⟨hs, fun t => ?_⟩
  by_cases hidle : operation t = .idle
  · have hmeets : Conforms setup traced opens A t (fun _ => (operation t).Ended t s) (Outcome t)
        ((operation t).run setup) ((operation t).Ended t s) := by
      rw [hidle]
      exact .pure (.imp_const fun _ => unstarted_stable) .refl
    exact hmeets.holds hs (hidle ▸ id)
  · have hended : (operation t).Ended t s = Settled t := by
      cases heq : operation t <;> first | exact (hidle heq).elim | rfl
    have hmeets : Conforms setup traced opens A t (fun _ => (operation t).Ended t s) (Outcome t)
        ((operation t).run setup) (Fresh t) :=
      hended ▸ Operation.conforms hidle (hopens t)
    exact hmeets.holds hs ((hstart t).resolve_left hidle).fresh

theorem Sound.reaches (hclock : ∀ s s', A.move s s' → traced → s.clock ≤ s'.clock)
    (h : Sound setup traced opens A operation s c) (hrun : (system setup).Reaches A c c') :
    Sound setup traced opens A operation s c' :=
  Rules.Sound.reaches (conformance_compatible hclock) (fun _ _ _ => .inl rfl) h hrun

/-- What every step of the protocol keeps holds in every interleaving. -/
theorem Sound.induction {P : State → Prop}
    (hclock : ∀ s s', A.move s s' → traced → s.clock ≤ s'.clock)
    (h : Sound setup traced opens A operation s c) (hrun : (system setup).Reaches A c c')
    (hinit : P c.shared)
    (hstep : ∀ t s s', s.WellFormed setup traced → s'.WellFormed setup traced → P s →
      Step setup traced opens A t s s' → P s') : P c'.shared := by
  refine Rules.Sound.induction (conformance_compatible hclock) (fun _ _ _ => .inl rfl) h hrun hinit
    fun s s' hs hs' hP htransition => ?_
  cases htransition with
  | perform t hperforms =>
      obtain ⟨mid, hfirst, hmid, hsecond⟩ := splits_of_performs hperforms
      exact hstep t mid s' (hmid hs) hs' (hstep t s mid hs (hmid hs) hP hfirst) hsecond
  | move o hmove hA =>
      have hdb : s'.db = s.db := (move_exec hmove).1
      have hapart : Apart setup traced 0 s s' := by
        obtain ⟨hdb, hseen, hminted, hfamilies, hissuances⟩ := move_exec hmove
        exact .of_env hdb hseen hminted hfamilies hissuances (hclock s s' hA)
      refine hstep 0 s s' hs hs' hP ⟨(Unmoved.of_apart hapart).toLater, ?_, ?_, ?_⟩
      · exact fun _ _ => by rw [hdb]
      · exact fun _ _ => by rw [hdb]
      · exact .idle (by rw [hdb]) (by rw [hdb]) (.inl (by rw [hdb])) (by rw [hdb])

/-- The table is in order throughout. -/
theorem Sound.consistent (hclock : ∀ s s', A.move s s' → traced → s.clock ≤ s'.clock)
    (h : Sound setup traced opens A operation s c) (hrun : (system setup).Reaches A c c')
    (hconsistent : Consistent setup traced c.shared) : Consistent setup traced c'.shared :=
  h.induction hclock hrun hconsistent fun _ _ _ hs hs' hP hstep => hP.step hs hs' hstep

/-! ## The start of a run -/

theorem unstarted_of_initial (h : s.Initial) : Unstarted t s where
  fresh := by
    constructor <;> simp [Clean, Silent, Tagged, h.refreshTokens, Table.empty, h.tags]
  unchanging := by rw [h.changing]

theorem consistent_of_initial (h : s.Initial) : Consistent setup traced s where
  holding t := (unstarted_of_initial h).fresh.clean.holding
  single := by simp [h.refreshTokens, Table.empty]
  drawn := by simp [h.refreshTokens, Table.Record, Table.Version, Table.empty]
  unopened := by simp [h.refreshTokens, Table.Record, Table.Version, Table.empty]

/-- Whatever the threads do from the start. -/
theorem sound_of_initial (h : s.Initial) :
    Sound setup traced (fun _ => True) A operation s (launch setup operation s) :=
  sound_launch h.wellFormed (fun _ => .inr (unstarted_of_initial h)) fun _ _ => trivial

/-! ## A sign-in -/

def sampleUser : User :=
  { name := some "Ada", slug := some "ada", email := some "ada@example.com"
    password := some "old", avatar := none, roleId := none, isEmailVerified := true
    deletedAt := none }

def sampleToken (n : UInt8) : String := toHex (List.replicate 64 n)

/-- One user who signs in: token 1, in row 1 of family 7. -/
def signIn : ℕ → Operation
  | 0 => .login "ada@example.com" "old"
  | _ => .idle

def signedIn : Config ℕ Error Request Request.Reply State Unit :=
  (system plainSetup).after (launch plainSetup signIn (plainState (oneRow 5 sampleUser)))
    [.run 0 {}, .run 0 { bytes := List.replicate 64 1 }, .run 0 { number := 7 },
      .run 0 { fresh := 1 }, .run 0 {}]

theorem signedIn_reached : (system plainSetup).Reaches .any
    (launch plainSetup signIn (plainState (oneRow 5 sampleUser))) signedIn :=
  .of_schedule (fun l _ _ _ => Machine.keeps_any l) (by decide +kernel)

theorem signedIn_quiet (i : ℕ) : signedIn.shared.db.refreshTokens.pending i = none :=
  Table.pending_eq_none_of_ids (by decide +kernel) i

end ExpressCore.Session
