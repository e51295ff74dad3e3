import ExpressCore.Model.Auth
import ExpressCore.Verification.System.Interference

/-! # The protocol of refresh sessions

What a thread makes sure of before each request that changes the refresh tokens. The programs
are shown to keep to it one by one; what holds across all interleavings is derived from it
alone. -/

namespace ExpressCore.Session

open ReadCommitted Interleaving

/-- The conditions of the two revocations: a family, or all sessions of a user. -/
def Revokes : RefreshTokenWhere → Prop
  | .family _ _ => True
  | .user _ => True
  | _ => False

instance : DecidablePred Revokes
  | .family _ _ => isTrue trivial
  | .user _ => isTrue trivial
  | .token _ => isFalse id
  | .unrotated _ => isFalse id
  | .expired _ => isFalse id
  | .ids _ => isFalse id

/-- Thread `t` has no uncommitted change of the refresh tokens. -/
def Clean (t : ℕ) (s : State) : Prop :=
  ∀ i version, s.db.refreshTokens.pending i ≠ some (t, version)

/-- Thread `t` has not committed a change of the refresh tokens. -/
def Silent (t : ℕ) (s : State) : Prop :=
  ∀ e ∈ s.db.refreshTokens.log, e.1 ≠ t

/-- Every uncommitted change of thread `t` is a deletion. -/
def Deleting (t : ℕ) (s : State) : Prop :=
  ∀ i version, s.db.refreshTokens.pending i = some (t, version) → version = none

/-- The token of row `i` has expired. -/
def Lapsed (s : State) (i : ℕ) : Prop :=
  ∀ r, s.db.refreshTokens.committed i = some r →
    ∃ e ∈ s.db.refreshTokens.log, ∃ r', e.2.2 = some r' ∧ r'.token = r.token ∧
      r'.expiresAt ≤ s.clock

/-- The revocations that `t` has reported a pass of satisfy `p`. -/
def Tagged (t : ℕ) (p : RefreshTokenWhere → Prop) (s : State) : Prop :=
  ∀ x ∈ s.db.tags, x.1 = t → Revokes x.2.1 → p x.2.1

/-- Row `i` was committed with a version that satisfies `w`. -/
def Satisfied (w : RefreshTokenWhere) (i : ℕ) (log : List (ℕ × ℕ × Option RefreshToken)) : Prop :=
  ∃ e ∈ log, e.2.1 = i ∧ ∃ r, e.2.2 = some r ∧ Condition.holds w i r = true

/-- Whatever thread `t` deletes or has deleted satisfies `w`. -/
def Filtered (t : ℕ) (w : RefreshTokenWhere) (s : State) : Prop :=
  ∀ i, s.db.refreshTokens.pending i = some (t, none) ∨ (t, i, none) ∈ s.db.refreshTokens.log →
    Satisfied w i s.db.refreshTokens.log

/-- Thread `t` has erased every row that satisfies `w` and had been committed by some moment,
and deletes no other row. -/
def Closed (t : ℕ) (w : RefreshTokenWhere) (s : State) : Prop :=
  ∃ past, past <+: s.db.refreshTokens.log ∧
    (∀ i, s.db.refreshTokens.pending i = some (t, none) → Satisfied w i past) ∧
    ∀ e ∈ past, ∀ r, e.2.2 = some r → Condition.holds w e.2.1 r = true →
      s.db.refreshTokens.Erased t e.2.1

variable (setup : Setup) (traced : Prop) (opens : ℕ → Prop)

/-- The lifetime of a refresh token. -/
def lifetime : Time := setup.env.refreshTokenExpiresDays * 86400000

/-- The ciphertext `c` seals token `y` under token `x`. -/
def Seals (x y : String) (c : Bytes) : Prop :=
  ∃ iv : Bytes, iv.length = IV_BYTES ∧ c = sealWith setup iv x (hashToken setup x) y

/-- The token `x` was presented before `now`, which is over. -/
def Presented (x : String) (now : Time) (s : State) : Prop :=
  x ∈ s.seen ∧ (traced → now ≤ s.clock ∧
    ∀ z ∈ s.minted, hashToken setup z.2.1 = hashToken setup x → z.2.2 ≤ now)

/-- What a rotation works with: the token presented, the time it started at, the token it drew
and that token sealed. -/
structure Drew (t : ℕ) (x : String) (now : Time) (y : String) (m : Time) (c : Bytes)
    (s : State) : Prop where
  presented : Presented setup traced x now s
  minted : (t, y, m) ∈ s.minted
  after : traced → now ≤ m
  sealed : Seals setup x y c

/-- The claim of a rotation. -/
structure MayClaim (t i : ℕ) (w : RefreshTokenWhere) (now : Time) (c : Bytes) (s : State) :
    Prop where
  clean : Clean t s
  silent : Silent t s
  unrotated : w = .unrotated i
  drew : ∃ x y m, Drew setup traced t x now y m c s ∧
    ∀ r, s.db.refreshTokens.Version i r → r.token = hashToken setup x ∧ now < r.expiresAt

/-- The first row of a family, `row`, has the token `y` that `t` drew at `m`. -/
def Opening (t : ℕ) (y : String) (m : Time) (row : RefreshToken) (s : State) : Prop :=
  (t, y, m) ∈ s.minted ∧ (t, row.familyId) ∈ s.families ∧
    row = { token := hashToken setup y, userId := row.userId, familyId := row.familyId
            expiresAt := m + lifetime setup, rotatedAt := none, successorCiphertext := none }

/-- `row` succeeds `r` with the token `y` that was drawn at the rotation of `r`. -/
def Succession (now : Time) (y : String) (r row : RefreshToken) : Prop :=
  row = { token := hashToken setup y, userId := r.userId, familyId := r.familyId
          expiresAt := now + lifetime setup, rotatedAt := none, successorCiphertext := none }

/-- The first row of a new family. -/
structure MayOpen (t : ℕ) (row : RefreshToken) (s : State) : Prop where
  opens : opens t
  clean : Clean t s
  silent : Silent t s
  drawn : ∃ y m, Opening setup t y m row s

/-- The successor of a claimed row. -/
structure MaySucceed (t : ℕ) (row : RefreshToken) (s : State) : Prop where
  silent : Silent t s
  claimed : ∃ i r x now y m c, s.db.refreshTokens.pending i = some (t, some r) ∧
    (∀ j version, s.db.refreshTokens.pending j = some (t, version) → j = i) ∧
    r.rotatedAt = some now ∧ r.successorCiphertext = some c ∧ r.token = hashToken setup x ∧
    Drew setup traced t x now y m c s ∧ Succession setup now y r row

/-- A deletion: of a row the running revocation selected, or of an expired one. -/
structure MayDelete (t i : ℕ) (w : RefreshTokenWhere) (s : State) : Prop where
  deleting : Deleting t s
  revoked : Revokes w → Tagged t (· = w) s ∧
    ∃ rows r, s.db.changing t = some (w, rows) ∧ (i, r) ∈ rows
  expired : ¬ Revokes w → Tagged t (fun _ => False) s ∧ (traced → Lapsed s i)

/-- The end of a pass of a revocation: it has visited every row it selected. -/
structure Passed (t : ℕ) (w : RefreshTokenWhere) (count : ℕ) (s : State) : Prop where
  tagged : Tagged t (· = w) s
  filtered : Filtered t w s
  erased : ∃ rows, s.db.changing t = some (w, rows) ∧ ∀ x ∈ rows,
    s.db.refreshTokens.Erased t x.1 ∧
      (count = 0 → s.db.refreshTokens.pending x.1 ≠ some (t, none))

/-- A commit: with a claim its successor, and with a deletion all it was meant to delete. -/
structure MayCommit (t : ℕ) (s : State) : Prop where
  claimed : ∀ i r, s.db.refreshTokens.pending i = some (t, some r) → r.rotatedAt ≠ none →
    ∃ j r', s.db.refreshTokens.pending j = some (t, some r') ∧ r'.rotatedAt = none
  closed : traced → (∀ i, s.db.refreshTokens.pending i = some (t, none) → Lapsed s i) ∨
    ∃ w, Revokes w ∧ Closed t w s

/-- The guard of a request. Only the threads that satisfy `opens` may start families. -/
def guard : Guard
  | t, .sql (.refreshTokens (.scan w)), s => Revokes w → Deleting t s
  | t, .sql (.refreshTokens (.visit i w (.rotate now c))), s => MayClaim setup traced t i w now c s
  | t, .sql (.refreshTokens (.visit i w .delete)), s => MayDelete traced t i w s
  | t, .sql (.refreshTokens (.insert row)), s =>
      MayOpen setup opens t row s ∨ MaySucceed setup traced t row s
  | _, .sql (.refreshTokens (.visitUnlocked _ _ _)), _ => False
  | _, .sql (.refreshTokens (.upsert _ _ _ _)), _ => False
  | t, .sql (.deleted db w count), s =>
      (Revokes w → Passed t w count s) ∧ (db = .prisma → MayCommit traced t s)
  | t, .sql (.complete .prisma), s => MayCommit traced t s
  | t, .sql .commit, s => MayCommit traced t s
  | t, .sql (.logActivity .prisma _), s => MayCommit traced t s
  | _, _, _ => True

end ExpressCore.Session
