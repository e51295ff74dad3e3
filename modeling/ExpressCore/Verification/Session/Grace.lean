import ExpressCore.Library.Evaluation
import ExpressCore.Model.Auth
import ExpressCore.Verification.System.Start

/-! # The walk to the latest successor

A rotated token that is presented within its grace window leads to the live token of its
chain, at most `MAX_SUCCESSOR_HOPS` rotations away, and changes nothing. -/

namespace ExpressCore.Grace

open ReadCommitted Interleaving

/-! ## Reading a row -/

/-- The state in which thread `t` has read the refresh tokens. -/
def looked (t : ℕ) (s : State) : State :=
  { s with db := { s.db with refreshTokens := s.db.refreshTokens.take t } }

theorem looked_looked (t : ℕ) (s : State) : looked t (looked t s) = looked t s := by
  simp [looked, Table.take]
  rfl

/-- Thread `t` can send statements, and the tokens it sees are unique. -/
structure Readable (t : ℕ) (s : State) : Prop where
  clean : s.db.poisoned t = false
  unique : ∀ id id' r r', s.db.refreshTokens.view t id = some r →
    s.db.refreshTokens.view t id' = some r' → r.token = r'.token → id = id'

theorem Readable.looked {t : ℕ} {s : State} (h : Readable t s) : Readable t (looked t s) :=
  ⟨h.clean, h.unique⟩

theorem eq_singleton_of_nodup {ι ρ : Type} {xs : List (ι × ρ)} {x : ι × ρ}
    (hnodup : (xs.map Prod.fst).Nodup) (hmem : x ∈ xs) (hall : ∀ y ∈ xs, y.1 = x.1) :
    xs = [x] := by
  cases xs with
  | nil => cases hmem
  | cons y ys =>
      cases ys with
      | nil => rw [List.mem_singleton.mp hmem]
      | cons z ys =>
          have hy := hall y (.head _)
          have hz := hall z (.tail _ (.head _))
          simp [hy, hz] at hnodup

variable {setup : Setup} {t : ℕ} {s s' : State}

/-- A statement that finds the row of a token. -/
theorem evaluates_findRefreshToken {α : Type} {hash : String} {id : ℕ} {r : RefreshToken}
    {rest : Option (ℕ × RefreshToken) → Service α} {result : Except Error α}
    (hread : Readable t s) (hview : s.db.refreshTokens.view t id = some r) (hr : r.token = hash) :
    (system setup).Evaluates t (findRefreshToken hash >>= rest) s result s' ↔
      (system setup).Evaluates t (rest (some (id, r))) (looked t s) result s' := by
  have hmatching : s.db.refreshTokens.matching t (RefreshTokenWhere.token hash) = [(id, r)] := by
    refine eq_singleton_of_nodup matching_keys_nodup (mem_matching.mpr ⟨hview, ?_⟩) fun y hy => ?_
    · simp [Condition.holds, hr]
    · obtain ⟨hy, htoken⟩ := mem_matching.mp hy
      simp only [Condition.holds, beq_iff_eq] at htoken
      exact hread.unique y.1 id y.2 r hy hview (htoken.trans hr.symm)
  have hfind (o : Oracle) (reply : Option (ℕ × RefreshToken)) (s₁ : State) :
      (system setup).exec t (Request.sql (.refreshTokens (.find (.token hash)))) o s =
        some (reply, s₁) ↔ o.pick = 0 ∧ reply = some (id, r) ∧ s₁ = looked t s := by
    simp only [system, Request.exec, Sql.exec, Access.exec, hmatching, Db.unlessPoisoned,
      hread.clean, Db.start]
    cases hpick : o.pick with
    | zero =>
        simp only [List.getElem?_cons_zero, Option.map_some, looked, true_and]
        constructor
        · intro h
          cases h
          exact ⟨rfl, rfl⟩
        · rintro ⟨rfl, rfl⟩
          rfl
    | succ n => simp
  refine Machine.evaluates_send_bind.trans ?_
  constructor
  · rintro ⟨o, reply, s₁, hexec, hrest⟩
    obtain ⟨-, rfl, rfl⟩ := (hfind o reply s₁).mp hexec
    exact hrest
  · intro h
    exact ⟨{}, _, _, (hfind {} _ _).mpr ⟨rfl, rfl, rfl⟩, h⟩

/-! ## Chains -/

/-- Tokens `0`, …, `k` of one family that thread `t` sees: each was rotated to the next one, the
last was not, none has expired, and token `0` is inside its grace window. -/
structure Chain (setup : Setup) (t k : ℕ) (token : ℕ → String) (row : ℕ → RefreshToken)
    (s : State) : Prop where
  readable : Readable t s
  stored : ∀ i ≤ k, ∃ id, s.db.refreshTokens.view t id = some (row i)
  hashed : ∀ i ≤ k, (row i).token = hashToken setup (token i)
  family : ∀ i ≤ k, (row i).userId = (row 0).userId ∧ (row i).familyId = (row 0).familyId
  rotated : ∀ i < k, (row i).rotatedAt.isSome
  opens : ∀ i < k, ∃ ciphertext, (row i).successorCiphertext = some ciphertext ∧
    openSuccessor setup (token i) (row i).token ciphertext = some (token (i + 1))
  live : (row k).rotatedAt = none
  rotations : ∀ i at₀ at₁, i + 1 < k → (row i).rotatedAt = some at₀ →
    (row (i + 1)).rotatedAt = some at₁ → at₀ ≤ at₁
  expiries : ∀ i < k, (row i).expiresAt ≤ (row (i + 1)).expiresAt
  unexpired : ∀ i ≤ k, s.clock < (row i).expiresAt
  grace : ∀ at₀, (row 0).rotatedAt = some at₀ →
    s.clock ≤ at₀ + setup.env.refreshGraceSeconds * 1000

variable {i k hops : ℕ} {token : ℕ → String} {row : ℕ → RefreshToken}
  {result : Except Error RotationOutcome}

theorem Chain.looked (h : Chain setup t k token row s) : Chain setup t k token row (looked t s) :=
  { h with readable := h.readable.looked }

/-- Every rotated token of the chain is inside its own grace window. -/
theorem Chain.grace_all (h : Chain setup t k token row s) (hi : i < k) {rotatedAt : Time}
    (hrotated : (row i).rotatedAt = some rotatedAt) :
    s.clock ≤ rotatedAt + setup.env.refreshGraceSeconds * 1000 := by
  induction i generalizing rotatedAt with
  | zero => exact h.grace rotatedAt hrotated
  | succ i ih =>
      obtain ⟨earlier, hearlier⟩ := Option.isSome_iff_exists.mp (h.rotated i (by omega))
      exact Nat.le_trans (ih (by omega) hearlier)
        (Nat.add_le_add_right (h.rotations i earlier rotatedAt hi hearlier hrotated) _)

/-- What the walk from token `i` ends with. -/
def outcome (k : ℕ) (token : ℕ → String) (row : ℕ → RefreshToken) (i hops : ℕ) :
    RotationOutcome :=
  if k - i ≤ hops then .issued (row k).userId (token k) else .invalid

/-- Every hop reads one row, and the walk goes on while that row is rotated. -/
theorem evaluates_latestSuccessor (h : Chain setup t k token row s) (hi : i < k)
    (hs : looked t s = s) :
    (system setup).Evaluates t (latestSuccessor setup s.clock (token i) (row i) hops) s result s' ↔
      result = .ok (outcome k token row i hops) ∧ s' = s := by
  induction hops generalizing i with
  | zero =>
      have hfar : ¬ k - i ≤ 0 := by omega
      rw [outcome, if_neg hfar]
      exact Machine.evaluates_pure
  | succ hops ih =>
      obtain ⟨ciphertext, hciphertext, hopens⟩ := h.opens i hi
      obtain ⟨id, hview⟩ := h.stored (i + 1) hi
      have hunexpired : ¬ (row (i + 1)).expiresAt ≤ s.clock :=
        Nat.not_le.mpr (h.unexpired (i + 1) hi)
      rw [latestSuccessor, hciphertext, Option.bind_some, hopens]
      dsimp only
      rw [evaluates_findRefreshToken h.readable hview (h.hashed (i + 1) hi), hs]
      dsimp only
      rw [if_neg hunexpired]
      by_cases hlast : i + 1 = k
      · have hnear : k - i ≤ hops + 1 := by omega
        rw [hlast, h.live, outcome, if_pos hnear]
        exact Machine.evaluates_pure
      · have hlt : i + 1 < k := by omega
        obtain ⟨rotatedAt, hrotated⟩ := Option.isSome_iff_exists.mp (h.rotated (i + 1) hlt)
        have hsame : outcome k token row i (hops + 1) = outcome k token row (i + 1) hops := by
          have hiff : k - i ≤ hops + 1 ↔ k - (i + 1) ≤ hops := by omega
          simp only [outcome, hiff]
        rw [hrotated, hsame]
        exact ih hlt

/-- What `rotateRefreshToken` does with the record of the token. -/
def presented (setup : Setup) (now : Time) (token : String) :
    Option (ℕ × RefreshToken) → Service RotationOutcome
  | none => pure .invalid
  | some (id, record) =>
      if record.expiresAt ≤ now then do
        let _ ← deleteRefreshToken .tx (hashToken setup token)
        pure .expired
      else
        match record.rotatedAt with
        | none => claimSuccessor setup now token id record
        | some rotatedAt => reuseOrSuccessor setup now token record rotatedAt

/-- Presenting token `i` of a chain. -/
theorem evaluates_rotateRefreshToken (h : Chain setup t k token row s) (hi : i < k) :
    (system setup).Evaluates t (rotateRefreshToken setup (token i)) s result s' ↔
      result = .ok (outcome k token row i MAX_SUCCESSOR_HOPS) ∧ s' = looked t s := by
  obtain ⟨id, hview⟩ := h.stored i (Nat.le_of_lt hi)
  obtain ⟨rotatedAt, hrotated⟩ := Option.isSome_iff_exists.mp (h.rotated i hi)
  have hunexpired : ¬ (row i).expiresAt ≤ s.clock :=
    Nat.not_le.mpr (h.unexpired i (Nat.le_of_lt hi))
  have hgrace : ¬ rotatedAt + setup.env.refreshGraceSeconds * 1000 < s.clock :=
    Nat.not_lt.mpr (h.grace_all hi hrotated)
  have hafter : (system setup).Evaluates t (findRefreshToken (hashToken setup (token i)) >>=
      presented setup s.clock (token i)) s result s' ↔
        result = .ok (outcome k token row i MAX_SUCCESSOR_HOPS) ∧ s' = looked t s := by
    rw [evaluates_findRefreshToken h.readable hview (h.hashed i (Nat.le_of_lt hi))]
    dsimp only [presented]
    rw [if_neg hunexpired, hrotated]
    dsimp only
    rw [reuseOrSuccessor, if_neg hgrace]
    exact evaluates_latestSuccessor h.looked hi (looked_looked t s)
  refine Machine.evaluates_send_bind.trans (Iff.trans ?_ hafter)
  constructor
  · rintro ⟨o, now, s₁, hexec, hrest⟩
    obtain ⟨rfl, rfl⟩ := Prod.mk.inj (Option.some.inj hexec)
    exact hrest
  · intro hrest
    exact ⟨{}, s.clock, s, rfl, hrest⟩

/-- Presenting a rotated token of a chain gives the live token when that is at most five
rotations away and is refused otherwise, and only records the reading. Whatever the walk from
the first token gives, every other rotated token gives. -/
theorem walk_latest (h : Chain setup t k token row s) (hi : i < k) :
    (∀ result s', (system setup).Evaluates t (rotateRefreshToken setup (token i)) s result s' ↔
      result = .ok (if k - i ≤ 5 then .issued (row k).userId (token k) else .invalid) ∧
        s' = looked t s) ∧
    ∀ userId refreshToken s₀,
      (system setup).Evaluates t (rotateRefreshToken setup (token 0)) s
        (.ok (.issued userId refreshToken)) s₀ →
      (system setup).Evaluates t (rotateRefreshToken setup (token i)) s
        (.ok (.issued userId refreshToken)) s₀ := by
  refine ⟨fun result s' => evaluates_rotateRefreshToken h hi,
    fun userId refreshToken s₀ hfirst => ?_⟩
  obtain ⟨hresult, rfl⟩ := (evaluates_rotateRefreshToken h (Nat.zero_lt_of_lt hi)).mp hfirst
  have hgiven := Except.ok.inj hresult
  unfold outcome at hgiven
  split at hgiven
  · rename_i hnear
    have hcloser : k - i ≤ MAX_SUCCESSOR_HOPS := by omega
    exact (evaluates_rotateRefreshToken h hi).mpr
      ⟨congrArg _ (hgiven.trans (if_pos hcloser).symm), rfl⟩
  · cases hgiven

/-! ## A chain of three tokens -/

def sampleToken (i : ℕ) : String := toHex [UInt8.ofNat i]

/-- Row `i` of the chain, rotated at time `i` to the next token unless it is the last. -/
def sampleRow (i : ℕ) : RefreshToken :=
  { token := sampleToken i, userId := 5, familyId := 7, expiresAt := 100
    rotatedAt := if i < 2 then some i else none
    successorCiphertext := if i < 2 then
      some (sealWith plainSetup (List.replicate IV_BYTES 0) (sampleToken i) (sampleToken i)
        (sampleToken (i + 1))) else none }

def chained : State :=
  { plainState .empty with
    db :=
      { (plainState .empty).db with
        refreshTokens := (((Table.empty.write 0 0 (some (sampleRow 0))).write 0 1
          (some (sampleRow 1))).write 0 2 (some (sampleRow 2))).commit 0 }
    clock := 10 }

theorem chained_rows {id : ℕ} {r : RefreshToken}
    (h : chained.db.refreshTokens.view 9 id = some r) : id ≤ 2 ∧ r = sampleRow id := by
  have hvisible : chained.db.refreshTokens.visible 9 =
      [(2, sampleRow 2), (1, sampleRow 1), (0, sampleRow 0)] := by decide +kernel
  have hmem := Table.mem_visible.mpr h
  rw [hvisible] at hmem
  simp only [List.mem_cons, Prod.mk.injEq, List.not_mem_nil, or_false] at hmem
  rcases hmem with ⟨rfl, rfl⟩ | ⟨rfl, rfl⟩ | ⟨rfl, rfl⟩ <;> exact ⟨by decide, rfl⟩

theorem chained_chain : Chain plainSetup 9 2 sampleToken sampleRow chained where
  readable :=
    { clean := rfl
      unique := fun id id' r r' h h' heq => by
        obtain ⟨hid, rfl⟩ := chained_rows h
        obtain ⟨hid', rfl⟩ := chained_rows h'
        have htokens : ∀ i ≤ 2, ∀ j ≤ 2, sampleToken i = sampleToken j → i = j := by decide +kernel
        exact htokens id hid id' hid' heq }
  stored := by
    have hstored : ∀ i ≤ 2, chained.db.refreshTokens.view 9 i = some (sampleRow i) := by
      decide +kernel
    exact fun i hi => ⟨i, hstored i hi⟩
  hashed _ _ := rfl
  family _ _ := ⟨rfl, rfl⟩
  rotated := by decide
  opens i hi := by
    have hopens : ∀ i < 2, openSuccessor plainSetup (sampleToken i) (sampleRow i).token
        (sealWith plainSetup (List.replicate IV_BYTES 0) (sampleToken i) (sampleToken i)
          (sampleToken (i + 1))) = some (sampleToken (i + 1)) := by decide +kernel
    exact ⟨_, if_pos hi, hopens i hi⟩
  live := rfl
  rotations i at₀ at₁ hi h₀ h₁ := by
    obtain rfl : i = 0 := by omega
    cases h₀
    cases h₁
    decide
  expiries _ _ := Nat.le_refl _
  unexpired _ _ := show 10 < 100 by decide
  grace at₀ h := by
    cases h
    decide

theorem walk_latest_chained : (system plainSetup).Evaluates 9
    (rotateRefreshToken plainSetup (sampleToken 0)) chained
    (.ok (.issued 5 (sampleToken 2))) (looked 9 chained) :=
  ((walk_latest chained_chain (i := 0) (by decide)).1 _ _).mpr ⟨rfl, rfl⟩

end ExpressCore.Grace
