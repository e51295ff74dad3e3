import ExpressCore.Verification.Session.Revocation

/-! # Rotations keep to the protocol -/

namespace ExpressCore.Session

open ReadCommitted Interleaving Interleaving.Program

variable {setup : Setup} {traced : Prop} {opens : ℕ → Prop} {A : Assumption ℕ Request State} {t : ℕ}

/-- Before a thread has touched the sessions. -/
structure Fresh (t : ℕ) (s : State) : Prop where
  clean : Clean t s
  silent : Silent t s
  untagged : Tagged t (fun _ => False) s

/-- A thread whose revocations are through and that has no uncommitted changes. -/
structure Settled (t : ℕ) (s : State) : Prop where
  told : Told t s
  clean : Clean t s

/-- A thread that may commit, and whose revocations are through. -/
structure Ready (traced : Prop) (t : ℕ) (s : State) : Prop where
  mayCommit : MayCommit traced t s
  told : Told t s

theorem Steady.fresh : Steady setup traced t (Fresh t) :=
  fun s s' hs hs' hmove h =>
    ⟨Steady.clean s s' hs hs' hmove h.clean, Steady.silent s s' hs hs' hmove h.silent,
      Steady.tagged _ s s' hs hs' hmove h.untagged⟩

theorem Steady.settled : Steady setup traced t (Settled t) :=
  fun s s' hs hs' hmove h =>
    ⟨Steady.told s s' hs hs' hmove h.told, Steady.clean s s' hs hs' hmove h.clean⟩

theorem Steady.mayCommit : Steady setup traced t (MayCommit traced t) := by
  intro s s' hs hs' hmove h
  refine ⟨fun i r hi hrotated => ?_, fun htraced => ?_⟩
  · obtain ⟨j, r', hj, hr'⟩ := h.claimed i r ((hmove.rows.own i _).mp hi) hrotated
    exact ⟨j, r', (hmove.rows.own j _).mpr hj, hr'⟩
  · rcases h.closed htraced with hlapsed | ⟨w, hw, hclosed⟩
    · exact .inl (Steady.lapsed htraced s s' hs hs' hmove hlapsed)
    · exact .inr ⟨w, hw, Steady.closed w s s' hs hs' hmove hclosed⟩

theorem Steady.ready : Steady setup traced t (Ready traced t) :=
  fun s s' hs hs' hmove h =>
    ⟨Steady.mayCommit s s' hs hs' hmove h.mayCommit, Steady.told s s' hs hs' hmove h.told⟩

theorem Tagged.told {s : State} (h : Tagged t (fun _ => False) s) : Told t s :=
  fun x hx hxt hw => (h x hx hxt hw).elim

theorem Clean.mayCommit {s : State} (h : Clean t s) : MayCommit traced t s :=
  ⟨fun i _ hi => (h i _ hi).elim, fun _ => .inl fun i hi => (h i _ hi).elim⟩

theorem Fresh.ready {s : State} (h : Fresh t s) : Ready traced t s :=
  ⟨h.clean.mayCommit, h.untagged.told⟩

theorem Fresh.passing {s : State} {db : Client} {w : RefreshTokenWhere} (h : Fresh t s) :
    Passing t db w s where
  deleting := h.clean.deleting
  closed := h.clean.closed
  tagged x hx hxt hw := (h.untagged x hx hxt hw).elim
  filtered i hi := hi.elim (fun hi => (h.clean i _ hi).elim) fun hi => (h.silent _ hi rfl).elim
  clean _ := h.clean

theorem Passing.told {s : State} {db : Client} {w : RefreshTokenWhere} (h : Passing t db w s)
    (htag : (t, w, 0) ∈ s.db.tags) : Told t s := by
  intro x hx hxt hrevokes
  have heq : x.2.1 = w := h.tagged x hx hxt hrevokes
  exact heq ▸ htag

/-- A thread that revokes nothing but `w`, which is through. -/
theorem Passing.ready {s : State} {db : Client} {w : RefreshTokenWhere} (hw : Revokes w)
    (h : Passing t db w s) (htag : (t, w, 0) ∈ s.db.tags) : Ready traced t s :=
  ⟨h.deleting.mayCommit hw h.closed, h.told htag⟩

theorem Ready.outcome {s : State} (h : Ready traced t s) (e : Error) : Outcome t e s :=
  .inr (.inr h.told)

theorem Settled.outcome {s : State} (h : Settled t s) (e : Error) : Outcome t e s :=
  .inr (.inr h.told)

theorem Fresh.outcome {s : State} (h : Fresh t s) (e : Error) : Outcome t e s :=
  .inr (.inr h.untagged.told)

/-- A whole revocation, from a thread that has done nothing before it. -/
theorem revoke_conforms {db : Client} {w : RefreshTokenWhere} (hw : Revokes w) :
    Conforms setup traced opens A t (fun _ => Ready traced t) (Outcome t) (revokeRefreshTokens db w)
      (Fresh t) :=
  ((revokeRefreshTokens_conforms hw).mono (fun _ _ _ h => h.1.ready hw h.2) fun _ => .refl).weaken
    fun _ _ h => h.passing

/-- On the shared client every pass of it has been committed. -/
theorem revokeAlone_conforms {w : RefreshTokenWhere} (hw : Revokes w) :
    Conforms setup traced opens A t (fun _ => Settled t) (Outcome t) (revokeRefreshTokens .prisma w)
      (Fresh t) :=
  ((revokeRefreshTokens_conforms hw).mono (fun _ _ _ h => ⟨h.1.told h.2, h.1.clean rfl⟩)
    fun _ => .refl).weaken fun _ _ h => h.passing

/-! ## Reads -/

/-- A read found row `i` of token `h` as `r`. -/
structure Found (h : String) (i : ℕ) (r : RefreshToken) (s : State) : Prop where
  token : r.token = h
  known : Known i r s
  logged : ∃ u, (u, i, some r) ∈ s.db.refreshTokens.log

theorem Steady.found (h : String) (i : ℕ) (r : RefreshToken) :
    Steady setup traced t (Found h i r) := by
  intro s s' hs hs' hmove hfound
  refine ⟨hfound.token, Steady.known i r s s' hs hs' hmove hfound.known, ?_⟩
  obtain ⟨u, hu⟩ := hfound.logged
  exact ⟨u, hmove.log.subset hu⟩

theorem Found.tokenLapsed {s : State} {h : String} {i : ℕ} {r : RefreshToken} {now : Time}
    (hfound : Found h i r s) (hexpires : r.expiresAt ≤ now)
    (hnow : now ≤ s.clock) : TokenLapsed h s := by
  obtain ⟨u, hu⟩ := hfound.logged
  exact ⟨_, hu, r, rfl, hfound.token, Nat.le_trans hexpires hnow⟩

theorem findRefreshToken_conforms {P : State → Prop} (hP : Steady setup traced t P)
    (hclean : ∀ s, P s → Clean t s) (h : String) :
    Conforms setup traced opens A t
      (fun reply s => P s ∧ ∀ x ∈ reply, Found h x.1 x.2 s) (Outcome t)
      (findRefreshToken h) P := by
  have hpost (reply : Option (ℕ × RefreshToken)) : Steady setup traced t fun s =>
      P s ∧ ∀ x ∈ reply, Found h x.1 x.2 s :=
    hP.and fun s s' hs hs' hmove hfound x hx =>
      Steady.found h x.1 x.2 s s' hs hs' hmove (hfound x hx)
  refine .send hP.stable ?_ fun reply => (hpost reply).stable
  refine conformance_answers (fun _ _ _ _ => trivial) fun s o reply s' hs _ hp hexec => ?_
  have hmove : Unmoved setup traced t s s' :=
    .of_neutral (r := .sql (.refreshTokens (.find (.token h)))) trivial hexec
  have hs' := hs.exec hexec
  refine ⟨hP s s' hs hs' hmove hp, fun x hx => ?_⟩
  obtain rfl := Option.mem_def.mp hx
  obtain ⟨T, haccess, -⟩ := exec_request hexec
  obtain ⟨-, hview, hholds⟩ := exec_find_some haccess
  refine Steady.found h x.1 x.2 s s' hs hs' hmove ⟨by simpa [Condition.holds] using hholds,
    ⟨Table.mem_of_view hview, fun r' hr' => ?_⟩, ?_⟩
  · exact hs.coherent _ _ _ (.inl (version_of_view hview)) (.inl hr')
  · obtain ⟨e, he, heq⟩ :=
      hs.logged _ _ ((hclean s hp).deleting.committed_of_view hview)
    exact ⟨e.1, by rw [← heq]; exact he⟩

/-- The walk along the successors only reads. -/
theorem latestSuccessor_neutral (now : Time) (token : String) (current : RefreshToken)
    (hops : ℕ) : (latestSuccessor setup now token current hops).Uses Neutral := by
  induction hops generalizing token current with
  | zero => trivial
  | succ hops ih =>
      unfold latestSuccessor
      split
      · trivial
      · refine .bind (by simp [findRefreshToken, refreshTokens, Neutral, NeutralSql])
          fun found => ?_
        split
        · trivial
        · split
          · trivial
          · split
            · trivial
            · exact ih _ _

theorem reuseOrSuccessor_conforms (now : Time) (token : String) (record : RefreshToken)
    (rotatedAt : Time) :
    Conforms setup traced opens A t (fun _ => Ready traced t) (Outcome t)
      (reuseOrSuccessor setup now token record rotatedAt) (Fresh t) := by
  unfold reuseOrSuccessor
  split
  · exact .bind (revoke_conforms (w := .family record.userId record.familyId) trivial) fun _ =>
      .pure Steady.ready.stable .refl
  · exact (meets_neutral Steady.fresh (latestSuccessor_neutral now token record _)).mono
      (fun _ s _ h => h.ready) fun e s _ h => h.outcome e

/-! ## The claim -/

variable {x y : String} {now m : Time} {c : Bytes} {i : ℕ} {record : RefreshToken}

/-- Before the claim of row `i`, read as `record`. -/
structure Claiming (setup : Setup) (traced : Prop) (t : ℕ) (x : String) (now : Time) (y : String)
    (m : Time) (c : Bytes) (i : ℕ) (record : RefreshToken) (s : State) : Prop where
  fresh : Fresh t s
  drew : Drew setup traced t x now y m c s
  found : Found (hashToken setup x) i record s
  unexpired : now < record.expiresAt

/-- After the claim: the rotated row is the only one the thread has locked. -/
structure Claimed (setup : Setup) (traced : Prop) (t : ℕ) (x : String) (now : Time) (y : String)
    (m : Time) (c : Bytes) (i : ℕ) (record : RefreshToken) (s : State) : Prop where
  silent : Silent t s
  untagged : Tagged t (fun _ => False) s
  drew : Drew setup traced t x now y m c s
  token : record.token = hashToken setup x
  claimed : ∃ r, record.SameIssue r ∧
    s.db.refreshTokens.pending i =
      some (t, some { r with rotatedAt := some now, successorCiphertext := some c })
  only : ∀ j version, s.db.refreshTokens.pending j = some (t, version) → j = i

theorem Steady.claiming :
    Steady setup traced t (Claiming setup traced t x now y m c i record) :=
  fun s s' hs hs' hmove h =>
    ⟨Steady.fresh s s' hs hs' hmove h.fresh, Lasting.drew _ _ _ _ _ s s' hmove.toLater h.drew,
      Steady.found _ _ _ s s' hs hs' hmove h.found, h.unexpired⟩

theorem Steady.claimed :
    Steady setup traced t (Claimed setup traced t x now y m c i record) := by
  intro s s' hs hs' hmove h
  obtain ⟨r, hsame, hpending⟩ := h.claimed
  exact ⟨Steady.silent s s' hs hs' hmove h.silent, Steady.tagged _ s s' hs hs' hmove h.untagged,
    Lasting.drew _ _ _ _ _ s s' hmove.toLater h.drew, h.token,
    ⟨r, hsame, Steady.pending i _ s s' hs hs' hmove hpending⟩,
    Steady.only i s s' hs hs' hmove h.only⟩

theorem Claiming.mayClaim {s : State} (h : Claiming setup traced t x now y m c i record s) :
    MayClaim setup traced t i (.unrotated i) now c s where
  clean := h.fresh.clean
  silent := h.fresh.silent
  unrotated := rfl
  drew := by
    refine ⟨x, y, m, h.drew, fun r hr => ?_⟩
    obtain ⟨htoken, -, -, hexpires⟩ := h.found.known.2 r hr
    exact ⟨htoken.trans h.found.token, hexpires ▸ h.unexpired⟩

/-- The visit of the claimed row. -/
theorem claimVisit_conforms :
    Conforms setup traced opens A t
      (fun reply s => (reply.isSome → Claimed setup traced t x now y m c i record s) ∧
        (reply = none → Claiming setup traced t x now y m c i record s)) (Outcome t)
      (refreshTokens (.visit i (.unrotated i) (.rotate now c)))
      (Claiming setup traced t x now y m c i record) := by
  have hpost (reply : Option RefreshToken) : Steady setup traced t fun s =>
      (reply.isSome → Claimed setup traced t x now y m c i record s) ∧
        (reply = none → Claiming setup traced t x now y m c i record s) :=
    .and (.imp fun _ => .claimed) (.imp fun _ => .claiming)
  refine .send Steady.claiming.stable ?_ fun reply => (hpost reply).stable
  refine conformance_answers (fun s _ _ h => h.mayClaim) fun s o reply s' _ _ h hexec => ?_
  obtain ⟨-, ⟨old, hview, -, rfl, rfl⟩ | ⟨-, rfl, rfl⟩⟩ := exec_visit_request hexec
  · refine ⟨fun _ => ⟨h.fresh.silent, h.fresh.untagged,
      Lasting.drew _ _ _ _ _ _ _ (.of_moves (.exec hexec)) h.drew, h.found.token, ?_, ?_⟩, by simp⟩
    · exact ⟨old, h.found.known.2 old (version_of_view hview), by simp [Change.apply]⟩
    · intro j version hj
      rcases Table.write_pending hj with ⟨heq, -⟩ | ⟨-, hj⟩
      · exact heq
      · exact (h.fresh.clean j version hj).elim
  · exact ⟨by simp, fun _ => h⟩

/-- The scan of the claim selects at most the row it is about. -/
theorem claimScan_conforms :
    Conforms setup traced opens A t
      (fun rows s => (rows = [] ∨ ∃ r, rows = [(i, r)]) ∧
        Claiming setup traced t x now y m c i record s) (Outcome t)
      (refreshTokens (.scan (.unrotated i)))
      (Claiming setup traced t x now y m c i record) := by
  refine .send Steady.claiming.stable ?_ fun rows => ((Steady.const _).and .claiming).stable
  have hw : ¬ Revokes (.unrotated i) := by simp [Revokes]
  refine conformance_answers (fun _ _ _ _ hrevokes => (hw hrevokes).elim)
    fun s o rows s' hs _ h hexec => ?_
  have hmove : Unmoved setup traced t s s' :=
    .of_neutral (r := .sql (.refreshTokens (.scan (.unrotated i)))) hw hexec
  refine ⟨?_, Steady.claiming s s' hs (hs.exec hexec) hmove h⟩
  obtain ⟨T, haccess, -⟩ := exec_request hexec
  have hnodup := exec_scan_nodup haccess
  have hid (z : ℕ × RefreshToken) (hz : z ∈ rows) : z.1 = i := by
    obtain ⟨-, hholds⟩ := ((exec_scan haccess).2 z).mp hz
    simp only [Condition.holds, Bool.and_eq_true, beq_iff_eq] at hholds
    exact hholds.1
  cases rows with
  | nil => exact .inl rfl
  | cons z rest =>
      cases rest with
      | nil => exact .inr ⟨z.2, by rw [← hid z (.head _)]⟩
      | cons z' _ => simp [hid z (.head _), hid z' (.tail _ (.head _))] at hnodup

theorem completeTx_neutral : (statement (.complete .tx)).Uses Neutral := by
  simp [Neutral, NeutralSql]

theorem markRefreshTokenRotated_conforms :
    Conforms setup traced opens A t
      (fun claimed s => (claimed = true → Claimed setup traced t x now y m c i record s) ∧
        (claimed = false → Claiming setup traced t x now y m c i record s)) (Outcome t)
      (markRefreshTokenRotated .tx i c now) (Claiming setup traced t x now y m c i record) := by
  unfold markRefreshTokenRotated changeMany
  have hpost (changed : List (ℕ × RefreshToken)) : Steady setup traced t fun s =>
      (changed.length = 1 → Claimed setup traced t x now y m c i record s) ∧
        (changed.length ≠ 1 → Claiming setup traced t x now y m c i record s) :=
    .and (.imp fun _ => .claimed) (.imp fun _ => .claiming)
  have hvisits (rows : List (ℕ × RefreshToken)) : Conforms setup traced opens A t
      (fun changed s => (changed.length = 1 → Claimed setup traced t x now y m c i record s) ∧
        (changed.length ≠ 1 → Claiming setup traced t x now y m c i record s)) (Outcome t)
      (visitAll refreshTokens (.unrotated i) (.rotate now c) rows) fun s =>
        (rows = [] ∨ ∃ r, rows = [(i, r)]) ∧ Claiming setup traced t x now y m c i record s := by
    refine .assume fun hrows => ?_
    rcases hrows with rfl | ⟨r, rfl⟩
    · exact .pure (hpost []).stable fun s _ h => ⟨by simp, fun _ => h⟩
    · refine .bind claimVisit_conforms fun reply => ?_
      exact .pure (hpost _).stable fun s _ h => by cases reply <;> simpa using h
  refine .bind (.bind claimScan_conforms fun rows => .bind (hvisits rows) fun changed =>
    meets_neutral_bind (hpost changed) completeTx_neutral ?_ fun _ =>
      .pure (hpost changed).stable .refl) fun changed => ?_
  · rintro e s ⟨hclaimed, hclaiming⟩
    by_cases hone : changed.length = 1
    · exact .inr (.inr (hclaimed hone).untagged.told)
    · exact .inr (.inr (hclaiming hone).fresh.untagged.told)
  · refine .pure (Steady.stable (.and (.imp fun _ => .claimed) (.imp fun _ => .claiming)))
      fun s _ h => ?_
    simpa using h

theorem Claimed.maySucceed {s : State} (h : Claimed setup traced t x now y m c i record s) :
    MaySucceed setup traced t
      { token := hashToken setup y, userId := record.userId, familyId := record.familyId
        expiresAt := now + lifetime setup, rotatedAt := none, successorCiphertext := none } s where
  silent := h.silent
  claimed := by
    obtain ⟨r, ⟨htoken, huser, hfamily, -⟩, hpending⟩ := h.claimed
    exact ⟨i, _, x, now, y, m, c, hpending, h.only, rfl, rfl, htoken.trans h.token, h.drew,
      by simp [Succession, huser, hfamily]⟩

/-- The winner of the claim inserts the successor. -/
theorem createSuccessor_conforms :
    Conforms setup traced opens A t (fun _ => Ready traced t) (Outcome t)
      (createRefreshToken .tx (hashToken setup y) record.userId (some record.familyId)
        (now + setup.env.refreshTokenExpiresDays * 86400000))
      (Claimed setup traced t x now y m c i record) := by
  simp only [createRefreshToken, create, Program.pure_eq, Program.ret_bind]
  have hinsert : Conforms setup traced opens A t (fun _ => Ready traced t) (Outcome t)
      (refreshTokens (.insert
        { token := hashToken setup y, userId := record.userId, familyId := record.familyId
          expiresAt := now + lifetime setup, rotatedAt := none, successorCiphertext := none }))
      (Claimed setup traced t x now y m c i record) := by
    refine .send Steady.claimed.stable ?_ fun _ => Steady.ready.stable
    refine conformance_answers (fun s _ _ h => .inr h.maySucceed) fun s o j s' _ _ h hexec => ?_
    obtain ⟨T, haccess, rfl⟩ := exec_request hexec
    obtain ⟨rfl, -, rfl⟩ := exec_insert haccess
    refine ⟨⟨fun _ _ _ _ => ⟨o.fresh, _, Table.write_pending_self, rfl⟩, fun _ => .inl ?_⟩,
      h.untagged.told⟩
    intro j hj
    rcases Table.write_pending hj with ⟨-, heq⟩ | ⟨-, hj⟩
    · cases heq
    · obtain ⟨r, -, hpending⟩ := h.claimed
      obtain rfl := h.only j none hj
      rw [hj] at hpending
      cases hpending
  refine .seq (fun _ => Ready traced t) ?_ fun _ => .pure Steady.ready.stable .refl
  refine .bind hinsert fun _ => ?_
  exact meets_neutral_bind Steady.ready completeTx_neutral (fun e s h => h.outcome e) fun _ =>
    .pure Steady.ready.stable .refl

/-! ## Rotations -/

/-- Between the read of a live record and the claim. -/
structure Rotating (setup : Setup) (traced : Prop) (t : ℕ) (x : String) (now : Time) (i : ℕ)
    (record : RefreshToken) (s : State) : Prop where
  fresh : Fresh t s
  presented : Presented setup traced x now s
  found : Found (hashToken setup x) i record s
  unexpired : now < record.expiresAt

theorem Steady.rotating : Steady setup traced t (Rotating setup traced t x now i record) :=
  fun s s' hs hs' hmove h =>
    ⟨Steady.fresh s s' hs hs' hmove h.fresh, Lasting.presented x now s s' hmove.toLater h.presented,
      Steady.found _ _ _ s s' hs hs' hmove h.found, h.unexpired⟩

/-- The values the rotation draws. -/
theorem generateToken_conforms (now : Time) {P : State → Prop} (hP : Steady setup traced t P)
    (hnow : traced → ∀ s, P s → now ≤ s.clock) :
    Conforms setup traced opens A t
      (fun z s => (traced → now ≤ z.2) ∧ P s ∧ (t, z.1, z.2) ∈ s.minted) (Outcome t)
      generateToken P := by
  refine .send hP.stable ?_ fun z =>
    ((Steady.const _).and (hP.and (Lasting.minted _).steady)).stable
  refine conformance_answers (fun _ _ _ _ => trivial) fun s o z s' hs _ h hexec => ?_
  have hp := hP s s' hs (hs.exec hexec) (.of_neutral (r := .generateToken) trivial hexec) h
  simp only [Request.exec] at hexec
  split at hexec <;> cases hexec
  exact ⟨fun htraced => hnow htraced s h, hp, .head _⟩

theorem sealSuccessor_conforms {P : State → Prop} (hP : Steady setup traced t P) :
    Conforms setup traced opens A t (fun c s => Seals setup x y c ∧ P s) (fun _ => P)
      (sealSuccessor setup x (hashToken setup x) y) P := by
  have hbytes : Conforms setup traced opens A t
      (fun (iv : Bytes) s => iv.length = IV_BYTES ∧ P s) (fun _ => P)
      (request (.randomBytes IV_BYTES)) P := by
    refine .send hP.stable ?_ fun _ => ((Steady.const _).and hP).stable
    refine conformance_answers (fun _ _ _ _ => trivial) fun s o iv s' hs _ h hexec => ?_
    refine ⟨?_, hP s s' hs (hs.exec hexec) (.of_neutral (r := .randomBytes IV_BYTES) trivial
      hexec) h⟩
    simp only [Request.exec] at hexec
    split at hexec <;> cases hexec
    assumption
  exact .bind hbytes fun iv => .pure ((Steady.const _).and hP).stable
    fun s _ h => ⟨⟨iv, h.1, rfl⟩, h.2⟩

theorem claimSuccessor_conforms :
    Conforms setup traced opens A t (fun _ => Ready traced t) (Outcome t)
      (claimSuccessor setup now x i record) (Rotating setup traced t x now i record) := by
  unfold claimSuccessor
  refine .bind (generateToken_conforms now Steady.rotating fun htraced s h =>
    (h.presented.2 htraced).1) fun z => .assume fun hafter => ?_
  have hdrawn : Steady setup traced t fun s =>
      Rotating setup traced t x now i record s ∧ (t, z.1, z.2) ∈ s.minted :=
    Steady.rotating.and (Lasting.minted _).steady
  refine .bind ((sealSuccessor_conforms (x := x) (y := z.1) hdrawn).mono (fun _ => .refl)
    fun e s _ h => h.1.fresh.outcome e) fun c => .assume fun hseals => ?_
  refine .seq (fun claimed s =>
    (claimed = true → Claimed setup traced t x now z.1 z.2 c i record s) ∧
      (claimed = false → Claiming setup traced t x now z.1 z.2 c i record s))
    (markRefreshTokenRotated_conforms.weaken fun s _ h =>
      ⟨h.1.fresh, ⟨h.1.presented, h.2, hafter, hseals⟩, h.1.found, h.1.unexpired⟩)
    fun claimed => ?_
  cases claimed with
  | true =>
      refine .bind (createSuccessor_conforms.weaken fun s _ h => h.1 rfl) fun _ => ?_
      exact .pure Steady.ready.stable .refl
  | false =>
      refine .bind ((findRefreshToken_conforms Steady.fresh (fun _ h => h.clean) _).weaken
        fun s _ h => (h.2 rfl).fresh) fun found => ?_
      split
      · exact .pure Steady.ready.stable fun s _ h => h.1.ready
      · split
        · exact .pure Steady.ready.stable fun s _ h => h.1.ready
        · exact (reuseOrSuccessor_conforms _ _ _ _).weaken fun s _ h => h.1

/-- The time a rotation starts at. -/
theorem now_conforms :
    Conforms setup traced opens A t
      (fun (now : Time) s => Fresh t s ∧ Presented setup traced x now s) (Outcome t)
      (request .now) fun s => Fresh t s ∧ x ∈ s.seen := by
  refine .send (Steady.fresh.and (Lasting.seen x).steady).stable ?_ fun now =>
    (Steady.fresh.and (Lasting.presented x now).steady).stable
  refine conformance_answers (fun _ _ _ _ => trivial) fun s o now s' hs _ h hexec => ?_
  cases hexec
  refine ⟨h.1, h.2, fun htraced => ⟨Nat.le_refl _, fun z hz _ => ?_⟩⟩
  exact hs.drawn.minted_clock htraced z hz

theorem rotateRefreshToken_conforms (token : String) :
    Conforms setup traced opens A t (fun _ => Ready traced t) (Outcome t)
      (rotateRefreshToken setup token) fun s => Fresh t s ∧ token ∈ s.seen := by
  unfold rotateRefreshToken
  refine .bind now_conforms fun now => ?_
  have hbefore : Steady setup traced t fun s => Fresh t s ∧ Presented setup traced token now s :=
    Steady.fresh.and (Lasting.presented token now).steady
  refine .bind (findRefreshToken_conforms hbefore (fun s h => h.1.clean) _) fun found => ?_
  split
  · exact .pure Steady.ready.stable fun s _ h => h.1.1.ready
  · rename_i i record
    split
    · rename_i hexpires
      exact .bind ((deleteRefreshToken_conforms _).weaken fun s _ h =>
        ⟨h.1.1.clean, h.1.1.untagged, fun htraced =>
          (h.2 _ rfl).tokenLapsed hexpires (h.1.2.2 htraced).1⟩) fun _ =>
        .pure Steady.ready.stable fun s _ h => ⟨h.mayCommit, h.told⟩
    · rename_i hunexpired
      split
      · exact claimSuccessor_conforms.weaken fun s _ h =>
          ⟨h.1.1, h.1.2, h.2 _ rfl, Nat.lt_of_not_le hunexpired⟩
      · exact (reuseOrSuccessor_conforms _ _ _ _).weaken fun s _ h => h.1.1

/-! ## Transactions -/

/-- The effect of the end of a transaction on the sessions. -/
theorem transaction_conforms {α : Type} {body : Service α} {P : State → Prop}
    (hP : Steady setup traced t P) (houtcome : ∀ e s, P s → Outcome t e s)
    (hbody : Conforms setup traced opens A t (fun _ => Ready traced t) (Outcome t) body P) :
    Conforms setup traced opens A t (fun _ => Settled t) (Outcome t) (transaction body) P := by
  have hbegin : (statement .begin).Uses Neutral := by simp [Neutral, NeutralSql]
  refine transaction_meets ((meets_neutral hP hbegin).mono (fun _ => .refl) fun e s _ h =>
    houtcome e s h) hbody (fun e => ?_) fun value => ?_
  · refine .seq (fun _ => Outcome t e) (.send (Steady.outcome e).stable ?_ fun _ =>
      (Steady.outcome e).stable) fun _ => .throw (Steady.outcome e).stable .refl
    refine conformance_answers (fun _ _ _ _ => trivial) fun s o _ s' _ _ h hexec => ?_
    cases hexec
    exact h
  · refine .seq (fun _ => Settled t) (.send Steady.ready.stable ?_ fun _ =>
      Steady.settled.stable) fun _ => .pure Steady.settled.stable .refl
    refine conformance_answers (fun s _ _ h => h.mayCommit) fun s o _ s' _ _ h hexec => ?_
    cases hexec
    unfold Db.finish
    split
    · exact ⟨h.told, clean_abortAll⟩
    · exact ⟨h.told, clean_commitAll⟩

theorem present_conforms (token : String) :
    Conforms setup traced opens A t (fun _ s => Fresh t s ∧ token ∈ s.seen) (Outcome t)
      (request (.present token)) (Fresh t) := by
  refine .send Steady.fresh.stable ?_ fun _ =>
    (Steady.fresh.and (Lasting.seen token).steady).stable
  refine conformance_answers (fun _ _ _ _ => trivial) fun s o _ s' hs _ h hexec => ?_
  refine ⟨Steady.fresh s s' hs (hs.exec hexec) (.of_neutral (r := .present token) trivial hexec)
    h, ?_⟩
  simp only [Request.exec] at hexec
  split at hexec <;> cases hexec
  exact .head _

theorem refreshAccessToken_conforms (token : String) :
    Conforms setup traced opens A t (fun _ => Settled t) (Outcome t)
      (refreshAccessToken setup token) (Fresh t) := by
  unfold refreshAccessToken
  split
  · exact .throw (Steady.outcome _).stable fun s _ h => h.outcome _
  · refine .bind (present_conforms token) fun _ => .bind (transaction_conforms
      (Steady.fresh.and (Lasting.seen token).steady) (fun e s h => h.1.outcome e)
      (rotateRefreshToken_conforms token)) fun outcome => ?_
    cases outcome with
    | issued userId refreshToken => exact .pure Steady.settled.stable .refl
    | _ => exact .throw (Steady.outcome _).stable fun s _ h => h.outcome _

end ExpressCore.Session
