import ExpressCore.Verification.Session.Steps

/-! # What the threads hold uncommitted

At any moment a thread holds deletions, or a claim, or a claim with the successor, or the first
row of a new family. That a family has one live row follows. -/

namespace ExpressCore.Session

open ReadCommitted Interleaving

/-- Thread `t` has claimed row `i`, which is live and committed as `r`. -/
structure Claims (setup : Setup) (traced : Prop) (t i : ℕ) (r : RefreshToken) (x : String)
    (now : Time) (y : String) (m : Time) (c : Bytes) (s : State) : Prop where
  silent : Silent t s
  drew : Drew setup traced t x now y m c s
  committed : s.db.refreshTokens.committed i = some r
  live : r.rotatedAt = none
  token : r.token = hashToken setup x
  pending : s.db.refreshTokens.pending i =
    some (t, some { r with rotatedAt := some now, successorCiphertext := some c })

/-- What thread `t` holds. -/
inductive Holding (setup : Setup) (traced : Prop) (t : ℕ) (s : State) : Prop where
  | deleting : Deleting t s → Holding setup traced t s
  | claiming (i : ℕ) (r : RefreshToken) (x : String) (now : Time) (y : String) (m : Time)
      (c : Bytes) : Claims setup traced t i r x now y m c s →
      (∀ k version, s.db.refreshTokens.pending k = some (t, version) → k = i) →
      Holding setup traced t s
  | succeeding (i : ℕ) (r : RefreshToken) (x : String) (now : Time) (y : String) (m : Time)
      (c : Bytes) (j : ℕ) (row : RefreshToken) : Claims setup traced t i r x now y m c s →
      j ≠ i → s.db.refreshTokens.pending j = some (t, some row) →
      s.db.refreshTokens.committed j = none → Succession setup now y r row →
      (∀ k version, s.db.refreshTokens.pending k = some (t, version) → k = i ∨ k = j) →
      Holding setup traced t s
  | opening (y : String) (m : Time) (j : ℕ) (row : RefreshToken) : Silent t s →
      Opening setup t y m row s → s.db.refreshTokens.pending j = some (t, some row) →
      s.db.refreshTokens.committed j = none →
      (∀ k version, s.db.refreshTokens.pending k = some (t, version) → k = j) →
      Holding setup traced t s

variable {setup : Setup} {traced : Prop} {opens : ℕ → Prop} {A : Assumption ℕ Request State}
  {t u : ℕ} {s s' : State}

theorem Silent.mono (h : Silent t s)
    (hrows : Undisturbed RefreshToken.SameIssue t s.db.refreshTokens s'.db.refreshTokens) :
    Silent t s' := by
  obtain ⟨others, heq, hothers⟩ := hrows.log
  intro e he
  rw [heq] at he
  exact (List.mem_append.mp he).elim (h e) (hothers e)

theorem Claims.mono {i : ℕ} {r : RefreshToken} {x : String} {now : Time} {y : String} {m : Time}
    {c : Bytes} (h : Claims setup traced t i r x now y m c s)
    (hrows : Undisturbed RefreshToken.SameIssue t s.db.refreshTokens s'.db.refreshTokens)
    (hlater : Later setup traced s s') : Claims setup traced t i r x now y m c s' where
  silent := h.silent.mono hrows
  drew := Lasting.drew _ _ _ _ _ s s' hlater h.drew
  committed := (hrows.kept i _ h.pending).trans h.committed
  live := h.live
  token := h.token
  pending := (hrows.own i _).mpr h.pending

theorem Opening.mono {y : String} {m : Time} {row : RefreshToken}
    (h : Opening setup t y m row s) (hlater : Later setup traced s s') :
    Opening setup t y m row s' :=
  ⟨Lasting.minted _ s s' hlater h.1, Lasting.families _ s s' hlater h.2.1, h.2.2⟩

theorem Holding.mono (h : Holding setup traced t s)
    (hrows : Undisturbed RefreshToken.SameIssue t s.db.refreshTokens s'.db.refreshTokens)
    (hlater : Later setup traced s s') : Holding setup traced t s' := by
  have hown (k : ℕ) (version : Option RefreshToken) := (hrows.own k version).mp
  cases h with
  | deleting h => exact .deleting fun k version hk => h k version (hown k version hk)
  | claiming i r x now y m c hclaims honly =>
      exact .claiming i r x now y m c (hclaims.mono hrows hlater) fun k version hk =>
        honly k version (hown k version hk)
  | succeeding i r x now y m c j row hclaims hne hpending hnone hrow honly =>
      exact .succeeding i r x now y m c j row (hclaims.mono hrows hlater) hne
        ((hrows.own j _).mpr hpending) ((hrows.kept j _ hpending).trans hnone) hrow
        fun k version hk => honly k version (hown k version hk)
  | opening y m j row hsilent hopening hpending hnone honly =>
      exact .opening y m j row (hsilent.mono hrows) (hopening.mono hlater)
        ((hrows.own j _).mpr hpending) ((hrows.kept j _ hpending).trans hnone)
        fun k version hk => honly k version (hown k version hk)

theorem Clean.holding (h : Clean t s) : Holding setup traced t s := .deleting h.deleting

/-! ## Steps on the table -/

theorem Effect.moves (h : Effect setup traced opens A t s s') :
    Moves RefreshTokenChange t s.db.refreshTokens s'.db.refreshTokens := by
  cases h with
  | idle htable => exact htable ▸ .same
  | find htable => exact htable ▸ .take
  | scan w _ htable => exact htable ▸ .take
  | claim i now c old _ hlocked hview _ htable =>
      exact htable ▸ .change i (RefreshTokenChange.rotate now c) old hlocked hview
  | insert j row _ hfresh htable => exact htable ▸ .insert j row hfresh
  | delete i w old _ _ hlocked hview _ htable =>
      exact htable ▸ .change i RefreshTokenChange.delete old hlocked hview
  | report w count _ htable => exact htable ▸ .same
  | commit _ htable => exact htable ▸ .commit
  | abort htable => exact htable ▸ .abort

/-- The step of another thread. -/
theorem Step.undisturbed (h : Step setup traced opens A u s s') (hne : t ≠ u) :
    Undisturbed RefreshToken.SameIssue t s.db.refreshTokens s'.db.refreshTokens :=
  (h.effect.moves.frame RefreshToken.SameIssue.refl RefreshToken.sameIssue_apply
    hne).toUndisturbed

theorem Clean.committed_of_view {i : ℕ} {r : RefreshToken} (h : Clean t s)
    (hview : s.db.refreshTokens.view t i = some r) :
    s.db.refreshTokens.committed i = some r :=
  h.deleting.committed_of_view hview

theorem Holding.insert {j : ℕ} {row : RefreshToken} (hfresh : j ∉ s.db.refreshTokens.ids)
    (hlater : Later setup traced s s') (hs : Holding setup traced t s)
    (hmay : MayOpen setup opens t row s ∨ MaySucceed setup traced t row s)
    (htable : s'.db.refreshTokens = s.db.refreshTokens.write t j (some row)) :
    Holding setup traced t s' := by
  have hnone : s'.db.refreshTokens.committed j = none := by
    rw [htable, Table.write_committed]
    by_contra hsome
    obtain ⟨r, hr⟩ := Option.ne_none_iff_exists'.mp hsome
    exact hfresh (s.db.refreshTokens.mem_of_committed j r hr)
  have hpending : s'.db.refreshTokens.pending j = some (t, some row) := by
    rw [htable, Table.write_pending_self]
  have hcases (k : ℕ) (version : Option RefreshToken)
      (hk : s'.db.refreshTokens.pending k = some (t, version)) :
      k = j ∨ s.db.refreshTokens.pending k = some (t, version) := by
    rw [htable] at hk
    exact (Table.write_pending hk).imp (fun h => h.1) fun h => h.2
  have hlog : s'.db.refreshTokens.log = s.db.refreshTokens.log := by
    rw [htable, Table.write_log]
  rcases hmay with hopen | hsucceed
  · obtain ⟨y, m, hdrawn⟩ := hopen.drawn
    refine .opening y m j row ?_ (hdrawn.mono hlater) hpending hnone fun k version hk => ?_
    · exact fun e he => hopen.silent e (hlog ▸ he)
    · exact (hcases k version hk).resolve_right fun hk => hopen.clean k version hk
  · obtain ⟨i, r', x, now, y, m, c, hi, honly, hnow, hc, htoken, hdrew, hrow⟩ := hsucceed.claimed
    have hne : j ≠ i := by
      rintro rfl
      exact hfresh (s.db.refreshTokens.mem_of_pending j _ hi)
    have hpendingi : s'.db.refreshTokens.pending i = some (t, some r') := by
      rw [htable, Table.write_pending_of_ne hne.symm, hi]
    cases hs with
    | deleting h => exact (h.claimed i r' hi).elim
    | claiming k r x' now' y' m' c' hclaims honly' =>
        obtain rfl := honly k _ hclaims.pending
        have heq := hclaims.pending.symm.trans hi
        simp only [Option.some.injEq, Prod.mk.injEq, true_and] at heq
        subst heq
        simp only [Option.some.injEq] at hnow hc
        subst hnow hc
        refine .succeeding k r x now' y m c' j row
          ⟨fun e he => hclaims.silent e (hlog ▸ he),
            Lasting.drew _ _ _ _ _ s s' hlater hdrew, ?_, hclaims.live, htoken, hpendingi⟩
          hne hpending hnone hrow fun l version hl => ?_
        · rw [htable, Table.write_committed, hclaims.committed]
        · exact (hcases l version hl).symm.imp_left fun hl => honly l version hl
    | succeeding k r x' now' y' m' c' l row' hclaims hne' hl =>
        exact (hne' ((honly l _ hl).trans (honly k _ hclaims.pending).symm)).elim
    | opening y' m' l row' _ hopening hl =>
        obtain rfl := honly l _ hl
        rw [hl] at hi
        cases hi
        rw [hopening.2.2] at hnow
        cases hnow

/-- What a thread holds after its own step. -/
theorem Holding.step (hs : Holding setup traced t s) (h : Step setup traced opens A t s s') :
    Holding setup traced t s' := by
  have hrefl : Undisturbed RefreshToken.SameIssue t s.db.refreshTokens s.db.refreshTokens :=
    .refl RefreshToken.SameIssue.refl
  cases h.effect with
  | idle htable => exact hs.mono (htable ▸ hrefl) h.later
  | find htable => exact hs.mono (htable ▸ .take RefreshToken.SameIssue.refl) h.later
  | scan w _ htable => exact hs.mono (htable ▸ .take RefreshToken.SameIssue.refl) h.later
  | report w count _ htable => exact hs.mono (htable ▸ hrefl) h.later
  | insert j row hmay hfresh htable => exact hs.insert hfresh h.later hmay htable
  | claim i now c old hmay _ hview hlive htable =>
      obtain ⟨x, y, m, hdrew, hversion⟩ := hmay.drew
      refine .claiming i old x now y m c ⟨fun e he => ?_, Lasting.drew _ _ _ _ _ s s' h.later hdrew,
        ?_, hlive, (hversion old (version_of_view hview)).1, ?_⟩ fun k version hk => ?_
      · rw [htable, Table.write_log] at he
        exact hmay.silent e he
      · rw [htable, Table.write_committed, hmay.clean.committed_of_view hview]
      · rw [htable, Table.write_pending_self]
      · rw [htable] at hk
        rcases Table.write_pending hk with ⟨heq, -⟩ | ⟨-, hk⟩
        · exact heq
        · exact (hmay.clean k version hk).elim
  | delete i w old hmay _ _ _ _ htable =>
      refine .deleting fun k version hk => ?_
      rw [htable] at hk
      rcases Table.write_pending hk with ⟨-, heq⟩ | ⟨-, hk⟩
      · exact (Prod.mk.inj heq).2
      · exact hmay.deleting k version hk
  | commit _ htable =>
      refine .deleting fun k version hk => ?_
      rw [htable] at hk
      exact ((Table.commit_pending.mp hk).2 rfl).elim
  | abort htable =>
      refine .deleting fun k version hk => ?_
      rw [htable] at hk
      exact ((Table.abort_pending.mp hk).2 rfl).elim

/-! ## Families -/

/-- Where a version after a step comes from. -/
theorem Step.record_cases {k : ℕ} {r : RefreshToken} (h : Step setup traced opens A t s s')
    (hr : s'.db.refreshTokens.Record k r) :
    s.db.refreshTokens.Record k r ∨ s'.db.refreshTokens.pending k = some (t, some r) ∧
      ((Clean t s ∧ s.db.refreshTokens.locked t k = false ∧
          ∃ old, s.db.refreshTokens.Record k old ∧ r.familyId = old.familyId) ∨
        MayOpen setup opens t r s ∨ MaySucceed setup traced t r s) := by
  cases h.effect with
  | idle htable => exact .inl (htable ▸ hr)
  | find htable =>
      rw [htable] at hr
      exact .inl hr
  | scan w _ htable =>
      rw [htable] at hr
      exact .inl hr
  | report w count _ htable => exact .inl (htable ▸ hr)
  | claim i now c old hmay hlocked hview hlive htable =>
      rw [htable] at hr ⊢
      rcases record_of_write hr with hr | ⟨rfl, heq⟩
      · exact .inl hr
      · refine .inr ⟨by rw [Table.write_pending_self, heq], .inl ⟨hmay.clean, hlocked, old,
          .inl (version_of_view hview), ?_⟩⟩
        rw [← Option.some.inj heq]
  | insert j row hmay hfresh htable =>
      rw [htable] at hr ⊢
      rcases record_of_write hr with hr | ⟨rfl, heq⟩
      · exact .inl hr
      · obtain rfl := Option.some.inj heq
        exact .inr ⟨Table.write_pending_self, .inr hmay⟩
  | delete i w old _ _ _ _ _ htable =>
      rw [htable] at hr
      rcases record_of_write hr with hr | ⟨-, heq⟩
      · exact .inl hr
      · cases heq
  | commit _ htable =>
      rw [htable] at hr
      exact .inl (record_of_commit hr)
  | abort htable =>
      rw [htable] at hr
      exact .inl (record_of_abort hr)

/-- The protocol's view of the session table: who holds what, one live row a family, and
families that belong to the thread that opens them until it commits. -/
structure Consistent (setup : Setup) (traced : Prop) (s : State) : Prop where
  holding : ∀ t, Holding setup traced t s
  single : ∀ i j r r', s.db.refreshTokens.committed i = some r →
    s.db.refreshTokens.committed j = some r' → r.rotatedAt = none → r'.rotatedAt = none →
    r.familyId = r'.familyId → i = j
  drawn : ∀ i r, s.db.refreshTokens.Record i r → ∃ u, (u, r.familyId) ∈ s.families
  unopened : ∀ i r, s.db.refreshTokens.Record i r → ∀ t, (t, r.familyId) ∈ s.families →
    Silent t s → s.db.refreshTokens.pending i = some (t, some r)

theorem Step.drawn (h : Step setup traced opens A t s s') (hs : Consistent setup traced s)
    {i : ℕ} {r : RefreshToken} (hr : s'.db.refreshTokens.Record i r) :
    ∃ u, (u, r.familyId) ∈ s'.families := by
  have hkept (u : ℕ) : (u, r.familyId) ∈ s.families → (u, r.familyId) ∈ s'.families :=
    Lasting.families _ s s' h.later
  rcases h.record_cases hr with hr | ⟨-, ⟨-, -, old, hold, heq⟩ | hopen | hsucceed⟩
  · obtain ⟨u, hu⟩ := hs.drawn i r hr
    exact ⟨u, hkept u hu⟩
  · obtain ⟨u, hu⟩ := hs.drawn i old hold
    exact ⟨u, hkept u (heq ▸ hu)⟩
  · obtain ⟨y, m, hdrawn⟩ := hopen.drawn
    exact ⟨t, hkept t hdrawn.2.1⟩
  · obtain ⟨k, r', x, now, y, m, c, hk, -, -, -, -, -, hrow⟩ := hsucceed.claimed
    obtain ⟨u, hu⟩ := hs.drawn k r' (.inl (.inr ⟨t, hk⟩))
    have heq : r.familyId = r'.familyId := by rw [hrow]
    exact ⟨u, hkept u (heq ▸ hu)⟩

/-- A family of a row was drawn before, so by the same thread as ever. -/
theorem Consistent.drawn_before (hs : Consistent setup traced s) (h : Later setup traced s s')
    (hs' : s'.WellFormed setup traced) {i v : ℕ} {r : RefreshToken}
    (hr : s.db.refreshTokens.Record i r) (hv : (v, r.familyId) ∈ s'.families) :
    (v, r.familyId) ∈ s.families := by
  obtain ⟨u, hu⟩ := hs.drawn i r hr
  have heq := hs'.drawn.families_inj _ (Lasting.families _ s s' h hu) _ hv rfl
  exact heq ▸ hu

theorem Step.silent_before (h : Later setup traced s s') {v : ℕ} (hv : Silent v s') : Silent v s :=
  fun e he => hv e (h.log.subset he)

/-- The only uncommitted row of a family that is not opened yet is its first row. -/
theorem Consistent.opening_of_unopened (hs : Consistent setup traced s) {i v : ℕ}
    {r : RefreshToken} (hr : s.db.refreshTokens.Record i r) (hv : (v, r.familyId) ∈ s.families)
    (hsilent : Silent v s) : s.db.refreshTokens.committed i = none := by
  have hpending := hs.unopened i r hr v hv hsilent
  have hclaimed {k : ℕ} {r' : RefreshToken} {x : String} {now : Time} {y : String} {m : Time}
      {c : Bytes} (hclaims : Claims setup traced v k r' x now y m c s)
      (heq : r.familyId = r'.familyId) : False := by
    have hk := hs.unopened k r' (.inl (.inl hclaims.committed)) v (heq ▸ hv) hsilent
    rw [hclaims.pending] at hk
    have hlive := hclaims.live
    simp only [Option.some.injEq, Prod.mk.injEq, true_and] at hk
    rw [← hk] at hlive
    cases hlive
  cases hs.holding v with
  | deleting h => exact (h.claimed i r hpending).elim
  | claiming k r' x now y m c hclaims honly =>
      obtain rfl := honly i _ hpending
      have heq := hclaims.pending.symm.trans hpending
      simp only [Option.some.injEq, Prod.mk.injEq, true_and] at heq
      exact (hclaimed hclaims (by rw [← heq])).elim
  | succeeding k r' x now y m c j row hclaims hne hj hnone hrow honly =>
      rcases honly i _ hpending with rfl | rfl
      · have heq := hclaims.pending.symm.trans hpending
        simp only [Option.some.injEq, Prod.mk.injEq, true_and] at heq
        exact (hclaimed hclaims (by rw [← heq])).elim
      · exact hnone
  | opening y m j row _ _ hj hnone honly =>
      obtain rfl := honly i _ hpending
      exact hnone

theorem Step.unopened (h : Step setup traced opens A t s s') (hs : Consistent setup traced s)
    (hwf : s.WellFormed setup traced) (hwf' : s'.WellFormed setup traced) {i v : ℕ}
    {r : RefreshToken} (hr : s'.db.refreshTokens.Record i r) (hv : (v, r.familyId) ∈ s'.families)
    (hsilent' : Silent v s') : s'.db.refreshTokens.pending i = some (v, some r) := by
  have hsilent := Step.silent_before h.later hsilent'
  rcases h.record_cases hr with hold | ⟨hpending, ⟨hclean, hlocked, old, hold, heq⟩ | hopen |
    hsucceed⟩
  · have hv := hs.drawn_before h.later hwf' hold hv
    have hpending := hs.unopened i r hold v hv hsilent
    by_cases hne : v = t
    · subst hne
      have hnone := hs.opening_of_unopened hold hv hsilent
      cases h.effect with
      | idle htable => rw [htable, hpending]
      | find htable => rw [htable, Table.take_pending, hpending]
      | scan w _ htable => rw [htable, Table.take_pending, hpending]
      | report w count _ htable => rw [htable, hpending]
      | claim k now c old hmay => exact (hmay.clean i _ hpending).elim
      | insert j row _ hfresh htable =>
          have hne : i ≠ j := by
            rintro rfl
            exact hfresh (s.db.refreshTokens.mem_of_pending i _ hpending)
          rw [htable, Table.write_pending_of_ne hne, hpending]
      | delete k w old hmay => exact (hmay.deleting.claimed i r hpending).elim
      | commit _ htable =>
          refine (hsilent' (v, i, some r) ?_ rfl).elim
          rw [htable, Table.commit_log]
          exact List.mem_append_right _ (Table.mem_writes.mpr ⟨rfl, hpending⟩)
      | abort htable =>
          rw [htable] at hr
          rcases hr with (hr | ⟨u, hr⟩) | ⟨u, hr⟩
          · rw [Table.abort_committed, hnone] at hr
            cases hr
          · obtain ⟨hr, hu⟩ := Table.abort_pending.mp hr
            rw [hpending] at hr
            cases hr
            exact (hu rfl).elim
          · exact (hwf.refreshTokens.unborn i _ hpending hnone _ hr rfl).elim
    · exact ((h.undisturbed hne).own i _).mpr hpending
  · have hv := hs.drawn_before h.later hwf' hold (heq ▸ hv)
    have hpendingi := hs.unopened i old hold v hv hsilent
    obtain rfl : v = t := Table.locked_eq_false.mp hlocked _ hpendingi
    exact (hclean i _ hpendingi).elim
  · obtain ⟨y, m, hdrawn⟩ := hopen.drawn
    have heq := hwf'.drawn.families_inj _ (Lasting.families _ s s' h.later hdrawn.2.1) _ hv rfl
    cases heq
    exact hpending
  · obtain ⟨k, r', x, now, y, m, c, hk, -, -, -, -, -, hrow⟩ := hsucceed.claimed
    have hrecord : s.db.refreshTokens.Record k r' := .inl (.inr ⟨t, hk⟩)
    have heq : r.familyId = r'.familyId := by rw [hrow]
    have hv := hs.drawn_before h.later hwf' hrecord (heq ▸ hv)
    have hk' := hs.unopened k r' hrecord v hv hsilent
    rw [hk] at hk'
    cases hk'
    exact hpending

/-- Only a commit changes the committed rows. -/
theorem Effect.committed (h : Effect setup traced opens A t s s') :
    (s'.db.refreshTokens.committed = s.db.refreshTokens.committed ∧
        s'.db.refreshTokens.log = s.db.refreshTokens.log) ∨
      MayCommit traced t s ∧ s'.db.refreshTokens = s.db.refreshTokens.commit t := by
  cases h with
  | idle htable => exact .inl ⟨by rw [htable], by rw [htable]⟩
  | find htable => exact .inl ⟨by rw [htable, Table.take_committed], by rw [htable, Table.take_log]⟩
  | scan w _ htable =>
      exact .inl ⟨by rw [htable, Table.take_committed], by rw [htable, Table.take_log]⟩
  | report w count _ htable => exact .inl ⟨by rw [htable], by rw [htable]⟩
  | claim i now c old _ _ _ _ htable =>
      exact .inl ⟨by rw [htable, Table.write_committed], by rw [htable, Table.write_log]⟩
  | insert j row _ _ htable =>
      exact .inl ⟨by rw [htable, Table.write_committed], by rw [htable, Table.write_log]⟩
  | delete i w old _ _ _ _ _ htable =>
      exact .inl ⟨by rw [htable, Table.write_committed], by rw [htable, Table.write_log]⟩
  | commit hmay htable => exact .inr ⟨hmay, htable⟩
  | abort htable =>
      exact .inl ⟨by rw [htable, Table.abort_committed], by rw [htable, Table.abort_log]⟩

/-- A live row after a commit was live before, and not claimed, or is the one inserted. -/
theorem Consistent.live_after_commit (hs : Consistent setup traced s) {k : ℕ} {r : RefreshToken}
    (hk : (s.db.refreshTokens.commit t).committed k = some r) (hlive : r.rotatedAt = none) :
    s.db.refreshTokens.committed k = some r ∧
        (∀ version, s.db.refreshTokens.pending k ≠ some (t, version)) ∨
      s.db.refreshTokens.pending k = some (t, some r) ∧ ∀ l r',
        s.db.refreshTokens.committed l = some r' → r'.rotatedAt = none →
        r'.familyId = r.familyId → ∃ version, s.db.refreshTokens.pending l = some (t, version) := by
  rcases Table.commit_committed_eq_some hk with hpending | hold
  · refine .inr ⟨hpending, fun l r' hl hlive' hfamily => ?_⟩
    cases hs.holding t with
    | deleting h => exact (h.claimed k r hpending).elim
    | claiming i r₀ x now y m c hclaims honly =>
        obtain rfl := honly k _ hpending
        rw [hclaims.pending] at hpending
        cases hpending
        cases hlive
    | succeeding i r₀ x now y m c j row hclaims hne hj hnone hrow honly =>
        rcases honly k _ hpending with rfl | rfl
        · rw [hclaims.pending] at hpending
          cases hpending
          cases hlive
        · rw [hj] at hpending
          cases hpending
          have hfamily : r'.familyId = r₀.familyId := by rw [hfamily, hrow]
          obtain rfl := hs.single l i r' r₀ hl hclaims.committed hlive' hclaims.live hfamily
          exact ⟨_, hclaims.pending⟩
    | opening y m j row hsilent hopening hj hnone honly =>
        obtain rfl := honly k _ hpending
        rw [hj] at hpending
        cases hpending
        exact ⟨_, hs.unopened l r' (.inl (.inl hl)) t (hfamily ▸ hopening.2.1) hsilent⟩
  · exact .inl hold

theorem Step.single (h : Step setup traced opens A t s s') (hs : Consistent setup traced s) :
    ∀ i j r r', s'.db.refreshTokens.committed i = some r →
      s'.db.refreshTokens.committed j = some r' → r.rotatedAt = none → r'.rotatedAt = none →
      r.familyId = r'.familyId → i = j := by
  intro i j r r' hi hj hlive hlive' hfamily
  rcases h.effect.committed with ⟨heq, -⟩ | ⟨-, htable⟩
  · rw [heq] at hi hj
    exact hs.single i j r r' hi hj hlive hlive' hfamily
  · rw [htable] at hi hj
    rcases hs.live_after_commit hi hlive with ⟨hold, hfree⟩ | ⟨hnew, hall⟩ <;>
      rcases hs.live_after_commit hj hlive' with ⟨hold', hfree'⟩ | ⟨hnew', hall'⟩
    · exact hs.single i j r r' hold hold' hlive hlive' hfamily
    · obtain ⟨version, hversion⟩ := hall' i r hold hlive hfamily
      exact (hfree version hversion).elim
    · obtain ⟨version, hversion⟩ := hall j r' hold' hlive' hfamily.symm
      exact (hfree' version hversion).elim
    · cases hs.holding t with
      | deleting h => exact (h.claimed i r hnew).elim
      | claiming k r₀ x now y m c hclaims honly =>
          exact (honly i _ hnew).trans (honly j _ hnew').symm
      | succeeding k r₀ x now y m c l row hclaims hne hl hnone hrow honly =>
          have hnot {n : ℕ} {r₁ : RefreshToken}
              (hn : s.db.refreshTokens.pending n = some (t, some r₁))
              (hlive₁ : r₁.rotatedAt = none) : n = l := by
            refine (honly n _ hn).resolve_left ?_
            rintro rfl
            rw [hclaims.pending] at hn
            cases hn
            cases hlive₁
          exact (hnot hnew hlive).trans (hnot hnew' hlive').symm
      | opening y m k row _ _ _ _ honly => exact (honly i _ hnew).trans (honly j _ hnew').symm

theorem Consistent.step (hs : Consistent setup traced s) (hwf : s.WellFormed setup traced)
    (hwf' : s'.WellFormed setup traced) (h : Step setup traced opens A t s s') :
    Consistent setup traced s' where
  holding u := by
    by_cases hne : u = t
    · exact hne ▸ (hne ▸ hs.holding u).step h
    · exact (hs.holding u).mono (h.undisturbed hne) h.later
  single := h.single hs
  drawn _ _ hr := h.drawn hs hr
  unopened _ _ hr _ hv hsilent := h.unopened hs hwf hwf' hr hv hsilent

/-- Whoever has an uncommitted version in a family has claimed its live row. -/
theorem Consistent.claimed_of_pending (hs : Consistent setup traced s) {k l : ℕ}
    {r r' : RefreshToken} (hk : s.db.refreshTokens.pending k = some (t, some r'))
    (hl : s.db.refreshTokens.committed l = some r) (hlive : r.rotatedAt = none)
    (hfamily : r.familyId = r'.familyId) :
    ∃ v, s.db.refreshTokens.pending l = some (t, some v) ∧ v.rotatedAt ≠ none := by
  have hclaimed {i : ℕ} {r₀ : RefreshToken} {x : String} {now : Time} {y : String} {m : Time}
      {c : Bytes} (hclaims : Claims setup traced t i r₀ x now y m c s)
      (heq : r.familyId = r₀.familyId) :
      ∃ v, s.db.refreshTokens.pending l = some (t, some v) ∧ v.rotatedAt ≠ none := by
    obtain rfl := hs.single l i r r₀ hl hclaims.committed hlive hclaims.live heq
    exact ⟨_, hclaims.pending, by simp⟩
  cases hs.holding t with
  | deleting h => exact (h.claimed k r' hk).elim
  | claiming i r₀ x now y m c hclaims honly =>
      obtain rfl := honly k _ hk
      rw [hclaims.pending] at hk
      cases hk
      exact hclaimed hclaims hfamily
  | succeeding i r₀ x now y m c j row hclaims hne hj hnone hrow honly =>
      rcases honly k _ hk with rfl | rfl
      · rw [hclaims.pending] at hk
        cases hk
        exact hclaimed hclaims hfamily
      · rw [hj] at hk
        cases hk
        exact hclaimed hclaims (by rw [hfamily, hrow])
  | opening y m j row hsilent hopening hj hnone honly =>
      obtain rfl := honly k _ hk
      rw [hj] at hk
      cases hk
      have hpending := hs.unopened l r (.inl (.inl hl)) t (hfamily ▸ hopening.2.1) hsilent
      obtain rfl := honly l _ hpending
      rw [hnone] at hl
      cases hl

/-- An uncommitted version of a row that was committed before is rotated. -/
theorem Consistent.rotated_of_pending (hs : Consistent setup traced s)
    (hwf : s.WellFormed setup traced) {k : ℕ} {r : RefreshToken}
    (hk : s.db.refreshTokens.pending k = some (t, some r))
    (hborn : ∃ e ∈ s.db.refreshTokens.log, e.2.1 = k) : r.rotatedAt ≠ none := by
  have hunborn (hnone : s.db.refreshTokens.committed k = none) : False := by
    obtain ⟨e, he, heq⟩ := hborn
    exact hwf.refreshTokens.unborn k _ hk hnone e he heq
  cases hs.holding t with
  | deleting h => exact (h.claimed k r hk).elim
  | claiming i r₀ x now y m c hclaims honly =>
      obtain rfl := honly k _ hk
      rw [hclaims.pending] at hk
      cases hk
      simp
  | succeeding i r₀ x now y m c j row hclaims hne hj hnone hrow honly =>
      rcases honly k _ hk with rfl | rfl
      · rw [hclaims.pending] at hk
        cases hk
        simp
      · exact (hunborn hnone).elim
  | opening y m j row hsilent hopening hj hnone honly =>
      obtain rfl := honly k _ hk
      exact (hunborn hnone).elim

/-- A successor may only be inserted under the claim of a live row. -/
theorem Consistent.claimed_of_succeed (hs : Consistent setup traced s) {row : RefreshToken}
    (h : MaySucceed setup traced t row s) :
    ∃ i r v, s.db.refreshTokens.committed i = some r ∧ r.rotatedAt = none ∧
      s.db.refreshTokens.pending i = some (t, some v) ∧ row.userId = r.userId ∧
      row.familyId = r.familyId := by
  obtain ⟨i, r', x, now, y, m, c, hi, honly, hnow, -, -, -, hrow⟩ := h.claimed
  have hclaimed {r : RefreshToken} {x' : String} {now' : Time} {y' : String} {m' : Time}
      {c' : Bytes} (hclaims : Claims setup traced t i r x' now' y' m' c' s) :
      ∃ i r v, s.db.refreshTokens.committed i = some r ∧ r.rotatedAt = none ∧
        s.db.refreshTokens.pending i = some (t, some v) ∧ row.userId = r.userId ∧
        row.familyId = r.familyId := by
    have heq := hclaims.pending.symm.trans hi
    simp only [Option.some.injEq, Prod.mk.injEq, true_and] at heq
    refine ⟨i, r, r', hclaims.committed, hclaims.live, hi, ?_, ?_⟩ <;> rw [hrow, ← heq]
  cases hs.holding t with
  | deleting h => exact (h.claimed i r' hi).elim
  | claiming k r x' now' y' m' c' hclaims _ =>
      obtain rfl := honly k _ hclaims.pending
      exact hclaimed hclaims
  | succeeding k r x' now' y' m' c' j row' hclaims _ _ _ _ _ =>
      obtain rfl := honly k _ hclaims.pending
      exact hclaimed hclaims
  | opening y' m' j row' _ hopening hj _ _ =>
      obtain rfl := honly j _ hj
      rw [hj] at hi
      cases hi
      rw [hopening.2.2] at hnow
      cases hnow

end ExpressCore.Session
