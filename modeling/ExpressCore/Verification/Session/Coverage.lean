import ExpressCore.Verification.Session.Locks

/-! # What a running revocation covers

A DELETE selects its rows when it starts, and rotations commit successors while it waits for a
lock. It covers them through their predecessors: unless it deletes something, every row that
satisfies its condition was selected, or the row it descends from was, live, and is still there
when the DELETE comes to it. -/

namespace ExpressCore.Session

open ReadCommitted Interleaving

/-- Two rows of one family of one user. -/
def SameFamily (r r' : RefreshToken) : Prop :=
  r'.userId = r.userId ∧ r'.familyId = r.familyId

/-- A revocation selects whole families. -/
theorem holds_of_sameFamily {w : RefreshTokenWhere} (hw : Revokes w) {r r' : RefreshToken}
    (h : SameFamily r r') (i j : ℕ) :
    (Condition.holds w i r : Bool) = Condition.holds w j r' := by
  obtain ⟨huser, hfamily⟩ := h
  cases w with
  | family userId familyId => simp [Condition.holds, huser, hfamily]
  | user userId => simp [Condition.holds, huser]
  | _ => exact False.elim hw

/-- Every uncommitted version belongs to the family of a row that the same thread has locked
and that is committed and live. -/
def Rooted (s : State) : Prop :=
  ∀ k u r, s.db.refreshTokens.pending k = some (u, some r) →
    ∃ i r₀ r₁, s.db.refreshTokens.committed i = some r₀ ∧ r₀.rotatedAt = none ∧
      s.db.refreshTokens.pending i = some (u, some r₁) ∧ SameFamily r₀ r

/-- While the DELETE of thread `b` with condition `w` runs that selected `rows`. -/
structure Covered (b : ℕ) (w : RefreshTokenWhere) (rows : List (ℕ × RefreshToken))
    (s : State) : Prop where
  logged : ∀ x ∈ rows, ∃ e ∈ s.db.refreshTokens.log, e.2 = (x.1, some x.2)
  rotated : ∀ x ∈ rows, x.2.rotatedAt ≠ none →
    ∀ r, s.db.refreshTokens.committed x.1 = some r → r.rotatedAt ≠ none
  deleted : ∀ x ∈ rows, x.2.rotatedAt = none → ∀ u, u ≠ b →
    s.db.refreshTokens.pending x.1 = some (u, none) →
    ∃ r, s.db.refreshTokens.committed x.1 = some r ∧ r.rotatedAt = none
  complete : ∀ x ∈ rows, x.2.rotatedAt = none → ∀ r,
    s.db.refreshTokens.committed x.1 = some r → r.rotatedAt = none →
    ∀ k r', s.db.refreshTokens.committed k = some r' → SameFamily x.2 r' →
      (∃ y ∈ rows, y.1 = k) ∨ s.db.refreshTokens.pending k = some (b, none)
  covered : (∃ x ∈ rows, s.db.refreshTokens.pending x.1 = some (b, none)) ∨
    ∀ k r, s.db.refreshTokens.Version k r → Condition.holds w k r = true →
      s.db.refreshTokens.pending k = some (b, none) ∨ (∃ y ∈ rows, y.1 = k) ∨
        ∃ x ∈ rows, x.2.rotatedAt = none ∧ SameFamily x.2 r ∧
          s.db.refreshTokens.committed x.1 ≠ none

/-- No version is left that satisfies `w`, except of rows that thread `b` deletes. -/
def Extinct (b : ℕ) (w : RefreshTokenWhere) (s : State) : Prop :=
  ∀ k r, s.db.refreshTokens.Version k r → Condition.holds w k r = true →
    s.db.refreshTokens.pending k = some (b, none)

/-- What one revocation takes for granted about the other threads: they run no revocation, and
the expired token they delete is not one that the running DELETE of `b` selected as live and
that has been rotated since. -/
def spared (b : ℕ) : Assumption ℕ Request State where
  request t r s := t ≠ b → match r with
    | .sql (.refreshTokens (.visit i w .delete)) => ¬ Revokes w ∧
        ∀ w' rows row, s.db.changing b = some (w', rows) → Revokes w' → (i, row) ∈ rows →
          row.rotatedAt = none → ∀ r, s.db.refreshTokens.view t i = some r →
            Condition.holds w i r = true → r.rotatedAt = none
    | _ => True
  move _ _ := True

variable {setup : Setup} {traced : Prop} {A : Assumption ℕ Request State} {b t : ℕ}
  {s s' : State} {w : RefreshTokenWhere} {rows : List (ℕ × RefreshToken)}

/-- Whoever deletes nothing is free. -/
theorem spared_of_ne {r : Request}
    (h : ∀ i w, r ≠ .sql (.refreshTokens (.visit i w .delete))) : (spared b).request t r s := by
  intro _
  split
  · exact (h _ _ rfl).elim
  · trivial

theorem SameFamily.refl (r : RefreshToken) : SameFamily r r := ⟨rfl, rfl⟩

theorem SameFamily.symm {r r' : RefreshToken} (h : SameFamily r r') : SameFamily r' r :=
  ⟨h.1.symm, h.2.symm⟩

theorem SameFamily.trans {r r' r'' : RefreshToken} (h : SameFamily r r')
    (h' : SameFamily r' r'') : SameFamily r r'' :=
  ⟨h'.1.trans h.1, h'.2.trans h.2⟩

theorem Covered.sameFamily (h : Covered b w rows s) (hwf : s.WellFormed setup traced)
    {x : ℕ × RefreshToken} (hx : x ∈ rows) {r : RefreshToken}
    (hr : s.db.refreshTokens.Version x.1 r) : SameFamily x.2 r := by
  obtain ⟨e, he, heq⟩ := h.logged x hx
  have hissue := hwf.coherent x.1 x.2 r (.inr ⟨e.1, by rw [← heq]; exact he⟩) (.inl hr)
  exact ⟨hissue.2.1, hissue.2.2.1⟩

/-! ## Roots -/

theorem Rooted.step (hs : Rooted s) (h : Step setup traced (fun _ => False) A t s s') :
    Rooted s' := by
  intro k u r hk
  have hkept (htable : s'.db.refreshTokens.pending = s.db.refreshTokens.pending)
      (hcommitted : s'.db.refreshTokens.committed = s.db.refreshTokens.committed) :
      ∃ i r₀ r₁, s'.db.refreshTokens.committed i = some r₀ ∧ r₀.rotatedAt = none ∧
        s'.db.refreshTokens.pending i = some (u, some r₁) ∧ SameFamily r₀ r := by
    rw [htable] at hk ⊢
    rw [hcommitted]
    exact hs k u r hk
  by_cases hne : u = t
  · subst hne
    cases h.effect with
    | idle htable => exact hkept (by rw [htable]) (by rw [htable])
    | find htable =>
        exact hkept (by rw [htable, Table.take_pending]) (by rw [htable, Table.take_committed])
    | scan w _ htable =>
        exact hkept (by rw [htable, Table.take_pending]) (by rw [htable, Table.take_committed])
    | report w count _ htable => exact hkept (by rw [htable]) (by rw [htable])
    | claim i now c old hmay _ hview hlive htable =>
        rw [htable] at hk ⊢
        rcases Table.write_pending hk with ⟨rfl, heq⟩ | ⟨-, hk⟩
        · cases heq
          exact ⟨k, old, _, hmay.clean.committed_of_view hview, hlive, Table.write_pending_self,
            rfl, rfl⟩
        · exact (hmay.clean k _ hk).elim
    | insert j row hmay hfresh htable =>
        have hroot {i : ℕ} {r₁ : RefreshToken}
            (hi : s.db.refreshTokens.pending i = some (u, some r₁)) (hfamily : SameFamily r₁ r) :
            ∃ i r₀ r₁, s'.db.refreshTokens.committed i = some r₀ ∧ r₀.rotatedAt = none ∧
              s'.db.refreshTokens.pending i = some (u, some r₁) ∧ SameFamily r₀ r := by
          obtain ⟨l, r₀, r₂, hl, hlive, hpending, hsame⟩ := hs i u r₁ hi
          have hne : l ≠ j := by
            rintro rfl
            exact hfresh (s.db.refreshTokens.mem_of_pending l _ hpending)
          refine ⟨l, r₀, r₂, ?_, hlive, ?_, hsame.trans hfamily⟩
          · rw [htable, Table.write_committed, hl]
          · rw [htable, Table.write_pending_of_ne hne, hpending]
        rw [htable] at hk
        rcases Table.write_pending hk with ⟨rfl, heq⟩ | ⟨-, hk⟩
        · cases heq
          rcases hmay with hopen | hsucceed
          · exact hopen.opens.elim
          · obtain ⟨i, r₁, x, now, y, m, c, hi, -, -, -, -, -, hrow⟩ := hsucceed.claimed
            exact hroot hi ⟨by rw [hrow], by rw [hrow]⟩
        · exact hroot hk (.refl r)
    | delete i w old hmay _ _ _ _ htable =>
        rw [htable] at hk
        rcases Table.write_pending hk with ⟨-, heq⟩ | ⟨-, hk⟩
        · cases heq
        · exact (hmay.deleting.claimed k r hk).elim
    | commit _ htable =>
        rw [htable] at hk
        exact ((Table.commit_pending.mp hk).2 rfl).elim
    | abort htable =>
        rw [htable] at hk
        exact ((Table.abort_pending.mp hk).2 rfl).elim
  · have hrows := h.undisturbed hne
    obtain ⟨i, r₀, r₁, hi, hlive, hpending, hsame⟩ := hs k u r ((hrows.own k _).mp hk)
    exact ⟨i, r₀, r₁, (hrows.kept i _ hpending).trans hi, hlive,
      (hrows.own i _).mpr hpending, hsame⟩

/-! ## The pass starts -/

theorem Covered.of_scan (hwf : s.WellFormed setup traced) (hroot : Rooted s) (hw : Revokes w)
    (hdeleting : Deleting b s) : Covered b w (s.db.refreshTokens.matching b w) s := by
  have hmem (x : ℕ × RefreshToken) : x ∈ s.db.refreshTokens.matching b w ↔
      s.db.refreshTokens.view b x.1 = some x.2 ∧ Condition.holds w x.1 x.2 = true := mem_matching
  have hseen {x : ℕ × RefreshToken} (hx : x ∈ s.db.refreshTokens.matching b w) :
      s.db.refreshTokens.committed x.1 = some x.2 :=
    hdeleting.committed_of_view ((hmem x).mp hx).1
  have hselected {k : ℕ} {r : RefreshToken} (hk : s.db.refreshTokens.committed k = some r)
      (hholds : Condition.holds w k r = true) :
      s.db.refreshTokens.pending k = some (b, none) ∨
        (k, r) ∈ s.db.refreshTokens.matching b w := by
    by_cases hp : ∃ version, s.db.refreshTokens.pending k = some (b, version)
    · obtain ⟨version, hversion⟩ := hp
      exact .inl (hdeleting k version hversion ▸ hversion)
    · refine .inr ((hmem (k, r)).mpr ⟨?_, hholds⟩)
      rw [Table.view_of_not_pending fun version hversion => hp ⟨version, hversion⟩]
      exact hk
  refine ⟨fun x hx => hwf.logged _ _ (hseen hx), fun x hx hrotated r hr => ?_,
    fun x hx hlive _ _ _ => ⟨x.2, hseen hx, hlive⟩, fun x hx _ _ _ _ k r' hk hsame => ?_,
    .inr fun k r hr hholds => ?_⟩
  · rw [hseen hx] at hr
    cases hr
    exact hrotated
  · have hholds := ((hmem x).mp hx).2
    rw [holds_of_sameFamily hw hsame x.1 k] at hholds
    exact (hselected hk hholds).symm.imp_left fun hmem => ⟨_, hmem, rfl⟩
  · rcases hr with hk | ⟨u, hk⟩
    · exact (hselected hk hholds).imp_right fun hmem => .inl ⟨_, hmem, rfl⟩
    · obtain ⟨i, r₀, r₁, hi, hlive, hpending, hsame⟩ := hroot k u r hk
      have hholds' : Condition.holds w i r₀ = true := by
        rw [holds_of_sameFamily hw hsame i k]
        exact hholds
      rcases hselected hi hholds' with hb | hmem
      · rw [hpending] at hb
        cases hb
      · exact .inr (.inr ⟨_, hmem, hlive, hsame, by simp [hi]⟩)

/-! ## Steps during the pass -/

/-- A live committed row that `b` does not delete covers every version of its family. -/
theorem Covered.of_committed (h : Covered b w rows s) (hwf : s.WellFormed setup traced)
    (hw : Revokes w) {i k : ℕ} {r r' : RefreshToken}
    (hk : s.db.refreshTokens.committed k = some r) (hlive : r.rotatedAt = none)
    (hkept : s.db.refreshTokens.pending k ≠ some (b, none)) (hsame : SameFamily r r')
    (hholds : Condition.holds w i r' = true) :
    (∃ x ∈ rows, s.db.refreshTokens.pending x.1 = some (b, none)) ∨
      ∃ x ∈ rows, x.2.rotatedAt = none ∧ SameFamily x.2 r' ∧
        s.db.refreshTokens.committed x.1 ≠ none := by
  refine h.covered.imp_right fun hall => ?_
  rcases hall k r (.inl hk) (by rw [holds_of_sameFamily hw hsame k i, hholds]) with
    hpending | ⟨y, hy, rfl⟩ | ⟨x, hx, hxlive, hxsame, hthere⟩
  · exact (hkept hpending).elim
  · refine ⟨y, hy, ?_, (h.sameFamily hwf hy (.inl hk)).trans hsame, by simp [hk]⟩
    by_contra hrotated
    exact h.rotated y hy hrotated r hk hlive
  · exact ⟨x, hx, hxlive, hxsame.trans hsame, hthere⟩

theorem Covered.read (h : Covered b w rows s)
    (hlog : s.db.refreshTokens.log <+: s'.db.refreshTokens.log)
    (hcommitted : s'.db.refreshTokens.committed = s.db.refreshTokens.committed)
    (hpending : s'.db.refreshTokens.pending = s.db.refreshTokens.pending) :
    Covered b w rows s' where
  logged x hx := by
    obtain ⟨e, he, heq⟩ := h.logged x hx
    exact ⟨e, hlog.subset he, heq⟩
  rotated := hcommitted ▸ h.rotated
  deleted := hcommitted ▸ hpending ▸ h.deleted
  complete := hcommitted ▸ hpending ▸ h.complete
  covered := by
    unfold Table.Version
    rw [hcommitted, hpending]
    exact h.covered

/-- One row gets an uncommitted version or is deleted. A new version must be covered, and a
deletion by another thread must not be of a selected row that was rotated since. -/
theorem Covered.write (h : Covered b w rows s) {i : ℕ} {v : Option RefreshToken}
    (htable : s'.db.refreshTokens = s.db.refreshTokens.write t i v)
    (hkept : s.db.refreshTokens.pending i = some (b, none) → t = b ∧ v = none)
    (hdeleted : t ≠ b → v = none → ∀ x ∈ rows, x.1 = i → x.2.rotatedAt = none →
      ∃ r, s.db.refreshTokens.committed i = some r ∧ r.rotatedAt = none)
    (hnew : ∀ r, v = some r → Condition.holds w i r = true →
      (∃ x ∈ rows, s.db.refreshTokens.pending x.1 = some (b, none)) ∨ (∃ y ∈ rows, y.1 = i) ∨
        ∃ x ∈ rows, x.2.rotatedAt = none ∧ SameFamily x.2 r ∧
          s.db.refreshTokens.committed x.1 ≠ none) : Covered b w rows s' := by
  have hcommitted : s'.db.refreshTokens.committed = s.db.refreshTokens.committed := by
    rw [htable, Table.write_committed]
  have hstays {k : ℕ} (hk : s.db.refreshTokens.pending k = some (b, none)) :
      s'.db.refreshTokens.pending k = some (b, none) := by
    rw [htable]
    by_cases heq : k = i
    · subst heq
      obtain ⟨rfl, rfl⟩ := hkept hk
      exact Table.write_pending_self
    · rw [Table.write_pending_of_ne heq, hk]
  refine ⟨?_, hcommitted ▸ h.rotated, fun x hx hlive u hu hpending => ?_,
    fun x hx hlive r hr hrlive k r' hk hsame => ?_, ?_⟩
  · rw [htable, Table.write_log]
    exact h.logged
  · rw [hcommitted]
    rw [htable] at hpending
    rcases Table.write_pending hpending with ⟨heq, hw⟩ | ⟨-, hpending⟩
    · obtain ⟨rfl, hv⟩ := Prod.mk.inj hw
      exact heq ▸ hdeleted hu hv.symm x hx heq hlive
    · exact h.deleted x hx hlive u hu hpending
  · rw [hcommitted] at hr hk
    exact (h.complete x hx hlive r hr hrlive k r' hk hsame).imp_right hstays
  · rw [hcommitted]
    have hdone : (∃ x ∈ rows, s.db.refreshTokens.pending x.1 = some (b, none)) →
        ∃ x ∈ rows, s'.db.refreshTokens.pending x.1 = some (b, none) :=
      fun ⟨x, hx, hpending⟩ => ⟨x, hx, hstays hpending⟩
    rcases h.covered with hcount | hall
    · exact .inl (hdone hcount)
    · by_cases hcount : ∃ x ∈ rows, s.db.refreshTokens.pending x.1 = some (b, none)
      · exact .inl (hdone hcount)
      · refine .inr fun k r hversion hholds => ?_
        rw [htable] at hversion
        rcases version_of_write hversion with hold | ⟨rfl, hv⟩
        · exact (hall k r hold hholds).imp_left hstays
        · exact .inr ((hnew r hv hholds).resolve_left hcount)

theorem Covered.abort (h : Covered b w rows s) (hne : t ≠ b)
    (htable : s'.db.refreshTokens = s.db.refreshTokens.abort t) : Covered b w rows s' := by
  have hcommitted : s'.db.refreshTokens.committed = s.db.refreshTokens.committed := by
    rw [htable, Table.abort_committed]
  have hstays {k : ℕ} (hk : s.db.refreshTokens.pending k = some (b, none)) :
      s'.db.refreshTokens.pending k = some (b, none) := by
    rw [htable]
    exact Table.abort_pending.mpr ⟨hk, hne.symm⟩
  refine ⟨?_, hcommitted ▸ h.rotated, fun x hx hlive u hu hpending => ?_,
    fun x hx hlive r hr hrlive k r' hk hsame => ?_, ?_⟩
  · rw [htable, Table.abort_log]
    exact h.logged
  · rw [hcommitted]
    rw [htable] at hpending
    exact h.deleted x hx hlive u hu (Table.abort_pending.mp hpending).1
  · rw [hcommitted] at hr hk
    exact (h.complete x hx hlive r hr hrlive k r' hk hsame).imp_right hstays
  · rw [hcommitted]
    refine h.covered.imp (fun ⟨x, hx, hpending⟩ => ⟨x, hx, hstays hpending⟩)
      fun hall k r hversion hholds => ?_
    rw [htable] at hversion
    exact (hall k r (version_of_abort hversion) hholds).imp_left hstays

theorem Covered.commit (h : Covered b w rows s) (hs : Consistent setup traced s)
    (hwf : s.WellFormed setup traced) (hne : t ≠ b)
    (htable : s'.db.refreshTokens = s.db.refreshTokens.commit t) : Covered b w rows s' := by
  have hborn {x : ℕ × RefreshToken} (hx : x ∈ rows) :
      ∃ e ∈ s.db.refreshTokens.log, e.2.1 = x.1 := by
    obtain ⟨e, he, heq⟩ := h.logged x hx
    exact ⟨e, he, by rw [heq]⟩
  have hstays {k : ℕ} (hk : s.db.refreshTokens.pending k = some (b, none)) :
      s'.db.refreshTokens.pending k = some (b, none) := by
    rw [htable]
    exact Table.commit_pending.mpr ⟨hk, hne.symm⟩
  have hgone {k : ℕ} (hk : s'.db.refreshTokens.committed k = none) :
      s.db.refreshTokens.committed k = none ∨ s.db.refreshTokens.pending k = some (t, none) := by
    rw [htable] at hk
    rcases s.db.refreshTokens.commit_committed_cases (t := t) (i := k) with
      ⟨version, hversion, heq⟩ | ⟨-, heq⟩
    · exact .inr (by rw [hversion, ← heq, hk])
    · exact .inl (heq ▸ hk)
  have hsurvives {x : ℕ × RefreshToken} (hx : x ∈ rows) {r : RefreshToken}
      (hr : s'.db.refreshTokens.committed x.1 = some r) :
      s.db.refreshTokens.committed x.1 = some r ∨ r.rotatedAt ≠ none := by
    rw [htable] at hr
    exact (Table.commit_committed_eq_some hr).symm.imp (fun hr => hr.1) fun hr =>
      hs.rotated_of_pending hwf hr (hborn hx)
  refine ⟨fun x hx => ?_, fun x hx hrotated r hr => ?_, fun x hx hlive u hu hpending => ?_,
    fun x hx hlive r hr hrlive k r' hk hsame => ?_, ?_⟩
  · obtain ⟨e, he, heq⟩ := h.logged x hx
    rw [htable, Table.commit_log]
    exact ⟨e, List.mem_append_left _ he, heq⟩
  · exact (hsurvives hx hr).elim (h.rotated x hx hrotated r) id
  · rw [htable] at hpending ⊢
    obtain ⟨hpending, hut⟩ := Table.commit_pending.mp hpending
    rw [Table.commit_committed_of_not_pending fun version hversion => ?_]
    · exact h.deleted x hx hlive u hu hpending
    · rw [hpending] at hversion
      exact hut (Prod.mk.inj (Option.some.inj hversion)).1
  · have hxr := (hsurvives hx hr).resolve_right (by simp [hrlive])
    rw [htable] at hk
    rcases Table.commit_committed_eq_some hk with hnew | ⟨hk, -⟩
    · -- the commit rotates the live row of every family it adds a version to
      obtain ⟨v, hv, hrotated⟩ := hs.claimed_of_pending hnew hxr hrlive
        ((h.sameFamily hwf hx (.inl hxr)).symm.trans hsame).2.symm
      rw [htable, Table.commit_committed_of_pending hv] at hr
      cases hr
      exact (hrotated hrlive).elim
    · exact (h.complete x hx hlive r hxr hrlive k r' hk hsame).imp_right hstays
  · refine h.covered.imp (fun ⟨x, hx, hpending⟩ => ⟨x, hx, hstays hpending⟩)
      fun hall k r hversion hholds => ?_
    rw [htable] at hversion
    have hold := version_of_commit hversion
    rcases hall k r hold hholds with hpending | hselected | ⟨x, hx, hlive, hsame, hthere⟩
    · exact .inl (hstays hpending)
    · exact .inr (.inl hselected)
    · by_cases hleft : s'.db.refreshTokens.committed x.1 = none
      · have hpending := (hgone hleft).resolve_left hthere
        obtain ⟨rx, hrx, hrxlive⟩ := h.deleted x hx hlive t hne hpending
        rcases hold with hk | ⟨u, hk⟩
        · rcases h.complete x hx hlive rx hrx hrxlive k r hk hsame with hselected | hpending
          · exact .inr (.inl hselected)
          · exact .inl (hstays hpending)
        · obtain ⟨v, hv, -⟩ := hs.claimed_of_pending hk hrx hrxlive
            ((h.sameFamily hwf hx (.inl hrx)).symm.trans hsame).2.symm
          rw [hpending] at hv
          cases hv
      · exact .inr (.inr ⟨x, hx, hlive, hsame, hleft⟩)

/-- The running revocation of `b` is covered. -/
def Watched (b : ℕ) (s : State) : Prop :=
  ∀ w rows, s.db.changing b = some (w, rows) → Revokes w → Covered b w rows s

private theorem pending_of_unlocked {i : ℕ} (hlocked : s.db.refreshTokens.locked t i = false)
    (h : s.db.refreshTokens.pending i = some (b, none)) : t = b :=
  (Table.locked_eq_false.mp hlocked _ h).symm

theorem Watched.step (hwatched : Watched b s) (hs : Consistent setup traced s) (hroot : Rooted s)
    (hwf : s.WellFormed setup traced)
    (h : Step setup traced (fun _ => False) (spared b) t s s') : Watched b s' := by
  intro w rows hchanging hw
  have hother (hne : t ≠ b) : Covered b w rows s :=
    hwatched w rows (h.changing b hne.symm ▸ hchanging) hw
  have hcovered (heq : s'.db.changing t = s.db.changing t ∨ s'.db.changing t = none) :
      Covered b w rows s := by
    by_cases hne : t = b
    · subst hne
      rcases heq with heq | heq
      · exact hwatched w rows (heq ▸ hchanging) hw
      · rw [heq] at hchanging
        cases hchanging
    · exact hother hne
  have hnot (hnone : s'.db.changing t = none) : t ≠ b := by
    rintro rfl
    rw [hnone] at hchanging
    cases hchanging
  cases h.effect with
  | idle htable _ heq =>
      exact (hcovered heq).read h.later.log (by rw [htable]) (by rw [htable])
  | find htable _ heq =>
      exact (hcovered (.inl heq)).read h.later.log (by rw [htable, Table.take_committed])
        (by rw [htable, Table.take_pending])
  | scan w' hdeleting htable _ heq =>
      have hread {rows : List (ℕ × RefreshToken)} (hold : Covered b w rows s) :
          Covered b w rows s' :=
        hold.read h.later.log (by rw [htable, Table.take_committed])
          (by rw [htable, Table.take_pending])
      by_cases hne : t = b
      · subst hne
        rw [heq] at hchanging
        cases hchanging
        exact hread (.of_scan hwf hroot hw (hdeleting hw))
      · exact hread (hother hne)
  | report w' count _ htable _ hnone =>
      exact (hother (hnot hnone)).read h.later.log (by rw [htable]) (by rw [htable])
  | claim i now c old hmay hlocked hview hlive htable _ heq =>
      have hi := hmay.clean.committed_of_view hview
      have hkept : s.db.refreshTokens.pending i ≠ some (b, none) := fun hpending =>
        hmay.clean i none (pending_of_unlocked hlocked hpending ▸ hpending)
      refine (hcovered (.inl heq)).write htable (fun hpending => (hkept hpending).elim)
        (fun _ hnone => nomatch hnone) fun r hr hholds => ?_
      cases hr
      have hsame : SameFamily old
        { old with rotatedAt := some now, successorCiphertext := some c } := ⟨rfl, rfl⟩
      exact ((hcovered (.inl heq)).of_committed hwf hw hi hlive hkept hsame hholds).imp_right .inr
  | insert j row hmay hfresh htable _ heq =>
      refine (hcovered (.inl heq)).write htable
        (fun hpending => (hfresh (s.db.refreshTokens.mem_of_pending j _ hpending)).elim)
        (fun _ hnone => nomatch hnone) fun r hr hholds => ?_
      cases hr
      rcases hmay with hopen | hsucceed
      · exact hopen.opens.elim
      · obtain ⟨i, r₀, v, hi, hlive, hpending, huser, hfamily⟩ := hs.claimed_of_succeed hsucceed
        have hkept : s.db.refreshTokens.pending i ≠ some (b, none) := by
          rw [hpending]
          rintro ⟨⟩
        exact ((hcovered (.inl heq)).of_committed hwf hw hi hlive hkept ⟨huser, hfamily⟩
          hholds).imp_right .inr
  | delete i w' old hmay hassume hlocked hview hholds htable _ heq =>
      refine (hcovered (.inl heq)).write htable
        (fun hpending => ⟨pending_of_unlocked hlocked hpending, rfl⟩)
        (fun hne _ x hx hxi hlive => ?_) fun r hr => nomatch hr
      have hchanging' := h.changing b hne.symm ▸ hchanging
      subst hxi
      exact ⟨old, hmay.deleting.committed_of_view hview,
        (hassume hne).2 w rows x.2 hchanging' hw hx hlive old hview hholds⟩
  | commit _ htable _ hnone => exact (hother (hnot hnone)).commit hs hwf (hnot hnone) htable
  | abort htable _ hnone => exact (hother (hnot hnone)).abort (hnot hnone) htable

/-! ## After the last pass -/

/-- A pass that deleted nothing has left nothing. -/
theorem Watched.extinct (hwatched : Watched b s) (hw : Revokes w) (hpassed : Passed b w 0 s) :
    Extinct b w s := by
  obtain ⟨rows, hchanging, hrows⟩ := hpassed.erased
  have hgone {x : ℕ × RefreshToken} (hx : x ∈ rows) : s.db.refreshTokens.Gone x.1 :=
    (hrows x hx).1.resolve_left ((hrows x hx).2 rfl)
  have hcovered := hwatched w rows hchanging hw
  intro k r hversion hholds
  rcases hcovered.covered with ⟨x, hx, hpending⟩ | hall
  · exact ((hrows x hx).2 rfl hpending).elim
  · rcases hall k r hversion hholds with hpending | ⟨y, hy, rfl⟩ | ⟨x, hx, -, -, hthere⟩
    · exact hpending
    · exact ((hgone hy).2 r hversion).elim
    · obtain ⟨r', hr'⟩ := Option.ne_none_iff_exists'.mp hthere
      exact ((hgone hx).2 r' (.inl hr')).elim

theorem Extinct.step (hw : Revokes w) (hs : Extinct b w s) (hcons : Consistent setup traced s)
    (h : Step setup traced (fun _ => False) A t s s') (hkept : s'.db.rolledBack b = false) :
    Extinct b w s' := by
  have hread (hcommitted : s'.db.refreshTokens.committed = s.db.refreshTokens.committed)
      (hpending : s'.db.refreshTokens.pending = s.db.refreshTokens.pending) : Extinct b w s' := by
    unfold Extinct Table.Version
    rw [hcommitted, hpending]
    exact hs
  have hwrite {i : ℕ} {v : Option RefreshToken}
      (htable : s'.db.refreshTokens = s.db.refreshTokens.write t i v)
      (hstays : s.db.refreshTokens.pending i = some (b, none) → t = b ∧ v = none)
      (hnew : ∀ r, v = some r → Condition.holds w i r = true → False) : Extinct b w s' := by
    intro k r hversion hholds
    rw [htable] at hversion ⊢
    rcases version_of_write hversion with hold | ⟨rfl, hv⟩
    · have hpending := hs k r hold hholds
      by_cases heq : k = i
      · subst heq
        obtain ⟨rfl, rfl⟩ := hstays hpending
        exact Table.write_pending_self
      · rw [Table.write_pending_of_ne heq, hpending]
    · exact (hnew r hv hholds).elim
  cases h.effect with
  | idle htable => exact hread (by rw [htable]) (by rw [htable])
  | find htable =>
      exact hread (by rw [htable, Table.take_committed]) (by rw [htable, Table.take_pending])
  | scan w' _ htable =>
      exact hread (by rw [htable, Table.take_committed]) (by rw [htable, Table.take_pending])
  | report w' count _ htable => exact hread (by rw [htable]) (by rw [htable])
  | claim i now c old hmay hlocked hview hlive htable =>
      have hclean : s.db.refreshTokens.pending i ≠ some (b, none) := fun hpending =>
        hmay.clean i none (pending_of_unlocked hlocked hpending ▸ hpending)
      refine hwrite htable (fun hpending => (hclean hpending).elim) fun r hr hholds => ?_
      cases hr
      have hsame : SameFamily old
        { old with rotatedAt := some now, successorCiphertext := some c } := ⟨rfl, rfl⟩
      exact hclean (hs i old (version_of_view hview)
        (by rw [holds_of_sameFamily hw hsame i i, hholds]))
  | insert j row hmay hfresh htable =>
      refine hwrite htable
        (fun hpending => (hfresh (s.db.refreshTokens.mem_of_pending j _ hpending)).elim)
        fun r hr hholds => ?_
      cases hr
      rcases hmay with hopen | hsucceed
      · exact hopen.opens
      · obtain ⟨i, r₀, v, hi, -, hpending, hfamily⟩ := hcons.claimed_of_succeed hsucceed
        have hb := hs i r₀ (.inl hi) (by rw [holds_of_sameFamily hw hfamily i j, hholds])
        rw [hpending] at hb
        cases hb
  | delete i w' old hmay _ hlocked _ _ htable =>
      exact hwrite htable (fun hpending => ⟨pending_of_unlocked hlocked hpending, rfl⟩)
        fun r hr => nomatch hr
  | commit _ htable =>
      intro k r hversion hholds
      rw [htable] at hversion ⊢
      have hpending := hs k r (version_of_commit hversion) hholds
      by_cases hne : t = b
      · subst hne
        rcases hversion with hversion | ⟨u, hversion⟩
        · rw [Table.commit_committed_of_pending hpending] at hversion
          cases hversion
        · obtain ⟨hu, hne⟩ := Table.commit_pending.mp hversion
          rw [hpending] at hu
          cases hu
      · exact Table.commit_pending.mpr ⟨hpending, fun heq => hne heq.symm⟩
  | abort htable _ _ hrolled =>
      have hne : b ≠ t := by
        rintro rfl
        rw [hrolled] at hkept
        cases hkept
      intro k r hversion hholds
      rw [htable] at hversion ⊢
      exact Table.abort_pending.mpr ⟨hs k r (version_of_abort hversion) hholds, hne⟩

end ExpressCore.Session
