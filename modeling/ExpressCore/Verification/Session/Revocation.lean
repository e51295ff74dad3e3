import ExpressCore.Verification.Session.Steady
import ExpressCore.Verification.System.Statements

/-! # Deletions of refresh tokens keep to the protocol -/

namespace ExpressCore.Session

open ReadCommitted Interleaving Interleaving.Program

/-- The contract of a program of thread `t`. -/
abbrev Conforms {α : Type} (setup : Setup) (traced : Prop) (opens : ℕ → Prop)
    (A : Assumption ℕ Request State) (t : ℕ) (post : α → State → Prop)
    (err : Error → State → Prop) (p : Service α) (pre : State → Prop) : Prop :=
  (conformance setup traced A (guard setup traced opens)).Meets (system setup) A t post err p pre

/-- How a program may end with an error. -/
def Outcome (t : ℕ) (e : Error) (s : State) : Prop :=
  e = .lost ∨ e = .error "Refresh-token revocation did not converge" ∨ Told t s

variable {setup : Setup} {traced : Prop} {opens : ℕ → Prop} {A : Assumption ℕ Request State} {t : ℕ}

theorem Steady.outcome (e : Error) : Steady setup traced t (Outcome t e) :=
  (Steady.const _).or ((Steady.const _).or .told)

/-! ## The effect of the requests -/

section Effect

variable {o : Oracle} {s s' : State}

theorem exec_request {a : Access ℕ RefreshToken RefreshTokenWhere RefreshTokenChange}
    {reply : a.Reply}
    (h : (Request.sql (.refreshTokens a)).exec setup t o s = some (reply, s')) :
    ∃ T, a.exec t o.pick o.fresh s.db.refreshTokens = some (reply, T) ∧
      s' = { s with db := { s.db with refreshTokens := T, changing := s.db.start t a } } := by
  simp only [Request.exec, Option.map_eq_some_iff, Prod.mk.injEq] at h
  obtain ⟨⟨reply', d⟩, hstatement, rfl, rfl⟩ := h
  obtain ⟨-, T, hexec, rfl⟩ := exec_refreshTokens hstatement
  exact ⟨T, hexec, rfl⟩

theorem exec_scan_request {w : RefreshTokenWhere} {rows : List (ℕ × RefreshToken)}
    (h : (Request.sql (.refreshTokens (.scan w))).exec setup t o s = some (rows, s')) :
    s' = { s with db :=
        { s.db with
          refreshTokens := s.db.refreshTokens.take t
          changing := Function.update s.db.changing t (some (w, rows)) } } ∧
      ∀ x, x ∈ rows ↔
        s.db.refreshTokens.view t x.1 = some x.2 ∧ Condition.holds w x.1 x.2 = true := by
  obtain ⟨T, hexec, rfl⟩ := exec_request h
  obtain ⟨rfl, hrows⟩ := exec_scan hexec
  simp only [Access.exec, Option.some.injEq, Prod.mk.injEq] at hexec
  obtain ⟨rfl, -⟩ := hexec
  exact ⟨rfl, hrows⟩

theorem exec_visit_request {i : ℕ} {w : RefreshTokenWhere} {c : RefreshTokenChange}
    {reply : Option RefreshToken}
    (h : (Request.sql (.refreshTokens (.visit i w c))).exec setup t o s = some (reply, s')) :
    s.db.refreshTokens.locked t i = false ∧
      ((∃ old, s.db.refreshTokens.view t i = some old ∧ Condition.holds w i old = true ∧
          reply = some ((Change.apply c old).getD old) ∧
          s' = { s with db :=
            { s.db with refreshTokens := s.db.refreshTokens.write t i (Change.apply c old) } }) ∨
        ((∀ old, s.db.refreshTokens.view t i = some old → Condition.holds w i old = false) ∧
          reply = none ∧ s' = s)) := by
  obtain ⟨T, hexec, rfl⟩ := exec_request h
  obtain ⟨hlocked, ⟨old, hview, hw, hreply, rfl⟩ | ⟨hnot, hreply, rfl⟩⟩ := exec_visit hexec
  · exact ⟨hlocked, .inl ⟨old, hview, hw, hreply, rfl⟩⟩
  · exact ⟨hlocked, .inr ⟨hnot, hreply, rfl⟩⟩

end Effect

/-! ## Deleting one row -/

section Write

variable {s : State} {i j : ℕ}

/-- The state in which thread `t` deletes row `i`. -/
def deleteRow (t i : ℕ) (s : State) : State :=
  { s with db := { s.db with refreshTokens := s.db.refreshTokens.write t i none } }

theorem deleteRow_pending {version : Option RefreshToken}
    (h : (deleteRow t i s).db.refreshTokens.pending j = some (t, version)) :
    j = i ∧ version = none ∨ s.db.refreshTokens.pending j = some (t, version) := by
  by_cases heq : j = i
  · subst heq
    simp only [deleteRow, Table.write_pending_self, Option.some.injEq, Prod.mk.injEq,
      true_and] at h
    exact .inl ⟨rfl, h.symm⟩
  · exact .inr (by simpa [deleteRow, Table.write_pending_of_ne heq] using h)

theorem deleteRow_version {r : RefreshToken}
    (h : (deleteRow t i s).db.refreshTokens.Version j r) : s.db.refreshTokens.Version j r := by
  rcases h with h | ⟨u, h⟩
  · exact .inl h
  · by_cases heq : j = i
    · subst heq
      simp [deleteRow] at h
    · exact .inr ⟨u, by simpa [deleteRow, Table.write_pending_of_ne heq] using h⟩

theorem deleteRow_erased_self : (deleteRow t i s).db.refreshTokens.Erased t i :=
  .inl (by simp [deleteRow])

theorem deleteRow_erased (h : s.db.refreshTokens.Erased t j) :
    (deleteRow t i s).db.refreshTokens.Erased t j := by
  by_cases heq : j = i
  · exact heq ▸ deleteRow_erased_self
  · rcases h with h | ⟨hids, hnone⟩
    · exact .inl (by simpa [deleteRow, Table.write_pending_of_ne heq] using h)
    · exact .inr ⟨List.mem_insert_of_mem hids, fun r hr => hnone r (deleteRow_version hr)⟩

theorem Deleting.deleteRow (h : Deleting t s) : Deleting t (deleteRow t i s) := by
  intro j version hj
  rcases deleteRow_pending hj with ⟨-, hnone⟩ | hj
  · exact hnone
  · exact h j version hj

theorem Known.deleteRow {r : RefreshToken} (h : Known j r s) : Known j r (deleteRow t i s) :=
  ⟨List.mem_insert_of_mem h.1, fun r' hr' => h.2 r' (deleteRow_version hr')⟩

theorem Lapsed.deleteRow (h : Lapsed s j) : Lapsed (deleteRow t i s) j := h

theorem Deleting.committed_of_view {r : RefreshToken} (h : Deleting t s)
    (hview : s.db.refreshTokens.view t i = some r) :
    s.db.refreshTokens.committed i = some r := by
  rw [← hview, Table.view_of_not_pending]
  intro version hversion
  rw [h i version hversion] at hversion
  rw [Table.view_of_pending hversion] at hview
  cases hview

end Write

theorem Clean.deleting {s : State} (h : Clean t s) : Deleting t s :=
  fun i version hi => (h i version hi).elim

theorem Deleting.claimed {s : State} (h : Deleting t s) (i : ℕ) (r : RefreshToken)
    (hi : s.db.refreshTokens.pending i = some (t, some r)) : False := by
  cases h i _ hi

/-! ## A pass of a revocation -/

/-- The condition of a revocation selects by what changes of a row preserve. -/
theorem holds_congr {w : RefreshTokenWhere} (hw : Revokes w) {i : ℕ} {r r' : RefreshToken}
    (h : r.SameIssue r') : (Condition.holds w i r : Bool) = Condition.holds w i r' := by
  obtain ⟨-, huser, hfamily, -⟩ := h
  cases w with
  | family userId familyId => simp [Condition.holds, huser, hfamily]
  | user userId => simp [Condition.holds, huser]
  | _ => exact hw.elim

/-- Inside a pass: `past` was committed when it started and `rows` were selected, `rest` are
the rows not yet visited and `done` the rows deleted. -/
structure InPass (t : ℕ) (w : RefreshTokenWhere) (past : List (ℕ × ℕ × Option RefreshToken))
    (rows rest done : List (ℕ × RefreshToken)) (s : State) : Prop where
  deleting : Deleting t s
  changing : s.db.changing t = some (w, rows)
  tagged : Tagged t (· = w) s
  filtered : Filtered t w s
  logged : past <+: s.db.refreshTokens.log
  pending : ∀ i, s.db.refreshTokens.pending i = some (t, none) → Satisfied w i past
  erased : ∀ e ∈ past, ∀ r, e.2.2 = some r → Condition.holds w e.2.1 r = true →
    s.db.refreshTokens.Erased t e.2.1 ∨ ∃ x ∈ rest, x.1 = e.2.1
  selected : ∀ y ∈ rows, s.db.refreshTokens.Erased t y.1 ∨ ∃ x ∈ rest, x.1 = y.1
  remaining : ∀ x ∈ rest, x ∈ rows ∧ Condition.holds w x.1 x.2 = true ∧ Known x.1 x.2 s ∧
    ∃ e ∈ past, e.2 = (x.1, some x.2)
  count : done = [] → ∀ x ∈ rows, s.db.refreshTokens.pending x.1 ≠ some (t, none)

variable {w : RefreshTokenWhere} {past : List (ℕ × ℕ × Option RefreshToken)}
  {rows : List (ℕ × RefreshToken)}

theorem InPass.stable (rest done : List (ℕ × RefreshToken)) :
    (conformance setup traced A (guard setup traced opens)).Stable t
      (InPass t w past rows rest done) := by
  intro s s' hs hs' hapart h
  have hmove := Unmoved.of_apart hapart
  refine ⟨Steady.deleting s s' hs hs' hmove h.deleting, ?_,
    Steady.tagged _ s s' hs hs' hmove h.tagged, Steady.filtered w s s' hs hs' hmove h.filtered,
    h.logged.trans hmove.log, ?_, ?_, ?_, ?_, ?_⟩
  · rw [hapart.changing, h.changing]
  · exact fun i hi => h.pending i ((hmove.rows.own i none).mp hi)
  · exact fun e he r hr hw => (h.erased e he r hr hw).imp_left hmove.rows.erased
  · exact fun y hy => (h.selected y hy).imp_left hmove.rows.erased
  · intro x hx
    obtain ⟨hmem, hholds, hknown, hpast⟩ := h.remaining x hx
    exact ⟨hmem, hholds, Steady.known x.1 x.2 s s' hs hs' hmove hknown, hpast⟩
  · exact fun hdone x hx hi => h.count hdone x hx ((hmove.rows.own x.1 none).mp hi)

private theorem InPass.deleteRow {s : State} {x : ℕ × RefreshToken}
    {rest done done' : List (ℕ × RefreshToken)} (h : InPass t w past rows (x :: rest) done s)
    (hdone : done' ≠ []) : InPass t w past rows rest done' (deleteRow t x.1 s) := by
  have hpast : Satisfied w x.1 past := by
    obtain ⟨-, hholds, -, e, he, heq⟩ := h.remaining x (.head _)
    exact ⟨e, he, by rw [heq], x.2, by rw [heq], hholds⟩
  refine ⟨h.deleting.deleteRow, h.changing, h.tagged, ?_, h.logged, ?_, ?_, ?_, ?_,
    fun hnil => (hdone hnil).elim⟩
  · rintro i (hi | hi)
    · rcases deleteRow_pending hi with ⟨rfl, -⟩ | hi
      · exact hpast.mono h.logged
      · exact h.filtered i (.inl hi)
    · exact h.filtered i (.inr hi)
  · intro i hi
    rcases deleteRow_pending hi with ⟨rfl, -⟩ | hi
    · exact hpast
    · exact h.pending i hi
  · intro e he r hr hw
    rcases h.erased e he r hr hw with herased | ⟨y, hy, heq⟩
    · exact .inl (deleteRow_erased herased)
    · rcases List.mem_cons.mp hy with rfl | hy
      · exact .inl (heq ▸ deleteRow_erased_self)
      · exact .inr ⟨y, hy, heq⟩
  · intro z hz
    rcases h.selected z hz with herased | ⟨y, hy, heq⟩
    · exact .inl (deleteRow_erased herased)
    · rcases List.mem_cons.mp hy with rfl | hy
      · exact .inl (heq ▸ deleteRow_erased_self)
      · exact .inr ⟨y, hy, heq⟩
  · intro y hy
    obtain ⟨hmem, hholds, hknown, hpast⟩ := h.remaining y (.tail _ hy)
    exact ⟨hmem, hholds, hknown.deleteRow, hpast⟩

/-- The visit finds that the row is gone. -/
private theorem InPass.skip {s : State} {x : ℕ × RefreshToken}
    {rest done : List (ℕ × RefreshToken)} (h : InPass t w past rows (x :: rest) done s)
    (herased : s.db.refreshTokens.Erased t x.1) : InPass t w past rows rest done s :=
  { h with
    erased := fun e he r hr hw => by
      rcases h.erased e he r hr hw with herased | ⟨y, hy, heq⟩
      · exact .inl herased
      · rcases List.mem_cons.mp hy with rfl | hy
        · exact .inl (heq ▸ herased)
        · exact .inr ⟨y, hy, heq⟩
    selected := fun z hz => by
      rcases h.selected z hz with herased | ⟨y, hy, heq⟩
      · exact .inl herased
      · rcases List.mem_cons.mp hy with rfl | hy
        · exact .inl (heq ▸ herased)
        · exact .inr ⟨y, hy, heq⟩
    remaining := fun y hy => h.remaining y (.tail _ hy) }

theorem InPass.visit (hw : Revokes w) (x : ℕ × RefreshToken)
    (rest done : List (ℕ × RefreshToken)) :
    Conforms setup traced opens A t
      (fun reply => InPass t w past rows rest (done ++ reply.toList.map fun row => (x.1, row)))
      (Outcome t) (refreshTokens (.visit x.1 w .delete))
      (InPass t w past rows (x :: rest) done) := by
  refine .send (InPass.stable _ _) ?_ fun _ => InPass.stable _ _
  refine conformance_answers (fun s _ _ h => ?_) fun s o reply s' _ _ h hexec => ?_
  · obtain ⟨hmem, -, -, -⟩ := h.remaining x (.head _)
    exact ⟨h.deleting, fun _ => ⟨h.tagged, rows, x.2, h.changing, hmem⟩,
      fun hnot => (hnot hw).elim⟩
  · obtain ⟨hlocked, ⟨old, -, -, rfl, rfl⟩ | ⟨hnot, rfl, rfl⟩⟩ := exec_visit_request hexec
    · exact h.deleteRow (by simp)
    · obtain ⟨-, hholds, hknown, -⟩ := h.remaining x (.head _)
      have hview : s'.db.refreshTokens.view t x.1 = none := by
        cases hview : s'.db.refreshTokens.view t x.1 with
        | none => rfl
        | some old =>
            have hfalse := hnot old hview
            rw [← holds_congr hw (hknown.2 old (version_of_view hview)), hholds] at hfalse
            cases hfalse
      simpa using h.skip (erased_of_view_eq_none hknown.1 hlocked hview)

/-! ## Revocations -/

/-- Between two passes of a revocation. On the shared client every pass is committed. -/
structure Passing (t : ℕ) (db : Client) (w : RefreshTokenWhere) (s : State) : Prop where
  deleting : Deleting t s
  closed : Closed t w s
  tagged : Tagged t (· = w) s
  filtered : Filtered t w s
  clean : db = .prisma → Clean t s

variable {db : Client}

theorem Steady.passing : Steady setup traced t (Passing t db w) :=
  fun s s' hs hs' hmove h =>
    ⟨Steady.deleting s s' hs hs' hmove h.deleting, Steady.closed w s s' hs hs' hmove h.closed,
      Steady.tagged _ s s' hs hs' hmove h.tagged, Steady.filtered w s s' hs hs' hmove h.filtered,
      fun hdb => Steady.clean s s' hs hs' hmove (h.clean hdb)⟩

theorem Clean.closed {s : State} (h : Clean t s) : Closed t w s :=
  ⟨[], List.nil_prefix, fun i hi => (h i none hi).elim, by simp⟩

theorem scan_conforms (hw : Revokes w) :
    Conforms setup traced opens A t
      (fun rows s => ∃ past, InPass t w past rows rows [] s) (Outcome t)
      (refreshTokens (.scan w)) (Passing t db w) := by
  refine .send Steady.passing.stable ?_ fun rows => .exists fun past => InPass.stable rows []
  refine conformance_answers (fun _ _ _ h _ => h.deleting) fun s o rows s' hs _ h hexec => ?_
  obtain ⟨rfl, hrows⟩ := exec_scan_request hexec
  refine ⟨s.db.refreshTokens.log, h.deleting, by simp, h.tagged, h.filtered, List.prefix_refl _,
    fun i hi => h.filtered i (.inl hi), ?_, ?_, ?_, ?_⟩
  · intro e he r hr hholds
    cases hview : s.db.refreshTokens.view t e.2.1 with
    | none => exact .inl (hs.refreshTokens.erased ⟨e, he, rfl⟩ hview)
    | some r' =>
        have hlog : s.db.refreshTokens.Record e.2.1 r := .inr ⟨e.1, by rw [← hr]; exact he⟩
        have hsame := hs.coherent _ _ _ hlog (.inl (version_of_view hview))
        rw [holds_congr hw hsame] at hholds
        exact .inr ⟨(e.2.1, r'), (hrows _).mpr ⟨hview, hholds⟩, rfl⟩
  · exact fun y hy => .inr ⟨y, hy, rfl⟩
  · intro x hx
    obtain ⟨hview, hholds⟩ := (hrows x).mp hx
    refine ⟨hx, hholds, ⟨Table.mem_of_view hview, fun r' hr' => ?_⟩, ?_⟩
    · exact hs.coherent _ _ _ (.inl (version_of_view hview)) (.inl hr')
    · exact hs.logged _ _ (h.deleting.committed_of_view hview)
  · intro _ x hx hi
    have hview := Table.view_of_pending (T := s.db.refreshTokens) hi
    rw [((hrows x).mp hx).1] at hview
    cases hview

/-- The effect of the end of a DELETE. -/
theorem exec_deleted {o : Oracle} {s s' : State} {count : ℕ} {reply : Unit}
    (h : (Request.sql (.deleted db w count)).exec setup t o s = some (reply, s')) :
    s' = { s with db := match db with
      | .prisma => (s.db.tag t w count).commitAll t
      | .tx => s.db.tag t w count } := by
  simp only [Request.exec, Option.map_eq_some_iff, Prod.mk.injEq] at h
  obtain ⟨⟨reply', d⟩, hexec, -, rfl⟩ := h
  cases db <;>
    simp only [Sql.exec, Db.unlessPoisoned_eq_some, Option.some.injEq, Prod.mk.injEq] at hexec <;>
    obtain ⟨-, -, rfl⟩ := hexec <;> rfl

theorem Tagged.cons {s : State} {d : Db} {count : ℕ} {p : RefreshTokenWhere → Prop}
    (h : Tagged t p s) (hw : Revokes w → p w) (hd : d.tags = (t, w, count) :: s.db.tags) :
    Tagged t p { s with db := d } := by
  intro x hx hxt hrevokes
  simp only [hd] at hx
  rcases List.mem_cons.mp hx with rfl | hx
  · exact hw hrevokes
  · exact h x hx hxt hrevokes

theorem clean_commitAll {s : State} {d : Db} :
    Clean t { s with db := d.commitAll t } :=
  fun _ _ hi => (Table.commit_pending.mp hi).2 rfl

theorem clean_abortAll {s : State} {d : Db} : Clean t { s with db := d.abortAll t } :=
  fun _ _ hi => (Table.abort_pending.mp hi).2 rfl

theorem filtered_commitAll {s : State} {d : Db} (h : Filtered t w { s with db := d }) :
    Filtered t w { s with db := d.commitAll t } := by
  rintro i (hi | hi)
  · exact ((Table.commit_pending.mp hi).2 rfl).elim
  · have hlog : d.refreshTokens.log <+: (d.commitAll t).refreshTokens.log :=
      List.prefix_append _ _
    rcases List.mem_append.mp hi with hi | hi
    · exact (h i (.inr hi)).mono hlog
    · exact (h i (.inl (Table.mem_writes.mp hi).2)).mono hlog

theorem InPass.closed {s : State} {done : List (ℕ × RefreshToken)}
    (h : InPass t w past rows [] done s) : Closed t w s :=
  ⟨past, h.logged, h.pending, fun e he r hr hholds =>
    (h.erased e he r hr hholds).resolve_right (by simp)⟩

theorem InPass.passed {s : State} {done : List (ℕ × RefreshToken)}
    (h : InPass t w past rows [] done s) : Passed t w done.length s where
  tagged := h.tagged
  filtered := h.filtered
  erased := ⟨rows, h.changing, fun x hx => ⟨(h.selected x hx).resolve_right (by simp),
    fun hzero => h.count (List.length_eq_zero_iff.mp hzero) x hx⟩⟩

theorem Deleting.mayCommit {s : State} (hw : Revokes w) (h : Deleting t s)
    (hclosed : Closed t w s) : MayCommit traced t s :=
  ⟨fun i r hi => (h.claimed i r hi).elim, fun _ => .inr ⟨w, hw, hclosed⟩⟩

theorem deleted_conforms (hw : Revokes w) (done : List (ℕ × RefreshToken)) :
    Conforms setup traced opens A t
      (fun _ s => Passing t db w s ∧ (t, w, done.length) ∈ s.db.tags) (Outcome t)
      (statement (.deleted db w done.length)) (InPass t w past rows [] done) := by
  refine .send (InPass.stable _ _) ?_ fun _ => (Steady.passing.and (.tag _)).stable
  refine conformance_answers (fun s _ _ h => ⟨fun _ => h.passed, fun _ =>
    h.deleting.mayCommit hw h.closed⟩) fun s o _ s' _ _ h hexec => ?_
  rw [exec_deleted hexec]
  cases db with
  | prisma =>
      exact ⟨⟨clean_commitAll.deleting, clean_commitAll.closed, h.tagged.cons (fun _ => rfl) rfl,
        filtered_commitAll (s := s) (d := s.db.tag t w done.length) h.filtered,
        fun _ => clean_commitAll⟩, .head _⟩
  | tx =>
      exact ⟨⟨h.deleting, h.closed, h.tagged.cons (fun _ => rfl) rfl, h.filtered, nofun⟩, .head _⟩

theorem deleteRefreshTokens_conforms (hw : Revokes w) :
    Conforms setup traced opens A t
      (fun count s => Passing t db w s ∧ (t, w, count) ∈ s.db.tags) (Outcome t)
      (deleteRefreshTokens db w) (Passing t db w) := by
  refine .bind (scan_conforms hw) fun rows => ?_
  refine .seq (fun done s => ∃ past, InPass t w past rows [] done s) ?_ fun done => ?_
  · refine .exists fun past => ?_
    exact (visitAll_meets (J := InPass t w past rows) (InPass.stable []) (InPass.visit hw) rows
      []).mono (fun done s _ h => ⟨past, h⟩) fun _ => .refl
  · refine .exists fun past => .bind (deleted_conforms hw done) fun _ => ?_
    exact .pure (Steady.passing.and (.tag _)).stable .refl

theorem revocationPasses_conforms (hw : Revokes w) (removed passes : ℕ) :
    Conforms setup traced opens A t
      (fun _ s => Passing t db w s ∧ (t, w, 0) ∈ s.db.tags) (Outcome t)
      (revocationPasses db w removed passes) (Passing t db w) := by
  induction passes generalizing removed with
  | zero => exact .throw (Steady.outcome _).stable fun s _ _ => .inr (.inl rfl)
  | succ passes ih =>
      refine .bind (deleteRefreshTokens_conforms hw) fun count => ?_
      split
      · rename_i hzero
        exact .pure (Steady.passing.and (.tag _)).stable fun s _ h => hzero ▸ h
      · exact (ih (removed + count)).weaken fun s _ h => h.1

theorem revokeRefreshTokens_conforms (hw : Revokes w) :
    Conforms setup traced opens A t
      (fun _ s => Passing t db w s ∧ (t, w, 0) ∈ s.db.tags) (Outcome t)
      (revokeRefreshTokens db w) (Passing t db w) :=
  revocationPasses_conforms hw 0 MAX_REVOCATION_PASSES

/-! ## Deletions of expired tokens -/

/-- While expired rows are deleted: `rest` are those not yet visited. -/
structure Sweeping (traced : Prop) (t : ℕ) (rest : List (ℕ × RefreshToken)) (s : State) :
    Prop where
  deleting : Deleting t s
  untagged : Tagged t (fun _ => False) s
  lapsed : traced → ∀ i, s.db.refreshTokens.pending i = some (t, none) → Lapsed s i
  remaining : ∀ x ∈ rest, Known x.1 x.2 s ∧ (traced → TokenLapsed x.2.token s)

theorem Steady.sweeping (rest : List (ℕ × RefreshToken)) :
    Steady setup traced t (Sweeping traced t rest) :=
  fun s s' hs hs' hmove h =>
    ⟨Steady.deleting s s' hs hs' hmove h.deleting,
      Steady.tagged _ s s' hs hs' hmove h.untagged,
      fun htraced => Steady.lapsed htraced s s' hs hs' hmove (h.lapsed htraced),
      fun x hx => ⟨Steady.known x.1 x.2 s s' hs hs' hmove (h.remaining x hx).1, fun htraced =>
        Lasting.tokenLapsed htraced _ s s' hmove.toLater ((h.remaining x hx).2 htraced)⟩⟩

theorem Clean.sweeping {s : State} (h : Clean t s) (huntagged : Tagged t (fun _ => False) s) :
    Sweeping traced t [] s :=
  ⟨h.deleting, huntagged, fun _ i hi => (h i none hi).elim, by simp⟩

theorem Sweeping.told {s : State} {rest : List (ℕ × RefreshToken)}
    (h : Sweeping traced t rest s) : Told t s :=
  fun x hx hxt hw => (h.untagged x hx hxt hw).elim

theorem Sweeping.mayCommit {s : State} (h : Sweeping traced t [] s) : MayCommit traced t s :=
  ⟨fun i r hi => (h.deleting.claimed i r hi).elim, fun htraced => .inl (h.lapsed htraced)⟩

private theorem Sweeping.lapsed_row {s : State} {x : ℕ × RefreshToken}
    {rest : List (ℕ × RefreshToken)} (h : Sweeping traced t (x :: rest) s) (htraced : traced) :
    Lapsed s x.1 := by
  obtain ⟨hknown, hlapsed⟩ := h.remaining x (.head _)
  intro r hr
  obtain ⟨e, he, r', hr', htoken, hexpires⟩ := hlapsed htraced
  exact ⟨e, he, r', hr', by rw [htoken, (hknown.2 r (.inl hr)).1], hexpires⟩

theorem Sweeping.visit (hw : ¬ Revokes w) (x : ℕ × RefreshToken)
    (rest : List (ℕ × RefreshToken)) :
    Conforms setup traced opens A t (fun _ => Sweeping traced t rest) (Outcome t)
      (refreshTokens (.visit x.1 w .delete)) (Sweeping traced t (x :: rest)) := by
  refine .send (Steady.sweeping _).stable ?_ fun _ => (Steady.sweeping _).stable
  refine conformance_answers (fun s _ _ h => ?_) fun s o reply s' _ _ h hexec => ?_
  · exact ⟨h.deleting, fun hrevokes => (hw hrevokes).elim,
      fun _ => ⟨h.untagged, fun htraced => h.lapsed_row htraced⟩⟩
  · have hrest : ∀ y ∈ rest, Known y.1 y.2 s ∧ (traced → TokenLapsed y.2.token s) :=
      fun y hy => h.remaining y (.tail _ hy)
    obtain ⟨-, ⟨old, -, -, -, rfl⟩ | ⟨-, -, rfl⟩⟩ := exec_visit_request hexec
    · refine ⟨h.deleting.deleteRow, h.untagged, fun htraced i hi => ?_, fun y hy =>
        ⟨(hrest y hy).1.deleteRow, (hrest y hy).2⟩⟩
      rcases deleteRow_pending hi with ⟨rfl, -⟩ | hi
      · exact (h.lapsed_row htraced).deleteRow
      · exact (h.lapsed htraced i hi).deleteRow
    · exact { h with remaining := hrest }

theorem Sweeping.visitAll (hw : ¬ Revokes w) (rows : List (ℕ × RefreshToken)) :
    Conforms setup traced opens A t (fun _ => Sweeping traced t []) (Outcome t)
      (visitAll refreshTokens w .delete rows) (Sweeping traced t rows) :=
  visitAll_meets (J := fun rest _ => Sweeping traced t rest) (fun _ => (Steady.sweeping []).stable)
    (fun x rest _ => Sweeping.visit hw x rest) rows []

/-- A scan selects rows whose tokens have expired. -/
theorem Sweeping.scan (hw : ¬ Revokes w) {P : State → Prop} (hP : Steady setup traced t P)
    (hpre : ∀ s, s.WellFormed setup traced → P s → Sweeping traced t [] s)
    (hlapsed : traced → ∀ s i r, P s → (∃ e ∈ s.db.refreshTokens.log, e.2 = (i, some r)) →
      Condition.holds w i r = true → TokenLapsed r.token s) :
    Conforms setup traced opens A t (fun rows s => Sweeping traced t rows s ∧ P s) (Outcome t)
      (refreshTokens (.scan w)) P := by
  refine .send hP.stable ?_ fun rows => ((Steady.sweeping rows).and hP).stable
  refine conformance_answers (fun _ _ _ _ hrevokes => (hw hrevokes).elim)
    fun s o rows s' hs _ h hexec => ?_
  have hmove : Unmoved setup traced t s s' :=
    .of_neutral (r := .sql (.refreshTokens (.scan w))) hw hexec
  have hs' := hs.exec hexec
  refine ⟨?_, hP s s' hs hs' hmove h⟩
  have hsweep := Steady.sweeping _ s s' hs hs' hmove (hpre s hs h)
  refine { hsweep with remaining := fun x hx => ?_ }
  obtain ⟨-, hrows⟩ := exec_scan_request hexec
  obtain ⟨hview, hholds⟩ := (hrows x).mp hx
  have hknown : Known x.1 x.2 s := ⟨Table.mem_of_view hview, fun r' hr' =>
    hs.coherent _ _ _ (.inl (version_of_view hview)) (.inl hr')⟩
  refine ⟨Steady.known x.1 x.2 s s' hs hs' hmove hknown, fun htraced => ?_⟩
  have hlogged := hs.logged _ _ ((hpre s hs h).deleting.committed_of_view hview)
  exact Lasting.tokenLapsed htraced _ s s' hmove.toLater
    (hlapsed htraced s x.1 x.2 h hlogged hholds)

/-- Before an expired token is deleted. -/
structure MayExpire (traced : Prop) (t : ℕ) (token : String) (s : State) : Prop where
  clean : Clean t s
  untagged : Tagged t (fun _ => False) s
  lapsed : traced → TokenLapsed token s

theorem Steady.mayExpire (token : String) : Steady setup traced t (MayExpire traced t token) :=
  fun s s' hs hs' hmove h =>
    ⟨Steady.clean s s' hs hs' hmove h.clean, Steady.tagged _ s s' hs hs' hmove h.untagged,
      fun htraced => Lasting.tokenLapsed htraced _ s s' hmove.toLater (h.lapsed htraced)⟩

theorem deleteRefreshToken_conforms (token : String) :
    Conforms setup traced opens A t (fun _ => Sweeping traced t []) (Outcome t)
      (deleteRefreshToken .tx token) (MayExpire traced t token) := by
  have hscan : Conforms setup traced opens A t
      (fun rows s => Sweeping traced t rows s ∧ MayExpire traced t token s) (Outcome t)
      (refreshTokens (.scan (.token token))) (MayExpire traced t token) :=
    Sweeping.scan (by simp [Revokes]) (Steady.mayExpire token)
      (fun s _ h => h.clean.sweeping h.untagged) fun htraced s i r h _ hholds => by
        have heq : r.token = token := by simpa [Condition.holds] using hholds
        exact heq ▸ h.lapsed htraced
  refine .bind hscan fun rows => .bind ((Sweeping.visitAll (by simp [Revokes]) rows).weaken
    fun s _ h => h.1) fun deleted => ?_
  refine .seq (fun _ => Sweeping traced t []) (.send (Steady.sweeping _).stable ?_
    fun _ => (Steady.sweeping _).stable) fun _ => .pure (Steady.sweeping _).stable .refl
  have hrevokes : ¬ Revokes (.token token) := by simp [Revokes]
  refine conformance_answers (fun s _ _ h => ⟨fun hw => (hrevokes hw).elim, nofun⟩)
    fun s o _ s' _ _ h hexec => ?_
  rw [exec_deleted hexec]
  exact ⟨h.deleting, h.untagged.cons (fun hw => (hrevokes hw).elim) rfl, h.lapsed, by simp⟩

/-- Between two batches of the cleanup. -/
structure MaySweep (traced : Prop) (t : ℕ) (before : Time) (s : State) : Prop where
  clean : Clean t s
  untagged : Tagged t (fun _ => False) s
  before : traced → before ≤ s.clock

theorem Steady.maySweep (before : Time) : Steady setup traced t (MaySweep traced t before) :=
  fun s s' hs hs' hmove h =>
    ⟨Steady.clean s s' hs hs' hmove h.clean, Steady.tagged _ s s' hs hs' hmove h.untagged,
      fun htraced => Lasting.clock htraced _ s s' hmove.toLater (h.before htraced)⟩

/-- The effect of a statement that ends on the shared client. -/
theorem exec_complete {o : Oracle} {s s' : State} {reply : Unit}
    (h : (Request.sql (.complete .prisma)).exec setup t o s = some (reply, s')) :
    s' = { s with db := s.db.commitAll t } := by
  simp only [Request.exec, Option.map_eq_some_iff, Prod.mk.injEq] at h
  obtain ⟨⟨reply', d⟩, hexec, -, rfl⟩ := h
  simp only [Sql.exec, Db.unlessPoisoned_eq_some, Option.some.injEq, Prod.mk.injEq] at hexec
  obtain ⟨-, -, rfl⟩ := hexec
  rfl

theorem Sweeping.subset {s : State} {rows rest : List (ℕ × RefreshToken)}
    (h : Sweeping traced t rows s) (hrest : ∀ x ∈ rest, x ∈ rows) : Sweeping traced t rest s :=
  { h with remaining := fun x hx => h.remaining x (hrest x hx) }

/-- The rows of one batch, after a scan that selected all of them. -/
private theorem sweepBatch_conforms (before : Time) (rows batch : List (ℕ × RefreshToken))
    (hbatch : ∀ x ∈ batch, x ∈ rows) :
    Conforms setup traced opens A t
      (fun _ s => Sweeping traced t [] s ∧ (traced → before ≤ s.clock))
      (Outcome t) (visitAll refreshTokens (.ids (batch.map Prod.fst)) .delete batch)
      fun s => Sweeping traced t rows s ∧ MaySweep traced t before s := by
  have htime : Lasting setup traced fun s => traced → before ≤ s.clock :=
    .imp fun htraced => .clock htraced before
  have hw : ¬ Revokes (.ids (batch.map Prod.fst)) := by simp [Revokes]
  exact ((conforms_frame htime (Sweeping.visitAll hw batch)).weaken
    fun s _ h => ⟨h.1.subset hbatch, h.2.before⟩).mono (fun _ => .refl) fun _ _ _ h => h.1

theorem deleteExpiredRefreshTokens_conforms (before : Time) (batchSize maxBatches : ℕ) :
    Conforms setup traced opens A t (fun _ => MaySweep traced t before) (Outcome t)
      (deleteExpiredRefreshTokens before batchSize maxBatches) (MaySweep traced t before) := by
  unfold deleteExpiredRefreshTokens
  induction maxBatches with
  | zero => exact .pure (Steady.maySweep _).stable .refl
  | succ batches ih =>
      have hscan : Conforms setup traced opens A t
          (fun rows s => Sweeping traced t rows s ∧ MaySweep traced t before s) (Outcome t)
          (refreshTokens (.scan (.expired before))) (MaySweep traced t before) :=
        Sweeping.scan (by simp [Revokes]) (Steady.maySweep before)
          (fun s _ h => h.clean.sweeping h.untagged) fun htraced s i r h ⟨e, he, heq⟩ hholds => by
            have hlt : r.expiresAt < before := by simpa [Condition.holds] using hholds
            exact ⟨e, he, r, by rw [heq], rfl,
              Nat.le_trans (Nat.le_of_lt hlt) (h.before htraced)⟩
      refine .bind hscan fun rows => ?_
      refine .bind (sweepBatch_conforms before rows _ fun x hx =>
        List.mem_mergeSort.mp (List.mem_of_mem_take hx)) fun deleted => ?_
      have hcomplete : Conforms setup traced opens A t (fun _ => MaySweep traced t before)
          (Outcome t) (statement (.complete .prisma))
          fun s => Sweeping traced t [] s ∧ (traced → before ≤ s.clock) := by
        refine .send ((Steady.sweeping _).and (.imp fun htraced =>
          (Lasting.clock htraced before).steady)).stable ?_ fun _ => (Steady.maySweep _).stable
        refine conformance_answers (fun s _ _ h => h.1.mayCommit) fun s o _ s' _ _ h hexec => ?_
        rw [exec_complete hexec]
        exact ⟨clean_commitAll, h.1.untagged, h.2⟩
      refine .bind hcomplete fun _ => ?_
      split
      · exact .pure (Steady.maySweep _).stable .refl
      · exact .bind ih fun removed => .pure (Steady.maySweep _).stable .refl

end ExpressCore.Session
