import ExpressCore.Library.Access

/-! # A transaction that runs alone

What it sees of a table is a partial function from ids to rows, and nothing makes it wait. -/

namespace ReadCommitted

variable {ι τ ρ W C : Type} [DecidableEq ι] [DecidableEq τ] [Condition W ι ρ] [Change C ρ]

/-- The rows after an UPDATE or DELETE. -/
def changed (w : W) (c : C) (R : ι → Option ρ) (i : ι) : Option ρ :=
  (R i).bind fun row => if Condition.holds w i row then Change.apply c row else some row

/-- What an access answers, and what it leaves of the rows. -/
def Access.Does (a : Access ι ρ W C) (reply : a.Reply) (R R' : ι → Option ρ) : Prop :=
  match a, reply with
  | .find w, reply =>
      R' = R ∧ (∀ x, reply = some x → R x.1 = some x.2 ∧ Condition.holds w x.1 x.2 = true) ∧
        (reply = none → ∀ i row, R i = some row → Condition.holds w i row = false)
  | .scan w, rows =>
      R' = R ∧ (rows.map Prod.fst).Nodup ∧
        ∀ x, x ∈ rows ↔ R x.1 = some x.2 ∧ Condition.holds w x.1 x.2 = true
  | .visit i w c, reply =>
      (∃ old, R i = some old ∧ Condition.holds w i old = true ∧
        reply = some ((Change.apply c old).getD old) ∧
        R' = Function.update R i (Change.apply c old)) ∨
      (∀ old, R i = some old → Condition.holds w i old = false) ∧ reply = none ∧ R' = R
  | .visitUnlocked i w c, reply =>
      (∃ old, R i = some old ∧ Condition.holds w i old = true ∧
        reply = some ((Change.apply c old).getD old) ∧
        R' = Function.update R i (Change.apply c old)) ∨
      (∀ old, R i = some old → Condition.holds w i old = false) ∧ reply = none ∧ R' = R
  | .insert row, id => R id = none ∧ R' = Function.update R id (some row)
  | .upsert key row guard c, reply =>
      (∃ id, R id = none ∧ (∀ i old, R i = some old → Condition.holds key i old = false) ∧
        reply = some (id, row) ∧ R' = Function.update R id (some row)) ∨
      ∃ i old, R i = some old ∧ Condition.holds key i old = true ∧
        (Condition.holds guard i old = true ∧ reply = some (i, (Change.apply c old).getD old) ∧
            R' = Function.update R i (Change.apply c old) ∨
          Condition.holds guard i old = false ∧ reply = none ∧ R' = R)

/-- Only `t` has taken locks. -/
def Table.Alone (T : Table ι τ ρ) (t : τ) : Prop :=
  ∀ i x, T.pending i = some x → x.1 = t

variable {T T' : Table ι τ ρ} {t : τ} {i : ι} {version : Option ρ}

theorem Table.view_write :
    (T.write t i version).view t = Function.update (T.view t) i version := by
  funext j
  by_cases hj : j = i
  · subst hj
    rw [Table.view_of_pending Table.write_pending_self, Function.update_self]
  · rw [Function.update_of_ne hj]
    simp [Table.view, Table.write_pending_of_ne hj]

namespace Table.Alone

omit [DecidableEq ι] [DecidableEq τ] in
theorem empty : (Table.empty : Table ι τ ρ).Alone t := nofun

omit [DecidableEq ι] in
theorem take (h : T.Alone t) : (T.take t).Alone t := h

theorem write (h : T.Alone t) : (T.write t i version).Alone t := by
  intro j x hx
  rcases Table.write_pending hx with ⟨-, rfl⟩ | ⟨-, hx⟩
  · rfl
  · exact h j x hx

theorem commit (h : T.Alone t) : (T.commit t).Alone t :=
  fun i x hx => h i x (Table.commit_pending.mp hx).1

theorem abort (h : T.Alone t) : (T.abort t).Alone t :=
  fun i x hx => h i x (Table.abort_pending.mp hx).1

theorem locked (h : T.Alone t) (i : ι) : T.locked t i = false :=
  Table.locked_eq_false.mpr (h i)

/-- After a commit everything is as the transaction left it. -/
theorem commit_committed (_ : T.Alone t) : (T.commit t).committed = T.view t := by
  funext i
  rcases T.commit_committed_cases (t := t) (i := i) with ⟨version, hversion, heq⟩ | ⟨hnot, heq⟩
  · rw [heq, Table.view_of_pending hversion]
  · rw [heq, Table.view_of_not_pending hnot]

theorem commit_view (h : T.Alone t) : (T.commit t).view t = T.view t := by
  funext i
  rw [Table.view_of_not_pending, h.commit_committed]
  exact fun version hversion => (Table.commit_pending.mp hversion).2 rfl

theorem abort_view (T : Table ι τ ρ) : (T.abort t).view t = T.committed := by
  funext i
  exact Table.view_of_not_pending fun version hversion =>
    (Table.abort_pending.mp hversion).2 rfl

end Table.Alone

theorem visit_does (w : W) (c : C) :
    (Access.visit i w c : Access ι ρ W C).Does (T.visit t i w c).1 (T.view t)
      ((T.visit t i w c).2.view t) := by
  rcases visit_cases (T := T) (t := t) (i := i) (w := w) (c := c) with
    ⟨old, hview, hw, hvisit⟩ | ⟨hnot, hvisit⟩
  · rw [hvisit]
    exact .inl ⟨old, hview, hw, rfl, Table.view_write⟩
  · rw [hvisit]
    exact .inr ⟨hnot, rfl, rfl⟩

theorem visit_alone (h : T.Alone t) (w : W) (c : C) :
    (T.visit t i w c).2.Alone t ∧ (T.visit t i w c).2.committed = T.committed := by
  rcases visit_cases (T := T) (t := t) (i := i) (w := w) (c := c) with
    ⟨old, -, -, hvisit⟩ | ⟨-, hvisit⟩
  · rw [hvisit]
    exact ⟨h.write, rfl⟩
  · rw [hvisit]
    exact ⟨h, rfl⟩

theorem not_view_of_not_mem (h : i ∉ T.ids) : T.view t i = none := by
  cases hview : T.view t i with
  | none => rfl
  | some row => exact (h (Table.mem_of_view hview)).elim

theorem upsert_does {fresh : ι} (hfresh : fresh ∉ T.ids) (key : W) (row : ρ) (guard : W) (c : C) :
    (Access.upsert key row guard c : Access ι ρ W C).Does (T.upsert t fresh key row guard c).1
      (T.view t) ((T.upsert t fresh key row guard c).2.view t) := by
  unfold Table.upsert
  split
  · rename_i hnil
    refine .inl ⟨fresh, not_view_of_not_mem hfresh, fun i old hold => ?_, rfl, Table.view_write⟩
    by_contra hne
    have hmem : (i, old) ∈ T.matching t key := mem_matching.mpr ⟨hold, by simpa using hne⟩
    simp [hnil] at hmem
  · rename_i i old rest hmatching
    have hmem : (i, old) ∈ T.matching t key := hmatching ▸ .head _
    obtain ⟨hold, hkey⟩ := mem_matching.mp hmem
    refine .inr ⟨i, old, hold, hkey, ?_⟩
    split
    · rename_i hguard
      exact .inl ⟨hguard, rfl, Table.view_write⟩
    · rename_i hguard
      exact .inr ⟨by simpa using hguard, rfl, rfl⟩

theorem upsert_alone {fresh : ι} (h : T.Alone t) (key : W) (row : ρ) (guard : W) (c : C) :
    (T.upsert t fresh key row guard c).2.Alone t ∧
      (T.upsert t fresh key row guard c).2.committed = T.committed := by
  unfold Table.upsert
  split
  · exact ⟨h.write, rfl⟩
  · split
    · exact ⟨h.write, rfl⟩
    · exact ⟨h, rfl⟩

/-- An access of a transaction that runs alone. -/
theorem exec_does {a : Access ι ρ W C} {reply : a.Reply} {pick : ℕ} {fresh : ι} (h : T.Alone t)
    (hexec : a.exec t pick fresh T = some (reply, T')) :
    T'.Alone t ∧ T'.committed = T.committed ∧ a.Does reply (T.view t) (T'.view t) := by
  cases a with
  | find w =>
      cases reply with
      | none =>
          obtain ⟨rfl, hnone⟩ := exec_find_none hexec
          exact ⟨h.take, rfl, rfl, nofun, fun _ => hnone⟩
      | some x =>
          obtain ⟨rfl, hx⟩ := exec_find_some hexec
          refine ⟨h.take, rfl, rfl, fun y hy => ?_, nofun⟩
          cases hy
          exact hx
  | scan w =>
      obtain ⟨rfl, hrows⟩ := exec_scan hexec
      exact ⟨h.take, rfl, rfl, exec_scan_nodup hexec, hrows⟩
  | visit i w c =>
      simp only [Access.exec, h.locked i, Bool.false_eq_true, if_false, Option.some.injEq] at hexec
      obtain ⟨rfl, rfl⟩ := Prod.mk.inj hexec
      exact ⟨(visit_alone h w c).1, (visit_alone h w c).2, visit_does w c⟩
  | visitUnlocked i w c =>
      simp only [Access.exec, h.locked i, Bool.false_eq_true, if_false, Option.some.injEq] at hexec
      obtain ⟨rfl, rfl⟩ := Prod.mk.inj hexec
      exact ⟨(visit_alone h w c).1, (visit_alone h w c).2, visit_does w c⟩
  | insert row =>
      obtain ⟨rfl, hfresh, rfl⟩ := exec_insert hexec
      exact ⟨h.write, rfl, not_view_of_not_mem hfresh, Table.view_write⟩
  | upsert key row guard c =>
      simp only [Access.exec] at hexec
      split at hexec
      · cases hexec
      · rename_i hfresh
        simp only [Bool.or_eq_true, decide_eq_true_eq, not_or] at hfresh
        obtain ⟨rfl, rfl⟩ := Prod.mk.inj (Option.some.inj hexec)
        exact ⟨(upsert_alone h key row guard c).1, (upsert_alone h key row guard c).2,
          upsert_does hfresh.2 key row guard c⟩

end ReadCommitted
