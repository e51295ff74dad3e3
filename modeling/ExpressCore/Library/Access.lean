import ExpressCore.Library.Table
import ExpressCore.Library.Program

/-! # Statements on one table

A statement that changes rows runs in two stages, as under READ COMMITTED: `scan` fixes the
rows its condition selects when it starts, then each of them is visited. A visit waits while
another transaction holds the row's lock and checks the condition again on the row it finds
after that. -/

namespace ReadCommitted

/-- Conditions `W` on rows of type `ρ` with ids of type `ι`. -/
class Condition (W ι ρ : Type) where
  holds : W → ι → ρ → Bool

/-- Changes `C` of rows of type `ρ`; the result `none` deletes the row. -/
class Change (C ρ : Type) where
  apply : C → ρ → Option ρ

/-- One access to a table. `visit` is one row of an UPDATE or DELETE, `visitUnlocked` is the
same under SKIP LOCKED, and `upsert` is INSERT with an ON CONFLICT clause: `key` selects the
row in conflict and `guard` is the condition of the update. -/
inductive Access (ι ρ W C : Type) where
  | find (w : W)
  | scan (w : W)
  | visit (i : ι) (w : W) (c : C)
  | visitUnlocked (i : ι) (w : W) (c : C)
  | insert (row : ρ)
  | upsert (key : W) (row : ρ) (guard : W) (c : C)

variable {ι τ ρ W C : Type}

namespace Access

/-- A visit answers with the row as changed, or as it was when it is deleted. -/
abbrev Reply : Access ι ρ W C → Type
  | find _ => Option (ι × ρ)
  | scan _ => List (ι × ρ)
  | visit _ _ _ => Option ρ
  | visitUnlocked _ _ _ => Option ρ
  | insert _ => ι
  | upsert _ _ _ _ => Option (ι × ρ)

/-- The accesses that may change the table. -/
def Writes : Access ι ρ W C → Prop
  | find _ => False
  | scan _ => False
  | _ => True

end Access

variable [DecidableEq ι] [DecidableEq τ] [Condition W ι ρ] [Change C ρ]

namespace Table

/-- The rows `t` sees that satisfy `w`. -/
def matching (T : Table ι τ ρ) (t : τ) (w : W) : List (ι × ρ) :=
  (T.visible t).filter fun x => Condition.holds w x.1 x.2

/-- One row of an UPDATE or DELETE, when no other transaction holds its lock. -/
def visit (T : Table ι τ ρ) (t : τ) (i : ι) (w : W) (c : C) : Option ρ × Table ι τ ρ :=
  match T.view t i with
  | some row =>
      if Condition.holds w i row then
        (some ((Change.apply c row).getD row), T.write t i (Change.apply c row))
      else (none, T)
  | none => (none, T)

/-- The rows another transaction has inserted, changed or deleted without ending, and that
satisfy `w` before or after that: an insertion in conflict with one of them waits. -/
def contended (T : Table ι τ ρ) (t : τ) (w : W) : Bool :=
  T.ids.any fun i => T.locked t i &&
    ((T.committed i).any (Condition.holds w i) ||
      ((T.pending i).bind fun x => x.2).any (Condition.holds w i))

/-- INSERT … ON CONFLICT, when it does not wait. -/
def upsert (T : Table ι τ ρ) (t : τ) (fresh : ι) (key : W) (row : ρ) (guard : W) (c : C) :
    Option (ι × ρ) × Table ι τ ρ :=
  match T.matching t key with
  | [] => (some (fresh, row), T.write t fresh (some row))
  | (i, old) :: _ =>
      if Condition.holds guard i old then
        (some (i, (Change.apply c old).getD old), T.write t i (Change.apply c old))
      else (none, T)

end Table

/-- The effect of an access of transaction `t`. `pick` chooses among the rows a `find` may
return, and `fresh` is the id of an inserted row. -/
def Access.exec (t : τ) (pick : ℕ) (fresh : ι) :
    (a : Access ι ρ W C) → Table ι τ ρ → Option (a.Reply × Table ι τ ρ)
  | .find w, T =>
      match T.matching t w with
      | [] => some (none, T.take t)
      | rows => (rows[pick]?).map fun row => (some row, T.take t)
  | .scan w, T => some (T.matching t w, T.take t)
  | .visit i w c, T => if T.locked t i then none else some (T.visit t i w c)
  | .visitUnlocked i w c, T => if T.locked t i then some (none, T) else some (T.visit t i w c)
  | .insert row, T =>
      if fresh ∈ T.ids then none else some (fresh, T.write t fresh (some row))
  | .upsert key row guard c, T =>
      if T.contended t key || decide (fresh ∈ T.ids) then none
      else some (T.upsert t fresh key row guard c)

/-! ## What an access tells and does -/

variable {T T' : Table ι τ ρ} {t : τ} {pick : ℕ} {fresh i : ι} {w : W} {c : C} {row : ρ}

theorem mem_matching {x : ι × ρ} :
    x ∈ T.matching t w ↔ T.view t x.1 = some x.2 ∧ Condition.holds w x.1 x.2 = true := by
  simp only [Table.matching, List.mem_filter]
  exact and_congr_left fun _ => Table.mem_visible

theorem matching_keys_nodup : ((T.matching t w).map Prod.fst).Nodup :=
  (List.filter_sublist.map Prod.fst).nodup Table.visible_keys_nodup

theorem exec_find_none
    (h : Access.exec t pick fresh (.find w : Access ι ρ W C) T = some (none, T')) :
    T' = T.take t ∧ ∀ j r, T.view t j = some r → Condition.holds w j r = false := by
  simp only [Access.exec] at h
  split at h
  · rename_i hnil
    simp only [Option.some.injEq, Prod.mk.injEq, true_and] at h
    refine ⟨h.symm, fun j r hview => ?_⟩
    by_contra hne
    have hmem : (j, r) ∈ T.matching t w := mem_matching.mpr ⟨hview, by simpa using hne⟩
    simp [hnil] at hmem
  · simp only [Option.map_eq_some_iff, Prod.mk.injEq, reduceCtorEq, false_and, and_false,
      exists_false] at h

theorem exec_find_some {x : ι × ρ}
    (h : Access.exec t pick fresh (.find w : Access ι ρ W C) T = some (some x, T')) :
    T' = T.take t ∧ T.view t x.1 = some x.2 ∧ Condition.holds w x.1 x.2 = true := by
  simp only [Access.exec] at h
  split at h
  · simp only [Option.some.injEq, Prod.mk.injEq, reduceCtorEq, false_and] at h
  · simp only [Option.map_eq_some_iff, Prod.mk.injEq, Option.some.injEq] at h
    obtain ⟨y, hy, rfl, rfl⟩ := h
    exact ⟨rfl, mem_matching.mp (List.mem_of_getElem? hy)⟩

theorem exec_find_table {reply : (Access.find w : Access ι ρ W C).Reply}
    (h : Access.exec t pick fresh (.find w : Access ι ρ W C) T = some (reply, T')) :
    T' = T.take t := by
  cases reply with
  | none => exact (exec_find_none h).1
  | some x => exact (exec_find_some h).1

theorem exec_scan {rows : List (ι × ρ)}
    (h : Access.exec t pick fresh (.scan w : Access ι ρ W C) T = some (rows, T')) :
    T' = T.take t ∧
      ∀ x, x ∈ rows ↔ T.view t x.1 = some x.2 ∧ Condition.holds w x.1 x.2 = true := by
  simp only [Access.exec, Option.some.injEq, Prod.mk.injEq] at h
  obtain ⟨rfl, rfl⟩ := h
  exact ⟨rfl, fun x => mem_matching⟩

theorem exec_scan_nodup {rows : List (ι × ρ)}
    (h : Access.exec t pick fresh (.scan w : Access ι ρ W C) T = some (rows, T')) :
    (rows.map Prod.fst).Nodup := by
  simp only [Access.exec, Option.some.injEq, Prod.mk.injEq] at h
  exact h.1 ▸ matching_keys_nodup

/-- A visit changes the row or finds that it is gone or no longer satisfies the condition. -/
theorem visit_cases :
    (∃ old, T.view t i = some old ∧ Condition.holds w i old = true ∧
        T.visit t i w c =
          (some ((Change.apply c old).getD old), T.write t i (Change.apply c old))) ∨
      ((∀ old, T.view t i = some old → Condition.holds w i old = false) ∧
        T.visit t i w c = (none, T)) := by
  unfold Table.visit
  cases hview : T.view t i with
  | none => exact .inr ⟨by simp, rfl⟩
  | some old =>
      by_cases hw : Condition.holds w i old = true
      · exact .inl ⟨old, rfl, hw, by simp [hw]⟩
      · exact .inr ⟨by simp [hw], by simp [hw]⟩

theorem exec_visit {reply : Option ρ}
    (h : Access.exec t pick fresh (.visit i w c : Access ι ρ W C) T = some (reply, T')) :
    T.locked t i = false ∧
      ((∃ old, T.view t i = some old ∧ Condition.holds w i old = true ∧
          reply = some ((Change.apply c old).getD old) ∧
          T' = T.write t i (Change.apply c old)) ∨
        ((∀ old, T.view t i = some old → Condition.holds w i old = false) ∧
          reply = none ∧ T' = T)) := by
  simp only [Access.exec] at h
  split at h
  · cases h
  · rename_i hlocked
    refine ⟨by simpa using hlocked, ?_⟩
    rcases visit_cases (T := T) (t := t) (i := i) (w := w) (c := c) with
      ⟨old, hview, hw, hvisit⟩ | ⟨hnot, hvisit⟩
    · rw [hvisit] at h
      simp only [Option.some.injEq, Prod.mk.injEq] at h
      exact .inl ⟨old, hview, hw, h.1.symm, h.2.symm⟩
    · rw [hvisit] at h
      simp only [Option.some.injEq, Prod.mk.injEq] at h
      exact .inr ⟨hnot, h.1.symm, h.2.symm⟩

/-- Under SKIP LOCKED only rows that were changed are answered. -/
theorem exec_visitUnlocked_reply {reply : Option ρ}
    (h : Access.exec t pick fresh (.visitUnlocked i w c : Access ι ρ W C) T = some (reply, T')) :
    (∃ old, T.view t i = some old ∧ Condition.holds w i old = true ∧
      reply = some ((Change.apply c old).getD old) ∧ T' = T.write t i (Change.apply c old)) ∨
        reply = none ∧ T' = T := by
  simp only [Access.exec] at h
  split at h
  · obtain ⟨rfl, rfl⟩ := Prod.mk.inj (Option.some.inj h)
    exact .inr ⟨rfl, rfl⟩
  · rcases visit_cases (T := T) (t := t) (i := i) (w := w) (c := c) with
      ⟨old, hview, hw, hvisit⟩ | ⟨-, hvisit⟩
    · obtain ⟨hreply, htable⟩ := Prod.mk.inj (Option.some.inj (hvisit ▸ h))
      exact .inl ⟨old, hview, hw, hreply.symm, htable.symm⟩
    · obtain ⟨hreply, htable⟩ := Prod.mk.inj (Option.some.inj (hvisit ▸ h))
      exact .inr ⟨hreply.symm, htable.symm⟩

theorem exec_visitUnlocked {reply : Option ρ}
    (h : Access.exec t pick fresh (.visitUnlocked i w c : Access ι ρ W C) T = some (reply, T')) :
    (∃ old, T' = T.write t i (Change.apply c old)) ∨ reply = none ∧ T' = T :=
  (exec_visitUnlocked_reply h).imp_left fun hold => hold.imp fun _ hold => hold.2.2.2

theorem exec_insert {reply : ι}
    (h : Access.exec t pick fresh (.insert row : Access ι ρ W C) T = some (reply, T')) :
    reply = fresh ∧ fresh ∉ T.ids ∧ T' = T.write t fresh (some row) := by
  simp only [Access.exec] at h
  split at h
  · cases h
  · rename_i hfresh
    simp only [Option.some.injEq, Prod.mk.injEq] at h
    exact ⟨h.1.symm, hfresh, h.2.symm⟩

/-- An upsert answers with the row that it has written, or refuses the row in conflict. -/
theorem exec_upsert {key guard : W} {reply : Option (ι × ρ)}
    (h : Access.exec t pick fresh (.upsert key row guard c : Access ι ρ W C) T =
      some (reply, T')) :
    (reply = some (fresh, row) ∧ T' = T.write t fresh (some row)) ∨
      (∃ i old, Condition.holds key i old = true ∧
        reply = some (i, (Change.apply c old).getD old) ∧ T' = T.write t i (Change.apply c old)) ∨
      reply = none ∧ T' = T := by
  simp only [Access.exec] at h
  split at h
  · cases h
  simp only [Option.some.injEq] at h
  unfold Table.upsert at h
  split at h
  · obtain ⟨rfl, rfl⟩ := Prod.mk.inj h
    exact .inl ⟨rfl, rfl⟩
  · rename_i i old rest hmatching
    have hmem : (i, old) ∈ T.matching t key := hmatching ▸ .head _
    split at h
    · obtain ⟨rfl, rfl⟩ := Prod.mk.inj h
      exact .inr (.inl ⟨i, old, (mem_matching.mp hmem).2, rfl, rfl⟩)
    · obtain ⟨rfl, rfl⟩ := Prod.mk.inj h
      exact .inr (.inr ⟨rfl, rfl⟩)

/-- Where the update has no condition of its own, an upsert writes a row. -/
theorem exec_upsert_key {key : W} {reply : Option (ι × ρ)}
    (h : Access.exec t pick fresh (.upsert key row key c : Access ι ρ W C) T =
      some (reply, T')) : ∃ i v, T' = T.write t i v := by
  simp only [Access.exec] at h
  split at h
  · cases h
  simp only [Option.some.injEq] at h
  unfold Table.upsert at h
  split at h
  · exact ⟨_, _, (Prod.mk.inj h).2.symm⟩
  · rename_i i old rest hmatching
    have hmem : (i, old) ∈ T.matching t key := hmatching ▸ .head _
    rw [if_pos (mem_matching.mp hmem).2] at h
    exact ⟨_, _, (Prod.mk.inj h).2.symm⟩

end ReadCommitted
