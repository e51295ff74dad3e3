import ExpressCore.Verification.Sequential.View
import ExpressCore.Verification.System.Statements

/-! # Statements of a thread that runs alone -/

namespace ExpressCore

open ReadCommitted Interleaving Interleaving.Program

variable {world : World} {v v' : View}

namespace View

variable {k : TableName} {R R' : ℕ → Option k.Row}

@[simp] theorem set_rows_self : (v.set k R).rows k = R := Function.update_self ..

@[simp] theorem set_saved : (v.set k R).saved = v.saved := rfl

@[simp] theorem set_failed : (v.set k R).failed = v.failed := rfl

@[simp] theorem set_set : (v.set k R).set k R' = v.set k R' := by
  simp [set]

@[simp] theorem commit_rows : v.commit.rows = v.rows := rfl

@[simp] theorem commit_saved : v.commit.saved = v.rows := rfl

theorem set_eq (h : R = v.rows k) : v.set k R = v := by
  subst h
  exact View.ext rfl (Function.update_eq_self ..) rfl rfl rfl rfl rfl

end View

section Table

variable {k : TableName} {table : (a : k.Access) → Service a.Reply}

variable (world k table) in
/-- `table` sends accesses to the table `k`. -/
def Sends : Prop :=
  ∀ a v result v', (table a).Derives (Request.Does world) v result v' →
    ∃ reply, result = .ok reply ∧ v.Accesses k a reply v'

variable {w : k.Where} {c : k.Change}

/-- The row with id `i`, changed if it is one of `rows`. -/
def changedIn (rows : List (ℕ × k.Row)) (c : k.Change) (R : ℕ → Option k.Row) (i : ℕ) :
    Option k.Row :=
  if i ∈ rows.map Prod.fst then (R i).bind (Change.apply c) else R i

theorem changedIn_cons {x : ℕ × k.Row} {rest : List (ℕ × k.Row)} {R : ℕ → Option k.Row}
    (hx : R x.1 = some x.2) (hnot : x.1 ∉ rest.map Prod.fst) :
    changedIn rest c (Function.update R x.1 (Change.apply c x.2)) = changedIn (x :: rest) c R := by
  funext i
  unfold changedIn
  by_cases hi : i = x.1
  · subst hi
    simp [hnot, hx]
  · simp only [List.map_cons, List.mem_cons, hi, false_or, Function.update_of_ne hi]

theorem derives_visit {i : ℕ} {old : k.Row} {result : Except Error (Option k.Row)}
    (hsends : Sends world k table) (hold : v.rows k i = some old)
    (hw : Condition.holds w i old = true)
    (h : (table (.visit i w c)).Derives (Request.Does world) v result v') :
    result = .ok (some ((Change.apply c old).getD old)) ∧
      v' = v.set k (Function.update (v.rows k) i (Change.apply c old)) := by
  obtain ⟨reply, rfl, -, R, hdoes, rfl⟩ := hsends (.visit i w c) v result v' h
  rcases hdoes with ⟨old', hold', -, rfl, rfl⟩ | ⟨hnot, -, -⟩
  · obtain rfl : old = old' := Option.some.inj (hold.symm.trans hold')
    exact ⟨rfl, rfl⟩
  · simp [hnot old hold] at hw

/-- The rows of a statement one after the other: each is still there and changes. -/
theorem derives_visitAll {rows : List (ℕ × k.Row)} {result : Except Error (List (ℕ × k.Row))}
    (hsends : Sends world k table) (hnodup : (rows.map Prod.fst).Nodup)
    (hrows : ∀ x ∈ rows, v.rows k x.1 = some x.2 ∧ Condition.holds w x.1 x.2 = true)
    (h : (visitAll table w c rows).Derives (Request.Does world) v result v') :
    result = .ok (rows.map fun x => (x.1, (Change.apply c x.2).getD x.2)) ∧
      v' = v.set k (changedIn rows c (v.rows k)) := by
  induction rows generalizing v v' result with
  | nil =>
      obtain ⟨rfl, rfl⟩ := derives_pure.mp h
      exact ⟨rfl, (View.set_eq (funext fun i => by simp [changedIn])).symm⟩
  | cons x rest ih =>
      obtain ⟨hx, hw⟩ := hrows x (.head _)
      obtain ⟨hnot, hnodup⟩ := List.nodup_cons.mp hnodup
      obtain ⟨reply, v₁, hvisit, hrest⟩ := h.bind_of_ok fun result v' hvisit =>
        ⟨_, (derives_visit hsends hx hw hvisit).1⟩
      obtain ⟨hreply, rfl⟩ := derives_visit hsends hx hw hvisit
      cases hreply
      have hrest' (y : ℕ × k.Row) (hy : y ∈ rest) :
          (v.set k (Function.update (v.rows k) x.1 (Change.apply c x.2))).rows k y.1 = some y.2 ∧
            Condition.holds w y.1 y.2 = true := by
        have hne : y.1 ≠ x.1 := fun heq => hnot (heq ▸ List.mem_map_of_mem hy)
        rw [View.set_rows_self, Function.update_of_ne hne]
        exact hrows y (.tail _ hy)
      obtain ⟨others, v₂, hothers, hpure⟩ := hrest.bind_of_ok fun result v' hothers =>
        ⟨_, (ih hnodup hrest' hothers).1⟩
      obtain ⟨heq, rfl⟩ := ih hnodup hrest' hothers
      cases heq
      obtain ⟨rfl, rfl⟩ := derives_pure.mp hpure
      refine ⟨rfl, ?_⟩
      rw [View.set_set, View.set_rows_self, changedIn_cons hx hnot]

theorem derives_scan {result : Except Error (List (ℕ × k.Row))} (hsends : Sends world k table)
    (h : (table (.scan w)).Derives (Request.Does world) v result v') :
    v.failed = false ∧ ∃ rows, result = .ok rows ∧ v' = v ∧ (rows.map Prod.fst).Nodup ∧
      ∀ x, x ∈ rows ↔ v.rows k x.1 = some x.2 ∧ Condition.holds w x.1 x.2 = true := by
  obtain ⟨rows, rfl, hfailed, R, ⟨rfl, hnodup, hrows⟩, rfl⟩ := hsends (.scan w) v result v' h
  exact ⟨hfailed, rows, rfl, View.set_eq rfl, hnodup, hrows⟩

theorem derives_complete {db : Client} {result : Except Error Unit}
    (h : (statement (.complete db)).Derives (Request.Does world) v result v') :
    result = .ok () ∧ v' = v.complete db := by
  obtain ⟨reply, rfl, -, rfl⟩ := derives_send.mp h
  exact ⟨rfl, rfl⟩

end Table

theorem derives_statement {q : Sql} {result : Except Error q.Reply}
    (h : (statement q).Derives (Request.Does world) v result v') :
    ∃ reply, result = .ok reply ∧ q.Does world reply v v' := by
  obtain ⟨reply, rfl, hdoes⟩ := derives_send.mp h
  exact ⟨reply, rfl, hdoes⟩

theorem sends_refreshTokens : Sends world .refreshTokens refreshTokens :=
  fun a _ _ _ h => derives_statement (q := .refreshTokens a) h

theorem sends_emailOtps : Sends world .emailOtps emailOtps :=
  fun a _ _ _ h => derives_statement (q := .emailOtps a) h

theorem sends_outbox : Sends world .outbox outbox :=
  fun a _ _ _ h => derives_statement (q := .outbox a) h

theorem sends_deadLetterJobs : Sends world .deadLetterJobs deadLetterJobs :=
  fun a _ _ _ h => derives_statement (q := .deadLetterJobs a) h

end ExpressCore
