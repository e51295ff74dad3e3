import ExpressCore.Model.Statement
import ExpressCore.Verification.System.Interference

/-! # Rules for statements and transactions -/

namespace ExpressCore

open ReadCommitted Interleaving Interleaving.Program

variable {M : Machine ℕ Error Request Request.Reply State Oracle} {R : Rules ℕ State}
  {A : Assumption ℕ Request State} {t : ℕ} {err : Error → State → Prop} {pre : State → Prop}

/-- The rows of a statement one after the other. `J rest done` is the assertion when `rest`
are the rows left and `done` the rows changed. -/
theorem visitAll_meets {ρ W C : Type} {table : (a : Access ℕ ρ W C) → Service a.Reply} {w : W}
    {c : C} {J : List (ℕ × ρ) → List (ℕ × ρ) → State → Prop}
    (hstable : ∀ done, R.Stable t (J [] done))
    (hvisit : ∀ x rest done, R.Meets M A t
      (fun reply => J rest (done ++ reply.toList.map fun row => (x.1, row))) err
      (table (.visit x.1 w c)) (J (x :: rest) done))
    (rows done : List (ℕ × ρ)) :
    R.Meets M A t (fun changed => J [] (done ++ changed)) err (visitAll table w c rows)
      (J rows done) := by
  induction rows generalizing done with
  | nil => exact .pure (by simpa using hstable done) fun s _ h => by simpa using h
  | cons x rest ih =>
      refine .bind (hvisit x rest done) fun reply => .bind (ih _) fun others => ?_
      refine .pure (by simpa using hstable _) fun s _ h => ?_
      simpa [List.append_assoc] using h

/-- The batches of a retention job. `F rows` is the assertion after a scan that found `rows`. -/
theorem batches_meets {ρ W C : Type} {table : (a : Access ℕ ρ W C) → Service a.Reply} {w : W}
    {key : ρ → Time} {byIds : List ℕ → W} {delete : C} {F : List (ℕ × ρ) → State → Prop}
    (hstable : ∀ rows, R.Stable t (F rows))
    (hscan : R.Meets M A t F err (table (.scan w)) fun _ => True)
    (hvisit : ∀ rows ids i, (∀ j ∈ ids, ∃ r, (j, r) ∈ rows) →
      R.Meets M A t (fun _ => F rows) err (table (.visit i (byIds ids) delete)) (F rows))
    (hcomplete : R.Meets M A t (fun _ _ => True) err (statement (.complete .prisma)) fun _ => True)
    (batchSize batches : ℕ) :
    R.Meets M A t (fun _ _ => True) err
      (deleteBatches table w key byIds delete batchSize batches) fun _ => True := by
  induction batches with
  | zero => exact .pure (.const True) .refl
  | succ batches ih =>
      refine .bind hscan fun rows => ?_
      have hids : ∀ j ∈ ((rows.mergeSort fun x y => key x.2 ≤ key y.2).take batchSize).map Prod.fst,
          ∃ r, (j, r) ∈ rows := by
        intro j hj
        obtain ⟨x, hx, rfl⟩ := List.mem_map.mp hj
        exact ⟨x.2, List.mem_mergeSort.mp (List.mem_of_mem_take hx)⟩
      refine .bind (visitAll_meets (J := fun _ _ => F rows) (fun _ => hstable rows)
        (fun x rest done => hvisit rows _ x.1 hids) _ []) fun deleted => ?_
      refine .bind (hcomplete.weaken fun _ _ _ => trivial) fun _ => ?_
      split
      · exact .pure (.const True) .refl
      · exact .bind ih fun _ => .pure (.const True) .refl

/-- A transaction whose body ends in states that may be committed. -/
theorem transaction_meets {α : Type} {body : Service α} {mid post : α → State → Prop}
    {began : State → Prop} {caught : Error → State → Prop}
    (hbegin : R.Meets M A t (fun _ => began) err (statement .begin) pre)
    (hbody : R.Meets M A t mid caught body began)
    (hrollback : ∀ error, R.Meets M A t mid err
      (statement .rollback >>= fun _ => (throw error : Service α)) (caught error))
    (hcommit : ∀ value, R.Meets M A t post err
      (statement .commit >>= fun _ => pure value) (mid value)) :
    R.Meets M A t post err (transaction body) pre :=
  .bind hbegin fun _ => .bind (.handle hbody hrollback) hcommit

/-! ## What they send -/

section Uses

variable {setup : Setup} {allowed : Request → Prop} {ρ W C : Type}
  {table : (a : Access ℕ ρ W C) → Service a.Reply}

theorem uses_visits {w : W} {c : C} (hvisit : ∀ i, (table (.visit i w c)).Uses allowed)
    (rows : List (ℕ × ρ)) : (visitAll table w c rows).Uses allowed := by
  induction rows with
  | nil => trivial
  | cons x rest ih => exact .bind (hvisit _) fun _ => .bind ih fun _ => trivial

theorem uses_visitAll (htable : ∀ a, (table a).Uses allowed) (w : W) (c : C)
    (rows : List (ℕ × ρ)) : (visitAll table w c rows).Uses allowed :=
  uses_visits (fun _ => htable _) rows

theorem uses_change {db : Client} {w : W} {c : C} (hscan : (table (.scan w)).Uses allowed)
    (hvisit : ∀ i, (table (.visit i w c)).Uses allowed)
    (hcomplete : allowed (.sql (.complete db))) : (changeMany table db w c).Uses allowed :=
  .bind hscan fun _ => .bind (uses_visits hvisit _) fun _ =>
    .bind (uses_send.mpr hcomplete) fun _ => trivial

theorem uses_changeMany {db : Client} (htable : ∀ a, (table a).Uses allowed)
    (hcomplete : allowed (.sql (.complete db))) (w : W) (c : C) :
    (changeMany table db w c).Uses allowed :=
  uses_change (htable _) (fun _ => htable _) hcomplete

theorem uses_changeSingle {db : Client} {w : W} {c : C} (hscan : (table (.scan w)).Uses allowed)
    (hvisit : ∀ i, (table (.visit i w c)).Uses allowed)
    (hcomplete : allowed (.sql (.complete db))) : (changeOne table db w c).Uses allowed := by
  refine .bind (uses_change hscan hvisit hcomplete) fun rows => ?_
  split <;> trivial

theorem uses_changeOne {db : Client} (htable : ∀ a, (table a).Uses allowed)
    (hcomplete : allowed (.sql (.complete db))) (w : W) (c : C) :
    (changeOne table db w c).Uses allowed :=
  uses_changeSingle (htable _) (fun _ => htable _) hcomplete

theorem uses_create {db : Client} {row : ρ} (hinsert : (table (.insert row)).Uses allowed)
    (hcomplete : allowed (.sql (.complete db))) : (create table db row).Uses allowed :=
  .bind hinsert fun _ => .bind (uses_send.mpr hcomplete) fun _ => trivial

theorem uses_transaction {α : Type} {body : Service α} (hbegin : allowed (.sql .begin))
    (hrollback : allowed (.sql .rollback)) (hcommit : allowed (.sql .commit))
    (hbody : body.Uses allowed) : (transaction body).Uses allowed :=
  .bind (uses_send.mpr hbegin) fun _ => .bind (hbody.handle fun _ =>
    .bind (uses_send.mpr hrollback) fun _ => trivial) fun _ =>
      .bind (uses_send.mpr hcommit) fun _ => trivial

theorem uses_batches {w : W} {byIds : List ℕ → W} {delete : C}
    (hscan : (table (.scan w)).Uses allowed)
    (hvisit : ∀ i ids, (table (.visit i (byIds ids) delete)).Uses allowed)
    (hcomplete : allowed (.sql (.complete .prisma))) (key : ρ → Time) (batchSize batches : ℕ) :
    (deleteBatches table w key byIds delete batchSize batches).Uses allowed := by
  induction batches with
  | zero => trivial
  | succ batches ih =>
      refine .bind hscan fun rows => .bind (uses_visits (fun i => hvisit i _) _) fun deleted =>
        .bind (uses_send.mpr hcomplete) fun _ => ?_
      split
      · trivial
      · exact .bind ih fun _ => trivial

theorem uses_deleteBatches (htable : ∀ a, (table a).Uses allowed)
    (hcomplete : allowed (.sql (.complete .prisma))) (w : W) (key : ρ → Time)
    (byIds : List ℕ → W) (delete : C) (batchSize batches : ℕ) :
    (deleteBatches table w key byIds delete batchSize batches).Uses allowed :=
  uses_batches (htable _) (fun _ _ => htable _) hcomplete key batchSize batches

theorem uses_makeUniqueSlug {checkExists : String → Service Bool}
    (hcheck : ∀ slug, (checkExists slug).Uses allowed) (sourceText : String) :
    (makeUniqueSlug setup sourceText checkExists).Uses allowed := by
  unfold makeUniqueSlug
  generalize setup.env.slugAttempts = attempts
  generalize 0 = counter
  induction attempts generalizing counter with
  | zero => trivial
  | succ attempts ih =>
      refine .bind (hcheck _) fun taken => ?_
      split
      · exact ih _
      · trivial

end Uses

end ExpressCore
