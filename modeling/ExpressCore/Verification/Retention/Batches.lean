import ExpressCore.Model.DeadLetter
import ExpressCore.Verification.Sequential.Statements
import ExpressCore.Verification.System.Start

/-! # Retention in batches

A job that deletes batch after batch removes what one bounded DELETE would. -/

namespace ExpressCore.Retention

open ReadCommitted Interleaving Interleaving.Program

/-! ## The oldest rows -/

/-- `removed` are the oldest of the `rows`, at most `limit` of them. -/
structure OldestFirst {ρ : Type} (key : ρ → Time) (limit : ℕ)
    (rows removed kept : List (ℕ × ρ)) : Prop where
  split : rows.Perm (removed ++ kept)
  count : removed.length = min rows.length limit
  oldest : ∀ x ∈ removed, ∀ y ∈ kept, key x.2 ≤ key y.2

section OldestFirst

variable {ρ : Type} {key : ρ → Time} {limit limit' : ℕ}
  {rows removed kept kept' removed' rest : List (ℕ × ρ)}

theorem OldestFirst.zero : OldestFirst key 0 rows [] rows where
  split := .refl rows
  count := by simp
  oldest := by simp

/-- The first of the rows in the order of their keys. -/
theorem OldestFirst.batch :
    OldestFirst key limit rows ((rows.mergeSort fun x y => key x.2 ≤ key y.2).take limit)
      ((rows.mergeSort fun x y => key x.2 ≤ key y.2).drop limit) where
  split := by
    rw [List.take_append_drop]
    exact (List.mergeSort_perm ..).symm
  count := by
    rw [List.length_take, List.length_mergeSort, Nat.min_comm]
  oldest := by
    have hsorted : (rows.mergeSort fun x y => key x.2 ≤ key y.2).Pairwise
        fun x y => decide (key x.2 ≤ key y.2) = true := by
      refine List.pairwise_mergeSort (fun a b c hab hbc => ?_) (fun a b => ?_) rows
      · simp only [decide_eq_true_eq] at hab hbc ⊢
        exact Nat.le_trans hab hbc
      · simp only [Bool.or_eq_true, decide_eq_true_eq]
        exact Nat.le_total _ _
    rw [← List.take_append_drop limit (rows.mergeSort _)] at hsorted
    exact fun x hx y hy => by simpa using (List.pairwise_append.mp hsorted).2.2 x hx y hy

theorem OldestFirst.perm (h : rows.Perm rest) (hrest : OldestFirst key limit rest removed kept) :
    OldestFirst key limit rows removed kept where
  split := h.trans hrest.split
  count := h.length_eq ▸ hrest.count
  oldest := hrest.oldest

/-- A short batch has taken every row. -/
theorem OldestFirst.short (h : OldestFirst key limit rows removed kept)
    (hshort : removed.length < limit) (hle : limit ≤ limit') :
    OldestFirst key limit' rows removed kept where
  split := h.split
  count := by
    have hcount := h.count
    omega
  oldest := h.oldest

/-- A full batch, and then more of the rows it leaves. -/
theorem OldestFirst.append (h : OldestFirst key limit rows removed kept)
    (hfull : removed.length = limit) (hrest : rest.Perm kept)
    (h' : OldestFirst key limit' rest removed' kept') :
    OldestFirst key (limit + limit') rows (removed ++ removed') kept' where
  split := by
    rw [List.append_assoc]
    exact h.split.trans ((hrest.symm.trans h'.split).append_left removed)
  count := by
    have hrows := h.split.length_eq
    have hkept := hrest.length_eq
    have hcount := h'.count
    rw [List.length_append] at hrows ⊢
    omega
  oldest x hx y hy := by
    rcases List.mem_append.mp hx with hx | hx
    · have hykept : y ∈ kept :=
        hrest.mem_iff.mp (h'.split.mem_iff.mpr (List.mem_append_right _ hy))
      exact h.oldest x hx y hykept
    · exact h'.oldest x hx y hy

theorem OldestFirst.kept_of_le (h : OldestFirst key limit rows removed kept)
    (hle : rows.length ≤ limit) : kept = [] := by
  have hcount := h.count
  have hlength := h.split.length_eq
  rw [List.length_append] at hlength
  exact List.length_eq_zero_iff.mp (by omega)

end OldestFirst

/-! ## The loop -/

section Loop

variable {world : World} {k : TableName} {table : (a : k.Access) → Service a.Reply} {w : k.Where}
  {key : k.Row → Time} {byIds : List ℕ → k.Where} {delete : k.Change} {batchSize batches : ℕ}
  {v v' : View} {rows : List (ℕ × k.Row)}

/-- The rows without those that were removed. -/
def without (removed : List (ℕ × k.Row)) (R : ℕ → Option k.Row) (i : ℕ) : Option k.Row :=
  if i ∈ removed.map Prod.fst then none else R i

theorem without_nil (R : ℕ → Option k.Row) : without [] R = R := by
  funext i
  simp [without]

theorem without_append (removed removed' : List (ℕ × k.Row)) (R : ℕ → Option k.Row) :
    without (removed ++ removed') R = without removed' (without removed R) := by
  funext i
  unfold without
  rw [List.map_append]
  by_cases h : i ∈ removed.map Prod.fst
  · simp only [List.mem_append, h, true_or, if_true, ite_self]
  · simp only [List.mem_append, h, false_or, if_false]

/-- The rows that a scan finds. -/
structure Found (w : k.Where) (R : ℕ → Option k.Row) (rows : List (ℕ × k.Row)) : Prop where
  nodup : (rows.map Prod.fst).Nodup
  mem : ∀ x, x ∈ rows ↔ R x.1 = some x.2 ∧ Condition.holds w x.1 x.2 = true

theorem Found.perm {R : ℕ → Option k.Row} {rows' : List (ℕ × k.Row)} (h : Found w R rows)
    (h' : Found w R rows') : rows.Perm rows' :=
  (List.perm_ext_iff_of_nodup (.of_map _ h.nodup) (.of_map _ h'.nodup)).mpr
    fun x => (h.mem x).trans (h'.mem x).symm

/-- After some are removed, a scan finds the others. -/
theorem Found.without {R : ℕ → Option k.Row} {removed kept : List (ℕ × k.Row)}
    (h : Found w R rows) (hsplit : rows.Perm (removed ++ kept)) :
    Found w (Retention.without removed R) kept := by
  have hnodup : ((removed ++ kept).map Prod.fst).Nodup := (hsplit.map _).nodup_iff.mp h.nodup
  rw [List.map_append] at hnodup
  obtain ⟨-, hkept, hdisjoint⟩ := List.nodup_append.mp hnodup
  refine ⟨hkept, fun x => ?_⟩
  have hmem : x ∈ rows ↔ x ∈ removed ∨ x ∈ kept := by rw [hsplit.mem_iff, List.mem_append]
  constructor
  · intro hx
    have hnot : x.1 ∉ removed.map Prod.fst := fun hin =>
      hdisjoint _ hin _ (List.mem_map_of_mem hx) rfl
    rw [Retention.without, if_neg hnot]
    exact (h.mem x).mp (hmem.mpr (.inr hx))
  · intro hx
    rw [Retention.without] at hx
    by_cases hin : x.1 ∈ removed.map Prod.fst
    · simp [hin] at hx
    · rw [if_neg hin] at hx
      rcases hmem.mp ((h.mem x).mpr hx) with hx | hx
      · exact (hin (List.mem_map_of_mem hx)).elim
      · exact hx

/-- One batch. -/
theorem derives_batch {batch : List (ℕ × k.Row)}
    {result : Except Error (List (ℕ × k.Row))} (hsends : Sends world k table)
    (hids : ∀ ids i (row : k.Row), Condition.holds (byIds ids) i row = decide (i ∈ ids))
    (hdelete : ∀ row : k.Row, Change.apply delete row = none) (hnodup : (batch.map Prod.fst).Nodup)
    (hbatch : ∀ x ∈ batch, v.rows k x.1 = some x.2)
    (h : (visitAll table (byIds (batch.map Prod.fst)) delete batch).Derives (Request.Does world) v
      result v') :
    result = .ok batch ∧ v' = v.set k (without batch (v.rows k)) := by
  have hrows (x : ℕ × k.Row) (hx : x ∈ batch) : v.rows k x.1 = some x.2 ∧
      Condition.holds (byIds (batch.map Prod.fst)) x.1 x.2 = true := by
    refine ⟨hbatch x hx, ?_⟩
    rw [hids]
    exact decide_eq_true (List.mem_map_of_mem hx)
  obtain ⟨rfl, rfl⟩ := derives_visitAll hsends hnodup hrows h
  have hsame : (batch.map fun x => (x.1, (Change.apply delete x.2).getD x.2)) = batch := by
    simp [hdelete]
  have hwithout : changedIn batch delete (v.rows k) = without batch (v.rows k) := by
    funext i
    unfold changedIn without
    cases v.rows k i <;> simp [hdelete]
  rw [hsame, hwithout]
  exact ⟨rfl, rfl⟩

/-- All batches together: one bounded DELETE of the oldest rows. The induction is on the batches
left; a short batch ends the loop early and has taken every row. -/
theorem derives_deleteBatches {result : Except Error ℕ} (hsends : Sends world k table)
    (hids : ∀ ids i (row : k.Row), Condition.holds (byIds ids) i row = decide (i ∈ ids))
    (hdelete : ∀ row : k.Row, Change.apply delete row = none) (hsaved : v.saved = v.rows)
    (hrows : Found w (v.rows k) rows)
    (h : (deleteBatches table w key byIds delete batchSize batches).Derives (Request.Does world) v
      result v') :
    ∃ removed kept, OldestFirst key (batchSize * batches) rows removed kept ∧
      result = .ok removed.length ∧ v'.saved = v'.rows ∧
      v'.rows = Function.update v.rows k (without removed (v.rows k)) := by
  induction batches generalizing v v' rows result with
  | zero =>
      obtain ⟨rfl, rfl⟩ := derives_pure.mp h
      refine ⟨[], rows, .zero, rfl, hsaved, ?_⟩
      rw [without_nil, Function.update_eq_self]
  | succ batches ih =>
      obtain ⟨found, v₁, hscan, hnext⟩ := h.bind_of_ok fun result v' hscan => by
        obtain ⟨-, found, hresult, -⟩ := derives_scan hsends hscan
        exact ⟨found, hresult⟩
      obtain ⟨-, found', hresult, rfl, hfound⟩ := derives_scan hsends hscan
      cases hresult
      obtain ⟨hnodup, hmem⟩ := hfound
      have hbatch : OldestFirst key batchSize rows
          ((found.mergeSort fun x y => key x.2 ≤ key y.2).take batchSize)
          ((found.mergeSort fun x y => key x.2 ≤ key y.2).drop batchSize) :=
        .perm (hrows.perm ⟨hnodup, hmem⟩) .batch
      generalize (found.mergeSort fun x y => key x.2 ≤ key y.2).take batchSize = batch
        at hnext hbatch
      generalize (found.mergeSort fun x y => key x.2 ≤ key y.2).drop batchSize = left at hbatch
      have hleft : Found w (without batch (v₁.rows k)) left := hrows.without hbatch.split
      have hkeys : (batch.map Prod.fst).Nodup := by
        have hsplit := (hbatch.split.map Prod.fst).nodup_iff.mp hrows.nodup
        rw [List.map_append] at hsplit
        exact (List.nodup_append.mp hsplit).1
      have hstored (x : ℕ × k.Row) (hx : x ∈ batch) : v₁.rows k x.1 = some x.2 :=
        ((hrows.mem x).mp (hbatch.split.mem_iff.mpr (List.mem_append_left _ hx))).1
      obtain ⟨deleted, v₂, hdeleted, hnext⟩ := hnext.bind_of_ok fun result v' hdeleted =>
        ⟨_, (derives_batch hsends hids hdelete hkeys hstored hdeleted).1⟩
      obtain ⟨heq, rfl⟩ := derives_batch hsends hids hdelete hkeys hstored hdeleted
      cases heq
      obtain ⟨_, v₃, hcomplete, hnext⟩ := hnext.bind_of_ok fun result v' hcomplete =>
        ⟨_, (derives_complete hcomplete).1⟩
      obtain ⟨-, rfl⟩ := derives_complete hcomplete
      split at hnext
      · rename_i hshort
        obtain ⟨rfl, rfl⟩ := derives_pure.mp hnext
        exact ⟨batch, left, hbatch.short hshort (Nat.le_mul_of_pos_right _ batches.succ_pos), rfl,
          rfl, rfl⟩
      · rename_i hfull
        have hfull : batch.length = batchSize := by
          have hcount := hbatch.count
          omega
        have hrest : Found w (((v₁.set k (without batch (v₁.rows k))).commit).rows k) left := by
          rw [View.commit_rows, View.set_rows_self]
          exact hleft
        obtain ⟨removed, v₄, hrun, hpure⟩ := hnext.bind_of_ok fun result v' hrun => by
          obtain ⟨removed, -, -, hresult, -⟩ := ih rfl hrest hrun
          exact ⟨_, hresult⟩
        obtain ⟨removed', kept, holdest, hresult, hsaved', hrows'⟩ := ih rfl hrest hrun
        cases hresult
        obtain ⟨rfl, rfl⟩ := derives_pure.mp hpure
        refine ⟨batch ++ removed', kept, ?_, ?_, hsaved', ?_⟩
        · rw [Nat.mul_succ, Nat.add_comm]
          exact hbatch.append hfull (.refl left) holdest
        · rw [List.length_append]
        · rw [hrows', without_append, View.commit_rows, View.set_rows_self]
          exact Function.update_idem ..

end Loop

/-! ## The jobs -/

/-- The functions that delete in batches. -/
inductive Job where
  | refreshTokens
  | outbox (status : OutboxStatus)
  | deadLetterJobs
  | otps

namespace Job

def table : Job → TableName
  | refreshTokens => .refreshTokens
  | outbox _ => .outbox
  | deadLetterJobs => .deadLetterJobs
  | otps => .emailOtps

def run (before : Time) (batchSize maxBatches : ℕ) : Job → Service ℕ
  | refreshTokens => deleteExpiredRefreshTokens before batchSize maxBatches
  | outbox status => prune status before batchSize maxBatches
  | deadLetterJobs => pruneDeadLetterJobs before batchSize maxBatches
  | otps => deleteExpiredOtps before batchSize maxBatches

/-- The time that a job orders its rows by. -/
def key : (job : Job) → job.table.Row → Time
  | refreshTokens, row => row.expiresAt
  | outbox _, row => row.availableAt
  | deadLetterJobs, row => row.createdAt
  | otps, row => row.expiresAt

/-- Whether a row is one for the job: before the cut-off, and in the outbox with the status. -/
def due (before : Time) : (job : Job) → job.table.Row → Bool
  | refreshTokens, row => decide (row.expiresAt < before)
  | outbox status, row => row.status == status && decide (row.availableAt < before)
  | deadLetterJobs, row => decide (row.createdAt < before)
  | otps, row => decide (row.expiresAt < before)

/-- The stored rows of a job. -/
def eligible (job : Job) (before : Time) (s : State) : List (ℕ × job.table.Row) :=
  (job.table.table s.db).ids.filterMap fun i =>
    (((job.table.table s.db).committed i).filter (job.due before)).map fun row => (i, row)

variable {job : Job} {before : Time} {s : State}

theorem mem_eligible {x : ℕ × job.table.Row} : x ∈ job.eligible before s ↔
    (job.table.table s.db).committed x.1 = some x.2 ∧ job.due before x.2 = true := by
  simp only [eligible, List.mem_filterMap, Option.map_eq_some_iff, Option.filter_eq_some_iff]
  constructor
  · rintro ⟨i, -, row, ⟨hrow, hdue⟩, rfl⟩
    exact ⟨hrow, hdue⟩
  · intro ⟨hrow, hdue⟩
    exact ⟨x.1, (job.table.table s.db).mem_of_committed _ _ hrow, x.2, ⟨hrow, hdue⟩, rfl⟩

theorem eligible_nodup : ((job.eligible before s).map Prod.fst).Nodup := by
  have hsublist : ((job.eligible before s).map Prod.fst).Sublist (job.table.table s.db).ids := by
    unfold eligible
    induction (job.table.table s.db).ids with
    | nil => exact .slnil
    | cons i ids ih =>
        cases h : ((job.table.table s.db).committed i).filter (job.due before) with
        | none => simpa [h] using ih.cons i
        | some row => simpa [h] using ih
  exact hsublist.nodup (job.table.table s.db).ids_nodup

end Job

/-- `removed` is what one DELETE of the oldest `limit` rows of the job removes. -/
structure BoundedDelete (job : Job) (before : Time) (limit : ℕ) (s s' : State)
    (removed : List (ℕ × job.table.Row)) : Prop where
  nodup : (removed.map Prod.fst).Nodup
  eligible : ∀ x ∈ removed, x ∈ job.eligible before s
  count : removed.length = min (job.eligible before s).length limit
  oldest : ∀ x ∈ removed, ∀ y ∈ job.eligible before s, y ∉ removed → job.key x.2 ≤ job.key y.2
  rows : (job.table.table s'.db).committed = without removed (job.table.table s.db).committed
  others : ∀ k, k ≠ job.table → (k.table s'.db).committed = (k.table s.db).committed

/-- No transaction is open. -/
structure Quiet (t : ℕ) (s : State) : Prop where
  tables : ∀ (k : TableName) i, (k.table s.db).pending i = none
  logs : ∀ i, s.db.activityLogs.pending i = none
  poisoned : s.db.poisoned t = false

variable {setup : Setup} {job : Job} {before : Time} {batchSize maxBatches t limit : ℕ}
  {s s' : State} {result : Except Error ℕ} {removed kept : List (ℕ × job.table.Row)}

theorem BoundedDelete.deleted (h : BoundedDelete job before limit s s' removed) {i : ℕ}
    (hi : i ∈ removed.map Prod.fst) : (job.table.table s'.db).committed i = none := by
  rw [h.rows]
  exact if_pos hi

theorem BoundedDelete.spared (h : BoundedDelete job before limit s s' removed) {i : ℕ}
    (hi : i ∉ removed.map Prod.fst) :
    (job.table.table s'.db).committed i = (job.table.table s.db).committed i := by
  rw [h.rows]
  exact if_neg hi

theorem Quiet.alone (h : Quiet t s) : s.Alone World.any t where
  db :=
    { tables := fun k i x hx => by rw [h.tables k i] at hx; cases hx
      logs := fun i x hx => by rw [h.logs i] at hx; cases hx }
  clock := trivial
  startedAt _ _ := trivial

theorem Quiet.view_rows (h : Quiet t s) : (s.view t).saved = (s.view t).rows := by
  funext k i
  exact (Table.view_of_not_pending fun version hversion => by
    rw [h.tables k i] at hversion
    cases hversion).symm

/-! ### A job ends -/

/-- The requests of a job. -/
def Batched (job : Job) : Request → Prop
  | .sql q => q = .complete .prisma ∨
      ∃ a : job.table.Access, q = job.table.sql a ∧
        ((∃ w, a = .scan w) ∨ ∃ i w c, a = .visit i w c)
  | _ => False

theorem run_uses (job : Job) : (job.run before batchSize maxBatches).Uses (Batched job) := by
  cases job <;>
    exact uses_batches (uses_send.mpr (.inr ⟨_, rfl, .inl ⟨_, rfl⟩⟩))
      (fun i ids => uses_send.mpr (.inr ⟨_, rfl, .inr ⟨i, _, _, rfl⟩⟩)) (.inl rfl) _ _ _

/-- Nothing makes a thread wait that runs alone. -/
theorem exists_access {k : TableName} {a : k.Access} (h : s.db.Alone t)
    (hclean : s.db.poisoned t = false)
    (ha : (∃ w, a = .scan w) ∨ ∃ i w c, a = .visit i w c) :
    ∃ reply d', (k.sql a).exec t {} s.clock s.db = some (reply, d') ∧ d'.poisoned = s.db.poisoned := by
  obtain ⟨reply, T, hexec⟩ : ∃ reply T, a.exec t 0 0 (k.table s.db) = some (reply, T) := by
    rcases ha with ⟨w, rfl⟩ | ⟨i, w, c, rfl⟩
    · exact ⟨_, _, rfl⟩
    · rw [Access.exec, (h.tables k).locked i]
      exact ⟨_, _, rfl⟩
  cases k <;>
    simp only [TableName.sql, Sql.exec, Db.unlessPoisoned, hclean, Bool.false_eq_true, if_false,
      Option.map_eq_some_iff, Prod.mk.injEq] <;>
    exact ⟨reply, _, ⟨(reply, T), hexec, rfl, rfl⟩, rfl⟩

theorem exists_run (h : Quiet t s) :
    ∃ result s', (system setup).Evaluates t (job.run before batchSize maxBatches) s result s' := by
  refine Machine.exists_evaluates
    (I := fun s => s.Alone World.any t ∧ s.db.poisoned t = false) (fun r s hr hs => ?_)
    (run_uses job) ⟨h.alone, h.poisoned⟩
  obtain ⟨halone, hclean⟩ := hs
  suffices ∃ reply s', r.exec setup t {} s = some (reply, s') ∧ s'.db.poisoned t = false by
    obtain ⟨reply, s', hexec, hclean'⟩ := this
    exact ⟨{}, reply, s', hexec, (halone.exec World.any_answers hexec).1, hclean'⟩
  cases r with
  | sql q =>
      rcases hr with rfl | ⟨a, rfl, ha⟩
      · refine ⟨(), { s with db := s.db.commitAll t }, ?_, hclean⟩
        simp [Request.exec, Sql.exec, Db.unlessPoisoned, hclean]
      · obtain ⟨reply, d', hexec, hpoisoned⟩ := exists_access halone.db hclean ha
        refine ⟨reply, { s with db := d' }, ?_, hpoisoned ▸ hclean⟩
        simp [Request.exec, hexec]
  | _ => exact hr.elim

/-! ### What it deletes -/

theorem derives_run {v v' : View} {rows : List (ℕ × job.table.Row)} (hsaved : v.saved = v.rows)
    (hnodup : (rows.map Prod.fst).Nodup)
    (hrows : ∀ x, x ∈ rows ↔ v.rows job.table x.1 = some x.2 ∧ job.due before x.2 = true)
    (h : (job.run before batchSize maxBatches).Derives (Request.Does World.any) v result v') :
    ∃ removed kept, OldestFirst job.key (batchSize * maxBatches) rows removed kept ∧
      result = .ok removed.length ∧ v'.saved = v'.rows ∧
      v'.rows = Function.update v.rows job.table (without removed (v.rows job.table)) := by
  cases job with
  | refreshTokens =>
      exact derives_deleteBatches (k := .refreshTokens) (w := .expired before) sends_refreshTokens
        (fun _ _ _ => List.contains_eq_mem ..) (fun _ => rfl) hsaved ⟨hnodup, hrows⟩ h
  | outbox status =>
      exact derives_deleteBatches (k := .outbox) (w := .terminal status before) sends_outbox
        (fun _ _ _ => List.contains_eq_mem ..) (fun _ => rfl) hsaved ⟨hnodup, hrows⟩ h
  | deadLetterJobs =>
      exact derives_deleteBatches (k := .deadLetterJobs) (w := .created before) sends_deadLetterJobs
        (fun _ _ _ => List.contains_eq_mem ..) (fun _ => rfl) hsaved ⟨hnodup, hrows⟩ h
  | otps =>
      exact derives_deleteBatches (k := .emailOtps) (w := .expired before) sends_emailOtps
        (fun _ _ _ => List.contains_eq_mem ..) (fun _ => rfl) hsaved ⟨hnodup, hrows⟩ h

theorem evaluates_run (h : Quiet t s)
    (hrun : (system setup).Evaluates t (job.run before batchSize maxBatches) s result s') :
    ∃ removed kept,
      OldestFirst job.key (batchSize * maxBatches) (job.eligible before s) removed kept ∧
        result = .ok removed.length ∧ ∀ k, (k.table s'.db).committed =
          Function.update (fun k => (TableName.table k s.db).committed) job.table
            (without removed (job.table.table s.db).committed) k := by
  obtain ⟨-, hderives⟩ := h.alone.derives (hrun.alone fun _ _ => World.any_answers)
  have hrows (x : ℕ × job.table.Row) : x ∈ job.eligible before s ↔
      (s.view t).rows job.table x.1 = some x.2 ∧ job.due before x.2 = true :=
    h.view_rows ▸ Job.mem_eligible
  obtain ⟨removed, kept, holdest, hresult, hsaved, hrows'⟩ :=
    derives_run h.view_rows Job.eligible_nodup hrows hderives
  refine ⟨removed, kept, holdest, hresult, fun k => ?_⟩
  rw [← h.view_rows] at hrows'
  exact congrFun (hsaved.trans hrows') k

theorem OldestFirst.bounded (h : OldestFirst job.key limit (job.eligible before s) removed kept)
    (hrows : ∀ k, (k.table s'.db).committed =
      Function.update (fun k => (TableName.table k s.db).committed) job.table
        (without removed (job.table.table s.db).committed) k) :
    BoundedDelete job before limit s s' removed where
  nodup := by
    have hnodup := (h.split.map Prod.fst).nodup_iff.mp Job.eligible_nodup
    rw [List.map_append] at hnodup
    exact (List.nodup_append.mp hnodup).1
  eligible x hx := h.split.mem_iff.mpr (List.mem_append_left _ hx)
  count := h.count
  oldest x hx y hy hnot := by
    rcases List.mem_append.mp (h.split.mem_iff.mp hy) with hy | hy
    · exact (hnot hy).elim
    · exact h.oldest x hx y hy
  rows := (hrows job.table).trans (Function.update_self ..)
  others k hk := (hrows k).trans (Function.update_of_ne hk ..)

/-- When the bound admits all, no row is left. -/
theorem OldestFirst.all (h : OldestFirst job.key limit (job.eligible before s) removed kept)
    (hdelete : BoundedDelete job before limit s s' removed)
    (hle : (job.eligible before s).length ≤ limit) : job.eligible before s' = [] := by
  refine List.eq_nil_iff_forall_not_mem.mpr fun x hx => ?_
  obtain ⟨hstored, hdue⟩ := Job.mem_eligible.mp hx
  rw [hdelete.rows, without] at hstored
  split at hstored
  · cases hstored
  · rename_i hnot
    have hmem := h.split.mem_iff.mp (Job.mem_eligible.mpr ⟨hstored, hdue⟩)
    rw [h.kept_of_le hle, List.append_nil] at hmem
    exact hnot (List.mem_map_of_mem hmem)

/-- Every job ends, and has then deleted the oldest rows before the cut-off, as many as its
batches hold, and has told their number. -/
theorem job_deletes_oldest (setup : Setup) (job : Job) (before : Time)
    (batchSize maxBatches t : ℕ) (s : State) (h : Quiet t s) :
    (∃ result s',
      (system setup).Evaluates t (job.run before batchSize maxBatches) s result s') ∧
    ∀ result s', (system setup).Evaluates t (job.run before batchSize maxBatches) s result s' →
      ∃ removed, result = .ok removed.length ∧
        BoundedDelete job before (batchSize * maxBatches) s s' removed ∧
        ((job.eligible before s).length ≤ batchSize * maxBatches →
          job.eligible before s' = []) := by
  refine ⟨exists_run h, fun result s' hrun => ?_⟩
  obtain ⟨removed, kept, holdest, hresult, hrows⟩ := evaluates_run h hrun
  exact ⟨removed, hresult, holdest.bounded hrows, holdest.all (holdest.bounded hrows)⟩

def codeUntil (expiresAt : Time) : EmailOtp :=
  { email := "a@b.c", codeHash := "", attempts := 0, sentAt := 0, expiresAt, verifiedAt := none
    consumedAt := none, issuance := 0 }

/-- Two codes that expire at the same time, one before them and one after them. -/
def fourCodes : Table ℕ ℕ EmailOtp where
  ids := [1, 2, 3, 4]
  committed i :=
    if i = 1 ∨ i = 3 then some (codeUntil 5)
    else if i = 2 then some (codeUntil 3)
    else if i = 4 then some (codeUntil 20)
    else none
  pending _ := none
  snapshot _ _ := none
  log := []
  ids_nodup := by decide
  mem_of_committed i r h := by
    by_contra hnot
    simp only [List.mem_cons, List.not_mem_nil, or_false, not_or] at hnot
    simp [hnot] at h
  mem_of_pending _ _ h := by cases h

def fourOtps : State :=
  { plainState .empty with db := { (plainState .empty).db with emailOtps := fourCodes } }

theorem fourOtps_quiet : Quiet 0 fourOtps where
  tables k i := by cases k <;> rfl
  logs _ := rfl
  poisoned := rfl

/-- The oldest two of three codes. -/
theorem oldest_two {removed : List (ℕ × EmailOtp)} (hnodup : (removed.map Prod.fst).Nodup)
    (heligible : ∀ x ∈ removed, x ∈ [(1, codeUntil 5), (2, codeUntil 3), (3, codeUntil 5)])
    (hcount : removed.length = 2)
    (holdest : ∀ x ∈ removed, ∀ y ∈ [(1, codeUntil 5), (2, codeUntil 3), (3, codeUntil 5)],
      y ∉ removed → x.2.expiresAt ≤ y.2.expiresAt) :
    2 ∈ removed.map Prod.fst ∧ (1 ∉ removed.map Prod.fst ∨ 3 ∉ removed.map Prod.fst) ∧
      4 ∉ removed.map Prod.fst := by
  obtain ⟨x, y, rfl⟩ := List.length_eq_two.mp hcount
  have hx := heligible x (.head _)
  have hy := heligible y (.tail _ (.head _))
  simp only [List.mem_cons, List.not_mem_nil, or_false] at hx hy
  have hfirst : (2, codeUntil 3) ∈ [x, y] := by
    by_contra hnot
    have hkey := holdest x (.head _) (2, codeUntil 3) (.tail _ (.head _)) hnot
    rcases hx with rfl | rfl | rfl
    · exact absurd hkey (by decide)
    · exact hnot (.head _)
    · exact absurd hkey (by decide)
  rcases hx with rfl | rfl | rfl <;> rcases hy with rfl | rfl | rfl <;>
    simp_all [codeUntil]

/-- Two batches of one row take the oldest code and one of the two that follow. -/
theorem job_deletes_two : ∃ s', (system plainSetup).Evaluates 0 (Job.otps.run 10 1 2) fourOtps
      (.ok 2) s' ∧ s'.db.emailOtps.committed 2 = none ∧
    (s'.db.emailOtps.committed 1 = some (codeUntil 5) ∨
      s'.db.emailOtps.committed 3 = some (codeUntil 5)) ∧
    s'.db.emailOtps.committed 4 = some (codeUntil 20) := by
  obtain ⟨⟨result, s', hrun⟩, hall⟩ :=
    job_deletes_oldest plainSetup .otps 10 1 2 0 fourOtps fourOtps_quiet
  obtain ⟨removed, rfl, hdelete, -⟩ := hall result s' hrun
  have hcount : removed.length = 2 := hdelete.count
  obtain ⟨hfirst, htied, hlater⟩ :=
    oldest_two hdelete.nodup hdelete.eligible hcount hdelete.oldest
  refine ⟨s', hcount ▸ hrun, hdelete.deleted hfirst, ?_, hdelete.spared hlater⟩
  exact htied.imp (fun h => hdelete.spared h) fun h => hdelete.spared h

end ExpressCore.Retention
