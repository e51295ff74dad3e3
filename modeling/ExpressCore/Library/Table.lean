import Mathlib.Data.List.Nodup
import Mathlib.Logic.Function.Basic

/-! # Tables under READ COMMITTED

A row has a committed version and, while some transaction holds its lock, one uncommitted
version. A statement reads the rows committed when it starts together with the writes of its
own transaction. -/

set_option linter.unusedSectionVars false

namespace ReadCommitted

/-- `ids` are the row ids ever used, `pending i` is the transaction that holds the lock of
row `i` with the version it would commit (`none` for a deletion), `snapshot t` is what the
last statement of `t` saw when it started, and `log` lists every committed write in order.
Nothing reads `snapshot` and `log`; they only record the past. -/
structure Table (ι τ ρ : Type) where
  ids : List ι
  committed : ι → Option ρ
  pending : ι → Option (τ × Option ρ)
  snapshot : τ → ι → Option ρ
  log : List (τ × ι × Option ρ)
  ids_nodup : ids.Nodup
  mem_of_committed : ∀ i r, committed i = some r → i ∈ ids
  mem_of_pending : ∀ i w, pending i = some w → i ∈ ids

namespace Table

variable {ι τ ρ : Type}

/-- The table without rows. -/
def empty : Table ι τ ρ where
  ids := []
  committed := fun _ => none
  pending := fun _ => none
  snapshot := fun _ _ => none
  log := []
  ids_nodup := List.nodup_nil
  mem_of_committed := by simp
  mem_of_pending := by simp

variable [DecidableEq ι] [DecidableEq τ]

/-- What transaction `t` sees of row `i`. -/
def view (T : Table ι τ ρ) (t : τ) (i : ι) : Option ρ :=
  match T.pending i with
  | some (t', version) => if t' = t then version else T.committed i
  | none => T.committed i

/-- Whether a transaction other than `t` holds the lock of row `i`. -/
def locked (T : Table ι τ ρ) (t : τ) (i : ι) : Bool :=
  match T.pending i with
  | some (t', _) => t' ≠ t
  | none => false

/-- The rows `t` sees, with their ids. -/
def visible (T : Table ι τ ρ) (t : τ) : List (ι × ρ) :=
  T.ids.filterMap fun i => (T.view t i).map fun r => (i, r)

/-- A statement of `t` starts. -/
def take (T : Table ι τ ρ) (t : τ) : Table ι τ ρ :=
  { T with snapshot := Function.update T.snapshot t (T.view t) }

/-- `t` takes the lock of row `i` and leaves an uncommitted version there. -/
def write (T : Table ι τ ρ) (t : τ) (i : ι) (version : Option ρ) : Table ι τ ρ :=
  { T with
    ids := T.ids.insert i
    pending := Function.update T.pending i (some (t, version))
    ids_nodup := T.ids_nodup.insert
    mem_of_committed := fun j r h => List.mem_insert_of_mem (T.mem_of_committed j r h)
    mem_of_pending := fun j w h => by
      by_cases heq : j = i
      · exact heq ▸ List.mem_insert_self
      · rw [Function.update_of_ne heq] at h
        exact List.mem_insert_of_mem (T.mem_of_pending j w h) }

/-- The uncommitted version `t` holds of row `i`, if it holds the lock. -/
def owned (T : Table ι τ ρ) (t : τ) (i : ι) : Option (Option ρ) :=
  match T.pending i with
  | some (t', version) => if t' = t then some version else none
  | none => none

/-- The writes a commit of `t` would make. -/
def writes (T : Table ι τ ρ) (t : τ) : List (τ × ι × Option ρ) :=
  T.ids.filterMap fun i => (T.owned t i).map fun version => (t, i, version)

/-- The locks of `t` are released. -/
def unlock (pending : ι → Option (τ × Option ρ)) (t : τ) (i : ι) : Option (τ × Option ρ) :=
  match pending i with
  | some (t', version) => if t' = t then none else some (t', version)
  | none => none

theorem unlock_eq_some {pending : ι → Option (τ × Option ρ)} {t : τ} {i : ι}
    {w : τ × Option ρ} : unlock pending t i = some w ↔ pending i = some w ∧ w.1 ≠ t := by
  unfold unlock
  cases h : pending i with
  | none => simp
  | some w' =>
      obtain ⟨t', version⟩ := w'
      by_cases heq : t' = t
      · simp only [heq, if_true]
        constructor
        · rintro ⟨⟩
        · rintro ⟨h', hne⟩
          exact (hne (by rw [← Option.some.inj h'])).elim
      · simp only [heq, if_false, Option.some.injEq]
        constructor
        · rintro rfl
          exact ⟨rfl, heq⟩
        · exact fun h' => h'.1

theorem owned_eq_some {T : Table ι τ ρ} {t : τ} {i : ι} {version : Option ρ} :
    T.owned t i = some version ↔ T.pending i = some (t, version) := by
  unfold owned
  cases h : T.pending i with
  | none => simp
  | some w =>
      obtain ⟨t', version'⟩ := w
      by_cases heq : t' = t <;> simp [heq]

/-- Commit of `t`: its versions become the committed ones and its locks are released. -/
def commit (T : Table ι τ ρ) (t : τ) : Table ι τ ρ :=
  { T with
    committed := fun i => (T.owned t i).getD (T.committed i)
    pending := unlock T.pending t
    log := T.log ++ T.writes t
    mem_of_committed := fun i r h => by
      cases howned : T.owned t i with
      | none => exact T.mem_of_committed i r (by simpa [howned] using h)
      | some version => exact T.mem_of_pending i _ (owned_eq_some.mp howned)
    mem_of_pending := fun i w h => T.mem_of_pending i w (unlock_eq_some.mp h).1 }

/-- Rollback of `t`: its versions vanish and its locks are released. -/
def abort (T : Table ι τ ρ) (t : τ) : Table ι τ ρ :=
  { T with
    pending := unlock T.pending t
    mem_of_pending := fun i w h => T.mem_of_pending i w (unlock_eq_some.mp h).1 }

variable {T : Table ι τ ρ} {t t' : τ} {i j : ι} {r : ρ} {version : Option ρ}

/-! ## What the operations leave where -/

@[simp] theorem take_committed : (T.take t).committed = T.committed := rfl

@[simp] theorem take_pending : (T.take t).pending = T.pending := rfl

@[simp] theorem take_ids : (T.take t).ids = T.ids := rfl

@[simp] theorem take_log : (T.take t).log = T.log := rfl

@[simp] theorem take_snapshot_self : (T.take t).snapshot t = T.view t := by
  simp [take]

theorem take_snapshot_of_ne (h : t' ≠ t) : (T.take t).snapshot t' = T.snapshot t' := by
  simp [take, h]

@[simp] theorem take_view : (T.take t).view t' = T.view t' := rfl

@[simp] theorem write_committed : (T.write t i version).committed = T.committed := rfl

@[simp] theorem write_log : (T.write t i version).log = T.log := rfl

@[simp] theorem write_snapshot : (T.write t i version).snapshot = T.snapshot := rfl

@[simp] theorem write_pending_self : (T.write t i version).pending i = some (t, version) := by
  simp [write]

theorem write_pending_of_ne (h : j ≠ i) : (T.write t i version).pending j = T.pending j := by
  simp [write, h]

theorem write_pending {w : τ × Option ρ} (h : (T.write t i version).pending j = some w) :
    j = i ∧ w = (t, version) ∨ j ≠ i ∧ T.pending j = some w := by
  by_cases heq : j = i
  · subst heq
    rw [write_pending_self] at h
    exact .inl ⟨rfl, (Option.some.inj h).symm⟩
  · rw [write_pending_of_ne heq] at h
    exact .inr ⟨heq, h⟩

@[simp] theorem commit_log : (T.commit t).log = T.log ++ T.writes t := rfl

@[simp] theorem commit_snapshot : (T.commit t).snapshot = T.snapshot := rfl

@[simp] theorem commit_ids : (T.commit t).ids = T.ids := rfl

@[simp] theorem abort_committed : (T.abort t).committed = T.committed := rfl

@[simp] theorem abort_log : (T.abort t).log = T.log := rfl

@[simp] theorem abort_snapshot : (T.abort t).snapshot = T.snapshot := rfl

@[simp] theorem abort_ids : (T.abort t).ids = T.ids := rfl

theorem commit_committed_of_pending (h : T.pending i = some (t, version)) :
    (T.commit t).committed i = version := by
  simp [commit, owned_eq_some.mpr h]

theorem commit_committed_of_not_pending (h : ∀ version, T.pending i ≠ some (t, version)) :
    (T.commit t).committed i = T.committed i := by
  have hnone : T.owned t i = none := by
    cases howned : T.owned t i with
    | none => rfl
    | some version => exact (h version (owned_eq_some.mp howned)).elim
  simp [commit, hnone]

/-- A committed version after a commit of `t` is one `t` wrote, or was there before. -/
theorem commit_committed_cases :
    (∃ version, T.pending i = some (t, version) ∧ (T.commit t).committed i = version) ∨
      ((∀ version, T.pending i ≠ some (t, version)) ∧
        (T.commit t).committed i = T.committed i) := by
  by_cases h : ∃ version, T.pending i = some (t, version)
  · obtain ⟨version, hversion⟩ := h
    exact .inl ⟨version, hversion, commit_committed_of_pending hversion⟩
  · have hnot : ∀ version, T.pending i ≠ some (t, version) := fun version hv => h ⟨version, hv⟩
    exact .inr ⟨hnot, commit_committed_of_not_pending hnot⟩

theorem commit_committed_eq_some (h : (T.commit t).committed i = some r) :
    T.pending i = some (t, some r) ∨
      T.committed i = some r ∧ ∀ version, T.pending i ≠ some (t, version) := by
  rcases T.commit_committed_cases (t := t) (i := i) with ⟨version, hversion, heq⟩ | ⟨hnot, heq⟩
  · exact .inl (by rw [hversion, ← heq, h])
  · exact .inr ⟨heq ▸ h, hnot⟩

theorem commit_pending {w : τ × Option ρ} :
    (T.commit t).pending i = some w ↔ T.pending i = some w ∧ w.1 ≠ t :=
  unlock_eq_some

theorem abort_pending {w : τ × Option ρ} :
    (T.abort t).pending i = some w ↔ T.pending i = some w ∧ w.1 ≠ t :=
  unlock_eq_some

/-! ## What a transaction sees -/

theorem view_of_pending (h : T.pending i = some (t, version)) : T.view t i = version := by
  simp [view, h]

theorem view_of_not_pending (h : ∀ version, T.pending i ≠ some (t, version)) :
    T.view t i = T.committed i := by
  unfold view
  cases hp : T.pending i with
  | none => rfl
  | some w =>
      obtain ⟨t', version⟩ := w
      by_cases heq : t' = t
      · exact (h version (heq ▸ hp)).elim
      · simp [heq]

theorem locked_eq_false :
    T.locked t i = false ↔ ∀ w, T.pending i = some w → w.1 = t := by
  unfold locked
  cases hp : T.pending i with
  | none => simp
  | some w => simp

theorem mem_of_view (h : T.view t i = some r) : i ∈ T.ids := by
  by_cases hp : ∃ version, T.pending i = some (t, version)
  · obtain ⟨version, hversion⟩ := hp
    exact T.mem_of_pending i _ hversion
  · have hnot : ∀ version, T.pending i ≠ some (t, version) := fun version hv => hp ⟨version, hv⟩
    exact T.mem_of_committed i r (by rw [← view_of_not_pending hnot]; exact h)

theorem mem_visible : (i, r) ∈ T.visible t ↔ T.view t i = some r := by
  simp only [visible, List.mem_filterMap, Option.map_eq_some_iff, Prod.mk.injEq]
  constructor
  · rintro ⟨j, -, r', hview, rfl, rfl⟩
    exact hview
  · intro h
    exact ⟨i, mem_of_view h, r, h, rfl, rfl⟩

/-- Without locks on the rows of the table there are none. -/
theorem pending_eq_none_of_ids (h : (T.ids.all fun i => (T.pending i).isNone) = true) (i : ι) :
    T.pending i = none := by
  by_contra hsome
  obtain ⟨version, hversion⟩ := Option.ne_none_iff_exists'.mp hsome
  have hnone := List.all_eq_true.mp h i (T.mem_of_pending i version hversion)
  simp [hversion] at hnone

/-- No row is seen twice. -/
theorem visible_keys_nodup : ((T.visible t).map Prod.fst).Nodup := by
  have hsublist : ((T.visible t).map Prod.fst).Sublist T.ids := by
    unfold visible
    induction T.ids with
    | nil => simp
    | cons i ids ih =>
        cases hview : T.view t i with
        | none => simpa [hview] using ih.cons i
        | some r => simpa [hview] using ih
  exact hsublist.nodup T.ids_nodup

theorem mem_writes {w : τ × ι × Option ρ} :
    w ∈ T.writes t ↔ w.1 = t ∧ T.pending w.2.1 = some (t, w.2.2) := by
  obtain ⟨t', i, version⟩ := w
  simp only [writes, List.mem_filterMap, Option.map_eq_some_iff, Prod.mk.injEq]
  constructor
  · rintro ⟨j, -, version', howned, rfl, rfl, rfl⟩
    exact ⟨rfl, owned_eq_some.mp howned⟩
  · rintro ⟨rfl, hpending⟩
    exact ⟨i, T.mem_of_pending i _ hpending, version, owned_eq_some.mpr hpending, rfl, rfl, rfl⟩

theorem writes_nodup : (T.writes t).Nodup := by
  refine T.ids_nodup.filterMap fun i j w hi hj => ?_
  obtain ⟨v, -, rfl⟩ := Option.map_eq_some_iff.mp hi
  obtain ⟨v', -, heq⟩ := Option.map_eq_some_iff.mp hj
  exact (Prod.mk.inj (Prod.mk.inj heq).2).1.symm

/-- A commit of one row. -/
theorem writes_eq_singleton (h : T.pending i = some (t, version))
    (honly : ∀ j v, T.pending j = some (t, v) → j = i) : T.writes t = [(t, i, version)] := by
  refine List.perm_singleton.mp
    ((List.perm_ext_iff_of_nodup writes_nodup (List.nodup_singleton _)).mpr fun w => ?_)
  rw [mem_writes, List.mem_singleton]
  constructor
  · rintro ⟨ht, hw⟩
    have hi := honly _ _ hw
    rw [hi, h] at hw
    exact Prod.ext ht (Prod.ext hi (Prod.mk.inj (Option.some.inj hw)).2.symm)
  · rintro rfl
    exact ⟨rfl, h⟩

theorem writes_keys_nodup : ((T.writes t).map fun e => e.2.1).Nodup := by
  refine writes_nodup.map_on fun e he e' he' heq => ?_
  obtain ⟨ht, hp⟩ := mem_writes.mp he
  obtain ⟨ht', hp'⟩ := mem_writes.mp he'
  rw [heq, hp'] at hp
  exact Prod.ext (ht.trans ht'.symm) (Prod.ext heq (Prod.mk.inj (Option.some.inj hp)).2.symm)

end Table

end ReadCommitted
