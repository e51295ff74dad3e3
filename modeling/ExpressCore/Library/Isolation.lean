import ExpressCore.Library.Access

/-! # What a transaction can rely on

Whatever the other transactions do, the rows a transaction has locked stay as they are, and
rows that are gone never come back. -/

set_option linter.unusedSectionVars false

namespace ReadCommitted

variable {ι τ ρ W C : Type} [DecidableEq ι] [DecidableEq τ] [Condition W ι ρ] [Change C ρ]

/-- What one request of transaction `t` can do to a table. -/
inductive Moves (C : Type) [Change C ρ] (t : τ) (T : Table ι τ ρ) : Table ι τ ρ → Prop where
  | same : Moves C t T T
  | take : Moves C t T (T.take t)
  | change (i : ι) (c : C) (old : ρ) : T.locked t i = false → T.view t i = some old →
      Moves C t T (T.write t i (Change.apply c old))
  | insert (i : ι) (row : ρ) : i ∉ T.ids → Moves C t T (T.write t i (some row))
  | commit : Moves C t T (T.commit t)
  | abort : Moves C t T (T.abort t)

namespace Table

/-- A version of row `i` that is committed or that some transaction would commit. -/
def Version (T : Table ι τ ρ) (i : ι) (r : ρ) : Prop :=
  T.committed i = some r ∨ ∃ t, T.pending i = some (t, some r)

/-- The row existed once and has no version left. -/
def Gone (T : Table ι τ ρ) (i : ι) : Prop :=
  i ∈ T.ids ∧ ∀ r, ¬ T.Version i r

/-- The row is gone, or `t` deletes it. -/
def Erased (T : Table ι τ ρ) (t : τ) (i : ι) : Prop :=
  T.pending i = some (t, none) ∨ T.Gone i

/-- The log is about rows of the table, and a lock on a row without committed version is the
lock of an insertion. -/
structure Ordered (T : Table ι τ ρ) : Prop where
  mem_of_log : ∀ e ∈ T.log, e.2.1 ∈ T.ids
  unborn : ∀ i w, T.pending i = some w → T.committed i = none → ∀ e ∈ T.log, e.2.1 ≠ i

/-- Before a run: there may be rows, but no transaction is open or has been recorded. -/
structure AtRest (T : Table ι τ ρ) : Prop where
  log : T.log = []
  pending : ∀ i, T.pending i = none

theorem empty_atRest : (empty : Table ι τ ρ).AtRest := ⟨rfl, fun _ => rfl⟩

theorem AtRest.ordered {T : Table ι τ ρ} (h : T.AtRest) : T.Ordered where
  mem_of_log e he := by simp [h.log] at he
  unborn _ _ _ _ e he := by simp [h.log] at he

end Table

/-- Nothing that transaction `t` holds has changed, and rows keep their identity. `same` is
what changes of a row preserve. -/
structure Undisturbed (same : ρ → ρ → Prop) (t : τ) (T T' : Table ι τ ρ) : Prop where
  own : ∀ i version, T'.pending i = some (t, version) ↔ T.pending i = some (t, version)
  kept : ∀ i version, T.pending i = some (t, version) → T'.committed i = T.committed i
  log : ∃ others, T'.log = T.log ++ others ∧ ∀ e ∈ others, e.1 ≠ t
  ids : ∀ i ∈ T.ids, i ∈ T'.ids
  version : ∀ i ∈ T.ids, ∀ r', T'.Version i r' → ∃ r, T.Version i r ∧ same r r'

/-- What the moves of the others leave to transaction `t`. -/
structure Frame (same : ρ → ρ → Prop) (t : τ) (T T' : Table ι τ ρ) : Prop
    extends Undisturbed same t T T' where
  snapshot : T'.snapshot t = T.snapshot t

variable {T T' : Table ι τ ρ} {t t' : τ} {i : ι} {r : ρ}

theorem mem_ids_of_version (h : T.Version i r) : i ∈ T.ids := by
  rcases h with h | ⟨t, h⟩
  · exact T.mem_of_committed i r h
  · exact T.mem_of_pending i _ h

theorem version_of_view (h : T.view t i = some r) : T.Version i r := by
  unfold Table.view at h
  split at h
  · rename_i t' version hpending
    split at h
    · exact .inr ⟨t', h ▸ hpending⟩
    · exact .inl h
  · exact .inl h

/-- A row whose lock `t` could take and that `t` does not see is erased. -/
theorem erased_of_view_eq_none (hids : i ∈ T.ids) (hlocked : T.locked t i = false)
    (h : T.view t i = none) : T.Erased t i := by
  have hlock := Table.locked_eq_false.mp hlocked
  cases hpending : T.pending i with
  | none =>
      refine .inr ⟨hids, fun r hversion => ?_⟩
      rcases hversion with hcommitted | ⟨t', hlater⟩
      · have hview := T.view_of_not_pending (t := t) (i := i) (by simp [hpending])
        rw [h, hcommitted] at hview
        cases hview
      · simp [hpending] at hlater
  | some w =>
      obtain ⟨t', version⟩ := w
      have heq : t' = t := hlock _ hpending
      subst heq
      have hview := Table.view_of_pending hpending
      rw [h] at hview
      subst hview
      exact .inl hpending

theorem Table.Ordered.gone (hT : T.Ordered) (hborn : ∃ e ∈ T.log, e.2.1 = i)
    (h : T.committed i = none) : T.Gone i := by
  obtain ⟨e, he, rfl⟩ := hborn
  refine ⟨hT.mem_of_log e he, fun r hversion => ?_⟩
  rcases hversion with hcommitted | ⟨t, hpending⟩
  · rw [h] at hcommitted
    cases hcommitted
  · exact hT.unborn _ _ hpending h e he rfl

/-- A row that was committed once and that `t` does not see is erased. -/
theorem Table.Ordered.erased (hT : T.Ordered) (hborn : ∃ e ∈ T.log, e.2.1 = i)
    (h : T.view t i = none) : T.Erased t i := by
  by_cases hp : ∃ version, T.pending i = some (t, version)
  · obtain ⟨version, hversion⟩ := hp
    rw [Table.view_of_pending hversion] at h
    exact .inl (h ▸ hversion)
  · rw [Table.view_of_not_pending fun version hv => hp ⟨version, hv⟩] at h
    exact .inr (hT.gone hborn h)

/-! ## Moves of another transaction -/

theorem Undisturbed.refl {same : ρ → ρ → Prop} (hsame : ∀ r, same r r) :
    Undisturbed same t T T :=
  ⟨fun _ _ => .rfl, fun _ _ _ => rfl, ⟨[], by simp, by simp⟩, fun _ h => h,
    fun _ _ r' h => ⟨r', h, hsame r'⟩⟩

theorem Frame.refl {same : ρ → ρ → Prop} (hsame : ∀ r, same r r) : Frame same t T T :=
  ⟨.refl hsame, rfl⟩

/-- Starting a statement disturbs nothing. -/
theorem Undisturbed.take {same : ρ → ρ → Prop} (hsame : ∀ r, same r r) :
    Undisturbed same t T (T.take t') :=
  ⟨fun _ _ => .rfl, fun _ _ _ => rfl, ⟨[], by simp, by simp⟩, fun _ h => h,
    fun _ _ r' h => ⟨r', h, hsame r'⟩⟩

theorem Undisturbed.gone {same : ρ → ρ → Prop} (h : Undisturbed same t T T')
    (hgone : T.Gone i) : T'.Gone i := by
  refine ⟨h.ids i hgone.1, fun r' hversion => ?_⟩
  obtain ⟨r, hr, -⟩ := h.version i hgone.1 r' hversion
  exact hgone.2 r hr

theorem Undisturbed.erased {same : ρ → ρ → Prop} (h : Undisturbed same t T T')
    (herased : T.Erased t i) : T'.Erased t i :=
  herased.imp (h.own i none).mpr h.gone

theorem Undisturbed.view_of_pending {same : ρ → ρ → Prop} {version : Option ρ}
    (h : Undisturbed same t T T') (hpending : T.pending i = some (t, version)) :
    T'.view t i = version :=
  Table.view_of_pending ((h.own i version).mpr hpending)

private theorem not_pending_of_unlocked {version : Option ρ} (h : T.locked t' i = false)
    (hne : t ≠ t') : T.pending i ≠ some (t, version) :=
  fun hpending => hne (Table.locked_eq_false.mp h _ hpending)

private theorem Frame.write {same : ρ → ρ → Prop} {version : Option ρ}
    (hsame : ∀ r, same r r) (hlocked : ∀ v, T.pending i ≠ some (t, v)) (hne : t ≠ t')
    (hversion : i ∈ T.ids → ∀ r', version = some r' → ∃ r, T.Version i r ∧ same r r') :
    Frame same t T (T.write t' i version) where
  own j v := by
    by_cases heq : j = i
    · subst heq
      simp only [Table.write_pending_self, Option.some.injEq, Prod.mk.injEq]
      exact ⟨fun h => (hne h.1.symm).elim, fun h => (hlocked v h).elim⟩
    · rw [Table.write_pending_of_ne heq]
  kept j v h := rfl
  log := ⟨[], by simp, by simp⟩
  snapshot := rfl
  ids j hj := List.mem_insert_of_mem hj
  version j hj r' h := by
    rcases h with h | ⟨u, h⟩
    · exact ⟨r', .inl h, hsame r'⟩
    · by_cases heq : j = i
      · subst heq
        simp only [Table.write_pending_self, Option.some.injEq, Prod.mk.injEq] at h
        exact hversion hj r' h.2
      · rw [Table.write_pending_of_ne heq] at h
        exact ⟨r', .inr ⟨u, h⟩, hsame r'⟩

private theorem Frame.commit {same : ρ → ρ → Prop} (hsame : ∀ r, same r r) (hne : t ≠ t') :
    Frame same t T (T.commit t') where
  own i v := by
    rw [Table.commit_pending]
    exact ⟨fun h => h.1, fun h => ⟨h, hne⟩⟩
  kept i v h := Table.commit_committed_of_not_pending fun v' h' => by
    rw [h] at h'
    exact hne (Prod.mk.inj (Option.some.inj h')).1
  log := ⟨T.writes t', rfl, fun e he => by
    rw [(Table.mem_writes.mp he).1]
    exact hne.symm⟩
  snapshot := rfl
  ids i hi := hi
  version i hi r' h := by
    rcases h with h | ⟨u, h⟩
    · rcases T.commit_committed_cases (t := t') (i := i) with ⟨v, hv, heq⟩ | ⟨-, heq⟩
      · rw [h] at heq
        exact ⟨r', .inr ⟨t', heq ▸ hv⟩, hsame r'⟩
      · exact ⟨r', .inl (heq ▸ h), hsame r'⟩
    · exact ⟨r', .inr ⟨u, (Table.commit_pending.mp h).1⟩, hsame r'⟩

private theorem Frame.abort {same : ρ → ρ → Prop} (hsame : ∀ r, same r r) (hne : t ≠ t') :
    Frame same t T (T.abort t') where
  own i v := by
    rw [Table.abort_pending]
    exact ⟨fun h => h.1, fun h => ⟨h, hne⟩⟩
  kept i v h := rfl
  log := ⟨[], by simp, by simp⟩
  snapshot := rfl
  ids i hi := hi
  version i hi r' h := by
    rcases h with h | ⟨u, h⟩
    · exact ⟨r', .inl h, hsame r'⟩
    · exact ⟨r', .inr ⟨u, (Table.abort_pending.mp h).1⟩, hsame r'⟩

/-- Two transactions do not disturb each other's locked rows. -/
theorem Moves.frame {same : ρ → ρ → Prop} (hsame : ∀ r, same r r)
    (happly : ∀ (c : C) old new, Change.apply c old = some new → same old new)
    (h : Moves C t' T T') (hne : t ≠ t') : Frame same t T T' := by
  cases h with
  | same => exact .refl hsame
  | take =>
      have hframe : Frame same t T T := .refl hsame
      exact { hframe with snapshot := Table.take_snapshot_of_ne hne }
  | change i c old hlocked hview =>
      exact .write hsame (fun v => not_pending_of_unlocked hlocked hne) hne
        fun _ r' hr' => ⟨old, version_of_view hview, happly c old r' hr'⟩
  | insert i row hids =>
      exact .write hsame (fun v h => hids (T.mem_of_pending i _ h)) hne fun hi => (hids hi).elim
  | commit => exact .commit hsame hne
  | abort => exact .abort hsame hne

theorem Moves.ordered (h : Moves C t T T') (hT : T.Ordered) : T'.Ordered := by
  have hwrite (i : ι) (v : Option ρ) (hi : T.view t i ≠ none ∨ i ∉ T.ids) :
      (T.write t i v).Ordered := by
    refine ⟨fun e he => List.mem_insert_of_mem (hT.mem_of_log e he), fun j w hw hnone e he => ?_⟩
    by_cases heq : j = i
    · subst heq
      rintro rfl
      rcases hi with hi | hi
      · refine hi ?_
        by_cases hp : ∃ w, T.pending e.2.1 = some w
        · obtain ⟨w, hw⟩ := hp
          exact (hT.unborn _ w hw hnone e he rfl).elim
        · rw [Table.view_of_not_pending fun v hv => hp ⟨_, hv⟩]
          exact hnone
      · exact hi (hT.mem_of_log e he)
    · rw [Table.write_pending_of_ne heq] at hw
      exact hT.unborn j w hw hnone e he
  cases h with
  | same => exact hT
  | take => exact ⟨hT.mem_of_log, hT.unborn⟩
  | change i c old hlocked hview => exact hwrite i _ (.inl (by simp [hview]))
  | insert i row hids => exact hwrite i _ (.inr hids)
  | commit =>
      refine ⟨fun e he => ?_, fun i w hw hnone e he => ?_⟩
      · rcases List.mem_append.mp he with he | he
        · exact hT.mem_of_log e he
        · exact T.mem_of_pending _ _ (Table.mem_writes.mp he).2
      · obtain ⟨hw, hne⟩ := Table.commit_pending.mp hw
        rw [Table.commit_committed_of_not_pending fun v hv => hne (by rw [hv] at hw; cases hw; rfl)]
          at hnone
        rcases List.mem_append.mp he with he | he
        · exact hT.unborn i w hw hnone e he
        · rintro rfl
          rw [(Table.mem_writes.mp he).2] at hw
          cases hw
          exact hne rfl
  | abort =>
      exact ⟨hT.mem_of_log, fun i w hw => hT.unborn i w (Table.abort_pending.mp hw).1⟩

/-- The log only grows. -/
theorem Moves.log (h : Moves C t T T') : T.log <+: T'.log := by
  cases h with
  | commit => exact List.prefix_append _ _
  | _ => exact List.prefix_refl _

/-- A version of row `i`, present or past. -/
def Table.Record (T : Table ι τ ρ) (i : ι) (r : ρ) : Prop :=
  T.Version i r ∨ ∃ t, (t, i, some r) ∈ T.log

/-- All versions of a row agree on what changes preserve. -/
def Table.Coherent (same : ρ → ρ → Prop) (T : Table ι τ ρ) : Prop :=
  ∀ i r r', T.Record i r → T.Record i r' → same r r'

/-- Versions after a move are versions before it, or descend from one, or are the first. -/
private theorem Table.Coherent.of_cases {same : ρ → ρ → Prop} (hequiv : Equivalence same)
    (hT : T.Coherent same) {i : ι} {v : Option ρ}
    (hrecord : ∀ j r, T'.Record j r → T.Record j r ∨ j = i ∧ v = some r)
    (hv : (∃ old, T.Record i old ∧ ∀ r, v = some r → same old r) ∨ ∀ r, ¬ T.Record i r) :
    T'.Coherent same := by
  intro j r r' hr hr'
  rcases hrecord j r hr with hold | ⟨heq, hnew⟩ <;>
    rcases hrecord j r' hr' with hold' | ⟨heq', hnew'⟩
  · exact hT j r r' hold hold'
  · subst heq'
    rcases hv with ⟨old, hversion, hsame⟩ | hnone
    · exact hequiv.trans (hT j r old hold hversion) (hsame r' hnew')
    · exact (hnone r hold).elim
  · subst heq
    rcases hv with ⟨old, hversion, hsame⟩ | hnone
    · exact hequiv.trans (hequiv.symm (hsame r hnew)) (hT j old r' hversion hold')
    · exact (hnone r' hold').elim
  · rw [hnew] at hnew'
    cases hnew'
    exact hequiv.refl r

theorem version_of_write {v : Option ρ} {j : ι} (h : (T.write t i v).Version j r) :
    T.Version j r ∨ j = i ∧ v = some r := by
  rcases h with h | ⟨u, h⟩
  · exact .inl (.inl h)
  · rcases Table.write_pending h with ⟨heq, hw⟩ | ⟨-, h⟩
    · exact .inr ⟨heq, (Prod.mk.inj hw).2.symm⟩
    · exact .inl (.inr ⟨u, h⟩)

theorem version_of_commit (h : (T.commit t).Version i r) : T.Version i r := by
  rcases h with h | ⟨u, h⟩
  · rcases Table.commit_committed_eq_some h with h | ⟨h, -⟩
    · exact .inr ⟨t, h⟩
    · exact .inl h
  · exact .inr ⟨u, (Table.commit_pending.mp h).1⟩

theorem version_of_abort (h : (T.abort t).Version i r) : T.Version i r := by
  rcases h with h | ⟨u, h⟩
  · exact .inl h
  · exact .inr ⟨u, (Table.abort_pending.mp h).1⟩

/-- Versions descend from versions. -/
theorem Moves.version {same : ρ → ρ → Prop} (hsame : ∀ r, same r r)
    (happly : ∀ (c : C) old new, Change.apply c old = some new → same old new)
    (h : Moves C t T T') (hids : i ∈ T.ids) (hr : T'.Version i r) :
    ∃ old, T.Version i old ∧ same old r := by
  cases h with
  | same => exact ⟨r, hr, hsame r⟩
  | take => exact ⟨r, hr, hsame r⟩
  | change j c old hlocked hview =>
      rcases version_of_write hr with hr | ⟨rfl, hnew⟩
      · exact ⟨r, hr, hsame r⟩
      · exact ⟨old, version_of_view hview, happly c old r hnew⟩
  | insert j row hfresh =>
      rcases version_of_write hr with hr | ⟨rfl, -⟩
      · exact ⟨r, hr, hsame r⟩
      · exact (hfresh hids).elim
  | commit => exact ⟨r, version_of_commit hr, hsame r⟩
  | abort => exact ⟨r, version_of_abort hr, hsame r⟩

theorem Moves.ids (h : Moves C t T T') (hi : i ∈ T.ids) : i ∈ T'.ids := by
  cases h with
  | change => exact List.mem_insert_of_mem hi
  | insert => exact List.mem_insert_of_mem hi
  | _ => exact hi

theorem record_of_write {v : Option ρ} {j : ι} (h : (T.write t i v).Record j r) :
    T.Record j r ∨ j = i ∧ v = some r := by
  rcases h with h | h
  · exact (version_of_write h).imp_left .inl
  · exact .inl (.inr h)

theorem record_of_commit (h : (T.commit t).Record i r) : T.Record i r := by
  rcases h with h | ⟨u, h⟩
  · exact .inl (version_of_commit h)
  · rcases List.mem_append.mp h with h | h
    · exact .inr ⟨u, h⟩
    · exact .inl (.inr ⟨t, (Table.mem_writes.mp h).2⟩)

theorem record_of_abort (h : (T.abort t).Record i r) : T.Record i r :=
  h.imp_left version_of_abort

theorem Moves.coherent {same : ρ → ρ → Prop} (hequiv : Equivalence same)
    (happly : ∀ (c : C) old new, Change.apply c old = some new → same old new)
    (h : Moves C t T T') (hordered : T.Ordered) (hT : T.Coherent same) : T'.Coherent same := by
  cases h with
  | same => exact hT
  | take => exact hT
  | change i c old hlocked hview =>
      exact hT.of_cases hequiv (fun _ _ => record_of_write)
        (.inl ⟨old, .inl (version_of_view hview), fun r hr => happly c old r hr⟩)
  | insert i row hids =>
      refine hT.of_cases hequiv (fun _ _ => record_of_write) (.inr fun r hr => hids ?_)
      rcases hr with hr | ⟨u, hr⟩
      · exact mem_ids_of_version hr
      · exact hordered.mem_of_log _ hr
  | commit => exact fun i r r' hr hr' => hT i r r' (record_of_commit hr) (record_of_commit hr')
  | abort => exact fun i r r' hr hr' => hT i r r' (record_of_abort hr) (record_of_abort hr')

/-- Every committed version is in the log, as in a table whose log goes back to its start. -/
def Table.Logged (T : Table ι τ ρ) : Prop :=
  ∀ i r, T.committed i = some r → ∃ e ∈ T.log, e.2 = (i, some r)

theorem Moves.logged (h : Moves C t T T') (hT : T.Logged) : T'.Logged := by
  cases h with
  | commit =>
      intro i r hr
      rcases T.commit_committed_cases (t := t) (i := i) with ⟨v, hv, heq⟩ | ⟨-, heq⟩
      · refine ⟨(t, i, v), List.mem_append_right _ (Table.mem_writes.mpr ⟨rfl, hv⟩), ?_⟩
        rw [← hr, heq]
      · obtain ⟨e, he, heq'⟩ := hT i r (heq ▸ hr)
        exact ⟨e, List.mem_append_left _ he, heq'⟩
  | _ => exact hT

/-! ## Statements are moves -/

private theorem unlocked_of_matching {w : W} (h : T.contended t w = false)
    {x : ι × ρ} (hx : x ∈ T.matching t w) : T.locked t x.1 = false := by
  obtain ⟨hview, hw⟩ := mem_matching.mp hx
  by_contra hlocked
  have hlocked : T.locked t x.1 = true := by simpa using hlocked
  have hcommitted : T.committed x.1 = some x.2 := by
    rw [← hview]
    unfold Table.locked at hlocked
    unfold Table.view
    split <;> simp_all
  have htrue : T.contended t w = true := by
    refine List.any_eq_true.mpr ⟨x.1, Table.mem_of_view hview, ?_⟩
    simp [hlocked, hcommitted, hw]
  rw [h] at htrue
  cases htrue

/-- What an access of transaction `t` writes: row `i` becomes the version. -/
inductive Access.Wrote (t : τ) (T : Table ι τ ρ) : Access ι ρ W C → ι → Option ρ → Prop where
  | visit (i : ι) (w : W) (c : C) (old : ρ) : T.locked t i = false → T.view t i = some old →
      Condition.holds w i old = true → Wrote t T (.visit i w c) i (Change.apply c old)
  | visitUnlocked (i : ι) (w : W) (c : C) (old : ρ) : T.locked t i = false →
      T.view t i = some old → Condition.holds w i old = true →
      Wrote t T (.visitUnlocked i w c) i (Change.apply c old)
  | insert (i : ι) (row : ρ) : i ∉ T.ids → Wrote t T (.insert row) i (some row)
  | create (i : ι) (key : W) (row : ρ) (guard : W) (c : C) : T.contended t key = false →
      T.matching t key = [] → i ∉ T.ids → Wrote t T (.upsert key row guard c) i (some row)
  | update (i : ι) (key : W) (row : ρ) (guard : W) (c : C) (old : ρ) : T.contended t key = false →
      T.locked t i = false → T.view t i = some old → Condition.holds key i old = true →
      Condition.holds guard i old = true →
      Wrote t T (.upsert key row guard c) i (Change.apply c old)

/-- An access writes one version or none. -/
theorem exec_wrote {a : Access ι ρ W C} {pick : ℕ} {fresh : ι} {reply : a.Reply}
    (h : a.exec t pick fresh T = some (reply, T')) :
    T' = T ∨ T' = T.take t ∨ ∃ i v, a.Wrote t T i v ∧ T' = T.write t i v := by
  cases a with
  | find w => exact .inr (.inl (exec_find_table h))
  | scan w => exact .inr (.inl (exec_scan h).1)
  | visit i w c =>
      obtain ⟨hlocked, ⟨old, hview, hw, -, rfl⟩ | ⟨-, -, rfl⟩⟩ := exec_visit h
      · exact .inr (.inr ⟨i, _, .visit i w c old hlocked hview hw, rfl⟩)
      · exact .inl rfl
  | visitUnlocked i w c =>
      simp only [Access.exec] at h
      split at h
      · cases h
        exact .inl rfl
      · rename_i hlocked
        obtain rfl := congrArg Prod.snd (Option.some.inj h)
        rcases visit_cases (T := T) (t := t) (i := i) (w := w) (c := c) with
          ⟨old, hview, hw, heq⟩ | ⟨-, heq⟩
        · exact .inr (.inr ⟨i, _, .visitUnlocked i w c old (by simpa using hlocked) hview hw,
            congrArg Prod.snd heq⟩)
        · exact .inl (congrArg Prod.snd heq)
  | insert row =>
      obtain ⟨-, hfresh, rfl⟩ := exec_insert h
      exact .inr (.inr ⟨fresh, _, .insert fresh row hfresh, rfl⟩)
  | upsert key row guard c =>
      simp only [Access.exec] at h
      split at h
      · cases h
      · rename_i hfree
        simp only [Bool.or_eq_true, decide_eq_true_eq, not_or, Bool.not_eq_true] at hfree
        obtain rfl := congrArg Prod.snd (Option.some.inj h)
        unfold Table.upsert
        split
        · rename_i hnone
          exact .inr (.inr ⟨fresh, _, .create fresh key row guard c hfree.1 hnone hfree.2, rfl⟩)
        · rename_i i old rest hmatching
          have hmem : (i, old) ∈ T.matching t key := by simp [hmatching]
          obtain ⟨hview, hkey⟩ := mem_matching.mp hmem
          split
          · rename_i hguard
            exact .inr (.inr ⟨i, _, .update i key row guard c old hfree.1
              (unlocked_of_matching hfree.1 hmem) hview hkey hguard, rfl⟩)
          · exact .inl rfl

theorem Access.Wrote.writes {a : Access ι ρ W C} {v : Option ρ} (h : a.Wrote t T i v) :
    a.Writes := by
  cases h <;> trivial

theorem Access.Wrote.moves {a : Access ι ρ W C} {v : Option ρ} (h : a.Wrote t T i v) :
    Moves C t T (T.write t i v) := by
  cases h with
  | visit _ w c old hlocked hview => exact .change i c old hlocked hview
  | visitUnlocked _ w c old hlocked hview => exact .change i c old hlocked hview
  | insert _ row hfresh => exact .insert i row hfresh
  | create _ key row guard c _ _ hfresh => exact .insert i row hfresh
  | update _ key row guard c old _ hlocked hview => exact .change i c old hlocked hview

/-- Only reads are remembered. -/
theorem exec_snapshot {a : Access ι ρ W C} {pick : ℕ} {fresh : ι} {reply : a.Reply}
    (h : a.exec t pick fresh T = some (reply, T')) (ha : a.Writes) : T'.snapshot = T.snapshot := by
  cases a with
  | find w => exact ha.elim
  | scan w => exact ha.elim
  | visit i w c => rcases (exec_visit h).2 with ⟨_, -, -, -, rfl⟩ | ⟨-, -, rfl⟩ <;> rfl
  | visitUnlocked i w c =>
      simp only [Access.exec] at h
      split at h
      · cases h
        rfl
      · obtain rfl := congrArg Prod.snd (Option.some.inj h)
        unfold Table.visit
        split <;> first | rfl | (split <;> rfl)
  | insert row =>
      obtain ⟨-, -, rfl⟩ := exec_insert h
      rfl
  | upsert key row guard c =>
      simp only [Access.exec] at h
      split at h
      · cases h
      · obtain rfl := congrArg Prod.snd (Option.some.inj h)
        unfold Table.upsert
        split <;> first | rfl | (split <;> rfl)

theorem exec_moves {a : Access ι ρ W C} {pick : ℕ} {fresh : ι} {reply : a.Reply}
    (h : a.exec t pick fresh T = some (reply, T')) : Moves C t T T' := by
  rcases exec_wrote h with rfl | rfl | ⟨i, v, hwrote, rfl⟩
  · exact .same
  · exact .take
  · exact hwrote.moves

/-- An access leaves what is committed alone. -/
theorem exec_settled {a : Access ι ρ W C} {pick : ℕ} {fresh : ι} {reply : a.Reply}
    (h : a.exec t pick fresh T = some (reply, T')) :
    T'.committed = T.committed ∧ T'.log = T.log := by
  rcases exec_wrote h with rfl | rfl | ⟨i, v, -, rfl⟩ <;> exact ⟨rfl, rfl⟩

end ReadCommitted
