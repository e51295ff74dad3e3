import ExpressCore.Library.Ledger

/-! # What the log tells

A table whose log goes back to its start is the replay of its log. What holds of every commit
when it is made holds of every entry of the log and the version before it. -/

set_option linter.unusedSectionVars false

namespace ReadCommitted

variable {ι τ ρ W C : Type} [DecidableEq ι] [DecidableEq τ] [Condition W ι ρ] [Change C ρ]

/-- The rows when the entries of a log have been committed one after the other. -/
def replayLog (start : ι → Option ρ) (log : List (τ × ι × Option ρ)) : ι → Option ρ :=
  log.foldl (fun rows e => Function.update rows e.2.1 e.2.2) start

variable {start : ι → Option ρ} {L L' : List (τ × ι × Option ρ)} {i : ι} {r : ρ}

@[simp] theorem replayLog_nil : replayLog start ([] : List (τ × ι × Option ρ)) = start := rfl

theorem replayLog_cons {e : τ × ι × Option ρ} :
    replayLog start (e :: L) = replayLog (Function.update start e.2.1 e.2.2) L := rfl

theorem replayLog_append : replayLog start (L ++ L') = replayLog (replayLog start L) L' :=
  List.foldl_append

theorem replayLog_of_not_mem (hi : ∀ e ∈ L, e.2.1 ≠ i) : replayLog start L i = start i := by
  induction L generalizing start with
  | nil => rfl
  | cons e L ih =>
      rw [replayLog_cons, ih fun x hx => hi x (.tail _ hx)]
      exact Function.update_of_ne (hi e (.head _)).symm _ _

/-- Where a row of a replay comes from. -/
theorem replayLog_eq_some (h : replayLog start L i = some r) :
    start i = some r ∨ ∃ t, (t, i, some r) ∈ L := by
  induction L generalizing start with
  | nil => exact .inl h
  | cons e L ih =>
      rw [replayLog_cons] at h
      rcases ih h with hstart | ⟨t, ht⟩
      · by_cases hi : i = e.2.1
        · subst hi
          rw [Function.update_self] at hstart
          exact .inr ⟨e.1, hstart ▸ .head _⟩
        · rw [Function.update_of_ne hi] at hstart
          exact .inl hstart
      · exact .inr ⟨t, .tail _ ht⟩

/-- When every row occurs at most once, the order of the entries does not matter. -/
theorem replayLog_of_nodup (hnodup : (L.map fun e => e.2.1).Nodup) {e : τ × ι × Option ρ}
    (he : e ∈ L) : replayLog start L e.2.1 = e.2.2 := by
  induction L generalizing start with
  | nil => cases he
  | cons x L ih =>
      rw [List.map_cons, List.nodup_cons] at hnodup
      rcases List.mem_cons.mp he with rfl | he
      · rw [replayLog_cons, replayLog_of_not_mem fun y hy heq => hnodup.1 ?_, Function.update_self]
        exact List.mem_map.mpr ⟨y, hy, heq⟩
      · exact ih hnodup.2 he

namespace Table

variable {T T' : Table ι τ ρ} {t : τ} {v : Option ρ}

/-- Every version that was committed, and every version held under lock, is one that `step`
allows after the version committed before it. -/
structure Lived (step : ι → Option ρ → Option ρ → Prop) (start : ι → Option ρ)
    (T : Table ι τ ρ) : Prop where
  replayed : T.committed = replayLog start T.log
  history : ∀ L₁ t i v L₂, T.log = L₁ ++ (t, i, v) :: L₂ → step i (replayLog start L₁ i) v
  held : ∀ t i v, T.pending i = some (t, v) → step i (T.committed i) v

variable {step step' : ι → Option ρ → Option ρ → Prop}

theorem AtRest.lived (h : T.AtRest) : T.Lived step T.committed where
  replayed := by rw [h.log, replayLog_nil]
  history L₁ t i v L₂ heq := by simp [h.log] at heq
  held t i v hv := by simp [h.pending i] at hv

theorem Lived.mono (h : T.Lived step start)
    (hstep : ∀ i old new, step i old new → step' i old new) : T.Lived step' start where
  replayed := h.replayed
  history L₁ t i v L₂ heq := hstep _ _ _ (h.history L₁ t i v L₂ heq)
  held t i v hv := hstep _ _ _ (h.held t i v hv)

theorem Lived.of_eq (h : T.Lived step start) (hcommitted : T'.committed = T.committed)
    (hpending : T'.pending = T.pending) (hlog : T'.log = T.log) : T'.Lived step start where
  replayed := by rw [hcommitted, hlog, h.replayed]
  history := by
    rw [hlog]
    exact h.history
  held := by
    rw [hpending, hcommitted]
    exact h.held

theorem Lived.write (h : T.Lived step start) (hstep : step i (T.committed i) v) :
    (T.write t i v).Lived step start where
  replayed := h.replayed
  history := h.history
  held u j w hw := by
    rcases write_pending hw with ⟨rfl, heq⟩ | ⟨-, hw⟩
    · cases heq
      exact hstep
    · exact h.held u j w hw

theorem Lived.abort (h : T.Lived step start) : (T.abort t).Lived step start where
  replayed := h.replayed
  history := h.history
  held u j w hw := h.held u j w (abort_pending.mp hw).1

private theorem committed_eq_replayLog (h : T.Lived step start) :
    (T.commit t).committed = replayLog start (T.commit t).log := by
  rw [commit_log, replayLog_append, ← h.replayed]
  funext i
  by_cases hp : ∃ v, T.pending i = some (t, v)
  · obtain ⟨v, hv⟩ := hp
    rw [commit_committed_of_pending hv]
    have he : (t, i, v) ∈ T.writes t := mem_writes.mpr ⟨rfl, hv⟩
    exact (replayLog_of_nodup T.writes_keys_nodup he).symm
  · rw [commit_committed_of_not_pending fun v hv => hp ⟨v, hv⟩]
    refine (replayLog_of_not_mem fun e he heq => hp ⟨e.2.2, ?_⟩).symm
    exact heq ▸ (mem_writes.mp he).2

/-- An entry that a commit appends is about a row that the commit changes only once. -/
theorem Lived.commit (h : T.Lived step start) : (T.commit t).Lived step start where
  replayed := committed_eq_replayLog h
  history L₁ u i v L₂ heq := by
    rw [commit_log] at heq
    rcases List.append_eq_append_iff.mp heq with ⟨mid, rfl, hwrites⟩ | ⟨mid, hlog, hmid⟩
    · obtain ⟨rfl, hv⟩ := mem_writes.mp (hwrites ▸ List.mem_append_right mid (.head L₂))
      rw [replayLog_append, ← h.replayed]
      have hnodup := T.writes_keys_nodup (t := u)
      rw [hwrites, List.map_append, List.nodup_append] at hnodup
      have hnot : ∀ e ∈ mid, e.2.1 ≠ i := fun e he =>
        hnodup.2.2 _ (List.mem_map_of_mem he) i (.head _)
      rw [replayLog_of_not_mem hnot]
      exact h.held u i v hv
    · cases mid with
      | nil =>
          rw [List.append_nil] at hlog
          obtain ⟨rfl, hv⟩ := mem_writes.mp (hmid ▸ List.Mem.head L₂)
          rw [← hlog, ← h.replayed]
          exact h.held u i v hv
      | cons x mid =>
          obtain ⟨rfl, -⟩ := List.cons.inj hmid
          exact h.history L₁ u i v mid hlog
  held u j w hw := by
    obtain ⟨hw, hne⟩ := commit_pending.mp hw
    rw [commit_committed_of_not_pending]
    · exact h.held u j w hw
    · intro v hv
      rw [hv] at hw
      exact hne (Prod.mk.inj (Option.some.inj hw)).1.symm

/-- What a transaction sees is its own version or what is committed. -/
theorem view_cases (h : T.view t i = some r) :
    T.pending i = some (t, some r) ∨ T.committed i = some r ∧ ∀ v, T.pending i ≠ some (t, v) := by
  by_cases hp : ∃ v, T.pending i = some (t, v)
  · obtain ⟨v, hv⟩ := hp
    rw [view_of_pending hv] at h
    exact .inl (h ▸ hv)
  · have hnot : ∀ v, T.pending i ≠ some (t, v) := fun v hv => hp ⟨v, hv⟩
    rw [view_of_not_pending hnot] at h
    exact .inr ⟨h, hnot⟩

/-- A version of row `i` that has been committed. -/
def Past (start : ι → Option ρ) (T : Table ι τ ρ) (i : ι) (r : ρ) : Prop :=
  start i = some r ∨ ∃ t, (t, i, some r) ∈ T.log

theorem Lived.past (h : T.Lived step start) (hr : T.committed i = some r) : T.Past start i r :=
  replayLog_eq_some (h.replayed ▸ hr)

/-- What was committed once is not the row of an insertion. -/
theorem Past.mem_ids (hr : T.Past start i r) (h : T.Lived step start) (hT : T.Ordered) :
    i ∈ T.ids := by
  by_cases hlog : ∃ e ∈ T.log, e.2.1 = i
  · obtain ⟨e, he, rfl⟩ := hlog
    exact hT.mem_of_log e he
  · have hnot : ∀ e ∈ T.log, e.2.1 ≠ i := fun e he heq => hlog ⟨e, he, heq⟩
    rcases hr with hr | ⟨t, ht⟩
    · refine T.mem_of_committed i r ?_
      rw [h.replayed, replayLog_of_not_mem hnot, hr]
    · exact (hnot _ ht rfl).elim

end Table

end ReadCommitted
