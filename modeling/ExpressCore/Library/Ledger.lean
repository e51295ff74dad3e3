import ExpressCore.Library.Isolation

/-! # What one transaction has done

The ledger of a transaction lists the versions it holds under lock and the versions it has
committed. The other transactions cannot change it. -/

set_option linter.unusedSectionVars false

namespace ReadCommitted

variable {ι τ ρ W C : Type} [DecidableEq ι] [DecidableEq τ] [Condition W ι ρ] [Change C ρ]

/-- `held` are the rows transaction `t` has locked, each with its committed and its uncommitted
version, and `done` the versions it has committed. -/
structure Table.Ledger (T : Table ι τ ρ) (t : τ) (held : List (ι × Option ρ × Option ρ))
    (done : List (ι × Option ρ)) : Prop where
  own : ∀ i v, T.pending i = some (t, v) ↔ ∃ b, (i, b, v) ∈ held
  before : ∀ x ∈ held, T.committed x.1 = x.2.1
  past : ∀ i v, (t, i, v) ∈ T.log ↔ (i, v) ∈ done

/-- Transaction `t` holds no lock. -/
def Table.Free (T : Table ι τ ρ) (t : τ) : Prop :=
  ∀ i v, T.pending i ≠ some (t, v)

variable {T T' : Table ι τ ρ} {t : τ} {i : ι} {r : ρ} {v : Option ρ}
  {held : List (ι × Option ρ × Option ρ)} {done : List (ι × Option ρ)}

namespace Table

theorem AtRest.ledger (h : T.AtRest) : T.Ledger t [] [] where
  own i v := by simp [h.pending i]
  before _ hx := nomatch hx
  past i v := by simp [h.log]

theorem Ledger.free (h : T.Ledger t [] done) : T.Free t :=
  fun i v hp => by simpa using (h.own i v).mp hp

theorem Ledger.pending {x : ι × Option ρ × Option ρ} (h : T.Ledger t held done)
    (hx : x ∈ held) : T.pending x.1 = some (t, x.2.2) :=
  (h.own _ _).mpr ⟨x.2.1, hx⟩

theorem Ledger.undisturbed {same : ρ → ρ → Prop} (h : T.Ledger t held done)
    (hrows : Undisturbed same t T T') : T'.Ledger t held done where
  own i v := (hrows.own i v).trans (h.own i v)
  before x hx := (hrows.kept x.1 x.2.2 (h.pending hx)).trans (h.before x hx)
  past i v := by
    obtain ⟨others, heq, hothers⟩ := hrows.log
    rw [← h.past i v, heq, List.mem_append]
    exact ⟨fun he => he.resolve_right fun he => hothers _ he rfl, .inl⟩

theorem Ledger.take {u : τ} (h : T.Ledger t held done) : (T.take u).Ledger t held done :=
  ⟨h.own, h.before, h.past⟩

theorem Ledger.write (h : T.Ledger t held done) (hi : ∀ x ∈ held, x.1 ≠ i) :
    (T.write t i v).Ledger t ((i, T.committed i, v) :: held) done where
  own j w := by
    by_cases heq : j = i
    · subst heq
      simp only [write_pending_self, Option.some.injEq, Prod.mk.injEq, true_and, List.mem_cons]
      constructor
      · rintro rfl
        exact ⟨_, .inl ⟨rfl, rfl⟩⟩
      · rintro ⟨b, ⟨-, rfl⟩ | hb⟩
        · rfl
        · exact (hi _ hb rfl).elim
    · simp [write_pending_of_ne heq, h.own, heq]
  before x hx := by
    rcases List.mem_cons.mp hx with rfl | hx
    · rfl
    · exact h.before x hx
  past j w := h.past j w

theorem Ledger.commit (h : T.Ledger t held done) :
    (T.commit t).Ledger t [] (done ++ held.map fun x => (x.1, x.2.2)) where
  own i v := by simp [commit_pending]
  before _ hx := nomatch hx
  past i v := by
    simp only [commit_log, List.mem_append, mem_writes, true_and, h.past, h.own, List.mem_map,
      Prod.exists, Prod.mk.injEq]
    exact or_congr_right
      ⟨fun ⟨b, hb⟩ => ⟨i, b, v, hb, rfl, rfl⟩, fun ⟨j, b, w, hb, hj, hw⟩ => ⟨b, hj ▸ hw ▸ hb⟩⟩

theorem Ledger.abort (h : T.Ledger t held done) : (T.abort t).Ledger t [] done where
  own i v := by simp [abort_pending]
  before _ hx := nomatch hx
  past i v := h.past i v

theorem Ledger.committed {x : ι × Option ρ × Option ρ} (h : T.Ledger t held done) (hx : x ∈ held) :
    (T.commit t).committed x.1 = x.2.2 :=
  commit_committed_of_pending (h.pending hx)

theorem Ledger.committed_of_ne (h : T.Ledger t held done) (hi : ∀ x ∈ held, x.1 ≠ i) :
    (T.commit t).committed i = T.committed i :=
  commit_committed_of_not_pending fun v hv => by
    obtain ⟨b, hb⟩ := (h.own i v).mp hv
    exact hi _ hb rfl

theorem Ledger.mem_commit_log {e : τ × ι × Option ρ} (h : T.Ledger t held done) :
    e ∈ (T.commit t).log ↔ e ∈ T.log ∨ ∃ x ∈ held, e = (t, x.1, x.2.2) := by
  rw [commit_log, List.mem_append, mem_writes, h.own]
  refine or_congr_right ⟨?_, ?_⟩
  · rintro ⟨ht, b, hb⟩
    exact ⟨_, hb, Prod.ext ht rfl⟩
  · rintro ⟨x, hx, rfl⟩
    exact ⟨rfl, x.2.1, hx⟩

theorem Ledger.commit_log {x : ι × Option ρ × Option ρ} (h : T.Ledger t [x] done) :
    (T.commit t).log = T.log ++ [(t, x.1, x.2.2)] := by
  have hsingle : T.writes t = [(t, x.1, x.2.2)] :=
    writes_eq_singleton (h.pending (.head _)) fun j v hv => by
      obtain ⟨b, hb⟩ := (h.own j v).mp hv
      rw [← List.mem_singleton.mp hb]
  rw [Table.commit_log, hsingle]

/-- A transaction that has committed nothing does not occur in the log. -/
theorem Ledger.filter_log [BEq τ] [LawfulBEq τ] (h : T.Ledger t held []) :
    T.log.filter (·.1 == t) = [] := by
  refine List.filter_eq_nil_iff.mpr fun e he ht => ?_
  obtain rfl := eq_of_beq ht
  exact nomatch (h.past e.2.1 e.2.2).mp he

theorem filter_writes_of_ne [BEq τ] [LawfulBEq τ] {u : τ} (hne : u ≠ t) :
    (T.writes t).filter (·.1 == u) = [] := by
  refine List.filter_eq_nil_iff.mpr fun e he hu => hne ?_
  exact (eq_of_beq hu).symm.trans (mem_writes.mp he).1

/-- What `t` inserts has no past. -/
theorem Ledger.unborn {b : Option ρ} (h : T.Ledger t held done) (hT : T.Ordered)
    (hx : (i, b, v) ∈ held) (hb : b = none) : ∀ e ∈ T.log, e.2.1 ≠ i :=
  hT.unborn i _ (h.pending hx) ((h.before _ hx).trans hb)

theorem Ledger.of_mem {held' : List (ι × Option ρ × Option ρ)} (h : T.Ledger t held done)
    (hmem : ∀ x, x ∈ held ↔ x ∈ held') : T.Ledger t held' done where
  own i v := by simp only [h.own, hmem]
  before x hx := h.before x ((hmem x).mpr hx)
  past := h.past

/-- A row whose lock `t` could take and has not taken is seen as it is committed. -/
theorem view_of_unlocked (hlocked : T.locked t i = false)
    (hfree : ∀ v, T.pending i ≠ some (t, v)) :
    T.view t i = T.committed i ∧ T.pending i = none := by
  refine ⟨view_of_not_pending hfree, ?_⟩
  by_contra hsome
  obtain ⟨w, hw⟩ := Option.ne_none_iff_exists'.mp hsome
  have heq := locked_eq_false.mp hlocked w hw
  exact hfree w.2 (by rw [hw, ← heq])

/-- A commit or rollback of a transaction without locks is nothing to it. -/
theorem Free.commit {same : ρ → ρ → Prop} (hsame : ∀ r, same r r) (h : T.Free t) :
    Undisturbed same t T (T.commit t) where
  own i v := by
    rw [commit_pending]
    exact ⟨fun hp => hp.1, fun hp => (h i v hp).elim⟩
  kept i v hp := (h i v hp).elim
  log := ⟨T.writes t, rfl, fun e he => (h _ _ (mem_writes.mp he).2).elim⟩
  ids _ hi := hi
  version _ _ r' hr' := ⟨r', version_of_commit hr', hsame r'⟩

theorem Free.abort {same : ρ → ρ → Prop} (hsame : ∀ r, same r r) (h : T.Free t) :
    Undisturbed same t T (T.abort t) where
  own i v := by
    rw [abort_pending]
    exact ⟨fun hp => hp.1, fun hp => (h i v hp).elim⟩
  kept i v hp := (h i v hp).elim
  log := ⟨[], by simp, by simp⟩
  ids _ hi := hi
  version _ _ r' hr' := ⟨r', version_of_abort hr', hsame r'⟩

theorem Free.settled (h : T.Free t) :
    (T.commit t).committed = T.committed ∧ (T.commit t).log = T.log := by
  refine ⟨funext fun i => commit_committed_of_not_pending (h i), ?_⟩
  have hnil : T.writes t = [] := List.eq_nil_iff_forall_not_mem.mpr fun e he =>
    h _ _ (mem_writes.mp he).2
  rw [commit_log, hnil, List.append_nil]

theorem Free.undisturbed {same : ρ → ρ → Prop} (h : T.Free t) (hrows : Undisturbed same t T T') :
    T'.Free t :=
  fun i v hp => h i v ((hrows.own i v).mp hp)

/-- What a transaction without locks has done is what the log tells. -/
theorem Free.ledger (h : T.Free t) : ∃ done, T.Ledger t [] done := by
  refine ⟨T.log.filterMap fun e => if e.1 = t then some e.2 else none, fun i v => ?_,
    by simp, fun i v => ?_⟩
  · simp [h i v]
  · simp [List.mem_filterMap]

/-- Every row is as it was in `T₀`, or its version is one that was committed since. -/
def Explained (T T₀ : Table ι τ ρ) : Prop :=
  ∀ i, T.committed i = T₀.committed i ∨ ∃ t, (t, i, T.committed i) ∈ T.log

end Table

/-- What is committed changes by commits only. -/
theorem Moves.settled (h : Moves C t T T') :
    T' = T.commit t ∨ T'.committed = T.committed ∧ T'.log = T.log := by
  cases h with
  | commit => exact .inl rfl
  | _ => exact .inr ⟨rfl, rfl⟩

theorem Moves.explained {T₀ : Table ι τ ρ} (h : Moves C t T T') (hT : T.Explained T₀) :
    T'.Explained T₀ := by
  intro i
  rcases h.settled with rfl | ⟨hcommitted, hlog⟩
  · rcases T.commit_committed_cases (t := t) (i := i) with ⟨v, hv, heq⟩ | ⟨-, heq⟩
    · rw [heq]
      exact .inr ⟨t, List.mem_append_right _ (Table.mem_writes.mpr ⟨rfl, hv⟩)⟩
    · rw [heq]
      exact (hT i).imp_right fun ⟨u, hu⟩ => ⟨u, List.mem_append_left _ hu⟩
  · rw [hcommitted, hlog]
    exact hT i

end ReadCommitted
