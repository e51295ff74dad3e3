import ExpressCore.Verification.System.Calls
import ExpressCore.Verification.System.Sights
import ExpressCore.Verification.System.Start

/-! # Leases on outbox rows

The lease of a claimed row is its `availableAt`, which a relay that comes late also writes. -/

namespace ExpressCore.Leases

open ReadCommitted Interleaving Interleaving.Program

/-! ## Claims in the log -/

section Log

variable {L L' W : List (ℕ × ℕ × Option Outbox)} {t u i : ℕ} {v : Option Outbox} {expiry : Time}

/-- Thread `t` has written row `i`. -/
def Entered (L : List (ℕ × ℕ × Option Outbox)) (t i : ℕ) : Prop := ∃ v, (t, i, v) ∈ L

/-- The last claim of row `i` is that of `u`, it expires at `expiry`, and `u` has not written
the row since. The first write of a relay to a row is its claim. -/
def LeasedTo (L : List (ℕ × ℕ × Option Outbox)) (i u : ℕ) (expiry : Time) : Prop :=
  ∃ L₁ r L₂, L = L₁ ++ (u, i, some r) :: L₂ ∧ r.availableAt = expiry ∧ ¬ Entered L₁ u i ∧
    ∀ w, Entered L₂ w i → w ≠ u ∧ Entered L₁ w i

theorem entered_append : Entered (L ++ W) t i ↔ Entered L t i ∨ Entered W t i := by
  simp only [Entered, List.mem_append, exists_or]

theorem Entered.extend (h : Entered L t i) (hext : L <+: L') : Entered L' t i := by
  obtain ⟨v, hv⟩ := h
  exact ⟨v, hext.subset hv⟩

/-- Where an entry of a log that has grown stands. -/
private theorem split_append {L₁ L₂ : List (ℕ × ℕ × Option Outbox)} {e : ℕ × ℕ × Option Outbox}
    (h : L ++ W = L₁ ++ e :: L₂) :
    (∃ mid, L = L₁ ++ e :: mid ∧ L₂ = mid ++ W) ∨ ∃ mid, L₁ = L ++ mid ∧ W = mid ++ e :: L₂ := by
  rcases List.append_eq_append_iff.mp h with ⟨mid, hL₁, hW⟩ | ⟨mid, hL, hmid⟩
  · exact .inr ⟨mid, hL₁, hW⟩
  · cases mid with
    | nil => exact .inr ⟨[], by simpa using hL.symm, by simpa using hmid.symm⟩
    | cons x mid =>
        obtain ⟨rfl, rfl⟩ := List.cons.inj hmid
        exact .inl ⟨mid, hL, rfl⟩

/-- Where the last claim stands when the log has grown. -/
private theorem leasedTo_cases (h : LeasedTo (L ++ W) i u expiry) :
    (LeasedTo L i u expiry ∧ ∀ w, Entered W w i → w ≠ u ∧ Entered L w i) ∨
      ∃ r, (u, i, some r) ∈ W ∧ r.availableAt = expiry ∧ ¬ Entered L u i := by
  obtain ⟨L₁, r, L₂, heq, hexpiry, hfirst, hlast⟩ := h
  rcases split_append heq with ⟨mid, rfl, rfl⟩ | ⟨mid, rfl, rfl⟩
  · refine .inl ⟨⟨L₁, r, mid, rfl, hexpiry, hfirst, fun w hw => hlast w ?_⟩, fun w hw => ?_⟩
    · exact entered_append.mpr (.inl hw)
    · obtain ⟨hne, hentered⟩ := hlast w (entered_append.mpr (.inr hw))
      exact ⟨hne, entered_append.mpr (.inl hentered)⟩
  · refine .inr ⟨r, by simp, hexpiry, fun hentered => hfirst ?_⟩
    exact entered_append.mpr (.inl hentered)

theorem LeasedTo.of_others (h : LeasedTo (L ++ W) i u expiry) (hW : ∀ w, ¬ Entered W w i) :
    LeasedTo L i u expiry := by
  rcases leasedTo_cases h with ⟨hL, -⟩ | ⟨r, hmem, -⟩
  · exact hL
  · exact (hW u ⟨_, hmem⟩).elim

/-- A relay that has written the row before ends its own lease and no other. -/
theorem LeasedTo.of_later (h : LeasedTo (L ++ W) i u expiry) (ht : Entered L t i)
    (hW : ∀ w, Entered W w i → w = t) (hentered : Entered W t i) :
    LeasedTo L i u expiry ∧ u ≠ t := by
  rcases leasedTo_cases h with ⟨hL, hlast⟩ | ⟨r, hmem, -, hfirst⟩
  · exact ⟨hL, (hlast t hentered).1.symm⟩
  · obtain rfl := hW u ⟨_, hmem⟩
    exact (hfirst ht).elim

/-- The first write of a relay takes the lease. -/
theorem LeasedTo.of_first (h : LeasedTo (L ++ W) i u expiry) (ht : ¬ Entered L t i)
    (hW : ∀ w, Entered W w i → w = t) (hentered : Entered W t i) :
    u = t ∧ ∃ r, (t, i, some r) ∈ W ∧ r.availableAt = expiry := by
  rcases leasedTo_cases h with ⟨-, hlast⟩ | ⟨r, hmem, hexpiry, -⟩
  · exact (ht (hlast t hentered).2).elim
  · obtain rfl := hW u ⟨_, hmem⟩
    exact ⟨rfl, r, hmem, hexpiry⟩

end Log

/-! ## The discipline of relays -/

/-- Runs in which thread `t` is answered at times in `span t`, and in which no relay defers a row
to a time before the end of the lease that another relay has on it. -/
def considerate (span : ℕ → Time → Prop) : Assumption ℕ Request State where
  request t r s := span t s.clock ∧
    ∀ i w error availableAt, r = .sql (.outbox (.visit i w (.retry error availableAt))) →
      ∀ u expiry, LeasedTo s.db.outbox.log i u expiry → u ≠ t → expiry ≤ availableAt
  move _ _ := True

/-- A relay claims rows that are due, once, and then writes those that it has claimed. -/
def leasing (setup : Setup) (span : ℕ → Time → Prop) : Discipline where
  tables k := k = .outbox
  change
    | t, .outbox, .visitUnlocked _ w c, s => ∃ now, w = .due now ∧
        c = .lease (now + setup.env.outboxLeaseSeconds * 1000) ∧ span t now ∧
        ∀ i, ¬ Entered s.db.outbox.log t i
    | t, .outbox, .visit i w c, s => (∃ r : Outbox, Condition.holds w i r = true) →
        Entered s.db.outbox.log t i ∧
          ((∃ now, c = .publish now) ∨ (∃ attempts reason now, c = .fail attempts reason now) ∨
            ∃ error availableAt, c = .retry error availableAt ∧
              ∀ u expiry, LeasedTo s.db.outbox.log i u expiry → u ≠ t → expiry ≤ availableAt)
    | _, .outbox, _, _ => False
    | _, _, _, _ => True
  commit _ _ := True
  other _ _ _ := True
  commit_free _ _ _ := trivial

variable {setup : Setup} {span : ℕ → Time → Prop} {A : Assumption ℕ Request State} {t u i : ℕ}
  {s s' s₀ : State}

/-- `lease` is the length of a lease. -/
structure Leased (lease : ℕ) (span : ℕ → Time → Prop) (s : State) : Prop where
  exclusive : ∀ L₁ t i v L₂, s.db.outbox.log = L₁ ++ (t, i, v) :: L₂ → ¬ Entered L₁ t i →
    ∃ r now, v = some r ∧ span t now ∧ r.availableAt = now + lease ∧
      ∀ u expiry, LeasedTo L₁ i u expiry → expiry ≤ now
  held : ∀ i u expiry r, LeasedTo s.db.outbox.log i u expiry →
    s.db.outbox.committed i = some r → r.status = .pending → expiry ≤ r.availableAt
  claiming : ∀ t i v, s.db.outbox.pending i = some (t, v) → ¬ Entered s.db.outbox.log t i →
    ∃ r now old, v = some r ∧ span t now ∧ r.availableAt = now + lease ∧
      s.db.outbox.committed i = some old ∧ old.status = .pending ∧ old.availableAt ≤ now
  ending : ∀ t i v, s.db.outbox.pending i = some (t, v) → Entered s.db.outbox.log t i →
    ∃ r, v = some r ∧ (r.status = .pending →
      ∀ u expiry, LeasedTo s.db.outbox.log i u expiry → u ≠ t → expiry ≤ r.availableAt)

theorem entered_writes {T : Table ℕ ℕ Outbox} {w : ℕ} :
    Entered (T.writes t) w i ↔ w = t ∧ ∃ v, T.pending i = some (t, v) := by
  simp only [Entered, Table.mem_writes]
  exact ⟨fun ⟨v, hw, hv⟩ => ⟨hw, v, hv⟩, fun ⟨hw, v, hv⟩ => ⟨v, hw, hv⟩⟩

variable {lease : ℕ}

theorem Leased.of_same (h : Leased lease span s)
    (hcommitted : s'.db.outbox.committed = s.db.outbox.committed)
    (hpending : s'.db.outbox.pending = s.db.outbox.pending)
    (hlog : s'.db.outbox.log = s.db.outbox.log) : Leased lease span s' where
  exclusive := hlog ▸ h.exclusive
  held := by
    rw [hlog, hcommitted]
    exact h.held
  claiming := by
    rw [hpending, hlog, hcommitted]
    exact h.claiming
  ending := by
    rw [hpending, hlog]
    exact h.ending

theorem Leased.abort (h : Leased lease span s) (htable : s'.db.outbox = s.db.outbox.abort u) :
    Leased lease span s' where
  exclusive := by
    rw [htable, Table.abort_log]
    exact h.exclusive
  held := by
    rw [htable, Table.abort_log, Table.abort_committed]
    exact h.held
  claiming t i v hv := by
    rw [htable] at hv ⊢
    exact h.claiming t i v (Table.abort_pending.mp hv).1
  ending t i v hv := by
    rw [htable] at hv ⊢
    exact h.ending t i v (Table.abort_pending.mp hv).1

theorem Leased.commit (h : Leased lease span s) (htable : s'.db.outbox = s.db.outbox.commit u) :
    Leased lease span s' := by
  have hother {i : ℕ} (hi : ∀ v, s.db.outbox.pending i ≠ some (u, v)) (w : ℕ) :
      ¬ Entered (s.db.outbox.writes u) w i := fun hw => by
    obtain ⟨-, v, hv⟩ := entered_writes.mp hw
    exact hi v hv
  have hwriter {i w : ℕ} (hw : Entered (s.db.outbox.writes u) w i) : w = u :=
    (entered_writes.mp hw).1
  constructor
  · intro L₁ t i v L₂ heq hfirst
    rw [htable, Table.commit_log] at heq
    rcases split_append heq with ⟨mid, hlog, -⟩ | ⟨mid, rfl, hwrites⟩
    · exact h.exclusive L₁ t i v mid hlog hfirst
    · obtain ⟨rfl, hpending⟩ := Table.mem_writes.mp (hwrites ▸ List.mem_append_right mid (.head L₂))
      have hfirst' : ¬ Entered s.db.outbox.log t i :=
        fun hentered => hfirst (entered_append.mpr (.inl hentered))
      obtain ⟨r, now, old, rfl, hnow, hexpiry, hold, hstatus, hdue⟩ :=
        h.claiming t i v hpending hfirst'
      refine ⟨r, now, rfl, hnow, hexpiry, fun w expiry hleased => ?_⟩
      have hmid (w : ℕ) : ¬ Entered mid w i := by
        rintro ⟨v', hmem⟩
        have hnodup := s.db.outbox.writes_keys_nodup (t := t)
        rw [hwrites, List.map_append, List.nodup_append] at hnodup
        exact hnodup.2.2 i (List.mem_map.mpr ⟨_, hmem, rfl⟩) i (.head _) rfl
      exact Nat.le_trans (h.held i w expiry old (hleased.of_others hmid) hold hstatus) hdue
  · intro i w expiry r hleased hcommitted hstatus
    rw [htable] at hleased hcommitted
    by_cases hp : ∃ v, s.db.outbox.pending i = some (u, v)
    · obtain ⟨v, hv⟩ := hp
      rw [Table.commit_committed_of_pending hv] at hcommitted
      subst hcommitted
      have hentered : Entered (s.db.outbox.writes u) u i := entered_writes.mpr ⟨rfl, _, hv⟩
      by_cases hbefore : Entered s.db.outbox.log u i
      · obtain ⟨hbefore', hne⟩ := hleased.of_later hbefore (fun _ => hwriter) hentered
        obtain ⟨r', hr, hcond⟩ := h.ending u i _ hv hbefore
        obtain rfl := Option.some.inj hr
        exact hcond hstatus w expiry hbefore' hne
      · obtain ⟨rfl, r', hmem, rfl⟩ := hleased.of_first hbefore (fun _ => hwriter) hentered
        have hv' := (Table.mem_writes.mp hmem).2
        rw [hv] at hv'
        obtain rfl : r = r' := by simpa using hv'
        exact Nat.le_refl _
    · have hnot : ∀ v, s.db.outbox.pending i ≠ some (u, v) := fun v hv => hp ⟨v, hv⟩
      rw [Table.commit_committed_of_not_pending hnot] at hcommitted
      exact h.held i w expiry r (hleased.of_others (hother hnot)) hcommitted hstatus
  · intro t i v hv hfirst
    rw [htable] at hv hfirst ⊢
    obtain ⟨hv, hne⟩ := Table.commit_pending.mp hv
    have hnot (v' : Option Outbox) : s.db.outbox.pending i ≠ some (u, v') := fun hv' => by
      rw [hv] at hv'
      exact hne (Prod.mk.inj (Option.some.inj hv')).1
    rw [Table.commit_committed_of_not_pending hnot]
    exact h.claiming t i v hv fun hentered => hfirst (entered_append.mpr (.inl hentered))
  · intro t i v hv hentered
    rw [htable] at hv hentered ⊢
    obtain ⟨hv, hne⟩ := Table.commit_pending.mp hv
    have hnot (v' : Option Outbox) : s.db.outbox.pending i ≠ some (u, v') := fun hv' => by
      rw [hv] at hv'
      exact hne (Prod.mk.inj (Option.some.inj hv')).1
    have hbefore := (entered_append.mp hentered).resolve_right (hother hnot t)
    obtain ⟨r, rfl, hcond⟩ := h.ending t i v hv hbefore
    exact ⟨r, rfl, fun hstatus w expiry hleased =>
      hcond hstatus w expiry (hleased.of_others (hother hnot))⟩

/-- A write of thread `t` to row `i`. -/
theorem Leased.write {v : Option Outbox} (h : Leased lease span s)
    (htable : s'.db.outbox = s.db.outbox.write t i v)
    (hclaiming : ¬ Entered s.db.outbox.log t i →
      ∃ r now old, v = some r ∧ span t now ∧ r.availableAt = now + lease ∧
        s.db.outbox.committed i = some old ∧ old.status = .pending ∧ old.availableAt ≤ now)
    (hending : Entered s.db.outbox.log t i → ∃ r, v = some r ∧ (r.status = .pending →
      ∀ u expiry, LeasedTo s.db.outbox.log i u expiry → u ≠ t → expiry ≤ r.availableAt)) :
    Leased lease span s' where
  exclusive := by
    rw [htable, Table.write_log]
    exact h.exclusive
  held := by
    rw [htable, Table.write_log, Table.write_committed]
    exact h.held
  claiming t' i' v' hv hfirst := by
    rw [htable] at hv hfirst ⊢
    rcases Table.write_pending hv with ⟨rfl, heq⟩ | ⟨-, hv⟩
    · obtain ⟨rfl, rfl⟩ := Prod.mk.inj heq
      exact hclaiming hfirst
    · exact h.claiming t' i' v' hv hfirst
  ending t' i' v' hv hentered := by
    rw [htable] at hv hentered ⊢
    rcases Table.write_pending hv with ⟨rfl, heq⟩ | ⟨-, hv⟩
    · obtain ⟨rfl, rfl⟩ := Prod.mk.inj heq
      exact hending hentered
    · exact h.ending t' i' v' hv hentered

/-- What a relay claims was due when it was committed, also when it claims it again. -/
theorem Leased.due {now : Time} {old : Outbox} (h : Leased lease span s)
    (hfirst : ¬ Entered s.db.outbox.log t i) (hview : s.db.outbox.view t i = some old)
    (hstatus : old.status = .pending) (hdue : old.availableAt ≤ now) :
    ∃ first, s.db.outbox.committed i = some first ∧ first.status = .pending ∧
      first.availableAt ≤ now := by
  by_cases hp : ∃ v, s.db.outbox.pending i = some (t, v)
  · obtain ⟨v, hv⟩ := hp
    obtain ⟨r, now', first, rfl, -, hexpiry, hcommitted, hpending, hdue'⟩ :=
      h.claiming t i v hv hfirst
    rw [Table.view_of_pending hv] at hview
    obtain rfl := Option.some.inj hview
    exact ⟨first, hcommitted, hpending,
      Nat.le_trans hdue' (Nat.le_trans (Nat.le_add_right now' lease) (hexpiry ▸ hdue))⟩
  · rw [Table.view_of_not_pending fun v hv => hp ⟨v, hv⟩] at hview
    exact ⟨old, hview, hstatus, hdue⟩

theorem Leased.step (h : Leased (setup.env.outboxLeaseSeconds * 1000) span s)
    (hevent : Event setup A (leasing setup span) s s') :
    Leased (setup.env.outboxLeaseSeconds * 1000) span s' := by
  have hrow := hevent.on .outbox
  simp only [TableName.table] at hrow
  cases hrow with
  | same hcommitted hpending hlog => exact h.of_same hcommitted hpending hlog
  | write t a i v hchange hA hwrote htable =>
      have hrule := hchange rfl
      cases hwrote with
      | visit _ w c old hlocked hview hw =>
          obtain ⟨hentered, hc⟩ := hrule ⟨old, hw⟩
          refine h.write htable (fun hfirst => (hfirst hentered).elim) fun _ => ?_
          rcases hc with ⟨now, rfl⟩ | ⟨attempts, reason, now, rfl⟩ | ⟨error, at', rfl, hlater⟩
          · exact ⟨_, rfl, fun hstatus => nomatch hstatus⟩
          · exact ⟨_, rfl, fun hstatus => nomatch hstatus⟩
          · exact ⟨_, rfl, fun _ => hlater⟩
      | visitUnlocked _ w c old hlocked hview hw =>
          obtain ⟨now, rfl, rfl, hnow, hnothing⟩ := hrule
          simp only [Condition.holds, Bool.and_eq_true, beq_iff_eq, decide_eq_true_eq] at hw
          refine h.write htable (fun hfirst => ?_) fun hentered => (hnothing i hentered).elim
          obtain ⟨first, hfirst', hstatus, hdue⟩ := h.due hfirst hview hw.1 hw.2
          exact ⟨_, now, first, rfl, hnow, rfl, hfirst', hstatus, hdue⟩
      | insert => exact hrule.elim
      | create => exact hrule.elim
      | update => exact hrule.elim
  | commit t hcommit htable => exact h.commit htable
  | abort t htable => exact h.abort htable

/-! ## The relay -/

/-- Thread `t` holds the rows and has committed nothing. -/
structure Holding (t : ℕ) (ids : List ℕ) (s : State) : Prop where
  clear : Clear t s
  nothing : ∀ i, ¬ Entered s.db.outbox.log t i
  held : ∀ i ∈ ids, ∃ v, s.db.outbox.pending i = some (t, v)

/-- Thread `t` has claimed the rows. -/
def Claimed (t : ℕ) (ids : List ℕ) (s : State) : Prop := ∀ i ∈ ids, Entered s.db.outbox.log t i

abbrev rules (setup : Setup) (span : ℕ → Time → Prop) : Rules ℕ State :=
  keeping setup False (considerate span) (leasing setup span)

theorem Holding.of_mem {ids ids' : List ℕ} (h : Holding t ids s) (hids : ∀ i ∈ ids', i ∈ ids) :
    Holding t ids' s :=
  { h with held := fun i hi => h.held i (hids i hi) }

theorem firm_holding (ids : List ℕ) :
    Firm (fun k => k = .outbox) setup False t (Holding t ids) := by
  intro s s' _ _ hmove h
  have hrows : Undisturbed Outbox.SameJob t s.db.outbox s'.db.outbox := hmove.rows .outbox rfl
  refine ⟨hmove.clear h.clear, fun i hentered => ?_, fun i hi => ?_⟩
  · obtain ⟨others, heq, hothers⟩ := hrows.log
    rw [heq] at hentered
    rcases entered_append.mp hentered with hentered | ⟨v, hv⟩
    · exact h.nothing i hentered
    · exact hothers _ hv rfl
  · obtain ⟨v, hv⟩ := h.held i hi
    exact ⟨v, (hrows.own i v).mpr hv⟩

theorem firm_claimed (ids : List ℕ) : Firm (fun _ => False) setup False t (Claimed t ids) :=
  fun _ _ _ _ hmove h i hi => (h i hi).extend (hmove.logs .outbox)

theorem visitUnlocked_meets {now : Time} {id : ℕ} {ids : List ℕ} {err : Error → State → Prop}
    (hnow : span t now) :
    (rules setup span).Meets (system setup) (considerate span) t
      (fun reply s => Holding t (reply.toList.map (fun _ => id) ++ ids) s) err
      (outbox (.visitUnlocked id (.due now)
        (.lease (now + setup.env.outboxLeaseSeconds * 1000)))) (Holding t ids) := by
  refine send_meets (k := .outbox) (a := .visitUnlocked id (.due now) (.lease _))
    (firm_holding ids).stable (fun _ => (firm_holding _).stable)
    (fun s _ _ hp _ _ => ⟨now, rfl, rfl, hnow, hp.nothing⟩)
    fun s o reply s' _ _ _ hp hothers h => ?_
  have hlog : s'.db.outbox.log = s.db.outbox.log := (exec_settled h.exec).2
  refine ⟨hothers.clear hp.clear, fun i => hlog ▸ hp.nothing i, fun i hi => ?_⟩
  rcases exec_visitUnlocked h.exec with ⟨old, htable⟩ | ⟨rfl, htable⟩
  · have htable : s'.db.outbox = s.db.outbox.write t id _ := htable
    rw [htable]
    by_cases heq : i = id
    · subst heq
      exact ⟨_, Table.write_pending_self⟩
    · rw [Table.write_pending_of_ne heq]
      refine hp.held i ((List.mem_append.mp hi).resolve_left fun hmem => heq ?_)
      obtain ⟨_, -, rfl⟩ := List.mem_map.mp hmem
      rfl
  · have htable : s'.db.outbox = s.db.outbox := htable
    rw [htable]
    exact hp.held i (by simpa using hi)

theorem claimRows_meets {now : Time} {err : Error → State → Prop} (hnow : span t now)
    (limit : ℕ) (rows : List (ℕ × Outbox)) (ids : List ℕ) :
    (rules setup span).Meets (system setup) (considerate span) t
      (fun claimed s => Holding t (claimed.map (·.id) ++ ids) s) err
      (claimRows now (setup.env.outboxLeaseSeconds * 1000) limit rows) (Holding t ids) := by
  induction rows generalizing limit ids with
  | nil => cases limit <;> exact .pure (firm_holding _).stable .refl
  | cons row rest ih =>
      cases limit with
      | zero => exact .pure (firm_holding _).stable .refl
      | succ limit =>
          refine .bind (visitUnlocked_meets hnow) fun reply => ?_
          cases reply with
          | none => exact ih (limit + 1) ids
          | some r =>
              refine .bind (ih limit (row.1 :: ids)) fun others =>
                .pure (firm_holding _).stable fun s _ h => h.of_mem fun i hi => ?_
              simp only [List.map_cons, List.cons_append, List.mem_cons, List.mem_append] at hi ⊢
              tauto

theorem claimBatch_meets (limit : ℕ) :
    (rules setup span).Meets (system setup) (considerate span) t
      (fun rows s => Claimed t (rows.map (·.id)) s) (fun _ _ => True) (claimBatch setup limit)
      fun s => s.db.startedAt t = none ∧ Holding t [] s := by
  have hneutral : (Request.sql .now).Neutral fun k => k = .outbox := trivial
  have hfirm (now : Time) : Firm (fun k => k = .outbox) setup False t
      fun s => span t now ∧ Holding t [] s := (Firm.const _).and (firm_holding [])
  refine .seq (fun now s => span t now ∧ Holding t [] s) (Rules.Meets.send
    ((startedAt_stable none).and (firm_holding []).stable) (keeping_answers (fun _ _ _ _ =>
      guard_of_neutral hneutral) fun s o now s' hs hA hpre hexec => ?_)
    fun now => (hfirm now).stable) fun now => ?_
  · refine ⟨?_, firm_holding [] s s' hs (hs.exec hexec) (.of_neutral hneutral hexec) hpre.2⟩
    rw [(reply_of_now hexec).1, hpre.1]
    exact hA.1
  refine .assume fun hnow => ?_
  have hscan : (outbox (.scan (.due now))).Uses (Request.Neutral fun k => k = .outbox) :=
    uses_send.mpr (Sql.neutral_sql (k := .outbox).mpr fun _ => not_false)
  refine .bind ((meets_neutral (firm_holding []) hscan).mono (fun _ => .refl)
    fun _ _ _ _ => trivial) fun due => ?_
  refine .bind (claimRows_meets hnow limit _ []) fun rows => ?_
  refine .bind (commit_meets (.inr rfl) (firm_holding _).stable
    (fun _ => Claimed t (rows.map (·.id))) (fun _ => (firm_claimed _).stable)
    (fun s _ _ h => ⟨h.clear, trivial⟩) fun s s' _ _ _ _ h htables _ i hi => ?_) fun _ =>
      .pure (firm_claimed _).stable .refl
  obtain ⟨v, hv⟩ := h.held i (List.mem_append_left _ hi)
  have htable : s'.db.outbox = s.db.outbox.commit t := htables .outbox
  rw [htable, Table.commit_log]
  exact entered_append.mpr (.inr (entered_writes.mpr ⟨rfl, v, hv⟩))

/-- A program that writes rows which the thread has claimed. -/
theorem meets_claimed {α : Type} {p : Service α} {ids : List ℕ}
    (hp : p.Uses ((leasing setup span).Admits (considerate span) t (Claimed t ids))) :
    (rules setup span).Meets (system setup) (considerate span) t (fun _ => Claimed t ids)
      (fun _ => Claimed t ids) p (Claimed t ids) :=
  Rules.Meets.of_uses hp (firm_claimed ids).stable fun _ hr => keeping_answers (fun s _ => hr s)
    fun _ _ _ _ _ _ hpre hexec i hi => (hpre i hi).extend (exec_table hexec .outbox).log

section Rows

variable {ids : List ℕ} {row : ClaimedOutboxRow}

theorem lets_other {r : Request} (h : r.table? ≠ some .outbox) :
    (leasing setup span).Admits (considerate span) t (Claimed t ids) r := by
  refine Discipline.Lets.admits (Discipline.lets_skips (fun _ => trivial) (fun _ _ => trivial) ?_)
  rintro k rfl
  exact Request.skips_of_table h

/-- The ends of a claim. -/
theorem finish_admits {db : Client} {id : ℕ} {c : OutboxChange} (hid : id ∈ ids)
    (hc : (∃ now, c = .publish now) ∨ (∃ attempts reason now, c = .fail attempts reason now) ∨
      ∃ error availableAt, c = .retry error availableAt) :
    (changeMany outbox db (.pending id) c).Uses
      ((leasing setup span).Admits (considerate span) t (Claimed t ids)) := by
  have hcomplete : (leasing setup span).Admits (considerate span) t (Claimed t ids)
      (.sql (.complete db)) := lets_other nofun
  refine uses_change (uses_send.mpr (Discipline.lets_read (k := .outbox) (a := .scan _)
    not_false).admits) (fun i => uses_send.mpr ?_) hcomplete
  refine Discipline.admits_access (k := .outbox) fun s hA hclaimed _ hholds => ?_
  obtain ⟨r, hr⟩ := hholds
  simp only [Condition.holds, Bool.and_eq_true, beq_iff_eq] at hr
  obtain rfl : i = id := hr.1
  refine ⟨hclaimed i hid, ?_⟩
  rcases hc with hc | hc | ⟨error, availableAt, rfl⟩
  · exact .inl hc
  · exact .inr (.inl hc)
  · exact .inr (.inr ⟨error, availableAt, rfl, hA.2 i _ error availableAt rfl⟩)

theorem markFailed_admits (hid : row.id ∈ ids) (reason : String) (attempts : ℕ) :
    (markFailed row reason attempts).Uses
      ((leasing setup span).Admits (considerate span) t (Claimed t ids)) := by
  refine uses_transaction (lets_other nofun) (lets_other nofun) (lets_other nofun)
    (.bind (uses_send.mpr (lets_other nofun)) fun now => .bind (finish_admits hid
      (.inr (.inl ⟨_, _, _, rfl⟩))) fun changed => ?_)
  split
  · trivial
  · exact .bind (uses_send.mpr (lets_other nofun)) fun createdAt => .bind (uses_create
      (uses_send.mpr (lets_other nofun)) (lets_other nofun)) fun _ => trivial

theorem processRow_admits (hid : row.id ∈ ids) : (processRow setup row).Uses
    ((leasing setup span).Admits (considerate span) t (Claimed t ids)) := by
  unfold processRow
  split
  · exact .bind (markFailed_admits hid _ _) fun _ => trivial
  · have hpublish : (publish row).Uses
        ((leasing setup span).Admits (considerate span) t (Claimed t ids)) := by
      refine .bind (uses_send.mpr (lets_other nofun)) fun outcome => ?_
      cases outcome <;> trivial
    refine .bind hpublish fun reason => ?_
    cases reason with
    | none =>
        exact .bind (.bind (uses_send.mpr (lets_other nofun)) fun now => .bind (finish_admits hid
          (.inl ⟨_, rfl⟩)) fun _ => trivial) fun _ => trivial
    | some reason =>
        dsimp only
        split
        · exact .bind (markFailed_admits hid _ _) fun _ => trivial
        · exact .bind (uses_send.mpr (lets_other nofun)) fun now => .bind (.bind (finish_admits hid
            (.inr (.inr ⟨_, _, rfl⟩))) fun _ => trivial) fun _ => trivial

theorem relayRows_admits (rows : List ClaimedOutboxRow) (hids : ∀ row ∈ rows, row.id ∈ ids) :
    (relayRows setup rows).Uses
      ((leasing setup span).Admits (considerate span) t (Claimed t ids)) := by
  induction rows with
  | nil => trivial
  | cons row rest ih =>
      have hrest := ih fun other hother => hids other (.tail _ hother)
      refine .bind (processRow_admits (hids row (.head _))) fun outcome => ?_
      cases outcome with
      | retry => trivial
      | published => exact .bind hrest fun _ => trivial
      | failed => exact hrest
      | skipped => exact hrest

end Rows

theorem relayOnce_meets :
    (rules setup span).Meets (system setup) (considerate span) t (fun _ _ => True)
      (fun _ _ => True) (relayOnce setup) fun s => s.db.startedAt t = none ∧ Holding t [] s := by
  refine .bind (claimBatch_meets _) fun rows => ?_
  refine (meets_claimed (relayRows_admits rows fun row hrow => ?_)).mono (fun _ _ _ _ => trivial)
    fun _ _ _ _ => trivial
  exact List.mem_map.mpr ⟨row, hrow, rfl⟩

/-! ## Runs of relays -/

/-- The claims of a log, each with the time it was made, are at times when no other relay has a
lease on the row. -/
def ClaimsExclusive (setup : Setup) (span : ℕ → Time → Prop)
    (L : List (ℕ × ℕ × Option Outbox)) : Prop :=
  ∀ L₁ t i v L₂, L = L₁ ++ (t, i, v) :: L₂ → ¬ Entered L₁ t i →
    ∃ r now, v = some r ∧ span t now ∧
      r.availableAt = now + setup.env.outboxLeaseSeconds * 1000 ∧
      ∀ u expiry, LeasedTo L₁ i u expiry → expiry ≤ now

theorem leased_of_atRest {lease : ℕ} (h : s₀.AtRest) : Leased lease span s₀ := by
  have hlog : s₀.db.outbox.log = [] := (h.tables .outbox).log
  have hpending (i : ℕ) : s₀.db.outbox.pending i = none := (h.tables .outbox).pending i
  refine ⟨fun L₁ t i v L₂ heq => ?_, fun i u expiry r hleased => ?_, fun t i v hv => ?_,
    fun t i v hv => ?_⟩
  · simp [hlog] at heq
  · obtain ⟨L₁, r', L₂, heq, -⟩ := hleased
    simp [hlog] at heq
  · simp [hpending] at hv
  · simp [hpending] at hv

theorem claims_exclusive {c : Config ℕ Error Request Request.Reply State ℕ} (hstart : s₀.AtRest)
    (hidle : ∀ t, s₀.db.startedAt t = none)
    (hrun : (system setup).Reaches (considerate span) (calling (fun _ => relayOnce setup) s₀) c) :
    ClaimsExclusive setup span c.shared.db.outbox.log := by
  have hsound : (rules setup span).Sound (system setup) (considerate span) (fun _ _ _ => True)
      (fun _ _ _ => True) (calling (fun _ => relayOnce setup) s₀) := by
    refine hstart.sound (fun t s => s.db.startedAt t = none ∧ Holding t [] s) (fun t => ?_)
      fun t => relayOnce_meets.weaken fun _ _ h => h.2
    refine ⟨hidle t, hstart.poisoned t, fun i ⟨v, hv⟩ => ?_, fun _ h => nomatch h⟩
    have hlog : s₀.db.outbox.log = [] := (hstart.tables .outbox).log
    simp [hlog] at hv
  exact (keeping_induction nofun (fun _ _ _ => trivial) hsound hrun (leased_of_atRest hstart)
    fun s s' _ _ h hevent => h.step hevent).exclusive

/-! ## A relay that is late -/

def dueRow : Outbox :=
  { queueName := EMAIL, jobName := "sendOtpEmail", payload := .obj [], status := .pending
    attempts := 0, availableAt := 0, publishedAt := none, lastError := none }

/-- One intent that is due. -/
def due : State :=
  { plainState .empty with db := { (plainState .empty).db with outbox := oneRow 7 dueRow } }

theorem due_atRest : due.AtRest where
  tables k := by
    cases k with
    | outbox => exact oneRow_atRest 7 _
    | _ => exact Table.empty_atRest
  poisoned _ := rfl
  seen := rfl
  minted := rfl
  families := rfl
  comparisons := rfl
  tickets := rfl

/-- Who wrote which row, and until when. -/
def entries (s : State) : List (ℕ × ℕ × Option Time) :=
  s.db.outbox.log.map fun e => (e.1, e.2.1, e.2.2.map (·.availableAt))

/-- The steps of a relay that claims the row, and of one whose publish times out. -/
def claim (t : ℕ) : List (Label ℕ Oracle) := List.replicate 4 (.run t {})

def defer (t : ℕ) : List (Label ℕ Oracle) :=
  .run t { outcome := .timedOut, executed := false } :: List.replicate 4 (.run t {})

/-- Only relays that are alone defer a row. -/
def orderly (t : ℕ) (r : Request) (s : State) : Bool :=
  match r with
  | .sql (.outbox (.visit _ _ (.retry _ _))) => s.db.outbox.log.all (·.1 == t)
  | _ => true

theorem considerate_of_orderly (r : Request) (s : State) (h : orderly t r s = true) :
    (considerate fun _ _ => True).request t r s := by
  refine ⟨trivial, ?_⟩
  rintro i w error availableAt rfl u expiry ⟨L₁, r, L₂, heq, -⟩ hne
  simp only [orderly, List.all_eq_true, beq_iff_eq] at h
  exact (hne (h (u, i, some r) (by simp [heq]))).elim

/-- A relay defers the row, and the next claims it when it is due again. -/
def inTurn : Config ℕ Error Request Request.Reply State ℕ :=
  (system plainSetup).after (calling (fun _ => relayOnce plainSetup) due)
    (claim 1 ++ defer 1 ++ [.move { move := .clock 10000 }] ++ claim 2)

theorem claims_exclusive_inTurn :
    ClaimsExclusive plainSetup (fun _ _ => True) inTurn.shared.db.outbox.log ∧
      entries inTurn.shared = [(1, 7, some 60000), (1, 7, some 10000), (2, 7, some 70000)] :=
  ⟨claims_exclusive due_atRest (fun _ => rfl) (.of_passes orderly
    (fun _ => considerate_of_orderly) (fun _ _ => trivial) (by decide +kernel)), by decide +kernel⟩

/-- An entry with the last row of the list of entries. -/
private theorem entry_of_map {L : List (ℕ × ℕ × Option Outbox)} {t i : ℕ} {expiry : Time}
    {rest : List (ℕ × ℕ × Option Time)}
    (h : L.map (fun e => (e.1, e.2.1, e.2.2.map (·.availableAt))) = (t, i, some expiry) :: rest) :
    ∃ r L', L = (t, i, some r) :: L' ∧ r.availableAt = expiry ∧
      L'.map (fun e => (e.1, e.2.1, e.2.2.map (·.availableAt))) = rest := by
  obtain ⟨⟨t', i', v⟩, L', rfl, he, hrest⟩ := List.map_eq_cons_iff.mp h
  simp only [Prod.mk.injEq, Option.map_eq_some_iff] at he
  obtain ⟨rfl, rfl, r, rfl, hr⟩ := he
  exact ⟨r, L', rfl, hr, hrest⟩

/-- The first relay defers the row when its lease has expired and the second has claimed it. -/
def overtaken : Config ℕ Error Request Request.Reply State ℕ :=
  (system plainSetup).after (calling (fun _ => relayOnce plainSetup) due)
    (claim 1 ++ [.move { move := .clock 60000 }] ++ claim 2 ++ defer 1 ++
      [.move { move := .clock 70000 }] ++ claim 3)

theorem lease_shortened : due.AtRest ∧
    (system plainSetup).Reaches .any (calling (fun _ => relayOnce plainSetup) due) overtaken ∧
    ¬ ClaimsExclusive plainSetup (fun _ _ => True) overtaken.shared.db.outbox.log := by
  refine ⟨due_atRest, .of_schedule (fun l _ _ _ => Machine.keeps_any l) (by decide +kernel),
    fun h => ?_⟩
  have hentries : entries overtaken.shared =
      [(1, 7, some 60000), (2, 7, some 120000), (1, 7, some 70000), (3, 7, some 130000)] := by
    decide +kernel
  unfold entries at hentries
  generalize overtaken.shared.db.outbox.log = L at h hentries
  obtain ⟨r₁, L, rfl, -, hentries⟩ := entry_of_map hentries
  obtain ⟨r₂, L, rfl, hexpiry, hentries⟩ := entry_of_map hentries
  obtain ⟨r₃, L, rfl, -, hentries⟩ := entry_of_map hentries
  obtain ⟨r₄, L, rfl, hlate, hentries⟩ := entry_of_map hentries
  obtain ⟨r, now, hr, -, hnow, hclear⟩ := h [(1, 7, some r₁), (2, 7, some r₂), (1, 7, some r₃)]
    3 7 (some r₄) L rfl (by simp [Entered])
  obtain rfl := Option.some.inj hr
  have hleased : LeasedTo [(1, 7, some r₁), (2, 7, some r₂), (1, 7, some r₃)] 7 2 120000 := by
    refine ⟨[(1, 7, some r₁)], r₂, [(1, 7, some r₃)], rfl, hexpiry, by simp [Entered], ?_⟩
    rintro w ⟨v, hv⟩
    obtain ⟨rfl, -⟩ := Prod.mk.inj (List.mem_singleton.mp hv)
    exact ⟨by decide, some r₁, .head _⟩
  have hearly (n : ℕ) (hn : 120000 ≤ n) (heq : 130000 = n + 60 * 1000) : False := by omega
  exact hearly now (hclear 2 120000 hleased) (hlate.symm.trans hnow)

end ExpressCore.Leases
