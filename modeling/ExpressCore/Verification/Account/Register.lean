import ExpressCore.Verification.Account.Details
import ExpressCore.Verification.System.Start

/-! # The details of a user as a register -/

namespace ExpressCore.Details

open ReadCommitted Interleaving Interleaving.Program Cron Fields

variable {setup : Setup} {traced : Prop} {A : Assumption ℕ Request State} {locales : Locales}
  {puts : ℕ → Put} {t : ℕ} {s s' s₀ : State}

/-! ## The row of a user -/

variable {T T' : Table ℕ ℕ UserProfile} {userId : ℕ}

def rowOf (T : Table ℕ ℕ UserProfile) (userId : ℕ) : Option UserProfile :=
  T.ids.findSome? fun i => (T.committed i).filter fun row => row.userId == userId

/-- What the response shows of a user. -/
def detailsOf (T : Table ℕ ℕ UserProfile) (userId : ℕ) : Option ProfileResponse :=
  toProfileResponse (rowOf T userId)

/-- What the committed requests of a user have sent, in the order of their commits. -/
def sentTo (locales : Locales) (puts : ℕ → Put) (T : Table ℕ ℕ UserProfile) (userId : ℕ) :
    List ProfileFields :=
  T.log.filterMap fun e =>
    if e.2.2.any fun row => row.userId == userId then some ((puts e.1).sent locales) else none

/-- `user_id` is unique. -/
def OnePerUser (T : Table ℕ ℕ UserProfile) : Prop :=
  ∀ i j r r', T.Version i r → T.Version j r' → r.userId = r'.userId → i = j

theorem rowOf_eq_some (hT : OnePerUser T) {row : UserProfile} :
    rowOf T userId = some row ↔ ∃ i, T.committed i = some row ∧ row.userId = userId := by
  unfold rowOf
  constructor
  · intro h
    obtain ⟨i, -, hi⟩ := List.exists_of_findSome?_eq_some h
    obtain ⟨hrow, huser⟩ := Option.filter_eq_some_iff.mp hi
    exact ⟨i, hrow, by simpa using huser⟩
  · rintro ⟨i, hrow, huser⟩
    cases hfound : T.ids.findSome? fun i =>
        (T.committed i).filter fun row => row.userId == userId with
    | none =>
        have hnone := List.findSome?_eq_none_iff.mp hfound i (T.mem_of_committed i row hrow)
        simp [hrow, huser] at hnone
    | some row' =>
        obtain ⟨j, -, hj⟩ := List.exists_of_findSome?_eq_some hfound
        obtain ⟨hrow', huser'⟩ := Option.filter_eq_some_iff.mp hj
        have huser' : row'.userId = userId := by simpa using huser'
        obtain rfl := hT i j row row' (.inl hrow) (.inl hrow') (huser.trans huser'.symm)
        exact hrow'.symm.trans hrow

theorem rowOf_congr (hT : OnePerUser T) (hT' : OnePerUser T')
    (h : ∀ i row, row.userId = userId → (T'.committed i = some row ↔ T.committed i = some row)) :
    rowOf T' userId = rowOf T userId := by
  ext row
  rw [rowOf_eq_some hT, rowOf_eq_some hT']
  exact exists_congr fun i => and_congr_left fun huser => h i row huser

/-! ## The invariant -/

/-- A row that is held by a request is the committed one, or a blank one, with what the request
sends, and the response shows what the committed requests have sent. -/
structure Registered (locales : Locales) (puts : ℕ → Put) (T₀ T : Table ℕ ℕ UserProfile) :
    Prop where
  owner : OnePerUser T
  held : ∀ i u v, T.pending i = some (u, v) → ∃ row, v = some row ∧
    row.userId = (puts u).userId ∧
    respond row = replace ((puts u).sent locales) ((T.committed i).elim blankResponse respond) ∧
    ∀ old, T.committed i = some old → old.userId = row.userId
  past : ∀ e ∈ T.log, ∃ row, e.2.2 = some row ∧ row.userId = (puts e.1).userId
  shown : ∀ userId,
    detailsOf T userId = shown (detailsOf T₀ userId) (sentTo locales puts T userId)

variable {T₀ : Table ℕ ℕ UserProfile}

theorem Registered.start (hT : T.AtRest) (howner : OnePerUser T) :
    Registered locales puts T T where
  owner := howner
  held i u v hv := by simp [hT.pending i] at hv
  past e he := by simp [hT.log] at he
  shown userId := by simp [sentTo, hT.log, shown_nil]

/-- An insertion that does not wait finds no version of a row of its user. -/
theorem Registered.none_of_insert (h : Registered locales puts T₀ T)
    (hfree : T.contended t (.user userId : ProfileWhere) = false)
    (hnone : T.matching t (.user userId : ProfileWhere) = []) :
    ∀ i row, T.Version i row → row.userId ≠ userId := by
  intro i row hrow huser
  have hseen (row : UserProfile) (hview : T.view t i = some row) : row.userId ≠ userId := by
    intro huser
    have hmem : (i, row) ∈ T.matching t (.user userId : ProfileWhere) :=
      mem_matching.mpr ⟨hview, by simp [Condition.holds, huser]⟩
    rw [hnone] at hmem
    cases hmem
  cases hpending : T.pending i with
  | none =>
      rcases hrow with hrow | ⟨u, hrow⟩
      · refine hseen row ?_ huser
        rw [Table.view_of_not_pending (by simp [hpending]), hrow]
      · rw [hpending] at hrow
        cases hrow
  | some w =>
      obtain ⟨u, v⟩ := w
      obtain ⟨new, rfl, -, -, hold⟩ := h.held i u v hpending
      by_cases hu : u = t
      · subst hu
        refine hseen new (Table.view_of_pending hpending) ?_
        rcases hrow with hrow | ⟨u', hrow⟩
        · rw [← hold row hrow, huser]
        · rw [hpending] at hrow
          cases hrow
          exact huser
      · have hlocked : T.locked t i = true := by simp [Table.locked, hpending, hu]
        have hcontended : T.contended t (.user userId : ProfileWhere) = true := by
          refine List.any_eq_true.mpr ⟨i, T.mem_of_pending i _ hpending, ?_⟩
          rcases hrow with hrow | ⟨u', hrow⟩
          · simp [hlocked, hrow, Condition.holds, huser]
          · rw [hpending] at hrow
            cases hrow
            simp [hlocked, hpending, Condition.holds, huser]
        rw [hfree] at hcontended
        cases hcontended

/-- A version of a row that a request writes. -/
theorem Registered.write (h : Registered locales puts T₀ T) {i : ℕ} {row : UserProfile}
    (huser : row.userId = (puts t).userId)
    (howner : ∀ j r, T.Version j r → r.userId = row.userId → j = i)
    (hrow : respond row =
      replace ((puts t).sent locales) ((T.committed i).elim blankResponse respond))
    (hold : ∀ old, T.committed i = some old → old.userId = row.userId) :
    Registered locales puts T₀ (T.write t i (some row)) := by
  have howner' : OnePerUser (T.write t i (some row)) := by
    intro j k r r' hr hr' heq
    rcases version_of_write hr with hbefore | ⟨hj, hnew⟩ <;>
      rcases version_of_write hr' with hbefore' | ⟨hk, hnew'⟩
    · exact h.owner j k r r' hbefore hbefore' heq
    · cases hnew'
      exact (howner j r hbefore heq).trans hk.symm
    · cases hnew
      exact hj.trans (howner k r' hbefore' heq.symm).symm
    · exact hj.trans hk.symm
  refine ⟨howner', fun j u v hv => ?_, h.past, fun userId => ?_⟩
  · rcases Table.write_pending hv with ⟨rfl, hw⟩ | ⟨-, hv⟩
    · cases hw
      exact ⟨row, rfl, huser, hrow, hold⟩
    · exact h.held j u v hv
  · have hsame : rowOf (T.write t i (some row)) userId = rowOf T userId :=
      rowOf_congr h.owner howner' fun _ _ _ => .rfl
    rw [detailsOf, hsame]
    exact h.shown userId

theorem Registered.abort (h : Registered locales puts T₀ T) :
    Registered locales puts T₀ (T.abort t) := by
  have howner : OnePerUser (T.abort t) := fun i j r r' hr hr' =>
    h.owner i j r r' (version_of_abort hr) (version_of_abort hr')
  refine ⟨howner, fun i u v hv => h.held i u v (Table.abort_pending.mp hv).1, h.past,
    fun userId => ?_⟩
  have hsame : rowOf (T.abort t) userId = rowOf T userId :=
    rowOf_congr h.owner howner fun _ _ _ => .rfl
  rw [detailsOf, hsame]
  exact h.shown userId

/-- A commit sets the details of one user, or nothing. -/
theorem Registered.commit (h : Registered locales puts T₀ T) :
    Registered locales puts T₀ (T.commit t) := by
  have howner : OnePerUser (T.commit t) := fun i j r r' hr hr' =>
    h.owner i j r r' (version_of_commit hr) (version_of_commit hr')
  by_cases hholds : ∃ i v, T.pending i = some (t, v)
  · obtain ⟨i, v, hpending⟩ := hholds
    obtain ⟨row, rfl, huser, hrow, hold⟩ := h.held i t v hpending
    have honly (j : ℕ) (w : Option UserProfile) (hw : T.pending j = some (t, w)) : j = i := by
      obtain ⟨row', rfl, huser', -, -⟩ := h.held j t w hw
      exact h.owner j i row' row (.inr ⟨t, hw⟩) (.inr ⟨t, hpending⟩) (huser'.trans huser.symm)
    have hwrites : T.writes t = [(t, i, some row)] := Table.writes_eq_singleton hpending honly
    have hlog : (T.commit t).log = T.log ++ [(t, i, some row)] := by
      rw [Table.commit_log, hwrites]
    have hsets : (T.commit t).committed i = some row := Table.commit_committed_of_pending hpending
    have hkept (j : ℕ) (hj : j ≠ i) : (T.commit t).committed j = T.committed j :=
      Table.commit_committed_of_not_pending fun w hw => hj (honly j w hw)
    refine ⟨howner, fun j u w hw => ?_, fun e he => ?_, fun userId => ?_⟩
    · obtain ⟨hw, hne⟩ := Table.commit_pending.mp hw
      have hj : j ≠ i := by
        rintro rfl
        rw [hpending] at hw
        cases hw
        exact hne rfl
      rw [hkept j hj]
      exact h.held j u w hw
    · rcases List.mem_append.mp (hlog ▸ he) with he | he
      · exact h.past e he
      · obtain rfl := List.mem_singleton.mp he
        exact ⟨row, rfl, huser⟩
    · by_cases heq : row.userId = userId
      · have hnew : rowOf (T.commit t) userId = some row :=
          (rowOf_eq_some howner).mpr ⟨i, hsets, heq⟩
        have hbefore : rowOf T userId = T.committed i := by
          ext old
          rw [rowOf_eq_some h.owner]
          constructor
          · rintro ⟨j, hj, hjuser⟩
            obtain rfl := h.owner j i old row (.inl hj) (.inr ⟨t, hpending⟩)
              (hjuser.trans heq.symm)
            exact hj
          · exact fun hi => ⟨i, hi, (hold old hi).trans heq⟩
        have hstart : (Fields.shown (detailsOf T₀ userId) (sentTo locales puts T userId)).getD
            blankResponse = (T.committed i).elim blankResponse respond := by
          rw [← h.shown userId, detailsOf, hbefore]
          cases T.committed i <;> rfl
        have hsent : sentTo locales puts (T.commit t) userId =
            sentTo locales puts T userId ++ [(puts t).sent locales] := by
          simp [sentTo, hwrites, List.filterMap_append, heq]
        rw [hsent, shown_append, hstart, ← hrow, detailsOf, hnew]
        rfl
      · have hsame : rowOf (T.commit t) userId = rowOf T userId := by
          refine rowOf_congr h.owner howner fun j r hr => ?_
          by_cases hj : j = i
          · subst hj
            rw [hsets]
            constructor
            · rintro ⟨⟩
              exact (heq hr).elim
            · intro hcommitted
              exact (heq ((hold r hcommitted).symm.trans hr)).elim
          · rw [hkept j hj]
        have hsent : sentTo locales puts (T.commit t) userId = sentTo locales puts T userId := by
          simp [sentTo, hwrites, List.filterMap_append, heq]
        rw [detailsOf, hsame, hsent]
        exact h.shown userId
  · have hfree : T.Free t := fun i v hv => hholds ⟨i, v, hv⟩
    obtain ⟨hcommitted, hlog⟩ := hfree.settled
    refine ⟨howner, fun i u v hv => ?_, fun e he => h.past e (hlog ▸ he), fun userId => ?_⟩
    · rw [hcommitted]
      exact h.held i u v (Table.commit_pending.mp hv).1
    · have hsame : rowOf (T.commit t) userId = rowOf T userId :=
        rowOf_congr h.owner howner fun i row _ => by rw [hcommitted]
      rw [detailsOf, hsame, sentTo, hlog]
      exact h.shown userId

theorem Registered.congr (h : Registered locales puts T₀ T) (hcommitted : T'.committed = T.committed)
    (hpending : T'.pending = T.pending) (hlog : T'.log = T.log) :
    Registered locales puts T₀ T' := by
  have howner : OnePerUser T' := by
    intro i j r r' hr hr'
    refine h.owner i j r r' ?_ ?_
    · rwa [Table.Version, hcommitted, hpending] at hr
    · rwa [Table.Version, hcommitted, hpending] at hr'
  refine ⟨howner, fun i u v hv => ?_, fun e he => h.past e (hlog ▸ he), fun userId => ?_⟩
  · rw [hcommitted]
    exact h.held i u v (hpending ▸ hv)
  · have hsame : rowOf T' userId = rowOf T userId :=
      rowOf_congr h.owner howner fun i row _ => by rw [hcommitted]
    rw [detailsOf, hsame, sentTo, hlog]
    exact h.shown userId

/-! ## Steps -/

/-- What a request that keeps to the discipline writes. -/
theorem written {a : TableName.userProfiles.Access} {i : ℕ} {v : Option UserProfile}
    (hguard : (detailing locales puts traced).change t .userProfiles a s)
    (hwrote : a.Wrote t T i v) : ∃ row data base, v = some row ∧
      ReadCommitted.Change.apply data base = some row ∧
      ((puts t).sent locales).columns = some data ∧ Validated locales traced (puts t) s ∧
      base.userId = (puts t).userId ∧
      (base = blank (puts t).userId ∧ i ∉ T.ids ∧
          T.contended t (.user (puts t).userId : ProfileWhere) = false ∧
          T.matching t (.user (puts t).userId : ProfileWhere) = [] ∨
        T.locked t i = false ∧ T.view t i = some base) := by
  cases hwrote with
  | create _ key row guard data hfree hnone hfresh =>
      obtain ⟨key⟩ := key
      obtain ⟨guard⟩ := guard
      obtain ⟨rfl, -, hrow, hcolumns, hvalidated⟩ := hguard
      exact ⟨row, data, blank (puts t).userId, rfl, hrow, hcolumns, hvalidated, rfl,
        .inl ⟨rfl, hfresh, hfree, hnone⟩⟩
  | update _ key row guard data old hfree hlocked hview hkey =>
      obtain ⟨key⟩ := key
      obtain ⟨guard⟩ := guard
      obtain ⟨rfl, -, -, hcolumns, hvalidated⟩ := hguard
      exact ⟨_, data, old, rfl, rfl, hcolumns, hvalidated, by simpa [Condition.holds] using hkey,
        .inr ⟨hlocked, hview⟩⟩
  | _ => exact hguard.elim

theorem Registered.step {a : TableName.userProfiles.Access} {i : ℕ} {v : Option UserProfile}
    (h : Registered locales puts T₀ T)
    (hguard : (detailing locales puts traced).change t .userProfiles a s)
    (hwrote : a.Wrote t T i v) : Registered locales puts T₀ (T.write t i v) := by
  obtain ⟨row, data, base, rfl, hrow, hcolumns, ⟨now, -, hparse⟩, hbase, hcases⟩ :=
    written hguard hwrote
  obtain ⟨hresponse, huser⟩ := respond_apply hparse hcolumns hrow
  have huser : row.userId = (puts t).userId := huser.trans hbase
  rcases hcases with ⟨rfl, hfresh, hfree, hnone⟩ | ⟨hlocked, hview⟩
  · have hnew : T.committed i = none := by
      by_contra hsome
      obtain ⟨old, hold⟩ := Option.ne_none_iff_exists'.mp hsome
      exact hfresh (T.mem_of_committed i old hold)
    refine h.write huser (fun j r hr heq => ?_) (by rw [hnew]; exact hresponse) fun old hold => ?_
    · exact (h.none_of_insert hfree hnone j r hr (heq.trans huser)).elim
    · rw [hnew] at hold
      cases hold
  · have howner (j : ℕ) (r : UserProfile) (hr : T.Version j r) (heq : r.userId = row.userId) :
        j = i :=
      h.owner j i r base hr (version_of_view hview) (heq.trans (huser.trans hbase.symm))
    cases hpending : T.pending i with
    | none =>
        rw [Table.view_of_not_pending (by simp [hpending])] at hview
        refine h.write huser howner (by rw [hview]; exact hresponse) fun old hold => ?_
        rw [hview] at hold
        cases hold
        exact hbase.trans huser.symm
    | some w =>
        obtain ⟨u, v⟩ := w
        obtain rfl : u = t := Table.locked_eq_false.mp hlocked _ hpending
        obtain ⟨old, rfl, holduser, holdrow, hold⟩ := h.held i u v hpending
        rw [Table.view_of_pending hpending] at hview
        cases hview
        refine h.write huser howner ?_ fun old hcommitted => ?_
        · rw [hresponse, holdrow, replace_replace]
        · exact (hold old hcommitted).trans (holduser.trans huser.symm)

/-! ## Runs -/

theorem Validated.later {put : Put} (h : Validated locales traced put s)
    (hclock : traced → s.clock ≤ s'.clock) : Validated locales traced put s' := by
  obtain ⟨now, hnow, hparse⟩ := h
  exact ⟨now, fun htraced => Nat.le_trans (hnow htraced) (hclock htraced), hparse⟩

/-- What every step keeps. -/
structure Kept (locales : Locales) (puts : ℕ → Put) (traced : Prop) (s₀ s : State) : Prop where
  registered : Registered locales puts s₀.db.userProfiles s.db.userProfiles
  validated : ∀ u, (∃ i v, s.db.userProfiles.pending i = some (u, v)) ∨
    (∃ e ∈ s.db.userProfiles.log, e.1 = u) → Validated locales traced (puts u) s
  accepted : traced → (∀ i row, s₀.db.userProfiles.committed i = some row →
      Accepted locales s₀.clock row) →
    ∀ i row, s.db.userProfiles.Version i row → Accepted locales s.clock row

theorem Kept.step (h : Kept locales puts traced s₀ s) (hclock : traced → s.clock ≤ s'.clock)
    (hevent : Event setup A (detailing locales puts traced) s s') :
    Kept locales puts traced s₀ s' := by
  have hvalidated (u : ℕ) (hu : (∃ i v, s.db.userProfiles.pending i = some (u, v)) ∨
      ∃ e ∈ s.db.userProfiles.log, e.1 = u) : Validated locales traced (puts u) s' :=
    (h.validated u hu).later hclock
  have haccepted (htraced : traced) (hstart : ∀ i row,
      s₀.db.userProfiles.committed i = some row → Accepted locales s₀.clock row) (i : ℕ)
      (row : UserProfile) (hrow : s.db.userProfiles.Version i row) :
      Accepted locales s'.clock row :=
    (h.accepted htraced hstart i row hrow).mono (hclock htraced)
  have hon : RowEvent A (detailing locales puts traced) .userProfiles s s'.db.userProfiles :=
    hevent.on .userProfiles
  generalize hT : s'.db.userProfiles = T' at hon
  cases hon with
  | same hcommitted hpending hlog _ =>
      refine ⟨hT ▸ h.registered.congr hcommitted hpending hlog, fun u hu => hvalidated u ?_,
        fun htraced hstart i row hrow => haccepted htraced hstart i row ?_⟩
      · rw [hT, hpending, hlog] at hu
        exact hu
      · rw [hT, Table.Version, hcommitted, hpending] at hrow
        exact hrow
  | write t a i v hchange _ hwrote htable =>
      have htable : T' = s.db.userProfiles.write t i v := htable
      obtain ⟨row, data, base, rfl, hrow, hcolumns, hwriter, -, hcases⟩ :=
        written (hchange rfl) hwrote
      subst htable
      refine ⟨hT ▸ h.registered.step (hchange rfl) hwrote, fun u hu => ?_,
        fun htraced hstart j r hr => ?_⟩
      · rw [hT] at hu
        rcases hu with ⟨j, w, hw⟩ | hu
        · rcases Table.write_pending hw with ⟨-, hw⟩ | ⟨-, hw⟩
          · cases hw
            exact hwriter.later hclock
          · exact hvalidated u (.inl ⟨j, w, hw⟩)
        · exact hvalidated u (.inr hu)
      · rw [hT] at hr
        rcases version_of_write hr with hr | ⟨-, hr⟩
        · exact haccepted htraced hstart j r hr
        · cases hr
          obtain ⟨now, hnow, hparse⟩ := hwriter
          have hbase : Accepted locales s.clock base := by
            rcases hcases with ⟨rfl, -⟩ | ⟨-, hview⟩
            · exact accepted_blank _ _
            · exact h.accepted htraced hstart i base (version_of_view hview)
          exact (hbase.apply (hnow htraced) hparse hcolumns hrow).mono (hclock htraced)
  | commit t _ htable =>
      have htable : T' = s.db.userProfiles.commit t := htable
      subst htable
      refine ⟨hT ▸ h.registered.commit, fun u hu => hvalidated u ?_,
        fun htraced hstart i row hrow => haccepted htraced hstart i row
          (version_of_commit (hT ▸ hrow))⟩
      rw [hT] at hu
      rcases hu with ⟨i, v, hv⟩ | ⟨e, he, hu⟩
      · exact .inl ⟨i, v, (Table.commit_pending.mp hv).1⟩
      · rcases List.mem_append.mp he with he | he
        · exact .inr ⟨e, he, hu⟩
        · obtain ⟨ht, hpending⟩ := Table.mem_writes.mp he
          exact .inl ⟨e.2.1, e.2.2, hu ▸ ht ▸ hpending⟩
  | abort t htable =>
      have htable : T' = s.db.userProfiles.abort t := htable
      subst htable
      refine ⟨hT ▸ h.registered.abort, fun u hu => hvalidated u ?_,
        fun htraced hstart i row hrow => haccepted htraced hstart i row
          (version_of_abort (hT ▸ hrow))⟩
      rw [hT] at hu
      refine hu.imp_left ?_
      rintro ⟨i, v, hv⟩
      exact ⟨i, v, (Table.abort_pending.mp hv).1⟩

theorem clock_of_event {D : Discipline} (hmove : ∀ s s', A.move s s' → s.clock ≤ s'.clock)
    (h : Event setup A D s s') : s.clock ≤ s'.clock := by
  have hsame (heq : s' = { s with db := s'.db }) : s.clock ≤ s'.clock :=
    Nat.le_of_eq (congrArg State.clock heq).symm
  cases h with
  | access t k a reply o _ _ haccess => exact hsame haccess.rest
  | commit t _ _ hrest => exact hsame hrest
  | abort t _ hrest => exact hsame hrest
  | other t r o reply _ _ hexec _ => exact Nat.le_of_eq (State.Moves.exec hexec).clock.symm
  | move m _ hA _ => exact hmove s s' hA

variable {c : Config ℕ Error Request Request.Reply State UserProfileData}

theorem kept_of_reaches (hstart : s₀.AtRest) (howner : OnePerUser s₀.db.userProfiles)
    (hclock : traced → ∀ s s', A.move s s' → s.clock ≤ s'.clock)
    (hrun : (system setup).Reaches A (calling (fun t => (puts t).program setup locales) s₀) c) :
    Kept locales puts traced s₀ c.shared := by
  have hsound : (rules setup locales puts traced A).Sound (system setup) A (fun _ _ _ => True)
      (fun _ _ _ => True) (calling (fun t => (puts t).program setup locales) s₀) :=
    hstart.sound (fun _ _ => True) (fun _ => trivial) fun t =>
      Rules.Meets.under (fun _ => True) program_meets fun _ _ _ => trivial
  have hpending (i : ℕ) : s₀.db.userProfiles.pending i = none :=
    (hstart.tables .userProfiles).pending i
  have hlog : s₀.db.userProfiles.log = [] := (hstart.tables .userProfiles).log
  have hinit : Kept locales puts traced s₀ s₀ := by
    refine ⟨.start (hstart.tables .userProfiles) howner, fun u hu => ?_,
      fun _ haccepted i row hrow => ?_⟩
    · simp [hpending, hlog] at hu
    · rcases hrow with hrow | ⟨u, hrow⟩
      · exact haccepted i row hrow
      · simp [hpending i] at hrow
  exact keeping_induction (fun s s' hA htraced => hclock htraced s s' hA)
    (fun _ _ _ => trivial) hsound hrun hinit fun _ _ _ _ hkept hevent =>
      hkept.step (fun htraced => clock_of_event (hclock htraced) hevent) hevent

/-- A request that succeeded has committed what it sends, or its COMMIT was a rollback. -/
theorem sent_of_success (hstart : s₀.AtRest) (howner : OnePerUser s₀.db.userProfiles)
    (hrun : (system setup).Reaches A (calling (fun t => (puts t).program setup locales) s₀) c)
    {data : UserProfileData} (hthread : c.thread t = .ret data)
    (hsends : ((puts t).sent locales).keys.length > 0)
    (hcommitted : c.shared.db.rolledBack t = false) :
    (puts t).sent locales ∈ sentTo locales puts c.shared.db.userProfiles (puts t).userId := by
  have hsound : (free setup A).Sound (system setup) A
      (fun t _ s => ((puts t).sent locales).keys.length > 0 → Settled t s) (fun _ _ _ => True)
      (calling (fun t => (puts t).program setup locales) s₀) :=
    hstart.sound (fun _ _ => True) (fun _ => trivial) fun t =>
      Rules.Meets.under (fun _ => True) program_settles fun _ _ _ => trivial
  have hend := hsound.reaches (keeping_compatible fun _ _ _ h => h.elim) (fun _ _ _ => trivial) hrun
  have hholds := hend.2 t
  rw [hthread] at hholds
  rcases hholds.value hend.1 hsends with hrolled | ⟨i, v, hlogged⟩
  · rw [hcommitted] at hrolled
    cases hrolled
  · have hkept : Kept locales puts False s₀ c.shared :=
      kept_of_reaches hstart howner (fun h => h.elim) hrun
    obtain ⟨row, hrow, huser⟩ := hkept.registered.past _ hlogged
    have hrow : v = some row := hrow
    subst hrow
    exact List.mem_filterMap.mpr ⟨_, hlogged, by simp [huser]⟩

/-- The details of a user are a register per field: each is the last value that a committed
request sent, in any interleaving, and what is returned may be sent again. -/
theorem details_last_sent (hstart : s₀.AtRest) (howner : OnePerUser s₀.db.userProfiles)
    (hrun : (system setup).Reaches A (calling (fun t => (puts t).program setup locales) s₀) c) :
    (∀ userId, detailsOf c.shared.db.userProfiles userId =
      shown (detailsOf s₀.db.userProfiles userId)
        (sentTo locales puts c.shared.db.userProfiles userId)) ∧
    (∀ e ∈ c.shared.db.userProfiles.log,
      (∃ row, e.2.2 = some row ∧ row.userId = (puts e.1).userId) ∧
        ∃ now, parseProfileFields locales now (puts e.1).body = .ok ((puts e.1).sent locales)) ∧
    (∀ t data, c.thread t = .ret data → ((puts t).sent locales).keys.length > 0 →
      c.shared.db.rolledBack t = false →
      (puts t).sent locales ∈ sentTo locales puts c.shared.db.userProfiles (puts t).userId) ∧
    (∀ now body fields, parseProfileFields locales now body = .ok fields →
      Meaning body.phone fields.phone ∧ Meaning body.birthDate fields.birthDate ∧
        Meaning body.gender fields.gender ∧ Meaning body.locale fields.locale) ∧
    (∀ f g, Separate f g → ∀ start before after,
      shown start (before ++ f :: g :: after) = shown start (before ++ g :: f :: after)) ∧
    ((∀ s s', A.move s s' → s.clock ≤ s'.clock) → Canonical locales →
      (∀ i row, s₀.db.userProfiles.committed i = some row → Accepted locales s₀.clock row) →
      ∀ userId row, rowOf c.shared.db.userProfiles userId = some row →
        ∀ later body, c.shared.clock ≤ later → later < YEAR_10000 →
          (∀ response, toProfileResponse (some row) = some response → Resubmits response body) →
          ∃ fields data, parseProfileFields locales later body = .ok fields ∧
            fields.columns = some data ∧ ReadCommitted.Change.apply data row = some row) := by
  have hkept : Kept locales puts False s₀ c.shared :=
    kept_of_reaches hstart howner (fun h => h.elim) hrun
  refine ⟨hkept.registered.shown, fun e he => ?_, fun t data => sent_of_success hstart howner hrun,
    fun now body fields h => ?_, fun f g h => shown_swap h, ?_⟩
  · obtain ⟨now, -, hparse⟩ := hkept.validated e.1 (.inr ⟨e, he, rfl⟩)
    exact ⟨hkept.registered.past e he, now, hparse⟩
  · obtain ⟨hphone, hbirthDate, hgender, hlocale⟩ := parse_eq_ok.mp h
    exact ⟨clearable_meaning hphone, clearable_meaning hbirthDate, clearable_meaning hgender,
      clearable_meaning hlocale⟩
  · intro hclock hlocales haccepted userId row hrow later body hlater hyear hbody
    have hkept : Kept locales puts True s₀ c.shared :=
      kept_of_reaches hstart howner (fun _ => hclock) hrun
    obtain ⟨i, hcommitted, -⟩ := (rowOf_eq_some hkept.registered.owner).mp hrow
    exact accepted_again hlocales (hkept.accepted trivial haccepted i row (.inl hcommitted))
      (hbody _ rfl) hlater hyear

/-! ## Two requests at a time -/

def twoTags : Locales where
  getCanonicalLocales value := if value ∈ ["en", "id"] then some value else none
  SUPPORTED_LOCALES := ["en", "id"]

theorem twoTags_canonical : Canonical twoTags where
  idempotent value tag h := by
    obtain ⟨hvalue, htag⟩ := Option.ite_none_right_eq_some.mp h
    obtain rfl := Option.some.inj htag
    exact if_pos hvalue
  trimmed value tag h := by
    obtain ⟨hvalue, htag⟩ := Option.ite_none_right_eq_some.mp h
    obtain rfl := Option.some.inj htag
    simp only [List.mem_cons, List.not_mem_nil, or_false] at hvalue
    rcases hvalue with rfl | rfl <;> decide
  nonempty := by decide

def jo : User :=
  { name := some "Jo", slug := some "jo", email := some "jo@example.com", password := none
    avatar := none, roleId := none, isEmailVerified := true, deletedAt := none }

def joDetails : UserProfile :=
  { userId := 1, phone := some "+628123456789", birthDate := none, gender := none
    locale := some "id" }

def seeded : State :=
  { plainState (oneRow 1 jo) with
    db := { (plainState (oneRow 1 jo)).db with userProfiles := oneRow 1 joDetails } }

theorem seeded_atRest : seeded.AtRest where
  tables k := by
    cases k with
    | users => exact oneRow_atRest 1 _
    | userProfiles => exact oneRow_atRest 1 _
    | _ => exact Table.empty_atRest
  poisoned _ := rfl
  seen := rfl
  minted := rfl
  families := rfl
  comparisons := rfl
  tickets := rfl

theorem seeded_committed {i : ℕ} {row : UserProfile}
    (h : seeded.db.userProfiles.committed i = some row) : i = 1 ∧ row = joDetails := by
  by_cases hi : i = 1
  · subst hi
    cases h
    exact ⟨rfl, rfl⟩
  · have hnone : seeded.db.userProfiles.committed i = none := by
      simp [seeded, oneRow, Function.update_of_ne hi]
    rw [hnone] at h
    cases h

theorem seeded_owner : OnePerUser seeded.db.userProfiles := by
  intro i j r r' hr hr' _
  rcases hr with hr | ⟨u, hr⟩
  · rcases hr' with hr' | ⟨u, hr'⟩
    · rw [(seeded_committed hr).1, (seeded_committed hr').1]
    · cases hr'
  · cases hr

theorem joDetails_accepted : Accepted twoTags seeded.clock joDetails where
  phone text h := by
    cases h
    decide
  birthDate _ h := nomatch h
  locale tag h := by
    cases h
    exact ⟨⟨"id", by decide⟩, by decide⟩

/-- One request sends a phone number with separators, the other one a birth date. -/
def pair (t : ℕ) : Put where
  userId := 1
  file := none
  others := .ok { name := some "Jo", email := none, avatar := none, password := none, details := {} }
  body :=
    if t = 1 then { phone := some (.str "+62 811-111-1111") }
    else { birthDate := some (.str "1960-02-29"), gender := some (.str "") }

/-- Both have read the row before one of them writes it. -/
def raced : Config ℕ Error Request Request.Reply State UserProfileData :=
  (system plainSetup).after (calling (fun t => (pair t).program plainSetup twoTags) seeded)
    (List.replicate 4 (.run 1 {}) ++ List.replicate 4 (.run 2 {}) ++
      List.replicate 15 (.run 1 {}) ++ List.replicate 15 (.run 2 { fresh := 2 }))

/-- Runs in which time does not go back. -/
def onward : Assumption ℕ Request State where
  request _ _ _ := True
  move s s' := s.clock ≤ s'.clock

theorem raced_reaches : (system plainSetup).Reaches onward
    (calling (fun t => (pair t).program plainSetup twoTags) seeded) raced :=
  .of_passes_moves (fun _ _ _ => true) (fun _ _ => false) (fun _ _ _ _ => trivial)
    (fun _ _ h => nomatch h) (by decide +kernel) (by decide +kernel)

/-- Nobody has sent a locale, and the one of the start is shown. From the year 10000 on a birth
date that was accepted is refused. -/
theorem details_of_start : (system plainSetup).Reaches onward
      (calling (fun t => (pair t).program plainSetup twoTags) seeded) raced ∧
    (sentTo twoTags pair raced.shared.db.userProfiles 1).filterMap (·.locale) = [] ∧
    (detailsOf raced.shared.db.userProfiles 1).bind (·.locale) = some "id" ∧
    birthDateIssues 0 "1960-02-29" = [] ∧ birthDateIssues YEAR_10000 "1960-02-29" ≠ [] :=
  ⟨raced_reaches, by decide +kernel, by decide +kernel, by decide +kernel, by decide +kernel⟩

theorem details_last_sent_raced :
    detailsOf raced.shared.db.userProfiles 1 =
      shown (detailsOf seeded.db.userProfiles 1)
        (sentTo twoTags pair raced.shared.db.userProfiles 1) ∧
    detailsOf raced.shared.db.userProfiles 1 =
      some { phone := some "+628111111111", birthDate := some "1960-02-29", gender := none
             locale := some "id" } ∧
    ∃ row fields data, rowOf raced.shared.db.userProfiles 1 = some row ∧
      parseProfileFields twoTags 0
        { phone := some (.str "+628111111111"), birthDate := some (.str "1960-02-29") } =
          .ok fields ∧ fields.columns = some data ∧
      ReadCommitted.Change.apply data row = some row := by
  have hrow : rowOf raced.shared.db.userProfiles 1 =
      some { joDetails with
        phone := some "+628111111111", birthDate := some (dayNumber (1960, 2, 29)) } := by
    decide +kernel
  have hday : dateText (dayNumber (1960, 2, 29)) = "1960-02-29" := by decide +kernel
  have hregister := details_last_sent seeded_atRest seeded_owner raced_reaches
  obtain ⟨fields, data, hagain⟩ := hregister.2.2.2.2.2 (fun _ _ h => h) twoTags_canonical
    (fun i row h => (seeded_committed h).2 ▸ joDetails_accepted) 1 _ hrow 0
    { phone := some (.str "+628111111111"), birthDate := some (.str "1960-02-29") }
    (by decide +kernel) (by decide) fun response h => by
      cases h
      exact ⟨.inr rfl, .inr (by rw [← hday]; rfl), .inl rfl, .inl rfl⟩
  exact ⟨hregister.1 1, by decide +kernel, _, fields, data, hrow, hagain⟩

end ExpressCore.Details
