import ExpressCore.Verification.System.Discipline

/-! # Rules for threads that keep to a discipline -/

namespace ExpressCore

open ReadCommitted Interleaving Interleaving.Program

variable {setup : Setup} {traced : Prop} {A : Assumption ℕ Request State} {D : Discipline}
  {K K' : TableName → Prop} {t : ℕ} {s s' : State} {P Q : State → Prop}

/-! ## Firm assertions -/

/-- An assertion that holds until the thread does something to the tables in `K`. -/
def Firm (K : TableName → Prop) (setup : Setup) (traced : Prop) (t : ℕ) (P : State → Prop) :
    Prop :=
  ∀ s s', s.InOrder setup traced → s'.InOrder setup traced →
    Untouched K setup traced t s s' → P s → P s'

theorem Untouched.mono (h : Untouched K setup traced t s s') (hK : ∀ k, K' k → K k) :
    Untouched K' setup traced t s s' :=
  { h with rows := fun k hk => h.rows k (hK k hk) }

theorem Firm.mono (h : Firm K' setup traced t P) (hK : ∀ k, K' k → K k) :
    Firm K setup traced t P :=
  fun s s' hs hs' hmove => h s s' hs hs' (hmove.mono hK)

theorem Firm.all (h : Firm K setup traced t P) : Firm (fun _ => True) setup traced t P :=
  h.mono fun _ _ => trivial

theorem Firm.stable (h : Firm K setup traced t P) : (keeping setup traced A D).Stable t P :=
  fun s s' hs hs' hmove => h s s' hs hs' (.of_elsewhere hmove)

theorem Firm.and (hP : Firm K setup traced t P) (hQ : Firm K setup traced t Q) :
    Firm K setup traced t fun s => P s ∧ Q s :=
  fun s s' hs hs' hmove h => ⟨hP s s' hs hs' hmove h.1, hQ s s' hs hs' hmove h.2⟩

theorem Firm.or (hP : Firm K setup traced t P) (hQ : Firm K setup traced t Q) :
    Firm K setup traced t fun s => P s ∨ Q s :=
  fun s s' hs hs' hmove h => h.imp (hP s s' hs hs' hmove) (hQ s s' hs hs' hmove)

theorem Firm.const (p : Prop) : Firm K setup traced t fun _ => p := fun _ _ _ _ _ h => h

theorem Firm.exists {ι : Sort*} {F : ι → State → Prop} (h : ∀ i, Firm K setup traced t (F i)) :
    Firm K setup traced t fun s => ∃ i, F i s :=
  fun s s' hs hs' hmove ⟨i, hi⟩ => ⟨i, h i s s' hs hs' hmove hi⟩

theorem Firm.forall {ι : Sort*} {F : ι → State → Prop} (h : ∀ i, Firm K setup traced t (F i)) :
    Firm K setup traced t fun s => ∀ i, F i s :=
  fun s s' hs hs' hmove hall i => h i s s' hs hs' hmove (hall i)

theorem Firm.imp {p : Prop} (hP : p → Firm K setup traced t P) :
    Firm K setup traced t fun s => p → P s :=
  fun s s' hs hs' hmove h hp => hP hp s s' hs hs' hmove (h hp)

/-- What thread `t` has done to table `k`. -/
abbrev Ledger (k : TableName) (t : ℕ) (held : List (ℕ × Option k.Row × Option k.Row))
    (done : List (ℕ × Option k.Row)) (s : State) : Prop :=
  (k.table s.db).Ledger t held done

/-- Thread `t` holds no row of the tables in `K`. -/
def Unlocked (K : TableName → Prop) (t : ℕ) (s : State) : Prop :=
  ∀ k, K k → (k.table s.db).Free t

/-- No statement of the open transaction of `t` has failed. -/
def Clear (t : ℕ) (s : State) : Prop := s.db.poisoned t = false

theorem Firm.ledger {k : TableName} (hk : K k) (held : List (ℕ × Option k.Row × Option k.Row))
    (done : List (ℕ × Option k.Row)) : Firm K setup traced t (Ledger k t held done) :=
  fun _ _ _ _ hmove h => h.undisturbed (hmove.rows k hk)

theorem Firm.unlocked : Firm K setup traced t (Unlocked K t) :=
  fun _ _ _ _ hmove h k hk => (h k hk).undisturbed (hmove.rows k hk)

theorem Firm.clear : Firm K setup traced t (Clear t) := fun _ _ _ _ hmove => hmove.clear

theorem Firm.clock (htraced : traced) (now : Time) :
    Firm K setup traced t fun s => now ≤ s.clock :=
  fun _ _ _ _ hmove h => Nat.le_trans h (hmove.clock htraced)

theorem Firm.logged (k : TableName) (e : ℕ × ℕ × Option k.Row) :
    Firm K setup traced t fun s => e ∈ (k.table s.db).log :=
  fun _ _ _ _ hmove h => (hmove.logs k).subset h

theorem Firm.minted (x : ℕ × String × Time) : Firm K setup traced t fun s => x ∈ s.minted := by
  intro s s' _ _ hmove h
  obtain ⟨new, heq, -⟩ := hmove.minted
  exact heq ▸ List.mem_append_right _ h

/-- Every version of row `i` agrees with `r` in what changes preserve. -/
def Identified (k : TableName) (i : ℕ) (r : k.Row) (s : State) : Prop :=
  i ∈ (k.table s.db).ids ∧ ∀ r', (k.table s.db).Version i r' → k.Same r r'

theorem Firm.identified (k : TableName) (i : ℕ) (r : k.Row) :
    Firm K setup traced t (Identified k i r) := by
  rintro s s' _ _ hmove ⟨hids, h⟩
  obtain ⟨hids', hversions⟩ := hmove.versions k i hids
  refine ⟨hids', fun r' hr' => ?_⟩
  obtain ⟨r'', hr'', hsame⟩ := hversions r' hr'
  exact k.same_trans (h r'' hr'') hsame

/-! ## Programs that leave the tables alone -/

variable {α β : Type} {post : β → State → Prop} {err : Error → State → Prop}

theorem Request.Neutral.mono {r : Request} (h : r.Neutral K) (hK : ∀ k, K' k → K k) :
    r.Neutral K' := by
  cases r with
  | sql q =>
      cases q with
      | complete db => cases db <;> exact h
      | deleted db w n => cases db <;> exact h
      | _ => first | exact h | exact fun hk => h (hK _ hk)
  | _ => exact h

/-- A program that is neutral for more tables than the discipline is about. -/
theorem meets_neutral_of (hK : ∀ k, D.tables k → K k) (hP : Firm K setup traced t P)
    {p : Service α} (hp : p.Uses (Request.Neutral K)) :
    (keeping setup traced A D).Meets (system setup) A t (fun _ => P) (fun _ => P) p P :=
  Rules.Meets.of_uses hp hP.stable fun _ hr =>
    keeping_answers (fun _ _ _ _ => guard_of_neutral (hr.mono hK)) fun s _ _ s' hs _ hpre hexec =>
      hP s s' hs (hs.exec hexec) (.of_neutral hr hexec) hpre

theorem meets_neutral (hP : Firm D.tables setup traced t P) {p : Service α}
    (hp : p.Uses (Request.Neutral D.tables)) :
    (keeping setup traced A D).Meets (system setup) A t (fun _ => P) (fun _ => P) p P :=
  meets_neutral_of (fun _ hk => hk) hP hp

/-- A neutral part of a program may be skipped. -/
theorem neutral_bind (hP : Firm D.tables setup traced t P) {p : Service α}
    (hp : p.Uses (Request.Neutral D.tables)) {rest : α → Service β} (herr : ∀ e s, P s → err e s)
    (hrest : ∀ value, (keeping setup traced A D).Meets (system setup) A t post err (rest value) P) :
    (keeping setup traced A D).Meets (system setup) A t post err (p >>= rest) P :=
  .bind ((meets_neutral hP hp).mono (fun _ => .refl) fun e s _ h => herr e s h) hrest

/-- The end of a transaction of a thread that holds nothing in the tables. -/
theorem Untouched.of_end {q : Sql} {o : Oracle} {reply : q.Reply}
    (hq : q = .commit ∨ q = .rollback ∨ q = .complete .prisma ∨ ∃ w n, q = .deleted .prisma w n)
    (h : (Request.sql q).exec setup t o s = some (reply, s')) (hfree : Unlocked K t s) :
    Untouched K setup traced t s s' := by
  have hexec := h
  simp only [Request.exec, Option.map_eq_some_iff, Prod.mk.injEq] at hexec
  obtain ⟨⟨reply', d⟩, hexec, -, rfl⟩ := hexec
  refine .of_exec h (fun k hk => ?_) ?_ ⟨[], rfl, by simp⟩
  · cases Db.Effect.exec hexec with
    | access k' a reply' hsql =>
        rcases hq with rfl | rfl | rfl | ⟨w, n, rfl⟩ <;> (cases k' <;> cases hsql)
    | commit hcommits htables => exact htables k ▸ (hfree k hk).commit k.same_refl
    | abort hends htables => exact htables k ▸ (hfree k hk).abort k.same_refl
    | none htables => exact htables k ▸ .refl k.same_refl
  · intro hclear
    rcases hq with rfl | rfl | rfl | ⟨w, n, rfl⟩
    · cases hexec
      unfold Db.finish
      split
      · exact Function.update_self ..
      · exact hclear
    · cases hexec
      exact Function.update_self ..
    · simp only [Sql.exec, Db.unlessPoisoned_eq_some, Option.some.injEq, Prod.mk.injEq] at hexec
      obtain ⟨-, -, rfl⟩ := hexec
      exact hclear
    · simp only [Sql.exec, Db.unlessPoisoned_eq_some, Option.some.injEq, Prod.mk.injEq] at hexec
      obtain ⟨-, -, rfl⟩ := hexec
      exact hclear

theorem guard_of_end {q : Sql}
    (hq : q = .commit ∨ q = .rollback ∨ q = .complete .prisma ∨ ∃ w n, q = .deleted .prisma w n)
    (hcommit : D.commit t s) : D.guard t (.sql q) s := by
  refine ⟨?_, fun _ _ _ => hcommit, fun hr => hr.elim⟩
  rintro k a hsql - -
  rcases hq with rfl | rfl | rfl | ⟨w, n, rfl⟩ <;> (cases k <;> cases hsql)

/-- A program outside a transaction that only changes other tables. -/
theorem meets_detached (hP : Firm D.tables setup traced t P) {p : Service α}
    (hp : p.Uses (Request.Detached D.tables)) :
    (keeping setup traced A D).Meets (system setup) A t
      (fun _ s => Unlocked D.tables t s ∧ P s) (fun _ s => Unlocked D.tables t s ∧ P s) p
      fun s => Unlocked D.tables t s ∧ P s := by
  have hfirm := Firm.unlocked.and hP
  refine Rules.Meets.of_uses hp hfirm.stable fun r hr => ?_
  rcases hr with hr | rfl | ⟨w, n, rfl⟩
  · exact keeping_answers (fun _ _ _ _ => guard_of_neutral hr) fun s _ _ s' hs _ hpre hexec =>
      hfirm s s' hs (hs.exec hexec) (.of_neutral hr hexec) hpre
  · exact keeping_answers
      (fun s _ _ hpre => guard_of_end (.inr (.inr (.inl rfl))) (D.commit_free t s hpre.1))
      fun s _ _ s' hs _ hpre hexec => hfirm s s' hs (hs.exec hexec)
        (.of_end (.inr (.inr (.inl rfl))) hexec hpre.1) hpre
  · exact keeping_answers
      (fun s _ _ hpre => guard_of_end (.inr (.inr (.inr ⟨w, n, rfl⟩))) (D.commit_free t s hpre.1))
      fun s _ _ s' hs _ hpre hexec => hfirm s s' hs (hs.exec hexec)
        (.of_end (.inr (.inr (.inr ⟨w, n, rfl⟩))) hexec hpre.1) hpre

/-! ## Accesses to the tables -/

/-- The access as a program. -/
def TableName.send : (k : TableName) → (a : k.Access) → Service a.Reply
  | .roles => ExpressCore.roles
  | .users => ExpressCore.users
  | .userProfiles => ExpressCore.userProfiles
  | .refreshTokens => ExpressCore.refreshTokens
  | .emailVerificationTokens => ExpressCore.emailVerificationTokens
  | .passwordResetTokens => ExpressCore.passwordResetTokens
  | .emailOtps => ExpressCore.emailOtps
  | .outbox => ExpressCore.outbox
  | .deadLetterJobs => ExpressCore.deadLetterJobs
  | .emailTemplates => ExpressCore.emailTemplates

theorem guard_of_access {k : TableName} {a : k.Access}
    (h : D.tables k → a.Writes → D.change t k a s) : D.guard t (.sql (k.sql a)) s := by
  refine ⟨?_, ?_, fun hr => hr.elim⟩
  · intro k' a' heq hk hwrites
    have hname : k' = k := by cases k <;> cases k' <;> first | rfl | cases heq
    subst hname
    have haccess : a' = a := by cases k' <;> (cases heq; rfl)
    subst haccess
    exact h hk hwrites
  · rintro q heq hcommits
    cases heq
    cases k <;> exact hcommits.elim

/-- Requests beyond the database. -/
theorem guard_of_other {r : Request} (hr : ∀ q, r ≠ .sql q) (h : r.Watched → D.other t r s) :
    D.guard t r s :=
  ⟨fun _ _ hsql => (hr _ hsql).elim, fun q hsql => (hr q hsql).elim, h⟩

/-- Requests that keep to the discipline in every state. -/
def Discipline.Lets (D : Discipline) (t : ℕ) (r : Request) : Prop := ∀ s, D.guard t r s

theorem Discipline.lets_access {k : TableName} {a : k.Access}
    (h : D.tables k → a.Writes → ∀ s, D.change t k a s) : D.Lets t (.sql (k.sql a)) :=
  fun s => guard_of_access fun hk hwrites => h hk hwrites s

theorem Discipline.lets_end {q : Sql}
    (hq : q = .commit ∨ q = .rollback ∨ q = .complete .prisma ∨ ∃ w n, q = .deleted .prisma w n)
    (h : ∀ s, D.commit t s) : D.Lets t (.sql q) := fun s => guard_of_end hq (h s)

theorem Discipline.lets_neutral {r : Request} (h : r.Neutral D.tables) : D.Lets t r :=
  fun _ => guard_of_neutral h

/-- A program that keeps to the discipline whatever the state. -/
theorem meets_lets {p : Service α} (hp : p.Uses (D.Lets t)) :
    (keeping setup traced A D).Meets (system setup) A t (fun _ _ => True) (fun _ _ => True) p
      fun _ => True :=
  .of_uses hp (.const True) fun _ hr =>
    keeping_answers (fun s _ _ _ => hr s) fun _ _ _ _ _ _ _ _ => trivial

theorem send_meets {k : TableName} {a : k.Access} {pre : State → Prop}
    {post : a.Reply → State → Prop} (hpre : (keeping setup traced A D).Stable t pre)
    (hpost : ∀ reply, (keeping setup traced A D).Stable t (post reply))
    (hguard : ∀ s, s.InOrder setup traced → A.request t (.sql (k.sql a)) s → pre s →
      D.tables k → a.Writes → D.change t k a s)
    (hstep : ∀ s o reply s', s.InOrder setup traced → s'.InOrder setup traced →
      A.request t (.sql (k.sql a)) s → pre s →
      Untouched (fun k' => k' ≠ k) setup traced t s s' → Accessed k t o a reply s s' →
        post reply s') :
    (keeping setup traced A D).Meets (system setup) A t post err (k.send a) pre := by
  have hothers (o : Oracle) (s s' : State) (reply : (Request.sql (k.sql a)).Reply)
      (h : (Request.sql (k.sql a)).exec setup t o s = some (reply, s')) :
      Untouched (fun k' => k' ≠ k) setup traced t s s' := by
    have hexec := h
    simp only [Request.exec, Option.map_eq_some_iff, Prod.mk.injEq] at hexec
    obtain ⟨⟨reply', d⟩, hexec, -, rfl⟩ := hexec
    obtain ⟨-, -, hothers⟩ := exec_access hexec
    refine .of_exec h (fun k' hk' => hothers k' hk' ▸ .refl k'.same_refl) (fun hclear => ?_)
      ⟨[], rfl, by simp⟩
    have hneutral : (k.sql a).Neutral fun _ => False := Sql.neutral_sql.mpr False.elim
    exact Sql.Neutral.clear hneutral hexec hclear
  cases k <;>
    refine Rules.Meets.send hpre (keeping_answers (fun s hs hA hp => guard_of_access
      (hguard s hs hA hp)) fun s o reply s' hs hA hp hexec => ?_) hpost <;>
    refine hstep s o reply s' hs (hs.exec hexec) hA hp (hothers o s s' reply hexec) ?_ <;>
    (simp only [Request.exec, Sql.exec, Option.map_eq_some_iff, Db.unlessPoisoned_eq_some,
      Prod.mk.injEq] at hexec
     obtain ⟨⟨reply', d⟩, ⟨-, ⟨reply'', T⟩, hexec, rfl, rfl⟩, rfl, rfl⟩ := hexec
     exact ⟨hexec, fun k hk => by cases k <;> first | rfl | exact (hk rfl).elim, rfl⟩)

/-- A read inside or outside a transaction. `Q` is what the run allows to conclude about the row
found. -/
theorem find_meets {k : TableName} {w : k.Where} {Q : ℕ × k.Row → State → Prop}
    (hP : Firm K setup traced t P) (hQ : ∀ x, Firm (fun _ => True) setup traced t (Q x))
    (hfind : ∀ s x, s.InOrder setup traced → A.request t (.sql (k.sql (.find w))) s → P s →
      Condition.holds w x.1 x.2 = true → (k.table s.db).view t x.1 = some x.2 → Q x s) :
    (keeping setup traced A D).Meets (system setup) A t
      (fun reply s => (∀ x, reply = some x → Condition.holds w x.1 x.2 = true ∧ Q x s ∧
        Identified k x.1 x.2 s) ∧ P s) err (k.send (.find w)) P := by
  have hfound (reply : Option (ℕ × k.Row)) : Firm (fun _ => True) setup traced t fun s =>
      ∀ x, reply = some x → Condition.holds w x.1 x.2 = true ∧ Q x s ∧ Identified k x.1 x.2 s :=
    .forall fun x => .imp fun _ => (Firm.const _).and ((hQ x).and (.identified k _ _))
  refine send_meets (a := .find w) hP.all.stable (fun reply => ((hfound reply).and hP.all).stable)
    (fun _ _ _ _ _ hwrites => hwrites.elim) fun s o reply s' hs hs' hA hp hothers h => ?_
  have htable : k.table s'.db = (k.table s.db).take t := exec_find_table h.exec
  have hmoved (K) : Untouched K setup traced t s s' :=
    { hothers with
      rows := fun k' _ => by
        by_cases heq : k' = k
        · subst heq
          exact htable ▸ .take k'.same_refl
        · exact hothers.rows k' heq }
  refine ⟨?_, hP s s' hs hs' (hmoved K) hp⟩
  rintro x rfl
  obtain ⟨-, hview, hw⟩ := exec_find_some h.exec
  have hversion : (k.table s'.db).Version x.1 x.2 := htable ▸ version_of_view hview
  exact ⟨hw, hQ x s s' hs hs' (hmoved _) (hfind s x hs hA hp hw hview),
    mem_ids_of_version hversion,
    fun r' hr' => hs'.coherent k x.1 x.2 r' (.inl hversion) (.inl hr')⟩

/-- A reading of the clock. -/
theorem now_meets {Q : Time → Prop} (hP : Firm K setup traced t P)
    (hQ : ∀ s, s.InOrder setup traced → A.request t .now s → P s → Q s.clock) :
    (keeping setup traced A D).Meets (system setup) A t (fun now s => Q now ∧ P s) err
      (request .now) P := by
  refine Rules.Meets.send hP.all.stable (keeping_answers
    (fun _ _ _ _ => guard_of_neutral (r := .now) id) fun s _ now s' hs hA hpre hexec => ?_)
    fun _ => ((Firm.const _).and hP.all).stable
  have hpost := hP s s' hs (hs.exec hexec) (.of_neutral (r := .now) id hexec) hpre
  obtain ⟨rfl, rfl⟩ := Prod.mk.inj (Option.some.inj hexec)
  exact ⟨hQ s hs hA hpre, hpost⟩

/-- What a visit of row `i` leaves in the ledger. -/
def Visited (k : TableName) (t i : ℕ) (w : k.Where) (c : k.Change) (Q : ℕ × k.Row → Prop)
    (held : List (ℕ × Option k.Row × Option k.Row)) (done : List (ℕ × Option k.Row))
    (reply : Option k.Row) (s : State) : Prop :=
  (reply = none ∧ Ledger k t held done s) ∨
    ∃ old, (Condition.holds w i old = true ∧ Q (i, old)) ∧
      reply = some ((ReadCommitted.Change.apply c old).getD old) ∧
      Ledger k t ((i, some old, ReadCommitted.Change.apply c old) :: held) done s

section Access

variable {k : TableName} {held : List (ℕ × Option k.Row × Option k.Row)}
  {done : List (ℕ × Option k.Row)} {w : k.Where} {c : k.Change} {Q : ℕ × k.Row → Prop}

theorem Firm.visited {i : ℕ} {reply : Option k.Row} (hk : K k) :
    Firm K setup traced t (Visited k t i w c Q held done reply) :=
  ((Firm.const _).and (.ledger hk _ _)).or
    (.exists fun _ => (Firm.const _).and ((Firm.const _).and (.ledger hk _ _)))

/-- `Q` is what the run allows to conclude about the row found. -/
theorem visit_meets {i : ℕ} (hP : Firm (fun k' => k' ≠ k) setup traced t P)
    (hi : ∀ x ∈ held, x.1 ≠ i)
    (hQ : ∀ s old, s.InOrder setup traced → A.request t (.sql (k.sql (.visit i w c))) s → P s →
      (k.table s.db).view t i = some old → (k.table s.db).committed i = some old →
      Condition.holds w i old = true → Q (i, old))
    (hguard : ∀ s, s.InOrder setup traced → A.request t (.sql (k.sql (.visit i w c))) s →
      Ledger k t held done s → P s → D.change t k (.visit i w c) s) :
    (keeping setup traced A D).Meets (system setup) A t
      (fun reply s => Visited k t i w c Q held done reply s ∧ P s) err
      (k.send (.visit i w c)) fun s => Ledger k t held done s ∧ P s := by
  refine send_meets ((Firm.ledger trivial held done).and hP.all).stable
    (fun reply => ((Firm.visited trivial).and hP.all).stable)
    (fun s hs hA hp _ _ => hguard s hs hA hp.1 hp.2) fun s o reply s' hs hs' hA hp hothers h => ?_
  refine ⟨?_, hP s s' hs hs' hothers hp.2⟩
  obtain ⟨hlocked, ⟨old, hview, hw, hreply, htable⟩ | ⟨-, hreply, htable⟩⟩ := exec_visit h.exec
  · have hfree (v : Option k.Row) : (k.table s.db).pending i ≠ some (t, v) := fun hpending => by
      obtain ⟨b, hb⟩ := (hp.1.own i v).mp hpending
      exact hi _ hb rfl
    have hcommitted : (k.table s.db).committed i = some old :=
      (Table.view_of_unlocked hlocked hfree).1 ▸ hview
    refine .inr ⟨old, ⟨hw, hQ s old hs hA hp.2 hview hcommitted hw⟩, hreply, ?_⟩
    rw [Ledger, htable, ← hcommitted]
    exact hp.1.write hi
  · refine .inl ⟨hreply, ?_⟩
    rw [Ledger, htable]
    exact hp.1

/-- The ledger entries of the rows `olds` changed by `c`. -/
def entries (k : TableName) (c : k.Change) (olds : List (ℕ × k.Row)) :
    List (ℕ × Option k.Row × Option k.Row) :=
  olds.map fun x => (x.1, some x.2, ReadCommitted.Change.apply c x.2)

theorem single_of_nodup {ρ : Type} {i : ℕ} {rows : List (ℕ × ρ)}
    (h : (rows.map Prod.fst).Nodup) (hi : ∀ x ∈ rows, x.1 = i) :
    rows = [] ∨ ∃ r, rows = [(i, r)] := by
  match rows with
  | [] => exact .inl rfl
  | [x] => exact .inr ⟨x.2, by rw [← hi x (.head _)]⟩
  | x :: y :: rest =>
      refine ((List.nodup_cons.mp h).1 ?_).elim
      rw [List.map_cons, hi x (.head _), ← hi y (.tail _ (.head _))]
      exact .head _

/-- What an UPDATE or DELETE returns that found the rows `olds`. -/
structure Changed (k : TableName) (w : k.Where) (c : k.Change) (Q : ℕ × k.Row → Prop)
    (olds changed : List (ℕ × k.Row)) : Prop where
  distinct : (olds.map Prod.fst).Nodup
  changed : changed = olds.map fun x => (x.1, (ReadCommitted.Change.apply c x.2).getD x.2)
  holds : ∀ x ∈ olds, Condition.holds w x.1 x.2 = true
  known : ∀ x ∈ olds, Q x

theorem Changed.single {i : ℕ} {olds changed : List (ℕ × k.Row)} (h : Changed k w c Q olds changed)
    (hi : ∀ x ∈ olds, x.1 = i) : olds = [] ∨ ∃ r, olds = [(i, r)] :=
  single_of_nodup h.distinct hi

/-- The rows `rest` are left of those an UPDATE or DELETE has selected. -/
private structure Visiting (k : TableName) (w : k.Where) (c : k.Change) (Q : ℕ × k.Row → Prop)
    (rest changed olds : List (ℕ × k.Row)) : Prop extends Changed k w c Q olds changed where
  nodup : ((rest ++ olds).map Prod.fst).Nodup
  selected : ∀ x ∈ rest, Condition.holds w x.1 x.2 = true

private theorem Visiting.skip {x : ℕ × k.Row} {rest changed olds : List (ℕ × k.Row)}
    (h : Visiting k w c Q (x :: rest) changed olds) : Visiting k w c Q rest changed olds where
  distinct := h.distinct
  changed := h.changed
  holds := h.holds
  known := h.known
  nodup := (List.nodup_cons.mp h.nodup).2
  selected y hy := h.selected y (.tail _ hy)

private theorem Visiting.fresh {x : ℕ × k.Row} {rest changed olds : List (ℕ × k.Row)}
    (h : Visiting k w c Q (x :: rest) changed olds) : ∀ y ∈ olds, y.1 ≠ x.1 := by
  intro y hy heq
  refine (List.nodup_cons.mp h.nodup).1 ?_
  exact List.mem_map.mpr ⟨y, List.mem_append_right _ hy, heq⟩

private theorem Visiting.visit {i : ℕ} {r old : k.Row} {rest changed olds : List (ℕ × k.Row)}
    (h : Visiting k w c Q ((i, r) :: rest) changed olds) (hold : Condition.holds w i old = true)
    (hknown : Q (i, old)) : Visiting k w c Q rest
      (changed ++ [(i, (ReadCommitted.Change.apply c old).getD old)]) (olds ++ [(i, old)]) where
  distinct := by
    rw [List.map_append, List.nodup_append]
    refine ⟨h.distinct, List.nodup_singleton i, fun j hj j' hj' => ?_⟩
    obtain ⟨y, hy, rfl⟩ := List.mem_map.mp hj
    exact List.mem_singleton.mp hj' ▸ h.fresh y hy
  changed := by simp [h.changed]
  holds x hx := by
    rcases List.mem_append.mp hx with hx | hx
    · exact h.holds x hx
    · exact List.mem_singleton.mp hx ▸ hold
  known x hx := by
    rcases List.mem_append.mp hx with hx | hx
    · exact h.known x hx
    · exact List.mem_singleton.mp hx ▸ hknown
  nodup := by
    have hnodup := h.nodup
    rw [← List.append_assoc, List.map_append, List.nodup_append_comm]
    simpa using hnodup
  selected y hy := h.selected y (.tail _ hy)

/-- An UPDATE or DELETE up to its end. -/
theorem visits_meets (hP : Firm (fun k' => k' ≠ k) setup traced t P)
    (hQ : ∀ s i old, s.InOrder setup traced → A.request t (.sql (k.sql (.visit i w c))) s → P s →
      (k.table s.db).view t i = some old → (k.table s.db).committed i = some old →
      Condition.holds w i old = true → Q (i, old))
    (hguard : ∀ i olds s, s.InOrder setup traced →
      A.request t (.sql (k.sql (.visit i w c))) s →
      (∃ r : k.Row, Condition.holds w i r = true) →
      (∀ x ∈ olds, Condition.holds w x.1 x.2 = true ∧ x.1 ≠ i) →
      Ledger k t (entries k c olds) done s → P s → D.change t k (.visit i w c) s) :
    (keeping setup traced A D).Meets (system setup) A t
      (fun changed s => ∃ olds, Changed k w c Q olds changed ∧
        Ledger k t (entries k c olds) done s ∧ P s) err
      (k.send (.scan w) >>= fun rows => visitAll k.send w c rows)
      fun s => Ledger k t [] done s ∧ P s := by
  let J (rest changed : List (ℕ × k.Row)) (s : State) : Prop :=
    ∃ olds, Visiting k w c Q rest changed olds ∧ Ledger k t (entries k c olds) done s ∧ P s
  have hfirm (rest changed : List (ℕ × k.Row)) : Firm (fun _ => True) setup traced t
      (J rest changed) :=
    .exists fun olds => (Firm.const _).and ((Firm.ledger trivial _ _).and hP.all)
  refine Rules.Meets.seq (fun rows => J rows []) ?_ fun rows => ?_
  · refine send_meets ((Firm.ledger trivial [] done).and hP.all).stable
      (fun rows => (hfirm rows []).stable) (fun _ _ _ _ _ hwrites => hwrites.elim)
      fun s o rows s' hs hs' _ hp hothers h => ?_
    refine ⟨[], ⟨⟨List.nodup_nil, rfl, by simp, by simp⟩, ?_, fun x hx => ?_⟩, ?_,
      hP s s' hs hs' hothers hp.2⟩
    · simpa using exec_scan_nodup h.exec
    · exact (((exec_scan h.exec).2 x).mp hx).2
    · rw [Ledger, (exec_scan h.exec).1]
      exact hp.1.take
  · refine (visitAll_meets (J := J) (fun done => (hfirm [] done).stable) ?_ rows []).mono
      (fun changed s _ h => ?_) fun _ => .refl
    · rintro ⟨i, r⟩ rest changed
      refine Rules.Meets.exists fun olds => .assume fun hvisiting => ?_
      have hfresh : ∀ x ∈ entries k c olds, x.1 ≠ i := by
        intro x hx
        obtain ⟨y, hy, rfl⟩ := List.mem_map.mp hx
        exact hvisiting.fresh y hy
      refine (visit_meets hP hfresh (fun s => hQ s i) fun s hs hA hledger hPs => ?_).mono
        (fun reply s _ h => ?_) fun _ => .refl
      · exact hguard i olds s hs hA ⟨r, hvisiting.selected _ (.head _)⟩
          (fun x hx => ⟨hvisiting.holds x hx, hvisiting.fresh x hx⟩) hledger hPs
      · obtain ⟨⟨rfl, hledger⟩ | ⟨old, hold, rfl, hledger⟩, hPs⟩ := h
        · exact ⟨olds, by simpa using hvisiting.skip, hledger, hPs⟩
        · refine ⟨olds ++ [(i, old)], by simpa using hvisiting.visit hold.1 hold.2, ?_, hPs⟩
          exact hledger.of_mem fun x => by simp [entries, or_comm]
    · obtain ⟨olds, h, hledger, hPs⟩ := h
      exact ⟨olds, h.toChanged, hledger, hPs⟩

/-- The end of a statement inside a transaction. -/
theorem completeTx_meets (hP : Firm K setup traced t P) :
    (keeping setup traced A D).Meets (system setup) A t (fun _ => P) err
      (statement (.complete .tx)) P :=
  Rules.Meets.send hP.stable (keeping_answers
    (fun _ _ _ _ => guard_of_neutral (r := .sql (.complete .tx)) trivial)
    fun s _ _ s' hs _ hpre hexec => hP s s' hs (hs.exec hexec)
      (.of_neutral (r := .sql (.complete .tx)) trivial hexec) hpre) fun _ => hP.stable

private theorem changeMany_eq (db : Client) : changeMany k.send db w c =
    (k.send (.scan w) >>= fun rows => visitAll k.send w c rows) >>= fun changed =>
      statement (.complete db) >>= fun _ => pure changed :=
  (Program.bind_assoc _ _ _).symm

variable (done) in
/-- `updateMany` and `deleteMany` inside a transaction. -/
theorem changeMany_meets (hP : Firm (fun k' => k' ≠ k) setup traced t P)
    (hQ : ∀ s i old, s.InOrder setup traced → A.request t (.sql (k.sql (.visit i w c))) s → P s →
      (k.table s.db).view t i = some old → (k.table s.db).committed i = some old →
      Condition.holds w i old = true → Q (i, old))
    (hguard : ∀ i olds s, s.InOrder setup traced →
      A.request t (.sql (k.sql (.visit i w c))) s →
      (∃ r : k.Row, Condition.holds w i r = true) →
      (∀ x ∈ olds, Condition.holds w x.1 x.2 = true ∧ x.1 ≠ i) →
      Ledger k t (entries k c olds) done s → P s → D.change t k (.visit i w c) s) :
    (keeping setup traced A D).Meets (system setup) A t
      (fun changed s => ∃ olds, Changed k w c Q olds changed ∧
        Ledger k t (entries k c olds) done s ∧ P s) err
      (changeMany k.send .tx w c) fun s => Ledger k t [] done s ∧ P s := by
  rw [changeMany_eq]
  refine .bind (visits_meets hP hQ hguard) fun changed => ?_
  have hfirm : Firm (fun _ => True) setup traced t fun s => ∃ olds, Changed k w c Q olds changed ∧
      Ledger k t (entries k c olds) done s ∧ P s :=
    .exists fun olds => (Firm.const _).and ((Firm.ledger trivial _ _).and hP.all)
  exact .bind (completeTx_meets hfirm) fun _ => .pure hfirm.stable .refl

variable (done) in
/-- `update` and `delete` on a unique column inside a transaction. -/
theorem changeOne_meets (hP : Firm (fun k' => k' ≠ k) setup traced t P)
    (hQ : ∀ s i old, s.InOrder setup traced → A.request t (.sql (k.sql (.visit i w c))) s → P s →
      (k.table s.db).view t i = some old → (k.table s.db).committed i = some old →
      Condition.holds w i old = true → Q (i, old))
    (hguard : ∀ i olds s, s.InOrder setup traced →
      A.request t (.sql (k.sql (.visit i w c))) s →
      (∃ r : k.Row, Condition.holds w i r = true) →
      (∀ x ∈ olds, Condition.holds w x.1 x.2 = true ∧ x.1 ≠ i) →
      Ledger k t (entries k c olds) done s → P s → D.change t k (.visit i w c) s)
    (herr : ∀ e s, Ledger k t [] done s → P s → err e s)
    (hstable : ∀ e, (keeping setup traced A D).Stable t (err e)) :
    (keeping setup traced A D).Meets (system setup) A t
      (fun row s => ∃ olds changed, Changed k w c Q olds (row :: changed) ∧
        Ledger k t (entries k c olds) done s ∧ P s) err
      (changeOne k.send .tx w c) fun s => Ledger k t [] done s ∧ P s := by
  refine .bind (changeMany_meets done hP hQ hguard) fun changed => ?_
  cases changed with
  | nil =>
      refine .throw (hstable _) fun s _ h => ?_
      obtain ⟨olds, hchanged, hledger, hPs⟩ := h
      have hnil : olds = [] := by simpa using hchanged.changed.symm
      subst hnil
      exact herr _ s hledger hPs
  | cons row changed =>
      refine .pure (Firm.stable (K := fun _ => True) (.exists fun olds => .exists fun _ =>
        (Firm.const _).and ((Firm.ledger trivial _ _).and hP.all))) fun s _ h => ?_
      obtain ⟨olds, hchanged, hledger, hPs⟩ := h
      exact ⟨olds, changed, hchanged, hledger, hPs⟩

variable (held) (done) in
/-- `create` inside a transaction. -/
theorem create_meets {row : k.Row} (hP : Firm (fun k' => k' ≠ k) setup traced t P)
    (hguard : ∀ s, s.InOrder setup traced → A.request t (.sql (k.sql (.insert row))) s →
      Ledger k t held done s → P s → D.change t k (.insert row) s) :
    (keeping setup traced A D).Meets (system setup) A t
      (fun i s => Ledger k t ((i, none, some row) :: held) done s ∧ P s) err
      (create k.send .tx row) fun s => Ledger k t held done s ∧ P s := by
  have hfirm (i : ℕ) : Firm (fun _ => True) setup traced t fun s =>
      Ledger k t ((i, none, some row) :: held) done s ∧ P s :=
    (Firm.ledger trivial _ _).and hP.all
  refine Rules.Meets.seq (fun i s => Ledger k t ((i, none, some row) :: held) done s ∧ P s) ?_
    fun i => .bind (completeTx_meets (hfirm i)) fun _ => .pure (hfirm i).stable .refl
  refine send_meets ((Firm.ledger trivial held done).and hP.all).stable (fun i => (hfirm i).stable)
    (fun s hs hA hp _ _ => hguard s hs hA hp.1 hp.2) fun s o i s' hs hs' _ hp hothers h => ?_
  obtain ⟨rfl, hfresh, htable⟩ := exec_insert h.exec
  have hnone : (k.table s.db).committed o.fresh = none := by
    by_contra hsome
    obtain ⟨r, hr⟩ := Option.ne_none_iff_exists'.mp hsome
    exact hfresh ((k.table s.db).mem_of_committed _ r hr)
  refine ⟨?_, hP s s' hs hs' hothers hp.2⟩
  rw [Ledger, htable, ← hnone]
  refine hp.1.write fun x hx heq => hfresh ?_
  exact heq ▸ (k.table s.db).mem_of_pending _ _ (hp.1.pending hx)

end Access

/-! ## Transactions -/

/-- Thread `t` has done nothing to the tables in `K`. -/
def Fresh (K : TableName → Prop) (t : ℕ) (s : State) : Prop :=
  ∀ k, K k → Ledger k t [] [] s

/-- Thread `t` has committed nothing to the tables in `K`. -/
def Quiet (K : TableName → Prop) (t : ℕ) (s : State) : Prop :=
  ∀ k, K k → ∃ held, Ledger k t held [] s

theorem Firm.fresh : Firm K setup traced t (Fresh K t) :=
  fun _ _ _ _ hmove h k hk => (h k hk).undisturbed (hmove.rows k hk)

theorem quiet_of_fresh (h : Fresh K t s) : Quiet K t s := fun k hk => ⟨[], h k hk⟩

theorem Firm.quiet : Firm K setup traced t (Quiet K t) := by
  intro s s' _ _ hmove h k hk
  obtain ⟨held, hledger⟩ := h k hk
  exact ⟨held, hledger.undisturbed (hmove.rows k hk)⟩

/-- A commit on which a thread relies for nothing but its effect on the tables. -/
theorem commit_meets {q : Sql} (hq : q = .commit ∨ q = .complete .prisma)
    {pre : State → Prop} (hpre : (keeping setup traced A D).Stable t pre)
    (mid : q.Reply → State → Prop)
    (hmid : ∀ reply, (keeping setup traced A D).Stable t (mid reply))
    (hguard : ∀ s, s.InOrder setup traced → A.request t (.sql q) s → pre s →
      Clear t s ∧ D.commit t s)
    (hstep : ∀ s s' reply, s.InOrder setup traced → s'.InOrder setup traced →
      A.request t (.sql q) s → pre s →
      (∀ k : TableName, k.table s'.db = (k.table s.db).commit t) →
      (∀ K, Unlocked K t s → Untouched K setup traced t s s') → mid reply s') :
    (keeping setup traced A D).Meets (system setup) A t mid err (statement q) pre := by
  have hend : q = .commit ∨ q = .rollback ∨ q = .complete .prisma ∨
      ∃ w n, q = .deleted .prisma w n := by
    rcases hq with rfl | rfl
    · exact .inl rfl
    · exact .inr (.inr (.inl rfl))
  refine Rules.Meets.send hpre (keeping_answers
    (fun s hs hA hp => guard_of_end hend (hguard s hs hA hp).2)
    fun s o reply s' hs hA hp hexec => ?_) hmid
  refine hstep s s' reply hs (hs.exec hexec) hA hp (fun k => ?_)
    fun K hfree => .of_end hend hexec hfree
  have hclear := (hguard s hs hA hp).1
  simp only [Request.exec, Option.map_eq_some_iff, Prod.mk.injEq] at hexec
  obtain ⟨⟨reply', d⟩, hexec, -, rfl⟩ := hexec
  rcases hq with rfl | rfl
  · cases hexec
    unfold Db.finish
    rw [if_neg (by rw [Clear] at hclear; simp [hclear])]
    exact Db.table_commitAll k
  · simp only [Sql.exec, Db.unlessPoisoned_eq_some, Option.some.injEq, Prod.mk.injEq] at hexec
    obtain ⟨-, -, rfl⟩ := hexec
    exact Db.table_commitAll k

/-- `updateMany` and `deleteMany` outside a transaction. `S` is what the commit tells about the rows
together. -/
theorem changeManyPrisma_meets {k : TableName} {w : k.Where} {c : k.Change}
    (done : List (ℕ × Option k.Row)) {Q : ℕ × k.Row → Prop} {S : List (ℕ × k.Row) → Prop}
    (hP : Firm K setup traced t P)
    (hQ : ∀ s i old, s.InOrder setup traced → A.request t (.sql (k.sql (.visit i w c))) s → P s →
      (k.table s.db).view t i = some old → (k.table s.db).committed i = some old →
      Condition.holds w i old = true → Q (i, old))
    (hfree : ∀ s, P s → Unlocked K t s) (hK : ∀ k', K k' → k' ≠ k)
    (hguard : ∀ i olds s, s.InOrder setup traced →
      A.request t (.sql (k.sql (.visit i w c))) s →
      (∃ r : k.Row, Condition.holds w i r = true) →
      (∀ x ∈ olds, Condition.holds w x.1 x.2 = true ∧ x.1 ≠ i) →
      Ledger k t (entries k c olds) done s → P s → D.change t k (.visit i w c) s)
    (hcommit : ∀ olds s, s.InOrder setup traced → A.request t (.sql (.complete .prisma)) s →
      (∀ x ∈ olds, Q x) → Ledger k t (entries k c olds) done s → P s →
        Clear t s ∧ D.commit t s ∧ S olds) :
    (keeping setup traced A D).Meets (system setup) A t
      (fun changed s => ∃ olds, Changed k w c Q olds changed ∧ S olds ∧
        Ledger k t [] (done ++ (entries k c olds).map fun x => (x.1, x.2.2)) s ∧ P s) err
      (changeMany k.send .prisma w c) fun s => Ledger k t [] done s ∧ P s := by
  have hP' : Firm (fun k' => k' ≠ k) setup traced t P := hP.mono hK
  rw [changeMany_eq]
  refine .bind (visits_meets hP' hQ hguard) fun changed => ?_
  have hheld : Firm (fun _ => True) setup traced t fun s => ∃ olds, Changed k w c Q olds changed ∧
      Ledger k t (entries k c olds) done s ∧ P s :=
    .exists fun olds => (Firm.const _).and ((Firm.ledger trivial _ _).and hP.all)
  have hdone : Firm (fun _ => True) setup traced t fun s => ∃ olds, Changed k w c Q olds changed ∧
      S olds ∧ Ledger k t [] (done ++ (entries k c olds).map fun x => (x.1, x.2.2)) s ∧ P s :=
    .exists fun olds => (Firm.const _).and
      ((Firm.const _).and ((Firm.ledger trivial _ _).and hP.all))
  refine .bind (commit_meets (.inr rfl) hheld.stable
    (fun _ s => ∃ olds, Changed k w c Q olds changed ∧ S olds ∧
      Ledger k t [] (done ++ (entries k c olds).map fun x => (x.1, x.2.2)) s ∧ P s)
    (fun _ => hdone.stable) (fun s hs hA h => ?_) fun s s' _ hs hs' hA h htables hkept => ?_)
    fun _ => .pure hdone.stable .refl
  · obtain ⟨olds, hchanged, hledger, hp⟩ := h
    obtain ⟨hclear, hcommit, -⟩ := hcommit olds s hs hA hchanged.known hledger hp
    exact ⟨hclear, hcommit⟩
  · obtain ⟨olds, hchanged, hledger, hp⟩ := h
    obtain ⟨-, -, hall⟩ := hcommit olds s hs hA hchanged.known hledger hp
    refine ⟨olds, hchanged, hall, ?_, hP s s' hs hs' (hkept K (hfree s hp)) hp⟩
    rw [Ledger, htables]
    exact hledger.commit

private theorem begin_meets (hP : Firm D.tables setup traced t P) :
    (keeping setup traced A D).Meets (system setup) A t (fun _ s => Clear t s ∧ P s) err
      (statement .begin) P := by
  have hneutral : (Request.sql .begin).Neutral D.tables := trivial
  refine Rules.Meets.send hP.stable (keeping_answers (fun _ _ _ _ => guard_of_neutral hneutral)
    fun s o _ s' hs _ hpre hexec => ⟨?_, hP s s' hs (hs.exec hexec) (.of_neutral hneutral hexec)
      hpre⟩) fun _ => (Firm.clear.and hP).stable
  simp only [Request.exec, Sql.exec, Option.map_some, Option.some.injEq, Prod.mk.injEq] at hexec
  obtain ⟨-, rfl⟩ := hexec
  exact Function.update_self ..

theorem guard_of_rollback : D.guard t (.sql .rollback) s := by
  refine ⟨?_, fun q hq hcommits => ?_, fun hr => hr.elim⟩
  · rintro k a hsql - -
    cases k <;> cases hsql
  · cases hq
    exact hcommits.elim

private theorem rollback_meets (hP : Firm (fun _ => False) setup traced t P) :
    (keeping setup traced A D).Meets (system setup) A t
      (fun _ s => Fresh D.tables t s ∧ P s) err (statement .rollback)
      fun s => Quiet D.tables t s ∧ P s := by
  refine Rules.Meets.send (Firm.quiet.all.and hP.all).stable (keeping_answers
    (fun _ _ _ _ => guard_of_rollback) fun s o _ s' hs _ hpre hexec => ⟨fun k hk => ?_, ?_⟩)
    fun _ => (Firm.fresh.all.and hP.all).stable
  · obtain ⟨held, hledger⟩ := hpre.1 k hk
    simp only [Request.exec, Sql.exec, Option.map_some, Option.some.injEq, Prod.mk.injEq] at hexec
    obtain ⟨-, rfl⟩ := hexec
    rw [Ledger, Db.table_abortAll]
    exact hledger.abort
  · exact hP s s' hs (hs.exec hexec) (.of_end (.inr (.inl rfl)) hexec fun k hk => hk.elim) hpre.2

/-- A transaction of a thread that has done nothing before. What its errors tell must not be
about the tables. -/
theorem transaction_keeps {body : Service α} {pre : State → Prop} {post : α → State → Prop}
    {caught : Error → State → Prop} (hpre : Firm D.tables setup traced t pre)
    (hcaught : ∀ e, Firm (fun _ => False) setup traced t (caught e))
    (herr : ∀ e, (keeping setup traced A D).Stable t (err e))
    (hfail : ∀ e s, Fresh D.tables t s → caught e s → err e s) (mid : α → State → Prop)
    (hbody : (keeping setup traced A D).Meets (system setup) A t mid
      (fun e s => Quiet D.tables t s ∧ caught e s) body
      fun s => Clear t s ∧ Fresh D.tables t s ∧ pre s)
    (hcommit : ∀ value, (keeping setup traced A D).Meets (system setup) A t post err
      (statement .commit >>= fun _ => pure value) (mid value)) :
    (keeping setup traced A D).Meets (system setup) A t post err (transaction body)
      fun s => Fresh D.tables t s ∧ pre s :=
  transaction_meets (begin_meets (Firm.fresh.and hpre)) hbody
    (fun e => .bind (rollback_meets (hcaught e)) fun _ => .throw (herr e)
      fun s _ h => hfail e s h.1 h.2) hcommit

end ExpressCore
