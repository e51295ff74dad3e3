import ExpressCore.Verification.Session.Coverage
import ExpressCore.Verification.Session.Targets

/-! # Revocations delete what they should and nothing else -/

namespace ExpressCore.Session

open ReadCommitted Interleaving

variable {setup : Setup} {traced : Prop} {opens : ℕ → Prop} {A : Assumption ℕ Request State}
  {b t u : ℕ} {s s' : State} {w : RefreshTokenWhere}

/-! ## Nothing outside the filter -/

/-- What the threads that revoke have deleted satisfied their conditions. -/
def Sifted (s : State) : Prop :=
  ∀ x ∈ s.db.tags, Revokes x.2.1 → Filtered x.1 x.2.1 s

theorem Effect.tags (h : Effect setup traced opens A t s s') :
    s'.db.tags = s.db.tags ∨ ∃ w count, (Revokes w → Passed t w count s) ∧
      s'.db.tags = (t, w, count) :: s.db.tags ∧ s'.db.refreshTokens = s.db.refreshTokens := by
  cases h with
  | report w count hpassed htable htags => exact .inr ⟨w, count, hpassed, htags, htable⟩
  | idle _ htags => exact .inl htags
  | find _ htags => exact .inl htags
  | scan w _ _ htags => exact .inl htags
  | claim i now c old _ _ _ _ _ htags => exact .inl htags
  | insert j row _ _ _ htags => exact .inl htags
  | delete i w old _ _ _ _ _ _ htags => exact .inl htags
  | commit _ _ htags => exact .inl htags
  | abort _ htags => exact .inl htags

/-- For the other threads a step is a wait. -/
theorem Step.unmoved (h : Step setup traced opens A u s s') (hne : t ≠ u) :
    Unmoved setup traced t s s' where
  toLater := h.later
  rows := h.undisturbed hne
  tags := by
    rcases h.effect.tags with htags | ⟨w, count, -, htags, -⟩
    · exact ⟨[], htags, by simp⟩
    · exact ⟨[(u, w, count)], htags, by simpa using hne.symm⟩

theorem Filtered.of_pending {i : ℕ} (h : Filtered t w s)
    (htable : ∀ j, s'.db.refreshTokens.pending j = some (t, none) →
      j = i ∨ s.db.refreshTokens.pending j = some (t, none))
    (hlog : s'.db.refreshTokens.log = s.db.refreshTokens.log)
    (hi : s'.db.refreshTokens.pending i = some (t, none) → Satisfied w i s.db.refreshTokens.log) :
    Filtered t w s' := by
  intro j hj
  rw [hlog] at hj ⊢
  rcases hj with hj | hj
  · rcases htable j hj with rfl | hold
    · exact hi hj
    · exact h j (.inl hold)
  · exact h j (.inr hj)

/-- The own step of a thread that has reported a pass for `w`. -/
theorem Filtered.step (h : Filtered t w s) (hw : Revokes w)
    (htag : ∃ count, (t, w, count) ∈ s.db.tags) (hwf : s.WellFormed setup traced)
    (hstep : Step setup traced opens A t s s') : Filtered t w s' := by
  have hsame (hpending : s'.db.refreshTokens.pending = s.db.refreshTokens.pending)
      (hlog : s'.db.refreshTokens.log = s.db.refreshTokens.log) : Filtered t w s' := by
    unfold Filtered
    rw [hpending, hlog]
    exact h
  have hwrite {i : ℕ} {v : Option RefreshToken}
      (htable : s'.db.refreshTokens = s.db.refreshTokens.write t i v)
      (hi : v = none → Satisfied w i s.db.refreshTokens.log) : Filtered t w s' := by
    refine h.of_pending (i := i) (fun j hj => ?_) (by rw [htable, Table.write_log])
      fun hpending => ?_
    · rw [htable] at hj
      exact (Table.write_pending hj).imp (fun hj => hj.1) fun hj => hj.2
    · rw [htable, Table.write_pending_self] at hpending
      cases hpending
      exact hi rfl
  cases hstep.effect with
  | idle htable => exact hsame (by rw [htable]) (by rw [htable])
  | find htable => exact hsame (by rw [htable, Table.take_pending]) (by rw [htable, Table.take_log])
  | scan w' _ htable =>
      exact hsame (by rw [htable, Table.take_pending]) (by rw [htable, Table.take_log])
  | report w' count _ htable => exact hsame (by rw [htable]) (by rw [htable])
  | claim i now c old _ _ _ _ htable => exact hwrite htable fun hnone => nomatch hnone
  | insert j row _ _ htable => exact hwrite htable fun hnone => nomatch hnone
  | delete i w' old hmay _ _ hview hholds htable =>
      refine hwrite htable fun _ => ?_
      obtain ⟨count, hcount⟩ := htag
      by_cases hw' : Revokes w'
      · obtain rfl : w = w' := (hmay.revoked hw').1 _ hcount rfl hw
        obtain ⟨e, he, heq⟩ := hwf.logged i old (hmay.deleting.committed_of_view hview)
        exact ⟨e, he, by rw [heq], old, by rw [heq], hholds⟩
      · exact ((hmay.expired hw').1 _ hcount rfl hw).elim
  | commit _ htable =>
      intro i hi
      rw [htable] at hi ⊢
      have hlog : s.db.refreshTokens.log <+: (s.db.refreshTokens.commit t).log :=
        List.prefix_append _ _
      rcases hi with hi | hi
      · exact ((Table.commit_pending.mp hi).2 rfl).elim
      · rcases List.mem_append.mp hi with hi | hi
        · exact (h i (.inr hi)).mono hlog
        · exact (h i (.inl (Table.mem_writes.mp hi).2)).mono hlog
  | abort htable =>
      intro i hi
      rw [htable] at hi ⊢
      exact h i (hi.imp (fun hi => (Table.abort_pending.mp hi).1) id)

theorem Sifted.step (h : Sifted s) (hwf : s.WellFormed setup traced)
    (hwf' : s'.WellFormed setup traced) (hstep : Step setup traced opens A t s s') : Sifted s' := by
  have hkept (x : ℕ × RefreshTokenWhere × ℕ) (hx : x ∈ s.db.tags) (hw : Revokes x.2.1) :
      Filtered x.1 x.2.1 s' := by
    by_cases hne : x.1 = t
    · exact hne ▸ (hne ▸ h x hx hw).step hw ⟨x.2.2, hne ▸ hx⟩ hwf hstep
    · exact Steady.filtered x.2.1 s s' hwf hwf' (hstep.unmoved hne) (h x hx hw)
  intro x hx hw
  rcases hstep.effect.tags with htags | ⟨w, count, hpassed, htags, htable⟩
  · exact hkept x (htags ▸ hx) hw
  · rw [htags] at hx
    rcases List.mem_cons.mp hx with rfl | hx
    · unfold Filtered
      rw [htable]
      exact (hpassed hw).filtered
    · exact hkept x hx hw

/-! ## Everything inside the filter -/

/-- While thread `b` revokes and no family is opened. -/
structure Revoking (setup : Setup) (traced : Prop) (b : ℕ) (s : State) : Prop where
  consistent : Consistent setup traced s
  rooted : Rooted s
  watched : Watched b s
  extinct : s.db.rolledBack b = false → ∀ w, Revokes w → (b, w, 0) ∈ s.db.tags → Extinct b w s

theorem Step.rolledBack_before (h : Step setup traced opens A t s s')
    (hkept : s'.db.rolledBack b = false) : s.db.rolledBack b = false := by
  by_cases hne : b = t
  · subst hne
    cases h.effect with
    | idle _ _ _ heq => exact heq ▸ hkept
    | find _ _ _ heq => exact heq ▸ hkept
    | scan w _ _ _ _ heq => exact heq ▸ hkept
    | claim i now c old _ _ _ _ _ _ _ heq => exact heq ▸ hkept
    | insert j row _ _ _ _ _ heq => exact heq ▸ hkept
    | delete i w old _ _ _ _ _ _ _ _ heq => exact heq ▸ hkept
    | report w count _ _ _ _ heq => exact heq ▸ hkept
    | commit _ _ _ _ heq => exact heq ▸ hkept
    | abort _ _ _ hrolled =>
        rw [hrolled] at hkept
        cases hkept
  · exact h.rolledBack b hne ▸ hkept

theorem Revoking.step (h : Revoking setup traced b s) (hwf : s.WellFormed setup traced)
    (hwf' : s'.WellFormed setup traced)
    (hstep : Step setup traced (fun _ => False) (spared b) t s s') :
    Revoking setup traced b s' where
  consistent := h.consistent.step hwf hwf' hstep
  rooted := h.rooted.step hstep
  watched := h.watched.step h.consistent h.rooted hwf hstep
  extinct hkept w hw htag := by
    have hbefore := hstep.rolledBack_before hkept
    have hextinct : Extinct b w s := by
      rcases hstep.effect.tags with htags | ⟨w', count, hpassed, htags, -⟩
      · exact h.extinct hbefore w hw (htags ▸ htag)
      · rw [htags] at htag
        rcases List.mem_cons.mp htag with heq | htag
        · cases heq
          exact h.watched.extinct hw (hpassed hw)
        · exact h.extinct hbefore w hw htag
    exact hextinct.step hw h.consistent hstep hkept

/-- Before the revocation: no rotation is under way. -/
theorem revoking_of_quiet (hconsistent : Consistent setup traced s)
    (hquiet : ∀ i, s.db.refreshTokens.pending i = none) (hb : Unstarted b s) :
    Revoking setup traced b s where
  consistent := hconsistent
  rooted k u r hk := by simp [hquiet] at hk
  watched w rows hchanging _ := by simp [hb.unchanging] at hchanging
  extinct _ w hw htag := (hb.fresh.untagged _ htag rfl hw).elim

/-- No row that satisfies `w` is left. -/
def NoneLeft (w : RefreshTokenWhere) (s : State) : Prop :=
  ∀ i r, s.db.refreshTokens.committed i = some r → Condition.holds w i r = false

/-- A condition that is extinct once the thread has ended its transaction. -/
theorem Extinct.noneLeft (h : Extinct b w s) (hclean : Clean b s) : NoneLeft w s := by
  intro i r hi
  cases hholds : Condition.holds w i r with
  | false => rfl
  | true => exact (hclean i none (h i r (.inl hi) hholds)).elim

/-! ## The theorem -/

theorem sifted_of_initial (h : s.Initial) : Sifted s := by simp [Sifted, h.tags]

/-- A thread that was idle has not started. -/
theorem Sound.unstarted {operation : ℕ → Operation}
    {c' : Config ℕ Error Request Request.Reply State Unit}
    (h : Sound setup traced opens A operation s c') (hidle : operation t = .idle)
    (hrun : (system setup).Reaches A (launch setup operation s) c') (hs : Unstarted t s) :
    Unstarted t c'.shared := by
  have hret : c'.thread t = .ret () := hrun.finished (by simp [launch, hidle, Operation.run]; rfl)
  have hholds := h.2 t
  rw [hret] at hholds
  have hended : (operation t).Ended t s c'.shared := hholds.value h.1
  rw [hidle] at hended
  exact hended hs

theorem Sound.settled {operation : ℕ → Operation}
    {c : Config ℕ Error Request Request.Reply State Unit}
    (h : Sound setup traced opens A operation s c) (hs : Unstarted t s)
    (hret : c.thread t = .ret ()) : Settled t c.shared := by
  have hholds := h.2 t
  rw [hret] at hholds
  have hended : (operation t).Ended t s c.shared := hholds.value h.1
  cases heq : operation t with
  | idle =>
      rw [heq] at hended
      exact ⟨(hended hs).fresh.untagged.told, (hended hs).fresh.clean⟩
  | _ =>
      rw [heq] at hended
      exact hended

theorem Sound.told {operation : ℕ → Operation}
    {c : Config ℕ Error Request Request.Reply State Unit}
    (h : Sound setup traced opens A operation s c) (hs : Unstarted t s) (hended : Finished t c) :
    Told t c.shared := by
  rcases hended with hret | ⟨e, hfail, hlost, hdiverged⟩
  · exact (h.settled hs hret).told
  · have hholds := h.2 t
    rw [hfail] at hholds
    exact ((hholds.error h.1).resolve_left hlost).resolve_left hdiverged

/-- A revocation that reported success and was committed is complete, whatever rotations were
under way, and it deleted nothing outside its condition. An operation that revokes ends normally
only after a pass over its target that deleted nothing. -/
theorem revocation_complete {first second : ℕ → Operation} {s₀ : State}
    {c₁ c : Config ℕ Error Request Request.Reply State Unit} (hinit : s₀.Initial)
    (hbefore : (system setup).Reaches .any (launch setup first s₀) c₁)
    (hquiet : ∀ i, c₁.shared.db.refreshTokens.pending i = none)
    (hstart : ∀ t, first t = .idle ∨ second t = .idle) (hb : first b = .idle)
    (hopens : ∀ t, ¬ (second t).Opens)
    (hrun : (system setup).Reaches (spared b) (launch setup second c₁.shared) c) :
    (c.thread b = .ret () → (second b).Revoking setup →
      ∃ w, (second b).Targets setup
          ((system setup).Told (spared b) (launch setup second c₁.shared) c b) w ∧
        (b, w, 0) ∈ c.shared.db.tags ∧
        (c.shared.db.rolledBack b = false → NoneLeft w c.shared)) ∧
    (∀ token, second b = .refreshAccessToken token →
      AlwaysReused setup ((system setup).Told (spared b) (launch setup second c₁.shared) c b)
        token → Finished b c →
      ∃ w, (second b).Targets setup
          ((system setup).Told (spared b) (launch setup second c₁.shared) c b) w ∧
        (b, w, 0) ∈ c.shared.db.tags) ∧
    (∀ w, Revokes w → (b, w, 0) ∈ c.shared.db.tags → c.shared.db.rolledBack b = false →
      Clean b c.shared → NoneLeft w c.shared) ∧
    (∀ t w count, (t, w, count) ∈ c.shared.db.tags → Revokes w →
      ∀ i, (t, i, none) ∈ c.shared.db.refreshTokens.log →
        Satisfied w i c.shared.db.refreshTokens.log) ∧
    (Finished b c → ∀ w count, Revokes w → (b, w, count) ∈ c.shared.db.tags →
      (b, w, 0) ∈ c.shared.db.tags) := by
  have hfirst : Sound setup False (fun _ => True) .any first s₀ c₁ :=
    (sound_of_initial hinit).reaches nofun hbefore
  have hunstarted (t : ℕ) (hidle : first t = .idle) : Unstarted t c₁.shared :=
    hfirst.unstarted hidle hbefore (unstarted_of_initial hinit)
  have hconsistent : Consistent setup False c₁.shared :=
    Sound.consistent nofun (sound_of_initial hinit) hbefore (consistent_of_initial hinit)
  have hfresh : Sound setup False (fun _ => True) .any first s₀ (launch setup first s₀) :=
    sound_of_initial hinit
  have hsifted : Sifted c₁.shared :=
    Sound.induction nofun hfresh hbefore (sifted_of_initial hinit)
      fun _ _ _ hs hs' h hstep => h.step hs hs' hstep
  have hsecond : Sound setup False (fun _ => False) (spared b) second c₁.shared
      (launch setup second c₁.shared) :=
    sound_launch hfirst.1 (fun t => (hstart t).symm.imp_right (hunstarted t)) hopens
  have hsound := hsecond.reaches nofun hrun
  have hrevoking : Revoking setup False b c.shared :=
    hsecond.induction nofun hrun (revoking_of_quiet hconsistent hquiet (hunstarted b hb))
      fun _ _ _ hs hs' h hstep => h.step hs hs' hstep
  have hsifted' : Sifted c.shared :=
    hsecond.induction nofun hrun hsifted fun _ _ _ hs hs' h hstep => h.step hs hs' hstep
  have hcomplete (w : RefreshTokenWhere) (hw : Revokes w) (htag : (b, w, 0) ∈ c.shared.db.tags)
      (hkept : c.shared.db.rolledBack b = false) (hclean : Clean b c.shared) :
      NoneLeft w c.shared := (hrevoking.extinct hkept w hw htag).noneLeft hclean
  refine ⟨fun hret hrevokes => ?_, fun token hoperation hreused hended => ?_, hcomplete,
    fun t w count htag hw i hi => hsifted' _ htag hw i (.inr hi),
    fun hended w count hw htag => hsound.told (hunstarted b hb) hended _ htag rfl hw⟩
  · obtain ⟨w, htargets, htag⟩ := (hrun.learnt (Operation.learns hrevokes) hret).tag
    exact ⟨w, htargets, htag, fun hkept =>
      hcomplete w htargets.revokes htag hkept (hsound.settled (hunstarted b hb) hret).clean⟩
  · rw [hoperation]
    exact (reuse_emptied hoperation hreused hrun hended).tag

/-! ## A rotation that commits during a sign-out -/

/-- A rotation of the token, in thread 1, and a sign-out in thread 3. -/
def signOut : ℕ → Operation
  | 1 => .refreshAccessToken (sampleToken 1)
  | 3 => .logout (sampleToken 1)
  | _ => .idle

/-- The first DELETE of the sign-out waits for the rotation, whose successor it has not seen, and
the second one deletes the successor. -/
def signedOut : Config ℕ Error Request Request.Reply State Unit :=
  (system plainSetup).after (launch plainSetup signOut signedIn.shared)
    (List.replicate 4 (.run 1 {}) ++
      [.run 1 { bytes := List.replicate 64 2 }, .run 1 { bytes := List.replicate 12 0 }] ++
      List.replicate 3 (.run 1 {}) ++ [.run 1 { fresh := 2 }, .run 1 {}] ++
      List.replicate 3 (.run 3 {}) ++ [.run 1 {}] ++ List.replicate 8 (.run 3 {}))

/-- A test for `spared 3` that passes when only thread 3 deletes. -/
private def sparing (t : ℕ) (r : Request) (_ : State) : Bool :=
  t == 3 || match r with
    | .sql (.refreshTokens (.visit _ _ .delete)) => false
    | _ => true

private theorem spared_of_sparing {t : ℕ} {r : Request} {s : State} (h : sparing t r s = true) :
    (spared 3).request t r s := by
  by_cases ht : t = 3
  · exact fun hne => (hne ht).elim
  · refine spared_of_ne fun i w heq => ?_
    subst heq
    simp [sparing, ht] at h

theorem revocation_complete_signedOut :
    signedOut.thread 3 = .ret () ∧
      (3, .family 5 7, 1) ∈ signedOut.shared.db.tags ∧
      (∃ w, (3, w, 0) ∈ signedOut.shared.db.tags ∧ NoneLeft w signedOut.shared) ∧
      NoneLeft (.family 5 7) signedOut.shared := by
  have hreached : (system plainSetup).Reaches (spared 3)
      (launch plainSetup signOut signedIn.shared) signedOut :=
    .of_passes sparing (fun _ _ _ => spared_of_sparing) (fun _ _ => trivial) (by decide +kernel)
  have hret : signedOut.thread 3 = .ret () := Program.value?_eq_some.mp (by decide +kernel)
  have hkept : signedOut.shared.db.rolledBack 3 = false := by decide +kernel
  have hquiet (i : ℕ) : signedOut.shared.db.refreshTokens.pending i = none :=
    Table.pending_eq_none_of_ids (by decide +kernel) i
  have hcomplete := revocation_complete (b := 3)
    (plainState_initial (oneRow_atRest 5 sampleUser)) signedIn_reached signedIn_quiet
    (fun t => by unfold signIn signOut; split <;> simp) rfl
    (fun t => by unfold signOut; split <;> simp [Operation.Opens]) hreached
  refine ⟨hret, by decide +kernel, ?_, hcomplete.2.2.1 _ trivial (by decide +kernel) hkept
    fun i version hi => by simp [hquiet] at hi⟩
  obtain ⟨w, -, htag, hnone⟩ := hcomplete.1 hret trivial
  exact ⟨w, htag, hnone hkept⟩

/-! ## A rotation that removes an expired row -/

/-- Two rotations of the token, in threads 1 and 2, and a sign-out in thread 3. -/
def race : ℕ → Operation
  | 1 => .refreshAccessToken (sampleToken 1)
  | 2 => .refreshAccessToken (sampleToken 1)
  | 3 => .logout (sampleToken 1)
  | _ => .idle

/-- The first rotation holds its claim, the token expires, the second rotation and the sign-out
wait for the row, and the second rotation gets it first. -/
def raced : Config ℕ Error Request Request.Reply State Unit :=
  (system plainSetup).after (launch plainSetup race signedIn.shared)
    (List.replicate 4 (.run 1 {}) ++
      [.run 1 { bytes := List.replicate 64 2 }, .run 1 { bytes := List.replicate 12 0 }] ++
      List.replicate 3 (.run 1 {}) ++ [.run 1 { fresh := 2 }, .run 1 {}] ++
      [.move { move := .clock 86400000 }] ++
      List.replicate 5 (.run 2 {}) ++ List.replicate 3 (.run 3 {}) ++ [.run 1 {}] ++
      List.replicate 3 (.run 2 {}) ++ List.replicate 3 (.run 3 {}))

/-- The sign-out reports success although the successor of the token is left. -/
theorem revocation_incomplete_raced :
    (system plainSetup).Reaches .any (launch plainSetup race signedIn.shared) raced ∧
      (3, .family 5 7, 0) ∈ raced.shared.db.tags ∧
      (∀ x ∈ raced.shared.db.tags, Revokes x.2.1 → x.1 = 3) ∧
      raced.thread 3 = .ret () ∧ raced.shared.db.rolledBack 3 = false ∧
      (∀ i, raced.shared.db.refreshTokens.pending i = none) ∧
      ∃ r, raced.shared.db.refreshTokens.committed 2 = some r ∧ r.rotatedAt = none ∧
        Condition.holds (RefreshTokenWhere.family 5 7) 2 r = true := by
  refine ⟨.of_schedule (fun l _ _ _ => Machine.keeps_any l) (by decide +kernel),
    by decide +kernel, by decide +kernel, Program.value?_eq_some.mp (by decide +kernel),
    by decide +kernel, Table.pending_eq_none_of_ids (by decide +kernel), ?_⟩
  · have hrow : (raced.shared.db.refreshTokens.committed 2).any (fun r =>
        r.rotatedAt.isNone && Condition.holds (RefreshTokenWhere.family 5 7) 2 r) = true := by
      decide +kernel
    obtain ⟨r, hr, hholds⟩ := (Option.any_eq_true _ _).mp hrow
    exact ⟨r, hr, by simpa using hholds⟩

end ExpressCore.Session
