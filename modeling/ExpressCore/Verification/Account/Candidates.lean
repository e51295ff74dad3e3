import ExpressCore.Library.Evaluation
import ExpressCore.Model.User
import ExpressCore.Verification.System.Start
import Mathlib.Data.Finset.Card
import Mathlib.Data.Nat.Find

/-! # The first free slug

`makeUniqueSlug` loops until a candidate is free. The candidates are pairwise distinct, so a
finite table cannot take them all. -/

namespace ExpressCore.Candidates

open ReadCommitted Interleaving

/-! ## Candidates -/

/-- Candidate number `counter` for a text. -/
def candidate (text : String) (counter : ℕ) : String :=
  if counter = 0 then toSlug text else toSlug text ++ "-" ++ toString counter

theorem toString_injective {n m : ℕ} (h : toString n = toString m) : n = m := by
  have hchars := congrArg (fun text => Nat.ofDigitChars 10 text.toList 0) h
  simpa using hchars

/-- A base may itself end in a number: what is appended to it still tells the candidates
apart. -/
theorem candidate_injective (text : String) : Function.Injective (candidate text) := by
  intro n m h
  have hbase (k : ℕ) : toSlug text ≠ toSlug text ++ "-" ++ toString k := by
    intro heq
    have hlength := congrArg (fun text => text.toList.length) heq
    simp only [String.toList_append, List.length_append] at hlength
    have hdash : "-".toList.length = 1 := by decide
    omega
  unfold candidate at h
  split at h <;> split at h
  · omega
  · exact (hbase m h).elim
  · exact (hbase n h.symm).elim
  · have hchars := congrArg String.toList h
    simp only [String.toList_append] at hchars
    exact toString_injective (String.toList_inj.mp (List.append_cancel_left hchars))

theorem taken_bound {text : String} {taken : List String} {n : ℕ}
    (h : ∀ m < n, candidate text m ∈ taken) : n ≤ taken.length := by
  have hsub : (Finset.range n).image (candidate text) ⊆ taken.toFinset := by
    intro slug hslug
    obtain ⟨m, hm, rfl⟩ := Finset.mem_image.mp hslug
    exact List.mem_toFinset.mpr (h m (Finset.mem_range.mp hm))
  have hcard := Finset.card_le_card hsub
  rw [Finset.card_image_of_injective _ (candidate_injective text), Finset.card_range] at hcard
  exact Nat.le_trans hcard (List.toFinset_card_le taken)

/-- One of the first candidates is free: at most as many are taken as there are slugs taken. -/
theorem exists_free (text : String) (taken : List String) :
    ∃ n, candidate text n ∉ taken ∧ ∀ m < n, candidate text m ∈ taken := by
  have hfree : ∃ n, candidate text n ∉ taken := by
    by_contra hall
    have hbound : taken.length + 1 ≤ taken.length :=
      taken_bound fun m _ => by_contra fun hnot => hall ⟨m, hnot⟩
    omega
  exact ⟨Nat.find hfree, Nat.find_spec hfree, fun m hm => by_contra (Nat.find_min hfree hm)⟩

/-! ## Looking a candidate up -/

/-- The tables whose records have slugs. -/
inductive Owner where
  | users
  | roles

namespace Owner

/-- The callback that is given to `makeUniqueSlug`. -/
def checkExists : Owner → Option ℕ → String → Service Bool
  | .users => slugOfUserTaken
  | .roles => slugOfRoleTaken

/-- What the callback asks the database. -/
def lookup : Owner → Option ℕ → String → Request
  | .users, excludeId, slug => .sql (.users (.find (.slug slug excludeId)))
  | .roles, excludeId, slug => .sql (.roles (.find (.slug slug excludeId)))

/-- The slugs of the active records that `t` sees, other than the excluded one. -/
def taken (excludeId : Option ℕ) (t : ℕ) (s : State) : Owner → List String
  | .users => (s.db.users.visible t).filterMap fun x =>
      if x.2.deletedAt.isNone && !(excludeId == some x.1) then x.2.slug else none
  | .roles => (s.db.roles.visible t).filterMap fun x =>
      if x.2.deletedAt.isNone && !(excludeId == some x.1) then some x.2.slug else none

/-- The state in which thread `t` has read the table. -/
def looked (t : ℕ) (s : State) : Owner → State
  | .users => { s with db := { s.db with users := s.db.users.take t } }
  | .roles => { s with db := { s.db with roles := s.db.roles.take t } }

variable {owner : Owner} {excludeId : Option ℕ} {t : ℕ} {s : State} {slug : String}

@[simp] theorem taken_looked : owner.taken excludeId t (owner.looked t s) =
    owner.taken excludeId t s := by
  cases owner <;> rfl

@[simp] theorem looked_looked : owner.looked t (owner.looked t s) = owner.looked t s := by
  cases owner <;> simp [looked, Table.take] <;> rfl

@[simp] theorem looked_poisoned : (owner.looked t s).db.poisoned = s.db.poisoned := by
  cases owner <;> rfl

theorem taken_iff_users : slug ∈ Owner.users.taken excludeId t s ↔
    s.db.users.matching t (UserWhere.slug slug excludeId) ≠ [] := by
  simp only [taken, List.mem_filterMap, Table.matching, ne_eq, List.filter_eq_nil_iff,
    Condition.holds, Option.ite_none_right_eq_some, Bool.and_eq_true, beq_iff_eq, not_forall,
    Classical.not_not, exists_prop]
  constructor
  · rintro ⟨x, hx, ⟨hactive, hexcluded⟩, hslug⟩
    exact ⟨x, hx, ⟨hslug, hactive⟩, hexcluded⟩
  · rintro ⟨x, hx, ⟨hslug, hactive⟩, hexcluded⟩
    exact ⟨x, hx, ⟨hactive, hexcluded⟩, hslug⟩

theorem taken_iff_roles : slug ∈ Owner.roles.taken excludeId t s ↔
    s.db.roles.matching t (RoleWhere.slug slug excludeId) ≠ [] := by
  simp only [taken, List.mem_filterMap, Table.matching, ne_eq, List.filter_eq_nil_iff,
    Condition.holds, Option.ite_none_right_eq_some, Bool.and_eq_true, beq_iff_eq, not_forall,
    Classical.not_not, exists_prop, Option.some.injEq]
  constructor
  · rintro ⟨x, hx, ⟨hactive, hexcluded⟩, hslug⟩
    exact ⟨x, hx, ⟨hslug, hactive⟩, hexcluded⟩
  · rintro ⟨x, hx, ⟨hslug, hactive⟩, hexcluded⟩
    exact ⟨x, hx, ⟨hactive, hexcluded⟩, hslug⟩

end Owner

section Find

variable {ρ W C : Type} [Condition W ℕ ρ] [Change C ρ] {T T' : Table ℕ ℕ ρ} {t pick fresh : ℕ}
  {w : W}

/-- A lookup finds a row if there is one. -/
theorem isSome_of_find {reply : Option (ℕ × ρ)}
    (h : Access.exec t pick fresh (.find w : Access ℕ ρ W C) T = some (reply, T')) :
    reply.isSome = decide (T.matching t w ≠ []) ∧ T' = T.take t := by
  refine ⟨?_, exec_find_table h⟩
  simp only [Access.exec] at h
  split at h
  · rename_i hnil
    cases h
    simp [hnil]
  · rename_i hmatching
    simp only [Option.map_eq_some_iff, Prod.mk.injEq] at h
    obtain ⟨row, -, rfl, -⟩ := h
    simpa using hmatching

theorem exec_find_first : Access.exec t 0 fresh (.find w : Access ℕ ρ W C) T =
    some ((T.matching t w).head?, T.take t) := by
  simp only [Access.exec]
  split
  · rename_i hnil
    simp [hnil]
  · cases hmatching : T.matching t w with
    | nil => simp_all
    | cons row rest => simp

end Find

variable {setup : Setup} {owner : Owner} {excludeId : Option ℕ} {t : ℕ} {s s' s₁ : State}
  {slug text : String} {n n' : List (ℕ × Request)} {α : Type} {result : Except Error α}

/-- A request whose every answer goes on in the same way. -/
theorem evaluates_answered (r : Request) (next : r.Reply → Service α) {rest : Service α}
    (hanswer : ∀ o reply s₂, r.exec setup t o s = some (reply, s₂) →
      next reply = rest ∧ s₂ = s₁)
    (hanswered : ∃ o reply, r.exec setup t o s = some (reply, s₁)) :
    (system setup).noting.Evaluates t (.call r next) (s, n) result (s', n') ↔
      (system setup).noting.Evaluates t rest (s₁, n ++ [(t, r)]) result (s', n') := by
  refine Machine.evaluates_call.trans ?_
  constructor
  · rintro ⟨o, reply, ⟨s₂, n₂⟩, hnoted, hnext⟩
    obtain ⟨hexec, rfl⟩ := Machine.noting_exec.mp hnoted
    obtain ⟨rfl, rfl⟩ := hanswer o reply s₂ hexec
    exact hnext
  · intro hrest
    obtain ⟨o, reply, hexec⟩ := hanswered
    refine ⟨o, reply, _, Machine.noting_exec.mpr ⟨hexec, rfl⟩, ?_⟩
    rw [(hanswer o reply s₁ hexec).1]
    exact hrest

theorem exec_users {a : Access ℕ User UserWhere UserChange} {o : Oracle} {reply : a.Reply} :
    (Request.sql (.users a)).exec setup t o s = some (reply, s₁) ↔
      s.db.poisoned t = false ∧ ∃ T, a.exec t o.pick o.fresh s.db.users = some (reply, T) ∧
        s₁ = { s with db := { s.db with users := T } } := by
  simp only [Request.exec, Sql.exec, Option.map_eq_some_iff, Db.unlessPoisoned_eq_some,
    Prod.mk.injEq]
  constructor
  · rintro ⟨_, ⟨hclean, ⟨reply', T⟩, hexec, rfl⟩, rfl, rfl⟩
    exact ⟨hclean, T, hexec, rfl⟩
  · rintro ⟨hclean, T, hexec, rfl⟩
    exact ⟨_, ⟨hclean, (reply, T), hexec, rfl⟩, rfl, rfl⟩

theorem exec_roles {a : Access ℕ Role RoleWhere RoleChange} {o : Oracle} {reply : a.Reply} :
    (Request.sql (.roles a)).exec setup t o s = some (reply, s₁) ↔
      s.db.poisoned t = false ∧ ∃ T, a.exec t o.pick o.fresh s.db.roles = some (reply, T) ∧
        s₁ = { s with db := { s.db with roles := T } } := by
  simp only [Request.exec, Sql.exec, Option.map_eq_some_iff, Db.unlessPoisoned_eq_some,
    Prod.mk.injEq]
  constructor
  · rintro ⟨_, ⟨hclean, ⟨reply', T⟩, hexec, rfl⟩, rfl, rfl⟩
    exact ⟨hclean, T, hexec, rfl⟩
  · rintro ⟨hclean, T, hexec, rfl⟩
    exact ⟨_, ⟨hclean, (reply, T), hexec, rfl⟩, rfl, rfl⟩

/-- A lookup tells whether the slug is taken. -/
theorem found_of_users {o : Oracle} {reply : Option (ℕ × User)}
    (h : (Request.sql (.users (.find (.slug slug excludeId)))).exec setup t o s =
      some (reply, s₁)) :
    reply.isSome = decide (slug ∈ Owner.users.taken excludeId t s) ∧
      s₁ = Owner.users.looked t s := by
  obtain ⟨-, T, hfind, rfl⟩ := exec_users.mp h
  obtain ⟨hfound, rfl⟩ := isSome_of_find hfind
  exact ⟨by simpa only [Owner.taken_iff_users] using hfound, rfl⟩

theorem found_of_roles {o : Oracle} {reply : Option (ℕ × Role)}
    (h : (Request.sql (.roles (.find (.slug slug excludeId)))).exec setup t o s =
      some (reply, s₁)) :
    reply.isSome = decide (slug ∈ Owner.roles.taken excludeId t s) ∧
      s₁ = Owner.roles.looked t s := by
  obtain ⟨-, T, hfind, rfl⟩ := exec_roles.mp h
  obtain ⟨hfound, rfl⟩ := isSome_of_find hfind
  exact ⟨by simpa only [Owner.taken_iff_roles] using hfound, rfl⟩

/-- The callback tells whether a slug is taken, after one lookup. -/
theorem evaluates_checkExists (slug : String) (hclean : s.db.poisoned t = false)
    {rest : Bool → Service α} :
    (system setup).noting.Evaluates t (owner.checkExists excludeId slug >>= rest) (s, n) result
        (s', n') ↔
      (system setup).noting.Evaluates t (rest (decide (slug ∈ owner.taken excludeId t s)))
        (owner.looked t s, n ++ [(t, owner.lookup excludeId slug)]) result (s', n') := by
  cases owner with
  | users =>
      refine evaluates_answered (.sql (.users (.find (.slug slug excludeId))))
        (fun reply => rest (reply : Option (ℕ × User)).isSome) ?_
        ⟨{}, _, exec_users.mpr ⟨hclean, _, exec_find_first, rfl⟩⟩
      intro o reply s₂ hexec
      obtain ⟨hfound, rfl⟩ := found_of_users hexec
      exact ⟨congrArg rest hfound, rfl⟩
  | roles =>
      refine evaluates_answered (.sql (.roles (.find (.slug slug excludeId))))
        (fun reply => rest (reply : Option (ℕ × Role)).isSome) ?_
        ⟨{}, _, exec_roles.mpr ⟨hclean, _, exec_find_first, rfl⟩⟩
      intro o reply s₂ hexec
      obtain ⟨hfound, rfl⟩ := found_of_roles hexec
      exact ⟨congrArg rest hfound, rfl⟩

/-! ## The loop -/

/-- The lookups of the candidates from number `counter` to number `counter + k`. -/
def lookups (owner : Owner) (excludeId : Option ℕ) (t : ℕ) (text : String) (counter k : ℕ) :
    List (ℕ × Request) :=
  (List.range (k + 1)).map fun m => (t, owner.lookup excludeId (candidate text (counter + m)))

theorem lookups_succ (counter k : ℕ) : lookups owner excludeId t text counter (k + 1) =
    (t, owner.lookup excludeId (candidate text counter)) ::
      lookups owner excludeId t text (counter + 1) k := by
  simp [lookups, List.range_succ_eq_map (n := k + 1), Function.comp_def, Nat.add_assoc,
    Nat.add_comm 1]

/-- From candidate `counter` on the loop asks about every candidate up to the first free one. -/
theorem evaluates_makeUniqueSlugFrom (counter : ℕ) {k attempts : ℕ} {result : Except Error String}
    (hclean : s.db.poisoned t = false)
    (hfree : candidate text (counter + k) ∉ owner.taken excludeId t s)
    (htaken : ∀ m < k, candidate text (counter + m) ∈ owner.taken excludeId t s)
    (hattempts : k < attempts) :
    (system setup).noting.Evaluates t
        (makeUniqueSlugFrom (toSlug text) (owner.checkExists excludeId) counter attempts) (s, n)
        result (s', n') ↔
      result = .ok (candidate text (counter + k)) ∧ s' = owner.looked t s ∧
        n' = n ++ lookups owner excludeId t text counter k := by
  induction k generalizing counter attempts s n with
  | zero =>
      obtain ⟨attempts, rfl⟩ := Nat.exists_eq_succ_of_ne_zero (Nat.ne_of_gt hattempts)
      refine (evaluates_checkExists (candidate text counter) hclean).trans ?_
      have hfirst : candidate text counter ∉ owner.taken excludeId t s := hfree
      rw [decide_eq_false hfirst]
      refine Machine.evaluates_pure.trans ?_
      simp [lookups, candidate]
  | succ k ih =>
      obtain ⟨attempts, rfl⟩ :=
        Nat.exists_eq_succ_of_ne_zero (Nat.ne_of_gt (Nat.zero_lt_of_lt hattempts))
      refine (evaluates_checkExists (candidate text counter) hclean).trans ?_
      have hfirst : candidate text counter ∈ owner.taken excludeId t s :=
        htaken 0 (Nat.zero_lt_succ k)
      rw [decide_eq_true hfirst]
      have hcounter (m : ℕ) : counter + 1 + m = counter + (m + 1) := by omega
      refine (ih (counter + 1) (by simpa using hclean) ?_ ?_ (by omega)).trans ?_
      · rwa [Owner.taken_looked, hcounter]
      · intro m hm
        rw [Owner.taken_looked, hcounter]
        exact htaken (m + 1) (by omega)
      · rw [hcounter, Owner.looked_looked, lookups_succ, List.append_assoc, List.singleton_append]

/-- `makeUniqueSlug` ends with the first free candidate, after one lookup of each candidate up to
it, whatever the table holds: the loop needs one attempt more than there are slugs taken. -/
theorem first_free_slug (owner : Owner) (excludeId : Option ℕ) (text : String) (t : ℕ) (s : State)
    (hclean : s.db.poisoned t = false) :
    ∃ k, candidate text k ∉ owner.taken excludeId t s ∧
      (∀ m < k, candidate text m ∈ owner.taken excludeId t s) ∧
      k ≤ (owner.taken excludeId t s).length ∧
      ∀ setup : Setup, (owner.taken excludeId t s).length < setup.env.slugAttempts →
        ∀ result s' notes, (system setup).noting.Evaluates t
            (makeUniqueSlug setup text (owner.checkExists excludeId)) (s, []) result (s', notes) ↔
          result = .ok (candidate text k) ∧ s' = owner.looked t s ∧
            notes = (List.range (k + 1)).map fun m =>
              (t, owner.lookup excludeId (candidate text m)) := by
  obtain ⟨k, hfree, htaken⟩ := exists_free text (owner.taken excludeId t s)
  have hbound := taken_bound htaken
  refine ⟨k, hfree, htaken, hbound, fun setup hattempts result s' notes => ?_⟩
  have hloop : (system setup).noting.Evaluates t
      (makeUniqueSlugFrom (toSlug text) (owner.checkExists excludeId) 0 setup.env.slugAttempts)
      (s, []) result (s', notes) ↔
        result = .ok (candidate text (0 + k)) ∧ s' = owner.looked t s ∧
          notes = [] ++ lookups owner excludeId t text 0 k :=
    evaluates_makeUniqueSlugFrom 0 hclean (by simpa using hfree) (by simpa using htaken)
      (Nat.lt_of_le_of_lt hbound hattempts)
  simpa [lookups, makeUniqueSlug] using hloop

/-- One user, whose slug is that of another name. -/
def namesake : State :=
  plainState (oneRow 1
    { name := some "Jo!", slug := some "jo", email := none, password := none, avatar := none
      roleId := none, isEmailVerified := true, deletedAt := none })

theorem first_free_slug_second :
    ∃ notes, (system plainSetup).noting.Evaluates 0
      (makeUniqueSlug plainSetup "Jo" (Owner.users.checkExists none)) (namesake, [])
      (.ok "jo-1") (Owner.users.looked 0 namesake, notes) := by
  have htaken : Owner.users.taken none 0 namesake = ["jo"] := by decide +kernel
  have hsecond : candidate "Jo" 1 = "jo-1" := by decide +kernel
  obtain ⟨k, hfree, -, hbound, hends⟩ := first_free_slug .users none "Jo" 0 namesake rfl
  rw [htaken] at hfree hbound hends
  have hk : k = 1 := by
    have hne : k ≠ 0 := by
      rintro rfl
      exact hfree (by decide +kernel)
    have : k ≤ 1 := hbound
    omega
  subst hk
  exact ⟨_, (hends plainSetup (by decide) _ _ _).mpr ⟨by rw [hsecond], rfl, rfl⟩⟩

end ExpressCore.Candidates
