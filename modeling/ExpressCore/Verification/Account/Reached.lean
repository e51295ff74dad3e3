import ExpressCore.Model.Records
import ExpressCore.Verification.Account.Addressable

/-! # Reaching a record by its slug -/

namespace ExpressCore.Candidates

open Interleaving Words

/-! ## The property -/

namespace Owner

/-- Where the router is mounted. -/
def mount : Owner → String
  | .users => "/users"
  | .roles => "/roles"

/-- The path of a record. -/
def path (owner : Owner) (slug : String) : List Char :=
  "/api/v1".toList ++ (owner.mount.toList ++ '/' :: slug.toList)

/-- The routes with a slug show, update and delete the record that has it. -/
structure Reached (owner : Owner) (slug : String) : Prop where
  shown : recordHandler .get (owner.path slug) = some (owner.mount, .showRecord, some slug)
  updated : recordHandler .put (owner.path slug) = some (owner.mount, .update, some slug)
  deleted : recordHandler .delete (owner.path slug) = some (owner.mount, .destroy, some slug)

def routes : Owner → List Route
  | .users => userRoutes
  | .roles => roleRoutes

/-- The names that have routes of their own before those of the slugs. -/
def fixed : Owner → List String
  | .users => []
  | .roles => ["access-list", "user-types"]

end Owner

/-! ## Paths -/

variable {rest slug : List Char}

theorem mounted_append (pre : String) (hpre : pre.toList.map Char.toLower = pre.toList) :
    mounted pre (pre.toList ++ '/' :: rest) = some ('/' :: rest) := by
  simp [mounted, hpre]

theorem percentDecode_plain (h : '%' ∉ slug) :
    percentDecode slug = some (slug.flatMap String.utf8EncodeChar) := by
  induction slug with
  | nil => rfl
  | cons c slug ih =>
      have hc : c ≠ '%' := fun hc => h (hc ▸ .head _)
      rw [percentDecode]
      · simp [ih fun hmem => h (.tail _ hmem)]
      · exact fun _ _ _ heq _ => hc heq
      · exact hc

theorem decodeURIComponent_plain (h : '%' ∉ slug) :
    decodeURIComponent slug = some (String.ofList slug) := by
  rw [decodeURIComponent, percentDecode_plain h]
  have hvalid : (slug.flatMap String.utf8EncodeChar).toByteArray.IsValidUTF8 := .intro slug rfl
  exact dif_pos hvalid

theorem slugSegment_cons (hne : slug ≠ []) (h : '/' ∉ slug) :
    slugSegment ('/' :: slug) = some slug := by
  have hall : ∀ c ∈ slug, (c != '/') = true := by
    intro c hc
    have hne : c ≠ '/' := fun heq => h (heq ▸ hc)
    simpa using hne
  simp [slugSegment, List.takeWhile_eq_self_iff.mpr hall, List.dropWhile_eq_nil_iff.mpr hall, hne]

/-! ## The routes of an addressable slug -/

section Routes

variable {owner : Owner} {method : Method} {slug : String}

theorem Addressable.not_mem (h : Addressable slug) {c : Char} (hc : isSlugChar c = false)
    (hne : c ≠ '-') : c ∉ slug.toList := by
  intro hmem
  rcases h.chars c hmem with hslug | rfl
  · simp [hc] at hslug
  · exact hne rfl

theorem toLower_of_not_upper {c : Char} (h : c.isUpper = false) : c.toLower = c :=
  dif_neg (of_decide_eq_false h)

theorem Addressable.toLower_eq (h : Addressable slug) :
    slug.toList.map Char.toLower = slug.toList := by
  refine (List.map_congr_left fun c hc => ?_).trans (List.map_id _)
  rcases h.chars c hc with hslug | rfl
  · refine toLower_of_not_upper ?_
    simp only [isSlugChar, Bool.or_eq_true, isLower_iff, isDigit_iff] at hslug
    by_contra hupper
    have := isUpper_iff.mp (by simpa using hupper)
    omega
  · rfl

theorem Addressable.params_slug (h : Addressable slug) :
    RoutePath.slug.params ('/' :: slug.toList) = some (some slug) := by
  rw [RoutePath.params, slugSegment_cons h.nonempty (h.not_mem (by decide) (by decide)),
    Option.bind_some, decodeURIComponent_plain (h.not_mem (by decide) (by decide)),
    Option.map_some, String.ofList_toList]

theorem Addressable.params_fixed (h : Addressable slug) (route : String) :
    (RoutePath.fixed route).params ('/' :: slug.toList) =
      if '/' :: slug.toList = route.toList then some none else none := by
  have hlower : ('/' :: slug.toList).map Char.toLower = '/' :: slug.toList := by
    rw [List.map_cons, h.toLower_eq]
    rfl
  have hend : '/' :: slug.toList ≠ route.toList ++ ['/'] := by
    intro heq
    have hlast := congrArg List.getLast? heq
    obtain ⟨c, rest, hslug⟩ := List.exists_cons_of_ne_nil h.nonempty
    rw [List.getLast?_append, hslug, List.getLast?_cons_cons, ← hslug] at hlast
    exact h.not_mem (c := '/') (by decide) (by decide)
      (List.mem_of_getLast? (by simpa using hlast))
  simp [RoutePath.params, hlower, hend]

/-- No router is mounted where another one is. -/
theorem mounted_of_ne {other : Owner} (hne : other ≠ owner) (rest : List Char) :
    mounted other.mount (owner.mount.toList ++ rest) = none := by
  have husers : "/users".toList = ['/', 'u', 's', 'e', 'r', 's'] := by decide
  have hroles : "/roles".toList = ['/', 'r', 'o', 'l', 'e', 's'] := by decide
  cases owner with
  | users =>
      cases other with
      | users => exact (hne rfl).elim
      | roles => simp [mounted, Owner.mount, husers, hroles]
  | roles =>
      cases other with
      | users => simp [mounted, Owner.mount, husers, hroles]
      | roles => exact (hne rfl).elim

/-- A request for a record comes to the routes of its router. -/
theorem recordHandler_path (owner : Owner) (method : Method) (slug : String) :
    recordHandler method (owner.path slug) =
      (takenBy method ('/' :: slug.toList) owner.routes).map fun handler =>
        (owner.mount, handler) := by
  have hmount : mounted owner.mount (owner.mount.toList ++ '/' :: slug.toList) =
      some ('/' :: slug.toList) := by
    cases owner <;> exact mounted_append _ (by decide)
  have hother : ∀ other ≠ owner,
      mounted other.mount (owner.mount.toList ++ '/' :: slug.toList) = none :=
    fun other hne => mounted_of_ne hne _
  have hapi : mounted "/api/v1" (owner.path slug) =
      some (owner.mount.toList ++ '/' :: slug.toList) := by
    cases owner <;> exact mounted_append "/api/v1" (by decide)
  rw [recordHandler, hapi, Option.bind_some]
  generalize owner.mount.toList ++ '/' :: slug.toList = path at hmount hother
  cases owner with
  | users =>
      have hroles : mounted "/roles" path = none := hother .roles (by simp)
      simp only [Owner.mount] at hmount
      simp [recordRouters, List.findSome?, hmount, hroles, Owner.mount, Owner.routes]
      cases takenBy method ('/' :: slug.toList) userRoutes <;> rfl
  | roles =>
      have husers : mounted "/users" path = none := hother .users (by simp)
      simp only [Owner.mount] at hmount
      simp [recordRouters, List.findSome?, hmount, husers, Owner.mount, Owner.routes]
      cases takenBy method ('/' :: slug.toList) roleRoutes <;> rfl

theorem Addressable.params_fixed_iff (h : Addressable slug) (route name : String)
    (hroute : route.toList = '/' :: name.toList) :
    (RoutePath.fixed route).params ('/' :: slug.toList) =
      if slug = name then some none else none := by
  simp [h.params_fixed, hroute, String.toList_inj]

/-- A slug is looked up unless its name has a route of its own. -/
theorem Addressable.takenBy_get (h : Addressable slug) :
    takenBy .get ('/' :: slug.toList) owner.routes = some (.showRecord, some slug) ↔
      slug ∉ owner.fixed := by
  have hempty : slug ≠ "" := by
    rintro rfl
    exact h.nonempty rfl
  have hroot := h.params_fixed_iff "/" "" rfl
  have haccess := h.params_fixed_iff "/access-list" "access-list" rfl
  have htypes := h.params_fixed_iff "/user-types" "user-types" rfl
  rw [if_neg hempty] at hroot
  cases owner with
  | users =>
      simp [Owner.routes, userRoutes, takenBy, List.findSome?, Owner.fixed, hroot, h.params_slug]
  | roles =>
      simp [Owner.routes, roleRoutes, takenBy, List.findSome?, Owner.fixed, hroot, h.params_slug,
        haccess, htypes]
      split_ifs with haccess htypes <;> simp_all

theorem Addressable.takenBy_put (h : Addressable slug) :
    takenBy .put ('/' :: slug.toList) owner.routes = some (.update, some slug) := by
  cases owner <;>
    simp [Owner.routes, userRoutes, roleRoutes, takenBy, List.findSome?, h.params_slug]

theorem Addressable.takenBy_delete (h : Addressable slug) :
    takenBy .delete ('/' :: slug.toList) owner.routes = some (.destroy, some slug) := by
  cases owner <;>
    simp [Owner.routes, userRoutes, roleRoutes, takenBy, List.findSome?, h.params_slug]

/-- A slug of the right shape reaches its record unless its name has a route of its own. -/
theorem Addressable.reached_iff (h : Addressable slug) :
    owner.Reached slug ↔ slug ∉ owner.fixed := by
  constructor
  · intro hreached
    have hshown := hreached.shown
    rw [recordHandler_path, Option.map_eq_some_iff] at hshown
    obtain ⟨handler, htaken, heq⟩ := hshown
    obtain ⟨-, rfl⟩ := Prod.mk.injEq .. ▸ heq
    exact h.takenBy_get.mp htaken
  · intro hfixed
    constructor
    · rw [recordHandler_path, h.takenBy_get.mpr hfixed, Option.map_some]
    · rw [recordHandler_path, h.takenBy_put, Option.map_some]
    · rw [recordHandler_path, h.takenBy_delete, Option.map_some]

end Routes

/-! ## What `makeUniqueSlug` returns -/

variable {setup : Setup} {owner : Owner} {excludeId : Option ℕ} {t : ℕ} {s s' : State}
  {slug text : String}

theorem taken_of_evaluates {taken : Bool}
    (h : (system setup).Evaluates t (owner.checkExists excludeId slug) s (.ok taken) s') :
    taken = decide (slug ∈ owner.taken excludeId t s) ∧ s' = owner.looked t s := by
  cases owner with
  | users =>
      obtain ⟨o, reply, s₁, hexec, hret⟩ := Machine.evaluates_call.mp h
      obtain ⟨hvalue, rfl⟩ := Machine.evaluates_pure.mp hret
      have hlookup : (Request.sql (.users (.find (.slug slug excludeId)))).exec setup t o s =
        some (reply, s') := hexec
      obtain ⟨hfound, rfl⟩ := found_of_users hlookup
      exact ⟨(Except.ok.inj hvalue).trans hfound, rfl⟩
  | roles =>
      obtain ⟨o, reply, s₁, hexec, hret⟩ := Machine.evaluates_call.mp h
      obtain ⟨hvalue, rfl⟩ := Machine.evaluates_pure.mp hret
      have hlookup : (Request.sql (.roles (.find (.slug slug excludeId)))).exec setup t o s =
        some (reply, s') := hexec
      obtain ⟨hfound, rfl⟩ := found_of_roles hlookup
      exact ⟨(Except.ok.inj hvalue).trans hfound, rfl⟩

/-- What the loop returns is the first free candidate. -/
theorem first_free_of_evaluates {counter attempts : ℕ} (h : (system setup).Evaluates t
      (makeUniqueSlugFrom (toSlug text) (owner.checkExists excludeId) counter attempts) s (.ok slug)
      s') :
    ∃ k, slug = candidate text (counter + k) ∧ slug ∉ owner.taken excludeId t s ∧
      ∀ m < k, candidate text (counter + m) ∈ owner.taken excludeId t s := by
  induction attempts generalizing counter s with
  | zero => cases h
  | succ attempts ih =>
      obtain ⟨taken, s₁, hlookup, hrest⟩ := Machine.evaluates_bind_ok.mp h
      obtain ⟨htaken, rfl⟩ := taken_of_evaluates hlookup
      cases taken with
      | true =>
          obtain ⟨k, hslug, hfree, hall⟩ := ih hrest
          have hcounter (m : ℕ) : counter + 1 + m = counter + (m + 1) := by omega
          refine ⟨k + 1, by rw [hslug, hcounter], by simpa using hfree, fun m hm => ?_⟩
          cases m with
          | zero => exact of_decide_eq_true htaken.symm
          | succ m =>
              have hmem := hall m (by omega)
              rwa [Owner.taken_looked, hcounter] at hmem
      | false =>
          obtain ⟨heq, -⟩ := Machine.evaluates_pure.mp hrest
          have hslug : slug = candidate text counter := Except.ok.inj heq
          refine ⟨0, hslug, ?_, fun m hm => (Nat.not_lt_zero m hm).elim⟩
          rw [hslug]
          exact of_decide_eq_false htaken.symm

/-- The text reads as the name does. -/
def Spells (text name : String) : Prop := slugWords text = words isHyphen name.toList

theorem toSlug_eq_of_spells {name : String} (h : Spells text name)
    (hname : ['-'].intercalate (words isHyphen name.toList) = name.toList) :
    toSlug text = name := by
  rw [← String.toList_inj, toSlug_eq_words, h, hname]

theorem joined_of_fixed {name : String} (h : name ∈ owner.fixed) :
    ['-'].intercalate (words isHyphen name.toList) = name.toList := by
  cases owner with
  | users => cases h
  | roles =>
      simp only [Owner.fixed, List.mem_cons, List.not_mem_nil, or_false] at h
      rcases h with rfl | rfl <;> decide

/-- A number at the end makes no name that has a route of its own. -/
theorem candidate_succ_not_fixed (text : String) (n : ℕ) :
    candidate text (n + 1) ∉ owner.fixed := by
  intro h
  obtain ⟨d, hlast, hdigit⟩ := last_candidate_succ text n
  cases owner with
  | users => cases h
  | roles =>
      have haccess : "access-list".toList.getLast? = some 't' := by decide
      have htypes : "user-types".toList.getLast? = some 's' := by decide
      simp only [Owner.fixed, List.mem_cons, List.not_mem_nil, or_false] at h
      rcases h with h | h
      · rw [h, haccess] at hlast
        cases hlast
        cases hdigit
      · rw [h, htypes] at hlast
        cases hlast
        cases hdigit

/-- The record can be addressed exactly when its text has a letter or a digit and does not read
as a free name that has a route of its own. -/
theorem slug_addressable_iff (setup : Setup) (owner : Owner) (excludeId : Option ℕ)
    (text : String) (t : ℕ) (s s' : State) (slug : String)
    (h : (system setup).Evaluates t (makeUniqueSlug setup text (owner.checkExists excludeId)) s
      (.ok slug) s') :
    Addressable slug ∧ owner.Reached slug ↔
      HasSlugChar text ∧
        ∀ name ∈ owner.fixed, Spells text name → name ∈ owner.taken excludeId t s := by
  obtain ⟨k, hslug, hfree, htaken⟩ := first_free_of_evaluates h
  rw [Nat.zero_add] at hslug
  have hshape : Addressable slug ↔ HasSlugChar text := by
    rw [hslug]
    exact addressable_candidate_iff text k
  rw [hshape]
  refine and_congr_right fun hchar => ?_
  rw [(hshape.mpr hchar).reached_iff]
  constructor
  · intro hfixed name hname hspells
    by_contra hnot
    have hbase := toSlug_eq_of_spells hspells (joined_of_fixed hname)
    cases k with
    | zero =>
        have hzero : slug = toSlug text := hslug
        exact hfixed (by rwa [hzero, hbase])
    | succ k =>
        have hzero := htaken 0 (Nat.zero_lt_succ k)
        exact hnot (hbase ▸ hzero)
  · intro hall hfixed
    cases k with
    | zero =>
        have hzero : slug = toSlug text := hslug
        refine hfree (hall slug hfixed ?_)
        rw [Spells, ← words_toSlug, hzero]
    | succ k => exact candidate_succ_not_fixed text k (hslug ▸ hfixed)

/-- The slug of a text when nothing is taken. -/
theorem evaluates_untaken (owner : Owner) {text base : String} (h : toSlug text = base) :
    (system plainSetup).Evaluates 0 (makeUniqueSlug plainSetup text (owner.checkExists none))
      (plainState .empty) (.ok base) (owner.looked 0 (plainState .empty)) := by
  subst h
  cases owner <;> exact .call {} none rfl (.ret _ _)

/-- One role, whose slug has a route of its own. -/
def listed : State :=
  { plainState .empty with
    db.roles := oneRow 1
      { title := "Access List", slug := "access-list", userType := "internal", description := none
        access := [], deletedAt := none } }

theorem evaluates_listed (text : String) (h : toSlug text = "access-list") :
    ∃ s', (system plainSetup).Evaluates 0
      (makeUniqueSlug plainSetup text (Owner.roles.checkExists none)) listed (.ok "access-list-1")
      s' := by
  have hsecond : "access-list" ++ "-" ++ toString (0 + 1) = "access-list-1" := by decide
  refine ⟨Owner.roles.looked 0 (Owner.roles.looked 0 listed), ?_⟩
  rw [makeUniqueSlug, h, ← hsecond]
  exact .call {} (some _) rfl (.call {} none rfl (.ret _ _))

theorem slug_addressable_numbered :
    Addressable "access-list-1" ∧ Owner.roles.Reached "access-list-1" := by
  have htext : HasSlugChar "Access List" := ⟨'A', by decide, 'a', by decide, by decide⟩
  have htaken : "access-list" ∈ Owner.roles.taken none 0 listed := by decide
  obtain ⟨s', h⟩ := evaluates_listed "Access List" (by decide +kernel)
  refine (slug_addressable_iff plainSetup .roles none "Access List" 0 listed s' _ h).mpr
    ⟨htext, fun name hname hspells => ?_⟩
  simp only [Owner.fixed, List.mem_cons, List.not_mem_nil, or_false] at hname
  rcases hname with rfl | rfl
  · exact htaken
  · have hother : ¬ Spells "Access List" "user-types" := by
      unfold Spells
      decide +kernel
    exact (hother hspells).elim

/-- A text without ASCII letters and digits has an empty slug, and a title may read as a route. -/
theorem slug_not_reached :
    (∃ s', (system plainSetup).Evaluates 0
      (makeUniqueSlug plainSetup "李" (Owner.users.checkExists none)) (plainState .empty) (.ok "")
      s') ∧ ¬ Addressable "" ∧ ¬ Owner.users.Reached "" ∧
    (∃ s', (system plainSetup).Evaluates 0
      (makeUniqueSlug plainSetup "Access List" (Owner.roles.checkExists none)) (plainState .empty)
      (.ok "access-list") s') ∧ ¬ Owner.roles.Reached "access-list" := by
  refine ⟨⟨_, evaluates_untaken .users (by decide +kernel)⟩, fun h => h.nonempty rfl, fun h => ?_,
    ⟨_, evaluates_untaken .roles (by decide +kernel)⟩, fun h => ?_⟩
  · have hindex : recordHandler .get (Owner.users.path "") = some ("/users", .index, none) := by
      decide +kernel
    cases hindex.symm.trans h.shown
  · have hlist : recordHandler .get (Owner.roles.path "access-list") =
        some ("/roles", .accessList, none) := by
      decide +kernel
    cases hlist.symm.trans h.shown

end ExpressCore.Candidates
