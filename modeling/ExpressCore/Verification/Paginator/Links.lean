import ExpressCore.Model.Lists
import ExpressCore.Verification.Paginator.Pages

/-! # Where the links of a page lead -/

namespace ExpressCore.Pages

variable {B ρ R : Type} {dm : DataModel} {model : PrismaDelegate B ρ}
  {options : PaginateOptions B ρ R} {req : PageRequest} {result : PaginatedResult R}
  {parse : String → List (String × QueryValue)} {handler : ListHandler} {url : String} {k : ℕ∞}

/-! ## The property -/

/-- Requesting `url` reaches the list again, with page `k` and all else as in `req`. `parse` is
the query parser. -/
def LeadsTo (parse : String → List (String × QueryValue)) (options : PaginateOptions B ρ R)
    (handler : ListHandler) (req : PageRequest) (url : String) (k : ℕ∞) : Prop :=
  ∃ path query inner, '?' ∉ path ∧
    url = req.protocol ++ "://" ++ req.host.getD "undefined" ++ String.ofList path ++ "?" ++ query ∧
    listHandler path = some (handler, inner) ∧
    ∃ req' : PageRequest, req' = { req with path := String.ofList inner, query := parse query } ∧
      req'.perPage = req.perPage ∧ req'.search = req.search ∧
      req'.sortBy options = req.sortBy options ∧ req'.sortDir options = req.sortDir options ∧
      req'.page = k

/-- The links of a page with the pages they name. -/
inductive Names (result : PaginatedResult R) : String → ℕ∞ → Prop where
  | first : Names result result.info.first_page_url 1
  | last : Names result result.info.last_page_url result.info.last_page
  | next (url : String) : result.info.next_page_url = some url →
      Names result url (result.info.current_page + 1)
  | prev (url : String) : result.info.prev_page_url = some url →
      Names result url (result.info.current_page - 1)
  | numbered (link : PageLink) (url : String) (k : ℕ) : link ∈ result.links →
      link.url = some url → link.label = toString k → Names result url k

def LinksLead (parse : String → List (String × QueryValue)) (options : PaginateOptions B ρ R)
    (handler : ListHandler) (req : PageRequest) (result : PaginatedResult R) : Prop :=
  ∀ url k, Names result url k → LeadsTo parse options handler req url k

/-! ## Paths inside a router -/

/-- Inside the routers of the lists a path does not begin as the routers are mounted. -/
theorem mounted_none_of_isRoot {path : List Char} (h : isRoot path = true) :
    mounted "/api/v1" path = none := by
  simp only [isRoot, Bool.or_eq_true, beq_iff_eq] at h
  rcases h with rfl | rfl <;> decide

theorem eq_cons_of_mounted {pre : String} {path rest : List Char} {first second : Char}
    {others : List Char} (hpre : pre.toList = first :: second :: others)
    (h : mounted pre path = some rest) :
    ∃ c d tail, path = c :: d :: tail ∧ d.toLower = second := by
  unfold mounted at h
  split at h
  · rename_i heq
    rw [hpre] at heq
    cases path with
    | nil => simp at heq
    | cons c path =>
        cases path with
        | nil => simp at heq
        | cons d tail =>
            simp only [List.length_cons, List.take_succ_cons, List.map_cons, List.cons.injEq] at heq
            exact ⟨c, d, tail, rfl, heq.2.1⟩
  · cases h

theorem mounted_none_of_userLogs {path : List Char} {userId : String}
    (h : userLogsRoute path = some userId) : mounted "/api/v1" path = none := by
  cases hapi : mounted "/api/v1" path with
  | none => rfl
  | some inner =>
      unfold userLogsRoute at h
      cases huser : mounted "/user" path with
      | none => simp [huser] at h
      | some rest =>
          have hapiChars : "/api/v1".toList = '/' :: 'a' :: ['p', 'i', '/', 'v', '1'] := by decide
          have huserChars : "/user".toList = '/' :: 'u' :: ['s', 'e', 'r'] := by decide
          obtain ⟨c, d, tail, rfl, hd⟩ := eq_cons_of_mounted hapiChars hapi
          obtain ⟨c', d', tail', heq, hd'⟩ := eq_cons_of_mounted huserChars huser
          injection heq with _ heq
          injection heq with heq _
          subst heq
          rw [hd] at hd'
          cases hd'

/-- The path inside the router of a list is not that of a list. -/
theorem inner_not_list {full inner : List Char} (h : listHandler full = some (handler, inner)) :
    listHandler inner = none := by
  have hnone (hinner : mounted "/api/v1" inner = none) : listHandler inner = none := by
    rw [listHandler, hinner, Option.bind_none]
  obtain ⟨path, -, hrouters⟩ := Option.bind_eq_some_iff.mp h
  obtain ⟨router, hrouter, hfound⟩ := List.exists_of_findSome?_eq_some hrouters
  obtain ⟨path', -, hhandler⟩ := Option.bind_eq_some_iff.mp hfound
  obtain ⟨handler', hroute, heq⟩ := Option.map_eq_some_iff.mp hhandler
  cases heq
  have hroot (other : ListHandler) (hother : rootRoute other inner = some handler) :
      listHandler inner = none := by
    unfold rootRoute at hother
    split at hother
    · rename_i hisRoot
      exact hnone (mounted_none_of_isRoot hisRoot)
    · cases hother
  simp only [listRouters, List.mem_cons, List.not_mem_nil, or_false] at hrouter
  rcases hrouter with rfl | rfl | rfl | rfl
  · exact hroot _ hroute
  · exact hroot _ hroute
  · simp only [activityLogRoutes] at hroute
    split at hroute
    · rename_i hisRoot
      cases hroute
      exact hroot _ hisRoot
    · obtain ⟨userId, huser, -⟩ := Option.map_eq_some_iff.mp hroute
      exact hnone (mounted_none_of_userLogs huser)
  · exact hroot _ hroute

/-! ## The claim about links -/

/-- Links are built on the path inside the router. -/
theorem names_buildUrl (h : paginate dm model options req = .ok result)
    (hnames : Names result url k) : ∃ p, url = req.buildUrl p := by
  cases hw : req.finalWhere dm options with
  | error message =>
      simp only [paginate, hw] at h
      cases h
  | ok w =>
      simp only [paginate, hw] at h
      cases h
      have hsome {condition : Prop} [Decidable condition] {p : ℕ∞}
          (hurl : (if condition then some (req.buildUrl p) else none) = some url) :
          ∃ p, url = req.buildUrl p := by
        split at hurl
        · exact ⟨p, (Option.some.inj hurl).symm⟩
        · cases hurl
      cases hnames with
      | first => exact ⟨_, rfl⟩
      | last => exact ⟨_, rfl⟩
      | next url hurl => exact hsome hurl
      | prev url hurl => exact hsome hurl
      | numbered link url k hlink hurl _ =>
          rcases List.mem_append.mp hlink with hlink | hlink
          · rcases List.mem_append.mp hlink with hlink | hlink
            · obtain rfl := List.mem_singleton.mp hlink
              exact hsome hurl
            · obtain ⟨i, -, rfl⟩ := List.mem_map.mp hlink
              exact ⟨_, (Option.some.inj hurl).symm⟩
          · obtain rfl := List.mem_singleton.mp hlink
            exact hsome hurl

/-- The path of a link is `req.path`. -/
theorem path_of_buildUrl {inner path : List Char} {query : String} {p : ℕ∞}
    (hpath : req.path = String.ofList inner) (hinner : '?' ∉ inner) (hquery : '?' ∉ path)
    (h : req.buildUrl p = req.protocol ++ "://" ++ req.host.getD "undefined" ++
      String.ofList path ++ "?" ++ query) : path = inner := by
  have hmark : "?".toList = ['?'] := by decide
  have hchars := congrArg String.toList h
  simp only [PageRequest.buildUrl, PageRequest.basePath, hpath, String.toList_append,
    List.append_assoc, String.toList_ofList, hmark, List.cons_append, List.nil_append,
    List.append_cancel_left_eq] at hchars
  have hstop {xs ys : List Char} (hxs : '?' ∉ xs) :
      (xs ++ '?' :: ys).takeWhile (· != '?') = xs := by
    have hall (c : Char) (hc : c ∈ xs) : (c != '?') = true := by
      rw [bne_iff_ne]
      rintro rfl
      exact hxs hc
    rw [List.takeWhile_append_of_pos hall]
    simp
  have htake := congrArg (List.takeWhile (· != '?')) hchars
  rw [hstop hinner, hstop hquery] at htake
  exact htake.symm

theorem mem_of_mem_mounted {pre : String} {path rest : List Char} (h : mounted pre path = some rest)
    {c : Char} (hc : c ∈ rest) : c = '/' ∨ c ∈ path := by
  unfold mounted at h
  split at h
  · split at h
    · cases h
      exact .inl (List.mem_singleton.mp hc)
    · rename_i hdrop
      cases h
      exact .inr (List.mem_of_mem_drop (hdrop ▸ hc))
    · cases h
  · cases h

theorem mem_of_mem_inner {full inner : List Char} (h : listHandler full = some (handler, inner))
    {c : Char} (hc : c ∈ inner) : c = '/' ∨ c ∈ full := by
  obtain ⟨path, hpath, hrouters⟩ := Option.bind_eq_some_iff.mp h
  obtain ⟨router, -, hfound⟩ := List.exists_of_findSome?_eq_some hrouters
  obtain ⟨path', hpath', hhandler⟩ := Option.bind_eq_some_iff.mp hfound
  obtain ⟨_, -, heq⟩ := Option.map_eq_some_iff.mp hhandler
  cases heq
  rcases mem_of_mem_mounted hpath' hc with heq | hmem
  · exact .inl heq
  · exact mem_of_mem_mounted hpath hmem

/-- No link of a list leads to the page it names, whatever was asked for. -/
theorem no_link_leads (dm : DataModel) (model : PrismaDelegate B ρ)
    (options : PaginateOptions B ρ R) (parse : String → List (String × QueryValue))
    {full inner : List Char} (hroute : listHandler full = some (handler, inner))
    (hurl : '?' ∉ full) (hpath : req.path = String.ofList inner)
    (h : paginate dm model options req = .ok result) :
    (∀ url k, Names result url k → ¬ LeadsTo parse options handler req url k) ∧
      ¬ LinksLead parse options handler req result := by
  have hnever (url : String) (k : ℕ∞) (hnames : Names result url k) :
      ¬ LeadsTo parse options handler req url k := by
    rintro ⟨path, query, inner', hquery, heq, hhandler, -⟩
    obtain ⟨p, rfl⟩ := names_buildUrl h hnames
    have hinner : '?' ∉ inner := by
      intro hmem
      rcases mem_of_mem_inner hroute hmem with hslash | hfull
      · cases hslash
      · exact hurl hfull
    have hsame := path_of_buildUrl hpath hinner hquery heq
    rw [hsame, inner_not_list hroute] at hhandler
    cases hhandler
  exact ⟨hnever, fun hlead => hnever _ 1 .first (hlead _ 1 .first)⟩

/-- `GET /api/v1/users` as the handler sees it. -/
def usersRequest : PageRequest where
  protocol := "http"
  host := some "test.invalid"
  path := "/"
  query := []

/-- The query parser on the links of `usersRequest`. -/
def parsePage (query : String) : List (String × QueryValue) :=
  [("page", .string (String.ofList (query.toList.drop 5)))]

theorem no_link_leads_users :
    ∃ result, paginate noModels (sorting Unit [3, 1, 2] (by decide) columnOf fun _ _ => true) numbers
        usersRequest = .ok result ∧
      result.info.first_page_url = "http://test.invalid/?page=1" ∧
      ¬ LeadsTo parsePage numbers .users usersRequest result.info.first_page_url 1 := by
  obtain ⟨result, hresult⟩ : ∃ result, paginate noModels
      (sorting Unit [3, 1, 2] (by decide) columnOf fun _ _ => true) numbers usersRequest =
        .ok result := ⟨_, rfl⟩
  have hroute : listHandler "/api/v1/users".toList = some (.users, ['/']) := by decide
  refine ⟨result, hresult, ?_, (no_link_leads noModels _ numbers parsePage hroute (by decide) rfl
    hresult).1 _ 1 .first⟩
  have hfirst : usersRequest.buildUrl 1 = "http://test.invalid/?page=1" := by decide +kernel
  cases hresult
  exact hfirst

/-- The list of users is asked for, and its first page is said to be at `/`. -/
theorem users_link_astray :
    ∃ result, listHandler "/api/v1/users".toList = some (.users, usersRequest.path.toList) ∧
      paginate noModels (sorting Unit [3, 1, 2] (by decide) columnOf fun _ _ => true) numbers usersRequest =
        .ok result ∧ ¬ LinksLead parsePage numbers .users usersRequest result := by
  refine ⟨_, by decide, rfl, fun hlead => ?_⟩
  obtain ⟨path, query, inner, hquery, heq, hhandler, -⟩ := hlead _ 1 .first
  have hpath : path = ['/'] := path_of_buildUrl rfl (by decide) hquery heq
  subst hpath
  have hnone : listHandler ['/'] = none := by decide
  rw [hnone] at hhandler
  cases hhandler

end ExpressCore.Pages
