import ExpressCore.Model.Paginator
import ExpressCore.Verification.System.Characters
import Mathlib.Data.Nat.Basic
import Mathlib.Order.Defs.LinearOrder

/-! # What is on a page -/

namespace ExpressCore.Pages

variable {B ρ R V : Type}

/-! ## Numbers in a query -/

theorem decimalDigit_of_isDigit {c : Char} (h : c.isDigit = true) :
    decimalDigit c = some (c.toNat - '0'.toNat) := if_pos h

theorem map_decimalDigit {cs : List Char} (h : ∀ c ∈ cs, c.isDigit = true) :
    cs.map decimalDigit = cs.map fun c => some (c.toNat - '0'.toNat) :=
  List.map_congr_left fun c hc => decimalDigit_of_isDigit (h c hc)

theorem parseDigits_decimal {cs : List Char} (hne : cs ≠ []) (h : ∀ c ∈ cs, c.isDigit = true) :
    parseDigits 10 decimalDigit cs = some (Nat.ofDigitChars 10 cs 0) := by
  have hall : (cs.map decimalDigit).takeWhile Option.isSome =
      cs.map fun c => some (c.toNat - '0'.toNat) := by
    rw [map_decimalDigit h]
    let digits : List (Option ℕ) := cs.map fun c => some (c.toNat - '0'.toNat)
    have happend : (digits ++ []).takeWhile Option.isSome =
        digits ++ ([] : List (Option ℕ)).takeWhile Option.isSome :=
      List.takeWhile_append_of_pos (by simp [digits])
    simpa [digits] using happend
  have hsome : (cs.map fun c => some (c.toNat - '0'.toNat)) ≠ [] := by simpa using hne
  simp only [parseDigits, hall, if_neg hsome, List.foldl_map, Option.getD_some,
    Nat.ofDigitChars_eq_foldl]

theorem parseUnsigned_decimal {cs : List Char} (hne : cs ≠ []) (h : ∀ c ∈ cs, c.isDigit = true) :
    parseUnsigned cs = some (Nat.ofDigitChars 10 cs 0) := by
  unfold parseUnsigned
  split
  · exact absurd (h 'x' (.tail _ (.head _))) (by decide)
  · exact absurd (h 'X' (.tail _ (.head _))) (by decide)
  · exact parseDigits_decimal hne h

/-- A page number comes back from its decimal form, as the nearest double. -/
theorem parseInt_toString (n : ℕ) : parseInt (toString n) = some (false, Binary64.ofNat n) := by
  have hchars : (toString n).toList = Nat.toDigits 10 n := by simp
  have hdigits (c : Char) (hc : c ∈ Nat.toDigits 10 n) : c.isDigit = true :=
    Nat.isDigit_of_mem_toDigits (by decide) (by decide) hc
  have hkept : (Nat.toDigits 10 n).dropWhile isSpace = Nat.toDigits 10 n := by
    cases hdigits' : Nat.toDigits 10 n with
    | nil => rfl
    | cons c cs =>
        have hspace := isSpace_of_isDigit (hdigits c (hdigits' ▸ .head _))
        simp [hspace]
  have hvalue := parseUnsigned_decimal Nat.toDigits_ne_nil hdigits
  rw [Nat.ofDigitChars_ten_toDigits] at hvalue
  unfold parseInt
  rw [hchars, hkept]
  split
  · rename_i rest heq
    exact absurd (hdigits '-' (heq ▸ .head _)) (by decide)
  · rename_i rest heq
    exact absurd (hdigits '+' (heq ▸ .head _)) (by decide)
  · rw [hvalue]
    rfl

theorem parsePositive_toString {n : ℕ} (hn : 0 < n) (other : ℕ) :
    parsePositive (toString n) other = Binary64.ofNat n := by
  have hcast : ((1 : ℕ) : ℕ∞) ≤ (n : ℕ∞) := by exact_mod_cast hn
  have hone : 1 ≤ Binary64.ofNat n := by
    simpa [Binary64.round_coe] using Binary64.le_round (by decide) hcast
  have hne : Binary64.ofNat n ≠ 0 := by
    intro hzero
    simp [hzero] at hone
  rw [parsePositive, parseInt_toString]
  simp [hne, Binary64.atLeast_of_le hone]

theorem one_le_parsePositive (s : String) (other : ℕ) : 1 ≤ parsePositive s other := by
  unfold parsePositive
  split
  · exact Binary64.le_atLeast
  · split
    · exact Binary64.le_atLeast
    · split
      · exact le_refl 1
      · exact Binary64.le_atLeast

/-! ## Requests for a page -/

/-- The same request for page `k`. -/
def atPage (req : PageRequest) (k : ℕ) : PageRequest :=
  { req with
    query := ("page", .string (toString k)) :: req.query.filter fun x => x.1 ≠ "page" }

variable {dm : DataModel} {model : PrismaDelegate B ρ} {options : PaginateOptions B ρ R}
  {req : PageRequest} {k : ℕ} {w : PageWhere B} {result : PaginatedResult R}

theorem atPage_page (hk : 0 < k) : (atPage req k).page = Binary64.ofNat k := by
  have hparam : (atPage req k).param "page" = some (toString k) := rfl
  rw [PageRequest.page, hparam, Option.getD_some, parsePositive_toString hk]

theorem atPage_param {name : String} (hname : name ≠ "page") :
    (atPage req k).param name = req.param name := by
  have hne : ("page" == name) = false := by simpa using Ne.symm hname
  have hfind : (req.query.filter fun x => x.1 ≠ "page").find? (fun x => x.1 == name) =
      req.query.find? fun x => x.1 == name := by
    rw [List.find?_filter]
    refine congrFun (congrArg List.find? (funext fun x => ?_)) req.query
    by_cases heq : x.1 = name
    · simp [heq, hname]
    · simp [heq]
  simp only [PageRequest.param, atPage, List.find?_cons, hne, hfind]

theorem atPage_perPage : (atPage req k).perPage = req.perPage := by
  rw [PageRequest.perPage, PageRequest.perPage, atPage_param (by decide)]

theorem atPage_orderBy : (atPage req k).orderBy options = req.orderBy options := by
  have hby : (atPage req k).sortByParam = req.sortByParam := by
    rw [PageRequest.sortByParam, PageRequest.sortByParam, atPage_param (by decide)]
  have hdir : (atPage req k).sortDirParam = req.sortDirParam := by
    rw [PageRequest.sortDirParam, PageRequest.sortDirParam, atPage_param (by decide)]
  have hsortBy : (atPage req k).sortBy options = req.sortBy options := by
    rw [PageRequest.sortBy, PageRequest.sortBy, hby]
  have hsortDir : (atPage req k).sortDir options = req.sortDir options := by
    rw [PageRequest.sortDir, PageRequest.sortDir, hdir]
  rw [PageRequest.orderBy, PageRequest.orderBy, hsortBy, hsortDir]

theorem atPage_finalWhere : (atPage req k).finalWhere dm options = req.finalWhere dm options := by
  have hsearch : (atPage req k).search = req.search := by
    rw [PageRequest.search, PageRequest.search, atPage_param (by decide)]
  simp only [PageRequest.finalWhere, hsearch]

theorem perPage_bounds : 1 ≤ req.perPage ∧ req.perPage ≤ 100 :=
  ⟨Binary64.le_atMost (by decide) (one_le_parsePositive _ _), Binary64.atMost_le⟩

theorem page_pos : 1 ≤ req.page := one_le_parsePositive _ _

/-! ## The rows of a page -/

variable [LinearOrder V]

/-- `x` may stand before `y` under ORDER BY. -/
def Precedes (column : String → ρ → V) : List (String × SortDir) → ρ → ρ → Prop
  | [], _, _ => True
  | (name, .asc) :: rest, x, y =>
      column name x < column name y ∨ column name x = column name y ∧ Precedes column rest x y
  | (name, .desc) :: rest, x, y =>
      column name y < column name x ∨ column name x = column name y ∧ Precedes column rest x y

/-- The rows after the first `skip` ones. -/
def dropRows {α : Type} : ℕ∞ → List α → List α
  | ⊤, _ => []
  | (n : ℕ), xs => xs.drop n

/-- A delegate for `rows`: a page is a slice of the matching rows in an order that ORDER BY
allows, which need not be the same order each time. -/
structure Serves (model : PrismaDelegate B ρ) (rows : List ρ) (column : String → ρ → V)
    (holds : PageWhere B → ρ → Bool) : Prop where
  findMany : ∀ args, ∃ ordered : List ρ, ordered.Perm (rows.filter (holds args.filter)) ∧
    ordered.Pairwise (Precedes column args.orderBy) ∧
      model.findMany args = (dropRows args.skip ordered).take args.take
  count : ∀ w, (model.count w).val = (rows.filter (holds w)).length

variable {rows : List ρ} {column : String → ρ → V} {holds : PageWhere B → ρ → Bool}

theorem Precedes.column_eq {orderBy : List (String × SortDir)} {x y : ρ} {name : String}
    (hxy : Precedes column orderBy x y) (hyx : Precedes column orderBy y x)
    (hname : name ∈ orderBy.map Prod.fst) : column name x = column name y := by
  induction orderBy with
  | nil => cases hname
  | cons head rest ih =>
      obtain ⟨first, dir⟩ := head
      have hboth : column first x = column first y ∧ Precedes column rest x y ∧
          Precedes column rest y x := by
        cases dir <;>
          rcases hxy with hlt | ⟨heq, hxy⟩ <;> rcases hyx with hlt' | ⟨heq', hyx⟩
        all_goals first
          | exact ⟨heq, hxy, hyx⟩
          | exact (lt_asymm hlt hlt').elim
          | exact absurd heq' (ne_of_gt ‹_›)
          | exact absurd heq (ne_of_gt ‹_›)
          | exact absurd heq' (ne_of_lt ‹_›)
          | exact absurd heq (ne_of_lt ‹_›)
      rcases List.mem_cons.mp hname with rfl | hrest
      · exact hboth.1
      · exact ih hboth.2.1 hboth.2.2 hrest

/-- The tie-breaker is the last column of ORDER BY, or the column that is sorted by. -/
theorem tieBreaker_mem {tieBreaker : String} (htie : options.tieBreaker = some tieBreaker)
    (hne : tieBreaker ≠ "") : tieBreaker ∈ (req.orderBy options).map Prod.fst := by
  by_cases heq : tieBreaker = req.sortBy options
  · simp [PageRequest.orderBy, ← heq]
  · simp [PageRequest.orderBy, htie, hne, heq, Option.filter]

/-- A delegate has no choice between two orders of rows with distinct tie-breakers. -/
theorem ordered_unique {tieBreaker : String} {orderBy : List (String × SortDir)}
    {matching ordered ordered' : List ρ} (hmem : tieBreaker ∈ orderBy.map Prod.fst)
    (hdistinct : ∀ x ∈ matching, ∀ y ∈ matching, column tieBreaker x = column tieBreaker y → x = y)
    (hperm : ordered.Perm matching) (hperm' : ordered'.Perm matching)
    (hsorted : ordered.Pairwise (Precedes column orderBy))
    (hsorted' : ordered'.Pairwise (Precedes column orderBy)) : ordered = ordered' :=
  List.Perm.eq_of_pairwise (fun x y hx hy hxy hyx => hdistinct x (hperm.mem_iff.mp hx) y
    (hperm'.mem_iff.mp hy) (hxy.column_eq hyx hmem)) hsorted hsorted' (hperm.trans hperm'.symm)

/-- How many rows are skipped. -/
def skipOf (req : PageRequest) : ℕ∞ :=
  Binary64.round (Binary64.round (req.page - 1) * req.perPage)

/-- What `paginate` answers, given the filter. -/
theorem paginate_ok (hw : req.finalWhere dm options = .ok w)
    (h : paginate dm model options req = .ok result) :
    result.data = (model.findMany
        { filter := w, orderBy := req.orderBy options, skip := skipOf req
          take := req.perPage }).map options.transform ∧
      result.info.total = model.count w ∧
      result.info.last_page = max 1 (ceilDiv (model.count w) req.perPage) ∧
      result.info.first = (if (model.count w).val = 0 then none
        else some (Binary64.round (skipOf req + 1))) ∧
      result.info.last = (if (model.count w).val = 0 then none
        else some ((Binary64.atMost (model.count w).val
          (Binary64.round (skipOf req + req.perPage)) : ℕ) : ℕ∞)) := by
  simp only [paginate, hw] at h
  cases h
  exact ⟨rfl, rfl, rfl, rfl, rfl⟩

/-- Consecutive slices of `p` rows make up the list. -/
theorem slices_flatten {α : Type} (xs : List α) {p : ℕ} (pages : ℕ)
    (hlast : xs.length ≤ pages * p) :
    (List.range pages).flatMap (fun i => (xs.drop (i * p)).take p) = xs := by
  have hslices (n : ℕ) : (List.range n).flatMap (fun i => (xs.drop (i * p)).take p) =
      xs.take (n * p) := by
    induction n with
    | zero => simp
    | succ n ih =>
        rw [List.range_succ, List.flatMap_append, ih, List.flatMap_singleton, Nat.succ_mul,
          List.take_add]
  rw [hslices, List.take_of_length_le hlast]

theorem le_ceilDiv_mul {n p : ℕ} (hp : 0 < p) : n ≤ ceilDiv n p * p := by
  have hdiv := Nat.div_add_mod (n + p - 1) p
  have hmod := Nat.mod_lt (n + p - 1) hp
  have hcomm : p * ((n + p - 1) / p) = ceilDiv n p * p := Nat.mul_comm _ _
  omega

theorem ceilDiv_le {n p pages : ℕ} (hp : 1 ≤ p) (h : n ≤ pages * p) : ceilDiv n p ≤ pages := by
  have hsum : n + p - 1 < p * (pages + 1) := by
    rw [Nat.mul_succ, Nat.mul_comm p pages]
    omega
  exact Nat.lt_succ_iff.mp (Nat.div_lt_of_lt_mul hsum)

/-- A page within the last one begins before the end of the rows. -/
theorem skip_lt {n p page : ℕ} (hp : 0 < p) (hpage : 1 ≤ page) (hn : 0 < n) :
    (page - 1) * p < n ↔ page ≤ ceilDiv n p := by
  rw [ceilDiv, Nat.le_div_iff_mul_le hp]
  obtain ⟨k, rfl⟩ : ∃ k, page = k + 1 := ⟨page - 1, by omega⟩
  have hmul : (k + 1) * p = k * p + p := Nat.succ_mul k p
  rw [Nat.add_sub_cancel, hmul]
  omega

/-! ## Pages as doubles -/

/-- On a page that can have rows the number of rows before it is exact. -/
theorem skipOf_eq {page n : ℕ} (hpage : req.page = page) (hn : n < 2 ^ 53)
    (hskip : (page - 1) * req.perPage < n) : skipOf req = ((page - 1) * req.perPage : ℕ) := by
  have hle : page - 1 ≤ (page - 1) * req.perPage := Nat.le_mul_of_pos_right _ perPage_bounds.1
  have hcast : (page : ℕ∞) - 1 = (page - 1 : ℕ) := by simp
  rw [skipOf, hpage, hcast, Binary64.round_of_lt (by omega), ← Nat.cast_mul,
    Binary64.round_of_lt (by omega)]

theorem lastPage_le {n p : ℕ} (hp : 1 ≤ p) (hn : n < 2 ^ 53) : ceilDiv n p < 2 ^ 53 :=
  Nat.lt_of_le_of_lt (ceilDiv_le hp (Nat.le_mul_of_pos_right n hp)) hn

/-- On the pages beyond the last one all rows are skipped. -/
theorem le_skipOf {n : ℕ} (hn : n < 2 ^ 53)
    (hpage : (ceilDiv n req.perPage + 1 : ℕ) ≤ req.page) : (n : ℕ∞) ≤ skipOf req := by
  have hp : 1 ≤ req.perPage := perPage_bounds.1
  have hbefore : (ceilDiv n req.perPage : ℕ∞) ≤ req.page - 1 := by
    cases hfinite : req.page with
    | top => exact le_top
    | coe page =>
        rw [hfinite] at hpage
        have hle : ceilDiv n req.perPage + 1 ≤ page := by exact_mod_cast hpage
        have hcast : (page : ℕ∞) - 1 = (page - 1 : ℕ) := by simp
        rw [hcast]
        exact_mod_cast (by omega : ceilDiv n req.perPage ≤ page - 1)
  have hmul : ((ceilDiv n req.perPage * req.perPage : ℕ) : ℕ∞) ≤
      Binary64.round (req.page - 1) * req.perPage := by
    rw [Nat.cast_mul]
    gcongr
    exact Binary64.le_round (Nat.le_of_lt (lastPage_le hp hn)) hbefore
  have hcovered : (n : ℕ∞) ≤ (ceilDiv n req.perPage * req.perPage : ℕ) := by
    exact_mod_cast le_ceilDiv_mul (by omega)
  exact Binary64.le_round (Nat.le_of_lt hn) (le_trans hcovered hmul)

theorem dropRows_eq_nil {α : Type} {xs : List α} {skip : ℕ∞} (h : (xs.length : ℕ∞) ≤ skip) :
    dropRows skip xs = [] := by
  cases skip with
  | top => rfl
  | coe n => exact List.drop_of_length_le (by exact_mod_cast h)

/-! ## Tables -/

theorem Precedes.trans {orderBy : List (String × SortDir)} {x y z : ρ}
    (hxy : Precedes column orderBy x y) (hyz : Precedes column orderBy y z) :
    Precedes column orderBy x z := by
  induction orderBy with
  | nil => trivial
  | cons head rest ih =>
      obtain ⟨name, dir⟩ := head
      cases dir with
      | asc =>
          rcases hxy with hlt | ⟨heq, hxy⟩ <;> rcases hyz with hlt' | ⟨heq', hyz⟩
          · exact .inl (lt_trans hlt hlt')
          · exact .inl (heq' ▸ hlt)
          · exact .inl (heq ▸ hlt')
          · exact .inr ⟨heq.trans heq', ih hxy hyz⟩
      | desc =>
          rcases hxy with hlt | ⟨heq, hxy⟩ <;> rcases hyz with hlt' | ⟨heq', hyz⟩
          · exact .inl (lt_trans hlt' hlt)
          · exact .inl (heq' ▸ hlt)
          · exact .inl (heq ▸ hlt')
          · exact .inr ⟨heq.trans heq', ih hxy hyz⟩

theorem Precedes.total (column : String → ρ → V) (orderBy : List (String × SortDir)) (x y : ρ) :
    Precedes column orderBy x y ∨ Precedes column orderBy y x := by
  induction orderBy with
  | nil => exact .inl trivial
  | cons head rest ih =>
      obtain ⟨name, dir⟩ := head
      cases dir <;> rcases lt_trichotomy (column name x) (column name y) with hlt | heq | hgt
      · exact .inl (.inl hlt)
      · exact ih.imp (fun h => .inr ⟨heq, h⟩) (fun h => .inr ⟨heq.symm, h⟩)
      · exact .inr (.inl hgt)
      · exact .inr (.inl hlt)
      · exact ih.imp (fun h => .inr ⟨heq, h⟩) (fun h => .inr ⟨heq.symm, h⟩)
      · exact .inl (.inl hgt)

instance (column : String → ρ → V) (orderBy : List (String × SortDir)) (x y : ρ) :
    Decidable (Precedes column orderBy x y) :=
  match orderBy with
  | [] => .isTrue trivial
  | (name, .asc) :: rest =>
      have : Decidable (Precedes column rest x y) := instDecidablePrecedes column rest x y
      inferInstanceAs (Decidable (column name x < column name y ∨
        column name x = column name y ∧ Precedes column rest x y))
  | (name, .desc) :: rest =>
      have : Decidable (Precedes column rest x y) := instDecidablePrecedes column rest x y
      inferInstanceAs (Decidable (column name y < column name x ∨
        column name x = column name y ∧ Precedes column rest x y))

/-- The delegate of a table that sorts the matching rows for every page. -/
def sorting (B : Type) (rows : List ρ) (hrows : rows.length < 2 ^ 53) (column : String → ρ → V)
    (holds : PageWhere B → ρ → Bool) : PrismaDelegate B ρ where
  findMany args :=
    (dropRows args.skip ((rows.filter (holds args.filter)).mergeSort fun x y =>
      decide (Precedes column args.orderBy x y))).take args.take
  count w := ⟨(rows.filter (holds w)).length, Nat.lt_of_le_of_lt (List.length_filter_le _ _) hrows⟩

theorem sorting_serves {hrows : rows.length < 2 ^ 53} :
    Serves (sorting B rows hrows column holds) rows column holds where
  findMany args := by
    refine ⟨_, List.mergeSort_perm _ _, ?_, rfl⟩
    let le (x y : ρ) : Bool := decide (Precedes column args.orderBy x y)
    have htrans (x y z : ρ) (hxy : le x y = true) (hyz : le y z = true) : le x z = true := by
      simp only [le, decide_eq_true_eq] at *
      exact hxy.trans hyz
    have htotal (x y : ρ) : (le x y || le y x) = true := by
      simp only [le, Bool.or_eq_true, decide_eq_true_eq]
      exact Precedes.total column args.orderBy x y
    have hsorted := List.pairwise_mergeSort htrans htotal (rows.filter (holds args.filter))
    exact hsorted.imp of_decide_eq_true
  count _ := rfl

/-! ## The pages make up the list -/

/-- The matching rows can be counted. -/
theorem Serves.countable (hserves : Serves model rows column holds) (w : PageWhere B) :
    (rows.filter (holds w)).length < 2 ^ 53 := hserves.count w ▸ (model.count w).property

/-- Page `k` is there, and it is a slice of the matching rows. -/
theorem page_exists (hserves : Serves model rows column holds)
    (hw : req.finalWhere dm options = .ok w) {ordered : List ρ}
    (hunique : ∀ other : List ρ, other.Perm (rows.filter (holds w)) →
      other.Pairwise (Precedes column (req.orderBy options)) → other = ordered) (k : ℕ) :
    ∃ result, paginate dm model options (atPage req k) = .ok result ∧
      result.data = ((dropRows (skipOf (atPage req k)) ordered).take req.perPage).map
        options.transform ∧
      result.info.last_page =
        max 1 (ceilDiv (rows.filter (holds w)).length req.perPage) := by
  have hwhere : (atPage req k).finalWhere dm options = .ok w := atPage_finalWhere.trans hw
  obtain ⟨result, hresult⟩ : ∃ result, paginate dm model options (atPage req k) = .ok result := by
    simp only [paginate, hwhere]
    exact ⟨_, rfl⟩
  obtain ⟨hdata, -, hlast, -, -⟩ := paginate_ok hwhere hresult
  obtain ⟨other, hperm, hsorted, hfound⟩ := hserves.findMany
    { filter := w, orderBy := (atPage req k).orderBy options, skip := skipOf (atPage req k)
      take := (atPage req k).perPage }
  have hsame : other = ordered := hunique other hperm (by rwa [← atPage_orderBy (k := k)])
  refine ⟨result, hresult, ?_, ?_⟩
  · rw [hdata, hfound, hsame, atPage_perPage]
  · rw [hlast, hserves.count, atPage_perPage]

/-- Page `k` of a list of pages is a slice, whether or not there are rows on it. -/
theorem dropRows_atPage {n : ℕ} {ordered : List ρ} (hlength : ordered.length = n)
    (hn : n < 2 ^ 53) (hk : 1 ≤ k) :
    (dropRows (skipOf (atPage req k)) ordered).take req.perPage =
      (ordered.drop ((k - 1) * req.perPage)).take req.perPage := by
  have hp : 1 ≤ req.perPage := perPage_bounds.1
  by_cases hskip : (k - 1) * req.perPage < n
  · have hle : k - 1 ≤ (k - 1) * req.perPage := Nat.le_mul_of_pos_right _ hp
    have hpage : (atPage req k).page = k := by
      rw [atPage_page hk, Binary64.ofNat_of_lt (by omega)]
    rw [skipOf_eq hpage hn (by rwa [atPage_perPage]), atPage_perPage]
    rfl
  · have hlast : ceilDiv n req.perPage ≤ k - 1 := ceilDiv_le hp (by omega)
    have hbound : ceilDiv n req.perPage < 2 ^ 53 := lastPage_le hp hn
    have hpage : (ceilDiv n req.perPage + 1 : ℕ) ≤ (atPage req k).page := by
      have hle : ceilDiv n req.perPage + 1 ≤ k := by omega
      rw [atPage_page hk, ← Binary64.round_coe]
      exact Binary64.le_round (by omega) (by exact_mod_cast hle)
    have hbeyond : (n : ℕ∞) ≤ skipOf (atPage req k) := le_skipOf hn (by rwa [atPage_perPage])
    rw [dropRows_eq_nil (by rwa [hlength]), List.drop_of_length_le (by omega)]

/-- The pages `1`, …, `last_page` are the matching rows in the one order that ORDER BY allows,
cut into pieces of at most the page size, and there is nothing on later pages. -/
theorem pages_partition (hserves : Serves model rows column holds) {tieBreaker : String}
    (htie : options.tieBreaker = some tieBreaker) (hne : tieBreaker ≠ "")
    (hdistinct : ((rows.filter (holds w)).map (column tieBreaker)).Nodup)
    (hw : req.finalWhere dm options = .ok w) :
    ∃ ordered : List ρ, ordered.Perm (rows.filter (holds w)) ∧ ordered.Nodup ∧
      ordered.Pairwise (Precedes column (req.orderBy options)) ∧
      (∀ other : List ρ, other.Perm (rows.filter (holds w)) →
        other.Pairwise (Precedes column (req.orderBy options)) → other = ordered) ∧
      ∃ page : ℕ → PaginatedResult R,
        (∀ k, 1 ≤ k → paginate dm model options (atPage req k) = .ok (page k)) ∧
        (∀ k, 1 ≤ k → (page k).info.last_page =
          max 1 (ceilDiv (rows.filter (holds w)).length req.perPage)) ∧
        (∀ k, 1 ≤ k → (page k).data.length ≤ req.perPage) ∧
        ((List.range (max 1 (ceilDiv (rows.filter (holds w)).length req.perPage))).flatMap
          fun i => (page (i + 1)).data) = ordered.map options.transform ∧
        ∀ k, max 1 (ceilDiv (rows.filter (holds w)).length req.perPage) < k →
          (page k).data = [] := by
  obtain ⟨ordered, hperm, hsorted, -⟩ := hserves.findMany
    { filter := w, orderBy := req.orderBy options, skip := 0, take := 0 }
  have hinjective : ∀ x ∈ rows.filter (holds w), ∀ y ∈ rows.filter (holds w),
      column tieBreaker x = column tieBreaker y → x = y :=
    fun x hx y hy heq => List.inj_on_of_nodup_map hdistinct hx hy heq
  have hunique (other : List ρ) (hperm' : other.Perm (rows.filter (holds w)))
      (hsorted' : other.Pairwise (Precedes column (req.orderBy options))) : other = ordered :=
    ordered_unique (tieBreaker_mem htie hne) hinjective hperm' hperm hsorted' hsorted
  choose page hpage hslice hlast using fun i : ℕ => page_exists hserves hw hunique (i + 1)
  have hdata (i : ℕ) : (page i).data =
      ((ordered.drop (i * req.perPage)).take req.perPage).map options.transform := by
    rw [hslice, dropRows_atPage hperm.length_eq (hserves.countable w) (by omega),
      Nat.add_sub_cancel]
  have hp : 1 ≤ req.perPage ∧ req.perPage ≤ 100 := perPage_bounds
  have hcovered : ordered.length ≤
      max 1 (ceilDiv (rows.filter (holds w)).length req.perPage) * req.perPage := by
    rw [hperm.length_eq]
    exact Nat.le_trans (le_ceilDiv_mul (by omega)) (Nat.mul_le_mul_right _ (Nat.le_max_right _ _))
  have hback (k : ℕ) (hk : 1 ≤ k) : k - 1 + 1 = k := by omega
  refine ⟨ordered, hperm, hperm.nodup_iff.mpr hdistinct.of_map, hsorted, hunique,
    fun k => page (k - 1), fun k hk => ?_, fun k hk => hlast (k - 1), fun k hk => ?_, ?_,
    fun k hk => ?_⟩
  · rw [← hpage (k - 1), hback k hk]
  · rw [hdata]
    simp only [List.length_map, List.length_take]
    omega
  · simp only [Nat.add_sub_cancel, hdata]
    rw [← List.map_flatMap, slices_flatten ordered _ hcovered]
  · rw [hdata]
    have hskip : ordered.length ≤ (k - 1) * req.perPage :=
      Nat.le_trans hcovered (Nat.mul_le_mul_right _ (by omega))
    rw [List.drop_of_length_le hskip, List.take_nil, List.map_nil]

def noModels : DataModel where
  models := []
  closed := by simp
  scalars := by simp

/-- A list of numbers, each of which is its own tie-breaker. -/
def numbers : PaginateOptions Unit ℕ ℕ := { base := (), transform := id }

def columnOf : String → ℕ → ℕ
  | "id" => id
  | _ => fun _ => 0

def smallPages (page : String) : PageRequest where
  protocol := "http"
  host := some "test.invalid"
  path := "/"
  query := [("page", .string page), ("per_page", .string "2")]

theorem pages_partition_numbers :
    ∃ page : ℕ → PaginatedResult ℕ,
      (∀ k, 1 ≤ k → paginate noModels (sorting Unit [3, 1, 2] (by decide) columnOf fun _ _ => true) numbers
        (atPage (smallPages "1") k) = .ok (page k)) ∧
      ((List.range 2).flatMap fun i => (page (i + 1)).data).Perm [3, 1, 2] := by
  have hserves : Serves (sorting Unit [3, 1, 2] (by decide) columnOf fun _ _ => true) [3, 1, 2]
      columnOf fun _ _ => true := sorting_serves
  have hwhere : (smallPages "1").finalWhere noModels numbers = .ok ⟨(), none, none⟩ := rfl
  obtain ⟨ordered, hperm, -, -, -, page, hpage, -, -, hdata, -⟩ :=
    pages_partition hserves rfl (by decide) (by decide) hwhere
  refine ⟨page, hpage, ?_⟩
  have hlast : max 1 (ceilDiv ([3, 1, 2].filter fun _ => true).length
      (smallPages "1").perPage) = 2 := by decide +kernel
  rw [hlast] at hdata
  rw [hdata]
  simpa [numbers] using hperm

/-! ## The bounds of a page -/

/-- `from` and `to` are null exactly when there are no rows, and else they are the numbers of
the first and the last row in `ordered`. -/
def Describes (result : PaginatedResult R) (transform : ρ → R) (ordered : List ρ) : Prop :=
  (result.info.first = none ∧ result.info.last = none ↔ result.data = []) ∧
    (result.data ≠ [] → ∃ first last : ℕ, result.info.first = some (first : ℕ∞) ∧
      result.info.last = some (last : ℕ∞) ∧ 1 ≤ first ∧ first ≤ last ∧ last ≤ ordered.length ∧
      last - first + 1 = result.data.length ∧
      result.data = ((ordered.drop (first - 1)).take (last - first + 1)).map transform)

theorem describes_slice {transform : ρ → R} {ordered : List ρ} {skip p last : ℕ}
    {result : PaginatedResult R} (hp : 0 < p) (hskip : skip < ordered.length)
    (hdata : result.data = ((ordered.drop skip).take p).map transform)
    (hfirst : result.info.first = some ((skip + 1 : ℕ) : ℕ∞))
    (hlast : result.info.last = some (last : ℕ∞)) (heq : last = min (skip + p) ordered.length) :
    Describes result transform ordered := by
  have hlength : result.data.length = min p (ordered.length - skip) := by
    rw [hdata, List.length_map, List.length_take, List.length_drop]
  have hne : result.data ≠ [] := by
    intro hempty
    rw [hempty, List.length_nil] at hlength
    omega
  have hcount : last - (skip + 1) + 1 = min p (ordered.length - skip) := by omega
  refine ⟨by simp [hfirst, hne], fun _ => ⟨skip + 1, last, hfirst, hlast, by omega, by omega,
    by omega, hcount.trans hlength.symm, ?_⟩⟩
  rw [hdata, hcount, Nat.add_sub_cancel]
  congr 1
  rcases Nat.le_total p (ordered.length - skip) with hle | hle
  · rw [Nat.min_eq_left hle]
  · rw [Nat.min_eq_right hle, List.take_of_length_le (by rw [List.length_drop]; exact hle),
      List.take_of_length_le (Nat.le_of_eq List.length_drop)]

/-- The number of the last row, when the first one is there: a sum that is rounded is beyond all
rows anyway. -/
theorem atMost_round {skip p n : ℕ} (hn : n < 2 ^ 53) :
    Binary64.atMost n (Binary64.round ((skip : ℕ∞) + (p : ℕ∞))) = min (skip + p) n := by
  rw [← Nat.cast_add]
  by_cases hsum : skip + p < 2 ^ 53
  · rw [Binary64.round_of_lt hsum, Binary64.atMost_coe, Nat.min_comm]
  · have hle : n ≤ skip + p := by omega
    rw [Nat.min_eq_right hle]
    exact Binary64.atMost_of_le (Binary64.le_round (Nat.le_of_lt hn) (Nat.cast_le.mpr hle))

/-- Up to the last page the bounds describe the rows. -/
theorem describes_page {transform : ρ → R} {ordered : List ρ} (hn : ordered.length < 2 ^ 53)
    (hpos : 0 < ordered.length)
    (hdata : result.data = ((dropRows (skipOf req) ordered).take req.perPage).map transform)
    (hfirst : result.info.first = some (Binary64.round (skipOf req + 1)))
    (hlast : result.info.last = some ((Binary64.atMost ordered.length
      (Binary64.round (skipOf req + req.perPage)) : ℕ) : ℕ∞))
    (hpage : req.page ≤ (ceilDiv ordered.length req.perPage : ℕ)) :
    Describes result transform ordered := by
  have hp : 1 ≤ req.perPage := perPage_bounds.1
  obtain ⟨page, hfinite⟩ : ∃ page : ℕ, req.page = page :=
    ENat.ne_top_iff_exists.mp (ne_top_of_le_ne_top (ENat.natCast_ne_top _) hpage) |>.imp
      fun _ h => h.symm
  have hone : 1 ≤ page := by exact_mod_cast hfinite ▸ page_pos
  have hle : page ≤ ceilDiv ordered.length req.perPage := by exact_mod_cast hfinite ▸ hpage
  have hskip : (page - 1) * req.perPage < ordered.length := (skip_lt hp hone hpos).mpr hle
  rw [skipOf_eq hfinite hn hskip] at hdata hfirst hlast
  have hround : Binary64.round (((page - 1) * req.perPage : ℕ) + 1) =
      ((page - 1) * req.perPage + 1 : ℕ) := by
    exact_mod_cast Binary64.round_of_lt (by omega : (page - 1) * req.perPage + 1 < 2 ^ 53)
  rw [hround] at hfirst
  rw [atMost_round hn] at hlast
  exact describes_slice hp hskip hdata hfirst hlast rfl

/-- The bounds describe the rows unless there are rows and the page is beyond the last one. -/
theorem bounds_describe (hserves : Serves model rows column holds)
    (hw : req.finalWhere dm options = .ok w) (h : paginate dm model options req = .ok result) :
    (∃ ordered : List ρ, ordered.Perm (rows.filter (holds w)) ∧
      ordered.Pairwise (Precedes column (req.orderBy options)) ∧
        Describes result options.transform ordered) ↔
      (rows.filter (holds w)).length = 0 ∨
        req.page ≤ (max 1 (ceilDiv (rows.filter (holds w)).length req.perPage) : ℕ) := by
  obtain ⟨hdata, -, -, hfirst, hlast⟩ := paginate_ok hw h
  obtain ⟨ordered, hperm, hsorted, hfound⟩ := hserves.findMany
    { filter := w, orderBy := req.orderBy options, skip := skipOf req, take := req.perPage }
  have hcount : (model.count w).val = ordered.length :=
    (hserves.count w).trans hperm.length_eq.symm
  have hlength : (rows.filter (holds w)).length = ordered.length := hperm.length_eq.symm
  have hn : ordered.length < 2 ^ 53 := hlength ▸ hserves.countable w
  rw [hfound] at hdata
  rw [hcount] at hfirst hlast
  rw [hlength]
  have hp : 1 ≤ req.perPage := perPage_bounds.1
  by_cases hempty : ordered.length = 0
  · obtain rfl := List.length_eq_zero_iff.mp hempty
    have hnone : result.data = [] := by
      rw [hdata, dropRows_eq_nil (by simp), List.take_nil, List.map_nil]
    refine iff_of_true ⟨[], hperm, hsorted, ?_, fun hne => (hne hnone).elim⟩ (.inl rfl)
    simp [hfirst, hlast, hnone]
  · have hpos : 0 < ordered.length := Nat.pos_of_ne_zero hempty
    rw [if_neg hempty] at hfirst hlast
    have hpages : 1 ≤ ceilDiv ordered.length req.perPage :=
      (skip_lt hp (Nat.le_refl 1) hpos).mp (by simpa using hpos)
    rw [Nat.max_eq_right hpages]
    constructor
    · rintro ⟨other, -, -, hdescribes, -⟩
      refine .inr (le_of_not_gt fun hbeyond => ?_)
      have hnone : result.data = [] := by
        rw [hdata, dropRows_eq_nil (le_skipOf hn ?_), List.take_nil, List.map_nil]
        exact_mod_cast Order.add_one_le_of_lt hbeyond
      have hnull := (hdescribes.mpr hnone).1
      rw [hfirst] at hnull
      cases hnull
    · rintro (hzero | hpage)
      · exact (hempty hzero).elim
      · exact ⟨ordered, hperm, hsorted, describes_page hn hpos hdata hfirst hlast hpage⟩

theorem bounds_describe_numbers :
    ∃ result, paginate noModels (sorting Unit [3, 1, 2] (by decide) columnOf fun _ _ => true) numbers
        (smallPages "2") = .ok result ∧
      ∃ ordered : List ℕ, ordered.Perm [3, 1, 2] ∧ Describes result id ordered := by
  obtain ⟨result, hresult⟩ : ∃ result, paginate noModels
      (sorting Unit [3, 1, 2] (by decide) columnOf fun _ _ => true) numbers (smallPages "2") =
        .ok result := ⟨_, rfl⟩
  have hserves : Serves (sorting Unit [3, 1, 2] (by decide) columnOf fun _ _ => true) [3, 1, 2]
      columnOf fun _ _ => true := sorting_serves
  have hwhere : (smallPages "2").finalWhere noModels numbers = .ok ⟨(), none, none⟩ := rfl
  obtain ⟨ordered, hperm, -, hdescribes⟩ :=
    (bounds_describe hserves hwhere hresult).mpr (by decide +kernel)
  exact ⟨result, hresult, ordered, hperm, hdescribes⟩

/-- There is one row, and the second page is said to hold the rows from 3 to 1. -/
theorem bounds_beyond_last :
    ∃ result, paginate noModels (sorting Unit [7] (by decide) columnOf fun _ _ => true) numbers
        (smallPages "2") = .ok result ∧
      result.data = [] ∧ result.info.first = some 3 ∧ result.info.last = some 1 ∧
        ∀ ordered : List ℕ, ¬ Describes result id ordered := by
  obtain ⟨result, hresult⟩ : ∃ result, paginate noModels
      (sorting Unit [7] (by decide) columnOf fun _ _ => true) numbers (smallPages "2") =
        .ok result := ⟨_, rfl⟩
  obtain ⟨hdata, -, -, hfirst, hlast⟩ := paginate_ok (w := ⟨(), none, none⟩) rfl hresult
  have hskip : skipOf (smallPages "2") = 2 := by decide +kernel
  have hsize : (smallPages "2").perPage = 2 := by decide +kernel
  have hnone : result.data = [] := by
    rw [hdata, hskip, hsize]
    decide +kernel
  rw [hskip] at hfirst hlast
  rw [hsize] at hlast
  have hnull : result.info.first = some 3 := hfirst.trans (by decide +kernel)
  refine ⟨result, hresult, hnone, hnull, hlast.trans (by decide +kernel), ?_⟩
  rintro ordered ⟨hdescribes, -⟩
  have hfirst' := (hdescribes.mpr hnone).1
  rw [hnull] at hfirst'
  cases hfirst'

/-- The first page that is not exact: it is the page before. -/
example : (smallPages "9007199254740993").page = (9007199254740992 : ℕ) := by decide +kernel

end ExpressCore.Pages
