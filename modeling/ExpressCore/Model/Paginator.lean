import ExpressCore.Library.Binary64
import ExpressCore.Model.RefreshSuccessor

/-! # Pages of a list

`utils/paginator` with the lists of the API that it serves. The client chooses the page, so the
numbers computed from it are doubles; the rows of a table can be counted exactly. -/

namespace ExpressCore

/-! ## The request -/

/-- A value of `req.query`; the parser makes a list of a name that is given several times. -/
inductive QueryValue where
  | string (s : String)
  | list (values : List String)
  deriving DecidableEq

/-- What `paginate` reads of a request. -/
structure PageRequest where
  protocol : String
  host : Option String
  path : String
  query : List (String × QueryValue)

/-- `typeof req.query.name === 'string'`. -/
def PageRequest.param (req : PageRequest) (name : String) : Option String :=
  match (req.query.find? fun x => x.1 == name).map Prod.snd with
  | some (.string s) => some s
  | _ => none

/-- `String.prototype.trim`. -/
def trim (s : String) : String :=
  String.ofList ((s.toList.dropWhile isSpace).reverse.dropWhile isSpace).reverse

/-- The digits at the start of a text, read with the base. -/
def parseDigits (base : ℕ) (digit : Char → Option ℕ) (cs : List Char) : Option ℕ :=
  let digits := (cs.map digit).takeWhile Option.isSome
  if digits = [] then none
  else some (digits.foldl (fun n d => base * n + d.getD 0) 0)

def decimalDigit (c : Char) : Option ℕ := if c.isDigit then some (c.toNat - '0'.toNat) else none

/-- A number without a sign; `0x` announces a hexadecimal one. -/
def parseUnsigned : List Char → Option ℕ
  | '0' :: 'x' :: rest => parseDigits 16 hexDigit rest
  | '0' :: 'X' :: rest => parseDigits 16 hexDigit rest
  | cs => parseDigits 10 decimalDigit cs

/-- `parseInt`, with `none` for `NaN`: whether there is a minus sign, and the number without it. -/
def parseInt (s : String) : Option (Bool × ℕ∞) :=
  match s.toList.dropWhile isSpace with
  | '-' :: rest => (parseUnsigned rest).map fun n => (true, Binary64.ofNat n)
  | '+' :: rest => (parseUnsigned rest).map fun n => (false, Binary64.ofNat n)
  | cs => (parseUnsigned cs).map fun n => (false, Binary64.ofNat n)

/-- `Math.max(1, parseInt(s) || other)`. -/
def parsePositive (s : String) (other : ℕ) : ℕ∞ :=
  match parseInt s with
  | none => Binary64.atLeast 1 other
  | some (negative, n) =>
      if n = 0 then Binary64.atLeast 1 other
      else if negative then 1
      else Binary64.atLeast 1 n

/-- A decimal of `k` digits that is read back as `n`. -/
def shortDecimal (n k : ℕ) : Option ℕ :=
  let unit := 10 ^ ((toString n).length - k)
  let low := n / unit * unit
  let high := low + unit
  let readsBack (m : ℕ) : Bool := Binary64.ofNat m = n
  if readsBack low ∧ (!readsBack high ∨ n - low ≤ high - n) then some low
  else if readsBack high then some high
  else none

/-- `String` of a whole number: the shortest decimal that is read back as the number, with an
exponent when it has more than 21 digits. -/
def numberString : ℕ∞ → String
  | ⊤ => "Infinity"
  | (n : ℕ) =>
      let decimal :=
        if n < 2 ^ 53 then n
        else ((List.range 17).findSome? fun k => shortDecimal n (k + 1)).getD n
      if decimal < 10 ^ 21 then toString decimal
      else
        let digits := (toString decimal).toList
        let fraction := ((digits.drop 1).reverse.dropWhile (· = '0')).reverse
        String.ofList (digits.take 1 ++ (if fraction = [] then [] else '.' :: fraction)) ++ "e+" ++
          toString (digits.length - 1)

/-! ## The data model -/

/-- The kinds of fields in `Prisma.dmmf`. -/
inductive FieldKind where
  | scalar
  | object
  | enum
  deriving DecidableEq

structure FieldMeta where
  kind : FieldKind
  isList : Bool
  type : String
  deriving DecidableEq

/-- `Prisma.dmmf.datamodel`: relations lead to models, and only relations are lists. -/
structure DataModel where
  models : List (String × List (String × FieldMeta))
  closed : ∀ m ∈ models, ∀ f ∈ m.2, f.2.kind = .object → f.2.type ∈ models.map Prod.fst
  scalars : ∀ m ∈ models, ∀ f ∈ m.2, f.2.kind ≠ .object → f.2.isList = false

variable (dm : DataModel)

def modelFields (modelName : String) : Except String (List (String × FieldMeta)) :=
  match dm.models.find? fun m => m.1 == modelName with
  | none => throw ("[paginator] Unknown Prisma model \"" ++ modelName ++ "\"")
  | some m => pure m.2

/-- `Map.get`. -/
def fieldMeta (fields : List (String × FieldMeta)) (name : String) : Option FieldMeta :=
  (fields.find? fun f => f.1 == name).map Prod.snd

/-- Conditions on one row: a string column contains a text, a related row satisfies a condition,
and some of the related rows do. -/
inductive FieldCondition where
  | contains (field search : String)
  | one (field : String) (condition : FieldCondition)
  | some (field : String) (condition : FieldCondition)
  deriving DecidableEq

/-- `split('.')`. -/
def splitDots : List Char → List (List Char)
  | [] => [[]]
  | '.' :: rest => [] :: splitDots rest
  | c :: rest =>
      match splitDots rest with
      | segment :: others => (c :: segment) :: others
      | [] => [[c]]

def segmentsOf (path : String) : List String := (splitDots path.toList).map String.ofList

/-- The hops of a path with their fields, and the model they lead to. -/
def resolveHops (path : String) (current : String) :
    List String → Except String (List (String × FieldMeta) × String)
  | [] => pure ([], current)
  | name :: rest => do
      let fields ← modelFields dm current
      match fieldMeta fields name with
      | none => throw ("[paginator] \"" ++ name ++ "\" is not a relation of " ++ current ++
          " (in \"" ++ path ++ "\")")
      | some field =>
          if field.kind = .object then do
            let (hops, last) ← resolveHops path field.type rest
            pure ((name, field) :: hops, last)
          else throw ("[paginator] \"" ++ name ++ "\" is not a relation of " ++ current ++
            " (in \"" ++ path ++ "\")")

/-- The loop that wraps the condition on the leaf, the last hop first. -/
def wrapHops (hops : List (String × FieldMeta)) (condition : FieldCondition) : FieldCondition :=
  hops.foldr (fun hop inner => if hop.2.isList then .some hop.1 inner else .one hop.1 inner)
    condition

def relationalCondition (modelName path search : String) : Except String FieldCondition := do
  let segments := segmentsOf path
  let leaf := segments.getLastD ""
  let (hops, current) ← resolveHops dm path modelName segments.dropLast
  let fields ← modelFields dm current
  match fieldMeta fields leaf with
  | none => throw ("[paginator] \"" ++ leaf ++ "\" is not a String field of " ++ current ++
      " (in \"" ++ path ++ "\")")
  | some field =>
      if field.kind = .scalar ∧ field.type = "String" then
        pure (wrapHops hops (.contains leaf search))
      else throw ("[paginator] \"" ++ leaf ++ "\" is not a String field of " ++ current ++
        " (in \"" ++ path ++ "\")")

def searchCondition (modelName : Option String) (search field : String) :
    Except String FieldCondition :=
  if '.' ∈ field.toList then
    match modelName.filter (· ≠ "") with
    | none => throw ("[paginator] modelName is required for relational search field \"" ++ field ++
        "\"")
    | some name => relationalCondition dm name field search
  else pure (.contains field search)

def searchConditions (fields : List String) (search : String) (modelName : Option String) :
    Except String (List FieldCondition) :=
  fields.mapM (searchCondition dm modelName search)

/-! ## Pages -/

inductive SortDir where
  | asc
  | desc
  deriving DecidableEq

/-- The filter of a page: the base condition of the list with its negated part, and the
conditions of a search, one of which has to hold. -/
structure PageWhere (B : Type) where
  base : B
  whereNot : Option B
  search : Option (List FieldCondition)

structure FindManyArgs (B : Type) where
  filter : PageWhere B
  orderBy : List (String × SortDir)
  skip : ℕ∞
  take : ℕ

/-- A count of rows, which is an exact double. -/
abbrev Count := { n : ℕ // n < 2 ^ 53 }

/-- A Prisma model delegate on data that does not change. -/
structure PrismaDelegate (B ρ : Type) where
  findMany : FindManyArgs B → List ρ
  count : PageWhere B → Count

structure PaginateOptions (B ρ R : Type) where
  base : B
  whereNot : Option B := none
  modelName : Option String := none
  searchFields : List String := []
  allowedSorts : List String := ["createdAt"]
  defaultSort : String := "createdAt"
  defaultSortDir : SortDir := .desc
  tieBreaker : Option String := some "id"
  transform : ρ → R

/-- `first` and `last` are `from` and `to`. -/
structure PageMeta where
  total : Count
  per_page : ℕ
  current_page : ℕ∞
  last_page : ℕ
  first : Option ℕ∞
  last : Option ℕ∞
  path : String
  first_page_url : String
  last_page_url : String
  next_page_url : Option String
  prev_page_url : Option String
  deriving DecidableEq

structure PageLink where
  url : Option String
  label : String
  active : Bool
  deriving DecidableEq

structure PaginatedResult (R : Type) where
  data : List R
  info : PageMeta
  links : List PageLink

/-- One byte in `application/x-www-form-urlencoded`. -/
def formByte (b : UInt8) : List Char :=
  let c := Char.ofNat b.toNat
  if c.isAlphanum ∨ c ∈ ['*', '-', '.', '_'] then [c]
  else if c = ' ' then ['+']
  else
    let digit := fun n => (Nat.digitChar n).toUpper
    ['%', digit (b.toNat / 16), digit (b.toNat % 16)]

def formEncode (s : String) : String := String.ofList ((utf8 s).flatMap formByte)

/-- `URLSearchParams.toString`. -/
def formString (params : List (String × String)) : String :=
  "&".intercalate (params.map fun x => formEncode x.1 ++ "=" ++ formEncode x.2)

namespace PageRequest

variable (req : PageRequest)

def page : ℕ∞ := parsePositive ((req.param "page").getD "1") 1

def perPage : ℕ := Binary64.atMost 100 (parsePositive ((req.param "per_page").getD "15") 15)

/-- An empty search is falsy. -/
def search : Option String := ((req.param "search").map trim).filter (· ≠ "")

def sortByParam : String := (req.param "sort_by").getD ""

def sortDirParam : String := (req.param "sort_dir").getD ""

variable {B ρ R : Type} (options : PaginateOptions B ρ R)

def sortBy : String :=
  if req.sortByParam ∈ options.allowedSorts then req.sortByParam else options.defaultSort

def sortDir : SortDir :=
  if req.sortDirParam ≠ "" then (if req.sortDirParam = "asc" then .asc else .desc)
  else options.defaultSortDir

def orderBy : List (String × SortDir) :=
  (req.sortBy options, req.sortDir options) ::
    (options.tieBreaker.filter fun column => column ≠ "" ∧ column ≠ req.sortBy options).toList.map
      fun column => (column, req.sortDir options)

def finalWhere : Except String (PageWhere B) := do
  match req.search with
  | some search =>
      if options.searchFields.length > 0 then do
        let conditions ← searchConditions dm options.searchFields search options.modelName
        pure { base := options.base, whereNot := options.whereNot, search := some conditions }
      else pure { base := options.base, whereNot := options.whereNot, search := none }
  | none => pure { base := options.base, whereNot := options.whereNot, search := none }

def basePath : String :=
  req.protocol ++ "://" ++ req.host.getD "undefined" ++ req.path

def buildUrl (p : ℕ∞) : String :=
  req.basePath ++ "?" ++ formString
    ([("page", numberString p)] ++
      (if req.perPage ≠ 15 then [("per_page", toString req.perPage)] else []) ++
      (req.search.toList.map fun search => ("search", search)) ++
      (if req.sortByParam ≠ "" then [("sort_by", req.sortByParam)] else []) ++
      (if req.sortDirParam ≠ "" then [("sort_dir", req.sortDirParam)] else []))

end PageRequest

/-- `Math.ceil(total / perPage)`. -/
def ceilDiv (total perPage : ℕ) : ℕ := (total + perPage - 1) / perPage

def paginate {B ρ R : Type} (model : PrismaDelegate B ρ) (options : PaginateOptions B ρ R)
    (req : PageRequest) : Except String (PaginatedResult R) := do
  let page := req.page
  let perPage := req.perPage
  let finalWhere ← req.finalWhere dm options
  let skip := Binary64.round (Binary64.round (page - 1) * perPage)
  let data := model.findMany
    { filter := finalWhere, orderBy := req.orderBy options, skip, take := perPage }
  let total := model.count finalWhere
  let lastPage := max 1 (ceilDiv total perPage)
  let links :=
    [{ url := if page > 1 then some (req.buildUrl (Binary64.round (page - 1))) else none
       label := "&laquo; Previous", active := false }] ++
    ((List.range lastPage).map fun i =>
      { url := some (req.buildUrl (i + 1 : ℕ)), label := toString (i + 1)
        active := (i + 1 : ℕ) = page }) ++
    [{ url := if page < lastPage then some (req.buildUrl (Binary64.round (page + 1))) else none
       label := "Next &raquo;", active := false }]
  pure
    { data := data.map options.transform
      info :=
        { total, per_page := perPage, current_page := page, last_page := lastPage
          first := if total.val = 0 then none else some (Binary64.round (skip + 1))
          last := if total.val = 0 then none
            else some (Binary64.atMost total.val (Binary64.round (skip + perPage)) : ℕ)
          path := req.basePath
          first_page_url := req.buildUrl 1
          last_page_url := req.buildUrl lastPage
          next_page_url :=
            if page < lastPage then some (req.buildUrl (Binary64.round (page + 1))) else none
          prev_page_url :=
            if page > 1 then some (req.buildUrl (Binary64.round (page - 1))) else none }
      links }

end ExpressCore
