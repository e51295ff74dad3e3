import ExpressCore.Model.Lists

/-! # The routes of users and roles

`app` and `routes/index` down to the handlers of `user.route` and `role.route`. A handler stands
for its middleware too: that comes after the choice of the route. -/

namespace ExpressCore

inductive Method where
  | get
  | post
  | put
  | delete
  deriving DecidableEq

inductive RoutePath where
  | fixed (path : String)
  | slug

/-- The handlers of both controllers. `destroy` is `delete` in the controller of users. -/
inductive RecordHandler where
  | index
  | showRecord
  | store
  | update
  | destroy
  | accessList
  | userTypes
  deriving DecidableEq

structure Route where
  method : Method
  path : RoutePath
  handler : RecordHandler

/-- The bytes of a percent-encoded text. -/
def percentDecode : List Char → Option (List UInt8)
  | [] => some []
  | '%' :: high :: low :: rest => do
      let byte := (← hexDigit high) * 16 + (← hexDigit low)
      return UInt8.ofNat byte :: (← percentDecode rest)
  | '%' :: _ => none
  | c :: rest => return String.utf8EncodeChar c ++ (← percentDecode rest)

def decodeURIComponent (text : List Char) : Option String :=
  (percentDecode text).bind fun bytes => String.fromUTF8? bytes.toByteArray

/-- The segment of `/:slug`, which is not empty and which a slash may follow. -/
def slugSegment : List Char → Option (List Char)
  | '/' :: rest =>
      let slug := rest.takeWhile (· != '/')
      if slug ≠ [] ∧ (rest.dropWhile (· != '/') = [] ∨ rest.dropWhile (· != '/') = ['/']) then
        some slug
      else none
  | _ => none

/-- Whether a path matches, with `req.params.slug` if it does. -/
def RoutePath.params (path : List Char) : RoutePath → Option (Option String)
  | .fixed route =>
      if path.map Char.toLower = route.toList ∨ path.map Char.toLower = route.toList ++ ['/'] then
        some none
      else none
  | .slug => (slugSegment path).bind fun slug => (decodeURIComponent slug).map some

def userRoutes : List Route :=
  [{ method := .get, path := .fixed "/", handler := .index },
    { method := .get, path := .slug, handler := .showRecord },
    { method := .post, path := .fixed "/", handler := .store },
    { method := .put, path := .slug, handler := .update },
    { method := .delete, path := .slug, handler := .destroy }]

def roleRoutes : List Route :=
  [{ method := .get, path := .fixed "/access-list", handler := .accessList },
    { method := .get, path := .fixed "/user-types", handler := .userTypes },
    { method := .get, path := .fixed "/", handler := .index },
    { method := .get, path := .slug, handler := .showRecord },
    { method := .post, path := .fixed "/", handler := .store },
    { method := .put, path := .slug, handler := .update },
    { method := .delete, path := .slug, handler := .destroy }]

/-- The first route that takes the request, with `req.params.slug`. -/
def takenBy (method : Method) (path : List Char) (routes : List Route) :
    Option (RecordHandler × Option String) :=
  routes.findSome? fun route =>
    if route.method = method then (route.path.params path).map fun slug => (route.handler, slug)
    else none

/-- The routers of records with slugs, where they are mounted. -/
def recordRouters : List (String × List Route) :=
  [("/users", userRoutes), ("/roles", roleRoutes)]

/-- The router and the handler that a request reaches. -/
def recordHandler (method : Method) (path : List Char) :
    Option (String × RecordHandler × Option String) :=
  (mounted "/api/v1" path).bind fun path =>
    recordRouters.findSome? fun router =>
      (mounted router.1 path).bind fun path =>
        (takenBy method path router.2).map fun handler => (router.1, handler)

end ExpressCore
