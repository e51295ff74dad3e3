import ExpressCore.Model.Paginator

/-! # The routes of the lists

`app` and `routes/index` down to the handlers that call `paginate`. A path is matched without
regard to case. -/

namespace ExpressCore

/-- `router.use(prefix)`: the path with the prefix removed. -/
def mounted (pre : String) (path : List Char) : Option (List Char) :=
  if (path.take pre.toList.length).map Char.toLower = pre.toList then
    match path.drop pre.toList.length with
    | [] => some ['/']
    | '/' :: rest => some ('/' :: rest)
    | _ => none
  else none

/-- `router.get('/')`, where a slash may follow. -/
def isRoot (path : List Char) : Bool := path == ['/'] || path == ['/', '/']

/-- `router.get('/user/:userId')`. -/
def userLogsRoute (path : List Char) : Option String :=
  match mounted "/user" path with
  | some ('/' :: rest) =>
      let userId := rest.takeWhile (· != '/')
      if userId ≠ [] ∧ (rest.dropWhile (· != '/') = [] ∨ rest.dropWhile (· != '/') = ['/']) then
        some (String.ofList userId)
      else none
  | _ => none

inductive ListHandler where
  | users
  | roles
  | activityLogs
  | userLogs (userId : String)
  | emailTemplates
  deriving DecidableEq

def rootRoute (handler : ListHandler) (path : List Char) : Option ListHandler :=
  if isRoot path then some handler else none

/-- `GET /` comes first; `GET /:id` takes one segment only. -/
def activityLogRoutes (path : List Char) : Option ListHandler :=
  match rootRoute .activityLogs path with
  | some handler => some handler
  | none => (userLogsRoute path).map .userLogs

/-- The routers with lists, where they are mounted. -/
def listRouters : List (String × (List Char → Option ListHandler)) :=
  [("/users", rootRoute .users), ("/roles", rootRoute .roles),
    ("/activity-logs", activityLogRoutes), ("/email-templates", rootRoute .emailTemplates)]

/-- The handler of a GET request if it is that of a list, and `req.path` inside its router. -/
def listHandler (path : List Char) : Option (ListHandler × List Char) :=
  (mounted "/api/v1" path).bind fun path =>
    listRouters.findSome? fun router =>
      (mounted router.1 path).bind fun path => (router.2 path).map fun handler => (handler, path)

end ExpressCore
