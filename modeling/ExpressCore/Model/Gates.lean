import ExpressCore.Model.Routes

/-! # The access gates of a route

Gates run in order before the handler. The first one resolves the role of the user, the others
find it in `req.role`. -/

namespace ExpressCore

open Interleaving Program

def USER_TYPES : List String := ["Administrator", "Member"]

def isUserType (value : String) : Bool := USER_TYPES.contains value

inductive Gate where
  | permission (permission : String)
  | userType (allowed : List String)
  deriving DecidableEq

/-- `checkUserType(...allowedTypes)`, which throws while routes are defined. -/
def checkUserType (allowedTypes : List String) : Except String Gate :=
  if allowedTypes.length = 0 ∨ allowedTypes.all isUserType = false then
    .error ("checkUserType needs types from USER_TYPES (" ++ String.intercalate ", " USER_TYPES ++
      "); got: " ++ (truthy (some (String.intercalate ", " allowedTypes))).getD "none")
  else .ok (.userType allowedTypes)

/-- The error a gate passes on instead of the request. -/
def Gate.refusal (gate : Gate) (role : RoleData) : Option Error :=
  match gate with
  | .permission value =>
      if role.access.contains value then none
      else some (appError "You do not have permission to perform this action" 403)
  | .userType values =>
      if role.userType.any values.contains then none else some (appError "Access denied" 403)

/-- `resolveRole` of a request: `resolved` is `req.role`, and `userId` is `req.user.sub`, which
counts as missing when it is 0. -/
def resolveRoleOf (userId : ℕ) : Option RoleData → Service RoleData
  | some role => pure role
  | none => if userId = 0 then throw (appError "Unauthorized access" 401) else resolveRole userId

/-- The gates of a route, up to its handler. -/
def passGates (userId : ℕ) : List Gate → Option RoleData → Service (Option RoleData)
  | [], resolved => pure resolved
  | gate :: gates, resolved => do
      let role ← resolveRoleOf userId resolved
      match gate.refusal role with
      | some error => throw error
      | none => passGates userId gates (some role)

/-- A request behind its gates. -/
def gated {α : Type} (userId : ℕ) (gates : List Gate) (handler : Service α) : Service α := do
  let _ ← passGates userId gates none
  handler

end ExpressCore
