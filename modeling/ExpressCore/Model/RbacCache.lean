import ExpressCore.Model.Auth

/-! # Roles and the versioned cache of access rights -/

namespace ExpressCore

open ReadCommitted Interleaving Program

variable (setup : Setup)

/-! ## `rbac-cache.service` -/

/-- The cached entry if it is current, and the version to stamp on a refill. -/
def readUserAccess (userId : ℕ) : Service (Option CachedUserData × ℕ) := do
  let reply ← cacheService (.mgetAccess userId)
  let version := reply.2.getD 0
  let cached := reply.1.filter fun entry =>
    entry.rbacVersion == some version &&
      (entry.role.isNone || entry.role.any fun role => role.userType.isSome)
  pure (cached, version)

def cacheUserAccess (userId : ℕ) (data : CachedUserData) (version : ℕ) : Service Unit := do
  cacheService (.setAccess userId { data with rbacVersion := some version })
  match data.role with
  | some role => cacheService (.saddRoleUsers role.id userId)
  | none => pure ()

def invalidateAccess : Service Unit :=
  cacheService .incrVersion

/-! ## `resolve-role` -/

/-- The database read of a miss: the user, then its role, which the soft-delete extension
hides when it is deleted. -/
def readAccess (userId readAt : ℕ) : Service (Option CachedUserData) := do
  match ← users (.find (.active userId)) with
  | none => pure none
  | some (id, user) => do
      let role ← match user.roleId with
        | none => pure none
        | some roleId => roles (.find (.id roleId))
      pure (some
        { id
          role := (role.filter fun x => x.2.deletedAt.isNone).map fun x =>
            { id := x.1, slug := x.2.slug, userType := some x.2.userType, access := x.2.access }
          rbacVersion := none
          readAt })

/-- `resolveRole` for a request that no earlier gate has resolved. -/
def resolveRole (userId : ℕ) : Service RoleData := do
  let (cached, version) ← readUserAccess userId
  let userData ← match cached with
    | some entry => do
        request (.decided entry.readAt)
        pure entry
    | none => do
        let readAt ← request .commits
        let userData ← readAccess userId readAt
        request (.decided readAt)
        match userData with
        | none => throw (appError "Unauthorized access" 401)
        | some userData => do
            cacheUserAccess userId userData version
            pure userData
  match userData.role with
  | none => throw (appError "Access denied: no role assigned" 403)
  | some role => pure role

/-! ## `role.repository` -/

def findRoleBySlug (slug : String) : Service (Option (ℕ × Role)) :=
  roles (.find (.slug slug none))

def slugOfRoleTaken (excludeId : Option ℕ) (candidate : String) : Service Bool := do
  let role ← roles (.find (.slug candidate excludeId))
  pure role.isSome

/-- `prisma.user.count`. -/
def countUsers (roleId : ℕ) : Service ℕ := do
  let rows ← users (.scan (.role roleId))
  pure rows.length

/-! ## `role.service` -/

/-- The permission values, in the order of `ACCESS_LIST`. -/
def ALL_PERMISSIONS : List String :=
  ["module.dashboard.index", "module.master-data.role.index", "module.master-data.role.create",
    "module.master-data.role.edit", "module.master-data.role.delete",
    "module.master-data.user.index", "module.master-data.user.create",
    "module.master-data.user.edit", "module.master-data.user.delete",
    "module.master-data.email-template.index", "module.master-data.email-template.edit",
    "module.activity-log.index", "module.activity-log.detail"]

structure CreateRoleInput where
  title : String
  userType : String
  description : Option String
  access : List String

/-- An absent field stays; `description` may also be cleared. -/
structure UpdateRoleInput where
  title : Option String
  userType : Option String
  description : Option (Option String)
  access : Option (List String)

def validateAccess (access : List String) : Service Unit :=
  let unknown := access.filter fun p => !ALL_PERMISSIONS.contains p
  if unknown.length > 0 then
    throw (appError ("Invalid permission value(s): " ++ String.intercalate ", " unknown) 400)
  else pure ()

def roleJson (role : Role) : Json :=
  .obj [("title", .str role.title), ("userType", .str role.userType), ("slug", .str role.slug),
    ("access", .arr (role.access.map .str))]

/-- A string that is absent or empty is falsy. -/
def truthy (s : Option String) : Option String := s.filter (· ≠ "")

def invalidateRoleUsers (roleId : ℕ) : Service Unit := do
  invalidateAccess
  let userIds ← cacheService (.smembersRoleUsers roleId)
  if userIds.length = 0 then pure ()
  else do
    cacheService (.del (userIds.flatMap fun userId => [.userRole userId, .profile userId]))
    cacheService (.sremRoleUsers roleId userIds)

def createRole (data : CreateRoleInput) (createdBy : Option ℕ) : Service (ℕ × Role) := do
  validateAccess data.access
  transaction do
    let slug ← makeUniqueSlug setup data.title (slugOfRoleTaken none)
    let row : Role :=
      { slug, title := data.title, userType := data.userType, description := data.description
        access := data.access, deletedAt := none }
    let id ← create roles .tx row
    logActivity createdBy "CREATE" "Role" (some id) ("Role created: " ++ row.title) none
      (some (roleJson row)) .tx
    pure (id, row)

def updateRole (slug : String) (data : UpdateRoleInput) (updatedBy : Option ℕ) :
    Service (ℕ × Role) := do
  match ← findRoleBySlug slug with
  | none => throw (appError "Role not found" 404)
  | some (id, role) => do
      match data.access with
      | some access => validateAccess access
      | none => pure ()
      let updated ← transaction do
        let newSlug ← match (truthy data.title).filter (· ≠ role.title) with
          | some title => do
              let newSlug ← makeUniqueSlug setup title (slugOfRoleTaken (some id))
              pure (truthy (some newSlug))
          | none => pure none
        let updated ← changeOne roles .tx (.id id)
          (.update (truthy data.title) newSlug (truthy data.userType) data.description
            data.access)
        logActivity updatedBy "UPDATE" "Role" (some id) ("Role updated: " ++ updated.2.title)
          (some (roleJson role)) (some (roleJson updated.2)) .tx
        pure updated
      cacheService (.del [.role role.slug])
      invalidateRoleUsers id
      pure updated

def deleteRole (slug : String) (deletedBy : Option ℕ) : Service Unit := do
  match ← findRoleBySlug slug with
  | none => throw (appError "Role not found" 404)
  | some (id, role) => do
      let userCount ← countUsers id
      if userCount > 0 then
        throw (appError ("Cannot delete role: " ++ toString userCount ++
          " user(s) are still assigned to this role") 409)
      else do
        transaction do
          let deletedAt ← request .now
          let _ ← changeOne roles .tx (.id id) (.delete deletedAt)
          logActivity deletedBy "DELETE" "Role" (some id) ("Role deleted: " ++ role.title)
            (some (roleJson role)) none .tx
        cacheService (.del [.role role.slug])
        invalidateRoleUsers id

end ExpressCore
