import ExpressCore.Model.ProfileFields
import ExpressCore.Model.RbacCache

/-! # Users: administration, own profile and seeding -/

namespace ExpressCore

open ReadCommitted Interleaving Program

variable (setup : Setup)

/-! ## `user.service` -/

structure CreateUserInput where
  name : String
  email : String
  password : String
  roleId : ℕ
  avatar : Option String

structure UpdateUserInput where
  name : Option String
  email : Option String
  roleId : Option ℕ
  avatar : Option String
  password : Option String

def findUserBySlug (slug : String) : Service (Option (ℕ × User)) :=
  users (.find (.slug slug none))

def optionalNat : Option ℕ → Json
  | some n => .num n
  | none => .null

/-- The audit data of a user, field by field in the order of the source. -/
def userFields (user : User) : List (String × Json) :=
  [("name", optionalString user.name), ("email", optionalString user.email),
    ("slug", optionalString user.slug), ("roleId", optionalNat user.roleId)]

def nameOf (user : User) : String := user.name.getD "null"

def createUser (data : CreateUserInput) (createdBy : Option ℕ) : Service (ℕ × User) :=
  transaction do
    let existingUser ← findUserByEmail data.email
    if existingUser.isSome then throw (appError "Email already in use" 400)
    else do
      let slug ← makeUniqueSlug setup data.name (slugOfUserTaken none)
      let hashedPassword ← bcryptHash setup data.password
      let newUser ← createUserRow .tx
        { name := some data.name, slug := some slug, email := some data.email
          password := some hashedPassword, avatar := data.avatar, roleId := some data.roleId
          isEmailVerified := true, deletedAt := none }
      logActivity createdBy "CREATE" "User" (some newUser.1) ("User created: " ++ nameOf newUser.2)
        none
        (some (.obj [("email", optionalString newUser.2.email),
          ("name", optionalString newUser.2.name), ("slug", optionalString newUser.2.slug),
          ("roleId", optionalNat newUser.2.roleId), ("avatar", optionalString newUser.2.avatar)]))
        .tx
      pure newUser

/-- A password that was sent, hashed; an empty one counts as not sent. -/
def hashIfSent (password : Option String) : Service (Option String) := do
  match truthy password with
  | some password => do
      let hashed ← bcryptHash setup password
      pure (some hashed)
  | none => pure none

/-- The slug for a name that was sent and differs from the present one. -/
def slugForName (id : ℕ) (present sent : Option String) : Service (Option String) := do
  match (truthy sent).filter (fun name => some name ≠ present) with
  | some name => do
      let slug ← makeUniqueSlug setup name (slugOfUserTaken (some id))
      pure (truthy (some slug))
  | none => pure none

def updateUserInTransaction (id : ℕ) (user : User) (data : UpdateUserInput)
    (updatedBy : Option ℕ) : Service (ℕ × User) := do
  let newSlug ← slugForName setup id user.name data.name
  match truthy data.avatar, truthy user.avatar with
  | some _, some avatar => deleteFile "avatars" avatar
  | _, _ => pure ()
  let password ← hashIfSent setup data.password
  let updated ← changeOne users .tx (.id id)
    (.update
      { name := truthy data.name, slug := newSlug, email := truthy data.email
        roleId := data.roleId, avatar := truthy data.avatar, password := truthy password })
  logActivity updatedBy "UPDATE" "User" (some id) ("User updated: " ++ nameOf updated.2)
    (some (.obj (userFields user ++ [("avatar", optionalString user.avatar)])))
    (some (.obj (userFields updated.2 ++ [("avatar", optionalString updated.2.avatar)]))) .tx
  pure updated

def updateUser (slug : String) (data : UpdateUserInput) (updatedBy : Option ℕ) :
    Service (ℕ × User) := do
  match ← findUserBySlug slug with
  | none => throw (appError "User not found" 404)
  | some (id, user) => do
      match (truthy data.email).filter (fun email => some email ≠ user.email) with
      | some email => do
          if (← findUserByEmail email).isSome then throw (appError "Email already in use" 400)
          else pure ()
      | none => pure ()
      let updated ← transaction (updateUserInTransaction setup id user data updatedBy)
      invalidateAccess
      cacheService (.del [.userRole id])
      pure updated

def deleteUserInTransaction (id : ℕ) (user : User) (deletedBy : Option ℕ) : Service Unit := do
  let deletedAt ← request .now
  let _ ← changeOne users .tx (.id id) (.delete deletedAt)
  let _ ← deleteRefreshTokensByUserId .tx id
  logActivity deletedBy "DELETE" "User" (some id) ("User deleted: " ++ nameOf user)
    (some (.obj (userFields user))) none .tx

def deleteUser (slug : String) (deletedBy : Option ℕ) : Service Unit := do
  match ← findUserBySlug slug with
  | none => throw (appError "User not found" 404)
  | some (id, user) => do
      match truthy user.avatar with
      | some avatar => deleteFile "avatars" avatar
      | none => pure ()
      transaction (deleteUserInTransaction id user deletedBy)
      invalidateAccess
      cacheService (.del [.userRole id])

/-! ## `profile.service` -/

/-- `details` are the extended fields of `ProfileFields`. -/
structure UpdateProfileInput where
  name : Option String
  email : Option String
  avatar : Option String
  password : Option String
  details : ProfileFields

/-- `Object.keys(details)`, in the order of `PROFILE_FIELDS`. -/
def ProfileFields.keys (fields : ProfileFields) : List String :=
  (if fields.phone.isSome then ["phone"] else []) ++
    (if fields.birthDate.isSome then ["birthDate"] else []) ++
    (if fields.gender.isSome then ["gender"] else []) ++
    (if fields.locale.isSome then ["locale"] else [])

/-- `profileRepository.getProfile`: the user with role and details; the extension hides a
deleted role. -/
def findProfile (userId : ℕ) : Service (Option UserProfileData) := do
  let readAt ← request .commits
  match ← users (.find (.active userId)) with
  | none => pure none
  | some (id, user) => do
      let role ← match user.roleId with
        | none => pure none
        | some roleId => roles (.find (.id roleId))
      let profile ← userProfiles (.find (.user id))
      pure (some
        { id, slug := user.slug, name := user.name, email := user.email, avatar := user.avatar
          isEmailVerified := user.isEmailVerified, roleId := user.roleId
          role := (role.filter fun x => x.2.deletedAt.isNone).map fun x => (x.2.title, x.2.access)
          profile := toProfileResponse (profile.map Prod.snd)
          readAt })

def upsertDetails (userId : ℕ) (fields : ProfileFields) : Service Unit := do
  match fields.columns with
  | none => throw (Error.error "Provided Date object is invalid. Expected Date.")
  | some data => do
      let _ ← userProfiles (.upsert (.user userId)
        { userId, phone := data.phone.getD none, birthDate := data.birthDate.getD none
          gender := data.gender.getD none, locale := data.locale.getD none }
        (.user userId) data)
      statement (.complete .tx)

def getProfile (userId : ℕ) : Service UserProfileData := do
  match ← cacheService (.getProfile userId) with
  | some cached => pure cached
  | none => do
      match ← findProfile userId with
      | none => throw (appError "Profile not found" 404)
      | some profile => do
          cacheService (.setProfile userId profile)
          pure profile

def updateProfileInTransaction (userId : ℕ) (existing : UserProfileData)
    (data : UpdateProfileInput) : Service (ℕ × User) := do
  let newSlug ← slugForName setup existing.id existing.name data.name
  let newPassword ← hashIfSent setup data.password
  let updated ← changeOne users .tx (.id userId)
    (.update
      { name := truthy data.name, slug := newSlug, email := truthy data.email
        avatar := truthy data.avatar, password := newPassword })
  if data.details.keys.length > 0 then upsertDetails userId data.details else pure ()
  if (truthy newPassword).isSome then do
    let _ ← deleteRefreshTokensByUserId .tx userId
    pure ()
  else pure ()
  logActivity (some userId) "UPDATE" "Profile" (some userId) "User updated their profile"
    (some (.obj [("name", optionalString existing.name), ("email", optionalString existing.email),
      ("avatar", optionalString existing.avatar)]))
    (some (.obj ([("name", optionalString updated.2.name),
      ("email", optionalString updated.2.email), ("avatar", optionalString updated.2.avatar)] ++
      if data.details.keys.length > 0 then
        [("profileFields", .arr (data.details.keys.map .str))] else []))) .tx
  pure updated

def updateProfile (userId : ℕ) (data : UpdateProfileInput) : Service UserProfileData := do
  match ← findProfile userId with
  | none => throw (appError "Profile not found" 404)
  | some existing => do
      match truthy data.avatar, truthy existing.avatar with
      | some _, some avatar => deleteFile "avatars" avatar
      | _, _ => pure ()
      let updated ← transaction (updateProfileInTransaction setup userId existing data)
      cacheService (.del [.profile userId])
      let newProfileData ← getProfile updated.1
      cacheService (.setProfile userId newProfileData)
      pure newProfileData

end ExpressCore
