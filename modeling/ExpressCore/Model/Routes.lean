import ExpressCore.Model.User

/-! # The requests that upload and remove avatars

The middleware of the routes in order, up to the service. -/

namespace ExpressCore

open ReadCommitted Interleaving Program

variable (setup : Setup)

/-- What Multer learns of a file: `extname` is `path.extname` of its original name. -/
structure UploadedFile where
  mimetype : String
  extname : String
  size : ℕ

/-- `allowedTypes` of the avatar uploaders with their extensions in `MIME_EXT_MAP`. -/
def AVATAR_TYPES : List (String × String) :=
  [("image/jpeg", ".jpg"), ("image/png", ".png"), ("image/webp", ".webp")]

def AVATAR_MAX_SIZE : ℕ := 2 * 1024 * 1024

/-- `avatarUploader.single('avatar')`: the name the file is stored under. Multer removes a file
that it could not store whole, and takes one that reaches the limit to be longer. -/
def uploadAvatar : Option UploadedFile → Service (Option String)
  | none => pure none
  | some file =>
      if file.mimetype ∉ AVATAR_TYPES.map Prod.fst then
        throw (appError "Invalid file type" 400)
      else if lower file.extname ∉ AVATAR_TYPES.map Prod.snd then
        throw (appError "Invalid file extension" 400)
      else do
        let bytes ← request (.randomBytes 16)
        let filename := toHex bytes ++ file.extname
        if AVATAR_MAX_SIZE ≤ file.size then throw (Error.error "File too large")
        else if ← request (.saveFile "avatars" filename) then pure (some filename)
        else throw (Error.error "write failed")

/-- `validate`; `body` is what the schema makes of the body of the request. -/
def validate {α : Type} : Except (List (String × String)) α → Service α
  | .error problems => throw (Error.validation "Validation failed" 400 problems)
  | .ok data => pure data

def problemsOf {α : Type} : Except (List (String × String)) α → List (String × String)
  | .error problems => problems
  | .ok _ => []

/-- `updateProfileSchema`; `others` is what it makes of the properties that are no extended
field. -/
def updateProfileSchema (locales : Locales) (now : Time)
    (others : Except (List (String × String)) UpdateProfileInput) (body : ProfileBody) :
    Except (List (String × String)) UpdateProfileInput :=
  match others, parseProfileFields locales now body with
  | .ok data, .ok details => .ok { data with details }
  | others, fields => .error (problemsOf others ++ problemsOf fields)

/-- `PUT /profile`; the stored file replaces an avatar in the body. -/
def putProfile (locales : Locales) (userId : ℕ) (file : Option UploadedFile)
    (others : Except (List (String × String)) UpdateProfileInput) (body : ProfileBody) :
    Service UserProfileData := do
  let avatar ← uploadAvatar file
  let now ← request .now
  let data ← validate (updateProfileSchema locales now others body)
  updateProfile setup userId { data with avatar }

end ExpressCore
