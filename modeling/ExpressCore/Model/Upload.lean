import ExpressCore.Model.Routes

/-! # Uploads of several files

`createFieldsUploader` of the upload middleware. Multer stores the files of a request before the
middleware compares each with the limit of its own field. -/

namespace ExpressCore

def MIME_EXT_MAP : List (String × String) :=
  [("image/jpeg", ".jpg"), ("image/jpg", ".jpg"), ("image/png", ".png"), ("image/webp", ".webp"),
    ("application/pdf", ".pdf")]

structure FieldConfig where
  name : String
  folder : String
  allowedTypes : List String
  maxSize : ℕ

/-- A file that Multer has stored; `name` is the text of its random bytes. -/
structure StoredFile extends UploadedFile where
  fieldname : String
  name : String

/-- `configMap[fieldname]`: of several configurations of a field the last one counts. -/
def configMap (fieldConfigs : List FieldConfig) (fieldname : String) : Option FieldConfig :=
  fieldConfigs.reverse.find? fun c => c.name == fieldname

/-- `destination`, below the root of the uploads. -/
def destination (fieldConfigs : List FieldConfig) (fieldname : String) : String :=
  match configMap fieldConfigs fieldname with
  | some cfg => cfg.folder
  | none => "misc"

def filename (file : StoredFile) : String := file.name ++ file.extname

/-- `file.path`, as folder and name. -/
def filePath (fieldConfigs : List FieldConfig) (file : StoredFile) : String × String :=
  (destination fieldConfigs file.fieldname, filename file)

/-- `fileFilter`, with the error that it reports. -/
def fileFilter (fieldConfigs : List FieldConfig) (file : StoredFile) : Option Error :=
  match configMap fieldConfigs file.fieldname with
  | none => some (appError "Unexpected field" 400)
  | some cfg =>
      if file.mimetype ∉ cfg.allowedTypes then
        some (appError ("Invalid file type for field \"" ++ file.fieldname ++ "\"") 400)
      else if lower file.extname ∉ cfg.allowedTypes.filterMap (MIME_EXT_MAP.lookup ·) then
        some (appError ("Invalid file extension for field \"" ++ file.fieldname ++ "\"") 400)
      else none

/-- `limits.fileSize`, with `none` for the maximum of no number. -/
def maxFileSize (fieldConfigs : List FieldConfig) : Option ℕ :=
  (fieldConfigs.map FieldConfig.maxSize).max?

/-- The files on disk by folder and name. -/
abbrev Disk := List (String × String)

/-- `fs.unlink`; `unlinks` says which files the file system can remove, and nothing hears of a
failure. -/
def unlink (unlinks : String × String → Bool) (path : String × String) (disk : Disk) : Disk :=
  if unlinks path then disk.filter (· ≠ path) else disk

/-- `cfg && files[0] && files[0].size > cfg.maxSize`, with the file and its field's limit. -/
def oversize (fieldConfigs : List FieldConfig) (fieldname : String) (files : List StoredFile) :
    Option (StoredFile × ℕ) :=
  match configMap fieldConfigs fieldname, files[0]? with
  | some cfg, some file => if file.size > cfg.maxSize then some (file, cfg.maxSize) else none
  | _, _ => none

variable (megabytes : ℕ → String) (unlinks : String × String → Bool)

/-- The loop over `Object.entries(req.files)`, with the argument of `next` and the disk that it
leaves. `megabytes` is the text of a number of bytes divided by `1024 * 1024`. -/
def enforceSizes (fieldConfigs : List FieldConfig) :
    List (String × List StoredFile) → Disk → Option Error × Disk
  | [], disk => (none, disk)
  | (fieldname, files) :: entries, disk =>
      match oversize fieldConfigs fieldname files with
      | some (file, maxSize) =>
          (some (appError ("File \"" ++ fieldname ++ "\" exceeds the maximum allowed size of " ++
              megabytes maxSize ++ "MB") 413),
            unlink unlinks (filePath fieldConfigs file) disk)
      | none => enforceSizes fieldConfigs entries disk

/-- The middleware on what Multer makes of a request: an error, or `req.files` with the disk. -/
def createFieldsUploader (fieldConfigs : List FieldConfig)
    (multerUpload : Except Error (Option (List (String × List StoredFile)))) (disk : Disk) :
    Option Error × Disk :=
  match multerUpload with
  | .error err => (some err, disk)
  | .ok none => (none, disk)
  | .ok (some files) => enforceSizes megabytes unlinks fieldConfigs files disk

/-- A request that Multer accepts: at most one file of each field, every one through the filter,
within the common limit and on disk. The fields are in the order of `Object.entries`. -/
structure AcceptedUpload (fieldConfigs : List FieldConfig) where
  files : List StoredFile
  disk : Disk
  distinct : (files.map StoredFile.fieldname).Nodup
  filtered : ∀ file ∈ files, fileFilter fieldConfigs file = none
  limited : ∀ file ∈ files, ∃ limit, maxFileSize fieldConfigs = some limit ∧ file.size ≤ limit
  stored : ∀ file ∈ files, filePath fieldConfigs file ∈ disk

/-- `req.files` of the request. -/
def AcceptedUpload.reqFiles {fieldConfigs : List FieldConfig}
    (upload : AcceptedUpload fieldConfigs) : List (String × List StoredFile) :=
  upload.files.map fun file => (file.fieldname, [file])

/-- The middleware on an accepted request. -/
def AcceptedUpload.outcome {fieldConfigs : List FieldConfig}
    (upload : AcceptedUpload fieldConfigs) : Option Error × Disk :=
  createFieldsUploader megabytes unlinks fieldConfigs (.ok (some upload.reqFiles)) upload.disk

end ExpressCore
