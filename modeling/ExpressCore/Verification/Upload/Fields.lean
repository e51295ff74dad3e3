import ExpressCore.Model.Upload

/-! # A rejected upload of several files -/

namespace ExpressCore.Upload

variable {fieldConfigs : List FieldConfig}

/-! ## The limits of the fields -/

/-- The file is within the limit of its own field. -/
def Fits (fieldConfigs : List FieldConfig) (file : StoredFile) : Prop :=
  ∀ cfg, configMap fieldConfigs file.fieldname = some cfg → file.size ≤ cfg.maxSize

theorem oversize_eq_none (file : StoredFile) :
    oversize fieldConfigs file.fieldname [file] = none ↔ Fits fieldConfigs file := by
  unfold Fits oversize
  cases h : configMap fieldConfigs file.fieldname with
  | none => simp
  | some cfg => simp

theorem oversize_eq_some {file found : StoredFile} {maxSize : ℕ}
    (h : oversize fieldConfigs file.fieldname [file] = some (found, maxSize)) :
    found = file ∧ maxSize < file.size := by
  unfold oversize at h
  cases hc : configMap fieldConfigs file.fieldname with
  | none => simp [hc] at h
  | some cfg =>
      simp only [hc, List.getElem?_cons_zero, Option.ite_none_right_eq_some, Option.some.injEq,
        Prod.mk.injEq] at h
      obtain ⟨habove, rfl, rfl⟩ := h
      exact ⟨rfl, habove⟩

theorem mem_unlink {unlinks : String × String → Bool} {path other : String × String}
    {disk : Disk} :
    other ∈ unlink unlinks path disk ↔ other ∈ disk ∧ ¬(unlinks path = true ∧ other = path) := by
  unfold unlink
  by_cases h : unlinks path = true <;> simp [h]

theorem configMap_mem {fieldname : String} {cfg : FieldConfig}
    (h : configMap fieldConfigs fieldname = some cfg) : cfg ∈ fieldConfigs := by
  simpa using List.mem_of_find?_eq_some h

/-- When the fields have one limit, Multer lets no file through that is above it. -/
theorem fits_of_equal (upload : AcceptedUpload fieldConfigs) {limit : ℕ}
    (h : ∀ cfg ∈ fieldConfigs, cfg.maxSize = limit) :
    ∀ file ∈ upload.files, Fits fieldConfigs file := by
  intro file hfile cfg hcfg
  obtain ⟨largest, hlargest, hsize⟩ := upload.limited file hfile
  have hmem : largest ∈ fieldConfigs.map FieldConfig.maxSize := List.max?_mem hlargest
  obtain ⟨other, hother, rfl⟩ := List.mem_map.mp hmem
  rw [h cfg (configMap_mem hcfg)]
  rw [h other hother] at hsize
  exact hsize

/-! ## The loop -/

variable (megabytes : ℕ → String) (unlinks : String × String → Bool)

/-- The loop on the entries of some files. -/
def enforced (fieldConfigs : List FieldConfig) (files : List StoredFile) (disk : Disk) :
    Option Error × Disk :=
  enforceSizes megabytes unlinks fieldConfigs
    (files.map fun file => (file.fieldname, [file])) disk

theorem enforced_cons_of_fits {file : StoredFile} (h : Fits fieldConfigs file)
    (files : List StoredFile) (disk : Disk) :
    enforced megabytes unlinks fieldConfigs (file :: files) disk =
      enforced megabytes unlinks fieldConfigs files disk := by
  simp [enforced, enforceSizes, (oversize_eq_none file).mpr h]

theorem enforced_cons_of_not_fits {file : StoredFile} (h : ¬Fits fieldConfigs file)
    (files : List StoredFile) (disk : Disk) :
    ∃ error, enforced megabytes unlinks fieldConfigs (file :: files) disk =
      (some error, unlink unlinks (filePath fieldConfigs file) disk) := by
  cases hover : oversize fieldConfigs file.fieldname [file] with
  | none => exact absurd ((oversize_eq_none file).mp hover) h
  | some found =>
      obtain ⟨found, maxSize⟩ := found
      obtain ⟨rfl, -⟩ := oversize_eq_some hover
      refine ⟨appError ("File \"" ++ found.fieldname ++ "\" exceeds the maximum allowed size of " ++
        megabytes maxSize ++ "MB") 413, ?_⟩
      simp only [enforced, List.map_cons, enforceSizes, hover]

/-- The loop reports the first file above its limit, and removes no other. -/
theorem enforced_of_not_fits {files : List StoredFile} (disk : Disk)
    (h : ¬∀ file ∈ files, Fits fieldConfigs file) :
    ∃ before file after error, files = before ++ file :: after ∧
      (∀ earlier ∈ before, Fits fieldConfigs earlier) ∧ ¬Fits fieldConfigs file ∧
      enforced megabytes unlinks fieldConfigs files disk =
        (some error, unlink unlinks (filePath fieldConfigs file) disk) := by
  induction files with
  | nil => simp at h
  | cons file files ih =>
      by_cases hfits : Fits fieldConfigs file
      · have hrest : ¬∀ other ∈ files, Fits fieldConfigs other := by
          intro hall
          apply h
          simpa [hfits] using hall
        obtain ⟨before, found, after, error, hfiles, hbefore, hfound, hrun⟩ := ih hrest
        refine ⟨file :: before, found, after, error, by simp [hfiles], ?_, hfound, ?_⟩
        · simpa [hfits] using hbefore
        · rw [enforced_cons_of_fits megabytes unlinks hfits, hrun]
      · obtain ⟨error, hrun⟩ := enforced_cons_of_not_fits megabytes unlinks hfits files disk
        exact ⟨[], file, files, error, rfl, by simp, hfits, hrun⟩

theorem enforced_of_fits {files : List StoredFile} (disk : Disk)
    (h : ∀ file ∈ files, Fits fieldConfigs file) :
    enforced megabytes unlinks fieldConfigs files disk = (none, disk) := by
  induction files with
  | nil => rfl
  | cons file files ih =>
      rw [enforced_cons_of_fits megabytes unlinks (h file (by simp))]
      apply ih
      intro other hother
      exact h other (by simp [hother])

/-! ## The middleware -/

/-- The middleware passes control on without an error iff every file is within its limit. -/
theorem outcome_error (upload : AcceptedUpload fieldConfigs) :
    (upload.outcome megabytes unlinks).1 = none ↔
      ∀ file ∈ upload.files, Fits fieldConfigs file := by
  constructor
  · intro hnone
    by_contra h
    obtain ⟨before, file, after, error, hfiles, hbefore, hfile, hrun⟩ :=
      enforced_of_not_fits megabytes unlinks upload.disk h
    have herror : (upload.outcome megabytes unlinks).1 = some error := congrArg Prod.fst hrun
    rw [hnone] at herror
    cases herror
  · intro h
    exact congrArg Prod.fst (enforced_of_fits megabytes unlinks upload.disk h)

/-- After a rejection the disk is as before but for one file that is above its limit. -/
theorem outcome_disk (upload : AcceptedUpload fieldConfigs)
    (h : ¬∀ file ∈ upload.files, Fits fieldConfigs file) :
    ∃ file ∈ upload.files, ¬Fits fieldConfigs file ∧
      (upload.outcome megabytes unlinks).2 =
        unlink unlinks (filePath fieldConfigs file) upload.disk := by
  obtain ⟨before, file, after, error, hfiles, -, hfile, hrun⟩ :=
    enforced_of_not_fits megabytes unlinks upload.disk h
  exact ⟨file, by simp [hfiles], hfile, congrArg Prod.snd hrun⟩

/-- An error is reported iff a file is above its limit, and after one no file of the request is
on disk. -/
def LeavesNothing (upload : AcceptedUpload fieldConfigs) : Prop :=
  ((upload.outcome megabytes unlinks).1 = none ↔
    ∀ file ∈ upload.files, Fits fieldConfigs file) ∧
  ((upload.outcome megabytes unlinks).1 ≠ none →
    ∀ file ∈ upload.files, filePath fieldConfigs file ∉ (upload.outcome megabytes unlinks).2)

/-- The middleware leaves nothing iff it has nothing to reject, or all that the request stored is
under one path, which the file system removes. -/
theorem leavesNothing_iff (upload : AcceptedUpload fieldConfigs) :
    LeavesNothing megabytes unlinks upload ↔
      (∀ file ∈ upload.files, Fits fieldConfigs file) ∨
      ∃ path, unlinks path = true ∧ ∀ file ∈ upload.files, filePath fieldConfigs file = path := by
  have herror := outcome_error megabytes unlinks upload
  by_cases h : ∀ file ∈ upload.files, Fits fieldConfigs file
  · have hleaves : LeavesNothing megabytes unlinks upload :=
      ⟨herror, fun hreported => absurd (herror.mpr h) hreported⟩
    exact iff_of_true hleaves (Or.inl h)
  · obtain ⟨rejected, hrejected, -, hdisk⟩ := outcome_disk megabytes unlinks upload h
    constructor
    · intro hleaves
      right
      refine ⟨filePath fieldConfigs rejected, ?_⟩
      -- every file was on disk, so the one removal took each of them
      have hremoved : ∀ file ∈ upload.files,
          unlinks (filePath fieldConfigs rejected) = true ∧
            filePath fieldConfigs file = filePath fieldConfigs rejected := by
        intro file hfile
        have hgone := hleaves.2 (fun hnone => h (herror.mp hnone)) file hfile
        rw [hdisk, mem_unlink] at hgone
        by_contra hkept
        exact hgone ⟨upload.stored file hfile, hkept⟩
      exact ⟨(hremoved rejected hrejected).1, fun file hfile => (hremoved file hfile).2⟩
    · intro hcond
      refine ⟨herror, ?_⟩
      intro _ file hfile hleft
      obtain hfits | ⟨path, hpath, hall⟩ := hcond
      · exact h hfits
      · rw [hdisk, mem_unlink] at hleft
        apply hleft.2
        rw [hall rejected hrejected, hall file hfile]
        exact ⟨hpath, rfl⟩

def twoFields : List FieldConfig :=
  [⟨"avatar", "avatars", ["image/png"], 2 * 1024 * 1024⟩,
    ⟨"document", "documents", ["application/pdf"], 5 * 1024 * 1024⟩]

/-- A picture above the limit of its field beside a small document. -/
def pictureAndDocument : AcceptedUpload twoFields where
  files := [⟨⟨"image/png", ".png", 3 * 1024 * 1024⟩, "avatar", "a0"⟩,
    ⟨⟨"application/pdf", ".pdf", 1024⟩, "document", "b1"⟩]
  disk := [("avatars", "a0.png"), ("documents", "b1.pdf")]
  distinct := by decide
  filtered := by decide
  limited := by
    intro file hfile
    refine ⟨5 * 1024 * 1024, rfl, ?_⟩
    simp only [List.mem_cons, List.not_mem_nil, or_false] at hfile
    obtain rfl | rfl := hfile <;> decide
  stored := by decide

theorem leavesNothing_not_pictureAndDocument :
    ¬LeavesNothing (fun bytes => toString (bytes / (1024 * 1024))) (fun _ => true)
      pictureAndDocument := by
  intro h
  have hgone := h.2 (by decide) ⟨⟨"application/pdf", ".pdf", 1024⟩, "document", "b1"⟩
    (by simp [pictureAndDocument])
  exact hgone (by decide)

end ExpressCore.Upload
