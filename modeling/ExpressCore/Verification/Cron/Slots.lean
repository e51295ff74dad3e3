import ExpressCore.Verification.Cron.Keys
import Mathlib.Data.Int.Notation

/-! # Ticks and their jobs

Ticks follow the clocks of a time zone, and the ids of their jobs follow UTC. -/

namespace ExpressCore.Cron

/-! ## Time zones -/

/-- `offset` is how far the clocks of the zone are ahead of UTC, in milliseconds. -/
structure Zone where
  offset : ℕ → ℤ
  within : ∀ u, -43200000 ≤ offset u ∧ offset u ≤ 50400000
  steady : ∀ u u', u ≤ u' → u' ≤ u + 86400000 →
    offset u - 3600000 ≤ offset u' ∧ offset u' ≤ offset u + 3600000

namespace Zone

variable (zone : Zone)

/-- What the clocks show. -/
def wall (u : ℕ) : ℤ := u + zone.offset u

/-- The local hour or day. -/
def slot (unit : SlotUnit) (u : ℕ) : ℤ := zone.wall u / slotLength unit

/-- The instants at which node-cron fires: full hours or midnights, in years of four digits. -/
def Ticks (unit : SlotUnit) (u : ℕ) : Prop :=
  (slotLength unit : ℤ) ∣ zone.wall u ∧ u + 3600000 ≤ YEAR_10000

/-- No slot of UTC ends within an hour after a tick, and none has two ticks. -/
def Separated : SlotUnit → Prop
  | .hour => ∀ u, zone.Ticks .hour u → 3600000 ∣ zone.offset u
  | .day =>
      (∀ u, zone.Ticks .day u → ¬ (0 < zone.offset u ∧ zone.offset u < 3600000)) ∧
        ∀ u u', zone.Ticks .day u → zone.Ticks .day u' →
          zone.slot .day u' = zone.slot .day u + 1 →
            ¬ (zone.offset u = 0 ∧ zone.offset u' = 3600000)

end Zone

variable {zone : Zone} {unit : SlotUnit} {u u' a a' : ℕ}

/-- All calls for a tick fall into one slot of UTC. -/
theorem Zone.Separated.shared (h : zone.Separated unit) (htick : zone.Ticks unit u)
    (ha : u ≤ a ∧ a < u + 3600000) (ha' : u ≤ a' ∧ a' < u + 3600000) :
    a / slotLength unit = a' / slotLength unit := by
  have hwall := htick.1
  cases unit with
  | hour =>
      have hoffset := h u htick
      simp only [Zone.wall, slotLength] at hwall ⊢
      omega
  | day =>
      have hoffset := h.1 u htick
      have hwithin := zone.within u
      simp only [Zone.wall, slotLength] at hwall ⊢
      omega

/-- Calls in one slot of UTC are for ticks of one local hour or day. -/
theorem Zone.Separated.apart (h : zone.Separated unit) (htick : zone.Ticks unit u)
    (htick' : zone.Ticks unit u') (ha : u ≤ a ∧ a < u + 3600000)
    (ha' : u' ≤ a' ∧ a' < u' + 3600000) (hkey : a / slotLength unit = a' / slotLength unit)
    (hle : u ≤ u') : zone.slot unit u = zone.slot unit u' := by
  have hwall := htick.1
  have hwall' := htick'.1
  cases unit with
  | hour =>
      have hoffset := h u htick
      have hoffset' := h u' htick'
      have heq : u = u' := by
        simp only [Zone.wall, slotLength] at hwall hwall' hkey
        omega
      rw [heq]
  | day =>
      have hday := h.shared htick ⟨Nat.le_refl u, Nat.lt_add_of_pos_right (by decide)⟩ ha
      have hday' := h.shared htick' ⟨Nat.le_refl u', Nat.lt_add_of_pos_right (by decide)⟩ ha'
      have hoffset' := h.1 u' htick'
      have hwithin := zone.within u
      have hwithin' := zone.within u'
      have hnext := h.2 u u' htick htick'
      simp only [Zone.slot, Zone.wall, slotLength] at hwall hwall' hkey hnext hday hday' ⊢
      have hsteady := zone.steady u u' hle (by omega)
      by_contra hne
      have hsucc : (u' + zone.offset u') / 86400000 = (u + zone.offset u) / 86400000 + 1 := by
        omega
      -- Two midnights in one day of UTC: it begins with one, and its last hour with the other.
      exact hnext hsucc (by omega)

/-! ## Calls -/

/-- A call of `enqueueScheduled` at `time`, for the tick that was due at `due`. -/
structure Enqueue where
  schedule : Schedule
  due : ℕ
  time : ℕ

namespace Enqueue

/-- The job of a call. -/
def job (e : Enqueue) (name : String) : SystemJob where
  name := name
  options := scheduledJobOptions name e.schedule.unit e.time
  finished := none

def jobId (e : Enqueue) (name : String) : String := (e.job name).options.jobId

/-- The jobs of a call, the last first. -/
def jobs (e : Enqueue) : List SystemJob := (e.schedule.jobs.map e.job).reverse

/-- A call for a tick, less than an hour after it is due. -/
structure Handles (zone : Zone) (e : Enqueue) : Prop where
  schedule : e.schedule ∈ SCHEDULES
  tick : zone.Ticks e.schedule.unit e.due
  prompt : e.due ≤ e.time ∧ e.time < e.due + 3600000

end Enqueue

/-- `Run zone calls queue now`: the calls, the last first, have led to the queue. -/
inductive Run (zone : Zone) : List Enqueue → List SystemJob → ℕ → Prop where
  | start : Run zone [] [] 0
  | wait {calls : List Enqueue} {queue : List SystemJob} {now : ℕ} (later : ℕ) :
      Run zone calls queue now → now ≤ later → Run zone calls queue later
  | enqueue {calls : List Enqueue} {queue : List SystemJob} (e : Enqueue) :
      Run zone calls queue e.time → e.Handles zone →
        Run zone (e :: calls) (enqueueScheduled e.schedule e.time queue) e.time
  | finish {calls : List Enqueue} {queue : List SystemJob} {now : ℕ} (jobId : String)
      (failed : Bool) : Run zone calls queue now →
        Run zone calls (finishJob jobId failed now queue) now
  | remove {calls : List Enqueue} {queue : List SystemJob} {now : ℕ} (job : SystemJob) :
      Run zone calls queue now → job ∈ queue → job.expired now = true →
        Run zone calls (queue.erase job) now

/-- In every run the calls for one tick share their jobs, and ticks of different local hours or
days have jobs of their own. -/
structure Faithful (zone : Zone) (unit : SlotUnit) : Prop where
  shared : ∀ calls queue (e e' : Enqueue), Run zone calls queue e.time → e.Handles zone →
    e.schedule.unit = unit → e' ∈ calls → e'.schedule = e.schedule → e'.due = e.due →
      (∀ name, e'.jobId name = e.jobId name) ∧
        enqueueScheduled e.schedule e.time queue = queue
  apart : ∀ calls queue (e e' : Enqueue), Run zone calls queue e.time → e.Handles zone →
    e.schedule.unit = unit → e' ∈ calls → e'.schedule = e.schedule →
      zone.slot unit e'.due ≠ zone.slot unit e.due → ∀ name, e'.jobId name ≠ e.jobId name
  own : ∀ calls queue (e : Enqueue), Run zone calls queue e.time → e.Handles zone → e.schedule.unit = unit →
    (∀ e' ∈ calls, e'.schedule = e.schedule → zone.slot unit e'.due ≠ zone.slot unit e.due) →
      enqueueScheduled e.schedule e.time queue = e.jobs ++ queue

/-! ## The queue -/

section Queue

variable {name name' : String} {names : List String} {queue : List SystemJob}
  {e e' : Enqueue} {job : SystemJob}

theorem jobId_eq_iff : e'.jobId name = e.jobId name ↔
    slotKey e'.schedule.unit e'.time = slotKey e.schedule.unit e.time := by
  constructor
  · intro h
    have hchars := congrArg String.toList h
    simp only [Enqueue.jobId, Enqueue.job, scheduledJobOptions, String.toList_append] at hchars
    exact String.toList_injective (List.append_cancel_left hchars)
  · intro h
    simp only [Enqueue.jobId, Enqueue.job, scheduledJobOptions, h]

/-- The names of the scheduled jobs. -/
theorem name_of_mem (h : e.schedule ∈ SCHEDULES) (hname : name ∈ e.schedule.jobs) :
    '-' ∉ name.toList ∧ ∀ schedule ∈ SCHEDULES, name ∈ schedule.jobs → schedule = e.schedule := by
  have hall : ∀ schedule ∈ SCHEDULES, ∀ name ∈ schedule.jobs, '-' ∉ name.toList ∧
      ∀ schedule' ∈ SCHEDULES, name ∈ schedule'.jobs → schedule' = schedule := by decide
  exact hall e.schedule h name hname

/-- An id tells the job and the slot. -/
theorem eq_of_jobId (h : e.schedule ∈ SCHEDULES) (h' : e'.schedule ∈ SCHEDULES)
    (hname : name ∈ e.schedule.jobs) (hname' : name' ∈ e'.schedule.jobs)
    (heq : e'.jobId name' = e.jobId name) : name' = name ∧ e'.schedule = e.schedule := by
  have hdash : "-".toList = ['-'] := by decide
  have hchars := congrArg String.toList heq
  simp only [Enqueue.jobId, Enqueue.job, scheduledJobOptions, String.toList_append, hdash,
    List.append_assoc, List.cons_append, List.nil_append] at hchars
  have hnames := (Otp.split_unique (name_of_mem h' hname').1 (name_of_mem h hname).1 hchars).1
  obtain rfl : name' = name := String.toList_injective hnames
  exact ⟨rfl, (name_of_mem h hname).2 _ h' hname'⟩

theorem subset_addJob {options : ScheduledJobOptions} : queue ⊆ addJob name options queue := by
  unfold addJob
  split
  · exact List.Subset.refl _
  · exact List.subset_cons_self _ _

theorem exists_addJob (name : String) (options : ScheduledJobOptions) (queue : List SystemJob) :
    ∃ job ∈ addJob name options queue, job.options.jobId = options.jobId := by
  unfold addJob
  split
  · rename_i hany
    obtain ⟨job, hjob, heq⟩ := List.any_eq_true.mp hany
    exact ⟨job, hjob, beq_iff_eq.mp heq⟩
  · exact ⟨_, .head _, rfl⟩

theorem mem_addJob (h : job ∈ addJob name (e.job name).options queue) :
    job ∈ queue ∨ job = e.job name := by
  unfold addJob at h
  split at h
  · exact .inl h
  · exact (List.mem_cons.mp h).symm

/-- The jobs of a call one after the other. -/
def addJobs (e : Enqueue) (names : List String) (queue : List SystemJob) : List SystemJob :=
  names.foldl (fun queue name => addJob name (e.job name).options queue) queue

theorem subset_addJobs : queue ⊆ addJobs e names queue := by
  induction names generalizing queue with
  | nil => exact List.Subset.refl _
  | cons name names ih => exact List.Subset.trans subset_addJob ih

theorem exists_addJobs (h : name ∈ names) :
    ∃ job ∈ addJobs e names queue, job.options.jobId = e.jobId name := by
  induction names generalizing queue with
  | nil => cases h
  | cons other names ih =>
      rcases List.mem_cons.mp h with rfl | h
      · obtain ⟨job, hjob, heq⟩ := exists_addJob name (e.job name).options queue
        have hsubset : addJob name (e.job name).options queue ⊆
            addJobs e names (addJob name (e.job name).options queue) := subset_addJobs
        exact ⟨job, hsubset hjob, heq⟩
      · exact ih h

theorem mem_addJobs (h : job ∈ addJobs e names queue) :
    job ∈ queue ∨ ∃ name ∈ names, job = e.job name := by
  induction names generalizing queue with
  | nil => exact .inl h
  | cons name names ih =>
      rcases ih h with h | ⟨other, hother, rfl⟩
      · exact (mem_addJob h).imp id fun heq => ⟨name, .head _, heq⟩
      · exact .inr ⟨other, .tail _ hother, rfl⟩

/-- Nothing is added when the ids are in use. -/
theorem addJobs_eq_self (h : ∀ name ∈ names, ∃ job ∈ queue, job.options.jobId = e.jobId name) :
    addJobs e names queue = queue := by
  induction names with
  | nil => rfl
  | cons name names ih =>
      have hany : (queue.any fun job => job.options.jobId == (e.job name).options.jobId) = true := by
        obtain ⟨job, hjob, heq⟩ := h name (.head _)
        exact List.any_eq_true.mpr ⟨job, hjob, beq_iff_eq.mpr heq⟩
      have hadd : addJob name (e.job name).options queue = queue := by
        rw [addJob, if_pos hany]
      rw [addJobs, List.foldl_cons, hadd]
      exact ih fun name hname => h name (.tail _ hname)

/-- Everything is added when no id is in use. -/
theorem addJobs_eq_append (hnodup : names.Nodup)
    (h : ∀ name ∈ names, ∀ job ∈ queue, job.options.jobId ≠ e.jobId name) :
    addJobs e names queue = (names.map e.job).reverse ++ queue := by
  induction names generalizing queue with
  | nil => rfl
  | cons name names ih =>
      obtain ⟨hnot, hnodup⟩ := List.nodup_cons.mp hnodup
      have hany : (queue.any fun job => job.options.jobId == (e.job name).options.jobId) ≠ true := by
        intro hany
        obtain ⟨job, hjob, heq⟩ := List.any_eq_true.mp hany
        exact h name (.head _) job hjob (beq_iff_eq.mp heq)
      have hadd : addJob name (e.job name).options queue = e.job name :: queue := by
        rw [addJob, if_neg hany]
        rfl
      rw [addJobs, List.foldl_cons, hadd, List.map_cons, List.reverse_cons, List.append_assoc]
      refine ih hnodup fun other hother job hjob => ?_
      rcases List.mem_cons.mp hjob with rfl | hjob
      · intro heq
        have hchars := congrArg String.toList heq
        simp only [Enqueue.jobId, Enqueue.job, scheduledJobOptions, String.toList_append,
          List.append_assoc] at hchars
        exact hnot (String.toList_injective (List.append_cancel_right hchars) ▸ hother)
      · exact h other (.tail _ hother) job hjob

end Queue

/-! ## Runs -/

theorem slotLength_eq (unit : SlotUnit) : slotLength unit = SLOT_SECONDS unit * 1000 := by
  cases unit <;> rfl

/-- Two instants of one slot are less than a slot apart. -/
theorem lt_of_same_slot (h : a / slotLength unit = a' / slotLength unit) :
    a < a' + slotLength unit := by
  cases unit <;> simp only [slotLength] at h ⊢ <;> omega

/-- What a run leaves: every job in the queue stems from a call, and the job of a call stays for
a slot at least. -/
structure Kept (zone : Zone) (calls : List Enqueue) (queue : List SystemJob) (now : ℕ) : Prop where
  handled : ∀ e ∈ calls, e.Handles zone
  past : ∀ e ∈ calls, e.time ≤ now
  traced : ∀ job ∈ queue, ∃ e ∈ calls, job.name ∈ e.schedule.jobs ∧
    job.options = (e.job job.name).options ∧ ∀ f, job.finished = some f → e.time ≤ f.1
  kept : ∀ e ∈ calls, ∀ name ∈ e.schedule.jobs,
    (∃ job ∈ queue, job.options.jobId = e.jobId name) ∨
      e.time + slotLength e.schedule.unit ≤ now

variable {calls : List Enqueue} {queue : List SystemJob} {now : ℕ} {e e' : Enqueue}

theorem Enqueue.Handles.four_digits (h : e.Handles zone) : e.time < YEAR_10000 := by
  have hrange := h.tick.2
  have hprompt := h.prompt.2
  omega

theorem Enqueue.Handles.same_slot (h : e.Handles zone) (h' : e'.Handles zone)
    (heq : slotKey e.schedule.unit e'.time = slotKey e.schedule.unit e.time) :
    e'.time / slotLength e.schedule.unit = e.time / slotLength e.schedule.unit :=
  (slotKey_eq_iff h'.four_digits h.four_digits).mp heq

theorem Kept.enqueue (h : Kept zone calls queue e.time) (he : e.Handles zone) :
    Kept zone (e :: calls) (enqueueScheduled e.schedule e.time queue) e.time where
  handled e' he' := by
    rcases List.mem_cons.mp he' with rfl | he'
    · exact he
    · exact h.handled e' he'
  past e' he' := by
    rcases List.mem_cons.mp he' with rfl | he'
    · exact Nat.le_refl _
    · exact h.past e' he'
  traced job hjob := by
    rcases mem_addJobs hjob with hjob | ⟨name, hname, rfl⟩
    · obtain ⟨e', he', hrest⟩ := h.traced job hjob
      exact ⟨e', .tail _ he', hrest⟩
    · exact ⟨e, .head _, hname, rfl, nofun⟩
  kept e' he' name hname := by
    rcases List.mem_cons.mp he' with rfl | he'
    · exact .inl (exists_addJobs hname)
    · refine (h.kept e' he' name hname).imp ?_ id
      rintro ⟨job, hjob, heq⟩
      exact ⟨job, subset_addJobs hjob, heq⟩

theorem Kept.wait {later : ℕ} (h : Kept zone calls queue now) (hle : now ≤ later) :
    Kept zone calls queue later where
  handled := h.handled
  past e he := Nat.le_trans (h.past e he) hle
  traced := h.traced
  kept e he name hname := (h.kept e he name hname).imp id fun hkept => Nat.le_trans hkept hle

theorem Kept.finish {jobId : String} {failed : Bool} (h : Kept zone calls queue now) :
    Kept zone calls (finishJob jobId failed now queue) now where
  handled := h.handled
  past := h.past
  traced job hjob := by
    obtain ⟨job', hjob', rfl⟩ := List.mem_map.mp hjob
    obtain ⟨e, he, hname, hoptions, hfinished⟩ := h.traced job' hjob'
    split
    · refine ⟨e, he, hname, hoptions, fun f hf => ?_⟩
      cases hold : job'.finished with
      | none =>
          simp only [hold, Option.none_or, Option.some.injEq] at hf
          exact hf ▸ h.past e he
      | some f' =>
          simp only [hold, Option.some_or, Option.some.injEq] at hf
          exact hf ▸ hfinished f' hold
    · exact ⟨e, he, hname, hoptions, hfinished⟩
  kept e he name hname := by
    refine (h.kept e he name hname).imp ?_ id
    rintro ⟨job, hjob, heq⟩
    refine ⟨_, List.mem_map_of_mem hjob, ?_⟩
    split <;> exact heq

/-- A job with the id of a call was added in the slot of the call. -/
theorem Enqueue.Handles.lt_of_jobId {name name' : String} (h : e.Handles zone)
    (h' : e'.Handles zone) (hname : name ∈ e.schedule.jobs) (hname' : name' ∈ e'.schedule.jobs)
    (heq : e'.jobId name' = e.jobId name) :
    e.schedule = e'.schedule ∧ e.time < e'.time + slotLength e.schedule.unit := by
  obtain ⟨rfl, hschedule⟩ := eq_of_jobId h.schedule h'.schedule hname hname' heq
  have hkey := jobId_eq_iff.mp heq
  rw [hschedule] at hkey
  exact ⟨hschedule.symm, lt_of_same_slot (h.same_slot h' hkey).symm⟩

/-- The retention of a job is two slots long. -/
theorem expired_after {job : SystemJob} {name : String}
    (hoptions : job.options = (e.job name).options)
    (hfinished : ∀ f, job.finished = some f → e.time ≤ f.1) (h : job.expired now = true) :
    e.time + 2 * slotLength e.schedule.unit ≤ now := by
  obtain ⟨⟨time, failed⟩, hjob, hexpired⟩ := (Option.any_eq_true _ _).mp h
  have htime : e.time ≤ time := hfinished _ hjob
  simp only [hoptions, Enqueue.job, scheduledJobOptions, ite_self, decide_eq_true_eq] at hexpired
  rw [slotLength_eq, ← Nat.mul_assoc]
  exact Nat.le_trans (Nat.add_le_add_right htime _) hexpired

/-- A job whose retention is over was added two slots before. -/
theorem Kept.remove {job : SystemJob} (h : Kept zone calls queue now) (hjob : job ∈ queue)
    (hexpired : job.expired now = true) : Kept zone calls (queue.erase job) now where
  handled := h.handled
  past := h.past
  traced job' hjob' := h.traced job' (List.mem_of_mem_erase hjob')
  kept e he name hname := by
    rcases h.kept e he name hname with ⟨job', hjob', heq⟩ | hpast
    · by_cases hsame : job' = job
      · subst hsame
        obtain ⟨e₀, he₀, hname₀, hoptions, hfinished⟩ := h.traced job' hjob
        have hid : e₀.jobId job'.name = e.jobId name :=
          (congrArg ScheduledJobOptions.jobId hoptions).symm.trans heq
        obtain ⟨hschedule, hlt⟩ :=
          (h.handled e he).lt_of_jobId (h.handled e₀ he₀) hname hname₀ hid
        have hlong := expired_after hoptions hfinished hexpired
        rw [← hschedule] at hlong
        exact .inr (by omega)
      · exact .inl ⟨job', (List.mem_erase_of_ne hsame).mpr hjob', heq⟩
    · exact .inr hpast

theorem Run.kept (h : Run zone calls queue now) : Kept zone calls queue now := by
  induction h with
  | start => exact ⟨nofun, nofun, nofun, nofun⟩
  | wait later _ hle ih => exact ih.wait hle
  | enqueue e _ he ih => exact ih.enqueue he
  | finish jobId failed _ ih => exact ih.finish
  | remove job _ hjob hexpired ih => exact ih.remove hjob hexpired

/-! ## When runs are faithful -/

theorem Zone.Separated.slot_eq (h : zone.Separated e.schedule.unit) (he : e.Handles zone)
    (he' : e'.Handles zone) (hschedule : e'.schedule = e.schedule)
    (hkey : slotKey e'.schedule.unit e'.time = slotKey e.schedule.unit e.time) :
    zone.slot e.schedule.unit e'.due = zone.slot e.schedule.unit e.due := by
  have htick' := he'.tick
  rw [hschedule] at hkey htick'
  have hslot := he.same_slot he' hkey
  rcases Nat.le_total e'.due e.due with hle | hle
  · exact h.apart htick' he.tick he'.prompt he.prompt hslot hle
  · exact (h.apart he.tick htick' he.prompt he'.prompt hslot.symm hle).symm

theorem jobs_nodup (h : e.schedule ∈ SCHEDULES) : e.schedule.jobs.Nodup := by
  have hall : ∀ schedule ∈ SCHEDULES, schedule.jobs.Nodup := by decide
  exact hall _ h

theorem Zone.Separated.faithful (h : zone.Separated unit) : Faithful zone unit where
  shared calls queue e e' hrun he hunit he' hschedule hdue := by
    subst hunit
    have hkept := hrun.kept
    have hhandled := hkept.handled e' he'
    have hprompt' := hhandled.prompt
    rw [hdue] at hprompt'
    have hslot := h.shared he.tick hprompt' he.prompt
    have hkey := (slotKey_eq_iff hhandled.four_digits he.four_digits).mpr hslot
    have hid (name : String) : e'.jobId name = e.jobId name := by
      rw [jobId_eq_iff, hschedule]
      exact hkey
    refine ⟨hid, addJobs_eq_self fun name hname => ?_⟩
    rcases hkept.kept e' he' name (hschedule ▸ hname) with ⟨job, hjob, heq⟩ | hpast
    · exact ⟨job, hjob, heq.trans (hid name)⟩
    · have hlt := lt_of_same_slot hslot.symm
      rw [hschedule] at hpast
      omega
  apart calls queue e e' hrun he hunit he' hschedule hne name heq := by
    subst hunit
    exact hne (h.slot_eq he (hrun.kept.handled e' he') hschedule (jobId_eq_iff.mp heq))
  own calls queue e hrun he hunit hown := by
    subst hunit
    refine addJobs_eq_append (jobs_nodup he.schedule) fun name hname job hjob heq => ?_
    obtain ⟨e', he', hname', hoptions, -⟩ := hrun.kept.traced job hjob
    have hhandled := hrun.kept.handled e' he'
    have hid : e'.jobId job.name = e.jobId name :=
      (congrArg ScheduledJobOptions.jobId hoptions).symm.trans heq
    obtain ⟨hsame, hschedule⟩ := eq_of_jobId he.schedule hhandled.schedule hname hname' hid
    rw [hsame] at hid
    exact hown e' he' hschedule (h.slot_eq he hhandled hschedule (jobId_eq_iff.mp hid))

/-- The schedule of the unit. -/
def scheduleOf : SlotUnit → Schedule
  | .hour => { expression := "0 * * * *", unit := .hour, jobs := [CLEANUP_EXPIRED_TOKENS] }
  | .day =>
      { expression := "0 0 * * *", unit := .day, jobs := [CLEANUP_OUTBOX, CLEANUP_DEAD_LETTER_JOBS] }

theorem scheduleOf_mem : scheduleOf unit ∈ SCHEDULES := by
  cases unit <;> decide

theorem scheduleOf_unit : (scheduleOf unit).unit = unit := by
  cases unit <;> rfl

theorem handles_scheduleOf (htick : zone.Ticks unit u) (ha : u ≤ a ∧ a < u + 3600000) :
    (Enqueue.mk (scheduleOf unit) u a).Handles zone where
  schedule := scheduleOf_mem
  tick := scheduleOf_unit.symm ▸ htick
  prompt := ha

/-- A run of one call. -/
theorem run_once (h : e.Handles zone) (hle : e.time ≤ now) :
    ∃ queue, Run zone [e] queue now :=
  ⟨_, .wait now (.enqueue e (.wait e.time .start (Nat.zero_le _)) h) hle⟩

/-- In faithful runs two calls for one tick fall into one slot of UTC. -/
theorem Faithful.same_slot (h : Faithful zone unit) (htick : zone.Ticks unit u)
    (ha : u ≤ a) (hle : a ≤ a') (ha' : a' < u + 3600000) :
    a / slotLength unit = a' / slotLength unit := by
  have he := handles_scheduleOf htick ⟨ha, Nat.lt_of_le_of_lt hle ha'⟩
  have he' := handles_scheduleOf htick ⟨Nat.le_trans ha hle, ha'⟩
  obtain ⟨queue, hrun⟩ := run_once he hle
  have hshared := h.shared _ queue ⟨scheduleOf unit, u, a'⟩ _ hrun he' scheduleOf_unit (.head _) rfl rfl
  have hkey := jobId_eq_iff.mp (hshared.1 "")
  simp only [scheduleOf_unit] at hkey
  exact (slotKey_eq_iff he.four_digits he'.four_digits).mp hkey

/-- And calls for ticks of two local hours or days do not. -/
theorem Faithful.other_slot (h : Faithful zone unit) (htick : zone.Ticks unit u)
    (htick' : zone.Ticks unit u') (hle : u ≤ u') (hne : zone.slot unit u ≠ zone.slot unit u') :
    u / slotLength unit ≠ u' / slotLength unit := by
  have he := handles_scheduleOf htick ⟨Nat.le_refl u, Nat.lt_add_of_pos_right (by decide)⟩
  have he' := handles_scheduleOf htick' ⟨Nat.le_refl u', Nat.lt_add_of_pos_right (by decide)⟩
  obtain ⟨queue, hrun⟩ := run_once he hle
  have hapart := h.apart _ queue ⟨scheduleOf unit, u', u'⟩ _ hrun he' scheduleOf_unit (.head _) rfl hne ""
  intro hslot
  refine hapart (jobId_eq_iff.mpr ?_)
  simp only [scheduleOf_unit]
  exact (slotKey_eq_iff he.four_digits he'.four_digits).mpr hslot

theorem Faithful.separated (h : Faithful zone unit) : zone.Separated unit := by
  cases unit with
  | hour =>
      intro u htick
      have hwall := htick.1
      simp only [Zone.wall, slotLength] at hwall
      by_contra hoffset
      have hnext : u / 3600000 = (u / 3600000 + 1) * 3600000 / 3600000 :=
        h.same_slot htick (Nat.le_refl u) (by omega) (by omega)
      omega
  | day =>
      refine ⟨fun u htick hoffset => ?_, fun u u' htick htick' hslot hoffset => ?_⟩
      · have hwall := htick.1
        simp only [Zone.wall, slotLength] at hwall
        have hnext : u / 86400000 = (u / 86400000 + 1) * 86400000 / 86400000 :=
          h.same_slot htick (Nat.le_refl u) (by omega) (by omega)
        omega
      · have hwall := htick.1
        have hwall' := htick'.1
        have hother (hle : u ≤ u') := h.other_slot htick htick' hle (by omega)
        simp only [Zone.slot, Zone.wall, slotLength] at hwall hwall' hslot hother
        exact hother (by omega) (by omega)

/-- The calls for one tick share their jobs, and every local hour or day has jobs of its own,
just when the ticks of the zone are apart in UTC. -/
theorem slots_faithful_iff (zone : Zone) (unit : SlotUnit) :
    Faithful zone unit ↔ zone.Separated unit :=
  ⟨Faithful.separated, Zone.Separated.faithful⟩

/-- London in 2026, with summer time from 29 March to 25 October. -/
def london : Zone where
  offset u := if 1774746000000 ≤ u ∧ u < 1792890000000 then 3600000 else 0
  within u := by split <;> omega
  steady u u' _ _ := by split <;> split <;> omega

/-- The midnight after the change to summer time lies in the UTC day of the one before. -/
theorem london_not_faithful : ¬ Faithful london .day := by
  intro h
  refine h.separated.2 1774742400000 1774825200000 ⟨by decide, by decide⟩ ⟨by decide, by decide⟩
    (by decide) (by decide)

end ExpressCore.Cron
