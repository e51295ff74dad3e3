import ExpressCore.Model.Otp

/-! # Scheduled maintenance jobs

The schedules, the ids of their jobs, and the system queue with its retention. -/

namespace ExpressCore

inductive SlotUnit where
  | hour
  | day
  deriving DecidableEq

structure Schedule where
  expression : String
  unit : SlotUnit
  jobs : List String
  deriving DecidableEq

/-! ## `SYSTEM_JOBS` -/

def CLEANUP_EXPIRED_TOKENS : String := "cleanupExpiredTokens"
def CLEANUP_OUTBOX : String := "cleanupOutbox"
def CLEANUP_DEAD_LETTER_JOBS : String := "cleanupDeadLetterJobs"

/-! ## `jobs/cron` -/

def SCHEDULES : List Schedule :=
  [{ expression := "0 * * * *", unit := .hour, jobs := [CLEANUP_EXPIRED_TOKENS] },
    { expression := "0 0 * * *", unit := .day
      jobs := [CLEANUP_OUTBOX, CLEANUP_DEAD_LETTER_JOBS] }]

def SLOT_SECONDS : SlotUnit → ℕ
  | .hour => 3600
  | .day => 86400

/-- `at.toISOString().slice(0, unit === 'hour' ? 13 : 10)`. -/
def slotKey (unit : SlotUnit) (time : Time) : String :=
  String.ofList ((toISOString time).toList.take (if unit = .hour then 13 else 10))

/-- The ages are in seconds. -/
structure ScheduledJobOptions where
  jobId : String
  removeOnComplete : ℕ
  removeOnFail : ℕ
  deriving DecidableEq

def scheduledJobOptions (name : String) (unit : SlotUnit) (time : Time) : ScheduledJobOptions :=
  let retention := 2 * SLOT_SECONDS unit
  { jobId := name ++ "-" ++ slotKey unit time, removeOnComplete := retention
    removeOnFail := retention }

/-! ## The system queue -/

/-- A job in Redis. `finished` tells when it ended and whether it failed. -/
structure SystemJob where
  name : String
  options : ScheduledJobOptions
  finished : Option (Time × Bool)
  deriving DecidableEq

/-- `systemQueue.add`: BullMQ ignores an add whose job id is in use. -/
def addJob (name : String) (options : ScheduledJobOptions) (queue : List SystemJob) :
    List SystemJob :=
  if queue.any fun job => job.options.jobId == options.jobId then queue
  else { name, options, finished := none } :: queue

/-- A worker is done with the job. -/
def finishJob (jobId : String) (failed : Bool) (now : Time) (queue : List SystemJob) :
    List SystemJob :=
  queue.map fun job =>
    if job.options.jobId = jobId then { job with finished := job.finished.or (some (now, failed)) }
    else job

/-- Whether the retention of a finished job is over. -/
def SystemJob.expired (now : Time) (job : SystemJob) : Bool :=
  job.finished.any fun (time, failed) =>
    time + (if failed then job.options.removeOnFail else job.options.removeOnComplete) * 1000 ≤ now

def enqueueScheduled (schedule : Schedule) (time : Time) (queue : List SystemJob) :
    List SystemJob :=
  schedule.jobs.foldl
    (fun queue name => addJob name (scheduledJobOptions name schedule.unit time) queue) queue

end ExpressCore
