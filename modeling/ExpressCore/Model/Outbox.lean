import ExpressCore.Model.Statement

/-! # The transactional outbox and its relay -/

namespace ExpressCore

open ReadCommitted Interleaving Program

def EMAIL : String := "email"
def SYSTEM : String := "system"

/-! ## `outbox.repository` -/

structure ClaimedOutboxRow where
  id : ℕ
  queueName : String
  jobName : String
  payload : Json
  attempts : ℕ

def outboxJobId (id : ℕ) : String := "outbox-" ++ toString id

def enqueue (queueName jobName : String) (payload : InputJsonValue) : Service Unit := do
  let now ← request .now
  let _ ← create outbox .tx
    { queueName, jobName, payload := payload.json, status := .pending, attempts := 0
      availableAt := now, publishedAt := none, lastError := none }
  pure ()

/-- Locks the rows of the ordered batch that no other transaction holds, up to `limit`, and
leases them. -/
def claimRows (now lease : Time) : ℕ → List (ℕ × Outbox) → Service (List ClaimedOutboxRow)
  | 0, _ => pure []
  | _, [] => pure []
  | limit + 1, (id, _) :: rest => do
      match ← outbox (.visitUnlocked id (.due now) (.lease (now + lease))) with
      | some row => do
          let others ← claimRows now lease limit rest
          pure ({ id, queueName := row.queueName, jobName := row.jobName
                  payload := row.payload, attempts := row.attempts } :: others)
      | none => claimRows now lease (limit + 1) rest

def claimBatch (setup : Setup) (limit : ℕ) : Service (List ClaimedOutboxRow) := do
  let now ← statement .now
  let due ← outbox (.scan (.due now))
  let rows ← claimRows now (setup.env.outboxLeaseSeconds * 1000) limit
    (due.mergeSort fun x y => x.2.availableAt ≤ y.2.availableAt)
  statement (.complete .prisma)
  pure rows

def markPublished (id : ℕ) : Service Bool := do
  let now ← request .now
  let changed ← changeMany outbox .prisma (.pending id) (.publish now)
  pure (changed.length == 1)

def markRetry (id : ℕ) (error : String) (availableAt : Time) : Service Bool := do
  let changed ← changeMany outbox .prisma (.pending id) (.retry error availableAt)
  pure (changed.length == 1)

/-- `row.payload ?? {}`. -/
def Json.orEmpty : Json → Json
  | .null => .obj []
  | payload => payload

def markFailed (row : ClaimedOutboxRow) (reason : String) (attempts : ℕ) : Service Bool :=
  transaction do
    let now ← request .now
    let changed ← changeMany outbox .tx (.pending row.id) (.fail attempts reason now)
    if changed.length = 0 then pure false
    else do
      let createdAt ← request .now
      let _ ← create deadLetterJobs .tx
        { queueName := row.queueName, jobName := row.jobName, jobId := some (outboxJobId row.id)
          payload := row.payload.orEmpty, failedReason := reason, attemptsMade := attempts
          createdAt, redrivenAt := none, redrivenBy := none, redriveOutboxId := none }
      pure true

def prune (status : OutboxStatus) (before : Time) (batchSize maxBatches : ℕ) : Service ℕ :=
  deleteBatches outbox (.terminal status before) (·.availableAt) .ids .delete batchSize maxBatches

/-! ## `outbox-relay` -/

inductive PublishOutcome where
  | published
  | retry
  | failed
  | skipped
  deriving DecidableEq

def retryDelaySeconds (attempts : ℕ) : ℕ := min (5 * 2 ^ attempts) 3600

/-- The queues of the registry `QUEUES`. -/
def QUEUES : List String := [EMAIL, SYSTEM]

/-- `publish`: the reason when it throws. -/
def publish (row : ClaimedOutboxRow) : Service (Option String) := do
  match ← request (.queueAdd
      { queueName := row.queueName, jobName := row.jobName, payload := row.payload
        jobId := outboxJobId row.id }) with
  | .resolved => pure none
  | .rejected reason => pure (some reason)
  | .timedOut => pure (some "Publish timed out after 5000 ms")

def processRow (setup : Setup) (row : ClaimedOutboxRow) : Service PublishOutcome := do
  if row.queueName ∉ QUEUES then do
    let failed ← markFailed row ("Unknown queue: " ++ row.queueName) (row.attempts + 1)
    pure (if failed then .failed else .skipped)
  else do
    match ← publish row with
    | some reason => do
        let attempts := row.attempts + 1
        if attempts ≥ setup.env.outboxMaxPublishAttempts then do
          let failed ← markFailed row
            ("Publish failed after " ++ toString attempts ++ " attempts: " ++ reason) attempts
          pure (if failed then .failed else .skipped)
        else do
          let now ← request .now
          let retried ← markRetry row.id reason (now + retryDelaySeconds attempts * 1000)
          pure (if retried then .retry else .skipped)
    | none => do
        let published ← markPublished row.id
        pure (if published then .published else .skipped)

/-- The loop of `relayOnce` over the claimed rows. -/
def relayRows (setup : Setup) : List ClaimedOutboxRow → Service ℕ
  | [] => pure 0
  | row :: rest => do
      match ← processRow setup row with
      | .retry => pure 0
      | .published => do
          let published ← relayRows setup rest
          pure (published + 1)
      | _ => relayRows setup rest

def relayOnce (setup : Setup) : Service ℕ := do
  let rows ← claimBatch setup setup.env.outboxRelayBatch
  relayRows setup rows

end ExpressCore
