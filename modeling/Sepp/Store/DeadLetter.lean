import Sepp.Store.Tx

/-!
# Dead letters

`read_dead_letter_job`, `maybe_store_dead_letter` and the operations on dead letters of
`src/storage.rs`: drain, requeue, dead-letter by hand and delete.
-/

open Std

namespace Sepp

variable [Prost]

/-! ### Storing a dead letter -/

/-- `read_dead_letter_job`: the stored job with its payload and queue filled in. -/
def readDeadLetterJob (jobId : Bytes) : TxM (Option Job) := do
  match ← txGet .jobs jobId with
  | none => return none
  | some stored =>
    match JobValue.decode stored with
    | .error _ => return none
    | .ok (queue, job) =>
      match ← txGet .payloads jobId with
      | none => return some { job with queue }
      | some bytes =>
        match Message.decode (α := Payload) bytes with
        | some payload => return some { job with queue, payload := some payload }
        | none => return some { job with queue }

/-- `DeadLetterMeta`. -/
structure DeadLetterMeta where
  cause : DeadLetterCause
  failedAt : Int64
  attempt : UInt32
  lastReason : Option String

/-- `maybe_store_dead_letter`: stores the job among the dead letters, or drops it when the
operation says that retention is disabled. -/
def maybeStoreDeadLetter (jobId : Bytes) (m : DeadLetterMeta) (deadLetterEnabled : Bool) :
    TxM Unit := do
  if deadLetterEnabled then
    match ← readDeadLetterJob jobId with
    | none => return ()
    | some stored =>
      let job := { stored with attempt := m.attempt }
      let key := DeadLetterKey.encode { failedAt := m.failedAt, queue := job.queue, jobId }
      onIndexes fun idx => { idx with deadLetter := idx.deadLetter.insert key job.queue }
      txInsert .deadLetter key (Message.encodeToVec
        ({ job := some job
           cause := m.cause
           failedAt := some (millisToTimestamp m.failedAt)
           finalAttempt := m.attempt
           lastReason := m.lastReason } : DeadLetterRecord))
  else
    return ()

/-! ### Drain -/

/-- The keys that a drain takes: among the `scanCap` oldest, the first `max` of the queue asked
for. -/
def drainKeys (idx : TimerIndex) (queue : Option String) (max scanCap : ℕ) : List Bytes :=
  (((idx.iterOldest.take scanCap).filter fun (_, q) => queue.all fun want => want == q).take
    max).map Prod.fst

/-- The loop body of `apply_drain`. -/
def drainOne (key : Bytes) : TxM (Option DeadLetterRecord) := do
  match ← txGet .deadLetter key with
  | some value =>
    match Message.decode (α := DeadLetterRecord) value with
    | some record =>
      onIndexes fun idx => { idx with deadLetter := (idx.deadLetter.remove key).2 }
      txRemove .deadLetter key
      return some record
    -- A corrupt record is left for retention.
    | none => return none
  | none =>
    onIndexes fun idx => { idx with deadLetter := (idx.deadLetter.remove key).2 }
    return none

/-- `apply_drain`. -/
def applyDrain (queue : Option String) (max scanCap : ℕ) : TxM (List DeadLetterRecord) := do
  let chosen := drainKeys (← getIndexes).deadLetter queue max scanCap
  let records := (← chosen.mapM drainOne).reduceOption
  if records ≠ [] then
    onCycle (Cycle.deadLetterDrained records.length)
    onCycle Cycle.markDirty
  return records

/-! ### Requeue -/

/-- The job record that `apply_requeue_dead_letters` stores for the job of a dead letter. -/
def requeuedJob (job : Job) (now : Int64) : Job :=
  { job with
    queue := ""
    payload := none
    attempt := 1
    enqueuedAt := some (millisToTimestamp now)
    leaseExpiresAt := some (millisToTimestamp 0)
    scheduledAt := none }

/-- The loop body of `apply_requeue_dead_letters`; `none` counts as missing. -/
def requeueOne (queue : String) (now : Int64) (key : Bytes) : TxM (Option String) := do
  if DeadLetterKey.queueOf key ≠ some queue then
    return none
  else
    match ← txGet .deadLetter key with
    | none =>
      onIndexes fun idx => { idx with deadLetter := (idx.deadLetter.remove key).2 }
      return none
    | some stored =>
      match Message.decode (α := DeadLetterRecord) stored with
      | none => return none
      | some record =>
        match record.job with
        | none => return none
        | some dead =>
          let jobQueue := dead.queue
          let job := requeuedJob dead now
          txInsert .jobs (asBytes job.id) (JobValue.encode { queue := jobQueue, job })
          match dead.payload with
          | some payload => txInsert .payloads (asBytes job.id) (Message.encodeToVec payload)
          | none => pure ()
          let rk := ReadyKey.encode
            { queue := jobQueue, priority := job.priority, enqueuedAt := now, jobId := job.id }
          txInsert .ready rk (KeyWriter.u32 job.attempt)
          onIndexes fun idx => { idx with ready := idx.ready.insert rk job.attempt }
          txRemove .deadLetter key
          onIndexes fun idx => { idx with deadLetter := (idx.deadLetter.remove key).2 }
          onCycle (Cycle.readied jobQueue)
          onCycle Cycle.markDirty
          return some job.id

/-- `apply_requeue_dead_letters`. -/
def applyRequeueDeadLetters (queue : String) (keys : List Bytes) (now : Int64) :
    TxM RequeueOutcome := do
  let results ← keys.mapM (requeueOne queue now)
  return {
    requeued := results.reduceOption.length
    missing := results.countP Option.isNone
    jobIds := results.reduceOption }

/-! ### Dead-letter by hand -/

/-- `v.as_ref().try_into().ok().map(u32::from_be_bytes)`: exactly four bytes. -/
def attemptOfExactRow (value : Bytes) : Option UInt32 :=
  if value.length = 4 then attemptOfRow value else none

/-- Which job a key of `apply_dead_letter_jobs` names, if it is still where the key says; a key
that is gone is dropped from the index too. -/
def deadLetterTarget (queue : String) (state : PeekState) (key : Bytes) :
    TxM (Option Bytes) := do
  match state with
  | .ready =>
    match ReadyKey.decode key with
    | none => return none
    | some rk =>
      if rk.queue ≠ queue then
        return none
      else if (← txGet .ready key).isNone then
        onIndexes fun idx => { idx with ready := (idx.ready.remove key).2 }
        return none
      else
        return some (asBytes rk.jobId)
  | _ =>
    match TimerKey.jobIdOf key with
    | none => return none
    | some id =>
      if (← txGet .scheduled key).isNone then
        onIndexes fun idx => { idx with scheduled := (idx.scheduled.remove key).2 }
        return none
      else
        return some id

/-- The attempt a ready or scheduled job is waiting on. -/
def waitingAttempt (state : PeekState) (key : Bytes) : TxM UInt32 := do
  match state with
  | .ready => return ((← getIndexes).ready.attempt key).getD 1
  | _ => return ((← txGet .scheduled key).bind attemptOfExactRow).getD 1

/-- The loop body of `apply_dead_letter_jobs`; `none` counts as missing. -/
def deadLetterOne (queue : String) (state : PeekState) (reason : Option String)
    (deadLetterEnabled : Bool) (now : Int64) (key : Bytes) : TxM (Option String) := do
  match ← deadLetterTarget queue state key with
  | none => return none
  | some jobId =>
    -- Timer keys carry no queue, so the job record is the queue authority for both states.
    match ← txGet .jobs jobId with
    | none => return none
    | some stored =>
      match JobValue.decode stored with
      | .error _ => return none
      | .ok (jobQueue, _) =>
        if jobQueue ≠ queue then
          return none
        else
          let attempt ← waitingAttempt state key
          maybeStoreDeadLetter jobId
            { cause := .admin, failedAt := now, attempt, lastReason := reason } deadLetterEnabled
          match state with
          | .ready =>
            txRemove .ready key
            onIndexes fun idx => { idx with ready := (idx.ready.remove key).2 }
          | _ =>
            txRemove .scheduled key
            onIndexes fun idx => { idx with scheduled := (idx.scheduled.remove key).2 }
          txRemove .jobs jobId
          txRemove .payloads jobId
          onCycle (Cycle.deadLettered queue "admin")
          onCycle Cycle.markDirty
          return some (fromUtf8Lossy jobId)

/-- `apply_dead_letter_jobs`. -/
def applyDeadLetterJobs (queue : String) (state : PeekState) (keys : List Bytes)
    (reason : Option String) (deadLetterEnabled : Bool) (now : Int64) :
    TxM DeadLetterJobsOutcome := do
  if state = .ready ∨ state = .scheduled then
    let results ← keys.mapM (deadLetterOne queue state reason deadLetterEnabled now)
    return {
      deadLettered := results.reduceOption.length
      missing := results.countP Option.isNone
      jobIds := results.reduceOption }
  else
    throw ⟨.invalidArgument, "only ready or scheduled jobs can be dead-lettered"⟩

/-! ### Delete -/

omit [Prost] in
/-- The loop body of `apply_delete_dead_letters`; `none` counts as missing, and a deleted key
names its job if it can be read. -/
def deleteOne (queue : String) (key : Bytes) : TxM (Option (Option String)) := do
  match (← getIndexes).deadLetter.keys[key]? with
  | some owner =>
    if owner = queue then
      onIndexes fun idx => { idx with deadLetter := (idx.deadLetter.remove key).2 }
      txRemove .deadLetter key
      onCycle Cycle.markDirty
      return some (DeadLetterKey.jobIdOf key)
    else
      return none
  | none => return none

omit [Prost] in
/-- `apply_delete_dead_letters`. -/
def applyDeleteDeadLetters (queue : String) (keys : List Bytes) : TxM DeleteOutcome := do
  let results ← keys.mapM (deleteOne queue)
  return {
    deleted := results.reduceOption.length
    missing := results.countP Option.isNone
    jobIds := results.reduceOption.reduceOption }

end Sepp
