import Sepp.Store.DeadLetter

/-!
# Reserving, and ending or extending a lease

`apply_reserve`, `apply_ack`, `apply_nack` and `apply_extend` of `src/storage.rs`.
-/

open Std

namespace Sepp

variable [Prost]

/-! ### Reserve -/

/-- Removes a corrupt job that reserve ran into, for good. -/
def dropCorruptJob (readyK jobId : Bytes) : TxM Unit := do
  txRemove .ready readyK
  txRemove .jobs jobId
  txRemove .payloads jobId
  onCycle Cycle.markDirty

/-- The rows that reserve writes for a job it delivers. -/
def leaseJob (readyK : Bytes) (attempt : UInt32) (leaseExpiresAt : Int64) (jobQueue : String)
    (stored : Job) : TxM Job := do
  let job := { stored with attempt, leaseExpiresAt := some (millisToTimestamp leaseExpiresAt) }
  txRemove .ready readyK
  txInsert .inflight (asBytes job.id) (Inflight.encode
    { attempt
      leaseExpiresAt
      enqueuedAt := (job.enqueuedAt.map timestampToMillis).getD 0
      priority := job.priority
      maxAttempts := job.maxAttempts
      queue := jobQueue
      traceContext := job.traceContext })
  let leaseTimer := TimerKey.encode { deadline := leaseExpiresAt, jobId := job.id }
  txInsert .leases leaseTimer []
  onIndexes fun idx => { idx with leases := idx.leases.insert leaseTimer jobQueue }
  onCycle (Cycle.reserved jobQueue)
  onCycle Cycle.markDirty
  return job

/-- The loop body of `apply_reserve`, for a popped key; `none` is `continue`. -/
def reserveOne (leaseExpiresAt : Int64) (readyK : Bytes) (attempt : UInt32) :
    TxM (Option Job) := do
  match ReadyKey.decode readyK with
  | none =>
    txRemove .ready readyK
    onCycle Cycle.markDirty
    return none
  | some rk =>
    let jobId := asBytes rk.jobId
    match ← txGet .jobs jobId with
    | none =>
      txRemove .ready readyK
      onCycle Cycle.markDirty
      return none
    | some stored =>
      match JobValue.decode stored with
      | .error _ =>
        dropCorruptJob readyK jobId
        return none
      | .ok (jobQueue, job) =>
        match ← txGet .payloads jobId with
        | none =>
          return some (← leaseJob readyK attempt leaseExpiresAt jobQueue
            { job with queue := jobQueue })
        | some bytes =>
          match Message.decode (α := Payload) bytes with
          | some payload =>
            return some (← leaseJob readyK attempt leaseExpiresAt jobQueue
              { job with queue := jobQueue, payload := some payload })
          | none =>
            dropCorruptJob readyK jobId
            return none

/-- `while jobs.len() < max_jobs` of `apply_reserve`, over one queue. Every turn pops a key, so
the number of ready keys bounds the turns. -/
def reserveQueue (leaseExpiresAt : Int64) (maxJobs : ℕ) (start : Bytes) :
    ℕ → List Job → TxM (List Job)
  | 0, jobs => return jobs
  | turns + 1, jobs => do
    if jobs.length < maxJobs then
      match (← getIndexes).ready.popFront start with
      | none => return jobs
      | some ((readyK, attempt), ready) =>
        onIndexes fun idx => { idx with ready }
        match ← reserveOne leaseExpiresAt readyK attempt with
        | none => reserveQueue leaseExpiresAt maxJobs start turns jobs
        | some job => reserveQueue leaseExpiresAt maxJobs start turns (jobs ++ [job])
    else
      return jobs

/-- `for queue in queues` of `apply_reserve`. -/
def reserveQueues (leaseExpiresAt : Int64) (maxJobs : ℕ) :
    List String → List Job → TxM (List Job)
  | [], jobs => return jobs
  | queue :: queues, jobs => do
    if maxJobs ≤ jobs.length then
      return jobs
    else
      let turns := (← getIndexes).ready.keys.size
      let jobs ← reserveQueue leaseExpiresAt maxJobs (queuePrefix queue) turns jobs
      reserveQueues leaseExpiresAt maxJobs queues jobs

/-- `apply_reserve`. -/
def applyReserve (queues : List String) (leaseMs : UInt64) (maxJobs : ℕ) (now : Int64) :
    TxM (List Job) :=
  reserveQueues (saturatingAdd now (i64OfU64 leaseMs)) maxJobs queues []

/-! ### Ack, nack and extend -/

/-- The inflight record of a job, fenced by the attempt that the caller holds. -/
def fencedInflight (jobId : String) (attempt : UInt32) : TxM Inflight := do
  match ← txGet .inflight (asBytes jobId) with
  | none => throw ⟨.notFound, "job not found"⟩
  | some stored =>
    let inflight ← liftExcept (Inflight.decode stored)
    if inflight.attempt ≠ attempt then
      throw ⟨.failedPrecondition, "attempt mismatch"⟩
    else
      return inflight

/-- `apply_ack`. -/
def applyAck (jobId : String) (attempt : UInt32) : TxM AckOutcome := do
  let inflight ← fencedInflight jobId attempt
  txRemove .jobs (asBytes jobId)
  txRemove .payloads (asBytes jobId)
  txRemove .inflight (asBytes jobId)
  let leaseTimer := TimerKey.encode { deadline := inflight.leaseExpiresAt, jobId }
  txRemove .leases leaseTimer
  onIndexes fun idx => { idx with leases := (idx.leases.remove leaseTimer).2 }
  onCycle (Cycle.acked inflight.queue)
  onCycle Cycle.markDirty
  return { queue := inflight.queue, traceContext := inflight.traceContext }

/-- `matches!(strategy, Some(nack_retry::Strategy::DeadLetter(_)))`. -/
def forcesDeadLetter (req : NackRequest) : Bool :=
  (req.retry.bind NackRetry.strategy) == some .deadLetter

/-- The dead-letter branch of `apply_nack`. -/
def nackDeadLetter (req : NackRequest) (inflight : Inflight) (leaseTimer : Bytes)
    (deadLetterEnabled : Bool) (now : Int64) : TxM NackOutcome := do
  let (causeLabel, cause) :=
    if forcesDeadLetter req then ("rejected", DeadLetterCause.rejected)
    else ("attempts_exhausted", DeadLetterCause.attemptsExhausted)
  maybeStoreDeadLetter (asBytes req.jobId)
    { cause, failedAt := now, attempt := inflight.attempt, lastReason := req.reason }
    deadLetterEnabled
  txRemove .jobs (asBytes req.jobId)
  txRemove .payloads (asBytes req.jobId)
  txRemove .inflight (asBytes req.jobId)
  txRemove .leases leaseTimer
  onIndexes fun idx => { idx with leases := (idx.leases.remove leaseTimer).2 }
  onCycle (Cycle.nacked inflight.queue)
  onCycle (Cycle.deadLettered inflight.queue causeLabel)
  onCycle Cycle.markDirty
  return {
    queue := inflight.queue
    deadLettered := true
    retryDelayMs := 0
    traceContext := inflight.traceContext }

/-- The retry branch of `apply_nack`. -/
def nackRetry (req : NackRequest) (inflight : Inflight) (leaseTimer : Bytes)
    (retryDelayMs : UInt64) (now : Int64) : TxM NackOutcome := do
  let attempt := inflight.attempt + 1
  if 0 < retryDelayMs then
    let tk := TimerKey.encode
      { deadline := saturatingAdd now (i64OfU64 retryDelayMs), jobId := req.jobId }
    txInsert .scheduled tk (KeyWriter.u32 attempt)
    onIndexes fun idx => { idx with scheduled := idx.scheduled.insert tk inflight.queue }
  else
    let rk := ReadyKey.encode
      { queue := inflight.queue
        priority := inflight.priority
        enqueuedAt := inflight.enqueuedAt
        jobId := req.jobId }
    txInsert .ready rk (KeyWriter.u32 attempt)
    onIndexes fun idx => { idx with ready := idx.ready.insert rk attempt }
    onCycle (Cycle.readied inflight.queue)
  txRemove .inflight (asBytes req.jobId)
  txRemove .leases leaseTimer
  onIndexes fun idx => { idx with leases := (idx.leases.remove leaseTimer).2 }
  onCycle (Cycle.nacked inflight.queue)
  onCycle Cycle.markDirty
  return {
    queue := inflight.queue
    deadLettered := false
    retryDelayMs
    traceContext := inflight.traceContext }

/-- `apply_nack`. -/
def applyNack (req : NackRequest) (retryDelayMs : UInt64) (deadLetterEnabled : Bool)
    (now : Int64) : TxM NackOutcome := do
  let inflight ← fencedInflight req.jobId req.attempt
  let leaseTimer := TimerKey.encode
    { deadline := inflight.leaseExpiresAt, jobId := req.jobId }
  if forcesDeadLetter req ∨ inflight.maxAttempts ≤ inflight.attempt then
    nackDeadLetter req inflight leaseTimer deadLetterEnabled now
  else
    nackRetry req inflight leaseTimer retryDelayMs now

/-- `apply_extend`. -/
def applyExtend (req : ExtendRequest) (leaseMs : UInt64) (now : Int64) : TxM ExtendOutcome := do
  let inflight ← fencedInflight req.jobId req.attempt
  let oldTimer := TimerKey.encode { deadline := inflight.leaseExpiresAt, jobId := req.jobId }
  -- Floor at one millisecond, so that a zero in the log cannot grant an expired lease.
  let leaseExpiresAt := saturatingAdd now (i64OfU64 (max leaseMs 1))
  txInsert .inflight (asBytes req.jobId) (Inflight.encode { inflight with leaseExpiresAt })
  txRemove .leases oldTimer
  onIndexes fun idx => { idx with leases := (idx.leases.remove oldTimer).2 }
  let newTimer := TimerKey.encode { deadline := leaseExpiresAt, jobId := req.jobId }
  txInsert .leases newTimer []
  onIndexes fun idx => { idx with leases := idx.leases.insert newTimer inflight.queue }
  onCycle Cycle.markDirty
  return { queue := inflight.queue, leaseExpiresAt, traceContext := inflight.traceContext }

end Sepp
