import Sepp.Wire.Keys

/-!
# Operations and outcomes

The mutating operations of the committer (`Op` of `src/op.rs`), with the outcomes that
`src/storage.rs` answers them with. An operation carries everything its application depends on:
the job ids and the limits are resolved before it is built, and the clock is read once per cycle
and stamped into it (`Op.stamp`). A `usize` is a `UInt64`, as on a 64-bit target.
-/

namespace Sepp

/-! ### Operations -/

/-- The states that an operator lists the jobs of a queue by. -/
inductive PeekState where
  | ready
  | scheduled
  | inflight
  | deadLetter
deriving DecidableEq, Repr

/-- What the enqueue of a job is limited by, resolved from the configuration when the operation is
built; without `maxQueueDepth` the queue is unbounded. -/
structure JobLimits where
  priority : UInt32
  maxAttempts : UInt32
  dedupWindowMs : Int64
  maxQueueDepth : Option UInt64 := none
deriving DecidableEq, Repr

/-- A request with its job id and limits, fixed before the operation is built. -/
structure PreparedJob where
  id : String
  req : EnqueueRequest
  limits : JobLimits
deriving DecidableEq, Repr

/-- `Op`: the mutating operations of the committer. `nowMs` is the clock read that the application
depends on, and `deadLetterEnabled` says whether a job that is given up is kept as a dead letter. -/
inductive Op where
  | enqueue (jobs : List PreparedJob) (nowMs : Int64)
  | enqueueAtomic (jobs : List PreparedJob) (nowMs : Int64)
  | reserve (queues : List String) (leaseMs maxJobs : UInt64) (nowMs : Int64)
  | ack (jobId : String) (attempt : UInt32)
  | nack (req : NackRequest) (retryDelayMs : UInt64) (deadLetterEnabled : Bool) (nowMs : Int64)
  | extend (req : ExtendRequest) (leaseMs : UInt64) (nowMs : Int64)
  | drainDeadLetters (queue : Option String) (max scanCap : UInt64)
  | closeQueue (queue : String) (nowMs graceMs : Int64)
  | openQueue (queue : String)
  | requeueDeadLetters (queue : String) (keys : List Bytes) (nowMs : Int64)
  | deadLetterJobs (queue : String) (state : PeekState) (keys : List Bytes)
      (reason : Option String) (deadLetterEnabled : Bool) (nowMs : Int64)
  | deleteDeadLetters (queue : String) (keys : List Bytes)
  | purgeQueueChunk (queue : String) (max : UInt64)
  | sweep (nowMs : Int64) (budget : UInt64) (retentionCutoffMs : Option Int64)
      (deadLetterEnabled : Bool)
  | auditAppend (record : AuditRecord) (nowMs : Int64)
deriving DecidableEq, Repr

namespace Op

/-- `Op::stamp`: the cycle's clock read replaces the operation's own stamp, if it has one. -/
def stamp (now : Int64) : Op → Op
  | enqueue jobs _ => enqueue jobs now
  | enqueueAtomic jobs _ => enqueueAtomic jobs now
  | reserve queues leaseMs maxJobs _ => reserve queues leaseMs maxJobs now
  | nack req retryDelayMs enabled _ => nack req retryDelayMs enabled now
  | extend req leaseMs _ => extend req leaseMs now
  | closeQueue queue _ graceMs => closeQueue queue now graceMs
  | requeueDeadLetters queue keys _ => requeueDeadLetters queue keys now
  | deadLetterJobs queue state keys reason enabled _ =>
    deadLetterJobs queue state keys reason enabled now
  | sweep _ budget cutoff enabled => sweep now budget cutoff enabled
  | auditAppend record _ => auditAppend record now
  | ack jobId attempt => ack jobId attempt
  | drainDeadLetters queue max scanCap => drainDeadLetters queue max scanCap
  | openQueue queue => openQueue queue
  | deleteDeadLetters queue keys => deleteDeadLetters queue keys
  | purgeQueueChunk queue max => purgeQueueChunk queue max

/-- The stamp of an operation that has one. -/
def nowMs? : Op → Option Int64
  | enqueue _ now | enqueueAtomic _ now | reserve _ _ _ now | nack _ _ _ now | extend _ _ now
  | closeQueue _ now _ | requeueDeadLetters _ _ now | deadLetterJobs _ _ _ _ _ now
  | sweep now _ _ _ | auditAppend _ now => some now
  | ack _ _ | drainDeadLetters _ _ _ | openQueue _ | deleteDeadLetters _ _
  | purgeQueueChunk _ _ => none

/-- The jobs that an operation asks to enqueue. -/
def jobs : Op → List PreparedJob
  | enqueue jobs _ | enqueueAtomic jobs _ => jobs
  | _ => []

@[simp]
theorem jobs_stamp (now : Int64) (op : Op) : (op.stamp now).jobs = op.jobs := by
  cases op <;> rfl

end Op

/-! ### Outcomes -/

/-- The queue of the job that was acknowledged, and its trace context. -/
structure AckOutcome where
  queue : String
  traceContext : Option TraceContext
deriving DecidableEq, Repr

/-- What became of the job: a dead letter, or a redelivery after the delay. -/
structure NackOutcome where
  queue : String
  deadLettered : Bool
  retryDelayMs : UInt64
  traceContext : Option TraceContext
deriving DecidableEq, Repr

/-- The queue of the job, and when its lease expires now. -/
structure ExtendOutcome where
  queue : String
  leaseExpiresAt : Int64
  traceContext : Option TraceContext
deriving DecidableEq, Repr

/-- How many of the keys were put back in line, how many named no dead letter of the queue, and the
jobs that were put back. -/
structure RequeueOutcome where
  requeued : ℕ := 0
  missing : ℕ := 0
  jobIds : List String := []
deriving DecidableEq, Repr

/-- How many of the keys were given up, how many named no job of the queue in that state, and the
jobs that were given up. -/
structure DeadLetterJobsOutcome where
  deadLettered : ℕ := 0
  missing : ℕ := 0
  jobIds : List String := []
deriving DecidableEq, Repr

/-- How many of the keys were deleted, how many named no dead letter of the queue, and the jobs that
were deleted. -/
structure DeleteOutcome where
  deleted : ℕ := 0
  missing : ℕ := 0
  jobIds : List String := []
deriving DecidableEq, Repr

/-- How many jobs a chunk purged, and whether the queue holds more. -/
structure PurgeOutcome where
  purged : ℕ
  remaining : Bool
deriving DecidableEq, Repr

/-- `EnqueueResult`: a response, or the rejection of this one job. -/
abbrev EnqueueResult := Except JobRejection EnqueueResponse

instance : DecidableEq EnqueueResult := fun a b =>
  match a, b with
  | .ok x, .ok y => decidable_of_iff (x = y) (by simp)
  | .error x, .error y => decidable_of_iff (x = y) (by simp)
  | .ok _, .error _ => isFalse (by simp)
  | .error _, .ok _ => isFalse (by simp)

/-- Every job committed, or none and the offending ones by position. -/
inductive AtomicEnqueueOutcome where
  | committed (responses : List EnqueueResponse)
  | rejected (errors : List (UInt32 × JobRejection))
deriving DecidableEq, Repr

/-- `OpOutcome`: what each operation is answered with once its cycle is committed. -/
inductive OpOutcome where
  | enqueue (results : List EnqueueResult)
  | enqueueAtomic (outcome : AtomicEnqueueOutcome)
  | reserve (jobs : List Job)
  | ack (outcome : AckOutcome)
  | nack (outcome : NackOutcome)
  | extend (outcome : ExtendOutcome)
  | drainDeadLetters (records : List DeadLetterRecord)
  | closeQueue
  | openQueue
  | requeueDeadLetters (outcome : RequeueOutcome)
  | deadLetterJobs (outcome : DeadLetterJobsOutcome)
  | deleteDeadLetters (outcome : DeleteOutcome)
  | purgeQueueChunk (outcome : PurgeOutcome)
  | sweep (processed : ℕ)
  | auditAppend (seq : UInt64) (tsMs : Int64)
deriving DecidableEq

end Sepp
