import Sepp.Store.Tx

/-!
# Enqueueing

`check_dedup`, `insert_job`, `apply_enqueue` and `apply_enqueue_atomic` of `src/storage.rs`.
-/

open Std

namespace Sepp

variable [Prost]

/-- `DedupCheck`: the answer that an idempotency key already has, or none, and then the timer that
an ended window has left behind. -/
inductive DedupCheck where
  | hit (resp : EnqueueResponse)
  | miss (staleTimer : Option Bytes)

/-- `check_dedup`. -/
def checkDedup (req : EnqueueRequest) (now : Int64) : TxM DedupCheck := do
  match req.idempotencyKey with
  | none => return .miss none
  | some key =>
    let dkey := DedupKey.encode { queue := req.queue, idempotencyKey := key }
    match ← txGet .dedup dkey with
    | none => return .miss none
    | some existing =>
      match DedupValue.decode existing with
      | none => return .miss none
      | some dv =>
        if now < dv.deadline then
          onCycle (Cycle.deduplicated req.queue)
          return .hit { jobId := dv.jobId, deduplicated := true }
        else
          return .miss (some (DedupTimerKey.encode { deadline := dv.deadline, dedupKey := dkey }))

/-- The job record that `insert_job` stores. The payload and the queue are kept elsewhere, and a
real lease is stamped at reserve time. -/
def freshJob (job : PreparedJob) (now : Int64) : Job where
  id := job.id
  jobType := job.req.jobType
  payload := none
  priority := job.limits.priority
  traceContext := job.req.traceContext
  enqueuedAt := some (millisToTimestamp now)
  attempt := 1
  maxAttempts := job.limits.maxAttempts
  leaseExpiresAt := some (millisToTimestamp 0)
  custom := job.req.custom
  scheduledAt := job.req.scheduledAt
  queue := ""

/-- The dedup rows that `insert_job` writes for an idempotency key. -/
def insertDedup (job : PreparedJob) (key : String) (now : Int64) (staleTimer : Option Bytes) :
    TxM Unit := do
  let queue := job.req.queue
  let dkey := DedupKey.encode { queue, idempotencyKey := key }
  match staleTimer with
  | some oldTimer =>
    txRemove .dedupTimers oldTimer
    onIndexes fun idx => { idx with dedupTimers := (idx.dedupTimers.remove oldTimer).2 }
  | none => pure ()
  let deadline := saturatingAdd now job.limits.dedupWindowMs
  let dtk := DedupTimerKey.encode { deadline, dedupKey := dkey }
  txInsert .dedupTimers dtk []
  onIndexes fun idx => { idx with dedupTimers := idx.dedupTimers.insert dtk queue }
  txInsert .dedup dkey (DedupValue.encode { enqueuedAt := now, deadline, jobId := job.id })

/-- The ready or scheduled row that `insert_job` writes. -/
def insertPlace (job : PreparedJob) (now : Int64) : TxM Unit := do
  let queue := job.req.queue
  let ready : TxM Unit := do
    let rk := ReadyKey.encode
      { queue, priority := job.limits.priority, enqueuedAt := now, jobId := job.id }
    txInsert .ready rk (KeyWriter.u32 1)
    onIndexes fun idx => { idx with ready := idx.ready.insert rk 1 }
    onCycle (Cycle.readied queue)
  match job.req.scheduledAt.map timestampToMillis with
  | some at_ =>
    if now < at_ then
      let tk := TimerKey.encode { deadline := at_, jobId := job.id }
      txInsert .scheduled tk (KeyWriter.u32 1)
      onIndexes fun idx => { idx with scheduled := idx.scheduled.insert tk queue }
    else ready
  | none => ready

/-- `insert_job`. -/
def insertJob (job : PreparedJob) (now : Int64) (staleTimer : Option Bytes) :
    TxM EnqueueResponse := do
  let queue := job.req.queue
  txInsert .jobs (asBytes job.id) (JobValue.encode { queue, job := freshJob job now })
  match job.req.payload with
  | some payload => txInsert .payloads (asBytes job.id) (Message.encodeToVec payload)
  | none => pure ()
  insertPlace job now
  match job.req.idempotencyKey with
  | some key => insertDedup job key now staleTimer
  | none => pure ()
  onCycle (Cycle.enqueued queue)
  onCycle Cycle.markDirty
  return { jobId := job.id, deduplicated := false }

/-- The loop body of `apply_enqueue`. -/
def enqueueOne (now : Int64) (job : PreparedJob) : TxM EnqueueResult := do
  let queue := job.req.queue
  -- Checked before dedup so a hit cannot hand back a job id that is about to be purged.
  if (← getIndexes).isClosing queue now then
    return .error (.queueClosing queue)
  else
    match ← checkDedup job.req now with
    | .hit resp => return .ok resp
    | .miss staleTimer =>
      match job.limits.maxQueueDepth with
      | some cap =>
        if cap.toNat ≤ (← getIndexes).liveDepth queue then
          return .error (.queueFull queue cap)
        else
          return .ok (← insertJob job now staleTimer)
      | none => return .ok (← insertJob job now staleTimer)

/-- `apply_enqueue`. -/
def applyEnqueue (jobs : List PreparedJob) (now : Int64) : TxM (List EnqueueResult) :=
  jobs.mapM (enqueueOne now)

/-- The jobs of a batch by queue: how many, and the cap that the first of them carries. -/
def wantedDepths (jobs : List PreparedJob) : ExtTreeMap String (ℕ × Option UInt64) compare :=
  jobs.foldl (fun wanted job =>
    let entry := wanted[job.req.queue]?.getD (0, job.limits.maxQueueDepth)
    wanted.insert job.req.queue (entry.1 + 1, entry.2)) ∅

/-- The queues that a batch would push past their caps, with the caps. -/
def fullQueues (idx : Indexes) (jobs : List PreparedJob) : ExtTreeMap String UInt64 compare :=
  (wantedDepths jobs).filterMap fun queue (count, cap) =>
    cap.filter fun cap => cap.toNat < idx.liveDepth queue + count

/-- The jobs of a batch that target a closing queue. -/
def closingRejections (idx : Indexes) (jobs : List PreparedJob) (now : Int64) :
    List (UInt32 × JobRejection) :=
  (jobs.zipIdx.filter fun (job, _) => idx.isClosing job.req.queue now).map
    fun (job, index) => (UInt32.ofNat index, .queueClosing job.req.queue)

/-- The jobs of a batch that target a full queue. -/
def fullRejections (full : ExtTreeMap String UInt64 compare) (jobs : List PreparedJob) :
    List (UInt32 × JobRejection) :=
  jobs.zipIdx.filterMap fun (job, index) =>
    full[job.req.queue]?.map fun cap => (UInt32.ofNat index, .queueFull job.req.queue cap)

/-- The loop body of `apply_enqueue_atomic`, once the batch is admitted. -/
def enqueueAdmitted (now : Int64) (job : PreparedJob) : TxM EnqueueResponse := do
  match ← checkDedup job.req now with
  | .hit resp => return resp
  | .miss staleTimer => insertJob job now staleTimer

/-- `apply_enqueue_atomic`. -/
def applyEnqueueAtomic (jobs : List PreparedJob) (now : Int64) : TxM AtomicEnqueueOutcome := do
  let idx ← getIndexes
  let closing := closingRejections idx jobs now
  if closing ≠ [] then
    return .rejected closing
  else
    let full := fullQueues idx jobs
    if full.isEmpty then
      return .committed (← jobs.mapM (enqueueAdmitted now))
    else
      return .rejected (fullRejections full jobs)

end Sepp
