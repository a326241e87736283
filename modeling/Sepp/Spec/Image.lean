import Mathlib.Data.Set.Basic
import Sepp.Store.Apply

/-!
# What the store stands for

The abstract state behind the keyspaces. A job that the store knows is in one place: ready,
scheduled, leased or dead. Its content is what the producer sent, with the limits resolved at
admission. An idempotency key of a queue has at most one record, a closing queue has a deadline,
and the audit log is a list.

A queue name here always fits the length prefix of the keys and an enqueue stamp is never
negative, so the rows of an abstract state are well formed by construction. `Place.limbo` is a job
taken out of one place and not yet put into the next; no operation leaves a job there.
-/

namespace Sepp

/-- A queue name that fits the length prefix of the keys. -/
abbrev QueueName := { queue : String // FitsPrefix queue }

/-- A non-negative time stamp in milliseconds. -/
abbrev Stamp := { ms : Int64 // 0 ≤ ms.toInt }

/-- What a job carries from its enqueue to its end. -/
structure Content where
  queue : QueueName
  jobType : String
  payload : Option Payload
  priority : UInt32
  maxAttempts : UInt32
  custom : List (String × PrimitiveValue)
  traceContext : Option TraceContext

/-- Where a job is, with the attempt that it is on. -/
inductive Place where
  | limbo
  | ready (attempt : UInt32)
  | scheduled (attempt : UInt32) (deadline : Int64)
  | leased (attempt : UInt32) (expires : Int64)
  | dead (attempt : UInt32) (failedAt : Int64) (cause : DeadLetterCause) (reason : Option String)

/-- A job is dead when only its dead letter is left. -/
def Place.IsDead : Place → Prop
  | dead .. => True
  | _ => False

instance : DecidablePred Place.IsDead := fun p =>
  match p with
  | .dead .. => isTrue trivial
  | .limbo => isFalse id
  | .ready _ => isFalse id
  | .scheduled _ _ => isFalse id
  | .leased _ _ => isFalse id

/-- A job: what it was enqueued with, when, and where it is now. -/
structure JobState where
  content : Content
  enqueuedAt : Stamp
  scheduledAt : Option Timestamp
  place : Place

/-- The record of an idempotency key. -/
structure DedupState where
  enqueuedAt : Int64
  deadline : Int64
  jobId : String

/-- An idempotency key within its queue. -/
abbrev DedupName := QueueName × String

/-- The abstract state. -/
structure Image where
  jobs : String → Option JobState
  dedup : DedupName → Option DedupState
  closing : String → Option Int64
  audit : List (Int64 × AuditRecord)

namespace Image

/-- The empty store. -/
def empty : Image where
  jobs _ := none
  dedup _ := none
  closing _ := none
  audit := []

/-- Every job is in a real place. -/
def Settled (a : Image) : Prop := ∀ id js, a.jobs id = some js → js.place ≠ .limbo

/-- Changes the state of one job. -/
def setJob (a : Image) (id : String) (x : Option JobState) : Image :=
  { a with jobs := Function.update a.jobs id x }

/-- Changes the record of one idempotency key. -/
def setDedup (a : Image) (name : DedupName) (x : Option DedupState) : Image :=
  { a with dedup := Function.update a.dedup name x }

/-- Changes the tombstone of one queue. -/
def setClosing (a : Image) (queue : String) (x : Option Int64) : Image :=
  { a with closing := Function.update a.closing queue x }

/-- Appends to the audit log. -/
def appendAudit (a : Image) (entry : Int64 × AuditRecord) : Image :=
  { a with audit := a.audit ++ [entry] }

section Projections

variable (a : Image) (id : String) (x : Option JobState) (name : DedupName) (d : Option DedupState)
  (queue : String) (deadline : Option Int64) (entry : Int64 × AuditRecord)

@[simp] theorem setJob_jobs : (a.setJob id x).jobs = Function.update a.jobs id x := rfl

@[simp] theorem setJob_dedup : (a.setJob id x).dedup = a.dedup := rfl

@[simp] theorem setJob_closing : (a.setJob id x).closing = a.closing := rfl

@[simp] theorem setDedup_jobs : (a.setDedup name d).jobs = a.jobs := rfl

@[simp] theorem setDedup_dedup : (a.setDedup name d).dedup = Function.update a.dedup name d := rfl

@[simp] theorem setDedup_closing : (a.setDedup name d).closing = a.closing := rfl

@[simp] theorem setClosing_jobs : (a.setClosing queue deadline).jobs = a.jobs := rfl

@[simp] theorem setClosing_dedup : (a.setClosing queue deadline).dedup = a.dedup := rfl

@[simp]
theorem setClosing_closing :
    (a.setClosing queue deadline).closing = Function.update a.closing queue deadline := rfl

@[simp] theorem appendAudit_jobs : (a.appendAudit entry).jobs = a.jobs := rfl

@[simp] theorem appendAudit_dedup : (a.appendAudit entry).dedup = a.dedup := rfl

@[simp] theorem appendAudit_closing : (a.appendAudit entry).closing = a.closing := rfl

end Projections

/-- A job may change to anything but limbo. -/
theorem Settled.setJob {a : Image} (h : a.Settled) (id : String) {x : Option JobState}
    (hx : ∀ js, x = some js → js.place ≠ .limbo) : (a.setJob id x).Settled := by
  intro id' js hjs
  rw [setJob_jobs] at hjs
  by_cases hid : id' = id
  · rw [hid, Function.update_self] at hjs
    exact hx js hjs
  · rw [Function.update_of_ne hid] at hjs
    exact h id' js hjs

end Image

/-! ### The rows of a job -/

namespace JobState

variable [Prost]

/-- The job record as stored: no payload, no queue, no lease. -/
def storedJob (id : String) (js : JobState) : Job where
  id := id
  jobType := js.content.jobType
  payload := none
  priority := js.content.priority
  traceContext := js.content.traceContext
  enqueuedAt := some (millisToTimestamp js.enqueuedAt)
  attempt := 1
  maxAttempts := js.content.maxAttempts
  leaseExpiresAt := some (millisToTimestamp 0)
  custom := js.content.custom
  scheduledAt := js.scheduledAt
  queue := ""

/-- The job with its payload and queue filled in, on a given attempt. -/
def fullJob (id : String) (js : JobState) (attempt : UInt32) : Job :=
  { js.storedJob id with payload := js.content.payload, queue := js.content.queue, attempt }

/-- The job as reserve delivers it. -/
def deliveredJob (id : String) (js : JobState) (attempt : UInt32) (expires : Int64) : Job :=
  { js.fullJob id attempt with leaseExpiresAt := some (millisToTimestamp expires) }

omit [Prost] in
/-- The place in line, which redelivery and promotion keep. -/
def readyKey (id : String) (js : JobState) : Bytes :=
  ReadyKey.encode
    { queue := js.content.queue
      priority := js.content.priority
      enqueuedAt := js.enqueuedAt
      jobId := id }

/-- The inflight record of a leased job. -/
def inflight (js : JobState) (attempt : UInt32) (expires : Int64) : Inflight where
  attempt := attempt
  leaseExpiresAt := expires
  enqueuedAt := js.enqueuedAt
  priority := js.content.priority
  maxAttempts := js.content.maxAttempts
  queue := js.content.queue
  traceContext := js.content.traceContext

/-- The dead letter of a job. -/
def deadLetter (id : String) (js : JobState) (attempt : UInt32) (failedAt : Int64)
    (cause : DeadLetterCause) (reason : Option String) : DeadLetterRecord where
  job := some (js.fullJob id attempt)
  cause := cause
  failedAt := some (millisToTimestamp failedAt)
  finalAttempt := attempt
  lastReason := reason

omit [Prost] in
/-- The key of the dead letter of a job. -/
def deadKey (id : String) (js : JobState) (failedAt : Int64) : Bytes :=
  DeadLetterKey.encode { failedAt, queue := js.content.queue, jobId := asBytes id }

/-- The record of the job, which every job has that is not a dead letter. -/
def jobRow (id : String) (js : JobState) : Option (Bytes × Bytes) :=
  if js.place.IsDead then none
  else some (asBytes id, JobValue.encode { queue := js.content.queue, job := js.storedJob id })

/-- The payload of the job, which stands on its own. -/
def payloadRow (id : String) (js : JobState) : Option (Bytes × Bytes) :=
  if js.place.IsDead then none
  else js.content.payload.map fun p => (asBytes id, Message.encodeToVec p)

omit [Prost] in
/-- The row of a ready job, which holds the attempt it is ready on. -/
def readyRow (id : String) (js : JobState) : Option (Bytes × Bytes) :=
  match js.place with
  | .ready attempt => some (js.readyKey id, KeyWriter.u32 attempt)
  | _ => none

omit [Prost] in
/-- What the ready index knows of the job. -/
def readyEntry (id : String) (js : JobState) : Option (Bytes × UInt32) :=
  match js.place with
  | .ready attempt => some (js.readyKey id, attempt)
  | _ => none

omit [Prost] in
/-- The timer of a scheduled job, which holds the attempt it becomes ready on. -/
def scheduledRow (id : String) (js : JobState) : Option (Bytes × Bytes) :=
  match js.place with
  | .scheduled attempt deadline =>
    some (TimerKey.encode { deadline, jobId := id }, KeyWriter.u32 attempt)
  | _ => none

omit [Prost] in
/-- What the index of scheduled jobs knows of the job. -/
def scheduledEntry (id : String) (js : JobState) : Option (Bytes × String) :=
  match js.place with
  | .scheduled _ deadline =>
    some (TimerKey.encode { deadline, jobId := id }, js.content.queue.1)
  | _ => none

/-- The inflight record of a leased job. -/
def inflightRow (id : String) (js : JobState) : Option (Bytes × Bytes) :=
  match js.place with
  | .leased attempt expires => some (asBytes id, (js.inflight attempt expires).encode)
  | _ => none

omit [Prost] in
/-- The timer of a lease. -/
def leaseRow (id : String) (js : JobState) : Option (Bytes × Bytes) :=
  match js.place with
  | .leased _ expires => some (TimerKey.encode { deadline := expires, jobId := id }, [])
  | _ => none

omit [Prost] in
/-- What the index of leases knows of the job. -/
def leaseEntry (id : String) (js : JobState) : Option (Bytes × String) :=
  match js.place with
  | .leased _ expires =>
    some (TimerKey.encode { deadline := expires, jobId := id }, js.content.queue.1)
  | _ => none

/-- The dead letter of a job that was given up. -/
def deadRow (id : String) (js : JobState) : Option (Bytes × Bytes) :=
  match js.place with
  | .dead attempt failedAt cause reason =>
    some (js.deadKey id failedAt,
      Message.encodeToVec (js.deadLetter id attempt failedAt cause reason))
  | _ => none

omit [Prost] in
/-- What the index of dead letters knows of the job. -/
def deadEntry (id : String) (js : JobState) : Option (Bytes × String) :=
  match js.place with
  | .dead _ failedAt _ _ => some (js.deadKey id failedAt, js.content.queue.1)
  | _ => none

end JobState

/-! ### The other rows -/

/-- The row of an idempotency key. -/
def dedupRow (name : DedupName) (d : DedupState) : Option (Bytes × Bytes) :=
  some (DedupKey.encode { queue := name.1, idempotencyKey := name.2 },
    DedupValue.encode { enqueuedAt := d.enqueuedAt, deadline := d.deadline, jobId := d.jobId })

/-- The key of the timer of an idempotency key. -/
def dedupTimer (name : DedupName) (deadline : Int64) : Bytes :=
  DedupTimerKey.encode
    { deadline, dedupKey := DedupKey.encode { queue := name.1, idempotencyKey := name.2 } }

/-- The timer of an idempotency key. -/
def dedupTimerRow (name : DedupName) (d : DedupState) : Option (Bytes × Bytes) :=
  some (dedupTimer name d.deadline, [])

/-- What the index of these timers knows of an idempotency key. -/
def dedupTimerEntry (name : DedupName) (d : DedupState) : Option (Bytes × String) :=
  some (dedupTimer name d.deadline, name.1.1)

/-- The rows of `meta`: the tombstone of a queue, or the last audit sequence number. -/
def metaRow (closing : String → Option Int64) (auditLength : ℕ) :
    Option String → Option (Bytes × Bytes)
  | some queue => (closing queue).map fun deadline => (closingKey queue, KeyWriter.i64 deadline)
  | none =>
    if auditLength = 0 then none
    else some (auditSeqKey, seqBytes (UInt64.ofNat auditLength))

/-- The row of the entry at a position of the audit log; sequence numbers start at one. -/
def auditRow [Prost] (log : List (Int64 × AuditRecord)) (i : ℕ) : Option (Bytes × Bytes) :=
  log[i]?.map fun entry => (seqBytes (UInt64.ofNat (i + 1)),
    AuditValue.encode { tsMs := entry.1, record := entry.2 })

end Sepp
