import Sepp.Library.PartialInverse
import Sepp.Store.Op

/-!
# The log form of operations

`Op::to_proto` and `Op::from_proto` of `src/op.rs`, between the operations and the messages of
`proto/sepp/storage/v1/op.proto`. A `oneof` that may be unset is an `Option`, an enumeration is
its `i32`, and the casts between `usize` and `u64` are the identity on a 64-bit target.

## Main definitions

* `Proto.Op` — the message.
* `Op.toProto`, `Op.fromProto` — the conversions.
* `Proto.Op.Corrupt` — the messages that are no operation.

## Main results

* `Op.proto_roundtrip` — the conversions are inverse to each other, and fail on corrupt messages
  only.
-/

namespace Sepp

/-! ### Messages -/

namespace Proto

/-- The limits of an enqueue, as the proposer has resolved them. -/
structure JobLimits where
  priority : UInt32
  maxAttempts : UInt32
  dedupWindowMs : Int64
  maxQueueDepth : Option UInt64
deriving DecidableEq, Repr

/-- A request with the job id that was drawn for it and its limits; messages may be missing. -/
structure PreparedJob where
  request : Option EnqueueRequest
  jobId : String
  limits : Option JobLimits
deriving DecidableEq, Repr

/-- `EnqueueOp`, the best-effort batch. -/
structure EnqueueOp where
  jobs : List PreparedJob
  nowMs : Int64
deriving DecidableEq, Repr

/-- `EnqueueAtomicOp`, the batch of which all or nothing is enqueued. -/
structure EnqueueAtomicOp where
  jobs : List PreparedJob
  nowMs : Int64
deriving DecidableEq, Repr

/-- `ReserveOp`: at most `maxJobs` jobs of the queues, leased for `leaseMs`. -/
structure ReserveOp where
  queues : List String
  leaseMs : UInt64
  maxJobs : UInt64
  nowMs : Int64
deriving DecidableEq, Repr

/-- `AckOp`: the lease that is done, by job and attempt. -/
structure AckOp where
  jobId : String
  attempt : UInt32
deriving DecidableEq, Repr

/-- `NackOp`: the request, with the delay that was resolved for it. -/
structure NackOp where
  request : Option NackRequest
  nowMs : Int64
  retryDelayMs : UInt64
  deadLetterEnabled : Bool
deriving DecidableEq, Repr

/-- `ExtendOp`: the request, with the lease that its own was clamped to. -/
structure ExtendOp where
  request : Option ExtendRequest
  nowMs : Int64
  leaseMs : UInt64
deriving DecidableEq, Repr

/-- `DrainDeadLettersOp`: at most `max` records among the oldest `scanCap`. -/
structure DrainDeadLettersOp where
  queue : Option String
  max : UInt64
  scanCap : UInt64
deriving DecidableEq, Repr

/-- `CloseQueueOp`: the tombstone ends `graceMs` after `nowMs`. -/
structure CloseQueueOp where
  queue : String
  nowMs : Int64
  graceMs : Int64
deriving DecidableEq, Repr

/-- `OpenQueueOp`: the tombstone is removed. -/
structure OpenQueueOp where
  queue : String
deriving DecidableEq, Repr

/-- `RequeueDeadLettersOp`: the dead letters with these keys are put back in line. -/
structure RequeueDeadLettersOp where
  queue : String
  keys : List Bytes
  nowMs : Int64
deriving DecidableEq, Repr

/-- The job state that an admin dead-letter operation drains from. -/
inductive JobState where
  | unspecified
  | ready
  | scheduled
  | inflight
  | deadLetter
deriving DecidableEq, Repr

namespace JobState

/-- `as i32`. -/
def toI32 : JobState → Int32
  | unspecified => 0
  | ready => 1
  | scheduled => 2
  | inflight => 3
  | deadLetter => 4

/-- `JobState::try_from(i32)`. -/
def tryFrom (value : Int32) : Option JobState :=
  if value = 0 then some unspecified
  else if value = 1 then some ready
  else if value = 2 then some scheduled
  else if value = 3 then some inflight
  else if value = 4 then some deadLetter
  else none

@[simp]
theorem tryFrom_toI32 (state : JobState) : tryFrom state.toI32 = some state := by
  cases state <;> rfl

theorem toI32_of_tryFrom {value : Int32} {state : JobState} (h : tryFrom value = some state) :
    state.toI32 = value := by
  rw [tryFrom] at h
  split_ifs at h <;> cases h <;> symm <;> assumption

end JobState

/-- `DeadLetterJobsOp`: the jobs that are listed under these keys in the state are given up; the
state is the number of a `JobState`. -/
structure DeadLetterJobsOp where
  queue : String
  state : Int32
  keys : List Bytes
  reason : Option String
  nowMs : Int64
  deadLetterEnabled : Bool
deriving DecidableEq, Repr

/-- `DeleteDeadLettersOp`: the dead letters with these keys are deleted. -/
structure DeleteDeadLettersOp where
  queue : String
  keys : List Bytes
deriving DecidableEq, Repr

/-- `PurgeQueueChunkOp`: at most `max` jobs of the queue are removed. -/
structure PurgeQueueChunkOp where
  queue : String
  max : UInt64
deriving DecidableEq, Repr

/-- `SweepOp`: dead letters that failed at or before the cutoff are deleted, if there is one. -/
structure SweepOp where
  nowMs : Int64
  budget : UInt64
  retentionCutoffMs : Option Int64
  deadLetterEnabled : Bool
deriving DecidableEq, Repr

/-- `AuditAppendOp`: the record that is appended to the audit log. -/
structure AuditAppendOp where
  record : Option AuditRecord
  nowMs : Int64
deriving DecidableEq, Repr

/-- The `oneof` of `Op`. -/
inductive Op.Variant where
  | enqueue (o : EnqueueOp)
  | enqueueAtomic (o : EnqueueAtomicOp)
  | reserve (o : ReserveOp)
  | ack (o : AckOp)
  | nack (o : NackOp)
  | extend (o : ExtendOp)
  | drainDeadLetters (o : DrainDeadLettersOp)
  | closeQueue (o : CloseQueueOp)
  | openQueue (o : OpenQueueOp)
  | requeueDeadLetters (o : RequeueDeadLettersOp)
  | deadLetterJobs (o : DeadLetterJobsOp)
  | deleteDeadLetters (o : DeleteDeadLettersOp)
  | purgeQueueChunk (o : PurgeQueueChunkOp)
  | sweep (o : SweepOp)
  | auditAppend (o : AuditAppendOp)
deriving DecidableEq, Repr

/-- `Op`, the message of a log entry. -/
structure Op where
  op : Option Op.Variant
deriving DecidableEq, Repr

end Proto

/-! ### Conversions -/

/-- The error of a log record that is no operation. -/
def corrupt (what : String) : Status := ⟨.internal, "corrupt op record: " ++ what⟩

namespace JobLimits

/-- `JobLimits::to_proto`. -/
def toProto (limits : JobLimits) : Proto.JobLimits where
  priority := limits.priority
  maxAttempts := limits.maxAttempts
  dedupWindowMs := limits.dedupWindowMs
  maxQueueDepth := limits.maxQueueDepth

/-- `JobLimits::from_proto`. -/
def fromProto (msg : Proto.JobLimits) : JobLimits where
  priority := msg.priority
  maxAttempts := msg.maxAttempts
  dedupWindowMs := msg.dedupWindowMs
  maxQueueDepth := msg.maxQueueDepth

end JobLimits

/-- `ok_or_else(|| corrupt(what))`. -/
def okOrCorrupt {α : Type} (what : String) : Option α → Except Status α
  | some x => .ok x
  | none => .error (corrupt what)

namespace PreparedJob

/-- `PreparedJob::to_proto`. -/
def toProto (job : PreparedJob) : Proto.PreparedJob where
  request := some job.req
  jobId := job.id
  limits := some job.limits.toProto

/-- `PreparedJob::from_proto`: neither the request nor the limits may be missing. -/
def fromProto (msg : Proto.PreparedJob) : Except Status PreparedJob := do
  let req ← okOrCorrupt "job without request" msg.request
  let limits ← okOrCorrupt "job without limits" msg.limits
  return { id := msg.jobId, req, limits := JobLimits.fromProto limits }

end PreparedJob

/-- `state_to_proto`. -/
def stateToProto : PeekState → Proto.JobState
  | .ready => .ready
  | .scheduled => .scheduled
  | .inflight => .inflight
  | .deadLetter => .deadLetter

/-- `state_from_proto`: the unspecified state is none that a job can be listed in. -/
def stateFromProto (value : Int32) : Except Status PeekState :=
  match Proto.JobState.tryFrom value with
  | some .ready => .ok .ready
  | some .scheduled => .ok .scheduled
  | some .inflight => .ok .inflight
  | some .deadLetter => .ok .deadLetter
  | some .unspecified | none => .error (corrupt "unknown job state")

namespace Op

/-- The variant of the message of an operation. -/
def toVariant : Op → Proto.Op.Variant
  | enqueue jobs nowMs => .enqueue { jobs := jobs.map PreparedJob.toProto, nowMs }
  | enqueueAtomic jobs nowMs => .enqueueAtomic { jobs := jobs.map PreparedJob.toProto, nowMs }
  | reserve queues leaseMs maxJobs nowMs => .reserve { queues, leaseMs, maxJobs, nowMs }
  | ack jobId attempt => .ack { jobId, attempt }
  | nack req retryDelayMs deadLetterEnabled nowMs =>
    .nack { request := some req, nowMs, retryDelayMs, deadLetterEnabled }
  | extend req leaseMs nowMs => .extend { request := some req, nowMs, leaseMs }
  | drainDeadLetters queue max scanCap => .drainDeadLetters { queue, max, scanCap }
  | closeQueue queue nowMs graceMs => .closeQueue { queue, nowMs, graceMs }
  | openQueue queue => .openQueue { queue }
  | requeueDeadLetters queue keys nowMs => .requeueDeadLetters { queue, keys, nowMs }
  | deadLetterJobs queue state keys reason deadLetterEnabled nowMs =>
    .deadLetterJobs
      { queue, state := (stateToProto state).toI32, keys, reason, nowMs, deadLetterEnabled }
  | deleteDeadLetters queue keys => .deleteDeadLetters { queue, keys }
  | purgeQueueChunk queue max => .purgeQueueChunk { queue, max }
  | sweep nowMs budget retentionCutoffMs deadLetterEnabled =>
    .sweep { nowMs, budget, retentionCutoffMs, deadLetterEnabled }
  | auditAppend record nowMs => .auditAppend { record := some record, nowMs }

/-- `Op::to_proto`. -/
def toProto (op : Op) : Proto.Op where
  op := some op.toVariant

/-- The match of `Op::from_proto`. -/
def fromVariant : Proto.Op.Variant → Except Status Op
  | .enqueue o => do return enqueue (← o.jobs.mapM PreparedJob.fromProto) o.nowMs
  | .enqueueAtomic o => do return enqueueAtomic (← o.jobs.mapM PreparedJob.fromProto) o.nowMs
  | .reserve o => return reserve o.queues o.leaseMs o.maxJobs o.nowMs
  | .ack o => return ack o.jobId o.attempt
  | .nack o => do
    return nack (← okOrCorrupt "nack without request" o.request) o.retryDelayMs
      o.deadLetterEnabled o.nowMs
  | .extend o => do
    return extend (← okOrCorrupt "extend without request" o.request) o.leaseMs o.nowMs
  | .drainDeadLetters o => return drainDeadLetters o.queue o.max o.scanCap
  | .closeQueue o => return closeQueue o.queue o.nowMs o.graceMs
  | .openQueue o => return openQueue o.queue
  | .requeueDeadLetters o => return requeueDeadLetters o.queue o.keys o.nowMs
  | .deadLetterJobs o => do
    return deadLetterJobs o.queue (← stateFromProto o.state) o.keys o.reason o.deadLetterEnabled
      o.nowMs
  | .deleteDeadLetters o => return deleteDeadLetters o.queue o.keys
  | .purgeQueueChunk o => return purgeQueueChunk o.queue o.max
  | .sweep o => return sweep o.nowMs o.budget o.retentionCutoffMs o.deadLetterEnabled
  | .auditAppend o => do
    return auditAppend (← okOrCorrupt "audit append without record" o.record) o.nowMs

/-- `Op::from_proto`. -/
def fromProto (msg : Proto.Op) : Except Status Op := do
  fromVariant (← okOrCorrupt "empty oneof" msg.op)

end Op

/-! ### Round trips -/

namespace Proto

/-- A job of the message lacks its request or its limits. -/
def PreparedJob.Corrupt (job : PreparedJob) : Prop := job.request = none ∨ job.limits = none

/-- The message is no operation. -/
def Op.Corrupt (msg : Op) : Prop :=
  match msg.op with
  | none => True
  | some (.enqueue o) => ∃ job ∈ o.jobs, job.Corrupt
  | some (.enqueueAtomic o) => ∃ job ∈ o.jobs, job.Corrupt
  | some (.nack o) => o.request = none
  | some (.extend o) => o.request = none
  | some (.auditAppend o) => o.record = none
  | some (.deadLetterJobs o) => o.state ∉ ([1, 2, 3, 4] : List Int32)
  | some _ => False

end Proto

theorem okOrCorrupt_inverts {α : Type} (what : String) :
    Inverts some (okOrCorrupt what : Option α → Except Status α) := by
  intro m x
  cases m with
  | none => simp [okOrCorrupt]
  | some y =>
    rw [okOrCorrupt, Except.ok.injEq, Option.some.injEq]
    exact eq_comm

theorem JobLimits.toProto_fromProto (msg : Proto.JobLimits) : (fromProto msg).toProto = msg := rfl

theorem PreparedJob.inverts : Inverts PreparedJob.toProto PreparedJob.fromProto := by
  intro msg job
  change (okOrCorrupt _ msg.request).bind _ = _ ↔ _
  simp only [Except.bind_eq_ok_iff, okOrCorrupt_inverts _ _ _]
  constructor
  · rintro ⟨req, hreq, hrest⟩
    obtain ⟨limits, hlimits, hjob⟩ := Except.bind_eq_ok_iff.mp hrest
    obtain rfl := Except.ok.inj hjob
    rw [okOrCorrupt_inverts _ _ _] at hlimits
    rw [toProto, JobLimits.toProto_fromProto, hreq, hlimits]
  · rintro rfl
    exact ⟨job.req, rfl, rfl⟩

theorem state_inverts : Inverts (fun state => (stateToProto state).toI32) stateFromProto := by
  intro value state
  constructor
  · intro h
    rw [stateFromProto] at h
    split at h <;> cases h
    all_goals
      rename_i htry
      exact Proto.JobState.toI32_of_tryFrom htry
  · rintro rfl
    rw [stateFromProto, Proto.JobState.tryFrom_toI32]
    cases state <;> rfl

/-- A required field of a variant: the rest of the variant is copied. -/
private theorem bind_pure_eq_ok_iff {α β : Type} {x : Except Status α} {f : α → β} {b : β} :
    (do return f (← x)) = Except.ok b ↔ ∃ a, x = .ok a ∧ f a = b := by
  change x.bind _ = _ ↔ _
  rw [Except.bind_eq_ok_iff]
  refine exists_congr fun a => and_congr_right fun _ => ?_
  exact ⟨Except.ok.inj, congrArg Except.ok⟩

namespace Op

theorem variant_inverts : Inverts toVariant fromVariant := by
  intro v op
  constructor
  · intro h
    cases v with
    | enqueue o | enqueueAtomic o =>
      obtain ⟨jobs, hjobs, rfl⟩ := bind_pure_eq_ok_iff.mp h
      rw [toVariant, (PreparedJob.inverts.mapM _ _).mp hjobs]
    | nack o | extend o | auditAppend o =>
      obtain ⟨req, hreq, rfl⟩ := bind_pure_eq_ok_iff.mp h
      rw [toVariant, (okOrCorrupt_inverts _ _ _).mp hreq]
    | deadLetterJobs o =>
      obtain ⟨state, hstate, rfl⟩ := bind_pure_eq_ok_iff.mp h
      rw [toVariant, show (stateToProto state).toI32 = o.state from (state_inverts _ _).mp hstate]
    | _ =>
      obtain rfl := Except.ok.inj h
      rfl
  · rintro rfl
    cases op with
    | enqueue jobs | enqueueAtomic jobs =>
      exact bind_pure_eq_ok_iff.mpr ⟨jobs, PreparedJob.inverts.mapM.decode_encode jobs, rfl⟩
    | deadLetterJobs queue state =>
      exact bind_pure_eq_ok_iff.mpr ⟨state, state_inverts.decode_encode state, rfl⟩
    | _ => rfl

theorem proto_inverts : Inverts toProto fromProto := by
  intro msg op
  change (okOrCorrupt _ msg.op).bind _ = _ ↔ _
  simp only [Except.bind_eq_ok_iff, okOrCorrupt_inverts _ _ _, variant_inverts _ _]
  constructor
  · rintro ⟨v, hv, rfl⟩
    rw [toProto, hv]
  · rintro rfl
    exact ⟨op.toVariant, rfl, rfl⟩

end Op

/-! ### What is no operation -/

namespace Proto

theorem PreparedJob.mem_range_iff (job : PreparedJob) :
    job ∈ Set.range Sepp.PreparedJob.toProto ↔ ¬ job.Corrupt := by
  obtain ⟨request, jobId, limits⟩ := job
  constructor
  · rintro ⟨job, hjob⟩
    obtain ⟨rfl, -, rfl⟩ := PreparedJob.mk.inj hjob
    simp [Corrupt]
  · intro h
    rw [Corrupt, not_or] at h
    obtain ⟨req, rfl⟩ := Option.ne_none_iff_exists'.mp h.1
    obtain ⟨limits, rfl⟩ := Option.ne_none_iff_exists'.mp h.2
    exact ⟨⟨jobId, req, JobLimits.fromProto limits⟩, rfl⟩

theorem mem_range_jobs_iff (jobs : List PreparedJob) :
    jobs ∈ Set.range (List.map Sepp.PreparedJob.toProto) ↔ ¬ ∃ job ∈ jobs, job.Corrupt := by
  rw [Set.range_list_map]
  simp only [Set.mem_ofPred_eq, PreparedJob.mem_range_iff]
  push Not
  rfl

theorem mem_range_state_iff (value : Int32) :
    value ∈ Set.range (fun state => (stateToProto state).toI32) ↔
      value ∈ ([1, 2, 3, 4] : List Int32) := by
  constructor
  · rintro ⟨state, rfl⟩
    cases state <;> decide
  · intro h
    simp only [List.mem_cons, List.not_mem_nil, or_false] at h
    rcases h with rfl | rfl | rfl | rfl
    · exact ⟨.ready, rfl⟩
    · exact ⟨.scheduled, rfl⟩
    · exact ⟨.inflight, rfl⟩
    · exact ⟨.deadLetter, rfl⟩

/-- A message is the message of an operation exactly when it is not corrupt. -/
theorem Op.mem_range_iff (msg : Op) : msg ∈ Set.range Sepp.Op.toProto ↔ ¬ msg.Corrupt := by
  obtain ⟨variant⟩ := msg
  constructor
  · rintro ⟨op, hop⟩
    obtain rfl := Op.mk.inj hop
    cases op with
    | enqueue jobs | enqueueAtomic jobs => exact (mem_range_jobs_iff _).mp ⟨jobs, rfl⟩
    | deadLetterJobs queue state =>
      exact fun hnot => hnot ((mem_range_state_iff _).mp ⟨state, rfl⟩)
    | nack | extend | auditAppend => exact nofun
    | _ => exact id
  · intro h
    cases variant with
    | none => exact absurd trivial h
    | some v =>
      cases v with
      | enqueue o =>
        obtain ⟨jobs, hjobs⟩ := (mem_range_jobs_iff _).mpr h
        exact ⟨.enqueue jobs o.nowMs, by rw [Op.toProto, Op.toVariant, hjobs]⟩
      | enqueueAtomic o =>
        obtain ⟨jobs, hjobs⟩ := (mem_range_jobs_iff _).mpr h
        exact ⟨.enqueueAtomic jobs o.nowMs, by rw [Op.toProto, Op.toVariant, hjobs]⟩
      | nack o =>
        obtain ⟨request, nowMs, retryDelayMs, deadLetterEnabled⟩ := o
        obtain ⟨req, rfl⟩ := Option.ne_none_iff_exists'.mp h
        exact ⟨.nack req retryDelayMs deadLetterEnabled nowMs, rfl⟩
      | extend o =>
        obtain ⟨request, nowMs, leaseMs⟩ := o
        obtain ⟨req, rfl⟩ := Option.ne_none_iff_exists'.mp h
        exact ⟨.extend req leaseMs nowMs, rfl⟩
      | auditAppend o =>
        obtain ⟨record, nowMs⟩ := o
        obtain ⟨record, rfl⟩ := Option.ne_none_iff_exists'.mp h
        exact ⟨.auditAppend record nowMs, rfl⟩
      | deadLetterJobs o =>
        obtain ⟨state, hstate⟩ := (mem_range_state_iff _).mpr (not_not.mp h)
        refine ⟨.deadLetterJobs o.queue state o.keys o.reason o.deadLetterEnabled o.nowMs, ?_⟩
        rw [Op.toProto, Op.toVariant, show (stateToProto state).toI32 = o.state from hstate]
      | reserve o => exact ⟨.reserve o.queues o.leaseMs o.maxJobs o.nowMs, rfl⟩
      | ack o => exact ⟨.ack o.jobId o.attempt, rfl⟩
      | drainDeadLetters o => exact ⟨.drainDeadLetters o.queue o.max o.scanCap, rfl⟩
      | closeQueue o => exact ⟨.closeQueue o.queue o.nowMs o.graceMs, rfl⟩
      | openQueue o => exact ⟨.openQueue o.queue, rfl⟩
      | requeueDeadLetters o => exact ⟨.requeueDeadLetters o.queue o.keys o.nowMs, rfl⟩
      | deleteDeadLetters o => exact ⟨.deleteDeadLetters o.queue o.keys, rfl⟩
      | purgeQueueChunk o => exact ⟨.purgeQueueChunk o.queue o.max, rfl⟩
      | sweep o =>
        exact ⟨.sweep o.nowMs o.budget o.retentionCutoffMs o.deadLetterEnabled, rfl⟩

end Proto

/-- An operation survives the log; a message that is read is the message of the operation read; and
exactly the corrupt messages are not read. -/
theorem Op.proto_roundtrip :
    (∀ op : Op, fromProto op.toProto = .ok op) ∧
      (∀ (msg : Proto.Op) (op : Op), fromProto msg = .ok op ↔ op.toProto = msg) ∧
      ∀ msg : Proto.Op, (∃ e, fromProto msg = .error e) ↔ msg.Corrupt := by
  refine ⟨proto_inverts.decode_encode, proto_inverts, fun msg => ?_⟩
  rw [proto_inverts.exists_error_iff, Proto.Op.mem_range_iff, not_not]

end Sepp
