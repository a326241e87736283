import Sepp.Store.Enqueue
import Sepp.Store.Lease
import Sepp.Store.Sweep

/-!
# Applying an operation

`apply_audit_append` and `apply_op` of `src/storage.rs`.
-/

namespace Sepp

variable [Prost]

/-- The sequence number after the one stored in the `audit_seq` row, if the row is eight bytes
and the number is not the last. -/
def nextAuditSeq (value : Bytes) : Option UInt64 :=
  if value.length = 8 then
    let seq := UInt64.ofNat (BigEndian.ofBytes value)
    if seq.toNat + 1 < 2 ^ 64 then some (seq + 1) else none
  else none

/-- `u64::to_be_bytes`. -/
def seqBytes (seq : UInt64) : Bytes := BigEndian.toBytes 8 seq.toNat

/-- `apply_audit_append`. -/
def applyAuditAppend (record : AuditRecord) (now : Int64) : TxM UInt64 := do
  let seq ←
    match ← txGet .metadata auditSeqKey with
    | some v =>
      match nextAuditSeq v with
      | some seq => pure seq
      | none => throw ⟨.internal, "corrupt audit_seq row"⟩
    | none => pure 1
  txInsert .metadata auditSeqKey (seqBytes seq)
  txInsert .audit (seqBytes seq) (AuditValue.encode { tsMs := now, record })
  onCycle Cycle.markDirty
  return seq

/-- `apply_op`. -/
def applyOp : Op → TxM OpOutcome
  | .enqueue jobs now => do return .enqueue (← applyEnqueue jobs now)
  | .enqueueAtomic jobs now => do return .enqueueAtomic (← applyEnqueueAtomic jobs now)
  | .reserve queues leaseMs maxJobs now => do
    return .reserve (← applyReserve queues leaseMs maxJobs.toNat now)
  | .ack jobId attempt => do return .ack (← applyAck jobId attempt)
  | .nack req retryDelayMs enabled now => do
    return .nack (← applyNack req retryDelayMs enabled now)
  | .extend req leaseMs now => do return .extend (← applyExtend req leaseMs now)
  | .drainDeadLetters queue max scanCap => do
    return .drainDeadLetters (← applyDrain queue max.toNat scanCap.toNat)
  | .closeQueue queue now graceMs => do
    applyCloseQueue queue now graceMs
    return .closeQueue
  | .openQueue queue => do
    applyOpenQueue queue
    return .openQueue
  | .requeueDeadLetters queue keys now => do
    return .requeueDeadLetters (← applyRequeueDeadLetters queue keys now)
  | .deadLetterJobs queue state keys reason enabled now => do
    return .deadLetterJobs (← applyDeadLetterJobs queue state keys reason enabled now)
  | .deleteDeadLetters queue keys => do
    return .deleteDeadLetters (← applyDeleteDeadLetters queue keys)
  | .purgeQueueChunk queue max => do
    return .purgeQueueChunk (← applyPurgeQueueChunk queue max.toNat)
  | .sweep now budget cutoff enabled => do
    return .sweep (← applySweep now budget.toNat cutoff enabled)
  | .auditAppend record now => do return .auditAppend (← applyAuditAppend record now) now

end Sepp
