import Sepp.Store.DeadLetter

/-!
# Closing, purging and sweeping

`apply_close_queue`, `apply_open_queue`, `apply_purge_queue_chunk` and `apply_sweep` of
`src/storage.rs`.
-/

open Std

namespace Sepp

/-! ### Close and open -/

/-- `apply_close_queue`. -/
def applyCloseQueue (queue : String) (now graceMs : Int64) : TxM Unit := do
  let deadline := saturatingAdd now graceMs
  txInsert .metadata (closingKey queue) (KeyWriter.i64 deadline)
  onIndexes fun idx => { idx with closing := idx.closing.insert queue deadline }
  onCycle Cycle.markDirty

/-- `apply_open_queue`. -/
def applyOpenQueue (queue : String) : TxM Unit := do
  -- `closing` mirrors the rows exactly, so a missing entry means there is no row to delete.
  if ((← getIndexes).closing[queue]?).isSome then
    onIndexes fun idx => { idx with closing := idx.closing.erase queue }
    txRemove .metadata (closingKey queue)
    onCycle Cycle.markDirty

/-! ### Purge -/

/-- The first loop of `apply_purge_queue_chunk`; the fuel is `max - purged`. -/
def purgeReady (start : Bytes) : ℕ → ℕ → TxM ℕ
  | 0, purged => return purged
  | left + 1, purged => do
    match (← getIndexes).ready.popFront start with
    | none => return purged
    | some ((readyK, _), ready) =>
      onIndexes fun idx => { idx with ready }
      match ReadyKey.decode readyK with
      | some rk =>
        txRemove .jobs (asBytes rk.jobId)
        txRemove .payloads (asBytes rk.jobId)
      | none => pure ()
      txRemove .ready readyK
      onCycle Cycle.markDirty
      purgeReady start left (purged + 1)

/-- The body of the loop over the scheduled keys of a purge. -/
def purgeScheduled (timerK : Bytes) : TxM Unit := do
  match TimerKey.jobIdOf timerK with
  | some jobId =>
    txRemove .jobs jobId
    txRemove .payloads jobId
  | none => pure ()
  txRemove .scheduled timerK
  onIndexes fun idx => { idx with scheduled := (idx.scheduled.remove timerK).2 }
  onCycle Cycle.markDirty

/-- The body of the loop over the dead letters of a purge. -/
def purgeDeadLetter (key : Bytes) : TxM Unit := do
  txRemove .deadLetter key
  onIndexes fun idx => { idx with deadLetter := (idx.deadLetter.remove key).2 }
  onCycle Cycle.markDirty

/-- The body of the loop over the dedup timers of a purge. -/
def purgeDedup (timerK : Bytes) : TxM Unit := do
  match DedupTimerKey.dedupKeyOf timerK with
  | some dedupK => txRemove .dedup dedupK
  | none => pure ()
  txRemove .dedupTimers timerK
  onIndexes fun idx => { idx with dedupTimers := (idx.dedupTimers.remove timerK).2 }
  onCycle Cycle.markDirty

/-- `by_queue.contains_key(queue)` for the four kinds of rows that a purge removes. -/
def holdsRows (idx : Indexes) (queue : String) : Bool :=
  idx.ready.byQueue.contains queue || idx.scheduled.byQueue.contains queue ||
    idx.deadLetter.byQueue.contains queue || idx.dedupTimers.byQueue.contains queue

/-- `apply_purge_queue_chunk`. -/
def applyPurgeQueueChunk (queue : String) (max : ℕ) : TxM PurgeOutcome := do
  if 0 < (← getIndexes).leases.byQueue[queue]?.getD 0 then
    throw ⟨.failedPrecondition, "queue has in-flight jobs"⟩
  else
    let purged ← purgeReady (queuePrefix queue) max 0
    let chosen := (← getIndexes).scheduled.ownedKeys queue (max - purged)
    chosen.forM purgeScheduled
    let purged := purged + chosen.length
    let chosen := (← getIndexes).deadLetter.ownedKeys queue (max - purged)
    chosen.forM purgeDeadLetter
    let purged := purged + chosen.length
    let chosen := (← getIndexes).dedupTimers.ownedKeys queue (max - purged)
    chosen.forM purgeDedup
    let purged := purged + chosen.length
    let remaining := holdsRows (← getIndexes) queue
    if !remaining then
      onCycle (Cycle.queuePurged queue)
    return { purged, remaining }

/-! ### Sweep -/

/-- The loop of a sweep phase: pops due keys of one index and processes each, at most `budget`
of them. -/
def sweepPhase (pick : Indexes → TimerIndex) (put : TimerIndex → Indexes → Indexes)
    (until_ : Int64) (process : Bytes → String → TxM Unit) : ℕ → TxM ℕ
  | 0 => return 0
  | remaining + 1 => do
    match (pick (← getIndexes)).popDue until_ with
    | none => return 0
    | some ((timerK, queue), timers) =>
      onIndexes (put timers)
      process timerK queue
      return (← sweepPhase pick put until_ process remaining) + 1

/-- `closing.retain` of `apply_sweep`: drops the tombstones whose deadline has passed. -/
def sweepClosing (now : Int64) : TxM Unit := do
  let expired := (← getIndexes).closing.toList.filter fun (_, deadline) => !(now < deadline)
  expired.forM fun (queue, _) => do
    txRemove .metadata (closingKey queue)
    onCycle Cycle.markDirty
  onIndexes fun idx => { idx with closing := idx.closing.filter fun _ deadline => now < deadline }

section Phases

variable [Prost]

/-- The promotion of a due scheduled job. -/
def promoteDue (timerK : Bytes) (_ : String) : TxM Unit := do
  let attemptHint := (← txGet .scheduled timerK).bind attemptOfRow
  txRemove .scheduled timerK
  onCycle Cycle.markDirty
  match TimerKey.jobIdOf timerK with
  | none => return ()
  | some jobId =>
    match ← txGet .jobs jobId with
    | none => return ()
    | some stored =>
      match JobValue.decode stored with
      | .error _ => return ()
      | .ok (queue, job) =>
        let attempt := attemptHint.getD job.attempt
        let rk := ReadyKey.encode
          { queue
            priority := job.priority
            enqueuedAt := (job.enqueuedAt.map timestampToMillis).getD 0
            jobId := job.id }
        txInsert .ready rk (KeyWriter.u32 attempt)
        onIndexes fun idx => { idx with ready := idx.ready.insert rk attempt }
        onCycle (Cycle.sweepPromotion queue)
        onCycle (Cycle.readied queue)

/-- The end of an expired lease: redelivery, or a dead letter on the last attempt. -/
def expireDue (now : Int64) (deadLetterEnabled : Bool) (timerK : Bytes) (_ : String) :
    TxM Unit := do
  txRemove .leases timerK
  onCycle Cycle.markDirty
  match TimerKey.jobIdOf timerK with
  | none => return ()
  | some jobId =>
    match ← txGet .inflight jobId with
    | none => return ()
    | some stored =>
      match Inflight.decode stored with
      | .error _ => return ()
      | .ok inflight =>
        if inflight.maxAttempts ≤ inflight.attempt then
          maybeStoreDeadLetter jobId
            { cause := .leaseExpired
              failedAt := now
              attempt := inflight.attempt
              lastReason := none } deadLetterEnabled
          txRemove .jobs jobId
          txRemove .payloads jobId
          txRemove .inflight jobId
          onCycle (Cycle.deadLettered inflight.queue "lease_expired")
        else
          match fromUtf8 jobId with
          | none => return ()
          | some id =>
            let attempt := inflight.attempt + 1
            let rk := ReadyKey.encode
              { queue := inflight.queue
                priority := inflight.priority
                enqueuedAt := inflight.enqueuedAt
                jobId := id }
            txInsert .ready rk (KeyWriter.u32 attempt)
            onIndexes fun idx => { idx with ready := idx.ready.insert rk attempt }
            txRemove .inflight jobId
            onCycle (Cycle.sweepLeaseRedelivery inflight.queue)
            onCycle (Cycle.readied inflight.queue)

omit [Prost] in
/-- The end of a dedup window. -/
def forgetDue (now : Int64) (timerK : Bytes) (queue : String) : TxM Unit := do
  match DedupTimerKey.dedupKeyOf timerK with
  | some dedupK =>
    let recordDeadline := ((← txGet .dedup dedupK).bind DedupValue.decode).map DedupValue.deadline
    if recordDeadline.any fun deadline => !(now < deadline) then
      txRemove .dedup dedupK
  | none => pure ()
  txRemove .dedupTimers timerK
  onCycle (Cycle.sweepDedupExpiration queue)
  onCycle Cycle.markDirty

omit [Prost] in
/-- The end of a dead letter's retention. -/
def expireDeadLetter (key : Bytes) (_ : String) : TxM Unit := do
  txRemove .deadLetter key
  onCycle Cycle.markDirty

omit [Prost] in
/-- The retention phase of `apply_sweep`. -/
def sweepDeadLetters (budget : ℕ) (cutoff : Int64) : TxM ℕ := do
  let expired ← sweepPhase Indexes.deadLetter (fun timers idx => { idx with deadLetter := timers })
    cutoff expireDeadLetter budget
  if 0 < expired then
    onCycle (Cycle.deadLetterExpired expired)
  return expired

/-- `apply_sweep`. Each phase has its own budget, so that a backlog of one timer kind cannot
starve another. -/
def applySweep (now : Int64) (budget : ℕ) (retentionCutoffMs : Option Int64)
    (deadLetterEnabled : Bool) : TxM ℕ := do
  sweepClosing now
  let promoted ← sweepPhase Indexes.scheduled (fun timers idx => { idx with scheduled := timers })
    now promoteDue budget
  let ended ← sweepPhase Indexes.leases (fun timers idx => { idx with leases := timers })
    now (expireDue now deadLetterEnabled) budget
  let forgotten ← sweepPhase Indexes.dedupTimers
    (fun timers idx => { idx with dedupTimers := timers }) now (forgetDue now) budget
  let expired ←
    match retentionCutoffMs with
    | some cutoff => sweepDeadLetters budget cutoff
    | none => pure 0
  return promoted + ended + forgotten + expired

end Phases

end Sepp
