import Sepp.Store.Apply

/-!
# The committer

`rebuild_indexes`, `peek_keys` and the two kinds of cycle of `src/storage.rs`. A cycle applies
commands to one shared transaction and commits it at the end; the callers of operations are
answered after the commit, the callers of reads and of rejected operations at once. A storage
failure in any operation, or a failing commit, drops the transaction, rebuilds the indexes from
the committed rows and fails every caller not yet answered.

The clock, the reads that fail and whether the commit fails come from outside (`CycleEnv`), and
`rebuild_indexes` is assumed to succeed. A one-shot reply channel is a number, and what a cycle
sends is the list of its replies in order.
-/

open Std

namespace Sepp

/-! ### Rebuilding the indexes -/

section Rebuild

variable [Prost]

omit [Prost] in
/-- The ready index of the `ready` rows. -/
def rebuildReady (rows : Rows) : ReadyIndex :=
  rows.ready.toList.foldl (fun idx (key, value) => idx.insert key ((attemptOfRow value).getD 1)) {}

omit [Prost] in
/-- A timer index of the keys of `keyspace`, the owner of a key read by `queueOf`. -/
def rebuildTimers (keyspace : Keyspace) (queueOf : Bytes → Option String) : TimerIndex :=
  keyspace.toList.foldl (fun idx (key, _) => idx.insert key ((queueOf key).getD "")) {}

omit [Prost] in
/-- The queue of a scheduled key is that of its job record. -/
def scheduledQueue (rows : Rows) (key : Bytes) : Option String :=
  ((TimerKey.jobIdOf key).bind fun jobId => rows.jobs[jobId]?).bind readQueue

/-- The queue of a lease key is that of its inflight record. -/
def leaseQueue (rows : Rows) (key : Bytes) : Option String :=
  ((TimerKey.jobIdOf key).bind fun jobId => rows.inflight[jobId]?).bind fun stored =>
    (Inflight.decode stored).toOption.map Inflight.queue

omit [Prost] in
/-- The close tombstones of the `closing/` rows. -/
def rebuildClosing (rows : Rows) : ExtTreeMap String Int64 compare :=
  (rows.metadata.toList.filter fun (key, _) => closingPrefix.isPrefixOf key).foldl
    (fun closing (key, value) =>
      match closingQueue key with
      | none => closing
      | some queue => closing.insert queue ((deadlineOfRow value).getD 0)) ∅

/-- `rebuild_indexes`. -/
def rebuildIndexes (rows : Rows) : Indexes where
  ready := rebuildReady rows
  scheduled := rebuildTimers rows.scheduled (scheduledQueue rows)
  leases := rebuildTimers rows.leases (leaseQueue rows)
  dedupTimers := rebuildTimers rows.dedupTimers DedupTimerKey.queueOf
  deadLetter := rebuildTimers rows.deadLetter DeadLetterKey.queueOf
  closing := rebuildClosing rows

end Rebuild

/-! ### Peeking -/

/-- `PeekPage`: the keys of a page, where the next one starts if there is one, and whether the page
ended because it had examined enough keys. -/
structure PeekPage where
  keys : List Bytes
  nextCursor : Option Bytes
  truncated : Bool
deriving DecidableEq, Repr

/-- `PEEK_LIMIT_MAX`. -/
def peekLimitMax : ℕ := 100

/-- `PEEK_EXAMINE_CAP`. -/
def peekExamineCap : ℕ := 10000

/-- `range((start, Unbounded))` of a timer index: the entries after the cursor, or all. -/
def entriesAfter (cursor : Option Bytes) (entries : List (Bytes × String)) :
    List (Bytes × String) :=
  match cursor with
  | some c => entries.filter fun entry => (compare c entry.1).isLT
  | none => entries

/-- The ready page of `peek_keys`: ready keys embed the queue, so a range of keys with the
queue's prefix is exactly the queue's. -/
def peekReady (idx : ReadyIndex) (queue : String) (cursor : Option Bytes) (limit : ℕ) :
    PeekPage :=
  let start := queuePrefix queue
  let range := (idx.keys.toList.map Prod.fst).filter fun key =>
    match cursor with
    | some c => (compare c key).isLT
    | none => (compare start key).isLE
  let own := range.takeWhile fun key => start.isPrefixOf key
  let keys := own.take limit
  { keys
    nextCursor := if keys.length = limit ∧ own.drop limit ≠ [] then keys.getLast? else none
    truncated := false }

/-- The loop of `peek_keys` over a timer index. -/
def peekTimers (queue : String) (limit : ℕ) :
    List (Bytes × String) → ℕ → List Bytes → Option Bytes → PeekPage
  | [], _, keys, _ => { keys, nextCursor := none, truncated := false }
  | (key, owner) :: entries, examined, keys, lastExamined =>
    if examined = peekExamineCap then
      { keys, nextCursor := lastExamined, truncated := true }
    else if owner = queue then
      if (keys ++ [key]).length = limit then
        { keys := keys ++ [key], nextCursor := some key, truncated := false }
      else peekTimers queue limit entries (examined + 1) (keys ++ [key]) (some key)
    else peekTimers queue limit entries (examined + 1) keys (some key)

/-- `peek_keys`. -/
def peekKeys (idx : Indexes) (state : PeekState) (queue : String) (cursor : Option Bytes)
    (limit : ℕ) : PeekPage :=
  let limit := max 1 (min limit peekLimitMax)
  let timers (index : TimerIndex) : PeekPage :=
    peekTimers queue limit (entriesAfter cursor index.keys.toList) 0 [] none
  match state with
  | .ready => peekReady idx.ready queue cursor limit
  | .scheduled => timers idx.scheduled
  | .inflight => timers idx.leases
  | .deadLetter => timers idx.deadLetter

/-! ### Commands and replies -/

/-- `Command`: what the committer takes from its channel, an operation or one of the reads that it
answers from the indexes. `resp` is the channel that the caller waits on. -/
inductive Command where
  | op (op : Op) (resp : ℕ)
  | peekKeys (state : PeekState) (queue : String) (cursor : Option Bytes) (limit : UInt64)
      (resp : ℕ)
  | queueDepths (queue : String) (resp : ℕ)

/-- The channel that the caller of a command waits on. -/
def Command.resp : Command → ℕ
  | op _ resp => resp
  | peekKeys _ _ _ _ resp => resp
  | queueDepths _ resp => resp

/-- What is sent to the caller of a command. -/
inductive Reply where
  | op (result : Except Status OpOutcome)
  | peekKeys (result : Except Status PeekPage)
  | queueDepths (result : Except Status QueueDepthCounts)
deriving DecidableEq

/-- A cycle in progress: the shared transaction, the outcomes parked until the commit, and the
replies sent so far. -/
structure CycleRun where
  tx : TxState
  responders : List (ℕ × OpOutcome) := []
  sent : List (ℕ × Reply) := []

/-- `fail_command`. -/
def failCommand (status : Status) : Command → ℕ × Reply
  | .op _ resp => (resp, .op (.error status))
  | .peekKeys _ _ _ _ resp => (resp, .peekKeys (.error status))
  | .queueDepths _ resp => (resp, .queueDepths (.error status))

/-- `PendingReply::respond`. -/
def respond (outcome : Except Status Unit) (pending : ℕ × OpOutcome) : ℕ × Reply :=
  match outcome with
  | .ok () => (pending.1, .op (.ok pending.2))
  | .error e => (pending.1, .op (.error e))

/-- The database and its mirror, between cycles. -/
structure Server where
  rows : Rows := {}
  indexes : Indexes := {}

/-- What a cycle depends on beside the state and the commands. -/
structure CycleEnv where
  /-- The clock read of the cycle. -/
  now : Int64
  metricsEnabled : Bool
  /-- The storage errors of the cycle's reads, in order. -/
  faults : ℕ → Option String
  /-- The commit fails. -/
  commitFails : Bool

/-- What a cycle leaves behind: the server, the replies in the order they were sent, the metrics
that were reported, and the queues whose waiters were woken. -/
structure CycleResult where
  server : Server
  replies : List (ℕ × Reply)
  metrics : Option CycleMetrics
  wakes : List String

section Cycles

variable [Prost]

/-- `apply_command`: the error is a storage failure, which poisons the cycle. -/
def applyCommand (now : Int64) (cmd : Command) (run : CycleRun) : Except Status Unit × CycleRun :=
  match cmd with
  | .op op resp =>
    match applyOp (op.stamp now) run.tx with
    | .ok outcome tx =>
      (.ok (), { run with tx, responders := run.responders ++ [(resp, outcome)] })
    | .error e tx =>
      let run := { run with tx, sent := run.sent ++ [(resp, .op (.error e))] }
      if e.code = .internal then (.error e, run) else (.ok (), run)
  | .peekKeys state queue cursor limit resp =>
    let page := peekKeys run.tx.indexes state queue cursor limit.toNat
    (.ok (), { run with sent := run.sent ++ [(resp, .peekKeys (.ok page))] })
  | .queueDepths queue resp =>
    let counts := run.tx.indexes.depthCounts queue
    (.ok (), { run with sent := run.sent ++ [(resp, .queueDepths (.ok counts))] })

/-- `rpcs.by_ref().find_map(..)`: applies commands up to the first storage failure, and returns
it with the commands left. -/
def applyCommands (now : Int64) : List Command → CycleRun →
    Option (Status × List Command) × CycleRun
  | [], run => (none, run)
  | cmd :: cmds, run =>
    match applyCommand now cmd run with
    | (.ok (), run) => applyCommands now cmds run
    | (.error status, run) => (some (status, cmds), run)

/-- A cycle that commits nothing: the transaction is dropped and the indexes are rebuilt. -/
def Server.rolledBack (server : Server) : Server :=
  { rows := server.rows, indexes := rebuildIndexes server.rows }

/-- The end of a cycle whose operations all went through: commit if anything was written. -/
def commitCycle (env : CycleEnv) (server : Server) (tx : TxState) : Except Status Unit × Server :=
  if tx.cycle.dirty then
    if env.commitFails then
      (.error ⟨.internal, "storage commit failed"⟩, server.rolledBack)
    else (.ok (), { rows := tx.rows, indexes := tx.indexes })
  else (.ok (), { rows := server.rows, indexes := tx.indexes })

/-- The transaction a cycle starts from. -/
def beginCycle (env : CycleEnv) (server : Server) : TxState where
  rows := server.rows
  indexes := server.indexes
  cycle := Cycle.new env.metricsEnabled
  faults := env.faults

/-- `run_rpc_cycle`. -/
def runRpcCycle (env : CycleEnv) (server : Server) (rpcs : List Command) : CycleResult :=
  match applyCommands env.now rpcs { tx := beginCycle env server } with
  | (some (status, rest), run) =>
    { server := server.rolledBack
      replies := run.sent ++ run.responders.map (respond (.error status)) ++
        rest.map (failCommand status)
      metrics := none
      wakes := [] }
  | (none, run) =>
    let (outcome, server) := commitCycle env server run.tx
    { server
      replies := run.sent ++ run.responders.map (respond outcome)
      metrics := if outcome.isOk then run.tx.cycle.metrics else none
      wakes := if outcome.isOk then run.tx.cycle.newReady.toList else [] }

/-- The parameters of the sweep that the committer builds. -/
structure SweepParams where
  sweepLimit : UInt64
  deadLetterRetentionMs : UInt64

/-- The operation of `run_sweep_cycle`. -/
def sweepOp (params : SweepParams) (now : Int64) : Op :=
  .sweep now params.sweepLimit
    (if 0 < params.deadLetterRetentionMs then
      some (saturatingSub now (i64OfU64 params.deadLetterRetentionMs)) else none)
    (decide (0 < params.deadLetterRetentionMs))

/-- `run_sweep_cycle`. -/
def runSweepCycle (env : CycleEnv) (params : SweepParams) (server : Server) : CycleResult :=
  match applyOp (sweepOp params env.now) (beginCycle env server) with
  | .error _ _ => { server := server.rolledBack, replies := [], metrics := none, wakes := [] }
  | .ok _ tx =>
    let (outcome, server) := commitCycle env server tx
    { server
      replies := []
      metrics := if outcome.isOk then tx.cycle.metrics else none
      wakes := if outcome.isOk then tx.cycle.newReady.toList else [] }

end Cycles

end Sepp
