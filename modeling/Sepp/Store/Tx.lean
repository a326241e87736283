import Mathlib.Data.List.ReduceOption
import Std.Data.ExtTreeSet
import Sepp.Store.Indexes
import Sepp.Store.Op

/-!
# The transaction an operation runs in

An operation reads and writes one write transaction of the database, the in-memory indexes and
the record of the cycle it belongs to. A transaction sees its own writes, so its state is the rows
it would commit (`Rows`); dropping it forgets them. Every read of the transaction may fail, and
`TxState.faults` says which reads from now on do. The indexes and the cycle are changed in place,
so a failing operation leaves its partial changes behind: this is `EStateM`, where an error keeps
the state.
-/

open Std

namespace Sepp

/-! ### Rows -/

/-- A keyspace of the database: an ordered map from keys to values. -/
abbrev Keyspace := ExtTreeMap Bytes Bytes compare

/-- The keyspaces of `Store`. -/
inductive KeyspaceName where
  | jobs
  | payloads
  | inflight
  | ready
  | dedup
  | dedupTimers
  | scheduled
  | leases
  | deadLetter
  | metadata
  | audit
deriving DecidableEq, Repr

/-- The rows of every keyspace. -/
structure Rows where
  jobs : Keyspace := ∅
  payloads : Keyspace := ∅
  inflight : Keyspace := ∅
  ready : Keyspace := ∅
  dedup : Keyspace := ∅
  dedupTimers : Keyspace := ∅
  scheduled : Keyspace := ∅
  leases : Keyspace := ∅
  deadLetter : Keyspace := ∅
  metadata : Keyspace := ∅
  audit : Keyspace := ∅

namespace Rows

/-- The keyspace of a name. -/
@[simp]
def get (r : Rows) : KeyspaceName → Keyspace
  | .jobs => r.jobs
  | .payloads => r.payloads
  | .inflight => r.inflight
  | .ready => r.ready
  | .dedup => r.dedup
  | .dedupTimers => r.dedupTimers
  | .scheduled => r.scheduled
  | .leases => r.leases
  | .deadLetter => r.deadLetter
  | .metadata => r.metadata
  | .audit => r.audit

/-- The rows with the keyspace of a name replaced. -/
@[simp]
def set (r : Rows) (ks : KeyspaceName) (m : Keyspace) : Rows :=
  match ks with
  | .jobs => { r with jobs := m }
  | .payloads => { r with payloads := m }
  | .inflight => { r with inflight := m }
  | .ready => { r with ready := m }
  | .dedup => { r with dedup := m }
  | .dedupTimers => { r with dedupTimers := m }
  | .scheduled => { r with scheduled := m }
  | .leases => { r with leases := m }
  | .deadLetter => { r with deadLetter := m }
  | .metadata => { r with metadata := m }
  | .audit => { r with audit := m }

/-- The rows with a value written under a key of a keyspace. -/
@[simp]
def insert (r : Rows) (ks : KeyspaceName) (key value : Bytes) : Rows :=
  r.set ks ((r.get ks).insert key value)

/-- The rows without a key of a keyspace. -/
@[simp]
def erase (r : Rows) (ks : KeyspaceName) (key : Bytes) : Rows :=
  r.set ks ((r.get ks).erase key)

end Rows

/-! ### The record of a cycle -/

/-- `CycleMetrics`. The counts of dead-lettered jobs by queue and cause are kept by cause first. -/
structure CycleMetrics where
  enqueuedByQueue : Counters := ∅
  reservedByQueue : Counters := ∅
  ackedByQueue : Counters := ∅
  nackedByQueue : Counters := ∅
  deadLetteredByCauseQueue : ExtTreeMap String Counters compare := ∅
  deduplicatedByQueue : Counters := ∅
  sweepPromotionsByQueue : Counters := ∅
  sweepLeaseRedeliveriesByQueue : Counters := ∅
  sweepDedupExpirationsByQueue : Counters := ∅
  deadLettersExpired : ℕ := 0
  deadLettersDrained : ℕ := 0
  purgedQueues : List String := []

/-- `Cycle`: whether there is something to commit, the queues that got ready jobs, and the
metrics, if anything reads them. -/
structure Cycle where
  dirty : Bool := false
  newReady : ExtTreeSet String compare := ∅
  metrics : Option CycleMetrics := none

namespace Cycle

/-- `Cycle::new`. -/
def new (metricsEnabled : Bool) : Cycle :=
  { metrics := if metricsEnabled then some {} else none }

/-- `if let Some(m) = self.metrics.as_mut()`: every recorder does nothing without metrics. -/
def record (c : Cycle) (f : CycleMetrics → CycleMetrics) : Cycle :=
  { c with metrics := c.metrics.map f }

/-- A job was enqueued. -/
def enqueued (queue : String) (c : Cycle) : Cycle :=
  c.record fun m => { m with enqueuedByQueue := bumpQueue m.enqueuedByQueue queue }

/-- A job was leased. -/
def reserved (queue : String) (c : Cycle) : Cycle :=
  c.record fun m => { m with reservedByQueue := bumpQueue m.reservedByQueue queue }

/-- A job was acknowledged. -/
def acked (queue : String) (c : Cycle) : Cycle :=
  c.record fun m => { m with ackedByQueue := bumpQueue m.ackedByQueue queue }

/-- A job was given back by its worker. -/
def nacked (queue : String) (c : Cycle) : Cycle :=
  c.record fun m => { m with nackedByQueue := bumpQueue m.nackedByQueue queue }

/-- A job was answered with the one that its idempotency key stands for. -/
def deduplicated (queue : String) (c : Cycle) : Cycle :=
  c.record fun m => { m with deduplicatedByQueue := bumpQueue m.deduplicatedByQueue queue }

/-- The last job of the queue was purged. -/
def queuePurged (queue : String) (c : Cycle) : Cycle :=
  c.record fun m => { m with purgedQueues := m.purgedQueues ++ [queue] }

/-- A job was given up, for the cause. -/
def deadLettered (queue cause : String) (c : Cycle) : Cycle :=
  c.record fun m =>
    { m with
      deadLetteredByCauseQueue := m.deadLetteredByCauseQueue.insert cause
        (bumpQueue (m.deadLetteredByCauseQueue[cause]?.getD ∅) queue) }

/-- A scheduled job became ready. -/
def sweepPromotion (queue : String) (c : Cycle) : Cycle :=
  c.record fun m => { m with sweepPromotionsByQueue := bumpQueue m.sweepPromotionsByQueue queue }

/-- A job whose lease had expired became ready again. -/
def sweepLeaseRedelivery (queue : String) (c : Cycle) : Cycle :=
  c.record fun m =>
    { m with
      sweepLeaseRedeliveriesByQueue := bumpQueue m.sweepLeaseRedeliveriesByQueue queue }

/-- The window of an idempotency key ended. -/
def sweepDedupExpiration (queue : String) (c : Cycle) : Cycle :=
  c.record fun m =>
    { m with sweepDedupExpirationsByQueue := bumpQueue m.sweepDedupExpirationsByQueue queue }

/-- Dead letters were deleted because their retention had passed. -/
def deadLetterExpired (n : ℕ) (c : Cycle) : Cycle :=
  c.record fun m => { m with deadLettersExpired := m.deadLettersExpired + n }

/-- Dead letters were drained. -/
def deadLetterDrained (n : ℕ) (c : Cycle) : Cycle :=
  c.record fun m => { m with deadLettersDrained := m.deadLettersDrained + n }

/-- `cycle.dirty = true`. -/
def markDirty (c : Cycle) : Cycle := { c with dirty := true }

/-- `cycle.new_ready.insert(queue)`. -/
def readied (queue : String) (c : Cycle) : Cycle :=
  { c with newReady := c.newReady.insert queue }

end Cycle

/-! ### The monad of operations -/

/-- What an operation reads and writes. -/
structure TxState where
  /-- The rows that the transaction sees and would commit. -/
  rows : Rows
  indexes : Indexes
  cycle : Cycle
  /-- The storage errors of the reads to come, the next one first. -/
  faults : ℕ → Option String

/-- An operation in progress; an error keeps the state. -/
abbrev TxM := EStateM Status TxState

/-- `stg_err`. -/
def stgErr (e : String) : Status := ⟨.internal, "storage error: " ++ e⟩

/-- `tx.get(keyspace, key).map_err(stg_err)?`. -/
def txGet (ks : KeyspaceName) (key : Bytes) : TxM (Option Bytes) := fun s =>
  let s' := { s with faults := fun n => s.faults (n + 1) }
  match s.faults 0 with
  | some e => .error (stgErr e) s'
  | none => .ok ((s.rows.get ks)[key]?) s'

/-- `tx.insert`. -/
def txInsert (ks : KeyspaceName) (key value : Bytes) : TxM Unit :=
  modify fun s => { s with rows := s.rows.insert ks key value }

/-- `tx.remove`. -/
def txRemove (ks : KeyspaceName) (key : Bytes) : TxM Unit :=
  modify fun s => { s with rows := s.rows.erase ks key }

/-- Changes the indexes. -/
def onIndexes (f : Indexes → Indexes) : TxM Unit :=
  modify fun s => { s with indexes := f s.indexes }

/-- Changes the record of the cycle. -/
def onCycle (f : Cycle → Cycle) : TxM Unit :=
  modify fun s => { s with cycle := f s.cycle }

/-- The indexes as they are now. -/
def getIndexes : TxM Indexes := do return (← get).indexes

/-- `result?`. -/
def liftExcept {α : Type} : Except Status α → TxM α
  | .ok a => pure a
  | .error e => throw e

end Sepp
