import Sepp.Committer.Wake
import Sepp.Run.Rounds

/-!
# The loop of the committer

`run_committer` of `src/storage.rs`, with the admin totals that it keeps and the snapshot that it
publishes. At the top of each turn it sweeps if something is due. Then it takes a command from the
channel, or times out, drains the channel into one cycle, and publishes. Other threads send
commands between any two of its steps. When every sender is gone and the channel is empty, it
stops.

The process may die at any time, also between the commit of a cycle and its replies: a commit that
cannot be persisted makes the committer panic. What is left then is what is in the database, and
`Storage::open` starts the loop again.

The clock reads come from outside, and so does whether the interval of publishing has passed.

## Main definitions

* `foldAdminTotals`, `evictIdleAdminTotals` — the admin totals.
* `LoopState`, `LoopStep` — the loop, step by step.
* `LoopState.init` — the loop right after `Storage::open`.
-/

open Std

namespace Sepp

/-! ### Depths and totals -/

/-- `QueueDepthSnapshot`. -/
structure QueueDepthSnapshot where
  ready : Counters := ∅
  scheduled : Counters := ∅
  inflight : Counters := ∅
  deadLetter : Counters := ∅

/-- `Indexes::snapshot`. -/
def Indexes.snapshot (idx : Indexes) : QueueDepthSnapshot where
  ready := idx.ready.byQueue
  scheduled := idx.scheduled.byQueue
  inflight := idx.leases.byQueue
  deadLetter := idx.deadLetter.byQueue

/-- `QueueTotals`. -/
structure QueueTotals where
  enqueued : ℕ := 0
  reserved : ℕ := 0
  acked : ℕ := 0
  nacked : ℕ := 0
  deadLettered : ℕ := 0
deriving DecidableEq, Repr

/-- The totals of the queues, and when each queue was last active. -/
structure AdminTotals where
  totals : ExtTreeMap String QueueTotals compare := ∅
  lastActive : ExtTreeMap String Int64 compare := ∅

namespace AdminTotals

/-- One entry of the closure `fold`. -/
def add (now : Int64) (bump : ℕ → QueueTotals → QueueTotals) (t : AdminTotals)
    (entry : String × ℕ) : AdminTotals where
  totals := t.totals.insert entry.1 (bump entry.2 (t.totals[entry.1]?.getD {}))
  lastActive := t.lastActive.insert entry.1 now

/-- The closure `fold` of `fold_admin_totals`, over the counts of one counter. -/
def fold (now : Int64) (bump : ℕ → QueueTotals → QueueTotals) (t : AdminTotals)
    (byQueue : Counters) : AdminTotals :=
  byQueue.toList.foldl (add now bump) t

/-- Drops a queue. -/
def remove (t : AdminTotals) (queue : String) : AdminTotals where
  totals := t.totals.erase queue
  lastActive := t.lastActive.erase queue

end AdminTotals

/-- `fold_admin_totals`. -/
def foldAdminTotals (now : Int64) (m : CycleMetrics) (t : AdminTotals) : AdminTotals :=
  let t := t.fold now (fun n q => { q with enqueued := q.enqueued + n }) m.enqueuedByQueue
  let t := t.fold now (fun n q => { q with reserved := q.reserved + n }) m.reservedByQueue
  let t := t.fold now (fun n q => { q with acked := q.acked + n }) m.ackedByQueue
  let t := t.fold now (fun n q => { q with nacked := q.nacked + n }) m.nackedByQueue
  m.deadLetteredByCauseQueue.toList.foldl
    (fun t (_, counts) =>
      t.fold now (fun n q => { q with deadLettered := q.deadLettered + n }) counts) t

/-- `ADMIN_IDLE_EVICT_MS`. -/
def adminIdleEvictMs : Int64 := 15 * 60 * 1000

/-- `evict_idle_admin_totals`. -/
def evictIdleAdminTotals (idx : Indexes) (now : Int64) (t : AdminTotals) : AdminTotals :=
  let totals := t.totals.filter fun queue _ =>
    (t.lastActive[queue]?.any fun at_ => decide (now - at_ < adminIdleEvictMs)) ||
      idx.ready.byQueue.contains queue || idx.scheduled.byQueue.contains queue ||
      idx.leases.byQueue.contains queue || idx.deadLetter.byQueue.contains queue
  { totals, lastActive := t.lastActive.filter fun queue _ => totals.contains queue }

/-- The totals after a cycle of commands: the queues that it purged start over. -/
def totalsAfterRpc (now : Int64) (metrics : Option CycleMetrics) (t : AdminTotals) : AdminTotals :=
  match metrics with
  | some m => foldAdminTotals now m (m.purgedQueues.foldl AdminTotals.remove t)
  | none => t

/-- The totals after a sweep cycle; `evictNow` is the clock read of the eviction. -/
def totalsAfterSweep (now evictNow : Int64) (result : CycleResult) (t : AdminTotals) :
    AdminTotals :=
  let t := match result.metrics with
    | some m => foldAdminTotals now m t
    | none => t
  evictIdleAdminTotals result.server.indexes evictNow t

/-- `AdminSnapshot`; the length of the command queue is filled in by its readers. -/
structure AdminSnapshot where
  tsMs : Int64 := 0
  depths : QueueDepthSnapshot := {}
  totals : ExtTreeMap String QueueTotals compare := ∅

/-! ### The loop -/

/-- What the loop is configured with. -/
structure LoopConfig where
  sweep : SweepParams
  metricsEnabled : Bool
  adminEnabled : Bool

/-- `Cycle::new(store.metrics.is_enabled() || store.params.admin_enabled)`. -/
def LoopConfig.records (cfg : LoopConfig) : Bool := cfg.metricsEnabled || cfg.adminEnabled

/-- Where the loop is in its turn. -/
inductive LoopPhase where
  /-- Before the test whether a sweep is due. -/
  | top
  /-- Before the first command is taken; `swept` says whether a sweep was due. -/
  | receive (swept : Bool)
  /-- The commands that were taken so far. -/
  | drain (rpcs : List Command)
  | publish
  | stopped

/-- The loop, the channel, and what the loop has published. -/
structure LoopState where
  server : Server := {}
  channel : List Command := []
  /-- Every sender is gone. -/
  closed : Bool := false
  phase : LoopPhase := .top
  admin : AdminTotals := {}
  gauges : QueueDepthSnapshot := {}
  snapshot : AdminSnapshot := {}

/-- What happens: a command is sent, the last sender goes, the loop goes on, or the process dies. -/
inductive LoopLabel where
  | send (cmd : Command)
  | close
  /-- No sweep is due at the clock read `now`. -/
  | quiet (now : Int64)
  | cycle (round : Round) (replies : List (ℕ × Reply))
  | take
  | timeout
  | publish
  | stop
  /-- The process dies and is started again. A cycle that came to its end before that is
  `committed`; some of its replies may have been sent. -/
  | crash (committed : Option Round) (replies : List (ℕ × Reply))

namespace LoopLabel

/-- The rounds that the label stands for. -/
def rounds : LoopLabel → List Round
  | cycle round _ => [round]
  | crash committed _ => committed.toList ++ [.restart]
  | _ => []

/-- The replies that are sent. -/
def replies : LoopLabel → List (ℕ × Reply)
  | cycle _ replies | crash _ replies => replies
  | _ => []

/-- The commands that are sent. -/
def sent? : LoopLabel → Option Command
  | send cmd => some cmd
  | _ => none

end LoopLabel

namespace LoopState

variable [Prost]

/-- The loop right after `Storage::open` on a database. -/
def init (rows : Rows) : LoopState := { server := { rows, indexes := rebuildIndexes rows } }

/-- After `run_sweep_cycle`. -/
def sweep (cfg : LoopConfig) (env : CycleEnv) (foldNow evictNow : Int64) (s : LoopState) :
    LoopState :=
  let result := runSweepCycle env cfg.sweep s.server
  { s with
    server := result.server
    phase := .receive true
    admin :=
      if cfg.adminEnabled then totalsAfterSweep foldNow evictNow result s.admin else s.admin }

/-- After `run_rpc_cycle`. -/
def rpc (cfg : LoopConfig) (env : CycleEnv) (rpcs : List Command) (foldNow : Int64)
    (s : LoopState) : LoopState :=
  let result := runRpcCycle env s.server rpcs
  { s with
    server := result.server
    phase := .publish
    admin := if cfg.adminEnabled then totalsAfterRpc foldNow result.metrics s.admin else s.admin }

omit [Prost] in
/-- After the gauges are set and the snapshot is stored, if it is `due`. -/
def publish (cfg : LoopConfig) (due : Bool) (now : Int64) (s : LoopState) : LoopState :=
  { s with
    phase := .top
    gauges := if cfg.metricsEnabled then s.server.indexes.snapshot else s.gauges
    snapshot :=
      if cfg.adminEnabled && due then
        { tsMs := now, depths := s.server.indexes.snapshot, totals := s.admin.totals }
      else s.snapshot }

end LoopState

/-- One step of the loop, or of a sender. -/
inductive LoopStep [Prost] (cfg : LoopConfig) : LoopState → LoopLabel → LoopState → Prop
  | send {s : LoopState} {cmd : Command} (hopen : s.closed = false) :
      LoopStep cfg s (.send cmd) { s with channel := s.channel ++ [cmd] }
  | close {s : LoopState} (hopen : s.closed = false) :
      LoopStep cfg s .close { s with closed := true }
  /-- A sweep is due at the clock read `now`. -/
  | sweep {s : LoopState} {now : Int64} {env : CycleEnv} {foldNow evictNow : Int64}
      (htop : s.phase = .top)
      (hdue : SweepDue s.server.indexes cfg.sweep.deadLetterRetentionMs now)
      (henv : env.metricsEnabled = cfg.records) :
      LoopStep cfg s (.cycle (.sweep env cfg.sweep) []) (s.sweep cfg env foldNow evictNow)
  | quiet {s : LoopState} {now : Int64} (htop : s.phase = .top)
      (hdue : ¬ SweepDue s.server.indexes cfg.sweep.deadLetterRetentionMs now) :
      LoopStep cfg s (.quiet now) { s with phase := .receive false }
  | take {s : LoopState} {swept : Bool} {cmd : Command} {rest : List Command}
      (hphase : s.phase = .receive swept) (hchannel : s.channel = cmd :: rest) :
      LoopStep cfg s .take { s with channel := rest, phase := .drain [cmd] }
  /-- `TryRecvError::Empty` after a sweep, `RecvTimeoutError::Timeout` else. -/
  | timeout {s : LoopState} {swept : Bool} (hphase : s.phase = .receive swept)
      (hchannel : s.channel = []) (hopen : s.closed = false) :
      LoopStep cfg s .timeout { s with phase := .publish }
  /-- `Disconnected`: the channel is empty and every sender is gone. -/
  | stop {s : LoopState} {swept : Bool} (hphase : s.phase = .receive swept)
      (hchannel : s.channel = []) (hclosed : s.closed = true) :
      LoopStep cfg s .stop { s with phase := .stopped }
  | drain {s : LoopState} {rpcs : List Command} {cmd : Command} {rest : List Command}
      (hphase : s.phase = .drain rpcs) (hchannel : s.channel = cmd :: rest) :
      LoopStep cfg s .take { s with channel := rest, phase := .drain (rpcs ++ [cmd]) }
  | rpc {s : LoopState} {env : CycleEnv} {rpcs : List Command} {foldNow : Int64}
      (hphase : s.phase = .drain rpcs) (hchannel : s.channel = [])
      (henv : env.metricsEnabled = cfg.records) :
      LoopStep cfg s (.cycle (.rpc env rpcs) (runRpcCycle env s.server rpcs).replies)
        (s.rpc cfg env rpcs foldNow)
  | publish {s : LoopState} {due : Bool} {now : Int64} (hphase : s.phase = .publish) :
      LoopStep cfg s .publish (s.publish cfg due now)
  | crash {s : LoopState} : LoopStep cfg s (.crash none []) (.init s.server.rows)
  /-- A cycle is given up before its commit; the replies that are not parked may be sent. -/
  | crashBefore {s : LoopState} {env : CycleEnv} {rpcs : List Command}
      {replies : List (ℕ × Reply)} (hphase : s.phase = .drain rpcs) (hchannel : s.channel = [])
      (henv : env.metricsEnabled = cfg.records)
      (hreplies : replies <+:
        (applyCommands env.now rpcs { tx := beginCycle env s.server }).2.sent) :
      LoopStep cfg s (.crash none replies) (.init s.server.rows)
  /-- A cycle comes to its end, but not all of its replies are sent. -/
  | crashAfter {s : LoopState} {env : CycleEnv} {rpcs : List Command}
      {replies : List (ℕ × Reply)} (hphase : s.phase = .drain rpcs) (hchannel : s.channel = [])
      (henv : env.metricsEnabled = cfg.records)
      (hreplies : replies <+: (runRpcCycle env s.server rpcs).replies) :
      LoopStep cfg s (.crash (some (.rpc env rpcs)) replies)
        (.init (runRpcCycle env s.server rpcs).server.rows)

end Sepp
