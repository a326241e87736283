import Sepp.Safety.Auditing
import Sepp.Safety.Mirror

/-!
# Cycles are atomic

The commands of a cycle share one transaction. When no storage fault happens the cycle does what
the commands would do one at a time, each in a cycle of its own with the same stamp. When a read or
the commit fails, nothing of the cycle remains and no operation is answered with success. Either way
every command has one reply.

One error of the storage layer is no fault: an audit log that has used up its sequence numbers takes
no more entries, and the operation that meets this ends with an internal error. It undoes the whole
cycle, while in cycles of their own the other commands would be committed.

## Main definitions

* `calmEnv`, `ownRounds` — a cycle without faults, and commands in such cycles of their own.
* `Command.alone` — what a command does by itself.
* `Answered` — every command has one reply.
* `CycleResult.Undone`, `CycleResult.AsOwn` — the two ends of a cycle.
* `AuditExhausted` — the audit log is too long for what the operations append.

## Main results

* `Run.cycle_atomic`.
-/

namespace Sepp

/-! ### Faults and replies -/

/-- A cycle in which no storage fault happens. -/
def calmEnv (now : Int64) (metricsEnabled : Bool) : CycleEnv where
  now
  metricsEnabled
  faults _ := none
  commitFails := false

/-- The commands in cycles of their own, with one stamp and without faults. -/
def ownRounds (now : Int64) (metricsEnabled : Bool) (cmds : List Command) : List Round :=
  cmds.map fun cmd => .rpc (calmEnv now metricsEnabled) [cmd]

/-- The reply is one that the caller of the command waits for, on its channel. -/
def Command.AnsweredBy (cmd : Command) (reply : ℕ × Reply) : Prop :=
  reply.1 = cmd.resp ∧
    match cmd, reply.2 with
    | .op .., .op _ | .peekKeys .., .peekKeys _ | .queueDepths .., .queueDepths _ => True
    | _, _ => False

/-- A number that metrics report; without metrics it is zero. -/
def readOf (metrics : Option CycleMetrics) (reading : Reading) : ℕ :=
  metrics.elim 0 fun m => m.read reading

/-- The purged queues that metrics report, in order. -/
def purgedOf (metrics : Option CycleMetrics) : List String :=
  metrics.elim [] CycleMetrics.purgedQueues

/-- Every command has one reply, and there are no others. -/
def Answered (cmds : List Command) (replies : List (ℕ × Reply)) : Prop :=
  ∃ inOrder, replies.Perm inOrder ∧ List.Forall₂ Command.AnsweredBy cmds inOrder

/-- Nothing of the cycle remains, and no operation is answered with success. -/
structure CycleResult.Undone (result : CycleResult) (start : Server) : Prop where
  server : result.server = start
  replies : ∀ resp r, (resp, .op (.ok r)) ∉ result.replies
  metrics : result.metrics = none
  wakes : result.wakes = []

/-- One of the first `reads` reads fails, or there is something to commit and the commit fails. -/
def Faulty (reads : ℕ) (writes : Bool) (env : CycleEnv) : Prop :=
  ¬ Undisturbed env.faults reads ∨ writes = true ∧ env.commitFails = true

/-- The operation appends to the audit log. -/
def Op.audits : Op → Bool
  | auditAppend _ _ => true
  | _ => false

/-- The audit log has not enough sequence numbers left for what the operations append. -/
def AuditExhausted (server : Server) (ops : List Op) : Prop :=
  2 ^ 64 ≤ server.rows.audit.size + ops.countP Op.audits

theorem Command.answeredBy_failCommand (status : Status) (cmd : Command) :
    cmd.AnsweredBy (failCommand status cmd) := by
  cases cmd <;> exact ⟨rfl, trivial⟩

/-- A reply that is sent at once comes before the parked ones. -/
theorem perm_sent {α : Type} (sent parked later : List α) (reply : α) :
    (sent ++ [reply] ++ parked ++ later).Perm (sent ++ parked ++ reply :: later) := by
  simp only [List.append_assoc]
  refine List.Perm.append_left sent ?_
  exact (List.perm_middle : (parked ++ reply :: later).Perm (reply :: (parked ++ later))).symm

section Cycles

variable [Prost] {server : Server} {a : Image} {ids : List String} {now : Int64} {enabled : Bool}

/-- The cycle did what the rounds do one after the other. -/
structure CycleResult.AsOwn (result : CycleResult) (start : Server) (rounds : List Round) :
    Prop where
  server : result.server = start.after rounds
  replies : result.replies.Perm ((outcomes start rounds).flatMap CycleResult.replies)
  wakes : ∀ queue, queue ∈ result.wakes ↔
    queue ∈ (outcomes start rounds).flatMap CycleResult.wakes
  reported : ∀ own ∈ outcomes start rounds, own.metrics.isSome = result.metrics.isSome
  metrics : ∀ reading, readOf result.metrics reading =
    ((outcomes start rounds).map fun own => readOf own.metrics reading).sum
  purgedQueues : purgedOf result.metrics =
    (outcomes start rounds).flatMap fun own => purgedOf own.metrics

/-- What a command does by itself. An operation that goes through leaves what its transaction holds,
and reports and wakes what the operation recorded; one that is refused leaves everything as it was;
a read is answered from the indexes. -/
def Command.alone (now : Int64) (metricsEnabled : Bool) (server : Server) (cmd : Command) :
    CycleResult :=
  let unchanged (reply : Reply) : CycleResult :=
    { server
      replies := [(cmd.resp, reply)]
      metrics := (Cycle.new metricsEnabled).metrics
      wakes := [] }
  match cmd with
  | .op o resp =>
    match applyOp (o.stamp now) (beginCycle (calmEnv now metricsEnabled) server) with
    | .ok r tx =>
      { server := tx.server
        replies := [(resp, .op (.ok r))]
        metrics := tx.cycle.metrics
        wakes := tx.cycle.newReady.toList }
    | .error e _ => unchanged (.op (.error e))
  | .peekKeys state queue cursor limit _ =>
    unchanged (.peekKeys (.ok (Sepp.peekKeys server.indexes state queue cursor limit.toNat)))
  | .queueDepths queue _ => unchanged (.queueDepths (.ok (server.indexes.depthCounts queue)))

/-- The commands by themselves, one after the other. -/
def aloneAll (now : Int64) (metricsEnabled : Bool) : Server → List Command → List CycleResult
  | _, [] => []
  | server, cmd :: cmds =>
    let result := cmd.alone now metricsEnabled server
    result :: aloneAll now metricsEnabled result.server cmds

/-- An operation of the cycle that is refused changes neither the rows nor the indexes that the
operations after it see. -/
def RefusalsKeep (env : CycleEnv) (server : Server) (cmds : List Command) : Prop :=
  ∀ earlier op resp later run e tx, cmds = earlier ++ .op op resp :: later →
    applyCommands env.now earlier { tx := beginCycle env server } = (none, run) →
    applyOp (op.stamp env.now) run.tx = .error e tx → e.code ≠ .internal →
    tx.rows = run.tx.rows ∧ tx.indexes = run.tx.indexes

/-- The operations of the commands leave something to commit. -/
def cycleWrites (now : Int64) (metricsEnabled : Bool) (server : Server) (cmds : List Command) :
    Bool :=
  (applyCommands now cmds { tx := beginCycle (calmEnv now metricsEnabled) server }).2.tx.cycle.dirty

/-- The sweep leaves something to commit. -/
def sweepWrites (now : Int64) (metricsEnabled : Bool) (server : Server) (params : SweepParams) :
    Bool :=
  (cycleOf (applyOp (sweepOp params now)
    (beginCycle (calmEnv now metricsEnabled) server))).dirty

/-- What becomes of a cycle of commands that reads `reads` times when no read fails. -/
structure RpcAtomic (reads : ℕ) (env : CycleEnv) (server : Server) (cmds : List Command) :
    Prop where
  answered : Answered cmds (runRpcCycle env server cmds).replies
  refused : RefusalsKeep env server cmds
  undone : Faulty reads (cycleWrites env.now env.metricsEnabled server cmds) env ∨
      AuditExhausted server (stampedOps env.now cmds) →
    (runRpcCycle env server cmds).Undone server
  asOwn : ¬ Faulty reads (cycleWrites env.now env.metricsEnabled server cmds) env →
    ¬ AuditExhausted server (stampedOps env.now cmds) →
    (runRpcCycle env server cmds).AsOwn server (ownRounds env.now env.metricsEnabled cmds)
  own : ¬ AuditExhausted server (stampedOps env.now cmds) →
    outcomes server (ownRounds env.now env.metricsEnabled cmds) =
      aloneAll env.now env.metricsEnabled server cmds

/-- What becomes of a sweep cycle that reads `reads` times when no read fails. -/
structure SweepAtomic (reads : ℕ) (env : CycleEnv) (server : Server) (params : SweepParams) :
    Prop where
  undone : Faulty reads (sweepWrites env.now env.metricsEnabled server params) env →
    (runSweepCycle env params server).Undone server
  done : ¬ Faulty reads (sweepWrites env.now env.metricsEnabled server params) env →
    ∃ r tx, applyOp (sweepOp params env.now)
        (beginCycle (calmEnv env.now env.metricsEnabled) server) = .ok r tx ∧
      runSweepCycle env params server =
        { server := ⟨tx.rows, tx.indexes⟩
          replies := []
          metrics := tx.cycle.metrics
          wakes := tx.cycle.newReady.toList }

/-- The replies of a cycle are one for each command, whatever the outcome of the cycle. -/
theorem answered_applyCommands {cmds : List Command} {run run' : CycleRun}
    {failure : Option (Status × List Command)}
    (hrun : applyCommands now cmds run = (failure, run')) (outcome : Except Status Unit)
    (status : Status) :
    ∃ inOrder, (run'.sent ++ run'.responders.map (respond outcome) ++
        ((failure.map Prod.snd).getD []).map (failCommand status)).Perm
          (run.sent ++ run.responders.map (respond outcome) ++ inOrder) ∧
      List.Forall₂ Command.AnsweredBy cmds inOrder := by
  induction cmds generalizing run with
  | nil =>
    obtain ⟨rfl, rfl⟩ := Prod.mk.inj hrun
    exact ⟨[], .refl _, .nil⟩
  | cons cmd cmds ih =>
    cases cmd with
    | peekKeys | queueDepths =>
      simp only [applyCommands, applyCommand] at hrun
      obtain ⟨inOrder, hperm, hall⟩ := ih hrun
      exact ⟨_ :: inOrder, hperm.trans (perm_sent _ _ _ _), .cons ⟨rfl, trivial⟩ hall⟩
    | op op resp =>
      cases hx : applyOp (op.stamp now) run.tx with
      | ok r tx =>
        simp only [applyCommands, applyCommand, hx] at hrun
        obtain ⟨inOrder, hperm, hall⟩ := ih hrun
        refine ⟨respond outcome (resp, r) :: inOrder, ?_, .cons ?_ hall⟩
        · simpa using hperm
        · cases outcome <;> exact ⟨rfl, trivial⟩
      | error e tx =>
        simp only [applyCommands, applyCommand, hx] at hrun
        split_ifs at hrun with hcode
        · obtain ⟨rfl, rfl⟩ := Prod.mk.inj hrun
          refine ⟨_ :: cmds.map (failCommand status), perm_sent _ _ _ _, .cons ⟨rfl, trivial⟩ ?_⟩
          rw [List.forall₂_map_right_iff, List.forall₂_same]
          exact fun cmd _ => cmd.answeredBy_failCommand status
        · obtain ⟨inOrder, hperm, hall⟩ := ih hrun
          exact ⟨_ :: inOrder, hperm.trans (perm_sent _ _ _ _), .cons ⟨rfl, trivial⟩ hall⟩

theorem answered_runRpcCycle (env : CycleEnv) (server : Server) (cmds : List Command) :
    Answered cmds (runRpcCycle env server cmds).replies := by
  cases hrun : applyCommands env.now cmds { tx := beginCycle env server } with
  | mk failure run =>
    cases failure with
    | some failure =>
      obtain ⟨inOrder, hperm, hall⟩ :=
        answered_applyCommands hrun (.error failure.1) failure.1
      refine ⟨inOrder, ?_, hall⟩
      simpa [runRpcCycle, hrun] using hperm
    | none =>
      obtain ⟨inOrder, hperm, hall⟩ :=
        answered_applyCommands hrun (commitCycle env server run.tx).1 ⟨.internal, ""⟩
      refine ⟨inOrder, ?_, hall⟩
      simpa [runRpcCycle, hrun] using hperm

/-! ### Faults -/

omit [Prost] in
/-- The cycle with another future of reads. -/
def CycleRun.withFaults (run : CycleRun) (faults : ℕ → Option String) : CycleRun :=
  { run with tx := { run.tx with faults } }

/-- A command reads some number of times when no read fails. When these reads all go through the
command does the same; when one of them fails it ends with a storage failure. -/
theorem applyCommand_faults (now : Int64) (cmd : Command) (run : CycleRun) :
    ∃ n, ∀ faults,
      (Undisturbed faults n → applyCommand now cmd (run.withFaults faults) =
        ((applyCommand now cmd (run.withFaults fun _ => none)).1,
          (applyCommand now cmd (run.withFaults fun _ => none)).2.withFaults
            fun i => faults (i + n))) ∧
      ∀ i e, i < n → Undisturbed faults i → faults i = some e →
        ∃ status run', applyCommand now cmd (run.withFaults faults) = (.error status, run') := by
  cases cmd with
  | peekKeys | queueDepths =>
    exact ⟨0, fun faults => ⟨fun _ => rfl, fun i _ hi => absurd hi (Nat.not_lt_zero i)⟩⟩
  | op op resp =>
    obtain ⟨n, hn⟩ := (oblivious_applyOp (op.stamp now)).faults run.tx
    refine ⟨n, fun faults => ⟨fun hall => ?_, fun i e hi hbefore he => ?_⟩⟩
    · have hrun := (hn faults).1 hall
      cases hx : applyOp (op.stamp now) run.tx.calm with
      | ok r tx =>
        rw [hx] at hrun
        simp only [applyCommand, CycleRun.withFaults, hrun, withFaults,
          show applyOp (op.stamp now) { run.tx with faults := fun _ => none } = .ok r tx from hx]
      | error e tx =>
        rw [hx] at hrun
        simp only [applyCommand, CycleRun.withFaults, hrun, withFaults,
          show applyOp (op.stamp now) { run.tx with faults := fun _ => none } = .error e tx from hx]
        split_ifs <;> rfl
    · obtain ⟨tx, htx⟩ := (hn faults).2 i e hi hbefore he
      refine ⟨stgErr e, { run with tx, sent := run.sent ++ [(resp, .op (.error (stgErr e)))] }, ?_⟩
      simp only [applyCommand, CycleRun.withFaults, htx]
      exact if_pos rfl

/-- The same for the commands of a cycle, which ends with the first storage failure. -/
theorem applyCommands_faults (now : Int64) (cmds : List Command) (run : CycleRun) :
    ∃ n, ∀ faults,
      (Undisturbed faults n → applyCommands now cmds (run.withFaults faults) =
        ((applyCommands now cmds (run.withFaults fun _ => none)).1,
          (applyCommands now cmds (run.withFaults fun _ => none)).2.withFaults
            fun i => faults (i + n))) ∧
      ∀ i e, i < n → Undisturbed faults i → faults i = some e →
        ∃ failure run', applyCommands now cmds (run.withFaults faults) = (some failure, run') := by
  induction cmds generalizing run with
  | nil => exact ⟨0, fun faults => ⟨fun _ => rfl, fun i _ hi => absurd hi (Nat.not_lt_zero i)⟩⟩
  | cons cmd cmds ih =>
    obtain ⟨n, hn⟩ := applyCommand_faults now cmd run
    have hfails : ∀ faults i e, i < n → Undisturbed faults i → faults i = some e →
        ∃ failure run', applyCommands now (cmd :: cmds) (run.withFaults faults) =
          (some failure, run') := by
      intro faults i e hi hbefore he
      obtain ⟨status, run', hrun⟩ := (hn faults).2 i e hi hbefore he
      exact ⟨(status, cmds), run', by rw [applyCommands, hrun]⟩
    cases hcalm : applyCommand now cmd (run.withFaults fun _ => none) with
    | mk result run₁ =>
      have hrun : ∀ faults, Undisturbed faults n → applyCommand now cmd (run.withFaults faults) =
          (result, run₁.withFaults fun i => faults (i + n)) := by
        intro faults hall
        rw [(hn faults).1 hall, hcalm]
      cases result with
      | error status =>
        refine ⟨n, fun faults => ⟨fun hall => ?_, hfails faults⟩⟩
        rw [applyCommands, applyCommands, hrun faults hall, hcalm]
      | ok u =>
        -- the other commands start where this one ends, with the reads that are left
        have hstart : run₁.withFaults (fun _ => none) = run₁ :=
          (Prod.mk.inj ((hrun _ fun _ _ => rfl).symm.trans hcalm)).2
        obtain ⟨m, hm⟩ := ih run₁
        refine ⟨m + n, fun faults => ⟨fun hall => ?_, fun i e hi hbefore he => ?_⟩⟩
        · rw [applyCommands, applyCommands, hrun faults fun i hi => hall i (by omega), hcalm]
          dsimp only
          rw [(hm _).1 fun i hi => hall (i + n) (by omega), hstart]
          simp only [Nat.add_assoc]
        · by_cases hin : i < n
          · exact hfails faults i e hin hbefore he
          · rw [applyCommands, hrun faults fun j hj => hbefore j (by omega)]
            refine (hm _).2 (i - n) e (by omega) (fun j hj => hbefore (j + n) (by omega)) ?_
            rw [Nat.sub_add_cancel (by omega)]
            exact he

/-! ### Commands in cycles of their own -/

/-- A call that appends to the audit log makes it one entry longer; any other leaves it alone. -/
theorem TurnStep.length_audit {s s' : Server × Image} {op : Op} {r : OpOutcome} {evs : List Event}
    (h : TurnStep s ⟨.answered op (.ok r), evs⟩ s') (hshows : s.1.Shows s.2) :
    s'.2.audit.length = s.2.audit.length + [op].countP Op.audits := by
  have happended := congrArg List.length (h.appended hshows)
  simp only [List.length_append, numbered, List.length_map, List.length_zipIdx] at happended
  rw [happended]
  congr 1
  have hexplained := h.explained
  cases op with
  | auditAppend record now =>
    cases r with
    | auditAppend seq tsMs => rfl
    | _ => exact hexplained.elim
  | _ => rfl

/-- The metrics `m'` are `m` and those of some cycles together. Either all of them are kept, or
none. -/
structure MetricsAdd (m m' : Option CycleMetrics) (own : List CycleResult) : Prop where
  kept : m'.isSome = m.isSome
  reported : ∀ result ∈ own, result.metrics.isSome = m.isSome
  read : ∀ reading, readOf m' reading =
    readOf m reading + (own.map fun result => readOf result.metrics reading).sum
  purgedQueues : purgedOf m' = purgedOf m ++ own.flatMap fun result => purgedOf result.metrics

omit [Prost] in
theorem MetricsAdd.nil (m : Option CycleMetrics) : MetricsAdd m m [] :=
  ⟨rfl, fun _ hmem => absurd hmem List.not_mem_nil, fun _ => by simp, by simp⟩

omit [Prost] in
theorem MetricsAdd.append {m m' m'' : Option CycleMetrics} {own own' : List CycleResult}
    (h : MetricsAdd m m' own) (h' : MetricsAdd m' m'' own') : MetricsAdd m m'' (own ++ own') where
  kept := h'.kept.trans h.kept
  reported result hmem := (List.mem_append.mp hmem).elim (h.reported result) fun hmem =>
    (h'.reported result hmem).trans h.kept
  read reading := by
    rw [h'.read, h.read, List.map_append, List.sum_append, Nat.add_assoc]
  purgedQueues := by rw [h'.purgedQueues, h.purgedQueues, List.flatMap_append, List.append_assoc]

omit [Prost] in
theorem isSome_metrics_new (enabled : Bool) : (Cycle.new enabled).metrics.isSome = enabled := by
  cases enabled <;> rfl

omit [Prost] in
theorem readOf_new (enabled : Bool) (reading : Reading) :
    readOf (Cycle.new enabled).metrics reading = 0 := by
  cases enabled <;> simp [readOf, Cycle.new]

omit [Prost] in
theorem purgedOf_new (enabled : Bool) : purgedOf (Cycle.new enabled).metrics = [] := by
  cases enabled <;> rfl

omit [Prost] in
/-- A cycle that adds to empty metrics what is added to others. -/
theorem MetricsAdd.of_additive {m m' : Option CycleMetrics} {enabled : Bool} {result : CycleResult}
    {f : CycleMetrics → CycleMetrics} (hf : CycleMetrics.Additive f) (hm : m.isSome = enabled)
    (hm' : m' = m.map f) (hresult : result.metrics = (Cycle.new enabled).metrics.map f) :
    MetricsAdd m m' [result] := by
  subst hm hm'
  have hreported : result.metrics.isSome = m.isSome := by
    rw [hresult, Option.isSome_map, isSome_metrics_new]
  refine ⟨Option.isSome_map .., fun own hown => ?_, fun reading => ?_, ?_⟩
  · rw [List.mem_singleton.mp hown, hreported]
  · rw [List.map_singleton, List.sum_singleton, hresult]
    cases m with
    | none => rfl
    | some m => exact hf.read m reading
  · rw [List.flatMap_singleton, hresult]
    cases m with
    | none => rfl
    | some m => exact hf.purgedQueues m

/-- From `run` to `run'` the cycle does what the rounds do from the server that `run` sees. -/
structure CycleRun.Serves (run run' : CycleRun) (rounds : List Round) : Prop where
  server : run'.tx.server = run.tx.server.after rounds
  replies : (run'.sent ++ run'.responders.map (respond (.ok ()))).Perm
    (run.sent ++ run.responders.map (respond (.ok ())) ++
      (outcomes run.tx.server rounds).flatMap CycleResult.replies)
  wakes : ∀ queue, queue ∈ run'.tx.cycle.newReady ↔ queue ∈ run.tx.cycle.newReady ∨
    queue ∈ (outcomes run.tx.server rounds).flatMap CycleResult.wakes
  metrics : MetricsAdd run.tx.cycle.metrics run'.tx.cycle.metrics (outcomes run.tx.server rounds)

theorem CycleRun.Serves.nil (run : CycleRun) : run.Serves run [] where
  server := rfl
  replies := by simp [outcomes]
  wakes := by simp [outcomes]
  metrics := .nil _

theorem CycleRun.Serves.cons {run run₁ run' : CycleRun} {env : CycleEnv} {rpcs : List Command}
    {rounds : List Round} (h : run.Serves run₁ [.rpc env rpcs]) (h' : run₁.Serves run' rounds) :
    run.Serves run' (.rpc env rpcs :: rounds) := by
  have hserver : run₁.tx.server = ((Round.rpc env rpcs).run run.tx.server).server := h.server
  have houtcomes : outcomes run.tx.server (.rpc env rpcs :: rounds) =
      outcomes run.tx.server [.rpc env rpcs] ++ outcomes run₁.tx.server rounds := by
    rw [hserver]
    rfl
  constructor
  · rw [h'.server, hserver]
    rfl
  · refine h'.replies.trans ((h.replies.append_right _).trans ?_)
    rw [houtcomes, List.flatMap_append, List.append_assoc]
  · intro queue
    rw [h'.wakes queue, h.wakes queue, houtcomes, List.flatMap_append, List.mem_append, or_assoc]
  · rw [houtcomes]
    exact h.metrics.append h'.metrics

/-- A cycle of one round. -/
theorem CycleRun.Serves.of_run {run run' : CycleRun} {env : CycleEnv} {rpcs : List Command}
    {result : CycleResult} (hrun : runRpcCycle env run.tx.server rpcs = result)
    (hserver : run'.tx.server = result.server)
    (hreplies : (run'.sent ++ run'.responders.map (respond (.ok ()))).Perm
      (run.sent ++ run.responders.map (respond (.ok ())) ++ result.replies))
    (hwakes : ∀ queue, queue ∈ run'.tx.cycle.newReady ↔ queue ∈ run.tx.cycle.newReady ∨
      queue ∈ result.wakes)
    (hmetrics : MetricsAdd run.tx.cycle.metrics run'.tx.cycle.metrics [result]) :
    run.Serves run' [.rpc env rpcs] := by
  have houtcomes : outcomes run.tx.server [.rpc env rpcs] = [result] := by
    rw [← hrun]
    rfl
  refine ⟨hserver.trans ?_, ?_, ?_, ?_⟩
  · rw [← hrun]
    rfl
  · rwa [houtcomes, List.flatMap_singleton]
  · rwa [houtcomes, List.flatMap_singleton]
  · rwa [houtcomes]

/-- An operation that goes through in a cycle of its own is committed. -/
theorem runRpcCycle_own_ok (h : server.Shows a) {op : Op} (hwf : (op.stamp now).WellFormed)
    (hfresh : a.Fresh (op.stamp now).jobs) (resp : ℕ) {r : OpOutcome} {tx : TxState}
    (hrun : applyOp (op.stamp now) (beginCycle (calmEnv now enabled) server) = .ok r tx) :
    runRpcCycle (calmEnv now enabled) server [.op op resp] =
      { server := tx.server
        replies := [(resp, .op (.ok r))]
        metrics := tx.cycle.metrics
        wakes := tx.cycle.newReady.toList } := by
  obtain ⟨evs, a', hturn, hrec⟩ := applyOp_turn h hwf hfresh hrun
  rcases commitCycle_cases (calmEnv now enabled) h hturn.shows hturn.events hrec with
    ⟨-, -, hfails⟩ | hcommit
  · cases hfails
  · simp only [runRpcCycle, applyCommands, applyCommand,
      show (calmEnv now enabled).now = now from rfl, hrun, hcommit]
    rfl

/-- An operation that is refused in a cycle of its own leaves the server as it is. -/
theorem runRpcCycle_own_refused (h : server.Shows a) {op : Op} (hwf : (op.stamp now).WellFormed)
    (hfresh : a.Fresh (op.stamp now).jobs) (resp : ℕ) {e : Status} {tx : TxState}
    (hrun : applyOp (op.stamp now) (beginCycle (calmEnv now enabled) server) = .error e tx)
    (hcode : e.code ≠ .internal) :
    runRpcCycle (calmEnv now enabled) server [.op op resp] =
      { server
        replies := [(resp, .op (.error e))]
        metrics := (Cycle.new enabled).metrics
        wakes := [] } := by
  obtain ⟨hserver, hcycle⟩ := applyOp_refused h hwf hfresh hrun hcode
  have hindexes : tx.indexes = server.indexes := congrArg Server.indexes hserver
  have hnew : tx.cycle = Cycle.new enabled := hcycle
  have hcommit : commitCycle (calmEnv now enabled) server tx = (.ok (), server) := by
    rw [commitCycle, hnew, hindexes]
    rfl
  simp only [runRpcCycle, applyCommands, applyCommand,
    show (calmEnv now enabled).now = now from rfl, hrun, if_neg hcode, hcommit, hnew]
  rfl

/-- Without failing reads an operation ends with an internal error only when it finds the audit log
full, and an operation that appends is not refused otherwise. -/
theorem audits_of_error {op : Op} {tx tx' : TxState} (h : tx.server.Shows a)
    (hcalm : tx.faults = fun _ => none) (hwf : op.WellFormed) (hfresh : a.Fresh op.jobs) {e : Status}
    (hrun : applyOp op tx = .error e tx') :
    (e.code = .internal ∧ op.audits = true ∧ a.audit.length + 1 = 2 ^ 64) ∨
      (e.code ≠ .internal ∧ op.audits = false) := by
  have hdone : ∀ {Q}, ¬ Realizes (applyOp op) a Q := by
    intro Q hreal
    obtain ⟨r, s, -, -, hx, -⟩ := hreal tx ⟨h, hcalm⟩
    cases hrun.symm.trans hx
  rcases applyOp_refines op hwf hfresh with hreal | hrejects | ⟨⟨record, now', rfl⟩, hfull, hrejects⟩
  · exact (hdone hreal).elim
  · obtain ⟨e', hx, he⟩ := hrejects tx ⟨h, hcalm⟩
    cases hrun.symm.trans hx
    refine .inr ⟨he, ?_⟩
    cases op with
    | auditAppend record now' =>
      have hlength := h.metadata.length_lt
      by_cases hroom : a.audit.length + 1 < 2 ^ 64
      · exact (hdone (Realizes.wrap (OpOutcome.auditAppend · now')
          (applyAuditAppend_realizes record now' hroom))).elim
      · obtain ⟨e', hx', he'⟩ :=
          (applyAuditAppend_rejects record now' (by omega)).bind tx ⟨h, hcalm⟩
        cases hrun.symm.trans hx'
        exact absurd he' he
    | _ => rfl
  · obtain ⟨e', hx, he⟩ := hrejects tx ⟨h, hcalm⟩
    cases hrun.symm.trans hx
    exact .inl ⟨he, rfl, hfull⟩

/-- A command that is answered at once and changes nothing. -/
theorem CycleRun.Serves.of_sent {run run' : CycleRun} {cmd : Command} {reply : ℕ × Reply}
    (henabled : run.tx.cycle.metrics.isSome = enabled)
    (hrun : runRpcCycle (calmEnv now enabled) run.tx.server [cmd] =
      { server := run.tx.server
        replies := [reply]
        metrics := (Cycle.new enabled).metrics
        wakes := [] })
    (hserver : run'.tx.server = run.tx.server) (hcycle : run'.tx.cycle = run.tx.cycle)
    (hsent : run'.sent = run.sent ++ [reply]) (hparked : run'.responders = run.responders) :
    run.Serves run' (ownRounds now enabled [cmd]) := by
  refine CycleRun.Serves.of_run hrun hserver ?_ (fun queue => ?_) ?_
  · rw [hsent, hparked, ← List.append_nil (_ ++ List.map _ _)]
    exact perm_sent _ _ _ _
  · rw [hcycle, or_iff_left List.not_mem_nil]
  · rw [hcycle]
    exact .of_additive .id henabled Option.map_id_apply.symm Option.map_id_apply.symm

/-- From `run` to `run'` the cycle without faults does what the command does in a cycle of its own,
and that is what the command does by itself. -/
structure CycleRun.ServesAlone (now : Int64) (enabled : Bool) (ids : List String) (cmd : Command)
    (run run' : CycleRun) (a a' : Image) : Prop where
  serves : run.Serves run' (ownRounds now enabled [cmd])
  alone : runRpcCycle (calmEnv now enabled) run.tx.server [cmd] =
    cmd.alone now enabled run.tx.server
  shows : run'.tx.server.Shows a'
  calm : run'.tx.faults = fun _ => none
  knows : a'.Knows (ids ++ jobIdsOf (stampedOps now [cmd]))
  audits : a'.audit.length = a.audit.length + (stampedOps now [cmd]).countP Op.audits

/-- In a cycle of its own the operation starts from the same rows and indexes. -/
theorem applyOp_in_own_cycle (op : Op) {run : CycleRun} (hcalm : run.tx.faults = fun _ => none)
    (now : Int64) (enabled : Bool) : ∃ c,
    applyOp op run.tx =
      withCycle c (applyOp op (beginCycle (calmEnv now enabled) run.tx.server)) ∧
    (∀ queue, queue ∈ c.newReady ↔ queue ∈ run.tx.cycle.newReady ∨ queue ∈
      (cycleOf (applyOp op (beginCycle (calmEnv now enabled) run.tx.server))).newReady) ∧
    ∃ f, CycleMetrics.Additive f ∧ c.metrics = run.tx.cycle.metrics.map f ∧
      (cycleOf (applyOp op (beginCycle (calmEnv now enabled) run.tx.server))).metrics =
        (Cycle.new enabled).metrics.map f := by
  have hown : beginCycle (calmEnv now enabled) run.tx.server =
      { run.tx with cycle := Cycle.new enabled } := by
    simp only [hcalm]
    rfl
  rw [hown]
  exact (oblivious_applyOp op).in_own_cycle run.tx enabled

/-- An operation without faults leaves none. -/
theorem applyOp_calm (op : Op) {run : CycleRun} (hcalm : run.tx.faults = fun _ => none) :
    withFaults (fun _ => none) (applyOp op run.tx) = applyOp op run.tx := by
  have hcalmRun := (oblivious_applyOp op).calm_run run.tx
  rw [show run.tx.calm = run.tx by rw [TxState.calm, ← hcalm]] at hcalmRun
  exact hcalmRun.symm

/-- An operation that goes through. -/
theorem applyCommand_own_ok {op : Op} {run : CycleRun} (h : run.tx.server.Shows a)
    (hcalm : run.tx.faults = fun _ => none) (henabled : run.tx.cycle.metrics.isSome = enabled)
    (hknows : a.Knows ids) (hwf : (op.stamp now).WellFormed) (hnew : a.Fresh (op.stamp now).jobs)
    (resp : ℕ) {r : OpOutcome} {tx : TxState}
    (hx : applyOp (op.stamp now) (beginCycle (calmEnv now enabled) run.tx.server) = .ok r tx) :
    ∃ run' a', applyCommand now (.op op resp) run = (.ok (), run') ∧
      run.ServesAlone now enabled ids (.op op resp) run' a a' := by
  obtain ⟨c, hrun, hwakes, f, hf, hmetrics, hreported⟩ :=
    applyOp_in_own_cycle (op.stamp now) hcalm now enabled
  have hcalmRun := applyOp_calm (op.stamp now) hcalm
  rw [hx] at hrun hwakes hreported
  rw [hrun] at hcalmRun
  obtain ⟨evs, a', hturn, -⟩ := applyOp_turn h hwf hnew hrun
  refine ⟨{ run with
      tx := { tx with cycle := c }, responders := run.responders ++ [(resp, r)] }, a',
    by simp only [applyCommand, hrun, withCycle], ?_, ?_, hturn.shows, ?_, ?_,
    hturn.length_audit h⟩
  · refine CycleRun.Serves.of_run (runRpcCycle_own_ok h hwf hnew resp hx) rfl ?_
      (fun queue => ?_) (.of_additive hf henabled hmetrics hreported)
    · simp [respond]
    · rw [Std.ExtTreeSet.mem_toList]
      exact hwakes queue
  · rw [runRpcCycle_own_ok h hwf hnew resp hx]
    simp only [Command.alone, hx]
  · exact (congrArg TxState.faults (EStateM.Result.ok.inj hcalmRun).2).symm
  · have hids : jobIdsOf [op.stamp now] = (op.stamp now).jobs.map PreparedJob.id := by
      simp [jobIdsOf]
    rw [show stampedOps now [.op op resp] = [op.stamp now] from rfl, hids]
    exact hturn.knows hknows

/-- An operation that is refused. -/
theorem applyCommand_own_refused {op : Op} {run : CycleRun} (h : run.tx.server.Shows a)
    (hcalm : run.tx.faults = fun _ => none) (henabled : run.tx.cycle.metrics.isSome = enabled)
    (hknows : a.Knows ids) (hwf : (op.stamp now).WellFormed) (hnew : a.Fresh (op.stamp now).jobs)
    (resp : ℕ) {e : Status} {tx : TxState}
    (hx : applyOp (op.stamp now) (beginCycle (calmEnv now enabled) run.tx.server) = .error e tx)
    (hcode : e.code ≠ .internal) (haudits : (op.stamp now).audits = false) :
    ∃ run', applyCommand now (.op op resp) run = (.ok (), run') ∧
      run.ServesAlone now enabled ids (.op op resp) run' a a := by
  obtain ⟨c, hrun, -⟩ := applyOp_in_own_cycle (op.stamp now) hcalm now enabled
  have hcalmRun := applyOp_calm (op.stamp now) hcalm
  rw [hx] at hrun
  rw [hrun] at hcalmRun
  obtain ⟨hserver, hcycle⟩ := applyOp_refused h hwf hnew hrun hcode
  refine ⟨{ run with
      tx := { tx with cycle := c }, sent := run.sent ++ [(resp, .op (.error e))] },
    by simp only [applyCommand, hrun, withCycle, if_neg hcode], ?_, ?_, hserver ▸ h, ?_, ?_, ?_⟩
  · exact .of_sent henabled (runRpcCycle_own_refused h hwf hnew resp hx hcode) hserver hcycle rfl
      rfl
  · rw [runRpcCycle_own_refused h hwf hnew resp hx hcode]
    simp only [Command.alone, hx]
    rfl
  · exact (congrArg TxState.faults (EStateM.Result.error.inj hcalmRun).2).symm
  · exact fun id hid => List.mem_append_left _ (hknows id hid)
  · rw [show stampedOps now [.op op resp] = [op.stamp now] from rfl]
    simp [haudits]

/-- A command of a cycle without faults does what it does in a cycle of its own, unless it is an
operation that finds the audit log full. -/
theorem applyCommand_own {cmd : Command} {run : CycleRun} (h : run.tx.server.Shows a)
    (hcalm : run.tx.faults = fun _ => none) (henabled : run.tx.cycle.metrics.isSome = enabled)
    (hknows : a.Knows ids)
    (hwf : ∀ op ∈ stampedOps now [cmd], op.WellFormed)
    (hfresh : (ids ++ jobIdsOf (stampedOps now [cmd])).Nodup) :
    (∃ run' a', applyCommand now cmd run = (.ok (), run') ∧
      run.ServesAlone now enabled ids cmd run' a a') ∨
    ∃ status run', applyCommand now cmd run = (.error status, run') ∧
      2 ^ 64 ≤ a.audit.length + (stampedOps now [cmd]).countP Op.audits := by
  cases cmd with
  | peekKeys | queueDepths =>
    refine .inl ⟨_, a, rfl, .of_sent henabled rfl rfl rfl rfl rfl, rfl, h, hcalm, ?_, rfl⟩
    exact fun id hid => List.mem_append_left _ (hknows id hid)
  | op op resp =>
    rw [show stampedOps now [.op op resp] = [op.stamp now] from rfl] at hwf hfresh ⊢
    have hwf := hwf _ List.mem_cons_self
    have hnew := fresh_of_nodup hknows hfresh
    cases hx : applyOp (op.stamp now) (beginCycle (calmEnv now enabled) run.tx.server) with
    | ok r tx => exact .inl (applyCommand_own_ok h hcalm henabled hknows hwf hnew resp hx)
    | error e tx =>
      obtain ⟨c, hrun, -⟩ := applyOp_in_own_cycle (op.stamp now) hcalm now enabled
      rw [hx] at hrun
      rcases audits_of_error h hcalm hwf hnew hrun with ⟨hcode, haudits, hfull⟩ | ⟨hcode, haudits⟩
      · refine .inr ⟨e, _, by simp only [applyCommand, hrun, withCycle, if_pos hcode]; rfl, ?_⟩
        rw [List.countP_singleton, if_pos haudits]
        omega
      · obtain ⟨run', hrun', hserves⟩ :=
          applyCommand_own_refused h hcalm henabled hknows hwf hnew resp hx hcode haudits
        exact .inl ⟨run', a, hrun', hserves⟩

/-- The commands of a cycle without faults do what they do in cycles of their own, unless the audit
log is too short for what they append. -/
theorem applyCommands_own {cmds : List Command} (run : CycleRun)
    (h : run.tx.server.Shows a) (hcalm : run.tx.faults = fun _ => none)
    (henabled : run.tx.cycle.metrics.isSome = enabled) (hknows : a.Knows ids)
    (hwf : ∀ op ∈ stampedOps now cmds, op.WellFormed)
    (hfresh : (ids ++ jobIdsOf (stampedOps now cmds)).Nodup) :
    (∃ run', applyCommands now cmds run = (none, run') ∧
      run.Serves run' (ownRounds now enabled cmds) ∧
      outcomes run.tx.server (ownRounds now enabled cmds) =
        aloneAll now enabled run.tx.server cmds ∧
      a.audit.length + (stampedOps now cmds).countP Op.audits < 2 ^ 64) ∨
    ∃ failure run', applyCommands now cmds run = (some failure, run') ∧
      2 ^ 64 ≤ a.audit.length + (stampedOps now cmds).countP Op.audits := by
  induction cmds generalizing run a ids with
  | nil => exact .inl ⟨run, rfl, .nil run, rfl, h.metadata.length_lt⟩
  | cons cmd cmds ih =>
    have hops : stampedOps now (cmd :: cmds) = stampedOps now [cmd] ++ stampedOps now cmds :=
      stampedOps_append now [cmd] cmds
    rw [hops, jobIdsOf_append, ← List.append_assoc] at hfresh
    rw [hops] at hwf
    rw [hops, List.countP_append, ← Nat.add_assoc]
    rcases applyCommand_own h hcalm henabled hknows
        (fun op hop => hwf op (List.mem_append_left _ hop)) (List.nodup_append.mp hfresh).1 with
      ⟨run₁, a₁, hrun, hone⟩ | ⟨status, run₁, hrun, hfull⟩
    · rw [← hone.audits]
      rcases ih run₁ hone.shows hone.calm (hone.serves.metrics.kept.trans henabled) hone.knows
          (fun op hop => hwf op (List.mem_append_right _ hop)) hfresh with
        ⟨run', hrest, hserves, hsame, hroom⟩ | ⟨failure, run', hrest, hfull⟩
      · refine .inl ⟨run', by rw [applyCommands, hrun]; exact hrest, hone.serves.cons hserves, ?_,
          hroom⟩
        -- the other commands start where this one ends by itself
        have hserver : (cmd.alone now enabled run.tx.server).server = run₁.tx.server := by
          rw [← hone.alone]
          exact hone.serves.server.symm
        rw [aloneAll, hserver, ← hsame, ← hone.alone, ← hserver, ← hone.alone]
        rfl
      · exact .inr ⟨failure, run', by rw [applyCommands, hrun]; exact hrest, hfull⟩
    · exact .inr ⟨(status, cmds), run₁, by rw [applyCommands, hrun], by omega⟩

/-! ### The end of a cycle -/

/-- After a storage failure nothing remains. -/
theorem undone_of_failure (h : server.Shows a) {env : CycleEnv} {cmds : List Command}
    {failure : Status × List Command} {run : CycleRun}
    (hrun : applyCommands env.now cmds { tx := beginCycle env server } = (some failure, run)) :
    (runRpcCycle env server cmds).Undone server := by
  obtain ⟨status, rest⟩ := failure
  constructor
  · simp only [runRpcCycle, hrun, h.rolledBack_eq]
  · intro resp r hmem
    simp only [runRpcCycle, hrun, List.mem_append, List.mem_map] at hmem
    rcases hmem with (hmem | ⟨pending, -, heq⟩) | ⟨cmd, -, heq⟩
    · cases sent_of_applyCommands hrun hmem
    · cases heq
    · cases cmd <;> cases heq
  · simp only [runRpcCycle, hrun]
  · simp only [runRpcCycle, hrun]

/-- After a commit that fails nothing remains. -/
theorem undone_of_commit (h : server.Shows a) {env : CycleEnv} {cmds : List Command}
    {run : CycleRun}
    (hrun : applyCommands env.now cmds { tx := beginCycle env server } = (none, run))
    (hdirty : run.tx.cycle.dirty = true) (hfails : env.commitFails = true) :
    (runRpcCycle env server cmds).Undone server := by
  have hcommit : commitCycle env server run.tx =
      (.error ⟨.internal, "storage commit failed"⟩, server) := by
    simp only [commitCycle, hdirty, hfails, if_true, h.rolledBack_eq]
  constructor
  · simp only [runRpcCycle, hrun, hcommit]
  · intro resp r hmem
    simp only [runRpcCycle, hrun, hcommit, List.mem_append, List.mem_map] at hmem
    rcases hmem with hmem | ⟨pending, -, heq⟩
    · cases sent_of_applyCommands hrun hmem
    · cases heq
  · simp only [runRpcCycle, hrun, hcommit]
    rfl
  · simp only [runRpcCycle, hrun, hcommit]
    rfl

/-- A cycle that is committed did what its commands do in cycles of their own. -/
theorem asOwn_of_commit {env : CycleEnv} {cmds : List Command} {run : CycleRun}
    {rounds : List Round}
    (hrun : applyCommands env.now cmds { tx := beginCycle env server } = (none, run))
    (hcommit : commitCycle env server run.tx = (.ok (), run.tx.server))
    (hserves : CycleRun.Serves { tx := beginCycle env server } run rounds) :
    (runRpcCycle env server cmds).AsOwn server rounds := by
  constructor
  · simp only [runRpcCycle, hrun, hcommit]
    exact hserves.server
  · simp only [runRpcCycle, hrun, hcommit]
    exact hserves.replies
  · intro queue
    simp only [runRpcCycle, hrun, hcommit]
    have hwakes := hserves.wakes queue
    have hnone : queue ∉ (beginCycle env server).cycle.newReady := Std.ExtTreeSet.not_mem_empty
    rw [or_iff_right hnone] at hwakes
    exact Std.ExtTreeSet.mem_toList.trans hwakes
  · intro own hown
    simp only [runRpcCycle, hrun, hcommit]
    exact (hserves.metrics.reported own hown).trans hserves.metrics.kept.symm
  · intro reading
    simp only [runRpcCycle, hrun, hcommit]
    have hread := hserves.metrics.read reading
    rwa [show readOf (beginCycle env server).cycle.metrics reading = 0 from readOf_new _ reading,
      Nat.zero_add] at hread
  · simp only [runRpcCycle, hrun, hcommit]
    have hpurged := hserves.metrics.purgedQueues
    rwa [show purgedOf (beginCycle env server).cycle.metrics = [] from purgedOf_new _,
      List.nil_append] at hpurged

/-- Operations that are refused change nothing. -/
theorem refusalsKeep (h : server.Shows a) (hknows : a.Knows ids) (env : CycleEnv)
    {cmds : List Command} (hwf : ∀ op ∈ stampedOps env.now cmds, op.WellFormed)
    (hfresh : (ids ++ jobIdsOf (stampedOps env.now cmds)).Nodup) :
    RefusalsKeep env server cmds := by
  rintro earlier op resp later run e tx rfl hearlier hrun hcode
  have hops : stampedOps env.now (earlier ++ .op op resp :: later) =
      stampedOps env.now earlier ++ op.stamp env.now :: stampedOps env.now later :=
    stampedOps_append env.now earlier (.op op resp :: later)
  rw [hops, jobIdsOf_append, ← List.append_assoc] at hfresh
  rw [hops] at hwf
  obtain ⟨-, a', -, -, hshows, hknows', -⟩ := applyCommands_turns hearlier h hknows
    (fun op hop => hwf op (List.mem_append_left _ hop)) (List.nodup_append.mp hfresh).1
  obtain ⟨hserver, -⟩ := applyOp_refused hshows
    (hwf _ (List.mem_append_right _ List.mem_cons_self)) (fresh_of_nodup hknows' hfresh) hrun hcode
  exact ⟨congrArg Server.rows hserver, congrArg Server.indexes hserver⟩

/-! ### Atomicity -/

theorem Represents.size_audit {rows : Rows} {idx : Indexes} (h : Represents a rows idx) :
    rows.audit.size = a.audit.length := by
  rw [← Std.ExtTreeMap.length_toList, h.toList_audit, List.length_map, numbered, List.length_map,
    List.length_zipIdx]

/-- A cycle of commands is undone, or does what the commands do in cycles of their own. -/
theorem exists_rpcAtomic (h : server.Shows a) (hknows : a.Knows ids) (now : Int64) (enabled : Bool)
    {cmds : List Command} (hwf : ∀ op ∈ stampedOps now cmds, op.WellFormed)
    (hfresh : (ids ++ jobIdsOf (stampedOps now cmds)).Nodup) :
    ∃ reads, ∀ faults commitFails,
      RpcAtomic reads ⟨now, enabled, faults, commitFails⟩ server cmds := by
  have hexhausted : AuditExhausted server (stampedOps now cmds) ↔
      2 ^ 64 ≤ a.audit.length + (stampedOps now cmds).countP Op.audits := by
    rw [AuditExhausted, h.size_audit]
  -- what the cycle does when no read fails
  let start : CycleRun := { tx := beginCycle (calmEnv now enabled) server }
  have hown := applyCommands_own start h rfl (isSome_metrics_new enabled) hknows hwf hfresh
  obtain ⟨reads, hreads⟩ := applyCommands_faults now cmds start
  have hstart : start.withFaults (fun _ => none) = start := rfl
  rw [hstart] at hreads
  refine ⟨reads, fun faults commitFails =>
    { answered := answered_runRpcCycle _ _ _
      refused := refusalsKeep h hknows _ hwf hfresh
      undone := fun hcase => ?_
      asOwn := fun hcalm hroom => ?_
      own := fun hroom => ?_ }⟩
  · by_cases hall : Undisturbed faults reads
    · have hrun := (hreads faults).1 hall
      rcases hown with ⟨run, hcalm, -, -, hroom⟩ | ⟨failure, run, hcalm, -⟩
      · -- no read fails and the log is long enough, so it is the commit that fails
        rw [hcalm] at hrun
        obtain ⟨hwrites, hfails⟩ : cycleWrites now enabled server cmds = true ∧
            commitFails = true := by
          rcases hcase with (hcase | hcase) | hcase
          · exact absurd hall hcase
          · exact hcase
          · exact absurd (hexhausted.mp hcase) (Nat.not_le.mpr hroom)
        have hdirty : cycleWrites now enabled server cmds = run.tx.cycle.dirty :=
          congrArg (fun result => result.2.tx.cycle.dirty) hcalm
        exact undone_of_commit h hrun (hdirty.symm.trans hwrites) hfails
      · rw [hcalm] at hrun
        exact undone_of_failure h hrun
    · -- the first read that fails ends the cycle
      obtain ⟨i, e, hi, hbefore, he⟩ := (undisturbed_or_first faults reads).resolve_left hall
      obtain ⟨failure, run, hrun⟩ := (hreads faults).2 i e hi hbefore he
      exact undone_of_failure h hrun
  · rcases hown with ⟨run, hrun, hserves, -, -⟩ | ⟨-, -, -, hfull⟩
    swap
    · exact absurd (hexhausted.mpr hfull) hroom
    have hdirty : cycleWrites now enabled server cmds = run.tx.cycle.dirty :=
      congrArg (fun result => result.2.tx.cycle.dirty) hrun
    have hall : Undisturbed faults reads := by
      by_contra hnot
      exact hcalm (.inl hnot)
    have hshared := (hreads faults).1 hall
    rw [hrun] at hshared
    obtain ⟨turns, a', -, htrace, hshows, -, hrec⟩ :=
      applyCommands_turns hshared h hknows hwf hfresh
    rcases commitCycle_cases ⟨now, enabled, faults, commitFails⟩ h hshows (events_of_turns htrace)
      hrec with ⟨-, hwrites, hfails⟩ | hcommit
    · exact absurd (.inr ⟨hdirty.trans hwrites, hfails⟩) hcalm
    · exact asOwn_of_commit hshared hcommit
        ⟨hserves.server, hserves.replies, hserves.wakes, hserves.metrics⟩
  · rcases hown with ⟨-, -, -, hsame, -⟩ | ⟨-, -, -, hfull⟩
    · exact hsame
    · exact absurd (hexhausted.mpr hfull) hroom

/-- A sweep cycle is undone, or is committed. -/
theorem exists_sweepAtomic (h : server.Shows a) (now : Int64) (enabled : Bool)
    (params : SweepParams) :
    ∃ reads, ∀ faults commitFails,
      SweepAtomic reads ⟨now, enabled, faults, commitFails⟩ server params := by
  have hreal : Realizes (applyOp (sweepOp params now)) a _ :=
    Realizes.wrap OpOutcome.sweep (applySweep_realizes a now _ _ _)
  obtain ⟨r, rows, idx, c, evs, a', hx, htrace, hrep, hrec, -⟩ :=
    realizes_iff.mp hreal server.rows server.indexes (Cycle.new enabled) h
  obtain ⟨reads, hreads⟩ := (oblivious_applyOp (sweepOp params now)).faults
    (beginCycle (calmEnv now enabled) server)
  have hwrites : sweepWrites now enabled server params = c.dirty :=
    congrArg (fun result => (cycleOf result).dirty) hx
  have hback := h.rolledBack_eq
  refine ⟨reads, fun faults commitFails => ?_⟩
  have hthrough : Undisturbed faults reads → applyOp (sweepOp params now)
      (beginCycle ⟨now, enabled, faults, commitFails⟩ server) =
        .ok r ⟨rows, idx, c, fun i => faults (i + reads)⟩ := fun hall =>
    ((hreads faults).1 hall).trans (congrArg (withFaults _) hx)
  constructor
  · intro hcase
    have hnothing : runSweepCycle ⟨now, enabled, faults, commitFails⟩ params server =
        { server, replies := [], metrics := none, wakes := [] } := by
      by_cases hall : Undisturbed faults reads
      · obtain ⟨hdirty, hfails⟩ := hcase.resolve_left (not_not.mpr hall)
        have hc : c.dirty = true := hwrites.symm.trans hdirty
        obtain rfl : commitFails = true := hfails
        simp only [runSweepCycle, hthrough hall, commitCycle, hc, if_true, hback]
        rfl
      · obtain ⟨i, e, hi, hbefore, he⟩ := (undisturbed_or_first faults reads).resolve_left hall
        obtain ⟨tx, htx⟩ := (hreads faults).2 i e hi hbefore he
        have htx : applyOp (sweepOp params now)
            (beginCycle ⟨now, enabled, faults, commitFails⟩ server) = .error (stgErr e) tx := htx
        simp only [runSweepCycle, htx, hback]
    rw [hnothing]
    exact ⟨rfl, fun _ _ hmem => absurd hmem List.not_mem_nil, rfl, rfl⟩
  · intro hcalm
    have hall : Undisturbed faults reads := by
      by_contra hnot
      exact hcalm (.inl hnot)
    refine ⟨r, _, hx, ?_⟩
    have htx : (TxState.mk rows idx c fun i => faults (i + reads)).server.Shows a' := hrep
    rcases commitCycle_cases ⟨now, enabled, faults, commitFails⟩ h htx htrace hrec with
      ⟨-, hdirty, hfails⟩ | hcommit
    · exact absurd (.inr ⟨hwrites.trans hdirty, hfails⟩) hcalm
    · simp only [runSweepCycle, hthrough hall, hcommit]
      rfl

/-- Cycles are atomic: whatever reads fail and whether or not the commit fails, every command has
one reply, and the cycle does what its commands do in cycles of their own, or nothing. It does
nothing exactly when a fault happens or the audit log is too long for what the commands append. -/
theorem Run.cycle_atomic {calls : List Call} (h : Run calls server) (now : Int64) (enabled : Bool) :
    (∀ cmds, (∀ op ∈ stampedOps now cmds, op.WellFormed) →
      (enqueuedIds calls ++ jobIdsOf (stampedOps now cmds)).Nodup →
      ∃ reads, ∀ faults commitFails,
        RpcAtomic reads ⟨now, enabled, faults, commitFails⟩ server cmds) ∧
    ∀ params, ∃ reads, ∀ faults commitFails,
      SweepAtomic reads ⟨now, enabled, faults, commitFails⟩ server params := by
  obtain ⟨-, a, -, -, hshows, hknows⟩ := h.exists_turns
  refine ⟨fun cmds hwf hfresh => ?_, fun params => ?_⟩
  · exact exists_rpcAtomic hshows hknows now enabled hwf hfresh
  · exact exists_sweepAtomic hshows now enabled params

/-! ### A full audit log -/

omit [Prost] in
/-- Operations that fill the audit log. -/
def fillLog (n : ℕ) : List Op := List.replicate n (.auditAppend (auditOf "login") 0)

omit [Prost] in
theorem wellFormed_fillLog (n : ℕ) : ∀ op ∈ fillLog n, op.WellFormed := by
  intro op hop
  rw [(List.mem_replicate.mp hop).2]
  trivial

omit [Prost] in
theorem jobs_fillLog (n : ℕ) : (fillLog n).flatMap Op.jobs = [] := by
  refine List.flatMap_eq_nil_iff.mpr fun op hop => ?_
  rw [(List.mem_replicate.mp hop).2]
  rfl

/-- Entries are appended as long as there are sequence numbers, and nothing else changes. -/
theorem Server.Shows.performAll_fillLog {n : ℕ} (h : server.Shows a)
    (hroom : a.audit.length + n < 2 ^ 64) :
    (Server.performAll (fillLog n) server).2.indexes = server.indexes ∧
      ∃ a', (Server.performAll (fillLog n) server).2.Shows a' ∧
        a'.audit.length = a.audit.length + n := by
  induction n generalizing server a with
  | zero => exact ⟨rfl, a, h, rfl⟩
  | succ n ih =>
    have hrun := applyAuditAppend_run h (auditOf "login") 0 (by omega) {}
    have hnext : (server.perform (.auditAppend (auditOf "login") 0)).2.Shows
        (a.appendAudit (0, auditOf "login")) := by
      simp only [Server.perform, applyOp, bind_run, hrun, pure_run]
      exact h.withMeta (h.metadata.append (0, auditOf "login") (by omega))
    have hlonger : (a.appendAudit (0, auditOf "login")).audit.length = a.audit.length + 1 := by
      simp [Image.appendAudit]
    obtain ⟨hindexes, a', hshows, hlength⟩ := ih hnext (by omega)
    refine ⟨hindexes.trans ?_, a', hshows, ?_⟩
    · simp only [Server.perform, applyOp, bind_run, hrun, pure_run]
    · exact hlength.trans (by omega)

omit [Prost] in
/-- An entry is appended to the log, and a queue is closed. -/
def logAndClose : List Command :=
  [.op (.auditAppend (auditOf "delete_queue") 0) 0, .op (.closeQueue "emails" 0 1000) 1]

/-- When the audit log is full and no queue closed, closing a queue in a cycle with an append comes
to nothing, but in a cycle of its own the queue is closed. -/
theorem not_asOwn_of_exhausted (h : server.Shows a) (hknows : a.Knows [])
    (hclosing : server.indexes.closing = ∅) (hfull : server.rows.audit.size + 1 = 2 ^ 64) :
    ¬ (runRpcCycle (calmEnv 0 false) server logAndClose).AsOwn server
      (ownRounds 0 false logAndClose) := by
  intro hown
  -- with an append in it a cycle comes to nothing
  have hundone : ∀ cmds, (∀ op ∈ stampedOps 0 cmds, op.WellFormed) →
      (jobIdsOf (stampedOps 0 cmds)).Nodup → (stampedOps 0 cmds).countP Op.audits = 1 →
      (runRpcCycle (calmEnv 0 false) server cmds).server = server := by
    intro cmds hwf hfresh hcount
    obtain ⟨reads, hatomic⟩ := exists_rpcAtomic h hknows 0 false hwf hfresh
    refine ((hatomic (fun _ => none) false).undone (.inr ?_)).server
    rw [AuditExhausted, hcount, hfull]
  have hshared := hundone logAndClose (by decide) (by decide) (by decide)
  have hfirst := hundone [.op (.auditAppend (auditOf "delete_queue") 0) 0] (by decide) (by decide)
    (by decide)
  have hwf : (Op.stamp 0 (.closeQueue "emails" 0 1000)).WellFormed := trivial
  have hfresh : a.Fresh (Op.stamp 0 (.closeQueue "emails" 0 1000)).jobs :=
    ⟨List.nodup_nil, fun job hjob => absurd hjob List.not_mem_nil⟩
  have hsecond : runRpcCycle (calmEnv 0 false) server [.op (.closeQueue "emails" 0 1000) 1] = _ :=
    runRpcCycle_own_ok h hwf hfresh 1 rfl
  have hafter : server.after (ownRounds 0 false logAndClose) =
      (runRpcCycle (calmEnv 0 false)
        (runRpcCycle (calmEnv 0 false) server
          [.op (.auditAppend (auditOf "delete_queue") 0) 0]).server
        [.op (.closeQueue "emails" 0 1000) 1]).server := rfl
  have hsame := hshared.symm.trans hown.server
  rw [hafter, hfirst, hsecond] at hsame
  have hclosed := congrArg (fun server => server.indexes.closing["emails"]?) hsame
  simp [TxState.server, hclosing] at hclosed

/-- A log that is filled up is full. -/
theorem not_asOwn_of_fillLog {n : ℕ} (hn : n + 1 = 2 ^ 64) :
    Run (Server.performAll (fillLog n) {}).1 (Server.performAll (fillLog n) {}).2 ∧
    ¬ (runRpcCycle (calmEnv 0 false) (Server.performAll (fillLog n) {}).2 logAndClose).AsOwn
      (Server.performAll (fillLog n) {}).2 (ownRounds 0 false logAndClose) := by
  have hrun : Run (Server.performAll (fillLog n) {}).1 (Server.performAll (fillLog n) {}).2 :=
    .of_performAll (wellFormed_fillLog n) (by rw [jobs_fillLog]; exact List.nodup_nil)
  obtain ⟨-, a, -, -, hshows, hknows⟩ := hrun.exists_turns
  rw [Server.enqueuedIds_performAll, jobs_fillLog] at hknows
  obtain ⟨hindexes, a', hshows', hlength⟩ :=
    Server.shows_empty.performAll_fillLog (n := n) (by rw [Image.empty, List.length_nil]; omega)
  refine ⟨hrun, not_asOwn_of_exhausted hshows hknows (by rw [hindexes]) ?_⟩
  rw [hshows'.size_audit, hlength, Image.empty, List.length_nil, Nat.zero_add, hn]

end Cycles

open WireFormat in
/-- The server after as many entries as there are sequence numbers. -/
theorem not_asOwn_of_full_log :
    Run (Server.performAll (fillLog (2 ^ 64 - 1)) {}).1
      (Server.performAll (fillLog (2 ^ 64 - 1)) {}).2 ∧
    ¬ (runRpcCycle (calmEnv 0 false) (Server.performAll (fillLog (2 ^ 64 - 1)) {}).2
      logAndClose).AsOwn (Server.performAll (fillLog (2 ^ 64 - 1)) {}).2
        (ownRounds 0 false logAndClose) :=
  not_asOwn_of_fillLog (Nat.sub_add_cancel Nat.one_le_two_pow)

/-- A job without options. -/
def plainJob (id : String) : PreparedJob where
  id := id
  req := { queue := "emails", jobType := "send" }
  limits := { priority := 5, maxAttempts := 3, dedupWindowMs := 60000 }

/-- A job is reserved, an unknown one acknowledged, a queue counted, and another job enqueued. -/
def mixedCycle : List Command :=
  [.op (.reserve ["emails"] 30000 1 0) 0, .op (.ack "b" 1) 1, .queueDepths "emails" 2,
   .op (.enqueue [plainJob "b"] 0) 3]

open WireFormat Server in
/-- With a job in line these commands are atomic. -/
theorem cycle_atomic_mixedCycle :
    ∃ reads, ∀ faults commitFails, RpcAtomic reads ⟨2000, true, faults, commitFails⟩
      (performAll [.enqueue [plainJob "a"] 1000] {}).2 mixedCycle := by
  have hrun : Run (performAll [.enqueue [plainJob "a"] 1000] {}).1
      (performAll [.enqueue [plainJob "a"] 1000] {}).2 := Run.of_performAll (by decide) (by decide)
  refine (hrun.cycle_atomic 2000 true).1 mixedCycle (by decide) ?_
  rw [Server.enqueuedIds_performAll]
  decide

end Sepp
