import Sepp.Run.Calls

/-!
# Runs of cycles

The committer alternates between cycles of commands and sweep cycles, and may be restarted between
them. A cycle that goes through makes the turns of its operations; any other leaves the store as
it was. So what holds in every run of operations holds after every sequence of rounds.

## Main definitions

* `Round`, `Round.run` — a cycle or a restart, and what it leaves behind.
* `Server.after` — the server after a sequence of rounds.
* `AdmissibleRounds` — what the callers of the committer promise.

## Main results

* `applyCommands_turns` — the operations of a cycle make turns.
* `Round.exists_turns` — a round makes the turns of the calls that it commits.
* `exists_shows_after` — the store stands for an abstract state after every sequence of rounds.
* `Run.of_rounds` — the calls that rounds commit are a run.
-/

namespace Sepp

/-! ### Rounds -/

/-- A cycle of the committer, or a restart between two cycles. -/
inductive Round where
  | rpc (env : CycleEnv) (rpcs : List Command)
  | sweep (env : CycleEnv) (params : SweepParams)
  | restart

/-- The operation of a command that has one. -/
def Command.op? : Command → Option Op
  | .op operation _ => some operation
  | .peekKeys .. | .queueDepths .. => none

/-- The operations of commands, with the stamp of their cycle. -/
def stampedOps (now : Int64) (cmds : List Command) : List Op :=
  (cmds.filterMap Command.op?).map (Op.stamp now)

/-- The operations that a round applies. -/
def Round.ops : Round → List Op
  | rpc env rpcs => stampedOps env.now rpcs
  | sweep env params => [sweepOp params env.now]
  | restart => []

/-- The cycle of the round keeps metrics. -/
def Round.records : Round → Bool
  | rpc env _ | sweep env _ => env.metricsEnabled
  | restart => true

/-- The ids of the jobs that operations ask to enqueue. -/
def jobIdsOf (ops : List Op) : List String := (ops.flatMap Op.jobs).map PreparedJob.id

/-- What the callers of the committer promise about a sequence of rounds. -/
structure AdmissibleRounds (rounds : List Round) : Prop where
  wellFormed : ∀ round ∈ rounds, ∀ op ∈ round.ops, op.WellFormed
  fresh : (jobIdsOf (rounds.flatMap Round.ops)).Nodup

theorem stampedOps_append (now : Int64) (cmds cmds' : List Command) :
    stampedOps now (cmds ++ cmds') = stampedOps now cmds ++ stampedOps now cmds' := by
  rw [stampedOps, List.filterMap_append, List.map_append]
  rfl

theorem jobIdsOf_append (ops ops' : List Op) :
    jobIdsOf (ops ++ ops') = jobIdsOf ops ++ jobIdsOf ops' := by
  rw [jobIdsOf, List.flatMap_append, List.map_append]
  rfl

namespace AdmissibleRounds

variable {rounds rest : List Round} {round : Round}

/-- The ids of rounds and of one more. -/
theorem jobIdsOf_concat (rounds : List Round) (round : Round) :
    jobIdsOf ((rounds ++ [round]).flatMap Round.ops) =
      jobIdsOf (rounds.flatMap Round.ops) ++ jobIdsOf round.ops := by
  rw [List.flatMap_append, jobIdsOf_append, List.flatMap_singleton]

/-- What is promised about rounds is promised about the first of them. -/
theorem of_append (h : AdmissibleRounds (rounds ++ rest)) : AdmissibleRounds rounds := by
  obtain ⟨hwf, hfresh⟩ := h
  rw [List.flatMap_append, jobIdsOf_append] at hfresh
  exact ⟨fun round hround => hwf round (List.mem_append_left _ hround),
    (List.nodup_append.mp hfresh).1⟩

/-- What is promised about one more round. -/
theorem last (h : AdmissibleRounds (rounds ++ [round])) :
    (∀ op ∈ round.ops, op.WellFormed) ∧
      (jobIdsOf (rounds.flatMap Round.ops) ++ jobIdsOf round.ops).Nodup := by
  obtain ⟨hwf, hfresh⟩ := h
  rw [jobIdsOf_concat] at hfresh
  exact ⟨hwf round (List.mem_append_right _ List.mem_cons_self), hfresh⟩

end AdmissibleRounds

section Rounds

variable [Prost]

/-- What a round leaves behind. -/
def Round.run (server : Server) : Round → CycleResult
  | rpc env rpcs => runRpcCycle env server rpcs
  | sweep env params => runSweepCycle env params server
  | restart => { server := server.rolledBack, replies := [], metrics := none, wakes := [] }

/-- The server after a sequence of rounds. -/
def Server.after (server : Server) (rounds : List Round) : Server :=
  rounds.foldl (fun server round => (round.run server).server) server

/-! ### The operations of a cycle -/

/-- The store as a transaction sees it. -/
def TxState.server (tx : TxState) : Server := ⟨tx.rows, tx.indexes⟩

variable {a : Image} {op : Op} {tx tx' : TxState} {ids : List String}

/-- An operation that goes through makes a turn. -/
theorem applyOp_turn (h : tx.server.Shows a) (hwf : op.WellFormed) (hfresh : a.Fresh op.jobs)
    {r : OpOutcome} (hrun : applyOp op tx = .ok r tx') :
    ∃ evs a', TurnStep (tx.server, a) ⟨.answered op (.ok r), evs⟩ (tx'.server, a') ∧
      Recorded evs tx.cycle tx'.cycle := by
  rcases h.applyOp_cases hwf hfresh tx.cycle tx.faults with
    ⟨r, tx', evs, a', hx, htrace, hrep, hrec, hexp⟩ | ⟨e, f, hx, -⟩ | ⟨e, tx', hx, -⟩ <;>
    cases hrun.symm.trans hx
  exact ⟨evs, a', ⟨.done tx.cycle tx.faults hrun, htrace, hrep, hexp⟩, hrec⟩

/-- An operation that is refused changes nothing. -/
theorem applyOp_refused (h : tx.server.Shows a) (hwf : op.WellFormed) (hfresh : a.Fresh op.jobs)
    {e : Status} (hrun : applyOp op tx = .error e tx') (hcode : e.code ≠ .internal) :
    tx'.server = tx.server ∧ tx'.cycle = tx.cycle := by
  rcases h.applyOp_cases hwf hfresh tx.cycle tx.faults with
    ⟨r, tx', evs, a', hx, -⟩ | ⟨e, f, hx, -⟩ | ⟨e, tx', hx, he⟩ <;>
    cases hrun.symm.trans hx
  · exact ⟨rfl, rfl⟩
  · exact absurd he hcode

/-- The calls that a cycle makes, with the channels of their callers; they end with the first
storage failure. -/
def cycleCalls (now : Int64) : List Command → TxState → List (ℕ × Call)
  | [], _ => []
  | .op op resp :: cmds, tx =>
    match applyOp (op.stamp now) tx with
    | .ok r tx' => (resp, .answered (op.stamp now) (.ok r)) :: cycleCalls now cmds tx'
    | .error e tx' => (resp, .answered (op.stamp now) (.error e)) ::
        if e.code = .internal then [] else cycleCalls now cmds tx'
  | .peekKeys .. :: cmds, tx => cycleCalls now cmds tx
  | .queueDepths .. :: cmds, tx => cycleCalls now cmds tx

omit [Prost] in
/-- The jobs of the first of several operations are new. -/
theorem fresh_of_nodup {ops : List Op} (hknows : a.Knows ids)
    (hfresh : (ids ++ jobIdsOf (op :: ops)).Nodup) : a.Fresh op.jobs := by
  have hids : ids ++ jobIdsOf (op :: ops) =
      (ids ++ op.jobs.map PreparedJob.id) ++ jobIdsOf ops := by
    simp [jobIdsOf]
  rw [hids] at hfresh
  obtain ⟨hfirst, -, -⟩ := List.nodup_append.mp hfresh
  obtain ⟨-, hnodup, hdisjoint⟩ := List.nodup_append.mp hfirst
  refine ⟨hnodup, fun job hjob => ?_⟩
  by_contra hknown
  exact hdisjoint _ (hknows _ hknown) _ (List.mem_map_of_mem hjob) rfl

/-- A cycle without storage failure makes the turns of its operations. -/
theorem applyCommands_turns {now : Int64} {cmds : List Command} {run run' : CycleRun}
    (hrun : applyCommands now cmds run = (none, run')) (h : run.tx.server.Shows a)
    (hknows : a.Knows ids) (hwf : ∀ op ∈ stampedOps now cmds, op.WellFormed)
    (hfresh : (ids ++ jobIdsOf (stampedOps now cmds)).Nodup) :
    ∃ turns a', turns.map Turn.call = (cycleCalls now cmds run.tx).map Prod.snd ∧
      Trace TurnStep (run.tx.server, a) turns (run'.tx.server, a') ∧ run'.tx.server.Shows a' ∧
      a'.Knows (ids ++ jobIdsOf (stampedOps now cmds)) ∧
      Recorded (turns.flatMap Turn.events) run.tx.cycle run'.tx.cycle := by
  induction cmds generalizing run a ids with
  | nil =>
    obtain rfl : run = run' := congrArg Prod.snd hrun
    exact ⟨[], a, rfl, Trace.nil _, h, by simpa [jobIdsOf, stampedOps] using hknows, .nil _⟩
  | cons cmd cmds ih =>
    cases cmd with
    | peekKeys | queueDepths =>
      simp only [applyCommands, applyCommand] at hrun
      have hrest := ih hrun h hknows hwf hfresh
      exact hrest
    | op op resp =>
      have hops : stampedOps now (.op op resp :: cmds) = op.stamp now :: stampedOps now cmds := rfl
      rw [hops] at hwf hfresh ⊢
      have hwf₀ := hwf _ List.mem_cons_self
      have hwf' : ∀ op ∈ stampedOps now cmds, op.WellFormed := fun op hop =>
        hwf op (List.mem_cons_of_mem _ hop)
      have hnew := fresh_of_nodup hknows hfresh
      have hids : ids ++ jobIdsOf (op.stamp now :: stampedOps now cmds) =
          (ids ++ (op.stamp now).jobs.map PreparedJob.id) ++ jobIdsOf (stampedOps now cmds) := by
        simp [jobIdsOf]
      rw [hids] at hfresh ⊢
      cases hx : applyOp (op.stamp now) run.tx with
      | ok r tx' =>
        simp only [applyCommands, applyCommand, hx] at hrun
        obtain ⟨evs, b, hturn, hrec⟩ := applyOp_turn h hwf₀ hnew hx
        obtain ⟨turns, a', hmap, htrace, hshows, hknows', hrec'⟩ :=
          ih hrun hturn.shows (hturn.knows hknows) hwf' hfresh
        refine ⟨⟨_, evs⟩ :: turns, a', ?_, .cons hturn htrace, hshows, hknows', ?_⟩
        · simp only [cycleCalls, hx, List.map_cons, hmap]
        · exact hrec.append hrec'
      | error e tx' =>
        simp only [applyCommands, applyCommand, hx] at hrun
        split_ifs at hrun with hcode
        · cases hrun
        obtain ⟨hserver, hcycle⟩ := applyOp_refused h hwf₀ hnew hx hcode
        have hturn : TurnStep (run.tx.server, a) ⟨.answered (op.stamp now) (.error e), []⟩
            (tx'.server, a) :=
          ⟨.rejected run.tx.cycle run.tx.faults hx hcode, Trace.nil a, hserver ▸ h, rfl⟩
        obtain ⟨turns, a', hmap, htrace, hshows, hknows', hrec'⟩ :=
          ih hrun hturn.shows (hturn.knows hknows) hwf' hfresh
        refine ⟨⟨_, []⟩ :: turns, a', ?_, .cons hturn htrace, hshows, hknows', ?_⟩
        · simp only [cycleCalls, hx, if_neg hcode, List.map_cons, hmap]
        · rw [← hcycle]
          exact hrec'

/-! ### The end of a cycle -/

variable {server : Server}

/-- The commit of a cycle leaves the store as it was before, or as its transaction sees it; when
nothing was written these are the same. -/
theorem commitCycle_cases {a' : Image} {evs : List Event} {enabled : Bool} (env : CycleEnv)
    (hserver : server.Shows a) (htx : tx.server.Shows a') (htrace : Trace Step a evs a')
    (hrec : Recorded evs (Cycle.new enabled) tx.cycle) :
    (commitCycle env server tx = (.error ⟨.internal, "storage commit failed"⟩, server) ∧
      tx.cycle.dirty = true ∧ env.commitFails = true) ∨
    commitCycle env server tx = (.ok (), tx.server) := by
  unfold commitCycle
  cases hdirty : tx.cycle.dirty with
  | true =>
    cases hfails : env.commitFails with
    | true => exact .inl ⟨by simp [hserver.rolledBack_eq], rfl, rfl⟩
    | false => exact .inr (by simp [TxState.server])
  | false =>
    have ha := hrec.eq_of_clean htrace hdirty
    have hrows : tx.rows = server.rows := (ha ▸ htx).rows_eq hserver
    exact .inr (by simp [TxState.server, hrows])

/-- What a sweep cycle leaves behind. -/
theorem runSweepCycle_cases (env : CycleEnv) (params : SweepParams) (h : server.Shows a) :
    (∃ e tx, applyOp (sweepOp params env.now) (beginCycle env server) = .error e tx ∧
      runSweepCycle env params server = { server, replies := [], metrics := none, wakes := [] }) ∨
    ∃ r tx evs a', applyOp (sweepOp params env.now) (beginCycle env server) = .ok r tx ∧
      TurnStep (server, a) ⟨.answered (sweepOp params env.now) (.ok r), evs⟩ (tx.server, a') ∧
      Recorded evs (Cycle.new env.metricsEnabled) tx.cycle ∧
      ((env.commitFails = true ∧
        runSweepCycle env params server = { server, replies := [], metrics := none, wakes := [] }) ∨
      runSweepCycle env params server =
        { server := tx.server
          replies := []
          metrics := tx.cycle.metrics
          wakes := tx.cycle.newReady.toList }) := by
  cases hrun : applyOp (sweepOp params env.now) (beginCycle env server) with
  | error e tx => exact .inl ⟨e, tx, rfl, by simp only [runSweepCycle, hrun, h.rolledBack_eq]⟩
  | ok r tx =>
    have hfresh : a.Fresh (sweepOp params env.now).jobs :=
      ⟨List.nodup_nil, by simp [sweepOp, Op.jobs]⟩
    obtain ⟨evs, a', hturn, hrec⟩ :=
      applyOp_turn h (show (sweepOp params env.now).WellFormed from trivial) hfresh hrun
    refine .inr ⟨r, tx, evs, a', rfl, hturn, hrec, ?_⟩
    rcases commitCycle_cases env h hturn.shows hturn.events hrec with ⟨hcommit, -, hfails⟩ | hcommit
    · exact .inl ⟨hfails, by simp only [runSweepCycle, hrun, hcommit]; rfl⟩
    · exact .inr (by simp only [runSweepCycle, hrun, hcommit]; rfl)

/-! ### Runs of rounds -/

/-- The calls of a round that are committed, with their answers. -/
def Round.committed (server : Server) : Round → List Call
  | rpc env rpcs =>
    match applyCommands env.now rpcs { tx := beginCycle env server } with
    | (some _, _) => []
    | (none, run) =>
      if (commitCycle env server run.tx).1.isOk then
        (cycleCalls env.now rpcs (beginCycle env server)).map Prod.snd
      else []
  | sweep env params =>
    match applyOp (sweepOp params env.now) (beginCycle env server) with
    | .error _ _ => []
    | .ok r tx =>
      if (commitCycle env server tx).1.isOk then [.answered (sweepOp params env.now) (.ok r)]
      else []
  | restart => [.restart]

/-- What a round reports of a counter: nothing, if its cycle is rolled back. -/
def Round.count (server : Server) (round : Round) (queue : String) (k : Counter) : ℕ :=
  (round.run server).metrics.elim 0 (·.count queue k)

/-- A cycle that starts with metrics ends with metrics. -/
theorem Recorded.exists_metrics {evs : List Event} {c : Cycle}
    (h : Recorded evs (Cycle.new true) c) : ∃ m, c.metrics = some m := by
  have hnotes := h.counted "" .enqueued
  cases hm : c.metrics with
  | some m => exact ⟨m, rfl⟩
  | none =>
    rw [hm] at hnotes
    cases hnotes

/-- The metrics of a cycle count its events. -/
theorem Recorded.count_eq {evs : List Event} {c : Cycle} (h : Recorded evs (Cycle.new true) c)
    (queue : String) (k : Counter) :
    c.metrics.elim 0 (·.count queue k) = (evs.flatMap Event.notes).count (k, queue) := by
  obtain ⟨m, hm⟩ := h.exists_metrics
  have hnotes := h.counted queue k
  rw [hm] at hnotes ⊢
  simpa [Cycle.new] using hnotes

/-- What a round reports: nothing, when it makes no events, or what the record of its cycle says
of them. -/
def CycleResult.Reports (result : CycleResult) (records : Bool) (evs : List Event) : Prop :=
  (evs = [] ∧ result.metrics = none ∧ result.wakes = []) ∨
    ∃ c, Recorded evs (Cycle.new records) c ∧ result.metrics = c.metrics ∧
      result.wakes = c.newReady.toList

/-- The turns of a round: those of the calls that it commits, of whose events it reports. -/
structure Round.Turns (round : Round) (server : Server) (a : Image) (ids : List String)
    (turns : List Turn) (a' : Image) : Prop where
  calls : turns.map Turn.call = round.committed server
  trace : Trace TurnStep (server, a) turns ((round.run server).server, a')
  shows : (round.run server).server.Shows a'
  knows : a'.Knows (ids ++ jobIdsOf round.ops)
  reports : (round.run server).Reports round.records (turns.flatMap Turn.events)

/-- A round that leaves nothing behind makes no turns. -/
theorem Round.turns_nil {round : Round} (h : server.Shows a) (hknows : a.Knows ids)
    (hserver : (round.run server).server = server) (hnone : round.committed server = [])
    (hmetrics : (round.run server).metrics = none) (hwakes : (round.run server).wakes = []) :
    round.Turns server a ids [] a where
  calls := hnone.symm
  trace := by
    rw [hserver]
    exact .nil _
  shows := hserver.symm ▸ h
  knows id hid := List.mem_append_left _ (hknows id hid)
  reports := .inl ⟨rfl, hmetrics, hwakes⟩

/-- A round whose transaction is committed makes the turns of its operations. -/
theorem Round.turns_of_commit {round : Round} {tx : TxState} {turns : List Turn} {a' : Image}
    (hserver : (round.run server).server = tx.server)
    (hmetrics : (round.run server).metrics = tx.cycle.metrics)
    (hwakes : (round.run server).wakes = tx.cycle.newReady.toList)
    (hcalls : turns.map Turn.call = round.committed server)
    (htrace : Trace TurnStep (server, a) turns (tx.server, a')) (hshows : tx.server.Shows a')
    (hknows : a'.Knows (ids ++ jobIdsOf round.ops))
    (hrec : Recorded (turns.flatMap Turn.events) (Cycle.new round.records) tx.cycle) :
    round.Turns server a ids turns a' where
  calls := hcalls
  trace := hserver.symm ▸ htrace
  shows := hserver.symm ▸ hshows
  knows := hknows
  reports := .inr ⟨tx.cycle, hrec, hmetrics, hwakes⟩

/-- The turns of a cycle of commands. -/
theorem exists_turns_rpc (env : CycleEnv) (rpcs : List Command) (h : server.Shows a)
    (hknows : a.Knows ids) (hwf : ∀ op ∈ (Round.rpc env rpcs).ops, op.WellFormed)
    (hfresh : (ids ++ jobIdsOf (Round.rpc env rpcs).ops).Nodup) :
    ∃ turns a', (Round.rpc env rpcs).Turns server a ids turns a' := by
  cases hrun : applyCommands env.now rpcs { tx := beginCycle env server } with
  | mk failure run =>
    cases failure with
    | some failure =>
      refine ⟨[], a, Round.turns_nil h hknows ?_ ?_ ?_ ?_⟩
      · simp only [Round.run, runRpcCycle, hrun, h.rolledBack_eq]
      · simp only [Round.committed, hrun]
      · simp only [Round.run, runRpcCycle, hrun]
      · simp only [Round.run, runRpcCycle, hrun]
    | none =>
      obtain ⟨turns, a', hcalls, htrace, hshows, hknows', hrec⟩ :=
        applyCommands_turns hrun h hknows hwf hfresh
      rcases commitCycle_cases env h hshows (events_of_turns htrace) hrec with
        ⟨hcommit, -, -⟩ | hcommit
      · refine ⟨[], a, Round.turns_nil h hknows ?_ ?_ ?_ ?_⟩
        · simp only [Round.run, runRpcCycle, hrun, hcommit]
        · simp only [Round.committed, hrun, hcommit]
          rfl
        · simp only [Round.run, runRpcCycle, hrun, hcommit]
          rfl
        · simp only [Round.run, runRpcCycle, hrun, hcommit]
          rfl
      · refine ⟨turns, a', Round.turns_of_commit ?_ ?_ ?_ ?_ htrace hshows hknows' hrec⟩
        · simp only [Round.run, runRpcCycle, hrun, hcommit]
        · simp only [Round.run, runRpcCycle, hrun, hcommit]
          rfl
        · simp only [Round.run, runRpcCycle, hrun, hcommit]
          rfl
        · simp only [Round.committed, hrun, hcommit]
          exact hcalls

/-- The turn of a sweep. -/
theorem exists_turns_sweep (env : CycleEnv) (params : SweepParams) (h : server.Shows a)
    (hknows : a.Knows ids) :
    ∃ turns a', (Round.sweep env params).Turns server a ids turns a' := by
  cases hrun : applyOp (sweepOp params env.now) (beginCycle env server) with
  | error e tx =>
    refine ⟨[], a, Round.turns_nil h hknows ?_ ?_ ?_ ?_⟩
    · simp only [Round.run, runSweepCycle, hrun, h.rolledBack_eq]
    · simp only [Round.committed, hrun]
    · simp only [Round.run, runSweepCycle, hrun]
    · simp only [Round.run, runSweepCycle, hrun]
  | ok r tx =>
    have hnew : a.Fresh (sweepOp params env.now).jobs :=
      ⟨List.nodup_nil, by simp [sweepOp, Op.jobs]⟩
    obtain ⟨evs, a', hturn, hrec⟩ :=
      applyOp_turn h (show (sweepOp params env.now).WellFormed from trivial) hnew hrun
    rcases commitCycle_cases env h hturn.shows hturn.events hrec with ⟨hcommit, -, -⟩ | hcommit
    · refine ⟨[], a, Round.turns_nil h hknows ?_ ?_ ?_ ?_⟩
      · simp only [Round.run, runSweepCycle, hrun, hcommit]
      · simp only [Round.committed, hrun, hcommit]
        rfl
      · simp only [Round.run, runSweepCycle, hrun, hcommit]
        rfl
      · simp only [Round.run, runSweepCycle, hrun, hcommit]
        rfl
    · refine ⟨[_], a', Round.turns_of_commit ?_ ?_ ?_ ?_ (.single hturn) hturn.shows
        (hturn.knows hknows) ?_⟩
      · simp only [Round.run, runSweepCycle, hrun, hcommit]
      · simp only [Round.run, runSweepCycle, hrun, hcommit]
        rfl
      · simp only [Round.run, runSweepCycle, hrun, hcommit]
        rfl
      · simp only [Round.committed, hrun, hcommit]
        rfl
      · rw [List.flatMap_singleton]
        exact hrec

/-- A round makes the turns of the calls that it commits, and reports their events. -/
theorem Round.exists_reported_turns (round : Round) (h : server.Shows a) (hknows : a.Knows ids)
    (hwf : ∀ op ∈ round.ops, op.WellFormed) (hfresh : (ids ++ jobIdsOf round.ops).Nodup) :
    ∃ turns a', round.Turns server a ids turns a' := by
  cases round with
  | rpc env rpcs => exact exists_turns_rpc env rpcs h hknows hwf hfresh
  | sweep env params => exact exists_turns_sweep env params h hknows
  | restart =>
    have hsame : (Round.restart.run server).server = server := h.rolledBack_eq
    have hturn : TurnStep (server, a) ⟨.restart, []⟩ ((Round.restart.run server).server, a) :=
      ⟨.restart server, Trace.nil a, hsame ▸ h, rfl⟩
    exact ⟨[_], a, rfl, .single hturn, hturn.shows, by simpa [Round.ops, jobIdsOf] using hknows,
      .inl ⟨rfl, rfl, rfl⟩⟩

/-- A round makes the turns of the calls that it commits, and reports the counts of their
events. -/
theorem Round.exists_counted_turns (round : Round) (h : server.Shows a) (hknows : a.Knows ids)
    (hwf : ∀ op ∈ round.ops, op.WellFormed) (hfresh : (ids ++ jobIdsOf round.ops).Nodup) :
    ∃ turns a', turns.map Turn.call = round.committed server ∧
      Trace TurnStep (server, a) turns ((round.run server).server, a') ∧
      (round.run server).server.Shows a' ∧ a'.Knows (ids ++ jobIdsOf round.ops) ∧
      (round.records = true → ∀ queue k, round.count server queue k =
        ((turns.flatMap Turn.events).flatMap Event.notes).count (k, queue)) := by
  obtain ⟨turns, a', hmap, htrace, hshows, hknows', hreports⟩ :=
    round.exists_reported_turns h hknows hwf hfresh
  refine ⟨turns, a', hmap, htrace, hshows, hknows', fun hrecords queue k => ?_⟩
  rw [Round.count]
  rcases hreports with ⟨hnone, hmetrics, -⟩ | ⟨c, hrec, hmetrics, -⟩
  · rw [hnone, hmetrics]
    rfl
  · rw [hrecords] at hrec
    rw [hmetrics, hrec.count_eq]

/-- A round makes the turns of the calls that it commits. -/
theorem Round.exists_turns (round : Round) (h : server.Shows a) (hknows : a.Knows ids)
    (hwf : ∀ op ∈ round.ops, op.WellFormed) (hfresh : (ids ++ jobIdsOf round.ops).Nodup) :
    ∃ turns a', turns.map Turn.call = round.committed server ∧
      Trace TurnStep (server, a) turns ((round.run server).server, a') ∧
      (round.run server).server.Shows a' ∧ a'.Knows (ids ++ jobIdsOf round.ops) := by
  obtain ⟨turns, a', hmap, htrace, hshows, hknows', -⟩ :=
    round.exists_reported_turns h hknows hwf hfresh
  exact ⟨turns, a', hmap, htrace, hshows, hknows'⟩

/-- The calls that a sequence of rounds commits. -/
def committedCalls (server : Server) : List Round → List Call
  | [] => []
  | round :: rounds => round.committed server ++ committedCalls (round.run server).server rounds

theorem committedCalls_append (server : Server) (rounds rounds' : List Round) :
    committedCalls server (rounds ++ rounds') =
      committedCalls server rounds ++ committedCalls (server.after rounds) rounds' := by
  induction rounds generalizing server with
  | nil => rfl
  | cons round rounds ih =>
    rw [List.cons_append, committedCalls, committedCalls, ih, List.append_assoc]
    rfl

/-- The store stands for an abstract state after every sequence of rounds. -/
theorem exists_shows_after {rounds : List Round} (hadm : AdmissibleRounds rounds) :
    ∃ a, (Server.after {} rounds).Shows a ∧
      a.Knows (jobIdsOf (rounds.flatMap Round.ops)) := by
  induction rounds using List.reverseRecOn with
  | nil => exact ⟨Image.empty, Server.shows_empty, fun _ hid => absurd rfl hid⟩
  | append_singleton rounds round ih =>
    obtain ⟨hwf, hfresh⟩ := hadm.last
    obtain ⟨a, hshows, hknows⟩ := ih hadm.of_append
    obtain ⟨turns, a', -, -, hshows', hknows'⟩ := round.exists_turns hshows hknows hwf hfresh
    rw [Server.after, List.foldl_append, AdmissibleRounds.jobIdsOf_concat]
    exact ⟨a', hshows', hknows'⟩

/-! ### What rounds commit -/

theorem calls_of_turns {turns : List Turn} {s s' : Server × Image}
    (h : Trace TurnStep s turns s') : Trace CallStep s.1 (turns.map Turn.call) s'.1 := by
  induction h with
  | nil => exact Trace.nil _
  | cons hturn _ ih => exact .cons hturn.call ih

omit [Prost] in
/-- The operation of a call. -/
def Call.op? : Call → Option Op
  | answered op _ => some op
  | restart => none

/-- The calls of a cycle are of its operations, in order. -/
theorem ops_cycleCalls (now : Int64) (cmds : List Command) (tx : TxState) :
    (((cycleCalls now cmds tx).map Prod.snd).filterMap Call.op?).Sublist (stampedOps now cmds) := by
  induction cmds generalizing tx with
  | nil => exact .slnil
  | cons cmd cmds ih =>
    cases cmd with
    | peekKeys | queueDepths => exact ih tx
    | op op resp =>
      have hops : stampedOps now (.op op resp :: cmds) = op.stamp now :: stampedOps now cmds := rfl
      rw [hops]
      cases hx : applyOp (op.stamp now) tx with
      | ok r tx' =>
        simp only [cycleCalls, hx, List.map_cons, List.filterMap_cons, Call.op?]
        exact (ih tx').cons_cons _
      | error e tx' =>
        simp only [cycleCalls, hx, List.map_cons, List.filterMap_cons, Call.op?]
        refine .cons_cons _ ?_
        split_ifs
        · exact List.nil_sublist _
        · exact ih tx'

/-- The calls that a round commits are of its operations, in order. -/
theorem Round.ops_committed (round : Round) (server : Server) :
    ((round.committed server).filterMap Call.op?).Sublist round.ops := by
  cases round with
  | restart => exact .slnil
  | rpc env rpcs =>
    rw [Round.committed]
    split
    · exact List.nil_sublist _
    · split_ifs
      · exact ops_cycleCalls ..
      · exact List.nil_sublist _
  | sweep env params =>
    rw [Round.committed]
    split
    · exact List.nil_sublist _
    · split_ifs
      · exact .refl _
      · exact List.nil_sublist _

theorem ops_committedCalls (server : Server) (rounds : List Round) :
    ((committedCalls server rounds).filterMap Call.op?).Sublist (rounds.flatMap Round.ops) := by
  induction rounds generalizing server with
  | nil => exact .slnil
  | cons round rounds ih =>
    rw [committedCalls, List.filterMap_append, List.flatMap_cons]
    exact (round.ops_committed server).append (ih _)

omit [Prost] in
/-- Calls of admissible operations are admissible. -/
theorem admissible_of_ops {calls : List Call} {ops : List Op}
    (h : (calls.filterMap Call.op?).Sublist ops) (hwf : ∀ op ∈ ops, op.WellFormed)
    (hfresh : (jobIdsOf ops).Nodup) : Admissible calls where
  wellFormed call hcall := by
    cases call with
    | restart => trivial
    | answered op result =>
      exact hwf op (h.subset (List.mem_filterMap.mpr ⟨_, hcall, rfl⟩))
  fresh := by
    have hids : enqueuedIds calls = jobIdsOf (calls.filterMap Call.op?) := by
      rw [enqueuedIds, jobIdsOf]
      congr 1
      clear h
      induction calls with
      | nil => rfl
      | cons call calls ih => cases call <;> simp [Call.jobs, Call.op?, List.filterMap_cons, ih]
    rw [hids]
    exact hfresh.sublist ((h.flatMap Op.jobs).map _)

/-- The calls that rounds commit are a run. -/
theorem Run.of_rounds {rounds : List Round} (hadm : AdmissibleRounds rounds) :
    Run (committedCalls {} rounds) (Server.after {} rounds) := by
  have hwf : ∀ op ∈ rounds.flatMap Round.ops, op.WellFormed := fun op hop => by
    obtain ⟨round, hround, hop⟩ := List.mem_flatMap.mp hop
    exact hadm.wellFormed round hround op hop
  refine ⟨?_, admissible_of_ops (ops_committedCalls {} rounds) hwf hadm.fresh⟩
  clear hwf
  induction rounds using List.reverseRecOn with
  | nil => exact Trace.nil _
  | append_singleton rounds round ih =>
    obtain ⟨hwf, hfresh⟩ := hadm.last
    obtain ⟨a, hshows, hknows⟩ := exists_shows_after hadm.of_append
    obtain ⟨turns, a', hcalls, htrace, -, -⟩ := round.exists_turns hshows hknows hwf hfresh
    have hround := calls_of_turns htrace
    rw [hcalls] at hround
    have hafter : Server.after {} (rounds ++ [round]) =
        (round.run (Server.after {} rounds)).server := by
      rw [Server.after, List.foldl_append]
      rfl
    have hone : committedCalls (Server.after {} rounds) [round] =
        round.committed (Server.after {} rounds) := List.append_nil _
    rw [committedCalls_append, hone, hafter]
    exact (ih hadm.of_append).append hround

/-! ### Replies -/

variable {now : Int64} {env : CycleEnv} {cmds : List Command} {run run' mid : CycleRun}
  {failure : Option (Status × List Command)} {resp : ℕ} {r : OpOutcome}

/-- What holds after the commands and did not hold before came about in one of them. -/
theorem exists_step_of_applyCommands {P : CycleRun → Prop}
    (hrun : applyCommands now cmds run = (failure, run')) (hend : P run') (hstart : ¬ P run) :
    ∃ earlier cmd later mid, cmds = earlier ++ cmd :: later ∧
      applyCommands now earlier run = (none, mid) ∧ ¬ P mid ∧ P (applyCommand now cmd mid).2 := by
  induction cmds generalizing run with
  | nil =>
    obtain ⟨-, rfl⟩ := Prod.mk.inj hrun
    exact absurd hend hstart
  | cons cmd cmds ih =>
    by_cases hfirst : P (applyCommand now cmd run).2
    · exact ⟨[], cmd, cmds, run, rfl, rfl, hstart, hfirst⟩
    rw [applyCommands] at hrun
    cases hx : applyCommand now cmd run with
    | mk result mid =>
      rw [hx] at hrun hfirst
      cases result with
      | error status =>
        obtain ⟨-, rfl⟩ := Prod.mk.inj hrun
        exact absurd hend hfirst
      | ok u =>
        obtain ⟨earlier, cmd', later, mid', rfl, hearlier, hstep⟩ := ih hrun hfirst
        refine ⟨cmd :: earlier, cmd', later, mid', rfl, ?_, hstep⟩
        rw [applyCommands, hx]
        exact hearlier

/-- Commands that go through do so one part after the other. -/
theorem exists_mid_of_applyCommands {earlier later : List Command}
    (hrun : applyCommands now (earlier ++ later) run = (none, run')) :
    ∃ mid, applyCommands now earlier run = (none, mid) ∧
      applyCommands now later mid = (none, run') := by
  induction earlier generalizing run with
  | nil => exact ⟨run, rfl, hrun⟩
  | cons cmd earlier ih =>
    rw [List.cons_append, applyCommands] at hrun
    rw [applyCommands]
    cases hx : applyCommand now cmd run with
    | mk result mid =>
      rw [hx] at hrun
      cases result with
      | error status => cases hrun
      | ok u => exact ih hrun

/-- An operation is never answered with success before the commit. -/
theorem sent_of_applyCommands (hrun : applyCommands now cmds run = (failure, run'))
    (h : (resp, .op (.ok r)) ∈ run'.sent) : (resp, .op (.ok r)) ∈ run.sent := by
  by_contra hstart
  obtain ⟨earlier, cmd, later, mid, -, -, hmid, hstep⟩ :=
    exists_step_of_applyCommands (P := fun run => (resp, .op (.ok r)) ∈ run.sent) hrun h hstart
  cases cmd with
  | peekKeys | queueDepths => simp [applyCommand, hmid] at hstep
  | op op resp' =>
    cases hx : applyOp (op.stamp now) mid.tx <;> simp only [applyCommand, hx] at hstep
    · exact hmid hstep
    · split_ifs at hstep <;> simp [hmid] at hstep

/-- An outcome that is parked is that of an operation of the cycle, applied after the commands
before it. -/
theorem parked_of_applyCommands (hrun : applyCommands now cmds run = (failure, run'))
    (h : (resp, r) ∈ run'.responders) (hstart : (resp, r) ∉ run.responders) :
    ∃ earlier op later mid tx, cmds = earlier ++ .op op resp :: later ∧
      applyCommands now earlier run = (none, mid) ∧ applyOp (op.stamp now) mid.tx = .ok r tx := by
  obtain ⟨earlier, cmd, later, mid, rfl, hearlier, hmid, hstep⟩ :=
    exists_step_of_applyCommands (P := fun run => (resp, r) ∈ run.responders) hrun h hstart
  cases cmd with
  | peekKeys | queueDepths => exact absurd hstep hmid
  | op op resp' =>
    cases hx : applyOp (op.stamp now) mid.tx <;> simp only [applyCommand, hx] at hstep
    · obtain ⟨rfl, rfl⟩ := Prod.mk.inj (List.mem_singleton.mp
        ((List.mem_append.mp hstep).resolve_left hmid))
      exact ⟨earlier, op, later, mid, _, rfl, hearlier, hx⟩
    · split_ifs at hstep <;> exact absurd hstep hmid

/-- A caller is answered with success only by a cycle that is committed. -/
theorem parked_of_reply (h : (resp, .op (.ok r)) ∈ (runRpcCycle env server cmds).replies) :
    ∃ run, applyCommands env.now cmds { tx := beginCycle env server } = (none, run) ∧
      (commitCycle env server run.tx).1 = .ok () ∧ (resp, r) ∈ run.responders := by
  rw [runRpcCycle] at h
  cases hrun : applyCommands env.now cmds { tx := beginCycle env server } with
  | mk failure run =>
    have hsent : (resp, .op (.ok r)) ∉ run.sent := fun hmem => by
      cases sent_of_applyCommands hrun hmem
    cases failure with
    | some failure =>
      simp only [hrun, List.mem_append, List.mem_map] at h
      rcases h with (h | ⟨pending, -, heq⟩) | ⟨cmd, -, heq⟩
      · exact absurd h hsent
      · cases heq
      · cases cmd <;> cases heq
    | none =>
      simp only [hrun, List.mem_append, List.mem_map] at h
      obtain ⟨pending, hpending, heq⟩ := h.resolve_left hsent
      cases hcommit : (commitCycle env server run.tx).1 with
      | error e =>
        rw [hcommit] at heq
        cases heq
      | ok u =>
        rw [hcommit] at heq
        obtain ⟨rfl, hreply⟩ := Prod.mk.inj heq
        obtain rfl : pending.2 = r := Except.ok.inj (Reply.op.inj hreply)
        exact ⟨run, rfl, hcommit, hpending⟩

/-- The calls of a cycle, from one of its commands on. -/
theorem cycleCalls_append {earlier : List Command}
    (hrun : applyCommands now earlier run = (none, mid)) (cmds : List Command) :
    cycleCalls now (earlier ++ cmds) run.tx =
      cycleCalls now earlier run.tx ++ cycleCalls now cmds mid.tx := by
  induction earlier generalizing run with
  | nil =>
    obtain ⟨-, rfl⟩ := Prod.mk.inj hrun
    rfl
  | cons cmd earlier ih =>
    cases cmd with
    | peekKeys | queueDepths =>
      simp only [applyCommands, applyCommand] at hrun
      have hrest := ih hrun
      exact hrest
    | op op resp =>
      cases hx : applyOp (op.stamp now) run.tx with
      | ok r tx =>
        simp only [applyCommands, applyCommand, hx] at hrun
        simp only [List.cons_append, cycleCalls, hx, ih hrun]
      | error e tx =>
        simp only [applyCommands, applyCommand, hx] at hrun
        split_ifs at hrun with hcode
        · cases hrun
        · simp only [List.cons_append, cycleCalls, hx, if_neg hcode, ih hrun]

/-- Commands in two parts, with the turns of each. -/
theorem applyCommands_turns_append {earlier later : List Command}
    (hrun : applyCommands now (earlier ++ later) run = (none, run'))
    (h : run.tx.server.Shows a) (hknows : a.Knows ids)
    (hwf : ∀ op ∈ stampedOps now (earlier ++ later), op.WellFormed)
    (hfresh : (ids ++ jobIdsOf (stampedOps now (earlier ++ later))).Nodup) :
    ∃ mid turns b turns' a', applyCommands now earlier run = (none, mid) ∧
      turns.map Turn.call = (cycleCalls now earlier run.tx).map Prod.snd ∧
      Trace TurnStep (run.tx.server, a) turns (mid.tx.server, b) ∧ mid.tx.server.Shows b ∧
      turns'.map Turn.call = (cycleCalls now later mid.tx).map Prod.snd ∧
      Trace TurnStep (mid.tx.server, b) turns' (run'.tx.server, a') ∧ run'.tx.server.Shows a' ∧
      a'.Knows (ids ++ jobIdsOf (stampedOps now (earlier ++ later))) ∧
      Recorded (turns.flatMap Turn.events) run.tx.cycle mid.tx.cycle ∧
      Recorded (turns'.flatMap Turn.events) mid.tx.cycle run'.tx.cycle := by
  rw [stampedOps_append, jobIdsOf_append, ← List.append_assoc] at hfresh
  rw [stampedOps_append] at hwf
  rw [stampedOps_append, jobIdsOf_append, ← List.append_assoc]
  obtain ⟨mid, hearlier, hlater⟩ := exists_mid_of_applyCommands hrun
  obtain ⟨turns, b, hcalls, htrace, hshows, hknows', hrec⟩ := applyCommands_turns hearlier h hknows
    (fun op hop => hwf op (List.mem_append_left _ hop)) (List.nodup_append.mp hfresh).1
  obtain ⟨turns', a', hcalls', htrace', hshows', hknows'', hrec'⟩ := applyCommands_turns hlater
    hshows hknows' (fun op hop => hwf op (List.mem_append_right _ hop)) hfresh
  exact ⟨mid, turns, b, turns', a', hearlier, hcalls, htrace, hshows, hcalls', htrace', hshows',
    hknows'', hrec, hrec'⟩

/-- What is answered with success is committed. -/
theorem Round.committed_of_reply {round : Round}
    (h : (resp, .op (.ok r)) ∈ (round.run server).replies) :
    ∃ env rpcs op, round = .rpc env rpcs ∧ .op op resp ∈ rpcs ∧
      .answered (op.stamp env.now) (.ok r) ∈ round.committed server := by
  cases round with
  | restart => cases h
  | sweep env params =>
    rw [Round.run, runSweepCycle] at h
    split at h <;> cases h
  | rpc env rpcs =>
    obtain ⟨run, hrun, hcommit, hparked⟩ := parked_of_reply h
    obtain ⟨earlier, op, later, mid, tx, rfl, hearlier, hop⟩ :=
      parked_of_applyCommands hrun hparked List.not_mem_nil
    refine ⟨env, _, op, rfl, by simp, ?_⟩
    have hcalls := cycleCalls_append hearlier (.op op resp :: later)
    simp only [cycleCalls, hop] at hcalls
    simp only [Round.committed, hrun, hcommit, hcalls, Except.isOk, Except.toBool, if_true,
      List.map_append, List.map_cons]
    exact List.mem_append_right _ List.mem_cons_self

end Rounds

end Sepp
